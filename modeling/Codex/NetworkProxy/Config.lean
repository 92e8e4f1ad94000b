import Codex.NetworkProxy.Host
import Codex.Path.Absolute
import Mathlib

namespace Codex.NetworkProxy

open Text

/-!
# The configuration of the network proxy

* `NetworkDomainPermissions` — patterns with a permission each; of several entries for one
  pattern the strictest is in force (`effectiveEntries`);
* `NetworkProxySettings` — the settings, with the allowed and the denied domains read from them;
* `upsertDomainPermission` — give one host a permission, in place of all entries for this host;
* `validateUnixSocketAllowlistPaths` — the allowed sockets must be absolute paths.
-/

/-! ### Domains -/

/-- The permissions in the order of their precedence: of two entries for one pattern the later
    constructor is in force. -/
inductive NetworkDomainPermission
  | none
  | allow
  | deny
deriving DecidableEq

/-- The place of a permission in the order of the constructors. -/
def NetworkDomainPermission.rank : NetworkDomainPermission → ℕ
  | .none => 0
  | .allow => 1
  | .deny => 2

structure NetworkDomainPermissionEntry where
  pattern : Text
  permission : NetworkDomainPermission
deriving DecidableEq

structure NetworkDomainPermissions where
  entries : List NetworkDomainPermissionEntry
deriving DecidableEq

/-- Enter one entry: the first entry of a pattern fixes its place, the strictest its
    permission. -/
def enterEffective (effective : List NetworkDomainPermissionEntry)
    (entry : NetworkDomainPermissionEntry) : List NetworkDomainPermissionEntry :=
  if effective.any fun known => known.pattern = entry.pattern then
    effective.map fun known =>
      if known.pattern = entry.pattern ∧ known.permission.rank < entry.permission.rank then
        { known with permission := entry.permission }
      else known
  else effective ++ [entry]

/-- One entry for each pattern, in the order in which the patterns first appear. -/
def NetworkDomainPermissions.effectiveEntries (domains : NetworkDomainPermissions) :
    List NetworkDomainPermissionEntry := domains.entries.foldl enterEffective []

/-! ### Hooks of the interception proxy -/

structure MitmHookMatchConfig where
  methods : List Text
  pathPrefixes : List Text
  /-- The entries of the map in the order of its keys. -/
  query : List (Text × List Text)
  /-- The entries of the map in the order of its keys. -/
  headers : List (Text × List Text)
  /-- The JSON value, as compact text. -/
  body : Option Text
deriving DecidableEq

structure InjectedHeaderConfig where
  name : Text
  secretEnvVar : Option Text
  secretFile : Option Text
  valuePrefix : Option Text
deriving DecidableEq

structure MitmHookActionsConfig where
  stripRequestHeaders : List Text
  injectRequestHeaders : List InjectedHeaderConfig
deriving DecidableEq

structure MitmHookConfig where
  host : Text
  matcher : MitmHookMatchConfig
  actions : MitmHookActionsConfig
deriving DecidableEq

/-! ### Settings -/

inductive NetworkUnixSocketPermission
  | allow
  | deny
deriving DecidableEq

/-- Limited access allows only methods that read. -/
inductive NetworkMode
  | limited
  | full
deriving DecidableEq

structure NetworkProxySettings where
  enabled : Bool := false
  proxyUrl : Text := "http://127.0.0.1:3128"
  enableSocks5 : Bool := true
  socksUrl : Text := "http://127.0.0.1:8081"
  enableSocks5Udp : Bool := true
  allowUpstreamProxy : Bool := true
  dangerouslyAllowNonLoopbackProxy : Bool := false
  dangerouslyAllowAllUnixSockets : Bool := false
  mode : NetworkMode := .full
  domains : Option NetworkDomainPermissions := none
  /-- The entries of the map in the order of its keys. -/
  unixSockets : Option (List (Text × NetworkUnixSocketPermission)) := none
  allowLocalBinding : Bool := false
  mitm : Bool := false
  mitmHooks : List MitmHookConfig := []
deriving DecidableEq

structure NetworkProxyConfig where
  network : NetworkProxySettings := {}
deriving DecidableEq

namespace NetworkProxySettings

variable (settings : NetworkProxySettings)

/-- The patterns with a permission; `none` if there is none. -/
def domainEntries (permission : NetworkDomainPermission) : Option (List Text) :=
  let entries := settings.domains.map fun domains =>
    (domains.effectiveEntries.filter fun entry => entry.permission = permission).map (·.pattern)
  entries.filter fun patterns => patterns ≠ []

def allowedDomains : Option (List Text) := settings.domainEntries .allow

def deniedDomains : Option (List Text) := settings.domainEntries .deny

def allowUnixSockets : List Text :=
  ((settings.unixSockets.getD []).filter fun socket => socket.2 = .allow).map (·.1)

/-- Give a host a permission, in place of all entries whose pattern is normalized to this host. -/
def upsertDomainPermission (host : Text) (permission : NetworkDomainPermission)
    (normalize : Text → Text) : NetworkProxySettings :=
  let entries := (settings.domains.map (·.entries)).getD []
  let kept := entries.filter fun entry => normalize entry.pattern ≠ normalize host
  -- the entry that is pushed last keeps the list from being empty
  { settings with domains := some ⟨kept ++ [⟨host, permission⟩]⟩ }

end NetworkProxySettings

/-! ### What comes from outside the crate -/

/-- The functions of other crates, and those of the standard library whose results depend on
    tables or on a random seed. -/
structure Dependencies where
  /-- `{:?}` of a string. -/
  debug : Text → Text
  /-- The order in which a hash set is iterated. -/
  hashOrder : Finset Text → List Text
  mem_hashOrder : ∀ set entry, entry ∈ hashOrder set ↔ entry ∈ set
  /-- What two characters have in common that differ only in case. -/
  foldCase : Char → Char
  /-- The error of `globset` for a domain pattern, if it refuses it. -/
  globError : Text → Option Text
  /-- The error of `globset` for a set of patterns, if it refuses it. -/
  globSetError : List Text → Option Text
  /-- The error of `globset` for a pattern of a hook, if it refuses it. -/
  hookGlobError : (literalSeparator : Bool) → Text → Option Text
  headerNameError : Text → Option Text
  headerValueError : Text → Option Text
  /-- `url::Host::parse`, written as a text again. -/
  urlHost : Text → Option Text

/-- Dependencies that accept everything, and sort what they iterate. -/
def plainDependencies : Dependencies where
  debug s := '"' :: s ++ ['"']
  hashOrder set := set.sort (· ≤ ·)
  mem_hashOrder _ _ := Finset.mem_sort _
  foldCase := Char.toLower
  globError _ := none
  globSetError _ := none
  hookGlobError _ _ := none
  headerNameError _ := none
  headerValueError _ := none
  urlHost := some

/-- The messages of an `anyhow::Error`, the outermost context first. -/
abbrev ErrorChain := List Text

/-- `with_context`. -/
def withContext {α : Type} (context : Text) (result : Except ErrorChain α) : Except ErrorChain α :=
  result.mapError (context :: ·)

@[simp] theorem withContext_eq_ok {α : Type} {context : Text} {result : Except ErrorChain α}
    {a : α} : withContext context result = .ok a ↔ result = .ok a := by
  cases result <;> simp [withContext, Except.mapError]

variable (deps : Dependencies)

/-- `{:?}` of a vector of strings. -/
def Dependencies.debugList (entries : List Text) : Text :=
  '[' :: ", ".toList.intercalate (entries.map deps.debug) ++ [']']

/-! ### Sockets -/

/-- `ValidatedUnixSocketPath::parse`: on Unix every path that starts with a slash is absolute,
    and an absolute path is normalized without the working directory. -/
def validateUnixSocketPath (socketPath : Text) : Except ErrorChain Unit :=
  if isAbsolute socketPath then .ok ()
  else .error ["expected an absolute path, got " ++ deps.debug socketPath]

/-- The first allowed socket that is not an absolute path is reported, with its index. -/
def validateUnixSocketAllowlistPaths (config : NetworkProxyConfig) : Except ErrorChain Unit :=
  config.network.allowUnixSockets.zipIdx.forM fun (socketPath, index) =>
    withContext ("invalid network.allow_unix_sockets[" ++ (toString index).toList ++ [']'])
      (validateUnixSocketPath deps socketPath)

end Codex.NetworkProxy
