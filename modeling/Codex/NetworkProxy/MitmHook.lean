import Codex.NetworkProxy.Config
import Codex.Data.ExceptFold

namespace Codex.NetworkProxy

open Text

/-!
# Checking the hooks of the interception proxy

* `validateMitmHookConfig` — what every hook of a configuration must satisfy; it reads the switch
  `mitm` and the hooks, and nothing else of the settings;
* `compileMitmHooks` — the same check, and that the secrets of the injected headers are there.
  Only whether it succeeds is modelled: the compiled hooks are not read here.
-/

/-! ### Matchers -/

inductive MatcherPattern
  | literal (text : Text)
  | glob (pattern : Text)

def parseMatcherPattern (pattern : Text) : Except ErrorChain MatcherPattern :=
  match stripPrefix "literal:" pattern with
  | some literal => .ok (.literal literal)
  | none =>
    match stripPrefix "pattern:" pattern with
    | none => .ok (.literal pattern)
    | some globPattern =>
      if globPattern = [] then .error ["glob pattern must not be empty"]
      else .ok (.glob globPattern)

variable (deps : Dependencies)

def compileGlobMatcher (literalSeparator : Bool) (pattern : Text) : Except ErrorChain Unit :=
  match deps.hookGlobError literalSeparator pattern with
  | none => .ok ()
  | some err =>
    .error ["invalid glob pattern " ++ deps.debug pattern ++ ": " ++ err]

def compilePathMatchers (pathPrefixes : List Text) : Except ErrorChain Unit :=
  pathPrefixes.forM fun entry => do
    match ← parseMatcherPattern entry with
    | .literal text =>
      if text = [] then .error ["path_prefixes must not contain empty entries"] else .ok ()
    | .glob pattern => compileGlobMatcher deps true pattern

def compileValueMatchers (values : List Text) : Except ErrorChain Unit :=
  values.forM fun value => do
    match ← parseMatcherPattern value with
    | .literal _ => .ok ()
    | .glob pattern => compileGlobMatcher deps false pattern

/-! ### The parts of a hook -/

def normalizeHookHost (host : Text) : Except ErrorChain Text :=
  let normalized := normalizeHost host
  if normalized = [] then .error ["host must not be empty"]
  else if normalized.contains '*' then
    .error ["MITM hook hosts must be exact hosts and cannot contain wildcards"]
  else .ok normalized

def normalizeMethods (methods : List Text) : Except ErrorChain (List Text) :=
  methods.mapM fun method =>
    let normalized := (trim method).map Char.toUpper
    if normalized = [] then .error ["methods must not contain empty entries"]
    else .ok normalized

variable (name : Text)

def normalizeQueryName : Except ErrorChain Text :=
  if name = [] then .error ["query keys must not be empty"] else .ok name

/-- The second check for an empty key never fails: the first has already refused it. -/
def validateQueryConstraint (values : List Text) : Except ErrorChain Unit := do
  let normalized ← normalizeQueryName name
  if normalized = [] then .error ["query keys must not be empty"]
  else if values = [] then
    .error ["query key " ++ deps.debug name ++ " must list at least one allowed value"]
  else
    withContext ("invalid matcher for query key " ++ deps.debug name)
      (compileValueMatchers deps values)

def parseHeaderName : Except ErrorChain Unit :=
  match deps.headerNameError name with
  | none => .ok ()
  | some err => .error ["invalid header name " ++ deps.debug name ++ ": " ++ err]

def validateHeaderConstraint (values : List Text) : Except ErrorChain Unit := do
  parseHeaderName deps name
  withContext ("invalid matcher for header " ++ deps.debug name)
    (compileValueMatchers deps values)

/-- The path of a secret; `from_absolute_path` does not fail on an absolute path. -/
def parseSecretFile (path : Text) : Except ErrorChain AbsolutePathBuf :=
  if trim path = [] then .error ["secret_file must not be empty"]
  else if isAbsolute path then .ok (normalizePath (pathComponents path))
  else .error ["secret_file must be an absolute path: " ++ deps.debug path]

def validateInjectedHeader (header : InjectedHeaderConfig) : Except ErrorChain Unit := do
  parseHeaderName deps header.name
  match header.secretEnvVar, header.secretFile with
  | some secretEnvVar, none =>
    if trim secretEnvVar = [] then .error ["secret_env_var must not be empty"] else .ok ()
  | none, some secretFile => (parseSecretFile deps secretFile).map fun _ => ()
  | _, _ => .error ["expected exactly one of secret_env_var or secret_file"]

/-! ### Hooks -/

/-- The name of a field of a hook in error messages. -/
def hookField (index : ℕ) (field : String) : Text :=
  "network.mitm_hooks[" ++ (toString index).toList ++ "]." ++ field.toList

def requireHook (ok : Bool) (message : Text) : Except ErrorChain Unit :=
  if ok then .ok () else .error [message]

/-- The checks of one hook, in their order.  The last one never fails, since a host that is
    normalized is not empty. -/
def validateMitmHook (index : ℕ) (hook : MitmHookConfig) : Except ErrorChain Unit := do
  let invalid := fun field => "invalid " ++ hookField index field
  let host ← withContext (invalid "host") (normalizeHookHost hook.host)
  let methods ← withContext (invalid "match.methods") (normalizeMethods hook.matcher.methods)
  requireHook (methods ≠ []) (hookField index "match.methods must not be empty")
  withContext (invalid "match.path_prefixes") (compilePathMatchers deps hook.matcher.pathPrefixes)
  requireHook (hook.matcher.pathPrefixes ≠ [])
    (hookField index "match.path_prefixes must not be empty")
  requireHook hook.matcher.body.isNone (hookField index
    "match.body is reserved for a future release and is not yet supported")
  withContext (invalid "match.query")
    (hook.matcher.query.forM fun (name, values) => validateQueryConstraint deps name values)
  withContext (invalid "match.headers")
    (hook.matcher.headers.forM fun (name, values) => validateHeaderConstraint deps name values)
  withContext (invalid "actions.strip_request_headers")
    (hook.actions.stripRequestHeaders.forM (parseHeaderName deps))
  withContext (invalid "actions.inject_request_headers")
    (hook.actions.injectRequestHeaders.forM (validateInjectedHeader deps))
  requireHook (host ≠ []) (hookField index "host must not be empty")

def validateMitmHookConfig (config : NetworkProxyConfig) : Except ErrorChain Unit :=
  if config.network.mitmHooks = [] then .ok ()
  else if config.network.mitm then
    config.network.mitmHooks.zipIdx.forM fun (hook, index) => validateMitmHook deps index hook
  else .error ["network.mitm_hooks requires network.mitm = true"]

/-! ### Secrets -/

/-- What the process finds around it when a configuration is compiled. -/
structure Machine where
  envVar : Text → Option Text
  readSecretFile : AbsolutePathBuf → Except ErrorChain Text
  /-- The error of `MitmState::new`, if it fails. -/
  mitmStateError : (allowUpstreamProxy allowLocalBinding : Bool) → Option ErrorChain

variable (machine : Machine)

def resolveSecret (header : InjectedHeaderConfig) : Except ErrorChain Text :=
  match header.secretEnvVar, header.secretFile with
  | some envVar, none =>
    match machine.envVar envVar with
    | some value => .ok value
    | none => .error ["missing required environment variable " ++ envVar]
  | none, some secretFile => do
    let path ← parseSecretFile deps secretFile
    (machine.readSecretFile path).map trim
  | _, _ => .error ["expected exactly one of secret_env_var or secret_file"]

def compileInjectedHeader (header : InjectedHeaderConfig) : Except ErrorChain Unit := do
  parseHeaderName deps header.name
  let secret ← resolveSecret deps machine header
  match deps.headerValueError (header.valuePrefix.getD [] ++ secret) with
  | none => .ok ()
  | some err => .error ["invalid value for injected header " ++ header.name, err]

/-- After the check of the hooks, only the injected headers can still fail. -/
def compileMitmHooks (config : NetworkProxyConfig) : Except ErrorChain Unit := do
  validateMitmHookConfig deps config
  config.network.mitmHooks.forM fun hook =>
    hook.actions.injectRequestHeaders.forM fun header =>
      withContext ("failed to compile injected header " ++ header.name)
        (compileInjectedHeader deps machine header)

end Codex.NetworkProxy
