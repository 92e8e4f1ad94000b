import Codex.NetworkProxy.DomainPattern
import Codex.NetworkProxy.MitmHook

namespace Codex.NetworkProxy

open Text DomainPattern

/-!
# Managed constraints

* `NetworkProxyConstraints` — the limits an administrator sets;
* `validatePolicyAgainstConstraints` — check a configuration against them; the checks stand in the
  order of the source, and the first that fails gives the error;
* `Permits` — what the check demands, without order and without messages;
* `validatePolicy_eq_ok_iff` — the check passes exactly then;
* `Permits.withMode` — a mode within the limits can be put into any configuration that passes.
-/

structure NetworkProxyConstraints where
  enabled : Option Bool := none
  mode : Option NetworkMode := none
  allowUpstreamProxy : Option Bool := none
  dangerouslyAllowNonLoopbackProxy : Option Bool := none
  dangerouslyAllowAllUnixSockets : Option Bool := none
  allowedDomains : Option (List Text) := none
  allowlistExpansionEnabled : Option Bool := none
  deniedDomains : Option (List Text) := none
  denylistExpansionEnabled : Option Bool := none
  allowUnixSockets : Option (List Text) := none
  allowLocalBinding : Option Bool := none
deriving DecidableEq

/-- `NetworkProxyConstraintError::InvalidValue`. -/
structure NetworkProxyConstraintError where
  fieldName : Text
  candidate : Text
  allowed : Text
deriving DecidableEq

def NetworkProxyConstraintError.display (err : NetworkProxyConstraintError) : Text :=
  "invalid value for " ++ err.fieldName ++ ": " ++ err.candidate ++
    " (allowed " ++ err.allowed ++ [')']

/-- A check that passes if a condition holds. -/
def demand (ok : Bool) (fieldName : String) (candidate allowed : Text) :
    Except NetworkProxyConstraintError Unit :=
  if ok then .ok () else .error ⟨fieldName.toList, candidate, allowed⟩

variable {fieldName : String}

@[simp] theorem demand_eq_ok {ok : Bool} {candidate allowed : Text} :
    demand ok fieldName candidate allowed = .ok () ↔ ok := by
  cases ok <;> simp [demand]

/-! ### The single checks -/

def networkModeRank : NetworkMode → ℕ
  | .limited => 0
  | .full => 1

/-- `{:?}` of a mode. -/
def NetworkMode.debug : NetworkMode → Text
  | .limited => "Limited"
  | .full => "Full"

/-- A switch that may be on only if it is allowed. -/
def validateSwitch (fieldName : String) (candidate allowed : Bool) :
    Except NetworkProxyConstraintError Unit := demand (!candidate || allowed) fieldName "true"
    "false (disabled by managed config)"

variable (config : NetworkProxyConfig) (constraints : NetworkProxyConstraints) (deps : Dependencies)

def validateEnabled : Except NetworkProxyConstraintError Unit :=
  validateSwitch "network.enabled" config.network.enabled (constraints.enabled.getD true)

def validateAllowUpstreamProxy : Except NetworkProxyConstraintError Unit :=
  validateSwitch "network.allow_upstream_proxy" config.network.allowUpstreamProxy
    (constraints.allowUpstreamProxy.getD true)

def validateAllowNonLoopbackProxy : Except NetworkProxyConstraintError Unit :=
  validateSwitch "network.dangerously_allow_non_loopback_proxy"
    config.network.dangerouslyAllowNonLoopbackProxy
    (constraints.dangerouslyAllowNonLoopbackProxy.getD true)

/-- Without a limit of its own, the switch for all sockets may be on if the sockets are not
    limited either. -/
def validateAllowAllUnixSockets : Except NetworkProxyConstraintError Unit :=
  validateSwitch "network.dangerously_allow_all_unix_sockets"
    config.network.dangerouslyAllowAllUnixSockets
    (constraints.dangerouslyAllowAllUnixSockets.getD constraints.allowUnixSockets.isNone)

def validateAllowLocalBinding : Except NetworkProxyConstraintError Unit :=
  validateSwitch "network.allow_local_binding" config.network.allowLocalBinding
    (constraints.allowLocalBinding.getD true)

/-- Whether a mode is within the limit. -/
def modeAllowed (mode : NetworkMode) (constraints : NetworkProxyConstraints) : Bool :=
  constraints.mode.all fun maxMode => networkModeRank mode ≤ networkModeRank maxMode

def validateMode (mode : NetworkMode) (constraints : NetworkProxyConstraints) :
    Except NetworkProxyConstraintError Unit :=
  demand (modeAllowed mode constraints) "network.mode" mode.debug
    (((constraints.mode.map NetworkMode.debug).getD []) ++ " or more restrictive")

def validateNonGlobalWildcardDomainPatterns (fieldName : String) (patterns : List Text) :
    Except NetworkProxyConstraintError Unit :=
  match patterns.find? isGlobalWildcardDomainPattern with
  | some pattern =>
    .error ⟨fieldName.toList, trim pattern,
      "exact hosts or scoped wildcards like *.example.com or **.example.com"⟩
  | none => .ok ()

/-- The entries without regard to case, as a set. -/
def loweredSet (entries : List Text) : Finset Text := (entries.map toAsciiLowercase).toFinset

/-- The allowed domains that no managed pattern covers. -/
def uncoveredDomains (managed candidate : List Text) : List Text :=
  let managedPatterns := managed.map (parseForConstraints deps)
  candidate.filter fun entry =>
    !managedPatterns.any fun pattern =>
      pattern.allows (parseForConstraints deps entry)

/-- The allowed domains against the managed ones.  With expansion the managed entries must be
    there, without it there must be no others; if the managed configuration says neither, each
    entry must be covered by a managed pattern.  Managed entries may be missing if they are
    denied. -/
def validateAllowedDomains (candidate denied allowedDomains : List Text)
    (expansionEnabled : Option Bool) : Except NetworkProxyConstraintError Unit := do
  validateNonGlobalWildcardDomainPatterns "network.allowed_domains" allowedDomains
  match expansionEnabled with
  | some true =>
    let missing := loweredSet allowedDomains \ (loweredSet candidate ∪ loweredSet denied)
    demand (missing = ∅) "network.allowed_domains"
      "missing managed allowed_domains entries" (deps.debugList (deps.hashOrder missing))
  | some false =>
    demand (loweredSet candidate = loweredSet allowedDomains \ loweredSet denied)
      "network.allowed_domains" (deps.debugList candidate)
      "must match managed allowed_domains"
  | none =>
    demand (uncoveredDomains deps allowedDomains candidate = []) "network.allowed_domains"
      (deps.debugList (uncoveredDomains deps allowedDomains candidate))
      "subset of managed allowed_domains"

/-- The denied domains against the managed ones: these must be there, and without expansion no
    others. -/
def validateDeniedDomains (candidate deniedDomains : List Text) (expansionEnabled : Option Bool) :
    Except NetworkProxyConstraintError Unit := do
  validateNonGlobalWildcardDomainPatterns "network.denied_domains" deniedDomains
  if expansionEnabled = some false then
    demand (loweredSet candidate = loweredSet deniedDomains) "network.denied_domains"
      (deps.debugList candidate) "must match managed denied_domains"
  else
    let missing := loweredSet deniedDomains \ loweredSet candidate
    demand (missing = ∅) "network.denied_domains"
      "missing managed denied_domains entries" (deps.debugList (deps.hashOrder missing))

/-- The allowed sockets against the managed ones. -/
def validateAllowUnixSockets (candidate allowUnixSockets : List Text) :
    Except NetworkProxyConstraintError Unit :=
  let invalid := candidate.filter fun entry =>
    toAsciiLowercase entry ∉ loweredSet allowUnixSockets
  demand (invalid = []) "network.allow_unix_sockets" (deps.debugList invalid)
    "subset of managed allow_unix_sockets"

/-! ### The check -/

def invalidMitmHookConfiguration (err : ErrorChain) : NetworkProxyConstraintError :=
  ⟨"network.mitm_hooks", err.headD [], "valid MITM hook configuration"⟩

def validatePolicyAgainstConstraints (config : NetworkProxyConfig)
    (constraints : NetworkProxyConstraints) : Except NetworkProxyConstraintError Unit := do
  let allowed := config.network.allowedDomains.getD []
  let denied := config.network.deniedDomains.getD []
  (validateMitmHookConfig deps config).mapError invalidMitmHookConfiguration
  validateNonGlobalWildcardDomainPatterns "network.denied_domains" denied
  validateEnabled config constraints
  validateMode config.network.mode constraints
  validateAllowUpstreamProxy config constraints
  validateAllowNonLoopbackProxy config constraints
  validateAllowAllUnixSockets config constraints
  validateAllowLocalBinding config constraints
  constraints.allowedDomains.toList.forM fun allowedDomains =>
    validateAllowedDomains deps allowed denied allowedDomains constraints.allowlistExpansionEnabled
  constraints.deniedDomains.toList.forM fun deniedDomains =>
    validateDeniedDomains deps denied deniedDomains constraints.denylistExpansionEnabled
  constraints.allowUnixSockets.toList.forM fun allowUnixSockets =>
    validateAllowUnixSockets deps config.network.allowUnixSockets allowUnixSockets

/-! ### What the check demands -/

/-- The demands on the allowed domains. -/
def AllowedDomainsPermitted (candidate denied allowedDomains : List Text) :
    (expansionEnabled : Option Bool) → Prop
  | some true => loweredSet allowedDomains ⊆ loweredSet candidate ∪ loweredSet denied
  | some false => loweredSet candidate = loweredSet allowedDomains \ loweredSet denied
  | none => ∀ entry ∈ candidate, ∃ managed ∈ allowedDomains,
      (parseForConstraints deps managed).allows
        (parseForConstraints deps entry)

/-- The demands on the denied domains. -/
def DeniedDomainsPermitted (candidate deniedDomains : List Text)
    (expansionEnabled : Option Bool) : Prop :=
  if expansionEnabled = some false then loweredSet candidate = loweredSet deniedDomains
  else loweredSet deniedDomains ⊆ loweredSet candidate

/-- None of the patterns stands for every host. -/
def NoGlobalWildcard (patterns : List Text) : Prop :=
  ∀ pattern ∈ patterns, isGlobalWildcardDomainPattern pattern = false

/-- What the constraints demand of a configuration. -/
@[mk_iff]
structure Permits (deps : Dependencies) (constraints : NetworkProxyConstraints)
    (config : NetworkProxyConfig) : Prop where
  hooks : validateMitmHookConfig deps config = .ok ()
  denied : NoGlobalWildcard (config.network.deniedDomains.getD [])
  enabled : config.network.enabled → constraints.enabled.getD true
  mode : modeAllowed config.network.mode constraints
  upstreamProxy : config.network.allowUpstreamProxy → constraints.allowUpstreamProxy.getD true
  nonLoopbackProxy : config.network.dangerouslyAllowNonLoopbackProxy →
    constraints.dangerouslyAllowNonLoopbackProxy.getD true
  allUnixSockets : config.network.dangerouslyAllowAllUnixSockets →
    constraints.dangerouslyAllowAllUnixSockets.getD constraints.allowUnixSockets.isNone
  localBinding : config.network.allowLocalBinding → constraints.allowLocalBinding.getD true
  allowedDomains : ∀ managed, constraints.allowedDomains = some managed →
    NoGlobalWildcard managed ∧ AllowedDomainsPermitted deps (config.network.allowedDomains.getD [])
        (config.network.deniedDomains.getD []) managed constraints.allowlistExpansionEnabled
  deniedDomains : ∀ managed, constraints.deniedDomains = some managed →
    NoGlobalWildcard managed ∧ DeniedDomainsPermitted (config.network.deniedDomains.getD []) managed
        constraints.denylistExpansionEnabled
  unixSockets : ∀ managed, constraints.allowUnixSockets = some managed →
    loweredSet config.network.allowUnixSockets ⊆ loweredSet managed

theorem validateSwitch_eq_ok {candidate allowed : Bool} :
    validateSwitch fieldName candidate allowed = .ok () ↔ (candidate → allowed) := by
  cases candidate <;> simp [validateSwitch]

theorem validateNonGlobalWildcardDomainPatterns_eq_ok {patterns : List Text} :
    validateNonGlobalWildcardDomainPatterns fieldName patterns = .ok () ↔
      NoGlobalWildcard patterns := by
  unfold validateNonGlobalWildcardDomainPatterns NoGlobalWildcard
  cases hfind : patterns.find? isGlobalWildcardDomainPattern with
  | none => simpa using hfind
  | some pattern =>
    have hglobal := List.find?_some hfind
    have hmem := List.mem_of_find?_eq_some hfind
    simp only [reduceCtorEq, false_iff, not_forall]
    exact ⟨pattern, hmem, by simp [hglobal]⟩

variable {candidate managed : List Text} {deps : Dependencies}

variable {expansionEnabled : Option Bool}

theorem validateAllowedDomains_eq_ok {denied : List Text} :
    validateAllowedDomains deps candidate denied managed expansionEnabled = .ok () ↔
      NoGlobalWildcard managed ∧
        AllowedDomainsPermitted deps candidate denied managed expansionEnabled := by
  unfold validateAllowedDomains
  rw [Data.check_bind_eq_ok, validateNonGlobalWildcardDomainPatterns_eq_ok]
  match expansionEnabled with
  | some true =>
    simp only [demand_eq_ok, decide_eq_true_eq, Finset.sdiff_eq_empty_iff_subset]
    rfl
  | some false =>
    simp only [demand_eq_ok, decide_eq_true_eq]
    rfl
  | none =>
    simp [uncoveredDomains, AllowedDomainsPermitted]

theorem validateDeniedDomains_eq_ok :
    validateDeniedDomains deps candidate managed expansionEnabled = .ok () ↔
      NoGlobalWildcard managed ∧ DeniedDomainsPermitted candidate managed expansionEnabled := by
  unfold validateDeniedDomains DeniedDomainsPermitted
  rw [Data.check_bind_eq_ok, validateNonGlobalWildcardDomainPatterns_eq_ok]
  split <;> simp

theorem validateAllowUnixSockets_eq_ok :
    validateAllowUnixSockets deps candidate managed = .ok () ↔
      loweredSet candidate ⊆ loweredSet managed := by
  simp [validateAllowUnixSockets, loweredSet, Finset.subset_iff]

/-- **The check passes exactly if the constraints permit the configuration.** -/
theorem validatePolicy_eq_ok_iff {config : NetworkProxyConfig}
    {constraints : NetworkProxyConstraints} :
    validatePolicyAgainstConstraints deps config constraints = .ok () ↔
      Permits deps constraints config := by
  unfold validatePolicyAgainstConstraints
  simp only [Data.check_bind_eq_ok, Data.mapError_eq_ok, Data.forM_eq_ok_iff,
    validateNonGlobalWildcardDomainPatterns_eq_ok, validateEnabled, validateMode,
    validateAllowUpstreamProxy, validateAllowNonLoopbackProxy, validateAllowAllUnixSockets,
    validateAllowLocalBinding, validateSwitch_eq_ok, demand_eq_ok, Option.mem_toList,
    validateAllowedDomains_eq_ok, validateDeniedDomains_eq_ok, validateAllowUnixSockets_eq_ok]
  exact (permits_iff deps constraints config).symm

/-! ### Changing the mode -/

/-- The configuration with another mode. -/
def NetworkProxyConfig.withMode (config : NetworkProxyConfig) (mode : NetworkMode) :
    NetworkProxyConfig := { config with network := { config.network with mode := mode } }

/-- Only the check of the mode reads the mode, so a mode that is within the limits can be put
    into any configuration that passes. -/
theorem Permits.withMode {constraints : NetworkProxyConstraints} {config : NetworkProxyConfig}
    {mode : NetworkMode} (h : Permits deps constraints config)
    (hmode : modeAllowed mode constraints) :
    Permits deps constraints (config.withMode mode) := { h with mode := hmode }

end Codex.NetworkProxy
