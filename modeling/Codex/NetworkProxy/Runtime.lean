import Codex.NetworkProxy.Constraints
import Codex.Data.Interleaving

namespace Codex.NetworkProxy

open Text Data

/-!
# The live state of the proxy

`NetworkProxyState` holds a `ConfigState` behind a lock.  Calls take the lock for short critical
sections, and what they read in one section may be out of date in the next.

* `ConfigState`, `buildConfigState` — the live state, and how it is compiled from a configuration;
* `Thread.next` — a call from one critical section to the next: what it does to the live state, and
  where it goes on;
* `Live` — the configuration passes the check of its constraints, and the sets of globs are those
  compiled from it;
* `live_of_run` — every interleaving keeps it.

The entries of the telemetry are never looked at, so their type is a parameter.
-/

/-! ### The state -/

/-- The state behind the lock.  The interception proxy and its hooks are left out: the functions
    modelled here store them and do not read them. -/
structure ConfigState (Entry : Type) where
  config : NetworkProxyConfig
  allowSet : GlobSet
  denySet : GlobSet
  constraints : NetworkProxyConstraints
  /-- The oldest entry is the first. -/
  blocked : List Entry
  blockedTotal : ℕ

variable {Entry : Type}

/-- `MitmState::new`, where the configuration asks for it. -/
def newMitmState (machine : Machine) (settings : NetworkProxySettings) : Except ErrorChain Unit :=
  if settings.mitm then
    match machine.mitmStateError settings.allowUpstreamProxy settings.allowLocalBinding with
    | none => .ok ()
    | some err => .error err
  else .ok ()

def buildConfigState (deps : Dependencies) (machine : Machine) (config : NetworkProxyConfig)
    (constraints : NetworkProxyConstraints) : Except ErrorChain (ConfigState Entry) := do
  validateUnixSocketAllowlistPaths deps config
  let allowed := config.network.allowedDomains.getD []
  let denied := config.network.deniedDomains.getD []
  (validateNonGlobalWildcardDomainPatterns "network.denied_domains" denied).mapError
    fun err => [err.display]
  let denySet ← compileDenylistGlobset deps denied
  let allowSet ← compileAllowlistGlobset deps allowed
  compileMitmHooks deps machine config
  newMitmState machine config.network
  return ⟨config, allowSet, denySet, constraints, [], 0⟩

/-- `state` with the telemetry of another state. -/
def ConfigState.withTelemetryOf (state other : ConfigState Entry) : ConfigState Entry :=
  { state with blocked := other.blocked, blockedTotal := other.blockedTotal }

/-! ### Critical sections -/

def maxBlockedEvents : ℕ := 200

/-- The loop of `record_blocked` that takes entries off the front while there are too many.  The
    result is the entries taken off, each with those behind it at that moment, and the rest. -/
def evictOldest : List Entry → List (Entry × List Entry) × List Entry
  | [] => ([], [])
  | entry :: newer =>
    if maxBlockedEvents < newer.length + 1 then
      ((entry, newer) :: (evictOldest newer).1, (evictOldest newer).2)
    else ([], entry :: newer)

/-- `saturating_add(1)` on `u64`. -/
def saturatingSucc (n : ℕ) : ℕ := min (n + 1) (2 ^ 64 - 1)

/-- The critical section of `record_blocked`. -/
def ConfigState.record (state : ConfigState Entry) (entry : Entry) : ConfigState Entry :=
  { state with
    blocked := (evictOldest (state.blocked ++ [entry])).2
    blockedTotal := saturatingSucc state.blockedTotal }

/-- The check of `set_network_mode`: the constraints it was made against. -/
def checkNetworkMode (deps : Dependencies) (mode : NetworkMode) (state : ConfigState Entry) :
    Except ErrorChain NetworkProxyConstraints :=
  match validatePolicyAgainstConstraints deps (state.config.withMode mode) state.constraints with
  | .ok () => .ok state.constraints
  | .error err => .error ["network.mode constrained by managed config", err.display]

inductive DomainListKind
  | allow
  | deny

namespace DomainListKind

def listName : DomainListKind → Text
  | .allow => "allowlist"
  | .deny => "denylist"

def constraintField : DomainListKind → Text
  | .allow => "network.allowed_domains"
  | .deny => "network.denied_domains"

def permission : DomainListKind → NetworkDomainPermission
  | .allow => .allow
  | .deny => .deny

def opposite : DomainListKind → DomainListKind
  | .allow => .deny
  | .deny => .allow

/-- `entries`; `opposite_entries` are those of the opposite kind. -/
def entries (target : DomainListKind) (network : NetworkProxySettings) : List Text :=
  match target with
  | .allow => network.allowedDomains.getD []
  | .deny => network.deniedDomains.getD []

end DomainListKind

variable (deps : Dependencies) (target : DomainListKind)

/-- Whether the list of this kind has the host and the other one does not. -/
def alreadyListed (host : Host) (network : NetworkProxySettings) : Bool :=
  let contains := fun entries : List Text => entries.any fun entry => normalizeHost entry = host.text
  contains (target.entries network) && !contains (target.opposite.entries network)

/-- The configuration with the host on the list. -/
def candidateConfig (host : Host) (config : NetworkProxyConfig) : NetworkProxyConfig :=
  ⟨config.network.upsertDomainPermission host.text target.permission normalizeHost⟩

/-- `update_domain_list` from the section that reads the state to the one that writes it: `none`
    if there is nothing to do, and otherwise the state to be written. -/
def prepareDomainList (machine : Machine) (target : DomainListKind) (host : Host)
    (state : ConfigState Entry) :
    Except ErrorChain (Option (ConfigState Entry)) := do
  if alreadyListed target host state.config.network then .ok none
  else
    let candidate := candidateConfig target host state.config
    withContext (target.constraintField ++ " constrained by managed config")
      ((validatePolicyAgainstConstraints deps candidate state.constraints).mapError
        fun err => [err.display])
    let new ← withContext ("failed to compile updated network " ++ target.listName)
      (buildConfigState deps machine candidate state.constraints)
    return some (new.withTelemetryOf state)

/-! ### Threads -/

/-- The calls, as they stand behind the parsing of their arguments. -/
inductive Operation (Entry : Type)
  | recordBlocked (entry : Entry)
  | drainBlocked
  | setNetworkMode (mode : NetworkMode)
  | updateDomainList (target : DomainListKind) (host : Host)
  | reloadIfNeeded
  | forceReload
  | replaceConfigState (new : ConfigState Entry)

/-- A call between two critical sections. -/
inductive Thread (Entry : Type)
  /-- At the beginning, or at the beginning of another round of its loop. -/
  | entering (op : Operation Entry)
  /-- In `reload_if_needed`, with the state the reloader has delivered. -/
  | reloading (op : Operation Entry) (new : ConfigState Entry)
  /-- In `reload_if_needed`, with the state to be written. -/
  | reloaded (op : Operation Entry) (new : ConfigState Entry)
  /-- Behind `reload_if_needed`. -/
  | running (op : Operation Entry)
  /-- In `set_network_mode`, with the constraints the mode was checked against. -/
  | modeChecked (mode : NetworkMode) (constraints : NetworkProxyConstraints)
  /-- In `update_domain_list`, with what it has read and the state to be written. -/
  | listPrepared (target : DomainListKind) (host : Host) (previous : NetworkProxyConfig)
      (constraints : NetworkProxyConstraints) (new : ConfigState Entry)
  /-- In `force_reload`, with the state the reloader has delivered. -/
  | forceReloading (new : ConfigState Entry)
  /-- The result of `drain_blocked` is a list of entries; the other calls return nothing. -/
  | returned (result : Except ErrorChain (List Entry))

/-- What can be seen of a step. -/
inductive Event (Entry : Type)
  | silent
  /-- A section that reads the telemetry to write it back later. -/
  | snapshot
  /-- A section that writes back what was read before. -/
  | wroteBack
  | recorded (entry : Entry) (evicted : List (Entry × List Entry))
  | drained (entries : List Entry)
  /-- The section of `force_reload` that writes the state, with the total it writes. -/
  | forceReloaded (blockedTotal : ℕ)

/-- `reload_if_needed` up to its first critical section: where a call goes on with the answer of
    the reloader. -/
def Thread.afterAnswer (op : Operation Entry) :
    Except ErrorChain (Option (ConfigState Entry)) → Thread Entry
  | .error err => .returned (.error err)
  | .ok none => .running op
  | .ok (some new) => .reloading op new

/-- One call up to the end of its next critical section.  `answer` is what the reloader says if it
    is asked: an error, or a new state, or that there is nothing to reload. -/
def Thread.next (machine : Machine) (answer : Except ErrorChain (Option (ConfigState Entry)))
    (state : ConfigState Entry) :
    Thread Entry → Option (Event Entry × ConfigState Entry × Thread Entry)
  | .entering .forceReload =>
    match answer with
    | .error err => some (.silent, state, .returned (.error err))
    | .ok none => none
    | .ok (some new) => some (.silent, state, .forceReloading new)
  | .forceReloading new =>
    some (.forceReloaded new.blockedTotal, { new with blocked := state.blocked },
      .returned (.ok []))
  | .entering op => some (.silent, state, .afterAnswer op answer)
  | .reloading op new => some (.snapshot, state, .reloaded op (new.withTelemetryOf state))
  | .reloaded op new => some (.wroteBack, new, .running op)
  | .running (.recordBlocked entry) =>
    some (.recorded entry (evictOldest (state.blocked ++ [entry])).1, state.record entry,
      .returned (.ok []))
  | .running .drainBlocked =>
    some (.drained state.blocked, { state with blocked := [] }, .returned (.ok state.blocked))
  | .running .reloadIfNeeded => some (.silent, state, .returned (.ok []))
  | .running .forceReload => none
  | .running (.replaceConfigState new) =>
    some (.silent, new.withTelemetryOf state, .returned (.ok []))
  | .running (.setNetworkMode mode) =>
    match checkNetworkMode deps mode state with
    | .error err => some (.silent, state, .returned (.error err))
    | .ok constraints => some (.silent, state, .modeChecked mode constraints)
  | .modeChecked mode constraints =>
    if state.constraints = constraints then
      some (.silent, { state with config := state.config.withMode mode }, .returned (.ok []))
    else some (.silent, state, .entering (.setNetworkMode mode))
  | .running (.updateDomainList target host) =>
    match prepareDomainList deps machine target host state with
    | .error err => some (.silent, state, .returned (.error err))
    | .ok none => some (.silent, state, .returned (.ok []))
    | .ok (some new) =>
      some (.snapshot, state, .listPrepared target host state.config state.constraints new)
  | .listPrepared target host previous constraints new =>
    if state.constraints = constraints ∧ state.config = previous then
      some (.wroteBack, new, .returned (.ok []))
    else some (.silent, state, .entering (.updateDomainList target host))
  | .returned _ => none

/-- The calls of `NetworkProxyState`. -/
inductive Call (Entry : Type)
  | recordBlocked (entry : Entry)
  | drainBlocked
  | setNetworkMode (mode : NetworkMode)
  | addAllowedDomain (host : Text)
  | addDeniedDomain (host : Text)
  | reloadIfNeeded
  | forceReload
  | replaceConfigState (new : ConfigState Entry)

/-- `update_domain_list` parses the host before anything else. -/
def startUpdate (host : Text) : Thread Entry :=
  match withContext "invalid network host" ((Host.parse host).mapError fun err => [err]) with
  | .ok host => .entering (.updateDomainList target host)
  | .error err => .returned (.error err)

/-- The thread of a call. -/
def Call.start : Call Entry → Thread Entry
  | .recordBlocked entry => .entering (.recordBlocked entry)
  | .drainBlocked => .entering .drainBlocked
  | .setNetworkMode mode => .entering (.setNetworkMode mode)
  | .addAllowedDomain host => startUpdate .allow host
  | .addDeniedDomain host => startUpdate .deny host
  | .reloadIfNeeded => .entering .reloadIfNeeded
  | .forceReload => .entering .forceReload
  | .replaceConfigState new => .entering (.replaceConfigState new)

variable (delivers : ConfigState Entry → Prop)

/-- The steps of a thread: the reloader may fail, or say that there is nothing to reload, or
    deliver one of its states, and the machine around the process may look different each time. -/
def ThreadStep (state : ConfigState Entry)
    (thread : Thread Entry) (event : Event Entry) (state' : ConfigState Entry)
    (thread' : Thread Entry) : Prop :=
  ∃ machine answer, (∀ new, answer = .ok (some new) → delivers new) ∧
    thread.next deps machine answer state = some (event, state', thread')

/-- The interleavings of calls from a collection, on a live state. -/
abbrev ProxyRun (calls : Call Entry → Prop)
    (initial : ConfigState Entry) (trace : List (ℕ × Event Entry))
    (pool : Data.Pool (ConfigState Entry) (Thread Entry)) : Prop :=
  Data.Pool.Run (fun thread => ∃ call, calls call ∧ call.start = thread)
    (ThreadStep deps delivers) ⟨initial, []⟩ trace pool

/-! ### Live states -/

variable {deps : Dependencies}

/-- The configuration passes the check of the constraints, and the sets of globs are compiled from
    it. -/
structure Live (deps : Dependencies) (state : ConfigState Entry) : Prop where
  permitted : Permits deps state.constraints state.config
  allowSet : compileAllowlistGlobset deps (state.config.network.allowedDomains.getD []) =
    .ok state.allowSet
  denySet : compileDenylistGlobset deps (state.config.network.deniedDomains.getD []) =
    .ok state.denySet

theorem Live.withTelemetryOf {state : ConfigState Entry} (h : Live deps state)
    (other : ConfigState Entry) : Live deps (state.withTelemetryOf other) :=
  ⟨h.permitted, h.allowSet, h.denySet⟩

variable {constraints : NetworkProxyConstraints}

variable {machine : Machine}

variable {state : ConfigState Entry} {config : NetworkProxyConfig}

section

variable (h : buildConfigState deps machine config constraints = .ok state)
include h

/-- What a state that was built holds. -/
theorem buildConfigState_eq_ok :
    state.config = config ∧ state.constraints = constraints ∧
      compileAllowlistGlobset deps (config.network.allowedDomains.getD []) = .ok state.allowSet ∧
      compileDenylistGlobset deps (config.network.deniedDomains.getD []) = .ok state.denySet := by
  obtain ⟨-, h⟩ := check_bind_eq_ok.mp h
  obtain ⟨-, h⟩ := check_bind_eq_ok.mp h
  obtain ⟨denySet, hdeny, h⟩ := bind_eq_ok.mp h
  obtain ⟨allowSet, hallow, h⟩ := bind_eq_ok.mp h
  obtain ⟨-, h⟩ := check_bind_eq_ok.mp h
  obtain ⟨-, h⟩ := check_bind_eq_ok.mp h
  cases h
  exact ⟨rfl, rfl, hallow, hdeny⟩

/-- A state that was built from a permitted configuration is live. -/
theorem live_of_build (hpermitted : Permits deps constraints config) : Live deps state := by
  obtain ⟨hconfig, hconstraints, hallow, hdeny⟩ := buildConfigState_eq_ok h
  subst hconfig hconstraints
  exact ⟨hpermitted, hallow, hdeny⟩

end

/-- The mode that passed a check is within the constraints the check was made against. -/
theorem modeAllowed_of_checkNetworkMode {mode : NetworkMode}
    (h : checkNetworkMode deps mode state = .ok constraints) :
    modeAllowed mode constraints := by
  unfold checkNetworkMode at h
  split at h
  · rename_i hvalid
    cases h
    exact (validatePolicy_eq_ok_iff.mp hvalid).mode
  · cases h

/-- The state that `update_domain_list` is going to write is live. -/
theorem live_of_prepareDomainList {target : DomainListKind} {host : Host}
    {state new : ConfigState Entry}
    (h : prepareDomainList deps machine target host state = .ok (some new)) : Live deps new := by
  unfold prepareDomainList at h
  split at h
  · cases h
  · obtain ⟨hvalid, h⟩ := check_bind_eq_ok.mp h
    obtain ⟨built, hbuilt, h⟩ := bind_eq_ok.mp h
    rw [withContext_eq_ok, mapError_eq_ok, validatePolicy_eq_ok_iff] at hvalid
    rw [withContext_eq_ok] at hbuilt
    cases h
    exact (live_of_build hbuilt hvalid).withTelemetryOf state

/-! ### Every interleaving keeps the state live -/

/-- The states a call brings along are live. -/
def Operation.Sound (deps : Dependencies) : Operation Entry → Prop
  | .replaceConfigState new => Live deps new
  | _ => True

/-- What a thread holds between two critical sections. -/
def Thread.Sound (deps : Dependencies) : Thread Entry → Prop
  | .entering op | .running op => op.Sound deps
  | .reloading op new | .reloaded op new => op.Sound deps ∧ Live deps new
  | .modeChecked mode constraints => modeAllowed mode constraints
  | .listPrepared _ _ _ _ new | .forceReloading new => Live deps new
  | .returned _ => True

/-- The calls other than `force_reload` begin with `reload_if_needed`. -/
theorem Thread.next_entering {answer : Except ErrorChain (Option (ConfigState Entry))}
    {op : Operation Entry} (hop : op ≠ .forceReload) :
    (Thread.entering op).next deps machine answer state =
      some (.silent, state, .afterAnswer op answer) := by
  cases op with
  | forceReload => exact absurd rfl hop
  | _ => rfl

section Steps

variable {machine : Machine} {answer : Except ErrorChain (Option (ConfigState Entry))}
  {state state' : ConfigState Entry} {thread thread' : Thread Entry} {event : Event Entry}

/-- A critical section leaves the state live, and its thread sound. -/
theorem Thread.next_live (hstate : Live deps state) (hthread : thread.Sound deps)
    (hanswer : ∀ new, answer = .ok (some new) → Live deps new)
    (h : thread.next deps machine answer state = some (event, state', thread')) :
    Live deps state' ∧ thread'.Sound deps := by
  cases thread with
  | entering op =>
    by_cases hop : op = .forceReload
    · subst hop
      rcases answer with err | _ | new <;> cases h
      · exact ⟨hstate, trivial⟩
      · exact ⟨hstate, hanswer new rfl⟩
    · rw [Thread.next_entering hop] at h
      rcases answer with err | _ | new <;> cases h
      · exact ⟨hstate, trivial⟩
      · exact ⟨hstate, hthread⟩
      · exact ⟨hstate, hthread, hanswer new rfl⟩
  | reloading op new =>
    cases h
    exact ⟨hstate, hthread.1, hthread.2.withTelemetryOf state⟩
  | reloaded op new =>
    cases h
    exact ⟨hthread.2, hthread.1⟩
  | modeChecked mode constraints =>
    simp only [Thread.next] at h
    split at h <;> cases h
    · -- the constraints are still those the mode was checked against
      rename_i hconstraints
      subst hconstraints
      -- neither set of globs depends on the mode
      exact ⟨⟨hstate.permitted.withMode hthread, hstate.allowSet, hstate.denySet⟩, trivial⟩
    · exact ⟨hstate, trivial⟩
  | listPrepared target host previous constraints new =>
    simp only [Thread.next] at h
    split at h <;> cases h
    · exact ⟨hthread, trivial⟩
    · exact ⟨hstate, trivial⟩
  | forceReloading new =>
    cases h
    exact ⟨⟨hthread.permitted, hthread.allowSet, hthread.denySet⟩, trivial⟩
  | returned result => cases h
  | running op =>
    cases op with
    | recordBlocked entry =>
      cases h
      exact ⟨⟨hstate.permitted, hstate.allowSet, hstate.denySet⟩, trivial⟩
    | drainBlocked =>
      cases h
      exact ⟨⟨hstate.permitted, hstate.allowSet, hstate.denySet⟩, trivial⟩
    | reloadIfNeeded =>
      cases h
      exact ⟨hstate, trivial⟩
    | forceReload => cases h
    | replaceConfigState new =>
      cases h
      exact ⟨hthread.withTelemetryOf state, trivial⟩
    | setNetworkMode mode =>
      simp only [Thread.next] at h
      split at h <;> cases h
      · exact ⟨hstate, trivial⟩
      · rename_i constraints hcheck
        exact ⟨hstate, modeAllowed_of_checkNetworkMode hcheck⟩
    | updateDomainList target host =>
      simp only [Thread.next] at h
      split at h <;> cases h
      · exact ⟨hstate, trivial⟩
      · exact ⟨hstate, trivial⟩
      · rename_i new hprepared
        exact ⟨hstate, live_of_prepareDomainList hprepared⟩

end Steps

/-- A call is sound if the state it brings along is. -/
theorem Call.start_sound {call : Call Entry}
    (h : ∀ new, call = .replaceConfigState new → Live deps new) : call.start.Sound deps := by
  cases call with
  | addAllowedDomain host | addDeniedDomain host =>
    simp only [Call.start, startUpdate]
    split <;> trivial
  | replaceConfigState new => exact h new rfl
  | _ => trivial

/-- **Every interleaving keeps the state live**, if the states that are delivered by the reloader
    or handed to `replace_config_state` are. -/
theorem live_of_run {delivers : ConfigState Entry → Prop} {calls : Call Entry → Prop}
    {initial : ConfigState Entry} {trace : List (ℕ × Event Entry)}
    {pool : Data.Pool (ConfigState Entry) (Thread Entry)} (hinitial : Live deps initial)
    (hdelivers : ∀ new, delivers new → Live deps new)
    (hcalls : ∀ new, calls (.replaceConfigState new) → Live deps new)
    (run : ProxyRun deps delivers calls initial trace pool) : Live deps pool.shared := by
  refine (run.invariant (I := fun _ state => Live deps state)
    (J := fun _ _ _ thread => thread.Sound deps) hinitial ?_ ?_ ?_).1
  · rintro _ _ _ _ - - ⟨call, hcall, rfl⟩
    exact Call.start_sound fun new hnew => hcalls new (hnew ▸ hcall)
  · rintro _ state _ thread event state' thread' hstate hthread ⟨machine, answer, hanswer, h⟩
    exact Thread.next_live hstate hthread (fun new hnew => hdelivers new (hanswer new hnew)) h
  · intro _ _ _ _ _ _ _ _ _ _ _ hother _ _
    exact hother

/-- A state as `build_config_state` returns it, whatever its telemetry is. -/
def IsBuilt (deps : Dependencies) (state : ConfigState Entry) : Prop :=
  ∃ machine, ∃ built : ConfigState Entry,
    buildConfigState deps machine state.config state.constraints = .ok built ∧
      built.allowSet = state.allowSet ∧ built.denySet = state.denySet

theorem IsBuilt.live {state : ConfigState Entry} (h : IsBuilt deps state)
    (hvalid : validatePolicyAgainstConstraints deps state.config state.constraints = .ok ()) :
    Live deps state := by
  obtain ⟨machine, built, hbuilt, hallow, hdeny⟩ := h
  obtain ⟨-, -, hallowSet, hdenySet⟩ := buildConfigState_eq_ok hbuilt
  exact ⟨validatePolicy_eq_ok_iff.mp hvalid, hallow ▸ hallowSet, hdeny ▸ hdenySet⟩

/-- The calls that change the policy, and `reload_if_needed`. -/
def Call.changesPolicy : Call Entry → Prop
  | .setNetworkMode _ | .addAllowedDomain _ | .addDeniedDomain _ | .reloadIfNeeded => True
  | _ => False

/-- **The live configuration always satisfies its constraints.**  Start from a state that was
    built from a configuration that passes the check, and let the reloader deliver such states
    only.  Then however the calls that change the policy are interleaved, the configuration in
    force passes the check against the constraints in force, and the sets of globs are those
    compiled from it. -/
theorem proxyRun_validates {delivers : ConfigState Entry → Prop} {initial : ConfigState Entry}
    {trace : List (ℕ × Event Entry)} {pool : Data.Pool (ConfigState Entry) (Thread Entry)}
    (hbuilt : IsBuilt deps initial)
    (hvalid : validatePolicyAgainstConstraints deps initial.config initial.constraints = .ok ())
    (hdelivers : ∀ new, delivers new → IsBuilt deps new ∧
      validatePolicyAgainstConstraints deps new.config new.constraints = .ok ())
    (run : ProxyRun deps delivers Call.changesPolicy initial trace pool) :
    validatePolicyAgainstConstraints deps pool.shared.config pool.shared.constraints = .ok () ∧
      compileAllowlistGlobset deps (pool.shared.config.network.allowedDomains.getD []) =
        .ok pool.shared.allowSet ∧
      compileDenylistGlobset deps (pool.shared.config.network.deniedDomains.getD []) =
        .ok pool.shared.denySet := by
  have hlive : Live deps pool.shared := live_of_run (hbuilt.live hvalid)
      (fun new hnew => (hdelivers new hnew).1.live (hdelivers new hnew).2)
      (fun new hnew => hnew.elim) run
  exact ⟨validatePolicy_eq_ok_iff.mpr hlive.permitted, hlive.allowSet, hlive.denySet⟩

/-- A machine without environment variables and secrets. -/
def bareMachine : Machine where
  envVar _ := none
  readSecretFile _ := .error []
  mitmStateError _ _ := none

/-- The state built from the default configuration, without constraints. -/
def defaultState : ConfigState ℕ := ⟨{}, [], [], {}, [], 0⟩

/-- A state whose constraints manage the domains that may be allowed. -/
def managedState : ConfigState ℕ := ⟨{}, [], [], { allowedDomains := some ["*.example.com"] }, [], 0⟩

/-- Two calls of `add_allowed_domain`, of which one finds a new configuration and the other one is
    refused in between. -/
theorem proxyRun_validates_example_com :
    ∃ trace pool, ProxyRun plainDependencies (· = managedState) Call.changesPolicy managedState
        trace pool ∧ pool.shared.allowSet = ["api.example.com"] ∧ validatePolicyAgainstConstraints
        plainDependencies pool.shared.config pool.shared.constraints = .ok () ∧
      compileAllowlistGlobset plainDependencies
        (pool.shared.config.network.allowedDomains.getD []) = .ok pool.shared.allowSet := by
  have h0 : ProxyRun plainDependencies (· = managedState) Call.changesPolicy managedState [] _ :=
    .refl
  have h1 := h0.spawn ⟨.addAllowedDomain "api.example.com", trivial, rfl⟩
  have h2 := h1.spawn ⟨.addAllowedDomain "evil.com", trivial, rfl⟩
  have h3 := h2.step (i := 0) rfl ⟨bareMachine, .ok (some managedState), by simp, rfl⟩
  have h4 := h3.step (i := 1) rfl ⟨bareMachine, .ok none, by simp, rfl⟩
  have h5 := h4.step (i := 0) rfl ⟨bareMachine, .ok none, by simp, rfl⟩
  have h6 := h5.step (i := 0) rfl ⟨bareMachine, .ok none, by simp, rfl⟩
  have h7 := h6.step (i := 0) rfl ⟨bareMachine, .ok none, by simp, rfl⟩
  have h8 := h7.step (i := 1) rfl ⟨bareMachine, .ok none, by simp, rfl⟩
  have h9 := h8.step (i := 0) rfl ⟨bareMachine, .ok none, by simp, rfl⟩
  have hbuilt : IsBuilt plainDependencies managedState := ⟨bareMachine, _, rfl, rfl, rfl⟩
  have hvalid := proxyRun_validates hbuilt rfl (by rintro _ rfl; exact ⟨hbuilt, rfl⟩) h9
  exact ⟨_, _, h9, by decide, hvalid.1, hvalid.2.1⟩

end Codex.NetworkProxy
