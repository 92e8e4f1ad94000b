import Codex.NetworkProxy.Runtime
import Mathlib.Tactic.Abel

namespace Codex.NetworkProxy

open Thread List Multiset

/-!
# Blocked-request telemetry

`record_blocked` puts an entry into the buffer of the live state and counts it, and
`drain_blocked` takes the entries out.  Reloads and updates of the domain lists copy buffer and
total out of the state in one critical section and write them back in a later one.

* `recordedEntries`, `drainedEntries`, `evictions` — what a trace says about entries;
* `Accounted` — every recorded entry is in exactly one place, and the total counts them;
* `Undisturbed` — no call records or drains between a snapshot and the section that writes it back,
  and a forced reload brings the right total along;
* `accounted_of_undisturbed` — then telemetry is accounted for.
-/

open Data

variable {Entry : Type} {deps : Dependencies}

/-! ### What a trace says about entries -/

namespace Event

def recordedEntry : Event Entry → Option Entry
  | .recorded entry _ => some entry
  | _ => none

def drainedEntries : Event Entry → List Entry
  | .drained entries => entries
  | _ => []

def evictions : Event Entry → List (Entry × List Entry)
  | .recorded _ evicted => evicted
  | _ => []

/-- Whether the event is the critical section of `record_blocked` or `drain_blocked`. -/
def changesTelemetry : Event Entry → Bool
  | .recorded _ _ | .drained _ => true
  | _ => false

end Event

variable (trace : List (ℕ × Event Entry))

/-- The entries that were recorded, in order. -/
def recordedEntries : List Entry := trace.filterMap (·.2.recordedEntry)

/-- The results of all calls of `drain_blocked`, one behind the other. -/
def drainedEntries : List Entry := trace.flatMap (·.2.drainedEntries)

/-- The entries that were evicted, each with those behind it in the buffer at that moment. -/
def evictions : List (Entry × List Entry) := trace.flatMap (·.2.evictions)

@[simp] theorem recordedEntries_concat (i : ℕ) (event : Event Entry) :
    recordedEntries (trace ++ [(i, event)]) =
      recordedEntries trace ++ event.recordedEntry.toList := by
  cases event <;> simp [recordedEntries, Event.recordedEntry]

@[simp] theorem drainedEntries_concat (i : ℕ) (event : Event Entry) :
    drainedEntries (trace ++ [(i, event)]) = drainedEntries trace ++ event.drainedEntries := by
  simp [drainedEntries]

@[simp] theorem evictions_concat (i : ℕ) (event : Event Entry) :
    evictions (trace ++ [(i, event)]) = evictions trace ++ event.evictions := by
  simp [evictions]

/-- Telemetry is neither lost nor duplicated: the recorded entries are those in the buffer, those
    in the results of `drain_blocked` and those evicted, each as often as it was recorded; an
    entry was evicted only when there were more than `MAX_BLOCKED_EVENTS` entries from it on; and
    the total is the number of recorded entries. -/
structure Accounted (trace : List (ℕ × Event Entry)) (state : ConfigState Entry) : Prop where
  entries : (recordedEntries trace).Perm
    (state.blocked ++ drainedEntries trace ++ (evictions trace).map Prod.fst)
  evicted : ∀ eviction ∈ evictions trace, maxBlockedEvents < (eviction.1 :: eviction.2).length
  total : state.blockedTotal = (recordedEntries trace).length

/-- The runs in which nothing comes between a snapshot and its use.  If one step of a call takes a
    snapshot and its next step writes it back, no other call records or drains in between; a state
    that `force_reload` writes has counted the entries recorded so far; and the total does not
    overflow. -/
structure Undisturbed (trace : List (ℕ × Event Entry)) : Prop where
  wroteBack : ∀ i before between after,
    trace = before ++ (i, .snapshot) :: (between ++ (i, .wroteBack) :: after) →
    (∀ event ∈ between, event.1 ≠ i) → ∀ event ∈ between, event.2.changesTelemetry = false
  forceReloaded : ∀ i before after total,
    trace = before ++ (i, .forceReloaded total) :: after → total = (recordedEntries before).length
  bounded : (recordedEntries trace).length < 2 ^ 64

theorem Undisturbed.of_append {trace later : List (ℕ × Event Entry)}
    (h : Undisturbed (trace ++ later)) : Undisturbed trace where
  wroteBack i before between after htrace :=
    h.wroteBack i before between (after ++ later) (by simp [htrace])
  forceReloaded i before after total htrace :=
    h.forceReloaded i before (after ++ later) total (by simp [htrace])
  bounded := by
    have hle : (recordedEntries trace).length ≤ (recordedEntries (trace ++ later)).length := by
      simp [recordedEntries]
    have := h.bounded
    omega

/-! ### What a step does to telemetry -/

/-- The state that a thread is going to write back. -/
def Thread.pending : Thread Entry → Option (ConfigState Entry)
  | .reloaded _ new | .listPrepared _ _ _ _ new => some new
  | _ => none

/-- Two states with the same telemetry. -/
def SameTelemetry (state other : ConfigState Entry) : Prop :=
  state.blocked = other.blocked ∧ state.blockedTotal = other.blockedTotal

/-- The steps, as far as they concern telemetry. -/
inductive TelemetryStep (state : ConfigState Entry) (thread : Thread Entry) :
    Event Entry → ConfigState Entry → Thread Entry → Prop
  | keep {state' : ConfigState Entry} {thread' : Thread Entry}
      (hsame : SameTelemetry state' state) (hpend : thread'.pending = none) :
      TelemetryStep state thread .silent state' thread'
  | snapshot {new : ConfigState Entry} {thread' : Thread Entry}
      (hpend : thread'.pending = some new) (hsame : SameTelemetry new state) :
      TelemetryStep state thread .snapshot state thread'
  | writeBack {new : ConfigState Entry} {thread' : Thread Entry}
      (hold : thread.pending = some new) (hpend : thread'.pending = none) :
      TelemetryStep state thread .wroteBack new thread'
  | record {thread' : Thread Entry} (entry : Entry) (hpend : thread'.pending = none) :
      TelemetryStep state thread
        (.recorded entry (evictOldest (state.blocked ++ [entry])).1) (state.record entry) thread'
  | drain {thread' : Thread Entry} (hpend : thread'.pending = none) :
      TelemetryStep state thread (.drained state.blocked) { state with blocked := [] } thread'
  | forceReload {thread' : Thread Entry} (new : ConfigState Entry)
      (hpend : thread'.pending = none) :
      TelemetryStep state thread (.forceReloaded new.blockedTotal)
        { new with blocked := state.blocked } thread'

theorem sameTelemetry_of_prepareDomainList {machine : Machine} {target : DomainListKind}
    {host : Host} {state new : ConfigState Entry}
    (h : prepareDomainList deps machine target host state = .ok (some new)) :
    SameTelemetry new state := by
  unfold prepareDomainList at h
  split at h
  · cases h
  · obtain ⟨-, h⟩ := Data.check_bind_eq_ok.mp h
    obtain ⟨built, -, h⟩ := Data.bind_eq_ok.mp h
    cases h
    exact ⟨rfl, rfl⟩

theorem Call.pending_start (call : Call Entry) : call.start.pending = none := by
  cases call with
  | addAllowedDomain host | addDeniedDomain host =>
    simp only [Call.start, startUpdate]
    split <;> rfl
  | _ => rfl

/-- Every step is one of these. -/
theorem Thread.next_telemetry {machine : Machine}
    {answer : Except ErrorChain (Option (ConfigState Entry))} {state state' : ConfigState Entry}
    {thread thread' : Thread Entry} {event : Event Entry}
    (h : thread.next deps machine answer state = some (event, state', thread')) :
    TelemetryStep state thread event state' thread' := by
  cases thread with
  | entering op =>
    by_cases hop : op = .forceReload
    · subst hop
      rcases answer with err | _ | new <;> cases h <;> exact .keep ⟨rfl, rfl⟩ rfl
    · rw [next_entering hop] at h
      rcases answer with err | _ | new <;> cases h <;> exact .keep ⟨rfl, rfl⟩ rfl
  | reloading op new =>
    cases h
    exact .snapshot rfl ⟨rfl, rfl⟩
  | reloaded op new =>
    cases h
    exact .writeBack rfl rfl
  | modeChecked mode constraints =>
    simp only [next] at h
    split at h <;> cases h <;> exact .keep ⟨rfl, rfl⟩ rfl
  | listPrepared target host previous constraints new =>
    simp only [next] at h
    split at h <;> cases h
    · exact .writeBack rfl rfl
    · exact .keep ⟨rfl, rfl⟩ rfl
  | forceReloading new =>
    cases h
    exact .forceReload new rfl
  | returned result => cases h
  | running op =>
    cases op with
    | recordBlocked entry =>
      cases h
      exact .record entry rfl
    | drainBlocked =>
      cases h
      exact .drain rfl
    | reloadIfNeeded | replaceConfigState new =>
      cases h
      exact .keep ⟨rfl, rfl⟩ rfl
    | forceReload => cases h
    | setNetworkMode mode =>
      simp only [next] at h
      split at h <;> cases h <;> exact .keep ⟨rfl, rfl⟩ rfl
    | updateDomainList target host =>
      simp only [next] at h
      split at h <;> cases h
      · exact .keep ⟨rfl, rfl⟩ rfl
      · exact .keep ⟨rfl, rfl⟩ rfl
      · rename_i new hprepared
        exact .snapshot rfl (sameTelemetry_of_prepareDomainList hprepared)

/-! ### Single steps -/

/-- Nothing is lost when entries are evicted. -/
theorem evictOldest_append (buffer : List Entry) :
    (evictOldest buffer).1.map Prod.fst ++ (evictOldest buffer).2 = buffer := by
  induction buffer with
  | nil => rfl
  | cons entry newer ih =>
    unfold evictOldest
    split
    · simpa using ih
    · rfl

/-- Entries are evicted only while there are too many. -/
theorem length_of_mem_evictOldest {buffer : List Entry} {eviction : Entry × List Entry}
    (h : eviction ∈ (evictOldest buffer).1) :
    maxBlockedEvents < (eviction.1 :: eviction.2).length := by
  induction buffer with
  | nil => simp [evictOldest] at h
  | cons entry newer ih =>
    unfold evictOldest at h
    split at h
    · rename_i hlong
      rcases mem_cons.mp h with rfl | h
      · simpa using hlong
      · exact ih h
    · simp at h

section Steps

variable {trace : List (ℕ × Event Entry)} {state state' : ConfigState Entry} {i : ℕ}

/-- A step that neither records nor drains, and keeps the telemetry of the state. -/
theorem Accounted.keep {event : Event Entry} (h : Accounted trace state)
    (hevent : event.changesTelemetry = false) (hblocked : state'.blocked = state.blocked)
    (htotal : state'.blockedTotal = state.blockedTotal) :
    Accounted (trace ++ [(i, event)]) state' := by
  obtain ⟨hrecorded, hdrained, hevictions⟩ : event.recordedEntry = none ∧
      event.drainedEntries = [] ∧ event.evictions = [] := by
    cases event with
    | recorded entry evicted | drained entries => cases hevent
    | _ => exact ⟨rfl, rfl, rfl⟩
  refine ⟨?_, ?_, ?_⟩
  · simpa [hrecorded, hdrained, hevictions, hblocked] using h.entries
  · simpa [hevictions] using h.evicted
  · simpa [hrecorded, htotal] using h.total

/-- The critical section of `record_blocked`. -/
theorem Accounted.record (h : Accounted trace state) (entry : Entry)
    (hbound : (recordedEntries trace).length + 1 < 2 ^ 64) :
    Accounted (trace ++ [(i, .recorded entry (evictOldest (state.blocked ++ [entry])).1)])
      (state.record entry) := by
  refine ⟨?_, ?_, ?_⟩
  · -- both sides are the old entries and the new one
    have hparts := evictOldest_append (state.blocked ++ [entry])
    have hold := h.entries
    rw [← coe_eq_coe] at hold ⊢
    replace hparts := congrArg (ofList) hparts
    simp only [recordedEntries_concat, drainedEntries_concat, evictions_concat,
      ConfigState.record, Event.recordedEntry, Event.drainedEntries, Event.evictions,
      Option.toList_some, map_append, ← coe_add] at hold hparts ⊢
    rw [hold, add_right_comm, add_right_comm _ _ (ofList [entry]), ← hparts]
    abel
  · intro eviction hmem
    rw [evictions_concat, mem_append] at hmem
    rcases hmem with hmem | hmem
    · exact h.evicted eviction hmem
    · exact length_of_mem_evictOldest hmem
  · have htotal := h.total
    simp only [recordedEntries_concat, Event.recordedEntry, Option.toList_some,
      length_append, length_singleton, ConfigState.record, saturatingSucc]
    omega

/-- The critical section of `drain_blocked`. -/
theorem Accounted.drain (h : Accounted trace state) :
    Accounted (trace ++ [(i, .drained state.blocked)]) { state with blocked := [] } := by
  refine ⟨?_, ?_, ?_⟩
  · have hold := h.entries
    rw [← coe_eq_coe] at hold ⊢
    simp only [recordedEntries_concat, drainedEntries_concat, evictions_concat,
      Event.recordedEntry, Event.drainedEntries, Event.evictions, append_nil, ← coe_add] at hold ⊢
    rw [hold]
    abel
  · simpa [Event.evictions] using h.evicted
  · simpa [Event.recordedEntry] using h.total

end Steps

/-! ### Whole runs -/

/-- What a thread with a pending state knows: it took its snapshot some time ago, and if no call
    has recorded or drained since, its state has the telemetry of the live one. -/
def SnapshotFresh (trace : List (ℕ × Event Entry)) (state : ConfigState Entry) (i : ℕ)
    (thread : Thread Entry) : Prop :=
  ∀ new, thread.pending = some new → ∃ before between,
    trace = before ++ (i, .snapshot) :: between ∧ (∀ event ∈ between, event.1 ≠ i) ∧
      ((∀ event ∈ between, event.2.changesTelemetry = false) → SameTelemetry new state)

section Runs

variable {trace : List (ℕ × Event Entry)} {state state' : ConfigState Entry} {i : ℕ}
  {thread thread' : Thread Entry} {event : Event Entry}

section

variable (hstep : TelemetryStep state thread event state' thread')
include hstep

/-- A step that neither records nor drains keeps the telemetry of the state, provided that what it
    writes back was not read too early. -/
theorem TelemetryStep.sameTelemetry
    (htrace : Undisturbed (trace ++ [(i, event)])) (hstate : Accounted trace state)
    (hthread : SnapshotFresh trace state i thread) (hevent : event.changesTelemetry = false) :
    SameTelemetry state' state := by
  cases hstep with
  | keep hsame hpend => exact hsame
  | snapshot hpend hsame => exact ⟨rfl, rfl⟩
  | writeBack hold hpend =>
    obtain ⟨before, between, rfl, howner, hfresh⟩ := hthread _ hold
    exact hfresh (htrace.wroteBack i before between [] (by simp) howner)
  | record entry hpend | drain hpend => cases hevent
  | forceReload new hpend =>
    have htotal := htrace.forceReloaded i trace [] _ rfl
    exact ⟨rfl, htotal.trans hstate.total.symm⟩

/-- A step keeps telemetry accounted for. -/
theorem TelemetryStep.accounted
    (htrace : Undisturbed (trace ++ [(i, event)])) (hstate : Accounted trace state)
    (hthread : SnapshotFresh trace state i thread) :
    Accounted (trace ++ [(i, event)]) state' := by
  by_cases hevent : event.changesTelemetry = false
  · obtain ⟨hblocked, htotal⟩ := hstep.sameTelemetry htrace hstate hthread hevent
    exact hstate.keep hevent hblocked htotal
  · cases hstep with
    | record entry hpend =>
      have hbound := htrace.bounded
      rw [recordedEntries_concat, length_append] at hbound
      exact hstate.record entry hbound
    | drain hpend => exact hstate.drain
    | _ => exact absurd rfl hevent

/-- A step leaves its thread with a fresh snapshot, or with none. -/
theorem TelemetryStep.snapshotFresh : SnapshotFresh (trace ++ [(i, event)]) state' i thread' := by
  intro new hnew
  cases hstep with
  | snapshot hpend hsame =>
    rw [hpend] at hnew
    cases hnew
    exact ⟨trace, [], rfl, by simp, fun _ => hsame⟩
  | keep hsame hpend | writeBack hold hpend | record entry hpend | drain hpend
  | forceReload _ hpend =>
    rw [hpend] at hnew
    cases hnew

/-- The step of another thread takes the freshness of a snapshot away only if it records or
    drains. -/
theorem TelemetryStep.snapshotFresh_other {j : ℕ} {other : Thread Entry}
    (htrace : Undisturbed (trace ++ [(i, event)])) (hstate : Accounted trace state)
    (hthread : SnapshotFresh trace state i thread) (hij : i ≠ j)
    (hother : SnapshotFresh trace state j other) :
    SnapshotFresh (trace ++ [(i, event)]) state' j other := by
  intro new hnew
  obtain ⟨before, between, hsplit, howner, hfresh⟩ := hother new hnew
  refine ⟨before, between ++ [(i, event)], by simp [hsplit], ?_, ?_⟩
  · exact List.forall_mem_append.mpr ⟨howner, List.forall_mem_singleton.mpr hij⟩
  · intro hquiet
    obtain ⟨hblocked, htotal⟩ := hfresh fun event hmem =>
      hquiet event (mem_append_left _ hmem)
    obtain ⟨hblocked', htotal'⟩ := hstep.sameTelemetry htrace hstate hthread
      (hquiet (i, event) (by simp))
    exact ⟨hblocked.trans hblocked'.symm, htotal.trans htotal'.symm⟩

end

end Runs

/-- **Telemetry is accounted for in every undisturbed run** from a state without telemetry. -/
theorem accounted_of_undisturbed {delivers : ConfigState Entry → Prop} {calls : Call Entry → Prop}
    {initial : ConfigState Entry} {trace : List (ℕ × Event Entry)}
    {pool : Data.Pool (ConfigState Entry) (Thread Entry)} (hblocked : initial.blocked = [])
    (htotal : initial.blockedTotal = 0) (run : ProxyRun deps delivers calls initial trace pool)
    (htrace : Undisturbed trace) : Accounted trace pool.shared := by
  refine (run.invariant (I := fun trace state => Undisturbed trace → Accounted trace state)
    (J := fun trace state i thread => Undisturbed trace → SnapshotFresh trace state i thread)
    ?_ ?_ ?_ ?_).1 htrace
  · intro _
    exact ⟨by simp [hblocked, recordedEntries, drainedEntries, evictions],
      by simp [evictions], by simp [htotal, recordedEntries]⟩
  · rintro trace state i thread - - ⟨call, _, rfl⟩ _ new hnew
    rw [Call.pending_start] at hnew
    cases hnew
  · rintro trace state i thread event state' thread' hstate hthread ⟨machine, answer, _, h⟩
    have hstep := next_telemetry h
    exact ⟨fun htrace => hstep.accounted htrace (hstate htrace.of_append)
      (hthread htrace.of_append), fun _ => hstep.snapshotFresh⟩
  · rintro trace state i thread event state' thread' j other hstate hthread hother hij
      ⟨machine, answer, _, h⟩ htrace
    exact (next_telemetry h).snapshotFresh_other htrace (hstate htrace.of_append)
      (hthread htrace.of_append) hij (hother htrace.of_append)

/-- Two calls of `record_blocked`: one finds a new configuration, and the other one records behind
    its write. -/
theorem accounted_of_undisturbed_record :
    ∃ trace pool, ProxyRun plainDependencies (fun new => new = defaultState) (fun _ => True)
        defaultState trace pool ∧
      Undisturbed trace ∧ pool.shared.blocked = [8, 7] ∧ Accounted trace pool.shared := by
  have h0 : ProxyRun plainDependencies (fun new => new = defaultState) (fun _ => True)
    defaultState [] _ := .refl
  have h1 := h0.spawn ⟨.recordBlocked 7, trivial, rfl⟩
  have h2 := h1.spawn ⟨.recordBlocked 8, trivial, rfl⟩
  have h3 := h2.step (i := 0) rfl ⟨bareMachine, .ok (some defaultState), by simp, rfl⟩
  have h4 := h3.step (i := 0) rfl ⟨bareMachine, .ok none, by simp, rfl⟩
  have h5 := h4.step (i := 1) rfl ⟨bareMachine, .ok none, by simp, rfl⟩
  have h6 := h5.step (i := 0) rfl ⟨bareMachine, .ok none, by simp, rfl⟩
  have h7 := h6.step (i := 1) rfl ⟨bareMachine, .ok none, by simp, rfl⟩
  have h8 := h7.step (i := 0) rfl ⟨bareMachine, .ok none, by simp, rfl⟩
  let trace : List (ℕ × Event ℕ) := [(0, .silent), (0, .snapshot), (1, .silent), (0, .wroteBack),
    (1, .recorded 8 []), (0, .recorded 7 [])]
  have hquiet : Undisturbed trace := by
    refine ⟨fun i before between after htrace howner event hmem => ?_,
      fun i before after total htrace => ?_, by decide⟩
    · rcases before with _ | ⟨first, _ | ⟨second, before⟩⟩
      · simp [trace] at htrace
      · rcases between with _ | ⟨mid, _ | ⟨wrote, between⟩⟩
        · simp [trace] at htrace
        · simp only [trace, cons_append, nil_append, cons.injEq] at htrace
          rw [List.mem_singleton.mp hmem, ← htrace.2.2.1]
          rfl
        · -- the write is the second step behind the snapshot
          simp only [trace, cons_append, nil_append, cons.injEq] at htrace
          obtain ⟨-, hsnapshot, -, rfl, -⟩ := htrace
          cases hsnapshot
          exact (howner (0, .wroteBack) (by simp) rfl).elim
      · have hsnapshot : (i, .snapshot) ∈ trace.drop 2 := by
          rw [htrace]
          simp
        simp [trace] at hsnapshot
    · have hforced : (i, .forceReloaded total) ∈ trace := htrace ▸ by simp
      simp [trace] at hforced
  exact ⟨_, _, h8, hquiet, rfl, accounted_of_undisturbed rfl rfl h8 hquiet⟩

/-- An entry that is recorded while `reload_if_needed` is between its two critical sections is
    lost, and so is its count; and `force_reload` sets the total back to zero. -/
theorem telemetry_lost_by_reload :
    (∃ trace pool, ProxyRun plainDependencies (fun new => new = defaultState) (fun _ => True)
        defaultState trace pool ∧
      recordedEntries trace = [7] ∧ drainedEntries trace = [] ∧ evictions trace = [] ∧
      pool.shared.blocked = [] ∧ pool.shared.blockedTotal = 0 ∧ ¬ Accounted trace pool.shared) ∧
    ∃ trace pool, ProxyRun plainDependencies (fun new => new = defaultState) (fun _ => True)
        defaultState trace pool ∧
      recordedEntries trace = [7] ∧ pool.shared.blocked = [7] ∧ pool.shared.blockedTotal = 0 ∧
      ¬ Accounted trace pool.shared := by
  have h0 : ProxyRun plainDependencies (fun new => new = defaultState) (fun _ => True)
    defaultState [] _ := .refl
  have hrecord := ((h0.spawn ⟨.recordBlocked 7, trivial, rfl⟩).step (i := 0) rfl
    ⟨bareMachine, .ok none, by simp, rfl⟩)
  refine ⟨?_, ?_⟩
  · -- the second call takes its snapshot before, and writes it back after
    have h1 := hrecord.spawn ⟨.reloadIfNeeded, trivial, rfl⟩
    have h2 := h1.step (i := 1) rfl ⟨bareMachine, .ok (some defaultState), by simp, rfl⟩
    have h3 := h2.step (i := 1) rfl ⟨bareMachine, .ok none, by simp, rfl⟩
    have h4 := h3.step (i := 0) rfl ⟨bareMachine, .ok none, by simp, rfl⟩
    have h5 := h4.step (i := 1) rfl ⟨bareMachine, .ok none, by simp, rfl⟩
    exact ⟨_, _, h5, rfl, rfl, rfl, rfl, rfl, fun h => absurd h.total (by decide)⟩
  · have h1 := hrecord.step (i := 0) rfl ⟨bareMachine, .ok none, by simp, rfl⟩
    have h2 := h1.spawn ⟨.forceReload, trivial, rfl⟩
    have h3 := h2.step (i := 1) rfl ⟨bareMachine, .ok (some defaultState), by simp, rfl⟩
    have h4 := h3.step (i := 1) rfl ⟨bareMachine, .ok none, by simp, rfl⟩
    exact ⟨_, _, h4, rfl, rfl, rfl, fun h => absurd h.total (by decide)⟩

end Codex.NetworkProxy
