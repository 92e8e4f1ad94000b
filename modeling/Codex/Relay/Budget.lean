import Codex.Relay.Authorised

namespace Codex.Relay

open Codex.Data Environment EnvironmentEvent AList
open List hiding length_erase_of_mem

/-!
# The failure budget

A peer that no registry check lets in may cost the executor only so many handshakes.  Every request
that is read either fails at once, or is pending while its check runs, and every way in which a
pending request goes wrong is charged to the budget of the connection, except for one: a reset
frame takes a pending request away for free.

* `Ledger` — the requests that have been read are those charged, those pending, and some that are
  still to be charged.
* `step_ledger` — a turn keeps the ledger balanced, if checks only reject and no reset meets a
  pending request.
* `rejected_requests_bounded` — the bound over whole runs of this kind.
* `resets_evade_budget` — with resets the bound fails.
-/

variable {η κ μ : Type} {host : EnvironmentHost η κ μ}

/-! ### The ledger -/

/-- The requests that have been read, less `uncharged` of them, are charged or pending, and every
    pending request has its check running. -/
structure Ledger (uncharged : ℕ) (env : Environment η κ μ) : Prop where
  streams_eq : env.streams = ∅
  read_eq : env.requestsRead =
    env.failedHandshakes + env.pendingHandshakes.entries.length + uncharged
  checks_le : env.checksStarted ≤ env.requestsRead
  failed_le : env.failedHandshakes ≤ maxFailedNoiseHandshakes
  failed_lt : env.running → env.failedHandshakes < maxFailedNoiseHandshakes
  tasks_le : env.validationTasks.length ≤ maxPendingHandshakeValidations
  tasks_lt : ∀ task ∈ env.validationTasks, task.validationId < env.nextValidationId
  tasks_nodup : (env.validationTasks.map (·.validationId)).Nodup
  task_of_pending : ∀ sid i, env.pendingId sid = some i →
    ∃ task ∈ env.validationTasks, task.streamId = sid ∧ task.validationId = i

theorem ledger_start : Ledger 0 ({} : Environment η κ μ) where
  streams_eq := rfl
  read_eq := rfl
  checks_le := le_rfl
  failed_le := Nat.zero_le _
  failed_lt _ := Nat.zero_lt_succ _
  tasks_le := Nat.zero_le _
  tasks_lt := by simp
  tasks_nodup := nodup_nil
  task_of_pending := by simp [pendingId]

namespace Ledger

variable {uncharged : ℕ} {env : Environment η κ μ}

theorem sendReset (h : Ledger uncharged env) (room : Bool) (sid : Text) :
    Ledger uncharged (env.sendReset room sid) := { h with }

theorem stop (h : Ledger uncharged env) : Ledger uncharged { env with running := false } :=
  { h with failed_lt := nofun }

/-- Charging settles one request, and ends the loop when the budget is used up. -/
theorem charge (h : Ledger 1 env) (hlt : env.failedHandshakes < maxFailedNoiseHandshakes) :
    Ledger 0 env.chargeFailure := by
  refine { h with read_eq := ?_, failed_le := hlt, failed_lt := fun hrunning => ?_ }
  · have hread := h.read_eq
    show env.requestsRead = env.failedHandshakes + 1 + env.pendingHandshakes.entries.length + 0
    omega
  · have hmore : ¬ env.failedHandshakes + 1 ≥ maxFailedNoiseHandshakes := by
      simpa [chargeFailure, failedHandshakeBudgetExhausted] using hrunning
    exact not_le.mp hmore

variable {sid : Text}

/-- A request that is taken out of the pending ones is to be charged. -/
theorem removePending (h : Ledger 0 env) (hmem : sid ∈ env.pendingHandshakes) :
    Ledger 1 (env.removePending sid) := by
  refine { h with read_eq := ?_, task_of_pending := fun other i hi => ?_ }
  · have hread := h.read_eq
    have hlength := length_erase_of_mem hmem
    show env.requestsRead =
      env.failedHandshakes + (env.pendingHandshakes.erase sid).entries.length + 1
    omega
  · have hold : (if other = sid then none else env.pendingId other) = some i :=
      (map_lookup_erase _ _ _ _).symm.trans hi
    split_ifs at hold
    exact h.task_of_pending other i hold

/-- A request that has just been read is to be charged, or to be put aside. -/
theorem countRequest (h : Ledger 0 env) : Ledger 1 env.countRequest :=
  { h with
    read_eq := congrArg (· + 1) h.read_eq
    checks_le := h.checks_le.trans (Nat.le_succ _) }

theorem startValidation (h : Ledger 0 env) (hnew : sid ∉ env.pendingHandshakes)
    (hroom : env.validationTasks.length < maxPendingHandshakeValidations) (authorization : Text)
    (pending : PendingResponderHandshake η κ) :
    Ledger 0 (env.countRequest.startValidation sid authorization pending) := by
  refine { h with
    read_eq := ?_, checks_le := Nat.succ_le_succ h.checks_le, tasks_le := ?_,
    tasks_lt := ?_, tasks_nodup := ?_, task_of_pending := fun other i hi => ?_ }
  · have hread := h.read_eq
    show env.requestsRead + 1 =
      env.failedHandshakes + (env.pendingHandshakes.insert sid _).entries.length + 0
    rw [length_insert_of_notMem hnew]
    omega
  · show (env.validationTasks ++ [_]).length ≤ _
    rw [length_append]
    exact hroom
  · exact forall_mem_append.mpr ⟨fun task hold => Nat.lt_succ_of_lt (h.tasks_lt task hold),
      forall_mem_singleton.mpr (Nat.lt_succ_self _)⟩
  · show ((env.validationTasks ++ [_]).map ValidationTask.validationId).Nodup
    rw [map_append]
    refine List.Nodup.append h.tasks_nodup (nodup_singleton _) ?_
    intro i hi hnext
    obtain ⟨task, htask, rfl⟩ := mem_map.mp hi
    exact absurd (mem_singleton.mp hnext) (h.tasks_lt task htask).ne
  · have hold : (if other = sid then some env.nextValidationId else env.pendingId other) =
        some i := (map_lookup_insert _ _ _ _ _).symm.trans hi
    split_ifs at hold with hother
    · exact ⟨_, mem_append_right _ (mem_singleton_self _), hother.symm, Option.some.inj hold⟩
    · obtain ⟨task, htask, hsame⟩ := h.task_of_pending other i hold
      exact ⟨task, mem_append_left _ htask, hsame⟩

/-- No more requests are pending than checks are running. -/
theorem length_pending_le (h : Ledger uncharged env) (hinv : env.Inv) :
    env.pendingHandshakes.entries.length ≤ maxPendingHandshakeValidations := by
  have hlookup : ∀ sid pending, env.pendingHandshakes.lookup sid = some pending →
      env.pendingId sid = some pending.validationId := by
    intro sid pending hpend
    rw [pendingId, hpend]
    rfl
  have hlength : env.pendingHandshakes.entries.length ≤
      (env.validationTasks.map (·.validationId)).length := by
    refine length_entries_le (·.validationId) ?_ ?_
    · intro sid pending hpend
      obtain ⟨task, htask, -, hid⟩ := h.task_of_pending _ _ (hlookup _ _ hpend)
      exact hid ▸ mem_map_of_mem htask
    · intro sid pending other pending' hpend hpend' hsame
      exact hinv.pending_inj _ _ _ (hlookup _ _ hpend) (hsame ▸ hlookup _ _ hpend')
  rw [length_map] at hlength
  exact hlength.trans h.tasks_le

/-- A check that is no longer needed may end. -/
theorem filterTasks (h : Ledger uncharged env) {validationId : ℕ}
    (hnone : ∀ sid, env.pendingId sid ≠ some validationId) :
    Ledger uncharged { env with
      validationTasks := env.validationTasks.filter (·.validationId != validationId) } := by
  refine { h with
    tasks_le := (length_filter_le _ _).trans h.tasks_le
    tasks_lt := fun task htask => h.tasks_lt task (mem_filter.mp htask).1
    tasks_nodup := h.tasks_nodup.sublist (filter_sublist.map _)
    task_of_pending := fun sid i hi => ?_ }
  obtain ⟨task, htask, hstream, hid⟩ := h.task_of_pending sid i hi
  have hne : task.validationId ≠ validationId := by
    rintro rfl
    exact hnone sid (hid ▸ hi)
  exact ⟨task, mem_filter.mpr ⟨htask, by simpa using hne⟩, hstream, hid⟩

/-- The running check with a given number belongs to the stream id that waits for it. -/
theorem streamId_eq (h : Ledger uncharged env) {task : ValidationTask κ}
    (htask : task ∈ env.validationTasks)
    (hpend : env.pendingId sid = some task.validationId) : sid = task.streamId := by
  obtain ⟨task', htask', rfl, hid⟩ := h.task_of_pending sid _ hpend
  rw [inj_on_of_nodup_map h.tasks_nodup htask' htask hid]

end Ledger

/-! ### One turn -/

/-- The checks of the registry end, and end with a rejection. -/
def EnvironmentEvent.Rejects : EnvironmentEvent → Prop
  | .validationResult _ accepted _ => accepted = false
  | .validationTaskFailed _ _ => False
  | .writerFinished => True
  | .closedStream _ => True
  | .incoming _ _ => True

section Turn

variable {env : Environment η κ μ} (h : Ledger 0 env)
include h

section

variable (hlt : env.failedHandshakes < maxFailedNoiseHandshakes)
include hlt

/-- A rejection charges the request that waits for it, if there still is one. -/
theorem Ledger.finishValidation {task : ValidationTask κ}
    (htask : task ∈ env.validationTasks) (room : Bool) :
    Ledger 0 (finishValidation host { env with
      validationTasks := env.validationTasks.filter (·.validationId != task.validationId) } room
        task false) := by
  unfold Environment.finishValidation
  split
  · next hlookup =>
    refine h.filterTasks fun sid hpend => ?_
    have hsame := h.streamId_eq htask hpend
    rw [hsame, pendingId,
      show env.pendingHandshakes.lookup task.streamId = none from hlookup] at hpend
    exact absurd hpend (by simp)
  · next pending hlookup =>
    have hid : env.pendingId task.streamId = some pending.validationId := by
      rw [pendingId, show env.pendingHandshakes.lookup task.streamId = some pending from hlookup]
      rfl
    by_cases hother : pending.validationId ≠ task.validationId
    · rw [if_pos hother]
      refine h.filterTasks fun sid hpend => ?_
      have hsame := h.streamId_eq htask hpend
      rw [hsame, hid] at hpend
      exact hother (Option.some.inj hpend)
    · rw [if_neg hother]
      have hmem : task.streamId ∈ env.pendingHandshakes := lookup_isSome.mp (by
          rw [show env.pendingHandshakes.lookup task.streamId = some pending from hlookup]; rfl)
      have hnone : ∀ sid,
          (env.removePending task.streamId).pendingId sid ≠ some task.validationId := by
        intro sid hpend
        have hold : (if sid = task.streamId then none else env.pendingId sid) =
            some task.validationId := (map_lookup_erase _ _ _ _).symm.trans hpend
        split_ifs at hold with hne
        exact hne (h.streamId_eq htask hold)
      exact ((((h.removePending hmem).filterTasks hnone).sendReset room task.streamId).charge hlt)

theorem Ledger.handleHandshake (room : Bool)
    (frame : RelayMessageFrame) : Ledger 0 (env.handleHandshake host room frame) := by
  unfold Environment.handleHandshake
  split_ifs with hactive hpend hfull hbusy
  · exact h.sendReset room _
  · exact ((h.removePending hpend).sendReset room _).charge hlt
  · exact h.sendReset room _
  · exact h.sendReset room _
  · split
    · exact h.sendReset room _
    · dsimp only
      split
      · exact (h.countRequest.sendReset room _).charge hlt
      · split
        · exact (h.countRequest.sendReset room _).charge hlt
        · exact h.startValidation hpend (not_le.mp hbusy) _ _

theorem Ledger.handleData (room : Bool)
    (frame : RelayMessageFrame) : Ledger 0 (env.handleData host room frame) := by
  unfold Environment.handleData
  split
  · split_ifs with hpend
    · exact ((h.removePending hpend).sendReset room _).charge hlt
    · exact h.sendReset room _
  · next entry hentry =>
    rw [h.streams_eq] at hentry
    simp at hentry

end

/-- A reset that meets no pending request changes nothing. -/
theorem Ledger.handleReset {frame : RelayMessageFrame}
    (hpend : frame.streamId ∉ env.pendingHandshakes) : env.handleReset frame = env := by
  have hstreams : frame.streamId ∉ env.streams := by
    rw [h.streams_eq]
    exact notMem_empty _
  rw [Environment.handleReset, Environment.removePending, erase_of_notMem hpend,
    removeStream, erase_of_notMem hstreams]

/-- **One turn of the loop** keeps the ledger balanced, as long as checks only reject and no reset
    meets a pending request. -/
theorem step_ledger {event : EnvironmentEvent} (hrejects : event.Rejects)
    (hreset : ∀ sid, event.addressed = some (sid, .reset) →
      sid ∉ env.pendingHandshakes) : Ledger 0 (env.step host event) := by
  by_cases hrunning : env.running
  swap
  · rwa [step_of_not_running hrunning]
  have hlt := h.failed_lt hrunning
  unfold step
  rw [if_pos hrunning]
  cases event with
  | writerFinished => exact h.stop
  | closedStream closed =>
    have hnone : env.activeId closed.streamId ≠ some closed.instanceId := by
      rw [activeId, h.streams_eq]
      simp
    dsimp only
    rwa [closeStream_of_ne hnone]
  | validationResult validationId accepted room =>
    obtain rfl : accepted = false := hrejects
    dsimp only
    cases hjoin : env.joinTask validationId with
    | none => exact h
    | some joined =>
      obtain ⟨task, hfind, rfl⟩ := Option.map_eq_some_iff.mp hjoin
      have hid : task.validationId = validationId := by simpa using find?_some hfind
      subst hid
      exact h.finishValidation hlt (mem_of_find?_eq_some hfind) room
  | validationTaskFailed validationId room => exact hrejects.elim
  | incoming message room =>
    cases message with
    | binary frame =>
      cases frame with
      | none => exact h
      | some frame =>
        show Ledger 0 (env.handleFrame host room frame)
        unfold handleFrame
        cases hkind : frame.validate with
        | error error => exact h
        | ok kind =>
          cases kind with
          | handshake => exact h.handleHandshake hlt room frame
          | data => exact h.handleData hlt room frame
          | reset =>
            have hpend : frame.streamId ∉ env.pendingHandshakes :=
              hreset frame.streamId (by rw [addressed, hkind]; rfl)
            rwa [h.handleReset hpend]
          | ack => exact h
          | resume => exact h
          | heartbeat => exact h
    | text => exact h
    | control => exact h
    | close | ended | readError => exact h.stop

end Turn

/-! ### Whole runs -/

/-- No reset frame arrives for a stream id whose handshake is pending. -/
def NoPendingReset (host : EnvironmentHost η κ μ) (events : List EnvironmentEvent) : Prop :=
  ∀ before event after, events = before ++ event :: after → ∀ sid,
    event.addressed = some (sid, .reset) → sid ∉ (run host {} before).pendingHandshakes

theorem run_ledger {events : List EnvironmentEvent} (hrejects : ∀ event ∈ events, event.Rejects)
    (hreset : NoPendingReset host events) : Ledger 0 (run host {} events) := by
  induction events using reverseRecOn with
  | nil => exact ledger_start
  | append_singleton events event ih =>
    have hearlier : Ledger 0 (run host {} events) := by
      refine ih (fun other hother => hrejects other (mem_append_left _ hother)) ?_
      rintro before other after rfl
      exact hreset before other (after ++ [event]) (by simp)
    rw [run_concat]
    exact step_ledger hearlier (hrejects event (by simp)) (hreset events event [] rfl)

/-- **Unauthorised handshakes are bounded.** If every check rejects and no reset frame arrives for a
    pending handshake, the requests that are read and the checks that are started are at most the
    failure budget and the limit of pending checks together, and the loop has ended when the bound
    is reached or the budget is used up. -/
theorem rejected_requests_bounded (host : EnvironmentHost η κ μ) (events : List EnvironmentEvent)
    (hrejects : ∀ event ∈ events, event.Rejects) (hreset : NoPendingReset host events) :
    let env := run host {} events
    env.requestsRead ≤ maxFailedNoiseHandshakes + maxPendingHandshakeValidations ∧
      env.checksStarted ≤ maxFailedNoiseHandshakes + maxPendingHandshakeValidations ∧
      (env.requestsRead = maxFailedNoiseHandshakes + maxPendingHandshakeValidations →
        env.running = false) ∧
      (maxFailedNoiseHandshakes ≤ env.failedHandshakes → env.running = false) := by
  intro env
  have hledger : Ledger 0 env := run_ledger hrejects hreset
  have hpend := hledger.length_pending_le (run_inv host inv_start events)
  have hread := hledger.read_eq
  have hchecks := hledger.checks_le
  have hfailed := hledger.failed_le
  refine ⟨by omega, by omega, fun hbound => ?_, fun hbudget => ?_⟩
  · by_contra hrunning
    have hlt := hledger.failed_lt (by simpa using hrunning)
    omega
  · by_contra hrunning
    have hlt := hledger.failed_lt (by simpa using hrunning)
    omega

/-- A peer whose requests can all be read. -/
def openHost : EnvironmentHost Unit Unit Unit where
  readMessage _ _ := .ok { handshake := (), initiatorPublicKey := (), payload := [] }
  finalize _ := .error (.handshake [])
  codec :=
    { toWriter := fun _ => [110]
      fromSlice := fun _ => .ok ()
      toWriter_ne_nil := by simp
      fromSlice_toWriter := by simp }
  environmentId := "environment"
  executorRegistrationId := "registration"
  consumer _ := { taken := id, listening := fun _ => true }

def requestFrame : RelayMessageFrame := .handshake "s" [1]

/-- Two requests for one stream and one for another, and the rejections of two of them. -/
def rejectedRequests : List EnvironmentEvent :=
  [.incoming (.binary (some requestFrame)) true, .incoming (.binary (some requestFrame)) true,
    .validationResult 0 false true, .incoming (.binary (some (.handshake "t" [1]))) true,
    .validationResult 1 false true]

/-- Requests without a reset stay within the bound. -/
theorem rejectedRequests_bounded :
    (run openHost {} rejectedRequests).requestsRead ≤ 8 + 32 ∧
      (run openHost {} rejectedRequests).checksStarted ≤ 8 + 32 := by
  have hrejects : ∀ event ∈ rejectedRequests, event.Rejects := by
    simp [rejectedRequests, Rejects]
  have hkinds : ∀ event ∈ rejectedRequests, event.addressed.map (·.2) ≠ some .reset := by decide
  have hreset : NoPendingReset openHost rejectedRequests := by
    intro before event after hsplit sid hevent
    exact absurd (congrArg (Option.map (·.2)) hevent) (hkinds event (hsplit ▸ by simp))
  have hbound := rejected_requests_bounded openHost rejectedRequests hrejects hreset
  exact ⟨hbound.1, hbound.2.1⟩

/-! ### Resets for free -/

def resetFrame : RelayMessageFrame := .reset "s" "bye"

/-- A request, its reset, and then the rejection by its check, which has number `n`. -/
def resetCycle (n : ℕ) : List EnvironmentEvent :=
  [.incoming (.binary (some requestFrame)) true, .incoming (.binary (some resetFrame)) true,
    .validationResult n false true]

/-- The loop waits for events, with empty tables and nothing charged, after `n` requests. -/
structure Idle (n : ℕ) (env : Environment Unit Unit Unit) : Prop where
  streams_eq : env.streams = ∅
  pending_eq : env.pendingHandshakes = ∅
  tasks_eq : env.validationTasks = []
  failed_eq : env.failedHandshakes = 0
  running_eq : env.running
  next_eq : env.nextValidationId = n
  read_eq : env.requestsRead = n
  checks_eq : env.checksStarted = n

variable {env : Environment Unit Unit Unit}

theorem handleRequest_eq {n : ℕ} (hidle : Idle n env) :
    env.step openHost (.incoming (.binary (some requestFrame)) true) =
      env.countRequest.startValidation "s" []
        { handshake := (), initiatorPublicKey := (), payload := [] } := by
  have hpayload : requestFrame.intoHandshakePayload = .ok [1] := by decide
  have hread : ∀ prologue, openHost.readRequest prologue [1] =
      .ok { handshake := (), initiatorPublicKey := (), payload := [] } := fun _ => rfl
  unfold step
  rw [if_pos hidle.running_eq]
  show env.handleFrame openHost true requestFrame = _
  unfold handleFrame
  unfold handleHandshake
  rw [if_neg (by rw [hidle.streams_eq]; exact notMem_empty _),
    if_neg (by rw [hidle.pending_eq]; exact notMem_empty _),
    if_neg (by rw [hidle.streams_eq]; decide), if_neg (by rw [hidle.tasks_eq]; decide), hpayload]
  dsimp only
  rw [hread]
  rfl

theorem handleReset_eq (hrunning : env.running) :
    env.step openHost (.incoming (.binary (some resetFrame)) true) =
      (env.removePending "s").removeStream "s" := by
  unfold step
  rw [if_pos hrunning]
  show env.handleFrame openHost true resetFrame = _
  rfl

/-- The result of a check whose request is gone is dropped. -/
theorem staleResult_eq (env : Environment Unit Unit Unit) (hrunning : env.running)
    {task : ValidationTask Unit} (htasks : env.validationTasks = [task])
    (hpend : task.streamId ∉ env.pendingHandshakes) :
    env.step openHost (.validationResult task.validationId false true) =
      { env with validationTasks := [] } := by
  have hjoin : env.joinTask task.validationId =
      some (task, { env with validationTasks := [] }) := by
    simp [joinTask, htasks]
  unfold step
  rw [if_pos hrunning]
  dsimp only
  rw [hjoin]
  dsimp only [finishValidation]
  rw [lookup_eq_none.mpr hpend]

/-- One cycle leads back to the idle loop: the request has been read and its check started, and
    nothing has been charged. -/
theorem run_resetCycle {n : ℕ} (hidle : Idle n env) :
    Idle (n + 1) (env.run openHost (resetCycle n)) := by
  obtain ⟨started, hstarted⟩ : ∃ started, started = env.countRequest.startValidation "s" []
      { handshake := (), initiatorPublicKey := (), payload := [] } := ⟨_, rfl⟩
  obtain ⟨task, htask, hid, hstream⟩ : ∃ task : ValidationTask Unit,
      started.validationTasks = [task] ∧ task.validationId = n ∧ task.streamId = "s" := by
    rw [hstarted]
    refine ⟨⟨"s", env.nextValidationId, (), []⟩, ?_, hidle.next_eq, rfl⟩
    show env.validationTasks ++ _ = _
    rw [hidle.tasks_eq]
    rfl
  have hrunning : started.running := by
    rw [hstarted]
    exact hidle.running_eq
  have hrun : env.run openHost (resetCycle n) =
      { (started.removePending "s").removeStream "s" with
        validationTasks := [] } := by
    show ((env.step openHost _).step openHost _).step openHost (.validationResult n false true) = _
    rw [handleRequest_eq hidle, ← hstarted, handleReset_eq hrunning, ← hid]
    have hgone : task.streamId ∉
        ((started.removePending "s").removeStream "s").pendingHandshakes := by
      rw [hstream]
      exact fun hmem => (mem_erase.mp hmem).1 rfl
    exact staleResult_eq ((started.removePending "s").removeStream "s") hrunning
      htask hgone
  rw [hrun, hstarted]
  constructor
  · show env.streams.erase _ = ∅
    rw [hidle.streams_eq]
    rfl
  · show (env.pendingHandshakes.insert _ _).erase _ = ∅
    rw [hidle.pending_eq]
    rfl
  · rfl
  · exact hidle.failed_eq
  · exact hidle.running_eq
  · exact congrArg (· + 1) hidle.next_eq
  · exact congrArg (· + 1) hidle.read_eq
  · exact congrArg (· + 1) hidle.checks_eq

/-- Any number of requests can be read and checked without a charge. -/
theorem run_resetCycles (n : ℕ) : Idle n (run openHost {} ((range n).flatMap resetCycle)) := by
  induction n with
  | zero => exact ⟨rfl, rfl, rfl, rfl, rfl, rfl, rfl, rfl⟩
  | succ n ih =>
    rw [range_succ, flatMap_append, run_append]
    exact run_resetCycle ih

/-- With a reset after every request the bound is passed, while every check rejects and the loop
    goes on. -/
theorem resets_evade_budget :
    (∀ event ∈ (List.range 41).flatMap resetCycle, event.Rejects) ∧
      (run openHost {} ((List.range 41).flatMap resetCycle)).requestsRead = 41 ∧
      (run openHost {} ((List.range 41).flatMap resetCycle)).checksStarted = 41 ∧
      (run openHost {} ((List.range 41).flatMap resetCycle)).running ∧
      maxFailedNoiseHandshakes + maxPendingHandshakeValidations < 41 := by
  have hidle := run_resetCycles 41
  refine ⟨?_, hidle.read_eq, hidle.checks_eq, hidle.running_eq, by decide⟩
  intro event hevent
  obtain ⟨n, -, hmem⟩ := mem_flatMap.mp hevent
  simp only [resetCycle, mem_cons, not_mem_nil, or_false] at hmem
  rcases hmem with rfl | rfl | rfl <;> simp [Rejects]

end Codex.Relay
