import Codex.Relay.Environment

namespace Codex.Relay

open Codex.Data Environment EnvironmentEvent Option

/-!
# What one turn of the loop can do

Every turn of the loop does one of three things to the tables: it only takes entries away, it puts
one request aside under a new number, or it turns the request whose check succeeded into a stream.

* `Environment.activeId`, `Environment.pendingId` — the numbers behind a stream id.
* `EnvironmentEvent.addressed` — the stream id and the kind of a well-formed frame.
* `Change` — the three kinds of turns.
* `step_change` — every turn is one of them.
-/

variable {η κ μ : Type}

/-! ### The numbers in the tables -/

variable (env : Environment η κ μ)

/-- The instance that is active under a stream id. -/
def Environment.activeId (sid : Text) : Option ℕ := (env.streams.lookup sid).map (·.instanceId)

/-- The number of the check that is pending under a stream id. -/
def Environment.pendingId (sid : Text) : Option ℕ :=
  (env.pendingHandshakes.lookup sid).map (·.validationId)

/-- No stream id is both pending and active. -/
def Environment.Separate : Prop := ∀ sid, sid ∈ env.streams → sid ∉ env.pendingHandshakes

/-- The stream id and the kind of a frame, if the event is a well-formed frame. -/
def EnvironmentEvent.addressed : EnvironmentEvent → Option (Text × RelayFrameBodyKind)
  | .incoming (.binary (some frame)) _ => frame.validate.toOption.map (frame.streamId, ·)
  | _ => none

/-- The event is a data frame, a reset or a handshake on the stream id. -/
def EnvironmentEvent.Cancels (event : EnvironmentEvent) (sid : Text) : Prop :=
  event.addressed = some (sid, .data) ∨ event.addressed = some (sid, .reset) ∨
    event.addressed = some (sid, .handshake)

section Tables

variable {env : Environment η κ μ} {sid : Text}

theorem activeId_eq_none : env.activeId sid = none ↔ sid ∉ env.streams := by
  rw [activeId, map_eq_none_iff, AList.lookup_eq_none]

theorem pendingId_eq_none : env.pendingId sid = none ↔ sid ∉ env.pendingHandshakes := by
  rw [pendingId, map_eq_none_iff, AList.lookup_eq_none]

end Tables

/-! ### The three kinds of turns -/

/-- What a turn of the loop does to the tables. -/
inductive Change (env : Environment η κ μ) (event : EnvironmentEvent) (env' : Environment η κ μ) :
    Prop
  | keep
      (hactive : ∀ sid i, env'.activeId sid = some i → env.activeId sid = some i)
      (hpend : ∀ sid i, env'.pendingId sid = some i →
        env.pendingId sid = some i ∧ ¬ event.Cancels sid)
      (hnext : env'.nextValidationId = env.nextValidationId)
      (hlength : env'.streams.entries.length ≤ env.streams.entries.length)
  | start (sid : Text) (hevent : event.addressed = some (sid, .handshake))
      (hactive : env.activeId sid = none) (hpend : env.pendingId sid = none)
      (hstreams : env'.streams = env.streams) (hpend' : ∀ other, env'.pendingId other =
        if other = sid then some env.nextValidationId else env.pendingId other)
      (hnext : env'.nextValidationId = env.nextValidationId + 1)
      (htask : ∃ task ∈ env'.validationTasks,
        task.streamId = sid ∧ task.validationId = env.nextValidationId)
  | activate (sid : Text) (validationId : ℕ) (room : Bool)
      (hevent : event = .validationResult validationId true room)
      (hpend : env.pendingId sid = some validationId)
      (hroom : env.streams.entries.length < maxActiveNoiseRelayStreams)
      (hactive' : ∀ other, env'.activeId other =
        if other = sid then some validationId else env.activeId other)
      (hpend' : ∀ other, env'.pendingId other = if other = sid then none else env.pendingId other)
      (hnext : env'.nextValidationId = env.nextValidationId)
      (hlength : env'.streams.entries.length ≤ env.streams.entries.length + 1)

variable {kind : RelayFrameBodyKind}

section Keep

variable {env env' : Environment η κ μ} {event : EnvironmentEvent}

/-- No stream has been added. -/
structure Shrinks (env env' : Environment η κ μ) : Prop where
  active : ∀ sid i, env'.activeId sid = some i → env.activeId sid = some i
  length : env'.streams.entries.length ≤ env.streams.entries.length

theorem shrinks_same (h : env'.streams = env.streams) : Shrinks env env' where
  active sid i hi := by rwa [activeId, h] at hi
  length := by rw [h]

variable {sid : Text}

theorem shrinks_erase (h : env'.streams = env.streams.erase sid) : Shrinks env env' where
  active other i hi := by
    rw [activeId, h, map_lookup_erase] at hi
    split_ifs at hi
    exact hi
  length := by
    rw [h]
    exact length_erase_le _ _

/-- A stream that has taken in a frame is still the same instance. -/
theorem shrinks_update {entry : NoiseVirtualStream μ} {stream : NoiseStream μ}
    (hentry : env.streams.lookup sid = some entry)
    (h : env'.streams = env.streams.insert sid { entry with stream }) : Shrinks env env' where
  active other i hi := by
    rw [activeId, h, map_lookup_insert] at hi
    split_ifs at hi with hother
    · rw [activeId, hother, hentry]
      exact hi
    · exact hi
  length := by
    rw [h, length_insert_of_mem (AList.lookup_isSome.mp (by rw [hentry]; rfl))]

/-- Only the entry that the event addresses is cancelled by it. -/
theorem EnvironmentEvent.Cancels.eq {other : Text}
    (hevent : event.addressed = some (sid, kind)) (hcancels : event.Cancels other) :
    other = sid := by
  rcases hcancels with h | h | h <;>
    exact (Prod.mk.inj (some.inj (h.symm.trans hevent))).1

section

variable (hshrinks : Shrinks env env') (hnext : env'.nextValidationId = env.nextValidationId)
include hshrinks hnext

/-- A turn that leaves the pending requests alone. -/
theorem Change.same (hpend : env'.pendingHandshakes = env.pendingHandshakes)
    (hcancels : ∀ sid, event.Cancels sid → sid ∉ env.pendingHandshakes) :
    Change env event env' := by
  refine .keep hshrinks.active (fun sid i hi => ?_) hnext hshrinks.length
  rw [pendingId, hpend] at hi
  refine ⟨hi, fun hevent => ?_⟩
  have hnone := pendingId_eq_none.mpr (hcancels sid hevent)
  rw [pendingId, hi] at hnone
  exact absurd hnone (by simp)

/-- A turn that takes away one pending request. -/
theorem Change.erase (hpend : env'.pendingHandshakes = env.pendingHandshakes.erase sid)
    (hcancels : ∀ other, event.Cancels other → other = sid) : Change env event env' := by
  refine .keep hshrinks.active (fun other i hi => ?_) hnext hshrinks.length
  rw [pendingId, hpend, map_lookup_erase] at hi
  split_ifs at hi with hne
  exact ⟨hi, fun hevent => hne (hcancels other hevent)⟩

variable (hevent : event.addressed = some (sid, kind))
include hevent

/-- A turn on a frame whose stream id is not pending, when it leaves the pending requests alone. -/
theorem Change.frame_same (hpend : sid ∉ env.pendingHandshakes)
    (hsame : env'.pendingHandshakes = env.pendingHandshakes) : Change env event env' :=
  .same hshrinks hnext hsame fun _ h => h.eq hevent ▸ hpend

/-- A turn on a frame that cancels the pending request on its stream id. -/
theorem Change.frame_erase
    (herase : env'.pendingHandshakes = env.pendingHandshakes.erase sid) :
    Change env event env' := .erase hshrinks hnext herase fun _ h => h.eq hevent

end

theorem not_cancels_of_addressed_none (hevent : event.addressed = none) (sid : Text) :
    ¬ event.Cancels sid := by
  rintro (h | h | h) <;> simp [hevent] at h

end Keep

/-! ### Notifications and results -/

variable {env' : Environment η κ μ}

section Results

variable (host : EnvironmentHost η κ μ) (env : Environment η κ μ)

theorem closeStream_change (closed : ClosedNoiseVirtualStream) :
    Change env (.closedStream closed) (env.closeStream closed) := by
  have hcancels : ∀ sid, (closedStream closed).Cancels sid →
      sid ∉ env.pendingHandshakes :=
    fun sid h => absurd h (not_cancels_of_addressed_none rfl sid)
  unfold closeStream
  split
  · split_ifs
    · exact .same (shrinks_erase rfl) rfl rfl hcancels
    · exact .same (shrinks_same rfl) rfl rfl hcancels
  · exact .same (shrinks_same rfl) rfl rfl hcancels

variable {env} in
/-- Completing a handshake that has just been taken out of the pending ones. -/
theorem activate_change {sid : Text} {room : Bool} {pending : PendingHandshake η κ}
    (hstreams : env'.streams = env.streams)
    (hpend : env'.pendingHandshakes = env.pendingHandshakes.erase sid)
    (hnext : env'.nextValidationId = env.nextValidationId)
    (hlookup : env.pendingHandshakes.lookup sid = some pending) :
    Change env (.validationResult pending.validationId true room)
      (env'.activate host room sid pending) := by
  have herase : ∀ {env'' : Environment η κ μ}, env''.streams = env.streams →
      env''.pendingHandshakes = env.pendingHandshakes.erase sid →
      env''.nextValidationId = env.nextValidationId →
      Change env (.validationResult pending.validationId true room) env'' :=
    fun hstreams hpend hnext => .erase (shrinks_same hstreams) hnext hpend
      fun other h => absurd h (not_cancels_of_addressed_none rfl other)
  unfold activate
  split_ifs with hfull hqueue
  · exact herase hstreams hpend hnext
  · split
    · exact herase hstreams hpend hnext
    · -- The only place where a stream comes into being.
      rw [hstreams] at hfull
      refine .activate sid pending.validationId room rfl ?_ (not_le.mp hfull) ?_ ?_ hnext ?_
      · rw [pendingId, hlookup]
        rfl
      · intro other
        rw [hstreams]
        exact map_lookup_insert _ _ _ _ _
      · intro other
        exact (congrArg (fun table => (AList.lookup other table).map _) hpend).trans
          (map_lookup_erase _ _ _ _)
      · rw [hstreams]
        by_cases hmem : sid ∈ env.streams
        · rw [length_insert_of_mem hmem]
          exact Nat.le_succ _
        · rw [length_insert_of_notMem hmem]
  · split
    · exact herase hstreams hpend hnext
    · exact herase hstreams hpend hnext

variable (tasks : List (ValidationTask κ))

/-- The result of a check, when the check has been taken out of the running ones. -/
theorem finishValidation_change (room accepted : Bool) (task : ValidationTask κ) :
    Change env (.validationResult task.validationId accepted room)
      (finishValidation host { env with validationTasks := tasks } room task accepted) := by
  have hnone : ∀ sid, ¬ (validationResult task.validationId accepted
      room).Cancels sid := not_cancels_of_addressed_none rfl
  unfold finishValidation
  split
  · exact .same (shrinks_same rfl) rfl rfl fun sid h => absurd h (hnone sid)
  · next pending hlookup =>
    split_ifs with hother haccepted
    · exact .same (shrinks_same rfl) rfl rfl fun sid h => absurd h (hnone sid)
    · rw [haccepted, ← not_not.mp hother]
      exact activate_change host rfl rfl rfl hlookup
    · exact .erase (shrinks_same rfl) rfl rfl fun other h => absurd h (hnone other)

theorem foldl_sendReset (room : Bool) (keys : List Text) :
    ∃ outgoing, keys.foldl (fun env sid => env.sendReset room sid) env =
      { env with outgoing } := by
  induction keys generalizing env with
  | nil => exact ⟨env.outgoing, rfl⟩
  | cons key keys ih =>
    obtain ⟨outgoing, h⟩ := ih (env.sendReset room key)
    exact ⟨outgoing, h⟩

/-- A check that broke down. -/
theorem dropPending_change (validationId : ℕ) (room : Bool) :
    Change env (.validationTaskFailed validationId room)
      (dropPending { env with validationTasks := tasks } room) := by
  unfold dropPending
  obtain ⟨outgoing, h⟩ := foldl_sendReset
    { env with validationTasks := tasks, pendingHandshakes := ∅ } room env.pendingHandshakes.keys
  rw [h]
  refine .keep (fun _ _ hi => hi) (fun sid i hi => ?_) rfl le_rfl
  simp [pendingId] at hi

end Results

/-! ### Frames -/

section Frames

variable (host : EnvironmentHost η κ μ) {env : Environment η κ μ} {event : EnvironmentEvent}
  {frame : RelayMessageFrame}

theorem handleHandshake_change (hseparate : env.Separate) (room : Bool)
    (hevent : event.addressed = some (frame.streamId, .handshake)) :
    Change env event (env.handleHandshake host room frame) := by
  unfold handleHandshake
  split_ifs with hactive hpend hfull hbusy
  · exact .frame_same (shrinks_same rfl) rfl hevent (hseparate _ hactive) rfl
  · exact .frame_erase (shrinks_same rfl) rfl hevent rfl
  · exact .frame_same (shrinks_same rfl) rfl hevent hpend rfl
  · exact .frame_same (shrinks_same rfl) rfl hevent hpend rfl
  · split
    · exact .frame_same (shrinks_same rfl) rfl hevent hpend rfl
    · dsimp only
      split
      · exact .frame_same (shrinks_same rfl) rfl hevent hpend rfl
      · split
        · exact .frame_same (shrinks_same rfl) rfl hevent hpend rfl
        · refine .start frame.streamId hevent (activeId_eq_none.mpr hactive)
            (pendingId_eq_none.mpr hpend) rfl (fun other => map_lookup_insert _ _ _ _ _) rfl ?_
          exact ⟨_, List.mem_append_right _ (List.mem_singleton_self _), rfl, rfl⟩

theorem handleData_change (hseparate : env.Separate) (room : Bool)
    (hevent : event.addressed = some (frame.streamId, .data)) :
    Change env event (env.handleData host room frame) := by
  unfold handleData
  split
  · split_ifs with hpend
    · exact .frame_erase (shrinks_same rfl) rfl hevent rfl
    · exact .frame_same (shrinks_same rfl) rfl hevent hpend rfl
  · next entry hentry =>
    have hactive : frame.streamId ∈ env.streams := AList.lookup_isSome.mp (by rw [hentry]; rfl)
    have hpend := hseparate _ hactive
    split
    · exact .frame_same (shrinks_erase rfl) rfl hevent hpend rfl
    · split
      · exact .frame_same (shrinks_erase rfl) rfl hevent hpend rfl
      · exact .frame_same (shrinks_update hentry rfl) rfl hevent hpend rfl

/-- A frame without effect on the tables. -/
theorem Change.unaddressed (h : ∀ sid, ¬ event.Cancels sid) (hstreams : env'.streams = env.streams)
    (hpend : env'.pendingHandshakes = env.pendingHandshakes)
    (hnext : env'.nextValidationId = env.nextValidationId) : Change env event env' :=
  .same (shrinks_same hstreams) hnext hpend fun sid hcancels =>
    absurd hcancels (h sid)

theorem handleFrame_change (hseparate : env.Separate) (room : Bool) :
    Change env (.incoming (.binary (some frame)) room) (env.handleFrame host room frame) := by
  have haddressed : ∀ kind, frame.validate = .ok kind →
      (incoming (.binary (some frame)) room).addressed =
        some (frame.streamId, kind) := by
    intro kind hkind
    rw [addressed, hkind]
    rfl
  have hother : ∀ kind, frame.validate = .ok kind → kind ≠ .data → kind ≠ .reset →
      kind ≠ .handshake → ∀ sid,
        ¬ (incoming (.binary (some frame)) room).Cancels sid := by
    rintro kind hkind hdata hreset hhandshake sid (h | h | h)
    all_goals
      rw [haddressed kind hkind] at h
      have hsame := (Prod.mk.inj (some.inj h)).2
    · exact hdata hsame
    · exact hreset hsame
    · exact hhandshake hsame
  unfold handleFrame
  cases hkind : frame.validate with
  | error error =>
    refine .unaddressed (not_cancels_of_addressed_none ?_) rfl rfl rfl
    rw [addressed, hkind]
    rfl
  | ok kind =>
    cases kind with
    | handshake => exact handleHandshake_change host hseparate room (haddressed _ hkind)
    | data => exact handleData_change host hseparate room (haddressed _ hkind)
    | reset => exact .frame_erase (shrinks_erase rfl) rfl (haddressed _ hkind) rfl
    | ack | resume | heartbeat =>
      exact .unaddressed (hother _ hkind (by simp) (by simp) (by simp)) rfl rfl rfl

end Frames

/-! ### One turn -/

/-- **One turn of the loop** takes entries away, puts one request aside, or turns one request into
    a stream. -/
theorem step_change (host : EnvironmentHost η κ μ) {env : Environment η κ μ}
    (hseparate : env.Separate) (event : EnvironmentEvent) (hrunning : env.running) :
    Change env event (env.step host event) := by
  unfold step
  rw [if_pos hrunning]
  cases event with
  | writerFinished => exact .unaddressed (not_cancels_of_addressed_none rfl) rfl rfl rfl
  | closedStream closed => exact closeStream_change env closed
  | validationResult validationId accepted room =>
    dsimp only
    cases hjoin : env.joinTask validationId with
    | none => exact .unaddressed (not_cancels_of_addressed_none rfl) rfl rfl rfl
    | some joined =>
      obtain ⟨task, hfind, rfl⟩ := map_eq_some_iff.mp hjoin
      have hid : task.validationId = validationId := by simpa using List.find?_some hfind
      subst hid
      exact finishValidation_change host env _ room accepted task
  | validationTaskFailed validationId room =>
    dsimp only
    cases hjoin : env.joinTask validationId with
    | none => exact .unaddressed (not_cancels_of_addressed_none rfl) rfl rfl rfl
    | some joined =>
      obtain ⟨task, hfind, rfl⟩ := map_eq_some_iff.mp hjoin
      exact dropPending_change env _ validationId room
  | incoming message room =>
    cases message with
    | binary frame =>
      cases frame with
      | none => exact .unaddressed (not_cancels_of_addressed_none rfl) rfl rfl rfl
      | some frame => exact handleFrame_change host hseparate room
    | text | control | close | ended | readError =>
      exact .unaddressed (not_cancels_of_addressed_none rfl) rfl rfl rfl

end Codex.Relay
