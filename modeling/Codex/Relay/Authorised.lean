import Codex.Relay.EnvironmentStep

namespace Codex.Relay

open Codex.Data Environment Option

/-!
# Only authorised handshakes become streams

Stream ids are chosen by the peer and may be used again while checks and streams of earlier
requests are still running.  The numbers of the checks are never used again, and a stream carries
the number of the check that let it in.

* `Environment.Inv` — no id is pending and active, the numbers in the tables are different and
  old, and there are not too many streams.
* `Requested`, `Authorised` — the part of a history that an entry stems from.
* `run_inv`, `requested_and_authorised` — both hold along every run.
* `streams_authorised` — the four guarantees about the table of active streams.
-/

variable {η κ μ : Type} {host : EnvironmentHost η κ μ}

/-! ### The invariant of the tables -/

/-- What holds of the tables in every turn. -/
structure Environment.Inv (env : Environment η κ μ) : Prop where
  separate : env.Separate
  length_le : env.streams.entries.length ≤ maxActiveNoiseRelayStreams
  active_lt : ∀ sid i, env.activeId sid = some i → i < env.nextValidationId
  pending_lt : ∀ sid i, env.pendingId sid = some i → i < env.nextValidationId
  pending_inj : ∀ sid other i, env.pendingId sid = some i →
    env.pendingId other = some i → sid = other
  fresh : ∀ sid other i, env.pendingId sid = some i → env.activeId other ≠ some i

variable {env : Environment η κ μ}

theorem separate_iff :
    env.Separate ↔ ∀ sid, env.activeId sid = none ∨ env.pendingId sid = none := by
  refine forall_congr' fun sid => ?_
  rw [activeId_eq_none, pendingId_eq_none]
  tauto

theorem inv_start : (({} : Environment η κ μ)).Inv where
  separate := by simp [Separate]
  length_le := Nat.zero_le _
  active_lt := by simp [activeId]
  pending_lt := by simp [pendingId]
  pending_inj := by simp [pendingId]
  fresh := by simp [pendingId]

variable {i : ℕ} {sid : Text} {events : List EnvironmentEvent} {event : EnvironmentEvent}

/-- A turn keeps the invariant. -/
theorem Change.inv {env' : Environment η κ μ} (hchange : Change env event env') (hinv : env.Inv) :
    env'.Inv := by
  have hseparate := separate_iff.mp hinv.separate
  cases hchange with
  | keep hactive hpend hnext hlength =>
    constructor
    · refine separate_iff.mpr fun sid => (hseparate sid).imp (fun h => ?_) fun h => ?_
      · exact eq_none_iff_forall_ne_some.mpr fun i hi => by simp [hactive _ _ hi] at h
      · exact eq_none_iff_forall_ne_some.mpr fun i hi => by simp [hpend _ _ hi] at h
    · exact hlength.trans hinv.length_le
    · exact fun sid i hi => hnext ▸ hinv.active_lt sid i (hactive _ _ hi)
    · exact fun sid i hi => hnext ▸ hinv.pending_lt sid i (hpend _ _ hi).1
    · exact fun sid other i hi hi' =>
        hinv.pending_inj sid other i (hpend _ _ hi).1 (hpend _ _ hi').1
    · exact fun sid other i hi hactive' =>
        hinv.fresh sid other i (hpend _ _ hi).1 (hactive _ _ hactive')
  | start sid hevent hactive hpend hstreams hpend' hnext htask =>
    have hsame : ∀ other, env'.activeId other = env.activeId other := by
      intro other
      rw [activeId, hstreams]
      rfl
    constructor
    · rw [separate_iff]
      intro other
      rw [hsame, hpend']
      split_ifs with hother
      · exact .inl (hother ▸ hactive)
      · exact hseparate other
    · rw [hstreams]
      exact hinv.length_le
    · intro other i hi
      rw [hsame] at hi
      have := hinv.active_lt other i hi
      omega
    · intro other i hi
      rw [hpend'] at hi
      split_ifs at hi
      · have := some.inj hi
        omega
      · have := hinv.pending_lt other i hi
        omega
    · intro first second i hi hi'
      rw [hpend'] at hi hi'
      -- The new number is larger than all others.
      split_ifs at hi hi' with hfirst hsecond hsecond
      · exact hfirst.trans hsecond.symm
      · have := hinv.pending_lt second i hi'
        have := some.inj hi
        omega
      · have := hinv.pending_lt first i hi
        have := some.inj hi'
        omega
      · exact hinv.pending_inj first second i hi hi'
    · intro first second i hi hi'
      rw [hpend'] at hi
      rw [hsame] at hi'
      split_ifs at hi
      · have := hinv.active_lt second i hi'
        have := some.inj hi
        omega
      · exact hinv.fresh first second i hi hi'
  | activate sid validationId room hevent hpend hroom hactive' hpend' hnext hlength =>
    constructor
    · rw [separate_iff]
      intro other
      rw [hactive', hpend']
      split_ifs with hother
      · exact .inr rfl
      · exact hseparate other
    · exact hlength.trans hroom
    · intro other i hi
      rw [hactive'] at hi
      split_ifs at hi
      · rw [hnext, ← some.inj hi]
        exact hinv.pending_lt sid validationId hpend
      · exact hnext ▸ hinv.active_lt other i hi
    · intro other i hi
      rw [hpend'] at hi
      split_ifs at hi
      exact hnext ▸ hinv.pending_lt other i hi
    · intro first second i hi hi'
      rw [hpend'] at hi hi'
      split_ifs at hi hi'
      exact hinv.pending_inj first second i hi hi'
    · intro first second i hi hi'
      rw [hpend'] at hi
      rw [hactive'] at hi'
      split_ifs at hi hi' with hfirst hsecond
      · -- The number that moved was the number of one request only.
        rw [← some.inj hi'] at hi
        exact hfirst (hinv.pending_inj first sid validationId hi hpend)
      · exact hinv.fresh first second i hi hi'

/-! ### Runs -/

variable (env)

theorem run_concat (events : List EnvironmentEvent) (event : EnvironmentEvent) :
    env.run host (events ++ [event]) = (env.run host events).step host event := by
  simp [run]

theorem run_append (events later : List EnvironmentEvent) :
    env.run host (events ++ later) = (env.run host events).run host later := by
  simp [run]

variable {env}

theorem step_of_not_running (h : ¬ env.running) (event : EnvironmentEvent) :
    env.step host event = env := by
  unfold step
  rw [if_neg h]

theorem step_inv (host : EnvironmentHost η κ μ) (hinv : env.Inv) (event : EnvironmentEvent) :
    (env.step host event).Inv := by
  by_cases hrunning : env.running
  · exact (step_change host hinv.separate event hrunning).inv hinv
  · rwa [step_of_not_running hrunning]

/-- The invariant holds along every run. -/
theorem run_inv (host : EnvironmentHost η κ μ) (hinv : env.Inv) (events : List EnvironmentEvent) :
    (env.run host events).Inv := by
  induction events generalizing env with
  | nil => exact hinv
  | cons event events ih => exact ih (step_inv host hinv event)

/-! ### Where the entries come from -/

/-- The history of a request: a handshake frame on the stream id got the check number `i`, and no
    frame since has cancelled it. -/
def Requested (host : EnvironmentHost η κ μ) (events : List EnvironmentEvent) (sid : Text)
    (i : ℕ) : Prop :=
  ∃ before request between, events = before ++ request :: between ∧
    request.addressed = some (sid, .handshake) ∧
    (run host {} before).nextValidationId = i ∧
    (∃ task ∈ (run host {} (before ++ [request])).validationTasks,
      task.streamId = sid ∧ task.validationId = i) ∧ ∀ event ∈ between, ¬ event.Cancels sid

/-- The history of a stream: a request with check number `i`, and then the success of that very
    check. -/
def Authorised (host : EnvironmentHost η κ μ) (events : List EnvironmentEvent) (sid : Text)
    (i : ℕ) : Prop :=
  ∃ history room after, events = history ++ .validationResult i true room :: after ∧
    Requested host history sid i

theorem Requested.concat (h : Requested host events sid i)
    (hevent : ¬ event.Cancels sid) : Requested host (events ++ [event]) sid i := by
  obtain ⟨before, request, between, rfl, hrequest, hnext, htask, hbetween⟩ := h
  refine ⟨before, request, between ++ [event], by simp, hrequest, hnext, htask, ?_⟩
  intro other hother
  rcases List.mem_append.mp hother with hold | hnew
  · exact hbetween other hold
  · rwa [List.mem_singleton.mp hnew]

theorem Authorised.concat (h : Authorised host events sid i) (event : EnvironmentEvent) :
    Authorised host (events ++ [event]) sid i := by
  obtain ⟨history, room, after, rfl, hrequested⟩ := h
  exact ⟨history, room, after ++ [event], by simp, hrequested⟩

variable (host)

/-- **Every entry has its history.** While the loop runs, every pending request has been requested,
    and every active stream has been authorised. -/
theorem requested_and_authorised (events : List EnvironmentEvent) :
    ((run host {} events).running → ∀ sid i, (run host {} events).pendingId sid = some i →
        Requested host events sid i) ∧
    ∀ sid i, (run host {} events).activeId sid = some i →
      Authorised host events sid i := by
  induction events using List.reverseRecOn with
  | nil => exact ⟨by simp [run, pendingId], by simp [run, activeId]⟩
  | append_singleton events event ih =>
    obtain ⟨hrequested, hauthorised⟩ := ih
    rw [run_concat]
    by_cases hrunning : (run host {} events).running
    · have hinv := run_inv host inv_start events
      have hchange := step_change host hinv.separate event hrunning
      cases hchange with
      | keep hactive hpend _ _ =>
        refine ⟨fun _ sid i hi => ?_, fun sid i hi => ?_⟩
        · obtain ⟨hold, hevent⟩ := hpend _ _ hi
          exact (hrequested hrunning _ _ hold).concat hevent
        · exact (hauthorised _ _ (hactive _ _ hi)).concat event
      | start sid hevent hactive hpend hstreams hpend' hnext htask =>
        refine ⟨fun _ other i hi => ?_, fun other i hi => ?_⟩
        · rw [hpend'] at hi
          split_ifs at hi with hother
          · obtain rfl := some.inj hi
            rw [hother]
            exact ⟨events, event, [], rfl, hevent, rfl, by rwa [run_concat], by simp⟩
          · refine (hrequested hrunning _ _ hi).concat fun hcancels => hother ?_
            exact hcancels.eq hevent
        · rw [activeId, hstreams] at hi
          exact (hauthorised _ _ hi).concat event
      | activate sid validationId room hevent hpend hroom hactive' hpend' _ _ =>
        refine ⟨fun _ other i hi => ?_, fun other i hi => ?_⟩
        · rw [hpend'] at hi
          split_ifs at hi
          refine (hrequested hrunning _ _ hi).concat ?_
          rw [hevent]
          exact not_cancels_of_addressed_none rfl other
        · rw [hactive'] at hi
          split_ifs at hi with hother
          · obtain rfl := some.inj hi
            rw [hother, hevent]
            exact ⟨events, room, [], rfl, hrequested hrunning _ _ hpend⟩
          · exact (hauthorised _ _ hi).concat event
    · -- The loop has ended: nothing changes any more.
      rw [step_of_not_running hrunning]
      exact ⟨fun h => absurd h hrunning, fun _ _ hi => (hauthorised _ _ hi).concat event⟩

/-! ### Numbers that are used up -/

/-- The number `i` has been given out and its request is not pending any more. -/
structure Spent (i : ℕ) (env : Environment η κ μ) : Prop where
  lt : i < env.nextValidationId
  pending : ∀ sid, env.pendingId sid ≠ some i

theorem Environment.Inv.spent (hinv : env.Inv) (hactive : env.activeId sid = some i) :
    Spent i env where
  lt := hinv.active_lt sid i hactive
  pending other h := hinv.fresh other sid i h hactive

/-- A number that is used up stays so, and makes no new stream. -/
theorem Spent.step (hspent : Spent i env) (hseparate : env.Separate) (event : EnvironmentEvent) :
    Spent i (env.step host event) ∧ ∀ sid, env.activeId sid ≠ some i →
      (env.step host event).activeId sid ≠ some i := by
  by_cases hrunning : env.running
  · cases step_change host hseparate event hrunning with
    | keep hactive hpend hnext _ =>
      exact ⟨⟨hnext ▸ hspent.lt, fun other h => hspent.pending other (hpend _ _ h).1⟩,
        fun sid hne h => hne (hactive _ _ h)⟩
    | start new hevent hactive hpend hstreams hpend' hnext htask =>
      refine ⟨⟨by rw [hnext]; exact Nat.lt_succ_of_lt hspent.lt, fun other h => ?_⟩,
        fun sid hne h => ?_⟩
      · rw [hpend'] at h
        split_ifs at h
        · have := some.inj h
          have := hspent.lt
          omega
        · exact hspent.pending other h
      · rw [activeId, hstreams] at h
        exact hne h
    | activate new validationId room hevent hpend hroom hactive' hpend' hnext _ =>
      refine ⟨⟨hnext ▸ hspent.lt, fun other h => ?_⟩, fun sid hne h => ?_⟩
      · rw [hpend'] at h
        split_ifs at h
        exact hspent.pending other h
      · rw [hactive'] at h
        split_ifs at h
        · rw [some.inj h] at hpend
          exact hspent.pending new hpend
        · exact hne h
  · rw [step_of_not_running hrunning]
    exact ⟨hspent, fun _ hne => hne⟩

theorem Spent.run (hspent : Spent i env) (hinv : env.Inv) (events : List EnvironmentEvent) :
    Spent i (env.run host events) ∧ ∀ sid, env.activeId sid ≠ some i →
      (env.run host events).activeId sid ≠ some i := by
  induction events generalizing env with
  | nil => exact ⟨hspent, fun _ hne => hne⟩
  | cons event events ih =>
    obtain ⟨hnext, hactive⟩ := hspent.step host hinv.separate event
    obtain ⟨hlast, hactive'⟩ := ih hnext (step_inv host hinv event)
    exact ⟨hlast, fun sid hne => hactive' sid (hactive sid hne)⟩

/-- The notification of an instance that is not the current one changes nothing. -/
theorem closeStream_of_ne {closed : ClosedNoiseVirtualStream}
    (hne : env.activeId closed.streamId ≠ some closed.instanceId) :
    env.closeStream closed = env := by
  unfold closeStream
  split
  · next stream hstream =>
    rw [if_neg]
    rintro hsame
    rw [activeId, hstream] at hne
    exact hne (congrArg some hsame)
  · rfl

/-! ### The table of active streams -/

/-- **Only authorised handshakes become streams.** Along every run of the loop:
    every active stream stems from one handshake on its stream id whose own check succeeded and
    which no frame cancelled in between; no id is pending and active; there are at most as many
    streams as allowed; and the notification of an instance that was active before the id was
    free again does not touch the stream that uses the id now. -/
theorem streams_authorised (host : EnvironmentHost η κ μ) (events : List EnvironmentEvent) :
    (∀ sid stream, (run host {} events).streams.lookup sid = some stream →
        ∃ before request between room after, events = before ++ request :: between ++
            .validationResult stream.instanceId true room :: after ∧
          request.addressed = some (sid, .handshake) ∧
          (run host {} before).nextValidationId = stream.instanceId ∧
          (∃ task ∈ (run host {} (before ++ [request])).validationTasks,
            task.streamId = sid ∧ task.validationId = stream.instanceId) ∧
          ∀ event ∈ between, ¬ event.Cancels sid) ∧
    (∀ sid, ¬ (sid ∈ (run host {} events).pendingHandshakes ∧
      sid ∈ (run host {} events).streams)) ∧
    (run host {} events).streams.entries.length ≤ maxActiveNoiseRelayStreams ∧
    ∀ earlier gap later sid old, events = earlier ++ gap ++ later →
      (run host {} earlier).streams.lookup sid = some old →
      sid ∉ (run host {} (earlier ++ gap)).streams → (step host (run host {} events)
        (.closedStream { streamId := sid, instanceId := old.instanceId })).streams =
          (run host {} events).streams := by
  have hinv := run_inv host inv_start events
  refine ⟨fun sid stream hstream => ?_, fun sid h => hinv.separate sid h.2 h.1, hinv.length_le, ?_⟩
  · have hactive : (run host {} events).activeId sid = some stream.instanceId := by
      rw [activeId, hstream]
      rfl
    obtain ⟨history, room, after, rfl, before, request, between, rfl, hrequest⟩ :=
      (requested_and_authorised host events).2 _ _ hactive
    exact ⟨before, request, between, room, after, rfl, hrequest⟩
  · rintro earlier gap later sid old rfl hold hgone
    have hearlier := run_inv host inv_start earlier
    have hactive : (run host {} earlier).activeId sid = some old.instanceId := by
      rw [activeId, hold]
      rfl
    have hspent := ((hearlier.spent hactive).run host hearlier gap).1
    rw [← run_append] at hspent
    -- From here on the number of the old instance makes no stream.
    have hne : (run host {} (earlier ++ gap)).activeId sid ≠
        some old.instanceId := by
      rw [activeId_eq_none.mpr hgone]
      simp
    have hnow := (hspent.run host (run_inv host inv_start _) later).2 sid hne
    rw [← run_append] at hnow
    unfold step
    split_ifs
    · dsimp only
      rw [closeStream_of_ne hnow]
    · rfl

end Codex.Relay
