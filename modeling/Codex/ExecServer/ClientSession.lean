import Codex.Data.Table
import Codex.ExecServer.ProcessEvents

namespace Codex.ExecServer

open ProcessServer List

/-!
# The events of a process at the client

The notifications of the tasks of a process may overtake each other.  The session at the client
publishes an event when all earlier ones have been published, keeps the first copy of a later one,
and is taken off the table of routes when the end of the process is published.

* `ClientSession.publishOrderedEvent`, `ClientSession.handle` — one notification;
* `ClientSession.Follows` — the session has published a beginning of the log;
* `events_once_in_order` — the events from the tasks of the server to the subscribers of the client;
* `LosingSession`, `failed_last_of_reached` — the failure of a session whose transport is lost;
* `ClientRoutes`, `routed_of_reached` — the table of routes, while sessions come and go.
-/

/-! ### The session -/

/-- A session, and whether notifications are routed to it. -/
structure ClientSession where
  routed : Bool
  wake : ℕ
  lastPublishedSeq : ℕ
  pending : AList fun _ : ℕ => ExecProcessEvent
  published : List ExecProcessEvent

variable {log : List ExecProcessEvent}

namespace ClientSession

def new : ClientSession := ⟨true, 0, 0, ∅, []⟩

/-- The loop of `publish_ordered_event`: the events that follow the last published one without a
    gap, with the number of the last of them and the events that are still to wait. -/
def releaseReady (last : ℕ) (pending : AList fun _ : ℕ => ExecProcessEvent) :
    ℕ × (AList fun _ : ℕ => ExecProcessEvent) × List ExecProcessEvent :=
  match _h : pending.lookup (last + 1) with
  | none => (last, pending, [])
  | some event =>
    let rest := releaseReady (last + 1) (pending.erase (last + 1))
    (rest.1, rest.2.1, event :: rest.2.2)
  termination_by pending.entries.length
  decreasing_by
    have hmem : last + 1 ∈ pending := AList.lookup_isSome.mp (by rw [_h]; rfl)
    have := Data.length_erase_of_mem hmem
    omega

/-- `pending.entry(seq).or_insert(event)`. -/
def orInsert (pending : AList fun _ : ℕ => ExecProcessEvent) (seq : ℕ) (event : ExecProcessEvent) :
    AList fun _ : ℕ => ExecProcessEvent :=
  if (pending.lookup seq).isSome then pending else pending.insert seq event

/-- The result says whether the end of the process was published. -/
def publishOrderedEvent (session : ClientSession) (event : ExecProcessEvent) :
    ClientSession × Bool :=
  match event.seq with
  | none => ({ session with published := session.published ++ [event] }, false)
  | some seq =>
    if seq ≤ session.lastPublishedSeq then (session, false)
    else
      let released := releaseReady session.lastPublishedSeq (orInsert session.pending seq event)
      ({ session with
          lastPublishedSeq := released.1, pending := released.2.1,
          published := session.published ++ released.2.2 }, released.2.2.any (·.isClosed))

/-- `handle_server_notification` for the notification of an event.  It is ignored when there is no
    route. -/
def handle (session : ClientSession) (event : ExecProcessEvent) : ClientSession :=
  if session.routed then
    let noted := { session with wake := max session.wake (event.seq.getD 0) }
    let result := noted.publishOrderedEvent event
    { result.1 with routed := !result.2 }
  else session

def run (received : List ExecProcessEvent) : ClientSession := received.foldl handle new

/-! ### Following the log -/

/-- The events that wait are events of the log, under their numbers, and behind the first `last`. -/
def Ahead (log : List ExecProcessEvent) (last : ℕ) (pending : AList fun _ : ℕ => ExecProcessEvent) :
    Prop :=
  ∀ (k : ℕ) (event : ExecProcessEvent), pending.lookup (k + 1) = some event →
    last ≤ k ∧ log[k]? = some event

variable {pending : AList fun _ : ℕ => ExecProcessEvent}

theorem Ahead.erase {last : ℕ} (h : Ahead log last pending) :
    Ahead log (last + 1) (pending.erase (last + 1)) := by
  intro k event hlookup
  by_cases hk : k + 1 = last + 1
  · rw [hk, AList.lookup_erase] at hlookup
    cases hlookup
  · rw [AList.lookup_erase_ne hk] at hlookup
    obtain ⟨hle, hevent⟩ := h k event hlookup
    exact ⟨by omega, hevent⟩

theorem lookup_orInsert (seq k : ℕ) (event : ExecProcessEvent) :
    (orInsert pending seq event).lookup k =
      if k = seq then (pending.lookup seq).or (some event) else pending.lookup k := by
  unfold ClientSession.orInsert
  split_ifs with hsome hk hk
  · rw [hk, Option.or_of_isSome hsome]
  · rfl
  · rw [hk, AList.lookup_insert, Option.not_isSome_iff_eq_none.mp hsome, Option.none_or]
  · rw [AList.lookup_insert_ne hk]

theorem Ahead.orInsert {last k : ℕ} {event : ExecProcessEvent} (h : Ahead log last pending)
    (hle : last ≤ k) (hevent : log[k]? = some event) :
    Ahead log last (orInsert pending (k + 1) event) := by
  intro j e hlookup
  rw [lookup_orInsert] at hlookup
  have hbefore := h j e
  cases hfirst : pending.lookup (k + 1) <;> grind

/-- The loop publishes the next events of the log. -/
theorem releaseReady_spec {last : ℕ} (h : Ahead log last pending) :
    log.take (releaseReady last pending).1 = log.take last ++ (releaseReady last pending).2.2 ∧
      Ahead log (releaseReady last pending).1 (releaseReady last pending).2.1 := by
  fun_induction releaseReady last pending with
  | case1 last pending hlookup => exact ⟨by simp, h⟩
  | case2 last pending event hlookup rest ih =>
    obtain ⟨htake, hahead⟩ := ih h.erase
    refine ⟨?_, hahead⟩
    rw [htake, take_add_one, (h last event hlookup).2, append_assoc]
    rfl

/-- What the loop leaves was there before, and the next event is not among it. -/
theorem releaseReady_rest (last : ℕ) (pending : AList fun _ : ℕ => ExecProcessEvent) :
    (releaseReady last pending).2.1.lookup ((releaseReady last pending).1 + 1) = none ∧
      ∀ k, (releaseReady last pending).1 ≤ k → last ≤ k ∧
        (releaseReady last pending).2.1.lookup (k + 1) = pending.lookup (k + 1) := by
  fun_induction releaseReady last pending with
  | case1 last pending hlookup => exact ⟨hlookup, fun k hk => ⟨hk, rfl⟩⟩
  | case2 last pending event hlookup rest ih =>
    refine ⟨ih.1, fun k hk => ?_⟩
    obtain ⟨hle, hkept⟩ := ih.2 k hk
    exact ⟨by omega, hkept.trans (AList.lookup_erase_ne (by omega))⟩

/-- The session has published a beginning of the log, and is routed until the end.  What it has
    received behind that beginning waits, and the next event does not. -/
structure Follows (log received : List ExecProcessEvent) (session : ClientSession) : Prop where
  published : session.published = log.take session.lastPublishedSeq
  pending : Ahead log session.lastPublishedSeq session.pending
  routed : session.routed = false ↔ IsOver session.published
  next : session.pending.lookup (session.lastPublishedSeq + 1) = none
  waits : session.routed → ∀ (k : ℕ), ∀ event ∈ received, log[k]? = some event →
    session.lastPublishedSeq ≤ k → session.pending.lookup (k + 1) = some event

theorem follows_new (log : List ExecProcessEvent) : Follows log [] new := by
  refine ⟨rfl, fun k event => nofun, ?_, rfl, fun _ _ _ => nofun⟩
  simp [new, IsOver]

theorem Follows.handle {received : List ExecProcessEvent} {session : ClientSession}
    {event : ExecProcessEvent} (h : Follows log received session) (hlog : Numbered log)
    (hevent : event ∈ log) : Follows log (received ++ [event]) (session.handle event) := by
  unfold ClientSession.handle
  split_ifs with hrouted
  · obtain ⟨k, hk⟩ := mem_iff_getElem?.mp hevent
    have hopen : ¬ IsOver session.published := fun hover => by
      rw [h.routed.mpr hover] at hrouted
      cases hrouted
    have hwaits := h.waits hrouted
    have hindex : ∀ j, log[j]? = some event → j = k := fun j hj => by
      simpa using (hlog j event hj).symm.trans (hlog k event hk)
    simp only [publishOrderedEvent, hlog k event hk]
    split_ifs with hseq
    · refine ⟨h.published, h.pending, by simp [hopen], h.next, ?_⟩
      grind
    · have hahead := h.pending.orInsert (by omega) hk
      obtain ⟨htake, hrest⟩ := releaseReady_spec hahead
      obtain ⟨hnext, hkept⟩ := releaseReady_rest session.lastPublishedSeq
        (orInsert session.pending (k + 1) event)
      refine ⟨?_, hrest, ?_, hnext, fun _ j other hother hj hle => ?_⟩
      · rw [htake, h.published]
      · rw [Bool.not_eq_false', any_eq_true]
        simp only [IsOver, mem_append, or_and_right, exists_or]
        exact (or_iff_right hopen).symm
      · -- the first copy of an event stays
        obtain ⟨hlast, hkept⟩ := hkept j hle
        rw [hkept, lookup_orInsert]
        have hbefore := h.pending k
        cases hfirst : session.pending.lookup (k + 1) <;> grind
  · exact ⟨h.published, h.pending, h.routed, h.next, fun hr => absurd hr hrouted⟩

theorem follows_run (hlog : Numbered log) {received : List ExecProcessEvent}
    (hreceived : ∀ event ∈ received, event ∈ log) : Follows log received (run received) := by
  unfold run
  induction received using reverseRecOn with
  | nil => exact follows_new log
  | append_singleton received event ih =>
    rw [foldl_append]
    refine (ih fun e he => hreceived e (mem_append_left _ he)).handle hlog ?_
    exact hreceived event (by simp)

/-- Events that were received without a gap are published. -/
theorem Follows.complete {received : List ExecProcessEvent} {session : ClientSession}
    (h : Follows log received session) (hlast : ∀ (k : ℕ) (event : ExecProcessEvent),
      log[k]? = some event → event.isClosed → k + 1 = log.length) {k : ℕ}
    (hk : ∀ event ∈ log.take k, event ∈ received) : log.take k <+: session.published := by
  rw [h.published]
  rcases le_or_gt k session.lastPublishedSeq with hle | hlt
  · exact take_prefix_take_left hle
  cases hevent : log[session.lastPublishedSeq]? with
  | none =>
    rw [take_of_length_le (getElem?_eq_none_iff.mp hevent)]
    exact take_prefix k log
  | some event =>
    cases hrouted : session.routed with
    | true =>
      have hreceived := hk event (mem_of_getElem? ((getElem?_take_of_lt hlt).trans hevent))
      cases h.next.symm.trans (h.waits hrouted _ event hreceived hevent le_rfl)
    | false =>
      -- the end was published, so nothing is behind it
      obtain ⟨closed, hclosed, hend⟩ := h.routed.mp hrouted
      obtain ⟨j, hj⟩ := mem_iff_getElem?.mp (h.published ▸ hclosed)
      have hlength := (List.getElem?_eq_some_iff.mp hevent).1
      grind

end ClientSession

/-! ### From the tasks to the subscribers -/

/-- If nothing comes behind the end of a process, it has only one, and that is the last event. -/
theorem closed_once (hlog : Numbered log)
    (hlast : ∀ (k : ℕ) (event : ExecProcessEvent), log[k]? = some event →
      event.isClosed → k + 1 = log.length) (hover : IsOver log) :
    log.countP (·.isClosed) = 1 ∧ log.getLast? = some (.closed log.length) := by
  obtain ⟨event, hmem, hclosed⟩ := hover
  obtain ⟨k, hk⟩ := mem_iff_getElem?.mp hmem
  have hlength := hlast k event hk hclosed
  have hseq := hlog k event hk
  obtain ⟨front, final, rfl⟩ : ∃ front final, log = front ++ [final] :=
    (eq_nil_or_concat' log).resolve_left (ne_nil_of_mem hmem)
  rw [length_append, length_singleton, Nat.add_right_cancel_iff] at hlength
  subst hlength
  rw [getElem?_concat_length] at hk
  cases hk
  have hfront : front.countP (·.isClosed) = 0 := by
    rw [countP_eq_zero]
    intro other hother hclosed'
    obtain ⟨j, hj⟩ := mem_iff_getElem?.mp hother
    have hlt := (List.getElem?_eq_some_iff.mp hj).1
    have := hlast j other (by rw [getElem?_append_left hlt, hj]) hclosed'
    rw [length_append, length_singleton] at this
    omega
  refine ⟨by rw [countP_append, hfront, countP_singleton, if_pos hclosed], ?_⟩
  rw [getLast?_concat, length_append]
  cases event <;> cases hclosed
  cases hseq
  rfl

/-- **Events once and in order.**  However the tasks of a process take turns, its events are
    numbered from one on without a gap, with at most one exit and nothing behind the end; when all
    tasks are done there is exactly one exit, and the end has the last number.  Whatever
    notifications reach the client, in any order and any number of times, its session publishes a
    beginning of these events, with all up to the first that it has not received, and is routed
    until it has published the end. -/
theorem events_once_in_order (tty : Bool) (turns : List ProcessTurn)
    (received : List ExecProcessEvent)
    (hreceived : ∀ event ∈ received, event ∈ (run tty turns).record.sent) :
    let server := run tty turns
    let log := server.record.log
    let session := ClientSession.run received
    Numbered log ∧ log.countP (·.isExited) ≤ 1 ∧
      (IsOver log → log.countP (·.isClosed) = 1 ∧ log.getLast? = some (.closed log.length)) ∧
      (server.isDone → log.countP (·.isExited) = 1 ∧ IsOver log) ∧
      session.published <+: log ∧ (session.routed = false ↔ IsOver session.published) ∧
      ∀ k, (∀ event ∈ log.take k, event ∈ received) → log.take k <+: session.published := by
  intro server log session
  have hinv : server.Inv := inv_run tty turns
  have hsound := hinv.sound
  have hfollows : ClientSession.Follows log received session :=
    ClientSession.follows_run hsound.numbered fun event h => hsound.sent event (hreceived event h)
  refine ⟨hsound.numbered, ?_, closed_once hsound.numbered hsound.last, fun hdone => ?_, ?_,
    hfollows.routed, fun k hk => hfollows.complete hsound.last hk⟩
  · rw [hsound.exits]
    exact Bool.toNat_le _
  · have hover := isOver_of_isDone hinv hdone
    rw [hsound.exits, (hsound.ended hover).2]
    exact ⟨rfl, hover⟩
  · rw [hfollows.published]
    exact take_prefix _ _

/-- A run in which the notification of the exit overtakes the one of the output before it, and the
    task of the error stream closes the process. -/
def sampleTurns : List ProcessTurn :=
  let input : TaskInput := ⟨some [104, 105], some 0, true⟩
  let ended : TaskInput := ⟨none, none, true⟩
  [.stdout input, .watcher input, .stderr ended, .stderr ended, .watcher input, .stdout input,
    .stdout ended, .stdout ended, .stderr ended, .stderr ended, .stdout ended, .watcher ended]

/-- The notifications of the sample, the last one first, and one of them twice. -/
def sampleReceived : List ExecProcessEvent :=
  [.closed 3, .exited 2 0, .exited 2 0, .output ⟨1, .stdout, [104, 105]⟩]

/-- The sample publishes its three events. -/
theorem sampleReceived_in_order :
    (run false sampleTurns).isDone ∧
      (run false sampleTurns).record.log.countP (·.isClosed) = 1 ∧
      (ClientSession.run sampleReceived).published <+: (run false sampleTurns).record.log ∧
      (run false sampleTurns).record.log.take 3 <+: (ClientSession.run sampleReceived).published := by
  have hreceived : ∀ event ∈ sampleReceived,
      event ∈ (run false sampleTurns).record.sent := by decide
  obtain ⟨-, -, hclosed, hdone, hpublished, -, hcomplete⟩ :=
    events_once_in_order false sampleTurns sampleReceived hreceived
  have hisDone : (run false sampleTurns).isDone := by decide
  exact ⟨hisDone, (hclosed (hdone hisDone).2).1, hpublished, hcomplete 3 (by decide)⟩

/-! ### Losing the transport -/

/-- A session, the notifications that the reader has not handled to the end, and the disconnect that
    waits behind them. -/
structure LosingSession where
  session : ClientSession
  failure : Option Text
  queue : List ExecProcessEvent
  disconnected : Option Text

inductive LosingTurn
  | receive (event : ExecProcessEvent)
  | disconnect (message : Text)
  /-- The reader handles what has waited longest. -/
  | handle
  /-- A read ends in an error of the transport. -/
  | failRead

namespace LosingSession

variable (losing : LosingSession)

def setFailure (message : Text) : LosingSession :=
  let session := { losing.session with wake := losing.session.wake + 1 }
  if losing.failure.isSome then { losing with session }
  else { losing with
    session := (session.publishOrderedEvent (.failed message)).1, failure := some message }

def step : LosingTurn → LosingSession
  | .receive event =>
    if losing.disconnected.isSome then losing else { losing with queue := losing.queue ++ [event] }
  | .disconnect message => { losing with disconnected := losing.disconnected.or (some message) }
  | .handle =>
    match losing.queue, losing.disconnected with
    | event :: queue, _ => { losing with queue, session := losing.session.handle event }
    | [], some message =>
      -- the sessions of the table are taken out and fail
      if losing.session.routed then
        setFailure { losing with session := { losing.session with routed := false } } message
      else losing
    | [], none => losing
  | .failRead => losing.setFailure "exec-server transport disconnected".toList

/-- No notification waits, and none is to come. -/
def Drained : Prop := losing.queue = [] ∧ losing.disconnected.isSome

/-- Runs in which reads fail only then. -/
inductive Reached : LosingSession → Prop
  | new : Reached ⟨.new, none, [], none⟩
  | step {losing : LosingSession} {turn : LosingTurn} (h : Reached losing)
    (hread : turn = .failRead → losing.Drained) : Reached (losing.step turn)

/-- A failure is published last, when nothing is to come. -/
def FailedLast : Prop :=
  ∀ message, losing.failure = some message → losing.Drained ∧
    losing.session.published.getLast? = some (.failed message)

variable {losing}

theorem FailedLast.setFailure (h : losing.FailedLast) (hdrained : losing.Drained) (message : Text) :
    (losing.setFailure message).FailedLast := by
  unfold LosingSession.setFailure
  split_ifs
  · exact h
  · rintro _ ⟨⟩
    exact ⟨hdrained, getLast?_concat⟩

theorem FailedLast.step (h : losing.FailedLast) {turn : LosingTurn}
    (hread : turn = .failRead → losing.Drained) : (losing.step turn).FailedLast := by
  cases turn with
  | receive event =>
    simp only [LosingSession.step]
    split_ifs with hdisconnected
    · exact h
    · exact fun message hfailure => absurd (h message hfailure).1.2 hdisconnected
  | disconnect message =>
    intro other hfailure
    obtain ⟨⟨hqueue, hdisconnected⟩, hlast⟩ := h other hfailure
    exact ⟨⟨hqueue, by simp [LosingSession.step]⟩, hlast⟩
  | handle =>
    simp only [LosingSession.step]
    split
    · rename_i hqueue
      intro message hfailure
      cases hqueue.symm.trans (h message hfailure).1.1
    · rename_i hqueue hdisconnected
      split_ifs
      · refine FailedLast.setFailure ?_ ?_ _
        · exact h
        · exact ⟨hqueue, by simp [hdisconnected]⟩
      · exact h
    · exact h
  | failRead => exact h.setFailure (hread rfl) _

/-- **The failure is the last event**, and no notification waits. -/
theorem failed_last_of_reached (h : Reached losing) {message : Text}
    (hfailure : losing.failure = some message) :
    losing.queue = [] ∧ losing.session.published.getLast? = some (.failed message) := by
  suffices hlast : losing.FailedLast from (hlast message hfailure).imp_left And.left
  clear hfailure
  induction h with
  | new => rintro _ ⟨⟩
  | step _ hread ih => exact ih.step hread

theorem releaseReady_first (event : ExecProcessEvent) :
    (ClientSession.releaseReady 0 (AList.insert 1 event ∅)).2.2 = [event] := by
  rw [ClientSession.releaseReady]
  split <;> rename_i h <;> cases h
  rw [ClientSession.releaseReady]
  split <;> rename_i h <;> cases h
  rfl

/-- The reader comes to the disconnect behind a notification, and then a read fails. -/
theorem failed_last_of_disconnect :
    ∃ losing, Reached losing ∧ losing.failure = some ['m'] ∧ losing.queue = [] ∧
      losing.session.published.getLast? = some (.failed ['m']) := by
  let output : ExecProcessEvent := .output ⟨1, .stdout, []⟩
  have hrouted : (ClientSession.new.handle output).routed := by
    show !(ClientSession.releaseReady 0 (AList.insert 1 output ∅)).2.2.any _
    rw [releaseReady_first]
    rfl
  have h : Reached ((((step ⟨.new, none, [], none⟩ (.receive output)).step
      (.disconnect ['m'])).step .handle).step .handle) :=
    .step (.step (.step (.step .new nofun) nofun) nofun) nofun
  have hread : Reached (step _ .failRead) := h.step fun _ => by simp [Drained, step, setFailure, hrouted]
  exact ⟨_, hread, by simp [step, setFailure, hrouted],
    failed_last_of_reached hread (by simp [step, setFailure, hrouted])⟩

/-- The read overtakes a notification that was received before the transport was lost. -/
theorem failRead_before_output :
    let output : ExecProcessEvent := .output ⟨1, .stdout, []⟩
    let losing := [LosingTurn.receive output, .disconnect ['m'], .failRead, .handle].foldl step
      ⟨.new, none, [], none⟩
    losing.session.published =
      [.failed "exec-server transport disconnected".toList, output] := by
  intro output losing
  show [_] ++ (ClientSession.releaseReady 0 (AList.insert 1 output ∅)).2.2 = _
  rw [releaseReady_first]
  rfl

end LosingSession

/-! ### The table of routes -/

/-- A session that has been registered; `held` says that its handle, or its start, is there. -/
structure RemoteSession (ι : Type) where
  processId : ι
  held : Bool
  closed : Bool

/-- The table, with the numbers of the sessions, and the ids whose removal waits for its lock. -/
structure ClientRoutes (ι : Type) where
  sessions : ι → Option ℕ
  registered : List (RemoteSession ι)
  removals : List ι

inductive RouteTurn (ι : Type)
  /-- `insert_session`, as long as the transport is there. -/
  | start (processId : ι)
  /-- A handle is dropped, or the start of a session fails. -/
  | drop (n : ℕ)
  /-- The reader publishes the end of a process. -/
  | close (processId : ι)
  /-- `remove_session`, for one of those that wait. -/
  | remove (k : ℕ)

namespace ClientRoutes

variable {ι : Type} [DecidableEq ι] (routes : ClientRoutes ι)

def step : RouteTurn ι → ClientRoutes ι
  | .start processId =>
    if (routes.sessions processId).isSome then routes
    else { routes with
      sessions := Function.update routes.sessions processId (some routes.registered.length)
      registered := routes.registered ++ [⟨processId, true, false⟩] }
  | .drop n =>
    match routes.registered[n]? with
    | some ⟨processId, true, closed⟩ => { routes with
        registered := routes.registered.set n ⟨processId, false, closed⟩
        removals := processId :: routes.removals }
    | _ => routes
  | .close processId =>
    match routes.sessions processId with
    | some n => { routes with
        registered := routes.registered.modify n ({ · with closed := true })
        removals := processId :: routes.removals }
    | none => routes
  | .remove k =>
    match routes.removals[k]? with
    | some processId => { routes with
        sessions := Function.update routes.sessions processId none
        removals := routes.removals.eraseIdx k }
    | none => routes

/-- The session is neither closed nor dropped. -/
def Live (n : ℕ) (processId : ι) : Prop := routes.registered[n]? = some ⟨processId, true, false⟩

/-- Nothing is left of the earlier sessions with the id. -/
def Unused (processId : ι) : Prop :=
  processId ∉ routes.removals ∧
    ∀ session ∈ routes.registered, session.held → session.processId ≠ processId

/-- Runs in which an id that is free in the table is registered only then. -/
inductive Reached : ClientRoutes ι → Prop
  | new : Reached ⟨fun _ => none, [], []⟩
  | step {routes : ClientRoutes ι} {turn : RouteTurn ι} (h : Reached routes)
    (hunused : ∀ id, turn = .start id → routes.sessions id = none → routes.Unused id) :
    Reached (routes.step turn)

/-- Live sessions have their routes, no removal of them waits, and no other handle has their id. -/
structure Inv : Prop where
  routed : ∀ n id, routes.Live n id → routes.sessions id = some n
  waits : ∀ n id, routes.Live n id → id ∉ routes.removals
  alone : ∀ n id m session, routes.Live n id → routes.registered[m]? = some session →
    session.held → session.processId = id → m = n

variable {routes}

theorem Inv.step (h : routes.Inv) {turn : RouteTurn ι}
    (hunused : ∀ id, turn = .start id → routes.sessions id = none → routes.Unused id) :
    (routes.step turn).Inv := by
  have ⟨hrouted, hwaits, halone⟩ := h
  unfold Live at *
  cases turn with
  | start id =>
    simp only [ClientRoutes.step]
    split_ifs with hrefused
    · exact h
    · obtain ⟨hremovals, hheld⟩ := hunused id rfl (Option.not_isSome_iff_eq_none.mp hrefused)
      constructor <;> simp only [Live] <;> grind
  | drop n =>
    -- a live session with the same id would be the one that is dropped
    constructor <;> simp only [Live, ClientRoutes.step] <;> grind
  | close id =>
    -- a live session with the id would be the one in the table
    constructor <;> simp only [Live, ClientRoutes.step] <;> grind
  | remove k =>
    simp only [ClientRoutes.step]
    split
    · rename_i processId hk
      refine ⟨fun n id hlive => ?_, fun n id hlive hmem => ?_, halone⟩
      · have hne : id ≠ processId := fun heq => hwaits n id hlive (heq ▸ mem_of_getElem? hk)
        exact (Function.update_of_ne hne _ _).trans (hrouted n id hlive)
      · exact hwaits n id hlive (mem_of_mem_eraseIdx hmem)
    · exact h

/-- **Sessions keep their routes.** -/
theorem routed_of_reached (h : Reached routes) {n : ℕ} {id : ι} (hlive : routes.Live n id) :
    routes.sessions id = some n := by
  suffices hinv : routes.Inv from hinv.routed n id hlive
  clear hlive
  induction h with
  | new => constructor <;> simp [Live]
  | step _ hunused ih => exact ih.step hunused

/-- The id of a session that was dropped is used again, and another session is closed. -/
theorem routed_of_reached_two :
    ∃ routes : ClientRoutes ℕ, Reached routes ∧ routes.Live 2 7 ∧ routes.sessions 7 = some 2 := by
  have h : Reached ((((step (step ⟨fun _ => none, [], []⟩ (.start 7)) (.start 8)).step
      (.drop 0)).step (.remove 0)).step (.start 7)) :=
    .step (.step (.step (.step (.step .new (by simp [Unused])) (by simp [Unused, step])) nofun)
      nofun) (by simp [Unused, step])
  have hclosed : Reached (step _ (.close 8)) := h.step nofun
  exact ⟨_, hclosed, rfl, routed_of_reached hclosed rfl⟩

/-- The id of a closed process is used again, and then the handle of the first is dropped. -/
theorem drop_loses_route :
    let routes : ClientRoutes ℕ := [RouteTurn.start 7, .close 7, .remove 0, .start 7, .drop 0,
      .remove 0].foldl step ⟨fun _ => none, [], []⟩
    routes.Live 1 7 ∧ routes.sessions 7 = none := ⟨rfl, rfl⟩

end ClientRoutes

end Codex.ExecServer
