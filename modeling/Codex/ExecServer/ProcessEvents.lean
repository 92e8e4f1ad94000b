import Codex.ExecServer.LocalProcess

namespace Codex.ExecServer

open List Option

/-!
# The events of a process

Three tasks serve a running process: one for each of its two output streams, and one that waits for
its exit.  Under the lock of the map of processes they give the events their numbers and publish
them; the notifications for the client are sent after the lock is released.  Whoever finds that both
streams have ended and the process has exited closes the process.

* `RunningProcess` — the entry of the process, and what the tasks do to it;
* `StreamTask.step`, `ExitTask.step` — the tasks from one access to the next;
* `ProcessServer.run` — the interleavings of the tasks.
-/

/-! ### Events -/

inductive ExecOutputStream
  | stdout
  | stderr
  | pty
deriving DecidableEq

structure ProcessOutputChunk where
  seq : ℕ
  stream : ExecOutputStream
  chunk : List UInt8
deriving DecidableEq

inductive ExecProcessEvent
  | output (chunk : ProcessOutputChunk)
  | exited (seq : ℕ) (exitCode : ℤ)
  | closed (seq : ℕ)
  | failed (message : Text)
deriving DecidableEq

namespace ExecProcessEvent

/-- Only `failed` has no number: it does not come from the process. -/
def seq : ExecProcessEvent → Option ℕ
  | .output chunk => some chunk.seq
  | .exited seq _ => some seq
  | .closed seq => some seq
  | .failed _ => none

def isExited : ExecProcessEvent → Bool
  | .exited _ _ => true
  | _ => false

def isClosed : ExecProcessEvent → Bool
  | .closed _ => true
  | _ => false

end ExecProcessEvent

/-! ### The entry of a process -/

def retainedOutputBytesPerProcess : ℕ := 1024 * 1024

/-- The entry of a running process in the map. -/
structure RunningProcess where
  output : List ProcessOutputChunk
  retainedBytes : ℕ
  nextSeq : ℕ
  exitCode : Option ℤ
  /-- The number last sent to those who wait for a change. -/
  wake : ℕ
  openStreams : ℕ
  closed : Bool

namespace RunningProcess

/-- The entry `start_process` makes. -/
def start : RunningProcess := ⟨[], 0, 1, none, 0, 2, false⟩

/-- The loop that gives up the oldest output while there is too much. -/
def evict : List ProcessOutputChunk → ℕ → List ProcessOutputChunk × ℕ
  | [], bytes => ([], bytes)
  | oldest :: output, bytes =>
    if retainedOutputBytesPerProcess < bytes then evict output (bytes - oldest.chunk.length)
    else (oldest :: output, bytes)

variable (process : RunningProcess)

def recordOutput (stream : ExecOutputStream) (chunk : List UInt8) :
    RunningProcess × ExecProcessEvent :=
  let record : ProcessOutputChunk := ⟨process.nextSeq, stream, chunk⟩
  let retained := evict (process.output ++ [record]) (process.retainedBytes + chunk.length)
  ({ process with
      output := retained.1, retainedBytes := retained.2, nextSeq := process.nextSeq + 1,
      wake := process.nextSeq }, .output record)

def recordExit (exitCode : ℤ) : RunningProcess × ExecProcessEvent :=
  ({ process with
      nextSeq := process.nextSeq + 1, exitCode := some exitCode, wake := process.nextSeq },
    .exited process.nextSeq exitCode)

/-- The first half of `finish_output_stream`. -/
def finishStream : RunningProcess :=
  if 0 < process.openStreams then { process with openStreams := process.openStreams - 1 }
  else process

/-- `maybe_emit_closed`. -/
def emitClosed : Option (RunningProcess × ExecProcessEvent) :=
  if process.closed || process.openStreams != 0 || process.exitCode.isNone then none
  else some ({ process with
      closed := true, nextSeq := process.nextSeq + 1, wake := process.nextSeq },
    .closed process.nextSeq)

end RunningProcess

/-! ### The tasks -/

/-- What the tasks share: the entry in the map, the events that were published, and the
    notifications that were sent. -/
structure ProcessRecord where
  entry : Option RunningProcess
  log : List ExecProcessEvent
  sent : List ExecProcessEvent

namespace ProcessRecord

variable (record : ProcessRecord)

/-- A change of the entry that publishes an event. -/
def publish (result : RunningProcess × ExecProcessEvent) : ProcessRecord :=
  { record with entry := some result.1, log := record.log ++ [result.2] }

/-- A notification is sent if the session has a sender. -/
def notify (connected : Bool) (event : ExecProcessEvent) : ProcessRecord :=
  if connected then { record with sent := record.sent ++ [event] } else record

/-- The end of the retention of a closed process. -/
def cleanup : ProcessRecord :=
  if record.entry.any (·.closed) then { record with entry := none } else record

end ProcessRecord

/-- What a task takes from outside: a chunk of output, or that the stream has ended; an exit code,
    or that the child was lost; and whether the session has a sender. -/
structure TaskInput where
  chunk : Option (List UInt8)
  exitCode : Option ℤ
  connected : Bool

/-- `stream_output`. -/
inductive StreamTask
  | receiving
  /-- Before the notification of an output. -/
  | notifying (event : ExecProcessEvent)
  /-- Behind the loop, before `finish_output_stream`. -/
  | finishing
  /-- Before `maybe_emit_closed`. -/
  | closing
  /-- Before the notification of the end. -/
  | notifyingClosed (event : ExecProcessEvent)
  | done
deriving DecidableEq

/-- `watch_exit`. -/
inductive ExitTask
  | waiting
  /-- Before the notification of the exit, if there is one. -/
  | notifying (event : Option ExecProcessEvent)
  /-- Before `maybe_emit_closed`. -/
  | closing
  /-- Before the notification of the end. -/
  | notifyingClosed (event : ExecProcessEvent)
  | done
deriving DecidableEq

/-- `maybe_emit_closed` up to its notification. -/
def maybeEmitClosed (record : ProcessRecord) : ProcessRecord × Option ExecProcessEvent :=
  match record.entry.bind (·.emitClosed) with
  | some result => (record.publish result, some result.2)
  | none => (record, none)

def StreamTask.step (stream : ExecOutputStream) (input : TaskInput) (record : ProcessRecord) :
    StreamTask → ProcessRecord × StreamTask
  | .receiving =>
    match input.chunk with
    | none => (record, .finishing)
    | some chunk =>
      match record.entry with
      | none => (record, .finishing)
      | some process =>
        (record.publish (process.recordOutput stream chunk),
          .notifying (process.recordOutput stream chunk).2)
  | .notifying event => (record.notify input.connected event, .receiving)
  | .finishing =>
    match record.entry with
    | none => (record, .done)
    | some process => ({ record with entry := some process.finishStream }, .closing)
  | .closing =>
    match (maybeEmitClosed record).2 with
    | some event => ((maybeEmitClosed record).1, .notifyingClosed event)
    | none => ((maybeEmitClosed record).1, .done)
  | .notifyingClosed event => (record.notify input.connected event, .done)
  | .done => (record, .done)

def ExitTask.step (input : TaskInput) (record : ProcessRecord) : ExitTask → ProcessRecord × ExitTask
  | .waiting =>
    match record.entry with
    | none => (record, .notifying none)
    | some process =>
      (record.publish (process.recordExit (input.exitCode.getD (-1))),
        .notifying (some (process.recordExit (input.exitCode.getD (-1))).2))
  | .notifying none => (record, .closing)
  | .notifying (some event) => (record.notify input.connected event, .closing)
  | .closing =>
    match (maybeEmitClosed record).2 with
    | some event => ((maybeEmitClosed record).1, .notifyingClosed event)
    | none => ((maybeEmitClosed record).1, .done)
  | .notifyingClosed event => (record.notify input.connected event, .done)
  | .done => (record, .done)

/-- A process with its tasks. -/
structure ProcessServer where
  record : ProcessRecord
  stdout : StreamTask
  stderr : StreamTask
  watcher : ExitTask

/-- Whose turn it is. -/
inductive ProcessTurn
  | stdout (input : TaskInput)
  | stderr (input : TaskInput)
  | watcher (input : TaskInput)
  | cleanup

namespace ProcessServer

def start : ProcessServer := ⟨⟨some .start, [], []⟩, .receiving, .receiving, .waiting⟩

/-- A step of one of the tasks.  On a terminal both streams are one. -/
def step (tty : Bool) (server : ProcessServer) : ProcessTurn → ProcessServer
  | .stdout input =>
    let result := server.stdout.step (if tty then .pty else .stdout) input server.record
    { server with record := result.1, stdout := result.2 }
  | .stderr input =>
    let result := server.stderr.step (if tty then .pty else .stderr) input server.record
    { server with record := result.1, stderr := result.2 }
  | .watcher input =>
    let result := server.watcher.step input server.record
    { server with record := result.1, watcher := result.2 }
  | .cleanup => { server with record := server.record.cleanup }

/-- The tasks take turns in any order. -/
def run (tty : Bool) (turns : List ProcessTurn) : ProcessServer := turns.foldl (step tty) start

/-- All tasks have come to their end. -/
def isDone (server : ProcessServer) : Bool :=
  decide (server.stdout = .done) && decide (server.stderr = .done) && decide (server.watcher = .done)

end ProcessServer

/-! ### What holds of the events -/

/-- The events of a log are numbered from one on. -/
def Numbered (log : List ExecProcessEvent) : Prop :=
  ∀ (k : ℕ) (event : ExecProcessEvent), log[k]? = some event → event.seq = some (k + 1)

/-- The process was closed. -/
def IsOver (log : List ExecProcessEvent) : Prop := ∃ event ∈ log, event.isClosed

variable {event : ExecProcessEvent} {log : List ExecProcessEvent}

theorem Numbered.append (h : Numbered log)
    (hevent : event.seq = some (log.length + 1)) : Numbered (log ++ [event]) := by
  intro k e hk
  rcases lt_or_ge k log.length with hlt | hge
  · rw [getElem?_append_left hlt] at hk
    exact h k e hk
  · rw [getElem?_append_right hge, getElem?_singleton] at hk
    split_ifs at hk with hzero
    cases hk
    rw [hevent, show k = log.length by omega]

theorem isOver_append : IsOver (log ++ [event]) ↔ IsOver log ∨ event.isClosed := by
  simp [IsOver]

variable (record : ProcessRecord)

theorem maybeEmitClosed_log : record.log <+: (maybeEmitClosed record).1.log := by
  unfold maybeEmitClosed
  split
  · exact prefix_append _ _
  · exact prefix_refl _

theorem notify_log (connected : Bool) : record.log <+: (record.notify connected event).log := by
  unfold ProcessRecord.notify
  split_ifs <;> exact prefix_refl _

/-- What holds of the record of a process while `streams` of its streams have not ended, and its
    exit was recorded or not. -/
structure ProcessRecord.Sound (streams : ℕ) (exited : Bool) : Prop where
  numbered : Numbered record.log
  nextSeq : ∀ process, record.entry = some process → process.nextSeq = record.log.length + 1
  openStreams : ∀ process, record.entry = some process → process.openStreams = streams
  exitCode : ∀ process, record.entry = some process → process.exitCode.isSome = exited
  closed : ∀ process, record.entry = some process → (process.closed ↔ IsOver record.log)
  /-- The entry is removed only after the end. -/
  removed : record.entry = none → IsOver record.log
  exits : record.log.countP (·.isExited) = exited.toNat
  /-- Nothing is published after the end. -/
  last : ∀ (k : ℕ) (event : ExecProcessEvent), record.log[k]? = some event →
    event.isClosed → k + 1 = record.log.length
  ended : IsOver record.log → streams = 0 ∧ exited
  sent : ∀ event ∈ record.sent, event ∈ record.log

namespace ProcessRecord.Sound

variable {record : ProcessRecord} {streams : ℕ} {exited : Bool} {process process' : RunningProcess}

theorem start : ProcessRecord.Sound ⟨some .start, [], []⟩ 2 false where
  numbered := fun _ _ => nofun
  nextSeq := by rintro process ⟨⟩; rfl
  openStreams := by rintro process ⟨⟩; rfl
  exitCode := by rintro process ⟨⟩; rfl
  closed := by rintro process ⟨⟩; simp [RunningProcess.start, IsOver]
  removed := nofun
  exits := rfl
  last := fun _ _ => nofun
  ended := by simp [IsOver]
  sent := fun _ => nofun

section

variable (h : record.Sound streams exited)
include h

/-- As long as not everything has ended, the entry is there. -/
theorem exists_entry (hopen : ¬ IsOver record.log) : ∃ process, record.entry = some process := by
  cases hentry : record.entry with
  | none => exact absurd (h.removed hentry) hopen
  | some process => exact ⟨process, rfl⟩

theorem closed_eq_false (hopen : ¬ IsOver record.log) (hentry : record.entry = some process) :
    process.closed = false :=
  Bool.eq_false_iff.mpr fun hclosed => hopen ((h.closed process hentry).mp hclosed)

/-- Publishing an event of a process that was not closed. -/
theorem publish {streams' : ℕ} {exited' : Bool} (hopen : ¬ IsOver record.log)
    (hentry : record.entry = some process') (hevent : event.seq = some process'.nextSeq)
    (hnext : process.nextSeq = process'.nextSeq + 1) (hstreams : process.openStreams = streams')
    (hexit : process.exitCode.isSome = exited') (hclosed : process.closed = event.isClosed)
    (hexits : exited.toNat + event.isExited.toNat = exited'.toNat)
    (hended : event.isClosed → streams' = 0 ∧ exited') :
    (record.publish (process, event)).Sound streams' exited' where
  numbered := h.numbered.append (by rw [hevent, h.nextSeq process' hentry])
  nextSeq := by
    simp [ProcessRecord.publish, hnext, h.nextSeq process' hentry]
  openStreams := by rintro process ⟨⟩; exact hstreams
  exitCode := by rintro process ⟨⟩; exact hexit
  closed := by
    rintro process ⟨⟩
    show process.closed ↔ IsOver (record.log ++ [event])
    rw [isOver_append, hclosed, or_iff_right hopen]
  removed := nofun
  exits := by
    show (record.log ++ [event]).countP (·.isExited) = exited'.toNat
    rw [countP_append, h.exits, countP_singleton, ← hexits]
    cases event.isExited <;> rfl
  last := by
    intro k e hk he
    change (record.log ++ [event])[k]? = some e at hk
    show k + 1 = (record.log ++ [event]).length
    have hlt := (List.getElem?_eq_some_iff.mp hk).1
    rw [length_append] at hlt ⊢
    rcases Nat.lt_succ_iff_lt_or_eq.mp hlt with hlt | rfl
    · rw [getElem?_append_left hlt] at hk
      exact absurd ⟨e, mem_of_getElem? hk, he⟩ hopen
    · rfl
  ended := by
    intro hover
    rcases isOver_append.mp hover with hover | hclosed
    · exact absurd hover hopen
    · exact hended hclosed
  sent := fun e he => mem_append_left _ (h.sent e he)

theorem notify (hevent : event ∈ record.log) (connected : Bool) :
    (record.notify connected event).Sound streams exited := by
  unfold ProcessRecord.notify
  split_ifs
  · exact { h with sent := forall_mem_append.mpr ⟨h.sent, forall_mem_singleton.mpr hevent⟩ }
  · exact h

theorem cleanup : record.cleanup.Sound streams exited := by
  unfold ProcessRecord.cleanup
  split_ifs with hclosed
  · obtain ⟨process, hentry, hprocess⟩ := (any_eq_true _ _).mp hclosed
    exact ⟨h.numbered, fun _ => nofun, fun _ => nofun, fun _ => nofun, fun _ => nofun,
      fun _ => (h.closed process hentry).mp hprocess, h.exits, h.last, h.ended, h.sent⟩
  · exact h

end

/-- A task whose stream has not ended publishes its output. -/
theorem recordOutput (h : record.Sound (streams + 1) exited) (hentry : record.entry = some process)
    (stream : ExecOutputStream) (chunk : List UInt8) :
    (record.publish (process.recordOutput stream chunk)).Sound (streams + 1) exited := by
  have hopen : ¬ IsOver record.log := fun hover => nomatch (h.ended hover).1
  have hclosed := h.closed_eq_false hopen hentry
  exact h.publish hopen hentry rfl rfl (h.openStreams process hentry) (h.exitCode process hentry)
    hclosed rfl nofun

theorem recordExit (h : record.Sound streams false) (hentry : record.entry = some process)
    (exitCode : ℤ) : (record.publish (process.recordExit exitCode)).Sound streams true := by
  have hopen : ¬ IsOver record.log := fun hover => nomatch (h.ended hover).2
  have hclosed := h.closed_eq_false hopen hentry
  exact h.publish hopen hentry rfl rfl (h.openStreams process hentry) rfl hclosed rfl nofun

theorem finishStream (h : record.Sound (streams + 1) exited) (hentry : record.entry = some process) :
    ProcessRecord.Sound { record with entry := some process.finishStream } streams exited := by
  have hopen : ¬ IsOver record.log := fun hover => nomatch (h.ended hover).1
  have hstreams := h.openStreams process hentry
  have hfinish : process.finishStream = { process with openStreams := streams } := by
    rw [RunningProcess.finishStream, if_pos (by omega), hstreams, Nat.add_sub_cancel]
  rw [hfinish]
  refine ⟨h.numbered, ?_, ?_, ?_, ?_, nofun, h.exits, h.last, fun hover => absurd hover hopen,
    h.sent⟩ <;> rintro process' ⟨⟩
  · exact h.nextSeq process hentry
  · rfl
  · exact h.exitCode process hentry
  · exact h.closed process hentry

/-- `maybe_emit_closed` closes a process when everything has ended. -/
theorem maybeEmitClosed (h : record.Sound streams exited) :
    (maybeEmitClosed record).1.Sound streams exited ∧
      (∀ event, (maybeEmitClosed record).2 = some event → event ∈ (maybeEmitClosed record).1.log) ∧
      (streams = 0 → exited → IsOver (maybeEmitClosed record).1.log) := by
  unfold ExecServer.maybeEmitClosed
  split
  · next result hresult =>
    obtain ⟨process, hentry, hemit⟩ := bind_eq_some_iff.mp hresult
    unfold RunningProcess.emitClosed at hemit
    split_ifs at hemit with hcond
    cases hemit
    simp only [Bool.or_eq_true, bne_iff_ne, isNone_iff_eq_none, not_or, not_not,
      Bool.not_eq_true] at hcond
    obtain ⟨⟨hclosed, hzero⟩, hexit⟩ := hcond
    have hopen : ¬ IsOver record.log := fun hover => by
      rw [(h.closed process hentry).mpr hover] at hclosed
      cases hclosed
    have hstreams : streams = 0 := (h.openStreams process hentry).symm.trans hzero
    have hexited : exited := by
      rw [← h.exitCode process hentry]
      exact isSome_iff_ne_none.mpr hexit
    refine ⟨h.publish hopen hentry rfl rfl (h.openStreams process hentry)
      (h.exitCode process hentry) rfl rfl (fun _ => ⟨hstreams, hexited⟩), ?_,
      fun _ _ => isOver_append.mpr (.inr rfl)⟩
    simp [ProcessRecord.publish]
  · next hnone =>
    refine ⟨h, fun _ => nofun, fun hstreams hexited => ?_⟩
    -- the entry was removed, or it is closed already
    by_contra hopen
    obtain ⟨process, hentry⟩ := h.exists_entry hopen
    rw [hentry] at hnone
    have hexit := h.exitCode process hentry
    rw [hexited, isSome_iff_ne_none] at hexit
    simp [RunningProcess.emitClosed, h.closed_eq_false hopen hentry, h.openStreams process hentry,
      hstreams, hexit] at hnone

end ProcessRecord.Sound

/-! ### What holds of the tasks -/

/-- The stream of the task has not ended. -/
def StreamTask.isOpen : StreamTask → Bool
  | .receiving | .notifying _ | .finishing => true
  | _ => false

/-- The event the task is about to send. -/
def StreamTask.event? : StreamTask → Option ExecProcessEvent
  | .notifying event | .notifyingClosed event => some event
  | _ => none

def ExitTask.event? : ExitTask → Option ExecProcessEvent
  | .notifying event => event
  | .notifyingClosed event => some event
  | _ => none

/-- The exit was recorded. -/
def ExitTask.hasExited : ExitTask → Bool
  | .waiting => false
  | _ => true

/-- The task has still to call `maybe_emit_closed`. -/
def ExitTask.isEmitting : ExitTask → Bool
  | .notifying _ | .closing => true
  | _ => false

/-- What a step of a stream does, where `others` other streams have not ended. -/
theorem StreamTask.step_sound {record : ProcessRecord} {task : StreamTask} {others : ℕ}
    {exited : Bool} (h : record.Sound (task.isOpen.toNat + others) exited)
    (hevent : ∀ event, task.event? = some event → event ∈ record.log) (stream : ExecOutputStream)
    (input : TaskInput) :
    let result := task.step stream input record
    result.1.Sound (result.2.isOpen.toNat + others) exited ∧
      (∀ event, result.2.event? = some event → event ∈ result.1.log) ∧
      record.log <+: result.1.log ∧
      (task = .closing → others = 0 → exited → IsOver result.1.log) ∧
      (task.isOpen → result.2.isOpen = false → result.2 = .closing) := by
  cases task with
  | receiving =>
    rw [Nat.add_comm] at h
    dsimp only [StreamTask.step]
    cases input.chunk with
    | none => exact ⟨by rwa [Nat.add_comm], fun _ => nofun, prefix_refl _, nofun, fun _ => nofun⟩
    | some chunk =>
      cases hentry : record.entry with
      | none =>
        exact ⟨by rwa [Nat.add_comm], fun _ => nofun, prefix_refl _, nofun, fun _ => nofun⟩
      | some process =>
        refine ⟨?_, ?_, prefix_append _ _, nofun, fun _ => nofun⟩
        · rw [Nat.add_comm]
          exact h.recordOutput hentry stream chunk
        · rintro event ⟨⟩
          simp [ProcessRecord.publish]
  | notifying event =>
    exact ⟨h.notify (hevent event rfl) input.connected, fun _ => nofun, notify_log _ _, nofun,
      fun _ => nofun⟩
  | finishing =>
    rw [Nat.add_comm] at h
    have hopen : ¬ IsOver record.log := fun hover => nomatch (h.ended hover).1
    obtain ⟨process, hentry⟩ := h.exists_entry hopen
    dsimp only [StreamTask.step]
    rw [hentry]
    refine ⟨?_, fun _ => nofun, prefix_refl _, nofun, fun _ _ => rfl⟩
    show ProcessRecord.Sound _ (0 + others) exited
    rw [Nat.zero_add]
    exact h.finishStream hentry
  | closing =>
    obtain ⟨hsound, hmem, hover⟩ := h.maybeEmitClosed
    have hgrown := maybeEmitClosed_log record
    dsimp only [StreamTask.step]
    cases hclosed : (maybeEmitClosed record).2 with
    | none =>
      exact ⟨hsound, fun _ => nofun, hgrown, fun _ hzero => hover (by rw [hzero]; rfl), nofun⟩
    | some event =>
      refine ⟨hsound, ?_, hgrown, fun _ hzero => hover (by rw [hzero]; rfl), nofun⟩
      rintro e ⟨⟩
      exact hmem event hclosed
  | notifyingClosed event =>
    exact ⟨h.notify (hevent event rfl) input.connected, fun _ => nofun, notify_log _ _, nofun, nofun⟩
  | done => exact ⟨h, fun _ => nofun, prefix_refl _, nofun, nofun⟩

/-- What a step of the exit watcher does. -/
theorem ExitTask.step_sound {record : ProcessRecord} {task : ExitTask} {streams : ℕ}
    (h : record.Sound streams task.hasExited)
    (hevent : ∀ event, task.event? = some event → event ∈ record.log) (input : TaskInput) :
    let result := task.step input record
    result.1.Sound streams result.2.hasExited ∧
      (∀ event, result.2.event? = some event → event ∈ result.1.log) ∧
      record.log <+: result.1.log ∧
      (task = .closing → streams = 0 → IsOver result.1.log) ∧
      (task.isEmitting ∨ task = .waiting → task ≠ .closing → result.2.isEmitting) := by
  cases task with
  | waiting =>
    have hopen : ¬ IsOver record.log := fun hover => nomatch (h.ended hover).2
    obtain ⟨process, hentry⟩ := h.exists_entry hopen
    dsimp only [ExitTask.step]
    rw [hentry]
    refine ⟨h.recordExit hentry _, ?_, prefix_append _ _, nofun, fun _ _ => rfl⟩
    rintro event ⟨⟩
    simp [ProcessRecord.publish]
  | notifying event =>
    cases event with
    | none => exact ⟨h, fun _ => nofun, prefix_refl _, nofun, fun _ _ => rfl⟩
    | some event =>
      exact ⟨h.notify (hevent event rfl) input.connected, fun _ => nofun, notify_log _ _, nofun,
        fun _ _ => rfl⟩
  | closing =>
    obtain ⟨hsound, hmem, hover⟩ := h.maybeEmitClosed
    have hgrown := maybeEmitClosed_log record
    dsimp only [ExitTask.step]
    cases hclosed : (maybeEmitClosed record).2 with
    | none =>
      exact ⟨hsound, fun _ => nofun, hgrown, fun _ hzero => hover hzero rfl, fun _ h => absurd rfl h⟩
    | some event =>
      refine ⟨hsound, ?_, hgrown, fun _ hzero => hover hzero rfl, fun _ h => absurd rfl h⟩
      rintro e ⟨⟩
      exact hmem event hclosed
  | notifyingClosed event =>
    exact ⟨h.notify (hevent event rfl) input.connected, fun _ => nofun, notify_log _ _, nofun,
      by simp [isEmitting]⟩
  | done => exact ⟨h, fun _ => nofun, prefix_refl _, nofun, by simp [isEmitting]⟩

namespace ProcessServer

/-- What holds of a process and its tasks. -/
structure Inv (server : ProcessServer) : Prop where
  sound : server.record.Sound (server.stdout.isOpen.toNat + server.stderr.isOpen.toNat)
    server.watcher.hasExited
  /-- When everything has ended and the process is not closed, a task will close it. -/
  emitting : ¬ IsOver server.record.log → server.stdout.isOpen = false →
    server.stderr.isOpen = false → server.watcher.hasExited →
    server.stdout = .closing ∨ server.stderr = .closing ∨ server.watcher.isEmitting
  stdoutEvent : ∀ event, server.stdout.event? = some event → event ∈ server.record.log
  stderrEvent : ∀ event, server.stderr.event? = some event → event ∈ server.record.log
  watcherEvent : ∀ event, server.watcher.event? = some event → event ∈ server.record.log

theorem inv_start : start.Inv :=
  ⟨.start, fun _ => nofun, fun _ => nofun, fun _ => nofun, fun _ => nofun⟩

theorem IsOver.of_prefix {log' : List ExecProcessEvent} (h : log <+: log') (hover : IsOver log) :
    IsOver log' := hover.imp fun _ hevent => ⟨h.subset hevent.1, hevent.2⟩

variable {server : ProcessServer}

theorem inv_step (h : server.Inv) (tty : Bool) (turn : ProcessTurn) :
    (server.step tty turn).Inv := by
  obtain ⟨hsound, hemitting, hstdout, hstderr, hwatcher⟩ := h
  cases turn with
  | stdout input =>
    obtain ⟨hsound', hevent', hgrown, hover, hlast⟩ :=
      StreamTask.step_sound hsound hstdout (if tty then .pty else .stdout) input
    refine ⟨hsound', fun hopen hout herr hexit => ?_, hevent',
      fun e he => hgrown.subset (hstderr e he), fun e he => hgrown.subset (hwatcher e he)⟩
    have hopen' : ¬ IsOver server.record.log := fun h => hopen (IsOver.of_prefix hgrown h)
    by_cases hwas : server.stdout.isOpen
    · exact .inl (hlast hwas hout)
    · rcases hemitting hopen' (Bool.eq_false_iff.mpr hwas) herr hexit with hclosing | hclosing
      · refine absurd (hover hclosing ?_ hexit) hopen
        rw [show server.stderr.isOpen = false from herr]
        rfl
      · exact .inr hclosing
  | stderr input =>
    rw [Nat.add_comm] at hsound
    obtain ⟨hsound', hevent', hgrown, hover, hlast⟩ :=
      StreamTask.step_sound hsound hstderr (if tty then .pty else .stderr) input
    rw [Nat.add_comm] at hsound'
    refine ⟨hsound', fun hopen hout herr hexit => ?_, fun e he => hgrown.subset (hstdout e he),
      hevent', fun e he => hgrown.subset (hwatcher e he)⟩
    have hopen' : ¬ IsOver server.record.log := fun h => hopen (IsOver.of_prefix hgrown h)
    by_cases hwas : server.stderr.isOpen
    · exact .inr (.inl (hlast hwas herr))
    · rcases hemitting hopen' hout (Bool.eq_false_iff.mpr hwas) hexit with
        hclosing | hclosing | hclosing
      · exact .inl hclosing
      · refine absurd (hover hclosing ?_ hexit) hopen
        rw [show server.stdout.isOpen = false from hout]
        rfl
      · exact .inr (.inr hclosing)
  | watcher input =>
    obtain ⟨hsound', hevent', hgrown, hover, hlast⟩ := ExitTask.step_sound hsound hwatcher input
    refine ⟨hsound', fun hopen hout herr _ => ?_, fun e he => hgrown.subset (hstdout e he),
      fun e he => hgrown.subset (hstderr e he), hevent'⟩
    have hopen' : ¬ IsOver server.record.log := fun h => hopen (IsOver.of_prefix hgrown h)
    have hstreams : server.stdout.isOpen.toNat + server.stderr.isOpen.toNat = 0 := by
      rw [show server.stdout.isOpen = false from hout, show server.stderr.isOpen = false from herr]
      rfl
    have hclosing : server.watcher ≠ .closing := fun hclosing => hopen (hover hclosing hstreams)
    by_cases hwas : server.watcher = .waiting
    · exact .inr (.inr (hlast (.inr hwas) hclosing))
    · have hexit : server.watcher.hasExited := by
        cases hw : server.watcher <;> first | exact absurd hw hwas | rfl
      rcases hemitting hopen' hout herr hexit with hstill | hstill | hstill
      · exact .inl hstill
      · exact .inr (.inl hstill)
      · exact .inr (.inr (hlast (.inl hstill) hclosing))
  | cleanup =>
    have hlog : server.record.cleanup.log = server.record.log := by
      unfold ProcessRecord.cleanup
      split_ifs <;> rfl
    refine ⟨hsound.cleanup, ?_, ?_, ?_, ?_⟩
    · show ¬ IsOver server.record.cleanup.log → _
      rw [hlog]
      exact hemitting
    · exact fun e he => hlog ▸ hstdout e he
    · exact fun e he => hlog ▸ hstderr e he
    · exact fun e he => hlog ▸ hwatcher e he

theorem log_step (h : server.Inv) (tty : Bool) (turn : ProcessTurn) :
    server.record.log <+: (server.step tty turn).record.log := by
  cases turn with
  | stdout input => exact (StreamTask.step_sound h.sound h.stdoutEvent _ input).2.2.1
  | stderr input =>
    have hsound := h.sound
    rw [Nat.add_comm] at hsound
    exact (StreamTask.step_sound hsound h.stderrEvent _ input).2.2.1
  | watcher input => exact (ExitTask.step_sound h.sound h.watcherEvent input).2.2.1
  | cleanup =>
    show _ <+: server.record.cleanup.log
    unfold ProcessRecord.cleanup
    split_ifs <;> exact prefix_refl _

theorem inv_run (tty : Bool) (turns : List ProcessTurn) : (run tty turns).Inv := by
  unfold run
  induction turns using reverseRecOn with
  | nil => exact inv_start
  | append_singleton turns turn ih =>
    rw [foldl_append]
    exact inv_step ih tty turn

/-- Once all tasks have come to their end, the process is closed. -/
theorem isOver_of_isDone (h : server.Inv) (hdone : server.isDone) : IsOver server.record.log := by
  simp only [isDone, Bool.and_eq_true, decide_eq_true_eq] at hdone
  obtain ⟨⟨hstdout, hstderr⟩, hwatcher⟩ := hdone
  by_contra hopen
  have hemitting := h.emitting hopen
  rw [hstdout, hstderr, hwatcher] at hemitting
  rcases hemitting rfl rfl rfl with hclosing | hclosing | hclosing <;> cases hclosing

end ProcessServer

end Codex.ExecServer
