import Codex.ExecServer.ProcessEvents

namespace Codex.ExecServer

open List Option StreamTask

/-!
# Following the events of a process

The events of a process are kept in a bounded history and sent over a bounded channel.  A subscriber
gets the history and then the channel; one that falls behind the channel is told how many events it
has missed, and may read the output that the process retains.

* `ExecProcessEventLog` — the history;
* `ExecProcessEventReceiver.recv` — the next event of a subscriber;
* `RunningProcess.execRead` — the retained output behind a number;
* `ProcessRecord.Retains`, `history_eq`, `execRead_chunks` — what the process and the history still
  have and what a read gives, as long as the output fits.
-/

def processEventChannelCapacity : ℕ := 256

/-! ### The history -/

/-- The bytes an event counts for. -/
def ExecProcessEvent.retainedLen : ExecProcessEvent → ℕ
  | .output chunk => chunk.chunk.length
  | .failed message => (String.ofList message).utf8ByteSize
  | .exited _ _ => 0
  | .closed _ => 0

structure ExecProcessEventLog where
  history : List ExecProcessEvent
  retainedBytes : ℕ

namespace ExecProcessEventLog

def new : ExecProcessEventLog := ⟨[], 0⟩

/-- The loop of `publish` that gives up the oldest events while there are too many. -/
def evict : List ExecProcessEvent → ℕ → ExecProcessEventLog
  | [], bytes => ⟨[], bytes⟩
  | oldest :: events, bytes =>
    if processEventChannelCapacity < events.length + 1 ∨ retainedOutputBytesPerProcess < bytes then
      evict events (bytes - oldest.retainedLen)
    else ⟨oldest :: events, bytes⟩

def publish (log : ExecProcessEventLog) (event : ExecProcessEvent) : ExecProcessEventLog :=
  evict (log.history ++ [event]) (log.retainedBytes + event.retainedLen)

/-- The history after the events of a process. -/
def ofEvents (events : List ExecProcessEvent) : ExecProcessEventLog := events.foldl publish new

end ExecProcessEventLog

/-! ### Subscribers -/

/-- The rest of the history at the time of the subscription, and the number of the next event of the
    channel, counted from zero. -/
structure ExecProcessEventReceiver where
  replay : List ExecProcessEvent
  next : ℕ

/-- An event, or how many events were missed. -/
inductive Received
  | event (event : ExecProcessEvent)
  | lagged (skipped : ℕ)

namespace ExecProcessEventReceiver

/-- `ExecProcessEventLog::subscribe`, when `published` are the events so far. -/
def subscribe (published : List ExecProcessEvent) : ExecProcessEventReceiver :=
  ⟨(ExecProcessEventLog.ofEvents published).history, published.length⟩

/-- The next event, when `published` are the events so far; nothing if the subscriber has to wait.
    The channel holds the last `processEventChannelCapacity` events, and a subscriber that is
    further behind goes on with the first of them. -/
def recv (receiver : ExecProcessEventReceiver) (published : List ExecProcessEvent) :
    Option (Received × ExecProcessEventReceiver) :=
  match receiver.replay with
  | event :: replay => some (.event event, { receiver with replay })
  | [] =>
    if receiver.next + processEventChannelCapacity < published.length then
      some (.lagged (published.length - processEventChannelCapacity - receiver.next),
        { receiver with next := published.length - processEventChannelCapacity })
    else published[receiver.next]?.map fun event =>
      (.event event, { receiver with next := receiver.next + 1 })

end ExecProcessEventReceiver

/-! ### Retained output -/

structure ReadResponse where
  chunks : List ProcessOutputChunk
  nextSeq : ℕ
  exited : Bool
  exitCode : Option ℤ
  closed : Bool

def usizeMax : ℕ := 2 ^ 64 - 1

/-- The loop of `exec_read`: the chunks, from `total` bytes on, and the number behind the last. -/
def collectChunks (maxBytes : ℕ) :
    List ProcessOutputChunk → Bool → ℕ → ℕ → List ProcessOutputChunk × ℕ
  | [], _, _, nextSeq => ([], nextSeq)
  | chunk :: output, isFirst, total, nextSeq =>
    if !isFirst && decide (maxBytes < total + chunk.chunk.length) then ([], nextSeq)
    else if maxBytes ≤ total + chunk.chunk.length then ([chunk], chunk.seq + 1)
    else
      let rest := collectChunks maxBytes output false (total + chunk.chunk.length) (chunk.seq + 1)
      (chunk :: rest.1, rest.2)

/-- `exec_read` without waiting. -/
def RunningProcess.execRead (process : RunningProcess) (afterSeq : ℕ) (maxBytes : Option ℕ) :
    ReadResponse :=
  let collected := collectChunks (maxBytes.getD usizeMax)
    (process.output.filter fun chunk => decide (afterSeq < chunk.seq)) true 0 process.nextSeq
  ⟨collected.1, collected.2, process.exitCode.isSome, process.exitCode, process.closed⟩

/-! ### What the process retains -/

/-- The chunk of output of an event. -/
def ExecProcessEvent.output? : ExecProcessEvent → Option ProcessOutputChunk
  | .output chunk => some chunk
  | _ => none

def outputs (log : List ExecProcessEvent) : List ProcessOutputChunk := log.filterMap (·.output?)

/-- The bytes a log counts for.  The log of a process has no failures, so these are the bytes of its
    output. -/
def retainedTotal (log : List ExecProcessEvent) : ℕ := (log.map (·.retainedLen)).sum

theorem retainedTotal_append (log more : List ExecProcessEvent) :
    retainedTotal (log ++ more) = retainedTotal log + retainedTotal more := by
  simp [retainedTotal]

theorem retainedTotal_drop_le (k : ℕ) (log : List ExecProcessEvent) :
    retainedTotal (log.drop k) ≤ retainedTotal log := by
  have happend := retainedTotal_append (log.take k) (log.drop k)
  rw [take_append_drop] at happend
  omega

theorem RunningProcess.evict_of_le {output : List ProcessOutputChunk} {bytes : ℕ}
    (h : bytes ≤ retainedOutputBytesPerProcess) : evict output bytes = (output, bytes) := by
  cases output with
  | nil => rfl
  | cons oldest output => rw [evict, if_neg (by omega)]

/-- The process has all its output, if that is not too much. -/
def ProcessRecord.Retains (record : ProcessRecord) : Prop :=
  ∀ process, record.entry = some process →
    retainedTotal record.log ≤ retainedOutputBytesPerProcess →
    process.output = outputs record.log ∧ process.retainedBytes = retainedTotal record.log

namespace ProcessRecord.Retains

variable {record : ProcessRecord} {process : RunningProcess}

theorem recordOutput (h : record.Retains) (hentry : record.entry = some process)
    (stream : ExecOutputStream) (chunk : List UInt8) :
    (record.publish (process.recordOutput stream chunk)).Retains := by
  rintro process' ⟨⟩ hfits
  change retainedTotal (record.log ++ [_]) ≤ _ at hfits
  rw [retainedTotal_append] at hfits
  have htotal : retainedTotal [(process.recordOutput stream chunk).2] = chunk.length := by
    simp [retainedTotal, RunningProcess.recordOutput, ExecProcessEvent.retainedLen]
  obtain ⟨houtput, hbytes⟩ := h process hentry (by omega)
  have hle : process.retainedBytes + chunk.length ≤ retainedOutputBytesPerProcess := by omega
  simp only [RunningProcess.recordOutput, RunningProcess.evict_of_le hle]
  constructor
  · rw [houtput]
    simp [outputs, ProcessRecord.publish, ExecProcessEvent.output?]
  · show _ = retainedTotal (record.log ++ [_])
    rw [hbytes]
    simp [retainedTotal, ExecProcessEvent.retainedLen]

/-- An event without output. -/
theorem publish (h : record.Retains) (hentry : record.entry = some process)
    {process' : RunningProcess} {event : ExecProcessEvent} (hevent : event.output? = none)
    (hlen : event.retainedLen = 0) (houtput : process'.output = process.output)
    (hbytes : process'.retainedBytes = process.retainedBytes) :
    (record.publish (process', event)).Retains := by
  rintro process'' ⟨⟩ hfits
  have htotal : retainedTotal (record.log ++ [event]) = retainedTotal record.log := by
    simp [retainedTotal, hlen]
  change retainedTotal (record.log ++ [event]) ≤ _ at hfits
  rw [htotal] at hfits
  obtain ⟨hold, hold'⟩ := h process hentry hfits
  constructor
  · rw [houtput, hold]
    simp [outputs, ProcessRecord.publish, hevent]
  · rw [hbytes, hold']
    exact htotal.symm

theorem maybeEmitClosed (h : record.Retains) : (maybeEmitClosed record).1.Retains := by
  unfold ExecServer.maybeEmitClosed
  split
  · next result hresult =>
    obtain ⟨process, hentry, hemit⟩ := bind_eq_some_iff.mp hresult
    unfold RunningProcess.emitClosed at hemit
    split_ifs at hemit
    cases hemit
    exact h.publish hentry rfl rfl rfl rfl
  · exact h

theorem notify (h : record.Retains) (connected : Bool) (event : ExecProcessEvent) :
    (record.notify connected event).Retains := by
  unfold ProcessRecord.notify
  split_ifs <;> exact h

theorem streamStep (h : record.Retains) (stream : ExecOutputStream) (input : TaskInput)
    (task : StreamTask) : (task.step stream input record).1.Retains := by
  cases task with
  | receiving =>
    dsimp only [step]
    cases input.chunk with
    | none => exact h
    | some chunk =>
      cases hentry : record.entry with
      | none => exact h
      | some process => exact h.recordOutput hentry stream chunk
  | notifying event | notifyingClosed event => exact h.notify _ _
  | finishing =>
    dsimp only [step]
    cases hentry : record.entry with
    | none => exact h
    | some process =>
      rintro process' ⟨⟩ hfits
      unfold RunningProcess.finishStream
      split_ifs <;> exact h process hentry hfits
  | closing =>
    dsimp only [step]
    split <;> exact h.maybeEmitClosed
  | done => exact h

theorem exitStep (h : record.Retains) (input : TaskInput) (task : ExitTask) :
    (task.step input record).1.Retains := by
  cases task with
  | waiting =>
    dsimp only [ExitTask.step]
    cases hentry : record.entry with
    | none => exact h
    | some process => exact h.publish hentry rfl rfl rfl rfl
  | notifying event =>
    cases event with
    | none => exact h
    | some event => exact h.notify _ _
  | notifyingClosed event => exact h.notify _ _
  | closing =>
    dsimp only [ExitTask.step]
    split <;> exact h.maybeEmitClosed
  | done => exact h

theorem step {server : ProcessServer} (h : server.record.Retains) (tty : Bool)
    (turn : ProcessTurn) : (server.step tty turn).record.Retains := by
  cases turn with
  | stdout input | stderr input => exact h.streamStep _ input _
  | watcher input => exact h.exitStep input _
  | cleanup =>
    show server.record.cleanup.Retains
    unfold ProcessRecord.cleanup
    split_ifs
    · exact fun _ => nofun
    · exact h

end ProcessRecord.Retains

/-! ### What the history has -/

theorem ExecProcessEventLog.evict_of_le {events : List ExecProcessEvent} {bytes : ℕ}
    (hlength : events.length ≤ processEventChannelCapacity)
    (hbytes : bytes ≤ retainedOutputBytesPerProcess) : evict events bytes = ⟨events, bytes⟩ := by
  cases events with
  | nil => rfl
  | cons oldest events =>
    rw [length_cons] at hlength
    rw [evict, if_neg (by omega)]

variable {log : List ExecProcessEvent}

open ExecProcessEventLog (ofEvents publish evict_of_le evict)

/-- As long as the output fits, the history has the last events. -/
theorem history_eq (hfits : retainedTotal log ≤ retainedOutputBytesPerProcess) :
    ExecProcessEventLog.ofEvents log = ⟨log.drop (log.length - processEventChannelCapacity),
        retainedTotal (log.drop (log.length - processEventChannelCapacity))⟩ := by
  induction log using reverseRecOn with
  | nil => rfl
  | append_singleton log event ih =>
    rw [retainedTotal_append] at hfits
    have hdrop := retainedTotal_drop_le (log.length - processEventChannelCapacity) log
    have hone : retainedTotal [event] = event.retainedLen := by simp [retainedTotal]
    rw [ofEvents, foldl_append, foldl_cons]
    change (ofEvents log).publish event = _
    rw [ih (by omega), publish, length_append, length_singleton]
    rcases Nat.lt_or_ge log.length processEventChannelCapacity with hlt | hge
    · -- there is room for the event
      have hzero : log.length - processEventChannelCapacity = 0 := by omega
      have hzero' : log.length + 1 - processEventChannelCapacity = 0 := by omega
      rw [hzero, hzero', drop_zero, ← hone, ← retainedTotal_append]
      exact evict_of_le (by simpa using hlt)
        (by rw [retainedTotal_append]; omega)
    · -- the oldest event makes room
      have hsucc : log.length + 1 - processEventChannelCapacity =
          log.length - processEventChannelCapacity + 1 := by omega
      have hcapacity : 0 < processEventChannelCapacity := by decide
      have hlt : log.length - processEventChannelCapacity < log.length := by omega
      rw [drop_eq_getElem_cons hlt] at hdrop ⊢
      rw [hsucc, drop_append_of_le_length (by omega), retainedTotal_append]
      rw [cons_append, evict, if_pos (by simp; omega)]
      change _ + retainedTotal _ ≤ _ at hdrop
      change evict _ (_ + retainedTotal _ + _ - _) = _
      rw [show ∀ a b c : ℕ, a + b + c - a = b + c from fun a b c => by omega]
      exact evict_of_le (by simp; omega) (by omega)

/-! ### What a read of the retained output gives -/

theorem collectChunks_eq {maxBytes : ℕ} (output : List ProcessOutputChunk) (isFirst : Bool)
    (total nextSeq : ℕ) (hfits : total + (output.map (·.chunk.length)).sum < maxBytes) :
    collectChunks maxBytes output isFirst total nextSeq =
      (output, (output.getLast?.map (·.seq + 1)).getD nextSeq) := by
  induction output generalizing isFirst total nextSeq with
  | nil => rfl
  | cons chunk output ih =>
    rw [map_cons, sum_cons] at hfits
    rw [collectChunks, if_neg (by simp; omega), if_neg (by omega), ih _ _ _ (by omega)]
    cases output with
    | nil => rfl
    | cons next output => simp [getLast?_cons]

theorem outputs_append (log more : List ExecProcessEvent) :
    outputs (log ++ more) = outputs log ++ outputs more := filterMap_append

theorem Numbered.of_append {more : List ExecProcessEvent} (h : Numbered (log ++ more)) :
    Numbered log := fun k event hk =>
  h k event (by rw [List.getElem?_append_left (List.getElem?_eq_some_iff.mp hk).1, hk])

/-- The chunks with larger numbers are those of the events behind. -/
theorem outputs_filter (h : Numbered log) (afterSeq : ℕ) :
    (outputs log).filter (fun chunk => decide (afterSeq < chunk.seq)) =
      outputs (log.drop afterSeq) := by
  induction log using reverseRecOn with
  | nil => simp [outputs]
  | append_singleton log event ih =>
    rw [outputs_append, filter_append, ih h.of_append, drop_append, outputs_append]
    congr 1
    have hseq := h log.length event (by simp)
    cases event with
    | output chunk =>
      have hchunk : chunk.seq = log.length + 1 := some.inj hseq
      rcases Nat.lt_or_ge log.length afterSeq with hlt | hge
      · have hdrop : [ExecProcessEvent.output chunk].drop (afterSeq - log.length) = [] :=
          drop_eq_nil_of_le (by simp; omega)
        rw [hdrop]
        simp [outputs, ExecProcessEvent.output?]
        omega
      · have hzero : afterSeq - log.length = 0 := by omega
        rw [hzero]
        simp [outputs, ExecProcessEvent.output?]
        omega
    | exited seq exitCode | closed seq | failed message =>
      -- no output, whether the event is dropped or not
      cases afterSeq - log.length <;> simp [outputs, ExecProcessEvent.output?]

/-- Within the limit, a read gives all the output behind a number. -/
theorem execRead_chunks {record : ProcessRecord} {process : RunningProcess}
    (hnumbered : Numbered record.log) (hretains : record.Retains)
    (hentry : record.entry = some process)
    (hfits : retainedTotal record.log ≤ retainedOutputBytesPerProcess) (afterSeq : ℕ) :
    (process.execRead afterSeq none).chunks = outputs (record.log.drop afterSeq) ∧
      (process.execRead afterSeq none).nextSeq =
        ((outputs (record.log.drop afterSeq)).getLast?.map (·.seq + 1)).getD process.nextSeq := by
  have hlen : ∀ log : List ExecProcessEvent,
      ((outputs log).map (·.chunk.length)).sum ≤ retainedTotal log := by
    intro log
    induction log with
    | nil => exact le_refl 0
    | cons event log ih =>
      cases event <;> simp_all [outputs, retainedTotal, ExecProcessEvent.output?,
        ExecProcessEvent.retainedLen]
      omega
  have hsum := (hlen _).trans ((retainedTotal_drop_le afterSeq record.log).trans hfits)
  have hmax : retainedOutputBytesPerProcess < usizeMax := by decide
  unfold RunningProcess.execRead
  rw [(hretains process hentry hfits).1, outputs_filter hnumbered,
    collectChunks_eq _ _ _ _ (by rw [getD_none]; omega)]
  exact ⟨rfl, rfl⟩

/-! ### Where a subscriber is -/

namespace ExecProcessEventReceiver

variable (receiver : ExecProcessEventReceiver)

/-- The number of the next event, counted from zero. -/
def position : ℕ := receiver.next - receiver.replay.length

/-- The subscriber has the events between its position and the channel. -/
def Follows (published : List ExecProcessEvent) : Prop :=
  receiver.next ≤ published.length ∧
    receiver.replay = (published.take receiver.next).drop receiver.position

variable {receiver next : ExecProcessEventReceiver} {published : List ExecProcessEvent}

section

variable (h : receiver.Follows published)
include h

theorem Follows.append (more : List ExecProcessEvent) : receiver.Follows (published ++ more) := by
  refine ⟨?_, ?_⟩
  · rw [length_append]
    exact h.1.trans (Nat.le_add_right _ _)
  · rw [take_append_of_le_length h.1]
    exact h.2

theorem Follows.length_le : receiver.replay.length ≤ receiver.next := by
  have hlen := congrArg length h.2
  rw [length_drop, length_take] at hlen
  omega

theorem Follows.position_le : receiver.position ≤ published.length := (Nat.sub_le _ _).trans h.1

end

/-- A subscriber starts with the first event of the history. -/
theorem follows_subscribe (hfits : retainedTotal published ≤ retainedOutputBytesPerProcess) :
    (subscribe published).Follows published ∧
      (subscribe published).position = published.length - processEventChannelCapacity := by
  have hposition : (subscribe published).position =
      published.length - processEventChannelCapacity := by
    simp only [position, subscribe, history_eq hfits, length_drop]
    omega
  refine ⟨⟨le_refl _, ?_⟩, hposition⟩
  rw [hposition]
  simp [subscribe, history_eq hfits]

section

variable (h : receiver.Follows published)
include h

theorem Follows.recv_event {event : ExecProcessEvent}
    (hrecv : receiver.recv published = some (.event event, next)) :
    published[receiver.position]? = some event ∧ next.Follows published ∧
      next.position = receiver.position + 1 := by
  have hlength := h.length_le
  rcases receiver with ⟨_ | ⟨first, replay⟩, k⟩
  · -- from the channel
    simp only [recv] at hrecv
    split_ifs at hrecv
    · cases hrecv
    · obtain ⟨e, hget, heq⟩ := map_eq_some_iff.mp hrecv
      cases heq
      refine ⟨hget, ⟨(List.getElem?_eq_some_iff.mp hget).1, ?_⟩, rfl⟩
      simp [position]
  · -- from the history
    obtain ⟨rfl, rfl⟩ := hrecv
    obtain ⟨hk, hreplay⟩ := h
    simp only [position, length_cons] at hreplay hlength hk ⊢
    have hget := congrArg (·[0]?) hreplay
    have hdrop := congrArg (drop 1) hreplay
    simp only [getElem?_drop, drop_one, tail_drop] at hget hdrop
    rw [getElem?_take_of_lt (by omega)] at hget
    refine ⟨hget.symm, ⟨hk, ?_⟩, by omega⟩
    simp only [position]
    rw [show k - replay.length = k - (replay.length + 1) + 1 by omega]
    exact hdrop

theorem Follows.recv_lagged {skipped : ℕ}
    (hrecv : receiver.recv published = some (.lagged skipped, next)) :
    next.Follows published ∧ receiver.position < next.position ∧
      next.position < published.length := by
  rcases receiver with ⟨_ | ⟨first, replay⟩, k⟩
  · have hcapacity : 0 < processEventChannelCapacity := by decide
    simp only [recv] at hrecv
    split_ifs at hrecv
    · cases hrecv
      refine ⟨⟨?_, ?_⟩, ?_, ?_⟩ <;> simp [position] <;> omega
    · obtain ⟨e, -, heq⟩ := map_eq_some_iff.mp hrecv
      cases heq
  · cases hrecv

/-- A subscriber waits only behind the last event. -/
theorem Follows.recv_none
    (hrecv : receiver.recv published = none) : receiver.position = published.length := by
  rcases receiver with ⟨_ | ⟨first, replay⟩, k⟩
  · simp only [recv] at hrecv
    split_ifs at hrecv
    rw [map_eq_none_iff, getElem?_eq_none_iff] at hrecv
    exact le_antisymm h.position_le hrecv
  · cases hrecv

end

end ExecProcessEventReceiver

end Codex.ExecServer
