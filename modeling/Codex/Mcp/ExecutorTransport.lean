import Codex.Data.Lines
import Codex.ExecServer.EventLog

namespace Codex.Mcp

open Codex.ExecServer List

/-!
# The transport of an MCP server that runs under an executor

The transport follows the events of a process, puts the bytes of its stdout together again and cuts
them into messages, one a line.  When it falls behind the channel of events, it reads the output
that the process retains.

* `LineBuffer` — bytes with a part that was searched for a newline already;
* `ExecutorProcessTransport.receive` — a turn of the loop of `receive_message`;
* `TransportSystem` — a process, the events that have reached the transport, and the transport;
* `taken_of_takeStdoutMessage` — a message is taken from the first lines of the buffer;
* `ReceiveStep` — what a turn of the loop can do.
-/

def newline : UInt8 := 10
def carriageReturn : UInt8 := 13

/-! ### Lines -/

structure LineBuffer where
  bytes : List UInt8
  /-- The bytes already scanned and known not to contain a newline. -/
  scannedLen : ℕ
  scannedLen_le : scannedLen ≤ bytes.length
  notMem_scanned : newline ∉ bytes.take scannedLen

namespace LineBuffer

/-- Bytes of which nothing was scanned. -/
def ofBytes (bytes : List UInt8) : LineBuffer := ⟨bytes, 0, Nat.zero_le _, not_mem_nil⟩

variable (buffer : LineBuffer)

def extendFromSlice (bytes : List UInt8) : LineBuffer where
  bytes := buffer.bytes ++ bytes
  scannedLen := buffer.scannedLen
  scannedLen_le := by
    rw [length_append]
    exact buffer.scannedLen_le.trans (Nat.le_add_right _ _)
  notMem_scanned := by
    rw [take_append_of_le_length buffer.scannedLen_le]
    exact buffer.notMem_scanned

theorem notMem_of_idxOf?_eq_none (h : (buffer.bytes.drop buffer.scannedLen).idxOf? newline = none) :
    newline ∉ buffer.bytes := by
  rw [← take_append_drop buffer.scannedLen buffer.bytes, mem_append]
  exact not_or.mpr ⟨buffer.notMem_scanned, idxOf?_eq_none_iff.mp h⟩

/-- The first line, and what is behind its newline. -/
def takeLine : Option (List UInt8) × LineBuffer :=
  match h : (buffer.bytes.drop buffer.scannedLen).idxOf? newline with
  | none => (none, ⟨buffer.bytes, buffer.bytes.length, le_refl _, by
      rw [take_length]; exact buffer.notMem_of_idxOf?_eq_none h⟩)
  | some relativeIndex =>
    (some (buffer.bytes.take (buffer.scannedLen + relativeIndex)),
      .ofBytes (buffer.bytes.drop (buffer.scannedLen + relativeIndex + 1)))

def takeRemaining : Option (List UInt8 × LineBuffer) :=
  if buffer.bytes = [] then none else some (buffer.bytes, .ofBytes [])

theorem takeLine_eq_none {buffer rest : LineBuffer} (h : buffer.takeLine = (none, rest)) :
    newline ∉ buffer.bytes ∧ rest.bytes = buffer.bytes := by
  unfold takeLine at h
  split at h
  · next hnone =>
    cases h
    exact ⟨buffer.notMem_of_idxOf?_eq_none hnone, rfl⟩
  · cases h

theorem takeLine_eq_some {buffer rest : LineBuffer} {line : List UInt8}
    (h : buffer.takeLine = (some line, rest)) :
    newline ∉ line ∧ buffer.bytes = line ++ newline :: rest.bytes := by
  unfold takeLine at h
  split at h
  · cases h
  · next k hsome =>
    cases h
    obtain ⟨hk, hat, hfirst⟩ := idxOf?_eq_some_iff.mp hsome
    have hlt : buffer.scannedLen + k < buffer.bytes.length := by
      rw [length_drop] at hk
      omega
    have hnewline : buffer.bytes[buffer.scannedLen + k] = newline := by
      simpa using hat
    constructor
    · rw [take_add, mem_append]
      refine not_or.mpr ⟨buffer.notMem_scanned, fun hmem => ?_⟩
      obtain ⟨j, hj, hget⟩ := mem_take_iff_getElem.mp hmem
      exact hfirst j (by omega) hget
    · show buffer.bytes = _ ++ newline :: buffer.bytes.drop (buffer.scannedLen + k + 1)
      rw [← hnewline, ← drop_eq_getElem_cons hlt, take_append_drop]

end LineBuffer

/-! ### Messages -/

def trimTrailingCarriageReturn (line : List UInt8) : List UInt8 :=
  if line.getLast? = some carriageReturn then line.dropLast else line

section Messages

variable {μ : Type} (parse : List UInt8 → Option μ)

def parseLine (line : List UInt8) : Option μ := parse (trimTrailingCarriageReturn line)

/-- The loop of `take_stdout_message`.  Every turn takes at least a byte from the buffer, so the
    buffer's length is fuel for all of them. -/
def takeMessage (allowPartial : Bool) : ℕ → LineBuffer → Option μ × LineBuffer
  | 0, buffer => (none, buffer)
  | fuel + 1, buffer =>
    match buffer.takeLine with
    | (some line, rest) =>
      match parseLine parse line with
      | some message => (some message, rest)
      | none => takeMessage allowPartial fuel rest
    | (none, scanned) =>
      if allowPartial then
        match scanned.takeRemaining with
        | none => (none, scanned)
        | some (line, rest) =>
          match parseLine parse line with
          | some message => (some message, rest)
          | none => takeMessage allowPartial fuel rest
      else (none, scanned)

def takeStdoutMessage (allowPartial : Bool) (buffer : LineBuffer) : Option μ × LineBuffer :=
  takeMessage parse allowPartial (buffer.bytes.length + 1) buffer

/-- The messages of a stream: its lines, an unterminated last one included, as far as they can be
    parsed. -/
def messagesOf (bytes : List UInt8) : List μ :=
  (Data.splitLines newline bytes).filterMap (parseLine parse)

variable {parse}

theorem messagesOf_append_cons {line : List UInt8} (h : newline ∉ line) (bytes : List UInt8) :
    messagesOf parse (line ++ newline :: bytes) =
      (parseLine parse line).toList ++ messagesOf parse bytes := by
  rw [messagesOf, Data.splitLines_append_cons h, filterMap_cons]
  cases parseLine parse line <;> rfl

theorem messagesOf_of_notMem {line : List UInt8} (h : newline ∉ line) (hne : line ≠ []) :
    messagesOf parse line = (parseLine parse line).toList := by
  rw [messagesOf, Data.splitLines_of_notMem h, if_neg hne]
  cases hmsg : parseLine parse line <;> simp [hmsg]

@[simp]
theorem messagesOf_nil : messagesOf parse [] = [] := by
  simp [messagesOf]

/-- A buffer has given a message, or none, whatever the stream goes on with. -/
def Taken (parse : List UInt8 → Option μ) (allowPartial : Bool) (bytes : List UInt8)
    (message : Option μ) (rest : List UInt8) : Prop :=
  ∀ more, (allowPartial → more = []) →
    messagesOf parse (bytes ++ more) = message.toList ++ messagesOf parse (rest ++ more)

theorem Taken.line {allowPartial : Bool} {line rest rest' : List UInt8} {message : Option μ}
    (hline : newline ∉ line) (hparse : parseLine parse line = none)
    (h : Taken parse allowPartial rest message rest') :
    Taken parse allowPartial (line ++ newline :: rest) message rest' := by
  intro more hmore
  rw [append_assoc, cons_append, messagesOf_append_cons hline, hparse]
  exact h more hmore

theorem takeMessage_spec (parse : List UInt8 → Option μ) (allowPartial : Bool) (fuel : ℕ)
    (buffer : LineBuffer) (hfuel : buffer.bytes.length < fuel) :
    Taken parse allowPartial buffer.bytes (takeMessage parse allowPartial fuel buffer).1
        (takeMessage parse allowPartial fuel buffer).2.bytes ∧
      ((takeMessage parse allowPartial fuel buffer).1 = none → allowPartial →
        (takeMessage parse allowPartial fuel buffer).2.bytes = []) ∧
      ((takeMessage parse allowPartial fuel buffer).1.isSome →
        (takeMessage parse allowPartial fuel buffer).2.bytes.length < buffer.bytes.length) := by
  induction fuel generalizing buffer with
  | zero => omega
  | succ fuel ih =>
    rw [takeMessage]
    rcases hline : buffer.takeLine with ⟨_ | line, rest⟩
    · obtain ⟨hnotMem, hrest⟩ := LineBuffer.takeLine_eq_none hline
      cases allowPartial with
      | false => exact ⟨fun more _ => by simp [hrest], nofun, nofun⟩
      | true =>
        dsimp only
        rw [if_pos rfl, LineBuffer.takeRemaining, hrest]
        by_cases hnil : buffer.bytes = []
        · rw [if_pos hnil]
          exact ⟨fun more _ => by simp [hrest], fun _ _ => hrest.trans hnil, nofun⟩
        · rw [if_neg hnil]
          have hpos : 0 < buffer.bytes.length := length_pos_iff.mpr hnil
          have hall : messagesOf parse buffer.bytes = (parseLine parse buffer.bytes).toList :=
            messagesOf_of_notMem hnotMem hnil
          dsimp only
          cases hparse : parseLine parse buffer.bytes with
          | some message =>
            refine ⟨fun more hmore => ?_, nofun, fun _ => hpos⟩
            rw [hmore rfl, append_nil, hall, hparse]
            simp [LineBuffer.ofBytes]
          | none =>
            obtain ⟨htaken, hempty, hless⟩ := ih (.ofBytes []) (by simp [LineBuffer.ofBytes]; omega)
            refine ⟨fun more hmore => ?_, hempty, fun h => (hless h).trans hpos⟩
            rw [← htaken more hmore, hmore rfl, append_nil, hall, hparse]
            simp [LineBuffer.ofBytes]
    · obtain ⟨hnotMem, hbytes⟩ := LineBuffer.takeLine_eq_some hline
      have hlen : rest.bytes.length < buffer.bytes.length := by
        rw [hbytes, length_append, length_cons]
        omega
      dsimp only
      cases hparse : parseLine parse line with
      | some message =>
        refine ⟨fun more _ => ?_, nofun, fun _ => hlen⟩
        rw [hbytes, append_assoc, cons_append, messagesOf_append_cons hnotMem, hparse]
      | none =>
        obtain ⟨htaken, hempty, hless⟩ := ih rest (by omega)
        refine ⟨?_, hempty, fun h => (hless h).trans hlen⟩
        rw [hbytes]
        exact .line hnotMem hparse htaken

theorem taken_of_takeStdoutMessage {allowPartial : Bool} {buffer stdout : LineBuffer}
    {message : Option μ} (h : takeStdoutMessage parse allowPartial buffer = (message, stdout)) :
    Taken parse allowPartial buffer.bytes message stdout.bytes ∧
      (message = none → allowPartial → stdout.bytes = []) ∧
      (message.isSome → stdout.bytes.length < buffer.bytes.length) := by
  have hspec := takeMessage_spec parse allowPartial (buffer.bytes.length + 1) buffer
    (Nat.lt_succ_self _)
  rw [← takeStdoutMessage, h] at hspec
  exact hspec

end Messages

/-! ### The transport -/

/-- What a call of `receive_message` waits for. -/
inductive ReceivePhase
  | receiving
  /-- In `recover_lagged_events`, for the retained output. -/
  | recovering
  /-- The call has returned that there are no more messages. -/
  | ended
deriving DecidableEq

structure ExecutorProcessTransport (μ : Type) where
  events : ExecProcessEventReceiver
  stdout : LineBuffer
  closed : Bool
  lastSeq : ℕ
  phase : ReceivePhase
  /-- The messages that were returned. -/
  returned : List μ

namespace ExecutorProcessTransport

variable {μ : Type}

def new (published : List ExecProcessEvent) : ExecutorProcessTransport μ :=
  ⟨.subscribe published, .ofBytes [], false, 0, .receiving, []⟩

variable (transport : ExecutorProcessTransport μ)

def noteSeq (seq : ℕ) : ExecutorProcessTransport μ :=
  { transport with lastSeq := max transport.lastSeq seq }

/-- Only stdout has messages.  Stderr is logged. -/
def pushProcessOutput (chunk : ProcessOutputChunk) : ExecutorProcessTransport μ :=
  match chunk.stream with
  | .stdout | .pty => { transport with stdout := transport.stdout.extendFromSlice chunk.chunk }
  | .stderr => transport

def pushProcessOutputIfNew (chunk : ProcessOutputChunk) : ExecutorProcessTransport μ :=
  if chunk.seq ≤ transport.lastSeq then transport
  else pushProcessOutput { transport with lastSeq := chunk.seq } chunk

def handle : ExecProcessEvent → ExecutorProcessTransport μ
  | .output chunk => transport.pushProcessOutputIfNew chunk
  | .exited seq _ => transport.noteSeq seq
  | .closed seq => { transport.noteSeq seq with closed := true }
  | .failed _ => { transport with closed := true }

/-- `recover_lagged_events` with what the read has given; nothing if the process is unknown. -/
def recoverLaggedEvents : Option ReadResponse → ExecutorProcessTransport μ
  | none => { transport with closed := true }
  | some response =>
    let pushed := response.chunks.foldl pushProcessOutputIfNew transport
    { pushed with
      lastSeq := max pushed.lastSeq (response.nextSeq - 1)
      closed := pushed.closed || response.closed }

section Turns

variable (parse : List UInt8 → Option μ) (published : List ExecProcessEvent)
  (entry : Option RunningProcess) (transport : ExecutorProcessTransport μ)

/-- A turn of the loop of `receive_message`, when `published` are the events so far and `entry` is
    the process as its executor has it. -/
def receive : ExecutorProcessTransport μ :=
  match transport.phase with
  | .ended => transport
  | .recovering =>
    { transport.recoverLaggedEvents (entry.map (·.execRead transport.lastSeq none)) with
      phase := .receiving }
  | .receiving =>
    match takeStdoutMessage parse transport.closed transport.stdout with
    | (some message, stdout) =>
      { transport with stdout, returned := transport.returned ++ [message] }
    | (none, stdout) =>
      if transport.closed then { transport with stdout, phase := .ended }
      else
        match transport.events.recv published with
        | none => { transport with stdout }
        | some (.event event, events) => handle { transport with stdout, events } event
        | some (.lagged _, events) => { transport with stdout, events, phase := .recovering }

/-- What a turn of the loop can do. -/
inductive ReceiveStep : ExecutorProcessTransport μ → Prop
  | ended (hphase : transport.phase = .ended) : ReceiveStep transport
  | recovered (hphase : transport.phase = .recovering) :
    ReceiveStep
      { transport.recoverLaggedEvents (entry.map (·.execRead transport.lastSeq none)) with
        phase := .receiving }
  | message {message : μ} {stdout : LineBuffer} (hphase : transport.phase = .receiving)
    (htake : takeStdoutMessage parse transport.closed transport.stdout = (some message, stdout)) :
    ReceiveStep { transport with stdout, returned := transport.returned ++ [message] }
  | finished {stdout : LineBuffer} (hphase : transport.phase = .receiving)
    (htake : takeStdoutMessage parse transport.closed transport.stdout = (none, stdout))
    (hclosed : transport.closed) : ReceiveStep { transport with stdout, phase := .ended }
  | waiting {stdout : LineBuffer} (hphase : transport.phase = .receiving)
    (htake : takeStdoutMessage parse transport.closed transport.stdout = (none, stdout))
    (hopen : transport.closed = false) (hrecv : transport.events.recv published = none) :
    ReceiveStep { transport with stdout }
  | handled {stdout : LineBuffer} {event : ExecProcessEvent} {events : ExecProcessEventReceiver}
    (hphase : transport.phase = .receiving)
    (htake : takeStdoutMessage parse transport.closed transport.stdout = (none, stdout))
    (hopen : transport.closed = false)
    (hrecv : transport.events.recv published = some (.event event, events)) :
    ReceiveStep (handle { transport with stdout, events } event)
  | lagged {stdout : LineBuffer} {skipped : ℕ} {events : ExecProcessEventReceiver}
    (hphase : transport.phase = .receiving)
    (htake : takeStdoutMessage parse transport.closed transport.stdout = (none, stdout))
    (hopen : transport.closed = false)
    (hrecv : transport.events.recv published = some (.lagged skipped, events)) :
    ReceiveStep { transport with stdout, events, phase := .recovering }

theorem receiveStep_receive :
    ReceiveStep parse published entry transport (transport.receive parse published entry) := by
  obtain ⟨events, stdout, closed, lastSeq, phase, returned⟩ := transport
  cases phase with
  | ended => exact .ended rfl
  | recovering => exact .recovered rfl
  | receiving =>
    dsimp only [receive]
    rcases htake : takeStdoutMessage parse closed stdout with ⟨_ | message, rest⟩
    · cases closed with
      | true => exact .finished rfl htake rfl
      | false =>
        rcases hrecv : events.recv published with _ | ⟨event | skipped, next⟩
        · exact .waiting rfl htake rfl hrecv
        · exact .handled rfl htake rfl hrecv
        · exact .lagged rfl htake rfl hrecv
    · exact .message rfl htake

end Turns

end ExecutorProcessTransport

/-! ### The process and its transport -/

/-- A process and its transport.  A `receive` that waits is not dropped. -/
structure TransportSystem (μ : Type) where
  server : ProcessServer
  /-- How many events have reached the side of the transport. -/
  delivered : ℕ
  transport : Option (ExecutorProcessTransport μ)

inductive TransportTurn
  | server (turn : ProcessTurn)
  | deliver
  | subscribe
  | receive

namespace TransportSystem

variable {μ : Type}

def start : TransportSystem μ := ⟨.start, 0, none⟩

def log (system : TransportSystem μ) : List ExecProcessEvent := system.server.record.log

/-- The events a subscriber can see. -/
def published (system : TransportSystem μ) : List ExecProcessEvent :=
  system.log.take system.delivered

variable (parse : List UInt8 → Option μ)

/-- MCP servers do not run on a terminal.  A process has one transport. -/
def step (system : TransportSystem μ) : TransportTurn → TransportSystem μ
  | .server turn => { system with server := system.server.step false turn }
  | .deliver => { system with delivered := min (system.delivered + 1) system.log.length }
  | .subscribe =>
    { system with transport := some (system.transport.getD (.new system.published)) }
  | .receive =>
    { system with
      transport := system.transport.map
        (·.receive parse system.published system.server.record.entry) }

/-- The tasks of the process and the transport take turns in any order. -/
def run (turns : List TransportTurn) : TransportSystem μ := turns.foldl (step parse) start

end TransportSystem

end Codex.Mcp
