import Codex.ExecServer.LocalProcess

namespace Codex.ExecServer

open List Option

/-!
# Calls over a connection

A call puts an entry into the table of pending requests, sends its request, and waits.  The reader
takes the events of the connection in order, completes the entries that are answered, and when it
stops it completes all that are left.  A call that comes later finds the connection marked as
disconnected, if the transport has marked it.

* `RpcClient.step` — one step of a call, of the reader, or of the transport;
* `Abandoned` — a call waits for an entry that nobody will complete;
* `no_call_abandoned_iff` — when the reader is about to empty the table, no call can be abandoned
  later exactly if the connection is marked as disconnected, or takes no more requests;
* `malformed_message_abandons_call` — a malformed message stops the reader, and a later call waits
  forever.

The transport may deliver messages, mark the connection, report a disconnect and give up either
direction at any time and in any order.  This includes all kinds of connections: the line-based one,
the websocket, and both kinds of relays.
-/

/-! ### The connection and its client -/

/-- What a call is answered.  The text of a result stands for its JSON value. -/
inductive RpcAnswer
  | result (value : Text)
  | error (error : JsonRpcError)
  | closed

/-- `RpcCallError`, where `json` is an error of the JSON library. -/
inductive RpcCallError
  | closed
  | json
  | server (error : JsonRpcError)

inductive JsonRpcMessage
  | response (id : ℕ) (result : Text)
  | error (id : ℕ) (error : JsonRpcError)
  | notification (method : Text)
  | request (method : Text)

inductive ConnectionEvent
  | message (message : JsonRpcMessage)
  | malformedMessage (reason : Text)
  | disconnected (reason : Option Text)

inductive RpcClientEvent
  | notification (method : Text)
  | disconnected (reason : Option Text)

/-- `RpcClient::call` between two accesses of the shared state. -/
inductive RpcCall
  | starting
  /-- With an entry in the table, before the request is sent. -/
  | registered (id : ℕ)
  /-- Before the entry is taken back. -/
  | withdrawing (id : ℕ) (error : RpcCallError)
  /-- Waiting for the answer to the request. -/
  | awaiting (id : ℕ)
  | returned (result : Except RpcCallError Text)

/-- The reader task between two accesses of the shared state. -/
inductive RpcReader
  | reading
  /-- With an entry taken out of the table, before its call is answered. -/
  | answering (id : ℕ) (answer : RpcAnswer)
  /-- Behind the loop. -/
  | announcing (reason : Option Text)
  /-- Before `drain_pending`. -/
  | draining
  /-- With all entries taken out of the table, before their calls are answered. -/
  | closing (ids : List ℕ)
  | stopped

/-- `drain_pending` has emptied the table. -/
def RpcReader.hasDrained : RpcReader → Bool
  | .closing _ | .stopped => true
  | _ => false

structure RpcClient where
  nextRequestId : ℕ
  /-- The ids of the table of pending requests. -/
  pending : List ℕ
  /-- The answers that calls have been sent. -/
  answers : List (ℕ × RpcAnswer)
  events : List RpcClientEvent
  /-- The transport has marked the connection as disconnected. -/
  disconnected : Bool
  /-- The transport takes requests. -/
  writable : Bool
  incoming : List ConnectionEvent
  /-- The transport may still deliver events. -/
  isOpen : Bool
  reader : RpcReader
  calls : List RpcCall

/-- Whose turn it is. -/
inductive RpcTurn
  /-- Somebody makes a call. -/
  | call
  /-- A call goes on; its parameters can be serialised or not. -/
  | advance (i : ℕ) (serializes : Bool)
  | reader
  | deliver (event : ConnectionEvent)
  | markDisconnected
  | stopReading
  | stopWriting

namespace RpcClient

def new : RpcClient := ⟨1, [], [], [], false, true, [], true, .reading, []⟩

/-! ### Steps -/

variable (client : RpcClient)

/-- The entry of a call is taken out of the table. -/
def remove (id : ℕ) : RpcClient :=
  { client with pending := client.pending.filter fun other => other != id }

def setCall (i : ℕ) (call : RpcCall) : RpcClient := { client with calls := client.calls.set i call }

/-- A call with the answer it was sent. -/
def finish : RpcAnswer → RpcCall
  | .result value => .returned (.ok value)
  | .error error => .returned (.error (.server error))
  | .closed => .returned (.error .closed)

/-- A call goes on to its next access of the shared state. -/
def advance (i : ℕ) (serializes : Bool) : RpcCall → Option RpcClient
  | .starting =>
    -- The check and the registration are made under the lock of the table.
    if client.disconnected then
      some ({ client with nextRequestId := client.nextRequestId + 1 }.setCall i
        (.returned (.error .closed)))
    else
      some ({ client with
          nextRequestId := client.nextRequestId + 1
          pending := client.pending ++ [client.nextRequestId] }.setCall i
        (.registered client.nextRequestId))
  | .registered id =>
    if !serializes then some (client.setCall i (.withdrawing id .json))
    else if !client.writable then some (client.setCall i (.withdrawing id .closed))
    else some (client.setCall i (.awaiting id))
  | .withdrawing id error => some ((client.remove id).setCall i (.returned (.error error)))
  | .awaiting id => (client.answers.lookup id).map fun answer => client.setCall i (finish answer)
  | .returned _ => none

/-- `handle_server_message` up to the end of its access of the table. -/
def handleServerMessage : JsonRpcMessage → RpcClient
  | .response id result =>
    if client.pending.contains id then
      { client.remove id with reader := .answering id (.result result) }
    else client
  | .error id error =>
    if client.pending.contains id then
      { client.remove id with reader := .answering id (.error error) }
    else client
  | .notification method => { client with events := client.events ++ [.notification method] }
  | .request _ => { client with reader := .announcing none }

def answer (id : ℕ) (answer : RpcAnswer) : RpcClient :=
  { client with answers := client.answers ++ [(id, answer)] }

/-- The reader goes on to its next access of the shared state. -/
def read : Option RpcClient :=
  match client.reader with
  | .reading =>
    match client.incoming with
    | [] => if client.isOpen then none else some { client with reader := .announcing none }
    | .message message :: incoming => some ({ client with incoming }.handleServerMessage message)
    | .malformedMessage _ :: incoming =>
      some { client with incoming, reader := .announcing none }
    | .disconnected reason :: incoming =>
      some { client with incoming, reader := .announcing reason }
  | .answering id answer => some { client.answer id answer with reader := .reading }
  | .announcing reason =>
    some { client with events := client.events ++ [.disconnected reason], reader := .draining }
  | .draining => some { client with pending := [], reader := .closing client.pending }
  | .closing (id :: ids) => some { client.answer id .closed with reader := .closing ids }
  | .closing [] => some { client with reader := .stopped }
  | .stopped => none

def step : RpcTurn → Option RpcClient
  | .call => some { client with calls := client.calls ++ [.starting] }
  | .advance i serializes => client.calls[i]?.bind fun call => client.advance i serializes call
  | .reader => client.read
  | .deliver event =>
    if client.isOpen then some { client with incoming := client.incoming ++ [event] } else none
  | .markDisconnected => some { client with disconnected := true }
  | .stopReading => some { client with isOpen := false }
  | .stopWriting => some { client with writable := false }

def run (turns : List RpcTurn) : Option RpcClient := turns.foldlM step client

/-- A call waits for the answer to an entry of the table, and the reader will not look at it
    again. -/
def Abandoned : Prop :=
  client.reader.hasDrained ∧ ∃ id ∈ client.pending, .awaiting id ∈ client.calls

/-! ### When the reader stops -/

/-- The id of the entry of a call that has not returned. -/
def id? : RpcCall → Option ℕ
  | .registered id | .withdrawing id _ | .awaiting id => some id
  | _ => none

/-- Ids are not given twice. -/
def Numbered : Prop := ∀ call ∈ client.calls, ∀ id, id? call = some id → id < client.nextRequestId

/-- No call can be abandoned any more: none registers, or none gets as far as waiting. -/
structure Quiet (client : RpcClient) : Prop where
  unreachable : client.disconnected ∨ client.writable = false
  empty : client.reader.hasDrained → client.writable → client.pending = []
  awaiting : client.reader.hasDrained → ∀ id, .awaiting id ∈ client.calls → id ∉ client.pending

variable {client : RpcClient} {call : RpcCall}

theorem mem_setCall {i : ℕ} {other : RpcCall} (h : other ∈ (client.setCall i call).calls) :
    other ∈ client.calls ∨ other = call := mem_or_eq_of_mem_set h

theorem Numbered.setCall {i n : ℕ} {pending : List ℕ} (h : client.Numbered)
    (hn : client.nextRequestId ≤ n) (hcall : ∀ id, id? call = some id → id < n) :
    Numbered ({ client with nextRequestId := n, pending := pending }.setCall i call) := by
  intro other hother id hid
  rcases mem_setCall hother with hother | rfl
  · exact (h other hother id hid).trans_le hn
  · exact hcall id hid

/-- What a step of the reader does to the calls and the table. -/
structure ReaderStep (client client' : RpcClient) : Prop where
  calls : client'.calls = client.calls
  nextRequestId : client'.nextRequestId = client.nextRequestId
  disconnected : client'.disconnected = client.disconnected
  writable : client'.writable = client.writable
  /-- The reader empties the table, and does not touch it afterwards. -/
  pending : client'.reader.hasDrained → client'.pending = [] ∨
    client.reader.hasDrained ∧ client'.pending = client.pending

theorem readerStep_handleServerMessage (client : RpcClient) (hreader : client.reader = .reading)
    (message : JsonRpcMessage) : ReaderStep client (client.handleServerMessage message) := by
  cases message with
  | response | error =>
    dsimp only [handleServerMessage]
    split_ifs
    · exact ⟨rfl, rfl, rfl, rfl, nofun⟩
    · exact ⟨rfl, rfl, rfl, rfl, by rw [hreader]; exact nofun⟩
  | notification =>
    exact ⟨rfl, rfl, rfl, rfl, by rw [handleServerMessage, hreader]; exact nofun⟩
  | request => exact ⟨rfl, rfl, rfl, rfl, nofun⟩

variable {client' : RpcClient}

theorem readerStep_of_read (h : client.read = some client') : ReaderStep client client' := by
  unfold read at h
  cases hreader : client.reader with
  | reading =>
    rw [hreader] at h
    cases hincoming : client.incoming with
    | nil =>
      rw [hincoming] at h
      split_ifs at h
      cases h
      exact ⟨rfl, rfl, rfl, rfl, nofun⟩
    | cons event incoming =>
      rw [hincoming] at h
      cases event with
      | message message =>
        cases h
        obtain ⟨hcalls, hnext, hdisconnected, hwritable, hpend⟩ :=
          readerStep_handleServerMessage { client with incoming, reader := .reading } rfl message
        exact ⟨hcalls, hnext, hdisconnected, hwritable,
          fun hdrained => .inl ((hpend hdrained).resolve_right fun h => nomatch h.1)⟩
      | malformedMessage | disconnected =>
        cases h
        exact ⟨rfl, rfl, rfl, rfl, nofun⟩
  | answering | announcing =>
    rw [hreader] at h
    cases h
    exact ⟨rfl, rfl, rfl, rfl, nofun⟩
  | draining =>
    rw [hreader] at h
    cases h
    exact ⟨rfl, rfl, rfl, rfl, fun _ => .inl rfl⟩
  | closing ids =>
    rw [hreader] at h
    cases ids <;> cases h <;>
      exact ⟨rfl, rfl, rfl, rfl, fun _ => .inr ⟨by rw [hreader]; rfl, rfl⟩⟩
  | stopped =>
    rw [hreader] at h
    cases h

theorem numbered_step {turn : RpcTurn} (h : client.Numbered)
    (hstep : client.step turn = some client') : client'.Numbered := by
  cases turn with
  | call =>
    cases hstep
    exact forall_mem_append.mpr ⟨h, forall_mem_singleton.mpr fun _ => nofun⟩
  | advance i serializes =>
    obtain ⟨call, hcall, hstep⟩ := bind_eq_some_iff.mp hstep
    have hid := h call (mem_of_getElem? hcall)
    cases call with
    | starting =>
      dsimp only [advance] at hstep
      split_ifs at hstep <;> cases hstep
      · exact h.setCall (Nat.le_succ _) (fun _ => nofun)
      · exact h.setCall (Nat.le_succ _) (fun id hid => by cases hid; exact Nat.lt_succ_self _)
    | registered id =>
      dsimp only [advance] at hstep
      split_ifs at hstep <;> cases hstep <;> exact h.setCall le_rfl hid
    | withdrawing id error =>
      cases hstep
      exact h.setCall le_rfl (fun _ => nofun)
    | awaiting id =>
      obtain ⟨answer, -, rfl⟩ := map_eq_some_iff.mp hstep
      cases answer <;> exact h.setCall le_rfl (fun _ => nofun)
    | returned result => cases hstep
  | reader =>
    have hread := readerStep_of_read hstep
    unfold Numbered
    rw [hread.calls, hread.nextRequestId]
    exact h
  | deliver event =>
    dsimp only [step] at hstep
    split_ifs at hstep
    cases hstep
    exact h
  | markDisconnected | stopReading | stopWriting =>
    cases hstep
    exact h

theorem Quiet.setCall {i n : ℕ} (h : client.Quiet) (hcall : ∀ id, .awaiting id ≠ call) :
    Quiet ({ client with nextRequestId := n }.setCall i call) := by
  refine ⟨h.unreachable, h.empty, fun hdrained id hid => h.awaiting hdrained id ?_⟩
  exact (mem_setCall hid).resolve_right (hcall id)

theorem quiet_step {turn : RpcTurn} (hnumbered : client.Numbered) (h : client.Quiet)
    (hstep : client.step turn = some client') : client'.Quiet := by
  cases turn with
  | call =>
    cases hstep
    refine ⟨h.unreachable, h.empty, fun hdrained id hid => h.awaiting hdrained id ?_⟩
    simpa using hid
  | advance i serializes =>
    obtain ⟨call, hcall, hstep⟩ := bind_eq_some_iff.mp hstep
    cases call with
    | starting =>
      dsimp only [advance] at hstep
      split_ifs at hstep with hdisconnected <;> cases hstep
      · exact h.setCall fun _ => nofun
      · -- a call that can still register will not get its request through
        have hwritable := h.unreachable.resolve_left hdisconnected
        refine ⟨.inr hwritable, fun _ htrue => ?_, fun hdrained id hid => ?_⟩
        · rw [show client.writable from htrue] at hwritable
          cases hwritable
        · have hmem := (mem_setCall hid).resolve_right nofun
          have hlt : id < client.nextRequestId := hnumbered _ hmem id rfl
          show id ∉ client.pending ++ [client.nextRequestId]
          rw [mem_append, mem_singleton, not_or]
          exact ⟨h.awaiting hdrained id hmem, hlt.ne⟩
    | registered k =>
      dsimp only [advance] at hstep
      split_ifs at hstep with hserializes hwritable <;> cases hstep
      · exact h.setCall fun _ => nofun
      · exact h.setCall fun _ => nofun
      · refine ⟨h.unreachable, h.empty, fun hdrained id _ => ?_⟩
        show id ∉ client.pending
        rw [h.empty hdrained (by simpa using hwritable)]
        exact not_mem_nil
    | withdrawing k error =>
      cases hstep
      refine ⟨h.unreachable, fun hdrained hwritable => ?_, fun hdrained id hid hmem => ?_⟩
      · show client.pending.filter _ = []
        rw [h.empty hdrained hwritable]
        rfl
      · exact h.awaiting hdrained id ((mem_setCall hid).resolve_right nofun)
          (mem_of_mem_filter hmem)
    | awaiting k =>
      obtain ⟨answer, -, rfl⟩ := map_eq_some_iff.mp hstep
      cases answer <;> exact h.setCall fun _ => nofun
    | returned result => cases hstep
  | reader =>
    obtain ⟨hcalls, -, hdisconnected, hwritable, hpend⟩ := readerStep_of_read hstep
    refine ⟨by rw [hdisconnected, hwritable]; exact h.unreachable, fun hdrained htrue => ?_,
      fun hdrained id hid => ?_⟩
    · rcases hpend hdrained with hnil | ⟨hdrained', heq⟩
      · exact hnil
      · rw [heq]
        exact h.empty hdrained' (hwritable ▸ htrue)
    · rcases hpend hdrained with hnil | ⟨hdrained', heq⟩
      · rw [hnil]
        exact not_mem_nil
      · rw [heq]
        exact h.awaiting hdrained' id (hcalls ▸ hid)
  | deliver event =>
    dsimp only [step] at hstep
    split_ifs at hstep
    cases hstep
    exact ⟨h.unreachable, h.empty, h.awaiting⟩
  | markDisconnected =>
    cases hstep
    exact ⟨.inl rfl, h.empty, h.awaiting⟩
  | stopReading =>
    cases hstep
    exact ⟨h.unreachable, h.empty, h.awaiting⟩
  | stopWriting =>
    cases hstep
    exact ⟨.inr rfl, fun _ => nofun, h.awaiting⟩

/-- What one step keeps, a run keeps. -/
theorem run_invariant {P : RpcClient → Prop}
    (hstep : ∀ client turn client', P client → client.step turn = some client' → P client')
    {turns : List RpcTurn} (h : P client) (hrun : client.run turns = some client') : P client' := by
  induction turns generalizing client with
  | nil =>
    cases hrun
    exact h
  | cons turn turns ih =>
    obtain ⟨next, hnext, hrun⟩ := bind_eq_some_iff.mp hrun
    exact ih (hstep client turn next h hnext) hrun

theorem numbered_run {turns : List RpcTurn} (hrun : new.run turns = some client) : client.Numbered :=
  run_invariant (fun _ _ _ h => numbered_step h) (fun _ h => absurd h not_mem_nil) hrun

/-- The reader empties the table of a connection that is not marked, and takes requests: the next
    call is abandoned. -/
theorem exists_abandoned (hreader : client.reader = .draining)
    (hdisconnected : client.disconnected = false) (hwritable : client.writable) :
    ∃ turns client', client.run turns = some client' ∧ client'.Abandoned := by
  refine ⟨[.reader, .call, .advance client.calls.length true, .advance client.calls.length true],
    { client with
      nextRequestId := client.nextRequestId + 1
      pending := [client.nextRequestId]
      reader := .closing client.pending
      calls := client.calls ++ [.awaiting client.nextRequestId] }, ?_, rfl,
    client.nextRequestId, by simp, by simp⟩
  simp [run, step, read, hreader, advance, setCall, hdisconnected, hwritable]

/-- **When calls are abandoned.**  When the reader is about to empty the table, no call can ever be
    abandoned exactly if the connection is marked as disconnected, or takes no more requests. -/
theorem no_call_abandoned_iff {client : RpcClient} {turns : List RpcTurn}
    (hrun : new.run turns = some client) (hreader : client.reader = .draining) :
    (∀ later client', client.run later = some client' → ¬ client'.Abandoned) ↔
      client.disconnected ∨ client.writable = false := by
  constructor
  · intro hnever
    by_contra hreachable
    rw [not_or, Bool.not_eq_true, Bool.not_eq_false] at hreachable
    obtain ⟨later, client', hlater, habandoned⟩ :=
      exists_abandoned hreader hreachable.1 hreachable.2
    exact hnever later client' hlater habandoned
  · intro hunreachable later client' hlater ⟨hdrained, id, hpend, hawaiting⟩
    have hquiet : client.Quiet :=
      ⟨hunreachable, by rw [hreader]; exact nofun, by rw [hreader]; exact nofun⟩
    have hboth : client'.Numbered ∧ client'.Quiet :=
      run_invariant (P := fun client => client.Numbered ∧ client.Quiet)
        (fun _ _ _ h hstep => ⟨numbered_step h.1 hstep, quiet_step h.1 h.2 hstep⟩)
        ⟨numbered_run hrun, hquiet⟩ hlater
    exact hboth.2.awaiting hdrained id hawaiting hpend

/-- The transport reports a disconnect while a call waits: it marks the connection, and then
    delivers the event. -/
theorem disconnect_abandons_no_call :
    let turns : List RpcTurn := [.call, .advance 0 true, .advance 0 true, .markDisconnected,
      .deliver (.disconnected none), .reader, .reader]
    ∃ client, new.run turns = some client ∧ client.reader = .draining ∧
      client.calls = [.awaiting 1] ∧
      ∀ later client', client.run later = some client' → ¬ client'.Abandoned := by
  intro turns
  have hrun : new.run turns = some ⟨2, [1], [], [.disconnected none], true, true, [], true,
    .draining, [.awaiting 1]⟩ := rfl
  exact ⟨_, hrun, rfl, rfl, (no_call_abandoned_iff hrun rfl).mpr (.inl rfl)⟩

/-- A malformed message stops the reader of a connection that goes on: a call made afterwards is
    registered, its request is sent, and nobody will complete its entry. -/
theorem malformed_message_abandons_call :
    ∃ client, new.run [.deliver (.malformedMessage "not JSON".toList), .reader, .reader, .reader,
        .reader, .call, .advance 0 true, .advance 0 true] = some client ∧
      client.reader = .stopped ∧ client.pending = [1] ∧ client.calls = [.awaiting 1] ∧
        client.Abandoned := ⟨_, rfl, rfl, rfl, rfl, rfl, 1, mem_cons_self, mem_cons_self⟩

end RpcClient

end Codex.ExecServer
