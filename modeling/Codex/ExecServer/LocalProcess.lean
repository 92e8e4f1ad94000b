import Codex.Data.Interleaving
import Codex.Text.Basic
import Mathlib

namespace Codex.ExecServer

/-!
# The processes of a session

`start_process` reserves the id of a process in the map of the session, releases the lock while the
child is spawned, and takes it again to put the running process under its id.  `shutdown` takes out
of the map whatever is there at one moment, and terminates it.

* `LocalProcess` — the map of processes, and the children that were spawned;
* `ProcessThread.next` — a call from one access of the map to the next;
* `ProcessRun` — the interleavings of calls.

The tasks that serve a running process are taken together here: the child exits, the process is
closed, and its entry is removed some time later.
-/

/-! ### Errors -/

/-- `JSONRPCErrorError`.  Its `data` is empty in every error of the server. -/
structure JsonRpcError where
  code : ℤ
  message : Text

variable (message : Text)

def invalidRequest : JsonRpcError := ⟨-32600, message⟩
def invalidParams : JsonRpcError := ⟨-32602, message⟩
def internalError : JsonRpcError := ⟨-32603, message⟩

/-! ### Processes -/

/-- What `start_process` reads of its parameters before the child is spawned. -/
structure ExecParams where
  processId : Text
  argv : List Text
  cwd : Text

/-- A child of the server. -/
structure Child where
  hasExited : Bool
  isTerminated : Bool
deriving DecidableEq

/-- An entry of the map.  Of a running process there is the number of its child, and whether it was
    closed. -/
inductive ProcessEntry
  | starting
  | running (child : ℕ) (closed : Bool)
deriving DecidableEq

def ProcessEntry.child? : ProcessEntry → Option ℕ
  | .starting => none
  | .running child _ => some child

/-- The map of processes, and the children in the order in which they were spawned. -/
structure LocalProcess where
  processes : AList fun _ : Text => ProcessEntry
  children : List Child

namespace LocalProcess

def new : LocalProcess := ⟨∅, []⟩

variable (server : LocalProcess)

/-- `ExecCommandSession::terminate`. -/
def terminate (child : ℕ) : LocalProcess :=
  { server with
    children := server.children.modify child fun state => { state with isTerminated := true } }

/-- A child exits on its own. -/
def exit (child : ℕ) : LocalProcess :=
  { server with
    children := server.children.modify child fun state => { state with hasExited := true } }

/-- An entry that is dropped terminates its child. -/
def drop : Option ProcessEntry → LocalProcess
  | some (.running child _) => server.terminate child
  | _ => server

def insert (processId : Text) (entry : ProcessEntry) : LocalProcess :=
  { server with processes := server.processes.insert processId entry }

def remove (processId : Text) : LocalProcess :=
  { server with processes := server.processes.erase processId }

def spawn : LocalProcess := { server with children := server.children ++ [⟨false, false⟩] }

/-- The children of the entries of the map. -/
def running : List ℕ := server.processes.entries.filterMap fun entry => entry.2.child?

end LocalProcess

/-! ### Calls -/

/-- A call, or what it has left behind, between two accesses of the map. -/
inductive ProcessThread
  /-- `start_process` at its beginning. -/
  | starting (params : ExecParams)
  /-- `start_process` with the id reserved, before the child is spawned. -/
  | spawning (processId : Text)
  /-- `start_process` with the error of the spawn. -/
  | failing (processId err : Text)
  /-- `start_process` with the child, before the running process is put into the map. -/
  | inserting (processId : Text) (child : ℕ)
  | rejected (error : JsonRpcError)
  /-- `start_process` has returned, and the tasks of the process wait for the child. -/
  | serving (processId : Text) (child : ℕ)
  /-- The tasks of the process, after the exit of the child. -/
  | closing (processId : Text)
  /-- The process is closed and retained for a while. -/
  | retaining (processId : Text)
  /-- `shutdown` at its beginning. -/
  | shuttingDown
  /-- `shutdown` with the children it has still to terminate. -/
  | terminating (remaining : List ℕ)
  | finished

/-- What can be seen of a step. -/
inductive ProcessEvent
  | silent
  /-- `start_process` has reserved its id. -/
  | reserved
  /-- `start_process` has spawned a child. -/
  | spawned (child : ℕ)
  /-- `start_process` has put the running process into the map, or given up. -/
  | settled
  /-- `shutdown` has emptied the map. -/
  | drained (children : List ℕ)
  /-- `shutdown` has terminated a child. -/
  | told (child : ℕ)
deriving DecidableEq

/-- What a step takes from outside: whether a spawn fails, and the order in which the map gives its
    entries. -/
structure ProcessDraw where
  spawnError : Option Text
  order : List ℕ

variable (toAbsPath : Text → Except Text Text)

/-- The checks `start_process` makes before it looks at the map. -/
def checkParams (params : ExecParams) : Except JsonRpcError Unit :=
  if params.argv.isEmpty then .error (invalidParams "argv must not be empty")
  else match toAbsPath params.cwd with
    | .ok _ => .ok ()
    | .error err => .error (invalidParams ("cwd URI `" ++ params.cwd ++
        "` is not valid on this exec-server host: " ++ err))

def alreadyExists (processId : Text) : JsonRpcError :=
  invalidRequest ("process " ++ processId ++ " already exists")

/-- One call up to the end of its next access of the map. -/
def ProcessThread.next (draw : ProcessDraw) (server : LocalProcess) :
    ProcessThread → Option (ProcessEvent × LocalProcess × ProcessThread)
  | .starting params =>
    match checkParams toAbsPath params with
    | .error error => some (.silent, server, .rejected error)
    | .ok () =>
      if params.processId ∈ server.processes then
        some (.silent, server, .rejected (alreadyExists params.processId))
      else some (.reserved, server.insert params.processId .starting, .spawning params.processId)
  | .spawning processId =>
    match draw.spawnError with
    | some err => some (.silent, server, .failing processId err)
    | none => some (.spawned server.children.length, server.spawn,
        .inserting processId server.children.length)
  | .failing processId err =>
    if server.processes.lookup processId = some .starting then
      some (.settled, server.remove processId, .rejected (internalError err))
    else some (.settled, server, .rejected (internalError err))
  | .inserting processId child =>
    some (.settled, (server.drop (server.processes.lookup processId)).insert processId
      (.running child false), .serving processId child)
  | .serving processId child => some (.silent, server.exit child, .closing processId)
  | .closing processId =>
    match server.processes.lookup processId with
    | some (.running child _) =>
      some (.silent, server.insert processId (.running child true), .retaining processId)
    | _ => some (.silent, server, .finished)
  | .retaining processId =>
    match server.processes.lookup processId with
    | some (.running child true) =>
      some (.silent, (server.terminate child).remove processId, .finished)
    | _ => some (.silent, server, .finished)
  | .shuttingDown =>
    if draw.order.Perm server.running then
      some (.drained draw.order, { server with processes := ∅ }, .terminating draw.order)
    else none
  | .terminating (child :: remaining) =>
    some (.told child, server.terminate child, .terminating remaining)
  | .terminating [] => some (.silent, server, .finished)
  | .rejected _ => none
  | .finished => none

def ProcessStep (server : LocalProcess) (thread : ProcessThread) (event : ProcessEvent)
    (server' : LocalProcess) (thread' : ProcessThread) : Prop :=
  ∃ draw, thread.next toAbsPath draw server = some (event, server', thread')

/-- The calls. -/
inductive ProcessCall
  | startProcess (params : ExecParams)
  | shutdown

def ProcessCall.start : ProcessCall → ProcessThread
  | .startProcess params => .starting params
  | .shutdown => .shuttingDown

/-- The interleavings of any number of calls, from the empty map. -/
abbrev ProcessRun (trace : List (ℕ × ProcessEvent)) (pool : Data.Pool LocalProcess ProcessThread) :
    Prop :=
  Data.Pool.Run (fun thread => ∃ call : ProcessCall, call.start = thread) (ProcessStep toAbsPath)
    ⟨.new, []⟩ trace pool

/-- The call of this thread has returned. -/
def ProcessThread.isReturned : ProcessThread → Bool
  | .rejected _ | .serving _ _ | .closing _ | .retaining _ | .finished => true
  | _ => false

end Codex.ExecServer
