import Codex.ExecServer.LocalProcess

namespace Codex.ExecServer

/-!
# The registry of sessions

A session of the exec server outlives its connection for a while: a connection that is lost detaches
from it, and another one may attach to it by its id.  `attach` runs under the lock of the registry;
`detach` takes only the lock of the session, and changes the sender of the notifications afterwards.

* `SessionRegistry`, `SessionEntry`, `AttachmentState` — the state that the calls share;
* `SessionThread.next` — a call from one access of the shared state to the next;
* `SessionRun` — the interleavings of calls.

A sender is only stored and handed on, so its type is a parameter.
-/

/-! ### Sessions -/

/-- A random identifier. -/
structure ConnectionId where
  uuid : ℕ
deriving DecidableEq

/-- `DETACHED_SESSION_TTL`, in milliseconds. -/
def detachedSessionTtl : ℕ := 10 * 1000

structure AttachmentState where
  currentConnectionId : Option ConnectionId
  detachedConnectionId : Option ConnectionId
  detachedExpiresAt : Option ℕ

namespace AttachmentState

variable (attachment : AttachmentState) (connectionId : ConnectionId)

/-- The state `SessionEntry::new` and `SessionEntry::attach` leave. -/
def attachedTo : AttachmentState := ⟨some connectionId, none, none⟩

/-- `SessionEntry::detach`: `none` if another connection is attached, or none is. -/
def detach (now : ℕ) : Option AttachmentState :=
  if attachment.currentConnectionId ≠ some connectionId then none
  else some ⟨none, some connectionId, some (now + detachedSessionTtl)⟩

def hasActiveConnection : Bool := attachment.currentConnectionId.isSome

def isExpired (now : ℕ) : Bool :=
  attachment.detachedExpiresAt.any fun deadline => decide (deadline ≤ now)

def isDetachedConnectionExpired (now : ℕ) : Bool := attachment.currentConnectionId.isNone &&
    decide (attachment.detachedConnectionId = some connectionId) &&
    attachment.detachedExpiresAt.any fun deadline => decide (deadline ≤ now)

end AttachmentState

/-- A session.  Of its process handler there is the sender of the notifications, and whether it was
    shut down. -/
structure SessionEntry (ν : Type) where
  sessionId : Text
  notifications : Option ν
  isShutDown : Bool
  attachment : AttachmentState

/-- The registry.  Entries are shared between the registry and the handles of the connections; they
    are numbered in the order of their creation. -/
structure SessionRegistry (ν : Type) where
  entries : List (SessionEntry ν)
  /-- The map from ids to sessions. -/
  sessions : Text → Option ℕ
  /-- The connection whose `attach` holds the lock of the map. -/
  lock : Option ConnectionId
  clock : ℕ
  /-- The identifiers drawn so far. -/
  drawn : List ConnectionId

variable {ν : Type}

namespace SessionRegistry

def new : SessionRegistry ν := ⟨[], fun _ => none, none, 0, []⟩

variable (registry : SessionRegistry ν)

variable (r : ℕ)

/-- A change of one session. -/
def update (change : SessionEntry ν → SessionEntry ν) : SessionRegistry ν :=
  { registry with entries := registry.entries.modify r change }

/-- `LocalProcess::set_notification_sender` of a session. -/
def setNotificationSender (notifications : Option ν) : SessionRegistry ν :=
  registry.update r fun entry => { entry with notifications }

def setAttachment (attachment : AttachmentState) : SessionRegistry ν :=
  registry.update r fun entry => { entry with attachment }

def shutdown : SessionRegistry ν := registry.update r fun entry => { entry with isShutDown := true }

/-- A session for a connection that names none. -/
def insertNew (sessionId : Text) (connectionId : ConnectionId) (notifications : ν) :
    SessionRegistry ν :=
  { registry with
    entries := registry.entries ++
      [⟨sessionId, some notifications, false, .attachedTo connectionId⟩]
    sessions := Function.update registry.sessions sessionId (some registry.entries.length) }

def remove (sessionId : Text) : SessionRegistry ν :=
  { registry with sessions := Function.update registry.sessions sessionId none }

def attachment? : Option AttachmentState := registry.entries[r]?.map (·.attachment)

end SessionRegistry

/-! ### Calls -/

/-- A call, or the task a call has left behind, between two accesses of the shared state.  The
    number `r` is that of a session. -/
inductive SessionThread (ν : Type)
  /-- `attach` at its beginning. -/
  | attaching (resumeSessionId : Option Text) (notifications : ν)
  /-- `attach` before the lock of the map. -/
  | locking (connectionId : ConnectionId) (resumeSessionId : Option Text) (notifications : ν)
  /-- `attach` with the lock, before `is_expired`. -/
  | checkingExpiry (connectionId : ConnectionId) (sessionId : Text) (notifications : ν) (r : ℕ)
  /-- `attach` with the lock, before `has_active_connection`. -/
  | checkingActive (connectionId : ConnectionId) (sessionId : Text) (notifications : ν) (r : ℕ)
  /-- `attach` with the lock, before `set_notification_sender`. -/
  | installing (connectionId : ConnectionId) (notifications : ν) (r : ℕ)
  /-- `attach` with the lock, before `SessionEntry::attach`. -/
  | marking (connectionId : ConnectionId) (notifications : ν) (r : ℕ)
  /-- `attach` before the shutdown of an expired session. -/
  | discarding (sessionId : Text) (r : ℕ)
  | attached (connectionId : ConnectionId) (notifications : ν) (r : ℕ)
  | attachFailed (error : JsonRpcError)
  /-- `detach` of a handle at its beginning. -/
  | detaching (connectionId : ConnectionId) (r : ℕ)
  /-- `detach` before `set_notification_sender`. -/
  | clearing (connectionId : ConnectionId) (r : ℕ)
  /-- `detach` has returned and `expire_if_detached` sleeps. -/
  | sleeping (sessionId : Text) (connectionId : ConnectionId) (wakesAt : ℕ)
  /-- `expire_if_detached` before the shutdown of the session it has removed. -/
  | expiring (r : ℕ)
  | finished

/-- What can be seen of a step. -/
inductive SessionEvent (ν : Type)
  | silent
  /-- `attach` has drawn an identifier for the connection. -/
  | drew (connectionId : ConnectionId) (notifications : ν)
  /-- `attach` has set the sender of the session. -/
  | installed (r : ℕ)
  /-- `attach` has put the connection on the session, and returns. -/
  | attached (connectionId : ConnectionId) (notifications : ν) (r : ℕ)
  /-- `detach` has taken the connection off the session. -/
  | dropped (r : ℕ)
  /-- `detach` has removed the sender of the session. -/
  | cleared (r : ℕ)
deriving DecidableEq

def unknownSessionId (sessionId : Text) : JsonRpcError :=
  invalidRequest ("unknown session id " ++ sessionId)

def alreadyAttached (sessionId : Text) : JsonRpcError :=
  invalidRequest ("session " ++ sessionId ++ " is already attached to another connection")

/-- What a step takes from outside: the time, and identifiers it may draw. -/
structure Draw where
  now : ℕ
  connectionId : ConnectionId
  sessionId : Text

variable (registry : SessionRegistry ν)

/-- `attach` with the lock of the map, up to `sessions.get`. -/
def resumeSession (connectionId : ConnectionId) (sessionId : Text) (notifications : ν) :
    SessionEvent ν × SessionRegistry ν × SessionThread ν :=
  match registry.sessions sessionId with
  | none => (.silent, registry, .attachFailed (unknownSessionId sessionId))
  | some r => (.silent, { registry with lock := some connectionId },
      .checkingExpiry connectionId sessionId notifications r)

/-- `expire_if_detached` after its sleep, with the lock of the map. -/
def expireSession (sessionId : Text) (connectionId : ConnectionId) (now : ℕ) :
    SessionEvent ν × SessionRegistry ν × SessionThread ν :=
  match registry.sessions sessionId with
  | none => (.silent, registry, .finished)
  | some r =>
    if (registry.attachment? r).any (·.isDetachedConnectionExpired connectionId now) then
      (.silent, registry.remove sessionId, .expiring r)
    else (.silent, registry, .finished)

/-- One call up to the end of its next access of the shared state, if it need not wait. -/
def SessionThread.next (draw : Draw) (registry : SessionRegistry ν) :
    SessionThread ν → Option (SessionEvent ν × SessionRegistry ν × SessionThread ν)
  | .attaching resumeSessionId notifications =>
    some (.drew draw.connectionId notifications,
      { registry with drawn := draw.connectionId :: registry.drawn },
      .locking draw.connectionId resumeSessionId notifications)
  | .locking connectionId resumeSessionId notifications =>
    if registry.lock.isSome then none
    else match resumeSessionId with
      | some sessionId => some (resumeSession registry connectionId sessionId notifications)
      | none => some (.attached connectionId notifications registry.entries.length,
          registry.insertNew draw.sessionId connectionId notifications,
          .attached connectionId notifications registry.entries.length)
  | .checkingExpiry connectionId sessionId notifications r =>
    if (registry.attachment? r).any (·.isExpired draw.now) then
      some (.silent, { registry.remove sessionId with lock := none }, .discarding sessionId r)
    else some (.silent, registry, .checkingActive connectionId sessionId notifications r)
  | .checkingActive connectionId sessionId notifications r =>
    if (registry.attachment? r).any (·.hasActiveConnection) then
      some (.silent, { registry with lock := none }, .attachFailed (alreadyAttached sessionId))
    else some (.silent, registry, .installing connectionId notifications r)
  | .installing connectionId notifications r =>
    some (.installed r, registry.setNotificationSender r (some notifications),
      .marking connectionId notifications r)
  | .marking connectionId notifications r =>
    some (.attached connectionId notifications r,
      { registry.setAttachment r (.attachedTo connectionId) with lock := none },
      .attached connectionId notifications r)
  | .discarding sessionId r =>
    some (.silent, registry.shutdown r, .attachFailed (unknownSessionId sessionId))
  | .detaching connectionId r =>
    match (registry.attachment? r).bind (·.detach connectionId draw.now) with
    | none => some (.silent, registry, .finished)
    | some attachment => some (.dropped r, registry.setAttachment r attachment,
        .clearing connectionId r)
  | .clearing connectionId r =>
    registry.entries[r]?.map fun entry =>
      (.cleared r, registry.setNotificationSender r none,
        .sleeping entry.sessionId connectionId (draw.now + detachedSessionTtl))
  | .sleeping sessionId connectionId wakesAt =>
    if registry.lock.isSome || decide (draw.now < wakesAt) then none
    else some (expireSession registry sessionId connectionId draw.now)
  | .expiring r => some (.silent, registry.shutdown r, .finished)
  | .attached _ _ _ => none
  | .attachFailed _ => none
  | .finished => none

/-- The steps of a thread.  Time does not go back, and identifiers are not drawn twice. -/
def SessionStep (thread : SessionThread ν) (event : SessionEvent ν) (registry' : SessionRegistry ν)
    (thread' : SessionThread ν) : Prop :=
  ∃ draw : Draw, registry.clock ≤ draw.now ∧ draw.connectionId ∉ registry.drawn ∧
    (∀ entry ∈ registry.entries, entry.sessionId ≠ draw.sessionId) ∧
    thread.next draw { registry with clock := draw.now } = some (event, registry', thread')

/-- The calls: `attach`, and `detach` of a handle. -/
inductive SessionCall (ν : Type)
  | attach (resumeSessionId : Option Text) (notifications : ν)
  | detach (connectionId : ConnectionId) (r : ℕ)

def SessionCall.start : SessionCall ν → SessionThread ν
  | .attach resumeSessionId notifications => .attaching resumeSessionId notifications
  | .detach connectionId r => .detaching connectionId r

/-- The interleavings of any number of calls, from the empty registry.  A `detach` may come at any
    time and from any connection: it does nothing unless its connection is the one on the session. -/
abbrev SessionRun (trace : List (ℕ × SessionEvent ν))
    (pool : Data.Pool (SessionRegistry ν) (SessionThread ν)) : Prop :=
  Data.Pool.Run (fun thread => ∃ call : SessionCall ν, call.start = thread) SessionStep
    ⟨.new, []⟩ trace pool

/-- The call of this thread has returned; what is left of it is a task in the background. -/
def SessionThread.isReturned : SessionThread ν → Bool
  | .attached _ _ _ | .attachFailed _ | .sleeping _ _ _ | .expiring _ | .finished => true
  | _ => false

end Codex.ExecServer
