import Codex.Data.Table
import Codex.Relay.Frame

namespace Codex.Relay

/-!
# The multiplexed environment

The executor serves all virtual streams of one websocket in one loop.  A handshake request that can
be read is put aside while the registry checks the key of the harness; only a successful check
turns it into a stream.  The loop takes turns between the results of the checks, the notifications
of streams that have closed, and the frames of the peer, in any order.

* `Environment` — the tables of the loop, its failure budget, and what it has sent.
* `EnvironmentEvent` — what the loop may wake up for.
* `Environment.step`, `Environment.run` — one turn of the loop, and a sequence of turns.
-/

def maxActiveNoiseRelayStreams : ℕ := 128
def maxFailedNoiseHandshakes : ℕ := 8
def maxHarnessKeyAuthorizationBytes : ℕ := 4096
def maxPendingHandshakeValidations : ℕ := 32
def noiseRelayResetReason : Text := "noise_relay_protocol_error"

/-! ### Reading a handshake request -/

/-- The bytes of a text. -/
def utf8 (text : Text) : Bytes := (String.ofList text).toUTF8.data.toList

/-- The text of some bytes, if they are UTF-8. -/
def fromUtf8 (bytes : Bytes) : Option Text := (String.fromUTF8? bytes.toByteArray).map String.toList

/-- One component of the prologue, behind its length as a 64-bit number. -/
def appendProloguePart (prologue part : Bytes) : Bytes :=
  prologue ++ toBeBytes (part.length / 2 ^ 32) ++ toBeBytes part.length ++ part

/-- The prologue binds a handshake to the registration of the environment and to a stream. -/
def noiseChannelPrologue (environmentId executorRegistrationId streamId : Text) : Bytes :=
  [utf8 "codex-exec-server-relay-noise/v1", utf8 environmentId,
    utf8 executorRegistrationId, utf8 streamId].foldl appendProloguePart []

/-- The state of the responder between the two handshake messages. -/
structure PendingResponderHandshake (η κ : Type) where
  handshake : η
  initiatorPublicKey : κ
  payload : Bytes

/-- The surroundings of the loop: the handshake of the Noise library, the JSON library, the names
    that go into the prologue, and the consumer of every stream. -/
structure EnvironmentHost (η κ μ : Type) where
  readMessage : Bytes → Bytes → Except NoiseChannelError (PendingResponderHandshake η κ)
  finalize : η → Except NoiseChannelError (NoiseTransport × Bytes)
  codec : JsonCodec μ
  environmentId : Text
  executorRegistrationId : Text
  consumer : ℕ → Consumer

section

variable {η κ μ : Type}

/-- Parse the first handshake message. -/
def EnvironmentHost.readRequest (host : EnvironmentHost η κ μ) (prologue request : Bytes) :
    Except NoiseChannelError (PendingResponderHandshake η κ) := do
  ensureNoiseFrameLen request.length "handshake request is too large"
  host.readMessage prologue request

/-- The authorization that a request carries, if it is UTF-8 and not too long. -/
def authorizationOf (payload : Bytes) : Option Text :=
  (fromUtf8 payload).filter fun _ => payload.length ≤ maxHarnessKeyAuthorizationBytes

/-! ### The state of the loop -/

/-- A request whose key is being checked. -/
structure PendingHandshake (η κ : Type) where
  validationId : ℕ
  handshake : PendingResponderHandshake η κ

/-- A running check of a key by the registry. -/
structure ValidationTask (κ : Type) where
  streamId : Text
  validationId : ℕ
  harnessPublicKey : κ
  authorization : Text

/-- An active stream. -/
structure NoiseVirtualStream (μ : Type) where
  instanceId : ℕ
  stream : NoiseStream μ

/-- A notification that an instance of a stream has come to its end. -/
structure ClosedNoiseVirtualStream where
  streamId : Text
  instanceId : ℕ

/-- The state of the loop.  The last three fields record what it has sent, and how many requests it
    has read and checks it has started. -/
structure Environment (η κ μ : Type) where
  streams : AList (fun _ : Text => NoiseVirtualStream μ) := ∅
  pendingHandshakes : AList (fun _ : Text => PendingHandshake η κ) := ∅
  validationTasks : List (ValidationTask κ) := []
  failedHandshakes : ℕ := 0
  nextValidationId : ℕ := 0
  running : Bool := true
  outgoing : List RelayMessageFrame := []
  requestsRead : ℕ := 0
  checksStarted : ℕ := 0

/-- A message on the websocket; a binary one may fail to decode. -/
inductive Incoming where
  | binary (frame : Option RelayMessageFrame)
  | text
  | control
  | close
  | ended
  | readError

/-- What the loop wakes up for.  `room` says whether the queue to the websocket has room. -/
inductive EnvironmentEvent where
  | writerFinished
  | closedStream (closed : ClosedNoiseVirtualStream)
  | validationResult (validationId : ℕ) (accepted room : Bool)
  | validationTaskFailed (validationId : ℕ) (room : Bool)
  | incoming (message : Incoming) (room : Bool)

/-- Charge one failed attempt: the new count, and whether the budget is used up. -/
def failedHandshakeBudgetExhausted (failedHandshakes : ℕ) : ℕ × Bool :=
  (failedHandshakes + 1, decide (failedHandshakes + 1 ≥ maxFailedNoiseHandshakes))

namespace Environment

variable (host : EnvironmentHost η κ μ) (env : Environment η κ μ) (room : Bool)

/-- Charge one failed attempt and leave the loop when the budget is used up. -/
def chargeFailure : Environment η κ μ :=
  let (failedHandshakes, exhausted) := failedHandshakeBudgetExhausted env.failedHandshakes
  { env with failedHandshakes, running := !exhausted }

variable (frame : RelayMessageFrame)

/-- Queue a frame without waiting. -/
def trySend : Environment η κ μ :=
  { env with outgoing := if room then env.outgoing ++ [frame] else env.outgoing }

variable (streamId : Text)

/-- Queue a reset, if there is room for it. -/
def sendReset : Environment η κ μ := env.trySend room (.reset streamId noiseRelayResetReason)

/-- Forget a pending request, so that the result of its check is stale. -/
def removePending : Environment η κ μ :=
  { env with pendingHandshakes := env.pendingHandshakes.erase streamId }

/-- Forget a stream. -/
def removeStream : Environment η κ μ := { env with streams := env.streams.erase streamId }

/-! ### Notifications and results -/

/-- Remove a stream that has closed, unless its id belongs to another instance by now. -/
def closeStream (closed : ClosedNoiseVirtualStream) : Environment η κ μ :=
  match env.streams.lookup closed.streamId with
  | some stream =>
    if stream.instanceId = closed.instanceId then env.removeStream closed.streamId else env
  | none => env

/-- Complete an authorised handshake. -/
def activate (pending : PendingHandshake η κ) : Environment η κ μ :=
  if env.streams.entries.length ≥ maxActiveNoiseRelayStreams then env.sendReset room streamId
  else
    match host.finalize pending.handshake.handshake with
    | .error _ => (env.sendReset room streamId).chargeFailure
    | .ok (transport, response) =>
      -- A reply that cannot be queued at once ends the loop.
      if room then
        { env.trySend room (.handshake streamId response) with
          streams := env.streams.insert streamId
            { instanceId := pending.validationId, stream := { transport } } }
      else { env with running := false }

/-- The result of a check, which counts only while its own request is pending. -/
def finishValidation
    (task : ValidationTask κ) (accepted : Bool) : Environment η κ μ :=
  match env.pendingHandshakes.lookup task.streamId with
  | none => env
  | some pending =>
    if pending.validationId ≠ task.validationId then env
    else
      if accepted then (env.removePending task.streamId).activate host room task.streamId pending
      else ((env.removePending task.streamId).sendReset room task.streamId).chargeFailure

/-- A check that broke down cancels all pending requests. -/
def dropPending : Environment η κ μ :=
  env.pendingHandshakes.keys.foldl (fun env streamId => env.sendReset room streamId)
    { env with pendingHandshakes := ∅ }

/-- Take the check with the given number out of the running ones. -/
def joinTask (validationId : ℕ) : Option (ValidationTask κ × Environment η κ μ) :=
  (env.validationTasks.find? (·.validationId == validationId)).map fun task =>
    (task, { env with
      validationTasks := env.validationTasks.filter (·.validationId != validationId) })

/-! ### Frames -/

/-- One more hybrid handshake request has been read. -/
def countRequest : Environment η κ μ := { env with requestsRead := env.requestsRead + 1 }

/-- Put a request aside and start the check of its key. -/
def startValidation (streamId authorization : Text)
    (pending : PendingResponderHandshake η κ) : Environment η κ μ :=
  { env with
    nextValidationId := env.nextValidationId + 1
    checksStarted := env.checksStarted + 1
    pendingHandshakes := env.pendingHandshakes.insert streamId
      { validationId := env.nextValidationId, handshake := { pending with payload := [] } }
    validationTasks := env.validationTasks ++
      [{ streamId
         validationId := env.nextValidationId
         harnessPublicKey := pending.initiatorPublicKey
         authorization }] }

/-- A handshake frame. -/
def handleHandshake : Environment η κ μ :=
  -- Duplicate or busy streams are rejected before the cost of a hybrid handshake.
  if frame.streamId ∈ env.streams then env.sendReset room frame.streamId
  else if frame.streamId ∈ env.pendingHandshakes then
    ((env.removePending frame.streamId).sendReset room frame.streamId).chargeFailure
  else if env.streams.entries.length ≥ maxActiveNoiseRelayStreams then
    env.sendReset room frame.streamId
  else if env.validationTasks.length ≥ maxPendingHandshakeValidations then
    env.sendReset room frame.streamId
  else
    match frame.intoHandshakePayload with
    | .error _ => env.sendReset room frame.streamId
    | .ok request =>
      let prologue :=
        noiseChannelPrologue host.environmentId host.executorRegistrationId frame.streamId
      match host.readRequest prologue request with
      | .error _ => (env.countRequest.sendReset room frame.streamId).chargeFailure
      | .ok pending =>
        match authorizationOf pending.payload with
        | none => (env.countRequest.sendReset room frame.streamId).chargeFailure
        | some authorization =>
          env.countRequest.startValidation frame.streamId authorization pending

/-- A data frame. -/
def handleData : Environment η κ μ :=
  match env.streams.lookup frame.streamId with
  | none =>
    if frame.streamId ∈ env.pendingHandshakes then
      ((env.removePending frame.streamId).sendReset room frame.streamId).chargeFailure
    else env.sendReset room frame.streamId
  | some entry =>
    match frame.intoData with
    | .error _ => (env.removeStream frame.streamId).sendReset room frame.streamId
    | .ok data =>
      match entry.stream.receiveData host.codec .executor (host.consumer entry.instanceId) data with
      | (_, some _) => (env.removeStream frame.streamId).sendReset room frame.streamId
      | (stream, none) =>
        { env with streams := env.streams.insert frame.streamId { entry with stream } }

/-- A reset frame. -/
def handleReset : Environment η κ μ :=
  (env.removePending frame.streamId).removeStream frame.streamId

/-- A frame that could be decoded; malformed ones are dropped. -/
def handleFrame : Environment η κ μ :=
  match frame.validate with
  | .error _ => env
  | .ok .handshake => env.handleHandshake host room frame
  | .ok .data => env.handleData host room frame
  | .ok .reset => env.handleReset frame
  | .ok .ack => env
  | .ok .resume => env
  | .ok .heartbeat => env

/-- A message on the websocket. -/
def handleIncoming : Incoming → Environment η κ μ
  | .binary (some frame) => env.handleFrame host room frame
  | .binary none => env
  | .text => env
  | .control => env
  | .close => { env with running := false }
  | .ended => { env with running := false }
  | .readError => { env with running := false }

/-! ### The loop -/

/-- One turn of the loop.  A result of a check that is not running cannot come. -/
def step (event : EnvironmentEvent) : Environment η κ μ :=
  if env.running then
    match event with
    | .writerFinished => { env with running := false }
    | .closedStream closed => env.closeStream closed
    | .validationResult validationId accepted room =>
      match env.joinTask validationId with
      | none => env
      | some (task, env) => env.finishValidation host room task accepted
    | .validationTaskFailed validationId room =>
      match env.joinTask validationId with
      | none => env
      | some (_, env) => env.dropPending room
    | .incoming message room => env.handleIncoming host room message
  else env

/-- The loop over a sequence of events. -/
def run (events : List EnvironmentEvent) : Environment η κ μ := events.foldl (step host) env

end Environment

end

end Codex.Relay
