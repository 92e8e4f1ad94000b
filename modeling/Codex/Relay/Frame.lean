import Codex.Relay.NoiseStream

namespace Codex.Relay

/-!
# Relay message frames

The frames that the relay carries for every virtual stream, after decoding, and the checks that
are made on them before anything else looks at them.

* `RelayMessageFrame` — a frame with its routing id and its body.
* `RelayMessageFrame.validate` — the kind of a well-formed frame.
* `RelayMessageFrame.intoData`, `RelayMessageFrame.intoHandshakePayload` — the body of a frame of
  the expected kind.
-/

def relayMessageFrameVersion : ℕ := 1

/-- The body of a frame. -/
inductive RelayBody where
  | data (data : RelayData)
  | ackFrame
  | resume (nextSeq : ℕ)
  | reset (reason : Text)
  | heartbeat
  | handshake (payload : Bytes)

structure RelayMessageFrame where
  version : ℕ
  streamId : Text
  ack : ℕ
  ackBits : ℕ
  body : Option RelayBody

inductive RelayFrameBodyKind where
  | data
  | ack
  | resume
  | reset
  | heartbeat
  | handshake
  deriving DecidableEq

namespace RelayMessageFrame

/-- The frame of a handshake message. -/
def handshake (streamId : Text) (payload : Bytes) : RelayMessageFrame :=
  { version := relayMessageFrameVersion, streamId, ack := 0, ackBits := 0,
    body := some (.handshake payload) }

/-- The frame that ends a stream. -/
def reset (streamId reason : Text) : RelayMessageFrame :=
  { version := relayMessageFrameVersion, streamId, ack := 0, ackBits := 0,
    body := some (.reset reason) }

/-- The check on the body of a frame. -/
def validateBody : Option RelayBody → Except ExecServerError RelayFrameBodyKind
  | some (.data data) =>
    if data.complete then .ok .data
    else .error (.protocol "relay data message frame is missing required fields")
  | some .ackFrame => .ok .ack
  | some (.resume _) => .ok .resume
  | some (.reset reason) =>
    if reason.isEmpty then
      .error (.protocol "relay reset message frame is missing reason")
    else .ok .reset
  | some .heartbeat => .ok .heartbeat
  | some (.handshake payload) =>
    if payload.isEmpty then
      .error (.protocol "relay handshake message frame is missing payload")
    else .ok .handshake
  | none => .error (.protocol "relay message frame is missing body")

variable (frame : RelayMessageFrame)

/-- The kind of a well-formed frame. -/
def validate : Except ExecServerError RelayFrameBodyKind :=
  if frame.version ≠ relayMessageFrameVersion then
    .error (.protocol ("unsupported relay message frame version " ++
      (toString frame.version).toList))
  else if (Text.trim frame.streamId).isEmpty then
    .error (.protocol "relay message frame is missing stream_id")
  else validateBody frame.body

/-- The body of a data frame. -/
def intoData : Except ExecServerError RelayData := do
  let kind ← frame.validate
  if kind ≠ .data then
    .error (.protocol "expected relay data message frame")
  else
    match frame.body with
    | some (.data data) => .ok data
    | _ => .error (.protocol "expected relay data message frame")

/-- The payload of a handshake frame. -/
def intoHandshakePayload : Except ExecServerError Bytes := do
  let kind ← frame.validate
  if kind ≠ .handshake then
    .error (.protocol "expected relay handshake message frame")
  else
    match frame.body with
    | some (.handshake payload) => .ok payload
    | _ => .error (.protocol "expected relay handshake message frame")

/-! ### The body of a frame that has been checked -/

variable {frame : RelayMessageFrame}

end RelayMessageFrame

end Codex.Relay
