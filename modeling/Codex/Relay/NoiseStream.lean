import Codex.Relay.OrderedCiphertext

namespace Codex.Relay

open Codex.Data

/-!
# A virtual stream over the relay

The two ends of one direction of a stream.  The writer frames every message, cuts it into records,
encrypts each record once and numbers it.  The receiver orders the records, decrypts them with the
counter of its own transport, and queues the complete messages for its consumer.

* `Cipher`, `NoiseTransport` — authenticated encryption with an implicit counter nonce.
* `RelayData` — the body of a data frame.
* `NoiseWriter.writeMessages` — the sending end, up to the first failure.
* `NoiseStream.run` — the receiving end on the data frames that the relay delivers, up to the
  first error.
-/

/-! ### The Noise transport -/

/-- The length of the authentication tag of AES-GCM. -/
def tagLen : ℕ := 16

/-- The longest message of the Noise protocol. -/
def maxMessageLen : ℕ := 65535

/-- Encryption under one key: what it seals under a nonce it opens under the same nonce. -/
structure Cipher where
  sendVec : ℕ → Bytes → Bytes
  receiveVec : ℕ → Bytes → Except Text Bytes
  length_sendVec : ∀ nonce plaintext, (sendVec nonce plaintext).length = plaintext.length + tagLen
  receiveVec_sendVec : ∀ nonce plaintext, receiveVec nonce (sendVec nonce plaintext) = .ok plaintext

inductive NoiseChannelError where
  | invalidMessage (message : Text)
  | handshake (message : Text)
  | transport (message : Text)

def NoiseChannelError.display : NoiseChannelError → Text
  | .invalidMessage message => "invalid Noise channel message: " ++ message
  | .handshake message => "Noise channel handshake failed: " ++ message
  | .transport message => "Noise channel transport failed: " ++ message

def ensureNoiseFrameLen (frameLen : ℕ) (message : Text) : Except NoiseChannelError Unit :=
  if frameLen > maxMessageLen then .error (.invalidMessage message) else .ok ()

/-- An established channel with independent nonces for the two directions. -/
structure NoiseTransport where
  sending : Cipher
  receiving : Cipher
  sendNonce : ℕ := 0
  receiveNonce : ℕ := 0

/-- Encrypt the next record. -/
def NoiseTransport.encrypt (transport : NoiseTransport) (plaintext : Bytes) :
    Except NoiseChannelError (Bytes × NoiseTransport) := do
  ensureNoiseFrameLen (plaintext.length + tagLen) "transport plaintext is too large"
  return (transport.sending.sendVec transport.sendNonce plaintext,
    { transport with sendNonce := transport.sendNonce + 1 })

/-- Decrypt the next record. -/
def NoiseTransport.decrypt (transport : NoiseTransport) (ciphertext : Bytes) :
    Except NoiseChannelError (Bytes × NoiseTransport) :=
  if ciphertext.length < tagLen then
    .error (.invalidMessage "transport ciphertext is too short")
  else do
    ensureNoiseFrameLen ciphertext.length "transport ciphertext is too large"
    let plaintext ←
      (transport.receiving.receiveVec transport.receiveNonce ciphertext).mapError .transport
    return (plaintext, { transport with receiveNonce := transport.receiveNonce + 1 })

/-! ### Data frames -/

/-- The body of a data frame. -/
structure RelayData where
  seq : ℕ
  segmentIndex : ℕ
  segmentCount : ℕ
  payload : Bytes
  deriving DecidableEq

/-- The data frames that are built are unsegmented. -/
def RelayData.data (seq : ℕ) (payload : Bytes) : RelayData :=
  { seq, segmentIndex := 0, segmentCount := 1, payload }

/-- The check on the fields of a data frame. -/
def RelayData.complete (data : RelayData) : Bool :=
  data.segmentIndex == 0 && data.segmentCount == 1 && !data.payload.isEmpty

/-! ### The sending end -/

/-- The next number of a record, and the number behind it. -/
def takeNextSequence (nextSeq : ℕ) : Except ExecServerError (ℕ × ℕ) :=
  if nextSeq < u32Max then .ok (nextSeq, nextSeq + 1)
  else .error (.protocol "Noise relay sequence number exhausted")

section Writer

variable {μ : Type}

/-- The state of the sending end, with the frames that have left it and the messages that have
    left it completely. -/
structure NoiseWriter (μ : Type) where
  transport : NoiseTransport
  nextSeq : ℕ := 0
  frames : List RelayData := []
  written : List μ := []

/-- Encrypt and send the records of one message; `accepts` says for every frame whether the
    connection still takes it.  The flag is false when the writer stops. -/
def NoiseWriter.writeRecords (accepts : ℕ → Bool) (writer : NoiseWriter μ) :
    List Bytes → NoiseWriter μ × Bool
  | [] => (writer, true)
  | record :: records =>
    match takeNextSequence writer.nextSeq with
    | .error _ => (writer, false)
    | .ok (seq, nextSeq) =>
      match writer.transport.encrypt record with
      | .error _ => ({ writer with nextSeq }, false)
      | .ok (ciphertext, transport) =>
        if accepts seq then
          writeRecords accepts
            { writer with
              transport, nextSeq, frames := writer.frames ++ [.data seq ciphertext] }
            records
        else ({ writer with transport, nextSeq }, false)

/-- Send one message. -/
def NoiseWriter.writeMessage (codec : JsonCodec μ) (accepts : ℕ → Bool) (writer : NoiseWriter μ)
    (message : μ) : NoiseWriter μ × Bool :=
  match frameJsonrpcMessage codec message with
  | .error _ => (writer, false)
  | .ok framed =>
    match writer.writeRecords accepts (chunks noiseRecordPlaintextLen framed) with
    | (writer, true) => ({ writer with written := writer.written ++ [message] }, true)
    | (writer, false) => (writer, false)

/-- Send the messages in order until one of them fails. -/
def NoiseWriter.writeMessages (codec : JsonCodec μ) (accepts : ℕ → Bool) (writer : NoiseWriter μ) :
    List μ → NoiseWriter μ
  | [] => writer
  | message :: messages =>
    match writer.writeMessage codec accepts message with
    | (writer, true) => writeMessages codec accepts writer messages
    | (writer, false) => writer

end Writer

/-! ### The receiving end -/

def channelCapacity : ℕ := 128

/-- The two programs that receive on a stream. -/
inductive Side where
  | harness
  | executor

/-- The consumer behind the queue of a stream: how many messages it had taken when message `i` was
    offered, and whether it still held its end of the queue then. -/
structure Consumer where
  taken : ℕ → ℕ
  listening : ℕ → Bool

/-- Queue message number `i`.  The harness waits for room; the executor shares its read loop
    between all streams and does not wait. -/
def Consumer.offer (consumer : Consumer) (i : ℕ) : Side → Except ExecServerError Unit
  | .harness => if consumer.listening i then .ok () else .error .closed
  | .executor =>
    if consumer.listening i && decide (i < consumer.taken i + channelCapacity) then .ok ()
    else .error (.protocol "Noise virtual stream inbound queue is full or closed")

/-- The state of the receiving end, with the messages it has queued so far. -/
structure NoiseStream (μ : Type) where
  transport : NoiseTransport
  inboundCiphertexts : OrderedCiphertextFrames := {}
  inboundDecoder : JsonRpcMessageDecoder := {}
  delivered : List μ := []

namespace NoiseStream

variable {μ : Type} (codec : JsonCodec μ) (side : Side) (consumer : Consumer)

/-- Queue the messages of one record. -/
def queueMessages (stream : NoiseStream μ) : List μ → NoiseStream μ × Option ExecServerError
  | [] => (stream, none)
  | message :: messages =>
    match consumer.offer stream.delivered.length side with
    | .error error => (stream, some error)
    | .ok () => queueMessages { stream with delivered := stream.delivered ++ [message] } messages

/-- Decrypt one record and queue the messages that it completes. -/
def receiveRecord (stream : NoiseStream μ) (ciphertext : Bytes) :
    NoiseStream μ × Option ExecServerError :=
  match stream.transport.decrypt ciphertext with
  | .error error =>
    (stream, some (.protocol ("Noise relay decryption failed: " ++ error.display)))
  | .ok (plaintext, transport) =>
    match stream.inboundDecoder.push codec plaintext with
    | .error error => ({ stream with transport }, some error)
    | .ok (messages, inboundDecoder) =>
      queueMessages side consumer { stream with transport, inboundDecoder } messages

/-- Go through a run of ciphertexts up to the first error. -/
def receiveRecords (stream : NoiseStream μ) : List Bytes → NoiseStream μ × Option ExecServerError
  | [] => (stream, none)
  | ciphertext :: ciphertexts =>
    match receiveRecord codec side consumer stream ciphertext with
    | (stream, some error) => (stream, some error)
    | (stream, none) => receiveRecords stream ciphertexts

/-- Order and decrypt one data frame, then queue any complete messages. -/
def receiveData (stream : NoiseStream μ) (data : RelayData) :
    NoiseStream μ × Option ExecServerError :=
  match stream.inboundCiphertexts.push data.seq data.payload with
  | .error error => (stream, some error)
  | .ok (ready, inboundCiphertexts) =>
    receiveRecords codec side consumer { stream with inboundCiphertexts } ready

/-- One data frame of the stream from the relay.  A frame with missing fields ends the stream of
    the harness and is dropped by the executor. -/
def receive (stream : NoiseStream μ) (data : RelayData) : NoiseStream μ × Option ExecServerError :=
  if data.complete then receiveData codec side consumer stream data
  else
    match side with
    | .harness =>
      (stream, some (.protocol "Noise relay received invalid post-handshake frame"))
    | .executor => (stream, none)

/-- The data frames of the stream up to the first error, which ends the stream. -/
def run (stream : NoiseStream μ) : List RelayData → NoiseStream μ × Option ExecServerError
  | [] => (stream, none)
  | data :: frames =>
    match receive codec side consumer stream data with
    | (stream, some error) => (stream, some error)
    | (stream, none) => run stream frames

end NoiseStream

end Codex.Relay
