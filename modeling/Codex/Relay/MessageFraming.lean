import Codex.Data.ExceptFold
import Codex.Data.Records
import Codex.Text.Basic

namespace Codex.Relay

open Codex.Data List UInt8

/-!
# JSON-RPC messages inside Noise records

A message is written as a four-byte length and its JSON text, and the decoder takes the messages
out of the decrypted records again, wherever the records were cut.

* `JsonCodec` — the JSON library, as far as the relay uses it.
* `frameJsonrpcMessage` — one message on the wire; `wire` is a whole list of them.
* `JsonRpcMessageDecoder.push` — one decrypted record into the decoder.
* `push_spec` — a record of the wire is never refused, and what the decoder gives out and keeps is
  what it has been fed.
-/

/-- A byte string. -/
abbrev Bytes := List UInt8

/-- The errors of the exec server that the relay produces. -/
inductive ExecServerError where
  | closed
  | json (message : Text)
  | protocol (message : Text)
  deriving DecidableEq

/-- The JSON library: it writes some text for every message and reads back what it wrote. -/
structure JsonCodec (μ : Type) where
  toWriter : μ → Bytes
  fromSlice : Bytes → Except Text μ
  toWriter_ne_nil : ∀ message, toWriter message ≠ []
  fromSlice_toWriter : ∀ message, fromSlice (toWriter message) = .ok message

def lengthPrefixBytes : ℕ := 4
def maxNoiseJsonrpcMessageLen : ℕ := 64 * 1024 * 1024
def noiseRecordPlaintextLen : ℕ := 60 * 1024

/-- The four bytes of a 32-bit number, most significant first. -/
def toBeBytes (n : ℕ) : Bytes :=
  [ofNat (n / 256 ^ 3), ofNat (n / 256 ^ 2), ofNat (n / 256), ofNat n]

/-- The number with the given bytes, most significant first. -/
def fromBeBytes (bytes : Bytes) : ℕ := bytes.foldl (fun n byte => n * 256 + byte.toNat) 0

@[simp] theorem length_toBeBytes (n : ℕ) : (toBeBytes n).length = lengthPrefixBytes := rfl

theorem fromBeBytes_toBeBytes {n : ℕ} (hn : n < 2 ^ 32) : fromBeBytes (toBeBytes n) = n := by
  simp only [fromBeBytes, toBeBytes, foldl_cons, foldl_nil, toNat_ofNat']
  omega

section

variable {μ : Type} (codec : JsonCodec μ)

/-- One message on the wire: its length and its text. -/
def frameJsonrpcMessage (message : μ) : Except ExecServerError Bytes :=
  let text := codec.toWriter message
  if text.length > maxNoiseJsonrpcMessageLen then
    .error (.protocol "Noise relay JSON-RPC message exceeds maximum length")
  else .ok (toBeBytes text.length ++ text)

/-- The loop of the decoder: the complete messages of the buffer, and what is left of it. -/
def decodeBuffered (buffered : Bytes) : Except ExecServerError (List μ × Bytes) :=
  if buffered.length < lengthPrefixBytes then .ok ([], buffered)
  else
    let messageLen := fromBeBytes (buffered.take lengthPrefixBytes)
    if messageLen = 0 ∨ messageLen > maxNoiseJsonrpcMessageLen then
      .error (.protocol "Noise relay JSON-RPC message has invalid length")
    else
      let framedLen := lengthPrefixBytes + messageLen
      if buffered.length < framedLen then .ok ([], buffered)
      else do
        let message ← (codec.fromSlice ((buffered.take framedLen).drop lengthPrefixBytes)).mapError
          .json
        let (messages, rest) ← decodeBuffered (buffered.drop framedLen)
        return (message :: messages, rest)
  termination_by buffered.length
  decreasing_by
    simp only [length_drop, lengthPrefixBytes] at *
    omega

/-- The decoder of one stream: the bytes that do not make a message yet. -/
structure JsonRpcMessageDecoder where
  buffered : Bytes := []

/-- Append one decrypted record and take out all complete messages. -/
def JsonRpcMessageDecoder.push (decoder : JsonRpcMessageDecoder) (plaintextRecord : Bytes) :
    Except ExecServerError (List μ × JsonRpcMessageDecoder) :=
  if plaintextRecord.length > noiseRecordPlaintextLen then
    .error (.protocol "Noise relay plaintext record exceeds maximum length")
  else do
    let (messages, buffered) ← decodeBuffered codec (decoder.buffered ++ plaintextRecord)
    if buffered.length > lengthPrefixBytes + maxNoiseJsonrpcMessageLen then
      .error (.protocol "Noise relay JSON-RPC reassembly buffer exceeds maximum length")
    else .ok (messages, { buffered })

/-! ### The wire -/

/-- The bytes of a list of messages, one behind the other. -/
def wire (messages : List μ) : Bytes :=
  messages.flatMap fun message =>
    toBeBytes (codec.toWriter message).length ++ codec.toWriter message

/-- A message that is not too long to be framed. -/
def Fits (message : μ) : Prop := (codec.toWriter message).length ≤ maxNoiseJsonrpcMessageLen

instance (message : μ) : Decidable (Fits codec message) := Nat.decLe _ _

variable {codec}

@[simp] theorem wire_nil : wire codec [] = [] := rfl

@[simp] theorem wire_cons (message : μ) (messages : List μ) :
    wire codec (message :: messages) =
      (toBeBytes (codec.toWriter message).length ++ codec.toWriter message) ++
        wire codec messages := rfl

@[simp] theorem wire_append (messages later : List μ) :
    wire codec (messages ++ later) = wire codec messages ++ wire codec later := by
  simp [wire]

theorem length_wire_singleton (message : μ) :
    (wire codec [message]).length = lengthPrefixBytes + (codec.toWriter message).length := by
  simp

variable {message : μ}

/-- Framing succeeds exactly on the messages that fit, and gives their bytes on the wire. -/
theorem frameJsonrpcMessage_eq_ok {framed : Bytes} :
    frameJsonrpcMessage codec message = .ok framed ↔
      Fits codec message ∧ framed = wire codec [message] := by
  have hwire : wire codec [message] =
      toBeBytes (codec.toWriter message).length ++ codec.toWriter message := by simp
  rw [hwire, frameJsonrpcMessage, Fits]
  split_ifs with hlong
  · simp only [false_iff]
    omega
  · simp only [Except.ok.injEq, eq_comm]
    exact ⟨fun h => ⟨by omega, h⟩, And.right⟩

/-! ### Decoding -/

variable {buffered rest : Bytes}

section

variable (hfits : Fits codec message)
include hfits

/-- The length that the decoder reads, when the buffer starts inside a framed message. -/
theorem messageLen_eq {more : Bytes} (hbytes : buffered ++ rest = wire codec [message] ++ more)
    (hlong : ¬ buffered.length < lengthPrefixBytes) :
    fromBeBytes (buffered.take lengthPrefixBytes) = (codec.toWriter message).length := by
  have htake : buffered.take lengthPrefixBytes = toBeBytes (codec.toWriter message).length := by
    have hboth := congrArg (take lengthPrefixBytes) hbytes
    rw [take_append_of_le_length (by omega)] at hboth
    rw [hboth]
    rfl
  have hsmall : (codec.toWriter message).length < 2 ^ 32 := lt_of_le_of_lt hfits (by decide)
  rw [htake, fromBeBytes_toBeBytes hsmall]

theorem not_invalid_length :
    ¬ ((codec.toWriter message).length = 0 ∨
      (codec.toWriter message).length > maxNoiseJsonrpcMessageLen) := by
  rintro (hempty | hlong)
  · exact codec.toWriter_ne_nil message (length_eq_zero_iff.mp hempty)
  · exact absurd hlong (not_lt.mpr hfits)

/-- The decoder waits while the message at the front of its buffer is incomplete. -/
theorem decodeBuffered_incomplete {more : Bytes}
    (hbytes : buffered ++ rest = wire codec [message] ++ more)
    (hshort : buffered.length < (wire codec [message]).length) :
    decodeBuffered codec buffered = .ok ([], buffered) := by
  by_cases hheader : buffered.length < lengthPrefixBytes
  · rw [decodeBuffered, if_pos hheader]
  · rw [length_wire_singleton] at hshort
    rw [decodeBuffered, if_neg hheader]
    simp only [messageLen_eq hfits hbytes hheader]
    rw [if_neg (not_invalid_length hfits), if_pos hshort]

/-- The decoder takes out the message at the front of its buffer once it is complete. -/
theorem decodeBuffered_complete (rest : Bytes) :
    decodeBuffered codec (wire codec [message] ++ rest) =
      (decodeBuffered codec rest).map fun decoded => (message :: decoded.1, decoded.2) := by
  have hlong : ¬ (wire codec [message] ++ rest).length < lengthPrefixBytes := by
    rw [length_append, length_wire_singleton]
    omega
  have hlen := messageLen_eq hfits (append_nil _) hlong
  have hframed : (wire codec [message]).length =
      lengthPrefixBytes + (codec.toWriter message).length := length_wire_singleton message
  have hbody : ((wire codec [message] ++ rest).take
      (lengthPrefixBytes + (codec.toWriter message).length)).drop lengthPrefixBytes =
        codec.toWriter message := by
    rw [← hframed]
    simp [lengthPrefixBytes, toBeBytes]
  rw [decodeBuffered, if_neg hlong]
  simp only [hlen]
  rw [if_neg (not_invalid_length hfits), if_neg (by rw [length_append]; omega), hbody,
    codec.fromSlice_toWriter, ← hframed, drop_left]
  cases decodeBuffered codec rest <;> rfl

end

/-- Bytes that stop inside a message that fits, or nothing. -/
def Unfinished (codec : JsonCodec μ) (tail : Bytes) : Prop :=
  tail = [] ∨ ∃ message more, Fits codec message ∧ tail ++ more = wire codec [message] ∧ more ≠ []

theorem unfinished_nil : Unfinished codec [] := .inl rfl

variable {tail : Bytes}

/-- What the decoder keeps of an unfinished message is unfinished. -/
theorem decodeBuffered_unfinished (htail : Unfinished codec tail)
    (hbytes : buffered ++ rest = tail) :
    decodeBuffered codec buffered = .ok ([], buffered) ∧
      buffered.length ≤ lengthPrefixBytes + maxNoiseJsonrpcMessageLen := by
  rcases htail with rfl | ⟨message, more, hfits, hmore, hne⟩
  · obtain ⟨rfl, rfl⟩ := append_eq_nil_iff.mp hbytes
    exact ⟨by rw [decodeBuffered, if_pos (by decide)], Nat.zero_le _⟩
  · have hframed : buffered ++ (rest ++ more) = wire codec [message] ++ [] := by
      rw [← append_assoc, hbytes, hmore, append_nil]
    have hlength := congrArg length hframed
    have hpositive := length_pos_iff.mpr hne
    simp only [length_append, length_nil] at hlength
    refine ⟨decodeBuffered_incomplete hfits hframed (by omega), ?_⟩
    have hbound : (codec.toWriter message).length ≤ maxNoiseJsonrpcMessageLen := hfits
    rw [length_wire_singleton] at hlength
    omega

/-- **The decoder against the wire.** On a part of the wire the decoder gives out messages in
    order, keeps the bytes of the next one, and leaves no complete message behind. -/
theorem decodeBuffered_spec {messages : List μ} (hfits : ∀ message ∈ messages, Fits codec message)
    (htail : Unfinished codec tail) (hbytes : buffered ++ rest = wire codec messages ++ tail) :
    ∃ done left remaining, messages = done ++ left ∧
      decodeBuffered codec buffered = .ok (done, remaining) ∧
      remaining ++ rest = wire codec left ++ tail ∧
      remaining.length ≤ lengthPrefixBytes + maxNoiseJsonrpcMessageLen ∧
      (rest = [] → left = []) := by
  induction messages generalizing buffered with
  | nil =>
    obtain ⟨hdecode, hbound⟩ := decodeBuffered_unfinished htail hbytes
    exact ⟨[], [], buffered, rfl, hdecode, hbytes, hbound, fun _ => rfl⟩
  | cons message messages ih =>
    have hmsg : Fits codec message := hfits message mem_cons_self
    have hframed : buffered ++ rest =
        wire codec [message] ++ (wire codec messages ++ tail) := by
      rw [hbytes, ← append_assoc, ← wire_append, singleton_append]
    by_cases hshort : buffered.length < (wire codec [message]).length
    · refine ⟨[], message :: messages, buffered, rfl,
        decodeBuffered_incomplete hmsg hframed hshort, hbytes, ?_, ?_⟩
      · have hbound : (codec.toWriter message).length ≤ maxNoiseJsonrpcMessageLen := hmsg
        rw [length_wire_singleton] at hshort
        omega
      · rintro rfl
        have hlength := congrArg length hframed
        simp only [length_append, length_nil] at hlength
        omega
    · -- The whole message is in the buffer: take it out and go on behind it.
      obtain ⟨behind, rfl⟩ : wire codec [message] <+: buffered :=
        prefix_of_prefix_length_le ⟨_, hframed.symm⟩ ⟨_, rfl⟩ (not_lt.mp hshort)
      rw [append_assoc] at hframed
      obtain ⟨done, left, remaining, hsplit, hdecode, hremaining, hbound, hend⟩ :=
        ih (fun later hlater => hfits later (mem_cons_of_mem _ hlater))
          (append_cancel_left hframed)
      refine ⟨message :: done, left, remaining, by rw [hsplit, cons_append], ?_, hremaining,
        hbound, hend⟩
      rw [decodeBuffered_complete hmsg, hdecode]
      rfl

/-- A record of the wire is never refused by the decoder. -/
theorem push_spec {messages : List μ} (hfits : ∀ message ∈ messages, Fits codec message)
    (htail : Unfinished codec tail) {decoder : JsonRpcMessageDecoder}
    {record : Bytes} (hrecord : record.length ≤ noiseRecordPlaintextLen)
    (hbytes : decoder.buffered ++ (record ++ rest) = wire codec messages ++ tail) :
    ∃ done left decoder', messages = done ++ left ∧
      decoder.push codec record = .ok (done, decoder') ∧
      decoder'.buffered ++ rest = wire codec left ++ tail ∧ (rest = [] → left = []) := by
  rw [← append_assoc] at hbytes
  obtain ⟨done, left, remaining, hsplit, hdecode, hremaining, hbound, hend⟩ :=
    decodeBuffered_spec hfits htail hbytes
  refine ⟨done, left, { buffered := remaining }, hsplit, ?_, hremaining, hend⟩
  rw [JsonRpcMessageDecoder.push, if_neg (not_lt.mpr hrecord), hdecode]
  exact if_neg (not_lt.mpr hbound)

end

end Codex.Relay
