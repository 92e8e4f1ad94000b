import Codex.Relay.Sending

namespace Codex.Relay

open Codex.Data NoiseStream List Prod

/-!
# What a stream delivers

The messages that arrive at the receiving end of a stream, against the messages that were put into
its sending end, whatever the relay in between does.

* `InStep` — the receiver has consumed the first records and queued the messages they complete.
* `receiveRecord_inStep` — one ciphertext keeps the receiver in step or ends the stream.
* `run_initial` — the messages queued are the first of those written.
* `run_invariant` — what every accepted message keeps is kept by a run.
-/

variable {μ : Type} {codec : JsonCodec μ} {cipher : Cipher} {side : Side} {consumer : Consumer}

/-! ### Decrypting and queueing -/

variable {transport : NoiseTransport}

theorem decrypt_eq_ok {transport' : NoiseTransport} {ciphertext plaintext : Bytes}
    (h : transport.decrypt ciphertext = .ok (plaintext, transport')) :
    transport.receiving.receiveVec transport.receiveNonce ciphertext = .ok plaintext ∧
      transport' = { transport with receiveNonce := transport.receiveNonce + 1 } := by
  rw [NoiseTransport.decrypt] at h
  split_ifs at h with hshort
  obtain ⟨-, -, h⟩ := bind_eq_ok.mp h
  obtain ⟨opened, hopened, h⟩ := bind_eq_ok.mp h
  obtain ⟨rfl, rfl⟩ := mk.inj (Except.ok.inj h)
  exact ⟨mapError_eq_ok.mp hopened, rfl⟩

theorem decrypt_sendVec {record : Bytes} (hrecord : record.length ≤ noiseRecordPlaintextLen) :
    transport.decrypt (transport.receiving.sendVec transport.receiveNonce record) =
      .ok (record, { transport with receiveNonce := transport.receiveNonce + 1 }) := by
  have hlength := transport.receiving.length_sendVec transport.receiveNonce record
  have hlong : noiseRecordPlaintextLen + tagLen ≤ maxMessageLen := by decide
  rw [NoiseTransport.decrypt, if_neg (by omega), ensureNoiseFrameLen, if_neg (by omega),
    transport.receiving.receiveVec_sendVec]
  rfl

/-- Queueing gives the consumer the first of the messages, and all of them if none is refused. -/
theorem queueMessages_spec (side : Side) (consumer : Consumer) (stream : NoiseStream μ)
    (messages : List μ) :
    ∃ queued rest, messages = queued ++ rest ∧
      (stream.queueMessages side consumer messages).1 =
        { stream with delivered := stream.delivered ++ queued } ∧
      ((stream.queueMessages side consumer messages).2 = none → rest = []) := by
  induction messages generalizing stream with
  | nil => exact ⟨[], [], rfl, by simp [queueMessages], fun _ => rfl⟩
  | cons message messages ih =>
    unfold queueMessages
    cases hoffer : consumer.offer stream.delivered.length side with
    | error error => exact ⟨[], message :: messages, rfl, by simp, by simp⟩
    | ok _ =>
      obtain ⟨queued, rest, hsplit, hstream, hrest⟩ :=
        ih { stream with delivered := stream.delivered ++ [message] }
      refine ⟨message :: queued, rest, by rw [hsplit, cons_append], ?_, hrest⟩
      rw [hstream]
      simp

/-- No message is refused while the consumer keeps up. -/
theorem queueMessages_goes (stream : NoiseStream μ) (messages : List μ)
    (hoffer : ∀ i, i < stream.delivered.length + messages.length → consumer.offer i side = .ok ()) :
    (stream.queueMessages side consumer messages).2 = none := by
  induction messages generalizing stream with
  | nil => rfl
  | cons message messages ih =>
    rw [length_cons] at hoffer
    unfold queueMessages
    rw [hoffer stream.delivered.length (by omega)]
    refine ih _ fun i hi => hoffer i ?_
    rw [length_append, length_singleton] at hi
    omega

/-! ### The receiver in step with the records -/

/-- The receiver has consumed as many records as its nonce says: the messages that it has queued,
    and the bytes that it keeps, are those of these records. -/
structure InStep (codec : JsonCodec μ) (cipher : Cipher) (written : List μ) (records : List Bytes)
    (tail : Bytes) (stream : NoiseStream μ) : Prop where
  receiving_eq : stream.transport.receiving = cipher
  nonce_le : stream.transport.receiveNonce ≤ records.length
  split : ∃ left, written = stream.delivered ++ left ∧
    stream.inboundDecoder.buffered ++ (records.drop stream.transport.receiveNonce).flatten =
      wire codec left ++ tail ∧ (stream.transport.receiveNonce = records.length → left = [])

variable {frames : List RelayData} {written : List μ} {records : List Bytes} {tail : Bytes}

variable {stream : NoiseStream μ}

theorem InStep.initial (hstep : InStep codec cipher written records tail stream) :
    stream.delivered <+: written := by
  obtain ⟨left, hsplit, -, -⟩ := hstep.split
  exact ⟨left, hsplit.symm⟩

section

variable (hwire : OnWire codec cipher frames written records tail)
include hwire

theorem inStep_start
    (hreceiving : transport.receiving = cipher) (hnonce : transport.receiveNonce = 0) :
    InStep codec cipher written records tail { transport } where
  receiving_eq := hreceiving
  nonce_le := by simp [hnonce]
  split := by
    refine ⟨written, rfl, ?_, fun hempty => ?_⟩
    · rw [hnonce]
      exact hwire.flatten_eq
    · rw [hnonce] at hempty
      have hbytes := hwire.flatten_eq
      rw [length_eq_zero_iff.mp hempty.symm] at hbytes
      cases written with
      | nil => rfl
      | cons message messages =>
        have hlength := congrArg length hbytes
        simp only [wire_cons, length_append, length_toBeBytes, lengthPrefixBytes,
          flatten_nil, length_nil] at hlength
        omega

/-- The next record goes through the decoder, and the messages it completes are the next ones. -/
theorem InStep.push (hstep : InStep codec cipher written records tail stream) {record : Bytes}
    (hrecord : records[stream.transport.receiveNonce]? = some record) :
    ∃ messages left decoder, stream.inboundDecoder.push codec record = .ok (messages, decoder) ∧
      written = stream.delivered ++ messages ++ left ∧
      decoder.buffered ++ (records.drop (stream.transport.receiveNonce + 1)).flatten =
        wire codec left ++ tail ∧
      (stream.transport.receiveNonce + 1 = records.length → left = []) := by
  obtain ⟨hlt, hget⟩ := List.getElem?_eq_some_iff.mp hrecord
  have hdrop : records.drop stream.transport.receiveNonce =
      record :: records.drop (stream.transport.receiveNonce + 1) := by
    rw [drop_eq_getElem_cons hlt, hget]
  obtain ⟨left, hsplit, hbytes, -⟩ := hstep.split
  rw [hdrop] at hbytes
  have hfits : ∀ message ∈ left, Fits codec message := fun message hmsg =>
    hwire.fits message (hsplit ▸ mem_append_right stream.delivered hmsg)
  obtain ⟨messages, later, decoder, hlater, hpush, hrest, hend⟩ :=
    push_spec hfits hwire.unfinished (hwire.record_le record (mem_of_getElem? hrecord)) hbytes
  refine ⟨messages, later, decoder, hpush, ?_, hrest, fun hlast => hend ?_⟩
  · rw [hsplit, hlater, append_assoc]
  · rw [hlast, drop_length, flatten_nil]

variable {stream' : NoiseStream μ} {outcome : Option ExecServerError}

/-- **One ciphertext.** If the next record is what the ciphertext opens to, the receiver stays in
    step or the consumer refuses a message. -/
theorem receiveRecord_inStep
    (hstep : InStep codec cipher written records tail stream) {ciphertext : Bytes}
    (hgenuine : ∀ plaintext,
      cipher.receiveVec stream.transport.receiveNonce ciphertext = .ok plaintext →
      records[stream.transport.receiveNonce]? = some plaintext)
    (hreceive : stream.receiveRecord codec side consumer ciphertext = (stream', outcome)) :
    stream'.delivered <+: written ∧
      (outcome = none → InStep codec cipher written records tail stream' ∧
        stream'.inboundCiphertexts = stream.inboundCiphertexts ∧
        stream'.transport.receiveNonce = stream.transport.receiveNonce + 1) := by
  unfold receiveRecord at hreceive
  cases hdecrypt : stream.transport.decrypt ciphertext with
  | error error =>
    rw [hdecrypt] at hreceive
    obtain ⟨rfl, rfl⟩ := mk.inj hreceive
    exact ⟨hstep.initial, by simp⟩
  | ok opened =>
    obtain ⟨plaintext, transport⟩ := opened
    obtain ⟨hopened, rfl⟩ := decrypt_eq_ok hdecrypt
    rw [hstep.receiving_eq] at hopened
    have hrecord := hgenuine plaintext hopened
    obtain ⟨messages, left, decoder, hpush, hall, hrest, hend⟩ := hstep.push hwire hrecord
    simp only [hdecrypt, hpush] at hreceive
    obtain ⟨queued, refused, hqueued, hstream, hnone⟩ := queueMessages_spec side consumer
        { stream with
          transport := { stream.transport with receiveNonce := stream.transport.receiveNonce + 1 }
          inboundDecoder := decoder } messages
    rw [hreceive] at hstream hnone
    obtain rfl : stream' = _ := hstream
    rw [hqueued, ← append_assoc, append_assoc _ refused] at hall
    refine ⟨⟨refused ++ left, hall.symm⟩, fun houtcome => ?_⟩
    obtain rfl := hnone houtcome
    exact ⟨⟨hstep.receiving_eq, (List.getElem?_eq_some_iff.mp hrecord).1, left, hall, hrest, hend⟩,
      rfl, rfl⟩

/-! ### Whatever the relay does -/

/-- No forgery: a payload that opens under some nonce is what was sent under that nonce. -/
def Unforged (cipher : Cipher) (sent : List RelayData) (payload : Bytes) : Prop :=
  ∀ nonce plaintext, cipher.receiveVec nonce payload = .ok plaintext →
    ∃ data, sent[nonce]? = some data ∧ data.payload = payload

/-- What an unforged payload opens to is the record with the nonce as its number. -/
theorem record_of_unforged
    {payload : Bytes} (hpayload : Unforged cipher frames payload) {nonce : ℕ} {plaintext : Bytes}
    (hopened : cipher.receiveVec nonce payload = .ok plaintext) :
    records[nonce]? = some plaintext := by
  obtain ⟨data, hdata, hsame⟩ := hpayload nonce plaintext hopened
  rw [hwire.frames_eq, getElem?_sealed] at hdata
  obtain ⟨record, hrecord, rfl⟩ := Option.map_eq_some_iff.mp hdata
  obtain rfl : cipher.sendVec nonce record = payload := hsame
  rw [cipher.receiveVec_sendVec] at hopened
  rw [hrecord, Except.ok.inj hopened]

section

variable (hstep : InStep codec cipher written records tail stream)
include hstep

theorem receiveRecords_inStep {ciphertexts : List Bytes}
    (hunforged : ∀ ciphertext ∈ ciphertexts, Unforged cipher frames ciphertext)
    (hreceive : stream.receiveRecords codec side consumer ciphertexts = (stream', outcome)) :
    stream'.delivered <+: written ∧
      (outcome = none → InStep codec cipher written records tail stream' ∧
        stream'.inboundCiphertexts = stream.inboundCiphertexts) := by
  induction ciphertexts generalizing stream with
  | nil =>
    obtain ⟨rfl, rfl⟩ := mk.inj hreceive
    exact ⟨hstep.initial, fun _ => ⟨hstep, rfl⟩⟩
  | cons ciphertext ciphertexts ih =>
    rcases hrecord : stream.receiveRecord codec side consumer ciphertext with ⟨next, error⟩
    obtain ⟨hinitial, hgoes⟩ := receiveRecord_inStep hwire hstep
      (fun plaintext => record_of_unforged hwire (hunforged ciphertext mem_cons_self)) hrecord
    rw [receiveRecords, hrecord] at hreceive
    cases error with
    | some error =>
      obtain ⟨rfl, rfl⟩ := mk.inj hreceive
      exact ⟨hinitial, by simp⟩
    | none =>
      obtain ⟨hnext, hsame, -⟩ := hgoes rfl
      obtain ⟨hdelivered, hlater⟩ := ih hnext
        (fun later hlater => hunforged later (mem_cons_of_mem _ hlater)) hreceive
      exact ⟨hdelivered, fun houtcome => ⟨(hlater houtcome).1, (hlater houtcome).2.trans hsame⟩⟩

section

variable
  (hpend : ∀ payload ∈ stream.inboundCiphertexts.pending.map (·.2), Unforged cipher frames payload)
include hpend

/-- One data frame, forged or not, keeps the receiver in step or ends the stream. -/
theorem receive_inStep {data : RelayData} (hdata : Unforged cipher frames data.payload)
    (hreceive : stream.receive codec side consumer data = (stream', outcome)) :
    stream'.delivered <+: written ∧
      (outcome = none → InStep codec cipher written records tail stream' ∧
        ∀ payload ∈ stream'.inboundCiphertexts.pending.map (·.2),
          Unforged cipher frames payload) := by
  unfold receive at hreceive
  split_ifs at hreceive with hcomplete
  · unfold receiveData at hreceive
    cases hpush : stream.inboundCiphertexts.push data.seq data.payload with
    | error error =>
      rw [hpush] at hreceive
      obtain ⟨rfl, rfl⟩ := mk.inj hreceive
      exact ⟨hstep.initial, by simp⟩
    | ok pushed =>
      obtain ⟨ready, ciphertexts⟩ := pushed
      have hunforged : ∀ payload, payload ∈ ready ∨ payload ∈ ciphertexts.pending.map (·.2) →
          Unforged cipher frames payload := by
        intro payload hpayload
        rcases OrderedCiphertextFrames.mem_of_push_eq_ok hpush hpayload with rfl | hold
        · exact hdata
        · exact hpend payload hold
      simp only [hpush] at hreceive
      have hstep' : InStep codec cipher written records tail
          { stream with inboundCiphertexts := ciphertexts } :=
        ⟨hstep.receiving_eq, hstep.nonce_le, hstep.split⟩
      obtain ⟨hinitial, hgoes⟩ := receiveRecords_inStep hwire hstep'
        (fun payload hpayload => hunforged payload (.inl hpayload)) hreceive
      refine ⟨hinitial, fun houtcome => ⟨(hgoes houtcome).1, fun payload hpayload => ?_⟩⟩
      rw [(hgoes houtcome).2] at hpayload
      exact hunforged payload (.inr hpayload)
  · cases side with
    | harness =>
      obtain ⟨rfl, rfl⟩ := mk.inj hreceive
      exact ⟨hstep.initial, by simp⟩
    | executor =>
      obtain ⟨rfl, rfl⟩ := mk.inj hreceive
      exact ⟨hstep.initial, fun _ => ⟨hstep, hpend⟩⟩

/-- **No reordering, no duplication, no forgery.** Whatever frames the relay delivers, the messages
    that the receiver queues before its stream ends are the first of those written. -/
theorem run_initial {delivered : List RelayData}
    (hunforged : ∀ data ∈ delivered, Unforged cipher frames data.payload) :
    (stream.run codec side consumer delivered).1.delivered <+: written := by
  induction delivered generalizing stream with
  | nil => exact hstep.initial
  | cons data delivered ih =>
    rcases hreceive : stream.receive codec side consumer data with ⟨next, error⟩
    obtain ⟨hinitial, hgoes⟩ := receive_inStep hwire hstep hpend
      (hunforged data mem_cons_self) hreceive
    rw [run, hreceive]
    cases error with
    | some error => exact hinitial
    | none =>
      exact ih (hgoes rfl).1 (hgoes rfl).2
        fun later hlater => hunforged later (mem_cons_of_mem _ hlater)

end

end

end

/-! ### What the queue keeps -/

section Invariant

variable {P : List μ → Prop}
  (hstep : ∀ queued message, P queued → consumer.offer queued.length side = .ok () →
    P (queued ++ [message]))

include hstep

theorem queueMessages_invariant (messages : List μ) (hstream : P stream.delivered) :
    P (stream.queueMessages side consumer messages).1.delivered := by
  induction messages generalizing stream with
  | nil => exact hstream
  | cons message messages ih =>
    unfold queueMessages
    cases hoffer : consumer.offer stream.delivered.length side with
    | error error => exact hstream
    | ok _ => exact ih (hstep _ _ hstream hoffer)

theorem receiveRecord_invariant (codec : JsonCodec μ) (ciphertext : Bytes)
    (hstream : P stream.delivered) :
    P (stream.receiveRecord codec side consumer ciphertext).1.delivered := by
  unfold receiveRecord
  cases stream.transport.decrypt ciphertext with
  | error error => exact hstream
  | ok opened =>
    dsimp only
    cases stream.inboundDecoder.push codec opened.1 with
    | error error => exact hstream
    | ok decoded => exact queueMessages_invariant hstep decoded.1 hstream

theorem receiveRecords_invariant (ciphertexts : List Bytes) (hstream : P stream.delivered) :
    P (stream.receiveRecords codec side consumer ciphertexts).1.delivered := by
  induction ciphertexts generalizing stream with
  | nil => exact hstream
  | cons ciphertext ciphertexts ih =>
    have hnext := receiveRecord_invariant hstep codec ciphertext hstream
    rw [receiveRecords]
    revert hnext
    rcases stream.receiveRecord codec side consumer ciphertext with ⟨next, _ | error⟩
    · exact ih
    · exact id

theorem receive_invariant (codec : JsonCodec μ) (data : RelayData) (hstream : P stream.delivered) :
    P (stream.receive codec side consumer data).1.delivered := by
  unfold receive
  split_ifs
  · unfold receiveData
    cases stream.inboundCiphertexts.push data.seq data.payload with
    | error error => exact hstream
    | ok pushed => exact receiveRecords_invariant hstep pushed.1 hstream
  · cases side <;> exact hstream

/-- What holds of the queued messages, and is kept when a message is accepted, holds at the end of
    a run. -/
theorem run_invariant (delivered : List RelayData) (hstream : P stream.delivered) :
    P (stream.run codec side consumer delivered).1.delivered := by
  induction delivered generalizing stream with
  | nil => exact hstream
  | cons data delivered ih =>
    have hnext := receive_invariant hstep codec data hstream
    rw [run]
    revert hnext
    rcases stream.receive codec side consumer data with ⟨next, _ | error⟩
    · exact ih
    · exact id

end Invariant

end Codex.Relay
