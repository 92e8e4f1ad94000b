import Codex.Relay.Delivery

namespace Codex.Relay

open Codex.Data NoiseStream List RelayData Consumer Option
open OrderedCiphertextFrames

/-!
# When a stream delivers everything

If the relay delivers every frame of the writer and no other, never too far ahead and never too
much at once, the receiver queues every message that was written, as long as its consumer keeps up.

* `InTime` — the deliveries that stay within the limits of the receiver.
* `Consumer.KeepsUp` — the consumer has room for a message when it is offered.
* `receive_inTime` — one frame of such a delivery.
* `run_complete` — the whole delivery.
* `delivered_initial_and_complete` — both ends together.
-/

variable {μ : Type} {codec : JsonCodec μ} {cipher : Cipher} {side : Side} {consumer : Consumer}
  {frames : List RelayData} {written : List μ} {records : List Bytes} {tail : Bytes}

/-! ### The limits -/

/-- The bytes of the frames that have arrived ahead of the next expected number. -/
def waitingBytes (arrived : List RelayData) : ℕ :=
  ∑ data ∈ arrived.toFinset.filter (leastMissing (arrived.map (·.seq)) < ·.seq), data.payload.length

/-- Every genuine frame is delivered at least once and no other one, none of them too far ahead of
    the next expected number, and never with too many bytes waiting. -/
structure InTime (sent delivered : List RelayData) : Prop where
  genuine : ∀ data ∈ delivered, data ∈ sent
  all : ∀ data ∈ sent, data ∈ delivered
  window : ∀ before data after, delivered = before ++ data :: after →
    data.seq ≤ leastMissing (before.map (·.seq)) + maxReorderDistance
  bytes : ∀ before after, delivered = before ++ after → waitingBytes before ≤ maxPendingBytes

/-- The consumer still listens when message `i` is offered, and with the executor it is not a full
    queue behind. -/
def Consumer.KeepsUp (consumer : Consumer) (side : Side) (i : ℕ) : Prop :=
  consumer.listening i ∧ (side = .executor → i < consumer.taken i + channelCapacity)

theorem offer_eq_ok_iff {i : ℕ} : consumer.offer i side = .ok () ↔ consumer.KeepsUp side i := by
  have hchoice : ∀ (room : Bool) (error : ExecServerError),
      (if room then .ok () else .error error : Except ExecServerError Unit) = .ok () ↔
        room := by
    intro room error
    cases room <;> simp
  cases side with
  | harness | executor => rw [offer, hchoice]; simp [KeepsUp]

/-! ### Genuine frames -/

/-- The payload of the frame with number `seq`. -/
def payloadOf (sent : List RelayData) (seq : ℕ) : Bytes := (sent[seq]?.map (·.payload)).getD []

variable {data : RelayData}

theorem mem_sealed : data ∈ sealed cipher records ↔
    ∃ record, records[data.seq]? = some record ∧
      data = .data data.seq (cipher.sendVec data.seq record) := by
  rw [mem_iff_getElem?]
  constructor
  · rintro ⟨i, hi⟩
    rw [getElem?_sealed] at hi
    obtain ⟨record, hrecord, rfl⟩ := map_eq_some_iff.mp hi
    exact ⟨record, hrecord, rfl⟩
  · rintro ⟨record, hrecord, hdata⟩
    refine ⟨data.seq, ?_⟩
    rw [getElem?_sealed, hrecord, map_some, ← hdata]

theorem payloadOf_sealed {seq : ℕ} {record : Bytes} (hrecord : records[seq]? = some record) :
    payloadOf (sealed cipher records) seq = cipher.sendVec seq record := by
  rw [payloadOf, getElem?_sealed, hrecord]
  rfl

theorem payload_eq_of_mem_sealed (hdata : data ∈ sealed cipher records) :
    data.payload = payloadOf (sealed cipher records) data.seq := by
  obtain ⟨record, hrecord, hsame⟩ := mem_sealed.mp hdata
  rw [payloadOf_sealed hrecord]
  exact congrArg payload hsame

theorem complete_of_mem_sealed (hdata : data ∈ sealed cipher records) : data.complete := by
  obtain ⟨record, -, hsame⟩ := mem_sealed.mp hdata
  have hlength := cipher.length_sendVec data.seq record
  have hne : cipher.sendVec data.seq record ≠ [] := by
    intro hempty
    rw [hempty, tagLen] at hlength
    simp at hlength
  rw [hsame]
  simpa [RelayData.complete, RelayData.data] using hne

/-- For genuine frames the bytes that wait can be counted by number. -/
theorem waitingBytes_eq (cipher : Cipher) (records : List Bytes) {arrived : List RelayData}
    (hgenuine : ∀ data ∈ arrived, data ∈ sealed cipher records) :
    waitingBytes arrived =
      ∑ seq ∈ awaited (arrived.map (·.seq)), (payloadOf (sealed cipher records) seq).length := by
  refine Finset.sum_nbij (·.seq) ?_ ?_ ?_ ?_
  · intro data hdata
    obtain ⟨hmem, hahead⟩ := Finset.mem_filter.mp hdata
    exact mem_awaited.mpr ⟨mem_map_of_mem (mem_toFinset.mp hmem), hahead⟩
  · -- A genuine frame is determined by its number.
    intro data hdata other hother hseq
    obtain ⟨record, hrecord, hsame⟩ :=
      mem_sealed.mp (hgenuine data (mem_toFinset.mp (Finset.mem_filter.mp hdata).1))
    obtain ⟨record', hrecord', hsame'⟩ :=
      mem_sealed.mp (hgenuine other (mem_toFinset.mp (Finset.mem_filter.mp hother).1))
    rw [show data.seq = other.seq from hseq, hrecord'] at hrecord
    rw [hsame, hsame', show data.seq = other.seq from hseq, some.inj hrecord]
  · intro seq hseq
    obtain ⟨hmem, hahead⟩ := mem_awaited.mp hseq
    obtain ⟨data, hdata, rfl⟩ := mem_map.mp hmem
    exact ⟨data, Finset.mem_filter.mpr ⟨mem_toFinset.mpr hdata, hahead⟩, rfl⟩
  · intro data hdata
    rw [payload_eq_of_mem_sealed (hgenuine data (mem_toFinset.mp (Finset.mem_filter.mp hdata).1))]

/-! ### One frame in time -/

variable {stream : NoiseStream μ}

section

variable (hwire : OnWire codec cipher frames written records tail)
include hwire

section

variable (hkeeps : ∀ i < written.length, consumer.KeepsUp side i)
include hkeeps

/-- The next record is received while the consumer keeps up. -/
theorem receiveRecord_goes
    (hstep : InStep codec cipher written records tail stream) {record : Bytes}
    (hrecord : records[stream.transport.receiveNonce]? = some record) :
    (stream.receiveRecord codec side consumer
      (cipher.sendVec stream.transport.receiveNonce record)).2 = none := by
  have hlength := hwire.record_le record (mem_of_getElem? hrecord)
  obtain ⟨messages, left, decoder, hpush, hall, -, -⟩ := hstep.push hwire hrecord
  rw [receiveRecord, ← hstep.receiving_eq, decrypt_sendVec hlength]
  simp only [hpush]
  refine queueMessages_goes _ messages fun i hi => offer_eq_ok_iff.mpr (hkeeps i ?_)
  rw [hall, length_append, length_append]
  exact Nat.lt_add_right _ hi

/-- A run of genuine records from the next expected one on. -/
theorem receiveRecords_goes (count : ℕ) (hstep : InStep codec cipher written records tail stream)
    (hcount : stream.transport.receiveNonce + count ≤ records.length) :
    ∃ stream', stream.receiveRecords codec side consumer
        ((range' stream.transport.receiveNonce count).map (payloadOf frames)) =
          (stream', none) ∧
      InStep codec cipher written records tail stream' ∧
      stream'.inboundCiphertexts = stream.inboundCiphertexts ∧
      stream'.transport.receiveNonce = stream.transport.receiveNonce + count := by
  induction count generalizing stream with
  | zero => exact ⟨stream, rfl, hstep, rfl, rfl⟩
  | succ count ih =>
    have hlt : stream.transport.receiveNonce < records.length := by omega
    have hrecord := getElem?_eq_getElem hlt
    have hpayload : payloadOf frames stream.transport.receiveNonce =
        cipher.sendVec stream.transport.receiveNonce records[stream.transport.receiveNonce] := by
      rw [hwire.frames_eq, payloadOf_sealed hrecord]
    rcases hreceive : stream.receiveRecord codec side consumer
      (cipher.sendVec stream.transport.receiveNonce records[stream.transport.receiveNonce])
      with ⟨next, outcome⟩
    have hnone := receiveRecord_goes hwire hkeeps hstep hrecord
    rw [hreceive] at hnone
    obtain rfl : outcome = none := hnone
    have hgenuine : ∀ plaintext, cipher.receiveVec stream.transport.receiveNonce
        (cipher.sendVec stream.transport.receiveNonce records[stream.transport.receiveNonce]) =
          .ok plaintext → records[stream.transport.receiveNonce]? = some plaintext := by
      intro plaintext hopened
      rw [cipher.receiveVec_sendVec] at hopened
      rw [hrecord, Except.ok.inj hopened]
    obtain ⟨hnext, hsame, hnonce⟩ := (receiveRecord_inStep hwire hstep hgenuine hreceive).2 rfl
    obtain ⟨stream', hrun, hstep', hsame', hnonce'⟩ := ih hnext (by omega)
    refine ⟨stream', ?_, hstep', hsame'.trans hsame, by omega⟩
    rw [range'_succ, map_cons, receiveRecords, hpayload, hreceive, ← hnonce]
    exact hrun

/-- **One frame in time.** The receiver has put aside what arrived ahead of its nonce, and a
    genuine frame within the limits takes it to the next missing number. -/
theorem receive_inTime {seqs : List ℕ} (hstep : InStep codec cipher written records tail stream)
    (hholds : Holds (payloadOf frames) seqs stream.inboundCiphertexts)
    (hnonce : stream.transport.receiveNonce = leastMissing seqs) (hdata : data ∈ frames)
    (hwindow : data.seq ≤ leastMissing seqs + maxReorderDistance)
    (hbytes : ∑ seq ∈ awaited (data.seq :: seqs), (payloadOf frames seq).length ≤ maxPendingBytes)
    (hle : leastMissing seqs ≤ leastMissing (data.seq :: seqs))
    (hcount : leastMissing (data.seq :: seqs) ≤ records.length) :
    ∃ stream', stream.receive codec side consumer data = (stream', none) ∧
      InStep codec cipher written records tail stream' ∧
      Holds (payloadOf frames) (data.seq :: seqs) stream'.inboundCiphertexts ∧
      stream'.transport.receiveNonce = leastMissing (data.seq :: seqs) := by
  have hsealed : data ∈ sealed cipher records := hwire.frames_eq ▸ hdata
  have hpayload : data.payload = payloadOf frames data.seq := by
    rw [hwire.frames_eq]
    exact payload_eq_of_mem_sealed hsealed
  obtain ⟨ciphertexts, hpush, hholds'⟩ :=
    push_holds hholds hwindow hbytes (hcount.trans hwire.length_le)
  have hstep' : InStep codec cipher written records tail
      { stream with inboundCiphertexts := ciphertexts } :=
    ⟨hstep.receiving_eq, hstep.nonce_le, hstep.split⟩
  obtain ⟨stream', hrun, hinStep, hsame, hnonce'⟩ :=
    receiveRecords_goes hwire hkeeps (leastMissing (data.seq :: seqs) - leastMissing seqs) hstep'
      (by show stream.transport.receiveNonce + _ ≤ _; omega)
  refine ⟨stream', ?_, hinStep, ?_, ?_⟩
  · unfold receive
    rw [if_pos (complete_of_mem_sealed hsealed), receiveData, hpayload, hpush, ← hnonce]
    rw [← hnonce] at hrun
    exact hrun
  · rw [hsame]
    exact hholds'
  · rw [hnonce']
    show stream.transport.receiveNonce + _ = _
    omega

end

/-! ### A whole delivery in time -/

/-- The frames that have arrived number at most the records there are. -/
theorem leastMissing_le_length
    {arrived : List RelayData} (hgenuine : ∀ data ∈ arrived, data ∈ frames) :
    leastMissing (arrived.map (·.seq)) ≤ records.length := by
  apply leastMissing_le
  intro hmem
  obtain ⟨data, hdata, hseq⟩ := mem_map.mp hmem
  obtain ⟨record, hrecord, -⟩ := mem_sealed.mp (hwire.frames_eq ▸ hgenuine data hdata)
  rw [show data.seq = records.length from hseq] at hrecord
  simp at hrecord

/-- The frames behind `before`, when those of `before` have been received. -/
theorem run_inTime
    (hkeeps : ∀ i < written.length, consumer.KeepsUp side i) {before after : List RelayData}
    (htime : InTime frames (before ++ after))
    (hstep : InStep codec cipher written records tail stream)
    (hholds : Holds (payloadOf frames) (before.map (·.seq)).reverse stream.inboundCiphertexts)
    (hnonce : stream.transport.receiveNonce = leastMissing (before.map (·.seq))) :
    ∃ stream', stream.run codec side consumer after = (stream', none) ∧
      InStep codec cipher written records tail stream' ∧
      stream'.transport.receiveNonce = leastMissing ((before ++ after).map (·.seq)) := by
  induction after generalizing before stream with
  | nil => exact ⟨stream, rfl, hstep, by rwa [append_nil]⟩
  | cons data after ih =>
    have hassoc : before ++ data :: after = (before ++ [data]) ++ after := by simp
    have hseqs : data.seq :: (before.map (·.seq)).reverse =
        ((before ++ [data]).map (·.seq)).reverse := by simp
    have hgenuine : ∀ other ∈ before ++ [data], other ∈ frames := fun other hother =>
      htime.genuine other (hassoc ▸ mem_append_left after hother)
    have hdata : data ∈ frames := hgenuine data (by simp)
    have hbytes : ∑ seq ∈ awaited (data.seq :: (before.map (·.seq)).reverse),
        (payloadOf frames seq).length ≤ maxPendingBytes := by
      rw [hseqs, awaited_reverse]
      have hwaiting := htime.bytes (before ++ [data]) after hassoc
      rw [waitingBytes_eq cipher records
        (fun other hother => hwire.frames_eq ▸ hgenuine other hother)] at hwaiting
      rw [hwire.frames_eq]
      exact hwaiting
    have hcount := leastMissing_le_length hwire hgenuine
    obtain ⟨next, hreceive, hstep', hholds', hnonce'⟩ := receive_inTime hwire hkeeps hstep hholds
      (by rw [hnonce, leastMissing_reverse]) hdata
      (by rw [leastMissing_reverse]; exact htime.window before data after rfl) hbytes
      (leastMissing_le_cons _ _) (by rwa [hseqs, leastMissing_reverse])
    rw [hseqs] at hholds' hnonce'
    rw [leastMissing_reverse] at hnonce'
    obtain ⟨stream', hrun, hfinal⟩ := ih (hassoc ▸ htime) hstep' hholds' hnonce'
    refine ⟨stream', ?_, hassoc ▸ hfinal⟩
    rw [run, hreceive]
    exact hrun

/-- **Everything arrives.** A delivery in time to a consumer that keeps up gives it all messages
    that were written. -/
theorem run_complete
    (hkeeps : ∀ i < written.length, consumer.KeepsUp side i) {delivered : List RelayData}
    (htime : InTime frames delivered) {transport : NoiseTransport}
    (hreceiving : transport.receiving = cipher) (hnonce : transport.receiveNonce = 0) :
    ∃ stream', run codec side consumer { transport } delivered = (stream', none) ∧
      stream'.delivered = written := by
  have hzero : leastMissing ([] : List ℕ) = 0 := leastMissing_eq_iff.mpr ⟨by simp, by simp⟩
  have htime' : InTime frames ([] ++ delivered) := htime
  obtain ⟨stream', hrun, hstep, hfinal⟩ := run_inTime hwire hkeeps htime'
    (inStep_start hwire hreceiving hnonce) holds_nil (hnonce.trans hzero.symm)
  refine ⟨stream', hrun, ?_⟩
  have hall : records.length ≤ leastMissing (delivered.map (·.seq)) := by
    rw [le_leastMissing_iff]
    intro seq hseq
    have hframe : data seq (cipher.sendVec seq records[seq]) ∈ frames := by
      rw [hwire.frames_eq, mem_sealed]
      exact ⟨records[seq], getElem?_eq_getElem hseq, rfl⟩
    exact mem_map_of_mem (htime.all _ hframe)
  have hnone := leastMissing_le_length hwire htime.genuine
  obtain ⟨left, hsplit, -, hend⟩ := hstep.split
  rw [hsplit, hend (hfinal.trans (le_antisymm hnone hall)), append_nil]

end

/-! ### Both ends -/

/-- **A stream over an untrusted relay.** Whatever frames the relay delivers, none of them forged,
    the receiver queues the first of the messages that were sent.  If it delivers every frame of
    the writer in time and the consumer keeps up, the receiver queues all that was written, which
    are all messages if they fit, the connection of the writer holds and the numbers suffice. -/
theorem delivered_initial_and_complete (codec : JsonCodec μ) (cipher back : Cipher)
    (accepts : ℕ → Bool) (messages : List μ) (side : Side) (consumer : Consumer)
    (delivered : List RelayData) :
    let sent := NoiseWriter.writeMessages codec accepts
      { transport := { sending := cipher, receiving := back } } messages
    let received := run codec side consumer
      { transport := { sending := back, receiving := cipher } } delivered
    ((∀ data ∈ delivered, Unforged cipher sent.frames data.payload) →
      received.1.delivered <+: messages) ∧
    (InTime sent.frames delivered → (∀ i < sent.written.length, consumer.KeepsUp side i) →
      received.2 = none ∧ received.1.delivered = sent.written) ∧
    ((∀ i, accepts i) → (∀ message ∈ messages, Fits codec message) →
      (messages.map (recordCount codec)).sum ≤ u32Max → sent.written = messages) := by
  intro sent received
  have hstart : Wrote cipher []
      ({ transport := { sending := cipher, receiving := back } } : NoiseWriter μ) :=
    wrote_start { sending := cipher, receiving := back } rfl
  obtain ⟨records, tail, rest, hwire, hsplit⟩ : ∃ records tail rest,
      OnWire codec cipher sent.frames sent.written records tail ∧
      [] ++ messages = sent.written ++ rest :=
    writeMessages_onWire hstart (onWire_start cipher) messages
  refine ⟨fun hunforged => ?_, fun htime hkeeps => ?_, fun haccepts hfits hcount => ?_⟩
  · have hinitial : received.1.delivered <+: sent.written :=
      run_initial hwire (inStep_start hwire rfl rfl) (by simp) hunforged
    exact hinitial.trans ⟨rest, hsplit.symm⟩
  · obtain ⟨stream', hrun, hall⟩ : ∃ stream', received = (stream', none) ∧
        stream'.delivered = sent.written := run_complete hwire hkeeps htime rfl rfl
    rw [hrun]
    exact ⟨rfl, hall⟩
  · exact written_eq haccepts hstart (onWire_start cipher) hfits (by simpa using hcount)

/-! ### A consumer that falls behind -/

/-- The executor queues no more than its capacity for a consumer that has taken nothing. -/
theorem length_delivered_le (htaken : consumer.taken channelCapacity = 0)
    (delivered : List RelayData) (transport : NoiseTransport) :
    (run codec .executor consumer { transport } delivered).1.delivered.length ≤
      channelCapacity := by
  refine run_invariant (P := fun queued => queued.length ≤ channelCapacity) ?_ delivered
    (Nat.zero_le _)
  intro queued message hle hoffer
  have hroom := (offer_eq_ok_iff.mp hoffer).2 rfl
  have hne : queued.length ≠ channelCapacity := by
    intro hfull
    rw [hfull] at hroom
    omega
  rw [length_append, length_singleton]
  omega

theorem map_seq_sealed : (sealed cipher records).map (·.seq) = range records.length := by
  refine ext_getElem? fun i => ?_
  rw [getElem?_map, getElem?_sealed]
  by_cases hi : i < records.length
  · rw [getElem?_eq_getElem hi, getElem?_range hi]
    rfl
  · rw [getElem?_eq_none (not_lt.mp hi), getElem?_eq_none (by simpa using hi)]
    rfl

/-- The first frames of a writer carry the first numbers. -/
theorem map_seq_of_append {before after : List RelayData}
    (hsplit : sealed cipher records = before ++ after) :
    before.map (·.seq) = range before.length := by
  have hseqs := congrArg (map (·.seq)) hsplit
  have hlength := congrArg length hsplit
  rw [map_seq_sealed, map_append] at hseqs
  have htake := congrArg (take before.length) hseqs
  rw [take_left' (length_map _), take_range] at htake
  rw [← htake]
  simp only [sealed, length_mapIdx, length_append] at hlength
  congr 1
  omega

/-- The frames of a writer in the order in which they were sent are a delivery in time. -/
theorem inTime_self : InTime (sealed cipher records) (sealed cipher records) where
  genuine _ hdata := hdata
  all _ hdata := hdata
  window before data after hsplit := by
    have hbefore := map_seq_of_append hsplit
    have hdata := map_seq_of_append
      (show sealed cipher records = (before ++ [data]) ++ after by rw [hsplit]; simp)
    rw [map_append, hbefore, length_append, length_singleton, range_succ]
      at hdata
    have hseq : data.seq = before.length := by simpa using hdata
    rw [hbefore, leastMissing_range, hseq]
    exact Nat.le_add_right _ _
  bytes before after hsplit := by
    have hbefore := map_seq_of_append hsplit
    have hnone : before.toFinset.filter (leastMissing (before.map (·.seq)) < ·.seq) = ∅ := by
      refine Finset.filter_eq_empty_iff.mpr fun data hdata => ?_
      have hseq : data.seq ∈ before.map (·.seq) := mem_map_of_mem (mem_toFinset.mp hdata)
      rw [hbefore] at hseq ⊢
      rw [leastMissing_range]
      exact not_lt.mpr (mem_range.mp hseq).le
    rw [waitingBytes, hnone]
    exact Nat.zero_le _

/-! ### Samples -/

/-- A codec with two messages of one byte. -/
def flagCodec : JsonCodec Bool where
  toWriter flag := [if flag then 116 else 102]
  fromSlice bytes :=
    if bytes = [116] then .ok true else if bytes = [102] then .ok false else .error []
  toWriter_ne_nil := by decide
  fromSlice_toWriter := by decide

theorem flagCodec_fits (flag : Bool) : Fits flagCodec flag := by
  show 1 ≤ maxNoiseJsonrpcMessageLen
  decide

/-- A tag that shows the nonce, as long as it is a 32-bit number. -/
def nonceTag (nonce : ℕ) : Bytes :=
  if nonce < 2 ^ 32 then 0 :: replicate 11 0 ++ toBeBytes nonce
  else 1 :: replicate 15 0

@[simp] theorem length_nonceTag (nonce : ℕ) : (nonceTag nonce).length = tagLen := by
  rw [nonceTag]
  split_ifs <;> rfl

theorem nonceTag_inj {nonce nonce' : ℕ} (hnonce : nonce < 2 ^ 32)
    (htag : nonceTag nonce' = nonceTag nonce) : nonce' = nonce := by
  by_cases hnonce' : nonce' < 2 ^ 32
  · rw [nonceTag, nonceTag, if_pos hnonce, if_pos hnonce'] at htag
    have hbytes := congrArg fromBeBytes (append_cancel_left htag)
    rwa [fromBeBytes_toBeBytes hnonce, fromBeBytes_toBeBytes hnonce'] at hbytes
  · rw [nonceTag, nonceTag, if_pos hnonce, if_neg hnonce'] at htag
    exact absurd (cons.inj htag).1 (by decide)

/-- A cipher that only binds a record to its nonce. -/
def tagCipher : Cipher where
  sendVec nonce plaintext := plaintext ++ nonceTag nonce
  receiveVec nonce ciphertext :=
    if ciphertext.drop (ciphertext.length - tagLen) = nonceTag nonce then
      .ok (ciphertext.take (ciphertext.length - tagLen))
    else .error []
  length_sendVec nonce plaintext := by simp
  receiveVec_sendVec nonce plaintext := by simp

/-- The frames of a writer with this cipher are not forgeries. -/
theorem unforged_tagCipher (hlength : records.length ≤ u32Max)
    (hdata : data ∈ sealed tagCipher records) :
    Unforged tagCipher (sealed tagCipher records) data.payload := by
  obtain ⟨record, hrecord, hsame⟩ := mem_sealed.mp hdata
  intro nonce plaintext hopened
  have hpayload : data.payload = record ++ nonceTag data.seq := congrArg payload hsame
  have hseq : data.seq < 2 ^ 32 := by
    have hlt := (List.getElem?_eq_some_iff.mp hrecord).1
    rw [u32Max] at hlength
    omega
  have htag : nonceTag data.seq = nonceTag nonce := by
    rw [hpayload] at hopened
    by_contra hne
    simp [tagCipher, hne] at hopened
  obtain rfl := nonceTag_inj hseq htag.symm
  refine ⟨data, ?_, rfl⟩
  rw [getElem?_sealed, hrecord, map_some, ← hsame]

/-- A consumer that listens and takes every message at once, and one that takes nothing. -/
def promptConsumer : Consumer := { taken := id, listening := fun _ => true }
def idleConsumer : Consumer := { taken := fun _ => 0, listening := fun _ => true }

variable (messages : List Bool)

/-- A writer with these that has been given some messages. -/
def sampleSent : NoiseWriter Bool := NoiseWriter.writeMessages flagCodec (fun _ => true)
    { transport := { sending := tagCipher, receiving := tagCipher } } messages

/-- The receiver at the other end. -/
def sampleReceived (side : Side) (consumer : Consumer) (delivered : List RelayData) :
    NoiseStream Bool × Option ExecServerError := run flagCodec side consumer
    { transport := { sending := tagCipher, receiving := tagCipher } } delivered

theorem sampleSent_frames :
    ∃ records, (sampleSent messages).frames = sealed tagCipher records ∧
      records.length ≤ u32Max := by
  obtain ⟨records, tail, rest, hwire, -⟩ : ∃ records tail rest,
      OnWire flagCodec tagCipher (sampleSent messages).frames (sampleSent messages).written
        records tail ∧
      [] ++ messages = (sampleSent messages).written ++ rest :=
    writeMessages_onWire (wrote_start { sending := tagCipher, receiving := tagCipher } rfl)
      (onWire_start tagCipher) messages
  exact ⟨records, hwire.frames_eq, hwire.length_le⟩

theorem sampleSent_inTime : InTime (sampleSent messages).frames (sampleSent messages).frames := by
  obtain ⟨records, hframes, -⟩ := sampleSent_frames messages
  rw [hframes]
  exact inTime_self

theorem sampleSent_unforged : ∀ data ∈ (sampleSent messages).frames,
      Unforged tagCipher (sampleSent messages).frames data.payload := by
  obtain ⟨records, hframes, hlength⟩ := sampleSent_frames messages
  rw [hframes]
  exact fun data => unforged_tagCipher hlength

theorem sum_recordCount_le : (messages.map (recordCount flagCodec)).sum ≤ 5 * messages.length := by
  induction messages with
  | nil => rfl
  | cons flag messages ih =>
    have hcount : recordCount flagCodec flag ≤ 5 := length_chunks_le _ _
    rw [map_cons, sum_cons, length_cons]
    omega

theorem sampleSent_written {messages : List Bool} (hcount : messages.length ≤ 1000) :
    (sampleSent messages).written = messages := by
  have hsum : 5 * 1000 ≤ u32Max := by decide
  have hrecords := sum_recordCount_le messages
  exact written_eq (fun _ => rfl) (wrote_start { sending := tagCipher, receiving := tagCipher } rfl)
    (onWire_start tagCipher) (fun flag _ => flagCodec_fits flag)
    (by rw [length_nil]; omega)

theorem sampleReceived_of_two :
    (sampleReceived .harness idleConsumer (sampleSent [true, false]).frames.reverse).1.delivered <+:
        [true, false] ∧ (sampleReceived .executor promptConsumer
        (sampleSent [true, false]).frames).1.delivered = [true, false] := by
  have hwritten : (sampleSent [true, false]).written = [true, false] :=
    sampleSent_written (by decide)
  refine ⟨(delivered_initial_and_complete flagCodec tagCipher tagCipher (fun _ => true)
    [true, false] .harness idleConsumer (sampleSent [true, false]).frames.reverse).1 ?_, ?_⟩
  · intro data hdata
    exact sampleSent_unforged [true, false] data (mem_reverse.mp hdata)
  · refine ((delivered_initial_and_complete flagCodec tagCipher tagCipher (fun _ => true)
      [true, false] .executor promptConsumer (sampleSent [true, false]).frames).2.1
      (sampleSent_inTime [true, false]) ?_).2.trans hwritten
    exact fun i _ => ⟨rfl, fun _ => Nat.lt_add_of_pos_right (by decide)⟩

/-- The executor does not wait for its consumer: of 129 messages that are all delivered in time,
    one is lost when the consumer has not taken any. -/
theorem executor_overflow_loses_message :
    (sampleSent (replicate 129 true)).written = replicate 129 true ∧
      InTime (sampleSent (replicate 129 true)).frames
        (sampleSent (replicate 129 true)).frames ∧
      (∀ i, idleConsumer.listening i) ∧ (sampleReceived .executor idleConsumer
        (sampleSent (replicate 129 true)).frames).1.delivered ≠ replicate 129 true := by
  refine ⟨sampleSent_written (by simp), sampleSent_inTime _, fun _ => rfl, fun hall => ?_⟩
  have hlength : (sampleReceived .executor idleConsumer
      (sampleSent (replicate 129 true)).frames).1.delivered.length ≤ channelCapacity :=
    length_delivered_le rfl _ _
  have hdelivered := congrArg length hall
  rw [length_replicate] at hdelivered
  have hcapacity : channelCapacity < 129 := by decide
  exact absurd (hdelivered ▸ hlength) (not_le.mpr hcapacity)

end Codex.Relay
