import Codex.Relay.NoiseStream

namespace Codex.Relay

open Codex.Data NoiseWriter List

/-!
# What the sending end of a stream puts on the relay

* `sealed` — the frames of a list of records: record `i` carries number `i` and nonce `i`.
* `OnWire` — frames that carry the wire of some messages, and possibly a part of one more.
* `writeMessages_onWire` — the writer sends the frames of the wire of the messages it has written,
  which are the first of those it was given.
* `written_eq` — it writes them all if they fit, the connection holds and the numbers suffice.
-/

variable {μ : Type} {codec : JsonCodec μ}

/-! ### Records -/

variable (cipher : Cipher) (records : List Bytes)

/-- The frames of a list of records: record `i` carries number `i` and nonce `i`. -/
def sealed : List RelayData := records.mapIdx fun i record => .data i (cipher.sendVec i record)

@[simp] theorem sealed_nil : sealed cipher [] = [] := rfl

theorem sealed_concat (record : Bytes) :
    sealed cipher (records ++ [record]) =
      sealed cipher records ++ [.data records.length (cipher.sendVec records.length record)] := by
  simp [sealed]

theorem getElem?_sealed (i : ℕ) :
    (sealed cipher records)[i]? =
      records[i]?.map fun record => .data i (cipher.sendVec i record) := by
  simp [sealed]

/-- The writer has sent `records` and can go on. -/
structure Wrote (cipher : Cipher) (records : List Bytes) (writer : NoiseWriter μ) : Prop where
  frames_eq : writer.frames = sealed cipher records
  sending_eq : writer.transport.sending = cipher
  nonce_eq : writer.transport.sendNonce = records.length
  nextSeq_eq : writer.nextSeq = records.length
  length_le : records.length ≤ u32Max

variable {cipher : Cipher} {records : List Bytes} {writer : NoiseWriter μ}

/-- One more record. -/
theorem Wrote.concat (hwrote : Wrote cipher records writer) (hnext : writer.nextSeq < u32Max)
    (record : Bytes) :
    Wrote cipher (records ++ [record]) { writer with
        transport := { writer.transport with sendNonce := writer.transport.sendNonce + 1 }
        nextSeq := writer.nextSeq + 1
        frames := writer.frames ++ [.data writer.nextSeq
          (writer.transport.sending.sendVec writer.transport.sendNonce record)] } where
  frames_eq := by
    rw [sealed_concat, ← hwrote.frames_eq, hwrote.sending_eq, hwrote.nonce_eq, hwrote.nextSeq_eq]
  sending_eq := hwrote.sending_eq
  nonce_eq := by simp [hwrote.nonce_eq]
  nextSeq_eq := by simp [hwrote.nextSeq_eq]
  length_le := by
    rw [hwrote.nextSeq_eq] at hnext
    simpa using hnext

theorem encrypt_eq_ok {transport : NoiseTransport} {record : Bytes}
    (hrecord : record.length ≤ noiseRecordPlaintextLen) :
    transport.encrypt record = .ok (transport.sending.sendVec transport.sendNonce record,
      { transport with sendNonce := transport.sendNonce + 1 }) := by
  have hlen : ¬ record.length + tagLen > maxMessageLen := by
    have : noiseRecordPlaintextLen + tagLen ≤ maxMessageLen := by decide
    omega
  simp only [NoiseTransport.encrypt, ensureNoiseFrameLen, if_neg hlen]
  rfl

/-- A writer that had sent `records` and was given `pieces` has sent the first of them, and all of
    them if it goes on. -/
def SentFirst (cipher : Cipher) (records pieces : List Bytes) (writer : NoiseWriter μ)
    (result : NoiseWriter μ × Bool) : Prop :=
  ∃ done rest, pieces = done ++ rest ∧ result.1.frames = sealed cipher (records ++ done) ∧
    (records ++ done).length ≤ u32Max ∧ result.1.written = writer.written ∧
    (result.2 → rest = [] ∧ Wrote cipher (records ++ done) result.1) ∧
    (result.2 = false → rest ≠ [])

variable {pieces : List Bytes} {writer' : NoiseWriter μ}

theorem sentFirst_stop {piece : Bytes}
    (hwrote : Wrote cipher records writer) (hframes : writer'.frames = writer.frames)
    (hwritten : writer'.written = writer.written) :
    SentFirst cipher records (piece :: pieces) writer (writer', false) := by
  refine ⟨[], piece :: pieces, rfl, ?_, ?_, hwritten, by simp, by simp⟩
  · rw [hframes, hwrote.frames_eq, append_nil]
  · simpa using hwrote.length_le

theorem writeRecords_sentFirst (accepts : ℕ → Bool) (hwrote : Wrote cipher records writer)
    (hpieces : ∀ piece ∈ pieces, piece.length ≤ noiseRecordPlaintextLen) :
    SentFirst cipher records pieces writer (writer.writeRecords accepts pieces) := by
  induction pieces generalizing records writer with
  | nil =>
    have hsame : records ++ [] = records := append_nil records
    refine ⟨[], [], rfl, ?_, ?_, rfl, ?_, by simp [writeRecords]⟩
    · rw [hsame]; exact hwrote.frames_eq
    · rw [hsame]; exact hwrote.length_le
    · rw [hsame]; exact fun _ => ⟨rfl, hwrote⟩
  | cons piece pieces ih =>
    have hpiece := hpieces piece mem_cons_self
    unfold writeRecords
    rw [takeNextSequence]
    split_ifs with hnext
    · rw [encrypt_eq_ok hpiece]
      simp only
      split_ifs with haccepts
      · have hsent := hwrote.concat hnext piece
        obtain ⟨done, rest, hsplit, hframes, hlength, hwritten, hgoes, hstops⟩ :=
          ih hsent fun later hlater => hpieces later (mem_cons_of_mem _ hlater)
        rw [append_assoc] at hframes hlength hgoes
        exact ⟨piece :: done, rest, by rw [hsplit, cons_append], hframes, hlength, hwritten,
          hgoes, hstops⟩
      · exact sentFirst_stop hwrote rfl rfl
    · exact sentFirst_stop hwrote rfl rfl

/-! ### Messages -/

/-- The frames that have left a writer carry the wire of the messages it has written, cut into
    records, and then possibly a part of the message at which it stopped. -/
structure OnWire (codec : JsonCodec μ) (cipher : Cipher) (frames : List RelayData)
    (written : List μ) (records : List Bytes) (tail : Bytes) : Prop where
  frames_eq : frames = sealed cipher records
  flatten_eq : records.flatten = wire codec written ++ tail
  unfinished : Unfinished codec tail
  fits : ∀ message ∈ written, Fits codec message
  record_le : ∀ record ∈ records, record.length ≤ noiseRecordPlaintextLen
  length_le : records.length ≤ u32Max

/-- How many records a message takes. -/
def recordCount (codec : JsonCodec μ) (message : μ) : ℕ :=
  (chunks noiseRecordPlaintextLen (wire codec [message])).length

variable {accepts : ℕ → Bool}

/-- One message: the writer goes on with the message on the wire, or stops inside it. -/
theorem writeMessage_onWire (hwrote : Wrote cipher records writer)
    (hwire : OnWire codec cipher writer.frames writer.written records []) {message : μ}
    {flag : Bool} (hmsg : writer.writeMessage codec accepts message = (writer', flag)) :
    ∃ records' tail, OnWire codec cipher writer'.frames writer'.written records' tail ∧
      (flag → tail = [] ∧ Wrote cipher records' writer' ∧
        records'.length = records.length + recordCount codec message ∧
        writer'.written = writer.written ++ [message]) ∧
      (flag = false → writer'.written = writer.written) := by
  rw [writeMessage] at hmsg
  cases hframe : frameJsonrpcMessage codec message with
  | error error =>
    rw [hframe] at hmsg
    obtain ⟨rfl, rfl⟩ := Prod.mk.inj hmsg
    exact ⟨records, [], hwire, by simp, fun _ => rfl⟩
  | ok framed =>
    obtain ⟨hfits, rfl⟩ := frameJsonrpcMessage_eq_ok.mp hframe
    rw [hframe] at hmsg
    have hpieces : ∀ piece ∈ chunks noiseRecordPlaintextLen (wire codec [message]),
        piece.length ≤ noiseRecordPlaintextLen :=
      fun piece => length_le_of_mem_chunks (by decide)
    obtain ⟨done, rest, hsplit, hframes, hlength, hwritten, hgoes, hstops⟩ :=
      writeRecords_sentFirst accepts hwrote hpieces
    have hcut : done.flatten ++ rest.flatten = wire codec [message] := by
      rw [← flatten_append, ← hsplit, flatten_chunks]
    have hrecords := forall_mem_append.mpr ⟨hwire.record_le,
      fun record hnew => hpieces record (hsplit ▸ mem_append_left rest hnew)⟩
    have hbytes : (records ++ done).flatten = wire codec writer.written ++ done.flatten := by
      rw [flatten_append, hwire.flatten_eq, append_nil]
    rcases hresult : writer.writeRecords accepts
      (chunks noiseRecordPlaintextLen (wire codec [message])) with ⟨sent, goes⟩
    rw [hresult] at hframes hwritten hgoes hstops
    simp only [hresult] at hmsg
    cases goes with
    | true =>
      obtain ⟨rfl, rfl⟩ := Prod.mk.inj hmsg
      obtain ⟨rfl, hwrote'⟩ := hgoes rfl
      rw [flatten_nil, append_nil] at hcut
      refine ⟨records ++ done, [], ⟨hframes, ?_, unfinished_nil, ?_, hrecords, hlength⟩,
        fun _ => ⟨rfl, ⟨hwrote'.1, hwrote'.2, hwrote'.3, hwrote'.4, hwrote'.5⟩, ?_, ?_⟩, by simp⟩
      · rw [hbytes, hcut, append_nil, ← wire_append, ← hwritten]
      · intro other hother
        rcases mem_append.mp hother with hold | hnew
        · exact hwire.fits other (hwritten ▸ hold)
        · rwa [mem_singleton.mp hnew]
      · rw [length_append, recordCount, hsplit, append_nil]
      · exact congrArg (· ++ [message]) hwritten
    | false =>
      obtain ⟨rfl, rfl⟩ := Prod.mk.inj hmsg
      have hne : rest.flatten ≠ [] := by
        obtain ⟨piece, rest, rfl⟩ := exists_cons_of_ne_nil (hstops rfl)
        have hpiece : piece ≠ [] := ne_nil_of_mem_chunks
          (hsplit ▸ mem_append_right done mem_cons_self)
        simp [hpiece]
      refine ⟨records ++ done, done.flatten, ⟨hframes, ?_,
        .inr ⟨message, rest.flatten, hfits, hcut, hne⟩, ?_, hrecords, hlength⟩, by simp,
        fun _ => hwritten⟩
      · rw [hbytes, ← hwritten]
      · intro other hother
        exact hwire.fits other (hwritten ▸ hother)

/-- **The sending end.** The frames of the writer carry the wire of the messages it has written,
    which are the first of those it was given. -/
theorem writeMessages_onWire (hwrote : Wrote cipher records writer)
    (hwire : OnWire codec cipher writer.frames writer.written records []) (messages : List μ) :
    ∃ records' tail rest, OnWire codec cipher (writer.writeMessages codec accepts messages).frames
        (writer.writeMessages codec accepts messages).written records' tail ∧
      writer.written ++ messages =
        (writer.writeMessages codec accepts messages).written ++ rest := by
  induction messages generalizing writer records with
  | nil => exact ⟨records, [], [], hwire, rfl⟩
  | cons message messages ih =>
    rcases hmsg : writer.writeMessage codec accepts message with ⟨writer', flag⟩
    obtain ⟨records', tail, hwire', hgoes, hstops⟩ := writeMessage_onWire hwrote hwire hmsg
    rw [writeMessages, hmsg]
    cases flag with
    | true =>
      obtain ⟨rfl, hwrote', -, hwritten⟩ := hgoes rfl
      obtain ⟨records'', tail, rest, hlater, hall⟩ := ih hwrote' hwire'
      refine ⟨records'', tail, rest, hlater, ?_⟩
      rw [← hall, hwritten, append_assoc, singleton_append]
    | false =>
      exact ⟨records', tail, message :: messages, hwire', by rw [hstops rfl]⟩

/-! ### Everything is written -/

section

variable (haccepts : ∀ i, accepts i) (hwrote : Wrote cipher records writer)
include haccepts hwrote

/-- The writer does not stop at a record while the connection holds and numbers are left. -/
theorem writeRecords_goes (hpieces : ∀ piece ∈ pieces, piece.length ≤ noiseRecordPlaintextLen)
    (hcount : records.length + pieces.length ≤ u32Max) :
    (writer.writeRecords accepts pieces).2 := by
  induction pieces generalizing records writer with
  | nil => rfl
  | cons piece pieces ih =>
    rw [length_cons] at hcount
    have hnext : writer.nextSeq < u32Max := by
      rw [hwrote.nextSeq_eq]
      omega
    unfold writeRecords
    rw [takeNextSequence, if_pos hnext, encrypt_eq_ok (hpieces piece mem_cons_self)]
    simp only [haccepts]
    exact ih (hwrote.concat hnext piece)
      (fun later hlater => hpieces later (mem_cons_of_mem _ hlater))
      (by rw [length_append, length_singleton]; omega)

/-- The writer does not stop at a message that fits while the connection holds and numbers are
    left. -/
theorem writeMessage_goes {message : μ} (hfits : Fits codec message)
    (hcount : records.length + recordCount codec message ≤ u32Max) :
    (writer.writeMessage codec accepts message).2 := by
  have hgoes := writeRecords_goes haccepts hwrote
    (fun piece => length_le_of_mem_chunks (by decide)) hcount
  rw [writeMessage, frameJsonrpcMessage_eq_ok.mpr ⟨hfits, rfl⟩]
  rcases hresult : writer.writeRecords accepts
    (chunks noiseRecordPlaintextLen (wire codec [message])) with ⟨sent, goes⟩
  rw [hresult] at hgoes
  obtain rfl : goes := hgoes
  simp only [hresult]

/-- Messages that fit are all written while the connection holds and numbers are left. -/
theorem written_eq (hwire : OnWire codec cipher writer.frames writer.written records [])
    {messages : List μ} (hfits : ∀ message ∈ messages, Fits codec message)
    (hcount : records.length + (messages.map (recordCount codec)).sum ≤ u32Max) :
    (writer.writeMessages codec accepts messages).written = writer.written ++ messages := by
  induction messages generalizing writer records with
  | nil => exact (append_nil _).symm
  | cons message messages ih =>
    rw [map_cons, sum_cons] at hcount
    have hgoes := writeMessage_goes haccepts hwrote (hfits message mem_cons_self) (by omega)
    rcases hmsg : writer.writeMessage codec accepts message with ⟨writer', flag⟩
    rw [hmsg] at hgoes
    obtain rfl : flag := hgoes
    obtain ⟨records', tail, hwire', hnext, -⟩ := writeMessage_onWire hwrote hwire hmsg
    obtain ⟨rfl, hwrote', hlength, hwritten⟩ := hnext rfl
    rw [writeMessages, hmsg]
    rw [ih hwrote' hwire' (fun later hlater => hfits later (mem_cons_of_mem _ hlater))
      (by omega), hwritten, append_assoc, singleton_append]

/-! ### From the start -/

end

theorem wrote_start (transport : NoiseTransport) (hnonce : transport.sendNonce = 0) :
    Wrote transport.sending [] ({ transport } : NoiseWriter μ) where
  frames_eq := rfl
  sending_eq := rfl
  nonce_eq := hnonce
  nextSeq_eq := rfl
  length_le := Nat.zero_le _

theorem onWire_start (cipher : Cipher) : OnWire codec cipher [] [] [] [] where
  frames_eq := rfl
  flatten_eq := rfl
  unfinished := unfinished_nil
  fits := by simp
  record_le := by simp
  length_le := Nat.zero_le _

end Codex.Relay
