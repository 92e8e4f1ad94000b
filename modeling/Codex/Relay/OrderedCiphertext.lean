import Codex.Relay.MessageFraming

namespace Codex.Relay

open Codex.Data List

/-!
# Putting the ciphertexts of a stream in order

The relay may deliver the records of a stream in any order and any number of times.  The receiver
releases them in the order of their numbers, keeps the first copy of each, and holds back at most
`maxPendingBytes` bytes of records that are at most `maxReorderDistance` ahead.

* `OrderedCiphertextFrames.push` — one record from the relay, giving the run it completes.
* `mem_of_push_eq_ok` — what is released or held back came from the relay.
* `push_holds` — on genuine records within the limits, `push` releases the records from the first
  missing number up to the next one, each exactly once.
-/

def maxReorderDistance : ℕ := 64
def maxPendingBytes : ℕ := 1024 * 1024

/-- The largest 32-bit number. -/
def u32Max : ℕ := 2 ^ 32 - 1

/-- The records of one stream that wait for an earlier one. -/
structure OrderedCiphertextFrames where
  nextSeq : ℕ := 0
  pending : List (ℕ × Bytes) := []
  pendingBytes : ℕ := 0

namespace OrderedCiphertextFrames

/-- The number behind `nextSeq`; numbers never wrap around. -/
def advance (nextSeq : ℕ) : Except ExecServerError ℕ :=
  if nextSeq < u32Max then .ok (nextSeq + 1)
  else .error (.protocol "Noise relay sequence number exhausted")

variable {pending : List (ℕ × Bytes)}

theorem mem_of_lookup {seq : ℕ} {payload : Bytes} (h : pending.lookup seq = some payload) :
    (seq, payload) ∈ pending := by
  obtain ⟨front, back, hpend, -⟩ := lookup_eq_some_iff.mp h
  simp [hpend]

/-- The pending records but for the one with number `seq`. -/
def without (pending : List (ℕ × Bytes)) (seq : ℕ) : List (ℕ × Bytes) := pending.filter (·.1 != seq)

theorem mem_without {seq : ℕ} {entry : ℕ × Bytes} :
    entry ∈ without pending seq ↔ entry ∈ pending ∧ entry.1 ≠ seq := by
  simp [without]

theorem length_without_lt {seq : ℕ} {payload : Bytes} (h : pending.lookup seq = some payload) :
    (without pending seq).length < pending.length :=
  length_filter_lt_length_iff_exists.mpr ⟨(seq, payload), mem_of_lookup h, by simp⟩

/-- Take out the pending records that now follow without a gap. -/
def release (frames : OrderedCiphertextFrames) :
    Except ExecServerError (List Bytes × OrderedCiphertextFrames) :=
  match _h : frames.pending.lookup frames.nextSeq with
  | none => .ok ([], frames)
  | some payload => do
    let nextSeq ← advance frames.nextSeq
    let (ready, frames) ← release
      { nextSeq
        pending := without frames.pending frames.nextSeq
        pendingBytes := frames.pendingBytes - payload.length }
    return (payload :: ready, frames)
  termination_by frames.pending.length
  decreasing_by
    exact length_without_lt _h

/-- Accept one record and return the ciphertexts that it completes to a run without a gap. -/
def push (frames : OrderedCiphertextFrames) (seq : ℕ) (payload : Bytes) :
    Except ExecServerError (List Bytes × OrderedCiphertextFrames) :=
  -- The first ciphertext for a number is kept; later copies are duplicates.
  if seq < frames.nextSeq || frames.pending.any (·.1 == seq) then .ok ([], frames)
  else if seq > frames.nextSeq then
    if seq - frames.nextSeq > maxReorderDistance then
      .error (.protocol "Noise relay ciphertext exceeds reorder window")
    else if frames.pendingBytes + payload.length > maxPendingBytes then
      .error (.protocol "Noise relay pending ciphertext buffer is full")
    else
      .ok ([], { frames with
        pending := (seq, payload) :: frames.pending
        pendingBytes := frames.pendingBytes + payload.length })
  else do
    let nextSeq ← advance frames.nextSeq
    let (ready, frames) ← release { frames with nextSeq }
    return (payload :: ready, frames)

/-! ### What is released came from the relay -/

theorem mem_of_release_eq_ok {frames frames' : OrderedCiphertextFrames} {ready : List Bytes}
    (h : release frames = .ok (ready, frames')) {payload : Bytes}
    (hpayload : payload ∈ ready ∨ payload ∈ frames'.pending.map (·.2)) :
    payload ∈ frames.pending.map (·.2) := by
  induction hlength : frames.pending.length using Nat.strong_induction_on
    generalizing frames ready with
  | h n ih =>
    rw [release] at h
    split at h
    · obtain ⟨rfl, rfl⟩ := Prod.mk.inj (Except.ok.inj h)
      simpa using hpayload
    · next first hlookup =>
      have hfirst := mem_of_lookup hlookup
      obtain ⟨next, -, h⟩ := bind_eq_ok.mp h
      obtain ⟨⟨later, frames''⟩, hrelease, hready⟩ := bind_eq_ok.mp h
      obtain ⟨rfl, rfl⟩ := Prod.mk.inj (Except.ok.inj hready)
      have hsmaller : (without frames.pending frames.nextSeq).length < n := by
        rw [← hlength]
        exact length_without_lt hlookup
      have hrest : payload ∈ later ∨ payload ∈ frames''.pending.map (·.2) →
          payload ∈ frames.pending.map (·.2) := by
        intro hpayload
        obtain ⟨entry, hentry, rfl⟩ := mem_map.mp (ih _ hsmaller hrelease hpayload rfl)
        exact mem_map_of_mem (mem_without.mp hentry).1
      rcases hpayload with hready | hpend
      · rcases mem_cons.mp hready with rfl | hlater
        · exact mem_map_of_mem hfirst
        · exact hrest (.inl hlater)
      · exact hrest (.inr hpend)

/-- Every ciphertext that is released or held back was held back before or has just come. -/
theorem mem_of_push_eq_ok {frames frames' : OrderedCiphertextFrames} {seq : ℕ}
    {payload other : Bytes} {ready : List Bytes}
    (h : push frames seq payload = .ok (ready, frames'))
    (hother : other ∈ ready ∨ other ∈ frames'.pending.map (·.2)) :
    other = payload ∨ other ∈ frames.pending.map (·.2) := by
  rw [push] at h
  split_ifs at h with hduplicate hahead
  · obtain ⟨rfl, rfl⟩ := Prod.mk.inj (Except.ok.inj h)
    simpa using Or.inr hother
  · obtain ⟨rfl, rfl⟩ := Prod.mk.inj (Except.ok.inj h)
    simpa using hother
  · obtain ⟨next, -, h⟩ := bind_eq_ok.mp h
    obtain ⟨⟨later, frames''⟩, hrelease, hready⟩ := bind_eq_ok.mp h
    obtain ⟨rfl, rfl⟩ := Prod.mk.inj (Except.ok.inj hready)
    rcases hother with hmem | hpend
    · rcases mem_cons.mp hmem with rfl | hlater
      · exact .inl rfl
      · exact .inr (mem_of_release_eq_ok hrelease (.inl hlater))
    · exact .inr (mem_of_release_eq_ok hrelease (.inr hpend))

/-! ### Genuine records -/

/-- The numbers among `seqs` that are not below `next`. -/
def notBelow (seqs : List ℕ) (next : ℕ) : Finset ℕ := seqs.toFinset.filter (next ≤ ·)

@[simp] theorem mem_notBelow {seqs : List ℕ} {next seq : ℕ} :
    seq ∈ notBelow seqs next ↔ seq ∈ seqs ∧ next ≤ seq := by
  simp [notBelow]

theorem notBelow_leastMissing (seqs : List ℕ) :
    notBelow seqs (leastMissing seqs) = awaited seqs := by
  ext seq
  rw [mem_notBelow, mem_awaited]
  refine and_congr_right fun hseq => ⟨fun hle => lt_of_le_of_ne hle ?_, le_of_lt⟩
  rintro rfl
  exact leastMissing_notMem seqs hseq

/-- After the records `seqs` have arrived, those from `nextSeq` on are pending, where `genuine`
    gives the ciphertext of every number. -/
structure Waiting (genuine : ℕ → Bytes) (seqs : List ℕ) (frames : OrderedCiphertextFrames) :
    Prop where
  mem_iff : ∀ seq payload, (seq, payload) ∈ frames.pending ↔
    seq ∈ notBelow seqs frames.nextSeq ∧ payload = genuine seq
  bytes_eq : frames.pendingBytes = ∑ seq ∈ notBelow seqs frames.nextSeq, (genuine seq).length

/-- All that can be released has been. -/
def Holds (genuine : ℕ → Bytes) (seqs : List ℕ) (frames : OrderedCiphertextFrames) : Prop :=
  Waiting genuine seqs frames ∧ frames.nextSeq = leastMissing seqs

variable {genuine : ℕ → Bytes} {seqs : List ℕ} {frames : OrderedCiphertextFrames}

theorem holds_nil : Holds genuine [] {} := by
  have hnext : leastMissing [] = 0 := leastMissing_eq_iff.mpr ⟨by simp, by simp⟩
  exact ⟨⟨by simp, by simp [notBelow]⟩, hnext.symm⟩

/-- The number behind `nextSeq` when the record with that number is given out. -/
theorem notBelow_succ {next : ℕ} : notBelow seqs (next + 1) = (notBelow seqs next).erase next := by
  ext seq
  simp only [mem_notBelow, Finset.mem_erase]
  refine ⟨fun ⟨hmem, hlt⟩ => ⟨by omega, hmem, by omega⟩, fun ⟨hne, hmem, hle⟩ => ⟨hmem, by omega⟩⟩

/-- One step of the release loop. -/
theorem Waiting.remove (hwaiting : Waiting genuine seqs frames) (hnext : frames.nextSeq ∈ seqs) :
    Waiting genuine seqs
      { nextSeq := frames.nextSeq + 1
        pending := without frames.pending frames.nextSeq
        pendingBytes := frames.pendingBytes - (genuine frames.nextSeq).length } where
  mem_iff seq payload := by
    simp only [mem_without, hwaiting.mem_iff, notBelow_succ, Finset.mem_erase]
    tauto
  bytes_eq := by
    have hmem : frames.nextSeq ∈ notBelow seqs frames.nextSeq := mem_notBelow.mpr ⟨hnext, le_rfl⟩
    rw [hwaiting.bytes_eq, notBelow_succ, ← Finset.add_sum_erase _ _ hmem, Nat.add_sub_cancel_left]

/-- The release loop gives out the records up to the first missing number. -/
theorem release_spec (hwaiting : Waiting genuine seqs frames)
    (hle : frames.nextSeq ≤ leastMissing seqs) (hmax : leastMissing seqs ≤ u32Max) :
    ∃ frames', release frames = .ok ((range' frames.nextSeq
        (leastMissing seqs - frames.nextSeq)).map genuine, frames') ∧
      Holds genuine seqs frames' := by
  induction hleft : leastMissing seqs - frames.nextSeq generalizing frames with
  | zero =>
    have hnext : frames.nextSeq = leastMissing seqs := by omega
    have hnone : frames.pending.lookup frames.nextSeq = none := by
      rw [Option.eq_none_iff_forall_ne_some]
      intro payload hlookup
      have hmem := ((hwaiting.mem_iff _ _).mp (mem_of_lookup hlookup)).1
      rw [hnext] at hmem
      exact leastMissing_notMem seqs (mem_notBelow.mp hmem).1
    refine ⟨frames, ?_, hwaiting, hnext⟩
    rw [release]
    split
    · rfl
    · next payload hsome => simp [hnone] at hsome
  | succ left ih =>
    have hlt : frames.nextSeq < leastMissing seqs := by omega
    have harrived : frames.nextSeq ∈ seqs := mem_of_lt_leastMissing hlt
    obtain ⟨frames', hrelease, hholds⟩ := ih (hwaiting.remove harrived) hlt
      (show leastMissing seqs - (frames.nextSeq + 1) = left by omega)
    have hpend : (frames.nextSeq, genuine frames.nextSeq) ∈ frames.pending :=
      (hwaiting.mem_iff _ _).mpr ⟨mem_notBelow.mpr ⟨harrived, le_rfl⟩, rfl⟩
    refine ⟨frames', ?_, hholds⟩
    rw [release]
    split
    · next hnone =>
      exact absurd hpend fun hmem => by
        simpa using lookup_eq_none_iff.mp hnone _ hmem
    · next payload hsome =>
      obtain rfl : payload = genuine frames.nextSeq :=
        ((hwaiting.mem_iff _ _).mp (mem_of_lookup hsome)).2
      rw [advance, if_pos (by omega)]
      simp only [bind, Except.bind, hrelease]
      rfl

/-! ### One genuine record -/

/-- A record that has arrived before changes nothing. -/
theorem Holds.of_mem (hholds : Holds genuine seqs frames) {seq : ℕ} (hseq : seq ∈ seqs) :
    Holds genuine (seq :: seqs) frames ∧ leastMissing (seq :: seqs) = leastMissing seqs := by
  have hsame : ∀ other, other ∈ seq :: seqs ↔ other ∈ seqs := by
    intro other
    rw [mem_cons, or_iff_right_of_imp]
    rintro rfl
    exact hseq
  have hleast : leastMissing (seq :: seqs) = leastMissing seqs := by
    rw [leastMissing_eq_iff]
    exact ⟨fun hmem => leastMissing_notMem seqs ((hsame _).mp hmem),
      fun other hlt => (hsame _).mpr (mem_of_lt_leastMissing hlt)⟩
  have hbelow : ∀ next, notBelow (seq :: seqs) next = notBelow seqs next := by
    intro next
    ext other
    rw [mem_notBelow, mem_notBelow, hsame]
  refine ⟨⟨⟨?_, ?_⟩, ?_⟩, hleast⟩
  · simpa [hbelow] using hholds.1.mem_iff
  · simpa [hbelow] using hholds.1.bytes_eq
  · rw [hleast, hholds.2]

/-- A new number ahead of the first missing one leaves that one missing. -/
theorem leastMissing_cons_of_lt {seq : ℕ} (hahead : leastMissing seqs < seq) :
    leastMissing (seq :: seqs) = leastMissing seqs := by
  rw [leastMissing_eq_iff]
  refine ⟨fun hmem => ?_, fun other hlt => mem_cons_of_mem _ (mem_of_lt_leastMissing hlt)⟩
  rcases mem_cons.mp hmem with heq | hmem
  · omega
  · exact leastMissing_notMem seqs hmem

theorem notBelow_cons {seq next : ℕ} (hle : next ≤ seq) :
    notBelow (seq :: seqs) next = insert seq (notBelow seqs next) := by
  ext other
  simp only [mem_notBelow, mem_cons, Finset.mem_insert]
  refine ⟨fun ⟨hmem, hother⟩ => hmem.imp_right fun hmem => ⟨hmem, hother⟩, ?_⟩
  rintro (rfl | ⟨hmem, hother⟩)
  · exact ⟨.inl rfl, hle⟩
  · exact ⟨.inr hmem, hother⟩

/-- The state after a record ahead of the first missing one has been put aside. -/
theorem Waiting.insert (hwaiting : Waiting genuine seqs frames) {seq : ℕ}
    (hle : frames.nextSeq ≤ seq) (hnew : seq ∉ seqs) :
    Waiting genuine (seq :: seqs) { frames with
        pending := (seq, genuine seq) :: frames.pending
        pendingBytes := frames.pendingBytes + (genuine seq).length } where
  mem_iff other payload := by
    simp only [mem_cons, Prod.mk.injEq, notBelow_cons hle, Finset.mem_insert, hwaiting.mem_iff]
    constructor
    · rintro (⟨rfl, rfl⟩ | ⟨hmem, rfl⟩)
      · exact ⟨.inl rfl, rfl⟩
      · exact ⟨.inr hmem, rfl⟩
    · rintro ⟨rfl | hmem, rfl⟩
      · exact .inl ⟨rfl, rfl⟩
      · exact .inr ⟨hmem, rfl⟩
  bytes_eq := by
    have hfresh : seq ∉ notBelow seqs frames.nextSeq := fun hmem => hnew (mem_notBelow.mp hmem).1
    rw [notBelow_cons hle, Finset.sum_insert hfresh, hwaiting.bytes_eq, Nat.add_comm]

/-- The state after the record with the expected number has been given out. -/
theorem Waiting.expect (hwaiting : Waiting genuine seqs frames) (hnew : frames.nextSeq ∉ seqs) :
    Waiting genuine (frames.nextSeq :: seqs) { frames with nextSeq := frames.nextSeq + 1 } := by
  have hsame : notBelow (frames.nextSeq :: seqs) (frames.nextSeq + 1) =
      notBelow seqs frames.nextSeq := by
    ext seq
    simp only [mem_notBelow, mem_cons]
    constructor
    · rintro ⟨rfl | hmem, hlt⟩
      · omega
      · exact ⟨hmem, by omega⟩
    · rintro ⟨hmem, hle⟩
      refine ⟨.inr hmem, lt_of_le_of_ne hle ?_⟩
      rintro rfl
      exact hnew hmem
  exact ⟨by simpa [hsame] using hwaiting.mem_iff, by simpa [hsame] using hwaiting.bytes_eq⟩

theorem Holds.any_pending_iff (hholds : Holds genuine seqs frames) {seq : ℕ} :
    (seq < frames.nextSeq || frames.pending.any (·.1 == seq)) ↔ seq ∈ seqs := by
  simp only [Bool.or_eq_true, decide_eq_true_eq, any_eq_true, beq_iff_eq, Prod.exists,
    hholds.1.mem_iff, mem_notBelow, hholds.2]
  constructor
  · rintro (hlt | ⟨other, payload, ⟨⟨hmem, -⟩, -⟩, rfl⟩)
    · exact mem_of_lt_leastMissing hlt
    · exact hmem
  · intro hmem
    by_cases hlt : seq < leastMissing seqs
    · exact .inl hlt
    · exact .inr ⟨seq, genuine seq, ⟨⟨hmem, not_lt.mp hlt⟩, rfl⟩, rfl⟩

/-- **One genuine record.** Within the reorder window and the byte limit a genuine record is never
    refused, and what it releases are the records from the first missing number up to the next
    missing one. -/
theorem push_holds (hholds : Holds genuine seqs frames) {seq : ℕ}
    (hwindow : seq ≤ leastMissing seqs + maxReorderDistance)
    (hbytes : ∑ other ∈ awaited (seq :: seqs), (genuine other).length ≤ maxPendingBytes)
    (hmax : leastMissing (seq :: seqs) ≤ u32Max) :
    ∃ frames', push frames seq (genuine seq) = .ok ((range' (leastMissing seqs)
        (leastMissing (seq :: seqs) - leastMissing seqs)).map genuine, frames') ∧
      Holds genuine (seq :: seqs) frames' := by
  have hnext := hholds.2
  by_cases hseq : seq ∈ seqs
  · -- A copy of a record that has been released or waits already.
    obtain ⟨hsame, hleast⟩ := hholds.of_mem hseq
    refine ⟨frames, ?_, hsame⟩
    rw [push, if_pos (hholds.any_pending_iff.mpr hseq), hleast, Nat.sub_self]
    rfl
  rw [push, if_neg (mt hholds.any_pending_iff.mp hseq)]
  by_cases hahead : seq > frames.nextSeq
  · -- A record that has to wait.
    have hleast : leastMissing (seq :: seqs) = leastMissing seqs :=
      leastMissing_cons_of_lt (hnext ▸ hahead)
    have hwaiting := hholds.1.insert hahead.le hseq
    have hfull : frames.pendingBytes + (genuine seq).length ≤ maxPendingBytes := by
      have htotal := hwaiting.bytes_eq
      simp only [hnext, ← hleast, notBelow_leastMissing] at htotal
      omega
    rw [if_pos hahead, if_neg (by omega), if_neg (not_lt.mpr hfull), hleast, Nat.sub_self]
    exact ⟨_, rfl, hwaiting, hnext.trans hleast.symm⟩
  · -- The expected record: it fills the gap in front of those that wait.
    have hlt : ¬ seq < frames.nextSeq := fun hlt =>
      hseq (mem_of_lt_leastMissing (hnext ▸ hlt))
    obtain rfl : seq = frames.nextSeq := by omega
    have hle : frames.nextSeq + 1 ≤ leastMissing (frames.nextSeq :: seqs) := by
      rw [le_leastMissing_iff]
      intro other hother
      rcases Nat.lt_succ_iff_lt_or_eq.mp hother with hlt | rfl
      · exact mem_cons_of_mem _ (mem_of_lt_leastMissing (hnext ▸ hlt))
      · exact mem_cons_self
    obtain ⟨frames', hrelease, hholds'⟩ := release_spec (hholds.1.expect hseq) hle hmax
    refine ⟨frames', ?_, hholds'⟩
    rw [if_neg hahead, advance, if_pos (by omega)]
    simp only [bind, Except.bind, hrelease]
    rw [← hnext, show leastMissing (frames.nextSeq :: seqs) - frames.nextSeq =
      leastMissing (frames.nextSeq :: seqs) - (frames.nextSeq + 1) + 1 by omega]
    rfl

end OrderedCiphertextFrames

end Codex.Relay
