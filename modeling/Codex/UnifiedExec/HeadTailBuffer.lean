import Mathlib.Data.List.Basic
import Mathlib.Tactic

namespace Codex.UnifiedExec

open List

/-!
# The head and the tail of an output

A buffer that keeps the first half of its capacity of what is pushed, and the last half, and drops
what is between them.  No run pushes as many bytes as its counters can count.

* `HeadTailBuffer` — the buffer, with counters beside its chunks;
* `Holds` — what it keeps of the bytes pushed since it was drained;
* `toBytes_run` — the head and the tail of these bytes, after any calls.
-/

structure HeadTailBuffer where
  maxBytes : ℕ
  headBudget : ℕ
  tailBudget : ℕ
  head : List (List UInt8)
  tail : List (List UInt8)
  headBytes : ℕ
  tailBytes : ℕ
  omittedBytes : ℕ

namespace HeadTailBuffer

def new (maxBytes : ℕ) : HeadTailBuffer where
  maxBytes := maxBytes
  headBudget := maxBytes / 2
  tailBudget := maxBytes - maxBytes / 2
  head := []
  tail := []
  headBytes := 0
  tailBytes := 0
  omittedBytes := 0

/-- The loop of `trim_tail_to_budget`, over the chunks of the tail. -/
def trimLoop (buffer : HeadTailBuffer) (excess : ℕ) : List (List UInt8) → HeadTailBuffer
  | [] => { buffer with tail := [] }
  | front :: rest =>
    if excess = 0 then { buffer with tail := front :: rest }
    else if front.length ≤ excess then
      trimLoop { buffer with
        tailBytes := buffer.tailBytes - front.length
        omittedBytes := buffer.omittedBytes + front.length } (excess - front.length) rest
    else { buffer with
      tail := front.drop excess :: rest
      tailBytes := buffer.tailBytes - excess
      omittedBytes := buffer.omittedBytes + excess }

variable (buffer : HeadTailBuffer) (chunk : List UInt8)

def trimTailToBudget : HeadTailBuffer :=
  buffer.trimLoop (buffer.tailBytes - buffer.tailBudget) buffer.tail

def pushToTail : HeadTailBuffer :=
  if buffer.tailBudget = 0 then
    { buffer with omittedBytes := buffer.omittedBytes + chunk.length }
  else if buffer.tailBudget ≤ chunk.length then
    let kept := chunk.drop (chunk.length - buffer.tailBudget)
    { buffer with
      omittedBytes := buffer.omittedBytes + buffer.tailBytes + (chunk.length - kept.length)
      tail := [kept]
      tailBytes := kept.length }
  else trimTailToBudget { buffer with
    tailBytes := buffer.tailBytes + chunk.length
    tail := buffer.tail ++ [chunk] }

def pushChunk : HeadTailBuffer :=
  if buffer.maxBytes = 0 then { buffer with omittedBytes := buffer.omittedBytes + chunk.length }
  else if buffer.headBytes < buffer.headBudget then
    let remainingHead := buffer.headBudget - buffer.headBytes
    if chunk.length ≤ remainingHead then
      { buffer with
        headBytes := buffer.headBytes + chunk.length
        head := buffer.head ++ [chunk] }
    else
      let headPart := chunk.take remainingHead
      pushToTail (if headPart.isEmpty then buffer else { buffer with
        headBytes := buffer.headBytes + headPart.length
        head := buffer.head ++ [headPart] }) (chunk.drop remainingHead)
  else buffer.pushToTail chunk

def toBytes : List UInt8 := buffer.head.flatten ++ buffer.tail.flatten

def drainChunks : List (List UInt8) × HeadTailBuffer := (buffer.head ++ buffer.tail,
    { buffer with head := [], tail := [], headBytes := 0, tailBytes := 0, omittedBytes := 0 })

/-! ### The tail -/

variable {buffer chunk}

theorem trimLoop_eq (buffer : HeadTailBuffer) {tail : List (List UInt8)} {excess : ℕ}
    (h : excess ≤ tail.flatten.length) :
    ∃ tail', tail'.flatten = tail.flatten.drop excess ∧
      buffer.trimLoop excess tail = { buffer with
        tail := tail'
        tailBytes := buffer.tailBytes - excess
        omittedBytes := buffer.omittedBytes + excess } := by
  induction tail generalizing buffer excess with
  | nil =>
    obtain rfl : excess = 0 := Nat.le_zero.mp h
    exact ⟨[], rfl, rfl⟩
  | cons front rest ih =>
    rw [flatten_cons, length_append] at h
    unfold trimLoop
    split_ifs with hzero hfront
    · rw [hzero]
      exact ⟨front :: rest, rfl, rfl⟩
    · -- the chunk goes as a whole
      have hrest : excess - front.length ≤ rest.flatten.length := by omega
      obtain ⟨tail', hflatten, heq⟩ := ih _ hrest
      refine ⟨tail', ?_, ?_⟩
      · rw [hflatten, flatten_cons, drop_append, drop_eq_nil_of_le hfront, nil_append]
      · rw [heq]
        simp only [mk.injEq, true_and]
        omega
    · refine ⟨front.drop excess :: rest, ?_, rfl⟩
      rw [flatten_cons, flatten_cons, drop_append_of_le_length (by omega)]

/-- **A push to the tail**: what is over the budget goes from its front. -/
theorem pushToTail_eq (chunk : List UInt8) (hbytes : buffer.tailBytes = buffer.tail.flatten.length)
    (hbudget : buffer.tailBytes ≤ buffer.tailBudget) :
    ∃ tail', tail'.flatten = (buffer.tail.flatten ++ chunk).drop
        (buffer.tailBytes + chunk.length - buffer.tailBudget) ∧
      buffer.pushToTail chunk = { buffer with
        tail := tail'
        tailBytes := tail'.flatten.length
        omittedBytes := buffer.omittedBytes +
          (buffer.tailBytes + chunk.length - buffer.tailBudget) } := by
  unfold pushToTail
  split_ifs with hzero hlong
  · have hnil : buffer.tail.flatten = [] := length_eq_zero_iff.mp (by omega)
    refine ⟨buffer.tail, ?_, ?_⟩
    · rw [hnil, nil_append, drop_eq_nil_of_le (by omega)]
    · simp only [mk.injEq, true_and]
      omega
  · refine ⟨[chunk.drop (chunk.length - buffer.tailBudget)], ?_, ?_⟩
    · have hover : buffer.tailBytes + chunk.length - buffer.tailBudget =
          buffer.tail.flatten.length + (chunk.length - buffer.tailBudget) := by omega
      rw [hover, ← drop_drop, drop_left, flatten_singleton]
    · simp only [flatten_singleton, length_drop, mk.injEq, true_and]
      omega
  · have hflatten : (buffer.tail ++ [chunk]).flatten = buffer.tail.flatten ++ chunk := by simp
    have hexcess : buffer.tailBytes + chunk.length - buffer.tailBudget ≤
        (buffer.tail ++ [chunk]).flatten.length := by
      rw [hflatten, length_append]
      omega
    obtain ⟨tail', htail, heq⟩ := trimLoop_eq { buffer with
      tailBytes := buffer.tailBytes + chunk.length
      tail := buffer.tail ++ [chunk] } hexcess
    rw [hflatten] at htail
    refine ⟨tail', htail, ?_⟩
    rw [trimTailToBudget, heq, htail, length_drop, length_append, hbytes]

/-! ### What is kept -/

inductive Call
  | pushChunk (chunk : List UInt8)
  | drainChunks

def run (buffer : HeadTailBuffer) : Call → HeadTailBuffer
  | .pushChunk chunk => buffer.pushChunk chunk
  | .drainChunks => buffer.drainChunks.2

/-- The bytes pushed since the last drain. -/
def pushed (s : List UInt8) : Call → List UInt8
  | .pushChunk chunk => s ++ chunk
  | .drainChunks => []

/-- The buffer after the bytes `s`, since it was new or drained. -/
structure Holds (cap : ℕ) (s : List UInt8) (buffer : HeadTailBuffer) : Prop where
  maxBytes : buffer.maxBytes = cap
  headBudget : buffer.headBudget = cap / 2
  tailBudget : buffer.tailBudget = cap - cap / 2
  head : buffer.head.flatten = s.take (cap / 2)
  tail : buffer.tail.flatten = s.drop (cap / 2 + (s.length - cap))
  headBytes : buffer.headBytes = buffer.head.flatten.length
  tailBytes : buffer.tailBytes = buffer.tail.flatten.length
  omittedBytes : buffer.omittedBytes = s.length - cap

theorem holds_new (cap : ℕ) : Holds cap [] (new cap) :=
  ⟨rfl, rfl, rfl, by simp [new], by simp [new], rfl, rfl, by simp [new]⟩

section Holds

variable {cap : ℕ} {s : List UInt8} (h : Holds cap s buffer) (chunk : List UInt8)
include h

/-- What fits into the head. -/
theorem Holds.pushHead (hfits : s.length + chunk.length ≤ cap / 2) :
    Holds cap (s ++ chunk) { buffer with
      headBytes := buffer.headBytes + chunk.length
      head := buffer.head ++ [chunk] } := by
  have hlength : (s ++ chunk).length ≤ cap / 2 := by rwa [length_append]
  refine ⟨h.maxBytes, h.headBudget, h.tailBudget, ?_, ?_, ?_, h.tailBytes, ?_⟩
  · simp [h.head, take_of_length_le hlength, take_of_length_le (by omega : s.length ≤ cap / 2)]
  · rw [h.tail, drop_eq_nil_of_le (by omega), drop_eq_nil_of_le (by omega)]
  · simp [h.headBytes]
  · rw [h.omittedBytes]
    omega

/-- What comes behind the head. -/
theorem Holds.pushToTail (hfull : cap / 2 ≤ s.length) :
    Holds cap (s ++ chunk) (buffer.pushToTail chunk) := by
  have hlength : buffer.tailBytes = s.length - (cap / 2 + (s.length - cap)) := by
    rw [h.tailBytes, h.tail, length_drop]
  have hbudget := h.tailBudget
  obtain ⟨tail', htail, heq⟩ := pushToTail_eq chunk h.tailBytes (by omega)
  rw [heq]
  refine ⟨h.maxBytes, h.headBudget, h.tailBudget, ?_, ?_, h.headBytes, rfl, ?_⟩
  · rw [take_append_of_le_length hfull]
    exact h.head
  · rw [htail, h.tail, ← drop_append_of_le_length (by omega), drop_drop, length_append]
    congr 1
    omega
  · simp only [h.omittedBytes, length_append]
    omega

theorem Holds.pushChunk : Holds cap (s ++ chunk) (buffer.pushChunk chunk) := by
  have hhead : buffer.headBytes = min (cap / 2) s.length := by
    rw [h.headBytes, h.head, length_take]
  have hbudget := h.headBudget
  unfold HeadTailBuffer.pushChunk
  dsimp only
  split_ifs with hzero hroom hfits hempty
  · -- nothing is kept
    have hcap : cap = 0 := h.maxBytes.symm.trans hzero
    refine ⟨h.maxBytes, h.headBudget, h.tailBudget, ?_, ?_, h.headBytes, h.tailBytes, ?_⟩
    · simp [h.head, hcap]
    · rw [h.tail, drop_eq_nil_of_le (by omega), drop_eq_nil_of_le (by omega)]
    · simp [h.omittedBytes, hcap]
  · exact h.pushHead chunk (by omega)
  · -- the part for the head is not empty
    have hpart := congrArg length (isEmpty_iff.mp hempty)
    rw [length_take, length_nil] at hpart
    omega
  · have hpart : (chunk.take (buffer.headBudget - buffer.headBytes)).length = _ :=
      length_take_of_le (by omega)
    have hcut := (h.pushHead (chunk.take (buffer.headBudget - buffer.headBytes))
      (by omega)).pushToTail (chunk.drop (buffer.headBudget - buffer.headBytes))
        (by rw [length_append]; omega)
    rwa [append_assoc, take_append_drop] at hcut
  · exact h.pushToTail chunk (by omega)

theorem Holds.run (calls : List Call) :
    Holds cap (calls.foldl pushed s) (calls.foldl HeadTailBuffer.run buffer) := by
  induction calls generalizing s buffer with
  | nil => exact h
  | cons call calls ih =>
    refine ih ?_
    cases call with
    | pushChunk chunk => exact h.pushChunk chunk
    | drainChunks =>
      have hdrained : buffer.drainChunks.2 = new cap := by
        simp [drainChunks, new, h.maxBytes, h.headBudget, h.tailBudget]
      show Holds cap [] buffer.drainChunks.2
      rw [hdrained]
      exact holds_new cap

end Holds

/-- **The head and the tail of what was pushed** since the last drain are kept, or all of it if it
    fits, and the counters are right. -/
theorem toBytes_run (maxBytes : ℕ) (calls : List Call) :
    let buffer := calls.foldl run (new maxBytes)
    let s := calls.foldl pushed []
    buffer.toBytes = (if s.length ≤ maxBytes then s
      else s.take (maxBytes / 2) ++ s.drop (s.length - (maxBytes - maxBytes / 2))) ∧
    buffer.omittedBytes = s.length - buffer.toBytes.length ∧
    buffer.headBytes = buffer.head.flatten.length ∧
    buffer.tailBytes = buffer.tail.flatten.length := by
  have h := (holds_new maxBytes).run calls
  refine ⟨?_, ?_, h.headBytes, h.tailBytes⟩
  · rw [toBytes, h.head, h.tail]
    split_ifs with hle
    · rw [Nat.sub_eq_zero_of_le hle, Nat.add_zero, take_append_drop]
    · congr 2
      omega
  · rw [toBytes, length_append, h.head, h.tail, h.omittedBytes, length_take, length_drop]
    omega

end HeadTailBuffer

end Codex.UnifiedExec
