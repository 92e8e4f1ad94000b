import Mathlib

namespace Codex.Data

open List

/-!
# Numbered records

A byte stream that is cut into records, and the numbers under which the records arrive.

* `chunks` — consecutive pieces of a fixed length; `flatten_chunks` puts them together again.
* `leastMissing` — the first number that has not arrived yet.
* `awaited` — the numbers that arrived ahead of it.
-/

variable {n : ℕ}

section Chunks

variable {α : Type}

/-- The consecutive pieces of `l` of length `n`, the last of them possibly shorter. -/
def chunks (n : ℕ) : List α → List (List α)
  | [] => []
  | a :: l => (a :: l.take (n - 1)) :: chunks n (l.drop (n - 1))
  termination_by l => l.length
  decreasing_by simp only [length_drop, length_cons]; omega

/-- The pieces of a list make up the list. -/
@[simp] theorem flatten_chunks (n : ℕ) (l : List α) : (chunks n l).flatten = l := by
  fun_induction chunks n l with
  | case1 => rfl
  | case2 a l ih => rw [flatten_cons, ih, cons_append, take_append_drop]

/-- No piece is longer than the length it was cut to. -/
theorem length_le_of_mem_chunks (hn : 0 < n) {l piece : List α} (hpiece : piece ∈ chunks n l) :
    piece.length ≤ n := by
  fun_induction chunks n l with
  | case1 => simp at hpiece
  | case2 a l ih =>
    rcases mem_cons.mp hpiece with rfl | hlater
    · simp only [length_cons, length_take]
      omega
    · exact ih hlater

/-- No piece is empty. -/
theorem ne_nil_of_mem_chunks {l piece : List α} (hpiece : piece ∈ chunks n l) : piece ≠ [] := by
  fun_induction chunks n l with
  | case1 => simp at hpiece
  | case2 a l ih =>
    rcases mem_cons.mp hpiece with rfl | hlater
    · exact cons_ne_nil _ _
    · exact ih hlater

theorem length_chunks_le (n : ℕ) (l : List α) : (chunks n l).length ≤ l.length := by
  fun_induction chunks n l with
  | case1 => rfl
  | case2 a l ih =>
    rw [length_drop] at ih
    rw [length_cons, length_cons]
    omega

end Chunks

/-! ### The numbers that have arrived -/

theorem exists_missing (seqs : List ℕ) : ∃ n, n ∉ seqs := by
  obtain ⟨n, hn⟩ := Infinite.exists_notMem_finset seqs.toFinset
  exact ⟨n, by simpa using hn⟩

/-- The first number that is not among `seqs`. -/
def leastMissing (seqs : List ℕ) : ℕ := Nat.find (exists_missing seqs)

variable {seqs : List ℕ}

theorem leastMissing_eq_iff : leastMissing seqs = n ↔ n ∉ seqs ∧ ∀ m < n, m ∈ seqs := by
  rw [leastMissing, Nat.find_eq_iff]
  simp

theorem leastMissing_notMem (seqs : List ℕ) : leastMissing seqs ∉ seqs :=
  Nat.find_spec (exists_missing seqs)

theorem mem_of_lt_leastMissing (hn : n < leastMissing seqs) : n ∈ seqs :=
  not_not.mp (Nat.find_min (exists_missing seqs) hn)

/-- Every number below `n` has arrived exactly when the first missing one is not below `n`. -/
theorem le_leastMissing_iff : n ≤ leastMissing seqs ↔ ∀ m < n, m ∈ seqs := by
  rw [leastMissing, Nat.le_find_iff]
  simp

theorem leastMissing_congr {seqs' : List ℕ} (h : ∀ n, n ∈ seqs ↔ n ∈ seqs') :
    leastMissing seqs = leastMissing seqs' := by
  rw [leastMissing_eq_iff]
  exact ⟨fun hmem => leastMissing_notMem seqs' ((h _).mp hmem),
    fun n hn => (h n).mpr (mem_of_lt_leastMissing hn)⟩

@[simp] theorem leastMissing_reverse (seqs : List ℕ) :
    leastMissing seqs.reverse = leastMissing seqs := leastMissing_congr fun _ => mem_reverse

theorem leastMissing_range (n : ℕ) : leastMissing (range n) = n :=
  leastMissing_eq_iff.mpr ⟨by simp, fun _ hm => mem_range.mpr hm⟩

theorem leastMissing_le (hn : n ∉ seqs) : leastMissing seqs ≤ n :=
  Nat.find_min' (exists_missing seqs) hn

theorem leastMissing_le_cons (n : ℕ) (seqs : List ℕ) :
    leastMissing seqs ≤ leastMissing (n :: seqs) :=
  le_leastMissing_iff.mpr fun _ hm => mem_cons_of_mem n (mem_of_lt_leastMissing hm)

/-- The numbers that have arrived ahead of the first missing one. -/
def awaited (seqs : List ℕ) : Finset ℕ := seqs.toFinset.filter (leastMissing seqs < ·)

@[simp] theorem mem_awaited : n ∈ awaited seqs ↔ n ∈ seqs ∧ leastMissing seqs < n := by
  simp [awaited]

@[simp] theorem awaited_reverse (seqs : List ℕ) : awaited seqs.reverse = awaited seqs := by
  ext n
  simp

end Codex.Data
