import Mathlib.Data.List.Sort

namespace Codex

open List

/-!
# Stable sorting

`List.insertionSort` keeps the order of entries that compare equal, so it computes what
`sort_by_key` computes.  A relation holds between every two entries of the sorted list,
earlier one first, exactly when it holds between every two entries of the unsorted list
once each pair is put in sorted order (`pairwise_insertionSort_iff`): pairs can be checked
without looking at the sorted list.  Where only equal entries compare equal, entries can be left out
before or after sorting (`filter_insertionSort`).
-/

variable {α : Type*} {le : α → α → Prop} [DecidableRel le] {R : α → α → Prop}

/-- Inserting `a` into a sorted list puts it after the entries that it is not `le`, and
    before the others. -/
theorem pairwise_orderedInsert_iff [IsTrans α le] {a : α} {l : List α} (hl : l.Pairwise le) :
    (l.orderedInsert le a).Pairwise R ↔
      (∀ b ∈ l, if le a b then R a b else R b a) ∧ l.Pairwise R := by
  induction l with
  | nil => simp
  | cons b l ih =>
    obtain ⟨hb, hl'⟩ := pairwise_cons.mp hl
    by_cases hab : le a b
    · -- `a` goes in front, and is `le` everything that follows.
      have hall : ∀ c ∈ b :: l, le a c :=
        forall_mem_cons.mpr ⟨hab, fun c hc => trans_of le hab (hb c hc)⟩
      rw [orderedInsert_cons_of_le _ _ hab, pairwise_cons]
      refine and_congr_left fun _ => forall₂_congr fun c hc => ?_
      rw [if_pos (hall c hc)]
    · rw [orderedInsert_of_not_le _ _ hab, pairwise_cons]
      simp only [mem_orderedInsert, mem_cons, forall_eq_or_imp, if_neg hab, pairwise_cons]
      tauto

/-- **Pairs of a stable sort.**  `R` holds between all entries of the sorted list, earlier
    one first, iff it holds of every pair of the unsorted list put in sorted order. -/
theorem pairwise_insertionSort_iff [IsTrans α le] [Std.Total le] (l : List α) :
    (l.insertionSort le).Pairwise R ↔ l.Pairwise fun a b => if le a b then R a b else R b a := by
  induction l with
  | nil => simp
  | cons a l ih =>
    rw [insertionSort_cons,
      pairwise_orderedInsert_iff (pairwise_insertionSort le l), ih, pairwise_cons]
    simp

theorem filter_insertionSort [IsTrans α le] [Std.Total le]
    (hantisymm : ∀ a b, le a b → le b a → a = b) (p : α → Bool) (l : List α) :
    (l.insertionSort le).filter p = (l.filter p).insertionSort le := by
  apply Perm.eq_of_pairwise (fun a b _ _ => hantisymm a b)
  · exact (pairwise_insertionSort le l).filter p
  · exact pairwise_insertionSort le _
  · exact ((perm_insertionSort le l).filter p).trans (perm_insertionSort le _).symm

end Codex
