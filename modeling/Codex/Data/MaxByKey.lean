import Mathlib

namespace Codex.Data

open List

/-!
# The entry with the greatest key

`maxByKey` is `Iterator::max_by_key`: of several entries with the greatest key, the last one.

* `maxByKey_eq_some` — what it finds;
* `exists_maxByKey` — it finds something in a list that is not empty.
-/

variable {α κ : Type*} [LinearOrder κ]

variable (key : α → κ)

/-- Keep the better of two entries, the later one if they are equally good. -/
def betterByKey (best : Option α) (x : α) : Option α :=
  match best with
  | none => some x
  | some b => if key b ≤ key x then some x else some b

def maxByKey (l : List α) : Option α := l.foldl (betterByKey key) none

/-- The best entry after some more entries: it is among what was seen, and at least as good as all
    of it. -/
theorem foldl_betterByKey (l : List α) (b : α) :
    ∃ m, l.foldl (betterByKey key) (some b) = some m ∧ m ∈ b :: l ∧ ∀ x ∈ b :: l, key x ≤ key m := by
  induction l generalizing b with
  | nil => exact ⟨b, rfl, mem_cons_self, by simp⟩
  | cons x l ih =>
    by_cases hkey : key b ≤ key x
    · obtain ⟨m, hm, hmem, hmax⟩ := ih x
      refine ⟨m, ?_, mem_cons_of_mem b hmem, ?_⟩
      · rw [foldl_cons]
        simp only [betterByKey, if_pos hkey]
        exact hm
      · exact forall_mem_cons.mpr ⟨le_trans hkey (hmax x mem_cons_self), hmax⟩
    · obtain ⟨m, hm, hmem, hmax⟩ := ih b
      refine ⟨m, ?_, ?_, ?_⟩
      · rw [foldl_cons]
        simp only [betterByKey, if_neg hkey]
        exact hm
      · rcases mem_cons.mp hmem with rfl | hmem
        · exact mem_cons_self
        · exact mem_cons_of_mem _ (mem_cons_of_mem _ hmem)
      · obtain ⟨hb, hl⟩ := forall_mem_cons.mp hmax
        have hx := le_trans (le_of_lt (not_le.mp hkey)) hb
        exact forall_mem_cons.mpr ⟨hb, forall_mem_cons.mpr ⟨hx, hl⟩⟩

theorem exists_maxByKey {l : List α} (hl : l ≠ []) :
    ∃ m, maxByKey key l = some m ∧ m ∈ l ∧ ∀ x ∈ l, key x ≤ key m := by
  cases l with
  | nil => exact absurd rfl hl
  | cons x l => exact foldl_betterByKey key l x

theorem maxByKey_eq_some {key : α → κ} {l : List α} {m : α} (h : maxByKey key l = some m) :
    m ∈ l ∧ ∀ x ∈ l, key x ≤ key m := by
  have hl : l ≠ [] := by
    rintro rfl
    cases h
  obtain ⟨m', hm', hspec⟩ := exists_maxByKey key hl
  cases h.symm.trans hm'
  exact hspec

end Codex.Data
