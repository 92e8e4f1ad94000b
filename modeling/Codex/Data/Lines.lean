import Mathlib

namespace Codex.Data

open List

/-!
# Lines

A list cut at every separator.  The last part is a line only if there is something in it.

* `splitLines` — the lines of a list;
* `splitLines_append_cons`, `splitLines_of_notMem` — the first line of a list, if it is complete and
  if it is not.
-/

variable {α : Type} [DecidableEq α]

/-- The parts of a list between separators, without an empty last one. -/
def splitLines (sep : α) (l : List α) : List (List α) :=
  if (l.splitOn sep).getLast? = some [] then (l.splitOn sep).dropLast else l.splitOn sep

variable {a : List α} {sep : α}

/-- A complete line comes first. -/
theorem splitLines_append_cons (h : sep ∉ a) (b : List α) :
    splitLines sep (a ++ sep :: b) = a :: splitLines sep b := by
  have hne : b.splitOn sep ≠ [] := splitOnP_ne_nil _ b
  unfold splitLines
  rw [splitOn_append_cons_self, splitOn_eq_singleton h, singleton_append,
    getLast?_cons_of_ne_nil hne, dropLast_cons_of_ne_nil hne]
  split_ifs <;> rfl

/-- An incomplete line is the only one. -/
theorem splitLines_of_notMem (h : sep ∉ a) : splitLines sep a = if a = [] then [] else [a] := by
  unfold splitLines
  rw [splitOn_eq_singleton h]
  simp

@[simp]
theorem splitLines_nil (sep : α) : splitLines sep ([] : List α) = [] := by
  rw [splitLines_of_notMem not_mem_nil, if_pos rfl]

end Codex.Data
