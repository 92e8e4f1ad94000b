import Mathlib

namespace Codex.Data

open List

/-!
# Inserting companions behind the elements of a list

A pass that collects, by index, elements to insert behind others, and then inserts them from the
last index to the first so that the indices stay right.

* `companions` — the insertions, with the index of the element they belong to.
* `insertCompanions` — insert them, last index first.
* `insertCompanions_companions` — every companion ends up right behind its element.
* `filter_companions` — a filter that keeps the two together.
-/

variable {α : Type}

variable (companion : α → Option α)

/-- The companions of the elements of `l`, with the indices of the elements from `start` on. -/
def companions (l : List α) (start : ℕ) : List (ℕ × α) :=
  (l.zipIdx start).filterMap fun entry => (companion entry.1).map (entry.2, ·)

/-- Insert every companion behind the element at its index, last index first. -/
def insertCompanions (l : List α) (insertions : List (ℕ × α)) : List α :=
  insertions.reverse.foldl (fun l entry => l.insertIdx (entry.1 + 1) entry.2) l

theorem insertIdx_length_append (l l' : List α) (a : α) :
    (l ++ l').insertIdx l.length a = l ++ a :: l' := by
  induction l with
  | nil => rfl
  | cons b l ih => rw [cons_append, length_cons, insertIdx_succ_cons, ih]; rfl

/-- The insertions into the end of a list leave its beginning alone. -/
theorem insertCompanions_append (done l : List α) :
    insertCompanions (done ++ l) (companions companion l done.length) =
      done ++ l.flatMap fun a => a :: (companion a).toList := by
  induction l generalizing done with
  | nil => simp [companions, insertCompanions]
  | cons a l ih =>
    have hrest := ih (done ++ [a])
    rw [append_assoc, singleton_append, length_append, length_singleton]
      at hrest
    cases hcompanion : companion a with
    | none =>
      have hsame : companions companion (a :: l) done.length =
          companions companion l (done.length + 1) := by
        simp [companions, hcompanion]
      rw [hsame, hrest, flatMap_cons, hcompanion]
      simp
    | some b =>
      -- the companion of the first element is inserted last
      have hcons : companions companion (a :: l) done.length =
          (done.length, b) :: companions companion l (done.length + 1) := by
        simp [companions, hcompanion]
      have hlength : done.length + 1 = (done ++ [a]).length := by simp
      rw [hcons, insertCompanions, reverse_cons, foldl_concat, ← insertCompanions,
        hrest, hlength, insertIdx_length_append, flatMap_cons, hcompanion]
      simp

/-- **Every companion ends up right behind its element.** -/
theorem insertCompanions_companions (l : List α) :
    insertCompanions l (companions companion l 0) =
      l.flatMap fun a => a :: (companion a).toList := insertCompanions_append companion [] l

/-- A filter that keeps every companion together with its element. -/
theorem filter_companions (p : α → Bool) (companion : α → Option α) (l : List α)
    (h : ∀ a ∈ l, ∀ b, companion a = some b → p a ∧ p b) :
    (l.flatMap fun a => a :: (companion a).toList).filter p =
      (l.filter p).flatMap fun a => a :: (companion a).toList := by
  induction l with
  | nil => rfl
  | cons a l ih =>
    have hrest := ih fun a' ha' => h a' (mem_cons_of_mem _ ha')
    rw [flatMap_cons, filter_append, hrest]
    cases hcompanion : companion a with
    | none => cases ha : p a <;> simp [ha, hcompanion]
    | some b =>
      obtain ⟨ha, hb⟩ := h a mem_cons_self b hcompanion
      simp [ha, hb, hcompanion]

end Codex.Data
