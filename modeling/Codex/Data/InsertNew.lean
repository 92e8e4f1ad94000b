import Mathlib.Data.List.Nodup

namespace Codex.Data

open List

/-!
# Appending what is new

A loop that pushes each item unless the list already contains it.  Items are compared by `==`, which
may identify different items; what is said here is about functions that do not tell such items
apart.

* `insertNew` — the loop;
* `mem_insertNew`, `nodup_insertNew` — where `==` is equality;
* `mem_filterMap_insertNew`, `any_insertNew` — nothing is lost, up to `==`;
* `filterMap_insertNew_iff` — what holds as if all items had been appended.
-/

variable {α β : Type*} [BEq α]

variable (items : List α)

/-- Push each item unless the list already contains it. -/
def insertNew (more : List α) : List α :=
  more.foldl (fun items item => if items.contains item then items else items ++ [item]) items

@[simp] theorem insertNew_nil : insertNew items [] = items := rfl

theorem insertNew_cons (item : α) (more : List α) :
    insertNew items (item :: more) =
      if items.contains item then insertNew items more else insertNew (items ++ [item]) more := by
  show insertNew (if items.contains item then items else items ++ [item]) more = _
  split <;> rfl

variable {items : List α} {more : List α}

theorem mem_insertNew [LawfulBEq α] {a : α} : a ∈ insertNew items more ↔ a ∈ items ∨ a ∈ more := by
  induction more generalizing items with
  | nil => simp
  | cons item more ih =>
    rw [insertNew_cons, mem_cons]
    split
    · rename_i hcontains
      rw [ih]
      refine ⟨Or.imp_right .inr, ?_⟩
      rintro (h | rfl | h)
      · exact .inl h
      · exact .inl (contains_iff_mem.mp hcontains)
      · exact .inr h
    · rw [ih, mem_append, mem_singleton, or_assoc]

theorem nodup_insertNew [LawfulBEq α] (h : items.Nodup) (more : List α) :
    (insertNew items more).Nodup := by
  induction more generalizing items with
  | nil => exact h
  | cons item more ih =>
    rw [insertNew_cons]
    split
    · exact ih h
    · rename_i hnew
      refine ih (Nodup.append h (nodup_singleton _) (disjoint_singleton.mpr ?_))
      exact fun hmem => hnew (contains_iff_mem.mpr hmem)

/-! ### Functions that do not tell equal items apart -/

section Respects

theorem takeWhile_ne_append [DecidableEq β] {front : List β} {c : β} (h : c ∉ front)
    (back : List β) :
    (front ++ back).takeWhile (· ≠ c) = front ++ back.takeWhile (· ≠ c) := by
  refine takeWhile_append_of_pos fun y hy => ?_
  simpa using fun heq : y = c => h (heq ▸ hy)

/-- A value that is there already, once more behind it: in front of any other value the same values
    stand. -/
theorem mem_takeWhile_append_cons [DecidableEq β] {front back : List β} {b c x : β}
    (h : b ∈ front) :
    x ∈ (front ++ b :: back).takeWhile (· ≠ c) ↔ x ∈ (front ++ back).takeWhile (· ≠ c) := by
  by_cases hc : c ∈ front
  · obtain ⟨first, rest, rfl, hfirst⟩ := eq_append_cons_of_mem hc
    simp only [append_assoc, takeWhile_ne_append hfirst]
    simp
  · have hb : b ≠ c := fun heq => hc (heq ▸ h)
    rw [takeWhile_ne_append hc, takeWhile_ne_append hc, takeWhile_cons, if_pos (by simpa using hb)]
    simp only [mem_append, mem_cons]
    constructor
    · rintro (hx | rfl | hx)
      · exact .inl hx
      · exact .inl h
      · exact .inr hx
    · rintro (hx | hx)
      · exact .inl hx
      · exact .inr (.inr hx)

variable {f : α → Option β} (hf : ∀ a b, (a == b) → f a = f b)
include hf

/-- The value of an item that is there already is there already. -/
theorem mem_filterMap_of_contains {item : α} (h : items.contains item)
    {b : β} (hb : f item = some b) : b ∈ items.filterMap f := by
  obtain ⟨other, hother, heq⟩ := contains_iff_exists_mem_beq.mp h
  exact mem_filterMap.mpr ⟨other, hother, by rw [← hf item other heq, hb]⟩

/-- What does not tell whether a value stands there once more is true as if all items had been
    appended. -/
theorem filterMap_insertNew_iff {P : List β → Prop} (hP : ∀ {values value later}, value ∈ values →
      (P (values ++ value :: later) ↔ P (values ++ later))) :
    P ((insertNew items more).filterMap f) ↔ P ((items ++ more).filterMap f) := by
  induction more generalizing items with
  | nil => simp
  | cons item more ih =>
    rw [insertNew_cons]
    split
    · rename_i hcontains
      rw [ih, filterMap_append, filterMap_append, filterMap_cons]
      cases hitem : f item with
      | none => rfl
      | some value =>
        exact (hP (mem_filterMap_of_contains hf hcontains hitem)).symm
    · rw [ih, append_assoc, singleton_append]

/-- Nothing is lost. -/
theorem mem_filterMap_insertNew {b : β} :
    b ∈ (insertNew items more).filterMap f ↔ b ∈ (items ++ more).filterMap f := by
  refine filterMap_insertNew_iff hf (P := (b ∈ ·)) fun hvalue => ?_
  grind

end Respects

/-- A test that does not tell equal items apart. -/
theorem any_insertNew {p : α → Bool} (hp : ∀ a b, (a == b) → p a = p b)
    (items more : List α) : (insertNew items more).any p = (items ++ more).any p := by
  have hmem : ∀ l : List α,
      l.any p ↔ () ∈ l.filterMap fun a => if p a then some () else none := by
    simp
  rw [Bool.eq_iff_iff, hmem, hmem, mem_filterMap_insertNew]
  intro a b hab
  rw [hp a b hab]

end Codex.Data
