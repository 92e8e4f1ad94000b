import Mathlib.Data.List.Basic

namespace Codex.Data

/-!
# The last answer

Each entry of a list may have an answer; `lastSome` is the answer of the last entry that has one, as
where later entries hide what earlier ones say.

* `lastSome_append`, `lastSome_flatMap` — the last answer of a list that is put together from
  lists;
* `exists_of_lastSome` — the entry with the last answer, and no answers behind it;
* `lastSome_of_mem` — a property that all answers have and that one of them is asked for.
-/

variable {α β γ : Type*} {f : α → Option γ} {l m : List α} {a : α} {c : γ}

def lastSome (f : α → Option γ) (l : List α) : Option γ := (l.filterMap f).getLast?

@[simp] theorem lastSome_nil : lastSome f [] = none := rfl

theorem lastSome_append : lastSome f (l ++ m) = (lastSome f m).or (lastSome f l) := by
  simp [lastSome]

@[simp] theorem lastSome_singleton : lastSome f [a] = f a := by
  cases h : f a <;> simp [lastSome, h]

theorem lastSome_concat : lastSome f (l ++ [a]) = (f a).or (lastSome f l) := by
  rw [lastSome_append, lastSome_singleton]

theorem lastSome_cons : lastSome f (a :: l) = (lastSome f l).or (f a) := by
  rw [← List.singleton_append, lastSome_append, lastSome_singleton]

theorem lastSome_eq_none_iff : lastSome f l = none ↔ ∀ a ∈ l, f a = none := by
  simp [lastSome]

theorem lastSome_map {g : β → α} {l : List β} :
    lastSome f (l.map g) = lastSome (fun b => f (g b)) l := by
  simp only [lastSome, List.filterMap_map]
  rfl

theorem lastSome_flatMap {g : β → List α} {l : List β} :
    lastSome f (l.flatMap g) = lastSome (fun b => lastSome f (g b)) l := by
  induction l with
  | nil => rfl
  | cons b l ih => rw [List.flatMap_cons, lastSome_append, ih, lastSome_cons]

/-- The entry with the last answer. -/
theorem exists_of_lastSome (h : lastSome f l = some c) :
    ∃ before a after, l = before ++ a :: after ∧ f a = some c ∧ ∀ b ∈ after, f b = none := by
  induction l with
  | nil => cases h
  | cons a l ih =>
    rw [lastSome_cons] at h
    cases hl : lastSome f l with
    | none =>
      rw [hl] at h
      exact ⟨[], a, l, rfl, h, lastSome_eq_none_iff.mp hl⟩
    | some c' =>
      rw [hl] at h
      obtain ⟨before, b, after, rfl, hb, hafter⟩ := ih (hl.trans h)
      exact ⟨a :: before, b, after, rfl, hb, hafter⟩

/-- A property of all answers is one of the last answer, and there is a last one. -/
theorem lastSome_of_mem {P : γ → Prop} (hall : ∀ b ∈ l, ∀ c, f b = some c → P c) (ha : a ∈ l)
    (hsome : f a ≠ none) : ∃ c, lastSome f l = some c ∧ P c := by
  cases h : lastSome f l with
  | none => exact absurd (lastSome_eq_none_iff.mp h a ha) hsome
  | some c =>
    obtain ⟨before, b, after, rfl, hb, -⟩ := exists_of_lastSome h
    exact ⟨c, rfl, hall b (by simp) c hb⟩

end Codex.Data
