import Mathlib.Data.List.Basic

namespace Codex.Data

open List

/-!
# Steps after what has been done

`Stepwise P done steps` says that each of the steps has `P` after what was done before it: all of
`done`, and the steps in front of it.

* `stepwise_cons`, `stepwise_append` — steps one by one, and one list of steps after the other;
* `stepwise_flatMap` — steps that are made in groups.
-/

variable {α β : Type*} {P : List α → α → Prop} {done l m : List α} {a : α}

/-- Each step has `P` after what was done before it. -/
def Stepwise (P : List α → α → Prop) (done steps : List α) : Prop :=
  ∀ before step after, steps = before ++ step :: after → P (done ++ before) step

@[simp] theorem stepwise_nil : Stepwise P done [] := by
  intro before step after h
  cases before <;> cases h

theorem stepwise_cons : Stepwise P done (a :: l) ↔ P done a ∧ Stepwise P (done ++ [a]) l := by
  constructor
  · intro h
    refine ⟨by simpa using h [] a l rfl, fun before step after hl => ?_⟩
    rw [append_assoc]
    exact h (a :: before) step after (by rw [hl]; rfl)
  · rintro ⟨ha, hl⟩ before step after h
    cases before with
    | nil =>
      cases h
      rwa [append_nil]
    | cons b before =>
      cases h
      have := hl before step after rfl
      rwa [append_assoc] at this

theorem stepwise_append :
    Stepwise P done (l ++ m) ↔ Stepwise P done l ∧ Stepwise P (done ++ l) m := by
  induction l generalizing done with
  | nil => simp
  | cons a l ih =>
    rw [cons_append, stepwise_cons, stepwise_cons, ih, and_assoc, append_assoc]
    rfl

/-- Steps that are made in groups: each group after the groups in front of it. -/
theorem stepwise_flatMap {g : β → List α} {groups : List β} :
    Stepwise P done (groups.flatMap g) ↔
      ∀ before group after, groups = before ++ group :: after →
        Stepwise P (done ++ before.flatMap g) (g group) := by
  induction groups generalizing done with
  | nil => simp
  | cons b groups ih =>
    rw [flatMap_cons, stepwise_append, ih]
    constructor
    · rintro ⟨hb, hgroups⟩ before group after h
      cases before with
      | nil =>
        cases h
        simpa using hb
      | cons c before =>
        cases h
        have := hgroups before group after rfl
        rwa [append_assoc] at this
    · intro h
      refine ⟨by simpa using h [] b groups rfl, fun before group after hgroups => ?_⟩
      have := h (b :: before) group after (by rw [hgroups]; rfl)
      rwa [flatMap_cons, ← append_assoc] at this

end Codex.Data
