import Mathlib.Data.Nat.Find
import Mathlib.Data.List.Infix

namespace Codex.Data

open List

/-!
# Searching in a text that is still growing

* `find` — the position of the first occurrence of a pattern;
* `holdBack` — how much of the end of a text may be the beginning of an occurrence;
* `find_append_of_some` — a text that goes on does not move the first occurrence;
* `find_append_of_none` — without an occurrence so far, all that is in front of the part that is
  held back can be forgotten.
-/

variable {α : Type} [DecidableEq α] {needle s : List α} {i : Nat}

/-- The position of the first occurrence of `needle`. -/
def find (needle : List α) : List α → Option Nat
  | [] => if needle = [] then some 0 else none
  | a :: s => if needle <+: a :: s then some 0 else (find needle s).map (· + 1)

/-- The positions in front of `k` can be skipped if there is no occurrence at them. -/
theorem find_eq_map_drop {k : Nat} (hk : k ≤ s.length) (h : ∀ j < k, ¬ needle <+: s.drop j) :
    find needle s = (find needle (s.drop k)).map (k + ·) := by
  induction k generalizing s with
  | zero => simp
  | succ k ih =>
    cases s with
    | nil => simp at hk
    | cons a s =>
      have hrest := ih (by simpa using hk) fun j hj => by simpa using h (j + 1) (by omega)
      have hhead : ¬ needle <+: a :: s := by simpa using h 0 (by omega)
      rw [find, if_neg hhead, hrest, Option.map_map]
      congr 1
      funext n
      show k + n + 1 = k + 1 + n
      omega

theorem find_eq_some (h : find needle s = some i) :
    i + needle.length ≤ s.length ∧ needle <+: s.drop i ∧ ∀ j < i, ¬ needle <+: s.drop j := by
  induction s generalizing i with
  | nil =>
    unfold find at h
    split at h
    · rename_i hneedle
      cases h
      simp [hneedle]
    · cases h
  | cons a s ih =>
    unfold find at h
    split at h
    · rename_i hhead
      cases h
      exact ⟨by simpa using hhead.length_le, hhead, fun j hj => absurd hj (Nat.not_lt_zero j)⟩
    · rename_i hhead
      obtain ⟨n, hn, rfl⟩ := Option.map_eq_some_iff.mp h
      obtain ⟨hlen, hocc, hfirst⟩ := ih hn
      refine ⟨by simp only [length_cons]; omega, by simpa using hocc, ?_⟩
      intro j hj
      cases j with
      | zero => simpa using hhead
      | succ j => simpa using hfirst j (by omega)

theorem not_prefix_of_find_eq_none (h : find needle s = none) (j : Nat) :
    ¬ needle <+: s.drop j := by
  induction s generalizing j with
  | nil =>
    unfold find at h
    split at h
    · cases h
    · simpa using ‹_›
  | cons a s ih =>
    unfold find at h
    split at h
    · cases h
    · rename_i hhead
      cases j with
      | zero => simpa using hhead
      | succ j => simpa using ih (Option.map_eq_none_iff.mp h) j

theorem find_drop_of_none (h : find needle s = none) (k : Nat) : find needle (s.drop k) = none := by
  by_contra hne
  obtain ⟨i, hi⟩ := Option.ne_none_iff_exists'.mp hne
  have hocc := (find_eq_some hi).2.1
  rw [drop_drop] at hocc
  exact not_prefix_of_find_eq_none h _ hocc

theorem find_of_prefix (h : needle <+: s) : find needle s = some 0 := by
  cases s with
  | nil => simp [find, prefix_nil.mp h]
  | cons a s => simp [find, h]

theorem find_eq_of_first (hi : i ≤ s.length) (hocc : needle <+: s.drop i)
    (hfirst : ∀ j < i, ¬ needle <+: s.drop j) : find needle s = some i := by
  rw [find_eq_map_drop hi hfirst, find_of_prefix hocc]
  rfl

/-- **A first occurrence stays** the first occurrence when the text goes on. -/
theorem find_append_of_some (h : find needle s = some i) (r : List α) :
    find needle (s ++ r) = some i := by
  obtain ⟨hlen, hocc, hfirst⟩ := find_eq_some h
  refine find_eq_of_first (by simp only [length_append]; omega) ?_ ?_
  · rw [drop_append_of_le_length (by omega)]
    exact hocc.trans (prefix_append _ _)
  · intro j hj hpre
    rw [drop_append_of_le_length (by omega)] at hpre
    -- An occurrence in front of the first one would end inside `s`.
    refine hfirst j hj (prefix_of_prefix_length_le hpre (prefix_append _ _) ?_)
    rw [length_drop]
    omega

/-- How much of the end of `s` is the beginning of `needle`, short of all of it. -/
def holdBack (s needle : List α) : Nat :=
  Nat.findGreatest (fun k => needle.take k <:+ s) (min s.length (needle.length - 1))

/-- **Only what is held back matters** for the first occurrence in a text that goes on. -/
theorem find_append_of_none (h : find needle s = none) (r : List α) :
    find needle (s ++ r) = (find needle (s.drop (s.length - holdBack s needle) ++ r)).map
        (s.length - holdBack s needle + ·) := by
  have hdrop : ∀ j ≤ s.length, (s ++ r).drop j = s.drop j ++ r := fun j hj =>
    drop_append_of_le_length hj
  rw [find_eq_map_drop, hdrop _ (Nat.sub_le _ _)]
  · simp only [length_append]
    omega
  · intro j hj hpre
    rw [hdrop j (by omega)] at hpre
    rcases Nat.lt_or_ge (s.drop j).length needle.length with hlt | hge
    · -- The occurrence would begin with the end of `s`, which is not held back.
      have htake : needle.take (s.length - j) = s.drop j := by
        have hbegin := prefix_of_prefix_length_le (prefix_append (s.drop j) r) hpre hlt.le
        rw [prefix_iff_eq_take.mp hbegin, length_drop]
      have hsuffix : needle.take (s.length - j) <:+ s := htake ▸ drop_suffix j s
      rw [length_drop] at hlt
      have hle : s.length - j ≤ holdBack s needle := Nat.le_findGreatest (by omega) hsuffix
      omega
    · exact not_prefix_of_find_eq_none h j
        (prefix_of_prefix_length_le hpre (prefix_append _ _) hge)

end Codex.Data
