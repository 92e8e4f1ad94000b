import Mathlib

namespace Codex.Data

open List

/-!
# Undoing the newest marked elements

A log of pushes and of undos that take back the newest pushes. Reading the log backwards, with a
count of the pushes still to skip, finds the newest push that is left without building the stack.

* `exists_split_countP`, `filter_take_eq` — a list cut in front of one of its marked elements.
* `undoRun` — the stack that a log leaves; `newestLeft` — the backward reading of the log.
* `newestLeft_reverse` — the backward reading finds the top of the stack.
-/

variable {α : Type}

/-! ### Cutting a list at a marked element -/

/-- A list with at least `k` marked elements can be cut at the `k`-th marked element from the
    end. -/
theorem exists_split_countP (p : α → Bool) {l : List α} {k : ℕ} (hpos : 0 < k)
    (hk : k ≤ l.countP p) :
    ∃ front x rest, l = front ++ x :: rest ∧ p x ∧ rest.countP p + 1 = k := by
  induction l with
  | nil =>
    have h0 : k ≤ 0 := by simpa using hk
    omega
  | cons a l ih =>
    by_cases hle : k ≤ l.countP p
    · obtain ⟨front, x, rest, rfl, hx, hrest⟩ := ih hle
      exact ⟨a :: front, x, rest, rfl, hx, hrest⟩
    · -- only the head can be the element in question
      cases ha : p a with
      | false => simp [ha] at hk; omega
      | true =>
        rw [countP_cons_of_pos ha] at hk
        exact ⟨[], a, l, rfl, ha, by omega⟩

/-- The marked elements of an initial part are the first marked elements. -/
theorem filter_take_eq (p : α → Bool) (l : List α) (c : ℕ) :
    (l.take c).filter p = (l.filter p).take ((l.take c).countP p) := by
  conv_rhs => rw [← take_append_drop c l, filter_append]
  rw [take_append_drop c l, take_left' (countP_eq_length_filter).symm]

/-- Taking all but the last `n` elements, newest first. -/
theorem reverse_take_sub (l : List α) (n : ℕ) :
    (l.take (l.length - n)).reverse = l.reverse.drop n := by
  rcases Nat.le_total n l.length with hle | hle
  · rw [reverse_take, Nat.sub_sub_self hle]
  · rw [Nat.sub_eq_zero_of_le hle, take_zero, reverse_nil,
      drop_eq_nil_of_le (by rwa [length_reverse])]

/-! ### The stack of a log -/

/-- An entry of the log. -/
inductive UndoEvent (α : Type) where
  | push (a : α)
  | undo (n : ℕ)

/-- One entry, on the stack with its newest element first. -/
def UndoEvent.apply : List α → UndoEvent α → List α
  | stack, .push a => a :: stack
  | stack, .undo n => stack.drop n

/-- The stack after a log. -/
def undoRun (stack : List α) (log : List (UndoEvent α)) : List α := log.foldl UndoEvent.apply stack

theorem undoRun_append (stack : List α) (log log' : List (UndoEvent α)) :
    undoRun stack (log ++ log') = undoRun (undoRun stack log) log' := foldl_append ..

/-- A run of pushes stacks them up. -/
theorem undoRun_push (stack l : List α) : undoRun stack (l.map .push) = l.reverse ++ stack := by
  induction l generalizing stack with
  | nil => rfl
  | cons a l ih =>
    show undoRun (a :: stack) (l.map .push) = _
    rw [ih, reverse_cons, append_assoc]
    rfl

/-- Read the log from its newest entry on, with `pending` pushes still to skip. -/
def newestLeft : ℕ → List (UndoEvent α) → Option α
  | _, [] => none
  | pending, .undo n :: older => newestLeft (pending + n) older
  | 0, .push a :: _ => some a
  | pending + 1, .push _ :: older => newestLeft pending older

/-- **The backward reading finds the top of the stack**, below the pushes still to skip. -/
theorem newestLeft_reverse (pending : ℕ) (log : List (UndoEvent α)) :
    newestLeft pending log.reverse = ((undoRun [] log).drop pending).head? := by
  induction log using reverseRecOn generalizing pending with
  | nil => simp [newestLeft, undoRun]
  | append_singleton log event ih =>
    rw [reverse_append, undoRun_append]
    cases event with
    | undo n =>
      show newestLeft (pending + n) log.reverse = (((undoRun [] log).drop n).drop pending).head?
      rw [ih, drop_drop, Nat.add_comm]
    | push a =>
      cases pending with
      | zero => rfl
      | succ pending => exact ih pending

end Codex.Data
