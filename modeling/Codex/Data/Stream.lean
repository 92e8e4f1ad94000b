import Mathlib.Data.List.Basic

namespace Codex.Data

open List

/-!
# Stream parsers

A stream parser takes its input in chunks, gives an output for each of them, and a last output
when the input ends.  What it computes should not depend on the cuts: it has a meaning, which
says for each state and each rest of the input what is still to come.

* `StreamParser.outputs` — the outputs for a list of chunks;
* `StreamParser.Computes` — an observation of the outputs has a meaning;
* `Computes.outputs_eq` — the observation of all outputs is the meaning of all the input;
* `Computes.of_simulation` — a parser that does what another one does;
* `Computes.comp` — the meaning of a parser that reads what another one lets through.
-/

/-- A parser that takes chunks of `α`s in states `σ`, and gives outputs `ω`. -/
structure StreamParser (σ α ω : Type) where
  push : σ → List α → σ × ω
  finish : σ → ω

namespace StreamParser

variable {σ τ α β ω ω' ε : Type}

/-- The outputs for the chunks, and the last one for the end of the input. -/
def outputs (M : StreamParser σ α ω) : σ → List (List α) → List ω
  | s, [] => [M.finish s]
  | s, chunk :: chunks => (M.push s chunk).2 :: M.outputs (M.push s chunk).1 chunks

/-- What holds of every output holds of the outputs of a run. -/
theorem forall_outputs (M : StreamParser σ α ω) {p : ω → Prop}
    (hpush : ∀ s chunk, p (M.push s chunk).2) (hfinish : ∀ s, p (M.finish s)) (s : σ)
    (chunks : List (List α)) : ∀ out ∈ M.outputs s chunks, p out := by
  induction chunks generalizing s with
  | nil => exact forall_mem_singleton.mpr (hfinish s)
  | cons chunk chunks ih => exact forall_mem_cons.mpr ⟨hpush s chunk, ih _⟩

/-- In states with the invariant, what `observe` sees of the outputs for a rest of the input is
    `meaning` of the state and this rest. -/
structure Computes (M : StreamParser σ α ω) (inv : σ → Prop) (observe : ω → List ε)
    (meaning : σ → List α → List ε) : Prop where
  invariant : ∀ s chunk, inv s → inv (M.push s chunk).1
  push : ∀ s chunk rest, inv s → meaning s (chunk ++ rest) =
    observe (M.push s chunk).2 ++ meaning (M.push s chunk).1 rest
  finish : ∀ s, inv s → observe (M.finish s) = meaning s []

variable {M : StreamParser σ α ω} {inv : σ → Prop} {observe : ω → List ε}
  {meaning : σ → List α → List ε}

section

variable (h : M.Computes inv observe meaning)
include h

/-- **Cuts do not matter.**  All outputs together show the meaning of the whole input. -/
theorem Computes.outputs_eq {s : σ} (hs : inv s) (chunks : List (List α)) :
    (M.outputs s chunks).flatMap observe = meaning s chunks.flatten := by
  induction chunks generalizing s with
  | nil =>
    rw [outputs, flatMap_singleton, h.finish s hs]
    rfl
  | cons chunk chunks ih =>
    rw [outputs, flatMap_cons, ih (h.invariant s chunk hs), flatten_cons, h.push s chunk _ hs]

/-- So the chunks can as well come in one piece. -/
theorem Computes.outputs_flatten {s : σ} (hs : inv s) (chunks : List (List α)) :
    (M.outputs s chunks).flatMap observe = (M.outputs s [chunks.flatten]).flatMap observe := by
  rw [h.outputs_eq hs, h.outputs_eq hs, flatten_singleton]

/-- The last chunk, and the end of the input. -/
theorem Computes.push_last {s : σ} (hs : inv s) (chunk : List α) :
    meaning s chunk = observe (M.push s chunk).2 ++ observe (M.finish (M.push s chunk).1) := by
  rw [h.finish _ (h.invariant s chunk hs), ← h.push s chunk [] hs, append_nil]

/-- A part of what is observed. -/
theorem Computes.filterMap {δ : Type} (f : ε → Option δ) :
    M.Computes inv (fun out => (observe out).filterMap f)
      (fun s rest => (meaning s rest).filterMap f) where
  invariant := h.invariant
  push s chunk rest hs := by rw [h.push s chunk rest hs, filterMap_append]
  finish s hs := by rw [h.finish s hs]

end

variable {observe' : ω' → List ε} {inv' : τ → Prop}

/-- A parser that does what another one does, in states with `good`. -/
theorem Computes.of_simulation {N : StreamParser τ α ω'} {meaning' : τ → List α → List ε}
    (h : N.Computes inv' observe' meaning') (good : σ → Prop) (proj : σ → τ)
    (hgood : ∀ s chunk, good s → good (M.push s chunk).1)
    (hstate : ∀ s chunk, good s → proj (M.push s chunk).1 = (N.push (proj s) chunk).1)
    (hpush : ∀ s chunk, good s → observe (M.push s chunk).2 = observe' (N.push (proj s) chunk).2)
    (hfinish : ∀ s, good s → observe (M.finish s) = observe' (N.finish (proj s))) :
    M.Computes (fun s => good s ∧ inv' (proj s)) observe
      (fun s rest => meaning' (proj s) rest) where
  invariant s chunk hs := by
    refine ⟨hgood s chunk hs.1, ?_⟩
    rw [hstate s chunk hs.1]
    exact h.invariant (proj s) chunk hs.2
  push s chunk rest hs := by
    rw [hpush s chunk hs.1, hstate s chunk hs.1]
    exact h.push (proj s) chunk rest hs.2
  finish s hs := by
    rw [hfinish s hs.1]
    exact h.finish (proj s) hs.2

/-- The parser `N` behind the parser `M`, of whose outputs it reads what `M` lets through. -/
def comp (M : StreamParser σ α ω) (through : ω → List β) (N : StreamParser τ β ω') :
    StreamParser (σ × τ) α (ω × List ω') where
  push s chunk :=
    let first := M.push s.1 chunk
    let second := N.push s.2 (through first.2)
    ((first.1, second.1), first.2, [second.2])
  finish s :=
    let first := M.finish s.1
    let second := N.push s.2 (through first)
    (first, [second.2, N.finish second.1])

/-- **Composition.**  The second parser works on the meaning of the first one. -/
theorem Computes.comp {through : ω → List β} {meaning : σ → List α → List β}
    {N : StreamParser τ β ω'} {meaning' : τ → List β → List ε} (hM : M.Computes inv through meaning)
    (hN : N.Computes inv' observe' meaning') :
    (M.comp through N).Computes (fun s => inv s.1 ∧ inv' s.2) (fun out => out.2.flatMap observe')
      (fun s rest => meaning' s.2 (meaning s.1 rest)) where
  invariant s chunk hs := ⟨hM.invariant s.1 chunk hs.1, hN.invariant s.2 _ hs.2⟩
  push s chunk rest hs := by
    show meaning' s.2 (meaning s.1 (chunk ++ rest)) =
      [(N.push s.2 (through (M.push s.1 chunk).2)).2].flatMap observe' ++ _
    rw [hM.push s.1 chunk rest hs.1, hN.push s.2 _ _ hs.2, flatMap_singleton]
    rfl
  finish s hs := by
    show [_, _].flatMap observe' = meaning' s.2 (meaning s.1 [])
    rw [← hM.finish s.1 hs.1, hN.push_last hs.2]
    simp

end StreamParser

end Codex.Data
