import Mathlib.Data.List.Basic

namespace Codex.Data

open List Option

/-!
# Threads over a shared state

Any number of threads take steps on a state they share, one at a time and in any order.  What one
thread does is a relation `step s l e s' l'`: from the shared state `s` and its own state `l` it
goes to `s'` and `l'`, and `e` is what can be seen of it.

* `Pool` — a shared state with the threads that run on it;
* `Pool.Run` — the interleavings, with the trace of what was seen and which thread did it;
* `Pool.Run.invariant` — an assertion about the shared state and one for each thread hold in every
  run if the steps of a thread keep its own assertion and do not disturb those of the others;
* `Pool.play` — a schedule that is played out, and `Pool.run_of_play`: what is played is a run.
-/

/-- A shared state, and the states of the threads that run on it. -/
structure Pool (S L : Type) where
  shared : S
  threads : List L

namespace Pool

variable {S L E : Type} {starts : L → Prop} {step : S → L → E → S → L → Prop}

/-- The runs from one pool to another: threads are started, and threads take steps.  The trace
    lists the steps in order, each with the number of its thread. -/
inductive Run (starts : L → Prop) (step : S → L → E → S → L → Prop) (start : Pool S L) :
    List (ℕ × E) → Pool S L → Prop
  | refl : Run starts step start [] start
  | spawn {trace : List (ℕ × E)} {pool : Pool S L} {l : L} (run : Run starts step start trace pool)
      (hl : starts l) : Run starts step start trace ⟨pool.shared, pool.threads ++ [l]⟩
  | step {trace : List (ℕ × E)} {pool : Pool S L} {i : ℕ} {l l' : L} {e : E} {s' : S}
      (run : Run starts step start trace pool) (hi : pool.threads[i]? = some l)
      (h : step pool.shared l e s' l') :
      Run starts step start (trace ++ [(i, e)]) ⟨s', pool.threads.set i l'⟩

variable {i j : ℕ} {e e' : E} {trace : List (ℕ × E)}

/-- What a trace says after one more step. -/
theorem mem_concat : (j, e) ∈ trace ++ [(i, e')] ↔ (j, e) ∈ trace ∨ j = i ∧ e = e' := by
  simp

theorem mem_of_mem_concat (hij : i ≠ j) (h : (j, e) ∈ trace ++ [(i, e')]) : (j, e) ∈ trace :=
  (mem_concat.mp h).resolve_right fun heq => hij heq.1.symm

variable {pool : Pool S L} {start : Pool S L}
/-- The threads a trace speaks of have been started. -/
theorem Run.lt_length_of_mem (run : Run starts step start trace pool)
    (h : (i, e) ∈ trace) : i < pool.threads.length := by
  induction run with
  | refl => cases h
  | spawn _ _ ih =>
    have hlt := ih h
    rw [length_append]
    omega
  | @step trace pool j l l' e' s' _ hj _ ih =>
    rw [length_set]
    rcases mem_concat.mp h with h | ⟨rfl, -⟩
    · exact ih h
    · exact (List.getElem?_eq_some_iff.mp hj).1

/-- What some thread satisfies, before and after a step: the thread that takes it, or another one. -/
theorem exists_mem_set {threads : List L} {l : L} (hi : threads[i]? = some l) (l' : L)
    (P : L → Prop) : ∃ others : Prop, ((∃ m ∈ threads, P m) ↔ P l ∨ others) ∧
      ((∃ m ∈ threads.set i l', P m) ↔ P l' ∨ others) := by
  obtain ⟨hlt, rfl⟩ := List.getElem?_eq_some_iff.mp hi
  refine ⟨∃ m ∈ threads.take i ++ threads.drop (i + 1), P m, ?_, ?_⟩
  · nth_rewrite 1 [← take_append_drop i threads, drop_eq_getElem_cons hlt]
    simp only [mem_append, mem_cons, or_and_right, exists_or, exists_eq_left, or_left_comm]
  · rw [set_eq_take_append_cons_drop, if_pos hlt]
    simp [or_left_comm]

variable {J : List (ℕ × E) → S → ℕ → L → Prop} {I : List (ℕ × E) → S → Prop}

/-- **Assertions about all threads.**  The assertion `I` about the shared state and the assertion
    `J` about a thread may speak of the trace so far, in which a thread is not seen before it
    starts. -/
theorem Run.invariant {s : S} (run : Run starts step ⟨s, []⟩ trace pool) (hI : I [] s)
    (hstart : ∀ trace s i l, I trace s → (∀ e, (i, e) ∉ trace) → starts l → J trace s i l)
    (hown : ∀ trace s i l e s' l', I trace s → J trace s i l → step s l e s' l' →
      I (trace ++ [(i, e)]) s' ∧ J (trace ++ [(i, e)]) s' i l')
    (hother : ∀ trace s i l e s' l' j m, I trace s → J trace s i l → J trace s j m → i ≠ j →
      step s l e s' l' → J (trace ++ [(i, e)]) s' j m) :
    I trace pool.shared ∧ ∀ i l, pool.threads[i]? = some l → J trace pool.shared i l := by
  induction run with
  | refl => exact ⟨hI, fun i l hl => by simp at hl⟩
  | @spawn trace pool l run hl ih =>
    refine ⟨ih.1, fun i m hm => ?_⟩
    rw [getElem?_append] at hm
    split at hm
    · exact ih.2 i m hm
    · next hi =>
      obtain rfl : m = l := by simpa using mem_of_getElem? hm
      exact hstart trace pool.shared i m ih.1 (fun e he => hi (run.lt_length_of_mem he)) hl
  | @step trace pool i l l' e s' _ hi h ih =>
    obtain ⟨hI', hJ'⟩ := hown _ _ _ _ _ _ _ ih.1 (ih.2 i l hi) h
    refine ⟨hI', fun j m hm => ?_⟩
    by_cases hij : i = j
    · subst hij
      obtain ⟨hlt, -⟩ := List.getElem?_eq_some_iff.mp hi
      rw [getElem?_set_self hlt] at hm
      cases hm
      exact hJ'
    · rw [getElem?_set_ne hij] at hm
      exact hother _ _ _ _ _ _ _ _ _ ih.1 (ih.2 i l hi) (ih.2 j m hm) hij h

/-! ### Schedules -/

/-- One turn of a scheduler: a thread is started, or a thread takes a step, with what it takes from
    outside. -/
inductive Turn (L D : Type)
  | spawn (l : L)
  | step (i : ℕ) (d : D)

/-- A turn that starts a thread starts one that may be started. -/
def Turn.Allowed {D : Type} (starts : L → Prop) : Turn L D → Prop
  | .spawn l => starts l
  | .step _ _ => True

/-- A pool that takes the turns of a schedule, if it can: the trace, and the pool at the end. -/
def play {D : Type} (next : D → S → L → Option (E × S × L)) (pool : Pool S L) :
    List (Turn L D) → Option (List (ℕ × E) × Pool S L)
  | [] => some ([], pool)
  | .spawn l :: turns => play next ⟨pool.shared, pool.threads ++ [l]⟩ turns
  | .step i d :: turns => do
    let l ← pool.threads[i]?
    let (e, s', l') ← next d pool.shared l
    let (trace, final) ← play next ⟨s', pool.threads.set i l'⟩ turns
    return ((i, e) :: trace, final)

variable {D : Type} {next : D → S → L → Option (E × S × L)}
  (hnext : ∀ d s l e s' l', next d s l = some (e, s', l') → step s l e s' l')
  {turns : List (Turn L D)} (hturns : ∀ turn ∈ turns, turn.Allowed starts)
include hnext hturns

/-- A schedule that can be played is a run. -/
theorem run_of_play {final : Pool S L} {before : List (ℕ × E)}
    (hstart : Run starts step start before pool) (h : play next pool turns = some (trace, final)) :
    Run starts step start (before ++ trace) final := by
  induction turns generalizing pool before trace with
  | nil =>
    cases h
    rw [append_nil]
    exact hstart
  | cons turn turns ih =>
    have hrest : ∀ turn ∈ turns, turn.Allowed starts :=
      fun turn hturn => hturns turn (mem_cons_of_mem _ hturn)
    cases turn with
    | spawn l => exact ih hrest (hstart.spawn (hturns _ mem_cons_self)) h
    | step i d =>
      obtain ⟨l, hl, h⟩ := bind_eq_some_iff.mp h
      obtain ⟨⟨e, s', l'⟩, hstep, h⟩ := bind_eq_some_iff.mp h
      obtain ⟨⟨rest, last⟩, hplay, h⟩ := bind_eq_some_iff.mp h
      cases h
      have hrun := ih hrest (hstart.step hl (hnext d _ _ _ _ _ hstep)) hplay
      rwa [append_assoc] at hrun

/-- A schedule that can be played, with what is read off its end. -/
theorem exists_run_of_play {β : Type} {read : List (ℕ × E) → Pool S L → β} {b : β}
    (h : (play next start turns).map (fun last => read last.1 last.2) = some b) :
    ∃ trace final, Run starts step start trace final ∧ read trace final = b := by
  obtain ⟨⟨trace, final⟩, hplay, hread⟩ := map_eq_some_iff.mp h
  exact ⟨trace, final, run_of_play hnext hturns .refl hplay, hread⟩

end Pool

end Codex.Data
