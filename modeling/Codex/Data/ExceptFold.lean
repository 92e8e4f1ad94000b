import Mathlib.Data.List.Basic

namespace Codex.Data

open List

/-!
# Folds that can fail

A machine that takes inputs one by one, and may reject one, is a function
`f : σ → α → Except ε σ`; its run over a list of inputs is `List.foldlM f`.

* `bind_eq_ok`, `check_bind_eq_ok`, `foldlM_cons_ok`, `foldlM_append_ok` — what it
  takes for a run to succeed;
* `map_bind_congr`, `exists_ok_of_map_eq` — two computations that look the same through a map;
* `foldlM_eq_error_iff`, `exists_of_mapM_eq_error` — where a run fails;
* `foldlM_map_eq`, `forM_eq_ok_iff` — where only reading the inputs can fail, they can be read
  first; a check of all inputs;
* `foldlM_output` — where each input appends to an output, so does the run;
* `Leads` — total correctness: from every state with the precondition the run over the inputs
  succeeds, in a state with the postcondition; with rules for the shapes of input lists.
-/

section Except

variable {ε α β γ : Type} {x : Except ε α}

theorem bind_eq_ok {f : α → Except ε β} {b : β} :
    x >>= f = .ok b ↔ ∃ a, x = .ok a ∧ f a = .ok b := by
  cases x with
  | error | ok => simp [bind, Except.bind]

/-- A check in front of a computation. -/
theorem check_bind_eq_ok {x : Except ε Unit} {f : Unit → Except ε β} {b : β} :
    x >>= f = .ok b ↔ x = .ok () ∧ f () = .ok b := by
  rw [bind_eq_ok]
  exact ⟨fun ⟨_, hx, hf⟩ => ⟨hx, hf⟩, fun ⟨hx, hf⟩ => ⟨(), hx, hf⟩⟩

theorem mapError_eq_ok {ε' : Type} {f : ε → ε'} {a : α} :
    x.mapError f = .ok a ↔ x = .ok a := by
  cases x <;> simp [Except.mapError]

/-- Two computations with the same image under `f`, each continued in a way that depends on the
    image alone, have the same image in the end. -/
theorem map_bind_congr {f : α → β} {k : γ → γ} {y : Except ε α}
    {g h : α → Except ε γ} (hxy : x.map f = y.map f)
    (hgh : ∀ a b, f a = f b → (g a).map k = (h b).map k) :
    (x >>= g).map k = (y >>= h).map k := by
  cases x with
  | error e =>
    cases y with
    | error e' => cases hxy; rfl
    | ok b => cases hxy
  | ok a =>
    cases y with
    | error e' => cases hxy
    | ok b => exact hgh a b (Except.ok.inj hxy)

theorem exists_ok_of_map_eq {f : α → β} {y : Except ε α} {b : α}
    (h : x.map f = y.map f) (hy : y = .ok b) : ∃ a, x = .ok a ∧ f a = f b := by
  subst hy
  cases x with
  | error e => cases h
  | ok a => exact ⟨a, rfl, Except.ok.inj h⟩

end Except

section Fold

variable {ε α β σ : Type} {f : σ → α → Except ε σ} {a : α} {l m : List α} {s t : σ}

theorem foldlM_cons_ok :
    (a :: l).foldlM f s = .ok t ↔ ∃ s', f s a = .ok s' ∧ l.foldlM f s' = .ok t := by
  rw [foldlM_cons, bind_eq_ok]

/-- A run that fails does so at a first input. -/
theorem foldlM_eq_error_iff {e : ε} :
    l.foldlM f s = .error e ↔ ∃ before a after s', l = before ++ a :: after ∧
      before.foldlM f s = .ok s' ∧ f s' a = .error e := by
  induction l generalizing s with
  | nil =>
    constructor
    · intro h
      cases h
    · rintro ⟨before, a, after, s', hl, -⟩
      cases before <;> cases hl
  | cons b l ih =>
    rw [foldlM_cons]
    cases hb : f s b with
    | error e' =>
      constructor
      · intro h
        cases h
        exact ⟨[], b, l, s, rfl, rfl, hb⟩
      · rintro ⟨before, a, after, s', hl, hbefore, ha⟩
        cases before with
        | nil =>
          cases hl
          cases hbefore
          rw [hb] at ha
          exact congrArg _ (Except.error.inj ha)
        | cons c before =>
          cases hl
          rw [foldlM_cons, hb] at hbefore
          cases hbefore
    | ok s₁ =>
      refine (ih).trans ⟨?_, ?_⟩
      · rintro ⟨before, a, after, s', rfl, hbefore, ha⟩
        refine ⟨b :: before, a, after, s', rfl, ?_, ha⟩
        rw [foldlM_cons_ok]
        exact ⟨s₁, hb, hbefore⟩
      · rintro ⟨before, a, after, s', hl, hbefore, ha⟩
        cases before with
        | nil =>
          cases hl
          cases hbefore
          rw [hb] at ha
          cases ha
        | cons c before =>
          cases hl
          obtain ⟨s₂, hs₂, hbefore⟩ := foldlM_cons_ok.mp hbefore
          cases hb.symm.trans hs₂
          exact ⟨before, a, after, s', rfl, hbefore, ha⟩

variable {read : α → Except ε β}

/-- An error of a run over independent inputs is the error of one of them. -/
theorem exists_of_mapM_eq_error {e : ε} (h : l.mapM read = .error e) :
    ∃ a ∈ l, read a = .error e := by
  induction l with
  | nil => cases h
  | cons b l ih =>
    rw [mapM_cons] at h
    cases hb : read b with
    | error e' =>
      rw [hb] at h
      cases h
      exact ⟨b, mem_cons_self, hb⟩
    | ok c =>
      rw [hb] at h
      cases hl : l.mapM read with
      | error e' =>
        obtain ⟨a, ha, hread⟩ := ih (by rw [hl] at h ⊢; cases h; rfl)
        exact ⟨a, mem_cons_of_mem _ ha, hread⟩
      | ok cs =>
        rw [hl] at h
        cases h

variable {bs : List β}

/-- What was read was read from one of the inputs. -/
theorem exists_of_mem_mapM (h : l.mapM read = .ok bs) {b : β} (hb : b ∈ bs) :
    ∃ a ∈ l, read a = .ok b := by
  induction l generalizing bs with
  | nil =>
    cases h
    cases hb
  | cons a l ih =>
    rw [mapM_cons] at h
    obtain ⟨c, hc, h⟩ := bind_eq_ok.mp h
    obtain ⟨cs, hcs, h⟩ := bind_eq_ok.mp h
    cases h
    rcases mem_cons.mp hb with rfl | hb
    · exact ⟨a, mem_cons_self, hc⟩
    · obtain ⟨a', ha', hread⟩ := ih hcs hb
      exact ⟨a', mem_cons_of_mem _ ha', hread⟩

theorem map_eq_of_mapM {γ : Type} {f : α → γ} {g : β → γ}
    (hread : ∀ a b, read a = .ok b → f a = g b) (h : l.mapM read = .ok bs) :
    l.map f = bs.map g := by
  induction l generalizing bs with
  | nil =>
    cases h
    rfl
  | cons a l ih =>
    rw [mapM_cons] at h
    obtain ⟨b, hb, h⟩ := bind_eq_ok.mp h
    obtain ⟨cs, hcs, h⟩ := bind_eq_ok.mp h
    cases h
    rw [map_cons, map_cons, hread a b hb, ih hcs]

theorem mapM_map_eq {γ : Type} {read' : α → Except ε γ} {g : γ → β}
    (h : ∀ a, read a = g <$> read' a) (l : List α) : l.mapM read = map g <$> l.mapM read' := by
  induction l with
  | nil => rfl
  | cons a l ih =>
    rw [mapM_cons, mapM_cons, ih, h a]
    cases read' a with
    | error e => rfl
    | ok c => cases l.mapM read' <;> rfl

/-- Where a step reads its input, which may fail, and then goes on, all inputs can be read
    first. -/
theorem foldlM_map_eq (read : α → Except ε β) (g : σ → β → σ) (l : List α) (s : σ) :
    l.foldlM (fun s a => g s <$> read a) s = (fun bs => bs.foldl g s) <$> l.mapM read := by
  induction l generalizing s with
  | nil => rfl
  | cons a l ih =>
    rw [foldlM_cons, mapM_cons]
    cases read a with
    | error e => rfl
    | ok b =>
      show l.foldlM (fun s a => g s <$> read a) (g s b) = _
      rw [ih]
      cases l.mapM read <;> rfl

theorem forM_eq_ok_iff (check : α → Except ε Unit) (l : List α) :
    l.forM check = .ok () ↔ ∀ a ∈ l, check a = .ok () := by
  induction l with
  | nil => simp [pure, Except.pure]
  | cons a l ih =>
    rw [forall_mem_cons, ← ih]
    exact check_bind_eq_ok

/-- What a run appends to an output, from what each of its steps appends. -/
theorem foldlM_output {out : σ → List β} {g : α → List β}
    (h : ∀ s a t, f s a = .ok t → out t = out s ++ g a) (hrun : l.foldlM f s = .ok t) :
    out t = out s ++ l.flatMap g := by
  induction l generalizing s with
  | nil =>
    cases hrun
    simp
  | cons a l ih =>
    obtain ⟨s', hstep, hrun⟩ := foldlM_cons_ok.mp hrun
    rw [ih hrun, h _ _ _ hstep, flatMap_cons, append_assoc]

theorem foldlM_append_ok :
    (l ++ m).foldlM f s = .ok t ↔ ∃ s', l.foldlM f s = .ok s' ∧ m.foldlM f s' = .ok t := by
  rw [foldlM_append, bind_eq_ok]

/-- From every state with `p`, the run over `l` succeeds in a state with `q`. -/
def Leads (f : σ → α → Except ε σ) (l : List α) (p q : σ → Prop) : Prop :=
  ∀ s, p s → ∃ t, l.foldlM f s = .ok t ∧ q t

namespace Leads

variable {p q r : σ → Prop}

theorem nil : Leads f [] p p := fun s hs => ⟨s, rfl, hs⟩

theorem weaken (h : Leads f l p q) (hqr : ∀ s, q s → r s) : Leads f l p r := by
  intro s hs
  obtain ⟨t, hrun, ht⟩ := h s hs
  exact ⟨t, hrun, hqr t ht⟩

theorem single (h : ∀ s, p s → ∃ t, f s a = .ok t ∧ q t) : Leads f [a] p q := by
  intro s hs
  obtain ⟨t, hstep, ht⟩ := h s hs
  exact ⟨t, foldlM_cons_ok.mpr ⟨t, hstep, rfl⟩, ht⟩

/-- One part of the inputs after the other. -/
theorem append (hl : Leads f l p q) (hm : Leads f m q r) : Leads f (l ++ m) p r := by
  intro s hs
  obtain ⟨s', hrun, hs'⟩ := hl s hs
  obtain ⟨t, hrun', ht⟩ := hm s' hs'
  exact ⟨t, foldlM_append_ok.mpr ⟨s', hrun, hrun'⟩, ht⟩

theorem cons (h : Leads f [a] p q) (hl : Leads f l q r) : Leads f (a :: l) p r := append h hl

variable {I : List β → σ → Prop}

/-- **Iteration.**  The inputs of `bs` in turn, with an invariant that says which of them have
    been taken. -/
theorem flatMap {g : β → List α}
    (h : ∀ done b, b ∈ bs → Leads f (g b) (I done) (I (done ++ [b]))) (done : List β) :
    Leads f (bs.flatMap g) (I done) (I (done ++ bs)) := by
  induction bs generalizing done with
  | nil =>
    rw [append_nil]
    exact nil
  | cons b bs ih =>
    have hrest := ih (fun done b' hb' => h done b' (mem_cons_of_mem b hb')) (done ++ [b])
    rw [append_assoc] at hrest
    exact append (h done b mem_cons_self) hrest

/-- Iteration over single inputs. -/
theorem map {g : β → α}
    (h : ∀ done b, b ∈ bs → Leads f [g b] (I done) (I (done ++ [b]))) (done : List β) :
    Leads f (bs.map g) (I done) (I (done ++ bs)) := by
  rw [map_eq_flatMap]
  exact flatMap h done

end Leads

end Fold

end Codex.Data
