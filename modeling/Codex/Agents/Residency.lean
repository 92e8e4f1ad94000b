import Mathlib

namespace Codex.Agents

open List System Bool

/-!
# Resident agents

The threads of version-2 agents that are loaded, oldest use first, and the places that are
promised to threads about to be loaded.  A reservation that finds no place takes a thread off
the list, tries to unload it, and puts it back if it is busy or does not shut down.  Several
reservations run at once and meet at the lock of the state only.

* `Call.act` — what a reservation does under one lock;
* `run_places` — a reservation never unloads the thread it protects, and the residents and the
  pending slots stay within the capacity if no place is taken while a candidate is off the list;
* `run_slots` — slots are those of calls, and residents are not repeated, in every run.
-/

variable {ThreadId : Type} [DecidableEq ThreadId]

/-! ### The state -/

structure V2ResidencyState (ThreadId : Type) where
  residents : List ThreadId
  pendingSlots : Nat

def touchResident (residents : List ThreadId) (thread : ThreadId) : List ThreadId :=
  residents.filter (· ≠ thread) ++ [thread]

/-- The loop of `pop_lru_candidate`, for the rounds that are left: the protected thread goes to
    the back, the first other thread is taken off. -/
def popLru (guarded : Option ThreadId) : Nat → List ThreadId → Option ThreadId × List ThreadId
  | 0, residents => (none, residents)
  | _ + 1, [] => (none, [])
  | rounds + 1, thread :: residents =>
    if some thread = guarded then popLru guarded rounds (residents ++ [thread])
    else (some thread, residents)

namespace V2ResidencyState

variable (s : V2ResidencyState ThreadId)

def tryReservePendingSlot (capacity : Nat) : Option (V2ResidencyState ThreadId) :=
  if capacity ≤ s.residents.length + s.pendingSlots then none
  else some { s with pendingSlots := s.pendingSlots + 1 }

def popLruCandidate (guarded : Option ThreadId) :
    Option ThreadId × V2ResidencyState ThreadId :=
  ((popLru guarded s.residents.length s.residents).1,
    { s with residents := (popLru guarded s.residents.length s.residents).2 })

def touch (thread : ThreadId) : V2ResidencyState ThreadId :=
  { s with residents := touchResident s.residents thread }

def commitSlot (thread : ThreadId) : V2ResidencyState ThreadId :=
  { residents := touchResident s.residents thread, pendingSlots := s.pendingSlots - 1 }

def releasePendingSlot : V2ResidencyState ThreadId := { s with pendingSlots := s.pendingSlots - 1 }

def remove (thread : ThreadId) : V2ResidencyState ThreadId :=
  { s with residents := s.residents.filter (· ≠ thread) }

end V2ResidencyState

/-! ### Reservations -/

/-- Where a call of `reserve_slot` stands: at `try_reserve_pending_slot`, at `resident_count`, at
    the head of the loop of `try_unload_one_resident`, at work on a candidate that is off the
    list, returned with a slot, or returned without one (or its slot is used up). -/
inductive Call (ThreadId : Type)
  | reserving (guarded : Option ThreadId)
  | counting (guarded : Option ThreadId)
  | scanning (guarded : Option ThreadId) (rounds : Nat)
  | unloading (guarded : Option ThreadId) (rounds : Nat) (candidate : ThreadId)
  | slot
  | done

/-- What becomes of a candidate and of a slot. -/
inductive Outcome (ThreadId : Type)
  | gone
  | busy
  | shutdownFailed
  | unloaded
  | commit (thread : ThreadId)
  | drop

/-- What a call does under its next lock.  An outcome that does not fit does nothing. -/
def Call.act (capacity : Nat) (s : V2ResidencyState ThreadId) (outcome : Outcome ThreadId) :
    Call ThreadId → V2ResidencyState ThreadId × Call ThreadId
  | .reserving guarded =>
    match s.tryReservePendingSlot capacity with
    | some s' => (s', .slot)
    | none => (s, .counting guarded)
  | .counting guarded => (s, .scanning guarded s.residents.length)
  | .scanning _ 0 => (s, .done)
  | .scanning guarded (rounds + 1) =>
    match s.popLruCandidate guarded with
    | (some candidate, s') => (s', .unloading guarded rounds candidate)
    | (none, s') => (s', .done)
  | .unloading guarded rounds candidate =>
    match outcome with
    | .gone => (s, .scanning guarded rounds)
    | .busy | .shutdownFailed => (s.touch candidate, .scanning guarded rounds)
    | .unloaded => (s, .reserving guarded)
    | _ => (s, .unloading guarded rounds candidate)
  | .slot =>
    match outcome with
    | .commit thread => (s.commitSlot thread, .done)
    | .drop => (s.releasePendingSlot, .done)
    | _ => (s, .slot)
  | .done => (s, .done)

structure System (ThreadId : Type) where
  state : V2ResidencyState ThreadId
  calls : List (Call ThreadId)

inductive Turn (ThreadId : Type)
  | reserve (guarded : Option ThreadId)
  | proceed (i : Nat) (outcome : Outcome ThreadId)
  | touch (thread : ThreadId)

def System.step (capacity : Nat) (sys : System ThreadId) : Turn ThreadId → System ThreadId
  | .reserve guarded => { sys with calls := sys.calls ++ [.reserving guarded] }
  | .proceed i outcome =>
    match sys.calls[i]? with
    | some call =>
      ⟨(call.act capacity sys.state outcome).1,
        sys.calls.set i (call.act capacity sys.state outcome).2⟩
    | none => sys
  | .touch thread =>
    if thread ∈ sys.state.residents then { sys with state := sys.state.touch thread } else sys

def Call.isUnloading : Call ThreadId → Bool
  | .unloading _ _ _ => true
  | _ => false

def Call.isSlot : Call ThreadId → Bool
  | .slot => true
  | _ => false

/-- The call still protects the thread it was given, and has another one for its candidate. -/
def Call.Protects (guarded : Option ThreadId) : Call ThreadId → Prop
  | .reserving guarded' | .counting guarded' | .scanning guarded' _ => guarded' = guarded
  | .unloading guarded' _ candidate => guarded' = guarded ∧ some candidate ≠ guarded
  | .slot | .done => True

/-- The threads that the reservations of a run protect, one for each call. -/
def guards (turns : List (Turn ThreadId)) : List (Option ThreadId) :=
  turns.filterMap fun
    | .reserve guarded => some guarded
    | _ => none

/-- No place is taken while a candidate is off the list. -/
def Orderly (capacity : Nat) (sys : System ThreadId) : List (Turn ThreadId) → Prop
  | [] => True
  | turn :: turns =>
    (sys.state.pendingSlots < (sys.step capacity turn).state.pendingSlots →
      sys.calls.countP Call.isUnloading = 0) ∧ Orderly capacity (sys.step capacity turn) turns

/-! ### What one lock does -/

section

variable {capacity : Nat} {s : V2ResidencyState ThreadId} {call : Call ThreadId}

theorem length_touchResident_le (residents : List ThreadId) (thread : ThreadId) :
    (touchResident residents thread).length ≤ residents.length + 1 := by
  have := length_filter_le (· ≠ thread) residents
  rw [touchResident, length_append, length_singleton]
  omega

theorem length_touchResident_of_mem {residents : List ThreadId} {thread : ThreadId}
    (h : thread ∈ residents) : (touchResident residents thread).length ≤ residents.length := by
  have : (residents.filter (· ≠ thread)).length < residents.length :=
    length_filter_lt_length_iff_exists.mpr ⟨thread, h, by simp⟩
  rw [touchResident, length_append, length_singleton]
  omega

/-- A candidate is one thread less on the list. -/
theorem length_popLru (guarded : Option ThreadId) (rounds : Nat) (residents : List ThreadId) :
    (popLru guarded rounds residents).2.length +
      (popLru guarded rounds residents).1.isSome.toNat = residents.length := by
  fun_induction popLru guarded rounds residents with
  | case3 rounds thread residents _ ih => simpa using ih
  | _ => simp

theorem popLru_ne (guarded : Option ThreadId) (rounds : Nat) (residents : List ThreadId)
    {thread : ThreadId} (h : (popLru guarded rounds residents).1 = some thread) :
    some thread ≠ guarded := by
  fun_induction popLru guarded rounds residents with
  | case3 rounds other residents _ ih => exact ih h
  | case4 rounds other residents hother => exact Option.some.inj h ▸ hother
  | _ => cases h

/-- Under one lock a call takes a free place, or the residents, the pending slots and the
    candidates off the list do not become more; the pending slots are those of the calls. -/
theorem Call.act_counts (capacity : Nat) (outcome : Outcome ThreadId)
    (hslot : call.isSlot → 0 < s.pendingSlots) :
    let after := call.act capacity s outcome
    (s.pendingSlots < after.1.pendingSlots ∧
        after.1.residents.length + after.1.pendingSlots + after.2.isUnloading.toNat ≤ capacity ∨
      after.1.residents.length + after.1.pendingSlots + after.2.isUnloading.toNat ≤
        s.residents.length + s.pendingSlots + call.isUnloading.toNat) ∧
      after.1.pendingSlots + call.isSlot.toNat = s.pendingSlots + after.2.isSlot.toNat := by
  fun_cases Call.act capacity s outcome call with
  | case1 _ guarded s' hreserve =>
    unfold V2ResidencyState.tryReservePendingSlot at hreserve
    split at hreserve <;> cases hreserve
    refine ⟨?_, rfl⟩
    simp only [isUnloading, toNat_false]
    omega
  | case5 _ guarded rounds candidate s' hpop | case6 _ guarded rounds s' hpop =>
    obtain ⟨hcandidate, rfl⟩ := Prod.mk.inj hpop
    have hlen := length_popLru guarded s.residents.length s.residents
    rw [hcandidate] at hlen
    refine ⟨.inr ?_, rfl⟩
    simp only [isUnloading, Option.isSome_some] at hlen ⊢
    omega
  | case8 guarded rounds candidate | case9 guarded rounds candidate =>
    have := length_touchResident_le s.residents candidate
    refine ⟨.inr ?_, rfl⟩
    simp only [isUnloading, V2ResidencyState.touch, toNat_false, toNat_true]
    omega
  | case12 thread =>
    have := length_touchResident_le s.residents thread
    have := hslot rfl
    simp only [isUnloading, isSlot, V2ResidencyState.commitSlot, toNat_false, toNat_true]
    omega
  | case13 =>
    have := hslot rfl
    simp only [isUnloading, isSlot, V2ResidencyState.releasePendingSlot, toNat_false, toNat_true]
    omega
  | _ => simp [isUnloading, isSlot]

theorem nodup_touchResident {residents : List ThreadId} (h : residents.Nodup) (thread : ThreadId) :
    (touchResident residents thread).Nodup := by
  simp [touchResident, nodup_append, h.filter]

theorem nodup_popLru {residents : List ThreadId} (h : residents.Nodup) (guarded : Option ThreadId)
    (rounds : Nat) : (popLru guarded rounds residents).2.Nodup := by
  fun_induction popLru guarded rounds residents with
  | case3 rounds thread residents _ ih =>
    exact ih ((perm_append_singleton thread residents).nodup_iff.mpr h)
  | case4 => exact h.of_cons
  | _ => exact h

theorem Call.act_nodup (h : s.residents.Nodup) (capacity : Nat) (outcome : Outcome ThreadId) :
    (call.act capacity s outcome).1.residents.Nodup := by
  fun_cases Call.act capacity s outcome call with
  | case1 _ guarded s' hreserve =>
    unfold V2ResidencyState.tryReservePendingSlot at hreserve
    split at hreserve <;> cases hreserve
    exact h
  | case5 _ guarded rounds candidate s' hpop | case6 _ guarded rounds s' hpop =>
    obtain ⟨-, rfl⟩ := Prod.mk.inj hpop
    exact nodup_popLru h guarded _
  | case8 | case9 | case12 => exact nodup_touchResident h _
  | _ => exact h

theorem Call.act_protects {guarded : Option ThreadId} (h : call.Protects guarded) (capacity : Nat)
    (outcome : Outcome ThreadId) : (call.act capacity s outcome).2.Protects guarded := by
  fun_cases Call.act capacity s outcome call with
  | case5 _ guarded' rounds candidate s' hpop =>
    obtain rfl : guarded' = guarded := h
    exact ⟨rfl, popLru_ne guarded' _ _ (congrArg Prod.fst hpop)⟩
  | case7 | case8 | case9 | case10 => exact h.1
  | case1 | case4 | case6 | case12 | case13 => trivial
  | _ => exact h

/-- A call changes what is counted of all calls by what is counted of the call. -/
theorem countP_set_add {α : Type} (p : α → Bool) {l : List α} {i : Nat} {a : α}
    (h : l[i]? = some a) (b : α) :
    (l.set i b).countP p + (p a).toNat = l.countP p + (p b).toNat := by
  obtain ⟨hi, rfl⟩ := List.getElem?_eq_some_iff.mp h
  rw [set_eq_take_append_cons_drop, if_pos hi]
  conv_rhs => rw [← take_append_drop i l, drop_eq_getElem_cons hi]
  simp only [List.countP_append, List.countP_cons, Bool.toNat, Bool.cond_eq_ite]
  omega

/-! ### Whole runs -/

variable {sys : System ThreadId} {turn : Turn ThreadId} {turns : List (Turn ThreadId)}

/-- The places that are taken, with those of the candidates off the list, fit into the capacity,
    and each pending slot is that of a call. -/
structure Within (capacity : Nat) (sys : System ThreadId) : Prop where
  places : sys.state.residents.length + sys.state.pendingSlots +
    sys.calls.countP Call.isUnloading ≤ capacity
  pending : sys.state.pendingSlots = sys.calls.countP Call.isSlot

omit [DecidableEq ThreadId] in
theorem pendingSlots_pos (hpend : sys.state.pendingSlots = sys.calls.countP Call.isSlot)
    {i : Nat} (hi : sys.calls[i]? = some call) (hcall : call.isSlot) :
    0 < sys.state.pendingSlots := hpend ▸ countP_pos_iff.mpr ⟨call, mem_of_getElem? hi, hcall⟩

theorem System.step_pending (hpend : sys.state.pendingSlots = sys.calls.countP Call.isSlot) :
    (sys.step capacity turn).state.pendingSlots =
      (sys.step capacity turn).calls.countP Call.isSlot := by
  cases turn with
  | reserve guarded => simpa [step]
  | proceed i outcome =>
    rcases hi : sys.calls[i]? with _ | call
    · simpa [step, hi]
    have hslots := (call.act_counts capacity outcome (pendingSlots_pos hpend hi)).2
    have hkept := countP_set_add Call.isSlot hi (call.act capacity sys.state outcome).2
    simp only [step, hi]
    omega
  | touch thread =>
    simp only [step]
    split <;> exact hpend

theorem System.step_within (h : Within capacity sys)
    (horderly : sys.state.pendingSlots < (sys.step capacity turn).state.pendingSlots →
      sys.calls.countP Call.isUnloading = 0) : Within capacity (sys.step capacity turn) := by
  obtain ⟨hplaces, hpend⟩ := h
  refine ⟨?_, step_pending hpend⟩
  cases turn with
  | reserve guarded => simpa [step]
  | proceed i outcome =>
    rcases hi : sys.calls[i]? with _ | call
    · simpa [step, hi]
    simp only [step, hi] at horderly ⊢
    have hact := (call.act_counts capacity outcome (pendingSlots_pos hpend hi)).1
    have hheld := countP_set_add Call.isUnloading hi (call.act capacity sys.state outcome).2
    omega
  | touch thread =>
    simp only [step]
    split
    · next hmem =>
      have := length_touchResident_of_mem hmem
      simp only [V2ResidencyState.touch]
      omega
    · exact hplaces

theorem foldl_step_within (h : Within capacity sys) (horderly : Orderly capacity sys turns) :
    Within capacity (turns.foldl (System.step capacity) sys) := by
  induction turns generalizing sys with
  | nil => exact h
  | cons turn turns ih => exact ih (System.step_within h horderly.1) horderly.2

/-- There is one call for each reservation, and it protects the thread of the reservation. -/
theorem calls_protect (capacity : Nat) (turns : List (Turn ThreadId)) :
    let calls := (turns.foldl (System.step capacity) ⟨⟨[], 0⟩, []⟩).calls
    (guards turns).length = calls.length ∧
      ∀ (i : ℕ) guarded (call : Call ThreadId), (guards turns)[i]? = some guarded →
      calls[i]? = some call → call.Protects guarded := by
  induction turns using reverseRecOn with
  | nil => simp [guards]
  | append_singleton turns turn ih =>
    rw [foldl_append, foldl_cons, foldl_nil, guards, filterMap_append, ← guards]
    generalize turns.foldl (System.step capacity) ⟨⟨[], 0⟩, []⟩ = sys at ih ⊢
    obtain ⟨hlen, hcalls⟩ := ih
    cases turn with
    | reserve guarded =>
      refine ⟨by simp [System.step, hlen], fun i guarded' call hguard hcall => ?_⟩
      simp only [System.step] at hcall
      grind [Call.Protects]
    | proceed i outcome =>
      rcases hi : sys.calls[i]? with _ | call
      · simpa [System.step, hi] using ⟨hlen, hcalls⟩
      refine ⟨by simpa [System.step, hi] using hlen, fun j guarded' call' hguard hcall => ?_⟩
      simp only [System.step, hi] at hcall
      grind [Call.act_protects]
    | touch thread =>
      simp only [System.step]
      split <;> simpa using ⟨hlen, hcalls⟩

/-- No thread is on the list twice, and each pending slot is that of one call. -/
def Accounted (sys : System ThreadId) : Prop :=
  sys.state.residents.Nodup ∧ sys.state.pendingSlots = sys.calls.countP Call.isSlot

theorem System.step_accounted (h : Accounted sys) : Accounted (sys.step capacity turn) := by
  refine ⟨?_, step_pending h.2⟩
  cases turn with
  | reserve guarded => exact h.1
  | proceed i outcome =>
    simp only [step]
    split
    · exact Call.act_nodup h.1 capacity outcome
    · exact h.1
  | touch thread =>
    simp only [step]
    split
    · exact nodup_touchResident h.1 thread
    · exact h.1

end

/-- Turns of reservations, and what happens besides: a loaded thread is touched, on the list or
    not (`touch_loaded_v2_residency`), and one that shuts down is forgotten. -/
inductive Event (ThreadId : Type)
  | turn (turn : Turn ThreadId)
  | touchLoaded (thread : ThreadId)
  | forget (thread : ThreadId)

def System.handle (capacity : Nat) (sys : System ThreadId) : Event ThreadId → System ThreadId
  | .turn turn => sys.step capacity turn
  | .touchLoaded thread => { sys with state := sys.state.touch thread }
  | .forget thread => { sys with state := sys.state.remove thread }

/-- **Slots.**  In every run no slot is leaked and none is given back twice, and no thread becomes
    resident twice. -/
theorem run_slots (capacity : Nat) (events : List (Event ThreadId)) :
    Accounted (events.foldl (System.handle capacity) ⟨⟨[], 0⟩, []⟩) := by
  refine foldlRecOn (motive := Accounted) events _ ⟨nodup_nil, rfl⟩ fun sys h event _ => ?_
  cases event with
  | turn turn => exact System.step_accounted h
  | touchLoaded thread => exact ⟨nodup_touchResident h.1 thread, h.2⟩
  | forget thread => exact ⟨h.1.filter _, h.2⟩

/-- **Capacity.**  A reservation never has the thread it was given to protect for its candidate;
    the residents and the pending slots stay within the capacity if no place is taken while a
    candidate is off the list. -/
theorem run_places (capacity : Nat) (turns : List (Turn ThreadId)) :
    let sys := turns.foldl (System.step capacity) ⟨⟨[], 0⟩, []⟩
    (∀ (i : ℕ) thread guarded rounds, (guards turns)[i]? = some (some thread) →
        sys.calls[i]? ≠ some (.unloading guarded rounds thread)) ∧
      (Orderly capacity ⟨⟨[], 0⟩, []⟩ turns →
        sys.state.residents.length + sys.state.pendingSlots ≤ capacity) := by
  refine ⟨fun i thread guarded rounds hguard hcall => ?_, fun horderly => ?_⟩
  · exact ((calls_protect capacity turns).2 i _ _ hguard hcall).2 rfl
  · have hplaces := (foldl_step_within ⟨Nat.zero_le _, rfl⟩ horderly).places
    omega

/-- A reservation that protects the oldest resident unloads the other one and takes its place. -/
theorem run_places_unload :
    let sys := [.reserve none, .proceed 0 .drop, .proceed 0 (.commit 8), .reserve none,
      .proceed 1 .drop, .proceed 1 (.commit 7), .reserve (some 8), .proceed 2 .drop,
      .proceed 2 .drop, .proceed 2 .drop, .proceed 2 .unloaded,
      .proceed 2 .drop].foldl (System.step 2) (⟨⟨[], 0⟩, []⟩ : System Nat)
    sys.state.residents = [8] ∧ sys.state.pendingSlots = 1 ∧
      sys.state.residents.length + sys.state.pendingSlots ≤ 2 :=
  ⟨by decide, by decide, (run_places 2 _).2 (by simp only [Orderly]; decide)⟩

/-- The only resident is off the list, another reservation takes the place, and the resident is
    busy and put back. -/
theorem run_exceeds_capacity :
    let sys := [.reserve none, .proceed 0 .drop, .proceed 0 (.commit 7), .reserve none,
      .proceed 1 .drop, .proceed 1 .drop, .proceed 1 .drop, .reserve none, .proceed 2 .drop,
      .proceed 1 .busy].foldl (System.step 1) (⟨⟨[], 0⟩, []⟩ : System Nat)
    sys.state.residents = [7] ∧ sys.state.pendingSlots = 1 := by
  decide

end Codex.Agents
