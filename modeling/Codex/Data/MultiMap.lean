import Codex.Data.HashMap

namespace Codex.Data

open List

/-!
# Multimaps

A multimap is a hash map from keys to lists of values: a value is put behind the values its key
has already.

* `MultiMap.insert`, `MultiMap.getVec`, `MultiMap.values` — the operations;
* `MultiMap.insertEach` — put the values of a list of entries behind those that are there;
* `MultiMap.values_insertEach` — for the entries of another multimap, in any order, every key then
  has its old values followed by those of the other multimap.
-/

variable {K V : Type} [DecidableEq K]

/-- A map from keys to the values inserted under them, in the order of insertion. -/
abbrev MultiMap (K V : Type) := Finmap fun _ : K => List V

namespace MultiMap

/-- Put a value behind those of its key. -/
def insert (m : MultiMap K V) (k : K) (v : V) : MultiMap K V :=
  Finmap.insert k ((m.lookup k).getD [] ++ [v]) m

variable (m : MultiMap K V)

/-- The values of a key, if anything has been inserted under it. -/
def getVec (k : K) : Option (List V) := m.lookup k

/-- The values of a key. -/
def values (k : K) : List V := (m.getVec k).getD []

/-- Insert every value of every entry. -/
def insertEach (entries : List (K × List V)) : MultiMap K V :=
  entries.foldl (fun m entry => entry.2.foldl (fun m v => m.insert entry.1 v) m) m

@[simp] theorem values_insert_self (k : K) (v : V) :
    (m.insert k v).values k = m.values k ++ [v] := by
  rw [values, getVec, insert, Finmap.lookup_insert]
  rfl

theorem values_insert_of_ne {k k' : K} (h : k ≠ k') (v : V) :
    (m.insert k' v).values k = m.values k := by
  rw [values, getVec, insert, Finmap.lookup_insert_of_ne _ h]
  rfl

theorem mem_values_insert {m : MultiMap K V} {k k' : K} {v v' : V} :
    v' ∈ (m.insert k v).values k' ↔ v' ∈ m.values k' ∨ (k' = k ∧ v' = v) := by
  by_cases h : k' = k
  · subst h
    simp
  · rw [values_insert_of_ne m h]
    simp [h]

/-- Values with keys of their own end up behind the values of their keys. -/
theorem values_foldl_insert_key (key : V → K) (vs : List V) (m : MultiMap K V) (k : K) :
    (vs.foldl (fun m v => m.insert (key v) v) m).values k =
      m.values k ++ vs.filter (key · = k) := by
  induction vs generalizing m with
  | nil => simp
  | cons v vs ih =>
    rw [foldl_cons, ih]
    by_cases h : key v = k
    · subst h
      rw [values_insert_self, filter_cons_of_pos (by simp), append_assoc]
      rfl
    · rw [values_insert_of_ne m (Ne.symm h), filter_cons_of_neg (by simpa using h)]

/-- The values of one entry end up under its key and nowhere else. -/
theorem values_foldl_insert (vs : List V) (m : MultiMap K V) (k k' : K) :
    (vs.foldl (fun m v => m.insert k' v) m).values k =
      m.values k ++ if k = k' then vs else [] := by
  rw [values_foldl_insert_key fun _ => k']
  split_ifs with h
  · simp [h]
  · simp [Ne.symm h]

theorem values_insertEach_eq_flatMap (entries : List (K × List V)) (m : MultiMap K V) (k : K) :
    (m.insertEach entries).values k =
      m.values k ++ entries.flatMap fun entry => if k = entry.1 then entry.2 else [] := by
  induction entries generalizing m with
  | nil => simp [insertEach]
  | cons entry entries ih =>
    rw [flatMap_cons, ← append_assoc, ← values_foldl_insert]
    exact ih _

/-- **Inserting one multimap into another.**  The order in which the entries come does not
    matter. -/
theorem values_insertEach {m upper : MultiMap K V} {entries : List (K × List V)}
    (h : IterationOrder upper entries) (k : K) :
    (m.insertEach entries).values k = m.values k ++ upper.values k := by
  rw [values_insertEach_eq_flatMap]
  congr 1
  -- the only entry that can be under `k` is the one that `upper` holds
  have hentry : ∀ vs, (k, vs) ∈ entries ↔ upper.lookup k = some vs := h.mem_iff k
  unfold values getVec
  cases hk : upper.lookup k with
  | none =>
    apply flatMap_eq_nil_iff.mpr
    rintro ⟨k', vs⟩ hmem
    apply if_neg
    rintro rfl
    rw [hentry, hk] at hmem
    exact absurd hmem (by simp)
  | some vs =>
    obtain ⟨before, after, rfl⟩ := append_of_mem ((hentry vs).mpr hk)
    have honce : (k, vs) ∉ before ++ after := (nodup_cons.mp (nodup_middle.mp h.nodup)).1
    have hnil : ∀ entry ∈ before ++ after, (if k = entry.1 then entry.2 else []) = [] := by
      rintro ⟨k', vs'⟩ hmem
      apply if_neg
      rintro rfl
      have hvs' : upper.lookup k = some vs' := by
        apply (hentry vs').mp
        rcases mem_append.mp hmem with hmem | hmem <;> simp [hmem]
      rw [hk, Option.some.injEq] at hvs'
      subst hvs'
      exact honce hmem
    rw [flatMap_append, flatMap_cons,
      flatMap_eq_nil_iff.mpr fun entry he => hnil entry (mem_append_left _ he),
      flatMap_eq_nil_iff.mpr fun entry he => hnil entry (mem_append_right _ he)]
    simp

end MultiMap

end Codex.Data
