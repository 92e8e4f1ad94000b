import Mathlib.Data.Finmap

namespace Codex.Data

open List Option

/-!
# Iterating over a hash map

A hash map is a finite map; the order in which it is iterated is not determined by its
content.  `IterationOrder m l` says that `l` is one of the orders in which the entries of `m`
may come, and `collect l` is the map that is built by inserting the entries of `l` in turn,
where a later entry replaces an earlier one with the same key.

* `lookup_collect_iff` — what `collect` holds;
* `lookup_insertAll` — what a map holds after another one has been put over it;
* `IterationOrder.moveToEnd` — any entry may come last.
-/

variable {K V : Type} [DecidableEq K]

variable (m : Finmap fun _ : K => V)

variable (l : List (K × V))

/-- The entries of `l` are the entries of `m`, each once. -/
structure IterationOrder : Prop where
  nodup : l.Nodup
  mem_iff : ∀ k v, (k, v) ∈ l ↔ m.lookup k = some v

/-- Insert the entries of a list one after the other. -/
def insertAll : Finmap fun _ : K => V := l.foldl (fun m kv => m.insert kv.1 kv.2) m

/-- The map with the entries of a list; later entries replace earlier ones. -/
def collect : Finmap fun _ : K => V := insertAll ∅ l

theorem insertAll_concat (k : K) (v : V) :
    insertAll m (l ++ [(k, v)]) = (insertAll m l).insert k v := by
  simp [insertAll]

variable {l : List (K × V)} {k : K} {v : V}

/-- A collected entry is an entry of the list. -/
theorem mem_of_lookup_collect (h : (collect l).lookup k = some v) : (k, v) ∈ l := by
  unfold collect at h
  induction l using reverseRecOn with
  | nil => simp [insertAll] at h
  | append_singleton l kv ih =>
    obtain ⟨k', v'⟩ := kv
    rw [insertAll_concat] at h
    by_cases hk : k = k'
    · subst hk
      rw [Finmap.lookup_insert, some.injEq] at h
      simp [h]
    · rw [Finmap.lookup_insert_of_ne _ hk] at h
      simp [ih h]

/-- Every key of the list is collected. -/
theorem exists_lookup_collect (h : (k, v) ∈ l) : ∃ v', (collect l).lookup k = some v' := by
  unfold collect
  induction l using reverseRecOn with
  | nil => simp at h
  | append_singleton l kv ih =>
    obtain ⟨k', v'⟩ := kv
    rw [insertAll_concat]
    by_cases hk : k = k'
    · subst hk
      exact ⟨v', Finmap.lookup_insert _⟩
    · rw [Finmap.lookup_insert_of_ne _ hk]
      apply ih
      simpa [hk] using h

/-- Where a key has one value, that value is collected. -/
theorem lookup_collect_iff (hunique : ∀ v v', (k, v) ∈ l → (k, v') ∈ l → v = v') (v : V) :
    (collect l).lookup k = some v ↔ (k, v) ∈ l := by
  constructor
  · exact mem_of_lookup_collect
  · intro hmem
    obtain ⟨v', hv'⟩ := exists_lookup_collect hmem
    rw [hv', hunique v v' hmem (mem_of_lookup_collect hv')]

variable {m : Finmap fun _ : K => V}

/-- Inserting leaves the keys alone that do not come up. -/
theorem lookup_insertAll_of_not_mem (h : ∀ v, (k, v) ∉ l) :
    (insertAll m l).lookup k = m.lookup k := by
  induction l using reverseRecOn with
  | nil => rfl
  | append_singleton l kv ih =>
    obtain ⟨k', v'⟩ := kv
    have hk : k ≠ k' := by
      rintro rfl
      exact h v' (by simp)
    rw [insertAll_concat, Finmap.lookup_insert_of_ne _ hk]
    exact ih fun v hv => h v (by simp [hv])

/-- Where a key has one value, inserting sets it. -/
theorem lookup_insertAll_of_mem (hunique : ∀ v', (k, v') ∈ l → v' = v)
    (h : (k, v) ∈ l) : (insertAll m l).lookup k = some v := by
  induction l using reverseRecOn with
  | nil => exact absurd h not_mem_nil
  | append_singleton l kv ih =>
    obtain ⟨k', v'⟩ := kv
    rw [insertAll_concat]
    by_cases hk : k = k'
    · subst hk
      rw [Finmap.lookup_insert, hunique v' (by simp)]
    · rw [Finmap.lookup_insert_of_ne _ hk]
      apply ih (fun v'' hv'' => hunique v'' (by simp [hv'']))
      simpa [hk] using h

/-- A map put over another one hides it where it has the key, whatever the order. -/
theorem lookup_insertAll {upper : Finmap fun _ : K => V} (h : IterationOrder upper l) (k : K) :
    (insertAll m l).lookup k = (upper.lookup k).or (m.lookup k) := by
  cases hk : upper.lookup k with
  | none =>
    refine lookup_insertAll_of_not_mem fun v hv => ?_
    rw [h.mem_iff, hk] at hv
    exact absurd hv (by simp)
  | some v =>
    refine lookup_insertAll_of_mem (fun v' hv' => ?_) ((h.mem_iff k v).mpr hk)
    rw [h.mem_iff, hk, some.injEq] at hv'
    exact hv'.symm

/-- Every map has an order. -/
theorem exists_iterationOrder (m : Finmap fun _ : K => V) : ∃ l, IterationOrder m l := by
  induction m using Finmap.induction_on with
  | H s =>
    refine ⟨s.entries.map fun e => (e.1, e.2), ?_, fun k v => ?_⟩
    · refine Nodup.map ?_ (NodupKeys.nodup s.nodupKeys)
      rintro ⟨k, v⟩ ⟨k', v'⟩ h
      obtain ⟨rfl, rfl⟩ := h
      rfl
    · rw [Finmap.lookup_toFinmap, ← Option.mem_def, AList.mem_lookup_iff, List.mem_map]
      constructor
      · rintro ⟨⟨k', v'⟩, hmem, heq⟩
        obtain ⟨rfl, rfl⟩ := Prod.mk.inj heq
        exact hmem
      · exact fun hmem => ⟨⟨k, v⟩, hmem, rfl⟩

/-- The orders of the smallest maps. -/
theorem iterationOrder_empty : IterationOrder (∅ : Finmap fun _ : K => V) [] :=
  ⟨nodup_nil, fun k v => by simp⟩

theorem iterationOrder_singleton (k : K) (v : V) :
    IterationOrder (Finmap.singleton k v : Finmap fun _ : K => V) [(k, v)] := by
  refine ⟨nodup_singleton _, fun k' v' => ?_⟩
  by_cases h : k' = k
  · subst h
    rw [Finmap.lookup_singleton_eq, mem_singleton, some.injEq]
    exact ⟨fun heq => (congrArg Prod.snd heq).symm, fun heq => by rw [heq]⟩
  · have hlookup : (Finmap.singleton k v : Finmap fun _ : K => V).lookup k' = none :=
      Finmap.lookup_eq_none.mpr (by rwa [Finmap.mem_singleton])
    rw [hlookup, mem_singleton]
    exact ⟨fun heq => absurd (congrArg Prod.fst heq) h, fun heq => absurd heq (by simp)⟩

/-- Any entry of a map may come last. -/
theorem IterationOrder.moveToEnd (h : IterationOrder m l) (hk : m.lookup k = some v) :
    ∃ l', IterationOrder m (l' ++ [(k, v)]) := by
  have hmem : (k, v) ∈ l := (h.mem_iff k v).mpr hk
  obtain ⟨l₁, l₂, rfl⟩ := append_of_mem hmem
  have hperm : Perm ((l₁ ++ l₂) ++ [(k, v)]) (l₁ ++ (k, v) :: l₂) :=
    (perm_append_singleton _ _).trans perm_middle.symm
  refine ⟨l₁ ++ l₂, hperm.nodup_iff.mpr h.nodup, fun k' v' => ?_⟩
  rw [hperm.mem_iff, h.mem_iff]

end Codex.Data
