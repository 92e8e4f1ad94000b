import Mathlib

namespace Codex.Data

open List AList

/-!
# Tables and their sizes

Association tables without duplicate keys, seen through a number that every entry carries.

* `map_lookup_erase`, `map_lookup_insert` — the numbers behind the keys after an update.
* `length_erase_le`, `length_erase_of_mem`, `length_insert_of_mem`, `length_insert_of_notMem` — the
  number of entries after an update.
* `length_entries_le` — a table whose entries carry different numbers from a list is no longer than
  the list.
-/

variable {α β γ : Type} [DecidableEq α]

/-! ### Looking up after an update -/

theorem map_lookup_erase (f : β → γ) (table : AList fun _ : α => β) (a a' : α) :
    ((table.erase a).lookup a').map f = if a' = a then none else (table.lookup a').map f := by
  split_ifs with h
  · rw [h, lookup_erase]
    rfl
  · rw [lookup_erase_ne h]

theorem map_lookup_insert (f : β → γ) (table : AList fun _ : α => β) (a a' : α) (b : β) :
    ((table.insert a b).lookup a').map f =
      if a' = a then some (f b) else (table.lookup a').map f := by
  split_ifs with h
  · rw [h, lookup_insert]
    rfl
  · rw [lookup_insert_ne h]

variable {table : AList fun _ : α => β} {a : α}

theorem erase_of_notMem (ha : a ∉ table) : table.erase a = table := ext (kerase_of_notMem_keys ha)

/-! ### The number of entries -/

theorem length_erase_le (table : AList fun _ : α => β) (a : α) :
    (table.erase a).entries.length ≤ table.entries.length :=
  (kerase_sublist a table.entries).length_le

theorem length_erase_of_mem (ha : a ∈ table) :
    (table.erase a).entries.length + 1 = table.entries.length := by
  obtain ⟨b, front, back, -, hentries, hkerase⟩ := exists_of_kerase (mem_keys.mp ha)
  show (kerase a table.entries).length + 1 = _
  rw [hkerase, hentries, length_append, length_append, length_cons]
  omega

theorem length_insert_of_mem (ha : a ∈ table) (b : β) :
    (table.insert a b).entries.length = table.entries.length := by
  exact length_erase_of_mem ha

theorem length_insert_of_notMem (ha : a ∉ table) (b : β) :
    (table.insert a b).entries.length = table.entries.length + 1 := by
  rw [entries_insert_of_notMem ha, length_cons]

/-- If the entries of a table carry different numbers, all of them from a list, the list is at
    least as long as the table. -/
theorem length_entries_le (f : β → ℕ) {numbers : List ℕ}
    (hmem : ∀ a b, table.lookup a = some b → f b ∈ numbers)
    (hinj : ∀ a b a' b', table.lookup a = some b → table.lookup a' = some b' → f b = f b' → a = a') :
    table.entries.length ≤ numbers.length := by
  have hlookup : ∀ entry ∈ table.entries, table.lookup entry.1 = some entry.2 := fun entry hentry =>
    mem_lookup_iff.mpr hentry
  have hnodup : (table.entries.map fun entry => f entry.2).Nodup := by
    refine Nodup.map_on ?_ table.nodupKeys.nodup
    intro entry hentry entry' hentry' hsame
    have hkey := hinj _ _ _ _ (hlookup entry hentry) (hlookup entry' hentry') hsame
    exact NodupKeys.eq_of_fst_eq table.nodupKeys hentry hentry' hkey
  have hsubset : (table.entries.map fun entry => f entry.2) ⊆ numbers := by
    intro n hn
    obtain ⟨entry, hentry, rfl⟩ := mem_map.mp hn
    exact hmem _ _ (hlookup entry hentry)
  have hlength := (hnodup.subperm hsubset).length_le
  rwa [length_map] at hlength

end Codex.Data
