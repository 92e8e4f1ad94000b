import Codex.Text.Basic

namespace Codex.Config

/-!
# Merging TOML tables

Layers of a configuration are merged as tables, before anything is read from them.

* `mergeTomlValues` — the overlay wins, and tables are merged key by key;
* `removeNestedFieldAndPruneEmpty` — a field is cut out, and tables that are left empty with it;
* `Lacks` — there is no field at a path; merging makes none (`lacks_mergeTomlValuesAtPath`).
-/

/-- A value; `D` are the scalars, which are not looked at. -/
inductive Toml (D : Type)
  | scalar (datum : D)
  | array (items : List (Toml D))
  | table (entries : List (Text × Toml D))

abbrev TomlTable (D : Type) := List (Text × Toml D)

variable {D V : Type}

def Toml.asTable : Toml D → Option (TomlTable D)
  | .table entries => some entries
  | _ => none

def removeKey (key : Text) (table : List (Text × V)) : List (Text × V) :=
  table.filter fun entry => entry.1 ≠ key

def insertKey (key : Text) (value : V) (table : List (Text × V)) : List (Text × V) :=
  if (table.lookup key).isSome then
    table.map fun entry => if entry.1 = key then (key, value) else entry
  else table ++ [(key, value)]

theorem sizeOf_lt_of_mem {entries : TomlTable D} {entry : Text × Toml D} (h : entry ∈ entries) :
    sizeOf entry.2 < sizeOf (Toml.table entries) := by
  have hlt := List.sizeOf_lt_of_mem h
  obtain ⟨key, value⟩ := entry
  simp only [Prod.mk.sizeOf_spec, Toml.table.sizeOf_spec] at hlt ⊢
  omega

theorem mem_insertKey {key : Text} {value : V} {table : List (Text × V)} {entry : Text × V}
    (h : entry ∈ insertKey key value table) : entry = (key, value) ∨ entry ∈ table := by
  unfold insertKey at h
  split at h
  · obtain ⟨old, hold, rfl⟩ := List.mem_map.mp h
    split
    · exact .inl rfl
    · exact .inr hold
  · exact (List.mem_append.mp h).symm.imp_left List.mem_singleton.mp

/-! ### Keys with two spellings -/

structure ConfigKeyAlias where
  tablePath : List Text
  legacyKey : Text
  canonicalKey : Text

def configKeyAliases : List ConfigKeyAlias := [⟨["memories"], "no_memories_if_mcp_or_web_search",
    "disable_on_external_context"⟩]

def normalizeKeyAliases (path : List Text) (table : List (Text × V)) : List (Text × V) :=
  configKeyAliases.foldl (fun table spelling =>
    if path = spelling.tablePath then
      match table.lookup spelling.legacyKey with
      | some value =>
        let table := removeKey spelling.legacyKey table
        if (table.lookup spelling.canonicalKey).isSome then table
        else insertKey spelling.canonicalKey value table
      | none => table
    else table) table

def normalizedWithKeyAliases : Toml D → List Text → Toml D
  | .table entries, path => .table (normalizeKeyAliases path
      (entries.map fun entry => (entry.1, normalizedWithKeyAliases entry.2 (path ++ [entry.1]))))
  | .array items, path => .array (items.map fun item => normalizedWithKeyAliases item path)
  | .scalar datum, _ => .scalar datum
termination_by value => sizeOf value
decreasing_by
  · exact sizeOf_lt_of_mem ‹_›
  · have hlt := List.sizeOf_lt_of_mem ‹_ ∈ items›
    rw [Toml.array.sizeOf_spec]
    omega

def isPermissionNetworkDomainsPath : List Text → Bool
  | [permissions, _, network, domains] =>
    permissions = "permissions" && network = "network" && domains = "domains"
  | _ => false

variable (normalizeHost : Text → Text)

def normalizeNetworkDomainKeys (table : List (Text × V)) : List (Text × V) :=
  table.foldl (fun table entry => insertKey (normalizeHost entry.1) entry.2 table) []

/-- The keys of a table at a path, in the spelling in which tables are merged. -/
def mergeKeys (path : List Text) (table : List (Text × V)) : List (Text × V) :=
  let table := normalizeKeyAliases path table
  if isPermissionNetworkDomainsPath path then normalizeNetworkDomainKeys normalizeHost table
  else table

/-- `merge_toml_values_at_path`, with the overlay in front.  Every value of the overlay goes with
    what merging it does, so that the table may be rearranged first. -/
def mergeTomlValuesAtPath (normalizeHost : Text → Text) :
    (overlay base : Toml D) → (path : List Text) → Toml D
  | .table overlay, .table base, path =>
    let merges := overlay.map fun entry =>
      (entry.1, entry.2, mergeTomlValuesAtPath normalizeHost entry.2)
    .table ((mergeKeys normalizeHost path merges).foldl (fun base entry =>
      let path := path ++ [entry.1]
      match base.lookup entry.1 with
      | some existing => insertKey entry.1 (entry.2.2 existing path) base
      | none => insertKey entry.1 (normalizedWithKeyAliases entry.2.1 path) base)
      (mergeKeys normalizeHost path base))
  | overlay, _, path => normalizedWithKeyAliases overlay path
termination_by overlay => sizeOf overlay
decreasing_by exact sizeOf_lt_of_mem ‹_›

def mergeTomlValues (base overlay : Toml D) : Toml D :=
  mergeTomlValuesAtPath normalizeHost overlay base []

/-! ### Cutting out a field -/

def removeNestedFieldAndPruneEmpty : Toml D → List Text → Toml D
  | .table entries, [key] => .table (removeKey key entries)
  | .table entries, key :: remaining =>
    let entries := entries.map fun entry =>
      if entry.1 = key then (entry.1, removeNestedFieldAndPruneEmpty entry.2 remaining) else entry
    .table (if ((entries.lookup key).bind Toml.asTable).any List.isEmpty then removeKey key entries
      else entries)
  | value, _ => value

/-- There is no field at a path. -/
def Lacks : List Text → Toml D → Prop
  | [], _ => False
  | key :: path, .table entries => ∀ value, (key, value) ∈ entries → Lacks path value
  | _ :: _, _ => True

theorem lacks_removeNestedField {path : List Text} (hpath : path ≠ []) (value : Toml D) :
    Lacks path (removeNestedFieldAndPruneEmpty value path) := by
  induction path generalizing value with
  | nil => exact absurd rfl hpath
  | cons key path ih =>
    cases value with
    | scalar | array => trivial
    | table entries =>
      cases path with
      | nil => simp [removeNestedFieldAndPruneEmpty, Lacks, removeKey]
      | cons next path =>
        intro value hvalue
        have hmem : (key, value) ∈ entries.map fun entry => if entry.1 = key then
            (entry.1, removeNestedFieldAndPruneEmpty entry.2 (next :: path)) else entry := by
          split at hvalue
          · exact (List.mem_filter.mp hvalue).1
          · exact hvalue
        obtain ⟨entry, -, hentry⟩ := List.mem_map.mp hmem
        split at hentry
        · cases hentry
          exact ih (List.cons_ne_nil _ _) entry.2
        · rename_i hne
          exact absurd (congrArg Prod.fst hentry) hne

/-- Along a path, no table has keys that are respelled. -/
def PlainKeys : List Text → List Text → Prop
  | _, [] => True
  | start, key :: path => (∀ spelling ∈ configKeyAliases, start ≠ spelling.tablePath) ∧
    isPermissionNetworkDomainsPath start = false ∧ PlainKeys (start ++ [key]) path

theorem normalizeKeyAliases_eq {start : List Text}
    (h : ∀ spelling ∈ configKeyAliases, start ≠ spelling.tablePath) (table : List (Text × V)) :
    normalizeKeyAliases start table = table :=
  List.foldlRecOn (motive := (· = table)) _ _ rfl fun _ heq spelling hspelling =>
    (if_neg (h spelling hspelling)).trans heq

theorem lacks_normalizedWithKeyAliases {start path : List Text} {value : Toml D}
    (hplain : PlainKeys start path) (h : Lacks path value) :
    Lacks path (normalizedWithKeyAliases value start) := by
  induction path generalizing start value with
  | nil => exact h
  | cons key path ih =>
    obtain ⟨hkeys, -, hplain⟩ := hplain
    cases value with
    | scalar | array =>
      rw [normalizedWithKeyAliases]
      trivial
    | table entries =>
      rw [normalizedWithKeyAliases, normalizeKeyAliases_eq hkeys]
      intro value hvalue
      obtain ⟨entry, hentry, heq⟩ := List.mem_map.mp hvalue
      cases heq
      exact ih hplain (h entry.2 hentry)

theorem lacks_mergeTomlValuesAtPath {start path : List Text} {overlay base : Toml D}
    (hplain : PlainKeys start path) (hoverlay : Lacks path overlay) (hbase : Lacks path base) :
    Lacks path (mergeTomlValuesAtPath normalizeHost overlay base start) := by
  induction path generalizing start overlay base with
  | nil => exact hbase
  | cons key path ih =>
    have hnormalized := lacks_normalizedWithKeyAliases hplain hoverlay
    obtain ⟨hkeys, hdomains, hplain⟩ := hplain
    have hmergeKeys : ∀ {V : Type} (table : List (Text × V)),
        mergeKeys normalizeHost start table = table := fun table => by
      rw [mergeKeys, normalizeKeyAliases_eq hkeys, hdomains]
      rfl
    cases overlay with
    | scalar | array =>
      rw [mergeTomlValuesAtPath]
      · exact hnormalized
      · exact nofun
    | table overlay =>
      cases base with
      | scalar | array =>
        rw [mergeTomlValuesAtPath]
        · exact hnormalized
        · exact nofun
      | table base =>
        rw [mergeTomlValuesAtPath, hmergeKeys, hmergeKeys]
        -- every entry of the overlay keeps it that the table lacks the path
        refine List.foldlRecOn (motive := fun base => Lacks (key :: path) (Toml.table base)) _ _
          hbase fun base hbase merge hmerge => ?_
        obtain ⟨entry, hentry, rfl⟩ := List.mem_map.mp hmerge
        split <;> intro value hvalue <;> rcases mem_insertKey hvalue with heq | hold
        · cases heq
          obtain ⟨before, after, hsplit, -⟩ := List.lookup_eq_some_iff.mp ‹_ = some _›
          refine ih hplain (hoverlay entry.2 hentry) (hbase _ ?_)
          rw [hsplit]
          exact List.mem_append_right _ List.mem_cons_self
        · exact hbase value hold
        · cases heq
          exact lacks_normalizedWithKeyAliases hplain (hoverlay entry.2 hentry)
        · exact hbase value hold

end Codex.Config
