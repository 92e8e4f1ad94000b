import Mathlib
import Codex.Config.TomlMerge
import Codex.Data.ExceptFold
import Codex.Data.InsertNew

namespace Codex.Config

open Data List

/-!
# Layers of managed requirements

Requirements come in layers, from low to high precedence.  Most fields are merged as tables; rules,
hooks and the paths that may not be read are cut out of the tables and collected from high to low.

* `composeRequirements` — the composition of a list of layers;
* `Collects` — what has been collected from the layers so far;
* `compose_restrictions` — nothing of this is lost, and a further layer only adds to it.

The readers of TOML are given by a `Deserializer`.  The sources that go with the fields are left
out.
-/

/-! ### Requirements -/

inductive HookEventName
  | preToolUse | permissionRequest | postToolUse | preCompact | postCompact
  | sessionStart | userPromptSubmit | subagentStart | subagentStop | stop
  deriving DecidableEq

def HookEventName.all : List HookEventName :=
  [.preToolUse, .permissionRequest, .postToolUse, .preCompact, .postCompact, .sessionStart,
    .userPromptSubmit, .subagentStart, .subagentStop, .stop]

theorem HookEventName.mem_all (event : HookEventName) : event ∈ all := by
  cases event <;> decide

inductive HookDirectoryField
  | managedDir
  | windowsManagedDir
  deriving DecidableEq

namespace HookDirectoryField

def fieldName : HookDirectoryField → Text
  | .managedDir => "hooks.managed_dir"
  | .windowsManagedDir => "hooks.windows_managed_dir"

end HookDirectoryField

/-- The directories of the two platforms, and the matcher groups of each event. -/
structure ManagedHooksRequirementsToml (Group : Type) where
  dir : HookDirectoryField → Option Text
  hooks : HookEventName → List Group

def ManagedHooksRequirementsToml.isEmpty {Group : Type} (h : ManagedHooksRequirementsToml Group) :
    Bool := (h.dir .managedDir).isNone && (h.dir .windowsManagedDir).isNone &&
    HookEventName.all.all fun event => (h.hooks event).isEmpty

/-- The permissions: `permissions.filesystem.deny_read`, and the profiles. -/
structure PermissionsRequirementsToml (Profiles : Type) where
  filesystem : Option (Option (List Text))
  profiles : Profiles

def denyReadOf {Profiles : Type} (permissions : Option (PermissionsRequirementsToml Profiles)) :
    List Text := (permissions.bind (·.filesystem)).join.getD []

/-- The requirements; `rest` are the fields that are only merged as tables. -/
structure ConfigRequirementsToml (Rule Group Profiles Rest : Type) where
  rules : Option (List Rule)
  hooks : Option (ManagedHooksRequirementsToml Group)
  permissions : Option (PermissionsRequirementsToml Profiles)
  rest : Rest

def denyReadPath : List Text := ["permissions", "filesystem", "deny_read"]

/-- The readers of TOML.  Relative paths are read in a directory, if there is one; `sandboxModes` is
    the value of `allowed_sandbox_modes` for a host name.  The paths that may not be read are read
    from the field of this name. -/
structure Deserializer where
  (Scalar Rule Group Profiles Rest : Type)
  fromStr : Text → Except Text (TomlTable Scalar)
  parse : Option Text → Toml Scalar → Except Text (ConfigRequirementsToml Rule Group Profiles Rest)
  sandboxModes : Option Text → Rest → Option (Except Text (Toml Scalar))
  restIsEmpty : Rest → Bool
  defaultProfiles : Profiles
  normalizeHost : Text → Text
  denyReadOf_eq_nil : ∀ {base value requirements}, parse base value = .ok requirements →
    Lacks denyReadPath value → denyReadOf requirements.permissions = []

variable (de : Deserializer)

abbrev Requirements := ConfigRequirementsToml de.Rule de.Group de.Profiles de.Rest

/-- The text of a document, or its table. -/
inductive RequirementsLayerToml
  | string (contents : Text)
  | value (entries : TomlTable de.Scalar)

structure RequirementsLayerEntry where
  toml : RequirementsLayerToml de
  baseDir : Option Text

structure ComposableRequirementsLayer where
  regularToml : Toml de.Scalar
  domainFields : Requirements de

inductive RequirementsCompositionError
  | parse (message : Text)
  | composedParse (message : Text)
  | conflict (field message : Text)

variable {de}

/-! ### A layer -/

def stripSpecialFields (table : TomlTable de.Scalar) : Toml de.Scalar :=
  removeNestedFieldAndPruneEmpty
    (.table (removeKey "hooks" (removeKey "rules" table))) denyReadPath

/-- The table of a layer, and what is read from it. -/
def parseLayer (entry : RequirementsLayerEntry de) :
    Except RequirementsCompositionError (TomlTable de.Scalar × Requirements de) := do
  let table ← match entry.toml with
    | .string contents => (de.fromStr contents).mapError .parse
    | .value entries => .ok entries
  return (table, ← (de.parse entry.baseDir (.table table)).mapError .parse)

def materializeRemoteSandboxConfig (hostname : Option Text) (requirements : Requirements de)
    (table : TomlTable de.Scalar) : Except RequirementsCompositionError (TomlTable de.Scalar) :=
  let table := removeKey "remote_sandbox_config" table
  match de.sandboxModes hostname requirements.rest with
  | none => .ok table
  | some modes =>
    (modes.mapError .composedParse).map (insertKey "allowed_sandbox_modes" · table)

def fromEntry (hostname : Option Text) (entry : RequirementsLayerEntry de) :
    Except RequirementsCompositionError (ComposableRequirementsLayer de) := do
  let (table, requirements) ← parseLayer entry
  let table ← materializeRemoteSandboxConfig hostname requirements table
  return ⟨stripSpecialFields table, requirements⟩

/-! ### What is collected from the layers -/

def mergeRules {Rule : Type} (target incoming : Option (List Rule)) : Option (List Rule) :=
  match incoming, target with
  | none, target => target
  | some incoming, none => some incoming
  | some incoming, some existing => some (existing ++ incoming)

section Hooks

variable {Group : Type} (field : HookDirectoryField)

/-- The directory of the active platform must not change. -/
def mergeActiveSingleton : (existing incoming : Option Text) →
    Except RequirementsCompositionError (Option Text)
  | existing, none => .ok existing
  | none, some incoming => .ok (some incoming)
  | some existing, some incoming =>
    if existing ≠ incoming then
      .error (.conflict field.fieldName
        ("`" ++ existing ++ "` conflicts with `" ++ incoming ++ "`"))
    else .ok (some existing)

def mergeHooks (target incoming : Option (ManagedHooksRequirementsToml Group)) :
    Except RequirementsCompositionError (Option (ManagedHooksRequirementsToml Group)) :=
  match incoming.filter (!·.isEmpty), target with
  | none, target => .ok target
  | some incoming, none => .ok (some incoming)
  | some incoming, some existing => do
    let activeDir ← mergeActiveSingleton field (existing.dir field) (incoming.dir field)
    return some {
      dir := fun f => if f = field then activeDir else (existing.dir f).or (incoming.dir f)
      hooks := fun event => existing.hooks event ++ incoming.hooks event }

end Hooks

/-- `DenyReadMergeState::apply_to`. -/
def applyDenyRead (denyRead : List Text)
    (target : Option (PermissionsRequirementsToml de.Profiles)) :
    Option (PermissionsRequirementsToml de.Profiles) :=
  if denyRead.isEmpty then target else
  match target with
  | none => some ⟨some (some denyRead), de.defaultProfiles⟩
  | some existing =>
    some { existing with
      filesystem := some (some (insertNew (denyReadOf (some existing)) denyRead)) }

variable (de) in
/-- The accumulators of the loop over the layers. -/
structure DomainState where
  rules : Option (List de.Rule)
  hooks : Option (ManagedHooksRequirementsToml de.Group)
  denyRead : List Text

def mergeDomainFields (field : HookDirectoryField) (state : DomainState de)
    (fields : Requirements de) : Except RequirementsCompositionError (DomainState de) := do
  let hooks ← mergeHooks field state.hooks fields.hooks
  return ⟨mergeRules state.rules fields.rules, hooks,
    insertNew state.denyRead (denyReadOf fields.permissions)⟩

/-! ### The composition -/

def composeLayers (field : HookDirectoryField) (layers : List (ComposableRequirementsLayer de)) :
    Except RequirementsCompositionError (Option (Requirements de)) := do
  let mergedToml := layers.foldl (fun merged layer =>
    mergeTomlValues de.normalizeHost merged layer.regularToml) (.table [])
  let requirements ← (de.parse none mergedToml).mapError .composedParse
  let state ← (layers.reverse.map (·.domainFields)).foldlM (mergeDomainFields field) ⟨none, none, []⟩
  let permissions := applyDenyRead state.denyRead requirements.permissions
  let outputIsEmpty := de.restIsEmpty requirements.rest && state.rules.isNone &&
    permissions.isNone && state.hooks.all (·.isEmpty)
  return if outputIsEmpty then none
    else some ⟨state.rules, state.hooks, permissions, requirements.rest⟩

/-- `compose_requirements_for_hostname_and_hook_directory`. -/
def composeRequirements (hostname : Option Text) (field : HookDirectoryField)
    (entries : List (RequirementsLayerEntry de)) :
    Except RequirementsCompositionError (Option (Requirements de)) := do
  composeLayers field (← entries.mapM (fromEntry hostname))

/-! ### What is collected -/

/-- What a layer says, as far as it can be read. -/
def requirementsOf (entry : RequirementsLayerEntry de) : Option (Requirements de) :=
  (parseLayer entry).toOption.map (·.2)

def rulesOf {Rule : Type} (rules : Option (List Rule)) : List Rule := rules.getD []

section Parts

variable {Group : Type} (hooks : Option (ManagedHooksRequirementsToml Group))

def groupsOf (event : HookEventName) : List Group := (hooks.map (·.hooks event)).getD []

def dirOf (field : HookDirectoryField) : Option Text := hooks.bind (·.dir field)

/-- Hooks that are empty say nothing. -/
theorem parts_filter (field : HookDirectoryField) :
    groupsOf (hooks.filter (!·.isEmpty)) = groupsOf hooks ∧
      dirOf (hooks.filter (!·.isEmpty)) field = dirOf hooks field := by
  cases hooks with
  | none => exact ⟨rfl, rfl⟩
  | some h =>
    cases hempty : h.isEmpty with
    | false => simp [Option.filter, hempty]
    | true =>
      have hnone : Option.filter (fun h => !h.isEmpty) (some h) = none := by
        simp [hempty]
      simp only [ManagedHooksRequirementsToml.isEmpty, Bool.and_eq_true, Option.isNone_iff_eq_none,
        List.all_eq_true, List.isEmpty_iff] at hempty
      obtain ⟨⟨hdir, hwindows⟩, hgroups⟩ := hempty
      rw [hnone]
      refine ⟨funext fun event => (hgroups event event.mem_all).symm, ?_⟩
      cases field
      · exact hdir.symm
      · exact hwindows.symm

end Parts

/-- Rules, hooks and paths are those of the layers, the first one first. -/
structure Collects (field : HookDirectoryField) (layers : List (Option (Requirements de)))
    (rules : Option (List de.Rule)) (hooks : Option (ManagedHooksRequirementsToml de.Group))
    (denyRead : List Text) : Prop where
  rules : rulesOf rules = layers.flatMap fun layer => rulesOf (layer.bind (·.rules))
  groups : ∀ event, groupsOf hooks event =
    layers.flatMap fun layer => groupsOf (layer.bind (·.hooks)) event
  nodup : denyRead.Nodup
  denyRead : ∀ pattern, pattern ∈ denyRead ↔
    ∃ layer ∈ layers, pattern ∈ denyReadOf (layer.bind (·.permissions))
  /-- Every layer that names a directory names the one that is taken. -/
  dir : ∀ path, dirOf hooks field = some path ↔
    ∃ layer ∈ layers, dirOf (layer.bind (·.hooks)) field = some path

theorem rulesOf_mergeRules {Rule : Type} (target incoming : Option (List Rule)) :
    rulesOf (mergeRules target incoming) = rulesOf target ++ rulesOf incoming := by
  cases target <;> cases incoming <;> simp [mergeRules, rulesOf]

variable {field : HookDirectoryField} {layers : List (ComposableRequirementsLayer de)}

theorem mergeActiveSingleton_ok {existing incoming merged : Option Text}
    (h : mergeActiveSingleton field existing incoming = .ok merged) (path : Text) :
    merged = some path ↔ existing = some path ∨ incoming = some path := by
  unfold mergeActiveSingleton at h
  split at h
  · cases h
    simp
  · cases h
    simp
  · split at h
    · cases h
    · rename_i heq
      cases h
      rw [not_not.mp heq, or_self]

theorem mergeHooks_ok {Group : Type} {field : HookDirectoryField}
    {target incoming merged : Option (ManagedHooksRequirementsToml Group)}
    (h : mergeHooks field target incoming = .ok merged) :
    (∀ event, groupsOf merged event = groupsOf target event ++ groupsOf incoming event) ∧
      ∀ path, dirOf merged field = some path ↔
        dirOf target field = some path ∨ dirOf incoming field = some path := by
  unfold mergeHooks at h
  rw [← (parts_filter incoming field).1, ← (parts_filter incoming field).2]
  generalize incoming.filter (!·.isEmpty) = incoming at h ⊢
  split at h
  · cases h
    simp [groupsOf, dirOf]
  · cases h
    simp [groupsOf, dirOf]
  · obtain ⟨activeDir, hdir, h⟩ := bind_eq_ok.mp h
    cases h
    refine ⟨fun event => rfl, fun path => ?_⟩
    simpa [dirOf] using mergeActiveSingleton_ok hdir path

/-- **A layer adds** its rules, groups, paths and directory. -/
theorem Collects.merge {layers : List (Option (Requirements de))} {state state' : DomainState de}
    (h : Collects field layers state.rules state.hooks state.denyRead) {fields : Requirements de}
    (hmerge : mergeDomainFields field state fields = .ok state') :
    Collects field (layers ++ [some fields]) state'.rules state'.hooks state'.denyRead := by
  obtain ⟨hooks, hhooks, hstate⟩ := bind_eq_ok.mp hmerge
  cases hstate
  obtain ⟨hgroups, hdir⟩ := mergeHooks_ok hhooks
  refine ⟨?_, fun event => ?_, nodup_insertNew h.nodup _, fun pattern => ?_, fun path => ?_⟩
  · rw [rulesOf_mergeRules, h.rules]
    simp
  · rw [hgroups, h.groups]
    simp
  · rw [mem_insertNew, h.denyRead]
    simp [or_and_right, exists_or]
  · rw [hdir, h.dir]
    simp [or_and_right, exists_or]

theorem collects_foldlM {fields : List (Requirements de)} {state : DomainState de}
    (h : fields.foldlM (mergeDomainFields field) ⟨none, none, []⟩ = .ok state) :
    Collects field (fields.map some) state.rules state.hooks state.denyRead := by
  induction fields using reverseRecOn generalizing state with
  | nil =>
    cases h
    exact ⟨rfl, fun _ => rfl, nodup_nil, by simp, by simp [dirOf]⟩
  | append_singleton fields last ih =>
    obtain ⟨before, hbefore, hlast⟩ := foldlM_append_ok.mp h
    obtain ⟨state', hmerge, hnil⟩ := foldlM_cons_ok.mp hlast
    cases hnil
    rw [map_append]
    exact (ih hbefore).merge hmerge

/-! ### The tables -/

variable {output : Option (Requirements de)} {hostname : Option Text}

theorem fromEntry_ok {entry : RequirementsLayerEntry de} {layer : ComposableRequirementsLayer de}
    (h : fromEntry hostname entry = .ok layer) :
    Lacks denyReadPath layer.regularToml ∧ requirementsOf entry = some layer.domainFields := by
  obtain ⟨⟨table, requirements⟩, hparse, h⟩ := bind_eq_ok.mp h
  obtain ⟨table', -, h⟩ := bind_eq_ok.mp h
  cases h
  refine ⟨lacks_removeNestedField (cons_ne_nil _ _) _, ?_⟩
  rw [requirementsOf, hparse]
  rfl

/-- The merged table has no paths that may not be read. -/
theorem lacks_denyRead (h : ∀ layer ∈ layers, Lacks denyReadPath layer.regularToml) :
    Lacks denyReadPath (layers.foldl (fun merged layer =>
      mergeTomlValues de.normalizeHost merged layer.regularToml) (.table [])) :=
  foldlRecOn _ _ (fun _ hmem => absurd hmem not_mem_nil)
    fun _ hmerged layer hlayer => lacks_mergeTomlValuesAtPath _
      ⟨by decide, rfl, by decide, rfl, by decide, rfl, trivial⟩ (h layer hlayer) hmerged

/-- The paths that were collected are spliced in. -/
theorem mem_applyDenyRead {permissions : Option (PermissionsRequirementsToml de.Profiles)}
    (h : denyReadOf permissions = []) {denyRead : List Text} (hnodup : denyRead.Nodup) :
    (denyReadOf (applyDenyRead denyRead permissions)).Nodup ∧
      ∀ pattern, pattern ∈ denyReadOf (applyDenyRead denyRead permissions) ↔ pattern ∈ denyRead := by
  unfold applyDenyRead
  split
  · rename_i hempty
    rw [isEmpty_iff.mp hempty, h]
    simp
  · cases permissions with
    | none => exact ⟨hnodup, fun _ => Iff.rfl⟩
    | some existing =>
      show (insertNew (denyReadOf (some existing)) denyRead).Nodup ∧
        ∀ pattern, pattern ∈ insertNew (denyReadOf (some existing)) denyRead ↔ _
      rw [h]
      exact ⟨nodup_insertNew nodup_nil _, by simp [mem_insertNew]⟩

theorem collects_composeLayers (hlacks : ∀ layer ∈ layers, Lacks denyReadPath layer.regularToml)
    (h : composeLayers field layers = .ok output) :
    Collects field (layers.reverse.map (some ·.domainFields)) (output.bind (·.rules))
      (output.bind (·.hooks)) (denyReadOf (output.bind (·.permissions))) := by
  obtain ⟨requirements, hparse, h⟩ := bind_eq_ok.mp h
  obtain ⟨state, hstate, h⟩ := bind_eq_ok.mp h
  have hread := de.denyReadOf_eq_nil (mapError_eq_ok.mp hparse) (lacks_denyRead hlacks)
  have hcollects := collects_foldlM hstate
  rw [map_map] at hcollects
  obtain ⟨hnodup, hmem⟩ := mem_applyDenyRead hread hcollects.nodup
  have hall : Collects field (layers.reverse.map (some ·.domainFields)) state.rules state.hooks
      (denyReadOf (applyDenyRead state.denyRead requirements.permissions)) :=
    { hcollects with
      nodup := hnodup
      denyRead := fun pattern => (hmem pattern).trans (hcollects.denyRead pattern) }
  cases h
  split
  · -- where the output is empty, so is all that was collected
    rename_i hempty
    simp only [Bool.and_eq_true, Option.isNone_iff_eq_none] at hempty
    obtain ⟨⟨⟨-, hrules⟩, hpermissions⟩, hhooks⟩ := hempty
    have hnone : state.hooks.filter (!·.isEmpty) = none :=
      Option.filter_eq_none_iff.mpr fun hooks hsome => by simpa [hsome] using hhooks
    obtain ⟨hgroups, hdir⟩ := parts_filter state.hooks field
    rw [hnone] at hgroups hdir
    rw [hrules, hpermissions] at hall
    exact { hall with
      groups := fun event => (congrFun hgroups event).trans (hall.groups event)
      dir := fun path => (iff_of_eq (congrArg (· = some path) hdir)).trans (hall.dir path) }
  · exact hall

/-- What the composition of a list of layers collects, the last layer first. -/
def CollectsAll (field : HookDirectoryField) (entries : List (RequirementsLayerEntry de))
    (output : Option (Requirements de)) : Prop :=
  Collects field (entries.reverse.map requirementsOf) (output.bind (·.rules))
    (output.bind (·.hooks)) (denyReadOf (output.bind (·.permissions)))

theorem collectsAll {field : HookDirectoryField} {entries : List (RequirementsLayerEntry de)}
    (h : composeRequirements hostname field entries = .ok output) :
    CollectsAll field entries output := by
  obtain ⟨layers, hlayers, h⟩ := bind_eq_ok.mp h
  have hsame := map_eq_of_mapM (fun _ _ hentry => (fromEntry_ok hentry).2) hlayers
  rw [CollectsAll, map_reverse, hsame, ← map_reverse]
  refine collects_composeLayers (fun layer hlayer => ?_) h
  obtain ⟨entry, -, hentry⟩ := exists_of_mem_mapM hlayers hlayer
  exact (fromEntry_ok hentry).1

/-- **No layer removes a restriction.**  In a composition the rules and the groups of an event are
    those of the layers, from high to low precedence, the paths that may not be read are those of
    all layers, once each, and the directory is the one every layer names; so a further layer, at
    any place, only adds to them. -/
theorem compose_restrictions (hostname : Option Text) (field : HookDirectoryField) :
    (∀ (entries : List (RequirementsLayerEntry de)) (output : Option (Requirements de)),
      composeRequirements hostname field entries = .ok output → CollectsAll field entries output) ∧
    ∀ (before after : List (RequirementsLayerEntry de)) (extra : RequirementsLayerEntry de)
      (output output' : Option (Requirements de)),
      composeRequirements hostname field (before ++ after) = .ok output →
      composeRequirements hostname field (before ++ extra :: after) = .ok output' →
        (rulesOf (output.bind (·.rules))).Sublist (rulesOf (output'.bind (·.rules))) ∧
        (∀ event, (groupsOf (output.bind (·.hooks)) event).Sublist
          (groupsOf (output'.bind (·.hooks)) event)) ∧
        denyReadOf (output.bind (·.permissions)) ⊆ denyReadOf (output'.bind (·.permissions)) ∧
        ∀ path, dirOf (output.bind (·.hooks)) field = some path →
          dirOf (output'.bind (·.hooks)) field = some path := by
  refine ⟨fun _ _ => collectsAll, fun before after extra output output' h h' => ?_⟩
  have hless := collectsAll h
  have hmore := collectsAll h'
  have hsub : ((before ++ after).reverse.map requirementsOf).Sublist
      ((before ++ extra :: after).reverse.map requirementsOf) :=
    (((sublist_cons_self extra after).append_left before).reverse).map _
  refine ⟨?_, fun event => ?_, fun pattern hpattern => ?_, fun path hpath => ?_⟩
  · rw [hless.rules, hmore.rules]
    exact hsub.flatMap _
  · rw [hless.groups, hmore.groups]
    exact hsub.flatMap _
  · obtain ⟨layer, hlayer, hin⟩ := (hless.denyRead pattern).mp hpattern
    exact (hmore.denyRead pattern).mpr ⟨layer, hsub.subset hlayer, hin⟩
  · obtain ⟨layer, hlayer, hdir⟩ := (hless.dir path).mp hpath
    exact (hmore.dir path).mpr ⟨layer, hsub.subset hlayer, hdir⟩

/-! ### Two layers -/

/-- `rules.prefix_rules`: a token of a pattern is one text, or one of several. -/
structure PrefixRuleToml where
  pattern : List (Option Text × Option (List Text))
  decision : Option Text
  justification : Option Text

section Schema

variable {α : Type}

def readString : Toml Text → Except Text Text
  | .scalar text => .ok text
  | _ => .error "expected a string"

def readArray (read : Toml Text → Except Text α) : Toml Text → Except Text (List α)
  | .array items => items.mapM read
  | _ => .error "expected an array"

def readField (key : String) (read : Toml Text → Except Text α) : Toml Text → Except Text (Option α)
  | .table entries => match entries.lookup key.toList with
    | some value => (read value).map some
    | none => .ok none
  | _ => .error "expected a table"

def readRequired (key : String) (read : Toml Text → Except Text α) (value : Toml Text) :
    Except Text α := do
  match ← readField key read value with
  | some a => return a
  | none => throw ("missing field " ++ key.toList)

def readDecision (value : Toml Text) : Except Text Text := do
  let decision ← readString value
  if ["allow", "prompt", "forbidden"].contains (String.ofList decision) then return decision
  else throw "unknown variant".toList

def readRule (value : Toml Text) : Except Text PrefixRuleToml := do
  let pattern ← readRequired "pattern" (readArray fun token => do
    return (← readField "token" readString token,
      ← readField "any_of" (readArray readString) token)) value
  return ⟨pattern, ← readField "decision" readDecision value,
    ← readField "justification" readString value⟩

def readPermissions (value : Toml Text) : Except Text (PermissionsRequirementsToml Unit) :=
  (readField "filesystem" (readField "deny_read" (readArray readString)) value).map (⟨·, ()⟩)

/-- What is read from a field at the head of a path that the table lacks lacks the rest. -/
theorem readField_of_lacks {key : String} {path : List Text} {read : Toml Text → Except Text α}
    {value : Toml Text} {a : α} (h : readField key read value = .ok (some a))
    (hlacks : Lacks (key.toList :: path) value) : ∃ child, Lacks path child ∧ read child = .ok a := by
  cases value with
  | scalar | array => cases h
  | table entries =>
    rw [readField] at h
    split at h
    · rename_i child hlookup
      obtain ⟨before, after, rfl, -⟩ := lookup_eq_some_iff.mp hlookup
      refine ⟨child, hlacks child (mem_append_right _ mem_cons_self), ?_⟩
      cases hread : read child <;> simp_all [Except.map]
    · cases h

end Schema

/-- The readers for documents that have rules and paths that may not be read, and no other field. -/
def schemaReaders : Deserializer where
  Scalar := Text
  Rule := PrefixRuleToml
  Group := Unit
  Profiles := Unit
  Rest := Unit
  fromStr _ := .error []
  parse _ value := do
    return ⟨← readField "rules" (readRequired "prefix_rules" (readArray readRule)) value, none,
      ← readField "permissions" readPermissions value, ()⟩
  sandboxModes _ _ := none
  restIsEmpty _ := true
  defaultProfiles := ()
  normalizeHost host := host
  denyReadOf_eq_nil h hlacks := by
    obtain ⟨rules, -, h⟩ := bind_eq_ok.mp h
    obtain ⟨_ | permissions, hpermissions, h⟩ := bind_eq_ok.mp h <;> cases h
    · rfl
    obtain ⟨child, hlacks, hread⟩ := readField_of_lacks hpermissions hlacks
    cases hfiles : readField "filesystem" (readField "deny_read" (readArray readString)) child with
    | error => simp [readPermissions, hfiles, Except.map] at hread
    | ok filesystem =>
      obtain rfl : ⟨filesystem, ()⟩ = permissions := by
        simpa [readPermissions, hfiles, Except.map] using hread
      rcases filesystem with _ | _ | denyRead
      · rfl
      · rfl
      obtain ⟨child, hlacks, hread⟩ := readField_of_lacks hfiles hlacks
      obtain ⟨_, hlacks, -⟩ := readField_of_lacks hread hlacks
      exact hlacks.elim

/-- A layer with a rule about a program and some paths that may not be read. -/
def denyLayer (program decision : String) (paths : List String) :
    RequirementsLayerEntry schemaReaders where
  toml := .value [("rules", .table [("prefix_rules", .array [.table
      [("pattern", .array [.table [("token", .scalar program.toList)]]),
        ("decision", .scalar decision.toList)]])]),
    ("permissions", .table [("filesystem", .table [("deny_read",
      .array (paths.map (.scalar ·.toList)))])])]
  baseDir := none

def programRule (program decision : String) : PrefixRuleToml :=
  ⟨[(some program.toList, none)], some decision.toList, none⟩

def denyFields (program decision : String) (paths : List String) : Requirements schemaReaders :=
  ⟨some [programRule program decision], none, some ⟨some (some (paths.map (·.toList))), ()⟩, ()⟩

theorem compose_denyLayers :
    let entries := [denyLayer "npm" "prompt" ["/etc"], denyLayer "git" "forbidden" ["/srv", "/etc"]]
    ∃ output, composeRequirements none .managedDir entries = .ok output ∧
      CollectsAll .managedDir entries output ∧
      rulesOf (output.bind (·.rules)) = [programRule "git" "forbidden", programRule "npm" "prompt"] ∧
      denyReadOf (output.bind (·.permissions)) = ["/srv".toList, "/etc".toList] := by
  intro entries
  have hlayers : entries.mapM (fromEntry none) =
      .ok [⟨.table [], denyFields "npm" "prompt" ["/etc"]⟩,
        ⟨.table [], denyFields "git" "forbidden" ["/srv", "/etc"]⟩] := rfl
  have hmerge : mergeTomlValues schemaReaders.normalizeHost (.table []) (.table []) =
      (.table [] : Toml Text) := by
    rw [mergeTomlValues, mergeTomlValuesAtPath]
    rfl
  have hcompose : composeRequirements none .managedDir entries =
      .ok (some ⟨some [programRule "git" "forbidden", programRule "npm" "prompt"], none,
        some ⟨some (some ["/srv".toList, "/etc".toList]), ()⟩, ()⟩) := by
    refine bind_eq_ok.mpr ⟨_, hlayers, ?_⟩
    rw [composeLayers, foldl_cons, foldl_cons]
    erw [hmerge, hmerge]
    rfl
  exact ⟨_, hcompose, (compose_restrictions none .managedDir).1 _ _ hcompose, rfl, rfl⟩

end Codex.Config
