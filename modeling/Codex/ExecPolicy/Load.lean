import Codex.ApplyPatch.Patch
import Codex.ExecPolicy.Overlay
import Codex.ExecPolicy.RuleFile
import Codex.Path.Tree
import Mathlib.Data.Char
import Mathlib.Data.List.Lex
import Mathlib.Data.List.Sort

namespace Codex.ExecPolicy

open Text Data Policy PolicyParser
open ApplyPatch (IoError)

/-!
# Loading the exec policy

The rule files of all configuration layers are run one after the other on one builder; the policy
of the managed requirements is then put over the policy that was built.

* `collectPolicyFiles` — the rule files of a directory, sorted;
* `policyFiles`, `loadExecPolicy` — the rule files of a stack of layers, and the policy;
* `loadExecPolicyWithWarning` — the same, where a file that cannot be parsed only gives a warning;
* `ParseFails` — loading comes to a file that cannot be parsed;
* `loadExecPolicyWithWarning_keeps_forbidden_iff` — what the requirements forbid stays forbidden
  just when this does not happen, or when they forbid nothing.
-/

/-! ### Layers -/

/-- Where a layer of the configuration comes from. -/
inductive ConfigLayerSource
  | mdm
  | system (file : AbsolutePathBuf)
  | enterpriseManaged
  | user (file : AbsolutePathBuf)
  | project (dotCodexFolder : AbsolutePathBuf)
  | sessionFlags
  | legacyManagedConfigTomlFromFile
  | legacyManagedConfigTomlFromMdm

/-- The folder of a layer, if it has one. -/
def ConfigLayerSource.configFolder : ConfigLayerSource → Option AbsolutePathBuf
  | .system file => file.parent
  | .user file => file.parent
  | .project dotCodexFolder => some dotCodexFolder
  | .mdm | .enterpriseManaged | .sessionFlags | .legacyManagedConfigTomlFromFile
  | .legacyManagedConfigTomlFromMdm => none

/-- Layers of the user and of projects, whose rules can be ignored. -/
def ConfigLayerSource.isUserOrProject : ConfigLayerSource → Bool
  | .user _ | .project _ => true
  | _ => false

structure ConfigLayerEntry where
  name : ConfigLayerSource
  isDisabled : Bool

/-- The policy of the managed requirements, with the orders in which its maps are iterated. -/
structure RequirementsExecPolicy where
  policy : Policy
  ruleEntries : List (Text × List PrefixRule)
  hostEntries : List (Text × List AbsolutePathBuf)
  rules_order : IterationOrder policy.rulesByProgram ruleEntries
  hosts_order : IterationOrder policy.hostExecutablesByName hostEntries

/-- The layers of the configuration, the lowest precedence first. -/
structure ConfigLayerStack where
  layers : List ConfigLayerEntry
  ignoreUserAndProjectExecPolicyRules : Bool
  requirementsExecPolicy : Option RequirementsExecPolicy

/-- The layers that are looked at for rules, the lowest precedence first. -/
def ConfigLayerStack.ruleLayers (stack : ConfigLayerStack) : List ConfigLayerEntry :=
  (stack.layers.filter (!·.isDisabled)).filter fun layer =>
    !(stack.ignoreUserAndProjectExecPolicyRules && layer.name.isUserOrProject)

/-! ### Files -/

inductive FileType
  | file
  | directory
  | symlink
  | other
deriving DecidableEq

structure DirEntry where
  name : NormalName
  fileType : Except IoError FileType

/-- What the file system answers. -/
structure RulesFileSystem where
  readDir : AbsolutePathBuf → Except IoError (List (Except IoError DirEntry))
  readToString : AbsolutePathBuf → Except IoError Text

inductive ExecPolicyError
  | readDir (dir : AbsolutePathBuf) (source : IoError)
  | readFile (path : AbsolutePathBuf) (source : IoError)
  | parsePolicy (path : Text) (source : Error)

/-- The folder of the rules in the folder of a layer. -/
def rulesDirName : NormalName := ⟨"rules", by decide⟩

def ruleExtension : Text := "rules"

/-- `Path::extension` of a file name: what stands behind its last dot, unless the dot comes
    first. -/
def extension (name : Text) : Option Text :=
  match name.reverse.span (· ≠ '.') with
  | (reversed, '.' :: _ :: _) => some reversed.reverse
  | _ => none

/-- The order of paths: component by component. -/
def pathLe (left right : AbsolutePathBuf) : Prop :=
  left.names.map Subtype.val ≤ right.names.map Subtype.val

instance : DecidableRel pathLe := fun _ _ => inferInstanceAs (Decidable (_ ≤ _))

instance : Std.Total pathLe := ⟨fun _ _ => le_total _ _⟩

instance : IsTrans AbsolutePathBuf pathLe := ⟨fun _ _ _ => le_trans⟩

theorem eq_of_pathLe {left right : AbsolutePathBuf} (h : pathLe left right)
    (h' : pathLe right left) : left = right := by
  have hnames := (Subtype.val_injective.list_map) (le_antisymm h h')
  cases left
  exact congrArg _ hnames

/-- The path of an entry of a directory, if it is a rule file. -/
def rulePath? (dir : AbsolutePathBuf) (entry : Except IoError DirEntry) :
    Except ExecPolicyError (Option AbsolutePathBuf) := do
  let entry ← entry.mapError (.readDir dir)
  let fileType ← entry.fileType.mapError (.readDir dir)
  return if extension entry.name.val = some ruleExtension ∧ fileType = .file then
      some (childPath dir entry.name)
    else none

variable (fs : RulesFileSystem)

/-- The rule files of a directory, sorted.  A directory that is not there has none. -/
def collectPolicyFiles (dir : AbsolutePathBuf) : Except ExecPolicyError (List AbsolutePathBuf) :=
  match fs.readDir dir with
  | .error source => if source.kind = .notFound then .ok [] else .error (.readDir dir source)
  | .ok entries => do
    let paths ← entries.mapM (rulePath? dir)
    return (paths.reduceOption).insertionSort pathLe

/-- The rule files of one layer. -/
def layerPolicyFiles (layer : ConfigLayerEntry) : Except ExecPolicyError (List AbsolutePathBuf) :=
  match layer.name.configFolder with
  | some configFolder => collectPolicyFiles fs (childPath configFolder rulesDirName)
  | none => .ok []

/-- The rule files of all layers. -/
def policyFiles (stack : ConfigLayerStack) : Except ExecPolicyError (List AbsolutePathBuf) :=
  List.flatten <$> stack.ruleLayers.mapM (layerPolicyFiles fs)

/-! ### Loading -/

section Load

variable (starlark : Starlark) (process : Process) (fs : RulesFileSystem)

/-- Read a rule file and run it. -/
def loadPolicyFile (builder : PolicyBuilder) (policyPath : AbsolutePathBuf) :
    Except ExecPolicyError PolicyBuilder := do
  let contents ← (fs.readToString policyPath).mapError (.readFile policyPath)
  let identifier := policyPath.display
  (parse starlark process builder identifier contents).mapError
    (.parsePolicy identifier)

variable (stack : ConfigLayerStack)

/-- Put the requirements, if there are any, over the policy of the rule files. -/
def ConfigLayerStack.overRequirements (policy : Policy) : Policy :=
  match stack.requirementsExecPolicy with
  | none => policy
  | some requirements =>
    policy.mergeOverlay requirements.policy requirements.ruleEntries requirements.hostEntries

def loadExecPolicy : Except ExecPolicyError Policy := do
  let policyPaths ← policyFiles fs stack
  let builder ← policyPaths.foldlM (loadPolicyFile starlark process fs) .new
  return stack.overRequirements builder.build

def Policy.empty : Policy := ⟨∅, [], ∅⟩

/-- A file that cannot be parsed only gives a warning: the policy is then the empty one. -/
def loadExecPolicyWithWarning : Except ExecPolicyError (Policy × Option ExecPolicyError) :=
  match loadExecPolicy starlark process fs stack with
  | .ok policy => .ok (policy, none)
  | .error (.parsePolicy path source) => .ok (.empty, some (.parsePolicy path source))
  | .error err => .error err

/-! ### What the requirements forbid -/

/-- Loading comes to a file that can be read but not parsed: the files before it have left the
    builder `builder`. -/
def ParseFails : Prop :=
  ∃ before policyPath after builder contents source,
    policyFiles fs stack = .ok (before ++ policyPath :: after) ∧
    before.foldlM (loadPolicyFile starlark process fs) .new = .ok builder ∧
    fs.readToString policyPath = .ok contents ∧
    parse starlark process builder policyPath.display contents = .error source

variable {starlark process fs} {err : ExecPolicyError}

/-- Reading an entry of a directory fails with an error about the directory. -/
theorem rulePath?_error {dir : AbsolutePathBuf} {entry : Except IoError DirEntry}
    (h : rulePath? dir entry = .error err) :
    ∃ source, err = .readDir dir source := by
  cases entry with
  | error source => exact ⟨source, (Except.error.inj h).symm⟩
  | ok entry =>
    obtain ⟨name, fileType⟩ := entry
    cases fileType with
    | error source => exact ⟨source, (Except.error.inj h).symm⟩
    | ok fileType => cases h

variable {stack : ConfigLayerStack}

/-- So does looking for the rule files. -/
theorem policyFiles_error (h : policyFiles fs stack = .error err) :
    ∃ dir source, err = .readDir dir source := by
  have hlayers : stack.ruleLayers.mapM (layerPolicyFiles fs) = .error err := by
    unfold policyFiles at h
    cases hlayers : stack.ruleLayers.mapM (layerPolicyFiles fs) with
    | error err' => rw [hlayers] at h; cases h; rfl
    | ok files => rw [hlayers] at h; cases h
  obtain ⟨layer, -, hlayer⟩ := exists_of_mapM_eq_error hlayers
  unfold layerPolicyFiles at hlayer
  split at hlayer
  · rename_i configFolder _
    refine ⟨childPath configFolder rulesDirName, ?_⟩
    unfold collectPolicyFiles at hlayer
    split at hlayer
    · rename_i source _
      split at hlayer
      · cases hlayer
      · exact ⟨source, (Except.error.inj hlayer).symm⟩
    · rename_i entries _
      cases hentries : entries.mapM (rulePath? (childPath configFolder rulesDirName)) with
      | error err' =>
        rw [hentries] at hlayer
        cases hlayer
        obtain ⟨entry, -, hentry⟩ := exists_of_mapM_eq_error hentries
        exact rulePath?_error hentry
      | ok paths => rw [hentries] at hlayer; cases hlayer
  · cases hlayer

/-- One file stops the loading with a parse error just when it can be read but not parsed. -/
theorem loadPolicyFile_parsePolicy_iff {builder : PolicyBuilder} {policyPath : AbsolutePathBuf} :
    (∃ path source, loadPolicyFile starlark process fs builder policyPath =
      .error (.parsePolicy path source)) ↔
      ∃ contents source, fs.readToString policyPath = .ok contents ∧
        parse starlark process builder policyPath.display contents =
          .error source := by
  unfold loadPolicyFile
  cases fs.readToString policyPath with
  | error source =>
    constructor
    · rintro ⟨path, source, h⟩
      cases h
    · rintro ⟨contents, source, h, -⟩
      cases h
  | ok contents =>
    cases hparse : parse starlark process builder policyPath.display contents with
    | error source =>
      constructor
      · exact fun _ => ⟨contents, source, rfl, hparse⟩
      · exact fun _ => ⟨policyPath.display, source, by
          show (parse starlark process builder policyPath.display contents).mapError
            _ = _
          rw [hparse]; rfl⟩
    | ok builder' =>
      constructor
      · rintro ⟨path, source, h⟩
        change (parse starlark process builder policyPath.display contents).mapError
          _ = _ at h
        rw [hparse] at h
        cases h
      · rintro ⟨contents', source, hcontents, h⟩
        cases hcontents
        rw [hparse] at h
        cases h

/-- Loading stops with a parse error just when it comes to a file that can be read but not
    parsed. -/
theorem loadExecPolicy_parsePolicy_iff (stack : ConfigLayerStack) :
    (∃ path source, loadExecPolicy starlark process fs stack = .error (.parsePolicy path source)) ↔
      ParseFails starlark process fs stack := by
  unfold loadExecPolicy ParseFails
  cases hfiles : policyFiles fs stack with
  | error err =>
    obtain ⟨dir, source, rfl⟩ := policyFiles_error hfiles
    simp [bind, Except.bind]
  | ok paths =>
    have hrun : (∃ path source, (do
        let builder ← paths.foldlM (loadPolicyFile starlark process fs) .new
        return stack.overRequirements builder.build) =
          (.error (.parsePolicy path source) : Except ExecPolicyError Policy)) ↔
        ∃ path source, paths.foldlM (loadPolicyFile starlark process fs) .new =
          .error (.parsePolicy path source) := by
      cases paths.foldlM (loadPolicyFile starlark process fs) .new <;> simp [bind, Except.bind, pure,
        Except.pure]
    refine hrun.trans ?_
    simp only [foldlM_eq_error_iff, Except.ok.injEq]
    constructor
    · rintro ⟨path, source, before, policyPath, after, builder, rfl, hbefore, hfile⟩
      obtain ⟨contents, source', hread, hparse⟩ :=
        loadPolicyFile_parsePolicy_iff.mp ⟨path, source, hfile⟩
      exact ⟨before, policyPath, after, builder, contents, source', rfl, hbefore, hread, hparse⟩
    · rintro ⟨before, policyPath, after, builder, contents, source, rfl, hbefore, hread, hparse⟩
      obtain ⟨path, source', hfile⟩ :=
        loadPolicyFile_parsePolicy_iff.mpr ⟨contents, source, hread, hparse⟩
      exact ⟨path, source', before, policyPath, after, builder, rfl, hbefore, hfile⟩

/-- Nothing matches the empty policy: the heuristics decide. -/
theorem Policy.empty_checkWithOptions (cmd : List Text) (fallback : List Text → Decision)
    (options : MatchOptions) :
    empty.checkWithOptions process cmd fallback options =
      some ⟨fallback cmd, [.heuristicsRuleMatch cmd (fallback cmd)]⟩ := by
  have hexact : empty.exactMatches cmd = [] := by
    cases cmd <;> rfl
  have hhost : empty.hostMatches process cmd options = [] := by
    have hrules : empty.matchHostExecutableRules process cmd = [] := by
      unfold matchHostExecutableRules
      cases lookupProgram process cmd <;> rfl
    unfold hostMatches
    rw [hrules, ite_self]
  unfold checkWithOptions
  rw [matchesForCommandWithOptions_eq, hexact, hhost]
  rfl

/-- A policy over which the requirements were put forbids what these forbid by the first token. -/
theorem overRequirements_forbids {requirements : RequirementsExecPolicy}
    (hreq : stack.requirementsExecPolicy = some requirements) (policy : Policy) {cmd : List Text}
    {m : RuleMatch} (hm : m ∈ requirements.policy.exactMatches cmd)
    (hforbidden : m.decision = .forbidden) (fallback : List Text → Decision)
    (options : MatchOptions) :
    ∃ evaluation, (stack.overRequirements policy).checkWithOptions process cmd fallback
      options = some evaluation ∧ evaluation.decision = .forbidden := by
  obtain ⟨evaluation, heval⟩ := (stack.overRequirements policy).exists_checkWithOptions process cmd
    options fallback
  refine ⟨evaluation, heval, le_antisymm ?_ ?_⟩
  · cases evaluation.decision <;> decide
  · rw [le_checkWithOptions_iff _ process cmd options heval]
    refine ⟨m, ?_, hforbidden.ge⟩
    unfold ConfigLayerStack.overRequirements
    rw [hreq]
    exact mem_of_exactMatch requirements.rules_order process _ options hm

/-- **Managed rules and bad rule files.**  Whatever policy is loaded, every command that a managed
    rule forbids by its first token is forbidden, just when loading does not come to a file that
    cannot be parsed, or no command is forbidden so. -/
theorem loadExecPolicyWithWarning_keeps_forbidden_iff {stack : ConfigLayerStack}
    {requirements : RequirementsExecPolicy}
    (hreq : stack.requirementsExecPolicy = some requirements) :
    (∀ policy warning, loadExecPolicyWithWarning starlark process fs stack = .ok (policy, warning) →
      ∀ cmd, (∃ m ∈ requirements.policy.exactMatches cmd, m.decision = .forbidden) →
        ∀ fallback options, ∃ evaluation,
          policy.checkWithOptions process cmd fallback options = some evaluation ∧
            evaluation.decision = .forbidden) ↔
      ¬ ParseFails starlark process fs stack ∨
        ∀ cmd, ∀ m ∈ requirements.policy.exactMatches cmd, m.decision ≠ .forbidden := by
  rw [← loadExecPolicy_parsePolicy_iff]
  constructor
  · intro hkeeps
    rw [or_iff_not_imp_left, not_not]
    rintro ⟨path, source, hload⟩ cmd m hm hforbidden
    -- the empty policy leaves the command to heuristics that may allow it
    obtain ⟨evaluation, heval, hdecision⟩ := hkeeps .empty (some (.parsePolicy path source))
      (by rw [loadExecPolicyWithWarning, hload]) cmd ⟨m, hm, hforbidden⟩ (fun _ => .allow) ⟨true⟩
    rw [empty_checkWithOptions] at heval
    cases heval
    cases hdecision
  · rintro hcond policy warning hload cmd ⟨m, hm, hforbidden⟩ fallback options
    have hparses := hcond.resolve_right fun h => h cmd m hm hforbidden
    unfold loadExecPolicyWithWarning at hload
    split at hload
    · rename_i loaded hloaded
      cases hload
      -- what is loaded is the policy of the files with the requirements over it
      obtain ⟨paths, -, hloaded⟩ := bind_eq_ok.mp hloaded
      obtain ⟨builder, -, hloaded⟩ := bind_eq_ok.mp hloaded
      cases hloaded
      exact overRequirements_forbids hreq _ hm hforbidden fallback options
    · rename_i path source hloaded
      exact absurd ⟨path, source, hloaded⟩ hparses
    · cases hload

end Load

/-! ### One rule file -/

/-- An interpreter for two programs: one that allows `rm`, and any other, which it takes to be no
    program. -/
def allowRmOnly : Starlark where
  evalModule _ contents :=
    if contents = "prefix_rule([\"rm\"])" then
      ([.prefixRule [.str "rm"] none none none none none], none)
    else ([], some "parse error")
  shlexSplit _ := none

/-- The folder of a project. -/
def projectFolder : AbsolutePathBuf := normalizePath (pathComponents "/p/.codex")

/-- A project with one rule file. -/
def oneRuleFile (contents : Text) : RulesFileSystem where
  readDir dir :=
    if dir = childPath projectFolder rulesDirName then
      .ok [.ok ⟨⟨"team.rules", by decide⟩, .ok .file⟩]
    else .error ⟨.notFound, []⟩
  readToString _ := .ok contents

/-- The requirements that forbid `rm`, over the rules of the project. -/
def forbidRm : RequirementsExecPolicy where
  policy := .oneRule "rm" .forbidden
  ruleEntries := [("rm", [tokenRule "rm" .forbidden])]
  hostEntries := []
  rules_order := iterationOrder_singleton _ _
  hosts_order := iterationOrder_empty

def projectStack : ConfigLayerStack := ⟨[⟨.project projectFolder, false⟩], false, some forbidRm⟩

/-- With a rule file that allows it, `rm` stays forbidden. -/
theorem loadExecPolicyWithWarning_keeps_forbidden_rm :
    ∃ policy, loadExecPolicyWithWarning allowRmOnly ⟨none, none⟩
        (oneRuleFile "prefix_rule([\"rm\"])") projectStack = .ok (policy, none) ∧
      ∃ evaluation, policy.checkWithOptions ⟨none, none⟩ ["rm"] (fun _ => .allow) ⟨true⟩ =
        some evaluation ∧ evaluation.decision = .forbidden := by
  have hparses : ¬ ParseFails allowRmOnly ⟨none, none⟩ (oneRuleFile "prefix_rule([\"rm\"])")
      projectStack := by
    rw [← loadExecPolicy_parsePolicy_iff]
    rintro ⟨path, source, hload⟩
    cases hload
  refine ⟨_, rfl, ?_⟩
  exact (loadExecPolicyWithWarning_keeps_forbidden_iff rfl).mpr (.inl hparses) _ none rfl
    ["rm"] (by decide) _ _

/-- With a rule file that is no program, `rm` is left to the heuristics. -/
theorem loadExecPolicyWithWarning_bad_file_drops_rm :
    ¬ ∀ policy warning, loadExecPolicyWithWarning allowRmOnly ⟨none, none⟩
        (oneRuleFile "(") projectStack = .ok (policy, warning) →
      ∀ cmd, (∃ m ∈ forbidRm.policy.exactMatches cmd, m.decision = .forbidden) →
        ∀ fallback options, ∃ evaluation,
          policy.checkWithOptions ⟨none, none⟩ cmd fallback options = some evaluation ∧
            evaluation.decision = .forbidden := by
  intro h
  obtain ⟨evaluation, heval, hdecision⟩ := h .empty _ rfl ["rm"]
    (by decide) (fun _ => .allow) ⟨true⟩
  cases heval
  cases hdecision

end Codex.ExecPolicy
