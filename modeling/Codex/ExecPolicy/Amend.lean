import Codex.Data.StableSort
import Codex.ExecPolicy.Load
import Codex.ExecPolicy.Redundant
import Mathlib

namespace Codex.ExecPolicy

open Text Data RulesFileSystem PolicyBuilder PolicyParser List Except DirEntry MultiMap
open ApplyPatch (IoError)

/-!
# Remembering an approval

When a command has been approved for good, a line with a rule for it is appended to the default
rules file, and the rule is added to the policy in memory.  The line is only appended where the
file does not have it, and the rule is only added where the policy does not allow the command
already; these are two different questions.

* `allowPrefixRuleLine`, `appendedContents`, `blockingAppendAllowPrefixRule` — the line, and the
  file with it;
* `alreadyAllowed`, `appendAmendmentAndUpdate` — the update of the file and of the policy;
* `Grown` — a builder has the rule, and is otherwise like another;
* `appendAmendmentAndUpdate_reload_iff` — the policy in memory and the one loaded from the files
  decide alike just when the two questions have the same answer, or the rule is redundant.
-/

/-! ### The line -/

/-- One hexadecimal digit. -/
def hexDigit (n : Nat) : Char := Char.ofNat (if n < 10 then 48 + n else 87 + n)

/-- A character in a JSON string: quotes, backslashes and control characters are escaped. -/
def jsonEscape (c : Char) : Text :=
  if c.toNat = 34 then "\\\""
  else if c.toNat = 92 then "\\\\"
  else if c.toNat = 8 then "\\b"
  else if c.toNat = 9 then "\\t"
  else if c.toNat = 10 then "\\n"
  else if c.toNat = 12 then "\\f"
  else if c.toNat = 13 then "\\r"
  else if c.toNat < 32 then
    "\\u00" ++ [hexDigit (c.toNat / 16), hexDigit (c.toNat % 16)]
  else [c]

/-- `serde_json::to_string` of a text. -/
def jsonString (text : Text) : Text := "\"" ++ text.flatMap jsonEscape ++ "\""

/-- The line that allows the commands beginning with some tokens. -/
def allowPrefixRuleLine (tokens : List Text) : Text :=
  "prefix_rule(pattern=[" ++ ", ".toList.intercalate (tokens.map jsonString)
    ++ "], decision=\"allow\")"

/-- The contents with a line appended.  A last line without a line end gets one. -/
def appendedContents (contents line : Text) : Text :=
  (if contents ≠ [] ∧ contents.getLast? ≠ some '\n' then contents ++ ['\n'] else contents)
    ++ line ++ ['\n']

/-! ### The file -/

/-- The folder and the name of a path. -/
def splitPath (path : AbsolutePathBuf) : Option (AbsolutePathBuf × NormalName) :=
  match path.names.reverse with
  | [] => none
  | name :: dir => some (⟨dir.reverse⟩, name)

/-- The entry is about the name. -/
def DirEntry.isNamed (name : NormalName) : Except IoError DirEntry → Bool
  | .ok entry => entry.name = name
  | .error _ => false

namespace RulesFileSystem

/-- The entries of a directory when there is a file of this name. -/
def listFile (name : NormalName) :
    Except IoError (List (Except IoError DirEntry)) → Except IoError (List (Except IoError DirEntry))
  | .ok entries =>
    .ok (if entries.any (isNamed name) then entries else entries ++ [.ok ⟨name, .ok .file⟩])
  | .error source =>
    if source.kind = .notFound then .ok [.ok ⟨name, .ok .file⟩] else .error source

/-- The file system when a file has been written. -/
def withFile (fs : RulesFileSystem) (path : AbsolutePathBuf) (contents : Text) :
    RulesFileSystem where
  readToString p := if p = path then .ok contents else fs.readToString p
  readDir dir :=
    match splitPath path with
    | some (parent, name) => if dir = parent then listFile name (fs.readDir dir) else fs.readDir dir
    | none => fs.readDir dir

end RulesFileSystem

inductive AmendError
  | emptyPrefix
  | missingParent (path : AbsolutePathBuf)
  | createPolicyDir (dir : AbsolutePathBuf) (source : IoError)
  | openPolicyFile (path : AbsolutePathBuf) (source : IoError)
  | lockPolicyFile (path : AbsolutePathBuf) (source : IoError)
  | seekPolicyFile (path : AbsolutePathBuf) (source : IoError)
  | readPolicyFile (path : AbsolutePathBuf) (source : IoError)
  | writePolicyFile (path : AbsolutePathBuf) (source : IoError)

/-- `std::fs::create_dir`, with the one error that does not matter. -/
inductive CreateDirOutcome
  | created
  | alreadyExists
  | failed (source : IoError)

/-- How the calls of the operating system end that the update makes. -/
structure AmendCalls where
  createDir : CreateDirOutcome
  openFile : Except IoError Unit
  lockFile : Except IoError Unit
  seekStart : Except IoError Unit
  writeLineEnd : Except IoError Unit
  writeLine : Except IoError Unit
  /-- The semaphore of the updates is open. -/
  acquired : Bool
  /-- The task that does the blocking calls has been joined. -/
  joined : Bool

/-- Read a file that has just been opened.  Opening it has created it where it was not there. -/
def readPolicyFile (fs : RulesFileSystem) (policyPath : AbsolutePathBuf) : Except AmendError Text :=
  match fs.readToString policyPath with
  | .ok contents => .ok contents
  | .error source =>
    if source.kind = .notFound then .ok [] else .error (.readPolicyFile policyPath source)

variable (calls : AmendCalls) (fs : RulesFileSystem) (policyPath : AbsolutePathBuf)

/-- Append a line under the lock of the file, unless the file has it. -/
def appendLockedLine (line : Text) : Except AmendError RulesFileSystem := do
  calls.openFile.mapError (.openPolicyFile policyPath)
  calls.lockFile.mapError (.lockPolicyFile policyPath)
  calls.seekStart.mapError (.seekPolicyFile policyPath)
  let contents ← readPolicyFile fs policyPath
  if (lines contents).contains line then return fs.withFile policyPath contents
  else
    (if contents ≠ [] ∧ contents.getLast? ≠ some '\n' then calls.writeLineEnd
      else .ok ()).mapError (.writePolicyFile policyPath)
    calls.writeLine.mapError (.writePolicyFile policyPath)
    return fs.withFile policyPath (appendedContents contents line)

def appendRuleLine (rule : Text) : Except AmendError RulesFileSystem :=
  match splitPath policyPath, calls.createDir with
  | none, _ => .error (.missingParent policyPath)
  | some (dir, _), .failed source => .error (.createPolicyDir dir source)
  | some _, _ => appendLockedLine calls fs policyPath rule

def blockingAppendAllowPrefixRule (tokens : List Text) : Except AmendError RulesFileSystem :=
  if tokens.isEmpty then .error .emptyPrefix
  else appendRuleLine calls fs policyPath (allowPrefixRuleLine tokens)

/-! ### The update -/

inductive ExecPolicyUpdateError
  | appendRule (path : AbsolutePathBuf) (source : AmendError)
  | joinBlockingTask
  | addRule (source : Error)

def isPolicyMatch : RuleMatch → Bool
  | .prefixRuleMatch .. => true
  | .heuristicsRuleMatch .. => false

def defaultPolicyFile : NormalName := ⟨"default.rules", by decide⟩

def defaultPolicyPath (codexHome : AbsolutePathBuf) : AbsolutePathBuf :=
  childPath (childPath codexHome rulesDirName) defaultPolicyFile

/-- The policy allows the command, and by a rule. -/
def alreadyAllowed (policy : Policy) (process : Process) (command : List Text) : Bool :=
  match policy.checkMultipleWithOptions process [command] (fun _ => .forbidden) ⟨true⟩ with
  | some existing => existing.decision = .allow && existing.matchedRules.any fun ruleMatch =>
      isPolicyMatch ruleMatch && ruleMatch.decision = .allow
  | none => false

/-- Append the rule for a command to the default rules file, and add it to the policy in memory
    if the policy does not allow the command already. -/
def appendAmendmentAndUpdate (process : Process) (fs : RulesFileSystem) (policy : Policy)
    (codexHome : AbsolutePathBuf) (command : List Text) :
    Except ExecPolicyUpdateError (RulesFileSystem × Policy) :=
  let policyPath := defaultPolicyPath codexHome
  if !calls.acquired then
    .error (.addRule (.invalidRule "exec policy update semaphore closed"))
  else if !calls.joined then .error .joinBlockingTask
  else do
    let fs ← (blockingAppendAllowPrefixRule calls fs policyPath command).mapError
      (.appendRule policyPath)
    let updated ←
      if alreadyAllowed policy process command then .ok policy
      else (policy.addPrefixRule command .allow).mapError .addRule
    return (fs, updated)

/-- The contents of a file; a file that is not there counts as empty. -/
def RulesFileSystem.contentsOf (path : AbsolutePathBuf) : Text :=
  match fs.readToString path with
  | .ok contents => contents
  | .error _ => []

/-- The file can be read, or is not there. -/
def RulesFileSystem.CanAppend (path : AbsolutePathBuf) : Prop :=
  ∀ source, fs.readToString path = .error source → source.kind = .notFound

theorem appendLockedLine_ok {calls : AmendCalls} {fs fs' : RulesFileSystem}
    {policyPath : AbsolutePathBuf} {line : Text}
    (h : appendLockedLine calls fs policyPath line = .ok fs') :
    fs.CanAppend policyPath ∧ fs' = fs.withFile policyPath
      (if line ∈ lines (fs.contentsOf policyPath) then fs.contentsOf policyPath
        else appendedContents (fs.contentsOf policyPath) line) := by
  obtain ⟨-, -, h⟩ := bind_eq_ok.mp h
  obtain ⟨-, -, h⟩ := bind_eq_ok.mp h
  obtain ⟨-, -, h⟩ := bind_eq_ok.mp h
  obtain ⟨contents, hread, h⟩ := bind_eq_ok.mp h
  have hcontents : fs.CanAppend policyPath ∧ fs.contentsOf policyPath = contents := by
    unfold readPolicyFile at hread
    unfold CanAppend contentsOf
    cases hfile : fs.readToString policyPath with
    | ok contents' =>
      rw [hfile] at hread
      cases hread
      exact ⟨fun source h => (by cases h), rfl⟩
    | error source =>
      simp only [hfile] at hread
      split at hread
      · rename_i hkind
        cases hread
        refine ⟨fun source' h => ?_, rfl⟩
        cases h
        exact hkind
      · cases hread
  refine ⟨hcontents.1, ?_⟩
  rw [hcontents.2]
  simp only [contains_iff_mem] at h
  split at h
  · rw [if_pos ‹_›]
    cases h
    rfl
  · rw [if_neg ‹_›]
    obtain ⟨-, -, h⟩ := bind_eq_ok.mp h
    obtain ⟨-, -, h⟩ := bind_eq_ok.mp h
    cases h
    rfl

variable {first : Text} {rest : List Text}

/-- What an update does that succeeds. -/
theorem appendAmendmentAndUpdate_ok {calls : AmendCalls} {process : Process}
    {fs fs' : RulesFileSystem} {policy policy' : Policy} {codexHome : AbsolutePathBuf}
    (h : appendAmendmentAndUpdate calls process fs policy codexHome (first :: rest) =
      .ok (fs', policy')) : let path := defaultPolicyPath codexHome
    let line := allowPrefixRuleLine (first :: rest)
    fs.CanAppend path ∧
    fs' = fs.withFile path (if line ∈ lines (fs.contentsOf path) then fs.contentsOf path
      else appendedContents (fs.contentsOf path) line) ∧
    policy' = if alreadyAllowed policy process (first :: rest) then policy
      else policy.allowTokens first rest := by
  unfold appendAmendmentAndUpdate at h
  simp only at h
  split at h
  · cases h
  split at h
  · cases h
  obtain ⟨written, hwritten, h⟩ := bind_eq_ok.mp h
  rw [mapError_eq_ok] at hwritten
  have happend : appendLockedLine calls fs (defaultPolicyPath codexHome)
      (allowPrefixRuleLine (first :: rest)) = .ok written := by
    change appendRuleLine calls fs _ _ = _ at hwritten
    unfold appendRuleLine at hwritten
    split at hwritten
    · cases hwritten
    · cases hwritten
    · exact hwritten
  obtain ⟨hcan, rfl⟩ := appendLockedLine_ok happend
  split at h
  · cases h
    exact ⟨hcan, rfl, (if_pos ‹_›).symm⟩
  · cases h
    exact ⟨hcan, rfl, (if_neg ‹_›).symm⟩

/-! ### Running the files again -/

/-- The call that the line makes. -/
def allowCall (tokens : List Text) (location : Option ErrorLocation) : BuiltinCall :=
  .prefixRule (tokens.map .str) (some "allow") none none none location

/-- The interpreter runs the appended line as what it is: a file that runs well makes its calls as
    before, and then the call of the line.  An empty file makes none. -/
structure RunsAppendedLine (starlark : Starlark) (identifier contents : Text)
    (tokens : List Text) : Prop where
  empty : starlark.evalModule identifier [] = ([], none)
  appended : ∀ calls, starlark.evalModule identifier contents = (calls, none) →
    ∃ location, starlark.evalModule identifier
      (appendedContents contents (allowPrefixRuleLine tokens)) =
        (calls ++ [allowCall tokens location], none)

/-- The call declares the rule, without examples. -/
theorem declare_allowCall (starlark : Starlark) (process : Process) (first : Text)
    (rest : List Text) (location : Option ErrorLocation) :
    declare starlark process (allowCall (first :: rest) location) =
      .ok (.prefixRules ⟨[tokensRule first rest .allow], [], [], location⟩) := by
  have htokens : ∀ tokens : List Text,
      (tokens.map Value.str).mapM parsePatternToken = .ok (tokens.map PatternToken.single) := by
    intro tokens
    induction tokens with
    | nil => rfl
    | cons token tokens ih =>
      rw [map_cons, mapM_cons, ih]
      rfl
  have hpattern : parsePattern ((first :: rest).map Value.str) =
      .ok ((first :: rest).map PatternToken.single) := by
    unfold parsePattern
    rw [htokens]
    rfl
  show (do
    let patternTokens ← parsePattern ((first :: rest).map Value.str)
    _ : Except Error Declaration) = _
  rw [hpattern]
  rfl

/-- The second builder has all the rules of the first, also the new one if it was seen, and lists
    the same programs. -/
structure Grown (seen : Prop) (newRule : PrefixRule) (builder builder' : PolicyBuilder) : Prop where
  rules : ∀ program rule, rule ∈ builder'.rulesByProgram.values program ↔
    rule ∈ builder.rulesByProgram.values program ∨
      seen ∧ program = newRule.pattern.first ∧ rule = newRule
  hosts : builder'.hostExecutablesByName = builder.hostExecutablesByName

variable {paths : List AbsolutePathBuf}

section Grown

variable {starlark : Starlark} {process : Process} {seen : Prop} {newRule : PrefixRule}
  {builder builder' builder₁ : PolicyBuilder} {identifier contents : Text}

/-- Both builders take up the same declarations. -/
theorem Grown.foldl_add (h : Grown seen newRule builder builder')
    (declarations : List Declaration) :
    Grown seen newRule (declarations.foldl add builder) (declarations.foldl add builder') where
  rules program rule := by
    rw [rules_foldl_add, rules_foldl_add, mem_append, mem_append, h.rules]
    exact or_right_comm
  hosts := by
    rw [hostExecutables_foldl_add, hostExecutables_foldl_add, h.hosts]

/-- Both builders accept the same file. -/
theorem Grown.parse (h : Grown seen newRule builder builder')
    (hparse : parse starlark process builder identifier contents = .ok builder₁) :
    ∃ builder₁', parse starlark process builder' identifier contents = .ok builder₁' ∧
      Grown seen newRule builder₁ builder₁' := by
  obtain ⟨calls, declarations, hrun, hdeclare, rfl, hvalid⟩ := (parse_eq_ok_iff ..).mp hparse
  have hgrown := h.foldl_add declarations
  refine ⟨_, (parse_eq_ok_iff ..).mpr ⟨calls, declarations, hrun, hdeclare, rfl, ?_⟩, hgrown⟩
  rw [hgrown.hosts]
  exact hvalid

/-- With the line in the file, the new rule is seen. -/
theorem Grown.parse_appended (h : Grown seen (tokensRule first rest .allow) builder builder')
    (hruns : RunsAppendedLine starlark identifier contents (first :: rest))
    (hparse : PolicyParser.parse starlark process builder identifier contents = .ok builder₁) :
    ∃ builder₁', PolicyParser.parse starlark process builder' identifier
        (appendedContents contents (allowPrefixRuleLine (first :: rest))) = .ok builder₁' ∧
      Grown True (tokensRule first rest .allow) builder₁ builder₁' := by
  obtain ⟨calls, declarations, hrun, hdeclare, rfl, hvalid⟩ := (parse_eq_ok_iff ..).mp hparse
  obtain ⟨location, hrun'⟩ := hruns.appended calls hrun
  have hgrown := h.foldl_add declarations
  have hhosts : ((declarations ++ [Declaration.prefixRules ⟨[tokensRule first rest .allow], [], [],
      location⟩]).foldl add builder').hostExecutablesByName =
        (declarations.foldl add builder').hostExecutablesByName := by
    rw [foldl_append, foldl_cons]
    rfl
  -- the call of the line comes last, and has no examples
  refine ⟨_, (parse_eq_ok_iff ..).mpr ⟨_, declarations ++ [.prefixRules
    ⟨[tokensRule first rest .allow], [], [], location⟩], hrun', ?_, rfl, ?_⟩, ?_, ?_⟩
  · rw [mapM_append, hdeclare, mapM_cons, declare_allowCall]
    rfl
  · intro validation hvalidation
    rw [hhosts, hgrown.hosts]
    rw [filterMap_append, mem_append] at hvalidation
    rcases hvalidation with hvalidation | hvalidation
    · exact hvalid validation hvalidation
    · rw [mem_singleton.mp hvalidation]
      rfl
  · intro program rule
    rw [foldl_append, foldl_cons, foldl_nil, rules_add, mem_append, hgrown.rules]
    simp only [Declaration.rules]
    grind
  · exact hhosts.trans hgrown.hosts

variable {fs fs' : RulesFileSystem} {path : AbsolutePathBuf}

/-- A run over the files of the old file system, with `oldStep` for the step at the file that was
    written, is followed by a run over the new ones. -/
theorem Grown.foldlM_load
    {oldStep : PolicyBuilder → AbsolutePathBuf → Except ExecPolicyError PolicyBuilder}
    (hother : ∀ p ≠ path, fs'.readToString p = fs.readToString p)
    (hold : ∀ p ≠ path, ∀ b, oldStep b p = loadPolicyFile starlark process fs b p)
    (hself : ∀ {seen b b' b₁}, oldStep b path = .ok b₁ → Grown seen newRule b b' →
      ∃ b₁', loadPolicyFile starlark process fs' b' path = .ok b₁' ∧ Grown True newRule b₁ b₁')
    (h : Grown seen newRule builder builder') (hrun : paths.foldlM oldStep builder = .ok builder₁) :
    ∃ builder₁', paths.foldlM (loadPolicyFile starlark process fs') builder' = .ok builder₁' ∧
      Grown (seen ∨ path ∈ paths) newRule builder₁ builder₁' := by
  induction paths generalizing seen builder builder' with
  | nil =>
    cases hrun
    exact ⟨builder', rfl, by simpa using h⟩
  | cons p paths ih =>
    obtain ⟨builder₂, hstep, hrun⟩ := foldlM_cons_ok.mp hrun
    by_cases hp : p = path
    · subst hp
      obtain ⟨builder₂', hstep', h₂⟩ := hself hstep h
      obtain ⟨builder₁', hrun', h₁⟩ := ih h₂ hrun
      refine ⟨builder₁', foldlM_cons_ok.mpr ⟨builder₂', hstep', hrun'⟩, ?_⟩
      simpa using h₁
    · rw [hold p hp] at hstep
      obtain ⟨builder₂', hstep', h₂⟩ : ∃ builder₂',
          loadPolicyFile starlark process fs' builder' p = .ok builder₂' ∧
            Grown seen newRule builder₂ builder₂' := by
        unfold loadPolicyFile at hstep ⊢
        rw [hother p hp]
        obtain ⟨contents, hread, hparse⟩ := bind_eq_ok.mp hstep
        obtain ⟨builder₂', hparse', h₂⟩ := h.parse (mapError_eq_ok.mp hparse)
        refine ⟨builder₂', bind_eq_ok.mpr ⟨contents, hread, mapError_eq_ok.mpr hparse'⟩, h₂⟩
      obtain ⟨builder₁', hrun', h₁⟩ := ih h₂ hrun
      refine ⟨builder₁', foldlM_cons_ok.mpr ⟨builder₂', hstep', hrun'⟩, ?_⟩
      simpa [Ne.symm hp] using h₁

end Grown

/-! ### Finding the files again -/

@[simp] theorem splitPath_childPath (dir : AbsolutePathBuf) (name : NormalName) :
    splitPath (childPath dir name) = some (dir, name) := by
  unfold splitPath childPath
  simp

namespace RulesFileSystem

/-- The folder of the file has an entry of its name. -/
def Lists (fs : RulesFileSystem) (dir : AbsolutePathBuf) (name : NormalName) : Prop :=
  ∃ entries, fs.readDir dir = .ok entries ∧ entries.any (isNamed name)

variable {fs : RulesFileSystem} {dir : AbsolutePathBuf} {name : NormalName}

theorem readDir_withFile (fs : RulesFileSystem) (dir d : AbsolutePathBuf) (name : NormalName)
    (contents : Text) : (fs.withFile (childPath dir name) contents).readDir d =
      if d = dir then listFile name (fs.readDir d) else fs.readDir d := by
  show (match splitPath (childPath dir name) with | some (parent, name) => _ | none => _) = _
  rw [splitPath_childPath]

/-- Writing a file that is listed changes no directory. -/
theorem readDir_withFile_of_lists (h : fs.Lists dir name) (contents : Text) :
    (fs.withFile (childPath dir name) contents).readDir = fs.readDir := by
  obtain ⟨entries, hentries, hnamed⟩ := h
  funext d
  rw [readDir_withFile]
  by_cases hd : d = dir
  · subst hd
    simp [hentries, listFile, hnamed]
  · simp [hd]

end RulesFileSystem

/-- The rule files are found by reading directories only. -/
theorem policyFiles_congr {fs fs' : RulesFileSystem} (h : fs'.readDir = fs.readDir)
    (stack : ConfigLayerStack) : policyFiles fs' stack = policyFiles fs stack := by
  have hlayer : layerPolicyFiles fs' = layerPolicyFiles fs := by
    unfold layerPolicyFiles collectPolicyFiles
    rw [h]
  unfold policyFiles
  rw [hlayer]

variable {path : AbsolutePathBuf}

variable {dir : AbsolutePathBuf} {entries : List (Except IoError DirEntry)} {name : NormalName}

/-- A rule file of a directory is the path of one of its entries. -/
theorem exists_of_mem_rulePaths {paths : List (Option AbsolutePathBuf)}
    (h : entries.mapM (rulePath? dir) = .ok paths) (hpath : path ∈ paths.reduceOption) :
    ∃ entry, .ok entry ∈ entries ∧ path = childPath dir entry.name := by
  obtain ⟨_, hmem, rfl⟩ := mem_filterMap.mp hpath
  obtain ⟨entry, hentry, hread⟩ := exists_of_mem_mapM h hmem
  obtain ⟨entry', hok, hfound⟩ := bind_eq_ok.mp hread
  obtain rfl := mapError_eq_ok.mp hok
  obtain ⟨fileType, -, hfound⟩ := bind_eq_ok.mp hfound
  refine ⟨entry', hentry, ?_⟩
  have hsome := ok.inj hfound
  split at hsome
  · exact (Option.some.inj hsome).symm
  · cases hsome

/-- No entry of the directory leads to the file. -/
theorem not_mem_rulePaths {d dir : AbsolutePathBuf} {paths : List (Option AbsolutePathBuf)}
    (h : entries.mapM (rulePath? d) = .ok paths)
    (hentries : d = dir → entries.any (isNamed name) = false) :
    childPath dir name ∉ paths.reduceOption := by
  intro hmem
  obtain ⟨entry, hentry, hpath⟩ := exists_of_mem_rulePaths h hmem
  obtain ⟨rfl, rfl⟩ := AbsolutePathBuf.childPath_inj hpath
  have hany := hentries rfl
  rw [any_eq_false] at hany
  exact hany _ hentry (by simp [isNamed])

/-- Sorting paths among which the file is not, with or without it. -/
theorem filter_sorted_paths {more : List AbsolutePathBuf} (h : path ∉ paths)
    (hmore : ∀ p ∈ more, p = path) :
    ((paths ++ more).insertionSort pathLe).filter (· ≠ path) = paths.insertionSort pathLe := by
  rw [filter_insertionSort fun a b => eq_of_pathLe, filter_append,
    filter_eq_self.mpr, filter_eq_nil_iff.mpr, append_nil]
  · intro p hp
    simpa using hmore p hp
  · intro p hp
    simp only [decide_not, Bool.not_eq_eq_eq_not, Bool.not_true, decide_eq_false_iff_not]
    rintro rfl
    exact h hp

/-- Without the new file, every directory has the rule files it had before. -/
theorem collectPolicyFiles_withFile {fs : RulesFileSystem} (h : ¬ fs.Lists dir name)
    (contents : Text) (d : AbsolutePathBuf) :
    collectPolicyFiles fs d = filter (· ≠ childPath dir name) <$>
      collectPolicyFiles (fs.withFile (childPath dir name) contents) d := by
  unfold collectPolicyFiles
  rw [readDir_withFile]
  by_cases hd : d = dir
  · subst hd
    rw [if_pos rfl]
    -- the entry of the file leads to it, or to nothing if it is no rule file
    obtain ⟨found, hfound, hmore⟩ : ∃ found, rulePath? d (.ok ⟨name, .ok .file⟩) = .ok found ∧
        ∀ p ∈ [found].reduceOption, p = childPath d name := by
      refine ⟨_, rfl, fun p hp => ?_⟩
      split at hp
      · simpa using hp
      · simp at hp
    cases hreaddir : fs.readDir d with
    | error source =>
      by_cases hkind : source.kind = .notFound
      · -- the directory has been made for the file
        simp only [hkind, if_true, listFile]
        rw [mapM_cons, hfound]
        exact congrArg ok (filter_sorted_paths not_mem_nil hmore).symm
      · simp only [hkind, if_false, listFile]
        rfl
    | ok entries =>
      have hentries : entries.any (isNamed name) = false :=
        Bool.eq_false_iff.mpr fun hany => h ⟨entries, hreaddir, hany⟩
      simp only [listFile, hentries, Bool.false_eq_true, if_false, mapM_append, mapM_cons, hfound]
      cases hpaths : entries.mapM (rulePath? d) with
      | error err => rfl
      | ok paths =>
        have hsorted := filter_sorted_paths (not_mem_rulePaths hpaths fun _ => hentries) hmore
        rw [← reduceOption_append] at hsorted
        exact congrArg ok hsorted.symm
  · rw [if_neg hd]
    cases fs.readDir d with
    | error source =>
      dsimp only
      split <;> rfl
    | ok entries =>
      dsimp only
      cases hpaths : entries.mapM (rulePath? d) with
      | error err => rfl
      | ok paths =>
        have hnot : childPath dir name ∉ paths.reduceOption :=
          not_mem_rulePaths hpaths fun heq => absurd heq hd
        have hsorted := filter_sorted_paths hnot (forall_mem_nil _)
        rw [append_nil] at hsorted
        exact congrArg ok hsorted.symm

/-- Without the new file, the layers have the rule files they had before. -/
theorem policyFiles_withFile {fs : RulesFileSystem} (h : ¬ fs.Lists dir name) (contents : Text)
    (stack : ConfigLayerStack) : policyFiles fs stack = filter (· ≠ childPath dir name) <$>
      policyFiles (fs.withFile (childPath dir name) contents) stack := by
  have hlayer : ∀ layer, layerPolicyFiles fs layer = filter (· ≠ childPath dir name) <$>
      layerPolicyFiles (fs.withFile (childPath dir name) contents) layer := by
    intro layer
    unfold layerPolicyFiles
    split
    · exact collectPolicyFiles_withFile h contents _
    · rfl
  unfold policyFiles
  rw [mapM_map_eq hlayer]
  cases stack.ruleLayers.mapM
    (layerPolicyFiles (fs.withFile (childPath dir name) contents)) with
  | error err => rfl
  | ok files => exact congrArg ok (filter_flatten ..).symm

/-! ### Loading again -/

/-- The file can be read just when its folder lists it. -/
def RulesFileSystem.Consistent (fs : RulesFileSystem) (dir : AbsolutePathBuf) (name : NormalName) :
    Prop := (∃ contents, fs.readToString (childPath dir name) = .ok contents) ↔ fs.Lists dir name

variable {builder : PolicyBuilder} {contents : Text}

section Reload

variable {starlark : Starlark} {process : Process} {fs : RulesFileSystem} {stack : ConfigLayerStack}
  {policy : Policy} {dir : AbsolutePathBuf} {name : NormalName}

/-- A file whose contents were written back is loaded as before. -/
theorem loadExecPolicy_withFile_same
    (hread : fs.readToString (childPath dir name) = .ok contents) (hlists : fs.Lists dir name) :
    loadExecPolicy starlark process (fs.withFile (childPath dir name) contents) stack =
      loadExecPolicy starlark process fs stack := by
  have hfs : fs.withFile (childPath dir name) contents = fs := by
    have hdir := readDir_withFile_of_lists hlists contents
    have hstring : (fs.withFile (childPath dir name) contents).readToString = fs.readToString := by
      funext p
      show (if p = childPath dir name then _ else _) = _
      split
      · rename_i hp
        rw [hp, hread]
      · rfl
    cases hwith : fs.withFile (childPath dir name) contents
    rw [hwith] at hdir hstring
    cases hdir
    cases hstring
    rfl
  rw [hfs]

/-- Also under the requirements, a builder with the rule makes a policy with the rule. -/
theorem Grown.sameRules {builder' : PolicyBuilder}
    (h : Grown True (tokensRule first rest .allow) builder builder') :
    (stack.overRequirements builder'.build).SameRules
      ((stack.overRequirements builder.build).allowTokens first rest) := by
  have hrules : ∀ program rule, rule ∈ builder'.rulesByProgram.values program ↔
      rule ∈ builder.rulesByProgram.values program ∨
        program = first ∧ rule = tokensRule first rest .allow := by
    intro program rule
    rw [h.rules, true_and]
    rfl
  unfold ConfigLayerStack.overRequirements
  cases stack.requirementsExecPolicy with
  | none =>
    refine ⟨fun program rule => ?_, h.hosts⟩
    exact (hrules program rule).trans mem_values_insert.symm
  | some requirements =>
    refine ⟨fun program rule => ?_, ?_⟩
    · show rule ∈ (builder'.rulesByProgram.insertEach _).values program ↔
        rule ∈ ((builder.rulesByProgram.insertEach _).insert _ _).values program
      rw [mem_values_insert, values_insertEach requirements.rules_order,
        values_insertEach requirements.rules_order, mem_append, mem_append, hrules]
      exact or_right_comm
    · show insertAll builder'.hostExecutablesByName _ = insertAll builder.hostExecutablesByName _
      rw [h.hosts]

/-- Running the written file after what was there before. -/
theorem Grown.loadPolicyFile_withFile {seen : Prop} {builder' builder₁ : PolicyBuilder}
    (h : Grown seen (tokensRule first rest .allow) builder builder')
    (hruns : RunsAppendedLine starlark path.display contents (first :: rest))
    (hparse : PolicyParser.parse starlark process builder path.display contents = .ok builder₁) :
    ∃ builder₁', loadPolicyFile starlark process (fs.withFile path
        (appendedContents contents (allowPrefixRuleLine (first :: rest)))) builder' path =
          .ok builder₁' ∧
      Grown True (tokensRule first rest .allow) builder₁ builder₁' := by
  obtain ⟨builder₁', hparse', h₁⟩ := h.parse_appended hruns hparse
  refine ⟨builder₁', ?_, h₁⟩
  unfold loadPolicyFile
  rw [bind_eq_ok]
  refine ⟨_, ?_, mapError_eq_ok.mpr hparse'⟩
  show (if path = path then _ else _ : Except _ _).mapError _ = _
  rw [if_pos rfl]
  rfl

/-- The file system with the line for the tokens appended to the file. -/
abbrev RulesFileSystem.withLine (fs : RulesFileSystem) (path : AbsolutePathBuf)
    (tokens : List Text) : RulesFileSystem :=
  fs.withFile path (appendedContents (fs.contentsOf path) (allowPrefixRuleLine tokens))

/-- With the line appended, the policy has the new rule, and is otherwise as before. -/
theorem exists_loadExecPolicy_appended
    (hload : loadExecPolicy starlark process fs stack = .ok policy)
    (hconsistent : fs.Consistent dir name)
    (hruns : RunsAppendedLine starlark (childPath dir name).display
      (fs.contentsOf (childPath dir name)) (first :: rest))
    (hfiles : policyFiles (fs.withLine (childPath dir name) (first :: rest)) stack = .ok paths)
    (hmem : childPath dir name ∈ paths) : ∃ reloaded, loadExecPolicy starlark process
        (fs.withLine (childPath dir name) (first :: rest)) stack = .ok reloaded ∧
      reloaded.SameRules (policy.allowTokens first rest) := by
  obtain ⟨paths₀, hpaths₀, hload⟩ := bind_eq_ok.mp hload
  obtain ⟨builder, hrun, hload⟩ := bind_eq_ok.mp hload
  cases hload
  have hnew : Grown False (tokensRule first rest .allow) .new .new := ⟨fun _ _ => by simp, rfl⟩
  have hother : ∀ p ≠ childPath dir name, (fs.withLine (childPath dir name)
      (first :: rest)).readToString p = fs.readToString p := fun p hp => if_neg hp
  -- in either case the new rule is seen at the file, and nothing else changes
  have hgrown : ∃ builder', paths.foldlM (loadPolicyFile starlark process
      (fs.withLine (childPath dir name) (first :: rest))) .new = .ok builder' ∧
        Grown (False ∨ childPath dir name ∈ paths) (tokensRule first rest .allow) builder
          builder' := by
    cases hread : fs.readToString (childPath dir name) with
    | ok contents =>
      have hlists := hconsistent.mp ⟨contents, hread⟩
      rw [policyFiles_congr (readDir_withFile_of_lists hlists _), hpaths₀] at hfiles
      cases hfiles
      refine Grown.foldlM_load hother (fun _ _ _ => rfl) ?_ hnew hrun
      intro seen b b' b₁ hstep h
      refine h.loadPolicyFile_withFile hruns ?_
      obtain ⟨contents', hcontents', hparse⟩ := bind_eq_ok.mp hstep
      rw [hread] at hcontents'
      cases hcontents'
      rw [contentsOf, hread]
      exact mapError_eq_ok.mp hparse
    | error source =>
      have hlists : ¬ fs.Lists dir name := by
        rw [← show _ ↔ _ from hconsistent]
        rintro ⟨contents, hread'⟩
        cases hread.symm.trans hread'
      rw [policyFiles_withFile hlists, hfiles] at hpaths₀
      cases hpaths₀
      rw [foldlM_filter] at hrun
      refine Grown.foldlM_load hother (fun p hp b => if_pos (by simpa using hp)) ?_ hnew hrun
      intro seen b b' b₁ hstep h
      refine h.loadPolicyFile_withFile hruns ?_
      -- the file was not there: to the old builder it is an empty file
      have hb : b = b₁ := by
        simp only [ne_eq, not_true_eq_false, decide_false] at hstep
        exact ok.inj hstep
      subst hb
      rw [contentsOf, hread, parse_eq_ok_iff]
      exact ⟨[], [], hruns.empty, rfl, rfl, fun _ h => by cases h⟩
  obtain ⟨builder', hrun', hgrown⟩ := hgrown
  refine ⟨stack.overRequirements builder'.build, ?_, ?_⟩
  · exact bind_eq_ok.mpr ⟨paths, hfiles, bind_eq_ok.mpr ⟨builder', hrun', rfl⟩⟩
  · have hseen : (False ∨ childPath dir name ∈ paths) = True := by simp [hmem]
    rw [hseen] at hgrown
    exact hgrown.sameRules

/-- A line that the file has is one of a file that is there. -/
theorem exists_readToString_of_mem_lines {line : Text} (h : line ∈ lines (fs.contentsOf path)) :
    fs.readToString path = .ok (fs.contentsOf path) := by
  unfold contentsOf at h ⊢
  cases hread : fs.readToString path with
  | ok contents => rfl
  | error source =>
    rw [hread] at h
    cases h

/-- **Remembered approvals and reloading.**  After an update, the policy in memory and the policy
    that is loaded from the files with the appended line give the same decisions just when the
    policy allowed the command before exactly if the file had the line, or when the rule adds
    nothing to the policy. -/
theorem appendAmendmentAndUpdate_reload_iff {calls : AmendCalls} {fs' : RulesFileSystem}
    {policy' : Policy} {codexHome : AbsolutePathBuf} {first : Text} {rest : List Text}
    (hload : loadExecPolicy starlark process fs stack = .ok policy)
    (hamend : appendAmendmentAndUpdate calls process fs policy codexHome (first :: rest) =
      .ok (fs', policy'))
    (hconsistent : fs.Consistent (childPath codexHome rulesDirName) defaultPolicyFile)
    (hruns : RunsAppendedLine starlark (defaultPolicyPath codexHome).display
      (fs.contentsOf (defaultPolicyPath codexHome)) (first :: rest))
    (hfiles : ∃ paths, policyFiles fs' stack = .ok paths ∧ defaultPolicyPath codexHome ∈ paths) :
    (∃ reloaded, loadExecPolicy starlark process fs' stack = .ok reloaded ∧
      policy'.SameDecisions reloaded process) ↔
      (alreadyAllowed policy process (first :: rest) ↔
        allowPrefixRuleLine (first :: rest) ∈ lines (fs.contentsOf (defaultPolicyPath codexHome))) ∨
      policy.Redundant process first rest := by
  obtain ⟨-, rfl, rfl⟩ := appendAmendmentAndUpdate_ok hamend
  obtain ⟨paths, hpaths, hmem⟩ := hfiles
  rw [← Policy.sameDecisions_allowTokens_iff]
  unfold defaultPolicyPath at hruns hpaths hmem ⊢
  by_cases hline : allowPrefixRuleLine (first :: rest) ∈
      lines (fs.contentsOf (childPath (childPath codexHome rulesDirName) defaultPolicyFile))
  · -- the file stays as it is, and so does what is loaded from it
    have hread := exists_readToString_of_mem_lines hline
    rw [if_pos hline, loadExecPolicy_withFile_same hread (hconsistent.mp ⟨_, hread⟩), hload]
    simp only [ok.injEq, exists_eq_left', hline, iff_true]
    split
    · simp only [‹_›, true_or, iff_true]
      exact .refl _ process
    · simp only [‹_›, false_or, Bool.false_eq_true]
      exact ⟨.symm, .symm⟩
  · rw [if_neg hline] at hpaths ⊢
    obtain ⟨reloaded, hreload, hrules⟩ :=
      exists_loadExecPolicy_appended hload hconsistent hruns hpaths hmem
    have hsame := hrules.sameDecisions process
    rw [hreload]
    simp only [ok.injEq, exists_eq_left', hline, iff_false]
    split
    · simp only [‹_›, not_true_eq_false, false_or]
      exact ⟨fun h => h.trans hsame, fun h => h.trans hsame.symm⟩
    · simp only [‹_›, not_false_eq_true, Bool.false_eq_true, true_or, iff_true]
      exact hsame.symm

end Reload

/-! ### Two rules for `git` -/

def codexHome : AbsolutePathBuf := normalizePath (pathComponents "/h")

/-- The default rules file: `git status` is allowed, but not with one of its arguments. -/
def gitRules : Text :=
  allowPrefixRuleLine ["git", "status"] ++
    "\nprefix_rule(pattern=[\"git\", \"status\", \"-u\"], decision=\"prompt\")\n"

def gitCalls : List BuiltinCall := [allowCall ["git", "status"] none,
    .prefixRule (["git".toList, "status".toList, "-u".toList].map .str) (some "prompt")
      none none none none]

/-- An interpreter for the empty file, this file, and this file with a line appended. -/
def runsGitRules (tokens : List Text) : Starlark where
  evalModule _ contents :=
    if contents = [] then ([], none)
    else if contents = gitRules then (gitCalls, none)
    else if contents = appendedContents gitRules (allowPrefixRuleLine tokens) then
      (gitCalls ++ [allowCall tokens none], none)
    else ([], some "parse error")
  shlexSplit _ := none

def gitFileSystem : RulesFileSystem where
  readDir dir :=
    if dir = childPath codexHome rulesDirName then .ok [.ok ⟨defaultPolicyFile, .ok .file⟩]
    else .error ⟨.notFound, []⟩
  readToString path :=
    if path = defaultPolicyPath codexHome then .ok gitRules else .error ⟨.notFound, []⟩

def userStack : ConfigLayerStack :=
  ⟨[⟨.user (childPath codexHome ⟨"config.toml", by decide⟩), false⟩], false, none⟩

/-- All calls succeed. -/
def AmendCalls.fine : AmendCalls :=
  ⟨.alreadyExists, .ok (), .ok (), .ok (), .ok (), .ok (), true, true⟩

/-- The builder and the policy of the two rules. -/
def gitBuilder : PolicyBuilder :=
  [Declaration.prefixRules ⟨[tokensRule "git" ["status"] .allow], [], [], none⟩,
    .prefixRules ⟨[tokensRule "git" ["status", "-u"] .prompt], [], [], none⟩].foldl add .new

def gitPolicy : Policy := gitBuilder.build

theorem appendedContents_gitRules_ne (line : Text) : appendedContents gitRules line ≠ gitRules := by
  intro h
  have hlength := congrArg length h
  unfold appendedContents at hlength
  split at hlength <;> simp only [length_append, length_singleton] at hlength <;> omega

theorem runsGitRules_appended (identifier : Text) (tokens : List Text) :
    RunsAppendedLine (runsGitRules tokens) identifier gitRules tokens := by
  refine ⟨rfl, fun calls hcalls => ⟨none, ?_⟩⟩
  cases hcalls
  have hne : appendedContents gitRules (allowPrefixRuleLine tokens) ≠ [] := by
    simp [appendedContents]
  simp only [runsGitRules, if_neg hne, if_neg (appendedContents_gitRules_ne _), if_true]

theorem loadExecPolicy_gitRules (tokens : List Text) :
    loadExecPolicy (runsGitRules tokens) ⟨none, none⟩ gitFileSystem userStack = .ok gitPolicy := by
  have hfiles : policyFiles gitFileSystem userStack = .ok [defaultPolicyPath codexHome] := by rfl
  have hread : gitFileSystem.readToString (defaultPolicyPath codexHome) = .ok gitRules := by rfl
  have hparse : parse (runsGitRules tokens) ⟨none, none⟩ .new
      (defaultPolicyPath codexHome).display gitRules = .ok gitBuilder := by
    exact (parse_eq_ok_iff ..).mpr ⟨gitCalls, _, rfl, rfl, rfl,
      forall_mem_cons.mpr ⟨rfl, forall_mem_singleton.mpr rfl⟩⟩
  refine bind_eq_ok.mpr ⟨_, hfiles, bind_eq_ok.mpr ⟨_, ?_, rfl⟩⟩
  refine foldlM_cons_ok.mpr ⟨_, bind_eq_ok.mpr ⟨_, ?_, mapError_eq_ok.mpr hparse⟩, rfl⟩
  rw [hread]
  rfl

theorem consistent_gitFileSystem :
    gitFileSystem.Consistent (childPath codexHome rulesDirName) defaultPolicyFile :=
  ⟨fun _ => ⟨_, rfl, by decide⟩, fun _ => ⟨_, rfl⟩⟩

/-- With `ls` remembered, memory and files agree. -/
theorem appendAmendmentAndUpdate_reload_ls :
    ∃ fs' policy', appendAmendmentAndUpdate .fine ⟨none, none⟩ gitFileSystem gitPolicy codexHome
        ["ls"] = .ok (fs', policy') ∧
      ∃ reloaded, loadExecPolicy (runsGitRules ["ls"]) ⟨none, none⟩ fs' userStack =
        .ok reloaded ∧ policy'.SameDecisions reloaded ⟨none, none⟩ := by
  obtain ⟨fs', policy', hamend, hfiles⟩ : ∃ fs' policy', appendAmendmentAndUpdate .fine ⟨none, none⟩
      gitFileSystem gitPolicy codexHome ["ls"] = .ok (fs', policy') ∧
        ∃ paths, policyFiles fs' userStack = .ok paths ∧ defaultPolicyPath codexHome ∈ paths :=
    ⟨_, _, rfl, _, rfl, by decide⟩
  refine ⟨fs', policy', hamend, ?_⟩
  refine (appendAmendmentAndUpdate_reload_iff (loadExecPolicy_gitRules _) hamend
    consistent_gitFileSystem (runsGitRules_appended _ _) hfiles).mpr (.inl ?_)
  decide

/-- `/usr/bin/git status` is allowed by the rules for `git`, so memory keeps asking about one of its
    arguments; the rule in the file is about the path itself, and hides the rules for `git`. -/
theorem appendAmendmentAndUpdate_reload_usr_bin_git :
    ∃ policy fs' policy', loadExecPolicy (runsGitRules ["/usr/bin/git", "status"])
        ⟨none, none⟩ gitFileSystem userStack = .ok policy ∧
      appendAmendmentAndUpdate .fine ⟨none, none⟩ gitFileSystem policy codexHome
        ["/usr/bin/git", "status"] = .ok (fs', policy') ∧
      ¬ ∃ reloaded, loadExecPolicy (runsGitRules ["/usr/bin/git", "status"])
        ⟨none, none⟩ fs' userStack = .ok reloaded ∧
          policy'.SameDecisions reloaded ⟨none, none⟩ := by
  refine ⟨gitPolicy, _, _, loadExecPolicy_gitRules _, rfl, ?_⟩
  rintro ⟨reloaded, hreload, hsame⟩
  obtain ⟨reloaded', hreload', hrules⟩ := exists_loadExecPolicy_appended (loadExecPolicy_gitRules _)
    consistent_gitFileSystem (runsGitRules_appended _ ["/usr/bin/git", "status"])
    rfl (by decide)
  cases hreload.symm.trans hreload'
  have hdecision := hsame.trans (hrules.sameDecisions _)
    ["/usr/bin/git", "status", "-u"] (fun _ => .allow)
  revert hdecision
  decide

end Codex.ExecPolicy
