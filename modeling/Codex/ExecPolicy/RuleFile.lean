import Codex.Data.ExceptFold
import Codex.ExecPolicy.Policy

namespace Codex.ExecPolicy

open Text Data List

/-!
# Rule files

Rules are written as Starlark programs.  The three builtins `prefix_rule`, `network_rule` and
`host_executable` put what they are called with into a builder; when a file has been run, the
examples given with its rules are tried.

* `BuiltinCall` — a call of a builtin with its arguments, `Starlark` — the interpreter, as the
  calls that a program makes;
* `prefixRule`, `networkRule`, `hostExecutable` — what one call declares, or why it fails;
* `PolicyParser.parse` — run one file on the builder;
* `parse_eq_ok_iff` — a file is accepted just when every call declares something, the program
  itself does not fail, and the examples hold; the builder then has these declarations too.
-/

/-! ### Errors -/

/-- A place in a file, from a line and column to another. -/
structure ErrorLocation where
  path : Text
  startLine : Nat
  startColumn : Nat
  endLine : Nat
  endColumn : Nat

/-- Why a rule file is rejected.  What a builtin reports comes back as an error of the
    interpreter. -/
inductive Error
  | invalidDecision (raw : Text)
  | invalidPattern (message : Text)
  | invalidExample (message : Text)
  | invalidRule (message : Text)
  | exampleDidNotMatch (rules : List PrefixRule) (examples : List (List Text))
      (location : Option ErrorLocation)
  | exampleDidMatch (rule : RuleMatch) (ruleExample : List Text) (location : Option ErrorLocation)
  | starlark (message : Text)
  | builtin (source : Error)

/-- Note where an example stands, if no place is noted yet. -/
def Error.withLocation (error : Error) (location : ErrorLocation) : Error :=
  match error with
  | .exampleDidNotMatch rules examples none => .exampleDidNotMatch rules examples (some location)
  | .exampleDidMatch rule ruleExample none => .exampleDidMatch rule ruleExample (some location)
  | other => other

def attachValidationLocation (error : Error) : Option ErrorLocation → Error
  | some location => error.withLocation location
  | none => error

/-! ### Values and calls -/

/-- A Starlark value, as far as the builtins look at it. -/
inductive Value
  | str (text : Text)
  | list (items : List Value)
  | other (typeName : Text)

/-- The name that Starlark gives to the type of a value. -/
def Value.getType : Value → Text
  | .str _ => "string"
  | .list _ => "list"
  | .other typeName => typeName

def Value.unpackStr : Value → Option Text
  | .str text => some text
  | _ => none

/-- A call of one of the builtins. -/
inductive BuiltinCall
  | prefixRule (pattern : List Value) (decision : Option Text)
      (matchExamples notMatchExamples : Option (List Value)) (justification : Option Text)
      (location : Option ErrorLocation)
  | networkRule (host protocol decision : Text) (justification : Option Text)
  | hostExecutable (name : Text) (paths : List Value)

/-- The interpreter and the word splitter: the calls that a program makes, in their order, and the
    error that ends it, if it does not end well. -/
structure Starlark where
  evalModule : (identifier contents : Text) → List BuiltinCall × Option Text
  shlexSplit : Text → Option (List Text)

/-! ### Arguments of the builtins -/

def Decision.parse (raw : Text) : Except Error Decision :=
  if raw = "allow" then .ok .allow
  else if raw = "prompt" then .ok .prompt
  else if raw = "forbidden" then .ok .forbidden
  else .error (.invalidDecision raw)

def parseNetworkRuleDecision (raw : Text) : Except Error Decision :=
  if raw = "deny" then .ok .forbidden else Decision.parse raw

def NetworkRuleProtocol.parse (raw : Text) : Except Error NetworkRuleProtocol :=
  if raw = "http" then .ok .http
  else if raw ∈ ["https".toList, "https_connect".toList, "http-connect".toList] then .ok .https
  else if raw = "socks5_tcp" then .ok .socks5Tcp
  else if raw = "socks5_udp" then .ok .socks5Udp
  else .error (.invalidRule
    ("network_rule protocol must be one of http, https, socks5_tcp, socks5_udp (got "
      ++ raw ++ ")"))

/-- The texts of a list of values, if all are texts; else the error for the first that is not. -/
def unpackStrings (err : Value → Error) (items : List Value) : Except Error (List Text) :=
  items.mapM fun value =>
    match value.unpackStr with
    | some text => .ok text
    | none => .error (err value)

/-- An element of a pattern: a text, or a list of alternatives.  One alternative is no choice. -/
def parsePatternToken (value : Value) : Except Error PatternToken :=
  match value with
  | .str text => .ok (.single text)
  | .list items => do
    let tokens ← unpackStrings (fun value => .invalidPattern
      ("pattern alternative must be a string (got " ++ value.getType ++ ")")) items
    match tokens with
    | [] => .error (.invalidPattern "pattern alternatives cannot be empty")
    | [single] => .ok (.single single)
    | tokens => .ok (.alts tokens)
  | .other typeName => .error (.invalidPattern
      ("pattern element must be a string or list of strings (got " ++ typeName ++ ")"))

def parsePattern (pattern : List Value) : Except Error (List PatternToken) := do
  let tokens ← pattern.mapM parsePatternToken
  if tokens.isEmpty then .error (.invalidPattern "pattern cannot be empty")
  else .ok tokens

variable (starlark : Starlark)

/-- An example: a command line, or the list of its words. -/
def parseExample (value : Value) : Except Error (List Text) :=
  match value with
  | .str raw =>
    match starlark.shlexSplit raw with
    | none => .error (.invalidExample "example string has invalid shell syntax")
    | some [] => .error (.invalidExample "example cannot be an empty string")
    | some tokens => .ok tokens
  | .list items => do
    let tokens ← unpackStrings (fun value => .invalidExample
      ("example tokens must be strings (got " ++ value.getType ++ ")")) items
    if tokens.isEmpty then .error (.invalidExample "example cannot be an empty list")
    else .ok tokens
  | .other typeName => .error (.invalidExample
      ("example must be a string or list of strings (got " ++ typeName ++ ")"))

def parseExamples (examples : Option (List Value)) : Except Error (List (List Text)) :=
  (examples.getD []).mapM (parseExample starlark)

/-- A reason, if one is given, has to say something. -/
def parseJustification : Option Text → Except Error (Option Text)
  | some raw =>
    if (trim raw).isEmpty then .error (.invalidRule "justification cannot be empty")
    else .ok (some raw)
  | none => .ok none

variable (process : Process)

def parseLiteralAbsolutePath (raw : Text) : Except Error AbsolutePathBuf :=
  if !isAbsolute raw then
    .error (.invalidRule ("host_executable paths must be absolute (got " ++ raw ++ ")"))
  else
    match fromAbsolutePath process.home process.currentDir raw with
    | some path => .ok path
    | none => .error (.invalidRule ("invalid absolute path `" ++ raw ++ "`"))

/-- The name of a program is a single component, written as such. -/
def validateHostExecutableName (name : Text) : Except Error Unit :=
  if name.isEmpty then .error (.invalidRule "host_executable name cannot be empty")
  else
    match pathComponents name with
    | [.normal component] =>
      if component.val = name then .ok () else .error (notBare name)
    | _ => .error (notBare name)
where
  notBare (name : Text) : Error := .invalidRule
    ("host_executable name must be a bare executable name (got " ++ name ++ ")")

/-- The host of a network rule: without brackets or port, in lower case, and one host only. -/
def normalizeNetworkRuleHost (raw : Text) : Except Error Text := do
  let host := trim raw
  if host.isEmpty then
    throw (.invalidRule "network_rule host cannot be empty")
  if '/' ∈ host ∨ '?' ∈ host ∨ '#' ∈ host then
    throw (.invalidRule
      "network_rule host must be a hostname or IP literal (without scheme or path)")
  let host ← match host with
    | '[' :: stripped =>
      match stripped.span (· ≠ ']') with
      | (_, []) =>
        throw (.invalidRule "network_rule host has an invalid bracketed IPv6 literal")
      | (inside, _ :: rest) =>
        if rest.isEmpty || isPort rest then pure inside
        else throw (.invalidRule
          ("network_rule host contains an unsupported suffix: " ++ raw))
    | host =>
      -- a port is only taken off where the host has a single colon
      match host.span (· ≠ ':') with
      | (candidate, ':' :: port) =>
        pure (if ':' ∉ port ∧ candidate ≠ [] ∧ isPort (':' :: port) then candidate else host)
      | _ => pure host
  let normalized := (trim (host.rdropWhile (· = '.'))).map Char.toLower
  if normalized.isEmpty then
    throw (.invalidRule "network_rule host cannot be empty")
  if '*' ∈ normalized then
    throw (.invalidRule
      "network_rule host must be a specific host; wildcards are not allowed")
  if normalized.any isWhitespace then
    throw (.invalidRule "network_rule host cannot contain whitespace")
  return normalized
where
  /-- A colon and at least one digit. -/
  isPort : Text → Bool
    | ':' :: port => !port.isEmpty && port.all Char.isDigit
    | _ => false

/-! ### Declarations -/

/-- Examples to try when the file has been run, with the rules they are about. -/
structure PendingExampleValidation where
  rules : List PrefixRule
  matchExamples : List (List Text)
  notMatchExamples : List (List Text)
  location : Option ErrorLocation

/-- What one call adds to the builder. -/
inductive Declaration
  | prefixRules (validation : PendingExampleValidation)
  | networkRule (rule : NetworkRule)
  | hostExecutable (name : Text) (paths : List AbsolutePathBuf)

def PatternToken.alternatives : PatternToken → List Text
  | .single token => [token]
  | .alts tokens => tokens

/-- `prefix_rule`: one rule for every alternative of the first token. -/
def prefixRule (pattern : List Value) (decision : Option Text)
    (matchExamples notMatchExamples : Option (List Value)) (justification : Option Text)
    (location : Option ErrorLocation) : Except Error Declaration := do
  let decision ← match decision with
    | some raw => Decision.parse raw
    | none => pure .allow
  let justification ← parseJustification justification
  let patternTokens ← parsePattern pattern
  let matchExamples ← parseExamples starlark matchExamples
  let notMatchExamples ← parseExamples starlark notMatchExamples
  match patternTokens with
  | [] => throw (.invalidPattern "pattern cannot be empty")
  | firstToken :: rest =>
    let rules := firstToken.alternatives.map fun head => ⟨⟨head, rest⟩, decision, justification⟩
    return .prefixRules ⟨rules, matchExamples, notMatchExamples, location⟩

/-- `network_rule` -/
def networkRule (host protocol decision : Text) (justification : Option Text) :
    Except Error Declaration := do
  let protocol ← NetworkRuleProtocol.parse protocol
  let decision ← parseNetworkRuleDecision decision
  let justification ← parseJustification justification
  let host ← normalizeNetworkRuleHost host
  return .networkRule ⟨host, protocol, decision, justification⟩

/-- `executable_lookup_key` on Unix: the name itself. -/
def executableLookupKey (raw : Text) : Text := raw

/-- One path of a `host_executable` call, which has to end in the name. -/
def parseHostExecutablePath (name : Text) (value : Value) : Except Error AbsolutePathBuf := do
  let raw ← match value.unpackStr with
    | some raw => pure raw
    | none => throw (.invalidRule
        ("host_executable paths must be strings (got " ++ value.getType ++ ")"))
  let path ← parseLiteralAbsolutePath process raw
  if executablePathLookupKey path = some (executableLookupKey name) then return path
  else throw (.invalidRule ("host_executable path `" ++ raw ++ "` must have basename `"
    ++ name ++ "`"))

/-- `host_executable`: the paths of a program, without repetitions. -/
def hostExecutable (name : Text) (paths : List Value) : Except Error Declaration := do
  validateHostExecutableName name
  let parsedPaths ← paths.mapM (parseHostExecutablePath process name)
  let parsedPaths := parsedPaths.foldl
    (fun found path => if path ∈ found then found else found ++ [path]) []
  return .hostExecutable (executableLookupKey name) parsedPaths

/-- Run one call. -/
def declare (process : Process) : BuiltinCall → Except Error Declaration
  | .prefixRule pattern decision matchExamples notMatchExamples justification location =>
    prefixRule starlark pattern decision matchExamples notMatchExamples justification location
  | .networkRule host protocol decision justification =>
    networkRule host protocol decision justification
  | .hostExecutable name paths => hostExecutable process name paths

/-! ### The builder -/

structure PolicyBuilder where
  rulesByProgram : MultiMap Text PrefixRule
  networkRules : List NetworkRule
  hostExecutablesByName : Finmap fun _ : Text => List AbsolutePathBuf
  pendingExampleValidations : List PendingExampleValidation

namespace PolicyBuilder

def new : PolicyBuilder := ⟨∅, [], ∅, []⟩

variable (builder : PolicyBuilder)

def addRule (rule : PrefixRule) : PolicyBuilder :=
  { builder with rulesByProgram := builder.rulesByProgram.insert rule.pattern.first rule }

def addNetworkRule (rule : NetworkRule) : PolicyBuilder :=
  { builder with networkRules := builder.networkRules ++ [rule] }

def addHostExecutable (name : Text) (paths : List AbsolutePathBuf) : PolicyBuilder :=
  { builder with hostExecutablesByName := builder.hostExecutablesByName.insert name paths }

def addPendingExampleValidation (validation : PendingExampleValidation) : PolicyBuilder :=
  { builder with
    pendingExampleValidations := builder.pendingExampleValidations ++ [validation] }

/-- Take up what a call declares. -/
def add : Declaration → PolicyBuilder
  | .prefixRules validation =>
    validation.rules.foldl addRule (builder.addPendingExampleValidation validation)
  | .networkRule rule => builder.addNetworkRule rule
  | .hostExecutable name paths => builder.addHostExecutable name paths

def build : Policy := ⟨builder.rulesByProgram, builder.networkRules, builder.hostExecutablesByName⟩

end PolicyBuilder

/-- Every example matches a rule. -/
def validateMatchExamples (policy : Policy) (process : Process) (rules : List PrefixRule)
    (matchExamples : List (List Text)) : Except Error Unit :=
  let unmatchedExamples := matchExamples.filter fun ruleExample =>
    (policy.matchesForCommandWithOptions process ruleExample none ⟨true⟩).isEmpty
  if unmatchedExamples.isEmpty then .ok ()
  else .error (.exampleDidNotMatch rules unmatchedExamples none)

/-- No example matches a rule. -/
def validateNotMatchExamples (policy : Policy) (process : Process)
    (notMatchExamples : List (List Text)) : Except Error Unit :=
  notMatchExamples.forM fun ruleExample =>
    match policy.matchesForCommandWithOptions process ruleExample none ⟨true⟩ with
    | [] => .ok ()
    | rule :: _ => .error (.exampleDidMatch rule ruleExample none)

/-- Try the examples of one call against its own rules, with the programs that are listed. -/
def PendingExampleValidation.validate (validation : PendingExampleValidation) (process : Process)
    (hostExecutablesByName : Finmap fun _ : Text => List AbsolutePathBuf) : Except Error Unit :=
  let policy : Policy :=
    ⟨validation.rules.foldl (fun m rule => m.insert rule.pattern.first rule) ∅, [],
      hostExecutablesByName⟩
  (do validateNotMatchExamples policy process validation.notMatchExamples
      validateMatchExamples policy process validation.rules validation.matchExamples).mapError
    (attachValidationLocation · validation.location)

def PolicyBuilder.validatePendingExamplesFrom (builder : PolicyBuilder) (process : Process)
    (start : Nat) : Except Error Unit := (builder.pendingExampleValidations.drop start).forM
    (·.validate process builder.hostExecutablesByName)

/-- Run a file.  The builder is the one that the files before it have left. -/
def PolicyParser.parse (starlark : Starlark) (process : Process) (builder : PolicyBuilder)
    (policyIdentifier policyFileContents : Text) : Except Error PolicyBuilder := do
  let pendingValidationCount := builder.pendingExampleValidations.length
  let (calls, failure) := starlark.evalModule policyIdentifier policyFileContents
  let builder ← (calls.foldlM (fun (builder : PolicyBuilder) call =>
    builder.add <$> declare starlark process call) builder).mapError .builtin
  if let some message := failure then throw (.starlark message)
  builder.validatePendingExamplesFrom process pendingValidationCount
  return builder

/-! ### What a file leaves in the builder -/

namespace Declaration

/-- The rules that are declared. -/
def rules : Declaration → List PrefixRule
  | .prefixRules validation => validation.rules
  | _ => []

/-- The examples that are to be tried. -/
def validation? : Declaration → Option PendingExampleValidation
  | .prefixRules validation => some validation
  | _ => none

/-- The effect on the programs that are listed. -/
def listHostExecutable (table : Finmap fun _ : Text => List AbsolutePathBuf) :
    Declaration → Finmap fun _ : Text => List AbsolutePathBuf
  | .hostExecutable name paths => table.insert name paths
  | _ => table

end Declaration

namespace PolicyBuilder

/-- Adding rules does nothing but put each behind the others for its first token. -/
theorem foldl_addRule (rules : List PrefixRule) (builder : PolicyBuilder) :
    rules.foldl addRule builder =
      { builder with rulesByProgram :=
          rules.foldl (fun m rule => m.insert rule.pattern.first rule) builder.rulesByProgram } := by
  induction rules generalizing builder with
  | nil => rfl
  | cons rule rules ih => exact ih _

variable (builder : PolicyBuilder) (declarations : List Declaration)

variable (declaration : Declaration)

open Declaration (validation? listHostExecutable rules)

theorem pending_add :
    (builder.add declaration).pendingExampleValidations =
      builder.pendingExampleValidations ++ declaration.validation?.toList := by
  cases declaration with
  | prefixRules validation => simp [add, foldl_addRule, addPendingExampleValidation, validation?]
  | networkRule rule => simp [add, addNetworkRule, validation?]
  | hostExecutable name paths => simp [add, addHostExecutable, validation?]

theorem hostExecutables_add :
    (builder.add declaration).hostExecutablesByName =
      declaration.listHostExecutable builder.hostExecutablesByName := by
  cases declaration with
  | prefixRules validation => simp [add, foldl_addRule, addPendingExampleValidation,
      listHostExecutable]
  | networkRule rule => rfl
  | hostExecutable name paths => rfl

theorem rules_add (program : Text) :
    (builder.add declaration).rulesByProgram.values program =
      builder.rulesByProgram.values program ++
        declaration.rules.filter (·.pattern.first = program) := by
  cases declaration with
  | prefixRules validation =>
    simp only [add, foldl_addRule]
    exact MultiMap.values_foldl_insert_key ..
  | networkRule rule => simp [add, addNetworkRule, rules]
  | hostExecutable name paths => simp [add, addHostExecutable, rules]

/-- The examples of a run of declarations. -/
theorem pending_foldl_add :
    (declarations.foldl add builder).pendingExampleValidations =
      builder.pendingExampleValidations ++ declarations.filterMap validation? := by
  induction declarations generalizing builder with
  | nil => simp
  | cons declaration declarations ih =>
    rw [foldl_cons, ih, pending_add, append_assoc]
    cases declaration <;> rfl

/-- The programs listed by a run of declarations. -/
theorem hostExecutables_foldl_add :
    (declarations.foldl add builder).hostExecutablesByName =
      declarations.foldl listHostExecutable builder.hostExecutablesByName :=
  (foldl_hom _ fun builder declaration => (hostExecutables_add builder declaration).symm).symm

/-- The rules of a run of declarations. -/
theorem rules_foldl_add (program : Text) :
    (declarations.foldl add builder).rulesByProgram.values program =
      builder.rulesByProgram.values program ++
        (declarations.flatMap rules).filter (·.pattern.first = program) := by
  induction declarations generalizing builder with
  | nil => simp
  | cons declaration declarations ih =>
    rw [foldl_cons, ih, rules_add, append_assoc, flatMap_cons, filter_append]

end PolicyBuilder

open PolicyBuilder (add)

/-- **What it takes for a file to be accepted**, and what it leaves. -/
theorem parse_eq_ok_iff (starlark : Starlark) (process : Process) (builder builder' : PolicyBuilder)
    (policyIdentifier policyFileContents : Text) :
    PolicyParser.parse starlark process builder policyIdentifier policyFileContents = .ok builder' ↔
      ∃ calls declarations,
        starlark.evalModule policyIdentifier policyFileContents = (calls, none) ∧
        calls.mapM (declare starlark process) = .ok declarations ∧
        builder' = declarations.foldl add builder ∧
        ∀ validation ∈ declarations.filterMap Declaration.validation?,
          validation.validate process builder'.hostExecutablesByName = .ok () := by
  rcases hrun : starlark.evalModule policyIdentifier policyFileContents with ⟨calls, failure⟩
  have hread : ∀ b, (fun ds => ds.foldl add builder) <$>
      calls.mapM (declare starlark process) = .ok b ↔
        ∃ ds, calls.mapM (declare starlark process) = .ok ds ∧
          b = ds.foldl add builder := by
    cases calls.mapM (declare starlark process) with
    | error e => simp
    | ok ds => simp [eq_comm]
  have hvalidate : ∀ ds : List Declaration,
      (ds.foldl add builder).validatePendingExamplesFrom process
        builder.pendingExampleValidations.length = .ok () ↔
        ∀ validation ∈ ds.filterMap Declaration.validation?, validation.validate process
            (ds.foldl add builder).hostExecutablesByName = .ok () := by
    intro ds
    unfold PolicyBuilder.validatePendingExamplesFrom
    rw [forM_eq_ok_iff, PolicyBuilder.pending_foldl_add, drop_left]
  unfold PolicyParser.parse
  simp only [hrun, bind_eq_ok, mapError_eq_ok, foldlM_map_eq, hread]
  cases failure with
  | some message =>
    constructor
    · rintro ⟨b, -, hfail⟩
      cases hfail
    · rintro ⟨calls', ds, hcalls, -⟩
      cases hcalls
  | none =>
    simp only [bind_eq_ok]
    constructor
    · rintro ⟨b, ⟨ds, hds, rfl⟩, ⟨⟩, hvalid, hb⟩
      cases hb
      exact ⟨calls, ds, rfl, hds, rfl, (hvalidate ds).mp hvalid⟩
    · rintro ⟨calls', ds, hcalls, hds, rfl, hvalid⟩
      cases hcalls
      exact ⟨_, ⟨ds, hds, rfl⟩, (), (hvalidate ds).mpr hvalid, rfl⟩

end Codex.ExecPolicy
