import Codex.Data.MultiMap
import Codex.Path.Absolute
import Mathlib.Order.Basic
import Mathlib.Data.List.MinMax

namespace Codex.ExecPolicy

open Text Data List

/-!
# Exec policies

A policy says which commands may run.  Its rules are kept by the first token of the command they
are about.  A command is matched against the rules for its first token; only where none of these
match, and the caller wants it, against the rules for the name of the program it runs.

* `PrefixRule.matchesCommand` — one rule against one command;
* `Policy.matchExactRules` / `matchHostExecutableRules` — the two tiers;
* `Policy.matchesForCommandWithOptions` — the first tier that matches, or else the heuristics;
* `Policy.checkWithOptions` — the strictest decision of what matched;
* `le_checkWithOptions_iff` — a decision is a lower bound of the outcome just when something
  that matched is at least as strict.
-/

/-! ### Decisions -/

/-- What may be done with a command, from the most lenient to the strictest. -/
inductive Decision
  | allow
  | prompt
  | forbidden
deriving DecidableEq

namespace Decision

/-- The place of a decision in the order of its declaration. -/
def rank : Decision → Nat
  | allow => 0
  | prompt => 1
  | forbidden => 2

theorem rank_injective : Function.Injective rank := by
  intro d d' h
  cases d <;> cases d' <;> first | rfl | exact absurd h (by decide)

instance : LinearOrder Decision := LinearOrder.lift' rank rank_injective

end Decision

/-! ### Rules -/

/-- A token of a pattern: one text, or one of several. -/
inductive PatternToken
  | single (expected : Text)
  | alts (alternatives : List Text)

/-- The pattern token accepts the token of the command. -/
def PatternToken.matchesToken : PatternToken → Text → Bool
  | .single expected, token => expected = token
  | .alts alternatives, token => alternatives.any (· = token)

/-- The pattern of a rule.  Its first token is fixed, since rules are found by it. -/
structure PrefixPattern where
  first : Text
  rest : List PatternToken

/-- The tokens of the command that the pattern matches, if it does. -/
def PrefixPattern.matchesPrefix (pattern : PrefixPattern) (cmd : List Text) : Option (List Text) :=
  let patternLength := pattern.rest.length + 1
  if cmd.length < patternLength ∨ cmd.head? ≠ some pattern.first then none
  else if (pattern.rest.zip ((cmd.drop 1).take pattern.rest.length)).all
      fun (patternToken, cmdToken) => patternToken.matchesToken cmdToken then
    some (cmd.take patternLength)
  else none

/-- What matched a command: a rule, or the heuristics for commands without a rule. -/
inductive RuleMatch
  | prefixRuleMatch (matchedPrefix : List Text) (decision : Decision)
      (resolvedProgram : Option AbsolutePathBuf) (justification : Option Text)
  | heuristicsRuleMatch (command : List Text) (decision : Decision)
deriving DecidableEq

namespace RuleMatch

def decision : RuleMatch → Decision
  | .prefixRuleMatch _ decision _ _ => decision
  | .heuristicsRuleMatch _ decision => decision

/-- Note the program that was looked up by its name. -/
def withResolvedProgram (ruleMatch : RuleMatch) (resolvedProgram : AbsolutePathBuf) : RuleMatch :=
  match ruleMatch with
  | .prefixRuleMatch matchedPrefix decision _ justification =>
    .prefixRuleMatch matchedPrefix decision (some resolvedProgram) justification
  | other => other

end RuleMatch

/-- A rule for the commands that begin with a pattern. -/
structure PrefixRule where
  pattern : PrefixPattern
  decision : Decision
  justification : Option Text

def PrefixRule.matchesCommand (rule : PrefixRule) (cmd : List Text) : Option RuleMatch :=
  (rule.pattern.matchesPrefix cmd).map fun matchedPrefix =>
    .prefixRuleMatch matchedPrefix rule.decision none rule.justification

inductive NetworkRuleProtocol
  | http
  | https
  | socks5Tcp
  | socks5Udp

structure NetworkRule where
  host : Text
  protocol : NetworkRuleProtocol
  decision : Decision
  justification : Option Text

/-! ### Policies -/

structure MatchOptions where
  resolveHostExecutables : Bool

/-- What the process knows: the home directory and the working directory, if there are any. -/
structure Process where
  home : Option Text
  currentDir : Option AbsolutePathBuf

structure Policy where
  rulesByProgram : MultiMap Text PrefixRule
  networkRules : List NetworkRule
  hostExecutablesByName : Finmap fun _ : Text => List AbsolutePathBuf

/-- The outcome of a check. -/
structure Evaluation where
  decision : Decision
  matchedRules : List RuleMatch
deriving DecidableEq

/-- The strictest decision of what matched.  There is none where nothing matched, and the code
    then stops with a failed assertion. -/
def Evaluation.fromMatches (matchedRules : List RuleMatch) : Option Evaluation :=
  (matchedRules.map RuleMatch.decision).max?.map fun decision => ⟨decision, matchedRules⟩

/-- The name under which the rules for a program are kept (on Unix, its file name). -/
def executablePathLookupKey (path : AbsolutePathBuf) : Option Text := path.fileName

/-- The program a command runs, with the name under which its rules are kept. -/
def lookupProgram (process : Process) (cmd : List Text) : Option (AbsolutePathBuf × Text) := do
  let first ← cmd.head?
  let program ← fromAbsolutePath process.home process.currentDir first
  let basename ← executablePathLookupKey program
  pure (program, basename)

namespace Policy

variable (policy : Policy)

/-- The policy lists programs of this name, and the program is not one of them. -/
def excludesProgram (program : AbsolutePathBuf) (basename : Text) : Bool :=
  match policy.hostExecutablesByName.lookup basename with
  | some paths => !paths.any (· = program)
  | none => false

/-- First tier: the rules for the first token. -/
def matchExactRules (cmd : List Text) : Option (List RuleMatch) := do
  let first ← cmd.head?
  pure (((policy.rulesByProgram.getVec first).map (·.filterMap (·.matchesCommand cmd))).getD [])

variable (process : Process)

/-- Second tier: the rules for the name of the program, unless the policy lists the programs of
    this name without it. -/
def matchHostExecutableRules (cmd : List Text) : List RuleMatch :=
  match lookupProgram process cmd with
  | none => []
  | some (program, basename) =>
    match policy.rulesByProgram.getVec basename with
    | none => []
    | some rules =>
      if policy.excludesProgram program basename then []
      else
        let basenameCommand := basename :: cmd.drop 1
        (rules.filterMap (·.matchesCommand basenameCommand)).map (·.withResolvedProgram program)

/-- The matches of the first tier that has some; where no rule matches, the decision of the
    heuristics, if they are given. -/
def matchesForCommandWithOptions (cmd : List Text)
    (heuristicsFallback : Option (List Text → Decision)) (options : MatchOptions) :
    List RuleMatch :=
  let exactRules := (policy.matchExactRules cmd).filter (!·.isEmpty)
  let hostRules :=
    if options.resolveHostExecutables then
      (some (policy.matchHostExecutableRules process cmd)).filter (!·.isEmpty)
    else none
  let matchedRules := (exactRules.or hostRules).getD []
  match matchedRules, heuristicsFallback with
  | [], some heuristicsFallback => [.heuristicsRuleMatch cmd (heuristicsFallback cmd)]
  | matchedRules, _ => matchedRules

def checkWithOptions (cmd : List Text)
    (heuristicsFallback : List Text → Decision) (options : MatchOptions) : Option Evaluation :=
  Evaluation.fromMatches
    (policy.matchesForCommandWithOptions process cmd (some heuristicsFallback) options)

/-- Put a policy over another one: rules are added behind the rules for the same token, and the
    programs listed under a name replace those listed before.  The entries of the two maps of
    `overlay` come in some order. -/
def mergeOverlay (base overlay : Policy) (ruleEntries : List (Text × List PrefixRule))
    (hostEntries : List (Text × List AbsolutePathBuf)) : Policy :=
  ⟨base.rulesByProgram.insertEach ruleEntries, base.networkRules ++ overlay.networkRules,
    insertAll base.hostExecutablesByName hostEntries⟩

end Policy

/-! ### Outcomes -/

/-- A decision is a lower bound of the strictest one just when some match reaches it. -/
theorem Evaluation.le_fromMatches_iff (decision : Decision) (matchedRules : List RuleMatch) :
    (∃ evaluation, Evaluation.fromMatches matchedRules = some evaluation ∧
      decision ≤ evaluation.decision) ↔ ∃ m ∈ matchedRules, decision ≤ m.decision := by
  unfold Evaluation.fromMatches
  cases hmax : (matchedRules.map RuleMatch.decision).max? with
  | none =>
    rw [max?_eq_none_iff, map_eq_nil_iff] at hmax
    simp [hmax]
  | some strictest =>
    rw [max?_eq_some_iff] at hmax
    obtain ⟨hmem, hle⟩ := hmax
    obtain ⟨m, hm, rfl⟩ := mem_map.mp hmem
    constructor
    · rintro ⟨evaluation, heval, hdecision⟩
      obtain rfl := Option.some.inj heval
      exact ⟨m, hm, hdecision⟩
    · rintro ⟨m', hm', hdecision⟩
      exact ⟨_, rfl, hdecision.trans (hle _ (mem_map_of_mem hm'))⟩

namespace Policy

variable (policy : Policy) (process : Process) (cmd : List Text) (options : MatchOptions)

/-- The rules for the first token that match; none for the empty command. -/
def exactMatches (policy : Policy) (cmd : List Text) : List RuleMatch :=
  (policy.matchExactRules cmd).getD []

/-- The matches of the second tier, where the caller wants it. -/
def hostMatches (policy : Policy) (process : Process) (cmd : List Text) (options : MatchOptions) :
    List RuleMatch :=
  if options.resolveHostExecutables then policy.matchHostExecutableRules process cmd else []

/-- **The tiers.** -/
theorem matchesForCommandWithOptions_eq (fallback : Option (List Text → Decision)) :
    policy.matchesForCommandWithOptions process cmd fallback options =
      if policy.exactMatches cmd ≠ [] then policy.exactMatches cmd
      else if policy.hostMatches process cmd options ≠ [] then
        policy.hostMatches process cmd options
      else (fallback.map fun h => RuleMatch.heuristicsRuleMatch cmd (h cmd)).toList := by
  have htiers : (((policy.matchExactRules cmd).filter (!·.isEmpty)).or
      (if options.resolveHostExecutables then
        (some (policy.matchHostExecutableRules process cmd)).filter (!·.isEmpty)
      else none)).getD [] = if policy.exactMatches cmd ≠ [] then policy.exactMatches cmd
        else policy.hostMatches process cmd options := by
    unfold exactMatches hostMatches
    rcases policy.matchExactRules cmd with _ | _ | ⟨m, ms⟩ <;>
      cases options.resolveHostExecutables <;>
        cases policy.matchHostExecutableRules process cmd <;> rfl
  unfold matchesForCommandWithOptions
  simp only [htiers]
  cases policy.exactMatches cmd with
  | cons m ms => rfl
  | nil =>
    cases policy.hostMatches process cmd options with
    | cons m ms => rfl
    | nil => cases fallback <;> rfl

/-- Without heuristics only rules match. -/
theorem matchesForCommandWithOptions_none :
    policy.matchesForCommandWithOptions process cmd none options =
      if policy.exactMatches cmd ≠ [] then policy.exactMatches cmd
      else policy.hostMatches process cmd options := by
  rw [matchesForCommandWithOptions_eq]
  cases policy.hostMatches process cmd options <;> rfl

/-- With heuristics there is always an outcome. -/
theorem exists_checkWithOptions (fallback : List Text → Decision) :
    ∃ evaluation,
      policy.checkWithOptions process cmd fallback options = some evaluation := by
  have hne : policy.matchesForCommandWithOptions process cmd (some fallback) options ≠
      [] := by
    rw [matchesForCommandWithOptions_eq]
    split
    · assumption
    · split
      · assumption
      · exact cons_ne_nil _ _
  obtain ⟨m, hm⟩ := exists_mem_of_ne_nil _ hne
  obtain ⟨evaluation, heval, -⟩ := (Evaluation.le_fromMatches_iff m.decision _).mpr ⟨m, hm, le_rfl⟩
  exact ⟨evaluation, heval⟩

/-- **Lower bounds of the outcome.** -/
theorem le_checkWithOptions_iff {evaluation : Evaluation} {fallback : List Text → Decision}
    (h : policy.checkWithOptions process cmd fallback options = some evaluation)
    (decision : Decision) :
    decision ≤ evaluation.decision ↔
      ∃ m ∈ policy.matchesForCommandWithOptions process cmd (some fallback) options,
        decision ≤ m.decision := by
  rw [← Evaluation.le_fromMatches_iff]
  constructor
  · exact fun hle => ⟨evaluation, h, hle⟩
  · rintro ⟨evaluation', h', hle⟩
    obtain rfl := Option.some.inj (h'.symm.trans h)
    exact hle

end Policy

end Codex.ExecPolicy
