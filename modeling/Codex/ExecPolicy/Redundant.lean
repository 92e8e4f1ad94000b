import Codex.ExecPolicy.Overlay
import Codex.ExecPolicy.RuleFile

namespace Codex.ExecPolicy

open Text Data List Evaluation MultiMap Decision

/-!
# Adding a rule that allows

What a policy decides depends on which rules it has, not on their order or on how often they
stand in it.  A rule that allows can only take commands away from the heuristics, or, being a rule
for the first token, from the rules for the name of a program.

* `Policy.addPrefixRule`, `Policy.checkMultipleWithOptions` — the operations;
* `SameRules`, `SameRules.sameDecisions` — two policies with the same rules decide alike;
* `Redundant` — every command that the rule for some tokens would match has rules that decide it
  already, and as leniently;
* `sameDecisions_allowTokens_iff` — adding the rule changes no decision just when it is redundant.
-/

/-! ### Operations -/

/-- The rule for the commands that begin with some tokens. -/
def tokensRule (first : Text) (rest : List Text) (decision : Decision) : PrefixRule :=
  ⟨⟨first, rest.map .single⟩, decision, none⟩

variable {m : RuleMatch}

namespace Policy

variable (policy : Policy)

def addRule (rule : PrefixRule) : Policy :=
  { policy with rulesByProgram := policy.rulesByProgram.insert rule.pattern.first rule }

def addPrefixRule (tokens : List Text) (decision : Decision) : Except Error Policy :=
  match tokens with
  | [] => .error (.invalidPattern "prefix cannot be empty".toList)
  | first :: rest => .ok (policy.addRule (tokensRule first rest decision))

/-- The strictest decision for any of several commands. -/
def checkMultipleWithOptions (process : Process) (commands : List (List Text))
    (fallback : List Text → Decision) (options : MatchOptions) : Option Evaluation :=
  fromMatches (commands.flatMap fun command =>
    policy.matchesForCommandWithOptions process command (some fallback) options)

/-! ### Policies with the same rules -/

/-- The same decision for every command, whatever the heuristics say. -/
def SameDecisions (policy policy' : Policy) (process : Process) : Prop := ∀ cmd fallback,
    (policy.checkWithOptions process cmd fallback ⟨true⟩).map decision =
      (policy'.checkWithOptions process cmd fallback ⟨true⟩).map decision

theorem SameDecisions.refl (process : Process) : policy.SameDecisions policy process :=
  fun _ _ => rfl

theorem SameDecisions.symm {policy policy' : Policy} {process : Process}
    (h : policy.SameDecisions policy' process) : policy'.SameDecisions policy process :=
  fun cmd fallback => (h cmd fallback).symm

theorem SameDecisions.trans {policy policy' policy'' : Policy} {process : Process}
    (h : policy.SameDecisions policy' process) (h' : policy'.SameDecisions policy'' process) :
    policy.SameDecisions policy'' process :=
  fun cmd fallback => (h cmd fallback).trans (h' cmd fallback)

/-- Two policies have the same rules, in any order and any number, and list the same programs. -/
structure SameRules (policy policy' : Policy) : Prop where
  rules : ∀ program rule, rule ∈ policy.rulesByProgram.values program ↔
    rule ∈ policy'.rulesByProgram.values program
  hosts : policy.hostExecutablesByName = policy'.hostExecutablesByName

variable {policy policy' : Policy} {process : Process} {cmd : List Text}

theorem mem_exactMatches_iff :
    m ∈ policy.exactMatches cmd ↔ ∃ first, cmd.head? = some first ∧
      ∃ rule ∈ policy.rulesByProgram.values first, rule.matchesCommand cmd = some m := by
  rw [exactMatches_eq_flatMap]
  simp

theorem mem_hostMatches_iff :
    m ∈ policy.hostMatches process cmd ⟨true⟩ ↔
      ∃ program basename, lookupProgram process cmd = some (program, basename) ∧
        policy.excludesProgram program basename = false ∧
        ∃ rule ∈ policy.rulesByProgram.values basename, ∃ m',
          rule.matchesCommand (basename :: cmd.drop 1) = some m' ∧
            m'.withResolvedProgram program = m := by
  show m ∈ policy.matchHostExecutableRules process cmd ↔ _
  cases hlookup : lookupProgram process cmd with
  | none =>
    unfold matchHostExecutableRules
    rw [hlookup]
    simp
  | some found =>
    obtain ⟨program, basename⟩ := found
    rw [matchHostExecutableRules_of_lookup policy hlookup]
    cases hexcludes : policy.excludesProgram program basename with
    | true => simp [hexcludes]
    | false =>
      simp only [Option.some.injEq, basenameMatches, mem_map, Bool.false_eq_true, if_false]
      grind

/-- Two checks have the same outcome just when their matches reach the same decisions. -/
theorem decision_eq_iff (policy policy' : Policy) (process : Process) (cmd : List Text)
    (fallback : List Text → Decision) (options : MatchOptions) :
    (policy.checkWithOptions process cmd fallback options).map decision =
      (policy'.checkWithOptions process cmd fallback options).map decision ↔ ∀ decision,
        (∃ m ∈ policy.matchesForCommandWithOptions process cmd (some fallback) options,
          decision ≤ m.decision) ↔
        ∃ m ∈ policy'.matchesForCommandWithOptions process cmd (some fallback) options,
          decision ≤ m.decision := by
  obtain ⟨e, he⟩ := policy.exists_checkWithOptions process cmd options fallback
  obtain ⟨e', he'⟩ := policy'.exists_checkWithOptions process cmd options fallback
  simp only [← le_checkWithOptions_iff _ process cmd options he,
    ← le_checkWithOptions_iff _ process cmd options he', he, he', Option.map_some,
    Option.some.injEq]
  exact ⟨fun h d => by rw [h], eq_of_forall_le_iff⟩

variable (fallback : Option (List Text → Decision))

/-- The matches with heuristics, by the tiers. -/
theorem matches_of_exact (h : policy.exactMatches cmd ≠ []) :
    policy.matchesForCommandWithOptions process cmd fallback ⟨true⟩ =
      policy.exactMatches cmd := by
  rw [matchesForCommandWithOptions_eq, if_pos h]

theorem matches_of_host (h : policy.exactMatches cmd = [])
    (hhost : policy.hostMatches process cmd ⟨true⟩ ≠ []) :
    policy.matchesForCommandWithOptions process cmd fallback ⟨true⟩ =
      policy.hostMatches process cmd ⟨true⟩ := by
  rw [matchesForCommandWithOptions_eq, if_neg (not_not.mpr h), if_pos hhost]

theorem matches_of_none (fallback : List Text → Decision)
    (h : policy.exactMatches cmd = []) (hhost : policy.hostMatches process cmd ⟨true⟩ = []) :
    policy.matchesForCommandWithOptions process cmd (some fallback) ⟨true⟩ =
      [.heuristicsRuleMatch cmd (fallback cmd)] := by
  rw [matchesForCommandWithOptions_eq, if_neg (not_not.mpr h), if_neg (not_not.mpr hhost)]
  rfl

/-- **The order and the number of the rules do not matter.** -/
theorem SameRules.sameDecisions (h : SameRules policy policy') (process : Process) :
    policy.SameDecisions policy' process := by
  intro cmd fallback
  have hexact : ∀ m, m ∈ policy.exactMatches cmd ↔ m ∈ policy'.exactMatches cmd := by
    intro m
    simp [mem_exactMatches_iff, h.rules]
  have hhost : ∀ m, m ∈ policy.hostMatches process cmd ⟨true⟩ ↔
      m ∈ policy'.hostMatches process cmd ⟨true⟩ := by
    intro m
    simp [mem_hostMatches_iff, h.rules, excludesProgram, h.hosts]
  have hnil : ∀ {l l' : List RuleMatch}, (∀ m, m ∈ l ↔ m ∈ l') → (l = [] ↔ l' = []) := by
    intro l l' hl
    simp [eq_nil_iff_forall_not_mem, hl]
  rw [decision_eq_iff]
  intro decision
  by_cases he : policy.exactMatches cmd = []
  · have he' := (hnil hexact).mp he
    by_cases hh : policy.hostMatches process cmd ⟨true⟩ = []
    · rw [matches_of_none _ he hh, matches_of_none _ he' ((hnil hhost).mp hh)]
    · rw [matches_of_host _ he hh, matches_of_host _ he' (mt (hnil hhost).mpr hh)]
      simp [hhost]
  · rw [matches_of_exact _ he, matches_of_exact _ (mt (hnil hexact).mpr he)]
    simp [hexact]

end Policy

/-! ### Rules for tokens -/

theorem Decision.allow_le (decision : Decision) : allow ≤ decision := by
  cases decision <;> decide

/-- A pattern of plain tokens matches the commands that begin with them. -/
theorem matchesCommand_tokensRule (first : Text) (rest : List Text) (decision : Decision)
    (cmd : List Text) :
    (tokensRule first rest decision).matchesCommand cmd =
      if first :: rest <+: cmd then some (.prefixRuleMatch (first :: rest) decision none none)
      else none := by
  have hzip : ∀ rest args : List Text, rest.length ≤ args.length →
      ((rest.map PatternToken.single).zip (args.take rest.length)).all
        (fun pair => pair.1.matchesToken pair.2) =
          decide (rest <+: args) := by
    intro rest
    induction rest with
    | nil => simp
    | cons token rest ih =>
      intro args hlen
      cases args with
      | nil => simp at hlen
      | cons arg args =>
        simp_all [PatternToken.matchesToken]
  unfold PrefixRule.matchesCommand PrefixPattern.matchesPrefix tokensRule
  cases cmd with
  | nil => simp
  | cons token args =>
    by_cases hlen : rest.length ≤ args.length
    · by_cases hfirst : token = first
      · have hzip' := hzip rest args hlen
        by_cases hrest : rest <+: args
        · obtain ⟨more, rfl⟩ := hrest
          simp_all
        · simp_all
      · simp [hfirst, Ne.symm hfirst]
    · have hrest : ¬ first :: rest <+: token :: args := by
        intro h
        have := h.length_le
        simp only [length_cons] at this
        omega
      rw [if_neg hrest]
      simp
      omega

namespace Policy

variable {policy : Policy} {process : Process} {cmd : List Text} {first : Text} {rest : List Text}

/-- The rule that allows the commands beginning with some tokens is added. -/
def allowTokens (policy : Policy) (first : Text) (rest : List Text) : Policy :=
  policy.addRule (tokensRule first rest .allow)

/-- What matches by the first token afterwards. -/
theorem mem_exactMatches_allowTokens :
    m ∈ (policy.allowTokens first rest).exactMatches cmd ↔
      m ∈ policy.exactMatches cmd ∨
        first :: rest <+: cmd ∧ m = .prefixRuleMatch (first :: rest) .allow none none := by
  have hnew : (∃ token, cmd.head? = some token ∧ token = first ∧
      (tokensRule first rest .allow).matchesCommand cmd = some m) ↔
        first :: rest <+: cmd ∧ m = .prefixRuleMatch (first :: rest) .allow none none := by
    rw [matchesCommand_tokensRule]
    constructor
    · rintro ⟨token, -, -, h⟩
      split at h
      · exact ⟨‹_›, (Option.some.inj h).symm⟩
      · cases h
    · rintro ⟨⟨args, rfl⟩, rfl⟩
      exact ⟨first, rfl, rfl, if_pos ⟨args, rfl⟩⟩
  rw [← hnew]
  simp only [mem_exactMatches_iff, allowTokens, addRule, mem_values_insert]
  simp only [tokensRule]
  grind

/-- What matches by the name of the program afterwards. -/
theorem mem_hostMatches_allowTokens :
    m ∈ (policy.allowTokens first rest).hostMatches process cmd ⟨true⟩ ↔
      m ∈ policy.hostMatches process cmd ⟨true⟩ ∨
        ∃ program, lookupProgram process cmd = some (program, first) ∧
          policy.excludesProgram program first = false ∧ rest <+: cmd.drop 1 ∧
          m = .prefixRuleMatch (first :: rest) .allow (some program) none := by
  have hnew : ∀ program m', ((tokensRule first rest .allow).matchesCommand (first :: cmd.drop 1) =
      some m' ∧ m'.withResolvedProgram program = m) ↔ m' = .prefixRuleMatch (first :: rest) .allow
        none none ∧ rest <+: cmd.drop 1 ∧
          m = .prefixRuleMatch (first :: rest) .allow (some program) none := by
    intro program m'
    rw [matchesCommand_tokensRule]
    constructor
    · rintro ⟨h, rfl⟩
      split at h
      · rename_i hrest
        cases h
        exact ⟨rfl, (cons_prefix_cons.mp hrest).2, rfl⟩
      · cases h
    · rintro ⟨rfl, hrest, rfl⟩
      exact ⟨if_pos (cons_prefix_cons.mpr ⟨rfl, hrest⟩), rfl⟩
  simp only [mem_hostMatches_iff]
  constructor
  · rintro ⟨program, basename, hlookup, hexcl, rule, hrule, m', hmatch, hm⟩
    rw [allowTokens, addRule, mem_values_insert] at hrule
    rcases hrule with hrule | ⟨hbasename, rfl⟩
    · exact .inl ⟨program, basename, hlookup, hexcl, rule, hrule, m', hmatch, hm⟩
    · obtain rfl : basename = first := hbasename
      obtain ⟨-, hrest, hm⟩ := (hnew program m').mp ⟨hmatch, hm⟩
      exact .inr ⟨program, hlookup, hexcl, hrest, hm⟩
  · rintro (⟨program, basename, hlookup, hexcl, rule, hrule, h⟩ |
      ⟨program, hlookup, hexcl, hrest, hm⟩)
    · exact ⟨program, basename, hlookup, hexcl, rule, mem_values_insert.mpr (.inl hrule), h⟩
    · exact ⟨program, first, hlookup, hexcl, _, mem_values_insert.mpr (.inr ⟨rfl, rfl⟩), _,
        (hnew program _).mpr ⟨rfl, hrest, hm⟩⟩

/-- Every command that the rule would match by its first token has rules for this token, or else
    rules for the name of its program that all allow it; and every command that it would match by
    the name of its program has rules already. -/
def Redundant (policy : Policy) (process : Process) (first : Text) (rest : List Text) : Prop :=
  (∀ args, policy.exactMatches (first :: rest ++ args) ≠ [] ∨
    policy.hostMatches process (first :: rest ++ args) ⟨true⟩ ≠ [] ∧
      ∀ m ∈ policy.hostMatches process (first :: rest ++ args) ⟨true⟩, m.decision = .allow) ∧
  ∀ cmd program, lookupProgram process cmd = some (program, first) →
    policy.excludesProgram program first = false → rest <+: cmd.drop 1 →
    policy.exactMatches cmd ≠ [] ∨ policy.hostMatches process cmd ⟨true⟩ ≠ []

/-- More matches that allow do not change what is reached, where there are some already. -/
theorem exists_le_iff_of_allow {l l' : List RuleMatch} (hne : l ≠ []) (hsub : ∀ m ∈ l, m ∈ l')
    (hnew : ∀ m ∈ l', m ∈ l ∨ m.decision = .allow) (decision : Decision) :
    (∃ m ∈ l, decision ≤ m.decision) ↔ ∃ m ∈ l', decision ≤ m.decision := by
  constructor
  · rintro ⟨m, hm, hle⟩
    exact ⟨m, hsub m hm, hle⟩
  · rintro ⟨m, hm, hle⟩
    rcases hnew m hm with hm | hallow
    · exact ⟨m, hm, hle⟩
    · obtain ⟨m₀, hm₀⟩ := exists_mem_of_ne_nil l hne
      rw [hallow] at hle
      exact ⟨m₀, hm₀, hle.trans (allow_le _)⟩

/-- Matches that all allow reach nothing else. -/
theorem exists_le_iff_of_forall_allow {l : List RuleMatch} (hne : l ≠ [])
    (hallow : ∀ m ∈ l, m.decision = .allow) (decision : Decision) :
    (∃ m ∈ l, decision ≤ m.decision) ↔ decision ≤ .allow := by
  constructor
  · rintro ⟨m, hm, hle⟩
    rwa [hallow m hm] at hle
  · intro hle
    obtain ⟨m, hm⟩ := exists_mem_of_ne_nil l hne
    exact ⟨m, hm, hle.trans (allow_le _)⟩

section

variable (h : policy.SameDecisions (policy.allowTokens first rest) process)
include h

/-- Where no rule for the first token matches, the new rule decides its commands. -/
theorem redundant_exact_of_sameDecisions
    (args : List Text) :
    policy.exactMatches (first :: rest ++ args) ≠ [] ∨
      policy.hostMatches process (first :: rest ++ args) ⟨true⟩ ≠ [] ∧
        ∀ m ∈ policy.hostMatches process (first :: rest ++ args) ⟨true⟩, m.decision = .allow := by
  rw [or_iff_not_imp_left, not_not]
  intro hexact
  -- with the rule, the command is allowed whatever the heuristics say
  have hnew : ∀ m, m ∈ (policy.allowTokens first rest).exactMatches (first :: rest ++ args) ↔
      m = .prefixRuleMatch (first :: rest) .allow none none := by
    intro m
    simp only [mem_exactMatches_allowTokens, hexact, not_mem_nil, false_or, prefix_append, true_and]
  have hne : (policy.allowTokens first rest).exactMatches (first :: rest ++ args) ≠ [] :=
    ne_nil_of_mem ((hnew _).mpr rfl)
  have hdecision := fun decision => (decision_eq_iff policy (policy.allowTokens first rest) process
    (first :: rest ++ args) (fun _ => .forbidden) ⟨true⟩).mp (h _ _) decision
  simp only [matches_of_exact _ hne, exists_le_iff_of_forall_allow hne
    (fun m hm => by rw [(hnew m).mp hm]; rfl)] at hdecision
  by_cases hhost : policy.hostMatches process (first :: rest ++ args) ⟨true⟩ = []
  · rw [matches_of_none _ hexact hhost] at hdecision
    exact absurd ((hdecision .forbidden).mp ⟨_, mem_singleton_self _, le_rfl⟩) (by decide)
  · rw [matches_of_host _ hexact hhost] at hdecision
    refine ⟨hhost, fun m hm => ?_⟩
    exact le_antisymm ((hdecision m.decision).mp ⟨m, hm, le_rfl⟩) (allow_le _)

/-- Where nothing matches, the new rule decides the commands of programs that have its first token
    as their name. -/
theorem redundant_host_of_sameDecisions
    {program : AbsolutePathBuf} (hlookup : lookupProgram process cmd = some (program, first))
    (hexcludes : policy.excludesProgram program first = false) (hrest : rest <+: cmd.drop 1) :
    policy.exactMatches cmd ≠ [] ∨ policy.hostMatches process cmd ⟨true⟩ ≠ [] := by
  rw [or_iff_not_imp_left, not_not]
  intro hexact hhost
  have hforbidden := (decision_eq_iff policy (policy.allowTokens first rest) process cmd
    (fun _ => .forbidden) ⟨true⟩).mp (h _ _) .forbidden
  rw [matches_of_none _ hexact hhost] at hforbidden
  obtain ⟨m, hm, hle⟩ := hforbidden.mp ⟨_, mem_singleton_self _, le_rfl⟩
  -- whatever tier of the new policy matches, it does so with the new rule
  have hallow : m.decision = .allow := by
    by_cases hexact' : (policy.allowTokens first rest).exactMatches cmd = []
    · have hne : (policy.allowTokens first rest).hostMatches process cmd ⟨true⟩ ≠ [] :=
        ne_nil_of_mem (mem_hostMatches_allowTokens.mpr
          (.inr ⟨program, hlookup, hexcludes, hrest, rfl⟩))
      rw [matches_of_host _ hexact' hne, mem_hostMatches_allowTokens, hhost] at hm
      obtain hm | ⟨-, -, -, -, rfl⟩ := hm
      · cases hm
      · rfl
    · rw [matches_of_exact _ hexact', mem_exactMatches_allowTokens, hexact] at hm
      obtain hm | ⟨-, rfl⟩ := hm
      · cases hm
      · rfl
  rw [hallow] at hle
  exact absurd hle (by decide)

end

/-- A redundant rule changes no decision. -/
theorem Redundant.sameDecisions (h : policy.Redundant process first rest) :
    policy.SameDecisions (policy.allowTokens first rest) process := by
  intro cmd fallback
  rw [decision_eq_iff]
  intro decision
  by_cases hexact : policy.exactMatches cmd = []
  · by_cases hmatch : first :: rest <+: cmd
    · -- the rule takes the command from the rules for the name of its program
      obtain ⟨args, rfl⟩ := hmatch
      obtain ⟨hne, hallow⟩ := (h.1 args).resolve_left (not_not.mpr hexact)
      have hnew : ∀ m ∈ (policy.allowTokens first rest).exactMatches (first :: rest ++ args),
          m.decision = .allow := by
        intro m hm
        rw [mem_exactMatches_allowTokens, hexact] at hm
        obtain hm | ⟨-, rfl⟩ := hm
        · cases hm
        · rfl
      have hne' : (policy.allowTokens first rest).exactMatches (first :: rest ++ args) ≠ [] :=
        ne_nil_of_mem (mem_exactMatches_allowTokens.mpr (.inr ⟨⟨args, rfl⟩, rfl⟩))
      rw [matches_of_host _ hexact hne, matches_of_exact _ hne',
        exists_le_iff_of_forall_allow hne hallow, exists_le_iff_of_forall_allow hne' hnew]
    · have hexact' : (policy.allowTokens first rest).exactMatches cmd = [] := by
        rw [eq_nil_iff_forall_not_mem]
        intro m hm
        rw [mem_exactMatches_allowTokens, hexact] at hm
        obtain hm | ⟨hmatch', -⟩ := hm
        · cases hm
        · exact hmatch hmatch'
      by_cases hhost : policy.hostMatches process cmd ⟨true⟩ = []
      · have hhost' : (policy.allowTokens first rest).hostMatches process cmd ⟨true⟩ = [] := by
          rw [eq_nil_iff_forall_not_mem]
          intro m hm
          rw [mem_hostMatches_allowTokens, hhost] at hm
          obtain hm | ⟨program, hlookup, hexcludes, hrest, -⟩ := hm
          · cases hm
          · rcases h.2 cmd program hlookup hexcludes hrest with hne | hne
            · exact hne hexact
            · exact hne hhost
        rw [matches_of_none _ hexact hhost, matches_of_none _ hexact' hhost']
      · have hsub : ∀ m ∈ policy.hostMatches process cmd ⟨true⟩,
            m ∈ (policy.allowTokens first rest).hostMatches process cmd ⟨true⟩ :=
          fun m hm => mem_hostMatches_allowTokens.mpr (.inl hm)
        obtain ⟨m₀, hm₀⟩ := exists_mem_of_ne_nil _ hhost
        rw [matches_of_host _ hexact hhost, matches_of_host _ hexact' (ne_nil_of_mem (hsub m₀ hm₀))]
        refine exists_le_iff_of_allow hhost hsub (fun m hm => ?_) decision
        obtain hm | ⟨-, -, -, -, rfl⟩ := mem_hostMatches_allowTokens.mp hm
        · exact .inl hm
        · exact .inr rfl
  · have hsub : ∀ m ∈ policy.exactMatches cmd,
        m ∈ (policy.allowTokens first rest).exactMatches cmd :=
      fun m hm => mem_exactMatches_allowTokens.mpr (.inl hm)
    obtain ⟨m₀, hm₀⟩ := exists_mem_of_ne_nil _ hexact
    rw [matches_of_exact _ hexact, matches_of_exact _ (ne_nil_of_mem (hsub m₀ hm₀))]
    refine exists_le_iff_of_allow hexact hsub (fun m hm => ?_) decision
    obtain hm | ⟨-, rfl⟩ := mem_exactMatches_allowTokens.mp hm
    · exact .inl hm
    · exact .inr rfl

/-- **When adding the rule changes nothing.** -/
theorem sameDecisions_allowTokens_iff :
    policy.SameDecisions (policy.allowTokens first rest) process ↔
      policy.Redundant process first rest := by
  constructor
  · intro h
    refine ⟨redundant_exact_of_sameDecisions h, ?_⟩
    intro cmd program hlookup hexcludes hrest
    exact redundant_host_of_sameDecisions h hlookup hexcludes hrest
  · exact Redundant.sameDecisions

end Policy

end Codex.ExecPolicy
