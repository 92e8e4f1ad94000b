import Codex.ExecPolicy.Policy

namespace Codex.ExecPolicy

open Text Data List MultiMap Option

/-!
# Managed rules over other rules

The rules an administrator manages are put over the rules of the other layers.  What holds of a
command under both depends on the tiers:

* `exactMatches_mergeOverlay` — the matches of the first tier are those of both policies;
* `matchHostExecutableRules_mergeOverlay` — so are those of the second tier, unless the base
  lists the programs of the name without the one that runs and the overlay lists none;
* `mergeOverlay_floor_iff` — the merged policy is at least as strict as the overlay just when the
  overlay's matches are in the first tier, or what takes the place of its second tier is as
  strict.
-/

namespace Policy

variable {base overlay : Policy} {ruleEntries : List (Text × List PrefixRule)}
  {hostEntries : List (Text × List AbsolutePathBuf)}

/-! ### The first tier -/

theorem exactMatches_eq_flatMap (policy : Policy) (cmd : List Text) :
    policy.exactMatches cmd = cmd.head?.toList.flatMap fun first =>
      (policy.rulesByProgram.values first).filterMap (·.matchesCommand cmd) := by
  cases cmd with
  | nil => rfl
  | cons first args =>
    rw [head?_cons, toList_some, flatMap_singleton]
    show ((policy.rulesByProgram.getVec first).map _).getD [] =
      ((policy.rulesByProgram.getVec first).getD []).filterMap _
    cases policy.rulesByProgram.getVec first <;> rfl

/-- Rules for the first token count, whichever policy they are from. -/
theorem exactMatches_mergeOverlay (hrules : IterationOrder overlay.rulesByProgram ruleEntries)
    (cmd : List Text) :
    (base.mergeOverlay overlay ruleEntries hostEntries).exactMatches cmd =
      base.exactMatches cmd ++ overlay.exactMatches cmd := by
  simp only [exactMatches_eq_flatMap]
  cases cmd with
  | nil => rfl
  | cons first args =>
    simp only [head?_cons, toList_some, flatMap_singleton]
    rw [mergeOverlay, values_insertEach hrules, filterMap_append]

/-! ### The second tier -/

/-- The matches among the rules for the name of a program. -/
def basenameMatches (policy : Policy) (program : AbsolutePathBuf) (basename : Text)
    (cmd : List Text) : List RuleMatch := ((policy.rulesByProgram.values basename).filterMap
    (·.matchesCommand (basename :: cmd.drop 1))).map (·.withResolvedProgram program)

variable {process : Process} {cmd : List Text}

theorem matchHostExecutableRules_of_lookup (policy : Policy) {program : AbsolutePathBuf}
    {basename : Text} (h : lookupProgram process cmd = some (program, basename)) :
    policy.matchHostExecutableRules process cmd = if policy.excludesProgram program basename then []
      else policy.basenameMatches program basename cmd := by
  unfold matchHostExecutableRules basenameMatches values
  simp only [h]
  cases policy.rulesByProgram.getVec basename with
  | none => exact (ite_self []).symm
  | some rules => rfl

section

variable (hhosts : IterationOrder overlay.hostExecutablesByName hostEntries)
include hhosts

/-- The list of programs under a name is the one of the overlay, if it has one. -/
theorem excludesProgram_mergeOverlay (program : AbsolutePathBuf) (basename : Text) :
    (base.mergeOverlay overlay ruleEntries hostEntries).excludesProgram program basename =
      if overlay.hostExecutablesByName.lookup basename = none then
        base.excludesProgram program basename
      else overlay.excludesProgram program basename := by
  unfold excludesProgram
  rw [mergeOverlay, lookup_insertAll hhosts]
  cases overlay.hostExecutablesByName.lookup basename <;> rfl

/-- The base lists the programs with the name of the one that the command runs, without it, and
    the overlay has no list for this name. -/
def ShutsOut (base overlay : Policy) (process : Process) (cmd : List Text) : Prop :=
  ∃ program basename, lookupProgram process cmd = some (program, basename) ∧
    overlay.hostExecutablesByName.lookup basename = none ∧ base.excludesProgram program basename

/-- A base that shuts the program out leaves no second tier. -/
theorem matchHostExecutableRules_of_shutsOut (h : base.ShutsOut overlay process cmd) :
    (base.mergeOverlay overlay ruleEntries hostEntries).matchHostExecutableRules process cmd =
      [] := by
  obtain ⟨program, basename, hprogram, hnone, hexcludes⟩ := h
  rw [matchHostExecutableRules_of_lookup _ hprogram, excludesProgram_mergeOverlay hhosts,
    if_pos hnone, if_pos hexcludes]

variable (hrules : IterationOrder overlay.rulesByProgram ruleEntries)
include hrules

variable {m : RuleMatch}

/-- Otherwise the matches of the overlay are matches of the merged policy. -/
theorem matchHostExecutableRules_mergeOverlay
    (h : ¬ base.ShutsOut overlay process cmd)
    (hm : m ∈ overlay.matchHostExecutableRules process cmd) :
    m ∈ (base.mergeOverlay overlay ruleEntries hostEntries).matchHostExecutableRules process
      cmd := by
  cases hprogram : lookupProgram process cmd with
  | none =>
    unfold matchHostExecutableRules at hm
    rw [hprogram] at hm
    exact absurd hm not_mem_nil
  | some found =>
    obtain ⟨program, basename⟩ := found
    rw [matchHostExecutableRules_of_lookup _ hprogram] at hm ⊢
    split at hm
    · exact absurd hm not_mem_nil
    · next hoverlay =>
      have hmerged : ¬ (base.mergeOverlay overlay ruleEntries hostEntries).excludesProgram
          program basename := by
        rw [excludesProgram_mergeOverlay hhosts]
        split
        · next hnone => exact fun hbase => h ⟨program, basename, hprogram, hnone, hbase⟩
        · exact hoverlay
      rw [if_neg hmerged, basenameMatches, mergeOverlay, values_insertEach hrules,
        filterMap_append, map_append]
      exact mem_append_right _ hm

/-! ### A floor -/

/-- What takes the place of the overlay's second tier is as strict.  Where the overlay has no
    match in the first tier, its rules for the name of the program can be passed over in two ways:
    rules of the base match in the first tier, or the base shuts the program out and the
    heuristics decide. -/
def KeepsBasenameRules (base overlay : Policy) (process : Process) (cmd : List Text)
    (fallback : List Text → Decision) (options : MatchOptions) : Prop :=
  overlay.exactMatches cmd = [] → ∀ m ∈ overlay.hostMatches process cmd options,
    if base.exactMatches cmd ≠ [] then ∃ m' ∈ base.exactMatches cmd, m.decision ≤ m'.decision
    else base.ShutsOut overlay process cmd → m.decision ≤ fallback cmd

omit hhosts in
/-- A match in the overlay's first tier is a match of the merged policy. -/
theorem mem_of_exactMatch (process : Process) (fallback : Option (List Text → Decision))
    (options : MatchOptions) (hm : m ∈ overlay.exactMatches cmd) :
    m ∈ (base.mergeOverlay overlay ruleEntries hostEntries).matchesForCommandWithOptions process
      cmd fallback options := by
  have hmem : m ∈ (base.mergeOverlay overlay ruleEntries hostEntries).exactMatches cmd := by
    rw [exactMatches_mergeOverlay hrules]
    exact mem_append_right _ hm
  rw [matchesForCommandWithOptions_eq, if_pos (ne_nil_of_mem hmem)]
  exact hmem

/-- The merged policy reaches the decision of a match in the overlay's second tier just when what
    takes its place does. -/
theorem exists_le_iff_of_hostMatch
    (fallback : List Text → Decision) {options : MatchOptions}
    (hexact : overlay.exactMatches cmd = []) (hm : m ∈ overlay.hostMatches process cmd options) :
    (∃ m' ∈ (base.mergeOverlay overlay ruleEntries hostEntries).matchesForCommandWithOptions
        process cmd (some fallback) options, m.decision ≤ m'.decision) ↔
      if base.exactMatches cmd ≠ [] then ∃ m' ∈ base.exactMatches cmd, m.decision ≤ m'.decision
      else base.ShutsOut overlay process cmd → m.decision ≤ fallback cmd := by
  rw [matchesForCommandWithOptions_eq, exactMatches_mergeOverlay hrules, hexact, append_nil]
  split
  · rfl
  · by_cases hshut : base.ShutsOut overlay process cmd
    · have hnone : (base.mergeOverlay overlay ruleEntries hostEntries).hostMatches process cmd
          options = [] := by
        unfold hostMatches
        rw [matchHostExecutableRules_of_shutsOut hhosts hshut, ite_self]
      rw [hnone]
      simp [hshut, RuleMatch.decision]
    · have hmem : m ∈ (base.mergeOverlay overlay ruleEntries hostEntries).hostMatches process cmd
          options := by
        unfold hostMatches at hm ⊢
        split at hm
        · next hresolve =>
          rw [if_pos hresolve]
          exact matchHostExecutableRules_mergeOverlay hhosts hrules hshut hm
        · exact absurd hm not_mem_nil
      rw [if_pos (ne_nil_of_mem hmem)]
      exact ⟨fun _ h => absurd h hshut, fun _ => ⟨m, hmem, le_rfl⟩⟩

end

/-- **When managed rules are a floor.**  For every command, the outcome under the merged policy is
    at least as strict as every match of the overlay alone just when `KeepsBasenameRules`. -/
theorem mergeOverlay_floor_iff (hrules : IterationOrder overlay.rulesByProgram ruleEntries)
    (hhosts : IterationOrder overlay.hostExecutablesByName hostEntries) (process : Process)
    (cmd : List Text) (fallback : List Text → Decision) (options : MatchOptions) :
    (∃ evaluation, (base.mergeOverlay overlay ruleEntries hostEntries).checkWithOptions process cmd
        fallback options = some evaluation ∧
      ∀ m ∈ overlay.matchesForCommandWithOptions process cmd none options,
        m.decision ≤ evaluation.decision) ↔
      base.KeepsBasenameRules overlay process cmd fallback options := by
  obtain ⟨evaluation, heval⟩ := (base.mergeOverlay overlay ruleEntries hostEntries)
    |>.exists_checkWithOptions process cmd options fallback
  have hle := le_checkWithOptions_iff _ process cmd options heval
  have hiff : (∀ m ∈ overlay.matchesForCommandWithOptions process cmd none options,
      m.decision ≤ evaluation.decision) ↔
        base.KeepsBasenameRules overlay process cmd fallback options := by
    rw [matchesForCommandWithOptions_none]
    by_cases hexact : overlay.exactMatches cmd = []
    · -- only the second tier of the overlay can match
      rw [if_neg (not_not.mpr hexact)]
      refine ⟨fun h _ m hm => ?_, fun h m hm => ?_⟩
      · rw [← exists_le_iff_of_hostMatch hhosts hrules fallback hexact hm, ← hle]
        exact h m hm
      · rw [hle, exists_le_iff_of_hostMatch hhosts hrules fallback hexact hm]
        exact h hexact m hm
    · rw [if_pos hexact]
      refine ⟨fun _ h => absurd h hexact, fun _ m hm => ?_⟩
      rw [hle]
      exact ⟨m, mem_of_exactMatch hrules process _ options hm, le_rfl⟩
  constructor
  · rintro ⟨evaluation', heval', h⟩
    obtain rfl := some.inj (heval'.symm.trans heval)
    exact hiff.mp h
  · exact fun h => ⟨evaluation, heval, hiff.mpr h⟩

/-- The rule for a command that begins with one token. -/
def tokenRule (token : Text) (decision : Decision) : PrefixRule := ⟨⟨token, []⟩, decision, none⟩

/-- A policy with one such rule. -/
def oneRule (token : Text) (decision : Decision) : Policy :=
  ⟨Finmap.singleton token [tokenRule token decision], [], ∅⟩

/-- A managed rule for `git` and a rule of the base for `git` as well: the stricter one wins. -/
theorem mergeOverlay_floor_git :
    ∃ evaluation, ((oneRule "git" .allow).mergeOverlay (oneRule "git" .forbidden)
        [("git", [tokenRule "git" .forbidden])] []).checkWithOptions ⟨none, none⟩
          ["/usr/bin/git", "push"] (fun _ => .allow) ⟨true⟩ = some evaluation ∧
      ∀ m ∈ (oneRule "git" .forbidden).matchesForCommandWithOptions ⟨none, none⟩
        ["/usr/bin/git", "push"] none ⟨true⟩, m.decision ≤ evaluation.decision := by
  refine (mergeOverlay_floor_iff (iterationOrder_singleton _ _) iterationOrder_empty _ _ _ _).mpr ?_
  intro _ m _
  have hexact : (oneRule "git" .allow).exactMatches ["/usr/bin/git", "push"] = [] := by decide
  rintro ⟨program, basename, -, -, hexcludes⟩
  exact absurd hexcludes (by simp [excludesProgram, oneRule])

/-- An exact rule of the base for `/usr/bin/git` hides the managed rule that forbids `git`. -/
theorem mergeOverlay_exact_rule_hides_forbidden :
    IterationOrder (oneRule "git" .forbidden).rulesByProgram
        [("git", [tokenRule "git" .forbidden])] ∧
      IterationOrder (oneRule "git" .forbidden).hostExecutablesByName [] ∧
      ¬ ∃ evaluation, ((oneRule "/usr/bin/git" .allow).mergeOverlay (oneRule "git" .forbidden)
          [("git", [tokenRule "git" .forbidden])] []).checkWithOptions ⟨none, none⟩
            ["/usr/bin/git", "push"] (fun _ => .allow) ⟨true⟩ = some evaluation ∧
        ∀ m ∈ (oneRule "git" .forbidden).matchesForCommandWithOptions ⟨none, none⟩
          ["/usr/bin/git", "push"] none ⟨true⟩,
            m.decision ≤ evaluation.decision := by
  refine ⟨iterationOrder_singleton _ _, iterationOrder_empty, ?_⟩
  rintro ⟨evaluation, heval, hle⟩
  have hallow : ((oneRule "/usr/bin/git" .allow).mergeOverlay
      (oneRule "git" .forbidden) [("git", [tokenRule "git" .forbidden])]
        []).checkWithOptions ⟨none, none⟩ ["/usr/bin/git", "push"]
          (fun _ => .allow) ⟨true⟩ =
      some ⟨.allow, [.prefixRuleMatch ["/usr/bin/git"] .allow none none]⟩ := by decide
  have hforbidden : RuleMatch.prefixRuleMatch ["git"] .forbidden
      (some (normalizePath (pathComponents "/usr/bin/git"))) none ∈
        (oneRule "git" .forbidden).matchesForCommandWithOptions ⟨none, none⟩
          ["/usr/bin/git", "push"] none ⟨true⟩ := by decide
  obtain rfl := some.inj (heval.symm.trans hallow)
  exact absurd (hle _ hforbidden) (by decide)

-- So does a list of the programs called `git` that leaves `/tmp/git` out.
example : (Policy.mergeOverlay
      ⟨∅, [], Finmap.singleton "git" [normalizePath (pathComponents "/usr/bin/git")]⟩
      (oneRule "git" .forbidden) [("git", [tokenRule "git" .forbidden])]
      []).checkWithOptions ⟨none, none⟩ ["/tmp/git"] (fun _ => .allow) ⟨true⟩ =
    some ⟨.allow, [.heuristicsRuleMatch ["/tmp/git"] .allow]⟩ := by decide

end Policy

end Codex.ExecPolicy
