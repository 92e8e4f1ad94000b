import Codex.ExecPolicy.RuleFile

namespace Codex.ExecPolicy

open Text List

/-!
# Network rules

* `Policy.compiledNetworkDomains` — the hosts that the network rules allow and deny;
* `NetworkRule.Compiled` — the hosts whose last rule has a decision, in the order of those rules;
* `Policy.compiledNetworkDomains_spec` — the last rule wins.
-/

/-! ### The hosts of the rules -/

def upsertDomain (entries : List Text) (host : Text) : List Text :=
  entries.filter (· ≠ host) ++ [host]

/-- One round of the loop over the rules, on the allowed and the denied hosts. -/
def compileNetworkRule (lists : List Text × List Text) (rule : NetworkRule) :
    List Text × List Text :=
  match rule.decision with
  | .allow => (upsertDomain lists.1 rule.host, lists.2.filter (· ≠ rule.host))
  | .forbidden => (lists.1.filter (· ≠ rule.host), upsertDomain lists.2 rule.host)
  | .prompt => lists

/-- The allowed and the denied hosts. -/
def Policy.compiledNetworkDomains (policy : Policy) : List Text × List Text :=
  policy.networkRules.foldl compileNetworkRule ([], [])

namespace NetworkRule

/-- The rule allows or forbids the host. -/
def decides (host : Text) (rule : NetworkRule) : Bool := rule.host = host && rule.decision ≠ .prompt

variable (rules : List NetworkRule)

/-- The decision of the last rule that decides about the host. -/
def lastDecision (host : Text) : Option Decision :=
  (rules.reverse.find? (decides host)).map decision

/-- How many rules stand behind that rule. -/
def behindLast (host : Text) : Nat := rules.reverse.findIdx (decides host)

/-- The hosts with a decision, in the order of the rules that decide. -/
structure Compiled (decision : Decision) (hosts : List Text) : Prop where
  mem : ∀ host, host ∈ hosts ↔ lastDecision rules host = some decision
  order : hosts.Pairwise fun host later => behindLast rules later < behindLast rules host

variable {rules : List NetworkRule} {rule : NetworkRule} {decision : Decision} {hosts : List Text}

section

variable (h : Compiled rules decision hosts)
include h

theorem Compiled.nodup : hosts.Nodup := h.order.imp fun hlt heq => (heq ▸ hlt).false

/-- A rule that prompts changes nothing. -/
theorem Compiled.skip (hrule : rule.decision = .prompt) :
    Compiled (rules ++ [rule]) decision hosts := by
  have hdec : ∀ host, decides host rule = false := by simp [decides, hrule]
  refine ⟨fun host => ?_, h.order.imp fun hlt => ?_⟩
  · simpa [lastDecision, hdec] using h.mem host
  · simpa [behindLast, findIdx_cons, hdec] using hlt

/-- Another rule takes its host from the list, and puts it at the end if it has the decision. -/
theorem Compiled.enter (hrule : rule.decision ≠ .prompt) :
    Compiled (rules ++ [rule]) decision (hosts.filter (· ≠ rule.host) ++
      if rule.decision = decision then [rule.host] else []) := by
  have hlast : ∀ host, lastDecision (rules ++ [rule]) host =
      if rule.host = host then some rule.decision else lastDecision rules host := by
    intro host
    by_cases hhost : rule.host = host <;> simp [lastDecision, decides, hrule, hhost]
  have hbehind : ∀ host, behindLast (rules ++ [rule]) host =
      if rule.host = host then 0 else behindLast rules host + 1 := by
    intro host
    by_cases hhost : rule.host = host <;>
      simp [behindLast, findIdx_cons, decides, hrule]
  refine ⟨fun host => ?_, pairwise_append.mpr ⟨?_, ?_, fun host hmem later hlater => ?_⟩⟩
  · have hmem := h.mem host
    rw [hlast]
    split <;> split <;> simp_all [eq_comm]
  · refine pairwise_filter.mpr (h.order.imp fun hlt hhost hlater => ?_)
    simp only [decide_eq_true_eq] at hhost hlater
    rw [hbehind, hbehind, if_neg (Ne.symm hhost), if_neg (Ne.symm hlater)]
    omega
  · split <;> simp
  · have hhost : host ≠ rule.host := by simpa using (mem_filter.mp hmem).2
    have hlater : rule.host = later := by
      split at hlater <;> simp_all
    rw [hbehind, hbehind, if_pos hlater, if_neg hhost.symm]
    omega

end

/-- **Every round** leaves both lists compiled. -/
theorem compiled_foldl (rules : List NetworkRule) :
    let lists := rules.foldl compileNetworkRule ([], [])
    Compiled rules .allow lists.1 ∧ Compiled rules .forbidden lists.2 := by
  induction rules using reverseRecOn with
  | nil => exact ⟨⟨by simp [lastDecision], .nil⟩, ⟨by simp [lastDecision], .nil⟩⟩
  | append_singleton rules rule ih =>
    obtain ⟨hallow, hdeny⟩ := ih
    rw [foldl_append, foldl_cons, compileNetworkRule]
    split
    · next hrule =>
      have hne : rule.decision ≠ .prompt := by simp [hrule]
      exact ⟨by simpa [hrule, upsertDomain] using hallow.enter hne,
        by simpa [hrule] using hdeny.enter hne⟩
    · next hrule =>
      have hne : rule.decision ≠ .prompt := by simp [hrule]
      exact ⟨by simpa [hrule] using hallow.enter hne,
        by simpa [hrule, upsertDomain] using hdeny.enter hne⟩
    · next hrule => exact ⟨hallow.skip hrule, hdeny.skip hrule⟩

end NetworkRule

/-- **The last network rule wins.**  Each list holds the hosts whose last rule that is no prompt has
    its decision, once and in the order of those rules; without the prompts the lists are the
    same. -/
theorem Policy.compiledNetworkDomains_spec (policy : Policy) :
    let lists := policy.compiledNetworkDomains
    (NetworkRule.Compiled policy.networkRules .allow lists.1 ∧ lists.1.Nodup) ∧
      (NetworkRule.Compiled policy.networkRules .forbidden lists.2 ∧ lists.2.Nodup) ∧
      lists.1.Disjoint lists.2 ∧
      lists =
        (policy.networkRules.filter (·.decision ≠ .prompt)).foldl compileNetworkRule ([], []) := by
  obtain ⟨hallow, hdeny⟩ := NetworkRule.compiled_foldl policy.networkRules
  refine ⟨⟨hallow, hallow.nodup⟩, ⟨hdeny, hdeny.nodup⟩, fun host hmem hmem' => ?_, ?_⟩
  · cases ((hallow.mem host).mp hmem).symm.trans ((hdeny.mem host).mp hmem')
  · have hround : compileNetworkRule = fun lists (rule : NetworkRule) =>
        if decide (rule.decision ≠ .prompt) then compileNetworkRule lists rule else lists := by
      funext lists rule
      cases hrule : rule.decision <;> simp [compileNetworkRule, hrule]
    simp only [Policy.compiledNetworkDomains, foldl_filter]
    rw [← hround]

end Codex.ExecPolicy
