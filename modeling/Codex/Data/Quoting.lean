import Mathlib

namespace Codex.Data

/-!
# Words and quotes of a shell

A text is cut into words at blanks that are not quoted, and the quotes are removed.  Single quotes
keep everything, double quotes keep everything but expansions and some uses of the backslash, and
outside quotes a backslash keeps one character.  What a shell does with other characters is not
described: where one has a meaning of its own, there is no result.

* `Lexis` — which characters that are;
* `scanWords` — the words of a text, in the middle of a word and of quotes.
-/

/-- The characters that have a meaning of their own. -/
structure Lexis where
  /-- Between words. -/
  isBlank : Char → Bool
  /-- Outside quotes. -/
  isSpecial : Char → Bool
  /-- Inside double quotes. -/
  isExpansion : Char → Bool

/-- Where in a text the scanner is. -/
inductive QuoteMode
  | plain
  /-- Behind a backslash outside quotes. -/
  | escaped
  | single
  | double
  /-- Behind a backslash inside double quotes. -/
  | doubleEscaped

/-- The characters that a backslash keeps inside double quotes. -/
def isDoubleEscapable (c : Char) : Bool := c = '$' || c = '`' || c = '"' || c = '\\'

/-- The words of a text, where `word` is the part of the current word that was read, if there is
    one. -/
def scanWords (lexis : Lexis) :
    QuoteMode → Option (List Char) → List Char → Option (List (List Char))
  | .plain, word, [] => some word.toList
  | _, _, [] => none
  | .plain, word, c :: rest =>
    if c = '\'' then scanWords lexis .single (some (word.getD [])) rest
    else if c = '"' then scanWords lexis .double (some (word.getD [])) rest
    else if c = '\\' then scanWords lexis .escaped word rest
    else if lexis.isBlank c then (scanWords lexis .plain none rest).map (word.toList ++ ·)
    else if lexis.isSpecial c then none
    else scanWords lexis .plain (some (word.getD [] ++ [c])) rest
  | .escaped, word, c :: rest =>
    -- a backslash in front of a newline continues the line
    if c = '\n' then scanWords lexis .plain word rest
    else scanWords lexis .plain (some (word.getD [] ++ [c])) rest
  | .single, word, c :: rest =>
    if c = '\'' then scanWords lexis .plain word rest
    else scanWords lexis .single (some (word.getD [] ++ [c])) rest
  | .double, word, c :: rest =>
    if c = '"' then scanWords lexis .plain word rest
    else if c = '\\' then scanWords lexis .doubleEscaped word rest
    else if lexis.isExpansion c then none
    else scanWords lexis .double (some (word.getD [] ++ [c])) rest
  | .doubleEscaped, word, c :: rest =>
    if c = '\n' then scanWords lexis .double word rest
    else if isDoubleEscapable c then scanWords lexis .double (some (word.getD [] ++ [c])) rest
    else scanWords lexis .double (some (word.getD [] ++ ['\\', c])) rest

variable {lexis : Lexis} (word : Option (List Char)) (rest : List Char)

theorem scanWords_quote :
    scanWords lexis .plain word ('\'' :: rest) =
      scanWords lexis .single (some (word.getD [])) rest := by
  rw [scanWords, if_pos rfl]

theorem scanWords_single_quote :
    scanWords lexis .single word ('\'' :: rest) = scanWords lexis .plain word rest := by
  rw [scanWords, if_pos rfl]

theorem scanWords_single_cons {c : Char} (hc : c ≠ '\'') (word : List Char) (rest : List Char) :
    scanWords lexis .single (some word) (c :: rest) =
      scanWords lexis .single (some (word ++ [c])) rest := by
  rw [scanWords, if_neg hc]
  rfl

/-- A quote that a backslash keeps. -/
theorem scanWords_escaped_quote (word : List Char) (rest : List Char) :
    scanWords lexis .plain (some word) ('\\' :: '\'' :: rest) =
      scanWords lexis .plain (some (word ++ ['\''])) rest := by
  simp [scanWords]

theorem scanWords_blank (hblank : lexis.isBlank ' ') (word : Option (List Char))
    (rest : List Char) :
    scanWords lexis .plain word (' ' :: rest) =
      (scanWords lexis .plain none rest).map (word.toList ++ ·) := by
  simp [scanWords, hblank]

end Codex.Data
