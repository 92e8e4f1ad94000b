import Codex.ApplyPatch.StreamingParser

namespace Codex.ApplyPatch

open Text StreamingPatchParser Option List

/-!
# Parsing a whole patch

The batch parser cuts the text into lines, checks the first and the last line, takes off the
markers of a here-document if the patch was passed with them, and gives what is left to the
streaming parser.

* `parsePatch` — the batch parser;
* `streamPatch` — the raw text, given to a fresh streaming parser at once;
* `parsePatch_joinLines`, `streamPatch_joinLines` — both, on a text with given lines.
-/

/-- The first line is the begin marker, and the last line is the end marker. -/
def checkStartAndEndLinesStrict (firstLine lastLine : Option Text) : Except ParseError Unit :=
  match firstLine.map trim, lastLine.map trim with
  | some first, last =>
    if first = beginPatchMarker ∧ last = some endPatchMarker then .ok ()
    else if first ≠ beginPatchMarker then .error .firstLine
    else .error .lastLine
  | none, _ => .error .lastLine

def checkPatchBoundariesStrict (lines : List Text) : Except ParseError (List Text) := do
  checkStartAndEndLinesStrict lines.head? lines.getLast?
  return lines

/-- The lines of the patch, without the lines of a here-document around it. -/
def checkPatchBoundariesLenient (originalLines : List Text) : Except ParseError (List Text) :=
  match checkPatchBoundariesStrict originalLines with
  | .ok lines => .ok lines
  | .error originalParseError =>
    match originalLines.head?, originalLines.getLast? with
    | some first, some last =>
      if (first = "<<EOF" ∨ first = "<<'EOF'" ∨ first = "<<\"EOF\"") ∧
          "EOF" <:+ last ∧ 4 ≤ originalLines.length then
        checkPatchBoundariesStrict originalLines.tail.dropLast
      else .error originalParseError
    | _, _ => .error originalParseError

/-- Whether a here-document around the patch is accepted. -/
inductive ParseMode
  | strict
  | lenient

def parsePatchText (patch : Text) (mode : ParseMode) : Except ParseError ApplyPatchArgs := do
  let lines := lines (trim patch)
  let patchLines ← match mode with
    | .strict => checkPatchBoundariesStrict lines
    | .lenient => checkPatchBoundariesLenient lines
  let patch := joinLines patchLines
  let parser ← default.pushDelta patch
  let parser ← parser.finish
  return ⟨patch, parser.hunks, none, parser.environmentId⟩

/-- The parser used everywhere: lenient. -/
def parsePatch (patch : Text) : Except ParseError ApplyPatchArgs := parsePatchText patch .lenient

/-- A fresh streaming parser that is given the whole text, and then its end. -/
def streamPatch (text : Text) : Except ParseError StreamingPatchParser := do
  let parser ← default.pushDelta text
  parser.finish

/-! ### Texts given by their lines -/

section Lines

variable {ls : List Text} {last : Text}

theorem streamPatch_joinLines (hls : ∀ l ∈ ls, '\n' ∉ l) (hlast : '\n' ∉ last) :
    streamPatch (joinLines (ls ++ [last])) =
      ls.foldlM feedLine .default >>= fun Q => { Q with lineBuffer := last }.finish := by
  unfold streamPatch
  rw [pushDelta_joinLines rfl hls hlast]
  cases ls.foldlM feedLine .default <;> rfl

/-- The lines of a text that ends in a line, and not in a line feed. -/
theorem lines_joinLines (hls : ∀ l ∈ ls, '\n' ∉ l) (hlast : '\n' ∉ last) (hne : last ≠ []) :
    lines (joinLines (ls ++ [last])) = ls.map stripCr ++ [last] := by
  have hsplit : (joinLines (ls ++ [last])).splitOn '\n' = ls ++ [last] :=
    splitOn_intercalate '\n' (forall_mem_append.mpr ⟨hls, forall_mem_singleton.mpr hlast⟩) (by simp)
  simp [lines, hsplit, hne]

/-- A text from a begin marker to an end marker has no white space around it. -/
theorem isTrimmed_joinLines {first last : Text} {raws : List Text}
    (hfirst : stripCr first = beginPatchMarker) (hlast : last.getLast? = some 'h') :
    IsTrimmed (joinLines (first :: raws ++ [last])) := by
  have hhead : first.head? = some '*' := by
    rcases stripCr_cases first with heq | heq
    · rw [← heq, hfirst]
      rfl
    · rw [heq, hfirst]
      rfl
  constructor
  · intro c hc
    rw [joinLines_cons_concat, head?_append, hhead] at hc
    obtain rfl := some.inj hc
    rfl
  · intro c hc
    rw [joinLines_concat (by simp), getLast?_append, getLast?_cons, hlast] at hc
    obtain rfl := some.inj hc
    rfl

/-- **The batch parser on lines** that begin with the begin marker. -/
theorem parsePatch_joinLines {first : Text} (hls : ∀ l ∈ first :: ls, '\n' ∉ l)
    (hlast : '\n' ∉ last) (hne : last ≠ [])
    (htrim : trim (joinLines (first :: ls ++ [last])) = joinLines (first :: ls ++ [last]))
    (hfirst : trim (stripCr first) = beginPatchMarker) :
    parsePatch (joinLines (first :: ls ++ [last])) =
      if trim last = endPatchMarker then do
        let parser ← streamPatch (joinLines ((first :: ls).map stripCr ++ [last]))
        return ⟨joinLines ((first :: ls).map stripCr ++ [last]), parser.hunks, none,
          parser.environmentId⟩
      else .error .lastLine := by
  have hlines := lines_joinLines hls hlast hne
  have hhead : ((first :: ls).map stripCr ++ [last]).head? = some (stripCr first) := rfl
  have hlast? : ((first :: ls).map stripCr ++ [last]).getLast? = some last := getLast?_concat
  unfold parsePatch parsePatchText
  rw [htrim, hlines]
  by_cases hend : trim last = endPatchMarker
  · have hstrict : checkPatchBoundariesStrict ((first :: ls).map stripCr ++ [last]) =
        .ok ((first :: ls).map stripCr ++ [last]) := by
      simp only [checkPatchBoundariesStrict, checkStartAndEndLinesStrict, hhead, hlast?,
        map_some, hfirst, hend, true_and]
      rfl
    rw [if_pos hend]
    simp only [checkPatchBoundariesLenient, hstrict, streamPatch, bind, Except.bind]
    cases default.pushDelta (joinLines ((first :: ls).map stripCr ++ [last]))
      <;> rfl
  · -- The first line is a begin marker, so this is no here-document either.
    have hstrict : checkPatchBoundariesStrict ((first :: ls).map stripCr ++ [last]) =
        .error .lastLine := by
      simp only [checkPatchBoundariesStrict, checkStartAndEndLinesStrict, hhead, hlast?,
        map_some, hfirst, hend, some.injEq, ne_eq]
      rfl
    have hnot : ¬ (stripCr first = "<<EOF" ∨ stripCr first = "<<'EOF'" ∨
        stripCr first = "<<\"EOF\"") := by
      rintro (h | h | h) <;> (rw [h] at hfirst; revert hfirst; decide)
    rw [if_neg hend]
    simp only [checkPatchBoundariesLenient, hstrict, hhead, hlast?, hnot, false_and]
    rfl

end Lines

end Codex.ApplyPatch
