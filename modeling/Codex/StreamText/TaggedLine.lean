import Codex.Text.Basic
import Codex.Data.Stream

namespace Codex.StreamText

open Text Data List

/-!
# Tags on lines of their own

A parser of streamed text in which a tag stands alone on a line.  The beginning of a line is held
back until it is clear that the line is no tag.

* `TaggedLineParser.parse` / `finish` — the parser;
* `linesEvents` — what the lines of a text mean, each taken as a whole;
* `TaggedLineParser.computes_events` — the parser computes `linesEvents`, however the text is cut;
* `removeBlocks`, `linesEvents_normal` — the normal text is the text without the tagged blocks.
-/

/-! ### The parser -/

/-- A tag, and the lines that open and close it. -/
structure TagSpec (T : Type) where
  openTag : Text
  closeTag : Text
  tag : T

inductive TaggedLineSegment (T : Type)
  | normal (text : Text)
  | tagStart (tag : T)
  | tagDelta (tag : T) (text : Text)
  | tagEnd (tag : T)

structure TaggedLineParser (T : Type) where
  specs : List (TagSpec T)
  activeTag : Option T
  detectTag : Bool
  lineBuffer : Text

section Parser

variable {T : Type} [DecidableEq T]

/-- Append a segment, or its text to the last segment if that is of the same kind. -/
def pushSegment (segments : List (TaggedLineSegment T)) (segment : TaggedLineSegment T) :
    List (TaggedLineSegment T) :=
  match segment with
  | .normal delta =>
    if delta = [] then segments
    else
      match segments.getLast? with
      | some (.normal existing) => segments.dropLast ++ [.normal (existing ++ delta)]
      | _ => segments ++ [.normal delta]
  | .tagDelta tag delta =>
    if delta = [] then segments
    else
      match segments.getLast? with
      | some (.tagDelta existingTag existing) =>
        if existingTag = tag then segments.dropLast ++ [.tagDelta existingTag (existing ++ delta)]
        else segments ++ [.tagDelta tag delta]
      | _ => segments ++ [.tagDelta tag delta]
  | .tagStart tag => segments ++ [.tagStart tag]
  | .tagEnd tag => segments ++ [.tagEnd tag]

namespace TaggedLineParser

variable (parser : TaggedLineParser T) (specs : List (TagSpec T))

def new : TaggedLineParser T := ⟨specs, none, true, []⟩

def pushText (text : Text) (segments : List (TaggedLineSegment T)) : List (TaggedLineSegment T) :=
  match parser.activeTag with
  | some tag => pushSegment segments (.tagDelta tag text)
  | none => pushSegment segments (.normal text)

/-- The line that begins with `slug` may still be a tag. -/
def isTagPrefix (slug : Text) : Bool :=
  specs.any fun spec => trimEnd slug <+: spec.openTag || trimEnd slug <+: spec.closeTag

def matchOpen (slug : Text) : Option T := (specs.find? fun spec => spec.openTag = slug).map (·.tag)

def matchClose (slug : Text) : Option T :=
  (specs.find? fun spec => spec.closeTag = slug).map (·.tag)

/-- The line without the line feed at its end, if it has one. -/
def withoutNewline (line : Text) : Text :=
  if line.getLast? = some '\n' then line.dropLast else line

/-- A line that has been held back to its end: a tag that opens or closes a block, or text. -/
def endLine (line : Text) (segments : List (TaggedLineSegment T)) :
    TaggedLineParser T × List (TaggedLineSegment T) :=
  let slug := trimEnd (trimStart (withoutNewline line))
  -- an open tag inside of a block, and a close tag outside of its block, are text
  match matchOpen parser.specs slug, parser.activeTag with
  | some tag, none => ({ parser with activeTag := some tag }, pushSegment segments (.tagStart tag))
  | _, activeTag =>
    match matchClose parser.specs slug with
    | some tag =>
      if activeTag = some tag then
        ({ parser with activeTag := none }, pushSegment segments (.tagEnd tag))
      else (parser, parser.pushText line segments)
    | none => (parser, parser.pushText line segments)

variable (segments : List (TaggedLineSegment T))

def finishLine : TaggedLineParser T × List (TaggedLineSegment T) :=
  { parser with lineBuffer := [], detectTag := true }.endLine parser.lineBuffer segments

/-- One character of the loop of `parse`; `run` is text of the line that is no tag. -/
def parseChar (run : Text) (ch : Char) : TaggedLineParser T × List (TaggedLineSegment T) × Text :=
  if parser.detectTag then
    let segments := if run ≠ [] then parser.pushText run segments else segments
    let parser := { parser with lineBuffer := parser.lineBuffer ++ [ch] }
    if ch = '\n' then
      let (parser, segments) := parser.finishLine segments
      (parser, segments, [])
    else
      -- the line is held back as long as it may become a tag
      let slug := trimStart parser.lineBuffer
      if slug = [] || isTagPrefix parser.specs slug then (parser, segments, [])
      else
        ({ parser with lineBuffer := [], detectTag := false },
          parser.pushText parser.lineBuffer segments, [])
  else
    let run := run ++ [ch]
    if ch = '\n' then ({ parser with detectTag := true }, parser.pushText run segments, [])
    else (parser, segments, run)

def parse (delta : Text) : TaggedLineParser T × List (TaggedLineSegment T) :=
  let (parser, segments, run) := delta.foldl
    (fun (parser, segments, run) ch => parser.parseChar segments run ch) (parser, [], [])
  (parser, if run ≠ [] then parser.pushText run segments else segments)

/-- The end of the text: a line that is held back ends with it, and so does an open block. -/
def finish : TaggedLineParser T × List (TaggedLineSegment T) :=
  let (parser, segments) :=
    if parser.lineBuffer ≠ [] then
      { parser with lineBuffer := [] }.endLine parser.lineBuffer []
    else (parser, [])
  ({ parser with activeTag := none, detectTag := true },
    match parser.activeTag with
    | some tag => pushSegment segments (.tagEnd tag)
    | none => segments)

end TaggedLineParser

end Parser

/-! ### Events: segments character by character -/

/-- A segment is a sequence of such events; how text is cut into segments does not show. -/
inductive TagEvent (T : Type)
  | normal (ch : Char)
  | tagStart (tag : T)
  | tagDelta (tag : T) (ch : Char)
  | tagEnd (tag : T)

def TaggedLineSegment.events {T : Type} : TaggedLineSegment T → List (TagEvent T)
  | .normal text => text.map .normal
  | .tagStart tag => [.tagStart tag]
  | .tagDelta tag text => text.map (.tagDelta tag)
  | .tagEnd tag => [.tagEnd tag]

/-- The events of text, inside or outside of a block. -/
def textEvents {T : Type} (activeTag : Option T) (text : Text) : List (TagEvent T) :=
  match activeTag with
  | some tag => text.map (.tagDelta tag)
  | none => text.map .normal

section Events

variable {T : Type} {activeTag : Option T}

@[simp] theorem textEvents_nil : textEvents activeTag [] = [] := by
  cases activeTag <;> rfl

theorem textEvents_append (a b : Text) :
    textEvents activeTag (a ++ b) = textEvents activeTag a ++ textEvents activeTag b := by
  cases activeTag <;> simp [textEvents]

variable [DecidableEq T]

open TaggedLineSegment (events)

/-- Appending a segment appends its events. -/
theorem events_pushSegment (segments : List (TaggedLineSegment T)) (segment : TaggedLineSegment T) :
    (pushSegment segments segment).flatMap events =
      segments.flatMap events ++ segment.events := by
  cases segment with
  | normal delta =>
    unfold pushSegment
    dsimp only
    split_ifs with hdelta
    · simp [hdelta, events]
    · split
      · rename_i existing hlast
        obtain ⟨front, rfl⟩ := getLast?_eq_some_iff.mp hlast
        simp [events]
      · simp
  | tagDelta tag delta =>
    unfold pushSegment
    dsimp only
    split_ifs with hdelta
    · simp [hdelta, events]
    · split
      · rename_i existingTag existing hlast
        obtain ⟨front, rfl⟩ := getLast?_eq_some_iff.mp hlast
        split_ifs with htag
        · simp [events, htag]
        · simp
      · simp
  | tagStart | tagEnd => simp [pushSegment]

theorem events_pushText (parser : TaggedLineParser T) (text : Text)
    (segments : List (TaggedLineSegment T)) :
    (parser.pushText text segments).flatMap events =
      segments.flatMap events ++ textEvents parser.activeTag text := by
  unfold TaggedLineParser.pushText textEvents
  cases parser.activeTag <;> exact events_pushSegment _ _

end Events

/-! ### Lines -/

/-- The lines of a text with their line feeds (`str::split_inclusive`). -/
def splitInclusive : Text → List Text
  | [] => []
  | c :: s =>
    if c = '\n' then [c] :: splitInclusive s
    else
      match splitInclusive s with
      | [] => [[c]]
      | line :: lines => (c :: line) :: lines

theorem splitInclusive_of_not_mem {s : Text} (hs : '\n' ∉ s) (hne : s ≠ []) :
    splitInclusive s = [s] := by
  induction s with
  | nil => exact absurd rfl hne
  | cons c s ih =>
    simp only [mem_cons, not_or] at hs
    rw [splitInclusive, if_neg (Ne.symm hs.1)]
    cases s with
    | nil => rfl
    | cons d s => rw [ih hs.2 (by simp)]

theorem splitInclusive_line {line : Text} (hline : '\n' ∉ line) (s : Text) :
    splitInclusive (line ++ '\n' :: s) = (line ++ ['\n']) :: splitInclusive s := by
  induction line with
  | nil => simp [splitInclusive]
  | cons c line ih =>
    simp only [mem_cons, not_or] at hline
    rw [cons_append, splitInclusive, if_neg (Ne.symm hline.1), ih hline.2]
    rfl

section LineEvents

variable {T : Type} [DecidableEq T]

/-- What a whole line means: the tag of the block behind it, and its events. -/
def lineEvents (specs : List (TagSpec T)) (activeTag : Option T) (line : Text) :
    Option T × List (TagEvent T) :=
  match TaggedLineParser.matchOpen specs (trim line), activeTag with
  | some tag, none => (some tag, [.tagStart tag])
  | _, activeTag =>
    match TaggedLineParser.matchClose specs (trim line) with
    | some tag =>
      if activeTag = some tag then (none, [.tagEnd tag])
      else (activeTag, textEvents activeTag line)
    | none => (activeTag, textEvents activeTag line)

/-- What the end of the text means: a block that is open is closed. -/
def endEvents (activeTag : Option T) : List (TagEvent T) :=
  match activeTag with
  | some tag => [.tagEnd tag]
  | none => []

/-- What a sequence of lines means. -/
def linesEvents (specs : List (TagSpec T)) (activeTag : Option T) : List Text → List (TagEvent T)
  | [] => endEvents activeTag
  | line :: lines =>
    (lineEvents specs activeTag line).2 ++
      linesEvents specs (lineEvents specs activeTag line).1 lines

/-- What the rest of a text means if the line it begins in is no tag. -/
def restEvents (specs : List (TagSpec T)) (activeTag : Option T) : Text → List (TagEvent T)
  | [] => endEvents activeTag
  | c :: s =>
    textEvents activeTag [c] ++ if c = '\n' then linesEvents specs activeTag (splitInclusive s)
      else restEvents specs activeTag s

/-- A line that begins with `slug`, behind white space, is no tag. -/
def NoTag (specs : List (TagSpec T)) (line : Text) : Prop :=
  trimStart line ≠ [] ∧ TaggedLineParser.isTagPrefix specs (trimStart line) = false

variable {specs : List (TagSpec T)} {activeTag : Option T} {line : Text}

omit [DecidableEq T] in
/-- What goes on as no tag is no tag. -/
theorem NoTag.append (h : NoTag specs line) (s : Text) : NoTag specs (line ++ s) := by
  obtain ⟨hne, hpre⟩ := h
  obtain ⟨w, hline, hw⟩ := trimStart_append_ws line
  have hstart : trimStart (line ++ s) = trimStart line ++ s := by
    conv_lhs => rw [hline, append_assoc, trimStart_append_of_ws _ _ hw]
    apply trimStart_eq_self
    rw [head?_append_of_ne_nil _ hne]
    exact trimStart_head line
  refine ⟨by simp [hstart, hne], ?_⟩
  -- What is no prefix of a tag does not become one by going on.
  have hmono := trimEnd_prefix_append (trimStart line) s
  rw [hstart]
  simp only [TaggedLineParser.isTagPrefix, any_eq_false, Bool.or_eq_true,
    decide_eq_true_eq, not_or] at hpre ⊢
  exact fun spec hspec => ⟨fun h => (hpre spec hspec).1 (hmono.trans h),
    fun h => (hpre spec hspec).2 (hmono.trans h)⟩

theorem NoTag.lineEvents_eq (h : NoTag specs line) :
    lineEvents specs activeTag line = (activeTag, textEvents activeTag line) := by
  obtain ⟨-, hpre⟩ := h
  simp only [TaggedLineParser.isTagPrefix, any_eq_false, Bool.or_eq_true,
    decide_eq_true_eq, not_or] at hpre
  -- a line that trims to a tag would begin like it
  have hopen : TaggedLineParser.matchOpen specs (trim line) = none := by
    rw [TaggedLineParser.matchOpen, Option.map_eq_none_iff, find?_eq_none]
    intro spec hspec htag
    simp only [decide_eq_true_eq] at htag
    exact (hpre spec hspec).1 (htag ▸ prefix_rfl)
  have hclose : TaggedLineParser.matchClose specs (trim line) = none := by
    rw [TaggedLineParser.matchClose, Option.map_eq_none_iff, find?_eq_none]
    intro spec hspec htag
    simp only [decide_eq_true_eq] at htag
    exact (hpre spec hspec).2 (htag ▸ prefix_rfl)
  simp [lineEvents, hopen, hclose]

/-- **A line that is no tag** is text from its beginning on, however it ends. -/
theorem NoTag.linesEvents_eq (h : NoTag specs line) (hline : '\n' ∉ line) (s : Text) :
    linesEvents specs activeTag (splitInclusive (line ++ s)) =
      textEvents activeTag line ++ restEvents specs activeTag s := by
  -- `line` grows by the characters of `s` until the line feed
  induction s generalizing line with
  | nil =>
    have hne : line ≠ [] := by
      rintro rfl
      exact h.1 rfl
    rw [append_nil, splitInclusive_of_not_mem hline hne, linesEvents, h.lineEvents_eq]
    rfl
  | cons c s ih =>
    by_cases hc : c = '\n'
    · subst hc
      rw [splitInclusive_line hline, linesEvents, (h.append ['\n']).lineEvents_eq, restEvents,
        if_pos rfl, textEvents_append, append_assoc]
    · have happend : line ++ c :: s = (line ++ [c]) ++ s := by simp
      rw [happend, ih (h.append [c]) (by simp [hline, Ne.symm hc]), textEvents_append,
        append_assoc, restEvents, if_neg hc]

end LineEvents

/-! ### What the parser computes -/

namespace TaggedLineParser

variable {T : Type} [DecidableEq T] {parser : TaggedLineParser T}

theorem trim_withoutNewline (line : Text) :
    trimEnd (trimStart (withoutNewline line)) = trim line := by
  unfold withoutNewline
  split_ifs with hlast
  · obtain ⟨front, rfl⟩ := getLast?_eq_some_iff.mp hlast
    rw [dropLast_concat]
    exact (trim_concat_of (by decide)).symm
  · rfl

/-- A line that has been held back to its end is taken for what it is. -/
theorem endLine_eq (parser : TaggedLineParser T) (line : Text)
    (segments : List (TaggedLineSegment T)) :
    (parser.endLine line segments).1 =
        { parser with activeTag := (lineEvents parser.specs parser.activeTag line).1 } ∧
      (parser.endLine line segments).2.flatMap TaggedLineSegment.events =
        segments.flatMap TaggedLineSegment.events ++
          (lineEvents parser.specs parser.activeTag line).2 := by
  unfold endLine lineEvents
  rw [trim_withoutNewline]
  dsimp only
  split
  · rename_i tag _ _
    exact ⟨rfl, events_pushSegment segments (.tagStart tag)⟩
  · split
    · rename_i tag _
      split_ifs
      · exact ⟨rfl, events_pushSegment segments (.tagEnd tag)⟩
      · exact ⟨rfl, events_pushText _ _ _⟩
    · exact ⟨rfl, events_pushText _ _ _⟩

/-- A line is held back up to its line feed, and nothing of a line that is no tag is. -/
structure Steady (parser : TaggedLineParser T) : Prop where
  noNewline : '\n' ∉ parser.lineBuffer
  buffered : parser.detectTag = false → parser.lineBuffer = []

/-- What the parser makes of the rest of the text. -/
def meaning (parser : TaggedLineParser T) (rest : Text) : List (TagEvent T) :=
  if parser.detectTag then
    linesEvents parser.specs parser.activeTag (splitInclusive (parser.lineBuffer ++ rest))
  else restEvents parser.specs parser.activeTag rest

/-- The segments so far, and the text that belongs to the next one. -/
def observed (state : TaggedLineParser T × List (TaggedLineSegment T) × Text) : List (TagEvent T) :=
  state.2.1.flatMap TaggedLineSegment.events ++ textEvents state.1.activeTag state.2.2

/-- **One character** is taken for what it is. -/
theorem parseChar_meaning {segments : List (TaggedLineSegment T)} {run : Text} {ch : Char}
    (h : Steady parser) (hrun : parser.detectTag → run = []) (rest : Text) :
    observed (parser.parseChar segments run ch) ++
        (parser.parseChar segments run ch).1.meaning rest =
        observed (parser, segments, run) ++ parser.meaning (ch :: rest) ∧
      Steady (parser.parseChar segments run ch).1 ∧
      ((parser.parseChar segments run ch).1.detectTag →
        (parser.parseChar segments run ch).2.2 = []) := by
  unfold parseChar
  cases hdetect : parser.detectTag with
  | true =>
    obtain rfl := hrun hdetect
    simp only [if_true, ne_eq, not_true_eq_false, if_false]
    -- the line ends, is held back, or turns out to be no tag
    split_ifs with hch hslug
    · -- The line is complete.
      subst hch
      obtain ⟨hparser, hevents⟩ := endLine_eq
        { parser with lineBuffer := [], detectTag := true } (parser.lineBuffer ++ ['\n']) segments
      dsimp only [finishLine] at hparser hevents ⊢
      rw [hparser]
      refine ⟨?_, ⟨not_mem_nil, fun _ => rfl⟩, fun _ => rfl⟩
      simp only [observed, meaning, hevents, hdetect, if_true, textEvents_nil, append_nil,
        nil_append]
      rw [splitInclusive_line h.noNewline, linesEvents, append_assoc]
    · -- It may still become a tag.
      refine ⟨?_, ⟨?_, fun hfalse => ?_⟩, fun _ => rfl⟩
      · simp only [observed, meaning, hdetect, textEvents_nil, append_nil]
        rw [append_assoc]
        rfl
      · simp [h.noNewline, Ne.symm hch]
      · cases hfalse
    · -- It is no tag, and everything held back is text.
      simp only [Bool.or_eq_true, decide_eq_true_eq, not_or, Bool.not_eq_true] at hslug
      have hno : NoTag parser.specs (parser.lineBuffer ++ [ch]) := hslug
      have hnewline : '\n' ∉ parser.lineBuffer ++ [ch] := by simp [h.noNewline, Ne.symm hch]
      refine ⟨?_, ⟨not_mem_nil, fun _ => rfl⟩, fun _ => rfl⟩
      have happend : parser.lineBuffer ++ ch :: rest = (parser.lineBuffer ++ [ch]) ++ rest :=
        append_cons _ _ _
      simp only [observed, meaning, hdetect, if_true, Bool.false_eq_true, if_false, textEvents_nil,
        append_nil, events_pushText]
      rw [happend, hno.linesEvents_eq hnewline, append_assoc]
  | false =>
    simp only [Bool.false_eq_true, if_false]
    split_ifs with hch
    · refine ⟨?_, ⟨h.noNewline, fun hfalse => by cases hfalse⟩, fun _ => rfl⟩
      simp only [observed, meaning, hdetect, Bool.false_eq_true, if_false, textEvents_nil,
        events_pushText, h.buffered hdetect, nil_append, restEvents, hch,
        textEvents_append, append_assoc]
    · refine ⟨?_, h, fun htrue => by cases hdetect.symm.trans htrue⟩
      simp only [observed, meaning, hdetect, Bool.false_eq_true, if_false, restEvents, hch,
        textEvents_append, append_assoc]

theorem foldl_parseChar_meaning (delta : Text) {segments : List (TaggedLineSegment T)} {run : Text}
    (h : Steady parser) (hrun : parser.detectTag → run = []) (rest : Text) :
    let state := delta.foldl (fun (parser, segments, run) ch => parser.parseChar segments run ch)
      (parser, segments, run)
    observed state ++ state.1.meaning rest =
        observed (parser, segments, run) ++ parser.meaning (delta ++ rest) ∧ Steady state.1 := by
  -- what has been observed and what is still to come add up to the same all the time
  induction delta generalizing parser segments run with
  | nil => exact ⟨rfl, h⟩
  | cons ch delta ih =>
    obtain ⟨hmeaning, hsteady, hrun'⟩ :=
      @parseChar_meaning T _ parser segments run ch h hrun (delta ++ rest)
    obtain ⟨hrest, hsteady'⟩ := ih hsteady hrun'
    refine ⟨?_, hsteady'⟩
    rw [cons_append, ← hmeaning]
    exact hrest

theorem parse_meaning (h : Steady parser) (delta rest : Text) :
    parser.meaning (delta ++ rest) =
        (parser.parse delta).2.flatMap TaggedLineSegment.events ++
          (parser.parse delta).1.meaning rest ∧
      Steady (parser.parse delta).1 := by
  obtain ⟨hmeaning, hsteady⟩ :=
    @foldl_parseChar_meaning T _ parser delta [] [] h (fun _ => rfl) rest
  unfold parse
  generalize delta.foldl (fun (parser, segments, run) ch => parser.parseChar segments run ch)
    (parser, [], []) = state at hmeaning hsteady ⊢
  obtain ⟨parser', segments, run⟩ := state
  refine ⟨?_, hsteady⟩
  have hobserved : (if run ≠ [] then parser'.pushText run segments else segments).flatMap
      TaggedLineSegment.events = observed (parser', segments, run) := by
    split_ifs with hrun
    · exact events_pushText parser' run segments
    · rw [not_not] at hrun
      simp [observed, hrun]
  rw [hobserved, hmeaning]
  simp [observed]

theorem events_finish (h : Steady parser) :
    parser.finish.2.flatMap TaggedLineSegment.events = parser.meaning [] := by
  unfold finish
  -- What is behind the last line: the open block ends.
  have hend : ∀ (activeTag : Option T) (segments : List (TaggedLineSegment T)),
      (match activeTag with
        | some tag => pushSegment segments (.tagEnd tag)
        | none => segments).flatMap TaggedLineSegment.events =
        segments.flatMap TaggedLineSegment.events ++ endEvents activeTag := by
    intro activeTag segments
    cases activeTag with
    | none => exact (append_nil _).symm
    | some tag => exact events_pushSegment segments (.tagEnd tag)
  -- a line that is held back at the end counts as a whole line
  by_cases hbuffer : parser.lineBuffer = []
  · simp only [hbuffer, ne_eq, not_true_eq_false, if_false, hend]
    unfold meaning
    split_ifs
    · rw [hbuffer]
      rfl
    · rfl
  · obtain ⟨hparser, hevents⟩ := endLine_eq { parser with lineBuffer := [] } parser.lineBuffer []
    have hdetect : parser.detectTag := by
      by_contra hnot
      exact hbuffer (h.buffered (by simpa using hnot))
    have hmeaning : parser.meaning [] =
        (lineEvents parser.specs parser.activeTag parser.lineBuffer).2 ++
          endEvents (lineEvents parser.specs parser.activeTag parser.lineBuffer).1 := by
      rw [meaning, if_pos hdetect, append_nil, splitInclusive_of_not_mem h.noNewline hbuffer]
      rfl
    rw [hmeaning]
    simp only [ne_eq, hbuffer, not_false_eq_true, if_true, hend, hparser, hevents,
      flatMap_nil, nil_append]

/-- The parser as a stream parser. -/
def stream (T : Type) [DecidableEq T] :
    StreamParser (TaggedLineParser T) Char (List (TaggedLineSegment T)) where
  push := parse
  finish parser := parser.finish.2

/-- **However the text is cut,** the segments say what the lines mean. -/
theorem computes_events :
    (stream T).Computes Steady (flatMap TaggedLineSegment.events) meaning where
  invariant _ chunk h := (parse_meaning h chunk []).2
  push _ chunk rest h := (parse_meaning h chunk rest).1
  finish _ h := events_finish h

end TaggedLineParser

/-! ### The text without the blocks -/

/-- The lines without the blocks from a line that trims to `openTag` to the next one that trims to
    `closeTag`; a block that is not closed goes to the end.  `inside` says whether the lines begin
    inside a block. -/
def removeBlocks (openTag closeTag : Text) : (inside : Bool) → List Text → Text
  | _, [] => []
  | false, line :: lines =>
    if trim line = openTag then removeBlocks openTag closeTag true lines
    else line ++ removeBlocks openTag closeTag false lines
  | true, line :: lines =>
    if trim line = closeTag then removeBlocks openTag closeTag false lines
    else removeBlocks openTag closeTag true lines

/-- The character of normal text. -/
def TagEvent.normal? {T : Type} : TagEvent T → Option Char
  | .normal ch => some ch
  | _ => none

section Normal

variable {T : Type} [DecidableEq T]

omit [DecidableEq T] in
theorem textEvents_normal (activeTag : Option T) (text : Text) :
    (textEvents activeTag text).filterMap TagEvent.normal? =
      if activeTag = none then text else [] := by
  cases activeTag with
  | none =>
    simp only [textEvents, filterMap_map, if_true]
    exact filterMap_some
  | some tag => simp [textEvents, filterMap_map, Function.comp_def, TagEvent.normal?]

/-- **The normal text** of a parser for one tag is the text without the blocks of the tag. -/
theorem linesEvents_normal (spec : TagSpec T) {activeTag : Option T}
    (h : activeTag = none ∨ activeTag = some spec.tag) (lines : List Text) :
    (linesEvents [spec] activeTag lines).filterMap TagEvent.normal? =
      removeBlocks spec.openTag spec.closeTag activeTag.isSome lines := by
  induction lines generalizing activeTag with
  | nil => rcases h with rfl | rfl <;> rfl
  | cons line lines ih =>
    rw [linesEvents, filterMap_append]
    -- outside of a block only the open tag matters, inside only the close tag
    rcases h with rfl | rfl
    · by_cases hopen : trim line = spec.openTag
      · have hline : lineEvents [spec] none line = (some spec.tag, [.tagStart spec.tag]) := by
          simp [lineEvents, TaggedLineParser.matchOpen, hopen]
        rw [hline, ih (.inr rfl), Option.isSome_none, removeBlocks, if_pos hopen]
        rfl
      · have hline : lineEvents [spec] none line = (none, textEvents none line) := by
          simp only [lineEvents, TaggedLineParser.matchOpen, find?_singleton,
            decide_eq_true_eq, Ne.symm hopen, if_false, Option.map_none]
          split
          · simp
          · rfl
        rw [hline, ih (.inl rfl), textEvents_normal, if_pos rfl, Option.isSome_none, removeBlocks,
          if_neg hopen]
    · by_cases hclose : trim line = spec.closeTag
      · have hline : lineEvents [spec] (some spec.tag) line = (none, [.tagEnd spec.tag]) := by
          simp [lineEvents, TaggedLineParser.matchClose, hclose]
        rw [hline, ih (.inl rfl), Option.isSome_some, removeBlocks, if_pos hclose]
        rfl
      · have hline : lineEvents [spec] (some spec.tag) line =
            (some spec.tag, textEvents (some spec.tag) line) := by
          simp [lineEvents, TaggedLineParser.matchClose, Ne.symm hclose]
        rw [hline, ih (.inr rfl), textEvents_normal, Option.isSome_some, removeBlocks,
          if_neg hclose]
        rfl

end Normal

/-! ### No segment without text -/

/-- A segment of text has text. -/
def TaggedLineSegment.Full {T : Type} : TaggedLineSegment T → Prop
  | .normal text => text ≠ []
  | .tagDelta _ text => text ≠ []
  | _ => True

/-- All segments of text have text. -/
def AllFull {T : Type} (segments : List (TaggedLineSegment T)) : Prop :=
  ∀ segment ∈ segments, segment.Full

section Full

variable {T : Type} [DecidableEq T] {segments : List (TaggedLineSegment T)}

omit [DecidableEq T] in
theorem AllFull.concat (h : AllFull segments) {segment : TaggedLineSegment T}
    (hsegment : segment.Full) : AllFull (segments ++ [segment]) :=
  forall_mem_append.mpr ⟨h, forall_mem_singleton.mpr hsegment⟩

omit [DecidableEq T] in
theorem AllFull.dropLast (h : AllFull segments) : AllFull segments.dropLast :=
  fun s hs => h s (dropLast_subset segments hs)

theorem AllFull.pushSegment (h : AllFull segments) (segment : TaggedLineSegment T) :
    AllFull (pushSegment segments segment) := by
  cases segment with
  | normal delta =>
    unfold StreamText.pushSegment
    dsimp only
    split_ifs with hdelta
    · exact h
    · split
      · exact h.dropLast.concat (by simp [TaggedLineSegment.Full, hdelta])
      · exact h.concat hdelta
  | tagDelta tag delta =>
    unfold StreamText.pushSegment
    dsimp only
    split_ifs with hdelta
    · exact h
    · split
      · split_ifs
        · exact h.dropLast.concat (by simp [TaggedLineSegment.Full, hdelta])
        · exact h.concat hdelta
      · exact h.concat hdelta
  | tagStart | tagEnd => exact h.concat trivial

namespace TaggedLineParser

variable (parser : TaggedLineParser T)

theorem pushText_full (text : Text) (h : AllFull segments) :
    AllFull (parser.pushText text segments) := by
  unfold pushText
  cases parser.activeTag <;> exact h.pushSegment _

theorem endLine_full (line : Text) (h : AllFull segments) :
    AllFull (parser.endLine line segments).2 := by
  unfold endLine
  dsimp only
  split
  · rename_i tag _ _
    exact h.pushSegment (.tagStart tag)
  · split
    · rename_i tag _
      split_ifs
      · exact h.pushSegment (.tagEnd tag)
      · exact pushText_full parser line h
    · exact pushText_full parser line h

theorem parseChar_full (run : Text) (ch : Char) (h : AllFull segments) :
    AllFull (parser.parseChar segments run ch).2.1 := by
  have htext : AllFull (if run ≠ [] then parser.pushText run segments else segments) := by
    split_ifs
    · exact pushText_full parser run h
    · exact h
  unfold parseChar
  dsimp only
  generalize (if run ≠ [] then parser.pushText run segments else segments) = text at htext ⊢
  split_ifs
  · exact endLine_full _ _ htext
  · exact htext
  · exact pushText_full _ _ htext
  · exact pushText_full _ _ h
  · exact h

theorem parse_full (delta : Text) : AllFull (parser.parse delta).2 := by
  -- the induction is over the characters, from any state
  have hrun : ∀ (state : TaggedLineParser T × List (TaggedLineSegment T) × Text),
      AllFull state.2.1 → AllFull (delta.foldl
        (fun (parser, segments, run) ch => parser.parseChar segments run ch) state).2.1 := by
    induction delta with
    | nil => exact fun _ h => h
    | cons ch delta ih => exact fun state h => ih _ (parseChar_full state.1 state.2.2 ch h)
  unfold parse
  have hsegments := hrun (parser, [], []) (fun _ h => absurd h not_mem_nil)
  dsimp only
  split_ifs
  · exact pushText_full _ _ hsegments
  · exact hsegments

theorem finish_full : AllFull parser.finish.2 := by
  have hnil : AllFull ([] : List (TaggedLineSegment T)) := fun _ h => absurd h not_mem_nil
  unfold finish
  dsimp only
  split_ifs
  · split
    · exact (endLine_full _ _ hnil).pushSegment _
    · exact endLine_full _ _ hnil
  · split
    · exact hnil.pushSegment _
    · exact hnil

end TaggedLineParser

end Full

end Codex.StreamText
