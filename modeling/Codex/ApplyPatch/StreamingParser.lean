import Codex.ApplyPatch.Patch

namespace Codex.ApplyPatch

open Text UpdateFileChunk List Option

/-!
# The streaming patch parser

The parser takes characters, and works on a line when its line feed arrives.  What a line
means depends on the mode the parser is in, and on the hunk it is building.

* `StreamingPatchParser.processLine` — one line;
* `StreamingPatchParser.pushDelta` / `finish` — characters, and the end of the text;
* `pushDelta_joinLines` — a text is worked on line by line, and its last line stays in the
  buffer.
-/

/-! ### Markers and errors -/

def beginPatchMarker : Text := "*** Begin Patch"
def endPatchMarker : Text := "*** End Patch"
def addFileMarker : Text := "*** Add File: "
def deleteFileMarker : Text := "*** Delete File: "
def updateFileMarker : Text := "*** Update File: "
def moveToMarker : Text := "*** Move to: "
def eofMarker : Text := "*** End of File"
def changeContextMarker : Text := "@@ "
def emptyChangeContextMarker : Text := "@@"
def environmentIdMarker : Text := "*** Environment ID:"

/-- Why a text is not a patch. -/
inductive ParseError
  | invalidPatchError (message : Text)
  | invalidHunkError (message : Text) (lineNumber : Nat)
deriving DecidableEq

namespace ParseError

def firstLine : ParseError :=
  .invalidPatchError "The first line of the patch must be '*** Begin Patch'"

def lastLine : ParseError := .invalidPatchError "The last line of the patch must be '*** End Patch'"

def hunkHeader (trimmed : Text) : Nat → ParseError :=
  .invalidHunkError (['\x27'] ++ trimmed ++ ("' is not a valid hunk header. Valid hunk headers: " ++
    "'*** Add File: \x7bpath\x7d', '*** Delete File: \x7bpath\x7d', " ++
    "'*** Update File: \x7bpath\x7d'").toList)

def emptyHunk (path : Text) : Nat → ParseError :=
  .invalidHunkError ("Update file hunk for path '" ++ path ++ "' is empty")

def noLines : Nat → ParseError := .invalidHunkError "Update hunk does not contain any lines"

def unexpectedLine (line : Text) : Nat → ParseError :=
  .invalidHunkError ("Unexpected line found in update hunk: '" ++ line ++
    ("'. Every line should start with ' ' (context line), '+' (added line), " ++
    "or '-' (removed line)").toList)

def expectedContext (line : Text) : Nat → ParseError := .invalidHunkError
    ("Expected update hunk to start with a @@ context marker, got: '" ++ line ++ ['\x27'])

end ParseError

/-! ### The parser -/

/-- What the parser is in the middle of. -/
inductive StreamingParserMode
  | notStarted
  | startedPatch
  | addFile
  | deleteFile
  | updateFile (hunkLineNumber : Nat)
  | endedPatch
deriving DecidableEq

/-- The state of the parser. -/
structure StreamingPatchParser where
  lineBuffer : Text
  mode : StreamingParserMode
  hunks : List Hunk
  environmentId : Option Text
  lineNumber : Nat
deriving DecidableEq

/-- A parser that has seen nothing. -/
def StreamingPatchParser.default : StreamingPatchParser := ⟨[], .notStarted, [], none, 0⟩

/-- The chunk has neither old nor new lines. -/
def UpdateFileChunk.isBlank (chunk : UpdateFileChunk) : Bool :=
  chunk.oldLines.isEmpty && chunk.newLines.isEmpty

/-- The last chunk satisfies `f`. -/
def lastChunk (f : UpdateFileChunk → Bool) (chunks : List UpdateFileChunk) : Bool :=
  chunks.getLast?.any f

/-- Add lines to the last chunk, which is begun if there is none. -/
def pushLines (chunks : List UpdateFileChunk) (old new : List Text) : List UpdateFileChunk :=
  match chunks.getLast? with
  | none => [⟨none, old, new, false⟩]
  | some chunk =>
    chunks.dropLast ++
      [{ chunk with oldLines := chunk.oldLines ++ old, newLines := chunk.newLines ++ new }]

/-- Mark the last chunk as one at the end of the file. -/
def markEndOfFile (chunks : List UpdateFileChunk) : List UpdateFileChunk :=
  match chunks.getLast? with
  | none => []
  | some chunk => chunks.dropLast ++ [{ chunk with isEndOfFile := true }]

/-- A line of an update hunk that is no header: the new move path and chunks of the hunk. -/
def updateHunkLine (lineNumber : Nat) (movePath : Option Text) (chunks : List UpdateFileChunk)
    (line : Text) : Except ParseError (Option Text × List UpdateFileChunk) :=
  let updateLine := trimEnd line
  let startsChunk : Bool :=
    updateLine = emptyChangeContextMarker || (stripPrefix changeContextMarker updateLine).isSome
  let atEndOfFile := lastChunk isEndOfFile chunks
  let blank := lastChunk isBlank chunks
  -- a chunk at the end of the file takes no more lines, only another chunk can follow
  if atEndOfFile && updateLine = [] then .ok (movePath, chunks)
  else if atEndOfFile && !startsChunk then .error (.expectedContext line lineNumber)
  else
    -- a move is announced before the first chunk, and once
    match (if chunks = [] ∧ movePath = none then stripPrefix moveToMarker updateLine else none) with
    | some moveToPath => .ok (some moveToPath, chunks)
    | none =>
      -- the chunk before has no lines yet
      if startsChunk && blank then .error (.unexpectedLine line lineNumber)
      else if updateLine = emptyChangeContextMarker then
        .ok (movePath, chunks ++ [⟨none, [], [], false⟩])
      else
        match stripPrefix changeContextMarker updateLine with
        | some changeContext => .ok (movePath, chunks ++ [⟨some changeContext, [], [], false⟩])
        | none =>
          if updateLine = eofMarker then
            if blank then .error (.noLines lineNumber) else .ok (movePath, markEndOfFile chunks)
          else
            -- markers are looked for in the trimmed line, content is taken from the line as it is
            match line with
            | [] => .ok (movePath, pushLines chunks [[]] [[]])
            | ' ' :: text => .ok (movePath, pushLines chunks [text] [text])
            | '+' :: text => .ok (movePath, pushLines chunks [] [text])
            | '-' :: text => .ok (movePath, pushLines chunks [text] [])
            | _ =>
              if lastChunk (fun chunk => !chunk.isBlank) chunks then
                .error (.expectedContext line lineNumber)
              else .error (.unexpectedLine line lineNumber)

namespace StreamingPatchParser

variable (parser : StreamingPatchParser)

variable (line : Text)

/-- An update hunk has chunks, and its last chunk has lines. -/
def ensureUpdateHunkIsNotEmpty : Except ParseError Unit :=
  match parser.hunks.getLast? with
  | some (.updateFile path _ chunks) =>
    match chunks, parser.mode with
    | [], .updateFile hunkLineNumber => .error (.emptyHunk path hunkLineNumber)
    | chunks, _ =>
      if lastChunk isBlank chunks then
        -- the message depends on what comes instead of the lines
        if line = endPatchMarker then .error (.noLines parser.lineNumber)
        else .error (.unexpectedLine line parser.lineNumber)
      else .ok ()
  | _ => .ok ()

/-- Begin a new hunk. -/
def pushHunk (mode : StreamingParserMode) (hunk : Hunk) : StreamingPatchParser :=
  { parser with mode := mode, hunks := parser.hunks ++ [hunk] }

/-- Lines that mean the same in every mode but the first and last; `none` for other lines. -/
def handleHunkHeadersAndEndPatch (trimmed : Text) :
    Except ParseError (Option StreamingPatchParser) := do
  -- the environment is named between the begin marker and the first hunk
  match (if parser.mode = .startedPatch then stripPrefix environmentIdMarker trimmed else none) with
  | some environmentId =>
    if parser.environmentId.isSome then
      throw (.invalidPatchError
        "apply_patch environment_id cannot be specified more than once")
    else if trim environmentId = [] then
      throw (.invalidPatchError "apply_patch environment_id cannot be empty")
    else return some { parser with environmentId := some (trim environmentId) }
  | none =>
    if trimmed = endPatchMarker then
      parser.ensureUpdateHunkIsNotEmpty trimmed
      return some { parser with mode := .endedPatch }
    else
      match stripPrefix addFileMarker trimmed with
      | some path =>
        parser.ensureUpdateHunkIsNotEmpty trimmed
        return some (parser.pushHunk .addFile (.addFile path []))
      | none =>
        match stripPrefix deleteFileMarker trimmed with
        | some path =>
          parser.ensureUpdateHunkIsNotEmpty trimmed
          return some (parser.pushHunk .deleteFile (.deleteFile path))
        | none =>
          match stripPrefix updateFileMarker trimmed with
          | some path =>
            parser.ensureUpdateHunkIsNotEmpty trimmed
            return some
              (parser.pushHunk (.updateFile parser.lineNumber) (.updateFile path none []))
          | none => return none

/-- Replace the last hunk. -/
def setLastHunk (hunk : Hunk) : StreamingPatchParser :=
  { parser with hunks := parser.hunks.dropLast ++ [hunk] }

/-- A line of an added file that is no header. -/
def addFileLine : Except ParseError StreamingPatchParser :=
  match line, parser.hunks.getLast? with
  | '+' :: lineToAdd, some (.addFile path contents) =>
    .ok (parser.setLastHunk (.addFile path (contents ++ lineToAdd ++ ['\n'])))
  | _, _ => .error (.hunkHeader (trim line) parser.lineNumber)

/-- A line of an updated file that is no header. -/
def updateFileLine : Except ParseError StreamingPatchParser :=
  match parser.hunks.getLast? with
  | some (.updateFile path movePath chunks) => do
    let (movePath, chunks) ← updateHunkLine parser.lineNumber movePath chunks line
    return parser.setLastHunk (.updateFile path movePath chunks)
  | _ => .error (.unexpectedLine line parser.lineNumber)

def processLine : Except ParseError StreamingPatchParser :=
  let trimmed := trim line
  match parser.mode with
  | .notStarted =>
    if trimmed = beginPatchMarker then .ok { parser with mode := .startedPatch }
    else .error .firstLine
  | .startedPatch | .deleteFile => do
    match ← parser.handleHunkHeadersAndEndPatch trimmed with
    | some parser => return parser
    | none => throw (.hunkHeader trimmed parser.lineNumber)
  | .addFile => do
    match ← parser.handleHunkHeadersAndEndPatch trimmed with
    | some parser => return parser
    | none => parser.addFileLine line
  -- a line that begins with blanks can be content of an update, so only its end is trimmed
  | .updateFile _ => do
    match ← parser.handleHunkHeadersAndEndPatch (trimEnd line) with
    | some parser => return parser
    | none => parser.updateFileLine line
  | .endedPatch => if trimmed = [] then .ok parser else .error .lastLine

/-- Work on the line `line`, whose line feed has arrived. -/
def feedLine : Except ParseError StreamingPatchParser :=
  { parser with lineBuffer := [], lineNumber := parser.lineNumber + 1 }.processLine (stripCr line)

def pushChar (ch : Char) : Except ParseError StreamingPatchParser :=
  if ch = '\n' then parser.feedLine parser.lineBuffer
  else .ok { parser with lineBuffer := parser.lineBuffer ++ [ch] }

/-- Take in characters. -/
def pushDelta (delta : Text) : Except ParseError StreamingPatchParser :=
  delta.foldlM pushChar parser

/-- The end of the text: work on what is left in the buffer. -/
def finish : Except ParseError StreamingPatchParser := do
  let parser ←
    if parser.lineBuffer = [] then pure parser
    else
      -- the last line needs no line feed
      let line := parser.lineBuffer
      let parser := { parser with lineBuffer := [], lineNumber := parser.lineNumber + 1 }
      if trim line = endPatchMarker then
        parser.ensureUpdateHunkIsNotEmpty (trim line)
        pure { parser with mode := .endedPatch }
      else parser.processLine line
  if parser.mode = .endedPatch then return parser else throw .lastLine

/-! ### What a line can do -/

variable {P Q : StreamingPatchParser} {line trimmed : Text}

/-- A line that is handled in every mode sets the environment id, ends the patch or begins a
    hunk. -/
theorem handleHunkHeadersAndEndPatch_cases
    (h : P.handleHunkHeadersAndEndPatch trimmed = .ok (some Q)) :
    (∃ id, Q = { P with environmentId := some id }) ∨
      (trimmed = endPatchMarker ∧ Q = { P with mode := .endedPatch }) ∨
      (∃ path, Q = P.pushHunk .addFile (.addFile path [])) ∨
      (∃ path, Q = P.pushHunk .deleteFile (.deleteFile path)) ∨
      (∃ path, Q = P.pushHunk (.updateFile P.lineNumber) (.updateFile path none [])) := by
  simp only [handleHunkHeadersAndEndPatch, bind, Except.bind, pure, Except.pure, throw] at h
  split at h
  · split_ifs at h
    simp only [Except.ok.injEq, some.injEq] at h
    exact .inl ⟨_, h.symm⟩
  · cases hensure : P.ensureUpdateHunkIsNotEmpty trimmed with
    | error e =>
      simp only [hensure] at h
      split_ifs at h
      repeat' split at h
      all_goals cases h
    | ok u =>
      simp only [hensure] at h
      split_ifs at h with hend
      · simp only [Except.ok.injEq, some.injEq] at h
        exact .inr (.inl ⟨hend, h.symm⟩)
      · split at h
        · simp only [Except.ok.injEq, some.injEq] at h
          exact .inr (.inr (.inl ⟨_, h.symm⟩))
        · split at h
          · simp only [Except.ok.injEq, some.injEq] at h
            exact .inr (.inr (.inr (.inl ⟨_, h.symm⟩)))
          · split at h
            · simp only [Except.ok.injEq, some.injEq] at h
              exact .inr (.inr (.inr (.inr ⟨_, h.symm⟩)))
            · cases h

/-- Every line that is handled in every mode begins with a star. -/
theorem handleHunkHeadersAndEndPatch_of_head (h : trimmed.head? ≠ some '*') :
    P.handleHunkHeadersAndEndPatch trimmed = .ok none := by
  have hstrip (p : Text) : stripPrefix ('*' :: p) trimmed = none := by
    rw [stripPrefix_eq_none]
    rintro ⟨r, rfl⟩
    exact h rfl
  have hend : trimmed ≠ endPatchMarker := by
    rintro rfl
    exact h rfl
  have hid : stripPrefix environmentIdMarker trimmed = none := hstrip _
  have hadd : stripPrefix addFileMarker trimmed = none := hstrip _
  have hdelete : stripPrefix deleteFileMarker trimmed = none := hstrip _
  have hupdate : stripPrefix updateFileMarker trimmed = none := hstrip _
  simp only [handleHunkHeadersAndEndPatch, hid, hend, hadd, hdelete, hupdate, ite_self]
  rfl

/-- An added line is no header, whatever stands behind its `+`. -/
theorem head?_trim_plus (text : Text) : (trim ('+' :: text)).head? ≠ some '*' := by
  intro h
  cases head?_trimEnd h

theorem addFileLine_cases (h : P.addFileLine line = .ok Q) :
    ∃ text path contents, line = '+' :: text ∧
      P.hunks.getLast? = some (.addFile path contents) ∧
      Q = P.setLastHunk (.addFile path (contents ++ text ++ ['\n'])) := by
  unfold addFileLine at h
  split at h
  · rename_i text path contents hlast
    simp only [Except.ok.injEq] at h
    exact ⟨text, path, contents, rfl, hlast, h.symm⟩
  · cases h

theorem updateFileLine_cases (h : P.updateFileLine line = .ok Q) :
    ∃ path movePath chunks movePath' chunks',
      P.hunks.getLast? = some (.updateFile path movePath chunks) ∧
      updateHunkLine P.lineNumber movePath chunks line = .ok (movePath', chunks') ∧
      Q = P.setLastHunk (.updateFile path movePath' chunks') := by
  unfold updateFileLine at h
  split at h
  · rename_i path movePath chunks hlast
    simp only [bind, Except.bind] at h
    cases hline : updateHunkLine P.lineNumber movePath chunks line with
    | error e => simp [hline] at h
    | ok res =>
      simp only [hline, pure, Except.pure, Except.ok.injEq] at h
      exact ⟨path, movePath, chunks, res.1, res.2, hlast, hline, h.symm⟩
  · cases h

/-- What a line that is accepted is in each mode. -/
theorem processLine_cases (h : P.processLine line = .ok Q) :
    (P.mode = .notStarted ∧ trim line = beginPatchMarker ∧ Q = { P with mode := .startedPatch }) ∨
    (P.mode = .endedPatch ∧ trim line = [] ∧ Q = P) ∨
    (P.handleHunkHeadersAndEndPatch (trim line) = .ok (some Q) ∧
      (P.mode = .startedPatch ∨ P.mode = .deleteFile ∨ P.mode = .addFile)) ∨
    (P.handleHunkHeadersAndEndPatch (trimEnd line) = .ok (some Q) ∧ ∃ n, P.mode = .updateFile n) ∨
    (P.mode = .addFile ∧ P.handleHunkHeadersAndEndPatch (trim line) = .ok none ∧
      P.addFileLine line = .ok Q) ∨
    ((∃ n, P.mode = .updateFile n) ∧ P.handleHunkHeadersAndEndPatch (trimEnd line) = .ok none ∧
      P.updateFileLine line = .ok Q) := by
  unfold processLine at h
  simp only [bind, Except.bind, throw] at h
  cases hmode : P.mode with
  | notStarted =>
    simp only [hmode] at h
    split_ifs at h with hbegin
    exact .inl ⟨rfl, hbegin, (Except.ok.inj h).symm⟩
  | endedPatch =>
    simp only [hmode] at h
    split_ifs at h with hblank
    exact .inr (.inl ⟨rfl, hblank, (Except.ok.inj h).symm⟩)
  | startedPatch | deleteFile =>
    simp only [hmode] at h
    rcases hhead : P.handleHunkHeadersAndEndPatch (trim line) with e | _ | R
    · simp [hhead] at h
    · simp [hhead] at h
    · simp only [hhead] at h
      obtain rfl := Except.ok.inj h
      exact .inr (.inr (.inl ⟨rfl, by simp⟩))
  | addFile =>
    simp only [hmode] at h
    rcases hhead : P.handleHunkHeadersAndEndPatch (trim line) with e | _ | R
    · simp [hhead] at h
    · simp only [hhead] at h
      exact .inr (.inr (.inr (.inr (.inl ⟨rfl, rfl, h⟩))))
    · simp only [hhead] at h
      obtain rfl := Except.ok.inj h
      exact .inr (.inr (.inl ⟨rfl, .inr (.inr rfl)⟩))
  | updateFile n =>
    simp only [hmode] at h
    rcases hhead : P.handleHunkHeadersAndEndPatch (trimEnd line) with e | _ | R
    · simp [hhead] at h
    · simp only [hhead] at h
      exact .inr (.inr (.inr (.inr (.inr ⟨⟨n, rfl⟩, rfl, h⟩))))
    · simp only [hhead] at h
      obtain rfl := Except.ok.inj h
      exact .inr (.inr (.inr (.inl ⟨rfl, n, rfl⟩)))

theorem processLine_addFile (hmode : P.mode = .addFile)
    (hheader : P.handleHunkHeadersAndEndPatch (trim line) = .ok none) :
    P.processLine line = P.addFileLine line := by
  simp only [processLine, hmode, hheader]
  rfl

theorem processLine_updateFile {n : Nat} (hmode : P.mode = .updateFile n)
    (hheader : P.handleHunkHeadersAndEndPatch (trimEnd line) = .ok none) :
    P.processLine line = P.updateFileLine line := by
  simp only [processLine, hmode, hheader]
  rfl

theorem handleHunkHeadersAndEndPatch_lineBuffer
    (h : P.handleHunkHeadersAndEndPatch trimmed = .ok (some Q)) : Q.lineBuffer = P.lineBuffer := by
  rcases handleHunkHeadersAndEndPatch_cases h with
    ⟨_, rfl⟩ | ⟨_, rfl⟩ | ⟨_, rfl⟩ | ⟨_, rfl⟩ | ⟨_, rfl⟩ <;> rfl

/-- Working on a line does not touch the buffer. -/
theorem processLine_lineBuffer (h : P.processLine line = .ok Q) : Q.lineBuffer = P.lineBuffer := by
  rcases processLine_cases h with
    ⟨_, _, rfl⟩ | ⟨_, _, rfl⟩ | ⟨h, _⟩ | ⟨h, _⟩ | ⟨_, _, h⟩ | ⟨_, _, h⟩
  · rfl
  · rfl
  · exact handleHunkHeadersAndEndPatch_lineBuffer h
  · exact handleHunkHeadersAndEndPatch_lineBuffer h
  · obtain ⟨_, _, _, -, -, rfl⟩ := addFileLine_cases h
    rfl
  · obtain ⟨_, _, _, _, _, -, -, rfl⟩ := updateFileLine_cases h
    rfl

/-! ### The end of the text -/

variable {last : Text}

theorem finish_of_end (hne : last ≠ []) (hend : trim last = endPatchMarker) :
    { Q with lineBuffer := last }.finish =
      (({ Q with lineBuffer := [], lineNumber := Q.lineNumber + 1 } :
        StreamingPatchParser).ensureUpdateHunkIsNotEmpty endPatchMarker).map fun _ =>
          { Q with lineBuffer := [], lineNumber := Q.lineNumber + 1, mode := .endedPatch } := by
  simp only [finish, hne, hend]
  cases ensureUpdateHunkIsNotEmpty _ _ <;> rfl

theorem finish_hunks {R : StreamingPatchParser} (hne : last ≠ [])
    (hend : trim last = endPatchMarker) (hok : { Q with lineBuffer := last }.finish = .ok R) :
    R.hunks = Q.hunks := by
  rw [finish_of_end hne hend] at hok
  cases hensure : ensureUpdateHunkIsNotEmpty _ _ with
  | error e =>
    rw [hensure] at hok
    cases hok
  | ok u =>
    rw [hensure] at hok
    obtain rfl := Except.ok.inj hok
    rfl

/-! ### Lines and characters -/

theorem pushDelta_of_not_mem {s : Text} (hs : '\n' ∉ s) :
    P.pushDelta s = .ok { P with lineBuffer := P.lineBuffer ++ s } := by
  induction s generalizing P with
  | nil => simp [pushDelta, pure, Except.pure]
  | cons c s ih =>
    simp only [mem_cons, not_or] at hs
    have hc : P.pushChar c = .ok { P with lineBuffer := P.lineBuffer ++ [c] } := by
      simp [pushChar, Ne.symm hs.1]
    have hrest := @ih { P with lineBuffer := P.lineBuffer ++ [c] } hs.2
    simp only [pushDelta, foldlM_cons, hc, bind, Except.bind] at hrest ⊢
    rw [hrest]
    simp

theorem pushDelta_line {s rest : Text} (hs : '\n' ∉ s) :
    P.pushDelta (s ++ '\n' :: rest) =
      (P.feedLine (P.lineBuffer ++ s)) >>= fun Q => Q.pushDelta rest := by
  have hline := pushDelta_of_not_mem (P := P) hs
  simp only [pushDelta, foldlM_append] at hline ⊢
  rw [hline]
  rfl

/-- **Line by line.**  A text is worked on line by line, and its last line stays in the
    buffer. -/
theorem pushDelta_joinLines {ls : List Text} (hbuffer : P.lineBuffer = [])
    (hls : ∀ l ∈ ls, '\n' ∉ l) (hlast : '\n' ∉ last) :
    P.pushDelta (joinLines (ls ++ [last])) =
      ls.foldlM feedLine P >>= fun Q => .ok { Q with lineBuffer := last } := by
  induction ls generalizing P with
  | nil =>
    have hone : joinLines ([] ++ [last]) = last := by simp [joinLines]
    rw [hone, pushDelta_of_not_mem hlast, hbuffer]
    rfl
  | cons l ls ih =>
    rw [joinLines_cons_concat, pushDelta_line (hls l mem_cons_self), hbuffer, nil_append,
      foldlM_cons]
    cases hfeed : P.feedLine l with
    | error e => rfl
    | ok Q =>
      have hbuffer : Q.lineBuffer = [] := processLine_lineBuffer hfeed
      exact ih hbuffer fun l hl => hls l (mem_cons_of_mem _ hl)

end StreamingPatchParser

end Codex.ApplyPatch
