import Codex.ApplyPatch.Parser
import Codex.Data.ExceptFold

namespace Codex.ApplyPatch

open Text Data StreamingPatchParser UpdateFileChunk Leads List

/-!
# Patches can be written down and read again

A patch is written with one marker line for each hunk, move, chunk and end of file, and with one
line for each line of content.  Content cannot be taken for a marker, whatever it looks like,
because each of its lines begins with `+` or `-`.

* `renderPatch` — the text of a patch;
* `Hunk.WellFormed` — the hunks that can be written down;
* `leads_renderHunk` — reading the lines of a hunk adds this hunk, whatever was read before;
* `parsePatch_renderPatch` — the text of a patch is parsed to the patch.
-/

/-! ### Writing a patch -/

/-- The line that begins a chunk. -/
def renderContext : Option Text → Text
  | none => emptyChangeContextMarker
  | some context => changeContextMarker ++ context

/-- The lines of a chunk. -/
def renderChunk (chunk : UpdateFileChunk) : List Text :=
  renderContext chunk.changeContext ::
    (chunk.oldLines.map ('-' :: ·) ++ (chunk.newLines.map ('+' :: ·) ++
      if chunk.isEndOfFile then [eofMarker] else []))

/-- The lines of a hunk. -/
def renderHunk : Hunk → List Text
  | .addFile path contents => (addFileMarker ++ path) :: (lines contents).map ('+' :: ·)
  | .deleteFile path => [deleteFileMarker ++ path]
  | .updateFile path movePath chunks =>
    (updateFileMarker ++ path) ::
      (movePath.toList.map (moveToMarker ++ ·) ++ chunks.flatMap renderChunk)

/-- The lines of a patch up to its end marker. -/
def renderPatchLines (environmentId : Option Text) (hunks : List Hunk) : List Text :=
  beginPatchMarker ::
    (environmentId.toList.map (environmentIdMarker ++ ' ' :: ·) ++ hunks.flatMap renderHunk)

/-- The text of a patch. -/
def renderPatch (environmentId : Option Text) (hunks : List Hunk) : Text :=
  joinLines (renderPatchLines environmentId hunks ++ [endPatchMarker])

/-! ### What can be written -/

/-- The text is one line, without its line ending. -/
def IsLine (s : Text) : Prop := '\n' ∉ s ∧ '\r' ∉ s

instance (s : Text) : Decidable (IsLine s) := inferInstanceAs (Decidable (_ ∧ _))

/-- A path or an environment id: one line, without white space around it. -/
structure IsName (s : Text) : Prop where
  ne_nil : s ≠ []
  isLine : IsLine s
  isTrimmed : IsTrimmed s

instance (s : Text) : Decidable (IsName s) := decidable_of_iff (s ≠ [] ∧ IsLine s ∧ IsTrimmed s)
    ⟨fun h => ⟨h.1, h.2.1, h.2.2⟩, fun h => ⟨h.ne_nil, h.isLine, h.isTrimmed⟩⟩

/-- A chunk with lines; a change context has no white space at its end. -/
structure UpdateFileChunk.WellFormed (chunk : UpdateFileChunk) : Prop where
  notBlank : chunk.isBlank = false
  context : ∀ context ∈ chunk.changeContext,
    context ≠ [] ∧ IsLine context ∧ ∀ c ∈ context.getLast?, isWhitespace c = false
  oldLines : ∀ l ∈ chunk.oldLines, IsLine l
  newLines : ∀ l ∈ chunk.newLines, IsLine l

/-- A hunk that can be written down: the content of an added file is a sequence of lines, each
    ended by a line feed. -/
def Hunk.WellFormed : Hunk → Prop
  | .addFile path contents =>
    IsName path ∧ ∃ ls : List Text, (∀ l ∈ ls, IsLine l) ∧ contents = ls.flatMap (· ++ ['\n'])
  | .deleteFile path => IsName path
  | .updateFile path movePath chunks =>
    IsName path ∧ (∀ dest ∈ movePath, IsName dest) ∧ chunks ≠ [] ∧ ∀ c ∈ chunks, c.WellFormed

section Lines

variable {a b s : Text}

theorem IsLine.append (ha : IsLine a) (hb : IsLine b) : IsLine (a ++ b) := by
  simp only [IsLine, mem_append, not_or] at ha hb ⊢
  exact ⟨⟨ha.1, hb.1⟩, ha.2, hb.2⟩

theorem IsLine.cons {c : Char} (hc : IsLine [c]) (hs : IsLine s) : IsLine (c :: s) := hc.append hs

theorem IsLine.stripCr_eq (hs : IsLine s) : stripCr s = s := stripCr_of_not_mem hs.2

/-- A marker in front of a name has no white space around it. -/
theorem IsName.isTrimmed_append {marker : Text} {c : Char} (hs : IsName s)
    (hmarker : marker.head? = some c) (hc : isWhitespace c = false) :
    IsTrimmed (marker ++ s) := by
  constructor
  · rw [head?_append, hmarker]
    intro d hd
    obtain rfl := Option.some.inj hd
    exact hc
  · rw [getLast?_append_of_ne_nil _ hs.ne_nil]
    exact hs.isTrimmed.2

theorem append_ne_of_not_prefix (h : ¬ a <+: b) : a ++ s ≠ b := by
  rintro rfl
  exact h (prefix_append a s)

/-- The lines of a content that is a sequence of lines. -/
theorem lines_flatMap {ls : List Text} (hls : ∀ l ∈ ls, IsLine l) :
    lines (ls.flatMap (· ++ ['\n'])) = ls := by
  have hjoin : ls.flatMap (· ++ ['\n']) = joinLines (ls ++ [[]]) := by
    clear hls
    induction ls with
    | nil => rfl
    | cons l ls ih =>
      rw [flatMap_cons, ih, joinLines_cons_concat, append_assoc]
      rfl
  have hsplit : (joinLines (ls ++ [[]])).splitOn '\n' = ls ++ [[]] :=
    splitOn_intercalate '\n' (forall_mem_append.mpr
      ⟨fun l hl => (hls l hl).1, forall_mem_singleton.mpr not_mem_nil⟩) (by simp)
  have hstrip : ls.map stripCr = ls := by
    rw [map_congr_left fun l hl => (hls l hl).stripCr_eq, map_id']
  rw [hjoin, lines, hsplit]
  simp [hstrip]

end Lines

/-! ### The states between the lines -/

variable {hunks : List Hunk}

namespace StreamingPatchParser

variable {P Q : StreamingPatchParser} {id movePath : Option Text} {hs : List Hunk}
  {path contents line : Text} {chunks : List UpdateFileChunk}

/-- The hunks `hs` have been read, and another hunk may follow. -/
structure Between (id : Option Text) (hs : List Hunk) (P : StreamingPatchParser) : Prop where
  environmentId : P.environmentId = id
  hunks : P.hunks = hs
  mode : P.mode = .startedPatch ∨ P.mode = .addFile ∨ P.mode = .deleteFile ∨
    ∃ n, P.mode = .updateFile n
  notEmpty : ∀ path movePath chunks, hs.getLast? = some (.updateFile path movePath chunks) →
    chunks ≠ [] ∧ lastChunk isBlank chunks = false

/-- The parser is reading the content of an added file. -/
structure Adding (id : Option Text) (hs : List Hunk) (path contents : Text)
    (P : StreamingPatchParser) : Prop where
  environmentId : P.environmentId = id
  hunks : P.hunks = hs ++ [.addFile path contents]
  mode : P.mode = .addFile

/-- The parser is reading an update, and has come to the chunks `chunks`. -/
structure Updating (id : Option Text) (hs : List Hunk) (path : Text) (movePath : Option Text)
    (chunks : List UpdateFileChunk) (P : StreamingPatchParser) : Prop where
  environmentId : P.environmentId = id
  hunks : P.hunks = hs ++ [.updateFile path movePath chunks]
  mode : ∃ n, P.mode = .updateFile n

theorem Adding.between (h : Adding id hs path contents P) :
    Between id (hs ++ [.addFile path contents]) P where
  environmentId := h.environmentId
  hunks := h.hunks
  mode := .inr (.inl h.mode)
  notEmpty := by simp

theorem Updating.between (h : Updating id hs path movePath chunks P) (hne : chunks ≠ [])
    (hblank : lastChunk isBlank chunks = false) :
    Between id (hs ++ [.updateFile path movePath chunks]) P where
  environmentId := h.environmentId
  hunks := h.hunks
  mode := .inr (.inr (.inr h.mode))
  notEmpty := by
    intro path' movePath' chunks' hlast
    rw [getLast?_concat] at hlast
    cases hlast
    exact ⟨hne, hblank⟩

theorem Between.ensure (h : Between id hs P) (line : Text) :
    P.ensureUpdateHunkIsNotEmpty line = .ok () := by
  unfold ensureUpdateHunkIsNotEmpty
  rw [h.hunks]
  split
  · rename_i path movePath chunks hlast
    obtain ⟨hne, hblank⟩ := h.notEmpty path movePath chunks hlast
    obtain ⟨chunk, rest, rfl⟩ := exists_cons_of_ne_nil hne
    simp [hblank]
  · rfl

/-- The line number and the buffer do not matter. -/
theorem Between.next (h : Between id hs P) :
    Between id hs { P with lineBuffer := [], lineNumber := P.lineNumber + 1 } :=
  ⟨h.environmentId, h.hunks, h.mode, h.notEmpty⟩

/-! ### Headers -/

/-- A line without white space around it that is handled in every mode. -/
theorem feedLine_of_header (hP : Between id hs P) (hline : IsLine line) (htrim : IsTrimmed line)
    (h : ({ P with lineBuffer := [], lineNumber := P.lineNumber + 1 } :
      StreamingPatchParser).handleHunkHeadersAndEndPatch line = .ok (some Q)) :
    P.feedLine line = .ok Q := by
  have hend : trimEnd line = line := trimEnd_eq_self htrim.2
  rw [feedLine, hline.stripCr_eq]
  rcases hP.mode with hmode | hmode | hmode | ⟨n, hmode⟩ <;>
    simp only [processLine, hmode, htrim.trim_eq, hend] at h ⊢ <;>
    rw [h] <;> rfl

theorem Between.headers (hP : Between id hs P) :
    P.handleHunkHeadersAndEndPatch (addFileMarker ++ path) =
        .ok (some (P.pushHunk .addFile (.addFile path []))) ∧
      P.handleHunkHeadersAndEndPatch (deleteFileMarker ++ path) =
        .ok (some (P.pushHunk .deleteFile (.deleteFile path))) ∧
      P.handleHunkHeadersAndEndPatch (updateFileMarker ++ path) =
        .ok (some (P.pushHunk (.updateFile P.lineNumber) (.updateFile path none []))) := by
  -- the tests for the other markers fail
  simp (disch := decide) only [handleHunkHeadersAndEndPatch, stripPrefix_append_of_ne, ite_self,
    append_ne_of_not_prefix, if_false, stripPrefix_append, hP.ensure]
  exact ⟨rfl, rfl, rfl⟩

/-- Behind a header the parser is at the new hunk. -/
theorem leads_header {marker : Text} {R : StreamingPatchParser → Prop} (hpath : IsName path)
    (hmarker : IsLine marker) (hhead : marker.head? = some '*') (h : ∀ P, Between id hs P → ∃ Q,
      P.handleHunkHeadersAndEndPatch (marker ++ path) = .ok (some Q) ∧ R Q) :
    Leads feedLine [marker ++ path] (Between id hs) R := by
  refine single fun P hP => ?_
  obtain ⟨Q, hheader, hQ⟩ := h _ hP.next
  exact ⟨Q, feedLine_of_header hP (hmarker.append hpath.isLine)
    (hpath.isTrimmed_append hhead (by decide)) hheader, hQ⟩

theorem leads_addFileHeader (hpath : IsName path) :
    Leads feedLine [addFileMarker ++ path] (Between id hs) (Adding id hs path []) :=
  leads_header hpath (by decide) rfl fun P hP =>
    ⟨_, hP.headers.1, hP.environmentId, by rw [pushHunk, hP.hunks], rfl⟩

theorem leads_deleteFileHeader (hpath : IsName path) :
    Leads feedLine [deleteFileMarker ++ path] (Between id hs)
      (Between id (hs ++ [.deleteFile path])) :=
  leads_header hpath (by decide) rfl fun P hP => ⟨_, hP.headers.2.1, hP.environmentId,
    by rw [pushHunk, hP.hunks], .inr (.inr (.inl rfl)), by simp⟩

theorem leads_updateFileHeader (hpath : IsName path) :
    Leads feedLine [updateFileMarker ++ path] (Between id hs) (Updating id hs path none []) :=
  leads_header hpath (by decide) rfl fun P hP =>
    ⟨_, hP.headers.2.2, hP.environmentId, by rw [pushHunk, hP.hunks], _, rfl⟩

/-! ### Lines of content -/

/-- A line that is added, whatever it looks like. -/
theorem leads_addedLine (hline : IsLine line) :
    Leads feedLine ['+' :: line] (Adding id hs path contents)
      (Adding id hs path (contents ++ line ++ ['\n'])) := by
  refine single fun P hP => ?_
  have hheader := handleHunkHeadersAndEndPatch_of_head
    (P := { P with lineBuffer := [], lineNumber := P.lineNumber + 1 }) (head?_trim_plus line)
  have hlast : P.hunks.getLast? = some (.addFile path contents) := by
    rw [hP.hunks, getLast?_concat]
  refine ⟨setLastHunk { P with lineBuffer := [], lineNumber := P.lineNumber + 1 }
    (.addFile path (contents ++ line ++ ['\n'])), ?_, ⟨hP.environmentId, ?_, hP.mode⟩⟩
  · rw [feedLine, (IsLine.cons (by decide) hline).stripCr_eq]
    rw [processLine_addFile (by exact hP.mode) hheader]
    simp [addFileLine, hlast]
  · simp [setLastHunk, hP.hunks]

/-- A line of an update that is no header. -/
theorem leads_updateLine {movePath' : Option Text} {chunks' : List UpdateFileChunk}
    (hline : IsLine line) (hheader : ∀ P : StreamingPatchParser, (∃ n, P.mode = .updateFile n) →
      P.handleHunkHeadersAndEndPatch (trimEnd line) = .ok none)
    (h : ∀ n, updateHunkLine n movePath chunks line = .ok (movePath', chunks')) :
    Leads feedLine [line] (Updating id hs path movePath chunks)
      (Updating id hs path movePath' chunks') := by
  refine single fun P hP => ?_
  obtain ⟨n, hmode⟩ := hP.mode
  have hheader := hheader { P with lineBuffer := [], lineNumber := P.lineNumber + 1 } hP.mode
  have hlast : P.hunks.getLast? = some (.updateFile path movePath chunks) := by
    rw [hP.hunks, getLast?_concat]
  refine ⟨setLastHunk { P with lineBuffer := [], lineNumber := P.lineNumber + 1 }
    (.updateFile path movePath' chunks'), ?_, ⟨hP.environmentId, ?_, n, hmode⟩⟩
  · rw [feedLine, hline.stripCr_eq]
    rw [processLine_updateFile (by exact hmode) hheader]
    simp only [updateFileLine, hlast, h]
    rfl
  · simp [setLastHunk, hP.hunks]

/-! ### Updates, line by line -/

theorem handle_of_head {c : Char} (h : line.head? = some c) (hc : c ≠ '*')
    (P : StreamingPatchParser) : P.handleHunkHeadersAndEndPatch (trimEnd line) = .ok none := by
  refine handleHunkHeadersAndEndPatch_of_head fun hstar => ?_
  rw [head?_trimEnd hstar] at h
  exact hc (Option.some.inj h).symm

theorem leads_moveTo {dest : Text} (hdest : IsName dest) :
    Leads feedLine [moveToMarker ++ dest] (Updating id hs path none [])
      (Updating id hs path (some dest) []) := by
  have htrim : trimEnd (moveToMarker ++ dest) = moveToMarker ++ dest :=
    trimEnd_append_of_ne_nil hdest.ne_nil hdest.isTrimmed.2
  refine leads_updateLine (IsLine.append (by decide) hdest.isLine) ?_ ?_
  · rintro P ⟨n, hmode⟩
    simp (disch := decide) only [htrim, handleHunkHeadersAndEndPatch, hmode, reduceCtorEq, if_false,
      append_ne_of_not_prefix, stripPrefix_append_of_ne]
    rfl
  · intro n
    simp only [updateHunkLine, htrim, lastChunk, getLast?_nil, Option.any_none, and_self,
      if_true, stripPrefix_append, Bool.false_and, Bool.false_eq_true, if_false]

/-- The line that begins a chunk with the change context `context`. -/
theorem leads_changeContext {context : Option Text} (hcontext : ∀ ctx ∈ context,
      ctx ≠ [] ∧ IsLine ctx ∧ ∀ c ∈ ctx.getLast?, isWhitespace c = false)
    (hblank : lastChunk isBlank chunks = false) :
    Leads feedLine [renderContext context] (Updating id hs path movePath chunks)
      (Updating id hs path movePath (chunks ++ [⟨context, [], [], false⟩])) := by
  cases context with
  | none =>
    have htrim : trimEnd emptyChangeContextMarker = emptyChangeContextMarker := by decide
    have hmove : stripPrefix moveToMarker emptyChangeContextMarker = none := by decide
    have hnil : emptyChangeContextMarker ≠ [] := by decide
    apply leads_updateLine (by decide) (fun P _ => handle_of_head rfl (by decide) P)
    simp [updateHunkLine, renderContext, htrim, hmove, hblank, hnil]
  | some ctx =>
    obtain ⟨hne, hline, hlast⟩ := hcontext ctx rfl
    have htrim : trimEnd (changeContextMarker ++ ctx) = changeContextMarker ++ ctx :=
      trimEnd_append_of_ne_nil hne hlast
    have hmove : stripPrefix moveToMarker (changeContextMarker ++ ctx) = none :=
      stripPrefix_append_of_ne (by decide) (by decide)
    have hempty : changeContextMarker ++ ctx ≠ emptyChangeContextMarker :=
      append_ne_of_not_prefix (by decide)
    have hnil : changeContextMarker ++ ctx ≠ [] := append_ne_of_not_prefix (by decide)
    refine leads_updateLine (IsLine.append (by decide) hline)
      (fun P _ => handle_of_head rfl (by decide) P) ?_
    simp [updateHunkLine, renderContext, htrim, hmove, hempty, hblank, hnil]

/-! ### The lines of a chunk -/

variable {text : Text}

/-- A line of content of the last chunk, whatever it looks like. -/
theorem updateHunkLine_content {n : Nat} {chunk : UpdateFileChunk}
    (hmark : line = '-' :: text ∨ line = '+' :: text) (heof : chunk.isEndOfFile = false) :
    updateHunkLine n movePath (chunks ++ [chunk]) line = .ok (movePath, chunks ++
      [if line = '-' :: text then { chunk with oldLines := chunk.oldLines ++ [text] }
        else { chunk with newLines := chunk.newLines ++ [text] }]) := by
  have hhead : ∀ c, (trimEnd line).head? = some c → c = '-' ∨ c = '+' := by
    intro c hc
    have hline := head?_trimEnd hc
    rcases hmark with rfl | rfl
    · exact .inl (Option.some.inj hline).symm
    · exact .inr (Option.some.inj hline).symm
  have hempty : trimEnd line ≠ emptyChangeContextMarker := by
    intro h
    rcases hhead '@' (by rw [h]; rfl) with h | h <;> cases h
  have hend : trimEnd line ≠ eofMarker := by
    intro h
    rcases hhead '*' (by rw [h]; rfl) with h | h <;> cases h
  have hcontext : stripPrefix changeContextMarker (trimEnd line) = none := by
    rw [stripPrefix_eq_none]
    rintro ⟨r, hr⟩
    rcases hhead '@' (by rw [← hr]; rfl) with h | h <;> cases h
  have hlast : lastChunk isEndOfFile (chunks ++ [chunk]) = false := by
    simp [lastChunk, heof]
  simp only [updateHunkLine, hlast, hempty, hcontext, hend, append_eq_nil_iff, cons_ne_self]
  rcases hmark with rfl | rfl <;> simp [pushLines]

variable {chunk : UpdateFileChunk}

theorem leads_contentLine (hmark : line = '-' :: text ∨ line = '+' :: text)
    (heof : chunk.isEndOfFile = false) (htext : IsLine text) :
    Leads feedLine [line] (Updating id hs path movePath (chunks ++ [chunk]))
      (Updating id hs path movePath (chunks ++
        [if line = '-' :: text then { chunk with oldLines := chunk.oldLines ++ [text] }
          else { chunk with newLines := chunk.newLines ++ [text] }])) := by
  refine leads_updateLine ?_ (fun P _ => ?_) fun n => updateHunkLine_content hmark heof
  · rcases hmark with rfl | rfl <;> exact IsLine.cons (by decide) htext
  · rcases hmark with rfl | rfl <;> exact handle_of_head rfl (by decide) P

theorem leads_endOfFile (heof : chunk.isEndOfFile = false) (hblank : chunk.isBlank = false) :
    Leads feedLine [eofMarker] (Updating id hs path movePath (chunks ++ [chunk]))
      (Updating id hs path movePath (chunks ++ [{ chunk with isEndOfFile := true }])) := by
  have htrim : trimEnd eofMarker = eofMarker := by decide
  refine leads_updateLine (by decide) ?_ ?_
  · rintro P ⟨n, hmode⟩
    simp only [handleHunkHeadersAndEndPatch, hmode]
    rfl
  · have hlast : lastChunk isEndOfFile (chunks ++ [chunk]) = false := by
      simp [lastChunk, heof]
    have hlast' : lastChunk isBlank (chunks ++ [chunk]) = false := by
      simp [lastChunk, hblank]
    have hempty : eofMarker ≠ emptyChangeContextMarker := by decide
    have hcontext : stripPrefix changeContextMarker eofMarker = none := by decide
    simp [updateHunkLine, htrim, hlast, hlast', hempty, hcontext, markEndOfFile]

/-- **A chunk is read again**, behind any chunks that have lines. -/
theorem leads_renderChunk (hchunk : chunk.WellFormed) (hblank : lastChunk isBlank chunks = false) :
    Leads feedLine (renderChunk chunk) (Updating id hs path movePath chunks)
      (Updating id hs path movePath (chunks ++ [chunk])) := by
  obtain ⟨context, old, new, eof⟩ := chunk
  apply cons (leads_changeContext hchunk.context hblank)
  refine append (map (I := fun done =>
    Updating id hs path movePath (chunks ++ [⟨context, done, [], false⟩])) ?_ []) ?_
  · intro done text htext
    simpa using leads_contentLine (.inl rfl) rfl (hchunk.oldLines text htext)
  refine append (map (I := fun done =>
    Updating id hs path movePath (chunks ++ [⟨context, old, done, false⟩])) ?_ []) ?_
  · intro done text htext
    simpa using leads_contentLine (.inr rfl) rfl (hchunk.newLines text htext)
  cases eof with
  | false => exact nil
  | true => exact leads_endOfFile rfl hchunk.notBlank

/-! ### Hunks -/

theorem leads_addFile (hpath : IsName path) {ls : List Text} (hls : ∀ l ∈ ls, IsLine l) :
    Leads feedLine (renderHunk (.addFile path (ls.flatMap (· ++ ['\n'])))) (Between id hs)
      (Between id (hs ++ [.addFile path (ls.flatMap (· ++ ['\n']))])) := by
  rw [renderHunk, lines_flatMap hls]
  apply cons (leads_addFileHeader hpath)
  refine weaken (map (I := fun done =>
    Adding id hs path (done.flatMap (· ++ ['\n']))) ?_ []) fun P hP => hP.between
  intro done line hline
  have happend : (done ++ [line]).flatMap (· ++ ['\n']) =
      done.flatMap (· ++ ['\n']) ++ line ++ ['\n'] := by simp
  rw [happend]
  exact leads_addedLine (hls line hline)

theorem leads_renderChunks (hne : chunks ≠ []) (hchunks : ∀ c ∈ chunks, c.WellFormed) :
    Leads feedLine (chunks.flatMap renderChunk) (Updating id hs path movePath [])
      (Between id (hs ++ [.updateFile path movePath chunks])) := by
  -- A chunk may only begin behind chunks that have lines.
  have hstep : ∀ done chunk, chunk ∈ chunks → Leads feedLine (renderChunk chunk)
      (fun P => Updating id hs path movePath done P ∧ lastChunk isBlank done = false)
      (fun P => Updating id hs path movePath (done ++ [chunk]) P ∧
        lastChunk isBlank (done ++ [chunk]) = false) := by
    rintro done chunk hchunk P ⟨hP, hblank⟩
    obtain ⟨Q, hfold, hQ⟩ := leads_renderChunk (hchunks chunk hchunk) hblank P hP
    exact ⟨Q, hfold, hQ, by simpa [lastChunk] using (hchunks chunk hchunk).notBlank⟩
  intro P hP
  obtain ⟨Q, hfold, hQ, hblank⟩ := flatMap hstep [] P ⟨hP, rfl⟩
  exact ⟨Q, hfold, hQ.between hne hblank⟩

/-- **A hunk is read again**, behind any other hunks. -/
theorem leads_renderHunk {hunk : Hunk} (hhunk : hunk.WellFormed) :
    Leads feedLine (renderHunk hunk) (Between id hs) (Between id (hs ++ [hunk])) := by
  cases hunk with
  | addFile path contents =>
    obtain ⟨hpath, ls, hls, rfl⟩ := hhunk
    exact leads_addFile hpath hls
  | deleteFile path => exact leads_deleteFileHeader hhunk
  | updateFile path movePath chunks =>
    obtain ⟨hpath, hmove, hne, hchunks⟩ := hhunk
    apply cons (leads_updateFileHeader hpath)
    cases movePath with
    | none => exact leads_renderChunks hne hchunks
    | some dest => exact cons (leads_moveTo (hmove dest rfl)) (leads_renderChunks hne hchunks)

/-! ### Patches -/

theorem leads_beginPatch : Leads feedLine [beginPatchMarker] (· = .default)
      (fun P => Between none [] P ∧ P.mode = .startedPatch) := by
  rintro P rfl
  refine ⟨⟨[], .startedPatch, [], none, 1⟩, by decide, ⟨rfl, rfl, .inl rfl, by simp⟩, rfl⟩

theorem leads_environmentId {name : Text} (hname : IsName name) :
    Leads feedLine [environmentIdMarker ++ ' ' :: name]
      (fun P => Between none [] P ∧ P.mode = .startedPatch) (Between (some name) []) := by
  apply single
  rintro P ⟨hP, hmode⟩
  have hspace : environmentIdMarker ++ ' ' :: name = (environmentIdMarker ++ [' ']) ++ name := by
    simp
  have hline : IsLine (environmentIdMarker ++ ' ' :: name) :=
    IsLine.append (by decide) (IsLine.cons (by decide) hname.isLine)
  have htrim : IsTrimmed (environmentIdMarker ++ ' ' :: name) := by
    rw [hspace]
    exact hname.isTrimmed_append rfl (by decide)
  have hid : trim (' ' :: name) = name := by
    exact hname.isTrimmed.trim_eq
  refine ⟨{ P with lineBuffer := [], lineNumber := P.lineNumber + 1, environmentId := some name },
    feedLine_of_header hP hline htrim ?_, ⟨rfl, hP.hunks, hP.mode, hP.notEmpty⟩⟩
  simp only [handleHunkHeadersAndEndPatch, hmode, if_true, stripPrefix_append,
    hP.environmentId, hid, hname.ne_nil]
  rfl

/-- All the lines of a patch up to its end marker. -/
theorem leads_renderPatchLines (hid : ∀ name ∈ id, IsName name)
    (hhunks : ∀ hunk ∈ hunks, hunk.WellFormed) :
    Leads feedLine (renderPatchLines id hunks) (· = .default) (Between id hunks) := by
  have hrun : Leads feedLine (hunks.flatMap renderHunk) (Between id []) (Between id hunks) :=
    flatMap (fun done hunk hhunk => leads_renderHunk (hhunks hunk hhunk)) []
  apply cons leads_beginPatch
  cases id with
  | none => exact fun P hP => hrun P hP.1
  | some name => exact cons (leads_environmentId (hid name rfl)) hrun

end StreamingPatchParser

theorem isLine_renderChunk {chunk : UpdateFileChunk} (hchunk : chunk.WellFormed) :
    ∀ l ∈ renderChunk chunk, IsLine l := by
  intro l hl
  simp only [renderChunk, mem_cons, mem_append, mem_map] at hl
  rcases hl with rfl | ⟨text, htext, rfl⟩ | ⟨text, htext, rfl⟩ | hl
  · cases hcontext : chunk.changeContext with
    | none => decide
    | some context => exact IsLine.append (by decide) (hchunk.context context hcontext).2.1
  · exact IsLine.cons (by decide) (hchunk.oldLines text htext)
  · exact IsLine.cons (by decide) (hchunk.newLines text htext)
  · split at hl
    · rw [mem_singleton.mp hl]
      decide
    · cases hl

theorem isLine_renderHunk {hunk : Hunk} (hhunk : hunk.WellFormed) :
    ∀ l ∈ renderHunk hunk, IsLine l := by
  intro l hl
  cases hunk with
  | addFile path contents =>
    obtain ⟨hpath, ls, hls, rfl⟩ := hhunk
    simp only [renderHunk, lines_flatMap hls, mem_cons, mem_map] at hl
    rcases hl with rfl | ⟨text, htext, rfl⟩
    · exact IsLine.append (by decide) hpath.isLine
    · exact IsLine.cons (by decide) (hls text htext)
  | deleteFile path =>
    rw [mem_singleton.mp hl]
    exact IsLine.append (by decide) (IsName.isLine hhunk)
  | updateFile path movePath chunks =>
    obtain ⟨hpath, hmove, -, hchunks⟩ := hhunk
    simp only [renderHunk, mem_cons, mem_append, mem_map, mem_flatMap, Option.mem_toList] at hl
    rcases hl with rfl | ⟨dest, hdest, rfl⟩ | ⟨chunk, hchunk, hl⟩
    · exact IsLine.append (by decide) hpath.isLine
    · exact IsLine.append (by decide) (hmove dest hdest).isLine
    · exact isLine_renderChunk (hchunks chunk hchunk) l hl

theorem isLine_renderPatchLines {id : Option Text}
    (hid : ∀ name ∈ id, IsName name) (hhunks : ∀ hunk ∈ hunks, hunk.WellFormed) :
    ∀ l ∈ renderPatchLines id hunks, IsLine l := by
  intro l hl
  simp only [renderPatchLines, mem_cons, mem_append, mem_map, mem_flatMap, Option.mem_toList] at hl
  rcases hl with rfl | ⟨name, hname, rfl⟩ | ⟨hunk, hhunk, hl⟩
  · decide
  · exact IsLine.append (by decide) (IsLine.cons (by decide) (hid name hname).isLine)
  · exact isLine_renderHunk (hhunks hunk hhunk) l hl

/-- The text of a patch is accepted by the streaming parser, with this patch. -/
theorem streamPatch_renderPatch {id : Option Text}
    (hid : ∀ name ∈ id, IsName name) (hhunks : ∀ hunk ∈ hunks, hunk.WellFormed) :
    ∃ parser, streamPatch (renderPatch id hunks) = .ok parser ∧ parser.hunks = hunks ∧
      parser.environmentId = id := by
  obtain ⟨Q, hrun, hQ⟩ := leads_renderPatchLines hid hhunks .default rfl
  have hlines := isLine_renderPatchLines hid hhunks
  have hfinish : { Q with lineBuffer := endPatchMarker }.finish = .ok { Q with
      lineBuffer := [], lineNumber := Q.lineNumber + 1, mode := .endedPatch } := by
    rw [finish_of_end (by decide) (by decide), hQ.next.ensure]
    rfl
  refine ⟨{ Q with lineBuffer := [], lineNumber := Q.lineNumber + 1, mode := .endedPatch }, ?_,
    hQ.hunks, hQ.environmentId⟩
  rw [renderPatch, streamPatch_joinLines (fun l hl => (hlines l hl).1) (by decide), hrun]
  exact hfinish

/-- **Round trip.**  The text of a patch, with or without a line feed behind its end marker, is
    parsed to exactly its environment id and its hunks. -/
theorem parsePatch_renderPatch (environmentId : Option Text) (hunks : List Hunk)
    (hid : ∀ name ∈ environmentId, IsName name) (hhunks : ∀ hunk ∈ hunks, hunk.WellFormed) :
    let text := renderPatch environmentId hunks
    parsePatch text = .ok ⟨text, hunks, none, environmentId⟩ ∧
      parsePatch (text ++ ['\n']) = .ok ⟨text, hunks, none, environmentId⟩ := by
  intro text
  have hlines := isLine_renderPatchLines hid hhunks
  have hstrip : (renderPatchLines environmentId hunks).map stripCr =
      renderPatchLines environmentId hunks := by
    rw [map_congr_left fun l hl => (hlines l hl).stripCr_eq, map_id']
  have hpatch : joinLines ((renderPatchLines environmentId hunks).map stripCr ++
      [endPatchMarker]) = text := by
    rw [hstrip]
    rfl
  have htrim : trim text = text := (isTrimmed_joinLines (by decide) (by decide)).trim_eq
  have hparse : parsePatch text = .ok ⟨text, hunks, none, environmentId⟩ := by
    have hbatch := parsePatch_joinLines (fun l hl => (hlines l hl).1) (by decide) (by decide) htrim
      (by decide)
    change parsePatch text = (streamPatch (joinLines
      ((renderPatchLines environmentId hunks).map stripCr ++ [endPatchMarker])) >>= fun parser =>
        .ok ⟨joinLines ((renderPatchLines environmentId hunks).map stripCr ++ [endPatchMarker]),
          parser.hunks, none, parser.environmentId⟩) at hbatch
    rw [hpatch] at hbatch
    obtain ⟨parser, hstream, rfl, rfl⟩ := streamPatch_renderPatch hid hhunks
    exact hbatch.trans (bind_eq_ok.mpr ⟨parser, hstream, rfl⟩)
  refine ⟨hparse, ?_⟩
  have heq : trim (text ++ ['\n']) = trim text := trim_concat_of (by decide)
  rw [← hparse, parsePatch, parsePatch, parsePatchText, parsePatchText, heq]

/-- An added file that looks like a patch, and an update that moves its file. -/
theorem parsePatch_renderPatch_markers :
    let chunk : UpdateFileChunk := ⟨some "fn main", ["*** End Patch"], [[], "@@"], true⟩
    let hunks : List Hunk := [.addFile ['a'] "*** Add File: b\n", .deleteFile ['c'],
        .updateFile ['d'] (some ['e']) [chunk]]
    let text := renderPatch (some "remote") hunks
    parsePatch text = .ok ⟨text, hunks, none, some "remote"⟩ ∧
      parsePatch (text ++ ['\n']) = .ok ⟨text, hunks, none, some "remote"⟩ := by
  intro chunk hunks text
  have hcontext : ∀ c ∈ "fn main".toList.getLast?, isWhitespace c = false := by
    intro c hc
    obtain rfl : 'n' = c := Option.some.inj hc
    rfl
  have hchunk : chunk.WellFormed := by
    refine ⟨by decide, ?_, by decide, by decide⟩
    intro context hmem
    obtain rfl : "fn main" = context := Option.some.inj hmem
    exact ⟨by decide, by decide, hcontext⟩
  refine parsePatch_renderPatch (some "remote") hunks (by decide) ?_
  intro hunk hhunk
  simp only [hunks, mem_cons, not_mem_nil, or_false] at hhunk
  rcases hhunk with rfl | rfl | rfl
  · exact ⟨by decide, ["*** Add File: b"], by decide, by decide⟩
  · show IsName ['c']
    decide
  · exact ⟨by decide, by decide, by decide, fun c hc => mem_singleton.mp hc ▸ hchunk⟩

end Codex.ApplyPatch
