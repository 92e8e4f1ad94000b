import Codex.ApplyPatch.Parser
import Codex.Data.ExceptFold
import Mathlib

namespace Codex.ApplyPatch

open Text Data StreamingPatchParser List Except

/-!
# Line endings: the batch parser and the streaming parser

Both parsers work on the lines of the text, but the batch parser has cut off a carriage return
in front of the line feed before the streaming parser, which it runs, cuts off one more.  So the
two differ in the lines that end in two carriage returns, and only where such a line is read as
file content.

* `StreamingPatchParser.contentOf` — the file content a line is read as;
* `NoDoubleCr` — no line that is read as content ends in two carriage returns;
* `processLine_alike` — what the parser does does not depend on the content it has read;
* `processLine_concat_cr` / `processLine_concat_cr_of_not_content` — a carriage return more;
* `parsePatch_agrees_streamPatch_iff` — the two parsers agree exactly on the texts without such
  lines, and on those the batch parser rejects.
-/

/-! ### The shape of a parser: everything but the content -/

/-- A chunk with its lines emptied. -/
def UpdateFileChunk.skeleton (chunk : UpdateFileChunk) : UpdateFileChunk :=
  { chunk with
    oldLines := chunk.oldLines.map fun _ => []
    newLines := chunk.newLines.map fun _ => [] }

/-- A hunk with its content emptied. -/
def Hunk.skeleton : Hunk → Hunk
  | .addFile path _ => .addFile path []
  | .deleteFile path => .deleteFile path
  | .updateFile path movePath chunks =>
    .updateFile path movePath (chunks.map UpdateFileChunk.skeleton)

/-- A parser with the content of its hunks emptied. -/
def StreamingPatchParser.skeleton (parser : StreamingPatchParser) : StreamingPatchParser :=
  { parser with hunks := parser.hunks.map Hunk.skeleton }

variable {chunks : List UpdateFileChunk} {trimmed : Text}

section Skeleton

variable {P P' Q Q' : StreamingPatchParser} {line : Text}

theorem lastChunk_skeleton {f : UpdateFileChunk → Bool} (hf : ∀ c, f c.skeleton = f c)
    (chunks : List UpdateFileChunk) :
    lastChunk f (chunks.map UpdateFileChunk.skeleton) = lastChunk f chunks := by
  unfold lastChunk
  rw [getLast?_map]
  cases chunks.getLast? with
  | none => rfl
  | some chunk => exact hf chunk

@[simp] theorem isBlank_skeleton (chunk : UpdateFileChunk) :
    chunk.skeleton.isBlank = chunk.isBlank := by
  simp only [UpdateFileChunk.isBlank, UpdateFileChunk.skeleton, isEmpty_map]

@[simp] theorem skeleton_comp_skeleton :
    UpdateFileChunk.skeleton ∘ UpdateFileChunk.skeleton = UpdateFileChunk.skeleton := by
  funext chunk
  simp [UpdateFileChunk.skeleton]

theorem pushLines_skeleton {old new : List Text} :
    (pushLines (chunks.map UpdateFileChunk.skeleton) old new).map UpdateFileChunk.skeleton =
      (pushLines chunks old new).map UpdateFileChunk.skeleton := by
  unfold pushLines
  rw [getLast?_map]
  cases chunks.getLast? with
  | none => rfl
  | some chunk =>
    simp [UpdateFileChunk.skeleton]

theorem markEndOfFile_skeleton :
    (markEndOfFile (chunks.map UpdateFileChunk.skeleton)).map UpdateFileChunk.skeleton =
      (markEndOfFile chunks).map UpdateFileChunk.skeleton := by
  unfold markEndOfFile
  rw [getLast?_map]
  cases chunks.getLast? with
  | none => rfl
  | some chunk =>
    simp [UpdateFileChunk.skeleton]

theorem updateHunkLine_skeleton (n : Nat) (movePath : Option Text)
    (chunks : List UpdateFileChunk) (line : Text) :
    (updateHunkLine n movePath (chunks.map UpdateFileChunk.skeleton) line).map
        (Prod.map id (map UpdateFileChunk.skeleton)) = (updateHunkLine n movePath chunks line).map
        (Prod.map id (map UpdateFileChunk.skeleton)) := by
  have heof := lastChunk_skeleton (f := UpdateFileChunk.isEndOfFile) (fun _ => rfl) chunks
  have hblank := lastChunk_skeleton isBlank_skeleton chunks
  have hfull := lastChunk_skeleton (f := fun chunk => !chunk.isBlank)
    (fun c => by rw [isBlank_skeleton]) chunks
  -- every test of the function is about the shape of the chunks
  simp only [updateHunkLine, heof, hblank, hfull, map_eq_nil_iff]
  repeat' split
  all_goals simp [Except.map, pushLines_skeleton, markEndOfFile_skeleton]

theorem hunk_skeleton_skeleton (hunk : Hunk) : hunk.skeleton.skeleton = hunk.skeleton := by
  cases hunk <;> simp [Hunk.skeleton]

theorem skeleton_skeleton (P : StreamingPatchParser) : P.skeleton.skeleton = P.skeleton := by
  simp [skeleton, hunk_skeleton_skeleton]

theorem getLast?_skeleton : P.skeleton.hunks.getLast? = P.hunks.getLast?.map Hunk.skeleton :=
  getLast?_map

theorem ensureUpdateHunkIsNotEmpty_skeleton :
    P.skeleton.ensureUpdateHunkIsNotEmpty line = P.ensureUpdateHunkIsNotEmpty line := by
  unfold ensureUpdateHunkIsNotEmpty
  rw [getLast?_skeleton]
  rcases P.hunks.getLast? with _ | _ | _ | ⟨path, movePath, chunks⟩
  · rfl
  · rfl
  · rfl
  · -- whether the last chunk is blank is a matter of its shape
    have hblank := lastChunk_skeleton isBlank_skeleton chunks
    cases chunks with
    | nil => rfl
    | cons chunk chunks =>
      simp only [map_cons] at hblank
      simp only [Option.map_some, Hunk.skeleton, map_cons, hblank]
      rfl

theorem handleHunkHeadersAndEndPatch_skeleton (trimmed : Text) :
    P.skeleton.handleHunkHeadersAndEndPatch trimmed =
      (P.handleHunkHeadersAndEndPatch trimmed).map (Option.map skeleton) := by
  have hmode : P.skeleton.mode = P.mode := rfl
  have hid : P.skeleton.environmentId = P.environmentId := rfl
  simp only [handleHunkHeadersAndEndPatch, ensureUpdateHunkIsNotEmpty_skeleton, hmode, hid, bind,
    Except.bind, pure, Except.pure, throw, throwThe, MonadExceptOf.throw]
  cases P.ensureUpdateHunkIsNotEmpty trimmed with
  | error e =>
    repeat' split
    all_goals first | rfl | contradiction
  | ok u =>
    repeat' split
    all_goals simp_all [Except.map, skeleton, pushHunk, Hunk.skeleton]

theorem setLastHunk_skeleton {hunk hunk' : Hunk} (h : hunk.skeleton = hunk'.skeleton) :
    (P.skeleton.setLastHunk hunk).skeleton = (P.setLastHunk hunk').skeleton := by
  simp [setLastHunk, skeleton, h, hunk_skeleton_skeleton, Function.comp_def]

theorem addFileLine_skeleton :
    (P.skeleton.addFileLine line).map skeleton = (P.addFileLine line).map skeleton := by
  unfold addFileLine
  rw [getLast?_skeleton]
  rcases line with _ | ⟨c, text⟩
  · rfl
  · by_cases hc : c = '+'
    · subst hc
      rcases P.hunks.getLast? with _ | _ | _ | _
      · rfl
      · exact congrArg ok (setLastHunk_skeleton rfl)
      · rfl
      · rfl
    · split <;> split <;> simp_all [skeleton]

theorem updateFileLine_skeleton :
    (P.skeleton.updateFileLine line).map skeleton = (P.updateFileLine line).map skeleton := by
  unfold updateFileLine
  rw [getLast?_skeleton]
  rcases P.hunks.getLast? with _ | _ | _ | ⟨path, movePath, chunks⟩
  · rfl
  · rfl
  · rfl
  · have hline := updateHunkLine_skeleton P.lineNumber movePath chunks line
    apply map_bind_congr hline
    rintro ⟨m, c⟩ ⟨m', c'⟩ heq
    simp only [Prod.map, id, Prod.mk.injEq] at heq
    obtain ⟨rfl, hc⟩ := heq
    exact congrArg ok (setLastHunk_skeleton (by simp [Hunk.skeleton, hc]))

/-- Headers first, then the other lines `f` of the mode. -/
theorem header_or_skeleton
    {f f' : Except ParseError StreamingPatchParser} (hf : f.map skeleton = f'.map skeleton) :
    (P.skeleton.handleHunkHeadersAndEndPatch trimmed >>= fun
        | some Q => pure Q
        | none => f).map skeleton =
      (P.handleHunkHeadersAndEndPatch trimmed >>= fun
        | some Q => pure Q
        | none => f').map skeleton := by
  rw [handleHunkHeadersAndEndPatch_skeleton]
  rcases P.handleHunkHeadersAndEndPatch trimmed with e | _ | Q
  · rfl
  · exact hf
  · exact congrArg ok (skeleton_skeleton Q)

theorem processLine_skeleton :
    (P.skeleton.processLine line).map skeleton = (P.processLine line).map skeleton := by
  have hmode : P.skeleton.mode = P.mode := rfl
  unfold processLine
  rw [hmode]
  cases P.mode with
  | notStarted =>
    show Except.map _ (if _ then _ else _) = Except.map _ (if _ then _ else _)
    split
    · exact congrArg ok (skeleton_skeleton { P with mode := .startedPatch })
    · rfl
  | startedPatch | deleteFile => exact header_or_skeleton rfl
  | addFile => exact header_or_skeleton addFileLine_skeleton
  | updateFile n => exact header_or_skeleton updateFileLine_skeleton
  | endedPatch =>
    show Except.map _ (if _ then _ else _) = Except.map _ (if _ then _ else _)
    split
    · exact congrArg ok (skeleton_skeleton P)
    · rfl

/-- **What the parser does does not depend on the content it has read.** -/
theorem processLine_alike (h : P.skeleton = P'.skeleton) :
    (P.processLine line).map skeleton = (P'.processLine line).map skeleton := by
  rw [← processLine_skeleton, h, processLine_skeleton]

end Skeleton

/-! ### The content of a line -/

/-- The old and new lines that a line of an update hunk gives, if it is no marker. -/
def contentLine : Text → Option (List Text × List Text)
  | [] => some ([[]], [[]])
  | ' ' :: text => some ([text], [text])
  | '+' :: text => some ([], [text])
  | '-' :: text => some ([text], [])
  | _ => none

/-- What a line of an update hunk does if it is a marker: `some none` is an error. -/
def markerLine (movePath : Option Text) (chunks : List UpdateFileChunk) (updateLine : Text) :
    Option (Option (Option Text × List UpdateFileChunk)) :=
  let startsChunk : Bool :=
    updateLine = emptyChangeContextMarker || (stripPrefix changeContextMarker updateLine).isSome
  let atEndOfFile := lastChunk UpdateFileChunk.isEndOfFile chunks
  let blank := lastChunk UpdateFileChunk.isBlank chunks
  -- behind the end of the file only blank lines and new chunks may come
  if atEndOfFile && updateLine = [] then some (some (movePath, chunks))
  else if atEndOfFile && !startsChunk then some none
  else
    match (if chunks = [] ∧ movePath = none then stripPrefix moveToMarker updateLine else none) with
    | some moveToPath => some (some (some moveToPath, chunks))
    | none =>
      if startsChunk && blank then some none
      else if updateLine = emptyChangeContextMarker then
        some (some (movePath, chunks ++ [⟨none, [], [], false⟩]))
      else
        match stripPrefix changeContextMarker updateLine with
        | some changeContext =>
          some (some (movePath, chunks ++ [⟨some changeContext, [], [], false⟩]))
        | none =>
          if updateLine = eofMarker then
            some (if blank then none else some (movePath, markEndOfFile chunks))
          else none

/-- A line of an update hunk is a marker, or it gives content. -/
theorem updateHunkLine_toOption (n : Nat) (movePath : Option Text)
    (chunks : List UpdateFileChunk) (line : Text) :
    (updateHunkLine n movePath chunks line).toOption =
      match markerLine movePath chunks (trimEnd line) with
      | some result => result
      | none => (contentLine line).map fun (old, new) => (movePath, pushLines chunks old new) := by
  unfold updateHunkLine markerLine
  dsimp only
  repeat' split
  all_goals simp_all [Except.toOption, contentLine]

namespace StreamingPatchParser

/-- The last chunk of the hunk that is being read is at the end of the file. -/
def atEndOfFile (parser : StreamingPatchParser) : Bool :=
  match parser.hunks.getLast? with
  | some (.updateFile _ _ chunks) => lastChunk UpdateFileChunk.isEndOfFile chunks
  | _ => false

/-- The lines of file content that the parser reads from `line`: none from a header or a marker,
    and none from a blank line behind the end of the file. -/
def contentOf (parser : StreamingPatchParser) (line : Text) : List Text :=
  match parser.mode with
  -- headers begin with a star, so a line with a plus sign is none
  | .addFile =>
    match line with
    | '+' :: text => [text]
    | _ => []
  | .updateFile _ =>
    if parser.atEndOfFile && trimEnd line = [] then []
    else
      match contentLine line with
      | some (old, new) => old ++ new
      | none => []
  | _ => []

end StreamingPatchParser

/-! ### One carriage return more -/

variable {movePath : Option Text}

section CarriageReturn

variable {P P' Q Q' : StreamingPatchParser} {line : Text}

theorem trimEnd_concat_cr (line : Text) : trimEnd (line ++ ['\r']) = trimEnd line :=
  trimEnd_concat_of (by decide)

/-- A carriage return at the end of a line of content ends up at the end of the content. -/
theorem contentLine_concat_cr (hline : line ≠ []) :
    contentLine (line ++ ['\r']) = (contentLine line).map
        (Prod.map (map (· ++ ['\r'])) (map (· ++ ['\r']))) := by
  obtain ⟨c, text, rfl⟩ := exists_cons_of_ne_nil hline
  unfold contentLine
  split <;> simp_all

theorem contentLine_ne_nil {content : List Text × List Text}
    (h : contentLine line = some content) : content.1 ++ content.2 ≠ [] := by
  unfold contentLine at h
  split at h <;> cases h <;> simp

/-- A carriage return more is only seen where content is read. -/
theorem processLine_concat_cr_rel (P : StreamingPatchParser) (line : Text)
    {R : Except ParseError StreamingPatchParser → Except ParseError StreamingPatchParser → Prop}
    (hrefl : ∀ x, R x x)
    (hadd : P.mode = .addFile → R (P.addFileLine (line ++ ['\r'])) (P.addFileLine line))
    (hupdate : ∀ n, P.mode = .updateFile n →
      R (P.updateFileLine (line ++ ['\r'])) (P.updateFileLine line)) :
    R (P.processLine (line ++ ['\r'])) (P.processLine line) := by
  -- headers are recognised in the trimmed line, where the carriage return does not show
  unfold processLine
  rw [trim_concat_of (by decide), trimEnd_concat_cr]
  cases hmode : P.mode with
  | notStarted | startedPatch | deleteFile => exact hrefl _
  | addFile =>
    dsimp only
    rcases P.handleHunkHeadersAndEndPatch (trim line) with e | _ | Q
    · exact hrefl _
    · exact hadd hmode
    · exact hrefl _
  | updateFile n =>
    rcases P.handleHunkHeadersAndEndPatch (trimEnd line) with e | _ | Q
    · exact hrefl _
    · exact hupdate n hmode
    · exact hrefl _
  | endedPatch => exact hrefl _

theorem updateHunkLine_eq_ok {n : Nat} {res : Option Text × List UpdateFileChunk} :
    updateHunkLine n movePath chunks line = .ok res ↔
      (updateHunkLine n movePath chunks line).toOption = some res := by
  cases updateHunkLine n movePath chunks line <;> simp [Except.toOption]

theorem pushLines_skeleton_congr {old new : List Text} (f : Text → Text) :
    (pushLines chunks (old.map f) (new.map f)).map UpdateFileChunk.skeleton =
      (pushLines chunks old new).map UpdateFileChunk.skeleton := by
  unfold pushLines
  cases chunks.getLast? with
  | none | some => simp [UpdateFileChunk.skeleton, Function.comp_def]

/-- **A carriage return less.**  If a line is accepted with one more carriage return, it is
    accepted as it is, with the same effect but for the content. -/
theorem processLine_concat_cr (h : P.processLine (line ++ ['\r']) = .ok Q') :
    ∃ Q, P.processLine line = .ok Q ∧ Q.skeleton = Q'.skeleton := by
  have hrel := processLine_concat_cr_rel P line
    (R := fun x y => ∀ Q', x = .ok Q' → ∃ Q, y = .ok Q ∧ Q.skeleton = Q'.skeleton)
    (fun _ Q' hQ' => ⟨Q', hQ', rfl⟩) ?_ ?_
  · exact hrel Q' h
  · -- an added file: the carriage return is at the end of what is added
    intro _ Q' hQ'
    obtain ⟨text, path, contents, htext, hlast, rfl⟩ := addFileLine_cases hQ'
    cases line with
    | nil => cases htext
    | cons c line =>
      obtain ⟨rfl, rfl⟩ := cons.inj htext
      refine ⟨P.setLastHunk (.addFile path (contents ++ line ++ ['\n'])), ?_, ?_⟩
      · simp [addFileLine, hlast]
      · simp [setLastHunk, skeleton, Hunk.skeleton]
  · -- an update: markers are trimmed, and content is longer by the carriage return
    intro n _ Q' hQ'
    obtain ⟨path, movePath, chunks, movePath', chunks', hlast, hline, rfl⟩ :=
      updateFileLine_cases hQ'
    rw [updateHunkLine_eq_ok, updateHunkLine_toOption, trimEnd_concat_cr] at hline
    suffices hres : ∃ chunks'', updateHunkLine P.lineNumber movePath chunks line =
        .ok (movePath', chunks'') ∧ chunks''.map UpdateFileChunk.skeleton =
          chunks'.map UpdateFileChunk.skeleton by
      obtain ⟨chunks'', hok, hskel⟩ := hres
      refine ⟨P.setLastHunk (.updateFile path movePath' chunks''), ?_, ?_⟩
      · simp only [updateFileLine, hlast, hok]
        rfl
      · simp [setLastHunk, skeleton, Hunk.skeleton, hskel]
    simp only [updateHunkLine_eq_ok, updateHunkLine_toOption]
    cases hmarker : markerLine movePath chunks (trimEnd line) with
    | some result =>
      simp only [hmarker] at hline
      exact ⟨chunks', hline, rfl⟩
    | none =>
      by_cases hnil : line = []
      · -- A lone carriage return is no line of an update hunk.
        subst hnil
        simp only [hmarker] at hline
        cases hline
      · simp only [hmarker, contentLine_concat_cr hnil, Option.map_map] at hline
        cases hcontent : contentLine line with
        | none => simp [hcontent] at hline
        | some content =>
          simp only [hcontent, Option.map_some] at hline
          obtain ⟨rfl, rfl⟩ := hline
          exact ⟨_, rfl, (pushLines_skeleton_congr _).symm⟩

/-- Behind the end of the file a blank line is a marker. -/
theorem not_blank_of_markerLine (h : markerLine movePath chunks (trimEnd line) = none) :
    ¬ (lastChunk UpdateFileChunk.isEndOfFile chunks && trimEnd line = []) := by
  intro hblank
  simp only [Bool.and_eq_true, decide_eq_true_eq] at hblank
  simp [markerLine, hblank] at h

/-- Where a line is read as no content, one more carriage return is not seen. -/
theorem processLine_concat_cr_of_not_content (hcontent : P.contentOf line = [])
    (h : P.processLine line = .ok Q) : P.processLine (line ++ ['\r']) = .ok Q := by
  have hrel := processLine_concat_cr_rel P line
    (R := fun x y => ∀ Q, y = .ok Q → x = .ok Q) (fun _ _ hQ => hQ) ?_ ?_
  · exact hrel Q h
  · intro hmode Q hQ
    obtain ⟨text, path, contents, rfl, hlast, rfl⟩ := addFileLine_cases hQ
    simp [contentOf, hmode] at hcontent
  · intro n hmode Q hQ
    obtain ⟨path, movePath, chunks, movePath', chunks', hlast, hline, rfl⟩ :=
      updateFileLine_cases hQ
    suffices hok : updateHunkLine P.lineNumber movePath chunks (line ++ ['\r']) =
        .ok (movePath', chunks') by
      simp only [updateFileLine, hlast, hok]
      rfl
    rw [updateHunkLine_eq_ok, updateHunkLine_toOption] at hline ⊢
    rw [trimEnd_concat_cr]
    cases hmarker : markerLine movePath chunks (trimEnd line) with
    | some result => simpa [hmarker] using hline
    | none =>
      -- No marker, so the line was read as content.
      simp only [contentOf, hmode, atEndOfFile, hlast] at hcontent
      rw [if_neg (not_blank_of_markerLine hmarker)] at hcontent
      cases hcl : contentLine line with
      | none => simp [hmarker, hcl] at hline
      | some content =>
        rw [hcl] at hcontent
        exact absurd hcontent (contentLine_ne_nil hcl)

end CarriageReturn

/-! ### The amount of content -/

/-- The characters of the lines, with a line feed for each. -/
def linesWeight (ls : List Text) : Nat := (ls.map (·.length + 1)).sum

def UpdateFileChunk.weight (chunk : UpdateFileChunk) : Nat :=
  linesWeight chunk.oldLines + linesWeight chunk.newLines

def Hunk.weight : Hunk → Nat
  | .addFile _ contents => contents.length
  | .deleteFile _ => 0
  | .updateFile _ _ chunks => (chunks.map UpdateFileChunk.weight).sum

/-- The amount of content that the parser has read. -/
def StreamingPatchParser.weight (parser : StreamingPatchParser) : Nat :=
  (parser.hunks.map Hunk.weight).sum

section Weight

variable {P P' Q Q' : StreamingPatchParser} {line : Text}

@[simp] theorem linesWeight_nil : linesWeight [] = 0 := rfl

@[simp] theorem linesWeight_append (a b : List Text) :
    linesWeight (a ++ b) = linesWeight a + linesWeight b := by
  simp [linesWeight]

theorem linesWeight_concat_cr (ls : List Text) :
    linesWeight (ls.map (· ++ ['\r'])) = linesWeight ls + ls.length := by
  induction ls with
  | nil => rfl
  | cons l ls ih =>
    simp only [linesWeight, map_cons, sum_cons, length_append, length_cons, length_nil] at ih ⊢
    omega

theorem weight_setLastHunk {hunk : Hunk} (h : P.hunks.getLast? = some hunk) (hunk' : Hunk) :
    (P.setLastHunk hunk').weight + hunk.weight = P.weight + hunk'.weight := by
  obtain ⟨hunks, hhunks⟩ := getLast?_eq_some_iff.mp h
  simp only [weight, setLastHunk, hhunks, dropLast_concat, map_append, sum_append,
    map_cons, sum_cons]
  omega

variable (chunks)

theorem weight_pushLines (old new : List Text) :
    ((pushLines chunks old new).map UpdateFileChunk.weight).sum =
      (chunks.map UpdateFileChunk.weight).sum + linesWeight (old ++ new) := by
  unfold pushLines
  cases hlast : chunks.getLast? with
  | none =>
    rw [getLast?_eq_none_iff] at hlast
    simp [hlast, UpdateFileChunk.weight]
  | some chunk =>
    obtain ⟨front, rfl⟩ := getLast?_eq_some_iff.mp hlast
    simp only [dropLast_concat, map_append, sum_append, map_cons,
      sum_cons, UpdateFileChunk.weight, linesWeight_append]
    omega

theorem weight_markEndOfFile :
    ((markEndOfFile chunks).map UpdateFileChunk.weight).sum =
      (chunks.map UpdateFileChunk.weight).sum := by
  unfold markEndOfFile
  cases hlast : chunks.getLast? with
  | none =>
    rw [getLast?_eq_none_iff] at hlast
    simp [hlast]
  | some chunk =>
    obtain ⟨front, rfl⟩ := getLast?_eq_some_iff.mp hlast
    simp [UpdateFileChunk.weight]

variable {chunks}

/-- A marker begins with a star or an at sign, and adds no content; behind the end of the file
    also a blank line is one. -/
theorem markerLine_cases {movePath' : Option Text} {chunks' : List UpdateFileChunk}
    {updateLine : Text}
    (h : markerLine movePath chunks updateLine = some (some (movePath', chunks'))) :
    ((lastChunk UpdateFileChunk.isEndOfFile chunks ∧ updateLine = []) ∨
        updateLine.head? = some '*' ∨ updateLine.head? = some '@') ∧
      (chunks'.map UpdateFileChunk.weight).sum = (chunks.map UpdateFileChunk.weight).sum := by
  have hstrip {c : Char} {p r : Text} (hp : stripPrefix (c :: p) updateLine = some r) :
      updateLine.head? = some c := by
    rw [stripPrefix_eq_some.mp hp]
    rfl
  -- one case for each branch of the definition
  unfold markerLine at h
  dsimp only at h
  split at h
  · rename_i heof
    simp only [Bool.and_eq_true, decide_eq_true_eq] at heof
    cases h
    exact ⟨.inl heof, rfl⟩
  split at h
  · cases h
  split at h
  · rename_i path hmove
    cases h
    split_ifs at hmove
    exact ⟨.inr (.inl (hstrip hmove)), rfl⟩
  split at h
  · cases h
  split at h
  · rename_i hempty
    cases h
    refine ⟨.inr (.inr ?_), by simp [UpdateFileChunk.weight]⟩
    rw [hempty]
    rfl
  split at h
  · rename_i context hcontext
    cases h
    exact ⟨.inr (.inr (hstrip hcontext)), by simp [UpdateFileChunk.weight]⟩
  split at h
  · rename_i heof
    rw [Option.some.injEq] at h
    split_ifs at h
    cases h
    refine ⟨.inr (.inl ?_), weight_markEndOfFile chunks⟩
    rw [heof]
    rfl
  · cases h

theorem contentLine_eq_none {c : Char} (h : (trimEnd line).head? = some c)
    (hc : c = '*' ∨ c = '@') : contentLine line = none := by
  have hline := head?_trimEnd h
  cases line with
  | nil => cases hline
  | cons d line =>
    obtain rfl := Option.some.inj hline
    rcases hc with rfl | rfl <;> rfl

theorem weight_of_header
    (h : P.handleHunkHeadersAndEndPatch trimmed = .ok (some Q)) : Q.weight = P.weight := by
  rcases handleHunkHeadersAndEndPatch_cases h with
    ⟨_, rfl⟩ | ⟨_, rfl⟩ | ⟨_, rfl⟩ | ⟨_, rfl⟩ | ⟨_, rfl⟩ <;> simp [weight, pushHunk, Hunk.weight]

/-- A lone carriage return is no line of an update hunk. -/
theorem processLine_lone_cr {n : Nat} (hmode : P.mode = .updateFile n)
    (heof : P.atEndOfFile = false) : P.processLine ['\r'] ≠ .ok Q := by
  intro h
  have hheader : P.handleHunkHeadersAndEndPatch (trimEnd ['\r']) = .ok none :=
    handleHunkHeadersAndEndPatch_of_head (by decide)
  have hupdate : P.updateFileLine ['\r'] = .ok Q := processLine_updateFile hmode hheader ▸ h
  obtain ⟨path, movePath, chunks, movePath', chunks', hlast, hline, rfl⟩ :=
    updateFileLine_cases hupdate
  have hmarker : markerLine movePath chunks (trimEnd ['\r']) = none := by
    have hblank : trimEnd ['\r'] = [] := rfl
    have hmove : stripPrefix moveToMarker [] = none := rfl
    have hcontext : stripPrefix changeContextMarker [] = none := rfl
    have hempty : emptyChangeContextMarker ≠ [] := by decide
    have hend : eofMarker ≠ [] := by decide
    simp only [atEndOfFile, hlast] at heof
    simp [markerLine, hblank, heof, hmove, hcontext, hempty.symm, hend.symm]
  rw [updateHunkLine_eq_ok, updateHunkLine_toOption, hmarker] at hline
  cases hline

/-- **What a line adds** is the content it is read as. -/
theorem weight_processLine (h : P.processLine line = .ok Q) :
    Q.weight = P.weight + linesWeight (P.contentOf line) := by
  rcases processLine_cases h with
    ⟨hmode, -, rfl⟩ | ⟨hmode, -, rfl⟩ | ⟨hheader, hmode⟩ | ⟨hheader, n, hmode⟩ |
    ⟨hmode, -, hadd⟩ | ⟨⟨n, hmode⟩, -, hupdate⟩
  · simp [contentOf, hmode, weight]
  · simp [contentOf, hmode]
  · -- a header outside of an update
    have hcontent : P.contentOf line = [] := by
      rcases hmode with hmode | hmode | hmode
      · simp [contentOf, hmode]
      · simp [contentOf, hmode]
      · -- A line of content is no header.
        simp only [contentOf, hmode]
        split
        · rename_i text
          rw [handleHunkHeadersAndEndPatch_of_head (head?_trim_plus text)] at hheader
          cases hheader
        · rfl
    rw [hcontent, weight_of_header hheader]
    rfl
  · have hcontent : P.contentOf line = [] := by
      have hstar : (trimEnd line).head? = some '*' := by
        by_contra hne
        rw [handleHunkHeadersAndEndPatch_of_head hne] at hheader
        cases hheader
      simp [contentOf, hmode, contentLine_eq_none hstar (.inl rfl)]
    rw [hcontent, weight_of_header hheader]
    rfl
  · -- a line of an added file
    obtain ⟨text, path, contents, rfl, hlast, rfl⟩ := addFileLine_cases hadd
    have hweight := weight_setLastHunk hlast (.addFile path (contents ++ text ++ ['\n']))
    simp only [Hunk.weight, length_append, length_cons, length_nil] at hweight
    simp only [contentOf, hmode, linesWeight, map_cons, map_nil, sum_cons, sum_nil]
    omega
  · obtain ⟨path, movePath, chunks, movePath', chunks', hlast, hline, rfl⟩ :=
      updateFileLine_cases hupdate
    have hweight := weight_setLastHunk hlast (.updateFile path movePath' chunks')
    simp only [Hunk.weight] at hweight
    -- a line of an update: it is enough to count in the chunks
    suffices hgain : (chunks'.map UpdateFileChunk.weight).sum =
        (chunks.map UpdateFileChunk.weight).sum + linesWeight (P.contentOf line) by omega
    rw [updateHunkLine_eq_ok, updateHunkLine_toOption] at hline
    simp only [contentOf, hmode, atEndOfFile, hlast]
    cases hmarker : markerLine movePath chunks (trimEnd line) with
    | some result =>
      simp only [hmarker] at hline
      obtain ⟨hhead, hsum⟩ := markerLine_cases (hmarker.trans (congrArg some hline))
      rcases hhead with ⟨heof, hblank⟩ | hhead
      · simp [heof, hblank, hsum]
      · have hnone : contentLine line = none := by
          rcases hhead with hhead | hhead
          · exact contentLine_eq_none hhead (.inl rfl)
          · exact contentLine_eq_none hhead (.inr rfl)
        simp [hnone, hsum]
    | none =>
      rw [if_neg (not_blank_of_markerLine hmarker)]
      cases hcl : contentLine line with
      | none => simp [hmarker, hcl] at hline
      | some content =>
        simp only [hmarker, hcl, Option.map_some] at hline
        obtain ⟨-, rfl⟩ := hline
        exact weight_pushLines chunks content.1 content.2

theorem contentOf_skeleton : P.skeleton.contentOf line = P.contentOf line := by
  have heof : P.skeleton.atEndOfFile = P.atEndOfFile := by
    unfold atEndOfFile
    rw [getLast?_skeleton]
    rcases P.hunks.getLast? with _ | _ | _ | ⟨path, movePath, chunks⟩
    · rfl
    · rfl
    · rfl
    · exact lastChunk_skeleton (fun _ => rfl) chunks
  unfold contentOf
  rw [heof]
  rfl

/-- A carriage return more is more content. -/
theorem linesWeight_contentOf_concat_cr (hcontent : P.contentOf line ≠ [])
    (h : P.processLine (line ++ ['\r']) = .ok Q) :
    linesWeight (P.contentOf line) < linesWeight (P.contentOf (line ++ ['\r'])) := by
  cases hmode : P.mode with
  | addFile =>
    simp only [contentOf, hmode] at hcontent ⊢
    split at hcontent
    · simp [linesWeight]
    · exact absurd rfl hcontent
  | updateFile n =>
    have hor : (P.atEndOfFile && trimEnd line = []) = false ∧
        ∃ content, contentLine line = some content := by
      simp only [contentOf, hmode] at hcontent
      split at hcontent
      · exact absurd rfl hcontent
      · rename_i hblank
        refine ⟨by simpa using hblank, ?_⟩
        cases hcl : contentLine line with
        | none => simp [hcl] at hcontent
        | some content => exact ⟨content, rfl⟩
    obtain ⟨hblank, content, hcl⟩ := hor
    by_cases hnil : line = []
    · -- A lone carriage return is not accepted.
      subst hnil
      simp only [trimEnd_nil, decide_true, Bool.and_true] at hblank
      exact absurd h (processLine_lone_cr hmode hblank)
    · simp only [contentOf, hmode, trimEnd_concat_cr, hblank, contentLine_concat_cr hnil, hcl,
        Option.map_some, Prod.map, Bool.false_eq_true, if_false, ← map_append,
        linesWeight_concat_cr]
      have hpos := length_pos_of_ne_nil (contentLine_ne_nil hcl)
      omega
  | notStarted | startedPatch | deleteFile | endedPatch => simp [contentOf, hmode] at hcontent

end Weight

/-! ### The two parsers, line by line

The streaming parser gets the piece `raw` of the text in front of a line feed, the batch parser
gets `stripCr raw`; both cut off one carriage return from it. -/

theorem double_cr_iff (raw : Text) :
    ['\r', '\r'] <:+ raw ↔ stripCr raw = stripCr (stripCr raw) ++ ['\r'] := by
  constructor
  · rintro ⟨line, rfl⟩
    have hline : stripCr (line ++ ['\r', '\r']) = line ++ ['\r'] :=
      append_cons line '\r' ['\r'] ▸ stripCr_concat_cr (line ++ ['\r'])
    rw [hline, stripCr_concat_cr]
  · intro h
    rcases stripCr_cases raw with heq | heq
    · -- Nothing was cut off from `raw`, so it does not end in a carriage return.
      rw [heq, heq] at h
      simpa using congrArg length h
    · conv_rhs => rw [heq, h]
      simp

/-- No line that is read as file content ends in two carriage returns and a line feed.  The
    lines are read by the parser in the state in which the batch parser comes to them. -/
def NoDoubleCr (parser : StreamingPatchParser) : List Text → Prop
  | [] => True
  | raw :: raws =>
    (parser.contentOf (stripCr (stripCr raw)) ≠ [] → ¬ ['\r', '\r'] <:+ raw) ∧
      match parser.feedLine (stripCr raw) with
      | .ok parser => NoDoubleCr parser raws
      | .error _ => True

instance decidableNoDoubleCr :
    (raws : List Text) → (parser : StreamingPatchParser) → Decidable (NoDoubleCr parser raws)
  | [], _ => isTrue trivial
  | raw :: raws, parser =>
    have : Decidable (match parser.feedLine (stripCr raw) with
        | .ok parser => NoDoubleCr parser raws
        | .error _ => True) :=
      match parser.feedLine (stripCr raw) with
      | .ok parser => decidableNoDoubleCr raws parser
      | .error _ => isTrue trivial
    inferInstanceAs (Decidable (_ ∧ _))

section Runs

variable {P P' Q Q' R : StreamingPatchParser} {raw last : Text} {raws : List Text}

/-- The state in which a line is worked on. -/
theorem skeleton_next (h : P.skeleton = P'.skeleton) :
    ({ P with lineBuffer := [], lineNumber := P.lineNumber + 1 } : StreamingPatchParser).skeleton =
      ({ P' with lineBuffer := [], lineNumber := P'.lineNumber + 1 } :
        StreamingPatchParser).skeleton := by
  simp only [skeleton, StreamingPatchParser.mk.injEq] at h ⊢
  obtain ⟨-, hmode, hhunks, hid, hn⟩ := h
  exact ⟨trivial, hmode, hhunks, hid, by rw [hn]⟩

theorem feedLine_alike (h : P.skeleton = P'.skeleton) (hok : P'.feedLine raw = .ok Q') :
    ∃ Q, P.feedLine (stripCr raw) = .ok Q ∧ Q.skeleton = Q'.skeleton := by
  obtain ⟨Q, hQ, hskel⟩ := exists_ok_of_map_eq (processLine_alike (skeleton_next h)) hok
  unfold feedLine
  rcases stripCr_cases (stripCr raw) with heq | heq
  · rw [heq]
    exact ⟨Q, hQ, hskel⟩
  · rw [heq] at hQ
    obtain ⟨Q₁, hQ₁, hskel₁⟩ := processLine_concat_cr hQ
    exact ⟨Q₁, hQ₁, hskel₁.trans hskel⟩

/-- One line adds at least as much content to the streaming parser, and more if it is content
    with two carriage returns at its end. -/
theorem weight_feedLine (h : P.skeleton = P'.skeleton) (hQ : P.feedLine (stripCr raw) = .ok Q)
    (hQ' : P'.feedLine raw = .ok Q') :
    Q.weight + P'.weight ≤ Q'.weight + P.weight ∧
      (P.contentOf (stripCr (stripCr raw)) ≠ [] → ['\r', '\r'] <:+ raw →
        Q.weight + P'.weight < Q'.weight + P.weight) := by
  have hweight := weight_processLine hQ
  have hweight' := weight_processLine hQ'
  rw [← contentOf_skeleton, ← skeleton_next h, contentOf_skeleton] at hweight'
  change Q.weight = P.weight + linesWeight (P.contentOf (stripCr (stripCr raw))) at hweight
  change Q'.weight = P'.weight + linesWeight (P.contentOf (stripCr raw)) at hweight'
  -- both parsers read the line in the same shape of state
  rw [double_cr_iff]
  rcases stripCr_cases (stripCr raw) with heq | heq
  · rw [heq] at hweight
    refine ⟨by omega, fun _ hcr => ?_⟩
    rw [heq] at hcr
    simpa using congrArg length hcr
  · by_cases hcontent : P.contentOf (stripCr (stripCr raw)) = []
    · rw [hcontent, linesWeight_nil] at hweight
      exact ⟨by omega, fun hne => absurd hcontent hne⟩
    · obtain ⟨Q₁, hQ₁, -⟩ := exists_ok_of_map_eq (processLine_alike (skeleton_next h)) hQ'
      rw [heq] at hQ₁
      have hlt := linesWeight_contentOf_concat_cr
        (P := { P with lineBuffer := [], lineNumber := P.lineNumber + 1 }) hcontent hQ₁
      rw [← heq] at hlt
      change linesWeight (P.contentOf (stripCr (stripCr raw))) <
        linesWeight (P.contentOf (stripCr raw)) at hlt
      exact ⟨by omega, fun _ _ => by omega⟩

theorem feedLine_of_no_double_cr
    (hcr : P.contentOf (stripCr (stripCr raw)) ≠ [] → ¬ ['\r', '\r'] <:+ raw)
    (h : P.feedLine (stripCr raw) = .ok Q) : P.feedLine raw = .ok Q := by
  unfold feedLine at h ⊢
  rcases stripCr_cases (stripCr raw) with heq | heq
  · rwa [heq] at h
  · have hcontent : P.contentOf (stripCr (stripCr raw)) = [] := by
      by_contra hne
      exact hcr hne ((double_cr_iff raw).mpr heq)
    rw [heq]
    exact processLine_concat_cr_of_not_content hcontent h

/-- What the streaming parser accepts, the batch parser accepts. -/
theorem foldlM_feedLine_alike (h : P.skeleton = P'.skeleton)
    (hok : raws.foldlM feedLine P' = .ok Q') :
    ∃ Q, (raws.map stripCr).foldlM feedLine P = .ok Q ∧ Q.skeleton = Q'.skeleton := by
  induction raws generalizing P P' with
  | nil =>
    cases hok
    exact ⟨P, rfl, h⟩
  | cons raw raws ih =>
    obtain ⟨R', hR', hrest'⟩ := foldlM_cons_ok.mp hok
    obtain ⟨R, hR, hskel⟩ := feedLine_alike h hR'
    obtain ⟨Q, hQ, hskelQ⟩ := ih hskel hrest'
    exact ⟨Q, foldlM_cons_ok.mpr ⟨R, hR, hQ⟩, hskelQ⟩

/-- A line of content with two carriage returns at its end shows in the end. -/
theorem weight_foldlM_feedLine (h : P.skeleton = P'.skeleton)
    (hQ : (raws.map stripCr).foldlM feedLine P = .ok Q) (hQ' : raws.foldlM feedLine P' = .ok Q') :
    Q.weight + P'.weight ≤ Q'.weight + P.weight ∧
      (¬ NoDoubleCr P raws → Q.weight + P'.weight < Q'.weight + P.weight) := by
  -- the gap between the two amounts never closes again
  induction raws generalizing P P' with
  | nil =>
    cases hQ
    cases hQ'
    exact ⟨by omega, fun hnot => absurd trivial hnot⟩
  | cons raw raws ih =>
    obtain ⟨R', hR', hrest'⟩ := foldlM_cons_ok.mp hQ'
    obtain ⟨R, hR, hrest⟩ := foldlM_cons_ok.mp hQ
    obtain ⟨R₁, hR₁, hskel⟩ := feedLine_alike h hR'
    obtain rfl : R₁ = R := ok.inj (hR₁.symm.trans hR)
    obtain ⟨hle, hlt⟩ := weight_feedLine h hR hR'
    obtain ⟨hle', hlt'⟩ := ih hskel hrest hrest'
    refine ⟨by omega, fun hnot => ?_⟩
    simp only [NoDoubleCr, hR, not_and_or] at hnot
    rcases hnot with hnot | hnot
    · rw [Classical.not_imp, not_not] at hnot
      have := hlt hnot.1 hnot.2
      omega
    · have := hlt' hnot
      omega

/-- Without such lines the two parsers do the same. -/
theorem foldlM_feedLine_of_noDoubleCr (hcr : NoDoubleCr P raws)
    (hQ : (raws.map stripCr).foldlM feedLine P = .ok Q) : raws.foldlM feedLine P = .ok Q := by
  induction raws generalizing P with
  | nil => exact hQ
  | cons raw raws ih =>
    obtain ⟨R, hR, hrest⟩ := foldlM_cons_ok.mp hQ
    simp only [NoDoubleCr, hR] at hcr
    exact foldlM_cons_ok.mpr ⟨R, feedLine_of_no_double_cr hcr.1 hR, ih hcr.2 hrest⟩

/-! ### The end of the text -/

theorem finish_alike (h : Q.skeleton = Q'.skeleton) (hne : last ≠ [])
    (hend : trim last = endPatchMarker) (hok : { Q' with lineBuffer := last }.finish = .ok R) :
    ∃ R, { Q with lineBuffer := last }.finish = .ok R := by
  -- the end only asks whether the last hunk is empty, which the shape tells
  rw [finish_of_end hne hend, ← ensureUpdateHunkIsNotEmpty_skeleton] at hok ⊢
  rw [skeleton_next h]
  cases hensure : ensureUpdateHunkIsNotEmpty _ _ with
  | error e =>
    rw [hensure] at hok
    cases hok
  | ok u => exact ⟨_, rfl⟩

theorem trim_of_trimEnd_head {line : Text} (h : (trimEnd line).head? = some '*') :
    trim line = trimEnd line := by
  have hhead := head?_trimEnd h
  have hstart : trimStart line = line := by
    apply trimStart_eq_self
    intro c hc
    rw [hhead] at hc
    obtain rfl := Option.some.inj hc
    rfl
  rw [trim, hstart]

/-- Of the headers only the end marker ends the patch. -/
theorem eq_endPatchMarker_of_header
    (h : P.handleHunkHeadersAndEndPatch trimmed = .ok (some R)) (hP : P.mode ≠ .endedPatch)
    (hmode : R.mode = .endedPatch) : trimmed = endPatchMarker := by
  rcases handleHunkHeadersAndEndPatch_cases h with
    ⟨_, rfl⟩ | ⟨hend, -⟩ | ⟨_, rfl⟩ | ⟨_, rfl⟩ | ⟨_, rfl⟩
  · exact absurd hmode hP
  · exact hend
  · cases hmode
  · cases hmode
  · cases hmode

/-- Only an end marker ends the patch, and only blank lines may follow it. -/
theorem trim_of_processLine_ended {line : Text} (h : P.processLine line = .ok R)
    (hmode : R.mode = .endedPatch) : trim line = endPatchMarker ∨ trim line = [] := by
  rcases processLine_cases h with
    ⟨-, -, rfl⟩ | ⟨-, hblank, -⟩ | ⟨hheader, hP⟩ | ⟨hheader, n, hP⟩ | ⟨hP, -, hadd⟩ |
    ⟨⟨n, hP⟩, -, hupdate⟩
  · cases hmode
  · exact .inr hblank
  · left
    apply eq_endPatchMarker_of_header hheader _ hmode
    rcases hP with hP | hP | hP <;> simp [hP]
  · left
    have hend := eq_endPatchMarker_of_header hheader (by simp [hP]) hmode
    rw [trim_of_trimEnd_head (by rw [hend]; rfl), hend]
  · -- a line of an added file leaves the mode as it is, and so does one of an update
    obtain ⟨_, _, _, -, -, rfl⟩ := addFileLine_cases hadd
    rw [show P.mode = .endedPatch from hmode] at hP
    cases hP
  · obtain ⟨_, _, _, _, _, -, -, rfl⟩ := updateFileLine_cases hupdate
    rw [show P.mode = .endedPatch from hmode] at hP
    cases hP

theorem trim_of_finish (hne : last ≠ []) (hok : { Q with lineBuffer := last }.finish = .ok R) :
    trim last = endPatchMarker ∨ trim last = [] := by
  by_cases hend : trim last = endPatchMarker
  · exact .inl hend
  · simp only [finish, hne, if_false, hend, bind, Except.bind, throw] at hok
    cases hline : processLine _ last with
    | error e =>
      rw [hline] at hok
      cases hok
    | ok R' =>
      rw [hline] at hok
      dsimp only at hok
      split_ifs at hok with hmode
      exact trim_of_processLine_ended hline hmode

theorem trim_ne_nil {c : Char} (hlast : last.getLast? = some c) (hc : isWhitespace c = false) :
    trim last ≠ [] := by
  intro htrim
  obtain ⟨front, rfl⟩ := getLast?_eq_some_iff.mp hlast
  obtain ⟨w, hw, hws⟩ := trimStart_append_ws (front ++ [c])
  obtain ⟨v, hv, hvs⟩ := trimEnd_append_ws (trimStart (front ++ [c]))
  rw [trim] at htrim
  rw [htrim] at hv
  have hmem : c ∈ w ++ trimStart (front ++ [c]) := by
    rw [← hw]
    simp
  rcases mem_append.mp hmem with hmem | hmem
  · simp [hws c hmem] at hc
  · rw [hv] at hmem
    simp [hvs c hmem] at hc

end Runs

/-! ### Texts from a begin marker to an end marker -/

section Texts

variable {text : Text}

/-- A text whose first line is the begin marker and that ends in the end marker, by its lines. -/
theorem exists_lines_of_markers (hbegin : (lines text).head? = some beginPatchMarker)
    (hend : endPatchMarker <:+ text) :
    ∃ first raws last, text = joinLines (first :: raws ++ [last]) ∧
      (text.splitOn '\n').dropLast = first :: raws ∧ (∀ l ∈ first :: raws, '\n' ∉ l) ∧
      '\n' ∉ last ∧ stripCr first = beginPatchMarker ∧ last.getLast? = some 'h' := by
  have hjoin : joinLines (text.splitOn '\n') = text := intercalate_splitOn '\n'
  have hmem : ∀ l ∈ text.splitOn '\n', '\n' ∉ l := fun l hl => not_mem_of_mem_splitOn hl
  have hlast : text.getLast? = some 'h' := by
    obtain ⟨front, rfl⟩ := hend
    rw [getLast?_append_of_ne_nil _ (by decide)]
    rfl
  unfold lines at hbegin
  rcases eq_nil_or_concat (text.splitOn '\n') with hnil | ⟨raws, last, hraws⟩
  · exact absurd hnil (splitOn_ne_nil '\n' text)
  rw [hraws] at hjoin hmem hbegin
  simp only [concat_eq_append] at hjoin hmem hbegin hraws
  rw [hraws]
  simp only [dropLast_concat] at hbegin ⊢
  cases raws with
  | nil =>
    -- The text is one line, which cannot be both markers.
    have hone : last = text := by
      rw [← hjoin]
      simp [joinLines]
    subst hone
    have heq : last = beginPatchMarker := by
      simp at hbegin
      exact hbegin.1
    subst heq
    exact absurd hend (by decide)
  | cons first raws =>
    refine ⟨first, raws, last, hjoin.symm, rfl,
      fun l hl => hmem l (mem_append_left _ hl), hmem last (by simp), by simpa using hbegin, ?_⟩
    have hconcat : joinLines (first :: raws ++ [last]) =
        joinLines (first :: raws) ++ '\n' :: last := joinLines_concat (by simp)
    rw [← hjoin, hconcat] at hlast
    cases last with
    | nil => simp at hlast
    | cons c last => simpa using hlast

end Texts

/-! ### Agreement -/

section Agreement

variable {raws : List Text} {last : Text} {R R' : StreamingPatchParser}
  (hraws : ∀ l ∈ raws, '\n' ∉ l) (hlast : '\n' ∉ last) (hne : last ≠ [])
  (hend : trim last = endPatchMarker)

include hraws in
theorem stripCr_lines : ∀ l ∈ raws.map stripCr, '\n' ∉ l := by
  intro l hl
  obtain ⟨raw, hraw, rfl⟩ := mem_map.mp hl
  exact not_mem_stripCr (hraws raw hraw)

include hraws hlast hne hend

theorem streamPatch_stripCr_ok (h : streamPatch (joinLines (raws ++ [last])) = .ok R') :
    ∃ R, streamPatch (joinLines (raws.map stripCr ++ [last])) = .ok R := by
  rw [streamPatch_joinLines hraws hlast] at h
  rw [streamPatch_joinLines (stripCr_lines hraws) hlast]
  obtain ⟨Q', hQ', hfin'⟩ := bind_eq_ok.mp h
  obtain ⟨Q, hQ, hskel⟩ := foldlM_feedLine_alike rfl hQ'
  obtain ⟨R, hR⟩ := finish_alike hskel hne hend hfin'
  exact ⟨R, bind_eq_ok.mpr ⟨Q, hQ, hR⟩⟩

omit hne hend in
theorem streamPatch_of_noDoubleCr (hcr : NoDoubleCr .default raws)
    (h : streamPatch (joinLines (raws.map stripCr ++ [last])) = .ok R) :
    streamPatch (joinLines (raws ++ [last])) = .ok R := by
  rw [streamPatch_joinLines (stripCr_lines hraws) hlast] at h
  rw [streamPatch_joinLines hraws hlast]
  obtain ⟨Q, hQ, hfin⟩ := bind_eq_ok.mp h
  exact bind_eq_ok.mpr ⟨Q, foldlM_feedLine_of_noDoubleCr hcr hQ, hfin⟩

theorem noDoubleCr_of_hunks_eq (h : streamPatch (joinLines (raws.map stripCr ++ [last])) = .ok R)
    (h' : streamPatch (joinLines (raws ++ [last])) = .ok R') (heq : R.hunks = R'.hunks) :
    NoDoubleCr .default raws := by
  rw [streamPatch_joinLines (stripCr_lines hraws) hlast] at h
  rw [streamPatch_joinLines hraws hlast] at h'
  obtain ⟨Q, hQ, hfin⟩ := bind_eq_ok.mp h
  obtain ⟨Q', hQ', hfin'⟩ := bind_eq_ok.mp h'
  rw [finish_hunks hne hend hfin, finish_hunks hne hend hfin'] at heq
  have hweight : Q.weight = Q'.weight := by simp only [weight, heq]
  -- equal hunks have equal amounts of content
  by_contra hnot
  have hlt := (weight_foldlM_feedLine rfl hQ hQ').2 hnot
  omega

omit hraws hlast hend in
/-- A text that does not end in a line with the end marker is no patch for the streaming
    parser. -/
theorem streamPatch_of_not_end {ls : List Text} {c : Char} (hls : ∀ l ∈ ls, '\n' ∉ l)
    (hlast : '\n' ∉ last) (hc : last.getLast? = some c) (hws : isWhitespace c = false)
    (hnot : trim last ≠ endPatchMarker) : streamPatch (joinLines (ls ++ [last])) ≠ .ok R := by
  intro h
  rw [streamPatch_joinLines hls hlast] at h
  obtain ⟨Q, -, hfin⟩ := bind_eq_ok.mp h
  rcases trim_of_finish hne hfin with htrim | htrim
  · exact hnot htrim
  · exact trim_ne_nil hc hws htrim

end Agreement

/-- **The two parsers agree** on a text from a begin marker to an end marker — both accept it or
    both reject it, with the same hunks and the same environment id — exactly if the batch parser
    rejects the text, or no line that is read as file content ends in two carriage returns. -/
theorem parsePatch_agrees_streamPatch_iff (text : Text)
    (hbegin : (lines text).head? = some beginPatchMarker) (hend : endPatchMarker <:+ text) :
    (((∃ args, parsePatch text = .ok args) ↔ ∃ parser, streamPatch text = .ok parser) ∧
      ∀ args parser, parsePatch text = .ok args → streamPatch text = .ok parser →
        args.hunks = parser.hunks ∧ args.environmentId = parser.environmentId) ↔
      ((∃ args, parsePatch text = .ok args) →
        NoDoubleCr .default (text.splitOn '\n').dropLast) := by
  obtain ⟨first, raws, last, rfl, hpieces, hraws, hlast, hfirst, hh⟩ :=
    exists_lines_of_markers hbegin hend
  have hne : last ≠ [] := by
    rintro rfl
    cases hh
  have htrimmed : IsTrimmed (joinLines (first :: raws ++ [last])) := isTrimmed_joinLines hfirst hh
  have hbatch := parsePatch_joinLines hraws hlast hne htrimmed.trim_eq (by rw [hfirst]; decide)
  rw [hpieces]
  -- the last line need not be the end marker, only end in it
  by_cases hmark : trim last = endPatchMarker
  · rw [if_pos hmark] at hbatch
    have hok : ∀ args, parsePatch (joinLines (first :: raws ++ [last])) = .ok args → ∃ R,
        streamPatch (joinLines ((first :: raws).map stripCr ++ [last])) = .ok R ∧
          args.hunks = R.hunks ∧ args.environmentId = R.environmentId := by
      intro args hargs
      rw [hbatch] at hargs
      obtain ⟨R, hR, hargs⟩ := bind_eq_ok.mp hargs
      obtain rfl := ok.inj hargs
      exact ⟨R, hR, rfl, rfl⟩
    constructor
    · rintro ⟨hiff, hsame⟩ ⟨args, hargs⟩
      obtain ⟨R', hR'⟩ := hiff.mp ⟨args, hargs⟩
      obtain ⟨R, hR, hhunks, -⟩ := hok args hargs
      exact noDoubleCr_of_hunks_eq hraws hlast hne hmark hR hR'
        (hhunks.symm.trans (hsame args R' hargs hR').1)
    · intro hcr
      refine ⟨⟨?_, ?_⟩, ?_⟩
      · rintro ⟨args, hargs⟩
        obtain ⟨R, hR, -⟩ := hok args hargs
        exact ⟨R, streamPatch_of_noDoubleCr hraws hlast (hcr ⟨args, hargs⟩) hR⟩
      · rintro ⟨R', hR'⟩
        obtain ⟨R, hR⟩ := streamPatch_stripCr_ok hraws hlast hne hmark hR'
        exact ⟨_, hbatch.trans (bind_eq_ok.mpr ⟨R, hR, rfl⟩)⟩
      · intro args R' hargs hR'
        obtain ⟨R, hR, hhunks, hid⟩ := hok args hargs
        have hsame := streamPatch_of_noDoubleCr hraws hlast (hcr ⟨args, hargs⟩) hR
        obtain rfl : R = R' := ok.inj (hsame.symm.trans hR')
        exact ⟨hhunks, hid⟩
  · -- Neither parser accepts the text.
    rw [if_neg hmark] at hbatch
    have hno : ¬ ∃ args, parsePatch (joinLines (first :: raws ++ [last])) = .ok args := by
      rintro ⟨args, hargs⟩
      cases hbatch.symm.trans hargs
    have hno' : ¬ ∃ R, streamPatch (joinLines (first :: raws ++ [last])) = .ok R := by
      rintro ⟨R, hR⟩
      exact streamPatch_of_not_end hne hraws hlast hh (by decide) hmark hR
    refine ⟨fun _ hargs => absurd hargs hno, fun _ => ⟨?_, fun args _ hargs => ?_⟩⟩
    · exact ⟨fun h => absurd h hno, fun h => absurd h hno'⟩
    · exact absurd ⟨args, hargs⟩ hno

/-- A patch with both line endings. -/
theorem parsePatch_agrees_streamPatch_mixed :
    let text : Text :=
      ("*** Begin Patch\r\n*** Update File: f\n@@\r\r\n-old\r\n+new\n" ++ "*** End Patch").toList
    ((∃ args, parsePatch text = .ok args) ↔ ∃ parser, streamPatch text = .ok parser) ∧
      ∀ args parser, parsePatch text = .ok args → streamPatch text = .ok parser →
        args.hunks = parser.hunks ∧ args.environmentId = parser.environmentId := by
  intro text
  exact (parsePatch_agrees_streamPatch_iff text (by decide) (by decide)).mpr fun _ => by decide

/-- **Two carriage returns.**  The batch parser takes the old line for `old`, the streaming parser
    for `old` and a carriage return. -/
theorem parsePatch_streamPatch_double_cr :
    let text : Text := "*** Begin Patch\n*** Update File: f\n@@\n-old\r\r\n+new\n*** End Patch"
    (lines text).head? = some beginPatchMarker ∧ endPatchMarker <:+ text ∧
      (parsePatch text).map (·.hunks) =
        .ok [.updateFile ['f'] none [⟨none, ["old"], ["new"], false⟩]] ∧
      (streamPatch text).map (·.hunks) =
        .ok [.updateFile ['f'] none [⟨none, ["old\r"], ["new"], false⟩]] := by
  exact ⟨by decide, by decide, by decide, by decide⟩

end Codex.ApplyPatch
