import Codex.ApplyPatch.FileSystem
import Codex.ApplyPatch.Replacements

namespace Codex.ApplyPatch

open AppliedPatchChange Function Prod Option List Except

/-!
# Applying a patch

The hunks of a patch are applied one after the other, each to the files that the ones
before it left.  Every file operation can fail; the hunks before the failure stay applied,
and the delta says what was done and whether it is known to be all that was done.

* `applyHunksToFiles` — the applier;
* `Hunk.effect`, `Hunk.change` — what a hunk does to a set of text files, and what is
  recorded of it, without a file system;
* `applyHunk_outcome` — one hunk does and records that, whatever fails;
* `applyHunks_effect` — on plain files, a successful run is the effects in order;
* `applyHunks_commits` — an exact delta lists what was committed;
* `applyHunksToFiles_exact_replays_iff` — it replays to the files that are there, exactly if
  it moves no file onto itself.
-/

section Applier

variable {σ : Type} (fs : ExecutorFileSystem σ)

/-! ### File operations of the applier -/

variable (path : AbsolutePathBuf)

/-- Clear `exact` if `path` is something else than a plain file or nothing. -/
def noteExistingPathDeltaSupport (exact : Bool) (w : σ) : Bool × σ :=
  match fs.getMetadata path w with
  | (.ok metadata, w) => (if metadata.isFile && !metadata.isSymlink then exact else false, w)
  | (.error source, w) => (if source.kind = .notFound then exact else false, w)

/-- The text that a write to `path` would overwrite. -/
def readOptionalFileTextForDelta (exact : Bool) (w : σ) : Option Text × Bool × σ :=
  let noted := noteExistingPathDeltaSupport fs path exact w
  match fs.readFileText path noted.2 with
  | (.ok content, w) => (some content, noted.1, w)
  | (.error source, w) => (none, if source.kind = .notFound then noted.1 else false, w)

/-- Write a file; if that says "not found", create the parent directory and write again. -/
def writeFileWithMissingParentRetry (contents : Text) (w : σ) : Except ApplyPatchError Unit × σ :=
  let failedToWrite := "Failed to write file " ++ path.display
  match fs.writeFile path contents w with
  | (.ok (), w) => (.ok (), w)
  | (.error err, w) =>
    if err.kind = .notFound then
      -- only the root has no parent, and nothing is created for it
      let created : Except IoError Unit × σ :=
        match path.parent with
        | some parent => fs.createDirectory parent w
        | none => (.ok (), w)
      match created with
      | (.error e, w) =>
        (.error (.ioError ("Failed to create parent directories for " ++ path.display) e), w)
      | (.ok (), w) =>
        match fs.writeFile path contents w with
        | (.ok (), w) => (.ok (), w)
        | (.error e, w) => (.error (.ioError failedToWrite e), w)
    else (.error (.ioError failedToWrite err), w)

/-- Fail on a directory, and on a path whose metadata cannot be read. -/
def ensureNotDirectory (w : σ) : Except IoError Unit × σ :=
  match fs.getMetadata path w with
  | (.error e, w) => (.error e, w)
  | (.ok metadata, w) =>
    if metadata.isDirectory then (.error ⟨.invalidInput, "path is a directory"⟩, w)
    else (.ok (), w)

/-- After a failed removal: is the expected text still there? -/
def removeFailureWasSideEffectFree (expectedContent : Option Text) (w : σ) : Bool × σ :=
  match expectedContent with
  | none => (false, w)
  | some expected =>
    match fs.readFileText path w with
    | (.ok content, w) => (content = expected, w)
    | (.error _, w) => (false, w)

/-- The contents of a file before and after an update. -/
structure AppliedPatch where
  originalContents : Text
  newContents : Text
deriving DecidableEq

/-- Read a file and compute what the chunks make of it. -/
def deriveNewContentsFromChunks (path : AbsolutePathBuf) (chunks : List UpdateFileChunk) (w : σ) :
    Except ApplyPatchError AppliedPatch × σ :=
  match fs.readFileText path w with
  | (.error err, w) =>
    (.error (.ioError ("Failed to read file to update " ++ path.display) err), w)
  | (.ok originalContents, w) =>
    ((deriveNewContents originalContents path.display chunks).map (⟨originalContents, ·⟩), w)

/-! ### One hunk -/

/-- The paths of a summary, as they stand in the patch. -/
structure AffectedPaths where
  added : List Text
  modified : List Text
  deleted : List Text
deriving DecidableEq

/-- The file system, the delta so far and the paths for the summary. -/
structure ApplyState (σ : Type) where
  world : σ
  delta : AppliedPatchDelta AbsolutePathBuf
  affected : AffectedPaths

variable (path : AbsolutePathBuf)

/-- The arm of `apply_hunks_to_files` for an added file. -/
def applyAddFile (contents affectedPath : Text) (s : ApplyState σ) :
    Except ApplyPatchError Unit × ApplyState σ :=
  let overwritten := readOptionalFileTextForDelta fs path s.delta.exact s.world
  match writeFileWithMissingParentRetry fs path contents overwritten.2.2 with
  -- a failed write may have left anything at the path
  | (.error e, w) => (.error e, ⟨w, ⟨s.delta.changes, false⟩, s.affected⟩)
  | (.ok (), w) =>
    let change := ⟨path, .add contents overwritten.1⟩
    (.ok (), ⟨w, ⟨s.delta.changes ++ [change], overwritten.2.1⟩,
      { s.affected with added := s.affected.added ++ [affectedPath] }⟩)

/-- The arm of `apply_hunks_to_files` for a deleted file. -/
def applyDeleteFile (affectedPath : Text) (s : ApplyState σ) :
    Except ApplyPatchError Unit × ApplyState σ :=
  let failedToDelete := "Failed to delete file " ++ path.display
  let noted := noteExistingPathDeltaSupport fs path s.delta.exact s.world
  let read := fs.readFileText path noted.2
  let deletedContent := read.1.toOption
  -- a file that is not text can be deleted, but the record cannot say what it held
  let exact := if deletedContent.isNone then false else noted.1
  match ensureNotDirectory fs path read.2 with
  | (.error e, w) => (.error (.ioError failedToDelete e), ⟨w, ⟨s.delta.changes, exact⟩, s.affected⟩)
  | (.ok (), w) =>
    match fs.remove path w with
    | (.error e, w) =>
      -- the delta stays exact only where the text is seen to be there still
      let checked := removeFailureWasSideEffectFree fs path deletedContent w
      (.error (.ioError failedToDelete e),
        ⟨checked.2, ⟨s.delta.changes, exact && checked.1⟩, s.affected⟩)
    | (.ok (), w) =>
      let changes := match deletedContent with
        | some content => s.delta.changes ++ [⟨path, .delete content⟩]
        | none => s.delta.changes
      (.ok (), ⟨w, ⟨changes, exact⟩,
        { s.affected with deleted := s.affected.deleted ++ [affectedPath] }⟩)

/-- The arm of `apply_hunks_to_files` for an updated file, once its new contents are known
    and it stays where it is. -/
def applyUpdateInPlace (applied : AppliedPatch) (affectedPath : Text) (exact : Bool)
    (s : ApplyState σ) : Except ApplyPatchError Unit × ApplyState σ :=
  match fs.writeFile path applied.newContents s.world with
  | (.error e, w) =>
    (.error (.ioError ("Failed to write file " ++ path.display) e),
      ⟨w, ⟨s.delta.changes, false⟩, s.affected⟩)
  | (.ok (), w) =>
    let change := ⟨path, .update none applied.originalContents none applied.newContents⟩
    (.ok (), ⟨w, ⟨s.delta.changes ++ [change], exact⟩,
      { s.affected with modified := s.affected.modified ++ [affectedPath] }⟩)

/-- The same for a file that is moved to `dest`.  The written destination is recorded as an
    added file until the original is removed. -/
def applyUpdateMove (path dest : AbsolutePathBuf) (applied : AppliedPatch) (affectedPath : Text)
    (exact : Bool) (s : ApplyState σ) : Except ApplyPatchError Unit × ApplyState σ :=
  let failedToRemove := "Failed to remove original " ++ path.display
  let overwritten := readOptionalFileTextForDelta fs dest exact s.world
  let exact := overwritten.2.1
  match writeFileWithMissingParentRetry fs dest applied.newContents overwritten.2.2 with
  | (.error e, w) => (.error e, ⟨w, ⟨s.delta.changes, false⟩, s.affected⟩)
  | (.ok (), w) =>
    -- the record as long as the original is still there
    let written := ⟨dest, .add applied.newContents overwritten.1⟩
    match ensureNotDirectory fs path w with
    | (.error e, w) =>
      (.error (.ioError failedToRemove e), ⟨w, ⟨s.delta.changes ++ [written], exact⟩, s.affected⟩)
    | (.ok (), w) =>
      match fs.remove path w with
      | (.error e, w) =>
        let checked := removeFailureWasSideEffectFree fs path (some applied.originalContents) w
        (.error (.ioError failedToRemove e),
          ⟨checked.2, ⟨s.delta.changes ++ [written], exact && checked.1⟩, s.affected⟩)
      | (.ok (), w) =>
        -- the record of the written destination becomes the record of the move
        let moved := ⟨path,
          .update (some dest) applied.originalContents overwritten.1 applied.newContents⟩
        (.ok (), ⟨w, ⟨s.delta.changes ++ [moved], exact⟩,
          { s.affected with modified := s.affected.modified ++ [affectedPath] }⟩)

/-- The arm of `apply_hunks_to_files` for an updated file. -/
def applyUpdateFile (dest : Option AbsolutePathBuf) (chunks : List UpdateFileChunk)
    (affectedPath : Text) (s : ApplyState σ) : Except ApplyPatchError Unit × ApplyState σ :=
  let noted := noteExistingPathDeltaSupport fs path s.delta.exact s.world
  match deriveNewContentsFromChunks fs path chunks noted.2 with
  -- nothing is written where the chunks do not fit
  | (.error e, w) => (.error e, ⟨w, ⟨s.delta.changes, noted.1⟩, s.affected⟩)
  | (.ok applied, w) =>
    match dest with
    | some dest => applyUpdateMove fs path dest applied affectedPath noted.1 { s with world := w }
    | none => applyUpdateInPlace fs path applied affectedPath noted.1 { s with world := w }

/-- One round of the loop of `apply_hunks_to_files`. -/
def applyHunk (home : Option Text) (cwd : AbsolutePathBuf) (hunk : Hunk) (s : ApplyState σ) :
    Except ApplyPatchError Unit × ApplyState σ :=
  let path := hunk.resolvePath home cwd
  match hunk with
  | .addFile _ contents => applyAddFile fs path contents hunk.path s
  | .deleteFile _ => applyDeleteFile fs path hunk.path s
  | .updateFile _ _ chunks =>
    applyUpdateFile fs path (hunk.resolveMovePath home cwd) chunks hunk.path s

/-! ### All hunks -/

/-- The loop of `apply_hunks_to_files`: stop at the first error. -/
def applyHunks (home : Option Text) (cwd : AbsolutePathBuf) :
    List Hunk → ApplyState σ → Except ApplyPatchError Unit × ApplyState σ
  | [], s => (.ok (), s)
  | hunk :: hunks, s =>
    match applyHunk fs home cwd hunk s with
    | (.error e, s) => (.error e, s)
    | (.ok (), s) => applyHunks home cwd hunks s

/-- Apply the hunks, adding to `delta`.  The result is an error or the paths for the summary,
    with the file system and the delta that are left. -/
def applyHunksToFiles (home : Option Text) (cwd : AbsolutePathBuf) (hunks : List Hunk) (w : σ)
    (delta : AppliedPatchDelta AbsolutePathBuf) :
    Except ApplyPatchError AffectedPaths × σ × AppliedPatchDelta AbsolutePathBuf :=
  if hunks = [] then (.error .noFilesModified, w, delta)
  else
    match applyHunks fs home cwd hunks ⟨w, delta, ⟨[], [], []⟩⟩ with
    | (.error e, s) => (.error e, s.world, s.delta)
    | (.ok (), s) => (.ok s.affected, s.world, s.delta)

end Applier

/-! ### What a hunk does and what is recorded of it -/

/-- The contents of the file at `path` before and after an update with `chunks`. -/
def updatedContents (path : AbsolutePathBuf) (chunks : List UpdateFileChunk)
    (files : TextFiles AbsolutePathBuf) : Option AppliedPatch :=
  match files path with
  | none => none
  | some original =>
    (deriveNewContents original path.display chunks).toOption.map (⟨original, ·⟩)

variable {applied : AppliedPatch} {chunks : List UpdateFileChunk}

namespace Hunk

variable (home : Option Text) (cwd : AbsolutePathBuf)

variable (hunk : Hunk)

/-- The paths a hunk writes or removes. -/
def touched : List AbsolutePathBuf :=
  hunk.resolvePath home cwd :: (hunk.resolveMovePath home cwd).toList

/-- The hunk is a move whose destination is the file itself. -/
def MovesOntoItself : Prop := hunk.resolveMovePath home cwd = some (hunk.resolvePath home cwd)

variable (files : TextFiles AbsolutePathBuf)

/-- The text files after the hunk, if the hunk fits the files. -/
def effect : Option (TextFiles AbsolutePathBuf) :=
  let path := hunk.resolvePath home cwd
  match hunk with
  | .addFile _ contents => some (update files path (some contents))
  | .deleteFile _ => some (update files path none)
  | .updateFile _ _ chunks =>
    (updatedContents path chunks files).map fun applied =>
      match hunk.resolveMovePath home cwd with
      | none => update files path (some applied.newContents)
      | some dest =>
        update (update files dest (some applied.newContents)) path none

/-- The change that is recorded when the hunk is applied to `files`. -/
def change : Option (AppliedPatchChange AbsolutePathBuf) :=
  let path := hunk.resolvePath home cwd
  match hunk with
  | .addFile _ contents => some ⟨path, .add contents (files path)⟩
  | .deleteFile _ => (files path).map fun content => ⟨path, .delete content⟩
  | .updateFile _ _ chunks =>
    (updatedContents path chunks files).map fun applied =>
      let dest := hunk.resolveMovePath home cwd
      ⟨path, .update dest applied.originalContents (dest.bind files) applied.newContents⟩

variable {home cwd} {hunk : Hunk} {files : TextFiles AbsolutePathBuf}
variable {c : AppliedPatchChange AbsolutePathBuf}

theorem updatedContents_original {path : AbsolutePathBuf}
    (h : updatedContents path chunks files = some applied) :
    files path = some applied.originalContents := by
  unfold updatedContents at h
  cases hfile : files path with
  | none => simp [hfile] at h
  | some original =>
    simp only [hfile, map_eq_some_iff] at h
    obtain ⟨new, -, rfl⟩ := h
    rfl

/-- The recorded change says what was there, the hunk does what is recorded, and both move a file onto
    itself or neither does. -/
theorem change_spec (h : hunk.change home cwd files = some c) :
    c.Coherent files ∧ hunk.effect home cwd files = some (c.commit files) ∧
      (c.MovesOntoItself ↔ hunk.MovesOntoItself home cwd) := by
  cases hunk with
  | addFile path contents =>
    cases h
    exact ⟨rfl, rfl, by simp [AppliedPatchChange.MovesOntoItself, MovesOntoItself, resolveMovePath]⟩
  | deleteFile path =>
    simp only [change, map_eq_some_iff] at h
    obtain ⟨content, hcontent, rfl⟩ := h
    exact ⟨hcontent, rfl,
      by simp [AppliedPatchChange.MovesOntoItself, MovesOntoItself, resolveMovePath]⟩
  | updateFile path movePath chunks =>
    simp only [change, map_eq_some_iff] at h
    obtain ⟨applied, happlied, rfl⟩ := h
    have horiginal := updatedContents_original happlied
    simp only [effect, happlied]
    cases movePath with
    | none =>
      refine ⟨horiginal, rfl, ?_⟩
      simp [AppliedPatchChange.MovesOntoItself, MovesOntoItself, resolveMovePath]
    | some dest =>
      refine ⟨⟨horiginal, rfl⟩, rfl, ?_⟩
      simp [AppliedPatchChange.MovesOntoItself, MovesOntoItself, resolveMovePath]

end Hunk

/-! ### What the file operations leave -/

section Specs

variable {σ : Type} {fs : ExecutorFileSystem σ} (V : TextView fs)
variable {path : AbsolutePathBuf} {exact exact' : Bool} {w w' : σ}

theorem noteExistingPathDeltaSupport_spec
    (h : noteExistingPathDeltaSupport fs path exact w = (exact', w')) :
    V.Frame w w' ∧ (exact' → exact ∧ V.plain w' path) := by
  unfold noteExistingPathDeltaSupport at h
  rcases hmeta : fs.getMetadata path w with ⟨source | metadata, w₁⟩
  · simp only [hmeta] at h
    cases h
    refine ⟨V.frame_metadata hmeta, fun hexact => ?_⟩
    have hplain := V.metadata_notFound path w source (by rw [hmeta])
    rw [hmeta] at hplain
    -- "not found" is the one error that keeps the delta exact
    split at hexact
    · exact ⟨hexact, hplain ‹_›⟩
    · cases hexact
  · simp only [hmeta] at h
    cases h
    refine ⟨V.frame_metadata hmeta, fun hexact => ?_⟩
    have hplain := V.metadata_ok path w metadata (by rw [hmeta])
    rw [hmeta] at hplain
    split at hexact
    · rename_i hfile
      simp only [Bool.and_eq_true, Bool.not_eq_true'] at hfile
      exact ⟨hexact, hplain hfile.1 hfile.2⟩
    · cases hexact

theorem readOptionalFileTextForDelta_spec {content : Option Text}
    (h : readOptionalFileTextForDelta fs path exact w = (content, exact', w')) :
    V.Frame w w' ∧
      (exact' → exact ∧ V.plain w' path ∧ content = V.text w path) := by
  unfold readOptionalFileTextForDelta at h
  rcases hnote : noteExistingPathDeltaSupport fs path exact w with ⟨exact₁, w₁⟩
  obtain ⟨hframe, hexact₁⟩ := noteExistingPathDeltaSupport_spec V hnote
  simp only [hnote] at h
  rcases hread : fs.readFileText path w₁ with ⟨source | text, w₂⟩
  · have hframe₂ := V.frame_read hread
    simp only [hread] at h
    cases h
    refine ⟨hframe.trans hframe₂, fun hexact => ?_⟩
    -- no file is no text; any other error clears `exact`
    split at hexact
    · have hnone := V.read_notFound path w₁ source (by rw [hread]) ‹_›
      obtain ⟨hexact, hplain⟩ := hexact₁ hexact
      exact ⟨hexact, hframe₂.plain _ hplain, by rw [← hframe.text, hnone]⟩
    · cases hexact
  · have hframe₂ := V.frame_read hread
    have htext := V.text_read hread
    simp only [hread] at h
    cases h
    refine ⟨hframe.trans hframe₂, fun hexact => ?_⟩
    obtain ⟨hexact, hplain⟩ := hexact₁ hexact
    exact ⟨hexact, hframe₂.plain _ hplain, by rw [← hframe.text, htext]⟩

variable {r : Except ApplyPatchError Unit} {contents : Text}

theorem writeFileWithMissingParentRetry_spec (hplain : V.plain w path)
    (h : writeFileWithMissingParentRetry fs path contents w = (r, w')) :
    V.FrameExcept path w w' ∧
      (r = .ok () → V.text w' = update (V.text w) path (some contents)) := by
  unfold writeFileWithMissingParentRetry at h
  rcases hwrite : fs.writeFile path contents w with ⟨err | u, w₁⟩
  · have hframe₁ := V.frameExcept_write hplain hwrite
    simp only [hwrite] at h
    split at h
    · -- "Not found": the parent is created, and the file written again.
      have hcreate : ∀ r₂ w₂, (match path.parent with
          | some parent => fs.createDirectory parent w₁
          | none => (.ok (), w₁)) = (r₂, w₂) → V.Frame w₁ w₂ := by
        intro r₂ w₂ heq
        split at heq
        · exact V.frame_createDirectory heq
        · simp only [Prod.mk.injEq] at heq
          rw [← heq.2]
          exact .refl
      split at h
      · rename_i e w₂ heq
        cases h
        exact ⟨hframe₁.trans (hcreate _ _ heq).except, by simp⟩
      · rename_i w₂ heq
        have hframe₂ := hframe₁.trans (hcreate _ _ heq).except
        have hplain₂ := hframe₂.plain _ hplain
        rcases hwrite₂ : fs.writeFile path contents w₂ with ⟨e | u, w₃⟩
        · simp only [hwrite₂] at h
          cases h
          exact ⟨hframe₂.trans (V.frameExcept_write hplain₂ hwrite₂), by simp⟩
        · have hframe₃ := hframe₂.trans (V.frameExcept_write hplain₂ hwrite₂)
          simp only [hwrite₂] at h
          cases h
          refine ⟨hframe₃, fun _ => ?_⟩
          rw [hframe₃.text_eq, V.text_write hplain₂ hwrite₂, update_self]
    · cases h
      exact ⟨hframe₁, by simp⟩
  · simp only [hwrite] at h
    cases h
    exact ⟨V.frameExcept_write hplain hwrite, fun _ => V.text_write hplain hwrite⟩

theorem ensureNotDirectory_spec {r : Except IoError Unit}
    (h : ensureNotDirectory fs path w = (r, w')) : V.Frame w w' := by
  unfold ensureNotDirectory at h
  rcases hmeta : fs.getMetadata path w with ⟨source | metadata, w₁⟩
  · simp only [hmeta, Prod.mk.injEq] at h
    rw [← h.2]
    exact V.frame_metadata hmeta
  · simp only [hmeta] at h
    split at h <;> (simp at h; rw [← h.2]; exact V.frame_metadata hmeta)

theorem removeFailureWasSideEffectFree_spec {expected : Option Text} {free : Bool}
    (h : removeFailureWasSideEffectFree fs path expected w = (free, w')) :
    V.Frame w w' ∧ (free → ∃ c, expected = some c ∧ V.text w path = some c) := by
  unfold removeFailureWasSideEffectFree at h
  cases expected with
  | none =>
    cases h
    exact ⟨.refl, by simp⟩
  | some c =>
    rcases hread : fs.readFileText path w with ⟨source | text, w₁⟩
    · simp only [hread] at h
      cases h
      exact ⟨V.frame_read hread, by simp⟩
    · simp only [hread] at h
      cases h
      refine ⟨V.frame_read hread, fun hfree => ⟨c, rfl, ?_⟩⟩
      rw [V.text_read hread, of_decide_eq_true hfree]

theorem deriveNewContentsFromChunks_spec {r : Except ApplyPatchError AppliedPatch}
    (h : deriveNewContentsFromChunks fs path chunks w = (r, w')) :
    V.Frame w w' ∧
      ∀ applied, r = .ok applied → updatedContents path chunks (V.text w) = some applied := by
  unfold deriveNewContentsFromChunks at h
  rcases hread : fs.readFileText path w with ⟨err | original, w₁⟩
  · simp only [hread] at h
    cases h
    exact ⟨V.frame_read hread, by simp⟩
  · simp only [hread] at h
    cases h
    refine ⟨V.frame_read hread, fun applied happlied => ?_⟩
    simp only [updatedContents, V.text_read hread]
    cases hnew : deriveNewContents original path.display chunks with
    | error e => simp [hnew, Except.map] at happlied
    | ok new =>
      simp only [hnew, Except.map, Except.ok.injEq] at happlied
      simp [Except.toOption, happlied]

/-! ### What one hunk leaves -/

/-- What is left when a hunk with the given effect and change is applied in state `s`.

    A completed hunk had its effect, if the delta is still exact or all paths were plain to
    begin with; with an exact delta its change is the one that was recorded.  A failed hunk
    that left the delta exact committed what it recorded, which moves nothing. -/
def Outcome (touched : List AbsolutePathBuf) (effect : Option (TextFiles AbsolutePathBuf))
    (change : Option (AppliedPatchChange AbsolutePathBuf)) (s : ApplyState σ) :
    Except ApplyPatchError Unit × ApplyState σ → Prop
  | (.ok (), s') =>
    ((s'.delta.exact ∨ ∀ p ∈ touched, V.plain s.world p) →
      effect = some (V.text s'.world) ∧ ∀ q, V.plain s.world q → V.plain s'.world q) ∧
    (s'.delta.exact → s.delta.exact ∧
      ∃ c, change = some c ∧ s'.delta.changes = s.delta.changes ++ [c])
  | (.error _, s') =>
    s'.delta.exact → s.delta.exact ∧
      ∃ cs, s'.delta.changes = s.delta.changes ++ cs ∧
        Commits cs (V.text s.world) (V.text s'.world) ∧ ∀ c ∈ cs, ¬ c.MovesOntoItself

variable {affectedPath : Text} {s : ApplyState σ}

theorem applyAddFile_outcome :
    Outcome V [path] (some (update (V.text s.world) path (some contents)))
      (some ⟨path, .add contents (V.text s.world path)⟩) s
      (applyAddFile fs path contents affectedPath s) := by
  unfold applyAddFile
  rcases hread : readOptionalFileTextForDelta fs path s.delta.exact s.world with
    ⟨content, exact₁, w₁⟩
  obtain ⟨hframe₁, hexact₁⟩ := readOptionalFileTextForDelta_spec V hread
  rcases hwrite : writeFileWithMissingParentRetry fs path contents w₁ with ⟨e | u, w₂⟩
  · simp [Outcome, hwrite]
  · simp only [hwrite, Outcome, mem_singleton, forall_eq]
    refine ⟨fun hplain => ?_, fun hexact => ?_⟩
    · -- the path is plain because the delta says so, or because all paths are
      have hplain₁ : V.plain w₁ path :=
        hplain.elim (fun hexact => (hexact₁ hexact).2.1) (hframe₁.plain _)
      obtain ⟨hframe₂, htext⟩ := writeFileWithMissingParentRetry_spec V hplain₁ hwrite
      refine ⟨?_, fun q hq => hframe₂.plain _ (hframe₁.plain _ hq)⟩
      rw [htext rfl, hframe₁.text]
    · obtain ⟨hexact, -, rfl⟩ := hexact₁ hexact
      exact ⟨hexact, _, rfl, rfl⟩

theorem applyDeleteFile_outcome : Outcome V [path] (some (update (V.text s.world) path none))
      ((V.text s.world path).map fun content => ⟨path, .delete content⟩) s
      (applyDeleteFile fs path affectedPath s) := by
  unfold applyDeleteFile
  rcases hnote : noteExistingPathDeltaSupport fs path s.delta.exact s.world with ⟨exact₁, w₁⟩
  obtain ⟨hframe₁, hexact₁⟩ := noteExistingPathDeltaSupport_spec V hnote
  rcases hread : fs.readFileText path w₁ with ⟨r₂, w₂⟩
  have hframe₂ := hframe₁.trans (V.frame_read hread)
  rcases hdir : ensureNotDirectory fs path w₂ with ⟨r₃, w₃⟩
  have hframe₃ := hframe₂.trans (ensureNotDirectory_spec V hdir)
  -- With the delta exact, the path is plain and the file was read.
  have hknown : (if r₂.toOption.isNone then false else exact₁) = true →
      s.delta.exact = true ∧ V.plain w₃ path ∧
        ∃ content, r₂ = .ok content ∧ V.text s.world path = some content := by
    intro hexact
    cases r₂ with
    | error e => simp [Except.toOption] at hexact
    | ok content =>
      obtain ⟨hexact, hplain⟩ := hexact₁ (by simpa [Except.toOption] using hexact)
      have hplain₂ : V.plain w₂ path := (V.frame_read hread).plain _ hplain
      refine ⟨hexact, (ensureNotDirectory_spec V hdir).plain _ hplain₂, content, rfl, ?_⟩
      rw [← hframe₁.text, V.text_read hread]
  cases r₃ with
  | error e =>
    simp only [hdir, hread]
    intro h
    exact ⟨(hknown h).1, [], by simp, by simp [hframe₃.text], by simp⟩
  | ok u =>
    simp only [hdir, hread]
    rcases hremove : fs.remove path w₃ with ⟨e | u, w₄⟩
    · -- a failed removal that is seen to have left the text had no effect
      rcases hcheck : removeFailureWasSideEffectFree fs path r₂.toOption w₄ with ⟨free, w₅⟩
      obtain ⟨hframe₅, hfree⟩ := removeFailureWasSideEffectFree_spec V hcheck
      simp only [hcheck, Outcome, Bool.and_eq_true]
      rintro ⟨h, hf⟩
      obtain ⟨hexact, hplain₃, -⟩ := hknown h
      obtain ⟨c, -, hc⟩ := hfree hf
      have hframe₄ := V.frame_remove_error hplain₃ hremove hc
      exact ⟨hexact, [], by simp, by simp [((hframe₃.trans hframe₄).trans hframe₅).text], by simp⟩
    · simp only [Outcome, mem_singleton, forall_eq]
      refine ⟨fun hplain => ?_, fun h => ?_⟩
      · have hplain₃ : V.plain w₃ path := hplain.elim (fun h => (hknown h).2.1) (hframe₃.plain _)
        refine ⟨?_, fun q hq => (V.frameExcept_remove hplain₃ hremove).plain _ (hframe₃.plain _ hq)⟩
        rw [V.text_remove hplain₃ hremove, hframe₃.text]
      · obtain ⟨hexact, -, content, rfl, htext⟩ := hknown h
        exact ⟨hexact, _, by rw [htext]; rfl, rfl⟩

theorem applyUpdateInPlace_outcome (hexact : exact → s.delta.exact ∧ V.plain s.world path) :
    Outcome V [path] (some (update (V.text s.world) path (some applied.newContents)))
      (some ⟨path, .update none applied.originalContents none applied.newContents⟩) s
      (applyUpdateInPlace fs path applied affectedPath exact s) := by
  unfold applyUpdateInPlace
  rcases hwrite : fs.writeFile path applied.newContents s.world with ⟨e | u, w₁⟩
  · simp [Outcome]
  · simp only [Outcome, mem_singleton, forall_eq]
    refine ⟨fun hplain => ?_, fun h => ⟨(hexact h).1, _, rfl, rfl⟩⟩
    have hplain : V.plain s.world path := hplain.elim (fun h => (hexact h).2) id
    refine ⟨?_, (V.frameExcept_write hplain hwrite).plain⟩
    rw [V.text_write hplain hwrite]

theorem applyUpdateMove_outcome {dest : AbsolutePathBuf}
    (hexact : exact → s.delta.exact ∧ V.plain s.world path) : Outcome V [path, dest] (some (update
        (update (V.text s.world) dest (some applied.newContents)) path none))
      (some ⟨path, .update (some dest) applied.originalContents (V.text s.world dest)
        applied.newContents⟩) s
      (applyUpdateMove fs path dest applied affectedPath exact s) := by
  unfold applyUpdateMove
  rcases hread : readOptionalFileTextForDelta fs dest exact s.world with ⟨content, exact₁, w₁⟩
  obtain ⟨hframe₁, hexact₁⟩ := readOptionalFileTextForDelta_spec V hread
  rcases hwrite : writeFileWithMissingParentRetry fs dest applied.newContents w₁ with ⟨e | u, w₂⟩
  · simp [Outcome, hwrite]
  simp only [hwrite]
  -- What is known once the destination is written, if its path was plain.
  have hwritten : V.plain w₁ dest → V.FrameExcept dest s.world w₂ ∧
      V.text w₂ = update (V.text s.world) dest (some applied.newContents) := by
    intro hplain
    obtain ⟨hframe, htext⟩ := writeFileWithMissingParentRetry_spec V hplain hwrite
    exact ⟨hframe₁.except.trans hframe, by rw [htext rfl, hframe₁.text]⟩
  have hcoherent : exact₁ →
      AppliedPatchChange.Coherent ⟨dest, .add applied.newContents content⟩ (V.text s.world) :=
    fun h => (hexact₁ h).2.2.symm
  rcases hdir : ensureNotDirectory fs path w₂ with ⟨e | u, w₃⟩
  · -- the destination is written and the original stays: an added file
    have hframe₃ := ensureNotDirectory_spec V hdir
    intro h
    have htext := (hwritten (hexact₁ h).2.1).2
    refine ⟨(hexact (hexact₁ h).1).1, _, rfl, ⟨hcoherent h, ?_⟩, by simp [MovesOntoItself]⟩
    rw [hframe₃.text, htext]
    rfl
  have hframe₃ := ensureNotDirectory_spec V hdir
  rcases hremove : fs.remove path w₃ with ⟨e | u, w₄⟩
  · rcases hcheck : removeFailureWasSideEffectFree fs path (some applied.originalContents) w₄ with
      ⟨free, w₅⟩
    obtain ⟨hframe₅, hfree⟩ := removeFailureWasSideEffectFree_spec V hcheck
    simp only [hremove, hcheck, Outcome, Bool.and_eq_true]
    rintro ⟨h, hf⟩
    obtain ⟨hframe₂, htext⟩ := hwritten (hexact₁ h).2.1
    obtain ⟨hs, hplain⟩ := hexact (hexact₁ h).1
    -- as above, since the failed removal had no effect
    obtain ⟨c, -, hc⟩ := hfree hf
    have hframe₄ := V.frame_remove_error (hframe₃.plain _ (hframe₂.plain _ hplain)) hremove hc
    refine ⟨hs, _, rfl, ⟨hcoherent h, ?_⟩, by simp [MovesOntoItself]⟩
    rw [((hframe₃.trans hframe₄).trans hframe₅).text, htext]
    rfl
  · simp only [hremove, Outcome, mem_cons, not_mem_nil, or_false, forall_eq_or_imp, forall_eq]
    refine ⟨fun hplain => ?_, fun h => ?_⟩
    · have hdest : V.plain w₁ dest :=
        hplain.elim (fun h => (hexact₁ h).2.1) fun h => hframe₁.plain _ h.2
      have hpath : V.plain s.world path :=
        hplain.elim (fun h => (hexact (hexact₁ h).1).2) fun h => h.1
      obtain ⟨hframe₂, htext⟩ := hwritten hdest
      have hpath₃ : V.plain w₃ path := hframe₃.plain _ (hframe₂.plain _ hpath)
      refine ⟨?_, fun q hq => ?_⟩
      · rw [V.text_remove hpath₃ hremove, hframe₃.text, htext]
      · exact (V.frameExcept_remove hpath₃ hremove).plain _ (hframe₃.plain _ (hframe₂.plain _ hq))
    · obtain ⟨h₁, -, rfl⟩ := hexact₁ h
      exact ⟨(hexact h₁).1, _, rfl, rfl⟩

/-- Reads before the hunk do not count. -/
theorem Outcome.of_frame {touched : List AbsolutePathBuf}
    {effect : Option (TextFiles AbsolutePathBuf)}
    {change : Option (AppliedPatchChange AbsolutePathBuf)} (hframe : V.Frame s.world w)
    {r : Except ApplyPatchError Unit × ApplyState σ}
    (h : Outcome V touched effect change { s with world := w } r) :
    Outcome V touched effect change s r := by
  obtain ⟨e | u, s'⟩ := r
  · simp only [Outcome] at h ⊢
    rwa [hframe.text] at h
  · obtain ⟨heffect, hchange⟩ := h
    refine ⟨fun hplain => ?_, hchange⟩
    obtain ⟨htext, hkeep⟩ := heffect (hplain.imp_right fun h p hp => hframe.plain _ (h p hp))
    exact ⟨htext, fun q hq => hkeep q (hframe.plain _ hq)⟩

/-- **One hunk.** -/
theorem applyHunk_outcome (home : Option Text) (cwd : AbsolutePathBuf) (hunk : Hunk) :
    Outcome V (hunk.touched home cwd) (hunk.effect home cwd (V.text s.world))
      (hunk.change home cwd (V.text s.world)) s (applyHunk fs home cwd hunk s) := by
  cases hunk with
  | addFile path contents => exact applyAddFile_outcome V
  | deleteFile path => exact applyDeleteFile_outcome V
  | updateFile path movePath chunks =>
    simp only [applyHunk, applyUpdateFile, Hunk.touched, Hunk.effect, Hunk.change]
    generalize (Hunk.updateFile path movePath chunks).resolvePath home cwd = path
    generalize (Hunk.updateFile _ movePath chunks).resolveMovePath home cwd = dest
    rcases hnote : noteExistingPathDeltaSupport fs path s.delta.exact s.world with ⟨exact₁, w₁⟩
    obtain ⟨hframe₁, hexact₁⟩ := noteExistingPathDeltaSupport_spec V hnote
    rcases hderive : deriveNewContentsFromChunks fs path chunks w₁ with ⟨e | applied, w₂⟩
    · have hframe₂ := hframe₁.trans (deriveNewContentsFromChunks_spec V hderive).1
      intro h
      exact ⟨(hexact₁ h).1, [], by simp, by simp [hframe₂.text], by simp⟩
    · obtain ⟨hframe, happlied⟩ := deriveNewContentsFromChunks_spec V hderive
      have hframe₂ := hframe₁.trans hframe
      have happlied := happlied applied rfl
      rw [hframe₁.text] at happlied
      -- what was noted before the read still holds after it
      have hexact₂ : exact₁ → s.delta.exact ∧ V.plain w₂ path :=
        fun h => ⟨(hexact₁ h).1, hframe.plain _ (hexact₁ h).2⟩
      rw [happlied, ← hframe₂.text]
      apply Outcome.of_frame V hframe₂
      cases dest with
      | none => exact applyUpdateInPlace_outcome V hexact₂
      | some dest => exact applyUpdateMove_outcome V hexact₂

/-! ### What a run leaves -/

variable {home : Option Text} {cwd : AbsolutePathBuf} {hunks : List Hunk} {s' : ApplyState σ}

/-- On plain files a run that succeeds does the effects of its hunks one after the other. -/
theorem applyHunks_effect (hplain : ∀ p, V.plain s.world p)
    (h : applyHunks fs home cwd hunks s = (.ok (), s')) :
    hunks.foldlM (fun files hunk => hunk.effect home cwd files) (V.text s.world) =
      some (V.text s'.world) := by
  -- plain paths stay plain, so every hunk has its effect
  induction hunks generalizing s with
  | nil =>
    simp only [applyHunks, Prod.mk.injEq] at h
    simp [h]
  | cons hunk hunks ih =>
    simp only [applyHunks] at h
    have hone := applyHunk_outcome V (s := s) home cwd hunk
    rcases hhunk : applyHunk fs home cwd hunk s with ⟨e | u, s₁⟩
    · simp [hhunk] at h
    · simp only [hhunk] at h hone
      obtain ⟨heffect, hkeep⟩ := hone.1 (.inr fun p _ => hplain p)
      rw [foldlM_cons, heffect]
      exact ih (fun p => hkeep p (hplain p)) h

/-- **An exact delta lists what was committed**, also by a run that failed. -/
theorem applyHunks_commits
    (h : applyHunks fs home cwd hunks s = (r, s')) (hexact : s'.delta.exact) :
    s.delta.exact ∧ ∃ cs, s'.delta.changes = s.delta.changes ++ cs ∧
      Commits cs (V.text s.world) (V.text s'.world) ∧
      ((∃ c ∈ cs, c.MovesOntoItself) → ∃ hunk ∈ hunks, hunk.MovesOntoItself home cwd) ∧
      (r = .ok () → (∃ hunk ∈ hunks, hunk.MovesOntoItself home cwd) →
        ∃ c ∈ cs, c.MovesOntoItself) := by
  -- `exact` is never set again, so it held behind each of the hunks
  induction hunks generalizing s with
  | nil =>
    cases h
    exact ⟨hexact, [], by simp, rfl, by simp, by simp⟩
  | cons hunk hunks ih =>
    simp only [applyHunks] at h
    have hone := applyHunk_outcome V (s := s) home cwd hunk
    rcases hhunk : applyHunk fs home cwd hunk s with ⟨e | u, s₁⟩
    · simp only [hhunk] at h hone
      obtain ⟨rfl, rfl⟩ := h
      obtain ⟨hs, cs, hcs, hcommits, hmoves⟩ := hone hexact
      refine ⟨hs, cs, hcs, hcommits, ?_, by simp⟩
      rintro ⟨c, hc, hself⟩
      exact absurd hself (hmoves c hc)
    · -- the change of a completed hunk comes in front of those of the rest
      simp only [hhunk] at h hone
      obtain ⟨hs₁, cs, hcs, hcommits, hof, hto⟩ := ih h
      obtain ⟨hs, c, hc, hchanges⟩ := hone.2 hs₁
      have htext := (hone.1 (.inl hs₁)).1
      obtain ⟨hcoherent, heffect, hself⟩ := Hunk.change_spec hc
      rw [heffect, some.injEq] at htext
      rw [← htext] at hcommits
      refine ⟨hs, c :: cs, by simp [hcs, hchanges], ⟨hcoherent, hcommits⟩, ?_, ?_⟩
      · simp only [mem_cons, exists_eq_or_imp, hself]
        exact Or.imp_right hof
      · simp only [mem_cons, exists_eq_or_imp, hself]
        exact fun hr => Or.imp_right (hto hr)

/-- **Exact deltas.**  Without aliases, if a run, successful or not, leaves the delta exact, then
    the record replays from the files before to the files after, and says of each change what was
    there before it, exactly if it moves no file onto itself.  So it does if no hunk does, and for
    a successful run only then. -/
theorem applyHunksToFiles_exact_replays_iff {r : Except ApplyPatchError AffectedPaths}
    {delta : AppliedPatchDelta AbsolutePathBuf}
    (h : applyHunksToFiles fs home cwd hunks w .empty = (r, w', delta)) (hexact : delta.exact) :
    (Replays delta.changes (V.text w) (V.text w') ↔ ∀ c ∈ delta.changes, ¬ c.MovesOntoItself) ∧
    ((∀ hunk ∈ hunks, ¬ hunk.MovesOntoItself home cwd) →
      Replays delta.changes (V.text w) (V.text w')) ∧
    ((∃ affected, r = .ok affected) → (Replays delta.changes (V.text w) (V.text w') ↔
      ∀ hunk ∈ hunks, ¬ hunk.MovesOntoItself home cwd)) := by
  unfold applyHunksToFiles at h
  split at h
  · -- Nothing to apply is an error, and nothing happens.
    cases h
    simp [AppliedPatchDelta.empty]
  · -- a failed run has no move onto itself in its record unless a hunk before the failure is one
    rcases hrun : applyHunks fs home cwd hunks ⟨w, .empty, ⟨[], [], []⟩⟩ with ⟨e | u, s'⟩
    · simp only [hrun] at h
      cases h
      obtain ⟨-, cs, hcs, hcommits, hof, -⟩ := applyHunks_commits V hrun hexact
      obtain rfl : s'.delta.changes = cs := hcs
      have hiff := replays_iff_of_commits hcommits
      refine ⟨hiff, fun hhunks => hiff.mpr fun c hc hself => ?_, by simp⟩
      obtain ⟨hunk, hhunk, hself⟩ := hof ⟨c, hc, hself⟩
      exact hhunks hunk hhunk hself
    · simp only [hrun] at h
      cases h
      obtain ⟨-, cs, hcs, hcommits, hof, hto⟩ := applyHunks_commits V hrun hexact
      obtain rfl : s'.delta.changes = cs := hcs
      have hiff := replays_iff_of_commits hcommits
      have hhunks : (∀ c ∈ s'.delta.changes, ¬ c.MovesOntoItself) ↔
          ∀ hunk ∈ hunks, ¬ hunk.MovesOntoItself home cwd := by
        have := not_congr (Iff.intro hof (hto rfl))
        simpa using this
      exact ⟨hiff, fun hself => hiff.mpr (hhunks.mpr hself), fun _ => hiff.trans hhunks⟩

/-- **Moves.**  A run on plain files whose last hunk moves a file leaves the new contents at the
    destination, and nothing at the source, exactly if the two are different paths: a file
    that is moved onto itself is gone. -/
theorem applyHunksToFiles_move_iff (before : List Hunk) {path move : Text}
    {chunks : List UpdateFileChunk} {delta delta' : AppliedPatchDelta AbsolutePathBuf}
    {affected : AffectedPaths} (hplain : ∀ p, V.plain w p)
    (h : applyHunksToFiles fs home cwd (before ++ [.updateFile path (some move) chunks]) w delta =
      (.ok affected, w', delta')) :
    let source := resolvePathAgainstBase home path cwd
    let dest := resolvePathAgainstBase home move cwd
    ∃ files applied,
      before.foldlM (fun files hunk => hunk.effect home cwd files) (V.text w) = some files ∧
      updatedContents source chunks files = some applied ∧
      ((V.text w' dest = some applied.newContents ∧
        (dest ≠ source → V.text w' source = none)) ↔ dest ≠ source) := by
  intro source dest
  unfold applyHunksToFiles at h
  rw [if_neg (by simp)] at h
  rcases hrun : applyHunks fs home cwd (before ++ [.updateFile path (some move) chunks])
    ⟨w, delta, ⟨[], [], []⟩⟩ with ⟨e | u, s'⟩
  · simp [hrun] at h
  · simp only [hrun] at h
    obtain ⟨-, rfl, -⟩ := h
    have heffect := applyHunks_effect V hplain hrun
    rw [foldlM_append, bind_eq_bind, bind_eq_some_iff] at heffect
    obtain ⟨files, hfiles, hmove⟩ := heffect
    simp only [foldlM_cons, foldlM_nil, bind_pure] at hmove
    obtain ⟨applied, happlied, htext⟩ := map_eq_some_iff.mp hmove
    change update (update files dest _) source none = _ at htext
    refine ⟨files, applied, hfiles, happlied, ?_⟩
    rw [← htext]
    by_cases hself : dest = source
    · -- the removal comes after the write, at the same path
      simp [hself]
    · simp [hself]

end Specs

/-- A move leaves an exact delta that replays, also if the update behind it fails. -/
theorem applyHunksToFiles_exact_replays_move :
    let a := resolvePathAgainstBase none ['a'] ⟨[]⟩
    let files := update (fun _ => none) a (some "x\n".toList)
    let hunks := [.updateFile ['a'] (some ['b']) [⟨none, [['x']], [['y']], false⟩],
      .updateFile ['c'] none []]
    let run := applyHunksToFiles memoryFileSystem none ⟨[]⟩ hunks files .empty
    run.1.isOk = false ∧ run.2.1 a = none ∧ run.2.2.exact ∧
      Replays run.2.2.changes files run.2.1 := by
  intro a files hunks run
  have hrun : applyHunksToFiles memoryFileSystem none ⟨[]⟩ hunks files .empty =
      (run.1, run.2.1, run.2.2) := rfl
  have hexact : run.2.2.exact := by decide
  refine ⟨by decide, by decide, hexact,
    (applyHunksToFiles_exact_replays_iff memoryView hrun hexact).2.1 ?_⟩
  simp only [hunks, mem_cons, not_mem_nil, or_false, forall_eq_or_imp, forall_eq]
  exact ⟨fun h => absurd (Option.some.inj h) (by decide), nofun⟩

/-- Updating the file `a` and moving it to `a` succeeds with an exact delta.  The file is gone,
    and the record says that it has its new contents. -/
theorem applyHunksToFiles_exact_self_move :
    let a := resolvePathAgainstBase none ['a'] ⟨[]⟩
    let files := update (fun _ => none) a (some "x\n".toList)
    let run := applyHunksToFiles memoryFileSystem none ⟨[]⟩
      [.updateFile ['a'] (some ['a']) [⟨none, [['x']], [['y']], false⟩]] files .empty
    run.1 = .ok ⟨[], [['a']], []⟩ ∧ run.2.2.exact ∧ run.2.1 a = none ∧
      run.2.2.changes =
        [⟨a, .update (some a) "x\n".toList (some "x\n".toList) "y\n".toList⟩] ∧
      ¬ Replays run.2.2.changes files run.2.1 := by
  refine ⟨by decide, by decide, by decide, by decide, ?_⟩
  rintro ⟨-, hfiles⟩
  have hgone := congrFun hfiles (resolvePathAgainstBase none ['a'] ⟨[]⟩)
  revert hgone
  decide

/-- A file moved to a new name has its new contents there. -/
theorem applyHunksToFiles_move_renames :
    let a := resolvePathAgainstBase none ['a'] ⟨[]⟩
    let b := resolvePathAgainstBase none ['b'] ⟨[]⟩
    let files := update (fun _ => none) a (some "x\n".toList)
    let run := applyHunksToFiles memoryFileSystem none ⟨[]⟩
      [.updateFile ['a'] (some ['b']) [⟨none, [['x']], [['y']], false⟩]] files .empty
    run.2.1 b = some "y\n".toList ∧ (b ≠ a → run.2.1 a = none) := by
  intro a b files run
  have hrun : run = (.ok ⟨[], [['b']], []⟩, run.2.1, run.2.2) := Prod.ext (by decide) rfl
  obtain ⟨_, applied, hfiles, happlied, hiff⟩ :=
    applyHunksToFiles_move_iff memoryView [] (fun _ => trivial) hrun
  obtain rfl : files = _ := some.inj hfiles
  have hnew : updatedContents a [⟨none, [['x']], [['y']], false⟩] files =
      some ⟨"x\n".toList, "y\n".toList⟩ := by decide
  obtain rfl := some.inj (hnew.symm.trans happlied)
  exact hiff.mpr (by decide)

/-- The file `a` moved to `./a` succeeds, and the file is gone. -/
theorem applyHunksToFiles_move_dot_slash :
    let a := resolvePathAgainstBase none ['a'] ⟨[]⟩
    let files := update (fun _ => none) a (some "x\n".toList)
    let run := applyHunksToFiles memoryFileSystem none ⟨[]⟩
      [.updateFile ['a'] (some "./a".toList) [⟨none, [['x']], [['y']], false⟩]] files .empty
    resolvePathAgainstBase none "./a".toList ⟨[]⟩ = a ∧ run.1 = .ok ⟨[], ["./a".toList], []⟩ ∧
      run.2.1 a = none := by
  decide

end Codex.ApplyPatch
