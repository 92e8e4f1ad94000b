import Codex.ApplyPatch.Apply

namespace Codex.ApplyPatch

open Prod List Hunk

/-!
# What the applier can write or remove

The applier reads where it likes, but the paths it writes or removes stand in the hunks.

* `Respects fs R ps` — the relation `R` between states holds across each operation of `fs`,
  for writes and removals only at the paths `ps`;
* `applyHunksToFiles_respects` — then `R` holds across a whole run on hunks that touch `ps`
  only, whatever fails on the way;
* `applyHunksToFiles_frame` — files that the hunks do not touch keep their texts;
* `recordingFileSystem` — a file system that notes its writes and removals;
* `applyHunksToFiles_written_mem` — what it notes is what the hunks touch.
-/

/-- `R` is reflexive and transitive, and holds across each operation; writes and removals are
    asked for at the paths in `ps` only. -/
structure Respects {σ : Type} (fs : ExecutorFileSystem σ) (R : σ → σ → Prop)
    (ps : List AbsolutePathBuf) : Prop where
  refl : ∀ w, R w w
  trans : ∀ {w w' w''}, R w w' → R w' w'' → R w w''
  read : ∀ {p w r w'}, fs.readFileText p w = (r, w') → R w w'
  metadata : ∀ {p w r w'}, fs.getMetadata p w = (r, w') → R w w'
  createDirectory : ∀ {p w r w'}, fs.createDirectory p w = (r, w') → R w w'
  write : ∀ {p c w r w'}, p ∈ ps → fs.writeFile p c w = (r, w') → R w w'
  remove : ∀ {p w r w'}, p ∈ ps → fs.remove p w = (r, w') → R w w'

variable {hunks : List Hunk}

section Respects

variable {σ : Type} {fs : ExecutorFileSystem σ} {R : σ → σ → Prop} {ps : List AbsolutePathBuf}
variable (hR : Respects fs R ps)
variable {path dest : AbsolutePathBuf} {exact : Bool} {w w' : σ} {s s' : ApplyState σ}
include hR

/-! ### The operations of the applier -/

theorem noteExistingPathDeltaSupport_respects {r : Bool × σ}
    (h : noteExistingPathDeltaSupport fs path exact w = r) : R w r.2 := by
  subst h
  unfold noteExistingPathDeltaSupport
  split <;> exact hR.metadata ‹_›

theorem readOptionalFileTextForDelta_respects {r : Option Text × Bool × σ}
    (h : readOptionalFileTextForDelta fs path exact w = r) : R w r.2.2 := by
  subst h
  unfold readOptionalFileTextForDelta
  have hnote := noteExistingPathDeltaSupport_respects hR (rfl :
    noteExistingPathDeltaSupport fs path exact w = _)
  dsimp only
  split <;> exact hR.trans hnote (hR.read ‹_›)

theorem writeFileWithMissingParentRetry_respects (hpath : path ∈ ps) {contents : Text}
    {r : Except ApplyPatchError Unit × σ}
    (h : writeFileWithMissingParentRetry fs path contents w = r) : R w r.2 := by
  subst h
  unfold writeFileWithMissingParentRetry
  dsimp only
  split
  · exact hR.write hpath ‹_›
  · have hfirst := hR.write hpath ‹_›
    split
    · cases path.parent with
      | none =>
        dsimp only
        split <;> exact hR.trans hfirst (hR.write hpath ‹_›)
      | some parent =>
        split
        · exact hR.trans hfirst (hR.createDirectory ‹_›)
        · have hcreated := hR.trans hfirst (hR.createDirectory ‹_›)
          split <;> exact hR.trans hcreated (hR.write hpath ‹_›)
    · exact hfirst

theorem ensureNotDirectory_respects {r : Except IoError Unit × σ}
    (h : ensureNotDirectory fs path w = r) : R w r.2 := by
  subst h
  unfold ensureNotDirectory
  split
  · exact hR.metadata ‹_›
  · split_ifs <;> exact hR.metadata ‹_›

theorem removeFailureWasSideEffectFree_respects {expected : Option Text} {r : Bool × σ}
    (h : removeFailureWasSideEffectFree fs path expected w = r) : R w r.2 := by
  subst h
  unfold removeFailureWasSideEffectFree
  split
  · exact hR.refl w
  · split <;> exact hR.read ‹_›

theorem deriveNewContentsFromChunks_respects {chunks : List UpdateFileChunk}
    {r : Except ApplyPatchError AppliedPatch × σ}
    (h : deriveNewContentsFromChunks fs path chunks w = r) : R w r.2 := by
  subst h
  unfold deriveNewContentsFromChunks
  split <;> exact hR.read ‹_›

/-! ### One hunk -/

variable {affectedPath : Text} {r : Except ApplyPatchError Unit × ApplyState σ}

theorem applyAddFile_respects (hpath : path ∈ ps) {contents : Text}
    (h : applyAddFile fs path contents affectedPath s = r) : R s.world r.2.world := by
  subst h
  unfold applyAddFile
  have hread := readOptionalFileTextForDelta_respects hR (rfl :
    readOptionalFileTextForDelta fs path s.delta.exact s.world = _)
  dsimp only
  split <;> exact hR.trans hread (writeFileWithMissingParentRetry_respects hR hpath ‹_›)

/-- The removal of a file, with the look at what a failed one has left. -/
theorem remove_respects (hpath : path ∈ ps) (hw : R w w') {r : Except IoError Unit} {w₁ : σ}
    (hremove : fs.remove path w' = (r, w₁)) (expected : Option Text) :
    R w (removeFailureWasSideEffectFree fs path expected w₁).2 ∧ R w w₁ := by
  have hstep := hR.trans hw (hR.remove hpath hremove)
  exact ⟨hR.trans hstep (removeFailureWasSideEffectFree_respects hR rfl), hstep⟩

theorem applyDeleteFile_respects (hpath : path ∈ ps)
    (h : applyDeleteFile fs path affectedPath s = r) : R s.world r.2.world := by
  subst h
  unfold applyDeleteFile
  have hnote := noteExistingPathDeltaSupport_respects hR (rfl :
    noteExistingPathDeltaSupport fs path s.delta.exact s.world = _)
  have hread := hR.trans hnote (hR.read (p := path) rfl)
  dsimp only
  split
  · exact hR.trans hread (ensureNotDirectory_respects hR ‹_›)
  · have hdir := hR.trans hread (ensureNotDirectory_respects hR ‹_›)
    split
    · exact (remove_respects hR hpath hdir ‹_› _).1
    · exact (remove_respects hR hpath hdir ‹_› none).2

theorem applyUpdateInPlace_respects (hpath : path ∈ ps) {applied : AppliedPatch}
    (h : applyUpdateInPlace fs path applied affectedPath exact s = r) : R s.world r.2.world := by
  subst h
  unfold applyUpdateInPlace
  split <;> exact hR.write hpath ‹_›

theorem applyUpdateMove_respects (hpath : path ∈ ps) (hdest : dest ∈ ps) {applied : AppliedPatch}
    (h : applyUpdateMove fs path dest applied affectedPath exact s = r) :
    R s.world r.2.world := by
  subst h
  unfold applyUpdateMove
  have hread := readOptionalFileTextForDelta_respects hR (rfl :
    readOptionalFileTextForDelta fs dest exact s.world = _)
  dsimp only
  split
  · exact hR.trans hread (writeFileWithMissingParentRetry_respects hR hdest ‹_›)
  · have hwrite := hR.trans hread (writeFileWithMissingParentRetry_respects hR hdest ‹_›)
    split
    · exact hR.trans hwrite (ensureNotDirectory_respects hR ‹_›)
    · have hdir := hR.trans hwrite (ensureNotDirectory_respects hR ‹_›)
      split
      · exact (remove_respects hR hpath hdir ‹_› _).1
      · exact (remove_respects hR hpath hdir ‹_› none).2

variable {home : Option Text} {cwd : AbsolutePathBuf}

theorem applyHunk_respects {hunk : Hunk} (htouched : ∀ p ∈ hunk.touched home cwd, p ∈ ps)
    (h : applyHunk fs home cwd hunk s = r) : R s.world r.2.world := by
  have hpath : hunk.resolvePath home cwd ∈ ps := htouched _ (by simp [touched])
  cases hunk with
  | addFile path contents => exact applyAddFile_respects hR hpath h
  | deleteFile path => exact applyDeleteFile_respects hR hpath h
  | updateFile path movePath chunks =>
    have hdest : ∀ dest, (updateFile path movePath chunks).resolveMovePath home cwd =
        some dest → dest ∈ ps := fun dest h => htouched _ (by simp [touched, h])
    subst h
    simp only [applyHunk, applyUpdateFile]
    have hnote := noteExistingPathDeltaSupport_respects hR (rfl : noteExistingPathDeltaSupport fs
      ((updateFile path movePath chunks).resolvePath home cwd) s.delta.exact s.world = _)
    split
    · exact hR.trans hnote (deriveNewContentsFromChunks_respects hR ‹_›)
    · have hderive := hR.trans hnote (deriveNewContentsFromChunks_respects hR ‹_›)
      split
      · exact hR.trans hderive
          (applyUpdateMove_respects hR (s := { s with world := _ }) hpath (hdest _ ‹_›) rfl)
      · exact hR.trans hderive (applyUpdateInPlace_respects hR (s := { s with world := _ }) hpath rfl)

/-! ### A run -/

section

variable (htouched : ∀ hunk ∈ hunks, ∀ p ∈ hunk.touched home cwd, p ∈ ps)
include htouched

theorem applyHunks_respects (h : applyHunks fs home cwd hunks s = r) : R s.world r.2.world := by
  subst h
  induction hunks generalizing s with
  | nil => exact hR.refl _
  | cons hunk hunks ih =>
    unfold applyHunks
    split
    · exact applyHunk_respects hR (htouched hunk mem_cons_self) ‹_›
    · have hone := applyHunk_respects hR (htouched hunk mem_cons_self) ‹_›
      exact hR.trans hone (ih fun h hh => htouched h (mem_cons_of_mem _ hh))

/-- **Frame rule of the applier.** -/
theorem applyHunksToFiles_respects
    {r : Except ApplyPatchError AffectedPaths} {delta delta' : AppliedPatchDelta AbsolutePathBuf}
    (h : applyHunksToFiles fs home cwd hunks w delta = (r, w', delta')) : R w w' := by
  unfold applyHunksToFiles at h
  split at h
  · cases h
    exact hR.refl _
  · have hrun := applyHunks_respects hR htouched (s := ⟨w, delta, ⟨[], [], []⟩⟩) rfl
    split at h <;> cases h <;> simpa [‹applyHunks _ _ _ _ _ = _›] using hrun

end

end Respects

/-- **Files that no hunk touches** keep their texts, whatever fails, if those it touches are
    plain. -/
theorem applyHunksToFiles_frame {σ : Type} {fs : ExecutorFileSystem σ} (V : TextView fs)
    {home : Option Text} {cwd : AbsolutePathBuf} {w : σ} (delta : AppliedPatchDelta AbsolutePathBuf)
    (hplain : ∀ p ∈ hunks.flatMap (touched home cwd), V.plain w p) :
    ∀ q ∉ hunks.flatMap (touched home cwd),
      V.text (applyHunksToFiles fs home cwd hunks w delta).2.1 q = V.text w q := by
  let ps := hunks.flatMap (touched home cwd)
  let R : σ → σ → Prop := fun w w' => (∀ p ∈ ps, V.plain w p) →
    (∀ p ∈ ps, V.plain w' p) ∧ ∀ q ∉ ps, V.text w' q = V.text w q
  have hframe : ∀ {w w'}, V.Frame w w' → R w w' := fun h hw =>
    ⟨fun p hp => h.plain p (hw p hp), fun q _ => congrFun h.text q⟩
  have hexcept : ∀ {w w' p}, p ∈ ps → V.FrameExcept p w w' → R w w' := fun hp h hw =>
    ⟨fun p hp => h.plain p (hw p hp), fun q hq => h.text q fun heq => hq (heq ▸ hp)⟩
  -- the touched paths stay plain along the run, so each write and removal has a frame
  have hR : Respects fs R ps :=
    ⟨fun _ => hframe .refl, fun h h' hw => (h' (h hw).1).imp_right fun htext q hq =>
        (htext q hq).trans ((h hw).2 q hq),
      fun h => hframe (V.frame_read h), fun h => hframe (V.frame_metadata h),
      fun h => hframe (V.frame_createDirectory h),
      fun hp h hw => hexcept hp (V.frameExcept_write (hw _ hp) h) hw,
      fun hp h hw => hexcept hp (V.frameExcept_remove (hw _ hp) h) hw⟩
  exact (applyHunksToFiles_respects hR (fun hunk hhunk p hp => mem_flatMap.mpr ⟨hunk, hhunk, hp⟩)
    rfl hplain).2

/-- Whatever a move does, other files stay empty. -/
theorem applyHunksToFiles_frame_move : let hunks := [updateFile "a".toList (some "b".toList) []]
    ∀ q ∉ hunks.flatMap (touched none ⟨[]⟩), (applyHunksToFiles memoryFileSystem none ⟨[]⟩ hunks
      (fun _ => some []) ⟨[], true⟩).2.1 q = some [] :=
  applyHunksToFiles_frame (w := fun _ => some []) memoryView _ fun _ _ => trivial

/-! ### Recorded writes and removals -/

/-- The file system `fs`, with a list of the paths that were written or removed. -/
def recordingFileSystem {σ : Type} (fs : ExecutorFileSystem σ) :
    ExecutorFileSystem (σ × List AbsolutePathBuf) where
  readFileText p w := let r := fs.readFileText p w.1; (r.1, r.2, w.2)
  writeFile p c w := let r := fs.writeFile p c w.1; (r.1, r.2, w.2 ++ [p])
  createDirectory p w := let r := fs.createDirectory p w.1; (r.1, r.2, w.2)
  getMetadata p w := let r := fs.getMetadata p w.1; (r.1, r.2, w.2)
  remove p w := let r := fs.remove p w.1; (r.1, r.2, w.2 ++ [p])

/-- **Footprint.**  Whatever fails, a run writes and removes only paths that its hunks touch. -/
theorem applyHunksToFiles_written_mem {σ : Type} (fs : ExecutorFileSystem σ) {home : Option Text}
    {cwd : AbsolutePathBuf} {w : σ} {delta : AppliedPatchDelta AbsolutePathBuf} :
    ∀ p ∈ (applyHunksToFiles (recordingFileSystem fs) home cwd hunks (w, []) delta).2.1.2,
      ∃ hunk ∈ hunks, p ∈ hunk.touched home cwd := by
  let ps := hunks.flatMap (touched home cwd)
  -- Along a run the list grows by touched paths only.
  let R : σ × List AbsolutePathBuf → σ × List AbsolutePathBuf → Prop :=
    fun w w' => (∀ p ∈ w.2, p ∈ ps) → ∀ p ∈ w'.2, p ∈ ps
  have hR : Respects (recordingFileSystem fs) R ps := by
    refine ⟨fun w h => h, fun h h' hw => h' (h hw), ?_, ?_, ?_, ?_, ?_⟩
    · rintro p w r w' h hw
      exact (mk.inj h).2 ▸ hw
    · rintro p w r w' h hw
      exact (mk.inj h).2 ▸ hw
    · rintro p w r w' h hw
      exact (mk.inj h).2 ▸ hw
    · rintro p c w r w' hp h hw q hq
      rw [← (mk.inj h).2, mem_append, mem_singleton] at hq
      exact hq.elim (hw q) (fun hqp => hqp ▸ hp)
    · rintro p w r w' hp h hw q hq
      rw [← (mk.inj h).2, mem_append, mem_singleton] at hq
      exact hq.elim (hw q) (fun hqp => hqp ▸ hp)
  have htouched : ∀ hunk ∈ hunks, ∀ p ∈ hunk.touched home cwd, p ∈ ps :=
    fun hunk hhunk p hp => mem_flatMap.mpr ⟨hunk, hhunk, hp⟩
  intro p hp
  have hmem := applyHunksToFiles_respects hR htouched rfl (by simp) p hp
  simpa [ps] using hmem

end Codex.ApplyPatch
