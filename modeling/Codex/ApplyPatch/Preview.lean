import Codex.ApplyPatch.Verify

namespace Codex.ApplyPatch

open Hunk Function Option List Prod ApplyPatchFileChange

/-!
# The preview of a patch and its effect

The verifier computes each change from the files as they are; the applier applies each hunk
to what the hunks before it left.  The two agree where hunks do not meet.

* `ApplyPatchAction.Announces` — the files are left as the action says;
* `Undisturbed` — no other hunk meets the files of a hunk in a way that would change what
  the hunk leaves;
* `verifyApplyPatchArgs_announces` — if the hunks that the action shows are undisturbed and
  all destinations are shown, a successful run leaves what the action announces.
-/

/-! ### What an action announces -/

/-- What the change of the file at `path` says about the files in the end. -/
def ApplyPatchFileChange.AnnouncedAt (path : AbsolutePathBuf) (files : TextFiles AbsolutePathBuf) :
    ApplyPatchFileChange → Prop
  | .add content => files path = some content
  | .delete _ => files path = none
  | .update _ none newContent => files path = some newContent
  | .update _ (some dest) newContent =>
    files dest = some newContent ∧ (dest ≠ path → files path = none)

/-- The change from `files` to `files'` is the one that the action announces: each entry says
    what is there, and paths that are not mentioned are as they were. -/
structure ApplyPatchAction.Announces (action : ApplyPatchAction)
    (files files' : TextFiles AbsolutePathBuf) : Prop where
  entry : ∀ path change, action.changes.lookup path = some change → change.AnnouncedAt path files'
  other : ∀ p, ¬ action.Mentions p → files' p = files p

/-! ### Runs of effects -/

section Effects

variable {home : Option Text} {cwd : AbsolutePathBuf} {hunk : Hunk} {hunks : List Hunk}
variable {files files' : TextFiles AbsolutePathBuf} {p : AbsolutePathBuf}

/-- A hunk leaves alone what it does not touch. -/
theorem Hunk.effect_of_not_touched (h : hunk.effect home cwd files = some files')
    (hp : p ∉ hunk.touched home cwd) : files' p = files p := by
  simp only [touched, mem_cons, mem_toList, not_or] at hp
  obtain ⟨hpath, hdest⟩ := hp
  cases hunk with
  | addFile path contents =>
    simp only [effect, some.injEq] at h
    rw [← h, update_of_ne hpath]
  | deleteFile path =>
    simp only [effect, some.injEq] at h
    rw [← h, update_of_ne hpath]
  | updateFile path movePath chunks =>
    simp only [effect, map_eq_some_iff] at h
    obtain ⟨applied, -, rfl⟩ := h
    cases hmove : (updateFile path movePath chunks).resolveMovePath home cwd with
    | none => exact update_of_ne hpath _ _
    | some dest =>
      have hne : p ≠ dest := fun heq => hdest (heq ▸ hmove)
      exact (update_of_ne hpath _ _).trans (update_of_ne hne _ _)

theorem foldlM_effect_of_not_touched
    (h : hunks.foldlM (fun files hunk => hunk.effect home cwd files) files = some files')
    (hp : ∀ hunk ∈ hunks, p ∉ hunk.touched home cwd) : files' p = files p := by
  induction hunks generalizing files with
  | nil =>
    simp only [List.foldlM_nil, Option.pure_def, Option.some.injEq] at h
    rw [h]
  | cons hunk hunks ih =>
    simp only [foldlM_cons, bind_eq_bind, bind_eq_some_iff] at h
    obtain ⟨mid, hmid, hrest⟩ := h
    rw [ih hrest fun h hh => hp h (mem_cons_of_mem _ hh),
      hunk.effect_of_not_touched hmid (hp hunk mem_cons_self)]

end Effects

/-! ### The change that is shown for a hunk -/

section Shown

variable {σ : Type} {fs : ExecutorFileSystem σ} (V : TextView fs)
variable {textDiff : Nat → Text → Text → Text} {home : Option Text} {cwd : AbsolutePathBuf}
variable {hunk : Hunk} {change : ApplyPatchFileChange} {w w' : σ}

/-- Verifying reads files only. -/
theorem verifyHunk_frame {r : Except ApplyPatchError ApplyPatchFileChange}
    (h : verifyHunk fs textDiff home cwd hunk w = (r, w')) : V.Frame w w' := by
  cases hunk with
  | addFile path contents =>
    simp only [verifyHunk, mk.injEq] at h
    exact h.2 ▸ .refl
  | deleteFile path =>
    simp only [verifyHunk] at h
    split at h <;>
      (rename_i hread; simp at h; exact h.2 ▸ V.frame_read hread)
  | updateFile path movePath chunks =>
    simp only [verifyHunk, unifiedDiffFromChunks, unifiedDiffFromChunksWithContext] at h
    generalize (updateFile path movePath chunks).resolvePath home cwd = path at h
    rcases hderive : deriveNewContentsFromChunks fs path chunks w with ⟨e | applied, w₁⟩ <;>
      (simp only [hderive, mk.injEq] at h
       exact h.2 ▸ (deriveNewContentsFromChunks_spec V hderive).1)

theorem verifyHunks_frame {hunks : List Hunk}
    {changes : Finmap fun _ : AbsolutePathBuf => ApplyPatchFileChange}
    {r : Except ApplyPatchError (Finmap fun _ : AbsolutePathBuf => ApplyPatchFileChange)}
    (h : verifyHunks fs textDiff home cwd hunks changes w = (r, w')) : V.Frame w w' := by
  induction hunks generalizing changes w with
  | nil =>
    simp only [verifyHunks, mk.injEq] at h
    exact h.2 ▸ .refl
  | cons hunk hunks ih =>
    simp only [verifyHunks] at h
    rcases hhunk : verifyHunk fs textDiff home cwd hunk w with ⟨e | change, w₁⟩
    · simp only [hhunk, mk.injEq] at h
      exact h.2 ▸ verifyHunk_frame V hhunk
    · simp only [hhunk] at h
      exact (verifyHunk_frame V hhunk).trans (ih h)

variable {files files' : TextFiles AbsolutePathBuf}

/-- If the hunk does to `files` what it was shown to do, and its file was the one that was
    read, then its change is announced by the result. -/
theorem Shows.announcedAt (h : Shows fs textDiff home cwd (V.Frame w) hunk change)
    (heffect : hunk.effect home cwd files = some files') (hself : ¬ hunk.MovesOntoItself home cwd)
    (hsource : (∃ path movePath chunks, hunk = .updateFile path movePath chunks) →
      files (hunk.resolvePath home cwd) = V.text w (hunk.resolvePath home cwd)) :
    change.AnnouncedAt (hunk.resolvePath home cwd) files' := by
  obtain ⟨w₁, w₂, hframe, hverify⟩ := h
  cases hunk with
  | addFile path contents =>
    simp only [verifyHunk, mk.injEq, Except.ok.injEq] at hverify
    simp only [effect, some.injEq] at heffect
    rw [← hverify.1, ← heffect]
    exact update_self _ _ _
  | deleteFile path =>
    simp only [verifyHunk] at hverify
    simp only [effect, some.injEq] at heffect
    split at hverify
    · simp only [mk.injEq, Except.ok.injEq] at hverify
      rw [← hverify.1, ← heffect]
      exact update_self _ _ _
    · simp at hverify
  | updateFile path movePath chunks =>
    simp only [verifyHunk, unifiedDiffFromChunks, unifiedDiffFromChunksWithContext] at hverify
    simp only [effect] at heffect
    simp only [MovesOntoItself] at hself
    have hsource := hsource ⟨path, movePath, chunks, rfl⟩
    generalize (updateFile path movePath chunks).resolvePath home cwd = source at *
    generalize (updateFile path movePath chunks).resolveMovePath home cwd = dest at *
    rcases hderive : deriveNewContentsFromChunks fs source chunks w₁ with ⟨e | applied, w₃⟩
    · simp [hderive] at hverify
    · simp only [hderive, mk.injEq, Except.ok.injEq] at hverify
      have happlied := (deriveNewContentsFromChunks_spec V hderive).2 applied rfl
      rw [hframe.text, updatedContents, ← hsource, ← updatedContents] at happlied
      simp only [happlied, map_some, some.injEq] at heffect
      rw [← hverify.1, ← heffect]
      cases dest with
      | none => exact update_self _ _ _
      | some dest =>
        have hne : dest ≠ source := fun heq => hself (congrArg some heq)
        simp only [AnnouncedAt]
        refine ⟨?_, fun _ => update_self _ _ _⟩
        rw [update_of_ne hne, update_self]

/-! ### Preview and effect -/

/-- Between the hunks `before` and `after` it, the hunk leaves what it was shown to leave: it
    does not move a file onto itself, no later hunk touches its paths, and if it is an update,
    no earlier hunk touches its file. -/
structure Undisturbed (home : Option Text) (cwd : AbsolutePathBuf) (before : List Hunk)
    (hunk : Hunk) (after : List Hunk) : Prop where
  not_self : ¬ hunk.MovesOntoItself home cwd
  later : ∀ p ∈ hunk.touched home cwd, ∀ later ∈ after, p ∉ later.touched home cwd
  earlier : (∃ path movePath chunks, hunk = .updateFile path movePath chunks) →
    ∀ earlier ∈ before, hunk.resolvePath home cwd ∉ earlier.touched home cwd

theorem ApplyPatchFileChange.announcedAt_congr {path : AbsolutePathBuf}
    (hpath : files' path = files path)
    (hdest : ∀ dest, change.movePath = some dest → files' dest = files dest)
    (h : change.AnnouncedAt path files) : change.AnnouncedAt path files' := by
  rcases change with content | content | ⟨diff, _ | dest, newContent⟩
  · exact hpath.trans h
  · exact hpath.trans h
  · exact hpath.trans h
  · exact ⟨(hdest dest rfl).trans h.1, fun hne => hpath.trans (h.2 hne)⟩

variable {args : ApplyPatchArgs} {action : ApplyPatchAction} {base : AbsolutePathBuf} {w₁ w₂ : σ}
variable {affected : AffectedPaths} {delta delta' : AppliedPatchDelta AbsolutePathBuf}

/-- **Preview and effect.**  On plain files without aliases, let a patch be verified and then applied with
    success.  If all destinations are shown, and no other hunk disturbs a hunk that is shown,
    then the files are left as the action announces. -/
theorem verifyApplyPatchArgs_announces (hplain : ∀ p, V.plain w p)
    (hverify : verifyApplyPatchArgs fs textDiff home args base w = (.body action, w₁))
    (happly : applyHunksToFiles fs home action.cwd args.hunks w₁ delta = (.ok affected, w₂, delta'))
    (hdests : DestinationsShown home action.cwd args.hunks)
    (hshown : ∀ before hunk after, args.hunks = before ++ hunk :: after →
      (∀ later ∈ after, later.resolvePath home action.cwd ≠ hunk.resolvePath home action.cwd) →
      Undisturbed home action.cwd before hunk after) :
    action.Announces (V.text w) (V.text w₂) := by
  have hframe := verifyHunks_frame V (verifyApplyPatchArgs_body hverify)
  -- The run is the effects of the hunks, one after the other.
  have hrun : args.hunks.foldlM (fun files hunk => hunk.effect home action.cwd files) (V.text w) =
      some (V.text w₂) := by
    unfold applyHunksToFiles at happly
    split at happly
    · simp at happly
    · rcases hall : applyHunks fs home action.cwd args.hunks ⟨w₁, delta, ⟨[], [], []⟩⟩ with
        ⟨e | u, s'⟩
      · simp [hall] at happly
      · simp only [hall, mk.injEq] at happly
        rw [← happly.2.1, ← hframe.text]
        exact applyHunks_effect V (fun p => hframe.plain p (hplain p)) hall
  constructor
  · intro path change hchange
    have hI : ∀ hunk r v v', V.Frame w v → verifyHunk fs textDiff home action.cwd hunk v = (r, v') →
        V.Frame w v' := fun _ _ _ _ hv h => hv.trans (verifyHunk_frame V h)
    obtain ⟨hunk, ⟨before, after, heq, hlast⟩, rfl, hshows⟩ :=
      verifyApplyPatchArgs_entry hverify hI .refl hchange
    have hun := hshown before hunk after heq hlast
    rw [heq, foldlM_append] at hrun
    simp only [foldlM_cons, bind_eq_bind, bind_eq_some_iff] at hrun
    obtain ⟨files₁, hbefore, files₂, heffect, hafter⟩ := hrun
    have hsource := fun hupdate => foldlM_effect_of_not_touched hbefore (hun.earlier hupdate)
    have hkeep : ∀ p ∈ hunk.touched home action.cwd, V.text w₂ p = files₂ p :=
      fun p hp => foldlM_effect_of_not_touched hafter (hun.later p hp)
    refine announcedAt_congr (hkeep _ (by simp [touched]))
      (fun dest hdest => hkeep _ ?_) (hshows.announcedAt V heffect hun.not_self hsource)
    rw [hshows.movePath_eq] at hdest
    simp [touched, hdest]
  · intro p hp
    refine foldlM_effect_of_not_touched hrun fun hunk hhunk htouched => hp ?_
    exact (touched_mentions_iff_destinationsShown hverify).mpr hdests hunk hhunk p htouched

end Shown

/-- A file that is deleted and added again is announced as it is left. -/
theorem verifyApplyPatchArgs_announces_replaced :
    let a := resolvePathAgainstBase none ['a'] ⟨[]⟩
    let files := update (fun _ => none) a (some "x\n".toList)
    let hunks := [deleteFile ['a'], addFile ['a'] ['y']]
    let action : ApplyPatchAction := ⟨(∅ : Finmap _).insert a (.add ['y']), [], ⟨[]⟩⟩
    let run := applyHunksToFiles memoryFileSystem none action.cwd hunks files .empty
    verifyApplyPatchArgs memoryFileSystem (fun _ _ _ => []) none ⟨[], hunks, none, none⟩ ⟨[]⟩
        files = (.body action, files) ∧ run.1 = .ok ⟨[['a']], [], [['a']]⟩ ∧
        action.Announces files run.2.1 := by
  intro a files hunks action run
  have hverify : verifyApplyPatchArgs memoryFileSystem (fun _ _ _ => []) none
      ⟨[], hunks, none, none⟩ ⟨[]⟩ files = (.body action, files) := rfl
  have happly : applyHunksToFiles memoryFileSystem none action.cwd hunks files .empty =
      (.ok ⟨[['a']], [], [['a']]⟩, run.2.1, run.2.2) := rfl
  refine ⟨hverify, by decide, verifyApplyPatchArgs_announces memoryView (fun _ => trivial) hverify
    happly ?_ ?_⟩
  · intro hunk hhunk dest hdest
    simp only [hunks, mem_cons, not_mem_nil, or_false] at hhunk
    rcases hhunk with rfl | rfl <;> cases hdest
  · intro before hunk after heq hlast
    -- the deletion does not survive the addition of the same file
    rcases before with _ | ⟨first, _ | ⟨second, before⟩⟩
    · cases heq
      exact (hlast _ mem_cons_self rfl).elim
    · cases heq
      exact ⟨by simp [MovesOntoItself, resolveMovePath], by simp, by simp⟩
    · cases before <;> cases heq

/-- Two updates of one file: the action shows the second, computed from the file as it was, and
    the applier leaves both. -/
theorem verifyApplyPatchArgs_two_updates :
    let a := resolvePathAgainstBase none ['a'] ⟨[]⟩
    let files := update (fun _ => none) a (some "x\nu\n".toList)
    let hunks := [updateFile ['a'] none [⟨none, [['x']], [['y']], false⟩],
      updateFile ['a'] none [⟨none, [['u']], [['v']], false⟩]]
    let action : ApplyPatchAction :=
      ⟨(∅ : Finmap _).insert a (.update [] none "x\nv\n".toList), [], ⟨[]⟩⟩
    let run := applyHunksToFiles memoryFileSystem none action.cwd hunks files .empty
    verifyApplyPatchArgs memoryFileSystem (fun _ _ _ => []) none ⟨[], hunks, none, none⟩ ⟨[]⟩
        files = (.body action, files) ∧ run.1 = .ok ⟨[], [['a'], ['a']], []⟩ ∧
      run.2.1 a = some "y\nv\n".toList ∧ ¬ action.Announces files run.2.1 := by
  intro a files hunks action run
  refine ⟨rfl, by decide, by decide, fun h => ?_⟩
  have hentry := h.entry a (.update [] none "x\nv\n".toList) (by decide)
  revert hentry
  show ¬ run.2.1 a = some "x\nv\n".toList
  decide

end Codex.ApplyPatch
