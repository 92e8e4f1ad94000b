import Codex.ApplyPatch.Footprint
import Mathlib.Data.Finmap

namespace Codex.ApplyPatch

open List Hunk Except Prod

/-!
# Verifying a patch before it is applied

Before a patch is applied, its hunks are checked against the files and turned into a map of
the changes it would make, one for each file, which is what is shown for approval and what
the safety check looks at.  Later hunks on the same file replace earlier ones in the map.

* `verifyApplyPatchArgs` — the verifier, and `isWritePatchConstrainedToWritablePaths` — the
  safety check on its result;
* `Survives` — a hunk that no later hunk on the same file replaces, and
  `verifyHunks_lookup` — the map has the changes of these hunks and no others;
* `isWritePatchConstrainedToWritablePaths_iff` — the safety check is about the paths the
  action mentions;
* `verifyApplyPatchArgs_mentions_touched_iff` — when the action mentions every path the
  applier can write or remove.
-/

/-! ### The verifier -/

/-- A proposed change of one file. -/
inductive ApplyPatchFileChange
  | add (content : Text)
  | delete (content : Text)
  | update (unifiedDiff : Text) (movePath : Option AbsolutePathBuf) (newContent : Text)
deriving DecidableEq

/-- The destination of the change's move, if it is one. -/
def ApplyPatchFileChange.movePath : ApplyPatchFileChange → Option AbsolutePathBuf
  | update _ movePath _ => movePath
  | _ => none

/-- The changes a patch would make, by file. -/
structure ApplyPatchAction where
  changes : Finmap fun _ : AbsolutePathBuf => ApplyPatchFileChange
  patch : Text
  /-- The working directory that the paths of the patch are read from. -/
  cwd : AbsolutePathBuf

/-- What `verify_apply_patch_args` can return. -/
inductive MaybeApplyPatchVerified
  | body (action : ApplyPatchAction)
  | correctnessError (error : ApplyPatchError)

/-- An update as it is shown. -/
structure ApplyPatchFileUpdate where
  unifiedDiff : Text
  originalContent : Text
  content : Text

section Verifier

variable {σ : Type} (fs : ExecutorFileSystem σ)
-- The unified diff of two texts with a number of context lines around each change.
variable (textDiff : Nat → Text → Text → Text)
variable (home : Option Text)

def unifiedDiffFromChunksWithContext (path : AbsolutePathBuf) (chunks : List UpdateFileChunk)
    (context : Nat) (w : σ) : Except ApplyPatchError ApplyPatchFileUpdate × σ :=
  match deriveNewContentsFromChunks fs path chunks w with
  | (.error e, w) => (.error e, w)
  | (.ok applied, w) =>
    let unifiedDiff := textDiff context applied.originalContents applied.newContents
    (.ok ⟨unifiedDiff, applied.originalContents, applied.newContents⟩, w)

def unifiedDiffFromChunks (path : AbsolutePathBuf) (chunks : List UpdateFileChunk) (w : σ) :
    Except ApplyPatchError ApplyPatchFileUpdate × σ :=
  unifiedDiffFromChunksWithContext fs textDiff path chunks 1 w

/-- The change that the loop of `verify_apply_patch_args` enters for a hunk. -/
def verifyHunk (cwd : AbsolutePathBuf) (hunk : Hunk) (w : σ) :
    Except ApplyPatchError ApplyPatchFileChange × σ :=
  let path := hunk.resolvePath home cwd
  match hunk with
  | .addFile _ contents => (.ok (.add contents), w)
  | .deleteFile _ =>
    match fs.readFileText path w with
    | (.ok content, w) => (.ok (.delete content), w)
    | (.error e, w) => (.error (.ioError ("Failed to read " ++ path.display) e), w)
  | .updateFile _ _ chunks =>
    match unifiedDiffFromChunks fs textDiff path chunks w with
    | (.error e, w) => (.error e, w)
    | (.ok diff, w) =>
      (.ok (.update diff.unifiedDiff (hunk.resolveMovePath home cwd) diff.content), w)

/-- The loop of `verify_apply_patch_args`. -/
def verifyHunks (cwd : AbsolutePathBuf) :
    List Hunk → Finmap (fun _ : AbsolutePathBuf => ApplyPatchFileChange) → σ →
      Except ApplyPatchError (Finmap fun _ : AbsolutePathBuf => ApplyPatchFileChange) × σ
  | [], changes, w => (.ok changes, w)
  | hunk :: hunks, changes, w =>
    match verifyHunk fs textDiff home cwd hunk w with
    | (.error e, w) => (.error e, w)
    | (.ok change, w) => verifyHunks cwd hunks (changes.insert (hunk.resolvePath home cwd) change) w

/-- The directory that the paths of a patch are read from. -/
def effectiveCwd (workdir : Option Text) (cwd : AbsolutePathBuf) : AbsolutePathBuf :=
  match workdir with
  | some dir => resolvePathAgainstBase home dir cwd
  | none => cwd

def verifyApplyPatchArgs (args : ApplyPatchArgs) (cwd : AbsolutePathBuf) (w : σ) :
    MaybeApplyPatchVerified × σ :=
  let cwd := effectiveCwd home args.workdir cwd
  match verifyHunks fs textDiff home cwd args.hunks ∅ w with
  | (.error e, w) => (.correctnessError e, w)
  | (.ok changes, w) => (.body ⟨changes, args.patch, cwd⟩, w)

end Verifier

/-! ### The safety check -/

namespace ApplyPatchAction

/-- The path is a file of the action or the destination of one of its moves. -/
def Mentions (action : ApplyPatchAction) (p : AbsolutePathBuf) : Prop :=
  ∃ path ∈ action.changes.keys,
    p = path ∨ (action.changes.lookup path).bind ApplyPatchFileChange.movePath = some p

instance (action : ApplyPatchAction) (p : AbsolutePathBuf) : Decidable (action.Mentions p) := by
  unfold Mentions; infer_instance

theorem mentions_iff {action : ApplyPatchAction} {p : AbsolutePathBuf} :
    action.Mentions p ↔ ∃ path change, action.changes.lookup path = some change ∧
      (p = path ∨ change.movePath = some p) := by
  constructor
  · rintro ⟨path, hpath, hp⟩
    obtain ⟨change, hchange⟩ := Finmap.mem_iff.mp (Finmap.mem_keys.mp hpath)
    refine ⟨path, change, hchange, ?_⟩
    simpa [hchange] using hp
  · rintro ⟨path, change, hchange, hp⟩
    refine ⟨path, Finmap.mem_keys.mpr (Finmap.mem_of_lookup_eq_some hchange), ?_⟩
    simpa [hchange] using hp

end ApplyPatchAction

/-- Every path that the action mentions can be written.  `canWritePathWithCwd` stands for the
    file system policy of the sandbox. -/
def isWritePatchConstrainedToWritablePaths (action : ApplyPatchAction)
    (canWritePathWithCwd : AbsolutePathBuf → AbsolutePathBuf → Bool) (cwd : AbsolutePathBuf) :
    Bool :=
  let isPathWritable (p : AbsolutePathBuf) : Bool :=
    canWritePathWithCwd (normalizePath p.components) cwd
  decide (∀ path ∈ action.changes.keys, isPathWritable path ∧
    -- Only updates have a destination to look at.
    ((action.changes.lookup path).bind ApplyPatchFileChange.movePath).all isPathWritable)

/-- The safety check looks at the paths the action mentions, and at no others. -/
theorem isWritePatchConstrainedToWritablePaths_iff {action : ApplyPatchAction}
    {canWrite : AbsolutePathBuf → AbsolutePathBuf → Bool} {cwd : AbsolutePathBuf} :
    isWritePatchConstrainedToWritablePaths action canWrite cwd ↔
      ∀ p, action.Mentions p → canWrite p cwd := by
  simp only [isWritePatchConstrainedToWritablePaths, normalizePath_components, decide_eq_true_eq]
  constructor
  · rintro h p ⟨path, hpath, rfl | hp⟩
    · exact (h _ hpath).1
    · simpa [hp] using (h path hpath).2
  · intro h path hpath
    refine ⟨h path ⟨path, hpath, .inl rfl⟩, ?_⟩
    rw [Option.all_eq_true]
    exact fun dest hdest => h dest ⟨path, hpath, .inr hdest⟩

/-! ### Which hunks the action shows -/

section Survives

variable (home : Option Text) (cwd : AbsolutePathBuf)

/-- The hunk is the last of `hunks` on its file. -/
def Survives (hunks : List Hunk) (hunk : Hunk) : Prop :=
  ∃ before after, hunks = before ++ hunk :: after ∧
    ∀ later ∈ after, later.resolvePath home cwd ≠ hunk.resolvePath home cwd

variable {home cwd} {hunk : Hunk} {hunks : List Hunk}

theorem Survives.mem (h : Survives home cwd hunks hunk) : hunk ∈ hunks := by
  obtain ⟨before, after, rfl, -⟩ := h
  simp

theorem Survives.cons (h : Survives home cwd hunks hunk) (first : Hunk) :
    Survives home cwd (first :: hunks) hunk := by
  obtain ⟨before, after, rfl, hafter⟩ := h
  exact ⟨first :: before, after, rfl, hafter⟩

theorem survives_cons_self
    (h : ∀ later ∈ hunks, later.resolvePath home cwd ≠ hunk.resolvePath home cwd) :
    Survives home cwd (hunk :: hunks) hunk := ⟨[], hunks, rfl, h⟩

/-- A hunk that survives does so in the rest, or is the first and about a file of its own. -/
theorem survives_of_cons {first : Hunk} (h : Survives home cwd (first :: hunks) hunk) :
    Survives home cwd hunks hunk ∨ (hunk = first ∧
      ∀ later ∈ hunks, later.resolvePath home cwd ≠ first.resolvePath home cwd) := by
  obtain ⟨before, after, heq, hafter⟩ := h
  cases before with
  | nil =>
    obtain ⟨rfl, rfl⟩ := cons.inj heq
    exact .inr ⟨rfl, hafter⟩
  | cons b before =>
    obtain ⟨-, rfl⟩ := cons.inj heq
    exact .inl ⟨before, after, rfl, hafter⟩

/-- On each file that a hunk is about, a hunk survives. -/
theorem exists_survives (home : Option Text) (cwd : AbsolutePathBuf) (h : hunk ∈ hunks) :
    ∃ last, Survives home cwd hunks last ∧
      last.resolvePath home cwd = hunk.resolvePath home cwd := by
  induction hunks generalizing hunk with
  | nil => simp at h
  | cons first hunks ih =>
    by_cases hlater : ∃ later ∈ hunks, later.resolvePath home cwd = hunk.resolvePath home cwd
    · obtain ⟨later, hmem, hpath⟩ := hlater
      obtain ⟨last, hlast, hsame⟩ := ih hmem
      exact ⟨last, hlast.cons first, hsame.trans hpath⟩
    · rcases mem_cons.mp h with rfl | hmem
      · exact ⟨hunk, survives_cons_self fun later hl heq => hlater ⟨later, hl, heq⟩, rfl⟩
      · exact absurd ⟨hunk, hmem, rfl⟩ hlater

end Survives

section Lookup

variable {σ : Type} {fs : ExecutorFileSystem σ} {textDiff : Nat → Text → Text → Text}
variable {home : Option Text} {cwd : AbsolutePathBuf} {hunk : Hunk} {hunks : List Hunk}
variable {changes changes' : Finmap fun _ : AbsolutePathBuf => ApplyPatchFileChange} {w w' : σ}

/-- The change was computed for the hunk in a state that satisfies `I`. -/
def Shows (fs : ExecutorFileSystem σ) (textDiff : Nat → Text → Text → Text) (home : Option Text)
    (cwd : AbsolutePathBuf) (I : σ → Prop) (hunk : Hunk) (change : ApplyPatchFileChange) : Prop :=
  ∃ w w', I w ∧ verifyHunk fs textDiff home cwd hunk w = (.ok change, w')

variable {I : σ → Prop}

/-- **The action shows the surviving hunks.**  `I` is any property of states that verifying a
    hunk preserves. -/
theorem verifyHunks_lookup
    (hI : ∀ hunk r w w', I w → verifyHunk fs textDiff home cwd hunk w = (r, w') → I w')
    (hw : I w) (h : verifyHunks fs textDiff home cwd hunks changes w = (.ok changes', w')) :
    (∀ hunk, Survives home cwd hunks hunk → ∃ change, Shows fs textDiff home cwd I hunk change ∧
      changes'.lookup (hunk.resolvePath home cwd) = some change) ∧
    ∀ path, (∀ hunk ∈ hunks, hunk.resolvePath home cwd ≠ path) →
      changes'.lookup path = changes.lookup path := by
  induction hunks generalizing changes w with
  | nil =>
    obtain ⟨rfl, rfl⟩ := h
    refine ⟨?_, fun path _ => rfl⟩
    rintro hunk ⟨before, after, heq, -⟩
    simp at heq
  | cons first hunks ih =>
    simp only [verifyHunks] at h
    rcases hfirst : verifyHunk fs textDiff home cwd first w with ⟨e | change, w₁⟩
    · simp [hfirst] at h
    · simp only [hfirst] at h
      obtain ⟨hsurvive, hother⟩ := ih (hI _ _ _ _ hw hfirst) h
      constructor
      · intro hunk hhunk
        rcases survives_of_cons hhunk with hlater | ⟨rfl, hlast⟩
        · exact hsurvive hunk hlater
        · refine ⟨change, ⟨w, w₁, hw, hfirst⟩, ?_⟩
          rw [hother _ hlast, Finmap.lookup_insert]
      · intro path hpath
        rw [hother path fun hunk hh => hpath hunk (mem_cons_of_mem _ hh),
          Finmap.lookup_insert_of_ne _ (hpath first mem_cons_self).symm]

variable {change : ApplyPatchFileChange}

/-- The change shown for a hunk has the hunk's destination. -/
theorem Shows.movePath_eq
    (h : Shows fs textDiff home cwd I hunk change) :
    change.movePath = hunk.resolveMovePath home cwd := by
  obtain ⟨w, w', -, h⟩ := h
  cases hunk with
  | addFile path contents =>
    simp only [verifyHunk, mk.injEq, ok.injEq] at h
    rw [← h.1]
    rfl
  | deleteFile path =>
    simp only [verifyHunk] at h
    split at h
    · simp only [mk.injEq, ok.injEq] at h
      rw [← h.1]
      rfl
    · simp at h
  | updateFile path movePath chunks =>
    simp only [verifyHunk] at h
    split at h
    · simp at h
    · simp only [mk.injEq, ok.injEq] at h
      rw [← h.1]
      rfl

/-! ### What the action mentions -/

variable {args : ApplyPatchArgs} {action : ApplyPatchAction} {base : AbsolutePathBuf}

section

variable (h : verifyApplyPatchArgs fs textDiff home args base w = (.body action, w'))
include h

theorem verifyApplyPatchArgs_body :
    verifyHunks fs textDiff home action.cwd args.hunks ∅ w = (.ok action.changes, w') := by
  simp only [verifyApplyPatchArgs] at h
  split at h
  · simp at h
  · rename_i heq
    obtain ⟨rfl, rfl⟩ := h
    exact heq

/-- Every entry of the action shows a surviving hunk. -/
theorem verifyApplyPatchArgs_entry
    (hI : ∀ hunk r w w', I w → verifyHunk fs textDiff home action.cwd hunk w = (r, w') → I w')
    (hw : I w) {path : AbsolutePathBuf} (hchange : action.changes.lookup path = some change) :
    ∃ hunk, Survives home action.cwd args.hunks hunk ∧
      hunk.resolvePath home action.cwd = path ∧
      Shows fs textDiff home action.cwd I hunk change := by
  obtain ⟨hsurvive, hother⟩ := verifyHunks_lookup hI hw (verifyApplyPatchArgs_body h)
  by_cases hpath : ∃ hunk ∈ args.hunks, hunk.resolvePath home action.cwd = path
  · obtain ⟨hunk, hmem, rfl⟩ := hpath
    obtain ⟨last, hlast, hsame⟩ := exists_survives home action.cwd hmem
    obtain ⟨change', hshows, hlookup⟩ := hsurvive last hlast
    rw [hsame, hchange, Option.some.injEq] at hlookup
    exact ⟨last, hlast, hsame, hlookup ▸ hshows⟩
  · simp only [not_exists, not_and] at hpath
    rw [hother path hpath] at hchange
    simp at hchange

/-- The action mentions the files of all hunks, and the destinations of surviving hunks. -/
theorem verifyApplyPatchArgs_mentions (p : AbsolutePathBuf) :
    action.Mentions p ↔ (∃ hunk ∈ args.hunks, hunk.resolvePath home action.cwd = p) ∨
      ∃ hunk, Survives home action.cwd args.hunks hunk ∧
        hunk.resolveMovePath home action.cwd = some p := by
  have hI : ∀ hunk r w w', True → verifyHunk fs textDiff home action.cwd hunk w = (r, w') → True :=
    fun _ _ _ _ _ _ => trivial
  obtain ⟨hsurvive, -⟩ := verifyHunks_lookup hI trivial (verifyApplyPatchArgs_body h)
  rw [ApplyPatchAction.mentions_iff]
  constructor
  · rintro ⟨path, change, hchange, hp⟩
    obtain ⟨hunk, hhunk, rfl, hshows⟩ := verifyApplyPatchArgs_entry h hI trivial hchange
    rcases hp with rfl | hp
    · exact .inl ⟨hunk, hhunk.mem, rfl⟩
    · exact .inr ⟨hunk, hhunk, hshows.movePath_eq ▸ hp⟩
  · rintro (⟨hunk, hmem, rfl⟩ | ⟨hunk, hhunk, hdest⟩)
    · obtain ⟨last, hlast, hsame⟩ := exists_survives home action.cwd hmem
      obtain ⟨change, -, hlookup⟩ := hsurvive last hlast
      exact ⟨_, change, hlookup, .inl hsame.symm⟩
    · obtain ⟨change, hshows, hlookup⟩ := hsurvive hunk hhunk
      exact ⟨_, change, hlookup, .inr (hshows.movePath_eq.trans hdest)⟩

/-- Each destination of a move is the file of some hunk, or the destination of a hunk that no
    later hunk on the same file replaces. -/
def DestinationsShown (home : Option Text) (cwd : AbsolutePathBuf) (hunks : List Hunk) : Prop :=
  ∀ hunk ∈ hunks, ∀ dest, hunk.resolveMovePath home cwd = some dest →
    (∃ other ∈ hunks, other.resolvePath home cwd = dest) ∨
      ∃ other, Survives home cwd hunks other ∧ other.resolveMovePath home cwd = some dest

theorem touched_mentions_iff_destinationsShown :
    (∀ hunk ∈ args.hunks, ∀ p ∈ hunk.touched home action.cwd, action.Mentions p) ↔
      DestinationsShown home action.cwd args.hunks := by
  simp only [verifyApplyPatchArgs_mentions h, touched, mem_cons, Option.mem_toList]
  constructor
  · intro hall hunk hhunk dest hdest
    exact hall hunk hhunk dest (.inr hdest)
  · rintro hdests hunk hhunk p (rfl | hdest)
    · exact .inl ⟨hunk, hhunk, rfl⟩
    · exact hdests hunk hhunk p hdest

end

/-- **Approval covers effect.**  For a verified patch, the action mentions every path that a
    hunk writes or removes exactly if each destination is shown.  Then, if the safety check
    accepts the action, everything the applier writes or removes may be written. -/
theorem verifyApplyPatchArgs_mentions_touched_iff
    (h : verifyApplyPatchArgs fs textDiff home args base w = (.body action, w')) :
    ((∀ hunk ∈ args.hunks, ∀ p ∈ hunk.touched home action.cwd, action.Mentions p) ↔
      DestinationsShown home action.cwd args.hunks) ∧
    (DestinationsShown home action.cwd args.hunks → ∀ canWrite cwd delta (w : σ),
      isWritePatchConstrainedToWritablePaths action canWrite cwd →
      ∀ p ∈ (applyHunksToFiles (recordingFileSystem fs) home action.cwd args.hunks (w, [])
        delta).2.1.2, canWrite p cwd) := by
  have hiff := touched_mentions_iff_destinationsShown h
  refine ⟨hiff, fun hdests canWrite cwd delta w hsafe p hp => ?_⟩
  obtain ⟨hunk, hhunk, htouched⟩ := applyHunksToFiles_written_mem fs p hp
  have hmentions := hiff.mpr hdests hunk hhunk p htouched
  exact isWritePatchConstrainedToWritablePaths_iff.mp hsafe p hmentions

end Lookup

/-- Moving one file and adding another shows both files and the destination. -/
theorem verifyApplyPatchArgs_mentions_touched_move :
    let a := resolvePathAgainstBase none ['a'] ⟨[]⟩
    let b := resolvePathAgainstBase none ['b'] ⟨[]⟩
    let c := resolvePathAgainstBase none ['c'] ⟨[]⟩
    let files := Function.update (fun _ => none) a (some "x\n".toList)
    let hunks := [updateFile ['a'] (some ['b']) [⟨none, [['x']], [['y']], false⟩],
      addFile ['c'] ['z']]
    let action : ApplyPatchAction :=
      ⟨((∅ : Finmap _).insert a (.update [] (some b) "y\n".toList)).insert c (.add ['z']), [], ⟨[]⟩⟩
    verifyApplyPatchArgs memoryFileSystem (fun _ _ _ => []) none ⟨[], hunks, none, none⟩ ⟨[]⟩
        files = (.body action, files) ∧
      ∀ hunk ∈ hunks, ∀ p ∈ hunk.touched none action.cwd, action.Mentions p := by
  intro a b c files hunks action
  have hverify : verifyApplyPatchArgs memoryFileSystem (fun _ _ _ => []) none
      ⟨[], hunks, none, none⟩ ⟨[]⟩ files = (.body action, files) := rfl
  refine ⟨hverify, (verifyApplyPatchArgs_mentions_touched_iff hverify).1.mpr ?_⟩
  intro hunk hhunk dest hdest
  refine .inr ⟨hunk, ?_, hdest⟩
  simp only [hunks, mem_cons, not_mem_nil, or_false] at hhunk
  rcases hhunk with rfl | rfl
  · exact ⟨[], [addFile ['c'] ['z']], rfl, by decide⟩
  · simp [resolveMovePath] at hdest

/-- A move of `a` to `b`, followed by a hunk that adds `a` again.  The second hunk replaces the
    first in the action: the safety check accepts it although `b` may not be written, and the
    applier writes `b`. -/
theorem verifyApplyPatchArgs_drops_destination :
    let a := resolvePathAgainstBase none ['a'] ⟨[]⟩
    let b := resolvePathAgainstBase none ['b'] ⟨[]⟩
    let files := Function.update (fun _ => none) a (some "x\n".toList)
    let hunks := [updateFile ['a'] (some ['b']) [⟨none, [['x']], [['y']], false⟩],
      addFile ['a'] ['z']]
    let action : ApplyPatchAction := ⟨(∅ : Finmap _).insert a (.add ['z']), [], ⟨[]⟩⟩
    verifyApplyPatchArgs memoryFileSystem (fun _ _ _ => []) none ⟨[], hunks, none, none⟩ ⟨[]⟩
        files = (.body action, files) ∧ ¬ action.Mentions b ∧
      isWritePatchConstrainedToWritablePaths action (fun p _ => p ≠ b) ⟨[]⟩ ∧
      (applyHunksToFiles memoryFileSystem none action.cwd hunks files .empty).2.1 b =
        some "y\n".toList := by
  exact ⟨rfl, by decide, by decide, by decide⟩

end Codex.ApplyPatch
