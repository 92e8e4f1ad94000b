import Codex.ApplyPatch.Delta
import Codex.Path.Absolute
import Codex.Data.HashMap
import Mathlib

namespace Codex.TurnDiff

open Codex.ApplyPatch AppliedPatchChange List

/-!
# Net diff of a turn

The tracker follows the files that the patches of a turn change, without reading the file
system: the recorded changes say what was there.  For each file it keeps the contents before
the turn (the baseline) and now, and for a moved file where it came from.

* `TurnDiffTracker.trackDelta` — take in the changes of one delta;
* `Tracks t files₀ files` — what the tracker holds is right, for the files `files₀` before
  the turn and `files` now;
* `applyChange_tracks` — one coherent change keeps it right;
* `trackDeltas_tracks` — and so does every run of exact deltas.
-/

/-! ### The tracker -/

/-- A text with the number under which it was recorded. -/
structure TrackedContent where
  content : Text
  revision : Nat

/-- A path in one of the environments. -/
structure TrackedPath where
  environmentId : Text
  path : AbsolutePathBuf
deriving DecidableEq

/-- The texts a rendered diff is about. -/
structure DiffCacheKey where
  leftPath : TrackedPath
  leftRevision : Option Nat
  rightPath : TrackedPath
  rightRevision : Option Nat
deriving DecidableEq

/-- Tracks the net text diff of the current turn. -/
structure TurnDiffTracker where
  valid : Bool
  displayRootsByEnvironment : Finmap fun _ : Text => AbsolutePathBuf
  baselineByPath : Finmap fun _ : TrackedPath => TrackedContent
  currentByPath : Finmap fun _ : TrackedPath => TrackedContent
  originByCurrentPath : Finmap fun _ : TrackedPath => TrackedPath
  nextRevision : Nat
  renderedDiffs : Finmap fun _ : DiffCacheKey => Option Text
  unifiedDiff : Option Text

namespace TurnDiffTracker

/-- A tracker at the start of a turn. -/
def withEnvironmentDisplayRoots (displayRoots : Finmap fun _ : Text => AbsolutePathBuf) :
    TurnDiffTracker where
  valid := true
  displayRootsByEnvironment := displayRoots
  baselineByPath := ∅
  currentByPath := ∅
  originByCurrentPath := ∅
  nextRevision := 0
  renderedDiffs := ∅
  unifiedDiff := none

/-! ### Taking in a change -/

variable (t : TurnDiffTracker) (path : TrackedPath)

/-- Record `content` with a new revision as the baseline of `path`. -/
def insertBaseline (content : Text) : TurnDiffTracker :=
  { t with
    baselineByPath := t.baselineByPath.insert path ⟨content, t.nextRevision⟩
    nextRevision := t.nextRevision + 1 }

/-- Record `content` with a new revision as the current content of `path`. -/
def insertCurrent (content : Text) : TurnDiffTracker :=
  { t with
    currentByPath := t.currentByPath.insert path ⟨content, t.nextRevision⟩
    nextRevision := t.nextRevision + 1 }

/-- Record what was at `path`, if anything was and the path is not tracked yet. -/
def noteBaseline (content : Option Text) : TurnDiffTracker :=
  if path ∉ t.currentByPath ∧ path ∉ t.baselineByPath then
    match content with
    | some content => t.insertBaseline path content
    | none => t
  else t

def applyAdd (content : Text) (overwrittenContent : Option Text) : TurnDiffTracker :=
  let t := { t with originByCurrentPath := t.originByCurrentPath.erase path }
  (t.noteBaseline path overwrittenContent).insertCurrent path content

def applyDelete (content : Text) : TurnDiffTracker :=
  let removed := t.currentByPath.lookup path
  let t := { t with currentByPath := t.currentByPath.erase path }
  let t := if removed = none ∧ path ∉ t.baselineByPath then t.insertBaseline path content else t
  { t with originByCurrentPath := t.originByCurrentPath.erase path }

/-- Where the file at `path` came from. -/
def originOf : TrackedPath := (t.originByCurrentPath.lookup path).getD path

def applyUpdate (sourcePath : TrackedPath) (movePath : Option TrackedPath) (oldContent : Text)
    (overwrittenMoveContent : Option Text) (newContent : Text) : TurnDiffTracker :=
  let t := t.noteBaseline sourcePath (some oldContent)
  match movePath with
  | some destPath =>
    let t := t.noteBaseline destPath overwrittenMoveContent
    let origin := t.originOf sourcePath
    let t := { t with
      originByCurrentPath := t.originByCurrentPath.erase sourcePath
      currentByPath := t.currentByPath.erase sourcePath }
    let t := t.insertCurrent destPath newContent
    let origins := t.originByCurrentPath.erase destPath
    { t with
      originByCurrentPath := if destPath ≠ origin then origins.insert destPath origin else origins }
  | none => t.insertCurrent sourcePath newContent

def applyChange (environmentId : Text) (change : AppliedPatchChange AbsolutePathBuf) :
    TurnDiffTracker :=
  let sourcePath : TrackedPath := ⟨environmentId, change.path⟩
  match change.change with
  | .add content overwrittenContent => t.applyAdd sourcePath content overwrittenContent
  | .delete content => t.applyDelete sourcePath content
  | .update movePath oldContent overwrittenMoveContent newContent =>
    t.applyUpdate sourcePath (movePath.map (⟨environmentId, ·⟩)) oldContent overwrittenMoveContent
      newContent

/-! ### Rendering the diff -/

/-- A path as it is shown: relative to the display root of its environment, and with the
    environment in front if there are several. -/
def displayPath : Text :=
  let display : Text :=
    match t.displayRootsByEnvironment.lookup path.environmentId with
    | some root =>
      if root.names <+: path.path.names then
        ['/'].intercalate ((path.path.names.drop root.names.length).map Subtype.val)
      else path.path.display
    | none => path.path.display
  let display := display.map fun c => if c = '\\' then '/' else c
  if 1 < t.displayRootsByEnvironment.keys.card ∧ path.environmentId ≠ [] then
    path.environmentId ++ '/' :: display
  else display

/-- The pair of paths that an entry of `originByCurrentPath` is shown as, if it is shown as a
    rename. -/
def renamePair (entry : TrackedPath × TrackedPath) : Option (TrackedPath × TrackedPath) :=
  let (destPath, originPath) := entry
  if destPath = originPath ∨ originPath ∈ t.currentByPath ∨ destPath ∉ t.currentByPath ∨
      originPath ∉ t.baselineByPath ∨ destPath ∈ t.baselineByPath then none
  else some (originPath, destPath)

/-- The renames, by origin.  `origins` are the entries of `originByCurrentPath` in the order
    in which the hash map is iterated. -/
def renamePairs (origins : List (TrackedPath × TrackedPath)) :
    Finmap fun _ : TrackedPath => TrackedPath := Data.collect (origins.filterMap t.renamePair)

end TurnDiffTracker

/-- The orders in which hash maps are iterated. -/
structure HashIteration where
  origins : (Finmap fun _ : TrackedPath => TrackedPath) → List (TrackedPath × TrackedPath)
  origins_order : ∀ m, Data.IterationOrder m (origins m)
  contents : (Finmap fun _ : TrackedPath => TrackedContent) → List (TrackedPath × TrackedContent)
  contents_order : ∀ m, Data.IterationOrder m (contents m)

/-- Maps can be iterated. -/
noncomputable instance : Inhabited HashIteration where
  default :=
    { origins := fun m => (Data.exists_iterationOrder m).choose
      origins_order := fun m => (Data.exists_iterationOrder m).choose_spec
      contents := fun m => (Data.exists_iterationOrder m).choose
      contents_order := fun m => (Data.exists_iterationOrder m).choose_spec }

/-- What a diff is made with: the object id of a text, and the unified diff of two texts with
    a number of context lines and the two headers. -/
structure DiffTools where
  gitBlobOid : Text → Text
  unifiedDiff : Nat → Text → Text → Text → Text → Text

/-- The destinations of the renames. -/
def pairedDestinations (pairs : Finmap fun _ : TrackedPath => TrackedPath) : Finset TrackedPath :=
  pairs.keys.biUnion fun origin => (pairs.lookup origin).toFinset

/-- The left and right paths that the loop of `refresh_unified_diff` renders, in order. -/
def pairPaths (pairs : Finmap fun _ : TrackedPath => TrackedPath) :
    List TrackedPath → Finset TrackedPath → List (TrackedPath × TrackedPath)
  | [], _ => []
  | path :: paths, handled =>
    if path ∈ handled then pairPaths pairs paths handled
    else if path ∈ pairedDestinations pairs then pairPaths pairs paths (insert path handled)
    else
      match pairs.lookup path with
      | some dest => (path, dest) :: pairPaths pairs paths (insert dest (insert path handled))
      | none => (path, path) :: pairPaths pairs paths (insert path handled)

namespace TurnDiffTracker

variable (t : TurnDiffTracker) (tools : DiffTools) (it : HashIteration)

/-- Every baseline and current path, sorted by how it is shown. -/
def trackedPaths : List TrackedPath :=
  let paths := (it.contents t.baselineByPath).map Prod.fst ++
    (it.contents t.currentByPath).map Prod.fst
  (paths.insertionSort fun a b => t.displayPath a ≤ t.displayPath b).destutter (· ≠ ·)

/-- The pairs of paths that `refresh_unified_diff` renders. -/
def renderedPairs : List (TrackedPath × TrackedPath) :=
  pairPaths (t.renamePairs (it.origins t.originByCurrentPath)) (t.trackedPaths it) ∅

def renderDiff (leftPath : TrackedPath) (leftContent : Option Text) (rightPath : TrackedPath)
    (rightContent : Option Text) : Option Text :=
  if leftContent = rightContent then none
  else
    let leftDisplay := t.displayPath leftPath
    let rightDisplay := t.displayPath rightPath
    let zeroOid := replicate 40 '0'
    let leftOid := leftContent.elim zeroOid tools.gitBlobOid
    let rightOid := rightContent.elim zeroOid tools.gitBlobOid
    let mode : Text :=
      match leftContent, rightContent with
      | none, some _ => "new file mode 100644\n"
      | some _, none => "deleted file mode 100644\n"
      | _, _ => []
    let oldHeader := if leftContent.isSome then "a/" ++ leftDisplay else "/dev/null"
    let newHeader := if rightContent.isSome then "b/" ++ rightDisplay else "/dev/null"
    some ("diff --git a/" ++ leftDisplay ++ " b/" ++ rightDisplay ++ ['\n'] ++ mode ++
      "index " ++ leftOid ++ ".." ++ rightOid ++ ['\n'] ++
      tools.unifiedDiff 3 oldHeader newHeader (leftContent.getD []) (rightContent.getD []))

/-- The diffs that can be used again, those rendered so far, and their text. -/
structure RenderState where
  previousDiffs : Finmap fun _ : DiffCacheKey => Option Text
  renderedDiffs : Finmap fun _ : DiffCacheKey => Option Text
  aggregated : Text

/-- One round of the loop of `refresh_unified_diff`, for a pair of paths. -/
def renderPair (s : RenderState) (pair : TrackedPath × TrackedPath) : RenderState :=
  let leftContent := t.baselineByPath.lookup pair.1
  let rightContent := t.currentByPath.lookup pair.2
  let key : DiffCacheKey := ⟨pair.1, leftContent.map TrackedContent.revision,
    pair.2, rightContent.map TrackedContent.revision⟩
  let rendered := (s.previousDiffs.lookup key).getD
    (t.renderDiff tools pair.1 (leftContent.map TrackedContent.content) pair.2
      (rightContent.map TrackedContent.content))
  let aggregated :=
    match rendered with
    | some diff =>
      let text := s.aggregated ++ diff
      if text.getLast? = some '\n' then text else text ++ ['\n']
    | none => s.aggregated
  ⟨s.previousDiffs.erase key, s.renderedDiffs.insert key rendered, aggregated⟩

def refreshUnifiedDiff : TurnDiffTracker :=
  let s := (t.renderedPairs it).foldl (t.renderPair tools) ⟨t.renderedDiffs, ∅, []⟩
  { t with
    renderedDiffs := s.renderedDiffs
    unifiedDiff := if s.aggregated = [] then none else some s.aggregated }

def invalidate : TurnDiffTracker :=
  { t with valid := false, renderedDiffs := ∅, unifiedDiff := none }

/-- The loop of `track_delta`. -/
def applyChanges (environmentId : Text) (changes : List (AppliedPatchChange AbsolutePathBuf)) :
    TurnDiffTracker := changes.foldl (fun t change => t.applyChange environmentId change) t

def trackDelta (environmentId : Text) (delta : AppliedPatchDelta AbsolutePathBuf) :
    TurnDiffTracker :=
  if !t.valid then t
  else if !delta.exact then t.invalidate
  else (t.applyChanges environmentId delta.changes).refreshUnifiedDiff tools it

end TurnDiffTracker

/-- A delta of an environment, and the orders in which hash maps are iterated when it is
    taken in. -/
structure TurnStep where
  environmentId : Text
  delta : AppliedPatchDelta AbsolutePathBuf
  iteration : HashIteration

/-- The tracker after a run of deltas. -/
def TurnDiffTracker.trackDeltas (t : TurnDiffTracker) (tools : DiffTools) (run : List TurnStep) :
    TurnDiffTracker :=
  run.foldl (fun t step => t.trackDelta tools step.iteration step.environmentId step.delta) t

/-- The changes of a run, with their paths in the environments. -/
def runChanges (run : List TurnStep) : List (AppliedPatchChange TrackedPath) :=
  run.flatMap fun step => step.delta.changes.map (·.map (⟨step.environmentId, ·⟩))

/-! ### What the tracker holds at a path -/

variable {environmentId : Text} {tools : DiffTools}

namespace TurnDiffTracker

/-- The text recorded as the baseline of `p`. -/
def baselineAt (t : TurnDiffTracker) (p : TrackedPath) : Option Text :=
  (t.baselineByPath.lookup p).map TrackedContent.content

/-- The text recorded as current at `p`. -/
def currentAt (t : TurnDiffTracker) (p : TrackedPath) : Option Text :=
  (t.currentByPath.lookup p).map TrackedContent.content

variable {t : TurnDiffTracker} {p q : TrackedPath}

theorem baselineAt_eq_none : t.baselineAt p = none ↔ p ∉ t.baselineByPath := by
  simp [baselineAt, Finmap.lookup_eq_none]

theorem currentAt_eq_none : t.currentAt p = none ↔ p ∉ t.currentByPath := by
  simp [currentAt, Finmap.lookup_eq_none]

variable (content : Text)

theorem insertCurrent_currentAt :
    (t.insertCurrent p content).currentAt q = if q = p then some content else t.currentAt q := by
  unfold currentAt insertCurrent
  by_cases hq : q = p
  · subst hq
    simp
  · simp [hq]

theorem insertBaseline_baselineAt :
    (t.insertBaseline p content).baselineAt q = if q = p then some content else t.baselineAt q := by
  unfold baselineAt insertBaseline
  by_cases hq : q = p
  · subst hq
    simp
  · simp [hq]

@[simp] theorem insertCurrent_originByCurrentPath :
    (t.insertCurrent p content).originByCurrentPath = t.originByCurrentPath := rfl

variable (content : Option Text)

@[simp] theorem noteBaseline_currentByPath :
    (t.noteBaseline p content).currentByPath = t.currentByPath := by
  unfold noteBaseline
  split
  · cases content <;> rfl
  · rfl

@[simp] theorem noteBaseline_originByCurrentPath :
    (t.noteBaseline p content).originByCurrentPath = t.originByCurrentPath := by
  unfold noteBaseline
  split
  · cases content <;> rfl
  · rfl

@[simp] theorem noteBaseline_originOf : (t.noteBaseline p content).originOf q = t.originOf q := by
  simp [originOf]

@[simp] theorem noteBaseline_valid : (t.noteBaseline p content).valid = t.valid := by
  unfold noteBaseline
  split
  · cases content <;> rfl
  · rfl

theorem noteBaseline_baselineAt_of_ne (hq : q ≠ p) :
    (t.noteBaseline p content).baselineAt q = t.baselineAt q := by
  unfold noteBaseline
  split
  · cases content with
    | none => rfl
    | some content => rw [insertBaseline_baselineAt, if_neg hq]
  · rfl

/-- Deleting records what was there as the other changes do. -/
theorem applyDelete_baselineByPath (content : Text) :
    (t.applyDelete p content).baselineByPath =
      (t.noteBaseline p (some content)).baselineByPath := by
  unfold applyDelete noteBaseline
  simp only [Finmap.lookup_eq_none]
  split <;> rfl

@[simp] theorem applyDelete_currentByPath (content : Text) :
    (t.applyDelete p content).currentByPath = t.currentByPath.erase p := by
  unfold applyDelete
  dsimp only
  split <;> rfl

@[simp] theorem applyDelete_originByCurrentPath (content : Text) :
    (t.applyDelete p content).originByCurrentPath = t.originByCurrentPath.erase p := by
  unfold applyDelete
  dsimp only
  split <;> rfl

@[simp] theorem applyChange_valid (environmentId : Text) (c : AppliedPatchChange AbsolutePathBuf) :
    (t.applyChange environmentId c).valid = t.valid := by
  obtain ⟨path, change⟩ := c
  rcases change with ⟨content, ow⟩ | content | ⟨_ | dest, old, ow, new⟩
  · exact noteBaseline_valid _
  · simp only [applyChange, applyDelete]
    split <;> rfl
  · exact noteBaseline_valid _
  · exact (noteBaseline_valid _).trans (noteBaseline_valid _)

@[simp] theorem applyChanges_valid (environmentId : Text)
    (cs : List (AppliedPatchChange AbsolutePathBuf)) :
    (t.applyChanges environmentId cs).valid = t.valid := by
  unfold applyChanges
  induction cs generalizing t with
  | nil => rfl
  | cons c cs ih => rw [foldl_cons, ih, applyChange_valid]

/-- An exact delta is taken in change by change. -/
theorem trackDelta_of_exact {it : HashIteration}
    {delta : AppliedPatchDelta AbsolutePathBuf} (hvalid : t.valid) (hexact : delta.exact) :
    t.trackDelta tools it environmentId delta =
      (t.applyChanges environmentId delta.changes).refreshUnifiedDiff tools it := by
  simp [trackDelta, hvalid, hexact]

end TurnDiffTracker

/-! ### What the tracker knows -/

/-- The recorded texts of a path are right: they are the texts before the turn and now, or
    nothing is recorded and the path is as it was. -/
def PathTracked (baseline current before now : Option Text) : Prop :=
  (baseline = before ∧ current = now) ∨ (baseline = none ∧ current = none ∧ before = now)

/-- The tracker is right about every path, for the files `files₀` before the turn and `files`
    now. -/
def Tracks (t : TurnDiffTracker) (files₀ files : TextFiles TrackedPath) : Prop :=
  ∀ p, PathTracked (t.baselineAt p) (t.currentAt p) (files₀ p) (files p)

namespace TurnDiffTracker

variable {t t' : TurnDiffTracker} {p : TrackedPath} {files₀ files files' : TextFiles TrackedPath}

/-- Once what is there is noted, the baseline is right. -/
theorem noteBaseline_baselineAt_self {before now : Option Text}
    (h : PathTracked (t.baselineAt p) (t.currentAt p) before now) :
    (t.noteBaseline p now).baselineAt p = before := by
  unfold noteBaseline
  split
  · -- Nothing is recorded: what is there now was there before.
    rename_i huntracked
    rw [← currentAt_eq_none, ← baselineAt_eq_none] at huntracked
    have hsame : before = now := by
      rcases h with ⟨hb, hc⟩ | ⟨-, -, hsame⟩
      · rw [← hb, ← hc, huntracked.1, huntracked.2]
      · exact hsame
    cases now with
    | none => exact huntracked.2.trans hsame.symm
    | some now => rw [insertBaseline_baselineAt, if_pos rfl, hsame]
  · rename_i htracked
    rcases h with ⟨hb, -⟩ | ⟨hb, hc, -⟩
    · exact hb
    · exact absurd ⟨currentAt_eq_none.mp hc, baselineAt_eq_none.mp hb⟩ htracked

end TurnDiffTracker

section Tracks

open TurnDiffTracker

variable {t t' : TurnDiffTracker} {p d : TrackedPath}
variable {files₀ files files' : TextFiles TrackedPath}

section

variable (h : Tracks t files₀ files)
include h

variable {c : AppliedPatchChange TrackedPath}

/-- A change is tracked if it leaves both texts right where it touches a path, and nothing
    happens elsewhere. -/
theorem Tracks.of_touched
    (htouched : ∀ q, c.Touches q → t'.baselineAt q = files₀ q ∧ t'.currentAt q = c.replay files q)
    (hother : ∀ q, ¬ c.Touches q →
      t'.baselineAt q = t.baselineAt q ∧ t'.currentAt q = t.currentAt q) :
    Tracks t' files₀ (c.replay files) := by
  intro q
  by_cases hq : c.Touches q
  · exact .inl (htouched q hq)
  · obtain ⟨hb, hc⟩ := hother q hq
    rw [hb, hc, c.replay_of_not_touches hq]
    exact h q

/-- A change of one path whose baseline is noted. -/
theorem Tracks.of_noted
    (htouches : ∀ q, c.Touches q ↔ q = p)
    (hbaseline : ∀ q, t'.baselineAt q = (t.noteBaseline p (files p)).baselineAt q)
    (hcurrent : ∀ q, t'.currentAt q = if q = p then c.replay files p else t.currentAt q) :
    Tracks t' files₀ (c.replay files) := by
  refine h.of_touched (fun q hq => ?_) (fun q hq => ?_) <;> rw [htouches] at hq <;>
    rw [hbaseline, hcurrent]
  · subst hq
    exact ⟨noteBaseline_baselineAt_self (h q), if_pos rfl⟩
  · exact ⟨noteBaseline_baselineAt_of_ne _ hq, if_neg hq⟩

theorem applyAdd_tracks (content : Text) : Tracks (t.applyAdd p content (files p)) files₀
      (replay ⟨p, .add content (files p)⟩ files) := by
  refine Tracks.of_noted (t := { t with
    originByCurrentPath := t.originByCurrentPath.erase p }) h (fun _ => .rfl) (fun _ => rfl)
    fun q => ?_
  simp only [applyAdd, insertCurrent_currentAt]
  simp [replay, currentAt]

theorem applyDelete_tracks {content : Text} (hcontent : files p = some content) :
    Tracks (t.applyDelete p content) files₀
      (replay ⟨p, .delete content⟩ files) := by
  refine h.of_noted (fun _ => .rfl) (fun q => ?_) fun q => ?_
  · rw [hcontent, baselineAt, applyDelete_baselineByPath, baselineAt]
  · rcases eq_or_ne q p with rfl | hq <;> simp [currentAt, replay, *]

theorem applyUpdate_tracks {oldContent : Text}
    (hold : files p = some oldContent) (overwritten : Option Text) (newContent : Text) :
    Tracks (t.applyUpdate p none oldContent overwritten newContent) files₀
      (replay ⟨p, .update none oldContent overwritten newContent⟩ files) := by
  refine h.of_noted (fun _ => .rfl) (fun q => ?_) fun q => ?_
  · rw [hold]
    rfl
  · simp only [applyUpdate, insertCurrent_currentAt]
    simp [replay, currentAt]

theorem applyUpdate_move_tracks (hne : d ≠ p) {oldContent : Text}
    (hold : files p = some oldContent) (newContent : Text) :
    Tracks (t.applyUpdate p (some d) oldContent (files d) newContent) files₀
      (replay ⟨p, .update (some d) oldContent (files d) newContent⟩ files) := by
  have hbaseline : ∀ q, (t.applyUpdate p (some d) oldContent (files d) newContent).baselineAt q =
      ((t.noteBaseline p (files p)).noteBaseline d (files d)).baselineAt q := by
    intro q
    rw [hold]
    rfl
  have hcurrent : (t.applyUpdate p (some d) oldContent (files d) newContent).currentAt =
      fun q => if q = d then some newContent else if q = p then none else t.currentAt q := by
    funext q
    show TurnDiffTracker.currentAt (TurnDiffTracker.insertCurrent _ d newContent) q = _
    rw [insertCurrent_currentAt]
    by_cases hq : q = p
    · subst hq
      simp [currentAt]
    · simp [currentAt, hq]
  -- Noting the source says nothing about the destination.
  have hdest : PathTracked ((t.noteBaseline p (files p)).baselineAt d)
      ((t.noteBaseline p (files p)).currentAt d) (files₀ d) (files d) := by
    rw [noteBaseline_baselineAt_of_ne _ hne, currentAt, noteBaseline_currentByPath]
    exact h d
  refine h.of_touched (fun q hq => ?_) (fun q hq => ?_)
  · rw [hbaseline, hcurrent]
    rcases hq with hq | hq
    · obtain rfl : q = p := hq
      rw [noteBaseline_baselineAt_of_ne _ hne.symm]
      refine ⟨noteBaseline_baselineAt_self (h q), ?_⟩
      simp [replay, hne.symm]
    · obtain rfl : q = d := hq
      refine ⟨noteBaseline_baselineAt_self hdest, ?_⟩
      simp [replay]
  · simp only [Touches, not_or] at hq
    rw [hbaseline, hcurrent, noteBaseline_baselineAt_of_ne _ hq.2,
      noteBaseline_baselineAt_of_ne _ hq.1]
    simp [hq.1, hq.2]

/-- **One change.**  A coherent change that does not move a file onto itself is tracked. -/
theorem applyChange_tracks {c : AppliedPatchChange AbsolutePathBuf}
    (hcoherent : (c.map (TrackedPath.mk environmentId)).Coherent files)
    (hself : ¬ c.MovesOntoItself) : Tracks (t.applyChange environmentId c) files₀
      ((c.map (TrackedPath.mk environmentId)).replay files) := by
  obtain ⟨path, change⟩ := c
  rcases change with ⟨content, ow⟩ | content | ⟨_ | dest, old, ow, new⟩
  · obtain rfl : files ⟨environmentId, path⟩ = ow := hcoherent
    exact applyAdd_tracks h content
  · exact applyDelete_tracks h hcoherent
  · exact applyUpdate_tracks h hcoherent ow new
  · obtain ⟨hold, rfl⟩ : files ⟨environmentId, path⟩ = some old ∧
      files ⟨environmentId, dest⟩ = ow := hcoherent
    have hne : TrackedPath.mk environmentId dest ≠ ⟨environmentId, path⟩ := by
      intro heq
      exact hself (TrackedPath.mk.inj heq).2
    exact applyUpdate_move_tracks h hne hold new

theorem applyChanges_tracks
    {cs : List (AppliedPatchChange AbsolutePathBuf)}
    (hruns : Replays (cs.map (·.map (TrackedPath.mk environmentId))) files files')
    (hself : ∀ c ∈ cs, ¬ c.MovesOntoItself) :
    Tracks (t.applyChanges environmentId cs) files₀ files' := by
  induction cs generalizing t files with
  | nil =>
    obtain rfl : files' = files := hruns
    exact h
  | cons c cs ih =>
    obtain ⟨hc, hrest⟩ := hruns
    have hone := applyChange_tracks h hc (hself c mem_cons_self)
    exact ih hone hrest fun c hc => hself c (mem_cons_of_mem _ hc)

end

/-- A run of exact deltas leaves a valid tracker that is right. -/
theorem trackDeltas_tracks {run : List TurnStep} (hvalid : t.valid)
    (h : Tracks t files₀ files) (hexact : ∀ step ∈ run, step.delta.exact)
    (hruns : Replays (runChanges run) files files')
    (hself : ∀ step ∈ run, ∀ c ∈ step.delta.changes, ¬ c.MovesOntoItself) :
    Tracks (t.trackDeltas tools run) files₀ files' := by
  induction run generalizing t files with
  | nil =>
    obtain rfl : files' = files := hruns
    exact h
  | cons step run ih =>
    obtain ⟨mid, hnow, hlater⟩ := runsBy_append.mp hruns
    have hone := applyChanges_tracks h hnow (hself step mem_cons_self)
    rw [TurnDiffTracker.trackDeltas, foldl_cons,
      trackDelta_of_exact hvalid (hexact step mem_cons_self)]
    refine ih ?_ hone (fun s hs => hexact s (mem_cons_of_mem _ hs)) hlater
      (fun s hs => hself s (mem_cons_of_mem _ hs))
    exact (applyChanges_valid _ _).trans hvalid

/-- **Net diff.**  After every run of exact deltas that are coherent with the files and move no
    file onto itself, a path that has an entry has the contents before the turn as its baseline
    and the contents now as its current contents, and a path without is as it was. -/
theorem trackDeltas_net_diff {tools : DiffTools} {run : List TurnStep}
    {roots : Finmap fun _ : Text => AbsolutePathBuf} (hexact : ∀ step ∈ run, step.delta.exact)
    (hruns : Replays (runChanges run) files₀ files)
    (hself : ∀ step ∈ run, ∀ c ∈ step.delta.changes, ¬ c.MovesOntoItself) :
    let t := (withEnvironmentDisplayRoots roots).trackDeltas tools run
    ∀ p, (p ∈ t.baselineByPath ∨ p ∈ t.currentByPath →
        t.baselineAt p = files₀ p ∧ t.currentAt p = files p) ∧
      (p ∉ t.baselineByPath → p ∉ t.currentByPath → files₀ p = files p) := by
  intro t p
  -- a fresh tracker is right at the start of the turn
  have htracks : Tracks t files₀ files :=
    trackDeltas_tracks rfl (fun _ => .inr ⟨rfl, rfl, rfl⟩) hexact hruns hself
  rcases htracks p with ⟨hb, hc⟩ | ⟨hb, hc, hsame⟩
  · refine ⟨fun _ => ⟨hb, hc⟩, fun hb' hc' => ?_⟩
    rw [← hb, ← hc, baselineAt_eq_none.mpr hb', currentAt_eq_none.mpr hc']
  · refine ⟨fun htracked => ?_, fun _ _ => hsame⟩
    have huntracked := And.intro (baselineAt_eq_none.mp hb) (currentAt_eq_none.mp hc)
    exact (htracked.elim huntracked.1 huntracked.2).elim

/-- A file that is added and then moved. -/
theorem trackDeltas_net_diff_add_move :
    let a : AbsolutePathBuf := ⟨[]⟩
    let b : AbsolutePathBuf := ⟨[⟨['b'], by decide⟩]⟩
    let run : List TurnStep := [⟨[], ⟨[⟨a, .add ['x'] none⟩], true⟩, default⟩,
        ⟨[], ⟨[⟨a, .update (some b) ['x'] none ['y']⟩], true⟩, default⟩]
    let t := (withEnvironmentDisplayRoots ∅).trackDeltas
      ⟨id, fun _ _ _ _ _ => []⟩ run
    ∀ p, (p ∈ t.baselineByPath ∨ p ∈ t.currentByPath → t.baselineAt p = none ∧
          t.currentAt p = (if p = ⟨[], b⟩ then some ['y'] else none)) ∧
      (p ∉ t.baselineByPath → p ∉ t.currentByPath →
        none = if p = ⟨[], b⟩ then some ['y'] else none) := by
  intro a b run
  have hruns : Replays (runChanges run) (fun _ => none)
      (fun p => if p = ⟨[], b⟩ then some ['y'] else none) := by
    refine ⟨rfl, ⟨by decide, by decide⟩, ?_⟩
    funext p
    by_cases hb : p = ⟨[], b⟩
    · subst hb
      decide
    · have ha : Function.update (Function.update (fun _ => none) (TrackedPath.mk [] a) (some ['x']))
          (TrackedPath.mk [] a) none p = none := by simp
      rw [if_neg hb]
      exact ((Function.update_of_ne hb _ _).trans ha).symm
  have hself : ∀ step ∈ run, ∀ c ∈ step.delta.changes, ¬ c.MovesOntoItself := by
    have hba : b ≠ a := by decide
    simp [run, MovesOntoItself, hba]
  exact trackDeltas_net_diff (by simp [run]) hruns hself

end Tracks

end Codex.TurnDiff
