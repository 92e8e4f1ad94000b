import Codex.TurnDiff.Tracker

namespace Codex.TurnDiff

open Codex.ApplyPatch TrackedContent List Finmap

/-!
# The cache of rendered diffs

`refresh_unified_diff` renders a pair of paths only if the last refresh did not: the diff is
looked up under the two paths and the revisions of their contents, never under the texts.

* `Records history t` — every revision the tracker holds numbers its text in `history`, and
  every cached diff is the diff of the texts its key numbers;
* `RecordsMore.applyChange` — a change only makes the history longer;
* `refreshUnifiedDiff_fresh` — with such a cache, a refresh gives what rendering anew gives;
* `trackDeltas_unifiedDiff_fresh` — so it is after every run, and a key that is used again
  later in the turn stands for the same texts.
-/

namespace TurnDiffTracker

variable (t : TurnDiffTracker)

/-- The key under which the diff of a pair of paths is cached. -/
def diffCacheKey (pair : TrackedPath × TrackedPath) : DiffCacheKey :=
  ⟨pair.1, (t.baselineByPath.lookup pair.1).map revision,
    pair.2, (t.currentByPath.lookup pair.2).map revision⟩

/-- The diff of a pair of paths, rendered anew. -/
def freshPairDiff (tools : DiffTools) (pair : TrackedPath × TrackedPath) : Option Text :=
  t.renderDiff tools pair.1 (t.baselineAt pair.1) pair.2 (t.currentAt pair.2)

/-- The text of the diffs so far, with one more. -/
def appendDiff (text : Text) : Option Text → Text
  | some diff =>
    if (text ++ diff).getLast? = some '\n' then text ++ diff else text ++ diff ++ ['\n']
  | none => text

/-- The diff of the turn with every pair of paths rendered anew. -/
def freshUnifiedDiff (tools : DiffTools) (it : HashIteration) : Option Text :=
  let text := (t.renderedPairs it).foldl
    (fun text pair => appendDiff text (t.freshPairDiff tools pair)) []
  if text = [] then none else some text

end TurnDiffTracker

open TurnDiffTracker

/-! ### What the revisions stand for -/

abbrev DiffCache := Finmap fun _ : DiffCacheKey => Option Text

/-- The diff of two texts at two paths. -/
abbrev Renderer := TrackedPath → Option Text → TrackedPath → Option Text → Option Text

/-- The revision numbers the text in `history`. -/
def Numbers (history : List Text) (c : TrackedContent) : Prop :=
  history[c.revision]? = some c.content

/-- Every cached diff is the diff of texts that its key numbers. -/
def RightDiffs (render : Renderer) (history : List Text) (diffs : DiffCache) : Prop :=
  ∀ key diff, diffs.lookup key = some diff → ∃ left right : Option TrackedContent,
    (∀ c ∈ left, Numbers history c) ∧ (∀ c ∈ right, Numbers history c) ∧
    key.leftRevision = left.map revision ∧
    key.rightRevision = right.map revision ∧ diff = render key.leftPath (left.map content)
      key.rightPath (right.map content)

/-- What a tracker holds goes by the revisions of `history`, and its next one is new. -/
structure Records (tools : DiffTools) (history : List Text) (t : TurnDiffTracker) : Prop where
  baseline : ∀ p, ∀ c ∈ t.baselineByPath.lookup p, Numbers history c
  current : ∀ p, ∀ c ∈ t.currentByPath.lookup p, Numbers history c
  cache : RightDiffs (t.renderDiff tools) history t.renderedDiffs
  no_diff : t.valid = false → t.unifiedDiff = none
  next : t.nextRevision = history.length

variable {tools : DiffTools} {render : Renderer} {history : List Text} {t : TurnDiffTracker}
  {diffs : DiffCache}

theorem Numbers.append {c : TrackedContent} (h : Numbers history c) (more : List Text) :
    Numbers (history ++ more) c := by
  have hlt : c.revision < history.length := (List.getElem?_eq_some_iff.mp h).1
  exact (getElem?_append_left hlt).trans h

/-- Contents with the same revisions have the same texts. -/
theorem map_content_eq {a b : Option TrackedContent} (ha : ∀ c ∈ a, Numbers history c)
    (hb : ∀ c ∈ b, Numbers history c) (h : a.map revision = b.map revision) :
    a.map content = b.map content := by
  cases a <;> cases b <;> simp_all [Numbers]

namespace RightDiffs

theorem empty : RightDiffs render history ∅ := by
  intro key diff hdiff
  simp at hdiff

theorem append (h : RightDiffs render history diffs) (more : List Text) :
    RightDiffs render (history ++ more) diffs := by
  intro key diff hdiff
  obtain ⟨left, right, hleft, hright, heqs⟩ := h key diff hdiff
  exact ⟨left, right, fun c hc => (hleft c hc).append more,
    fun c hc => (hright c hc).append more, heqs⟩

theorem erase (h : RightDiffs render history diffs) (key : DiffCacheKey) :
    RightDiffs render history (diffs.erase key) := by
  intro other diff hdiff
  have hother : other ≠ key := by
    rintro rfl
    rw [lookup_erase] at hdiff
    cases hdiff
  exact h other diff (by rwa [lookup_erase_ne hother] at hdiff)

theorem insert (hdiffs : RightDiffs (t.renderDiff tools) history diffs)
    (h : Records tools history t) (pair : TrackedPath × TrackedPath) :
    RightDiffs (t.renderDiff tools) history
      (diffs.insert (t.diffCacheKey pair) (t.freshPairDiff tools pair)) := by
  intro key diff hdiff
  by_cases hkey : key = t.diffCacheKey pair
  · subst hkey
    rw [lookup_insert, Option.some.injEq] at hdiff
    exact ⟨_, _, h.baseline pair.1, h.current pair.2, rfl, rfl, hdiff.symm⟩
  · exact hdiffs key diff (by rwa [lookup_insert_of_ne _ hkey] at hdiff)

/-- A cached diff is the one that rendering anew gives: its key numbers the same texts. -/
theorem lookup_getD (hdiffs : RightDiffs (t.renderDiff tools) history diffs)
    (h : Records tools history t) (pair : TrackedPath × TrackedPath) :
    (diffs.lookup (t.diffCacheKey pair)).getD (t.freshPairDiff tools pair) =
      t.freshPairDiff tools pair := by
  cases hdiff : diffs.lookup (t.diffCacheKey pair) with
  | none => rfl
  | some diff =>
    obtain ⟨left, right, hleft, hright, hleftRev, hrightRev, rfl⟩ := hdiffs _ _ hdiff
    have hl := map_content_eq (h.baseline pair.1) hleft hleftRev
    have hr := map_content_eq (h.current pair.2) hright hrightRev
    rw [freshPairDiff, baselineAt, currentAt, hl, hr]
    rfl

end RightDiffs

/-! ### Changes make the history longer -/

/-- The tracker records all of `history`, and maybe more. -/
def RecordsMore (tools : DiffTools) (history : List Text) (t : TurnDiffTracker) : Prop :=
  ∃ more, Records tools (history ++ more) t

/-- A map of numbered contents, with a new text under the next revision. -/
theorem numbers_insert {m : Finmap fun _ : TrackedPath => TrackedContent} {next : Nat}
    (h : ∀ p, ∀ c ∈ m.lookup p, Numbers history c) (hnext : next = history.length)
    (path : TrackedPath) (content : Text) :
    ∀ p, ∀ c ∈ (m.insert path ⟨content, next⟩).lookup p, Numbers (history ++ [content]) c := by
  intro p c hc
  by_cases hp : p = path
  · subst hp
    rw [lookup_insert, Option.mem_some_iff] at hc
    simp [← hc, Numbers, hnext]
  · rw [lookup_insert_of_ne _ hp] at hc
    exact (h p c hc).append _

namespace RecordsMore

variable (h : RecordsMore tools history t)
include h

variable (path : TrackedPath)

theorem insertBaseline (content : Text) :
    RecordsMore tools history (t.insertBaseline path content) := by
  obtain ⟨more, h⟩ := h
  refine ⟨more ++ [content], ?_⟩
  rw [← append_assoc]
  exact { h with
    baseline := numbers_insert h.baseline h.next path content
    current := fun p c hc => (h.current p c hc).append _
    cache := h.cache.append _
    next := by rw [length_append, ← h.next]; rfl }

theorem insertCurrent (content : Text) :
    RecordsMore tools history (t.insertCurrent path content) := by
  obtain ⟨more, h⟩ := h
  refine ⟨more ++ [content], ?_⟩
  rw [← append_assoc]
  exact { h with
    baseline := fun p c hc => (h.baseline p c hc).append _
    current := numbers_insert h.current h.next path content
    cache := h.cache.append _
    next := by rw [length_append, ← h.next]; rfl }

theorem noteBaseline (content : Option Text) :
    RecordsMore tools history (t.noteBaseline path content) := by
  unfold TurnDiffTracker.noteBaseline
  split
  · split
    · exact h.insertBaseline path _
    · exact h
  · exact h

theorem setOrigins (origins : Finmap fun _ : TrackedPath => TrackedPath) :
    RecordsMore tools history { t with originByCurrentPath := origins } := by
  obtain ⟨more, h⟩ := h
  exact ⟨more, { h with }⟩

theorem eraseCurrent (path : TrackedPath) :
    RecordsMore tools history { t with currentByPath := t.currentByPath.erase path } := by
  obtain ⟨more, h⟩ := h
  refine ⟨more, { h with current := fun p c hc => ?_ }⟩
  have hp : p ≠ path := by
    rintro rfl
    simp at hc
  exact h.current p c (by rwa [lookup_erase_ne hp] at hc)

/-- **A change makes the history longer**: texts get new revisions, and no revision that is
    in use gets a new text. -/
theorem applyChange (environmentId : Text) (change : AppliedPatchChange AbsolutePathBuf) :
    RecordsMore tools history (t.applyChange environmentId change) := by
  unfold TurnDiffTracker.applyChange
  cases change.change with
  | add content overwritten =>
    exact ((h.setOrigins _).noteBaseline _ overwritten).insertCurrent _ content
  | delete content =>
    refine setOrigins ?_ _
    split
    · exact (h.eraseCurrent _).insertBaseline _ content
    · exact h.eraseCurrent _
  | update movePath oldContent overwritten newContent =>
    have hsource := h.noteBaseline ⟨environmentId, change.path⟩ (some oldContent)
    cases movePath with
    | none => exact hsource.insertCurrent _ newContent
    | some dest =>
      have hdest := hsource.noteBaseline ⟨environmentId, dest⟩ overwritten
      exact (((hdest.eraseCurrent _).setOrigins _).insertCurrent _ newContent).setOrigins _

theorem applyChanges (environmentId : Text) (changes : List (AppliedPatchChange AbsolutePathBuf)) :
    RecordsMore tools history (t.applyChanges environmentId changes) := by
  induction changes generalizing t h with
  | nil => exact h
  | cons change changes ih => exact ih (h.applyChange environmentId change)

end RecordsMore

/-! ### A refresh -/

/-- The loop of a refresh renders the text that rendering anew gives, and keeps only right
    diffs for the next one. -/
theorem foldl_renderPair (h : Records tools history t)
    (pairs : List (TrackedPath × TrackedPath)) (s : RenderState)
    (hprevious : RightDiffs (t.renderDiff tools) history s.previousDiffs)
    (hrendered : RightDiffs (t.renderDiff tools) history s.renderedDiffs) :
    let s' := pairs.foldl (t.renderPair tools) s
    RightDiffs (t.renderDiff tools) history s'.renderedDiffs ∧ s'.aggregated =
      pairs.foldl (fun text pair => appendDiff text (t.freshPairDiff tools pair)) s.aggregated := by
  induction pairs generalizing s with
  | nil => exact ⟨hrendered, rfl⟩
  | cons pair pairs ih =>
    have hstep : t.renderPair tools s pair = ⟨s.previousDiffs.erase (t.diffCacheKey pair),
          s.renderedDiffs.insert (t.diffCacheKey pair) (t.freshPairDiff tools pair),
          appendDiff s.aggregated (t.freshPairDiff tools pair)⟩ := by
      have hgetD := hprevious.lookup_getD h pair
      unfold diffCacheKey freshPairDiff baselineAt currentAt at hgetD
      unfold renderPair
      simp only [hgetD]
      rfl
    simp only [foldl_cons, hstep]
    exact ih _ (hprevious.erase _) (hrendered.insert h pair)

/-- **A refresh with the cache gives what rendering anew gives.** -/
theorem refreshUnifiedDiff_fresh (h : Records tools history t) (hvalid : t.valid)
    (it : HashIteration) :
    let t' := t.refreshUnifiedDiff tools it
    Records tools history t' ∧ t'.unifiedDiff = t'.freshUnifiedDiff tools it := by
  obtain ⟨hcache, htext⟩ := foldl_renderPair h (t.renderedPairs it)
    ⟨t.renderedDiffs, ∅, []⟩ h.cache RightDiffs.empty
  have hno : t.valid ≠ false := by simp [hvalid]
  refine ⟨{ h with cache := hcache, no_diff := fun hnot => absurd hnot hno }, ?_⟩
  unfold refreshUnifiedDiff freshUnifiedDiff
  dsimp only
  rw [htext]
  rfl

/-! ### Runs -/

/-- What a delta leaves: more is recorded, and a valid tracker has the fresh diff. -/
theorem trackDelta_fresh (h : RecordsMore tools history t) (step : TurnStep) :
    let t' := t.trackDelta tools step.iteration step.environmentId step.delta
    RecordsMore tools history t' ∧
      t'.unifiedDiff = if t'.valid then t'.freshUnifiedDiff tools step.iteration else none := by
  unfold trackDelta
  split
  case isTrue hvalid =>
    obtain ⟨_, hrecords⟩ := id h
    have hfalse : t.valid = false := by simpa using hvalid
    exact ⟨h, by simp [hfalse, hrecords.no_diff hfalse]⟩
  case isFalse hvalid =>
    split
    · -- The texts of an inexact delta are unknown: cache and diff are thrown away.
      obtain ⟨more, h⟩ := h
      exact ⟨⟨more, { h with cache := RightDiffs.empty, no_diff := fun _ => rfl }⟩, rfl⟩
    · obtain ⟨more, happlied⟩ := h.applyChanges step.environmentId step.delta.changes
      have happliedValid : (t.applyChanges step.environmentId step.delta.changes).valid := by
        simpa using hvalid
      obtain ⟨hrecords, hfresh⟩ := refreshUnifiedDiff_fresh happlied happliedValid step.iteration
      exact ⟨⟨more, hrecords⟩, hfresh.trans (if_pos happliedValid).symm⟩

theorem trackDeltas_recordsMore (h : RecordsMore tools history t) (run : List TurnStep) :
    RecordsMore tools history (t.trackDeltas tools run) := by
  induction run generalizing t with
  | nil => exact h
  | cons step run ih => exact ih (trackDelta_fresh h step).1

/-- **The cached diff is the fresh diff**: after every run of deltas a valid tracker has the
    diff that rendering every pair of paths anew gives, and an invalid one has none.  A cache
    key stands for the same texts in this state and in every later one. -/
theorem trackDeltas_unifiedDiff_fresh (tools : DiffTools)
    (roots : Finmap fun _ : Text => AbsolutePathBuf) (run : List TurnStep) (step : TurnStep) :
    let t := (withEnvironmentDisplayRoots roots).trackDeltas tools (run ++ [step])
    t.unifiedDiff = (if t.valid then t.freshUnifiedDiff tools step.iteration else none) ∧
      ∀ more pair pair', t.diffCacheKey pair = (t.trackDeltas tools more).diffCacheKey pair' →
        t.baselineAt pair.1 = (t.trackDeltas tools more).baselineAt pair'.1 ∧
          t.currentAt pair.2 = (t.trackDeltas tools more).currentAt pair'.2 := by
  have hstart : RecordsMore tools [] (withEnvironmentDisplayRoots roots) :=
    ⟨[], by simp [withEnvironmentDisplayRoots], by simp [withEnvironmentDisplayRoots],
      RightDiffs.empty, nofun, rfl⟩
  have hrun := trackDelta_fresh (trackDeltas_recordsMore hstart run) step
  intro t
  have ht : t = ((withEnvironmentDisplayRoots roots).trackDeltas tools run).trackDelta tools
      step.iteration step.environmentId step.delta := foldl_concat ..
  rw [← ht] at hrun
  obtain ⟨⟨history, ht⟩, hdiff⟩ := hrun
  refine ⟨hdiff, fun more pair pair' hkey => ?_⟩
  obtain ⟨later, hlater⟩ := trackDeltas_recordsMore ⟨[], by rwa [append_nil]⟩ more
  have hleft := congrArg DiffCacheKey.leftRevision hkey
  have hright := congrArg DiffCacheKey.rightRevision hkey
  exact ⟨map_content_eq (fun c hc => (ht.baseline _ c hc).append later) (hlater.baseline _) hleft,
    map_content_eq (fun c hc => (ht.current _ c hc).append later) (hlater.current _) hright⟩

end Codex.TurnDiff
