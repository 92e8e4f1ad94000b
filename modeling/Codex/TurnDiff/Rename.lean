import Codex.TurnDiff.Tracker

namespace Codex.TurnDiff

open Codex.ApplyPatch TurnDiffTracker List Prod

/-!
# Renames in the net diff

A moved file is shown as a rename from its origin.  The renames are collected from a hash map
into another one with the origin as the key, so if two files qualify for one origin, the order
of iteration decides which of them is shown as the rename.

* `Qualifies t origin dest` — the file at `dest` may be shown as a rename of `origin`;
* `renderedPairs_independent_iff` — what is rendered does not depend on the order of iteration
  exactly if no two files qualify for one origin (`UniqueRenames`);
* `StepClear` — when a change keeps this, by kind of change, and `applyChange_unique_iff`.
-/

/-! ### Which files qualify -/

variable (t : TurnDiffTracker)

/-- The file at `dest` came from `origin`, and nothing was at `dest` before the turn. -/
structure Candidate (origin dest : TrackedPath) : Prop where
  origin_eq : t.originByCurrentPath.lookup dest = some origin
  ne : dest ≠ origin
  current : dest ∈ t.currentByPath
  new : dest ∉ t.baselineByPath

/-- A file was at `p` before the turn, and none is there now. -/
def Gone (p : TrackedPath) : Prop := p ∉ t.currentByPath ∧ p ∈ t.baselineByPath

/-- The file at `dest` qualifies for being shown as a rename of `origin`. -/
def Qualifies (origin dest : TrackedPath) : Prop := Candidate t origin dest ∧ Gone t origin

/-- No two files qualify for one origin. -/
def UniqueRenames : Prop :=
  ∀ origin dest dest', Qualifies t origin dest → Qualifies t origin dest' → dest = dest'

section Pairs

variable {t : TurnDiffTracker} {origins : List (TrackedPath × TrackedPath)}
variable {origin dest : TrackedPath}

theorem renamePair_eq_some {entry pair : TrackedPath × TrackedPath} :
    t.renamePair entry = some pair ↔ pair = (entry.2, entry.1) ∧ entry.1 ≠ entry.2 ∧
      entry.1 ∈ t.currentByPath ∧ entry.1 ∉ t.baselineByPath ∧ Gone t entry.2 := by
  simp only [renamePair, Gone]
  split
  · tauto
  · simp only [Option.some.injEq]
    tauto

/-- The collected entries are the files that qualify. -/
theorem mem_filterMap_renamePair (horder : Data.IterationOrder t.originByCurrentPath origins) :
    (origin, dest) ∈ origins.filterMap t.renamePair ↔ Qualifies t origin dest := by
  simp only [mem_filterMap, renamePair_eq_some]
  constructor
  · rintro ⟨⟨d, o⟩, hmem, heq, hne, hcurrent, hnew, hgone⟩
    obtain ⟨rfl, rfl⟩ := mk.inj heq
    exact ⟨⟨(horder.mem_iff _ _).mp hmem, hne, hcurrent, hnew⟩, hgone⟩
  · rintro ⟨hcand, hgone⟩
    exact ⟨(dest, origin), (horder.mem_iff _ _).mpr hcand.origin_eq, rfl, hcand.ne, hcand.current,
      hcand.new, hgone⟩

/-- With one file for each origin, the renames are the files that qualify. -/
theorem lookup_renamePairs_iff (hunique : UniqueRenames t)
    (horder : Data.IterationOrder t.originByCurrentPath origins) :
    (t.renamePairs origins).lookup origin = some dest ↔ Qualifies t origin dest := by
  rw [← mem_filterMap_renamePair horder]
  refine Data.lookup_collect_iff (fun d d' hd hd' => ?_) dest
  rw [mem_filterMap_renamePair horder] at hd hd'
  exact hunique origin d d' hd hd'

variable {pairs : Finmap fun _ : TrackedPath => TrackedPath} {left right : TrackedPath}

theorem mem_pairedDestinations :
    dest ∈ pairedDestinations pairs ↔ ∃ origin, pairs.lookup origin = some dest := by
  simp only [pairedDestinations, Finset.mem_biUnion, Option.mem_toFinset]
  exact ⟨fun ⟨o, _, h⟩ => ⟨o, h⟩, fun ⟨o, h⟩ => ⟨o, Finmap.mem_of_lookup_eq_some h, h⟩⟩

/-- What the loop renders: each path once, with its rename if it has one, and without the
    destinations of renames. -/
theorem mem_pairPaths {paths : List TrackedPath} {handled : Finset TrackedPath} :
    (left, right) ∈ pairPaths pairs paths handled ↔ left ∈ paths ∧ left ∉ handled ∧
      left ∉ pairedDestinations pairs ∧ right = (pairs.lookup left).getD left := by
  induction paths generalizing handled with
  | nil => simp [pairPaths]
  | cons path paths ih =>
    unfold pairPaths
    by_cases hhandled : path ∈ handled
    · rw [if_pos hhandled, ih]
      by_cases hl : left = path
      · subst hl
        simp [hhandled]
      · simp [hl]
    · rw [if_neg hhandled]
      by_cases hdest : path ∈ pairedDestinations pairs
      · rw [if_pos hdest, ih]
        by_cases hl : left = path
        · subst hl
          simp [hdest]
        · simp [hl]
      · rw [if_neg hdest]
        cases hpair : pairs.lookup path with
        | none =>
          simp only [List.mem_cons, ih]
          by_cases hl : left = path
          · subst hl
            simp [hpair, hhandled, hdest]
          · simp [hl]
        | some dest =>
          have hpaired : dest ∈ pairedDestinations pairs := mem_pairedDestinations.mpr ⟨path, hpair⟩
          simp only [List.mem_cons, ih]
          by_cases hl : left = path
          · subst hl
            simp [hpair, hhandled, hdest]
          · -- Marking the destination as handled changes nothing: it is left out anyway.
            by_cases hld : left = dest
            · subst hld
              simp [hl, hpaired]
            · simp [hl, hld]

private theorem mem_destutter'_ne (x first : TrackedPath) (xs : List TrackedPath) :
    x ∈ xs.destutter' (· ≠ ·) first ↔ x = first ∨ x ∈ xs := by
  induction xs generalizing first with
  | nil => simp
  | cons y ys ih =>
    by_cases h : first = y
    · subst h
      simp [ih]
    · simp [h, ih]

theorem mem_trackedPaths {it : HashIteration} {p : TrackedPath} :
    p ∈ t.trackedPaths it ↔ p ∈ t.baselineByPath ∨ p ∈ t.currentByPath := by
  have hdestutter : ∀ l : List TrackedPath, p ∈ l.destutter (· ≠ ·) ↔ p ∈ l := by
    intro l
    cases l with
    | nil => simp
    | cons x xs => rw [destutter_cons', mem_destutter'_ne, mem_cons]
  have hkeys : ∀ m, p ∈ (it.contents m).map Prod.fst ↔ p ∈ m := by
    intro m
    simp [(it.contents_order m).mem_iff, Finmap.mem_iff]
  simp [trackedPaths, hdestutter, hkeys]

theorem mem_renderedPairs {it : HashIteration} :
    (left, right) ∈ t.renderedPairs it ↔
      (left ∈ t.baselineByPath ∨ left ∈ t.currentByPath) ∧
      left ∉ pairedDestinations (t.renamePairs (it.origins t.originByCurrentPath)) ∧
      right = ((t.renamePairs (it.origins t.originByCurrentPath)).lookup left).getD left := by
  simp [renderedPairs, mem_pairPaths, mem_trackedPaths]

/-! ### The order of iteration -/

/-- Any file that qualifies is shown as the rename in some order of iteration. -/
theorem exists_mem_renderedPairs (h : Qualifies t origin dest) :
    ∃ it : HashIteration, (origin, dest) ∈ t.renderedPairs it ∧
      ∀ other, (origin, other) ∈ t.renderedPairs it → other = dest := by
  classical
  obtain ⟨l, hl⟩ := ((default : HashIteration).origins_order
    t.originByCurrentPath).moveToEnd h.1.origin_eq
  let it : HashIteration :=
    { (default : HashIteration) with
      origins := fun m => if m = t.originByCurrentPath then l ++ [(dest, origin)]
        else (default : HashIteration).origins m
      origins_order := fun m => by
        split
        · rename_i hm
          exact hm ▸ hl
        · exact (default : HashIteration).origins_order m }
  have horigins : it.origins t.originByCurrentPath = l ++ [(dest, origin)] := if_pos rfl
  have hpair : t.renamePair (dest, origin) = some (origin, dest) :=
    renamePair_eq_some.mpr ⟨rfl, h.1.ne, h.1.current, h.1.new, h.2⟩
  -- The entry that comes last stays in the collected map.
  have hlookup : (t.renamePairs (it.origins t.originByCurrentPath)).lookup origin = some dest := by
    rw [horigins, renamePairs, filterMap_append, filterMap_cons_some hpair,
      filterMap_nil, Data.collect, Data.insertAll_concat, Finmap.lookup_insert]
  have hnot : origin ∉ pairedDestinations (t.renamePairs (it.origins t.originByCurrentPath)) := by
    rw [mem_pairedDestinations]
    rintro ⟨o, ho⟩
    exact h.2.1 ((mem_filterMap_renamePair (it.origins_order _)).mp
        (Data.mem_of_lookup_collect ho)).1.current
  refine ⟨it, mem_renderedPairs.mpr ⟨.inl h.2.2, hnot, ?_⟩, fun other hother => ?_⟩
  · rw [hlookup]
    rfl
  rw [mem_renderedPairs, hlookup] at hother
  exact hother.2.2

/-- **The rendered pairs are determined exactly if no two files qualify for one origin.** -/
theorem renderedPairs_independent_iff :
    (∀ (it it' : HashIteration) pair, pair ∈ t.renderedPairs it ↔ pair ∈ t.renderedPairs it') ↔
      UniqueRenames t := by
  constructor
  · intro hsame origin dest dest' h h'
    obtain ⟨it, hmem, -⟩ := exists_mem_renderedPairs h
    obtain ⟨it', -, honly⟩ := exists_mem_renderedPairs h'
    exact honly dest ((hsame it it' _).mp hmem)
  · rintro hunique it it' ⟨left, right⟩
    have hpairs : t.renamePairs (it.origins t.originByCurrentPath) =
        t.renamePairs (it'.origins t.originByCurrentPath) := by
      refine Finmap.ext_lookup fun origin => Option.ext fun dest => ?_
      rw [lookup_renamePairs_iff hunique (it.origins_order _),
        lookup_renamePairs_iff hunique (it'.origins_order _)]
    rw [mem_renderedPairs, mem_renderedPairs, hpairs]

end Pairs

/-! ### Changes that keep the renames unique -/

variable (t : TurnDiffTracker)

/-- Two files came from `p`, apart from `except`, and nothing was where they are. -/
def TwoCandidates (p : TrackedPath) (except : TrackedPath → Prop) : Prop :=
  ∃ a b, a ≠ b ∧ ¬ except a ∧ ¬ except b ∧ Candidate t p a ∧ Candidate t p b

/-- After a file is moved from `source` to `dest`: a file was at `p` before the turn, and none
    is there. -/
def GoneAfterMove (source dest p : TrackedPath) : Prop :=
  p ≠ dest ∧ (p = source ∨ p ∉ t.currentByPath) ∧
    (p ∈ t.baselineByPath ∨ (p = source ∧ source ∉ t.currentByPath))

/-- After the move: `dest` has a baseline. -/
def KnownAfterMove (source dest : TrackedPath) (overwritten : Option Text) : Prop :=
  dest ∈ t.baselineByPath ∨ (dest = source ∧ source ∉ t.currentByPath) ∨
    (dest ∉ t.currentByPath ∧ overwritten.isSome)

/-- What a change must meet, in the state before it, to keep the renames unique.

    * Deleting a file: not two files came from there to new paths.
    * Moving a file away: not two other files came from there to new paths; and no other file
      came to a new path from where this one comes from, if this one goes to a new path and
      nothing is left at its origin.
    * Adding a file or updating it in place: nothing. -/
def StepClear (environmentId : Text) (c : AppliedPatchChange AbsolutePathBuf) : Prop :=
  let source : TrackedPath := ⟨environmentId, c.path⟩
  match c.change with
  | .add _ _ => True
  | .update none _ _ _ => True
  | .delete _ =>
    source ∈ t.baselineByPath ∨ source ∉ t.currentByPath → ¬ TwoCandidates t source fun _ => False
  | .update (some dest) _ overwritten _ =>
    let dest : TrackedPath := ⟨environmentId, dest⟩
    let origin := t.originOf source
    (GoneAfterMove t source dest source → ¬ TwoCandidates t source (· = dest)) ∧
    (¬ KnownAfterMove t source dest overwritten → dest ≠ origin →
      GoneAfterMove t source dest origin → ∀ a, a ≠ source → a ≠ dest → ¬ Candidate t origin a)

section Steps

variable {t : TurnDiffTracker} {p q source dest origin a : TrackedPath}

theorem mem_noteBaseline {content : Option Text} :
    q ∈ (t.noteBaseline p content).baselineByPath ↔
      q ∈ t.baselineByPath ∨ (q = p ∧ p ∉ t.currentByPath ∧ content.isSome) := by
  unfold noteBaseline
  split
  · rename_i h
    cases content with
    | none => simp
    | some content =>
      simp only [insertBaseline, Finmap.mem_insert]
      tauto
  · rename_i h
    constructor
    · exact .inl
    · rintro (hq | ⟨rfl, hcurrent, -⟩)
      · exact hq
      · by_contra hbaseline
        exact h ⟨hcurrent, hbaseline⟩

section

variable (h : UniqueRenames t)
include h

/-- A change after which fewer files qualify keeps the renames unique. -/
theorem UniqueRenames.mono {t' : TurnDiffTracker}
    (hle : ∀ origin dest, Qualifies t' origin dest → Qualifies t origin dest) : UniqueRenames t' :=
  fun origin dest dest' hd hd' => h origin dest dest' (hle _ _ hd) (hle _ _ hd')

/-- Whether the renames are unique is a matter of the three maps. -/
theorem UniqueRenames.congr {t' : TurnDiffTracker}
    (hbaseline : t'.baselineByPath = t.baselineByPath)
    (hcurrent : t'.currentByPath = t.currentByPath)
    (horigin : t'.originByCurrentPath = t.originByCurrentPath) : UniqueRenames t' := by
  apply h.mono
  rintro o d ⟨hcand, hgone⟩
  refine ⟨⟨?_, hcand.ne, ?_, ?_⟩, ?_⟩
  · rw [← horigin, hcand.origin_eq]
  · rw [← hcurrent]
    exact hcand.current
  · rw [← hbaseline]
    exact hcand.new
  · rwa [Gone, ← hcurrent, ← hbaseline]

theorem applyAdd_unique (content : Text) (overwritten : Option Text) :
    UniqueRenames (t.applyAdd p content overwritten) := by
  apply h.mono
  rintro o a ⟨⟨horigin, hne, hcurrent, hnew⟩, hgone, hknown⟩
  have hbaseline : ∀ q, q ∈ (t.applyAdd p content overwritten).baselineByPath ↔
      q ∈ t.baselineByPath ∨ (q = p ∧ p ∉ t.currentByPath ∧ overwritten.isSome) :=
    fun q => mem_noteBaseline
  simp only [applyAdd, insertCurrent_originByCurrentPath,
    noteBaseline_originByCurrentPath] at horigin
  simp only [applyAdd, insertCurrent, noteBaseline_currentByPath, Finmap.mem_insert, not_or]
    at hcurrent hgone
  rw [hbaseline] at hnew hknown
  have hap : a ≠ p := by
    rintro rfl
    simp at horigin
  rw [Finmap.lookup_erase_ne hap] at horigin
  refine ⟨⟨horigin, hne, hcurrent.resolve_left hap, fun h => hnew (.inl h)⟩, hgone.2, ?_⟩
  exact hknown.resolve_right fun h => hgone.1 h.1

theorem applyUpdate_unique (old : Text) (overwritten : Option Text)
    (new : Text) : UniqueRenames (t.applyUpdate p none old overwritten new) := by
  apply h.mono
  rintro o a ⟨⟨horigin, hne, hcurrent, hnew⟩, hgone, hknown⟩
  have hbaseline : ∀ q, q ∈ (t.applyUpdate p none old overwritten new).baselineByPath ↔
      q ∈ t.baselineByPath ∨ (q = p ∧ p ∉ t.currentByPath ∧ (some old).isSome) :=
    fun q => mem_noteBaseline
  simp only [applyUpdate, insertCurrent_originByCurrentPath, noteBaseline_originByCurrentPath]
    at horigin
  simp only [applyUpdate, insertCurrent, noteBaseline_currentByPath, Finmap.mem_insert, not_or]
    at hcurrent hgone
  rw [hbaseline, not_or] at hnew
  rw [hbaseline] at hknown
  -- An updated file that was not tracked has a baseline now.
  have hcurrent' : a ∈ t.currentByPath := by
    rcases hcurrent with rfl | hcurrent
    · by_contra hnot
      exact hnew.2 ⟨rfl, hnot, rfl⟩
    · exact hcurrent
  exact ⟨⟨horigin, hne, hcurrent', hnew.1⟩, hgone.2, hknown.resolve_right fun h => hgone.1 h.1⟩

end

/-! ### Deleting -/

variable {content : Text}

theorem candidate_applyDelete :
    Candidate (t.applyDelete p content) origin a ↔ a ≠ p ∧ Candidate t origin a := by
  constructor
  · rintro ⟨horigin, hne, hcurrent, hnew⟩
    rw [applyDelete_currentByPath, Finmap.mem_erase] at hcurrent
    rw [applyDelete_originByCurrentPath, Finmap.lookup_erase_ne hcurrent.1] at horigin
    rw [applyDelete_baselineByPath, mem_noteBaseline, not_or] at hnew
    exact ⟨hcurrent.1, horigin, hne, hcurrent.2, hnew.1⟩
  · rintro ⟨hap, horigin, hne, hcurrent, hnew⟩
    refine ⟨?_, hne, ?_, ?_⟩
    · rw [applyDelete_originByCurrentPath, Finmap.lookup_erase_ne hap, horigin]
    · rw [applyDelete_currentByPath, Finmap.mem_erase]
      exact ⟨hap, hcurrent⟩
    · rw [applyDelete_baselineByPath, mem_noteBaseline]
      simp [hnew, hap]

theorem gone_applyDelete :
    Gone (t.applyDelete p content) q ↔
      (q = p ∧ (p ∈ t.baselineByPath ∨ p ∉ t.currentByPath)) ∨ (q ≠ p ∧ Gone t q) := by
  rw [Gone, applyDelete_baselineByPath, mem_noteBaseline, Gone]
  by_cases hq : q = p
  · subst hq
    simp
  · simp [hq]

theorem applyDelete_unique_iff (h : UniqueRenames t) :
    UniqueRenames (t.applyDelete p content) ↔
      (p ∈ t.baselineByPath ∨ p ∉ t.currentByPath → ¬ TwoCandidates t p fun _ => False) := by
  constructor
  · rintro hunique hknown ⟨a, b, hab, -, -, ha, hb⟩
    have hgone : Gone (t.applyDelete p content) p := gone_applyDelete.mpr (.inl ⟨rfl, hknown⟩)
    exact hab (hunique p a b ⟨candidate_applyDelete.mpr ⟨ha.ne, ha⟩, hgone⟩
      ⟨candidate_applyDelete.mpr ⟨hb.ne, hb⟩, hgone⟩)
  · rintro hclear o a b ⟨ha, hgone⟩ ⟨hb, -⟩
    rw [candidate_applyDelete] at ha hb
    rcases gone_applyDelete.mp hgone with ⟨rfl, hknown⟩ | ⟨-, hgone⟩
    · by_contra hab
      exact hclear hknown ⟨a, b, hab, id, id, ha.2, hb.2⟩
    · exact h o a b ⟨ha.2, hgone⟩ ⟨hb.2, hgone⟩

/-! ### Moving -/

variable {old new : Text} {overwritten : Option Text}

theorem mem_baseline_applyMove :
    q ∈ (t.applyUpdate source (some dest) old overwritten new).baselineByPath ↔
      q ∈ t.baselineByPath ∨ (q = source ∧ source ∉ t.currentByPath) ∨
        (q = dest ∧ dest ∉ t.currentByPath ∧ overwritten.isSome) := by
  show q ∈ ((t.noteBaseline source (some old)).noteBaseline dest overwritten).baselineByPath ↔ _
  rw [mem_noteBaseline, mem_noteBaseline]
  simp [or_assoc]

theorem mem_current_applyMove :
    q ∈ (t.applyUpdate source (some dest) old overwritten new).currentByPath ↔
      q = dest ∨ (q ≠ source ∧ q ∈ t.currentByPath) := by
  show q ∈ Finmap.insert dest _ (Finmap.erase source _) ↔ _
  rw [Finmap.mem_insert, Finmap.mem_erase, noteBaseline_currentByPath, noteBaseline_currentByPath]

theorem lookup_origin_applyMove :
    (t.applyUpdate source (some dest) old overwritten new).originByCurrentPath.lookup a =
      if a = dest then (if dest ≠ t.originOf source then some (t.originOf source) else none)
      else if a = source then none else t.originByCurrentPath.lookup a := by
  simp only [applyUpdate, noteBaseline_originOf, noteBaseline_originByCurrentPath,
    insertCurrent_originByCurrentPath]
  by_cases ha : a = dest
  · rw [if_pos ha, ha]
    split
    · rw [Finmap.lookup_insert]
    · rw [Finmap.lookup_erase]
  · have herase : ((t.originByCurrentPath.erase source).erase dest).lookup a =
        if a = source then none else t.originByCurrentPath.lookup a := by
      rw [Finmap.lookup_erase_ne ha]
      by_cases hs : a = source
      · subst hs
        simp
      · rw [if_neg hs, Finmap.lookup_erase_ne hs]
    split
    · rw [Finmap.lookup_insert_of_ne _ ha, herase]
    · exact herase

/-- After a move the candidates are the other ones, and the moved file if it came to a new
    path. -/
theorem candidate_applyMove :
    Candidate (t.applyUpdate source (some dest) old overwritten new) origin a ↔
      (a = dest ∧ origin = t.originOf source ∧ dest ≠ t.originOf source ∧
        ¬ KnownAfterMove t source dest overwritten) ∨
      (a ≠ source ∧ a ≠ dest ∧ Candidate t origin a) := by
  constructor
  · rintro ⟨horigin, hne, hcurrent, hnew⟩
    rw [lookup_origin_applyMove] at horigin
    rw [mem_baseline_applyMove] at hnew
    rw [mem_current_applyMove] at hcurrent
    by_cases had : a = dest
    · subst had
      rw [if_pos rfl] at horigin
      split at horigin
      · rename_i hdest
        obtain rfl := Option.some.inj horigin
        refine .inl ⟨rfl, rfl, hdest, fun hknown => hnew ?_⟩
        rcases hknown with h | h | h
        · exact .inl h
        · exact .inr (.inl h)
        · exact .inr (.inr ⟨rfl, h⟩)
      · cases horigin
    · obtain ⟨has, hcurrent⟩ := hcurrent.resolve_left had
      rw [if_neg had, if_neg has] at horigin
      exact .inr ⟨has, had, horigin, hne, hcurrent, fun h => hnew (.inl h)⟩
  · rintro (⟨rfl, rfl, hne, hnew⟩ | ⟨has, had, hcand⟩)
    · refine ⟨by simp [lookup_origin_applyMove, hne], hne, mem_current_applyMove.mpr (.inl rfl), ?_⟩
      rw [mem_baseline_applyMove]
      rintro (h | h | ⟨-, h⟩)
      · exact hnew (.inl h)
      · exact hnew (.inr (.inl h))
      · exact hnew (.inr (.inr h))
    · refine ⟨?_, hcand.ne, mem_current_applyMove.mpr (.inr ⟨has, hcand.current⟩), ?_⟩
      · rw [lookup_origin_applyMove, if_neg had, if_neg has, hcand.origin_eq]
      · rw [mem_baseline_applyMove]
        simp [hcand.new, has, had]

theorem gone_applyMove :
    Gone (t.applyUpdate source (some dest) old overwritten new) q ↔
      GoneAfterMove t source dest q := by
  rw [Gone, mem_current_applyMove, mem_baseline_applyMove, GoneAfterMove]
  by_cases hq : q = dest
  · simp [hq]
  · simp only [hq, false_or, not_and_or, not_not, ne_eq, not_false_eq_true, true_and, false_and,
      or_false]

theorem applyMove_unique_iff (h : UniqueRenames t) :
    UniqueRenames (t.applyUpdate source (some dest) old overwritten new) ↔
      (GoneAfterMove t source dest source → ¬ TwoCandidates t source (· = dest)) ∧
      (¬ KnownAfterMove t source dest overwritten → dest ≠ t.originOf source →
        GoneAfterMove t source dest (t.originOf source) →
        ∀ a, a ≠ source → a ≠ dest → ¬ Candidate t (t.originOf source) a) := by
  constructor
  · intro hunique
    constructor
    · rintro hgone ⟨a, b, hab, had, hbd, ha, hb⟩
      exact hab (hunique source a b
        ⟨candidate_applyMove.mpr (.inr ⟨ha.ne, had, ha⟩), gone_applyMove.mpr hgone⟩
        ⟨candidate_applyMove.mpr (.inr ⟨hb.ne, hbd, hb⟩), gone_applyMove.mpr hgone⟩)
    · intro hnew hne hgone a has had ha
      exact had (hunique (t.originOf source) a dest
        ⟨candidate_applyMove.mpr (.inr ⟨has, had, ha⟩), gone_applyMove.mpr hgone⟩
        ⟨candidate_applyMove.mpr (.inl ⟨rfl, rfl, hne, hnew⟩), gone_applyMove.mpr hgone⟩)
  · rintro ⟨hsource, horigin⟩ o a b ⟨ha, hgone⟩ ⟨hb, -⟩
    rw [gone_applyMove] at hgone
    rw [candidate_applyMove] at ha hb
    rcases ha with ⟨rfl, rfl, hne, hnew⟩ | ⟨has, had, ha⟩
    · rcases hb with ⟨rfl, -⟩ | ⟨hbs, hbd, hb⟩
      · rfl
      · exact absurd hb (horigin hnew hne hgone b hbs hbd)
    · rcases hb with ⟨rfl, rfl, hne, hnew⟩ | ⟨hbs, hbd, hb⟩
      · exact absurd ha (horigin hnew hne hgone a has had)
      · -- Two files that did not move: they had the same origin before.
        by_cases ho : o = source
        · subst ho
          by_contra hab
          exact hsource hgone ⟨a, b, hab, had, hbd, ha, hb⟩
        · obtain ⟨-, hcurrent, hknown⟩ := hgone
          have hgone : Gone t o := ⟨hcurrent.resolve_left ho, hknown.resolve_right fun h => ho h.1⟩
          exact h o a b ⟨ha, hgone⟩ ⟨hb, hgone⟩

/-- **One change** keeps the renames unique exactly if it is clear. -/
theorem applyChange_unique_iff (h : UniqueRenames t) {environmentId : Text}
    {c : AppliedPatchChange AbsolutePathBuf} :
    UniqueRenames (t.applyChange environmentId c) ↔ StepClear t environmentId c := by
  obtain ⟨path, change⟩ := c
  rcases change with ⟨content, ow⟩ | content | ⟨_ | dest, old, ow, new⟩
  · exact iff_of_true (applyAdd_unique h content ow) trivial
  · exact applyDelete_unique_iff h
  · exact iff_of_true (applyUpdate_unique h old ow new) trivial
  · exact applyMove_unique_iff h

end Steps

/-! ### Runs -/

/-- Each of the changes is clear in the state in which it is made. -/
def ChangesClear (environmentId : Text) :
    TurnDiffTracker → List (AppliedPatchChange AbsolutePathBuf) → Prop
  | _, [] => True
  | t, c :: cs =>
    StepClear t environmentId c ∧ ChangesClear environmentId (t.applyChange environmentId c) cs

/-- Each change of each delta that is taken in is clear in the state in which it is made. -/
def RunClear (tools : DiffTools) : TurnDiffTracker → List TurnStep → Prop
  | _, [] => True
  | t, step :: run =>
    (t.valid → step.delta.exact → ChangesClear step.environmentId t step.delta.changes) ∧
    RunClear tools (t.trackDelta tools step.iteration step.environmentId step.delta) run

section Runs

variable {t : TurnDiffTracker} {environmentId : Text}

/-- The renames are unique after every change exactly if every change is clear. -/
theorem applyChanges_unique_iff {cs : List (AppliedPatchChange AbsolutePathBuf)}
    (h : UniqueRenames t) :
    (∀ n, UniqueRenames (t.applyChanges environmentId (cs.take n))) ↔
      ChangesClear environmentId t cs := by
  induction cs generalizing t with
  | nil => simpa [applyChanges, ChangesClear] using h
  | cons c cs ih =>
    constructor
    · intro hall
      have hone : UniqueRenames (t.applyChange environmentId c) := hall 1
      refine ⟨(applyChange_unique_iff h).mp hone, (ih hone).mp fun n => ?_⟩
      exact hall (n + 1)
    · rintro ⟨hc, hcs⟩ n
      cases n with
      | zero => exact h
      | succ n => exact (ih ((applyChange_unique_iff h).mpr hc)).mpr hcs n

theorem trackDelta_unique {tools : DiffTools} {step : TurnStep} (h : UniqueRenames t)
    (hclear : t.valid → step.delta.exact → ChangesClear step.environmentId t step.delta.changes) :
    UniqueRenames (t.trackDelta tools step.iteration step.environmentId step.delta) := by
  by_cases hvalid : t.valid
  · by_cases hexact : step.delta.exact
    · rw [trackDelta_of_exact hvalid hexact]
      have hall := (applyChanges_unique_iff h).mpr (hclear hvalid hexact) step.delta.changes.length
      rw [take_length] at hall
      exact hall.congr rfl rfl rfl
    · -- The delta is not taken in.
      have hinvalid : t.trackDelta tools step.iteration step.environmentId step.delta =
          t.invalidate := by
        simp [trackDelta, hvalid, hexact]
      rw [hinvalid]
      exact h.congr rfl rfl rfl
  · have hsame : t.trackDelta tools step.iteration step.environmentId step.delta = t := by
      simp [trackDelta, hvalid]
    rwa [hsame]

theorem trackDeltas_uniqueRenames {tools : DiffTools} {run : List TurnStep} (h : UniqueRenames t)
    (hclear : RunClear tools t run) (n : Nat) :
    UniqueRenames (t.trackDeltas tools (run.take n)) := by
  induction run generalizing t n with
  | nil => simpa [trackDeltas] using h
  | cons step run ih =>
    cases n with
    | zero => exact h
    | succ n => exact ih (trackDelta_unique h hclear.1) hclear.2 n

/-- **The turn diff is determined.**  In every run from a fresh tracker whose changes are clear
    in the states in which they are made, in every state that is reached, no two files qualify
    for a rename from one origin, and the pairs that are rendered do not depend on the order in
    which the hash maps are iterated. -/
theorem trackDeltas_renderedPairs_determined {tools : DiffTools} {run : List TurnStep}
    {roots : Finmap fun _ : Text => AbsolutePathBuf}
    (hclear : RunClear tools (withEnvironmentDisplayRoots roots) run) (n : Nat) :
    let t := (withEnvironmentDisplayRoots roots).trackDeltas tools (run.take n)
    UniqueRenames t ∧ ∀ (it it' : HashIteration) pair,
      pair ∈ t.renderedPairs it ↔ pair ∈ t.renderedPairs it' := by
  intro t
  have hfresh : UniqueRenames (withEnvironmentDisplayRoots roots) :=
    fun _ _ _ hd _ => absurd hd.1.current Finmap.notMem_empty
  have hunique : UniqueRenames t := trackDeltas_uniqueRenames hfresh hclear n
  exact ⟨hunique, renderedPairs_independent_iff.mpr hunique⟩

end Runs

/-- Moving two files is clear in a fresh tracker. -/
theorem trackDeltas_renderedPairs_determined_move :
    let p : AbsolutePathBuf := ⟨[⟨['p'], by decide⟩]⟩
    let q : AbsolutePathBuf := ⟨[⟨['q'], by decide⟩]⟩
    let a : AbsolutePathBuf := ⟨[⟨['a'], by decide⟩]⟩
    let b : AbsolutePathBuf := ⟨[⟨['b'], by decide⟩]⟩
    let run : List TurnStep := [⟨[], ⟨[⟨p, .update (some a) ['x'] none ['y']⟩,
        ⟨q, .update (some b) ['z'] none ['w']⟩], true⟩, default⟩]
    let t := (withEnvironmentDisplayRoots ∅).trackDeltas ⟨id, fun _ _ _ _ _ => []⟩ (run.take 1)
    UniqueRenames t ∧ ∀ (it it' : HashIteration) pair,
      pair ∈ t.renderedPairs it ↔ pair ∈ t.renderedPairs it' := by
  intro p q a b run
  have hnone : ∀ o d, ¬ Candidate (withEnvironmentDisplayRoots ∅) o d :=
    fun _ _ h => absurd h.current Finmap.notMem_empty
  let moved := (withEnvironmentDisplayRoots ∅).applyChange []
    ⟨p, .update (some a) ['x'] none ['y']⟩
  -- after the first move the one file that came from elsewhere came from `p`
  have hone : ∀ d, ¬ Candidate moved ⟨[], q⟩ d := by
    intro d h
    have hkeys : moved.currentByPath.keys = {⟨[], a⟩} := by decide
    obtain rfl := Finset.mem_singleton.mp (hkeys ▸ Finmap.mem_keys.mpr h.current)
    exact absurd h.origin_eq (by decide)
  have hclear : RunClear ⟨id, fun _ _ _ _ _ => []⟩ (withEnvironmentDisplayRoots ∅) run := by
    refine ⟨fun _ _ => ⟨⟨?_, fun _ _ _ d _ _ => hnone _ d⟩, ⟨?_, fun _ _ _ d _ _ => hone d⟩,
      trivial⟩, trivial⟩
    · rintro - ⟨d, -, -, -, -, hd, -⟩
      exact hnone _ d hd
    · rintro - ⟨d, -, -, -, -, hd, -⟩
      exact hone d hd
  exact trackDeltas_renderedPairs_determined hclear 1

/-- The file at `p` is moved to `a`, a file is added at `p` again and moved to `b`.  Both `a` and
    `b` qualify as a rename of `p`: the order of iteration decides which one is shown. -/
theorem trackDeltas_two_renames :
    let p : AbsolutePathBuf := ⟨[⟨['p'], by decide⟩]⟩
    let a : AbsolutePathBuf := ⟨[⟨['a'], by decide⟩]⟩
    let b : AbsolutePathBuf := ⟨[⟨['b'], by decide⟩]⟩
    let run : List TurnStep := [⟨[], ⟨[⟨p, .update (some a) ['x'] none ['y']⟩], true⟩, default⟩,
        ⟨[], ⟨[⟨p, .add ['z'] none⟩], true⟩, default⟩,
        ⟨[], ⟨[⟨p, .update (some b) ['z'] none ['w']⟩], true⟩, default⟩]
    let t := (withEnvironmentDisplayRoots ∅).trackDeltas ⟨id, fun _ _ _ _ _ => []⟩ run
    Qualifies t ⟨[], p⟩ ⟨[], a⟩ ∧ Qualifies t ⟨[], p⟩ ⟨[], b⟩ ∧
      (t.renamePairs [(⟨[], a⟩, ⟨[], p⟩), (⟨[], b⟩, ⟨[], p⟩)]).lookup ⟨[], p⟩ = some ⟨[], b⟩ ∧
      (t.renamePairs [(⟨[], b⟩, ⟨[], p⟩), (⟨[], a⟩, ⟨[], p⟩)]).lookup ⟨[], p⟩ = some ⟨[], a⟩ ∧
      ¬ ∀ (it it' : HashIteration) pair,
        pair ∈ t.renderedPairs it ↔ pair ∈ t.renderedPairs it' := by
  intro p a b run t
  have ha : Qualifies t ⟨[], p⟩ ⟨[], a⟩ :=
    ⟨⟨by decide, by decide, by decide, by decide⟩, by decide, by decide⟩
  have hb : Qualifies t ⟨[], p⟩ ⟨[], b⟩ :=
    ⟨⟨by decide, by decide, by decide, by decide⟩, by decide, by decide⟩
  refine ⟨ha, hb, by decide, by decide, fun hsame => ?_⟩
  have heq := renderedPairs_independent_iff.mp hsame _ _ _ ha hb
  revert heq
  decide

end Codex.TurnDiff
