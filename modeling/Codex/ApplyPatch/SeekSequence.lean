import Codex.ApplyPatch.Patch

namespace Codex.ApplyPatch

open Text List

/-!
# Finding a block of lines in a file

`seekSequence` looks for the lines of a chunk in the lines of a file, in four passes of
decreasing strictness: exactly, up to trailing white space, up to white space on both
sides, and up to the spelling of dashes, quotes and spaces.  A pass compares the lines
after sending both sides through one function (`id`, `trimEnd`, `trim`, `normalise`), so
the four passes are one definition.

With `eof` set the search starts at the only place from which the block reaches the end
of the file, and so looks at that place alone, wherever `start` is.
-/

/-- Fold the common typographic dashes, quotes and spaces to ASCII, on the trimmed line. -/
def normalise (s : Text) : Text :=
  (trim s).map fun c =>
    let n := c.toNat
    if n ∈ [0x2010, 0x2011, 0x2012, 0x2013, 0x2014, 0x2015, 0x2212] then '-'
    else if n ∈ [0x2018, 0x2019, 0x201A, 0x201B] then '\x27'
    else if n ∈ [0x201C, 0x201D, 0x201E, 0x201F] then '\x22'
    else if n ∈ [0x00A0, 0x2002, 0x2003, 0x2004, 0x2005, 0x2006, 0x2007, 0x2008, 0x2009, 0x200A,
        0x202F, 0x205F, 0x3000] then ' '
    else c

/-- The lines from `i` on begin with `pattern`, up to `view`. -/
def matchesAt (view : Text → Text) (lines pattern : List Text) (i : Nat) : Bool :=
  ((lines.drop i).take pattern.length).map view = pattern.map view

/-- One pass: the first place from `searchStart` on at which `pattern` fits and matches. -/
def seekPass (view : Text → Text) (lines pattern : List Text) (searchStart : Nat) : Option Nat :=
  (range' searchStart (lines.length - pattern.length + 1 - searchStart)).find?
    (matchesAt view lines pattern)

/-- The place where `pattern` occurs in `lines` at or after `start`. -/
def seekSequence (lines pattern : List Text) (start : Nat) (eof : Bool) : Option Nat :=
  if pattern = [] then some start
  else if pattern.length > lines.length then none
  else
    let searchStart :=
      if eof && lines.length ≥ pattern.length then lines.length - pattern.length else start
    ((seekPass id lines pattern searchStart).or (seekPass trimEnd lines pattern searchStart)).or
      ((seekPass trim lines pattern searchStart).or (seekPass normalise lines pattern searchStart))

/-! ### What the passes find -/

section

variable {view : Text → Text} {lines pattern : List Text} {start i : Nat} {eof : Bool}

/-- What the lines are compared up to, the strictest relation first. -/
def views : List (Text → Text) := [id, trimEnd, trim, normalise]

/-- The place is at or after `searchStart`, and the pattern fits there. -/
def FitsFrom (lines pattern : List Text) (searchStart i : Nat) : Prop :=
  searchStart ≤ i ∧ i + pattern.length ≤ lines.length

/-- The first match from `searchStart` on under the strictest relation that has one. -/
def FirstMatch (lines pattern : List Text) (searchStart i : Nat) : Prop :=
  FitsFrom lines pattern searchStart i ∧ ∃ stricter view looser,
    views = stricter ++ view :: looser ∧ matchesAt view lines pattern i ∧
      ∀ j, FitsFrom lines pattern searchStart j →
        (∀ other ∈ stricter, ¬ matchesAt other lines pattern j) ∧
        (j < i → ¬ matchesAt view lines pattern j)

theorem trim_trimEnd (s : Text) : trim (trimEnd s) = trim s := by
  obtain ⟨w, hs, hw⟩ := trimEnd_append_ws s
  have happend : ∀ w : Text, (∀ c ∈ w, isWhitespace c) →
      trim (trimEnd s ++ w) = trim (trimEnd s) := by
    intro w hw
    induction w using reverseRecOn with
    | nil => rw [append_nil]
    | append_singleton w c ih =>
      rw [← append_assoc, trim_concat_of (hw c (by simp))]
      exact ih fun d hd => hw d (by simp [hd])
  rw [← happend w hw, ← hs]

/-- The last relation is the loosest. -/
theorem matchesAt_normalise (hview : view ∈ views) (h : matchesAt view lines pattern i) :
    matchesAt normalise lines pattern i := by
  obtain ⟨looser, hlooser⟩ : ∃ looser, normalise = looser ∘ view := by
    simp only [views, mem_cons, not_mem_nil, or_false] at hview
    rcases hview with rfl | rfl | rfl | rfl
    · exact ⟨normalise, rfl⟩
    · exact ⟨normalise, funext fun s => by simp [normalise, trim_trimEnd]⟩
    · exact ⟨_, rfl⟩
    · exact ⟨id, rfl⟩
  simp only [matchesAt, decide_eq_true_eq] at h ⊢
  rw [hlooser, ← map_map, ← map_map, h]

section

variable (hlen : pattern.length ≤ lines.length)
include hlen

theorem seekPass_eq_some (h : seekPass view lines pattern start = some i) :
    FitsFrom lines pattern start i ∧ matchesAt view lines pattern i ∧
      ∀ j, FitsFrom lines pattern start j → j < i → ¬ matchesAt view lines pattern j := by
  simp only [seekPass, find?_range'_eq_some, mem_range'_1, FitsFrom, Bool.not_eq_true',
    Bool.not_eq_true] at h ⊢
  obtain ⟨hmatch, hrange, hfirst⟩ := h
  exact ⟨by omega, hmatch, fun j hj => hfirst j hj.1⟩

theorem seekPass_eq_none : seekPass view lines pattern start = none ↔
    ∀ j, FitsFrom lines pattern start j → ¬ matchesAt view lines pattern j := by
  simp only [seekPass, find?_range'_eq_none, FitsFrom, Bool.not_eq_true', Bool.not_eq_true]
  exact ⟨fun h j hj => h j hj.1 (by omega), fun h j hj hlt => h j (by omega)⟩

end

@[simp] theorem seekSequence_nil (lines : List Text) (start : Nat) (eof : Bool) :
    seekSequence lines [] start eof = some start := rfl

theorem seekSequence_of_lt (hlen : lines.length < pattern.length) :
    seekSequence lines pattern start eof = none := by
  rw [seekSequence, if_neg (ne_nil_of_length_pos (by omega)), if_pos hlen]

variable (hne : pattern ≠ [])
include hne

/-- The four passes start at one place. -/
theorem seekSequence_eq (hlen : pattern.length ≤ lines.length) :
    seekSequence lines pattern start eof = views.findSome? fun view =>
      seekPass view lines pattern (if eof then lines.length - pattern.length else start) := by
  have hor : ∀ pass : (Text → Text) → Option Nat, ((pass id).or (pass trimEnd)).or
      ((pass trim).or (pass normalise)) = views.findSome? pass := by
    intro pass
    simp only [views, findSome?_cons]
    cases pass id <;> cases pass trimEnd <;> cases pass trim <;> cases pass normalise <;> rfl
  rw [← hor, seekSequence, if_neg hne, if_neg (not_lt.mpr hlen)]
  simp [hlen]

theorem firstMatch_of_seekSequence (h : seekSequence lines pattern start eof = some i) :
    FirstMatch lines pattern (if eof then lines.length - pattern.length else start) i := by
  by_cases hlen : pattern.length ≤ lines.length
  · rw [seekSequence_eq hne hlen, findSome?_eq_some_iff] at h
    obtain ⟨stricter, view, looser, hviews, hview, hstricter⟩ := h
    obtain ⟨hfits, hmatch, hfirst⟩ := seekPass_eq_some hlen hview
    refine ⟨hfits, stricter, view, looser, hviews, hmatch, fun j hj => ⟨?_, hfirst j hj⟩⟩
    exact fun other hother => (seekPass_eq_none hlen).mp (hstricter other hother) j hj
  · rw [seekSequence_of_lt (not_le.mp hlen)] at h
    cases h

/-- The search fails just when the loosest relation holds nowhere. -/
theorem seekSequence_eq_none : seekSequence lines pattern start eof = none ↔
    ∀ j, FitsFrom lines pattern (if eof then lines.length - pattern.length else start) j →
      ¬ matchesAt normalise lines pattern j := by
  by_cases hlen : pattern.length ≤ lines.length
  · rw [seekSequence_eq hne hlen, findSome?_eq_none_iff]
    refine ⟨fun h => (seekPass_eq_none hlen).mp (h normalise (by simp [views])), ?_⟩
    exact fun h view hview => (seekPass_eq_none hlen).mpr
      fun j hj hmatch => h j hj (matchesAt_normalise hview hmatch)
  · exact iff_of_true (seekSequence_of_lt (not_le.mp hlen)) fun j hj => by
      have := hj.2
      omega

/-- **Where a non-empty pattern is found.**  The match fits into the file; it starts at or
    after `start`, unless `eof` is set, when it ends at the end of the file instead. -/
theorem seekSequence_bounds (h : seekSequence lines pattern start eof = some i) :
    i + pattern.length ≤ lines.length ∧ (eof = false → start ≤ i) ∧
      (eof → i + pattern.length = lines.length) := by
  obtain ⟨⟨hstart, hfits⟩, -⟩ := firstMatch_of_seekSequence hne h
  refine ⟨hfits, ?_, ?_⟩
  · rintro rfl
    exact hstart
  · rintro rfl
    simp only [if_true] at hstart
    omega

end

/-! ### The documented search -/

/-- What the comment of `seek_sequence` says: a match at the end of the file is tried first if `eof`
    is set; otherwise, or where it fails, the search starts at `start`. -/
structure Documented (lines pattern : List Text) (start : Nat) (eof : Bool) (found : Option Nat) :
    Prop where
  firstMatch : ∀ i, found = some i →
    ∃ searchStart, (eof = false → searchStart = start) ∧ FirstMatch lines pattern searchStart i
  complete : eof = false → (found.isSome ↔
    ∃ i, FitsFrom lines pattern start i ∧ matchesAt normalise lines pattern i)
  atEnd : eof → ∀ i, i + pattern.length = lines.length →
    matchesAt normalise lines pattern i → found = some i
  fallback : eof → (∀ i, i + pattern.length = lines.length →
    ¬ matchesAt normalise lines pattern i) → found = seekSequence lines pattern start false

/-- **The search and its documentation.**  They agree unless `eof` is set, the pattern does not
    match at the end of the file, and it matches somewhere from `start` on: there is no fallback. -/
theorem seekSequence_documented_iff (lines pattern : List Text) (start : Nat) (eof : Bool)
    (hne : pattern ≠ []) :
    Documented lines pattern start eof (seekSequence lines pattern start eof) ↔
      eof = false ∨
        (∃ i, i + pattern.length = lines.length ∧ matchesAt normalise lines pattern i) ∨
        ∀ i, FitsFrom lines pattern start i → ¬ matchesAt normalise lines pattern i := by
  have hfrom : seekSequence lines pattern start false = none ↔ _ := seekSequence_eq_none hne
  -- with `eof` set, only the end of the file is searched
  have hend : (∀ i, i + pattern.length = lines.length → ¬ matchesAt normalise lines pattern i) →
      seekSequence lines pattern start true = none := by
    refine fun h => (seekSequence_eq_none hne).mpr fun j hj => h j ?_
    simp only [FitsFrom, if_true] at hj
    omega
  constructor
  · intro h
    by_contra! hcond
    obtain ⟨heof, hatEnd, i, hi, hmatch⟩ := hcond
    rw [ne_eq, Bool.not_eq_false] at heof
    subst heof
    exact hfrom.mp ((h.fallback rfl hatEnd).symm.trans (hend hatEnd)) i hi hmatch
  · intro hcond
    refine ⟨fun i hi => ⟨_, ?_, firstMatch_of_seekSequence hne hi⟩, ?_, ?_, ?_⟩
    · rintro rfl
      rfl
    · rintro rfl
      rw [Option.isSome_iff_ne_none, Ne, hfrom]
      push Not
      rfl
    · rintro rfl i hi hmatch
      cases hfound : seekSequence lines pattern start true with
      | none => exact absurd hmatch ((seekSequence_eq_none hne).mp hfound i ⟨by simp; omega, hi.le⟩)
      | some j =>
        have := (seekSequence_bounds hne hfound).2.2 rfl
        rw [show j = i by omega]
    · rintro rfl hatEnd
      have hno := (hcond.resolve_left nofun).resolve_left
        fun ⟨i, hi, hmatch⟩ => hatEnd i hi hmatch
      rw [hend hatEnd, hfrom.mpr hno]

/-- The pattern matches at the end of the file. -/
theorem seekSequence_documented_at_end :
    Documented ["a", "b "] ["b"] 0 true (some 1) :=
  (seekSequence_documented_iff ["a", "b "] ["b"] 0 true (by simp)).mpr
    (.inr (.inl ⟨1, by decide, by decide⟩))

/-- The pattern matches in front of the end only, and is not found. -/
theorem seekSequence_without_fallback :
    seekSequence ["a", "b"] ["a"] 0 true = none ∧
      seekSequence ["a", "b"] ["a"] 0 false = some 0 := by
  decide

end Codex.ApplyPatch
