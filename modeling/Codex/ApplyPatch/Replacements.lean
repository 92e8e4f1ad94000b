import Codex.ApplyPatch.SeekSequence
import Codex.Data.ExceptFold
import Codex.Data.StableSort

namespace Codex.ApplyPatch

open Text Data List

/-!
# From chunks to replaced regions

`computeReplacements` finds the place of each chunk of an update, in the order of the
patch and with a cursor (`lineIndex`) that moves on through the file, and returns the
regions to replace, sorted by where they start.  `applyReplacements` replaces them from
the last to the first.

Three kinds of chunk do not search from the cursor on: an end-of-file chunk jumps to the
end of the file, a chunk without old lines is inserted at the end, and a chunk whose only
old line is blank and was not found is inserted at the cursor itself.

* `locateChunk_spec` — where a chunk's region can be, by the kind of the chunk;
* `EditsClear` — chunks that cannot get in each other's way, wherever their old lines are;
* `applyReplacements_eq_splice` — for such regions the result is the file with each
  region replaced by the lines of its chunk, everything else untouched.
-/

/-- Replace `oldLen` lines from `start` on by `newLines`. -/
structure Replacement where
  start : Nat
  oldLen : Nat
  newLines : List Text
deriving DecidableEq

namespace Replacement

/-- The line after the region. -/
def stop (r : Replacement) : Nat := r.start + r.oldLen

end Replacement

/-! ### The place of one chunk -/

variable (originalLines : List Text)

/-- Move the cursor behind the context line of the chunk, if it has one. -/
def seekContext (path : Text) (lineIndex : Nat) : Option Text → Except ApplyPatchError Nat
  | none => .ok lineIndex
  | some ctxLine =>
    match seekSequence originalLines [ctxLine] lineIndex false with
    | some idx => .ok (idx + 1)
    | none => .error <| .computeReplacements <|
        "Failed to find context '" ++ ctxLine ++ "' in " ++ path

/-- Where lines without old lines are added: at the end, or before a final blank line. -/
def insertionIdx : Nat :=
  if originalLines.getLast? = some [] then originalLines.length - 1 else originalLines.length

/-- Cut off a final blank line. -/
def dropLastBlank (ls : List Text) : List Text := if ls.getLast? = some [] then ls.dropLast else ls

/-- The region of a chunk with old lines, together with the lines that go there.  If the
    old lines are not found and end with a blank line, which stands for the end of the
    file's last line, they are looked for without it. -/
def seekOldLines (lineIndex : Nat) (chunk : UpdateFileChunk) : Option Replacement :=
  match seekSequence originalLines chunk.oldLines lineIndex chunk.isEndOfFile with
  | some start => some ⟨start, chunk.oldLines.length, chunk.newLines⟩
  | none =>
    if chunk.oldLines.getLast? = some [] then
      let pattern := chunk.oldLines.dropLast
      (seekSequence originalLines pattern lineIndex chunk.isEndOfFile).map fun start =>
        ⟨start, pattern.length, dropLastBlank chunk.newLines⟩
    else none

/-- One turn of the loop over the chunks: the new cursor and the region of the chunk. -/
def locateChunk (path : Text) (lineIndex : Nat) (chunk : UpdateFileChunk) :
    Except ApplyPatchError (Nat × Replacement) := do
  let lineIndex ← seekContext originalLines path lineIndex chunk.changeContext
  if chunk.oldLines = [] then
    -- A pure addition leaves the cursor where it is.
    return (lineIndex, ⟨insertionIdx originalLines, 0, chunk.newLines⟩)
  else
    match seekOldLines originalLines lineIndex chunk with
    | some r => return (r.stop, r)
    | none => throw <| .computeReplacements <|
        "Failed to find expected lines in " ++ path ++ ":\n" ++ joinLines chunk.oldLines

/-- The regions of the chunks, in the order of the chunks. -/
def locateChunks (originalLines : List Text) (path : Text) :
    Nat → List UpdateFileChunk → Except ApplyPatchError (List Replacement)
  | _, [] => .ok []
  | lineIndex, chunk :: chunks => do
    let (lineIndex, r) ← locateChunk originalLines path lineIndex chunk
    let rs ← locateChunks originalLines path lineIndex chunks
    return r :: rs

/-- The regions to replace, sorted by their first line; the sort is stable. -/
def computeReplacements (path : Text) (chunks : List UpdateFileChunk) :
    Except ApplyPatchError (List Replacement) := do
  let rs ← locateChunks originalLines path 0 chunks
  return rs.insertionSort fun a b => a.start ≤ b.start

/-! ### Replacing the regions -/

/-- Remove the line at `i`, if there is one, `n` times. -/
def removeLines (lines : List Text) (i : Nat) : Nat → List Text
  | 0 => lines
  | n + 1 => removeLines (lines.eraseIdx i) i n

/-- Insert the lines one after another from `i` on. -/
def insertLines (lines : List Text) (i : Nat) : List Text → List Text
  | [] => lines
  | newLine :: rest => insertLines (lines.insertIdx i newLine) (i + 1) rest

/-- Replace the regions, the last one first, so that the places of the others stay. -/
def applyReplacements (lines : List Text) (replacements : List Replacement) : List Text :=
  replacements.foldr
    (fun r lines => insertLines (removeLines lines r.start r.oldLen) r.start r.newLines) lines

/-- The new contents of a file with contents `originalContents`, as
    `derive_new_contents_from_chunks` computes them once the file is read. -/
def deriveNewContents (originalContents path : Text) (chunks : List UpdateFileChunk) :
    Except ApplyPatchError Text := do
  -- A final line feed gives an empty last piece, which is not a line.
  let originalLines := dropLastBlank (originalContents.splitOn '\n')
  let replacements ← computeReplacements originalLines path chunks
  let newLines := applyReplacements originalLines replacements
  let newLines := if newLines.getLast? = some [] then newLines else newLines ++ [[]]
  return joinLines newLines

/-! ### Where the region of a chunk can be -/

variable {lineIndex : Nat} {chunks : List UpdateFileChunk} {rs : List Replacement}

section Regions

variable {lines : List Text} {path : Text} {chunk : UpdateFileChunk} {r : Replacement}

variable (x : UpdateFileChunk × Replacement)

/-- The chunk is an end-of-file chunk, and its (non-empty) region was looked for at the end
    of the file only. -/
def JumpsToEnd : Prop := x.1.oldLines ≠ [] ∧ x.1.isEndOfFile ∧ 0 < x.2.oldLen

/-- The chunk was looked for from the cursor on: it has old lines, and did not jump. -/
def Searched : Prop := x.1.oldLines ≠ [] ∧ ¬ JumpsToEnd x

/-- The old lines that a chunk is looked for with. -/
def oldPatterns (chunk : UpdateFileChunk) : List (List Text) :=
  chunk.oldLines :: if chunk.oldLines.getLast? = some [] then [chunk.oldLines.dropLast] else []

/-- Where in the file the old lines of a chunk are, as the loosest search compares them: the first
    line of each place, and how many lines it has. -/
def oldPlaces (lines : List Text) (chunk : UpdateFileChunk) : List (Nat × Nat) :=
  (oldPatterns chunk).flatMap fun pattern =>
    ((range (lines.length + 1)).filter (matchesAt normalise lines pattern)).map (·, pattern.length)

theorem mem_oldPlaces_iff {lines : List Text} {chunk : UpdateFileChunk} {i n : Nat} :
    (i, n) ∈ oldPlaces lines chunk ↔ ∃ pattern ∈ oldPatterns chunk, pattern.length = n ∧
      i ≤ lines.length ∧ matchesAt normalise lines pattern i := by
  simp [oldPlaces, and_comm, and_assoc, Nat.lt_succ_iff]

theorem length_le_of_mem_oldPlaces {lines : List Text} {chunk : UpdateFileChunk} {i n : Nat}
    (h : (i, n) ∈ oldPlaces lines chunk) : n ≤ chunk.oldLines.length := by
  obtain ⟨pattern, hpattern, rfl, -⟩ := mem_oldPlaces_iff.mp h
  rcases mem_cons.mp hpattern with rfl | hpattern
  · exact le_rfl
  · split at hpattern
    · simp [mem_singleton.mp hpattern]
    · cases hpattern

/-- What the kind of a chunk says about its region, whatever the cursor was. -/
structure RegionOk (lines : List Text) (x : UpdateFileChunk × Replacement) : Prop where
  addition : x.1.oldLines = [] → x.2.start = insertionIdx lines ∧ x.2.oldLen = 0
  inside : x.1.oldLines ≠ [] → x.2.stop ≤ lines.length
  jump : JumpsToEnd x → x.2.stop = lines.length
  found : x.1.oldLines ≠ [] → (x.2.start, x.2.oldLen) ∈ oldPlaces lines x.1

theorem insertionIdx_le (lines : List Text) :
    insertionIdx lines ≤ lines.length := by
  unfold insertionIdx
  split <;> omega

theorem le_insertionIdx_succ (lines : List Text) :
    lines.length ≤ insertionIdx lines + 1 := by
  unfold insertionIdx
  split <;> omega

section

variable (hle : lineIndex ≤ lines.length)
include hle

theorem seekContext_bounds {lineIndex' : Nat} {context : Option Text}
    (h : seekContext lines path lineIndex context = .ok lineIndex') :
    lineIndex ≤ lineIndex' ∧ lineIndex' ≤ lines.length := by
  cases context with
  | none =>
    simp only [seekContext, Except.ok.injEq] at h
    omega
  | some ctxLine =>
    simp only [seekContext] at h
    split at h
    · rename_i idx hfound
      obtain ⟨hfits, hstart, -⟩ := seekSequence_bounds (by simp) hfound
      have hstart := hstart rfl
      simp only [length_singleton] at hfits
      simp only [Except.ok.injEq] at h
      omega
    · cases h

/-- A search that succeeds gives a region that matches, at or after the cursor, except that with
    `eof` a non-empty region is the end of the file. -/
theorem seekSequence_region {pattern : List Text} {start : Nat} {eof : Bool}
    (h : seekSequence lines pattern lineIndex eof = some start) :
    matchesAt normalise lines pattern start ∧
      start + pattern.length ≤ lines.length ∧
      (eof → 0 < pattern.length → start + pattern.length = lines.length) ∧
      (¬ (eof ∧ 0 < pattern.length) → lineIndex ≤ start) := by
  by_cases hne : pattern = []
  · subst hne
    simp only [seekSequence_nil, Option.some.injEq] at h
    subst h
    simp [hle, matchesAt]
  · obtain ⟨-, stricter, view, looser, hviews, hmatch, -⟩ := firstMatch_of_seekSequence hne h
    obtain ⟨hfits, hstart, heof⟩ := seekSequence_bounds hne h
    have hpos : 0 < pattern.length := length_pos_iff.mpr hne
    refine ⟨matchesAt_normalise (by simp [hviews]) hmatch, hfits, fun he _ => heof he,
      fun hn => hstart ?_⟩
    cases eof with
    | false => rfl
    | true => exact absurd ⟨rfl, hpos⟩ hn

theorem seekOldLines_region
    (h : seekOldLines lines lineIndex chunk = some r) :
    (r.start, r.oldLen) ∈ oldPlaces lines chunk ∧ r.stop ≤ lines.length ∧
      (chunk.isEndOfFile → 0 < r.oldLen → r.stop = lines.length) ∧
      (¬ (chunk.isEndOfFile ∧ 0 < r.oldLen) → lineIndex ≤ r.start) := by
  unfold seekOldLines at h
  split at h
  · rename_i start hfound
    simp only [Option.some.injEq] at h
    subst h
    obtain ⟨hmatch, hregion⟩ := seekSequence_region hle hfound
    exact ⟨mem_oldPlaces_iff.mpr ⟨_, mem_cons_self, rfl,
      (Nat.le_add_right _ _).trans hregion.1, hmatch⟩, hregion⟩
  · split at h
    · -- The second search, without the final blank line.
      rename_i hblank
      rw [Option.map_eq_some_iff] at h
      obtain ⟨start, hfound, rfl⟩ := h
      obtain ⟨hmatch, hregion⟩ := seekSequence_region hle hfound
      exact ⟨mem_oldPlaces_iff.mpr ⟨chunk.oldLines.dropLast, by simp [oldPatterns, hblank], rfl,
        (Nat.le_add_right _ _).trans hregion.1, hmatch⟩, hregion⟩
    · cases h

/-- **One turn of the loop.**  The cursor moves on and stays in the file, the region is
    where the kind of the chunk puts it, and a chunk that was searched for is not before
    the old cursor and ends at the new one. -/
theorem locateChunk_spec {lineIndex' : Nat}
    (h : locateChunk lines path lineIndex chunk = .ok (lineIndex', r)) :
    lineIndex ≤ lineIndex' ∧ lineIndex' ≤ lines.length ∧
      RegionOk lines (chunk, r) ∧ (Searched (chunk, r) → lineIndex ≤ r.start) ∧
      (chunk.oldLines ≠ [] → lineIndex' = r.stop) := by
  unfold locateChunk at h
  cases hctx : seekContext lines path lineIndex chunk.changeContext with
  | error e => simp [hctx, bind, Except.bind] at h
  | ok cursor =>
    obtain ⟨hmono, hcursor⟩ := seekContext_bounds hle hctx
    simp only [hctx, bind, Except.bind] at h
    by_cases hold : chunk.oldLines = []
    · -- A pure addition.
      simp only [if_pos hold, pure, Except.pure] at h
      obtain ⟨rfl, rfl⟩ := h
      exact ⟨hmono, hcursor, ⟨fun _ => ⟨rfl, rfl⟩, fun hn => absurd hold hn,
        fun hj => absurd hold hj.1, fun hn => absurd hold hn⟩, fun hs => absurd hold hs.1,
        fun hn => absurd hold hn⟩
    · simp only [if_neg hold] at h
      split at h
      · rename_i r' hfound
        obtain ⟨hmatch, hstop, hjump, hstart⟩ := seekOldLines_region hcursor hfound
        simp only [pure, Except.pure, Except.ok.injEq, Prod.mk.injEq] at h
        obtain ⟨rfl, rfl⟩ := h
        have hcur : cursor ≤ r'.stop := by
          by_cases hj : chunk.isEndOfFile ∧ 0 < r'.oldLen
          · have := hjump hj.1 hj.2
            omega
          · have := hstart hj
            simp only [Replacement.stop]
            omega
        refine ⟨by omega, hstop, ⟨fun hn => absurd hn hold, fun _ => hstop,
          fun hj => hjump hj.2.1 hj.2.2, fun _ => hmatch⟩, fun hs => ?_, fun _ => rfl⟩
        have := hstart fun hj => hs.2 ⟨hold, hj⟩
        omega
      · cases h

end

/-- The turns of a loop that succeeds. -/
theorem locateChunks_cons_ok
    (h : locateChunks lines path lineIndex (chunk :: chunks) = .ok rs) :
    ∃ lineIndex' r rest, locateChunk lines path lineIndex chunk = .ok (lineIndex', r) ∧
      locateChunks lines path lineIndex' chunks = .ok rest ∧ rs = r :: rest := by
  obtain ⟨⟨lineIndex', r⟩, hstep, h⟩ := bind_eq_ok.mp h
  obtain ⟨rest, hrest, h⟩ := bind_eq_ok.mp h
  exact ⟨lineIndex', r, rest, hstep, hrest, (Except.ok.inj h).symm⟩

/-- **The whole loop.**  Every region is where its kind of chunk puts it, and one that was
    searched for starts behind all earlier ones with old lines. -/
theorem locateChunks_spec (hle : lineIndex ≤ lines.length)
    (h : locateChunks lines path lineIndex chunks = .ok rs) :
    rs.length = chunks.length ∧ (∀ x ∈ chunks.zip rs, RegionOk lines x) ∧
      (∀ x ∈ chunks.zip rs, Searched x → lineIndex ≤ x.2.start) ∧
      (chunks.zip rs).Pairwise fun x y =>
        x.1.oldLines ≠ [] → Searched y → x.2.stop ≤ y.2.start := by
  induction chunks generalizing lineIndex rs with
  | nil =>
    simp only [locateChunks, Except.ok.injEq] at h
    subst h
    simp
  | cons chunk chunks ih =>
    obtain ⟨lineIndex', r, rest, hstep, hrest, rfl⟩ := locateChunks_cons_ok h
    obtain ⟨hmono, hle', hok, hstart, hstop⟩ := locateChunk_spec hle hstep
    obtain ⟨hlen, hoks, hstarts, hpairs⟩ := ih hle' hrest
    refine ⟨by simp [hlen], ?_, ?_, ?_⟩
    · intro x hx
      rcases mem_cons.mp hx with rfl | hx
      · exact hok
      · exact hoks x hx
    · intro x hx hs
      rcases mem_cons.mp hx with rfl | hx
      · exact hstart hs
      · exact le_trans hmono (hstarts x hx hs)
    · refine pairwise_cons.mpr ⟨fun x hx hold hs => ?_, hpairs⟩
      -- The cursor is the end of this region, and later searches start from it.
      have := hstarts x hx hs
      rw [hstop hold] at this
      exact this

end Regions

/-! ### Disjoint edits -/

/-- `a` is listed before `b` and their regions do not overlap.  An insertion must not fall
    strictly inside the other region, and not at the start of a region listed before it,
    since that region is cut out after the insertion was made. -/
def Replacement.NoOverlap (a b : Replacement) : Prop :=
  (0 < a.oldLen → 0 < b.oldLen → a.stop ≤ b.start ∨ b.stop ≤ a.start) ∧
  (0 < a.oldLen → b.oldLen = 0 → ¬ (a.start ≤ b.start ∧ b.start < a.stop)) ∧
  (a.oldLen = 0 → 0 < b.oldLen → ¬ (b.start < a.start ∧ a.start < b.stop))

/-- The regions are sorted by their first line, lie in the file, and do not overlap. -/
structure DisjointEdits (lines : List Text) (rs : List Replacement) : Prop where
  sorted : rs.Pairwise fun a b => a.start ≤ b.start
  inside : ∀ r ∈ rs, r.start + r.oldLen ≤ lines.length
  apart : rs.Pairwise Replacement.NoOverlap

theorem Replacement.noOverlap_iff {a b : Replacement} (h : a.start ≤ b.start) :
    a.NoOverlap b ↔ a.stop ≤ b.start := by
  unfold Replacement.NoOverlap Replacement.stop
  constructor
  · by_cases ha : a.oldLen = 0
    · omega
    · by_cases hb : b.oldLen = 0
      · omega
      · omega
  · intro hstop
    refine ⟨fun _ _ => Or.inl hstop, fun _ _ => ?_, fun _ _ => ?_⟩ <;> omega

variable {lines : List Text}

/-- In a sorted list the regions are disjoint iff each ends before the next ones start. -/
theorem disjointEdits_iff (hsorted : rs.Pairwise fun a b => a.start ≤ b.start)
    (hinside : ∀ r ∈ rs, r.start + r.oldLen ≤ lines.length) :
    DisjointEdits lines rs ↔ rs.Pairwise fun a b => a.stop ≤ b.start := by
  constructor
  · intro h
    apply (hsorted.and h.apart).imp
    rintro a b ⟨hle, hno⟩
    exact (Replacement.noOverlap_iff hle).mp hno
  · intro h
    refine ⟨hsorted, hinside, (hsorted.and h).imp ?_⟩
    rintro a b ⟨hle, hstop⟩
    exact (Replacement.noOverlap_iff hle).mpr hstop

/-! ### When the edits are disjoint -/

/-- The region of the later chunk `y` keeps clear of that of the earlier chunk `x`:

    * if `y` is a pure addition, `x` does not replace the line where it is inserted;
    * if `x` is a pure addition, its place is not inside what `y` replaces;
    * if `y` jumps to the end of the file, it does not jump over (a part of) `x`. -/
def ClearOf (lines : List Text) (x y : UpdateFileChunk × Replacement) : Prop :=
  (y.1.oldLines = [] →
    ¬ (x.2.start ≤ insertionIdx lines ∧ insertionIdx lines < x.2.stop)) ∧
  (x.1.oldLines = [] →
    ¬ (y.2.start < insertionIdx lines ∧ insertionIdx lines < y.2.stop)) ∧
  (JumpsToEnd y → x.2.stop ≤ y.2.start ∨ x.2.start = lines.length)

/-- The later chunk `y` keeps clear of the earlier chunk `x`, wherever in the file their old lines
    may be: no place of `x` has the line of an addition `y` in it, the line of an addition `x` is
    not inside a place of `y`, and no place of `x` reaches into the last lines of the file, as many
    as an end-of-file chunk `y` has. -/
def EditsClear (lines : List Text) (x y : UpdateFileChunk) : Prop :=
  (y.oldLines = [] → ∀ place ∈ oldPlaces lines x,
    ¬ (place.1 ≤ insertionIdx lines ∧ insertionIdx lines < place.1 + place.2)) ∧
  (x.oldLines = [] → ∀ place ∈ oldPlaces lines y,
    ¬ (place.1 < insertionIdx lines ∧ insertionIdx lines < place.1 + place.2)) ∧
  (y.isEndOfFile → x.oldLines ≠ [] → ∀ place ∈ oldPlaces lines x,
    place.1 = lines.length ∨ place.1 + place.2 + y.oldLines.length ≤ lines.length)

theorem clearOf_of_editsClear {x y : UpdateFileChunk × Replacement} (hx : RegionOk lines x)
    (hy : RegionOk lines y) (h : EditsClear lines x.1 y.1) :
    ClearOf lines x y := by
  obtain ⟨hinsert, hinserted, hjumped⟩ := h
  have hlater : x.1.oldLines = [] →
      ¬ (y.2.start < insertionIdx lines ∧ insertionIdx lines < y.2.stop) := by
    intro hold
    by_cases hyo : y.1.oldLines = []
    · have := hy.addition hyo
      simp only [Replacement.stop]
      omega
    · exact hinserted hold _ (hy.found hyo)
  refine ⟨fun hold => ?_, hlater, fun hjump => ?_⟩
  · by_cases hxo : x.1.oldLines = []
    · have := hx.addition hxo
      simp only [Replacement.stop]
      omega
    · exact hinsert hold _ (hx.found hxo)
  · have hend := hy.jump hjump
    by_cases hxo : x.1.oldLines = []
    · have := hx.addition hxo
      have := hlater hxo
      have := insertionIdx_le lines
      simp only [Replacement.stop] at *
      omega
    · have := length_le_of_mem_oldPlaces (hy.found hjump.1)
      have := hjumped hjump.2.1 hxo _ (hx.found hxo)
      simp only [Replacement.stop] at *
      omega

/-- Two regions that keep clear are disjoint once they are sorted. -/
theorem ClearOf.apart {x y : UpdateFileChunk × Replacement} (hx : RegionOk lines x)
    (hy : RegionOk lines y) (hreach : x.1.oldLines ≠ [] → Searched y → x.2.stop ≤ y.2.start)
    (h : ClearOf lines x y) :
      if x.2.start ≤ y.2.start then x.2.stop ≤ y.2.start else y.2.stop ≤ x.2.start := by
  have hidx := insertionIdx_le lines
  obtain ⟨hinsert, hinserted, hjumped⟩ := h
  simp only [Replacement.stop] at *
  by_cases hxo : x.1.oldLines = []
  · -- `x` is an insertion at the end: `y` must not have it inside.
    obtain ⟨hxs, hxl⟩ := hx.addition hxo
    have := hinserted hxo
    by_cases hyo : y.1.oldLines = []
    · obtain ⟨hys, hyl⟩ := hy.addition hyo
      split <;> omega
    · split <;> omega
  · by_cases hyo : y.1.oldLines = []
    · -- `y` is an insertion at the end: `x` must not have replaced this line.
      obtain ⟨hys, hyl⟩ := hy.addition hyo
      have := hinsert hyo
      split <;> omega
    · by_cases hj : JumpsToEnd y
      · have hxi := hx.inside hxo
        have hyj := hy.jump hj
        have := hjumped hj
        simp only [Replacement.stop] at hxi hyj
        split <;> omega
      · -- `y` was searched for from behind `x`.
        have hle := hreach hxo ⟨hyo, hj⟩
        split <;> omega

variable {path : Text}

/-- A pairwise property of the second components, read off the zipped list. -/
theorem pairwise_zip_snd {R : Replacement → Replacement → Prop} (hlen : rs.length = chunks.length) :
    rs.Pairwise R ↔ (chunks.zip rs).Pairwise fun x y => R x.2 y.2 := by
  rw [← pairwise_map (f := Prod.snd), map_snd_zip (by omega)]

section

variable (h : computeReplacements lines path chunks = .ok rs)
include h

theorem computeReplacements_eq_ok :
    ∃ us, locateChunks lines path 0 chunks = .ok us ∧
      rs = us.insertionSort fun a b => a.start ≤ b.start := by
  obtain ⟨us, hus, hrs⟩ := bind_eq_ok.mp h
  exact ⟨us, hus, (Except.ok.inj hrs).symm⟩

/-- The returned regions are sorted and lie in the file, whatever the chunks. -/
theorem computeReplacements_sorted_inside :
    (rs.Pairwise fun a b => a.start ≤ b.start) ∧
      ∀ r ∈ rs, r.start + r.oldLen ≤ lines.length := by
  obtain ⟨us, hus, rfl⟩ := computeReplacements_eq_ok h
  obtain ⟨hlen, hok, -, -⟩ := locateChunks_spec (Nat.zero_le _) hus
  refine ⟨?_, fun r hr => ?_⟩
  · rw [pairwise_insertionSort_iff]
    refine pairwise_of_forall fun a b => ?_
    split <;> omega
  · have hmap : (chunks.zip us).map Prod.snd = us := map_snd_zip (by omega)
    rw [mem_insertionSort, ← hmap] at hr
    obtain ⟨x, hx, rfl⟩ := mem_map.mp hr
    by_cases hold : x.1.oldLines = []
    · obtain ⟨hs, hl⟩ := (hok x hx).addition hold
      have := insertionIdx_le lines
      omega
    · exact (hok x hx).inside hold

/-- Chunks that keep clear of the earlier ones get disjoint regions. -/
theorem disjointEdits_of_editsClear (hclear : chunks.Pairwise (EditsClear lines)) :
    DisjointEdits lines rs := by
  obtain ⟨hsorted, hinside⟩ := computeReplacements_sorted_inside h
  obtain ⟨us, hus, rfl⟩ := computeReplacements_eq_ok h
  obtain ⟨hlen, hok, -, hreach⟩ := locateChunks_spec (Nat.zero_le _) hus
  have hclear : (chunks.zip us).Pairwise fun x y => EditsClear lines x.1 y.1 := by
    rw [← pairwise_map (f := Prod.fst), map_fst_zip (by omega)]
    exact hclear
  rw [disjointEdits_iff hsorted hinside, pairwise_insertionSort_iff, pairwise_zip_snd hlen]
  refine (hreach.and hclear).imp_of_mem fun {x y} hx hy ⟨hxy, hclear⟩ => ?_
  exact (clearOf_of_editsClear (hok x hx) (hok y hy) hclear).apart (hok x hx) (hok y hy) hxy

end

/-! ### What replacing disjoint regions gives -/

/-- The lines from `pos` on, with the listed regions replaced, read from left to right. -/
def splice (lines : List Text) : Nat → List Replacement → List Text
  | pos, [] => lines.drop pos
  | pos, r :: rs =>
    (lines.drop pos).take (r.start - pos) ++ r.newLines ++ splice lines r.stop rs

theorem removeLines_eq (lines : List Text) (i n : Nat) :
    removeLines lines i n = lines.take i ++ lines.drop (i + n) := by
  induction n generalizing lines with
  | zero => simp [removeLines]
  | succ n ih =>
    rw [removeLines, ih, eraseIdx_eq_take_drop_succ]
    by_cases hi : i ≤ lines.length
    · have hlen : (lines.take i).length = i := by simp [hi]
      rw [take_left' hlen, drop_append, hlen, drop_drop]
      have h1 : (lines.take i).drop (i + n) = [] := by
        apply drop_of_length_le
        omega
      have h2 : i + 1 + (i + n - i) = i + (n + 1) := by omega
      rw [h1, h2, nil_append]
    · have h1 : lines.drop (i + 1) = [] := drop_of_length_le (by omega)
      have h2 : lines.drop (i + (n + 1)) = [] := drop_of_length_le (by omega)
      have h3 : lines.take i = lines := take_of_length_le (by omega)
      have h4 : lines.drop (i + n) = [] := drop_of_length_le (by omega)
      simp [h1, h2, h3, h4]

variable {lines : List Text}

private theorem insertIdx_eq_append {i : Nat} (hi : i ≤ lines.length) (l : Text) :
    lines.insertIdx i l = lines.take i ++ l :: lines.drop i := by
  induction lines generalizing i with
  | nil =>
    have hz : i = 0 := by simpa using hi
    simp [hz]
  | cons x lines ih =>
    cases i with
    | zero => simp
    | succ i => simp [ih (by simpa using hi)]

theorem insertLines_eq {i : Nat} (hi : i ≤ lines.length) (ls : List Text) :
    insertLines lines i ls = lines.take i ++ ls ++ lines.drop i := by
  induction ls generalizing lines i with
  | nil => simp [insertLines]
  | cons l ls ih =>
    have hlen : (lines.insertIdx i l).length = lines.length + 1 := by
      simp [length_insertIdx, hi]
    have hsplit : lines.insertIdx i l = (lines.take i ++ [l]) ++ lines.drop i := by
      simp [insertIdx_eq_append hi]
    have hl : (lines.take i ++ [l]).length = i + 1 := by simp [hi]
    rw [insertLines, ih (by omega), hsplit, take_left' hl, drop_left' hl]
    simp

/-- **Replacing disjoint regions.**  Lines before `pos` stay, and from there on each region
    is replaced by the lines of its chunk and everything between regions is kept. -/
theorem applyReplacements_eq_take_splice {pos : Nat}
    (hapart : rs.Pairwise fun a b => a.stop ≤ b.start)
    (hinside : ∀ r ∈ rs, r.start + r.oldLen ≤ lines.length) (hpos : ∀ r ∈ rs, pos ≤ r.start) :
    applyReplacements lines rs = lines.take pos ++ splice lines pos rs := by
  induction rs generalizing pos with
  | nil => simp [applyReplacements, splice]
  | cons r rs ih =>
    obtain ⟨hr, hrs⟩ := pairwise_cons.mp hapart
    have hin := hinside r (by simp)
    have hp := hpos r (by simp)
    have ih' := ih hrs (fun x hx => hinside x (by simp [hx])) hr
    have hlen : (lines.take r.stop).length = r.stop := by
      simp [Replacement.stop, hin]
    have hstart : (lines.take r.stop).take r.start = lines.take r.start := by
      rw [take_take, Nat.min_eq_left (by simp [Replacement.stop])]
    have hle : r.start ≤ lines.length := by omega
    -- The region is cut out of the part that the later replacements left alone.
    have hremove : removeLines (lines.take r.stop ++ splice lines r.stop rs) r.start r.oldLen
        = lines.take r.start ++ splice lines r.stop rs := by
      rw [removeLines_eq, take_append_of_le_length (by rw [hlen]; simp [Replacement.stop]), hstart]
      have hdrop : r.start + r.oldLen = r.stop := rfl
      rw [hdrop, drop_left' hlen]
    have hgap : lines.take r.start = lines.take pos ++ (lines.drop pos).take (r.start - pos) := by
      have hsum : r.start = pos + (r.start - pos) := by omega
      conv_lhs => rw [hsum, take_add]
    have htake : (lines.take r.start).length = r.start := by simp [hle]
    calc applyReplacements lines (r :: rs)
        = insertLines (removeLines (applyReplacements lines rs) r.start r.oldLen) r.start
            r.newLines := rfl
      _ = insertLines (lines.take r.start ++ splice lines r.stop rs) r.start r.newLines := by
          rw [ih', hremove]
      _ = lines.take r.start ++ r.newLines ++ splice lines r.stop rs := by
          rw [insertLines_eq (by rw [length_append]; omega), take_left' htake, drop_left' htake]
      _ = lines.take pos ++ splice lines pos (r :: rs) := by
          rw [hgap]
          simp [splice]

theorem applyReplacements_eq_splice (h : DisjointEdits lines rs) :
    applyReplacements lines rs = splice lines 0 rs := by
  have hapart := (disjointEdits_iff h.sorted h.inside).mp h
  have hstart : ∀ r ∈ rs, 0 ≤ r.start := fun _ _ => Nat.zero_le _
  simpa using applyReplacements_eq_take_splice hapart h.inside hstart

/-! ### The main result -/

/-- **Disjoint edits.**  The regions of a successful `computeReplacements` are sorted, in
    the file and disjoint, so that replacing them keeps the lines of every chunk, if each chunk
    keeps clear of the earlier ones. -/
theorem computeReplacements_disjoint {lines : List Text} {path : Text}
    {chunks : List UpdateFileChunk} {rs : List Replacement}
    (h : computeReplacements lines path chunks = .ok rs)
    (hclear : chunks.Pairwise (EditsClear lines)) :
    DisjointEdits lines rs ∧
      applyReplacements lines rs = splice lines 0 rs := by
  have hdisjoint := disjointEdits_of_editsClear h hclear
  exact ⟨hdisjoint, applyReplacements_eq_splice hdisjoint⟩

/-- A replaced line, an addition at the end, and a jump to the last line in front of it. -/
theorem computeReplacements_disjoint_three :
    let lines := ["a", "b", "c"]
    let rs : List Replacement := [⟨0, 1, ["x"]⟩, ⟨2, 1, ["y"]⟩, ⟨3, 0, ["z"]⟩]
    computeReplacements lines "f" [⟨none, ["a"], ["x"], false⟩,
        ⟨none, [], ["z"], false⟩, ⟨none, ["c"], ["y"], true⟩] = .ok rs ∧
      DisjointEdits lines rs ∧ applyReplacements lines rs = splice lines 0 rs := by
  intro lines rs
  have hrs : computeReplacements lines "f" [⟨none, ["a"], ["x"], false⟩,
      ⟨none, [], ["z"], false⟩, ⟨none, ["c"], ["y"], true⟩] = .ok rs := rfl
  refine ⟨hrs, computeReplacements_disjoint hrs ?_⟩
  unfold EditsClear
  decide

/-- A chunk that replaces the whole file, followed by an end-of-file chunk for its last
    line: the second region lies inside the first, and its line `y` is cut out again. -/
theorem computeReplacements_eof_overlap : computeReplacements ["a", "b"] "f"
        [⟨none, ["a", "b"], ["x"], false⟩, ⟨none, ["b"], ["y"], true⟩]
      = .ok [⟨0, 2, ["x"]⟩, ⟨1, 1, ["y"]⟩] ∧
    ¬ DisjointEdits ["a", "b"] [⟨0, 2, ["x"]⟩, ⟨1, 1, ["y"]⟩] ∧
    applyReplacements ["a", "b"] [⟨0, 2, ["x"]⟩, ⟨1, 1, ["y"]⟩]
      = ["x"] := by
  refine ⟨rfl, ?_, rfl⟩
  intro h
  have hpair := (pairwise_cons.mp h.apart).1 ⟨1, 1, ["y"]⟩ (by simp)
  have := hpair.1 (by decide) (by decide)
  simp [Replacement.stop] at this

end Codex.ApplyPatch
