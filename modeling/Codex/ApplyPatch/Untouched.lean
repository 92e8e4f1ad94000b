import Codex.ApplyPatch.Replacements
import Codex.Data.Lines

namespace Codex.ApplyPatch

open Text Data List Replacement

/-!
# The lines that an update leaves alone

A line of the file that lies outside all replaced regions is found again, behind what the
regions in front of it leave.  Only a blank line can be lost: if nothing is left behind it, it
is taken for the end of the last line.

* `applyReplacements_split` — what is in front of an untouched line, the line, and what is
  behind it;
* `fileLines_deriveNewContents` — the lines of the new contents;
* `deriveNewContents_keepsLines_iff` — when every untouched line is kept;
* `applyReplacements_splice_indices` — the splice, and that no insertion is out of range.
-/

/-- The lines of a file: the pieces between line feeds, without one empty last piece. -/
def fileLines (contents : Text) : List Text := dropLastBlank (contents.splitOn '\n')

variable (rs : List Replacement)

/-- Line `i` lies outside all regions. -/
def Outside (i : Nat) : Prop := ∀ r ∈ rs, ¬ (r.start ≤ i ∧ i < r.stop)

/-- The regions that start at line `i` or in front of it. -/
def regionsBefore (i : Nat) : List Replacement := rs.filter (·.start ≤ i)

/-- The regions that start behind line `i`. -/
def regionsBehind (i : Nat) : List Replacement := rs.filter (i < ·.start)

/-- Where line `i` ends up: behind the lines in front of it, with their regions replaced.  A
    line of a chunk can hold line feeds. -/
def newPosition (lines : List Text) (rs : List Replacement) (i : Nat) : Nat :=
  ((applyReplacements (lines.take i) (regionsBefore rs i)).flatMap (·.splitOn '\n')).length

/-- The lines outside all regions are among `newLines`, unchanged and in the same order. -/
structure KeepsLines (lines : List Text) (rs : List Replacement) (newLines : List Text) :
    Prop where
  kept : ∀ i line, lines[i]? = some line → Outside rs i →
    newLines[newPosition lines rs i]? = some line
  ordered : ∀ i j, i < j → j < lines.length → Outside rs i → Outside rs j →
    newPosition lines rs i < newPosition lines rs j

variable {lines : List Text} {rs : List Replacement} {i : Nat} {line : Text}

/-! ### In front of a line and behind it -/

theorem splice_append {front back : List Text} {pos : Nat} (hpos : pos ≤ front.length)
    (hinside : ∀ r ∈ rs, r.stop ≤ front.length) :
    splice (front ++ back) pos rs = splice front pos rs ++ back := by
  induction rs generalizing pos with
  | nil => simp [splice, drop_append_of_le_length hpos]
  | cons r rs ih =>
    have hr := hinside r (by simp)
    have hgap : r.start - pos ≤ (front.drop pos).length := by
      rw [length_drop]
      simp only [stop] at hr
      omega
    simp [splice, drop_append_of_le_length hpos, take_append_of_le_length hgap, ih hr fun x hx => hinside x (by simp [hx]), append_assoc]

/-- Regions in the front part leave the rest alone. -/
theorem applyReplacements_append {front back : List Text}
    (hapart : rs.Pairwise fun a b => a.stop ≤ b.start) (hinside : ∀ r ∈ rs, r.stop ≤ front.length) :
    applyReplacements (front ++ back) rs = applyReplacements front rs ++ back := by
  have hall : ∀ r ∈ rs, r.start + r.oldLen ≤ (front ++ back).length := by
    intro r hr
    have := hinside r hr
    simp only [stop] at this
    rw [length_append]
    omega
  rw [applyReplacements_eq_take_splice hapart hall fun r _ => Nat.zero_le r.start,
    applyReplacements_eq_take_splice hapart hinside fun r _ => Nat.zero_le r.start,
    splice_append (Nat.zero_le _) hinside]
  simp

theorem take_insertLines {k n : Nat} (h : k ≤ n) (ls : List Text) :
    (insertLines lines n ls).take k = lines.take k := by
  induction ls generalizing lines n with
  | nil => rfl
  | cons l ls ih => rw [insertLines, ih (by omega), take_insertIdx_eq_take_of_le _ _ _ _ h]

/-- Regions that start at `k` or later leave the first `k` lines alone. -/
theorem take_applyReplacements {k : Nat} (hk : k ≤ lines.length) (h : ∀ r ∈ rs, k ≤ r.start) :
    (applyReplacements lines rs).take k = lines.take k := by
  induction rs with
  | nil => rfl
  | cons r rs ih =>
    have hr := h r (by simp)
    have ih := ih fun x hx => h x (by simp [hx])
    have hlen := congrArg length ih
    simp only [length_take] at hlen
    have htake : k ≤ ((applyReplacements lines rs).take r.start).length := by
      rw [length_take]
      omega
    change (insertLines (removeLines (applyReplacements lines rs) r.start r.oldLen) r.start
      r.newLines).take k = _
    rw [take_insertLines hr, removeLines_eq, take_append_of_le_length htake, take_take,
      Nat.min_eq_left hr, ih]

theorem regionsBefore_append_regionsBehind (h : rs.Pairwise fun a b => a.start ≤ b.start) :
    regionsBefore rs i ++ regionsBehind rs i = rs := by
  induction rs with
  | nil => rfl
  | cons r rs ih =>
    obtain ⟨hr, hrs⟩ := pairwise_cons.mp h
    have ih := ih hrs
    by_cases hle : r.start ≤ i
    · simpa [regionsBefore, regionsBehind, hle] using ih
    · have hnone : regionsBefore rs i = [] := by
        simp only [regionsBefore, filter_eq_nil_iff, decide_eq_true_eq]
        intro x hx
        have := hr x hx
        omega
      rw [hnone, nil_append] at ih
      unfold regionsBefore regionsBehind at *
      rw [filter_cons_of_neg (by simpa using hle), filter_cons_of_pos (by simpa using hle),
        hnone, ih, nil_append]

/-- **Around an untouched line** stand what the regions in front of it and what the regions
    behind it leave. -/
theorem applyReplacements_split (hsorted : rs.Pairwise fun a b => a.start ≤ b.start)
    (hapart : (regionsBefore rs i).Pairwise fun a b => a.stop ≤ b.start) (hout : Outside rs i)
    (hline : lines[i]? = some line) :
    applyReplacements lines rs = applyReplacements (lines.take i) (regionsBefore rs i) ++
      line :: (applyReplacements lines (regionsBehind rs i)).drop (i + 1) := by
  obtain ⟨hi, hget⟩ := List.getElem?_eq_some_iff.mp hline
  have hfront : (applyReplacements lines (regionsBehind rs i)).take (i + 1) =
      lines.take i ++ [line] := by
    rw [take_applyReplacements hi, take_add_one, hline]
    · rfl
    · intro r hr
      simpa using (mem_filter.mp hr).2
  have hsplit : applyReplacements lines (regionsBehind rs i) =
      lines.take i ++ line :: (applyReplacements lines (regionsBehind rs i)).drop (i + 1) := by
    conv_lhs => rw [← take_append_drop (i + 1) (applyReplacements lines _), hfront]
    simp
  have hinside : ∀ r ∈ regionsBefore rs i, r.stop ≤ (lines.take i).length := by
    intro r hr
    obtain ⟨hmem, hstart⟩ := mem_filter.mp hr
    have := hout r hmem
    rw [length_take]
    simp only [decide_eq_true_eq] at hstart
    omega
  conv_lhs => rw [← regionsBefore_append_regionsBehind (i := i) hsorted]
  rw [applyReplacements, foldr_append, ← applyReplacements, ← applyReplacements]
  conv_lhs => rw [hsplit]
  exact applyReplacements_append hapart hinside

variable {chunks : List UpdateFileChunk}

/-- In front of an untouched line the regions do not overlap: one that overlaps an earlier one
    reaches to the end of the file. -/
theorem regionsBefore_apart {path : Text}
    (h : computeReplacements lines path chunks = .ok rs) (hi : i < lines.length)
    (hout : Outside rs i) : (regionsBefore rs i).Pairwise fun a b => a.stop ≤ b.start := by
  obtain ⟨us, hus, rfl⟩ := computeReplacements_eq_ok h
  obtain ⟨hlen, hok, -, hreach⟩ := locateChunks_spec (Nat.zero_le _) hus
  have hidx := le_insertionIdx_succ lines
  have hstop : ∀ x ∈ chunks.zip us, x.2.start ≤ i → x.2.stop ≤ i := by
    intro x hx hstart
    have := hout x.2 ((mem_insertionSort _).mpr (of_mem_zip hx).2)
    omega
  rw [regionsBefore, pairwise_filter, pairwise_insertionSort_iff, pairwise_zip_snd hlen]
  apply hreach.imp_of_mem
  intro x y hx hy hxy
  simp only [decide_eq_true_eq]
  by_cases hstarts : x.2.start ≤ i ∧ y.2.start ≤ i
  · have hxstop := hstop x hx hstarts.1
    have hystop := hstop y hy hstarts.2
    have hclear : ClearOf lines x y := by
      refine ⟨fun _ => by omega, fun _ => by omega, fun hjump => ?_⟩
      have := (hok y hy).jump hjump
      omega
    have := hclear.apart (hok x hx) (hok y hy) hxy
    split at this <;> simp_all
  · split <;> intros <;> omega

/-! ### The lines of the new contents -/

theorem splitOn_joinLines_eq_flatMap {ls : List Text} (h : ls ≠ []) :
    (joinLines ls).splitOn '\n' = ls.flatMap (·.splitOn '\n') := by
  induction ls with
  | nil => exact absurd rfl h
  | cons l ls ih =>
    cases ls with
    | nil => simp [joinLines]
    | cons l' ls =>
      rw [flatMap_cons, ← ih (by simp)]
      exact splitOnP_append_cons _ _ (by simp)

theorem dropLastBlank_concat_nil (ls : List Text) : dropLastBlank (ls ++ [[]]) = ls := by
  simp [dropLastBlank]

/-- The final line feed is put behind the last line, or is the last line if that is blank. -/
theorem fileLines_deriveNewContents {original path new : Text}
    (h : deriveNewContents original path chunks = .ok new) :
    ∃ rs, computeReplacements (fileLines original) path chunks = .ok rs ∧
      fileLines new =
        (dropLastBlank (applyReplacements (fileLines original) rs)).flatMap (·.splitOn '\n') := by
  obtain ⟨rs, hrs, hnew⟩ := bind_eq_ok.mp h
  refine ⟨rs, hrs, ?_⟩
  obtain rfl := Except.ok.inj hnew
  change fileLines (joinLines (if (applyReplacements (fileLines original) rs).getLast? = some [] then
    applyReplacements (fileLines original) rs else applyReplacements (fileLines original) rs ++ [[]]))
    = _
  generalize applyReplacements (fileLines original) rs = ls
  unfold fileLines
  by_cases hlast : ls.getLast? = some []
  · obtain ⟨front, rfl⟩ := getLast?_eq_some_iff.mp hlast
    rw [if_pos hlast, splitOn_joinLines_eq_flatMap (by simp), dropLastBlank_concat_nil,
      flatMap_append]
    exact dropLastBlank_concat_nil _
  · rw [if_neg hlast, splitOn_joinLines_eq_flatMap (by simp), flatMap_append,
      dropLastBlank.eq_def ls, if_neg hlast]
    exact dropLastBlank_concat_nil _

/-- An untouched line is where it belongs, unless it is blank and the last line left. -/
theorem getElem?_newLines {front rest : List Text} (h : '\n' ∉ line) :
    ((dropLastBlank (front ++ line :: rest)).flatMap
        (·.splitOn '\n'))[(front.flatMap (·.splitOn '\n')).length]? = some line ↔
      ¬ (line = [] ∧ rest = []) := by
  have hone : line.splitOn '\n' = [line] := splitOn_eq_singleton h
  by_cases hlost : line = [] ∧ rest = []
  · obtain ⟨rfl, rfl⟩ := hlost
    simp [dropLastBlank_concat_nil]
  · have hkeep : ∃ rest', dropLastBlank (front ++ line :: rest) = front ++ line :: rest' := by
      unfold dropLastBlank
      split
      case isTrue hlast =>
        cases rest with
        | nil => simp_all
        | cons r rest => exact ⟨(r :: rest).dropLast, by simp⟩
      case isFalse => exact ⟨rest, rfl⟩
    obtain ⟨rest', hkeep⟩ := hkeep
    simp [hkeep, hone, hlost]

/-- Untouched lines stay in order: line `i` is an untouched line of what is in front of
    line `j`. -/
theorem newPosition_lt {j : Nat} (hsorted : rs.Pairwise fun a b => a.start ≤ b.start)
    (hapart : (regionsBefore rs i).Pairwise fun a b => a.stop ≤ b.start) (hout : Outside rs i)
    (hij : i < j) (hi : i < lines.length) : newPosition lines rs i < newPosition lines rs j := by
  have hbefore : regionsBefore (regionsBefore rs j) i = regionsBefore rs i := by
    unfold regionsBefore
    rw [filter_filter]
    apply filter_congr
    intro r _
    by_cases hr : r.start ≤ i
    · simp [hr.trans hij.le]
    · simp [hr]
  have hline : (lines.take j)[i]? = some (lines.get ⟨i, hi⟩) := by
    rw [getElem?_take_of_lt hij]
    exact getElem?_eq_getElem hi
  rw [← hbefore] at hapart
  have hsorted' : (regionsBefore rs j).Pairwise fun a b => a.start ≤ b.start := hsorted.filter _
  have hsplit := applyReplacements_split hsorted' hapart
    (fun r hr => hout r (mem_of_mem_filter hr)) hline
  rw [hbefore, take_take, Nat.min_eq_left hij.le] at hsplit
  have hpos := length_pos_iff.mpr
    (splitOnP_ne_nil (· == '\n') (lines.get ⟨i, hi⟩))
  unfold newPosition
  rw [hsplit, flatMap_append, flatMap_cons, length_append, length_append]
  exact Nat.lt_add_of_pos_right (Nat.add_pos_left hpos _)

/-! ### The main result -/

/-- **Untouched lines.**  An update keeps the lines outside all regions exactly if something is
    left behind each blank one: a line of the file or a line of a chunk. -/
theorem deriveNewContents_keepsLines_iff {original path new : Text}
    {chunks : List UpdateFileChunk} (h : deriveNewContents original path chunks = .ok new) :
    ∃ rs, computeReplacements (fileLines original) path chunks = .ok rs ∧
      (KeepsLines (fileLines original) rs (fileLines new) ↔
        ∀ i, (fileLines original)[i]? = some [] → Outside rs i →
          (applyReplacements (fileLines original) (regionsBehind rs i)).drop (i + 1) ≠ []) := by
  obtain ⟨rs, hrs, hnew⟩ := fileLines_deriveNewContents h
  refine ⟨rs, hrs, ?_⟩
  have hsorted := (computeReplacements_sorted_inside hrs).1
  have hfeed : ∀ line ∈ fileLines original, '\n' ∉ line := by
    intro line hline
    unfold fileLines dropLastBlank at hline
    split at hline
    · exact not_mem_of_mem_splitOn (mem_of_mem_dropLast hline)
    · exact not_mem_of_mem_splitOn hline
  generalize fileLines original = lines at *
  have hkept : ∀ i line, lines[i]? = some line → Outside rs i →
      ((fileLines new)[newPosition lines rs i]? = some line ↔ ¬ (line = [] ∧
        (applyReplacements lines (regionsBehind rs i)).drop (i + 1) = [])) := by
    intro i line hline hout
    have hi := (List.getElem?_eq_some_iff.mp hline).1
    rw [hnew, applyReplacements_split hsorted (regionsBefore_apart hrs hi hout) hout hline]
    exact getElem?_newLines (hfeed line (mem_of_getElem? hline))
  constructor
  · intro hkeeps i hblank hout hrest
    exact (hkept i [] hblank hout).mp (hkeeps.kept i [] hblank hout) ⟨rfl, hrest⟩
  · intro hbehind
    refine ⟨fun i line hline hout => (hkept i line hline hout).mpr ?_, ?_⟩
    · rintro ⟨rfl, hrest⟩
      exact hbehind i hline hout hrest
    · intro i j hij hj hi hjout
      have hlt : i < lines.length := hij.trans hj
      exact newPosition_lt hsorted (regionsBefore_apart hrs hlt hi) hi hij hlt

/-- Replacing the first of two lines keeps the second. -/
theorem deriveNewContents_keepsLines_second :
    KeepsLines [['a'], ['b']] [⟨0, 1, [['x']]⟩] [['x'], ['b']] := by
  obtain ⟨rs, hrs, hiff⟩ := deriveNewContents_keepsLines_iff
    (show deriveNewContents "a\nb\n".toList ['f'] [⟨none, [['a']], [['x']], false⟩] =
      .ok "x\nb\n".toList from by decide)
  have hregions : computeReplacements (fileLines "a\nb\n".toList) ['f']
      [⟨none, [['a']], [['x']], false⟩] = .ok [⟨0, 1, [['x']]⟩] := by decide
  obtain rfl := Except.ok.inj (hregions.symm.trans hrs)
  refine hiff.mpr fun i hblank => absurd (mem_of_getElem? hblank) (by decide)

/-- A file of the line `a` and a blank line, with `a` replaced by `b`: the blank line is outside
    the region, and the new contents have only the line `b`. -/
theorem deriveNewContents_loses_blank_line :
    deriveNewContents "a\n\n".toList ['f'] [⟨none, [['a']], [['b']], false⟩] =
        .ok "b\n".toList ∧
      computeReplacements (fileLines "a\n\n".toList) ['f'] [⟨none, [['a']], [['b']], false⟩] =
        .ok [⟨0, 1, [['b']]⟩] ∧
      fileLines "a\n\n".toList = [['a'], []] ∧ Outside [⟨0, 1, [['b']]⟩] 1 ∧
      fileLines "b\n".toList = [['b']] := by
  refine ⟨by decide, by decide, by decide, ?_, by decide⟩
  simp [Outside, stop]

/-! ### The splice -/

/-- **`apply_replacements` is the splice** of regions of which each ends where the next one
    starts or in front of it.  For regions of `compute_replacements`, which may overlap, no index
    of an insertion is behind the end of the list at that moment. -/
theorem applyReplacements_splice_indices (lines : List Text) (rs : List Replacement) :
    ((rs.Pairwise fun a b => a.stop ≤ b.start) → (∀ r ∈ rs, r.stop ≤ lines.length) →
      applyReplacements lines rs = splice lines 0 rs) ∧
    ∀ path chunks, computeReplacements lines path chunks = .ok rs →
      ∀ earlier r later k, rs = earlier ++ r :: later → k < r.newLines.length →
        r.start + k ≤ (insertLines (removeLines (applyReplacements lines later) r.start r.oldLen)
          r.start (r.newLines.take k)).length := by
  constructor
  · intro hapart hinside
    exact applyReplacements_eq_take_splice hapart hinside fun r _ => Nat.zero_le r.start
  · rintro path chunks h earlier r later k rfl hk
    obtain ⟨hsorted, hinside⟩ := computeReplacements_sorted_inside h
    have hr : r.start ≤ lines.length := (Nat.le_add_right _ _).trans (hinside r (by simp))
    have hlater := (pairwise_cons.mp (pairwise_append.mp hsorted).2.1).1
    -- The later regions have left the lines in front of this one alone.
    have hfront := congrArg length (take_applyReplacements hr hlater)
    simp only [length_take] at hfront
    have hremove :
        r.start ≤ (removeLines (applyReplacements lines later) r.start r.oldLen).length := by
      rw [removeLines_eq, length_append, length_take]
      omega
    rw [insertLines_eq hremove]
    simp only [length_append, length_take, length_drop]
    omega

/-- Two insertions in front of a replaced line, and the overlapping regions of two chunks. -/
theorem applyReplacements_splice_indices_insertions :
    applyReplacements [['a'], ['b']] [⟨1, 0, [['x']]⟩, ⟨1, 0, [['y']]⟩, ⟨1, 1, [['z']]⟩] =
      [['a'], ['x'], ['y'], ['z']] ∧
    0 ≤ (removeLines (applyReplacements [['a'], ['b']] [⟨1, 1, [['y']]⟩]) 0 2).length :=
  ⟨(applyReplacements_splice_indices _ _).1 (by decide) (by decide),
    (applyReplacements_splice_indices [['a'], ['b']] [⟨0, 2, [['x']]⟩, ⟨1, 1, [['y']]⟩]).2 ['f']
      [⟨none, [['a'], ['b']], [['x']], false⟩, ⟨none, [['b']], [['y']], true⟩] (by decide)
      [] ⟨0, 2, [['x']]⟩ [⟨1, 1, [['y']]⟩] 0 rfl (by decide)⟩

end Codex.ApplyPatch
