import Mathlib.Data.List.DropRight

namespace Codex

open List

/-!
# Texts: the string operations the sources are written in

A text is the list of its characters.  This file models the `str` operations that the
parsers of this development call, with the behaviour the Rust standard library documents:

* `trimStart` / `trimEnd` / `trim` — cut off Unicode white space (`isWhitespace` is the
  `White_Space` property, not the ASCII one);
* `stripPrefix` — the remainder after a fixed prefix, if the text starts with it;
* `stripCr` — cut off one final carriage return;
* `lines` — `str::lines`: split at `\n`, drop one `\r` before each `\n`, and give no
  line for an empty remainder after the last `\n`;
* `joinLines` — put the lines together again with `\n` between them.
-/

/-- A text as the sequence of its characters. -/
abbrev Text := List Char

instance : Coe String Text := ⟨String.toList⟩

namespace Text

/-! ### White space -/

/-- The Unicode `White_Space` property, as `char::is_whitespace` tests it. -/
def isWhitespace (c : Char) : Bool :=
  let n := c.toNat
  (9 ≤ n && n ≤ 13) || n == 0x20 || n == 0x85 || n == 0xA0 || n == 0x1680 ||
    (0x2000 ≤ n && n ≤ 0x200A) || n == 0x2028 || n == 0x2029 || n == 0x202F || n == 0x205F ||
    n == 0x3000

/-- Drop the leading white space. -/
def trimStart (s : Text) : Text := s.dropWhile isWhitespace

/-- Drop the trailing white space. -/
def trimEnd (s : Text) : Text := s.rdropWhile isWhitespace

/-- Drop the white space on both sides. -/
def trim (s : Text) : Text := trimEnd (trimStart s)

@[simp] theorem trimEnd_nil : trimEnd [] = [] := rfl

variable {c : Char} {s : Text}

theorem trimStart_cons_of_not (hc : isWhitespace c = false) : trimStart (c :: s) = c :: s := by
  simp [trimStart, hc]

theorem trimStart_cons_of (hc : isWhitespace c) : trimStart (c :: s) = trimStart s := by
  simp [trimStart, hc]

theorem trimEnd_concat_of_not (hc : isWhitespace c = false) : trimEnd (s ++ [c]) = s ++ [c] :=
  rdropWhile_concat_neg _ _ _ (by simp [hc])

theorem trimEnd_concat_of (hc : isWhitespace c) : trimEnd (s ++ [c]) = trimEnd s :=
  rdropWhile_concat_pos _ _ _ hc

/-- What `trimEnd` cuts off is a suffix of white space. -/
theorem trimEnd_append_ws (s : Text) :
    ∃ w : Text, s = trimEnd s ++ w ∧ ∀ c ∈ w, isWhitespace c := by
  refine ⟨s.rtakeWhile isWhitespace, rdropWhile_append_rtakeWhile.symm, ?_⟩
  intro c hc
  rw [rtakeWhile, mem_reverse] at hc
  exact mem_takeWhile_imp hc

/-- What `trimStart` cuts off is a run of white space at the front. -/
theorem trimStart_append_ws (s : Text) :
    ∃ w : Text, s = w ++ trimStart s ∧ ∀ c ∈ w, isWhitespace c :=
  ⟨s.takeWhile isWhitespace, takeWhile_append_dropWhile.symm, fun _ hc => mem_takeWhile_imp hc⟩

/-- Leading white space does not show after `trimStart`. -/
theorem trimStart_append_of_ws (w s : Text) (hw : ∀ c ∈ w, isWhitespace c) :
    trimStart (w ++ s) = trimStart s := by
  induction w with
  | nil => rfl
  | cons c w ih =>
    rw [cons_append, trimStart_cons_of (hw c (by simp))]
    exact ih (fun d hd => hw d (by simp [hd]))

/-- A text whose last character is not white space keeps its end, whatever precedes it. -/
theorem trimEnd_eq_self (hs : ∀ c ∈ s.getLast?, isWhitespace c = false) : trimEnd s = s := by
  induction s using reverseRecOn with
  | nil => rfl
  | append_singleton s c _ => exact trimEnd_concat_of_not (hs c (by simp))

theorem trimStart_eq_self (hs : ∀ c ∈ s.head?, isWhitespace c = false) : trimStart s = s := by
  cases s with
  | nil => rfl
  | cons c s => exact trimStart_cons_of_not (hs c (by simp))

/-- `s` has white space neither in front nor at its end. -/
def IsTrimmed (s : Text) : Prop :=
  (∀ c ∈ s.head?, isWhitespace c = false) ∧ ∀ c ∈ s.getLast?, isWhitespace c = false

instance (s : Text) : Decidable (IsTrimmed s) :=
  decidable_of_iff (s.head?.all (!isWhitespace ·) ∧ s.getLast?.all (!isWhitespace ·)) (by
    simp [IsTrimmed, Option.all_eq_true])

theorem IsTrimmed.trim_eq (hs : IsTrimmed s) : trim s = s := by
  rw [trim, trimStart_eq_self hs.1, trimEnd_eq_self hs.2]

/-- Putting a text with a clean end after anything gives a text with a clean end. -/
theorem trimEnd_append_of_ne_nil {a : Text} (hs : s ≠ [])
    (hlast : ∀ c ∈ s.getLast?, isWhitespace c = false) : trimEnd (a ++ s) = a ++ s := by
  apply trimEnd_eq_self
  intro c hc
  rw [getLast?_append_of_ne_nil _ hs] at hc
  exact hlast c hc

/-- The characters of a text never begin with white space after `trimStart`. -/
theorem trimStart_head (s : Text) : ∀ c ∈ (trimStart s).head?, isWhitespace c = false := by
  intro c hc
  have h := head?_dropWhile_not isWhitespace s
  simp only [trimStart] at hc
  rw [hc] at h
  simpa using h

/-- A text without white space at its end is kept when it goes on. -/
theorem prefix_trimEnd_append (hs : trimEnd s = s) (t : Text) : s <+: trimEnd (s ++ t) := by
  induction t using reverseRecOn with
  | nil => simp [hs]
  | append_singleton t c ih =>
    rw [← append_assoc]
    cases hc : isWhitespace c with
    | true => rwa [trimEnd_concat_of hc]
    | false =>
      rw [trimEnd_concat_of_not hc, append_assoc]
      exact prefix_append s (t ++ [c])

theorem trimEnd_prefix_append (s t : Text) : trimEnd s <+: trimEnd (s ++ t) := by
  obtain ⟨w, hw, -⟩ := trimEnd_append_ws s
  have hidem : trimEnd (trimEnd s) = trimEnd s := rdropWhile_idempotent _ s
  have hpre := prefix_trimEnd_append hidem (w ++ t)
  rwa [← append_assoc, ← hw] at hpre

/-- White space at the end does not show after `trim`. -/
theorem trim_concat_of (hc : isWhitespace c) : trim (s ++ [c]) = trim s := by
  obtain ⟨w, hs, hw⟩ := trimStart_append_ws s
  unfold trim
  by_cases hblank : trimStart s = []
  · -- A blank text stays blank.
    have hall := forall_mem_append.mpr ⟨hw, forall_mem_singleton.mpr hc⟩
    rw [hblank, append_nil] at hs
    rw [hblank, hs, ← append_nil (w ++ [c]), trimStart_append_of_ws _ _ hall]
    rfl
  · have hstart : trimStart (s ++ [c]) = trimStart s ++ [c] := by
      conv_lhs => rw [hs, append_assoc, trimStart_append_of_ws _ _ hw]
      apply trimStart_eq_self
      rw [head?_append_of_ne_nil _ hblank]
      exact trimStart_head s
    rw [hstart, trimEnd_concat_of hc]

theorem head?_trimEnd {line : Text} (h : (trimEnd line).head? = some c) : line.head? = some c := by
  obtain ⟨w, hw, -⟩ := trimEnd_append_ws line
  rw [hw, head?_append, h]
  rfl

/-! ### Fixed prefixes -/

/-- The rest of `s` after the prefix `p`, if `s` starts with `p` (`str::strip_prefix`). -/
def stripPrefix : Text → Text → Option Text
  | [], s => some s
  | _ :: _, [] => none
  | p :: ps, c :: cs => if p = c then stripPrefix ps cs else none

theorem stripPrefix_eq_some {p r : Text} : stripPrefix p s = some r ↔ s = p ++ r := by
  induction p generalizing s with
  | nil => simp [stripPrefix]
  | cons a p ih =>
    cases s with
    | nil => simp [stripPrefix]
    | cons c s =>
      by_cases h : a = c
      · simp [stripPrefix, h, ih]
      · simp [stripPrefix, h, Ne.symm h]

@[simp] theorem stripPrefix_append (p r : Text) : stripPrefix p (p ++ r) = some r :=
  stripPrefix_eq_some.mpr rfl

theorem stripPrefix_eq_none {p : Text} : stripPrefix p s = none ↔ ¬ p <+: s := by
  rw [Option.eq_none_iff_forall_ne_some]
  constructor
  · rintro h ⟨r, rfl⟩
    exact h r (stripPrefix_append p r)
  · intro h r hr
    exact h ⟨r, (stripPrefix_eq_some.mp hr).symm⟩

/-- Two prefixes that differ somewhere are never both there. -/
theorem stripPrefix_append_of_ne {p q : Text} (hpq : ¬ p <+: q) (hqp : ¬ q <+: p) :
    stripPrefix p (q ++ s) = none := by
  rw [stripPrefix_eq_none]
  intro hp
  rcases prefix_or_prefix_of_prefix hp (prefix_append q s) with h | h
  · exact hpq h
  · exact hqp h

/-! ### Carriage returns and lines -/

/-- Drop one final carriage return. -/
def stripCr (l : Text) : Text := if l.getLast? = some '\r' then l.dropLast else l

@[simp] theorem stripCr_concat_cr (l : Text) : stripCr (l ++ ['\r']) = l := by
  simp [stripCr]

variable {l : Text}

theorem stripCr_of_not_mem (h : '\r' ∉ l) : stripCr l = l := by
  unfold stripCr
  rw [if_neg]
  intro hl
  exact h (mem_of_getLast? hl)

theorem stripCr_of_getLast (h : l.getLast? ≠ some '\r') : stripCr l = l := by
  simp [stripCr, h]

/-- Either nothing is cut off, or exactly one carriage return. -/
theorem stripCr_cases (l : Text) : stripCr l = l ∨ l = stripCr l ++ ['\r'] := by
  by_cases h : l.getLast? = some '\r'
  · obtain ⟨m, rfl⟩ := getLast?_eq_some_iff.mp h
    simp
  · exact Or.inl (stripCr_of_getLast h)

theorem not_mem_stripCr (h : c ∉ l) : c ∉ stripCr l := by
  rcases stripCr_cases l with heq | heq
  · rwa [heq]
  · intro hc
    exact h (by rw [heq]; simp [hc])

/-- The lines of a text (`str::lines`). -/
def lines (s : Text) : List Text :=
  let parts := s.splitOn '\n'
  parts.dropLast.map stripCr ++ (parts.getLast?.filter (· ≠ [])).toList

/-- The lines put together with a line feed between each two (`join("\n")`). -/
def joinLines (ls : List Text) : Text := ['\n'].intercalate ls

theorem joinLines_cons_concat (l : Text) (ls : List Text) (last : Text) :
    joinLines (l :: ls ++ [last]) = l ++ '\n' :: joinLines (ls ++ [last]) := by
  cases ls <;> simp [joinLines]

theorem joinLines_concat {ls : List Text} {last : Text} (hls : ls ≠ []) :
    joinLines (ls ++ [last]) = joinLines ls ++ '\n' :: last := by
  induction ls with
  | nil => exact absurd rfl hls
  | cons l ls ih =>
    cases ls using reverseRecOn with
    | nil => simp [joinLines]
    | append_singleton ls m =>
      have hcons := joinLines_cons_concat l ls m
      rw [cons_append] at hcons
      rw [joinLines_cons_concat, ih (by simp), hcons]
      simp

/-- The pieces between line feeds hold none. -/
theorem not_mem_of_mem_splitOn (h : l ∈ s.splitOn '\n') : '\n' ∉ l := by
  induction s generalizing l with
  | nil => simp_all
  | cons c s ih =>
    rw [splitOn_cons_eq_if_modifyHead] at h
    split at h
    · rcases mem_cons.mp h with rfl | h
      · simp
      · exact ih h
    · rename_i hc
      obtain ⟨hd, tl, htl⟩ := exists_cons_of_ne_nil (splitOn_ne_nil '\n' s)
      rw [htl] at h ih
      rcases mem_cons.mp h with rfl | h
      · have hne : c ≠ '\n' := by simpa using hc
        simpa [hne.symm] using ih (by simp)
      · exact ih (by simp [h])

end Text

end Codex
