import Codex.Context.Truncate

namespace Codex.MessageHistory

open List

/-!
# The message history file

`append_entry` writes one line behind the others and cuts the file down, in place, once it is
larger than the limit of the caller.  Both are done under the exclusive lock of the file, so the
appends of several processes follow one another.

* `appendEntry_spec` — what one append leaves of the file;
* `runAppends_offsets` — offsets keep their entries over appends that cut nothing, and what the
  file holds after any appends.

The file is the list of its lines; an entry is one line, as JSON escapes line feeds.  A file that
does not exist has no offsets, and a call without persistence does nothing.
-/

/-- The history file with its inode, which cutting it down does not change. -/
structure LogFile where
  logId : ℕ
  lines : List Text

/-- One `append_entry`: the entry as JSON and the limit of the caller. -/
structure Append where
  line : Text
  maxBytes : Option ℕ

/-- The bytes of a file, with a line feed behind each line. -/
def fileBytes (lines : List Text) : ℕ := (lines.map fun line => Context.byteLength line + 1).sum

section

-- `max_bytes as f64 * HISTORY_SOFT_CAP_RATIO`, rounded down.
variable (softCap : ℕ → ℕ)

def trimTargetBytes (maxBytes newestEntryLen : ℕ) : ℕ :=
  max (max 1 (min (softCap maxBytes) maxBytes)) newestEntryLen

/-- The loop of `enforce_history_limit`: the oldest lines go, the newest one stays. -/
def dropOldest (trimTarget : ℕ) : List Text → List Text
  | [] => []
  | line :: rest =>
    if trimTarget < fileBytes (line :: rest) ∧ rest ≠ [] then dropOldest trimTarget rest
    else line :: rest

def enforceHistoryLimit (lines : List Text) : Option ℕ → List Text
  | none => lines
  | some maxBytes =>
    -- A limit of zero is no limit.
    if maxBytes = 0 ∨ fileBytes lines ≤ maxBytes then lines
    else dropOldest (trimTargetBytes softCap maxBytes (fileBytes lines.getLast?.toList)) lines

def appendEntry (file : LogFile) (a : Append) : LogFile :=
  { file with lines := enforceHistoryLimit softCap (file.lines ++ [a.line]) a.maxBytes }

/-- Appends of any processes, in the order in which they get the lock. -/
def runAppends (file : LogFile) (appends : List Append) : LogFile :=
  appends.foldl (appendEntry softCap) file

end

def historyMetadata (file : LogFile) : ℕ × ℕ := (file.logId, file.lines.length)

def lookup {Entry : Type*} (fromStr : Text → Option Entry) (file : LogFile) (logId offset : ℕ) :
    Option Entry :=
  if logId ≠ 0 ∧ file.logId ≠ logId then none else file.lines[offset]?.bind fromStr

/-- The file is within the limit of each append when its line is written. -/
def NeverCut (lines : List Text) : List Append → Prop
  | [] => True
  | a :: later =>
    (∀ m, a.maxBytes = some m → m = 0 ∨ fileBytes (lines ++ [a.line]) ≤ m) ∧
      NeverCut (lines ++ [a.line]) later

variable {softCap : ℕ → ℕ} {file : LogFile} {appends : List Append}

theorem dropOldest_spec (target : ℕ) (front : List Text) (newest : Text) :
    ∃ kept, kept <:+ front ∧ dropOldest target (front ++ [newest]) = kept ++ [newest] ∧
      (kept = [] ∨ fileBytes (kept ++ [newest]) ≤ target) := by
  induction front with
  | nil => exact ⟨[], suffix_rfl, by simp [dropOldest], .inl rfl⟩
  | cons line front ih =>
    rw [cons_append, dropOldest]
    by_cases h : target < fileBytes (line :: (front ++ [newest]))
    · obtain ⟨kept, hkept, heq, hle⟩ := ih
      rw [if_pos ⟨h, by simp⟩]
      exact ⟨kept, hkept.trans (suffix_cons line front), heq, hle⟩
    · rw [if_neg fun hand => h hand.1]
      exact ⟨line :: front, suffix_rfl, rfl, .inr (Nat.not_lt.mp h)⟩

theorem eq_nil_of_trimTargetBytes {maxBytes : ℕ} {kept : List Text} {newest : Text}
    (h : fileBytes (kept ++ [newest]) ≤ trimTargetBytes softCap maxBytes (fileBytes [newest]))
    (hlt : maxBytes < fileBytes (kept ++ [newest])) (hzero : maxBytes ≠ 0) : kept = [] := by
  have hcat : fileBytes (kept ++ [newest]) = fileBytes kept + fileBytes [newest] := by
    simp [fileBytes]
  -- The target is over the limit only if the newest line alone is.
  have hnone : fileBytes kept = 0 := by
    unfold trimTargetBytes at h
    omega
  cases kept with
  | nil => rfl
  | cons line kept => simp [fileBytes] at hnone

/-- An append keeps the newest of the lines it finds, and is over its limit only with none. -/
theorem appendEntry_spec (softCap : ℕ → ℕ) (file : LogFile) (a : Append) :
    ∃ kept, kept <:+ file.lines ∧ (appendEntry softCap file a).lines = kept ++ [a.line] ∧
      ∀ m, a.maxBytes = some m → m ≠ 0 → m < fileBytes (kept ++ [a.line]) → kept = [] := by
  obtain ⟨line, limit⟩ := a
  cases limit with
  | none => exact ⟨file.lines, suffix_rfl, rfl, by simp⟩
  | some maxBytes =>
    simp only [appendEntry, enforceHistoryLimit, Option.some.injEq, forall_eq']
    by_cases hfits : maxBytes = 0 ∨ fileBytes (file.lines ++ [line]) ≤ maxBytes
    · rw [if_pos hfits]
      exact ⟨file.lines, suffix_rfl, rfl, by omega⟩
    · rw [if_neg hfits, getLast?_concat]
      obtain ⟨kept, hkept, heq, hle⟩ := dropOldest_spec
        (trimTargetBytes softCap maxBytes (fileBytes [line])) file.lines line
      refine ⟨kept, hkept, heq, fun hzero hlt => ?_⟩
      exact hle.elim id fun hle => eq_nil_of_trimTargetBytes hle hlt hzero

theorem runAppends_suffix (appends : List Append) :
    (runAppends softCap file appends).lines <:+ file.lines ++ appends.map Append.line := by
  induction appends generalizing file with
  | nil => simp [runAppends]
  | cons a appends ih =>
    obtain ⟨kept, ⟨front, hfront⟩, heq, -⟩ := appendEntry_spec softCap file a
    apply ih.trans
    exact ⟨front, by simp [heq, ← hfront]⟩

theorem runAppends_of_neverCut (h : NeverCut file.lines appends) :
    runAppends softCap file appends = ⟨file.logId, file.lines ++ appends.map Append.line⟩ := by
  induction appends generalizing file with
  | nil => simp [runAppends]
  | cons a appends ih =>
    obtain ⟨hfits, hlater⟩ := h
    have hstep : appendEntry softCap file a = ⟨file.logId, file.lines ++ [a.line]⟩ := by
      unfold appendEntry enforceHistoryLimit
      split
      case h_1 => rfl
      case h_2 m hm => rw [if_pos (hfits m hm)]
    show runAppends softCap (appendEntry softCap file a) appends = _
    rw [hstep, ih hlater]
    simp

/-- **Offsets of the history.**  Over appends that cut nothing a lookup finds the entry that was
    there when the metadata was read.  After any appends the file holds the last of the lines, the
    newest one included, and is over a limit other than zero only if that is its only line. -/
theorem runAppends_offsets {Entry : Type*} (fromStr : Text → Option Entry) (softCap : ℕ → ℕ)
    (file : LogFile) (appends : List Append) :
    (NeverCut file.lines appends → ∀ logId n k e, historyMetadata file = (logId, n) → k < n →
      lookup fromStr (runAppends softCap file appends) logId k = some e →
      lookup fromStr file logId k = some e) ∧
    (runAppends softCap file appends).lines <:+ file.lines ++ appends.map Append.line ∧
    ∀ earlier a, appends = earlier ++ [a] →
      ∃ kept, (runAppends softCap file appends).lines = kept ++ [a.line] ∧
        ∀ m, a.maxBytes = some m → m ≠ 0 → m < fileBytes (kept ++ [a.line]) → kept = [] := by
  refine ⟨?_, runAppends_suffix appends, ?_⟩
  · rintro hcut logId n k e hmeta hk
    obtain ⟨rfl, rfl⟩ := Prod.mk.inj hmeta
    rw [runAppends_of_neverCut hcut, lookup, lookup, getElem?_append_left hk]
    exact id
  · rintro earlier a rfl
    obtain ⟨kept, -, hlast⟩ := appendEntry_spec softCap (runAppends softCap file earlier) a
    rw [runAppends, foldl_append]
    exact ⟨kept, hlast⟩

/-- An append without a limit, and one that just reaches it. -/
theorem runAppends_offsets_limited :
    lookup some (runAppends (· * 4 / 5) ⟨7, [['a']]⟩ [⟨['b'], none⟩, ⟨['c'], some 6⟩]) 7 0 =
      some ['a'] ∧ lookup some ⟨7, [['a']]⟩ 7 0 = some ['a'] :=
  ⟨rfl, (runAppends_offsets some (· * 4 / 5) ⟨7, [['a']]⟩ [⟨['b'], none⟩, ⟨['c'], some 6⟩]).1
    ⟨nofun, fun _ hm => .inr ((by decide : _ ≤ 6).trans_eq (Option.some.inj hm)), trivial⟩
    7 1 0 ['a'] rfl (by decide) rfl⟩

/-- An append cuts the first line off, and offset 0 of the same inode names the second one; a
    limit of zero cuts nothing. -/
theorem append_moves_offsets :
    historyMetadata ⟨7, [['a'], ['b']]⟩ = (7, 2) ∧
      lookup some ⟨7, [['a'], ['b']]⟩ 7 0 = some ['a'] ∧
      lookup some (runAppends (· * 4 / 5) ⟨7, [['a'], ['b']]⟩ [⟨['c'], some 5⟩]) 7 0 =
        some ['b'] ∧
      (runAppends (· * 4 / 5) ⟨7, [['a']]⟩ [⟨['c'], some 0⟩]).lines = [['a'], ['c']] := by
  decide

end Codex.MessageHistory
