import Codex.Context.ResponseItem

namespace Codex.Context

/-!
# Truncation of texts and tool outputs

* `truncateWithByteEstimate` — keep the beginning and the end of a text within a byte budget and
  put a marker in between.
* `truncateMiddleChars_spec` — what is kept, removed and counted.
* `truncateText` — the same under a `TruncationPolicy`.
* `truncateFunctionOutputPayload` — the budget of one tool output, over all of its text items.

Counters are natural numbers: a text is far shorter than `usize::MAX`, where the source saturates.
-/

variable (s : Text)

/-- `str::len`: the length in bytes of UTF-8. -/
def byteLength : ℕ := (s.map Char.utf8Size).sum

def approxBytesPerToken : ℕ := 4

def approxTokensFromByteCount (bytes : ℕ) : ℕ :=
  (bytes + (approxBytesPerToken - 1)) / approxBytesPerToken

def approxTokenCount (text : Text) : ℕ := approxTokensFromByteCount (byteLength text)

def approxBytesForTokens (tokens : ℕ) : ℕ := tokens * approxBytesPerToken

def formatTruncationMarker (useTokens : Bool) (removedCount : ℕ) : Text :=
  "…" ++ Nat.toDigits 10 removedCount ++
    (if useTokens then " tokens truncated…".toList else " chars truncated…".toList)

def removedUnits (useTokens : Bool) (removedBytes removedChars : ℕ) : ℕ :=
  if useTokens then approxTokensFromByteCount removedBytes else removedChars

/-- The loop of `split_string`, at byte `idx` of the text: what is removed, what stays in front
    and what stays behind. The source keeps the byte offsets of the two parts. -/
def splitStringFrom (beginningBytes tailStartTarget : ℕ) : ℕ → Text → ℕ × Text × Text
  | _, [] => (0, [], [])
  | idx, ch :: rest =>
    let charEnd := idx + ch.utf8Size
    let (removed, before, after) := splitStringFrom beginningBytes tailStartTarget charEnd rest
    if charEnd ≤ beginningBytes then (removed, ch :: before, after)
    else if tailStartTarget ≤ idx then (removed, before, ch :: after)
    else (removed + 1, before, after)

def splitString (beginningBytes endBytes : ℕ) : ℕ × Text × Text :=
  splitStringFrom beginningBytes (byteLength s - endBytes) 0 s

def truncateWithByteEstimate (maxBytes : ℕ) (useTokens : Bool) : Text :=
  if s.isEmpty then []
  else if maxBytes = 0 then
    formatTruncationMarker useTokens (removedUnits useTokens (byteLength s) s.length)
  else if byteLength s ≤ maxBytes then s
  else
    let (removedChars, left, right) := splitString s (maxBytes / 2) (maxBytes - maxBytes / 2)
    left ++ formatTruncationMarker useTokens
      (removedUnits useTokens (byteLength s - maxBytes) removedChars) ++ right

def truncateMiddleChars (maxBytes : ℕ) : Text := truncateWithByteEstimate s maxBytes false

/-- The text of `truncate_middle_with_token_budget`. -/
def truncateMiddleWithTokenBudget (maxTokens : ℕ) : Text :=
  if s.isEmpty then []
  else if 0 < maxTokens ∧ byteLength s ≤ approxBytesForTokens maxTokens then s
  else truncateWithByteEstimate s (approxBytesForTokens maxTokens) true

def truncateText (content : Text) : TruncationPolicy → Text
  | .bytes bytes => truncateWithByteEstimate content bytes false
  | .tokens tokens => truncateMiddleWithTokenBudget content tokens

/-! ### Tool outputs -/

/-- The budget of a policy, in its own unit. -/
def TruncationPolicy.budget : TruncationPolicy → ℕ
  | .bytes n => n
  | .tokens n => n

/-- The cost of a text, in the unit of the policy. -/
def TruncationPolicy.cost : TruncationPolicy → Text → ℕ
  | .bytes _, text => byteLength text
  | .tokens _, text => approxTokenCount text

/-- The policy of the same unit with another budget. -/
def TruncationPolicy.withBudget : TruncationPolicy → ℕ → TruncationPolicy
  | .bytes _, budget => .bytes budget
  | .tokens _, budget => .tokens budget

/-- The loop of `truncate_function_output_items_with_policy`: the items that stay and the number
    of text items that were left out, with `remaining` left of the budget. -/
def truncateItems (policy : TruncationPolicy) :
    ℕ → List FunctionCallOutputContentItem → List FunctionCallOutputContentItem × ℕ
  | _, [] => ([], 0)
  | remaining, .inputText text :: items =>
    if remaining = 0 then
      let (out, omitted) := truncateItems policy remaining items
      (out, omitted + 1)
    else if policy.cost text ≤ remaining then
      let (out, omitted) := truncateItems policy (remaining - policy.cost text) items
      (.inputText text :: out, omitted)
    else
      let snippet := truncateText text (policy.withBudget remaining)
      let (out, omitted) := truncateItems policy 0 items
      if snippet.isEmpty then (out, omitted + 1) else (.inputText snippet :: out, omitted)
  | remaining, .inputImage imageUrl detail :: items =>
    let (out, omitted) := truncateItems policy remaining items
    (.inputImage imageUrl detail :: out, omitted)
  | remaining, .encryptedContent encryptedContent :: items =>
    let (out, omitted) := truncateItems policy remaining items
    (.encryptedContent encryptedContent :: out, omitted)

def truncateFunctionOutputItemsWithPolicy (items : List FunctionCallOutputContentItem)
    (policy : TruncationPolicy) : List FunctionCallOutputContentItem :=
  let (out, omitted) := truncateItems policy policy.budget items
  if 0 < omitted then
    out ++ [.inputText ("[omitted " ++ Nat.toDigits 10 omitted ++ " text items ...]")]
  else out

def truncateFunctionOutputPayload (output : FunctionCallOutputPayload)
    (policy : TruncationPolicy) : FunctionCallOutputPayload where
  body :=
    match output.body with
    | .text content => .text (truncateText content policy)
    | .contentItems items => .contentItems (truncateFunctionOutputItemsWithPolicy items policy)
  success := output.success

/-! ### What a truncated text keeps -/

open List

@[simp] theorem byteLength_nil : byteLength [] = 0 := rfl

@[simp] theorem byteLength_cons (ch : Char) (s : Text) :
    byteLength (ch :: s) = ch.utf8Size + byteLength s := by
  simp [byteLength]

theorem byteLength_append (s t : Text) : byteLength (s ++ t) = byteLength s + byteLength t := by
  simp [byteLength]

/-- The loop cuts a text into what stays in front, what is removed and what stays behind. What else
    would be short enough to stay in front, or far enough behind, is part of what does. -/
theorem splitStringFrom_spec {beginning tailStart : ℕ} (hle : beginning ≤ tailStart) {idx : ℕ}
    {s before after : Text} {removed : ℕ}
    (h : splitStringFrom beginning tailStart idx s = (removed, before, after)) :
    (∃ middle, s = before ++ middle ++ after ∧ removed = middle.length) ∧
    (before = [] ∨ idx + byteLength before ≤ beginning) ∧
    byteLength after ≤ idx + byteLength s - tailStart ∧
    ∀ front back, s = front ++ back →
      (idx + byteLength front ≤ beginning → front <+: before) ∧
      (tailStart ≤ idx + byteLength front → back <:+ after) := by
  induction s generalizing idx removed before after with
  | nil =>
    cases h
    simp
  | cons ch rest ih =>
    have hsize := ch.utf8Size_pos
    rcases hrest : splitStringFrom beginning tailStart (idx + ch.utf8Size) rest with
      ⟨removed', before', after'⟩
    obtain ⟨⟨middle, hsplit, hremoved⟩, hbefore, hafter, hkept⟩ := ih hrest
    rw [splitStringFrom, hrest] at h
    dsimp only at h
    rw [byteLength_cons, ← Nat.add_assoc]
    split at h
    · cases h
      refine ⟨⟨middle, by simp [hsplit], hremoved⟩, .inr ?_, hafter, fun front back hs => ?_⟩
      · rcases hbefore with rfl | hbefore
        · simpa
        · rwa [byteLength_cons, ← Nat.add_assoc]
      · cases front with
        | nil => exact ⟨fun _ => nil_prefix, fun hge => absurd hge (by simp; omega)⟩
        | cons c front =>
          obtain ⟨rfl, hs'⟩ : ch = c ∧ rest = front ++ back := by simpa using hs
          simp only [byteLength_cons, ← Nat.add_assoc, prefix_cons_inj]
          exact hkept front back hs'
    obtain rfl : before' = [] := hbefore.resolve_right (by omega)
    -- from here on nothing stays in front
    split at h
    · cases h
      have hall := (hkept [] rest rfl).2 (by simp; omega)
      obtain rfl : rest = after' := hall.eq_of_length_le (by simp [hsplit])
      refine ⟨⟨[], rfl, hremoved.trans (by simpa using hsplit)⟩, .inl rfl, ?_, fun front back hs => ?_⟩
      · rw [byteLength_cons]
        omega
      · refine ⟨fun hshort => ?_, fun _ => hs ▸ suffix_append front back⟩
        cases front with
        | nil => exact nil_prefix
        | cons c front =>
          obtain ⟨rfl, -⟩ : ch = c ∧ _ := by simpa using hs
          rw [byteLength_cons] at hshort
          omega
    · cases h
      refine ⟨⟨ch :: middle, by simp [hsplit], by simp [hremoved]⟩, .inl rfl, hafter,
        fun front back hs => ?_⟩
      cases front with
      | nil => exact ⟨fun _ => nil_prefix, fun hge => absurd hge (by simp; omega)⟩
      | cons c front =>
        obtain ⟨rfl, hs'⟩ : ch = c ∧ rest = front ++ back := by simpa using hs
        simp only [byteLength_cons, ← Nat.add_assoc]
        exact ⟨fun hle => by omega, (hkept front back hs').2⟩

/-- **Truncation in the middle.**  The text falls into the longest part in front that fits into half
    of the budget, the longest part behind that fits into the rest, and what the marker counts. -/
theorem truncateMiddleChars_spec {s : Text} {maxBytes : ℕ} (hpos : 0 < maxBytes)
    (hlt : maxBytes < byteLength s) :
    ∃ before middle after, s = before ++ middle ++ after ∧
      truncateMiddleChars s maxBytes =
        before ++ formatTruncationMarker false middle.length ++ after ∧
      byteLength before ≤ maxBytes / 2 ∧
      (∀ front, front <+: s → byteLength front ≤ maxBytes / 2 → front <+: before) ∧
      byteLength after ≤ maxBytes - maxBytes / 2 ∧
      ∀ back, back <:+ s → byteLength back ≤ maxBytes - maxBytes / 2 → back <:+ after := by
  rcases hsplit : splitString s (maxBytes / 2) (maxBytes - maxBytes / 2) with
    ⟨removed, before, after⟩
  obtain ⟨⟨middle, hs, rfl⟩, hbefore, hafter, hkept⟩ := splitStringFrom_spec (by omega) hsplit
  have hne : s ≠ [] := by
    rintro rfl
    cases hlt
  refine ⟨before, middle, after, hs, ?_, ?_, ?_, by omega, ?_⟩
  · simp only [truncateMiddleChars, truncateWithByteEstimate, hsplit, removedUnits]
    simp [hne, hpos.ne', hlt.not_ge]
  · rcases hbefore with rfl | hbefore
    · exact Nat.zero_le _
    · simpa using hbefore
  · rintro front ⟨back, rfl⟩ hshort
    exact (hkept front back rfl).1 (by simpa using hshort)
  · rintro back ⟨front, rfl⟩ hshort
    refine (hkept front back rfl).2 ?_
    rw [byteLength_append]
    omega

/-- Half of the budget is smaller than the first character: nothing is kept in front. -/
theorem truncateMiddleChars_wide :
    truncateMiddleChars "é…b" 2 = "…2 chars truncated…b" ∧
      ∃ before middle after, "é…b".toList = before ++ middle ++ after ∧ truncateMiddleChars "é…b" 2 =
        before ++ formatTruncationMarker false middle.length ++ after ∧
        byteLength before ≤ 1 ∧ byteLength after ≤ 1 ∧ ['b'] <:+ after := by
  obtain ⟨before, middle, after, hs, htruncated, hbefore, -, hafter, hlongest⟩ :=
    truncateMiddleChars_spec Nat.two_pos (by decide : 2 < byteLength "é…b".toList)
  exact ⟨by decide, before, middle, after, hs, htruncated, hbefore, hafter,
    hlongest ['b'] (by decide) (by decide)⟩

end Codex.Context
