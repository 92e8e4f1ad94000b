import Codex.Text.Basic
import Codex.Data.Search
import Codex.Data.Stream

namespace Codex.StreamText

open Data List Option

/-!
# Hidden inline tags

A parser of streamed text that takes out tags with their content, wherever in the text they
stand.  What may be the beginning of a delimiter is held back until more of the text arrives.

* `InlineHiddenTagParser.pushStr` / `finish` — the parser;
* `hide` — what a parser for one tag makes of the rest of the text;
* `computes` — the parser for one tag computes `hide`, however the text is cut;
* `removeSpans`, `hide_visibleText` — what is visible is the text without the tags;
* `outputs_hidden` — so it is for all chunks together, wherever the text is cut.
-/

/-! ### Chunks of output -/

/-- What a parser makes of one chunk of the text. -/
structure StreamTextChunk (T : Type) where
  /-- Text that can be shown at once. -/
  visibleText : Text
  /-- What was taken out of the chunk. -/
  extracted : List T

namespace StreamTextChunk

variable {T : Type}

/-- Nothing visible, and nothing taken out. -/
def default : StreamTextChunk T := ⟨[], []⟩

/-- One chunk after another. -/
instance : Append (StreamTextChunk T) where
  append a b := ⟨a.visibleText ++ b.visibleText, a.extracted ++ b.extracted⟩

@[simp] theorem visibleText_append (a b : StreamTextChunk T) :
    (a ++ b).visibleText = a.visibleText ++ b.visibleText := rfl

@[simp] theorem extracted_append (a b : StreamTextChunk T) :
    (a ++ b).extracted = a.extracted ++ b.extracted := rfl

@[ext] theorem ext {a b : StreamTextChunk T} (hvisible : a.visibleText = b.visibleText)
    (hextracted : a.extracted = b.extracted) : a = b := by
  cases a
  simp_all

theorem append_assoc (a b c : StreamTextChunk T) : a ++ b ++ c = a ++ (b ++ c) := by
  ext1 <;> simp

end StreamTextChunk

/-! ### The parser -/

/-- A tag with its content. -/
structure ExtractedInlineTag (T : Type) where
  tag : T
  content : Text

/-- A tag and its delimiters, which are not empty. -/
structure InlineTagSpec (T : Type) where
  tag : T
  openDelimiter : Text
  closeDelimiter : Text
  openDelimiter_ne : openDelimiter ≠ []
  closeDelimiter_ne : closeDelimiter ≠ []

/-- The tag whose close delimiter is looked for, with its content so far. -/
structure ActiveTag (T : Type) where
  tag : T
  closeDelimiter : Text
  closeDelimiter_ne : closeDelimiter ≠ []
  content : Text

structure InlineHiddenTagParser (T : Type) where
  specs : List (InlineTagSpec T)
  pending : Text
  active : Option (ActiveTag T)
  specs_ne : specs ≠ []

/-- How much of the end of `s` may be the beginning of `needle`. -/
def longestSuffixPrefixLen (s needle : Text) : Nat := holdBack s needle

namespace InlineHiddenTagParser

variable {T : Type}

/-- A parser for one or more hidden inline tags. -/
def new (specs : List (InlineTagSpec T)) (specs_ne : specs ≠ []) : InlineHiddenTagParser T :=
  ⟨specs, [], none, specs_ne⟩

/-- The candidate stands in front of the best one so far, or at the same place and is longer. -/
def precedes (candidate best : Nat × InlineTagSpec T) : Bool := candidate.1 < best.1 ||
    (candidate.1 = best.1 && best.2.openDelimiter.length < candidate.2.openDelimiter.length)

variable (parser : InlineHiddenTagParser T)

/-- The first open delimiter in the pending text; of several at one place the longest, and of
    these the one that was given first. -/
def findNextOpen : Option (Nat × InlineTagSpec T) :=
  (parser.specs.filterMap fun spec =>
    (find spec.openDelimiter parser.pending).map fun pos => (pos, spec)).foldl
      (fun best candidate =>
        match best with
        | none => some candidate
        | some best => if precedes candidate best then some candidate else some best) none

def maxOpenPrefixSuffixLen : Nat :=
  (parser.specs.map fun spec =>
    longestSuffixPrefixLen parser.pending spec.openDelimiter).max?.getD 0

theorem findNextOpen_mem {parser : InlineHiddenTagParser T} {pos : Nat} {spec : InlineTagSpec T}
    (h : parser.findNextOpen = some (pos, spec)) :
    find spec.openDelimiter parser.pending = some pos := by
  -- what the fold ends with is what it began with or one of the candidates
  suffices hmem : ∀ (candidates : List (Nat × InlineTagSpec T)) best,
      candidates.foldl (fun best candidate =>
        match best with
        | none => some candidate
        | some best => if precedes candidate best then some candidate else some best) best =
          some (pos, spec) → best = some (pos, spec) ∨ (pos, spec) ∈ candidates by
    rcases hmem _ _ h with hnone | hmem
    · cases hnone
    · obtain ⟨spec', -, hspec⟩ := mem_filterMap.mp hmem
      obtain ⟨pos', hfind, heq⟩ := map_eq_some_iff.mp hspec
      cases heq
      exact hfind
  intro candidates
  induction candidates with
  | nil => exact fun best hbest => .inl hbest
  | cons candidate candidates ih =>
    intro best hbest
    rcases ih _ hbest with hnext | hmem
    · cases best with
      | none =>
        cases hnext
        exact .inr mem_cons_self
      | some best =>
        dsimp only at hnext
        split at hnext
        · cases hnext
          exact .inr mem_cons_self
        · exact .inl hnext
    · exact .inr (mem_cons_of_mem _ hmem)

/-- What is left behind a delimiter is shorter than the text. -/
theorem length_drop_lt {needle s : Text} {i : Nat} (hne : needle ≠ [])
    (h : find needle s = some i) : (s.drop (i + needle.length)).length < s.length := by
  have hlen := (find_eq_some h).1
  have hpos := length_pos_of_ne_nil hne
  rw [length_drop]
  omega

/-- The loop of `pushStr`: one delimiter after the other, until none is left. -/
def pushLoop (parser : InlineHiddenTagParser T) (out : StreamTextChunk (ExtractedInlineTag T)) :
    InlineHiddenTagParser T × StreamTextChunk (ExtractedInlineTag T) :=
  match parser.active with
  | some active =>
    match _h : find active.closeDelimiter parser.pending with
    | some closeIdx =>
      pushLoop
        { parser with
          active := none
          pending := parser.pending.drop (closeIdx + active.closeDelimiter.length) }
        { out with extracted :=
            out.extracted ++ [⟨active.tag, active.content ++ parser.pending.take closeIdx⟩] }
    | none =>
      -- the end of the text that may begin the close delimiter waits for the next chunk
      let keep := longestSuffixPrefixLen parser.pending active.closeDelimiter
      let take := parser.pending.length - keep
      ({ parser with
          active := some { active with content := active.content ++ parser.pending.take take }
          pending := parser.pending.drop take }, out)
  | none =>
    match _h : parser.findNextOpen with
    | some (openIdx, spec) =>
      pushLoop
        { parser with
          active := some ⟨spec.tag, spec.closeDelimiter, spec.closeDelimiter_ne, []⟩
          pending := parser.pending.drop (openIdx + spec.openDelimiter.length) }
        { out with visibleText := out.visibleText ++ parser.pending.take openIdx }
    | none =>
      -- the same for whichever open delimiter it may begin
      let keep := parser.maxOpenPrefixSuffixLen
      let take := parser.pending.length - keep
      ({ parser with pending := parser.pending.drop take },
        { out with visibleText := out.visibleText ++ parser.pending.take take })
termination_by parser.pending.length
decreasing_by
  · exact length_drop_lt active.closeDelimiter_ne _h
  · exact length_drop_lt spec.openDelimiter_ne (findNextOpen_mem _h)

def pushStr (chunk : Text) : InlineHiddenTagParser T × StreamTextChunk (ExtractedInlineTag T) :=
  pushLoop { parser with pending := parser.pending ++ chunk } .default

/-- The end of the text: an open tag ends with it. -/
def finish : InlineHiddenTagParser T × StreamTextChunk (ExtractedInlineTag T) :=
  ({ parser with active := none, pending := [] },
    match parser.active with
    | some active => ⟨[], [⟨active.tag, active.content ++ parser.pending⟩]⟩
    | none => ⟨parser.pending, []⟩)

end InlineHiddenTagParser

/-! ### What is hidden -/

section Hide

variable {T : Type}

/-- What a parser for the tag `spec`, with the open tag `active`, makes of the rest of the text:
    the tags are matched from left to right, and a tag that is not closed goes to the end. -/
def hide (spec : InlineTagSpec T) (active : Option (ActiveTag T)) (text : Text) :
    StreamTextChunk (ExtractedInlineTag T) :=
  match active with
  | some active =>
    match _h : find active.closeDelimiter text with
    | some closeIdx =>
      ⟨[], [⟨active.tag, active.content ++ text.take closeIdx⟩]⟩ ++
        hide spec none (text.drop (closeIdx + active.closeDelimiter.length))
    | none => ⟨[], [⟨active.tag, active.content ++ text⟩]⟩
  | none =>
    match _h : find spec.openDelimiter text with
    | some openIdx =>
      ⟨text.take openIdx, []⟩ ++
        hide spec (some ⟨spec.tag, spec.closeDelimiter, spec.closeDelimiter_ne, []⟩)
          (text.drop (openIdx + spec.openDelimiter.length))
    | none => ⟨text, []⟩
termination_by text.length
decreasing_by
  · exact InlineHiddenTagParser.length_drop_lt active.closeDelimiter_ne _h
  · exact InlineHiddenTagParser.length_drop_lt spec.openDelimiter_ne _h

variable {spec : InlineTagSpec T} {active : ActiveTag T} {text : Text} {i : Nat}

theorem hide_active_of_some (active : ActiveTag T) (h : find active.closeDelimiter text = some i) :
    hide spec (some active) text = ⟨[], [⟨active.tag, active.content ++ text.take i⟩]⟩ ++
      hide spec none (text.drop (i + active.closeDelimiter.length)) := by
  rw [hide]
  split
  · rename_i j hj
    obtain rfl := some.inj (h.symm.trans hj)
    rfl
  · rename_i hnone
    cases h.symm.trans hnone

theorem hide_active_of_none (active : ActiveTag T) (h : find active.closeDelimiter text = none) :
    hide spec (some active) text = ⟨[], [⟨active.tag, active.content ++ text⟩]⟩ := by
  rw [hide]
  split
  · rename_i hj
    cases h.symm.trans hj
  · rfl

theorem hide_none_of_some (h : find spec.openDelimiter text = some i) :
    hide spec none text = ⟨text.take i, []⟩ ++
      hide spec (some ⟨spec.tag, spec.closeDelimiter, spec.closeDelimiter_ne, []⟩)
        (text.drop (i + spec.openDelimiter.length)) := by
  conv_lhs => rw [hide]
  split
  · rename_i j hj
    obtain rfl := some.inj (h.symm.trans hj)
    rfl
  · rename_i hnone
    cases h.symm.trans hnone

theorem hide_none_of_none (h : find spec.openDelimiter text = none) :
    hide spec none text = ⟨text, []⟩ := by
  rw [hide]
  split
  · rename_i hj
    cases h.symm.trans hj
  · rfl

/-! ### The text goes on -/

/-- The two sides of the first occurrence in a text that goes on. -/
theorem take_drop_append {needle s : Text} (h : find needle s = some i) (rest : Text) :
    (s ++ rest).take i = s.take i ∧
      (s ++ rest).drop (i + needle.length) = s.drop (i + needle.length) ++ rest := by
  have hlen := (find_eq_some h).1
  exact ⟨take_append_of_le_length (by omega), drop_append_of_le_length hlen⟩

/-- The two sides of an occurrence behind `k` characters of `s`. -/
theorem take_drop_behind {s : Text} {k : Nat} (hk : k ≤ s.length) (rest : Text) (j n : Nat) :
    (s ++ rest).take (k + j) = s.take k ++ (s.drop k ++ rest).take j ∧
      (s ++ rest).drop (k + j + n) = (s.drop k ++ rest).drop (j + n) := by
  obtain ⟨p, q, rfl, rfl⟩ : ∃ p q, s = p ++ q ∧ p.length = k :=
    ⟨s.take k, s.drop k, (take_append_drop k s).symm, length_take_of_le hk⟩
  rw [take_left, drop_left, append_assoc, Nat.add_assoc]
  exact ⟨take_length_add_append j, drop_length_add_append (j + n)⟩

/-- Behind an open tag, only what is held back has to be kept, the rest is content. -/
theorem hide_active_append (h : find active.closeDelimiter text = none) (rest : Text) :
    hide spec (some active) (text ++ rest) = hide spec
        (some { active with
          content := active.content ++
            text.take (text.length - longestSuffixPrefixLen text active.closeDelimiter) })
        (text.drop (text.length - longestSuffixPrefixLen text active.closeDelimiter) ++ rest) := by
  have hfind := find_append_of_none h rest
  have hle : text.length - longestSuffixPrefixLen text active.closeDelimiter ≤ text.length :=
    Nat.sub_le _ _
  unfold longestSuffixPrefixLen at hle ⊢
  -- `k` characters are decided, and the first occurrence is behind them
  generalize text.length - holdBack text active.closeDelimiter = k at hfind hle ⊢
  cases hbehind : find active.closeDelimiter (text.drop k ++ rest) with
  | none =>
    rw [hbehind] at hfind
    rw [hide_active_of_none active hfind,
      hide_active_of_none { active with content := active.content ++ text.take k } hbehind,
      append_assoc, ← append_assoc (text.take k), take_append_drop]
  | some j =>
    rw [hbehind] at hfind
    obtain ⟨htake, hdrop⟩ := take_drop_behind hle rest j active.closeDelimiter.length
    rw [hide_active_of_some active hfind,
      hide_active_of_some { active with content := active.content ++ text.take k } hbehind, htake,
      hdrop, append_assoc]

/-- Outside of the tags, only what is held back has to be kept, the rest is visible. -/
theorem hide_none_append (h : find spec.openDelimiter text = none) (rest : Text) :
    hide spec none (text ++ rest) =
      ⟨text.take (text.length - longestSuffixPrefixLen text spec.openDelimiter), []⟩ ++
        hide spec none
          (text.drop (text.length - longestSuffixPrefixLen text spec.openDelimiter) ++ rest) := by
  have hfind := find_append_of_none h rest
  have hle : text.length - longestSuffixPrefixLen text spec.openDelimiter ≤ text.length :=
    Nat.sub_le _ _
  unfold longestSuffixPrefixLen at hle ⊢
  -- as for the close delimiter
  generalize text.length - holdBack text spec.openDelimiter = k at hfind hle ⊢
  cases hbehind : find spec.openDelimiter (text.drop k ++ rest) with
  | none =>
    rw [hbehind] at hfind
    rw [hide_none_of_none hfind, hide_none_of_none hbehind]
    ext1
    · simp only [StreamTextChunk.visibleText_append]
      rw [← append_assoc, take_append_drop]
    · rfl
  | some j =>
    rw [hbehind] at hfind
    obtain ⟨htake, hdrop⟩ := take_drop_behind hle rest j spec.openDelimiter.length
    rw [hide_none_of_some hfind, hide_none_of_some hbehind, htake, hdrop,
      ← StreamTextChunk.append_assoc]
    rfl

end Hide

/-! ### The parser for one tag -/

namespace InlineHiddenTagParser

variable {T : Type} {spec : InlineTagSpec T} {parser : InlineHiddenTagParser T}

theorem findNextOpen_single (h : parser.specs = [spec]) :
    parser.findNextOpen = (find spec.openDelimiter parser.pending).map fun pos => (pos, spec) := by
  unfold findNextOpen
  rw [h]
  cases hfind : find spec.openDelimiter parser.pending with
  | none | some => simp [hfind]

theorem maxOpenPrefixSuffixLen_single (h : parser.specs = [spec]) :
    parser.maxOpenPrefixSuffixLen =
      longestSuffixPrefixLen parser.pending spec.openDelimiter := by
  unfold maxOpenPrefixSuffixLen
  rw [h]
  rfl

/-- **The loop** takes out of the pending text what can be decided, whatever comes behind it. -/
theorem pushLoop_hide (h : parser.specs = [spec])
    (out : StreamTextChunk (ExtractedInlineTag T)) (rest : Text) :
    out ++ hide spec parser.active (parser.pending ++ rest) =
      (pushLoop parser out).2 ++
        hide spec (pushLoop parser out).1.active ((pushLoop parser out).1.pending ++ rest) := by
  -- one case for each way through the body of the loop; the first and third go round again
  fun_induction pushLoop parser out with
  | case1 parser out active hactive closeIdx hfind ih =>
    obtain ⟨htake, hdrop⟩ := take_drop_append hfind rest
    rw [← ih h, hactive, hide_active_of_some active (find_append_of_some hfind rest), htake, hdrop,
      ← StreamTextChunk.append_assoc]
    congr 1
    ext1
    · exact append_nil _
    · rfl
  | case2 parser out active hactive hfind keep take =>
    rw [hactive]
    exact congrArg (out ++ ·) (hide_active_append hfind rest)
  | case3 parser out hactive openIdx spec' hopen ih =>
    rw [findNextOpen_single h] at hopen
    obtain ⟨i, hfind, heq⟩ := map_eq_some_iff.mp hopen
    cases heq
    obtain ⟨htake, hdrop⟩ := take_drop_append hfind rest
    rw [← ih h, hactive, hide_none_of_some (find_append_of_some hfind rest), htake, hdrop,
      ← StreamTextChunk.append_assoc]
    congr 1
    ext1
    · rfl
    · exact append_nil _
  | case4 parser out hactive hopen keep take =>
    rw [findNextOpen_single h, map_eq_none_iff] at hopen
    have hkeep : keep = longestSuffixPrefixLen parser.pending spec.openDelimiter :=
      maxOpenPrefixSuffixLen_single h
    rw [hactive, hide_none_append hopen rest, ← hkeep, ← StreamTextChunk.append_assoc]
    congr 1
    ext1
    · rfl
    · exact append_nil _

/-- What is pending has been looked through: there is no delimiter in it. -/
structure Settled (spec : InlineTagSpec T) (parser : InlineHiddenTagParser T) : Prop where
  specs : parser.specs = [spec]
  noOpen : parser.active = none → find spec.openDelimiter parser.pending = none
  noClose : ∀ active, parser.active = some active → find active.closeDelimiter parser.pending = none

theorem settled_new (spec : InlineTagSpec T) : Settled spec (new [spec] (by simp)) where
  specs := rfl
  noOpen _ := if_neg spec.openDelimiter_ne
  noClose active h := by cases h

theorem pushLoop_settled (h : parser.specs = [spec])
    (out : StreamTextChunk (ExtractedInlineTag T)) : Settled spec (pushLoop parser out).1 := by
  fun_induction pushLoop parser out with
  | case1 _ _ _ _ _ _ ih => exact ih h
  | case2 parser out active hactive hfind keep take =>
    refine ⟨h, fun hnone => absurd hnone (by simp), fun active' hactive' => ?_⟩
    cases hactive'
    -- no delimiter in the text, so none in its end
    exact find_drop_of_none hfind take
  | case3 _ _ _ _ _ _ ih => exact ih h
  | case4 parser out hactive hopen keep take =>
    rw [findNextOpen_single h, map_eq_none_iff] at hopen
    refine ⟨h, fun _ => find_drop_of_none hopen take, fun active' hactive' => ?_⟩
    cases hactive.symm.trans hactive'

/-- The parser as a stream parser. -/
def stream (T : Type) :
    StreamParser (InlineHiddenTagParser T) Char (StreamTextChunk (ExtractedInlineTag T)) where
  push := pushStr
  finish parser := parser.finish.2

theorem pushStr_settled (h : Settled spec parser) (chunk : Text) :
    Settled spec (parser.pushStr chunk).1 :=
  @pushLoop_settled T spec { parser with pending := parser.pending ++ chunk } h.specs .default

theorem pushStr_hide (h : parser.specs = [spec]) (chunk rest : Text) :
    hide spec parser.active (parser.pending ++ (chunk ++ rest)) =
      (parser.pushStr chunk).2 ++ hide spec (parser.pushStr chunk).1.active
        ((parser.pushStr chunk).1.pending ++ rest) := by
  have hloop := @pushLoop_hide T spec { parser with pending := parser.pending ++ chunk } h
    .default rest
  rw [append_assoc] at hloop
  exact hloop

theorem finish_hide (h : Settled spec parser) :
    parser.finish.2 = hide spec parser.active parser.pending := by
  unfold finish
  cases hactive : parser.active with
  | none => exact (hide_none_of_none (h.noOpen hactive)).symm
  | some active => exact (hide_active_of_none active (h.noClose active hactive)).symm

variable (spec)

/-- **However the text is cut,** what is visible of it and what is taken out of it is what `hide`
    says. -/
theorem computes {β : Type} (observe : StreamTextChunk (ExtractedInlineTag T) → List β)
    (hobserve : ∀ chunk more, observe (chunk ++ more) = observe chunk ++ observe more) :
    (stream T).Computes (Settled spec) observe
      (fun parser rest => observe (hide spec parser.active (parser.pending ++ rest))) where
  invariant _ chunk h := pushStr_settled h chunk
  push _ chunk rest h := by
    rw [pushStr_hide h.specs, hobserve]
    rfl
  finish _ h := by
    rw [append_nil, ← finish_hide h]
    rfl

end InlineHiddenTagParser

/-! ### The text without the tags -/

/-- The text without the spans from `openTag` to the next `closeTag`, matched from left to right;
    a span that is not closed goes to the end. -/
def removeSpans (openTag closeTag : Text) (hopen : openTag ≠ []) (text : Text) : Text :=
  match _h : find openTag text with
  | none => text
  | some i =>
    text.take i ++
      match find closeTag (text.drop (i + openTag.length)) with
      | none => []
      | some j =>
        removeSpans openTag closeTag hopen
          ((text.drop (i + openTag.length)).drop (j + closeTag.length))
termination_by text.length
decreasing_by
  have hlt := InlineHiddenTagParser.length_drop_lt hopen _h
  rw [length_drop]
  omega

theorem hide_visibleText {T : Type} (spec : InlineTagSpec T) (text : Text) :
    (hide spec none text).visibleText =
      removeSpans spec.openDelimiter spec.closeDelimiter spec.openDelimiter_ne text := by
  induction hn : text.length using Nat.strong_induction_on generalizing text with
  | _ n ih =>
    rw [removeSpans]
    -- a span is taken out in two steps of `hide`, for its open and its close delimiter
    split
    · rename_i hfind
      rw [hide_none_of_none hfind]
    · rename_i i hfind
      have hlt := InlineHiddenTagParser.length_drop_lt spec.openDelimiter_ne hfind
      rw [hide_none_of_some hfind, StreamTextChunk.visibleText_append]
      congr 1
      split
      · rename_i hclose
        rw [hide_active_of_none _ hclose]
      · rename_i j hclose
        rw [hide_active_of_some _ hclose]
        refine ih _ ?_ _ rfl
        rw [length_drop]
        omega

/-- **Hidden tags, however the text is cut.**  What all chunks together show is the text without
    the spans of the tag, and what is taken out are the tags of the whole text. -/
theorem InlineHiddenTagParser.outputs_hidden {T : Type} (spec : InlineTagSpec T)
    (chunks : List Text) :
    let outputs := (stream T).outputs (new [spec] (by simp)) chunks
    outputs.flatMap (·.visibleText) = removeSpans spec.openDelimiter spec.closeDelimiter
      spec.openDelimiter_ne chunks.flatten ∧
    outputs.flatMap (·.extracted) = (hide spec none chunks.flatten).extracted := by
  constructor
  · rw [(computes spec (·.visibleText) fun _ _ => rfl).outputs_eq (settled_new spec),
      ← hide_visibleText]
    rfl
  · rw [(computes spec (·.extracted) fun _ _ => rfl).outputs_eq (settled_new spec)]
    rfl

end Codex.StreamText
