import Codex.StreamText.InlineHiddenTag
import Codex.StreamText.TaggedLine

namespace Codex.StreamText

open Text Data InlineHiddenTagParser TaggedLineParser TagEvent List StreamTextChunk

/-!
# Assistant text

The text of the assistant passes a parser that takes out citations, and in plan mode what that
parser lets through passes a second one, which takes out proposed plans.

* `AssistantTextStreamParser.pushStr` / `finish` — the parser;
* `visibleSpec` — the text without citations and, in plan mode, without proposed plans;
* `mergeAdjacent` — plan segments, with the text of neighbours put together;
* `collect_eq_collect_flatten` — the cuts do not matter, and `visibleSpec` is what is visible.
-/

/-! ### Citations -/

inductive CitationTag
  | citation

def citationOpen : Text := "<oai-mem-citation>"
def citationClose : Text := "</oai-mem-citation>"

def citationSpec : InlineTagSpec CitationTag :=
  ⟨.citation, citationOpen, citationClose, by decide, by decide⟩

/-- The parser for citations. -/
structure CitationStreamParser where
  inner : InlineHiddenTagParser CitationTag

namespace CitationStreamParser

def new : CitationStreamParser := ⟨.new [citationSpec] (by simp)⟩

/-- What is taken out is the content of the tags. -/
def contents (chunk : StreamTextChunk (ExtractedInlineTag CitationTag)) : StreamTextChunk Text :=
  ⟨chunk.visibleText, chunk.extracted.map (·.content)⟩

def pushStr (parser : CitationStreamParser) (chunk : Text) :
    CitationStreamParser × StreamTextChunk Text :=
  let (inner, out) := parser.inner.pushStr chunk
  (⟨inner⟩, contents out)

def finish (parser : CitationStreamParser) : CitationStreamParser × StreamTextChunk Text :=
  let (inner, out) := parser.inner.finish
  (⟨inner⟩, contents out)

end CitationStreamParser

/-! ### Proposed plans -/

inductive PlanTag
  | proposedPlan
deriving DecidableEq

inductive ProposedPlanSegment
  | normal (text : Text)
  | proposedPlanStart
  | proposedPlanDelta (text : Text)
  | proposedPlanEnd

def planOpenTag : Text := "<proposed_plan>"
def planCloseTag : Text := "</proposed_plan>"

def planSpec : TagSpec PlanTag := ⟨planOpenTag, planCloseTag, .proposedPlan⟩

/-- The parser for proposed plans. -/
structure ProposedPlanParser where
  parser : TaggedLineParser PlanTag

def mapSegment : TaggedLineSegment PlanTag → ProposedPlanSegment
  | .normal text => .normal text
  | .tagStart .proposedPlan => .proposedPlanStart
  | .tagDelta .proposedPlan text => .proposedPlanDelta text
  | .tagEnd .proposedPlan => .proposedPlanEnd

/-- Normal text is visible. -/
def ProposedPlanSegment.visibleText : ProposedPlanSegment → Text
  | .normal text => text
  | _ => []

def mapSegments (segments : List (TaggedLineSegment PlanTag)) :
    StreamTextChunk ProposedPlanSegment :=
  ⟨(segments.map mapSegment).flatMap (·.visibleText), segments.map mapSegment⟩

namespace ProposedPlanParser

def new : ProposedPlanParser := ⟨.new [planSpec]⟩

def pushStr (parser : ProposedPlanParser) (chunk : Text) :
    ProposedPlanParser × StreamTextChunk ProposedPlanSegment :=
  let (inner, segments) := parser.parser.parse chunk
  (⟨inner⟩, mapSegments segments)

def finish (parser : ProposedPlanParser) :
    ProposedPlanParser × StreamTextChunk ProposedPlanSegment :=
  let (inner, segments) := parser.parser.finish
  (⟨inner⟩, mapSegments segments)

end ProposedPlanParser

/-! ### The parser for the text of the assistant -/

structure AssistantTextChunk where
  visibleText : Text
  citations : List Text
  planSegments : List ProposedPlanSegment

structure AssistantTextStreamParser where
  planMode : Bool
  citations : CitationStreamParser
  plan : ProposedPlanParser

namespace AssistantTextStreamParser

def new (planMode : Bool) : AssistantTextStreamParser := ⟨planMode, .new, .new⟩

variable (parser : AssistantTextStreamParser)

def parseVisibleText (visibleText : Text) : AssistantTextStreamParser × AssistantTextChunk :=
  -- without plan mode there is no second parser
  if parser.planMode then
    let (plan, out) := parser.plan.pushStr visibleText
    ({ parser with plan := plan }, ⟨out.visibleText, [], out.extracted⟩)
  else (parser, ⟨visibleText, [], []⟩)

def pushStr (chunk : Text) : AssistantTextStreamParser × AssistantTextChunk :=
  let (citations, citationChunk) := parser.citations.pushStr chunk
  let (parser, out) :=
    { parser with citations := citations }.parseVisibleText citationChunk.visibleText
  (parser, { out with citations := citationChunk.extracted })

def finish : AssistantTextStreamParser × AssistantTextChunk :=
  let (citations, citationChunk) := parser.citations.finish
  let (parser, out) :=
    { parser with citations := citations }.parseVisibleText citationChunk.visibleText
  if parser.planMode then
    let (plan, tail) := parser.plan.finish
    ({ parser with plan := plan }, ⟨out.visibleText ++ tail.visibleText, citationChunk.extracted,
        out.planSegments ++ tail.extracted⟩)
  else (parser, { out with citations := citationChunk.extracted })

/-- The parser as a stream parser. -/
def stream : StreamParser AssistantTextStreamParser Char AssistantTextChunk where
  push := pushStr
  finish parser := parser.finish.2

/-- All that a fresh parser gives for the chunks and the end of the text. -/
def collect (planMode : Bool) (chunks : List Text) : AssistantTextChunk :=
  let outputs := stream.outputs (new planMode) chunks
  ⟨outputs.flatMap (·.visibleText), outputs.flatMap (·.citations), outputs.flatMap (·.planSegments)⟩

end AssistantTextStreamParser

/-! ### What the two parsers compute -/

namespace CitationStreamParser

/-- The parser as a stream parser. -/
def stream : StreamParser CitationStreamParser Char (StreamTextChunk Text) where
  push := pushStr
  finish parser := parser.finish.2

/-- What is still to come out of the rest of the text. -/
def hidden (parser : CitationStreamParser) (rest : Text) :
    StreamTextChunk (ExtractedInlineTag CitationTag) :=
  hide citationSpec parser.inner.active (parser.inner.pending ++ rest)

/-- There is no delimiter in what is held back. -/
def Settled (parser : CitationStreamParser) : Prop :=
  True ∧ InlineHiddenTagParser.Settled citationSpec parser.inner

theorem computes_visibleText : stream.Computes Settled visibleText
      (fun parser rest => (parser.hidden rest).visibleText) :=
  (InlineHiddenTagParser.computes citationSpec _ fun _ _ => rfl).of_simulation (fun _ => True)
    CitationStreamParser.inner (fun _ _ _ => trivial) (fun _ _ _ => rfl) (fun _ _ _ => rfl)
    (fun _ _ => rfl)

theorem computes_extracted : stream.Computes Settled extracted
      (fun parser rest => (parser.hidden rest).extracted.filterMap (some ∘ (·.content))) :=
  ((InlineHiddenTagParser.computes citationSpec (·.extracted) fun _ _ => rfl).filterMap
    (some ∘ (·.content))).of_simulation (fun _ => True) CitationStreamParser.inner
    (fun _ _ _ => trivial) (fun _ _ _ => rfl)
    (fun _ _ _ => (congrFun filterMap_eq_map _).symm)
    (fun _ _ => (congrFun filterMap_eq_map _).symm)

end CitationStreamParser

/-- The events of a plan segment. -/
def ProposedPlanSegment.events : ProposedPlanSegment → List (TagEvent PlanTag)
  | .normal text => text.map .normal
  | .proposedPlanStart => [.tagStart .proposedPlan]
  | .proposedPlanDelta text => text.map (.tagDelta .proposedPlan)
  | .proposedPlanEnd => [.tagEnd .proposedPlan]

theorem events_mapSegment (segment : TaggedLineSegment PlanTag) :
    (mapSegment segment).events = segment.events := by
  rcases segment with _ | ⟨⟨⟩⟩ | ⟨⟨⟩, _⟩ | ⟨⟨⟩⟩ <;> rfl

variable (segments : List (TaggedLineSegment PlanTag))

theorem events_mapSegments :
    (mapSegments segments).extracted.flatMap (·.events) =
      segments.flatMap TaggedLineSegment.events := by
  simp [mapSegments, flatMap_map, events_mapSegment]

theorem normal_events (segment : ProposedPlanSegment) :
    segment.events.filterMap normal? = segment.visibleText := by
  cases segment with
  | normal text => exact textEvents_normal (none : Option PlanTag) text
  | proposedPlanStart => rfl
  | proposedPlanDelta text => exact textEvents_normal (some PlanTag.proposedPlan) text
  | proposedPlanEnd => rfl

theorem visibleText_mapSegments :
    (mapSegments segments).visibleText =
      (segments.flatMap TaggedLineSegment.events).filterMap normal? := by
  rw [← events_mapSegments, filterMap_flatMap]
  simp only [normal_events]
  rfl

namespace ProposedPlanParser

/-- The parser as a stream parser. -/
def stream : StreamParser ProposedPlanParser Char (StreamTextChunk ProposedPlanSegment) where
  push := pushStr
  finish parser := parser.finish.2

def Steady (parser : ProposedPlanParser) : Prop := True ∧ parser.parser.Steady

theorem computes_events : stream.Computes Steady (fun out => out.extracted.flatMap (·.events))
      (fun parser rest => parser.parser.meaning rest) :=
  TaggedLineParser.computes_events.of_simulation (fun _ => True) ProposedPlanParser.parser
    (fun _ _ _ => trivial) (fun _ _ _ => rfl) (fun _ _ _ => events_mapSegments _)
    (fun _ _ => events_mapSegments _)

theorem computes_visibleText : stream.Computes Steady visibleText
      (fun parser rest => (parser.parser.meaning rest).filterMap normal?) :=
  (TaggedLineParser.computes_events.filterMap TagEvent.normal?).of_simulation (fun _ => True)
    ProposedPlanParser.parser (fun _ _ _ => trivial) (fun _ _ _ => rfl)
    (fun _ _ _ => visibleText_mapSegments _) (fun _ _ => visibleText_mapSegments _)

end ProposedPlanParser

/-! ### Both together -/

namespace AssistantTextStreamParser

variable {parser : AssistantTextStreamParser}

/-- The parser for plans behind the parser for citations. -/
def both : StreamParser (CitationStreamParser × ProposedPlanParser) Char
    (StreamTextChunk Text × List (StreamTextChunk ProposedPlanSegment)) :=
  CitationStreamParser.stream.comp visibleText ProposedPlanParser.stream

theorem pushStr_of_planMode (h : parser.planMode) (chunk : Text) :
    let out := both.push (parser.citations, parser.plan) chunk
    parser.pushStr chunk = (⟨true, out.1.1, out.1.2⟩,
      ⟨out.2.2.flatMap (·.visibleText), out.2.1.extracted, out.2.2.flatMap (·.extracted)⟩) := by
  -- the second parser gets one chunk for each chunk of the first
  obtain ⟨planMode, citations, plan⟩ := parser
  subst h
  simp only [flatMap_singleton, both, StreamParser.comp]
  rfl

theorem finish_of_planMode (h : parser.planMode) :
    let out := both.finish (parser.citations, parser.plan)
    parser.finish.2 =
      ⟨out.2.flatMap (·.visibleText), out.1.extracted, out.2.flatMap (·.extracted)⟩ := by
  -- at the end it gets the last chunk of the first parser, and then ends itself
  obtain ⟨planMode, citations, plan⟩ := parser
  subst h
  simp only [both, StreamParser.comp, flatMap_cons, flatMap_nil, append_nil]
  rfl

end AssistantTextStreamParser

/-! ### Plan segments up to merging -/

/-- Put a segment in front: text in front of text of the same kind is one segment. -/
def prependSegment : ProposedPlanSegment → List ProposedPlanSegment → List ProposedPlanSegment
  | .normal text, .normal text' :: rest => .normal (text ++ text') :: rest
  | .proposedPlanDelta text, .proposedPlanDelta text' :: rest =>
    .proposedPlanDelta (text ++ text') :: rest
  | segment, rest => segment :: rest

/-- Neighbouring segments of normal text are one segment, and so are neighbouring segments of the
    text of a plan. -/
def mergeAdjacent (segments : List ProposedPlanSegment) : List ProposedPlanSegment :=
  segments.foldr prependSegment []

/-- A segment of text has text. -/
def ProposedPlanSegment.Full : ProposedPlanSegment → Prop
  | .normal text => text ≠ []
  | .proposedPlanDelta text => text ≠ []
  | _ => True

/-- The segment of one event. -/
def TagEvent.segment : TagEvent PlanTag → ProposedPlanSegment
  | .normal ch => .normal [ch]
  | .tagStart _ => .proposedPlanStart
  | .tagDelta _ ch => .proposedPlanDelta [ch]
  | .tagEnd _ => .proposedPlanEnd

/-- Two segments of the same kind can be put in front one after the other, or as one. -/
theorem prependSegment_append {kind : Text → ProposedPlanSegment}
    (hkind : kind = .normal ∨ kind = .proposedPlanDelta) (text text' : Text)
    (rest : List ProposedPlanSegment) :
    prependSegment (kind text) (prependSegment (kind text') rest) =
      prependSegment (kind (text ++ text')) rest := by
  cases rest with
  | nil => rcases hkind with rfl | rfl <;> rfl
  | cons segment rest =>
    rcases hkind with rfl | rfl <;> cases segment <;> simp [prependSegment]

/-- Text can be put in front character by character. -/
theorem foldr_prependSegment {kind : Text → ProposedPlanSegment}
    (hkind : kind = .normal ∨ kind = .proposedPlanDelta) {text : Text} (hne : text ≠ [])
    (rest : List ProposedPlanSegment) :
    (text.map fun ch => kind [ch]).foldr prependSegment rest = prependSegment (kind text) rest := by
  -- character by character from the right, where the text of the rest is already one segment
  induction text with
  | nil => exact absurd rfl hne
  | cons ch text ih =>
    rw [map_cons, foldr_cons]
    by_cases htext : text = []
    · subst htext
      rfl
    · rw [ih htext, prependSegment_append hkind]
      rfl

theorem foldr_events {segment : ProposedPlanSegment} (h : segment.Full)
    (rest : List ProposedPlanSegment) :
    (segment.events.map TagEvent.segment).foldr prependSegment rest =
      prependSegment segment rest := by
  cases segment with
  | normal text =>
    rw [ProposedPlanSegment.events, map_map]
    exact foldr_prependSegment (.inl rfl) h rest
  | proposedPlanDelta text =>
    rw [ProposedPlanSegment.events, map_map]
    exact foldr_prependSegment (.inr rfl) h rest
  | proposedPlanStart => rfl
  | proposedPlanEnd => rfl

/-- **Merged segments depend on the events alone.** -/
theorem mergeAdjacent_eq_events {segments : List ProposedPlanSegment}
    (h : ∀ segment ∈ segments, segment.Full) :
    mergeAdjacent segments =
      mergeAdjacent ((segments.flatMap (·.events)).map segment) := by
  unfold mergeAdjacent
  induction segments with
  | nil => rfl
  | cons segment segments ih =>
    rw [foldr_cons, flatMap_cons, map_append, foldr_append, foldr_events (h segment mem_cons_self),
      ih fun s hs => h s (mem_cons_of_mem segment hs)]

theorem full_mapSegments {segments : List (TaggedLineSegment PlanTag)} (h : AllFull segments) :
    ∀ segment ∈ (mapSegments segments).extracted, segment.Full := by
  intro segment hsegment
  obtain ⟨tagged, htagged, rfl⟩ := mem_map.mp hsegment
  have hfull := h tagged htagged
  rcases tagged with _ | ⟨⟨⟩⟩ | ⟨⟨⟩, _⟩ | ⟨⟨⟩⟩ <;> exact hfull

/-! ### The cuts do not matter -/

/-- The text without citations and, in plan mode, without proposed plans. -/
def visibleSpec (planMode : Bool) (text : Text) : Text :=
  let visible := removeSpans citationOpen citationClose (by decide) text
  if planMode then removeBlocks planOpenTag planCloseTag false (splitInclusive visible)
  else visible

namespace AssistantTextStreamParser

variable {parser : AssistantTextStreamParser}

theorem pushStr_full (parser : AssistantTextStreamParser) (chunk : Text) :
    ∀ segment ∈ (parser.pushStr chunk).2.planSegments, segment.Full := by
  obtain ⟨planMode, citations, plan⟩ := parser
  cases planMode with
  | false => exact fun segment h => absurd h not_mem_nil
  | true => exact full_mapSegments (parse_full _ _)

theorem finish_full (parser : AssistantTextStreamParser) :
    ∀ segment ∈ parser.finish.2.planSegments, segment.Full := by
  obtain ⟨planMode, citations, plan⟩ := parser
  cases planMode with
  | false => exact fun segment h => absurd h not_mem_nil
  | true =>
    exact forall_mem_append.mpr ⟨full_mapSegments (parse_full _ _),
      full_mapSegments (TaggedLineParser.finish_full _)⟩

theorem collect_full (planMode : Bool) (chunks : List Text) :
    ∀ segment ∈ (collect planMode chunks).planSegments, segment.Full := by
  intro segment hsegment
  obtain ⟨out, hout, hsegment⟩ := mem_flatMap.mp hsegment
  exact stream.forall_outputs (p := fun out => ∀ segment ∈ out.planSegments, segment.Full)
    pushStr_full finish_full (new planMode) chunks out hout segment hsegment

/-- Both parsers are in a state they can come to. -/
def Good (parser : AssistantTextStreamParser) : Prop :=
  parser.citations.Settled ∧ parser.plan.Steady

theorem good_new (planMode : Bool) : Good (new planMode) :=
  ⟨⟨trivial, settled_new citationSpec⟩, ⟨trivial, ⟨not_mem_nil, fun h => by cases h⟩⟩⟩

theorem computes_citations :
    stream.Computes (fun parser => True ∧ parser.citations.Settled) (·.citations)
      (fun parser rest =>
        (parser.citations.hidden rest).extracted.filterMap (some ∘ (·.content))) := by
  refine CitationStreamParser.computes_extracted.of_simulation (fun _ => True)
    AssistantTextStreamParser.citations (fun _ _ _ => trivial) ?_ ?_ ?_
  · rintro ⟨planMode, citations, plan⟩ chunk -
    cases planMode <;> rfl
  · rintro ⟨planMode, citations, plan⟩ chunk -
    cases planMode <;> rfl
  · rintro ⟨planMode, citations, plan⟩ -
    cases planMode <;> rfl

/-- Without plan mode the text passes one parser only. -/
theorem computes_visibleText_normal :
    stream.Computes (fun parser => parser.planMode = false ∧ parser.citations.Settled)
      (·.visibleText) (fun parser rest => (parser.citations.hidden rest).visibleText) := by
  refine CitationStreamParser.computes_visibleText.of_simulation
    (fun parser : AssistantTextStreamParser => parser.planMode = false)
    AssistantTextStreamParser.citations ?_ ?_ ?_ ?_
  · rintro ⟨planMode, citations, plan⟩ chunk rfl
    rfl
  · rintro ⟨planMode, citations, plan⟩ chunk rfl
    rfl
  · rintro ⟨planMode, citations, plan⟩ chunk rfl
    rfl
  · rintro ⟨planMode, citations, plan⟩ rfl
    rfl

/-- In plan mode it passes both, and what is observed of it is observed behind the second one. -/
theorem Computes.planMode {ε : Type} {observe : AssistantTextChunk → List ε}
    {observe' : StreamTextChunk ProposedPlanSegment → List ε}
    {meaning : ProposedPlanParser → Text → List ε}
    (h : ProposedPlanParser.stream.Computes ProposedPlanParser.Steady observe' meaning)
    (hobserve : ∀ (outs : List (StreamTextChunk ProposedPlanSegment)) citations,
      observe ⟨outs.flatMap (·.visibleText), citations, outs.flatMap (·.extracted)⟩ =
        outs.flatMap observe') :
    stream.Computes (fun parser => parser.planMode ∧ Good parser) observe
      (fun parser rest => meaning parser.plan (parser.citations.hidden rest).visibleText) := by
  refine (CitationStreamParser.computes_visibleText.comp h).of_simulation
    (fun parser : AssistantTextStreamParser => parser.planMode)
    (fun parser : AssistantTextStreamParser => (parser.citations, parser.plan)) ?_ ?_ ?_ ?_
  · intro parser chunk hplan
    exact congrArg (·.1.planMode) (pushStr_of_planMode hplan chunk)
  · intro parser chunk hplan
    exact congrArg (fun out => (out.1.citations, out.1.plan)) (pushStr_of_planMode hplan chunk)
  · intro parser chunk hplan
    exact (congrArg (observe ·.2) (pushStr_of_planMode hplan chunk)).trans (hobserve _ _)
  · intro parser hplan
    exact (congrArg observe (finish_of_planMode hplan)).trans (hobserve _ _)

/-- Without plan mode there are no plan segments. -/
theorem computes_events_normal : stream.Computes (fun parser => parser.planMode = false)
      (fun out => out.planSegments.flatMap (·.events)) (fun _ _ => []) where
  invariant := by
    rintro ⟨planMode, citations, plan⟩ chunk rfl
    rfl
  push := by
    rintro ⟨planMode, citations, plan⟩ chunk rest rfl
    rfl
  finish := by
    rintro ⟨planMode, citations, plan⟩ rfl
    rfl

variable (planMode : Bool)

variable (chunks : List Text)

/-- What is visible in the end. -/
theorem collect_visibleText :
    (collect planMode chunks).visibleText = visibleSpec planMode chunks.flatten := by
  -- the text that passes the first parser
  have hspans : ∀ text, (CitationStreamParser.new.hidden text).visibleText =
      removeSpans citationOpen citationClose (by decide) text := fun text =>
    hide_visibleText citationSpec text
  cases planMode with
  | false =>
    have h := computes_visibleText_normal.outputs_eq
      ⟨rfl, (good_new false).1⟩ chunks
    exact h.trans (hspans _)
  | true =>
    have hcomputes : stream.Computes _ (·.visibleText) _ :=
      Computes.planMode ProposedPlanParser.computes_visibleText fun _ _ => rfl
    refine (hcomputes.outputs_eq ⟨rfl, good_new true⟩ chunks).trans ?_
    -- a fresh parser is in front of the first line, outside of every block
    show (linesEvents [planSpec] none
      (splitInclusive (CitationStreamParser.new.hidden chunks.flatten).visibleText)).filterMap
        normal? = _
    rw [linesEvents_normal planSpec (.inl rfl), hspans]
    rfl

/-- The events of the plan segments in the end. -/
theorem collect_events :
    (collect planMode chunks).planSegments.flatMap (·.events) =
      (collect planMode [chunks.flatten]).planSegments.flatMap (·.events) := by
  unfold collect
  rw [flatMap_assoc, flatMap_assoc]
  cases planMode with
  | false => exact computes_events_normal.outputs_flatten rfl chunks
  | true =>
    exact (Computes.planMode ProposedPlanParser.computes_events fun _ _ =>
      flatMap_assoc).outputs_flatten ⟨rfl, good_new true⟩ chunks

/-- **Chunking never changes assistant text.**  However the text is cut, a fresh parser gives the
    same visible text, the same citations in the same order, and the same plan segments up to
    merging, as for the text in one piece; and what is visible is the text without the citations
    and, in plan mode, without the proposed plans. -/
theorem collect_eq_collect_flatten (planMode : Bool) (chunks : List Text) :
    let cut := collect planMode chunks
    let whole := collect planMode [chunks.flatten]
    cut.visibleText = whole.visibleText ∧ cut.citations = whole.citations ∧
      mergeAdjacent cut.planSegments = mergeAdjacent whole.planSegments ∧
      cut.visibleText = visibleSpec planMode chunks.flatten := by
  intro cut whole
  have hvisible : cut.visibleText = visibleSpec planMode chunks.flatten :=
    collect_visibleText planMode chunks
  have hwhole : whole.visibleText = visibleSpec planMode [chunks.flatten].flatten :=
    collect_visibleText planMode [chunks.flatten]
  rw [flatten_singleton] at hwhole
  refine ⟨hvisible.trans hwhole.symm, ?_, ?_, hvisible⟩
  · exact computes_citations.outputs_flatten ⟨trivial, (good_new planMode).1⟩ chunks
  · rw [mergeAdjacent_eq_events (collect_full planMode chunks),
      mergeAdjacent_eq_events (collect_full planMode [chunks.flatten]), collect_events]

end AssistantTextStreamParser

end Codex.StreamText
