import Codex.Rollout.Resume

namespace Codex.Rollout

open Context ActiveReplaySegment List Option ReverseScan Bool

/-!
# The segment of one turn

Between its start and its completion, a turn only adds to the segment the scan is collecting.

* `ActiveReplaySegment.absorb` — what an item inside a turn adds.
* `scanOlder_inner` — the scan of the items inside a turn.
* `lastCheckpoint` — the newest checkpoint of a list of items, with what follows it.
* `recordedItems`, `transcript` — what such items record, and the transcript they leave.
-/

variable {σ : Type} {host : Host} {policy : TruncationPolicy}

/-- The items that stand inside a turn. -/
def RolloutItem.isInner : RolloutItem σ → Bool
  | .eventMsg .userMessage | .eventMsg .other => true
  | .eventMsg _ => false
  | _ => true

theorem RolloutItem.isRollback_of_isInner {item : RolloutItem σ} (h : item.isInner) :
    item.isRollback = false := by
  cases item with
  | eventMsg event => cases event <;> first | rfl | cases h
  | _ => rfl

/-- The item is an instruction message: it starts an instruction turn in the history. -/
def RolloutItem.isInstruction (host : Host) : RolloutItem σ → Bool
  | .responseItem item => isUserTurnBoundary host.toDecoders item
  | .interAgentCommunication _ => true
  | _ => false

/-- The segment after an item inside the turn. -/
def ActiveReplaySegment.absorb (host : Host) (segment : ActiveReplaySegment σ) :
    RolloutItem σ → ActiveReplaySegment σ
  | .compacted compacted => segment.onCompacted compacted
  | .turnContext context => segment.onTurnContext context
  | .responseItem item =>
    { segment with
      countsAsUserTurn := segment.countsAsUserTurn || isUserTurnBoundary host.toDecoders item }
  | .interAgentCommunication _ => { segment with countsAsUserTurn := true }
  | .eventMsg .userMessage => { segment with countsAsUserTurn := true }
  | .eventMsg _ | .sessionMeta => segment

/-! ### The newest checkpoint -/

/-- The newest checkpoint and the items after it. -/
def lastCheckpoint : List (RolloutItem σ) → Option (List ResponseItem × List (RolloutItem σ))
  | [] => none
  | item :: items =>
    (lastCheckpoint items).or (item.checkpoint.map fun history => (history, items))

theorem lastCheckpoint_append (items items' : List (RolloutItem σ)) :
    lastCheckpoint (items ++ items') = (lastCheckpoint items').or
        ((lastCheckpoint items).map fun found => (found.1, found.2 ++ items')) := by
  induction items with
  | nil => simp [lastCheckpoint]
  | cons item items ih =>
    rw [cons_append, lastCheckpoint, ih, lastCheckpoint, Option.or_assoc, Option.map_or,
      Option.map_map]
    rfl

theorem isSome_lastCheckpoint (items : List (RolloutItem σ)) :
    (lastCheckpoint items).isSome = items.any RolloutItem.isCheckpoint := by
  induction items with
  | nil => rfl
  | cons item items ih =>
    rw [lastCheckpoint, Option.isSome_or, ih, Bool.or_comm, Option.isSome_map]
    rfl

/-! ### The scan inside a turn -/

variable {segment : ActiveReplaySegment σ}

variable (items : List (RolloutItem σ)) {scan : ReverseScan σ}

theorem ReverseScan.step_inner (host : Host) (hactive : scan.activeSegment = some segment)
    (newer : List (RolloutItem σ)) {item : RolloutItem σ} (hitem : item.isInner) :
    scan.step host newer item =
      { scan with
        activeSegment := some (segment.absorb host item)
        rolloutSuffix :=
          if segment.baseReplacementHistory.isNone && item.isCheckpoint then newer
          else scan.rolloutSuffix } := by
  cases item with
  | compacted compacted =>
    simp only [step, hactive]
    rfl
  | eventMsg event =>
    cases event with
    | userMessage => simp [step, hactive, absorb, RolloutItem.isCheckpoint, RolloutItem.checkpoint]
    | other => simp [step, absorb, RolloutItem.isCheckpoint, RolloutItem.checkpoint, ← hactive]
    | _ => cases hitem
  | sessionMeta => simp [step, absorb, RolloutItem.isCheckpoint, RolloutItem.checkpoint, ← hactive]
  | _ => simp [step, hactive, absorb, RolloutItem.isCheckpoint, RolloutItem.checkpoint]

variable (segment) (item : RolloutItem σ)

theorem ActiveReplaySegment.baseReplacementHistory_absorb
    :
    (segment.absorb host item).baseReplacementHistory =
      segment.baseReplacementHistory.or item.checkpoint := by
  cases item with
  | compacted compacted => rfl
  | turnContext context =>
    simp [absorb, baseReplacementHistory_onTurnContext, RolloutItem.checkpoint]
  | eventMsg event => cases event <;> simp [absorb, RolloutItem.checkpoint]
  | _ => simp [absorb, RolloutItem.checkpoint]

theorem ActiveReplaySegment.baseReplacementHistory_foldl
    (items : List (RolloutItem σ)) (h : ∀ item ∈ items, item.checkpoint = none) :
    (items.foldl (·.absorb host) segment).baseReplacementHistory =
      segment.baseReplacementHistory := by
  induction items generalizing segment with
  | nil => rfl
  | cons item items ih =>
    rw [foldl_cons, ih _ fun other hother => h other (mem_cons_of_mem _ hother),
      segment.baseReplacementHistory_absorb, h item mem_cons_self, or_none]

variable {segment}

/-- Without a base the scan does not stop. -/
theorem ReverseScan.isComplete_of_none (h : scan.baseReplacementHistory = none) :
    scan.isComplete = false := by
  simp [isComplete, h]

/-- **The scan of the items inside a turn**, with no base known yet: the segment absorbs them, and
    the suffix moves behind the newest checkpoint among them. -/
theorem scanOlder_inner (host : Host) (scan : ReverseScan σ) (items newer : List (RolloutItem σ))
    (hactive : scan.activeSegment = some segment) (hbase : scan.baseReplacementHistory = none)
    (hitems : ∀ item ∈ items, item.isInner) :
    scanOlder host items.reverse newer scan =
      { scan with
        activeSegment := some (items.reverse.foldl (·.absorb host) segment)
        rolloutSuffix :=
          if segment.baseReplacementHistory.isSome then scan.rolloutSuffix
          else ((lastCheckpoint items).map fun found => found.2 ++ newer).getD
            scan.rolloutSuffix } := by
  induction items using reverseRecOn generalizing newer scan segment with
  | nil => simp [scanOlder, lastCheckpoint, ← hactive]
  | append_singleton items item ih =>
    have hstep := scan.step_inner host hactive newer (hitems item (by simp))
    have hinner : ∀ other ∈ items, other.isInner := fun other hother =>
      hitems other (mem_append_left _ hother)
    rw [reverse_append, reverse_singleton, singleton_append, scanOlder, hstep,
      isComplete_of_none (by exact hbase)]
    refine (ih _ (item :: newer) rfl (by exact hbase) hinner).trans ?_
    -- a checkpoint in the older items counts only if there is none newer
    rw [segment.baseReplacementHistory_absorb, lastCheckpoint_append]
    cases segment.baseReplacementHistory with
    | some base => simp
    | none =>
      cases hcheckpoint : item.checkpoint <;>
        simp [RolloutItem.isCheckpoint, lastCheckpoint, hcheckpoint, Function.comp_def]

/-! ### The scan of a turn -/

/-- The items of a complete turn. -/
def turnItems (turnId : Text) (inner : List (RolloutItem σ)) : List (RolloutItem σ) :=
  .eventMsg (.turnStarted turnId) :: (inner ++ [.eventMsg (.turnComplete turnId)])

/-- The segment keeps the id of its turn. -/
theorem ActiveReplaySegment.turnId_absorb {turnId : Text} (h : segment.turnId = some turnId)
    (item : RolloutItem σ) : (segment.absorb host item).turnId = some turnId := by
  cases item with
  | turnContext context =>
    simp only [absorb, onTurnContext, h]
    split <;> simp
  | eventMsg event => cases event <;> exact h
  | _ => exact h

theorem ActiveReplaySegment.turnId_foldl {turnId : Text} (h : segment.turnId = some turnId)
    (items : List (RolloutItem σ)) :
    (items.foldl (·.absorb host) segment).turnId = some turnId := by
  induction items generalizing segment with
  | nil => exact h
  | cons item items ih => exact ih (turnId_absorb h item)

/-- What makes a segment count as a user turn. -/
theorem ActiveReplaySegment.countsAsUserTurn_absorb (segment : ActiveReplaySegment σ)
    (item : RolloutItem σ) (h : segment.countsAsUserTurn ∨ item.isInstruction host) :
    (segment.absorb host item).countsAsUserTurn := by
  cases item with
  | compacted compacted => simpa [absorb, onCompacted, RolloutItem.isInstruction] using h
  | turnContext context =>
    simp only [absorb, onTurnContext]
    split <;> simpa [RolloutItem.isInstruction] using h
  | eventMsg event =>
    cases event <;> simp_all [absorb, RolloutItem.isInstruction]
  | _ => simp_all [absorb, RolloutItem.isInstruction]

/-- A turn with an instruction message counts as a user turn. -/
theorem ActiveReplaySegment.countsAsUserTurn_foldl
    (h : segment.countsAsUserTurn ∨ ∃ item ∈ items, item.isInstruction host) :
    (items.foldl (·.absorb host) segment).countsAsUserTurn := by
  induction items generalizing segment with
  | nil => simpa using h
  | cons item items ih =>
    apply ih
    rcases h with h | ⟨found, hfound, hinstruction⟩
    · exact .inl (segment.countsAsUserTurn_absorb item (.inl h))
    · rcases mem_cons.mp hfound with rfl | hfound
      · exact .inl (segment.countsAsUserTurn_absorb _ (.inr hinstruction))
      · exact .inr ⟨found, hfound, hinstruction⟩

/-- The segment that the scan has collected when it comes to the start of the turn. -/
def turnSegment (host : Host) (turnId : Text) (inner : List (RolloutItem σ)) :
    ActiveReplaySegment σ := inner.reverse.foldl (·.absorb host) { turnId := some turnId }

/-- **The scan of a complete turn**, with no base known yet: the turn is one segment, and the
    suffix moves behind its newest checkpoint. -/
theorem scanOlder_turnItems (turnId : Text) {inner : List (RolloutItem σ)}
    (newer : List (RolloutItem σ)) (hactive : scan.activeSegment = none)
    (hbase : scan.baseReplacementHistory = none) (hinner : ∀ item ∈ inner, item.isInner) :
    scanOlder host (turnItems turnId inner).reverse newer scan =
      finalizeActiveSegment (turnSegment host turnId inner) { scan with
          rolloutSuffix := ((lastCheckpoint (turnItems turnId inner)).map fun found =>
            found.2 ++ newer).getD scan.rolloutSuffix } := by
  have hcomplete : scan.step host newer (.eventMsg (.turnComplete turnId)) =
      { scan with activeSegment := some { turnId := some turnId } } := by
    simp [step, hactive]
  have hsegment : (turnSegment host turnId inner).turnId = some turnId := turnId_foldl rfl _
  have hcompatible : turnIdsAreCompatible (some turnId) (some turnId) := by
    simp [turnIdsAreCompatible]
  rw [turnItems, reverse_cons, reverse_append, reverse_singleton,
    singleton_append, cons_append, scanOlder, hcomplete, isComplete_of_none (by exact hbase)]
  have hscan := scanOlder_inner host
    { scan with activeSegment := some { turnId := some turnId } } inner
    (.eventMsg (.turnComplete turnId) :: newer) rfl hbase hinner
  rw [scanOlder_append _ _ (by rw [hscan]; exact isComplete_of_none hbase), hscan]
  simp only [scanOlder, step]
  rw [← turnSegment, hsegment, if_pos hcompatible]
  simp [lastCheckpoint, lastCheckpoint_append, RolloutItem.checkpoint, Function.comp_def, hactive]

/-! ### The transcript of a list of items -/

/-- What an item records, outside of compactions and rollbacks. -/
def RolloutItem.records (host : Host) (policy : TruncationPolicy) :
    RolloutItem σ → List ResponseItem
  | .responseItem item => recorded host policy item
  | .interAgentCommunication communication =>
    recorded host policy communication.toModelInputItem
  | _ => []

@[simp] theorem RolloutItem.records_eventMsg (event : EventMsg) :
    (RolloutItem.eventMsg event : RolloutItem σ).records host policy = [] := rfl

def recordedItems (host : Host) (policy : TruncationPolicy) (items : List (RolloutItem σ)) :
    List ResponseItem := items.flatMap (·.records host policy)

/-- The transcript the items leave: what they record after their newest checkpoint. -/
def transcript (host : Host) (policy : TruncationPolicy) (items : List (RolloutItem σ)) :
    List ResponseItem :=
  match lastCheckpoint items with
  | some (history, after) => history ++ recordedItems host policy after
  | none => recordedItems host policy items

/-- The item is a compaction without a checkpoint. -/
def RolloutItem.isLegacyCompaction (item : RolloutItem σ) : Bool :=
  item.isCompacted && !item.isCheckpoint

/-- The replay of items without rollbacks and legacy compactions. -/
theorem foldl_replayItem (history : List ResponseItem)
    (hitems : ∀ item ∈ items, item.isRollback = false ∧ item.isLegacyCompaction = false) :
    items.foldl (replayItem host policy) history =
      match lastCheckpoint items with
      | some (base, after) => base ++ recordedItems host policy after
      | none => history ++ recordedItems host policy items := by
  induction items generalizing history with
  | nil => simp [lastCheckpoint, recordedItems]
  | cons item items ih =>
    obtain ⟨hrollback, hlegacy⟩ := hitems item mem_cons_self
    have hrest := fun other hother => hitems other (mem_cons_of_mem item hother)
    rw [foldl_cons, ih _ hrest, lastCheckpoint]
    cases lastCheckpoint items with
    | some found => rfl
    | none =>
      cases hcheckpoint : item.checkpoint with
      | some base =>
        cases item with
        | compacted compacted =>
          simp only [RolloutItem.checkpoint] at hcheckpoint
          simp [replayItem, hcheckpoint]
        | _ => cases hcheckpoint
      | none =>
        -- without a checkpoint the item only adds what it records
        have hadd : replayItem host policy history item = history ++ item.records host policy := by
          cases item with
          | compacted compacted =>
            simp [RolloutItem.isLegacyCompaction, RolloutItem.isCompacted,
              RolloutItem.isCheckpoint, hcheckpoint] at hlegacy
          | eventMsg event =>
            cases event with
            | threadRolledBack numTurns => cases hrollback
            | _ => simp [replayItem]
          | _ => simp [replayItem, RolloutItem.records]
        simp [hadd, recordedItems]

/-- A checkpoint makes the history before it irrelevant. -/
theorem foldl_replayItem_of_checkpoint {items : List (RolloutItem σ)}
    (h : items.any RolloutItem.isCheckpoint) (history history' : List ResponseItem) :
    items.foldl (replayItem host policy) history =
      items.foldl (replayItem host policy) history' := by
  induction items generalizing history history' with
  | nil => cases h
  | cons item items ih =>
    rw [any_cons, or_eq_true] at h
    rcases h with h | h
    · cases item with
      | compacted compacted =>
        obtain ⟨base, hbase⟩ := isSome_iff_exists.mp h
        simp only [RolloutItem.checkpoint] at hbase
        simp [replayItem, hbase]
      | _ => cases h
    · exact ih h _ _

/-- Truncation leaves instruction messages and context updates alone. -/
theorem isUserTurnBoundary_processItem (item : ResponseItem) :
    isUserTurnBoundary host.toDecoders (processItem host policy item) =
      isUserTurnBoundary host.toDecoders item := by
  cases item <;> rfl

/-- The instruction messages of the transcript are those of the log. -/
theorem countP_records :
    (item.records host policy).countP (isUserTurnBoundary host.toDecoders) =
      if item.isInstruction host then 1 else 0 := by
  have hrecorded : ∀ item : ResponseItem,
      (recorded host policy item).countP (isUserTurnBoundary host.toDecoders) =
        if isUserTurnBoundary host.toDecoders item then 1 else 0 := by
    intro item
    cases hboundary : isUserTurnBoundary host.toDecoders item with
    | true =>
      -- an instruction message is never left out
      have hapi : isApiMessage item := by
        cases item with
        | message id role content phase metadata =>
          simp only [isUserTurnBoundary, or_eq_true, and_eq_true, beq_iff_eq]
            at hboundary
          rcases hboundary with ⟨rfl, -⟩ | ⟨rfl, -⟩ <;> rfl
        | agentMessage author recipient content metadata => rfl
        | _ => cases hboundary
      simp [recorded, hapi, isUserTurnBoundary_processItem, hboundary]
    | false =>
      cases hapi : isApiMessage item <;>
        simp [recorded, isUserTurnBoundary_processItem, hboundary]
  cases item with
  | responseItem item => exact hrecorded item
  | interAgentCommunication communication => exact hrecorded communication.toModelInputItem
  | _ => rfl

theorem countP_recordedItems :
    (recordedItems host policy items).countP (isUserTurnBoundary host.toDecoders) =
      items.countP (·.isInstruction host) := by
  induction items with
  | nil => rfl
  | cons item items ih =>
    have hcons : recordedItems host policy (item :: items) =
        item.records host policy ++ recordedItems host policy items := rfl
    rw [hcons, countP_append, countP_records, ih, countP_cons, Nat.add_comm]

end Codex.Rollout
