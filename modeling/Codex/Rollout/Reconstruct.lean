import Codex.Context.History

namespace Codex.Rollout

open Context ContextManager

/-!
# Reconstructing a thread from its rollout

A rollout is the persisted log of a thread. Resuming scans it from the newest item to the oldest,
for a replacement-history checkpoint and the settings of the last turn, and replays what follows
the checkpoint.

* `RolloutItem` — the entries of the log.
* `ReverseScan.step`, `reverseScan` — the scan, with the turn segment it is collecting.
* `Replay.step` — the replay of one entry.
* `reconstructHistoryFromRollout` — both, as the session runs them.

`num_turns` and the pending count are natural numbers: a slice is shorter than `usize::MAX`, so
that a saturated count skips as many segments as the exact one.
-/

/-! ### The log -/

/-- The settings of a turn. The reconstruction reads four of them; `settings` are the others. -/
structure TurnContextItem (σ : Type) where
  turnId : Option Text
  model : Text
  compHash : Option Text
  realtimeActive : Option Bool
  settings : σ

structure CompactedItem where
  message : Text
  replacementHistory : Option (List ResponseItem)
  windowId : Option ℕ

/-- A message of another agent, with what of it becomes visible to the model. -/
structure InterAgentCommunication where
  author : Text
  recipient : Text
  content : Text
  encryptedContent : Option Text
  metadata : Option ResponseItemMetadata
  triggerTurn : Bool

/-- The events the reconstruction tells apart. -/
inductive EventMsg where
  | threadRolledBack (numTurns : ℕ)
  | turnComplete (turnId : Text)
  | turnAborted (turnId : Option Text)
  | turnStarted (turnId : Text)
  | userMessage
  | other

inductive RolloutItem (σ : Type) where
  | sessionMeta
  | responseItem (item : ResponseItem)
  | interAgentCommunication (communication : InterAgentCommunication)
  | compacted (compacted : CompactedItem)
  | turnContext (context : TurnContextItem σ)
  | eventMsg (event : EventMsg)

def InterAgentCommunication.toModelInputItem (communication : InterAgentCommunication) :
    ResponseItem := .agentMessage communication.author communication.recipient
    [match communication.encryptedContent with
      | some encryptedContent => .encryptedContent encryptedContent
      | none => .inputText communication.content]
    communication.metadata

structure PreviousTurnSettings where
  model : Text
  compHash : Option Text
  realtimeActive : Option Bool

variable {σ : Type}

def TurnContextItem.previousTurnSettings (context : TurnContextItem σ) : PreviousTurnSettings where
  model := context.model
  compHash := context.compHash
  realtimeActive := context.realtimeActive

/-! ### The reverse scan -/

inductive TurnReferenceContextItem (σ : Type) where
  /-- No turn context has been seen for this replay span yet. -/
  | neverSet
  /-- A previously established baseline was invalidated by later compaction. -/
  | cleared
  /-- The latest baseline established by this replay span. -/
  | latest (context : TurnContextItem σ)

def TurnReferenceContextItem.isNeverSet : TurnReferenceContextItem σ → Bool
  | .neverSet => true
  | _ => false

def TurnReferenceContextItem.isCleared : TurnReferenceContextItem σ → Bool
  | .cleared => true
  | _ => false

/-- Set a reference that is not set yet. -/
def TurnReferenceContextItem.orSet (reference new : TurnReferenceContextItem σ) :
    TurnReferenceContextItem σ :=
  if reference.isNeverSet then new else reference

structure ActiveReplaySegment (σ : Type) where
  turnId : Option Text := none
  countsAsUserTurn : Bool := false
  previousTurnSettings : Option PreviousTurnSettings := none
  referenceContextItem : TurnReferenceContextItem σ := .neverSet
  baseReplacementHistory : Option (List ResponseItem) := none
  windowId : Option ℕ := none

/-- The variables of the reverse scan. -/
structure ReverseScan (σ : Type) where
  baseReplacementHistory : Option (List ResponseItem)
  previousTurnSettings : Option PreviousTurnSettings
  referenceContextItem : TurnReferenceContextItem σ
  windowId : Option ℕ
  pendingRollbackTurns : ℕ
  /-- The items newer than the newest surviving checkpoint. -/
  rolloutSuffix : List (RolloutItem σ)
  activeSegment : Option (ActiveReplaySegment σ)

variable (segment : ActiveReplaySegment σ) (host : Host) (rolloutItems : List (RolloutItem σ))
  (scan : ReverseScan σ) (policy : TruncationPolicy)

/-- The scan of `rolloutItems` before its first step. -/
def ReverseScan.init : ReverseScan σ where
  baseReplacementHistory := none
  previousTurnSettings := none
  referenceContextItem := .neverSet
  windowId := none
  pendingRollbackTurns := 0
  rolloutSuffix := rolloutItems
  activeSegment := none

def turnIdsAreCompatible (activeTurnId itemTurnId : Option Text) : Bool :=
  activeTurnId.all fun turnId => itemTurnId.all fun itemTurnId => itemTurnId == turnId

/-- Take over what a finished segment established. A segment is skipped while a rollback is
    pending, and a user turn then counts against it. -/
def finalizeActiveSegment : ReverseScan σ :=
  if 0 < scan.pendingRollbackTurns then
    if segment.countsAsUserTurn then
      { scan with pendingRollbackTurns := scan.pendingRollbackTurns - 1 }
    else scan
  else
    { scan with
      baseReplacementHistory := scan.baseReplacementHistory.or segment.baseReplacementHistory
      windowId := scan.windowId.or segment.windowId
      previousTurnSettings :=
        if segment.countsAsUserTurn then
          scan.previousTurnSettings.or segment.previousTurnSettings
        else scan.previousTurnSettings
      referenceContextItem :=
        if segment.countsAsUserTurn || segment.referenceContextItem.isCleared then
          scan.referenceContextItem.orSet segment.referenceContextItem
        else scan.referenceContextItem }

/-- The segment after a compaction: looking backward, it clears any older baseline. -/
def ActiveReplaySegment.onCompacted (compacted : CompactedItem) : ActiveReplaySegment σ :=
  { segment with
    windowId := segment.windowId.or compacted.windowId
    referenceContextItem := segment.referenceContextItem.orSet .cleared
    baseReplacementHistory :=
      segment.baseReplacementHistory.or compacted.replacementHistory }

/-- The segment after a turn context, which counts if it belongs to the same turn. -/
def ActiveReplaySegment.onTurnContext (context : TurnContextItem σ) : ActiveReplaySegment σ :=
  let turnId := segment.turnId.or context.turnId
  if turnIdsAreCompatible turnId context.turnId then
    { segment with
      turnId := turnId
      previousTurnSettings := some context.previousTurnSettings
      referenceContextItem := segment.referenceContextItem.orSet (.latest context) }
  else { segment with turnId := turnId }

/-- One step of the reverse scan, at an item with the newer items behind it. -/
def ReverseScan.step (newer : List (RolloutItem σ)) : RolloutItem σ → ReverseScan σ
  | .compacted compacted =>
    let segment := scan.activeSegment.getD {}
    { scan with
      activeSegment := some (segment.onCompacted compacted)
      rolloutSuffix :=
        if segment.baseReplacementHistory.isNone && compacted.replacementHistory.isSome then newer
        else scan.rolloutSuffix }
  | .eventMsg (.threadRolledBack numTurns) =>
    { scan with pendingRollbackTurns := scan.pendingRollbackTurns + numTurns }
  | .eventMsg (.turnComplete turnId) =>
    let segment := scan.activeSegment.getD {}
    { scan with activeSegment := some { segment with turnId := segment.turnId.or (some turnId) } }
  | .eventMsg (.turnAborted turnId) =>
    match scan.activeSegment, turnId with
    | some segment, turnId =>
      { scan with activeSegment := some { segment with turnId := segment.turnId.or turnId } }
    | none, some turnId => { scan with activeSegment := some { turnId := some turnId } }
    | none, none => scan
  | .eventMsg .userMessage =>
    let segment := scan.activeSegment.getD {}
    { scan with activeSegment := some { segment with countsAsUserTurn := true } }
  | .turnContext context =>
    let segment := scan.activeSegment.getD {}
    { scan with activeSegment := some (segment.onTurnContext context) }
  | .eventMsg (.turnStarted turnId) =>
    match scan.activeSegment with
    | some segment =>
      -- the oldest boundary of the active segment
      if turnIdsAreCompatible segment.turnId (some turnId) then
        finalizeActiveSegment segment { scan with activeSegment := none }
      else scan
    | none => scan
  | .responseItem item =>
    let segment := scan.activeSegment.getD {}
    { scan with
      activeSegment := some { segment with
        countsAsUserTurn :=
          segment.countsAsUserTurn || isUserTurnBoundary host.toDecoders item } }
  | .interAgentCommunication _ =>
    let segment := scan.activeSegment.getD {}
    { scan with activeSegment := some { segment with countsAsUserTurn := true } }
  | .eventMsg .other => scan
  | .sessionMeta => scan

/-- Everything the resume needs is known, and the scan stops. -/
def ReverseScan.isComplete : Bool :=
  scan.baseReplacementHistory.isSome && scan.previousTurnSettings.isSome &&
    !scan.referenceContextItem.isNeverSet

/-- The loop over the older items, newest first. -/
def scanOlder (host : Host) :
    List (RolloutItem σ) → List (RolloutItem σ) → ReverseScan σ → ReverseScan σ
  | [], _, scan => scan
  | item :: older, newer, scan =>
    let scan := scan.step host newer item
    if scan.isComplete then scan else scanOlder host older (item :: newer) scan

/-- The segment that is still open when the loop ends is finished as well. -/
def finalizeLast : ReverseScan σ :=
  match scan.activeSegment with
  | some segment => finalizeActiveSegment segment { scan with activeSegment := none }
  | none => scan

def reverseScan : ReverseScan σ :=
  finalizeLast (scanOlder host rolloutItems.reverse [] (.init rolloutItems))

/-! ### The replay -/

/-- The variables of the forward replay. -/
structure Replay (σ : Type) where
  history : ContextManager (TurnContextItem σ)
  sawLegacyCompactionWithoutReplacementHistory : Bool

/-- The replay before its first step, on the base that the scan found. -/
def Replay.init (base : Option (List ResponseItem)) : Replay σ where
  history :=
    match base with
    | some baseReplacementHistory => new.replace baseReplacementHistory
    | none => .new
  sawLegacyCompactionWithoutReplacementHistory := false

/-- The replay of one item. -/
def Replay.step (replay : Replay σ) : RolloutItem σ → Replay σ
  | .responseItem item =>
    { replay with history := replay.history.recordItems host policy [item] }
  | .interAgentCommunication communication =>
    { replay with
      history := replay.history.recordItems host policy [communication.toModelInputItem] }
  | .compacted compacted =>
    match compacted.replacementHistory with
    | some replacementHistory =>
      { replay with history := replay.history.replace replacementHistory }
    | none =>
      -- a legacy compaction: the history is rebuilt from the messages of the user
      let userMessages := collectUserMessages host.toDecoders replay.history.items
      { history := replay.history.replace (buildCompactedHistory [] userMessages compacted.message)
        sawLegacyCompactionWithoutReplacementHistory := true }
  | .eventMsg (.threadRolledBack numTurns) =>
    { replay with history := replay.history.dropLastNUserTurns host numTurns }
  | .eventMsg _ | .turnContext _ | .sessionMeta => replay

/-! ### The reconstruction -/

structure RolloutReconstruction (σ : Type) where
  history : List ResponseItem
  previousTurnSettings : Option PreviousTurnSettings
  referenceContextItem : Option (TurnContextItem σ)
  windowId : ℕ

/-- The number of compactions, for rollouts that do not number their windows. -/
def fallbackWindowId : ℕ :=
  rolloutItems.countP fun
    | .compacted _ => true
    | _ => false

def reconstructHistoryFromRollout (rolloutItems : List (RolloutItem σ)) : RolloutReconstruction σ :=
  let scan := reverseScan host rolloutItems
  let replay := scan.rolloutSuffix.foldl (Replay.step host policy)
    (.init scan.baseReplacementHistory)
  { history := replay.history.items
    previousTurnSettings := scan.previousTurnSettings
    referenceContextItem :=
      if replay.sawLegacyCompactionWithoutReplacementHistory then none
      else
        match scan.referenceContextItem with
        | .latest context => some context
        | _ => none
    windowId := scan.windowId.getD (fallbackWindowId rolloutItems) }

/-! ### The transcript of a log

The replay on transcripts alone: what a log means, read from its oldest item on. -/

/-- The transcript after one more item of the log. -/
def replayItem (history : List ResponseItem) : RolloutItem σ → List ResponseItem
  | .responseItem item => history ++ recorded host policy item
  | .interAgentCommunication communication =>
    history ++ recorded host policy communication.toModelInputItem
  | .compacted compacted =>
    match compacted.replacementHistory with
    | some replacementHistory => replacementHistory
    | none =>
      buildCompactedHistory [] (collectUserMessages host.toDecoders history) compacted.message
  | .eventMsg (.threadRolledBack numTurns) => history.take (rollbackCut host history numTurns)
  | .eventMsg _ | .turnContext _ | .sessionMeta => history

variable {host : Host} {policy : TruncationPolicy} (replay : Replay σ)

theorem Replay.items_step (item : RolloutItem σ) :
    (replay.step host policy item).history.items =
      replayItem host policy replay.history.items item := by
  cases item with
  | sessionMeta => rfl
  | turnContext context => rfl
  | responseItem item => simp [Replay.step, replayItem, recordItems]
  | interAgentCommunication communication =>
    simp [Replay.step, replayItem, recordItems]
  | compacted compacted =>
    cases h : compacted.replacementHistory <;>
      simp [Replay.step, replayItem, h, replace]
  | eventMsg event =>
    cases event with
    | threadRolledBack numTurns =>
      exact replay.history.items_dropLastNUserTurns_eq_take numTurns host
    | turnComplete turnId => rfl
    | turnAborted turnId => rfl
    | turnStarted turnId => rfl
    | userMessage => rfl
    | other => rfl

theorem Replay.items_foldl (items : List (RolloutItem σ)) :
    (items.foldl (Replay.step host policy) replay).history.items =
      items.foldl (replayItem host policy) replay.history.items := by
  induction items generalizing replay with
  | nil => rfl
  | cons item items ih => rw [List.foldl_cons, ih, Replay.items_step, List.foldl_cons]

theorem Replay.items_init (base : Option (List ResponseItem)) :
    (Replay.init base : Replay σ).history.items = base.getD [] := by
  cases base <;> rfl

/-- The reconstructed transcript is the replay of the suffix on the base that the scan found. -/
theorem history_reconstruct (rolloutItems : List (RolloutItem σ)) :
    (reconstructHistoryFromRollout host policy rolloutItems).history =
      (reverseScan host rolloutItems).rolloutSuffix.foldl (replayItem host policy)
        ((reverseScan host rolloutItems).baseReplacementHistory.getD []) := by
  rw [← Replay.items_init, ← Replay.items_foldl]
  rfl

end Codex.Rollout
