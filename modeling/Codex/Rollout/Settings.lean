import Codex.Rollout.Rollback

namespace Codex.Rollout

open Context ActiveReplaySegment List TurnReferenceContextItem Data

/-!
# The settings of a resumed thread

The history counts a rollback in instruction messages, the scan for the settings in turns. A turn
that the user steered holds several messages, and the two counts part.

* `SteeredTurn` — a complete turn with its context and at least one instruction message.
* `provenance` — the replay with the turn of every item written next to it.
* `messagesLeft`, `turnsLeft` — what the rollbacks leave, counted in messages and in turns.
* `settings_of_newest_message_iff` — the settings are those of the newest message left exactly
  when both counts end in the same turn.
-/

variable {σ : Type} {host : Host} {policy : TruncationPolicy}

/-! ### Turns and rollbacks -/

/-- An item inside a turn that is neither a compaction nor a turn context. -/
structure RolloutItem.IsOrdinary (item : RolloutItem σ) : Prop where
  inner : item.isInner
  not_compacted : item.isCompacted = false
  not_context : ∀ context, item ≠ .turnContext context

/-- A complete turn with its own context and one or more instruction messages. -/
structure SteeredTurn (σ : Type) (host : Host) where
  turnId : Text
  before : List (RolloutItem σ)
  context : TurnContextItem σ
  after : List (RolloutItem σ)
  compatible : turnIdsAreCompatible (some turnId) context.turnId
  before_ordinary : ∀ item ∈ before, item.IsOrdinary
  after_ordinary : ∀ item ∈ after, item.IsOrdinary
  instructed : ∃ item ∈ before ++ after, item.isInstruction host

def SteeredTurn.inner (turn : SteeredTurn σ host) : List (RolloutItem σ) :=
  turn.before ++ .turnContext turn.context :: turn.after

/-- A turn, or a rollback between turns. -/
inductive Block (σ : Type) (host : Host) where
  | turn (turn : SteeredTurn σ host)
  | rollback (numTurns : ℕ)

def Block.items : Block σ host → List (RolloutItem σ)
  | .turn steered => turnItems steered.turnId steered.inner
  | .rollback numTurns => [rollbackItem numTurns]

/-- The rollout of turns and rollbacks. -/
def blockRollout (blocks : List (Block σ host)) : List (RolloutItem σ) := blocks.flatMap Block.items

theorem blockRollout_concat (blocks : List (Block σ host)) (block : Block σ host) :
    blockRollout (blocks ++ [block]) = blockRollout blocks ++ block.items := by
  simp [blockRollout]

/-! ### What the segment of a turn holds -/

variable (segment : ActiveReplaySegment σ)

theorem ActiveReplaySegment.absorb_ordinary {item : RolloutItem σ} (h : item.IsOrdinary) :
    (segment.absorb host item).previousTurnSettings = segment.previousTurnSettings ∧
      (segment.absorb host item).referenceContextItem = segment.referenceContextItem := by
  cases item with
  | compacted compacted => cases h.not_compacted
  | turnContext context => exact absurd rfl (h.not_context context)
  | eventMsg event => cases event <;> exact ⟨rfl, rfl⟩
  | _ => exact ⟨rfl, rfl⟩

theorem ActiveReplaySegment.foldl_ordinary (items : List (RolloutItem σ))
    (h : ∀ item ∈ items, item.IsOrdinary) :
    (items.foldl (·.absorb host) segment).previousTurnSettings = segment.previousTurnSettings ∧
      (items.foldl (·.absorb host) segment).referenceContextItem =
        segment.referenceContextItem := by
  induction items generalizing segment with
  | nil => exact ⟨rfl, rfl⟩
  | cons item items ih =>
    obtain ⟨hsettings, hreference⟩ := segment.absorb_ordinary (h item mem_cons_self)
    obtain ⟨hsettings', hreference'⟩ :=
      ih (segment.absorb host item) fun other hother => h other (mem_cons_of_mem _ hother)
    exact ⟨hsettings'.trans hsettings, hreference'.trans hreference⟩

namespace SteeredTurn

variable (turn : SteeredTurn σ host)

theorem isInner_inner : ∀ item ∈ turn.inner, item.isInner :=
  forall_mem_append.mpr ⟨fun item hbefore => (turn.before_ordinary item hbefore).inner,
    forall_mem_cons.mpr ⟨rfl, fun item hafter => (turn.after_ordinary item hafter).inner⟩⟩

/-- A turn without compactions has no checkpoint. -/
theorem isCompacted_inner : ∀ item ∈ turn.inner, item.isCompacted = false :=
  forall_mem_append.mpr ⟨fun item hbefore => (turn.before_ordinary item hbefore).not_compacted,
    forall_mem_cons.mpr ⟨rfl, fun item hafter => (turn.after_ordinary item hafter).not_compacted⟩⟩

/-- The segment of the turn counts as a user turn and carries the context of the turn. -/
theorem turnSegment_spec :
    (turnSegment host turn.turnId turn.inner).countsAsUserTurn ∧
    (turnSegment host turn.turnId turn.inner).previousTurnSettings =
      some turn.context.previousTurnSettings ∧
    (turnSegment host turn.turnId turn.inner).referenceContextItem = .latest turn.context := by
  refine ⟨?_, ?_⟩
  · obtain ⟨item, hitem, hinstruction⟩ := turn.instructed
    refine countsAsUserTurn_foldl _ (.inr ⟨item, ?_, hinstruction⟩)
    simp only [inner, mem_reverse, mem_append] at hitem ⊢
    tauto
  · -- the items after the context are absorbed first
    let newer : ActiveReplaySegment σ :=
      turn.after.reverse.foldl (·.absorb host) { turnId := some turn.turnId }
    obtain ⟨-, hreference⟩ : newer.previousTurnSettings = none ∧
        newer.referenceContextItem = .neverSet :=
      foldl_ordinary _ _ fun item hitem =>
        turn.after_ordinary item (mem_reverse.mp hitem)
    have hturnId : newer.turnId = some turn.turnId := turnId_foldl rfl _
    have hcontext : newer.onTurnContext turn.context =
        { newer with
          turnId := some turn.turnId
          previousTurnSettings := some turn.context.previousTurnSettings
          referenceContextItem := .latest turn.context } := by
      simp [onTurnContext, hturnId, turn.compatible, hreference, orSet, isNeverSet]
    have hsegment : turnSegment host turn.turnId turn.inner =
        turn.before.reverse.foldl (·.absorb host) (newer.onTurnContext turn.context) := by
      simp [turnSegment, inner, newer, absorb]
    rw [hsegment, hcontext]
    exact foldl_ordinary _ _ fun item hitem =>
      turn.before_ordinary item (mem_reverse.mp hitem)

end SteeredTurn

/-! ### The scan of turns and rollbacks -/

/-- The log of the turns: every rollback takes back as many turns. -/
def Block.turnEvent : Block σ host → Data.UndoEvent (SteeredTurn σ host)
  | .turn steered => .push steered
  | .rollback numTurns => .undo numTurns

/-- The turns left when every rollback takes back as many turns, newest first. -/
def turnsLeft (blocks : List (Block σ host)) : List (SteeredTurn σ host) :=
  undoRun [] (blocks.map Block.turnEvent)

/-- The scan between two blocks: it has found the context of `known`, and still has to skip
    `pending` turns. -/
structure ReverseScan.AtRest (suffix : List (RolloutItem σ)) (pending : ℕ)
    (known : Option (SteeredTurn σ host)) (scan : ReverseScan σ) : Prop where
  active : scan.activeSegment = none
  base : scan.baseReplacementHistory = none
  suffix_eq : scan.rolloutSuffix = suffix
  pending_eq : scan.pendingRollbackTurns = pending
  settings : scan.previousTurnSettings = known.map (·.context.previousTurnSettings)
  reference : scan.referenceContextItem = known.elim .neverSet (.latest ·.context)

theorem lastCheckpoint_of_isCompacted {items : List (RolloutItem σ)}
    (h : ∀ item ∈ items, item.isCompacted = false) : lastCheckpoint items = none := by
  rw [← Option.not_isSome_iff_eq_none, isSome_lastCheckpoint, any_eq_true]
  rintro ⟨item, hitem, hcheckpoint⟩
  cases item with
  | compacted compacted => cases h _ hitem
  | _ => cases hcheckpoint

theorem Block.isCompacted_items (block : Block σ host) :
    ∀ item ∈ block.items, item.isCompacted = false := by
  cases block with
  | rollback numTurns => exact forall_mem_singleton.mpr rfl
  | turn turn =>
    exact forall_mem_cons.mpr ⟨rfl, forall_mem_append.mpr
      ⟨turn.isCompacted_inner, forall_mem_singleton.mpr rfl⟩⟩

namespace ReverseScan.AtRest

variable {suffix : List (RolloutItem σ)} {pending : ℕ} {known : Option (SteeredTurn σ host)}
  {scan : ReverseScan σ}

/-- A rollback adds to the turns to skip. -/
theorem rollback (hscan : scan.AtRest suffix pending known) (newer : List (RolloutItem σ))
    (numTurns : ℕ) :
    (scanOlder host (Block.rollback numTurns : Block σ host).items.reverse newer scan).AtRest
      suffix (pending + numTurns) known := by
  have hstep : scanOlder host (Block.rollback numTurns : Block σ host).items.reverse newer scan =
      { scan with pendingRollbackTurns := scan.pendingRollbackTurns + numTurns } := ite_self _
  rw [hstep]
  exact ⟨hscan.active, hscan.base, hscan.suffix_eq, by rw [← hscan.pending_eq],
    hscan.settings, hscan.reference⟩

/-- The scan of a turn is the scan of its segment. -/
theorem scanOlder_turn (hscan : scan.AtRest suffix pending known)
    (newer : List (RolloutItem σ)) (turn : SteeredTurn σ host) :
    scanOlder host (Block.turn turn).items.reverse newer scan =
      finalizeActiveSegment (turnSegment host turn.turnId turn.inner) scan := by
  have hnone := lastCheckpoint_of_isCompacted (Block.turn turn).isCompacted_items
  rw [Block.items] at hnone ⊢
  rw [scanOlder_turnItems turn.turnId newer hscan.active hscan.base turn.isInner_inner, hnone]
  rfl

/-- A turn is skipped while a rollback is pending. -/
theorem turn_succ (hscan : scan.AtRest suffix (pending + 1) known)
    (newer : List (RolloutItem σ)) (turn : SteeredTurn σ host) :
    (scanOlder host (Block.turn turn).items.reverse newer scan).AtRest suffix pending known := by
  rw [hscan.scanOlder_turn, finalizeActiveSegment,
    if_pos (by rw [hscan.pending_eq]; exact Nat.succ_pos _), if_pos turn.turnSegment_spec.1]
  exact ⟨hscan.active, hscan.base, hscan.suffix_eq, by simp [hscan.pending_eq], hscan.settings,
    hscan.reference⟩

/-- The first turn that is not skipped gives its context. -/
theorem turn_zero (hscan : scan.AtRest suffix 0 known) (newer : List (RolloutItem σ))
    (turn : SteeredTurn σ host) :
    (scanOlder host (Block.turn turn).items.reverse newer scan).AtRest suffix 0
      (known.or (some turn)) := by
  obtain ⟨hcounts, hsettings, hreference⟩ := turn.turnSegment_spec
  have hbase : (turnSegment host turn.turnId turn.inner).baseReplacementHistory = none := by
    rw [turnSegment, baseReplacementHistory_foldl]
    intro item hitem
    have hitem := turn.isCompacted_inner item (mem_reverse.mp hitem)
    cases item with
    | compacted compacted => cases hitem
    | _ => rfl
  rw [hscan.scanOlder_turn, finalizeActiveSegment, if_neg (by simp [hscan.pending_eq])]
  refine ⟨hscan.active, ?_, hscan.suffix_eq, hscan.pending_eq, ?_, ?_⟩
  · simp [hscan.base, hbase]
  · simp only [hcounts, hscan.settings, hsettings]
    cases known <;> rfl
  · simp only [hcounts, hscan.reference, hreference]
    cases known <;> rfl

/-- **The scan finds the newest turn that the rollbacks leave.** -/
theorem blocks (blocks : List (Block σ host)) (newer : List (RolloutItem σ))
    (hscan : scan.AtRest suffix pending known) :
    ∃ rest, (scanOlder host (blockRollout blocks).reverse newer scan).AtRest suffix rest
      (known.or (newestLeft pending (blocks.map Block.turnEvent).reverse)) := by
  induction blocks using reverseRecOn generalizing newer scan pending known with
  | nil => exact ⟨pending, by simpa [blockRollout, scanOlder, newestLeft] using hscan⟩
  | append_singleton blocks block ih =>
    -- a scan at rest has no base, so it goes on with the older blocks
    have hgo : (scanOlder host block.items.reverse newer scan).baseReplacementHistory = none →
        scanOlder host (blockRollout (blocks ++ [block])).reverse newer scan =
          scanOlder host (blockRollout blocks).reverse (block.items ++ newer)
            (scanOlder host block.items.reverse newer scan) := by
      intro hbase
      rw [blockRollout_concat, reverse_append,
        scanOlder_append _ _ (isComplete_of_none hbase), reverse_reverse]
    rw [map_append, reverse_append]
    cases block with
    | rollback numTurns =>
      have hrest := hscan.rollback newer numTurns
      rw [hgo hrest.base]
      exact ih _ hrest
    | turn turn =>
      cases pending with
      | succ pending =>
        have hrest := hscan.turn_succ newer turn
        rw [hgo hrest.base]
        exact ih _ hrest
      | zero =>
        have hrest := hscan.turn_zero newer turn
        rw [hgo hrest.base]
        obtain ⟨rest, hfinal⟩ := ih ((Block.turn turn).items ++ newer) hrest
        refine ⟨rest, ?_⟩
        have hfound : (known.or (some turn)).or
            (newestLeft 0 (blocks.map Block.turnEvent).reverse) = known.or (some turn) := by
          cases known <;> rfl
        rw [hfound] at hfinal
        exact hfinal

end ReverseScan.AtRest

/-! ### The turns of the messages that are left -/

/-- The log of the messages: a turn writes one entry for each of its instruction messages, and a
    rollback takes back as many messages. -/
def Block.messageEvents : Block σ host → List (Data.UndoEvent (SteeredTurn σ host))
  | .turn steered =>
    (replicate (steered.inner.countP (·.isInstruction host)) steered).map .push
  | .rollback numTurns => [.undo numTurns]

variable (policy) (blocks : List (Block σ host))

/-- The turns of the messages left when every rollback takes back as many messages, newest
    first. -/
def messagesLeft : List (SteeredTurn σ host) := undoRun [] (blocks.flatMap Block.messageEvents)

/-- The replay of a block on a transcript with the turn of every item. -/
def Block.replay (history : List (SteeredTurn σ host × ResponseItem)) :
    Block σ host → List (SteeredTurn σ host × ResponseItem)
  | .turn steered => history ++ (recordedItems host policy steered.inner).map (steered, ·)
  | .rollback numTurns => history.take (rollbackCut host (history.map Prod.snd) numTurns)

/-- The transcript, with the turn in which every item was recorded. -/
def provenance : List (SteeredTurn σ host × ResponseItem) := blocks.foldl (Block.replay policy) []

/-- The turn in which the newest instruction message of the transcript was recorded. -/
def newestMessageTurn : Option (SteeredTurn σ host) :=
  (((provenance policy blocks).filter fun entry =>
    isUserTurnBoundary host.toDecoders entry.2).getLast?).map Prod.fst

/-- Without its turns, the provenance is the transcript of the log. -/
theorem provenance_snd : (provenance policy blocks).map Prod.snd =
    (blockRollout blocks).foldl (replayItem host policy) [] := by
  induction blocks using reverseRecOn with
  | nil => rfl
  | append_singleton blocks block ih =>
    rw [blockRollout_concat, foldl_append, ← ih, provenance, foldl_concat]
    cases block with
    | rollback numTurns => exact map_take
    | turn turn =>
      have hplain : ∀ item ∈ (Block.turn turn).items,
          item.isRollback = false ∧ item.isLegacyCompaction = false := by
        have hrollback : ∀ item ∈ (Block.turn turn).items, item.isRollback = false :=
          forall_mem_cons.mpr ⟨rfl, forall_mem_append.mpr ⟨fun item hitem =>
            RolloutItem.isRollback_of_isInner (turn.isInner_inner item hitem),
            forall_mem_singleton.mpr rfl⟩⟩
        intro item hitem
        have hcompacted := (Block.turn turn).isCompacted_items item hitem
        exact ⟨hrollback item hitem, by simp [RolloutItem.isLegacyCompaction, hcompacted]⟩
      rw [foldl_replayItem _ _ hplain,
        lastCheckpoint_of_isCompacted (Block.turn turn).isCompacted_items]
      simp [Block.replay, Block.items, turnItems, recordedItems, provenance]

/-- **The messages left are those of the message log**: their turns, oldest first. -/
theorem provenance_messages :
    (((provenance policy blocks).filter fun entry =>
      isUserTurnBoundary host.toDecoders entry.2).map Prod.fst).reverse = messagesLeft blocks := by
  induction blocks using reverseRecOn with
  | nil => rfl
  | append_singleton blocks block ih =>
    rw [messagesLeft, flatMap_append, undoRun_append, ← messagesLeft, ← ih, provenance,
      foldl_concat, ← provenance]
    cases block with
    | turn turn =>
      have hmessages : (((recordedItems host policy turn.inner).map (turn, ·)).filter fun entry =>
          isUserTurnBoundary host.toDecoders entry.2).map Prod.fst =
            replicate (turn.inner.countP (·.isInstruction host)) turn := by
        rw [filter_map, map_map, eq_replicate_iff]
        refine ⟨?_, by simp⟩
        have hcount : (recordedItems host policy turn.inner).countP _ = _ :=
          countP_recordedItems turn.inner
        rw [length_map, ← hcount, countP_eq_length_filter]
        rfl
      rw [flatMap_singleton, Block.messageEvents, undoRun_push, Block.replay,
        filter_append, map_append, hmessages, reverse_append]
    | rollback numTurns =>
      -- the rollback cuts off exactly the newest messages
      let history := provenance policy blocks
      have hcount : (history.take (rollbackCut host (history.map Prod.snd) numTurns)).countP
          (fun entry => isUserTurnBoundary host.toDecoders entry.2) =
            history.countP (fun entry => isUserTurnBoundary host.toDecoders entry.2) -
              numTurns := by
        have hdrop := (⟨history.map Prod.snd, 0, none⟩ :
          ContextManager Unit).countP_dropLastNUserTurns numTurns host
        rw [ContextManager.items_dropLastNUserTurns_eq_take, ← map_take, countP_map,
          countP_map] at hdrop
        exact hdrop
      show ((history.take (rollbackCut host (history.map Prod.snd) numTurns)).filter _ |>.map
        Prod.fst).reverse = drop numTurns _
      rw [filter_take_eq, hcount, countP_eq_length_filter, map_take, ← length_map, reverse_take_sub]

theorem newestMessageTurn_eq : newestMessageTurn policy blocks = (messagesLeft blocks).head? := by
  rw [← provenance_messages policy blocks, head?_reverse, getLast?_map, newestMessageTurn]

/-! ### The reconstruction -/

/-- The scan of the whole rollout ends with the newest turn left. -/
theorem reverseScan_blockRollout :
    ∃ rest, (reverseScan host (blockRollout blocks)).AtRest (blockRollout blocks) rest
      (turnsLeft blocks).head? := by
  have hinit : (ReverseScan.init (blockRollout blocks)).AtRest (blockRollout blocks) 0
      (none : Option (SteeredTurn σ host)) := ⟨rfl, rfl, rfl, rfl, rfl, rfl⟩
  obtain ⟨rest, hrest⟩ := hinit.blocks blocks []
  rw [newestLeft_reverse] at hrest
  refine ⟨rest, ?_⟩
  rw [reverseScan, finalizeLast, hrest.active]
  exact hrest

/-- Without compactions no legacy compaction is seen. -/
theorem Replay.sawLegacy_foldl (replay : Replay σ) (items : List (RolloutItem σ))
    (h : ∀ item ∈ items, item.isCompacted = false) :
    (items.foldl (Replay.step host policy) replay).sawLegacyCompactionWithoutReplacementHistory =
      replay.sawLegacyCompactionWithoutReplacementHistory := by
  induction items generalizing replay with
  | nil => rfl
  | cons item items ih =>
    rw [foldl_cons, ih _ fun other hother => h other (mem_cons_of_mem _ hother)]
    have hitem := h item mem_cons_self
    cases item with
    | compacted compacted => cases hitem
    | eventMsg event => cases event <;> rfl
    | _ => rfl

/-- The history and the metadata of the reconstruction. -/
theorem reconstruct_blockRollout :
    (reconstructHistoryFromRollout host policy (blockRollout blocks)).history =
        (blockRollout blocks).foldl (replayItem host policy) [] ∧
      (reconstructHistoryFromRollout host policy (blockRollout blocks)).previousTurnSettings =
        (turnsLeft blocks).head?.map (·.context.previousTurnSettings) ∧
      (reconstructHistoryFromRollout host policy (blockRollout blocks)).referenceContextItem =
        (turnsLeft blocks).head?.map (·.context) := by
  obtain ⟨rest, hrest⟩ := reverseScan_blockRollout blocks
  refine ⟨?_, hrest.settings, ?_⟩
  · rw [history_reconstruct, hrest.suffix_eq, hrest.base]
    rfl
  · have hcompacted : ∀ item ∈ blockRollout blocks, item.isCompacted = false := by
      intro item hitem
      obtain ⟨block, -, hitem⟩ := mem_flatMap.mp hitem
      exact block.isCompacted_items item hitem
    simp only [reconstructHistoryFromRollout, hrest.suffix_eq, hrest.reference,
      Replay.sawLegacy_foldl _ _ _ hcompacted]
    cases (turnsLeft blocks).head? <;> rfl

/-- **Both counts end in the same turn**: if a message is left, the newest turn left when every
    rollback takes back whole turns has the context of the turn of the newest message left when
    every rollback takes back messages. -/
def SameCut : Prop :=
  ∀ turn, (messagesLeft blocks).head? = some turn →
    ∃ kept, (turnsLeft blocks).head? = some kept ∧ kept.context = turn.context

/-- **Whose settings a resumed thread takes.** `provenance` writes the turn of every item next to
    the reconstructed transcript. The settings and the reference context are those of the turn of
    the newest instruction message left exactly when both counts end in the same turn. -/
theorem settings_of_newest_message_iff (policy : TruncationPolicy) (blocks : List (Block σ host)) :
    (provenance policy blocks).map Prod.snd =
        (reconstructHistoryFromRollout host policy (blockRollout blocks)).history ∧
      ((∀ turn, newestMessageTurn policy blocks = some turn →
          (reconstructHistoryFromRollout host policy (blockRollout blocks)).previousTurnSettings =
              some turn.context.previousTurnSettings ∧ (reconstructHistoryFromRollout host policy
            (blockRollout blocks)).referenceContextItem = some turn.context) ↔ SameCut blocks) := by
  obtain ⟨hhistory, hsettings, hreference⟩ := reconstruct_blockRollout policy blocks
  refine ⟨(provenance_snd policy blocks).trans hhistory.symm, ?_⟩
  simp only [newestMessageTurn_eq, hsettings, hreference]
  refine forall₂_congr fun turn hturn => ?_
  constructor
  · rintro ⟨-, hcontext⟩
    exact Option.map_eq_some_iff.mp hcontext
  · rintro ⟨kept, hkept, hcontext⟩
    rw [hkept, Option.map_some, Option.map_some, hcontext]
    exact ⟨rfl, rfl⟩

/-- A turn under the given model, with a message of the user for each of the given images. -/
def sampleTurn (model first : Text) (others : List Text) : SteeredTurn Unit plainHost where
  turnId := model
  before := []
  context := ⟨some model, model, none, none, ()⟩
  after := (first :: others).map fun imageUrl => .responseItem (userImage imageUrl)
  compatible := by simp [turnIdsAreCompatible]
  before_ordinary := by simp
  after_ordinary := by
    intro item hitem
    obtain ⟨imageUrl, -, rfl⟩ := mem_map.mp hitem
    exact ⟨rfl, rfl, fun context h => by cases h⟩
  instructed := ⟨.responseItem (userImage first), by simp, rfl⟩

/-- A turn, a steered turn of two messages, and a rollback of one. -/
def steeredBlocks : List (Block Unit plainHost) := [.turn (sampleTurn "a" "start" []),
   .turn (sampleTurn "b" "go on" ["and stop"]), .rollback 1]

/-- The first message of the steered turn is left, and the settings are those of the turn
    before. -/
theorem settings_of_steered_turn_stale :
    newestMessageTurn (.bytes 100) steeredBlocks =
        some (sampleTurn "b" "go on" ["and stop"]) ∧
      (reconstructHistoryFromRollout plainHost (.bytes 100)
        (blockRollout steeredBlocks)).history.length = 2 ∧
      (reconstructHistoryFromRollout plainHost (.bytes 100)
        (blockRollout steeredBlocks)).previousTurnSettings = some ⟨"a", none, none⟩ := by
  exact ⟨rfl, rfl, rfl⟩

end Codex.Rollout
