import Codex.Rollout.Segment

namespace Codex.Rollout

open Context RolloutItem List ReverseScan

/-!
# Rolling back the newest turns

A rollback of as many turns as were added should leave the transcript from before. The reverse
scan moves the suffix to replay when it meets a checkpoint, and only later finds that the turn of
the checkpoint is rolled back.

* `UserTurn` — a complete turn with exactly one instruction message.
* `scanOlder_rolloutOf` — the scan of turns that are rolled back.
* `EndsInTurns` — a transcript that is another one, followed by the turns a rollback drops.
* `RollbackErases` — when the rolled-back turns leave no trace.
* `rollback_erases_iff` — the rollback restores the transcript exactly then.
-/

variable {σ : Type} {host : Host} {policy : TruncationPolicy}

/-! ### Turns with one instruction message -/

/-- An item inside a turn that is no instruction message; its compactions carry a checkpoint. -/
structure RolloutItem.IsPlain (host : Host) (item : RolloutItem σ) : Prop where
  inner : item.isInner
  not_instruction : item.isInstruction host = false
  not_legacy : item.isLegacyCompaction = false

/-- A complete turn with exactly one instruction message. -/
structure UserTurn (σ : Type) (host : Host) where
  turnId : Text
  lead : List (RolloutItem σ)
  instruction : RolloutItem σ
  rest : List (RolloutItem σ)
  lead_plain : ∀ item ∈ lead, item.IsPlain host
  instruction_spec : instruction.isInstruction host
  rest_plain : ∀ item ∈ rest, item.IsPlain host

variable (turn : UserTurn σ host)

/-- The items between the start and the completion of the turn. -/
def UserTurn.inner : List (RolloutItem σ) := turn.lead ++ turn.instruction :: turn.rest

def UserTurn.items : List (RolloutItem σ) := turnItems turn.turnId turn.inner

variable (turns : List (UserTurn σ host))

/-- The rollout of a sequence of turns. -/
def rolloutOf : List (RolloutItem σ) := turns.flatMap UserTurn.items

theorem rolloutOf_cons : rolloutOf (turn :: turns) = turn.items ++ rolloutOf turns := rfl

theorem rolloutOf_append (turns turns' : List (UserTurn σ host)) :
    rolloutOf (turns ++ turns') = rolloutOf turns ++ rolloutOf turns' := flatMap_append ..

/-- An instruction message is recorded as one instruction message. -/
theorem RolloutItem.isInner_of_isInstruction {item : RolloutItem σ} (h : item.isInstruction host) :
    item.isInner ∧ item.isLegacyCompaction = false := by
  cases item with
  | responseItem | interAgentCommunication => exact ⟨rfl, rfl⟩
  | _ => cases h

namespace UserTurn

variable (turn : UserTurn σ host)

theorem isInner_inner : ∀ item ∈ turn.inner, item.isInner :=
  forall_mem_append.mpr ⟨fun item hlead => (turn.lead_plain item hlead).inner,
    forall_mem_cons.mpr ⟨(isInner_of_isInstruction turn.instruction_spec).1,
      fun item hrest => (turn.rest_plain item hrest).inner⟩⟩

/-- A turn holds neither rollbacks nor legacy compactions. -/
theorem plain_items : ∀ item ∈ turn.items,
    item.isRollback = false ∧ item.isLegacyCompaction = false := by
  have hinner : ∀ item ∈ turn.inner, item.isLegacyCompaction = false :=
    forall_mem_append.mpr ⟨fun item hlead => (turn.lead_plain item hlead).not_legacy,
      forall_mem_cons.mpr ⟨(isInner_of_isInstruction turn.instruction_spec).2,
        fun item hrest => (turn.rest_plain item hrest).not_legacy⟩⟩
  refine forall_mem_cons.mpr ⟨⟨rfl, rfl⟩, forall_mem_append.mpr ⟨fun item hitem => ?_,
    forall_mem_singleton.mpr ⟨rfl, rfl⟩⟩⟩
  exact ⟨isRollback_of_isInner (turn.isInner_inner item hitem), hinner item hitem⟩

/-- A turn has exactly one instruction message. -/
theorem countP_items : turn.items.countP (·.isInstruction host) = 1 := by
  have hlead : turn.lead.countP (·.isInstruction host) = 0 :=
    countP_eq_zero.mpr fun item hitem => by
      simp [(turn.lead_plain item hitem).not_instruction]
  have hrest : turn.rest.countP (·.isInstruction host) = 0 :=
    countP_eq_zero.mpr fun item hitem => by
      simp [(turn.rest_plain item hitem).not_instruction]
  rw [items, turnItems, countP_cons_of_neg (by simp [isInstruction]), inner,
    countP_append, countP_append, countP_cons_of_pos turn.instruction_spec, hlead, hrest]
  rfl

end UserTurn

variable (turns : List (UserTurn σ host)) (kept dropped : List (UserTurn σ host))

theorem plain_rolloutOf : ∀ item ∈ rolloutOf turns,
    item.isRollback = false ∧ item.isLegacyCompaction = false := by
  intro item hitem
  obtain ⟨turn, -, hitem⟩ := mem_flatMap.mp hitem
  exact turn.plain_items item hitem

theorem countP_rolloutOf : (rolloutOf turns).countP (·.isInstruction host) = turns.length := by
  induction turns with
  | nil => rfl
  | cons turn turns ih =>
    rw [rolloutOf_cons, countP_append, ih, turn.countP_items, length_cons, Nat.add_comm]

/-! ### The scan of turns that are rolled back -/

/-- The scan skips a turn while a rollback is pending, but its checkpoint has moved the suffix. -/
theorem scanOlder_userTurn {scan : ReverseScan σ} (turn : UserTurn σ host)
    (newer : List (RolloutItem σ)) {pending : ℕ} (hactive : scan.activeSegment = none)
    (hbase : scan.baseReplacementHistory = none) (hpend : scan.pendingRollbackTurns = pending + 1) :
    scanOlder host turn.items.reverse newer scan =
      { scan with
        pendingRollbackTurns := pending
        rolloutSuffix := ((lastCheckpoint turn.items).map fun found =>
          found.2 ++ newer).getD scan.rolloutSuffix } := by
  have hcounts : (turnSegment host turn.turnId turn.inner).countsAsUserTurn :=
    ActiveReplaySegment.countsAsUserTurn_foldl _
      (.inr ⟨turn.instruction, by simp [UserTurn.inner], turn.instruction_spec⟩)
  rw [UserTurn.items, scanOlder_turnItems turn.turnId newer hactive hbase turn.isInner_inner,
    finalizeActiveSegment, if_pos hcounts]
  simp [hpend]

/-- The suffix after the scan of rolled-back turns: behind the newest checkpoint of the oldest
    turn that has one. -/
def droppedSuffix (newer start : List (RolloutItem σ)) :
    List (UserTurn σ host) → List (RolloutItem σ)
  | [] => start
  | turn :: turns =>
    match lastCheckpoint turn.items with
    | some found => found.2 ++ (rolloutOf turns ++ newer)
    | none => droppedSuffix newer start turns

variable (newer start : List (RolloutItem σ))

theorem droppedSuffix_concat (turns : List (UserTurn σ host)) (turn : UserTurn σ host) :
    droppedSuffix newer start (turns ++ [turn]) = droppedSuffix (turn.items ++ newer)
        (((lastCheckpoint turn.items).map fun found => found.2 ++ newer).getD start) turns := by
  induction turns with
  | nil =>
    rw [nil_append, droppedSuffix, droppedSuffix]
    cases lastCheckpoint turn.items <;> rfl
  | cons first turns ih =>
    rw [cons_append, droppedSuffix, droppedSuffix, ih]
    cases lastCheckpoint first.items with
    | none => rfl
    | some found => simp [rolloutOf]

/-- **The scan of the turns that a rollback takes back.** -/
theorem scanOlder_rolloutOf {scan : ReverseScan σ} (turns : List (UserTurn σ host))
    (newer : List (RolloutItem σ)) (hactive : scan.activeSegment = none)
    (hbase : scan.baseReplacementHistory = none)
    (hpend : scan.pendingRollbackTurns = turns.length) :
    scanOlder host (rolloutOf turns).reverse newer scan =
      { scan with
        pendingRollbackTurns := 0
        rolloutSuffix := droppedSuffix newer scan.rolloutSuffix turns } := by
  induction turns using reverseRecOn generalizing newer scan with
  | nil =>
    rw [show (0 : ℕ) = scan.pendingRollbackTurns from hpend.symm]
    rfl
  | append_singleton turns turn ih =>
    rw [length_append] at hpend
    have hturn := scanOlder_userTurn turn newer hactive hbase hpend
    have hcomplete : (scanOlder host turn.items.reverse newer scan).isComplete = false := by
      rw [hturn]; exact isComplete_of_none hbase
    have hitems : (rolloutOf (turns ++ [turn])).reverse =
        turn.items.reverse ++ (rolloutOf turns).reverse := by
      rw [rolloutOf_append]; simp [rolloutOf]
    rw [hitems, scanOlder_append _ _ hcomplete, hturn, reverse_reverse, droppedSuffix_concat]
    exact ih (turn.items ++ newer) hactive hbase rfl

/-- Where the suffix comes to stand. -/
theorem droppedSuffix_cases (turns : List (UserTurn σ host)) :
    (lastCheckpoint (rolloutOf turns) = none ∧ droppedSuffix newer start turns = start) ∨
    ∃ older turn younger found, turns = older ++ turn :: younger ∧
      lastCheckpoint (rolloutOf older) = none ∧ lastCheckpoint turn.items = some found ∧
      droppedSuffix newer start turns = found.2 ++ (rolloutOf younger ++ newer) := by
  induction turns with
  | nil => exact .inl ⟨rfl, rfl⟩
  | cons turn turns ih =>
    cases hturn : lastCheckpoint turn.items with
    | some found =>
      exact .inr ⟨[], turn, turns, found, rfl, rfl, hturn, by rw [droppedSuffix, hturn]⟩
    | none =>
      have hcons : ∀ turns : List (UserTurn σ host), lastCheckpoint (rolloutOf turns) = none →
          lastCheckpoint (rolloutOf (turn :: turns)) = none := by
        intro turns h
        rw [rolloutOf_cons, lastCheckpoint_append, h, hturn]
        rfl
      have hsuffix : droppedSuffix newer start (turn :: turns) =
          droppedSuffix newer start turns := by
        rw [droppedSuffix, hturn]
      rcases ih with ⟨hnone, hsame⟩ | ⟨older, found, younger, rest, rfl, hnone, hfound, hrest⟩
      · exact .inl ⟨hcons turns hnone, hsuffix.trans hsame⟩
      · exact .inr ⟨turn :: older, found, younger, rest, rfl, hcons older hnone, hfound,
          hsuffix.trans hrest⟩

/-- Nothing after the newest checkpoint is a checkpoint. -/
theorem lastCheckpoint_after {items : List (RolloutItem σ)}
    {found : List ResponseItem × List (RolloutItem σ)} (h : lastCheckpoint items = some found) :
    lastCheckpoint found.2 = none ∧ found.2 <:+ items := by
  induction items with
  | nil => cases h
  | cons item items ih =>
    rw [lastCheckpoint] at h
    cases hitems : lastCheckpoint items with
    | some newest =>
      rw [hitems] at h
      obtain ⟨hnone, hsuffix⟩ := ih (hitems.trans h)
      exact ⟨hnone, hsuffix.trans (suffix_cons _ _)⟩
    | none =>
      rw [hitems] at h
      obtain ⟨history, -, rfl⟩ := Option.map_eq_some_iff.mp h
      exact ⟨hitems, suffix_cons _ _⟩

/-! ### Transcripts that end in turns -/

/-- The transcript `longer` is `kept`, then context updates, then the instruction turns that a
    rollback of `n` turns drops: `n` of them, or all there are. -/
def EndsInTurns (host : Host) (n : ℕ) (longer kept : List ResponseItem) : Prop :=
  (longer = kept ∧ kept.countP (isUserTurnBoundary host.toDecoders) = 0) ∨
  ∃ lead message rest, longer = (kept ++ lead) ++ message :: rest ∧
    isUserTurnBoundary host.toDecoders message ∧
    (∀ item ∈ lead, isContextUpdate host.toDecoders item) ∧
    (lead = [] ∨ kept.countP (isUserTurnBoundary host.toDecoders) ≠ 0) ∧
    (rest.countP (isUserTurnBoundary host.toDecoders) + 1 = n ∨
      (rest.countP (isUserTurnBoundary host.toDecoders) + 1 ≤ n ∧
        kept.countP (isUserTurnBoundary host.toDecoders) = 0))

theorem countP_eq_zero_of_contextUpdates {lead : List ResponseItem}
    (h : ∀ item ∈ lead, isContextUpdate host.toDecoders item) :
    lead.countP (startsTurn host) = 0 :=
  countP_eq_zero.mpr fun item hitem => by
    simp [startsTurn_of_isContextUpdate (h item hitem)]

/-- What a rollback keeps of a transcript that does not end in a context update and of the items
    recorded after it: the transcript, if only context updates follow and a turn is left. -/
theorem keptFront_append_iff {kept lead : List ResponseItem}
    (hlast : ∀ item ∈ kept.getLast?, isContextUpdate host.toDecoders item = false)
    (hlead : lead.countP (startsTurn host) = 0) :
    keptFront host (kept ++ lead) = kept ↔
      lead = [] ∨ (kept.countP (startsTurn host) ≠ 0 ∧
        ∀ item ∈ lead, isContextUpdate host.toDecoders item) := by
  have hself : kept.rdropWhile (isContextUpdate host.toDecoders) = kept := by
    rw [rdropWhile_eq_self_iff]
    intro hne
    rw [hlast _ (getLast?_eq_getLast_of_ne_nil hne)]
    exact Bool.false_ne_true
  have hany : (kept ++ lead).any (startsTurn host) ↔
      kept.countP (startsTurn host) ≠ 0 := by
    rw [any_eq_true, ← countP_pos_iff, countP_append]
    omega
  unfold keptFront
  by_cases hturn : kept.countP (startsTurn host) = 0
  · rw [if_neg (fun h => hany.mp h hturn)]
    simp [hturn]
  · rw [if_pos (hany.mpr hturn)]
    constructor
    · -- what the walk removed is exactly the part behind `kept`
      intro h
      refine .inr ⟨hturn, ?_⟩
      have hsplit := rdropWhile_append_rtakeWhile (p := isContextUpdate host.toDecoders)
        (l := kept ++ lead)
      rw [h, append_cancel_left_eq] at hsplit
      rw [← hsplit]
      exact fun item hitem => mem_rtakeWhile_imp hitem
    · rintro (rfl | ⟨-, hupdates⟩)
      · rw [append_nil]; exact hself
      · rw [rdropWhile, reverse_append,
          dropWhile_append_of_pos fun item hitem => hupdates item (mem_reverse.mp hitem)]
        exact hself

/-- **When a rollback leaves a given transcript.** -/
theorem take_rollbackCut_eq_iff {n : ℕ} (hn : n ≠ 0) {longer kept : List ResponseItem}
    (hlast : ∀ item ∈ kept.getLast?, isContextUpdate host.toDecoders item = false) :
    longer.take (rollbackCut host longer n) = kept ↔ EndsInTurns host n longer kept := by
  let manager : ContextManager Unit := ⟨longer, 0, none⟩
  have hcut : (manager.dropLastNUserTurns host n).items = longer.take (rollbackCut host longer n) :=
    manager.items_dropLastNUserTurns_eq_take n host
  constructor
  · intro h
    rw [← hcut] at h
    rcases manager.dropLastNUserTurns_cases n host with
      ⟨hsame, hzero⟩ | ⟨front, message, rest, hitems, hmsg, hcount, hdrop⟩
    · refine .inl ⟨hsame.symm.trans h, ?_⟩
      rw [← h, hsame]
      exact hzero.resolve_left hn
    · -- split what is in front of the cut into the part that is kept and the context updates
      right
      rw [hdrop] at h
      have hcountP := h ▸ countP_keptFront front
      unfold startsTurn at hcountP hcount
      by_cases hturn : front.any (isUserTurnBoundary host.toDecoders)
      · rw [keptFront, if_pos hturn] at h
        rw [any_eq_true, ← countP_pos_iff] at hturn
        refine ⟨front.rtakeWhile (isContextUpdate host.toDecoders), message, rest, ?_, hmsg,
          fun item hitem => mem_rtakeWhile_imp hitem, .inr (by omega), by omega⟩
        rw [← h, rdropWhile_append_rtakeWhile]
        exact hitems
      · rw [keptFront, if_neg hturn] at h
        refine ⟨[], message, rest, ?_, hmsg, by simp, .inl rfl, by omega⟩
        rw [← h, append_nil]
        exact hitems
  · rw [← hcut]
    rintro (⟨rfl, hzero⟩ | ⟨lead, message, rest, hlonger, hmsg, hupdates, hlead, hcount⟩)
    · exact (manager.dropLastNUserTurns_of_none hzero).1
    · have hzero := countP_eq_zero_of_contextUpdates hupdates
      rw [(manager.dropLastNUserTurns_split hlonger hmsg
        (by rw [countP_append, hzero]; omega)).1, keptFront_append_iff hlast hzero]
      rcases hlead with rfl | hkept
      · exact .inl rfl
      · exact .inr ⟨hkept, hupdates⟩

/-! ### The rollback -/

/-- The marker of a rollback. -/
def rollbackItem (numTurns : ℕ) : RolloutItem σ := .eventMsg (.threadRolledBack numTurns)

/-- The rollout of some turns, of further turns, and of a rollback of the latter. -/
def rolledBack : List (RolloutItem σ) :=
  rolloutOf kept ++ (rolloutOf dropped ++ [rollbackItem dropped.length])

/-- The transcript after the rollback: a checkpoint in the turns that stay makes up for the suffix
    that the other turns have moved. -/
theorem history_rolledBack :
    (reconstructHistoryFromRollout host policy (rolledBack kept dropped)).history =
      if (rolloutOf kept).any isCheckpoint then
        (rolledBack kept dropped).foldl (replayItem host policy) []
      else
        (droppedSuffix [rollbackItem dropped.length] (rolledBack kept dropped) dropped).foldl
          (replayItem host policy) [] := by
  have hscan : scanOlder host (rolloutOf dropped ++ [rollbackItem dropped.length]).reverse []
      (.init (rolledBack kept dropped)) =
        { init (rolledBack kept dropped) with
          rolloutSuffix := droppedSuffix [rollbackItem dropped.length] (rolledBack kept dropped)
            dropped } := by
    rw [reverse_append, reverse_singleton, singleton_append]
    exact scanOlder_rolloutOf dropped _ rfl rfl (Nat.zero_add _)
  exact history_reconstruct_append _ _ (fun item hitem => (plain_rolloutOf kept item hitem).1)
    hscan rfl rfl

/-- The transcript of turns alone. -/
theorem history_rolloutOf :
    (reconstructHistoryFromRollout host policy (rolloutOf turns)).history =
      transcript host policy (rolloutOf turns) := by
  have h : (reconstructHistoryFromRollout host policy (rolloutOf turns ++ [])).history = _ :=
    history_reconstruct_append (rolloutOf turns) []
      (fun item hitem => (plain_rolloutOf turns item hitem).1) rfl rfl rfl
  rw [append_nil] at h
  rw [h]
  refine (ite_self _).trans ?_
  rw [foldl_replayItem _ _ (plain_rolloutOf turns), transcript]
  cases lastCheckpoint (rolloutOf turns) <;> rfl

/-- The number of turns that were compacted to a checkpoint. -/
def checkpointTurns : ℕ := turns.countP fun turn => turn.items.any isCheckpoint

theorem checkpointTurns_pos_iff :
    0 < checkpointTurns turns ↔ (rolloutOf turns).any isCheckpoint := by
  rw [checkpointTurns, countP_pos_iff, rolloutOf, any_flatMap, any_eq_true]

theorem checkpointTurns_split {turn : UserTurn σ host} {found}
    (h : lastCheckpoint turn.items = some found) (older younger : List (UserTurn σ host)) :
    checkpointTurns (older ++ turn :: younger) =
      checkpointTurns older + (checkpointTurns younger + 1) := by
  have hturn : turn.items.any isCheckpoint := by
    rw [← isSome_lastCheckpoint, h]; rfl
  rw [checkpointTurns, countP_append, countP_cons_of_pos
    (p := fun turn : UserTurn σ host => turn.items.any isCheckpoint) hturn]
  rfl

/-- **The rolled-back turns leave no trace.** Without a checkpoint in them, nothing but context
    updates stands in front of their first instruction message, and nothing at all if no turn is
    left. With checkpoints in them, there is one in the turns before or in a second one of them,
    and the newest holds the transcript from before below the turns that are dropped. -/
def RollbackErases (host : Host) (policy : TruncationPolicy) (kept : List (UserTurn σ host))
    (first : UserTurn σ host) (others : List (UserTurn σ host)) : Prop :=
  match lastCheckpoint (rolloutOf (first :: others)) with
  | none =>
    recordedItems host policy first.lead = [] ∨
      ((transcript host policy (rolloutOf kept)).countP (isUserTurnBoundary host.toDecoders) ≠ 0 ∧
        ∀ item ∈ recordedItems host policy first.lead, isContextUpdate host.toDecoders item)
  | some (history, after) =>
    ((rolloutOf kept).any isCheckpoint ∨ 2 ≤ checkpointTurns (first :: others)) ∧
    EndsInTurns host (others.length + 1) (history ++ recordedItems host policy after)
      (transcript host policy (rolloutOf kept))

/-- The replay of the whole rollout, up to the rollback. -/
theorem foldl_rolledBack :
    (rolledBack kept dropped).foldl (replayItem host policy) [] =
      (transcript host policy (rolloutOf kept ++ rolloutOf dropped)).take
        (rollbackCut host (transcript host policy (rolloutOf kept ++ rolloutOf dropped))
          dropped.length) := by
  have hplain := forall_mem_append.mpr ⟨plain_rolloutOf kept, plain_rolloutOf dropped⟩
  have hall : (rolloutOf kept ++ rolloutOf dropped).foldl (replayItem host policy) [] =
      transcript host policy (rolloutOf kept ++ rolloutOf dropped) := by
    rw [foldl_replayItem _ _ hplain, transcript]
    cases lastCheckpoint (rolloutOf kept ++ rolloutOf dropped) <;> rfl
  rw [rolledBack, ← append_assoc, foldl_append, hall]
  rfl

/-- Turns without a checkpoint add to the transcript. -/
theorem transcript_append_of_none {items items' : List (RolloutItem σ)}
    (h : lastCheckpoint items' = none) :
    transcript host policy (items ++ items') =
      transcript host policy items ++ recordedItems host policy items' := by
  unfold transcript
  rw [lastCheckpoint_append, h]
  cases lastCheckpoint items with
  | none => exact flatMap_append ..
  | some found =>
    simp [recordedItems]

/-- An instruction message is recorded as it is. -/
theorem exists_records_of_isInstruction (policy : TruncationPolicy) {item : RolloutItem σ}
    (h : item.isInstruction host) :
    ∃ message, item.records host policy = [message] ∧
      startsTurn host message := by
  have hcount : (item.records host policy).countP (startsTurn host) = _ := countP_records item
  rw [if_pos h] at hcount
  obtain ⟨message, hmsg, hboundary⟩ := countP_pos_iff.mp (hcount ▸ Nat.one_pos)
  have hlength : (item.records host policy).length ≤ 1 := by
    cases item with
    | responseItem item => simp only [records, recorded]; split <;> simp
    | interAgentCommunication communication =>
      simp only [records, recorded]; split <;> simp
    | _ => simp [records]
  have hpos : 0 < (item.records host policy).length := length_pos_of_mem hmsg
  obtain ⟨only, honly⟩ := length_eq_one_iff.mp (Nat.le_antisymm hlength hpos)
  rw [honly, mem_singleton] at hmsg
  exact ⟨only, honly, hmsg ▸ hboundary⟩

/-- The recorded items of turns without a checkpoint: those in front of the first instruction
    message, the message, and the rest with one message for each further turn. -/
theorem exists_recordedItems_rolloutOf (policy : TruncationPolicy) (first : UserTurn σ host)
    (others : List (UserTurn σ host)) :
    ∃ message rest, recordedItems host policy (rolloutOf (first :: others)) =
        recordedItems host policy first.lead ++ message :: rest ∧
      startsTurn host message ∧
      rest.countP (startsTurn host) = others.length := by
  obtain ⟨message, hrecords, hmsg⟩ :=
    exists_records_of_isInstruction policy first.instruction_spec
  refine ⟨message, recordedItems host policy first.rest ++
    recordedItems host policy (rolloutOf others), ?_, hmsg, ?_⟩
  · simp [rolloutOf_cons, UserTurn.items, UserTurn.inner, turnItems, recordedItems, hrecords]
  · have hrest : first.rest.countP (·.isInstruction host) = 0 :=
      countP_eq_zero.mpr fun item hitem => by
        simp [(first.rest_plain item hitem).not_instruction]
    rw [countP_append, countP_recordedItems, countP_recordedItems, hrest, countP_rolloutOf,
      Nat.zero_add]

/-- With a second compacted turn, or a checkpoint before, the moved suffix does no harm. -/
theorem history_rolledBack_of_checkpoints {kept dropped : List (UserTurn σ host)}
    (h : (rolloutOf kept).any isCheckpoint ∨
      checkpointTurns dropped = 0 ∨ 2 ≤ checkpointTurns dropped) :
    (reconstructHistoryFromRollout host policy (rolledBack kept dropped)).history =
      (rolledBack kept dropped).foldl (replayItem host policy) [] := by
  rw [history_rolledBack]
  split
  · rfl
  rename_i hkept
  have hdropped := h.resolve_left hkept
  rcases droppedSuffix_cases [rollbackItem dropped.length] (rolledBack kept dropped) dropped with
    ⟨-, hsuffix⟩ | ⟨older, turn, younger, found, rfl, hnone, hfound, hsuffix⟩
  · rw [hsuffix]
  · rw [checkpointTurns_split hfound] at hdropped
    have holder : ¬ 0 < checkpointTurns older := by
      rw [checkpointTurns_pos_iff, ← isSome_lastCheckpoint, hnone]
      exact Bool.false_ne_true
    -- the second compacted turn is behind the one the suffix was moved to
    have hyounger : (rolloutOf younger).any isCheckpoint := by
      rw [← checkpointTurns_pos_iff]
      omega
    have hsplit : rolledBack kept (older ++ turn :: younger) =
        (rolloutOf kept ++ (rolloutOf older ++ turn.items)) ++ (rolloutOf younger ++
          [rollbackItem (older ++ turn :: younger).length]) := by
      simp [rolledBack, rolloutOf_append, rolloutOf_cons]
    rw [hsuffix, hsplit, foldl_append, foldl_append, foldl_append,
      foldl_append, foldl_replayItem_of_checkpoint hyounger]

/-- With a single compacted turn among those rolled back and no checkpoint before, everything up
    to that checkpoint is lost: no instruction message is left. -/
theorem countP_history_rolledBack (policy : TruncationPolicy)
    {kept dropped : List (UserTurn σ host)} (hkept : ¬ (rolloutOf kept).any isCheckpoint)
    (hdropped : checkpointTurns dropped = 1) :
    (reconstructHistoryFromRollout host policy (rolledBack kept dropped)).history.countP
      (startsTurn host) = 0 := by
  rw [history_rolledBack, if_neg hkept]
  rcases droppedSuffix_cases [rollbackItem dropped.length] (rolledBack kept dropped) dropped with
    ⟨hnone, -⟩ | ⟨older, turn, younger, found, rfl, -, hfound, hsuffix⟩
  · have hpos := (checkpointTurns_pos_iff dropped).mp (by omega)
    rw [← isSome_lastCheckpoint, hnone] at hpos
    cases hpos
  · rw [checkpointTurns_split hfound] at hdropped
    obtain ⟨hafter, hsuffixOf⟩ := lastCheckpoint_after hfound
    have hyounger : lastCheckpoint (rolloutOf younger) = none := by
      rw [← Option.not_isSome_iff_eq_none, isSome_lastCheckpoint, ← checkpointTurns_pos_iff]
      omega
    -- the suffix only records, and at most as many messages as the rollback takes back
    have hplain := forall_mem_append.mpr
      ⟨fun item hitem => turn.plain_items item (hsuffixOf.subset hitem), plain_rolloutOf younger⟩
    have hcount : (found.2 ++ rolloutOf younger).countP (·.isInstruction host) ≤
        (older ++ turn :: younger).length := by
      have hle := hsuffixOf.sublist.countP_le (p := (·.isInstruction host))
      rw [turn.countP_items] at hle
      rw [countP_append, countP_rolloutOf, length_append, length_cons]
      omega
    rw [hsuffix, ← append_assoc, foldl_append, foldl_replayItem _ _ hplain,
      lastCheckpoint_append, hyounger, hafter]
    show (take (rollbackCut host (recordedItems host policy (found.2 ++ rolloutOf younger))
      (older ++ turn :: younger).length) (recordedItems host policy
        (found.2 ++ rolloutOf younger))).countP _ = 0
    have hdrop := (⟨recordedItems host policy (found.2 ++ rolloutOf younger), 0, none⟩ :
      ContextManager Unit).countP_dropLastNUserTurns (older ++ turn :: younger).length host
    rw [ContextManager.items_dropLastNUserTurns_eq_take, countP_recordedItems] at hdrop
    rw [hdrop]
    omega

/-- **What a rollback of added turns leaves.** Rolling back as many turns as were added restores
    the transcript from before exactly when `RollbackErases` holds. -/
theorem rollback_erases_iff (host : Host) (policy : TruncationPolicy)
    (kept : List (UserTurn σ host)) (first : UserTurn σ host) (others : List (UserTurn σ host))
    (hkept : kept ≠ []) (hlast : ∀ item ∈
        (reconstructHistoryFromRollout host policy (rolloutOf kept)).history.getLast?,
      isContextUpdate host.toDecoders item = false) :
    (reconstructHistoryFromRollout host policy (rolloutOf kept ++ rolloutOf (first :: others) ++
        [.eventMsg (.threadRolledBack (first :: others).length)])).history =
      (reconstructHistoryFromRollout host policy (rolloutOf kept)).history ↔
    RollbackErases host policy kept first others := by
  rw [history_rolloutOf] at hlast ⊢
  rw [append_assoc]
  show (reconstructHistoryFromRollout host policy (rolledBack kept (first :: others))).history =
    _ ↔ _
  cases hfound : lastCheckpoint (rolloutOf (first :: others)) with
  | none =>
    -- without a checkpoint nothing moves the suffix, and the turns are cut off again
    have hzero : checkpointTurns (first :: others) = 0 := by
      refine Nat.eq_zero_of_not_pos fun hpos => ?_
      rw [checkpointTurns_pos_iff, ← isSome_lastCheckpoint, hfound] at hpos
      cases hpos
    obtain ⟨message, rest, hrecorded, hmsg, hrest⟩ :=
      exists_recordedItems_rolloutOf policy first others
    have hlead : (recordedItems host policy first.lead).countP
        (startsTurn host) = 0 := by
      rw [countP_recordedItems]
      exact countP_eq_zero.mpr fun item hitem => by
        simp [(first.lead_plain item hitem).not_instruction]
    have hitems : transcript host policy (rolloutOf kept ++ rolloutOf (first :: others)) =
        (transcript host policy (rolloutOf kept) ++ recordedItems host policy first.lead) ++
          message :: rest := by
      rw [transcript_append_of_none hfound, hrecorded, append_assoc]
    have hcut := ((⟨transcript host policy (rolloutOf kept ++ rolloutOf (first :: others)), 0,
      none⟩ : ContextManager Unit).dropLastNUserTurns_split hitems hmsg (.inl (by
        rw [hrest]; exact rfl : _ = (first :: others).length))).1
    rw [ContextManager.items_dropLastNUserTurns_eq_take] at hcut
    rw [history_rolledBack_of_checkpoints (.inr (.inl hzero)), foldl_rolledBack, hcut,
      keptFront_append_iff hlast hlead, RollbackErases, hfound]
  | some found =>
    have hpos : 0 < checkpointTurns (first :: others) := by
      rw [checkpointTurns_pos_iff, ← isSome_lastCheckpoint, hfound]; rfl
    rw [RollbackErases, hfound]
    by_cases hsafe : (rolloutOf kept).any isCheckpoint ∨ 2 ≤ checkpointTurns (first :: others)
    · rw [history_rolledBack_of_checkpoints (hsafe.imp_right .inr), foldl_rolledBack,
        transcript, lastCheckpoint_append, hfound, length_cons,
        take_rollbackCut_eq_iff (Nat.succ_ne_zero _) hlast]
      exact (and_iff_right hsafe).symm
    · -- the transcript before has an instruction message, and none is left
      refine iff_of_false (fun hsame => ?_) fun h => hsafe h.1
      obtain ⟨hnone, hone⟩ := not_or.mp hsafe
      have hlost := countP_history_rolledBack policy hnone
        (show checkpointTurns (first :: others) = 1 by omega)
      have hnocheckpoint : lastCheckpoint (rolloutOf kept) = none := by
        rw [← Option.not_isSome_iff_eq_none, isSome_lastCheckpoint]; exact hnone
      rw [hsame, transcript, hnocheckpoint] at hlost
      rw [countP_recordedItems, countP_rolloutOf, length_eq_zero_iff] at hlost
      exact hkept hlost

/-- A message of the user that is an image. -/
def userImage (imageUrl : Text) : ResponseItem :=
  .message none "user" [.inputImage imageUrl none] none none

/-- A turn of one message. -/
def keptTurn : UserTurn Unit plainHost where
  turnId := "1"
  lead := []
  instruction := .responseItem (userImage "keep")
  rest := []
  lead_plain := by simp
  instruction_spec := rfl
  rest_plain := by simp

/-- A second turn, with an update of the environment in front of its message. -/
def updatedTurn : UserTurn Unit plainHost where
  turnId := "2"
  lead := [.responseItem
    (userTextMessage "<environment_context></environment_context>" none)]
  instruction := .responseItem (userImage "drop")
  rest := []
  lead_plain := by
    intro item hitem
    rw [mem_singleton.mp hitem]
    exact ⟨rfl, by decide +kernel, rfl⟩
  instruction_spec := rfl
  rest_plain := by simp

/-- A second turn that is compacted. -/
def compactedTurn : UserTurn Unit plainHost where
  turnId := "2"
  lead := []
  instruction := .responseItem (userImage "drop")
  rest := [.compacted ⟨[], some [userImage "summary"], none⟩]
  lead_plain := by simp
  instruction_spec := rfl
  rest_plain := by
    intro item hitem
    rw [mem_singleton.mp hitem]
    exact ⟨rfl, rfl, rfl⟩

/-- Rolling back the turn with the environment update restores the transcript. -/
theorem rollback_erases_updatedTurn :
    (reconstructHistoryFromRollout plainHost (.bytes 100) (rolloutOf [keptTurn] ++
      rolloutOf [updatedTurn] ++ [.eventMsg (.threadRolledBack 1)])).history =
        [userImage "keep"] := by
  have herases : RollbackErases plainHost (.bytes 100) [keptTurn] updatedTurn [] := by
    exact .inr ⟨by decide +kernel, by decide +kernel⟩
  exact ((rollback_erases_iff plainHost (.bytes 100) [keptTurn] updatedTurn [] (by simp)
    (by decide +kernel)).mpr herases).trans (by decide +kernel)

/-- Rolling back the compacted turn loses the turn before it as well. -/
theorem rollback_of_compactedTurn_loses_history :
    (reconstructHistoryFromRollout plainHost (.bytes 100) (rolloutOf [keptTurn])).history =
        [userImage "keep"] ∧
      (reconstructHistoryFromRollout plainHost (.bytes 100) (rolloutOf [keptTurn] ++
        rolloutOf [compactedTurn] ++ [.eventMsg (.threadRolledBack 1)])).history = [] := by
  decide +kernel

end Codex.Rollout
