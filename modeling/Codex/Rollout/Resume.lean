import Codex.Rollout.Reconstruct

namespace Codex.Rollout

open Context ReverseScan List Option RolloutItem

/-!
# Resuming without rollbacks

The reverse scan looks for a checkpoint and goes on for the settings, so that it may move the
suffix behind an older checkpoint than the one it replays from. Whatever it does, the transcript
is the replay of the whole log.

* `ReverseScan.foundBase` — the checkpoint found so far, in a finished segment or in the open one.
* `ReverseScan.Sound` — base and suffix stand for everything that was scanned.
* `Sound.step`, `scanOlder_sound` — one step keeps it, and so does the scan.
* `history_reconstruct_append` — a log with a beginning that has no rollbacks.
* `reconstruct_eq_replay` — the shortcut gives the transcript of the log.
-/

variable {σ : Type} {host : Host} {policy : TruncationPolicy}

/-- The item takes turns back. -/
def RolloutItem.isRollback : RolloutItem σ → Bool
  | .eventMsg (.threadRolledBack _) => true
  | _ => false

/-- The item is a compaction, with or without a checkpoint. -/
def RolloutItem.isCompacted : RolloutItem σ → Bool
  | .compacted _ => true
  | _ => false

/-- The replacement history of the item, if it is a checkpoint. -/
def RolloutItem.checkpoint : RolloutItem σ → Option (List ResponseItem)
  | .compacted item => item.replacementHistory
  | _ => none

/-- The item holds a replacement history. -/
def RolloutItem.isCheckpoint (item : RolloutItem σ) : Bool := item.checkpoint.isSome

/-- The checkpoint found so far: of a finished segment, or of the open one. -/
def ReverseScan.foundBase (scan : ReverseScan σ) : Option (List ResponseItem) :=
  scan.baseReplacementHistory.or (scan.activeSegment.bind (·.baseReplacementHistory))

/-- **The invariant of the scan**, with `newer` the items scanned so far and what follows them:
    replaying the suffix on the base found gives what replaying all of `newer` gives, on any
    history. While there is no base, the suffix is the one from the start. -/
structure ReverseScan.Sound (host : Host) (policy : TruncationPolicy)
    (start newer : List (RolloutItem σ)) (scan : ReverseScan σ) : Prop where
  pending : scan.pendingRollbackTurns = 0
  suffix_of_none : scan.foundBase = none → scan.rolloutSuffix = start
  replay : ∀ base, scan.foundBase = some base → ∀ history,
    newer.foldl (replayItem host policy) history =
      scan.rolloutSuffix.foldl (replayItem host policy) base

/-! ### One step -/

theorem ActiveReplaySegment.baseReplacementHistory_onTurnContext
    (segment : ActiveReplaySegment σ) (context : TurnContextItem σ) :
    (segment.onTurnContext context).baseReplacementHistory = segment.baseReplacementHistory := by
  unfold onTurnContext
  dsimp only
  split <;> rfl

variable {item : RolloutItem σ}

/-- An item that is neither a compaction nor a rollback leaves base and suffix alone. -/
theorem ReverseScan.step_of_plain (host : Host) {scan : ReverseScan σ}
    (newer : List (RolloutItem σ)) (hpend : scan.pendingRollbackTurns = 0)
    (hrollback : item.isRollback = false) (hcompacted : item.isCompacted = false) :
    (scan.step host newer item).pendingRollbackTurns = 0 ∧
      (scan.step host newer item).foundBase = scan.foundBase ∧
      (scan.step host newer item).rolloutSuffix = scan.rolloutSuffix := by
  -- an item that opens a segment opens one without a checkpoint
  have hopen : scan.baseReplacementHistory.or (scan.activeSegment.getD {}).baseReplacementHistory =
      scan.foundBase := by
    unfold foundBase
    cases scan.activeSegment <;> rfl
  cases item with
  | sessionMeta => exact ⟨hpend, rfl, rfl⟩
  | compacted compacted => cases hcompacted
  | responseItem | interAgentCommunication => exact ⟨hpend, hopen, rfl⟩
  | turnContext context =>
    refine ⟨hpend, ?_, rfl⟩
    rw [← hopen]
    show scan.baseReplacementHistory.or
      ((scan.activeSegment.getD {}).onTurnContext context).baseReplacementHistory = _
    rw [ActiveReplaySegment.baseReplacementHistory_onTurnContext]
  | eventMsg event =>
    cases event with
    | threadRolledBack numTurns => cases hrollback
    | other => exact ⟨hpend, rfl, rfl⟩
    | userMessage | turnComplete => exact ⟨hpend, hopen, rfl⟩
    | turnAborted turnId =>
      cases hactive : scan.activeSegment <;> cases turnId <;>
        simp [step, foundBase, hactive, hpend]
    | turnStarted turnId =>
      cases hactive : scan.activeSegment with
      | none => simp [step, hactive, hpend]
      | some segment =>
        simp only [step, hactive]
        split
        · simp [finalizeActiveSegment, hpend, foundBase, hactive]
        · exact ⟨hpend, rfl, rfl⟩

/-- A compaction hands its checkpoint to the open segment, which keeps its newest one. -/
theorem ReverseScan.foundBase_step_compacted (scan : ReverseScan σ) (host : Host)
    (newer : List (RolloutItem σ)) (compacted : CompactedItem) :
    (scan.step host newer (.compacted compacted)).foundBase =
      scan.foundBase.or compacted.replacementHistory := by
  show scan.baseReplacementHistory.or ((scan.activeSegment.getD {}).baseReplacementHistory.or
    compacted.replacementHistory) = _
  rw [← Option.or_assoc]
  unfold foundBase
  cases scan.activeSegment <;> rfl

/-- Without rollbacks, a step finds a base at a checkpoint and nowhere else. -/
theorem ReverseScan.foundBase_step (scan : ReverseScan σ) (host : Host)
    (newer : List (RolloutItem σ))
    (hpend : scan.pendingRollbackTurns = 0) (hitem : item.isRollback = false) :
    (scan.step host newer item).pendingRollbackTurns = 0 ∧
      (scan.step host newer item).foundBase.isSome =
        (scan.foundBase.isSome || item.isCheckpoint) := by
  cases hcompacted : item.isCompacted with
  | true =>
    cases item with
    | compacted compacted =>
      refine ⟨hpend, ?_⟩
      rw [scan.foundBase_step_compacted, isSome_or]
      rfl
    | _ => cases hcompacted
  | false =>
    obtain ⟨hzero, hbase, -⟩ := step_of_plain host newer hpend hitem hcompacted
    refine ⟨hzero, ?_⟩
    rw [hbase]
    cases item with
    | compacted compacted => cases hcompacted
    | _ => simp [isCheckpoint, checkpoint]

namespace ReverseScan.Sound

variable {start newer : List (RolloutItem σ)} {scan : ReverseScan σ}

/-- A compaction keeps the invariant. The suffix moves behind a checkpoint that is not the one
    replayed from only if that one is behind it in the suffix. -/
theorem step_compacted (hscan : scan.Sound host policy start newer) (compacted : CompactedItem) :
    (scan.step host newer (.compacted compacted)).Sound host policy start
      (.compacted compacted :: newer) := by
  have hfound := scan.foundBase_step_compacted host newer compacted
  refine ⟨hscan.pending, fun hnone => ?_, fun base hbase history => ?_⟩
  · rw [hfound, or_eq_none_iff] at hnone
    rw [← hscan.suffix_of_none hnone.1]
    simp [step, hnone.2]
  · rw [hfound] at hbase
    rw [foldl_cons]
    cases hreplacement : compacted.replacementHistory with
    | none =>
      rw [hreplacement, or_none] at hbase
      rw [hscan.replay base hbase]
      simp [step, hreplacement]
    | some replacement =>
      have hitem : replayItem host policy history (.compacted compacted : RolloutItem σ) =
          replacement := by
        simp [replayItem, hreplacement]
      rw [hitem]
      by_cases hopen : (scan.activeSegment.getD {}).baseReplacementHistory = none
      · -- the suffix moves: a newer checkpoint makes the start of the replay irrelevant
        have hsuffix : (scan.step host newer (.compacted compacted)).rolloutSuffix = newer := by
          simp [step, hopen, hreplacement]
        rw [hsuffix]
        cases hbefore : scan.foundBase with
        | none =>
          rw [hbefore, hreplacement, none_or, some_inj] at hbase
          rw [hbase]
        | some newest =>
          rw [hscan.replay newest hbefore, hscan.replay newest hbefore]
      · have hsuffix : (scan.step host newer (.compacted compacted)).rolloutSuffix =
            scan.rolloutSuffix := by
          simp [step, hopen]
        have hbefore : scan.foundBase.isSome := by
          cases hactive : scan.activeSegment with
          | none => simp [hactive] at hopen
          | some segment =>
            rw [hactive, getD_some] at hopen
            simp [foundBase, hactive, isSome_iff_ne_none, hopen]
        obtain ⟨newest, hnewest⟩ := isSome_iff_exists.mp hbefore
        rw [hnewest, some_or, some_inj] at hbase
        rw [hsuffix, hscan.replay newest hnewest, hbase]

/-- **One step keeps the invariant.** -/
theorem step (hscan : scan.Sound host policy start newer) (hitem : item.isRollback = false) :
    (scan.step host newer item).Sound host policy start (item :: newer) := by
  cases hcompacted : item.isCompacted with
  | true =>
    cases item with
    | compacted compacted => exact hscan.step_compacted compacted
    | _ => cases hcompacted
  | false =>
    obtain ⟨hpend, hbase, hsuffix⟩ := step_of_plain host newer hscan.pending hitem hcompacted
    refine ⟨hpend, fun hnone => ?_, fun base hsome history => ?_⟩
    · rw [hsuffix, hscan.suffix_of_none (hbase ▸ hnone)]
    · rw [hsuffix, foldl_cons, hscan.replay base (hbase ▸ hsome)]

end ReverseScan.Sound

/-! ### The scan -/

variable {scan : ReverseScan σ}

/-- The whole scan keeps the invariant, also when it stops early: with a base known, the items it
    did not look at do not matter. -/
theorem scanOlder_sound {start newer : List (RolloutItem σ)} (older : List (RolloutItem σ))
    (hscan : scan.Sound host policy start newer)
    (holder : ∀ item ∈ older, item.isRollback = false) :
    (scanOlder host older newer scan).Sound host policy start (older.reverse ++ newer) := by
  induction older generalizing newer scan with
  | nil => exact hscan
  | cons item older ih =>
    have hstep := hscan.step (holder item mem_cons_self)
    rw [reverse_cons, append_assoc, scanOlder]
    split
    case isTrue hcomplete =>
      refine ⟨hstep.pending, hstep.suffix_of_none, fun base hbase history => ?_⟩
      rw [foldl_append]
      exact hstep.replay base hbase _
    case isFalse =>
      exact ih hstep fun other hother => holder other (mem_cons_of_mem _ hother)

/-- The open segment at the end hands over its checkpoint. -/
theorem finalizeLast_of_pending (h : scan.pendingRollbackTurns = 0) :
    (finalizeLast scan).baseReplacementHistory = scan.foundBase ∧
      (finalizeLast scan).rolloutSuffix = scan.rolloutSuffix := by
  unfold finalizeLast
  cases hactive : scan.activeSegment <;>
    simp [finalizeActiveSegment, h, foundBase, hactive]

/-- A scan without rollbacks finds a checkpoint if there is one. -/
theorem foundBase_scanOlder (host : Host) (newer : List (RolloutItem σ))
    (older : List (RolloutItem σ)) (hpend : scan.pendingRollbackTurns = 0)
    (holder : ∀ item ∈ older, item.isRollback = false) :
    (scanOlder host older newer scan).foundBase.isSome =
      (scan.foundBase.isSome || older.any isCheckpoint) := by
  induction older generalizing newer scan with
  | nil => simp [scanOlder]
  | cons item older ih =>
    obtain ⟨hstep, hfound⟩ := scan.foundBase_step host newer hpend
      (holder item mem_cons_self)
    rw [scanOlder, any_cons, ← Bool.or_assoc, ← hfound]
    split
    case isTrue hcomplete =>
      -- a scan that stops early has its base
      have hbase : (scan.step host newer item).foundBase.isSome := by
        simp only [isComplete, Bool.and_eq_true] at hcomplete
        simp [foundBase, hcomplete.1.1]
      rw [hbase, Bool.true_or]
    case isFalse =>
      exact ih _ hstep fun other hother => holder other (mem_cons_of_mem _ hother)

/-- A scan that did not stop goes on with the items before. -/
theorem scanOlder_append (older older' : List (RolloutItem σ)) {newer : List (RolloutItem σ)}
    (h : (scanOlder host older newer scan).isComplete = false) :
    scanOlder host (older ++ older') newer scan =
      scanOlder host older' (older.reverse ++ newer) (scanOlder host older newer scan) := by
  induction older generalizing newer scan with
  | nil => rfl
  | cons item older ih =>
    rw [cons_append, scanOlder]
    rw [scanOlder] at h ⊢
    split at h
    case isTrue hcomplete => rw [hcomplete] at h; cases h
    case isFalse hcomplete =>
      rw [if_neg hcomplete, if_neg hcomplete, ih h, reverse_cons, append_assoc]
      rfl

/-- **A log that starts without rollbacks.** Once the scan of the end of the log has come to rest,
    the transcript is the replay of the whole log if the beginning has a checkpoint, and the
    replay of the suffix the scan came to otherwise. -/
theorem history_reconstruct_append (front tail : List (RolloutItem σ))
    (hfront : ∀ item ∈ front, item.isRollback = false)
    (hscan : scanOlder host tail.reverse [] (.init (front ++ tail)) = scan)
    (hpend : scan.pendingRollbackTurns = 0) (hbase : scan.foundBase = none) :
    (reconstructHistoryFromRollout host policy (front ++ tail)).history =
      if front.any isCheckpoint then
        (front ++ tail).foldl (replayItem host policy) []
      else scan.rolloutSuffix.foldl (replayItem host policy) [] := by
  have hrest : scan.Sound host policy scan.rolloutSuffix tail :=
    ⟨hpend, fun _ => rfl, fun base hsome => by rw [hbase] at hsome; cases hsome⟩
  have hcomplete : scan.isComplete = false := by
    have hnone : scan.baseReplacementHistory = none := (or_eq_none_iff.mp hbase).1
    simp [isComplete, hnone]
  have holder : ∀ item ∈ front.reverse, item.isRollback = false := fun item hitem =>
    hfront item (mem_reverse.mp hitem)
  have hsound := scanOlder_sound front.reverse hrest holder
  have hfound := foundBase_scanOlder host tail front.reverse hpend holder
  rw [hbase, isSome_none, Bool.false_or, any_reverse] at hfound
  rw [reverse_reverse] at hsound
  rw [history_reconstruct, reverseScan, reverse_append,
    scanOlder_append _ _ (by rw [hscan]; exact hcomplete), hscan, reverse_reverse,
    append_nil, (finalizeLast_of_pending hsound.pending).1,
    (finalizeLast_of_pending hsound.pending).2, ← hfound]
  cases hcases : (scanOlder host front.reverse tail scan).foundBase with
  | none => rw [hsound.suffix_of_none hcases]; rfl
  | some base => exact (hsound.replay base hcases []).symm

/-- **Resuming gives the transcript of the log.** Without rollbacks, the reconstruction from a
    checkpoint returns what replaying every item from the oldest on returns. -/
theorem reconstruct_eq_replay (host : Host) (policy : TruncationPolicy)
    (rolloutItems : List (RolloutItem σ))
    (hrollback : ∀ item ∈ rolloutItems, item.isRollback = false) :
    (reconstructHistoryFromRollout host policy rolloutItems).history =
      rolloutItems.foldl (replayItem host policy) [] := by
  have h : (reconstructHistoryFromRollout host policy (rolloutItems ++ [])).history = _ :=
    history_reconstruct_append rolloutItems [] hrollback rfl rfl rfl
  rw [append_nil] at h
  rw [h]
  exact ite_self _

/-- A host whose deserialisers accept nothing, with the exact product. -/
def plainHost : Host where
  isInterAgentCommunication _ := false
  hookPromptXml _ := none
  serializationBudget n := (6 * n + 4) / 5

/-- A turn of one message that is compacted to a checkpoint, and an aborted turn after it. -/
def compactedRollout : List (RolloutItem Unit) :=
  [.eventMsg (.turnStarted "1"), .responseItem (userTextMessage "first" none),
   .compacted ⟨[], some [userTextMessage "summary" none], none⟩,
   .eventMsg (.turnComplete "1"), .eventMsg (.turnStarted "2"),
   .responseItem (userTextMessage "second" none), .eventMsg (.turnAborted (some "2"))]

theorem reconstruct_compactedRollout :
    (reconstructHistoryFromRollout plainHost (.bytes 100) compactedRollout).history =
      [userTextMessage "summary" none, userTextMessage "second" none] := by
  rw [reconstruct_eq_replay plainHost (.bytes 100) compactedRollout (by decide)]
  decide

end Codex.Rollout
