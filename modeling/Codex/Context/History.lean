import Codex.Context.Fragments
import Codex.Context.Truncate
import Codex.Data.Undo

namespace Codex.Context

open Text List

/-!
# The history of a thread

* `ContextManager` — the transcript with its reference context.
* `ContextManager.recordItems`, `replace`, `dropLastNUserTurns` — the ways it changes.
* `collectUserMessages`, `buildCompactedHistory` — the transcript a legacy compaction leaves.

`Host` gathers what the history takes from elsewhere. The reference context is a type variable:
the history stores it and clears it, and never looks into it.
-/

/-- The deserialisers, and the `f64` product `(n as f64 * 1.2).ceil() as usize`. -/
structure Host extends Decoders where
  serializationBudget : ℕ → ℕ

/-- Transcript of thread history, oldest items first. -/
structure ContextManager (ρ : Type) where
  items : List ResponseItem
  /-- Bumped whenever history is rewritten, such as compaction or rollback. -/
  historyVersion : ℕ
  referenceContextItem : Option ρ

variable {ρ : Type}

def ContextManager.new : ContextManager ρ where
  items := []
  historyVersion := 0
  referenceContextItem := none

/-! ### Recording items -/

variable (manager : ContextManager ρ) (host : Host) (policy : TruncationPolicy)
  (items : List ResponseItem)

/-- Only tool outputs are changed: they are truncated, with an allowance for serialisation. -/
def processItem : ResponseItem → ResponseItem
  | .functionCallOutput callId output metadata =>
    let policy := policy.withBudget (host.serializationBudget policy.budget)
    .functionCallOutput callId (truncateFunctionOutputPayload output policy) metadata
  | .customToolCallOutput callId name output metadata =>
    let policy := policy.withBudget (host.serializationBudget policy.budget)
    .customToolCallOutput callId name (truncateFunctionOutputPayload output policy) metadata
  | item => item

/-- What one item adds to the transcript. -/
def recorded (item : ResponseItem) : List ResponseItem :=
  if isApiMessage item then [processItem host policy item] else []

def ContextManager.recordItems : ContextManager ρ :=
  { manager with items := manager.items ++ items.flatMap (recorded host policy) }

def ContextManager.replace : ContextManager ρ :=
  { manager with items := items, historyVersion := manager.historyVersion + 1 }

/-! ### Dropping turns -/

/-- `user_message_positions`, counted from `idx`. -/
def userMessagePositionsFrom (host : Host) : ℕ → List ResponseItem → List ℕ
  | _, [] => []
  | idx, item :: items =>
    if isUserTurnBoundary host.toDecoders item then
      idx :: userMessagePositionsFrom host (idx + 1) items
    else userMessagePositionsFrom host (idx + 1) items

def userMessagePositions : List ℕ := userMessagePositionsFrom host 0 items

/-- A developer message that mixes context updates with other text. -/
def isMixedDevBundle : ResponseItem → Bool
  | .message _ role content _ _ =>
    role == "developer" && isContextualDevMessageContent content &&
      hasNonContextualDevMessageContent content
  | _ => false

/-- Walk backward from a rollback cut over the context updates in front of it, never across the
    first instruction turn. A mixed bundle that is trimmed clears the reference context. -/
def trimPreTurnContextUpdates (host : Host) (snapshot : List ResponseItem)
    (firstInstructionTurnIdx : ℕ) : ℕ → Option ρ → ℕ × Option ρ
  | 0, reference => (0, reference)
  | cutIdx + 1, reference =>
    if firstInstructionTurnIdx < cutIdx + 1 then
      match snapshot[cutIdx]? with
      | some item =>
        if isContextUpdate host.toDecoders item then
          trimPreTurnContextUpdates host snapshot firstInstructionTurnIdx cutIdx
            (if isMixedDevBundle item then none else reference)
        else (cutIdx + 1, reference)
      | none => (cutIdx + 1, reference)
    else (cutIdx + 1, reference)

/-- Drop the last `numTurns` instruction turns from this history. -/
def ContextManager.dropLastNUserTurns (numTurns : ℕ) : ContextManager ρ :=
  if numTurns = 0 then manager
  else
    let snapshot := manager.items
    let userPositions := userMessagePositions host snapshot
    match userPositions.head? with
    | none => manager.replace snapshot
    | some firstInstructionTurnIdx =>
      let cutIdx :=
        if userPositions.length ≤ numTurns then firstInstructionTurnIdx
        else userPositions.getD (userPositions.length - numTurns) 0
      let (cutIdx, reference) := trimPreTurnContextUpdates host snapshot
        firstInstructionTurnIdx cutIdx manager.referenceContextItem
      { manager with referenceContextItem := reference }.replace (snapshot.take cutIdx)

/-! ### What a rollback keeps -/

variable {host : Host}

/-- The number of items that stay when the last `numTurns` instruction turns are dropped. -/
def rollbackCut (host : Host) (items : List ResponseItem) (numTurns : ℕ) : ℕ :=
  ((⟨items, 0, none⟩ : ContextManager Unit).dropLastNUserTurns host numTurns).items.length

/-- Does the item start an instruction turn? -/
abbrev startsTurn (host : Host) : ResponseItem → Bool := isUserTurnBoundary host.toDecoders

/-- A context update never starts a turn. -/
theorem startsTurn_of_isContextUpdate {item : ResponseItem}
    (h : isContextUpdate host.toDecoders item) : startsTurn host item = false := by
  cases item <;> simp_all [isContextUpdate, isUserTurnBoundary]
  rcases h with ⟨rfl, -⟩ | ⟨rfl, hcontext⟩
  · exact ⟨fun h => absurd h (by decide), fun h => absurd h (by decide)⟩
  · exact ⟨fun _ => hcontext, fun h => absurd h (by decide)⟩

theorem userMessagePositionsFrom_append (idx : ℕ) (items items' : List ResponseItem) :
    userMessagePositionsFrom host idx (items ++ items') =
      userMessagePositionsFrom host idx items ++
        userMessagePositionsFrom host (idx + items.length) items' := by
  induction items generalizing idx with
  | nil => rfl
  | cons item items ih =>
    simp only [cons_append, userMessagePositionsFrom, ih, Nat.add_right_comm idx 1]
    split <;> rfl

theorem length_userMessagePositionsFrom (host : Host) (idx : ℕ) (items : List ResponseItem) :
    (userMessagePositionsFrom host idx items).length =
      items.countP (startsTurn host) := by
  induction items generalizing idx with
  | nil => rfl
  | cons item items ih =>
    cases h : startsTurn host item <;>
      simp [userMessagePositionsFrom, h, ih]

/-- The positions are those of turn boundaries. -/
theorem mem_userMessagePositionsFrom {idx i : ℕ} {items : List ResponseItem}
    (h : i ∈ userMessagePositionsFrom host idx items) :
    ∃ k item, i = idx + k ∧ items[k]? = some item ∧
      startsTurn host item := by
  induction items generalizing idx with
  | nil => cases h
  | cons item items ih =>
    have hcases : (startsTurn host item ∧ i = idx) ∨
        i ∈ userMessagePositionsFrom host (idx + 1) items := by
      cases hb : startsTurn host item <;>
        simp_all [userMessagePositionsFrom]
    rcases hcases with ⟨hb, rfl⟩ | h
    · exact ⟨0, item, rfl, rfl, hb⟩
    · obtain ⟨k, found, rfl, hk, hb⟩ := ih h
      exact ⟨k + 1, found, by omega, by simpa using hk, hb⟩

theorem trimPreTurnContextUpdates_self (snapshot : List ResponseItem) (cut : ℕ)
    (reference : Option ρ) :
    trimPreTurnContextUpdates host snapshot cut cut reference = (cut, reference) := by
  cases cut with
  | zero => rfl
  | succ cut => simp [trimPreTurnContextUpdates]

/-- The walk drops the context updates at the end of what is kept, and clears the reference
    context if one of them is a mixed bundle; the first instruction turn stops it. -/
theorem trimPreTurnContextUpdates_spec {snapshot : List ResponseItem} {first cut : ℕ}
    {item : ResponseItem} (hitem : snapshot[first]? = some item)
    (hboundary : startsTurn host item) (hlt : first < cut)
    (hle : cut ≤ snapshot.length) (reference : Option ρ) :
    snapshot.take (trimPreTurnContextUpdates host snapshot first cut reference).1 =
        (snapshot.take cut).rdropWhile (isContextUpdate host.toDecoders) ∧
      (trimPreTurnContextUpdates host snapshot first cut reference).2 =
        if ((snapshot.take cut).rtakeWhile (isContextUpdate host.toDecoders)).any
          isMixedDevBundle then none else reference := by
  induction cut generalizing reference with
  | zero => omega
  | succ cut ih =>
    have hget : snapshot[cut]? = some (snapshot[cut]) := getElem?_eq_getElem (by omega)
    rw [trimPreTurnContextUpdates, if_pos hlt, take_add_one, hget, Option.toList_some]
    dsimp only
    by_cases hupdate : isContextUpdate host.toDecoders snapshot[cut]
    · -- the boundary at `first` is no context update, so the walk is still behind it
      have hne : first ≠ cut := by
        rintro rfl
        rw [hget, Option.some_inj] at hitem
        rw [hitem] at hupdate
        rw [startsTurn_of_isContextUpdate hupdate] at hboundary
        cases hboundary
      rw [if_pos hupdate, rdropWhile_concat_pos _ _ _ hupdate, rtakeWhile_concat_pos _ _ _ hupdate]
      refine (ih (by omega) (by omega) _).imp_right fun hreference => ?_
      rw [hreference, any_append, any_cons, any_nil, Bool.or_false]
      cases isMixedDevBundle snapshot[cut]
      · rw [Bool.or_false]
        rfl
      · rw [Bool.or_true]
        exact ite_self none
    · rw [if_neg hupdate, rdropWhile_concat_neg _ _ _ hupdate, rtakeWhile_concat_neg _ _ _ hupdate,
        take_add_one, hget]
      exact ⟨rfl, rfl⟩

/-- What stays of the items in front of the dropped turns: without the context updates at the
    end, unless no instruction turn is left. -/
def keptFront (host : Host) (front : List ResponseItem) : List ResponseItem :=
  if front.any (isUserTurnBoundary host.toDecoders) then
    front.rdropWhile (isContextUpdate host.toDecoders)
  else front

/-- The context updates that dropping the last `numTurns` instruction turns trims: those directly
    above the first turn dropped, if a turn stays. -/
def trimmedUpdates (host : Host) (items : List ResponseItem) (numTurns : ℕ) : List ResponseItem :=
  let userPositions := userMessagePositions host items
  if userPositions.length ≤ numTurns then []
  else (items.take (userPositions.getD (userPositions.length - numTurns) 0)).rtakeWhile
    (isContextUpdate host.toDecoders)

namespace ContextManager

variable (manager : ContextManager ρ) {n : ℕ}

/-- Without an instruction turn there is nothing to drop. -/
theorem dropLastNUserTurns_of_none
    (hnone : manager.items.countP (startsTurn host) = 0) :
    (manager.dropLastNUserTurns host n).items = manager.items ∧
      (manager.dropLastNUserTurns host n).referenceContextItem = manager.referenceContextItem := by
  have hpositions : userMessagePositions host manager.items = [] :=
    eq_nil_of_length_eq_zero ((length_userMessagePositionsFrom host 0 _).trans hnone)
  unfold dropLastNUserTurns
  split
  · exact ⟨rfl, rfl⟩
  · simp [hpositions, replace]

/-- **The cut of a rollback**: it falls in front of the `n`-th instruction message from the end,
    or of the first one if there are fewer. -/
theorem dropLastNUserTurns_split {front rest : List ResponseItem} {message : ResponseItem}
    (hitems : manager.items = front ++ message :: rest) (hmsg : startsTurn host message)
    (hcount : rest.countP (startsTurn host) + 1 = n ∨ (rest.countP (startsTurn host) + 1 ≤ n ∧
        front.countP (startsTurn host) = 0)) :
    (manager.dropLastNUserTurns host n).items = keptFront host front ∧
      trimmedUpdates host manager.items n =
        (if front.any (startsTurn host) then
          front.rtakeWhile (isContextUpdate host.toDecoders) else []) ∧
      (manager.dropLastNUserTurns host n).referenceContextItem =
        if (trimmedUpdates host manager.items n).any isMixedDevBundle then none
        else manager.referenceContextItem := by
  have hpositions : userMessagePositions host manager.items =
      userMessagePositionsFrom host 0 front ++
        front.length :: userMessagePositionsFrom host (front.length + 1) rest := by
    rw [hitems, userMessagePositions, userMessagePositionsFrom_append, Nat.zero_add]
    simp [userMessagePositionsFrom, hmsg]
  have hfront := length_userMessagePositionsFrom host 0 front
  have hrest := length_userMessagePositionsFrom host (front.length + 1) rest
  have htake : manager.items.take front.length = front := by rw [hitems]; simp
  have hn : n ≠ 0 := by omega
  cases hcases : userMessagePositionsFrom host 0 front with
  | nil =>
    -- no turn in front: the cut is at the first instruction message
    have hzero : front.countP (startsTurn host) = 0 := by
      rw [← hfront, hcases]; rfl
    have hany : front.any (startsTurn host) = false := by
      simpa using hzero
    rw [hcases, nil_append] at hpositions
    have hle : (userMessagePositions host manager.items).length ≤ n := by
      rw [hpositions, length_cons]; omega
    have hhead : (userMessagePositions host manager.items).head? = some front.length := by
      rw [hpositions]; rfl
    simp only [dropLastNUserTurns, trimmedUpdates, hn, hhead, if_pos hle,
      trimPreTurnContextUpdates_self, htake, keptFront, hany]
    exact ⟨rfl, rfl, rfl⟩
  | cons first positions =>
    have hfirst : first ∈ userMessagePositionsFrom host 0 front := by rw [hcases]; simp
    obtain ⟨k, item, hk, hget, hboundary⟩ := mem_userMessagePositionsFrom hfirst
    obtain rfl : first = k := by omega
    have hlt : first < front.length := (List.getElem?_eq_some_iff.mp hget).1
    have hany : front.any (startsTurn host) :=
      any_eq_true.mpr ⟨item, mem_of_getElem? hget, hboundary⟩
    have hpos : 0 < front.countP (startsTurn host) := by
      rw [← hfront, hcases]; exact Nat.succ_pos _
    have hlength : (userMessagePositions host manager.items).length =
        front.countP (startsTurn host) + n := by
      rw [hpositions, length_append, length_cons]; omega
    have hcut : (userMessagePositions host manager.items).getD
        (front.countP (startsTurn host) + n - n) 0 = front.length := by
      rw [hpositions, ← hfront]; simp
    have hget' : manager.items[first]? = some item := by
      rw [hitems, getElem?_append_left hlt]; exact hget
    have hhead : (userMessagePositions host manager.items).head? = some first := by
      rw [hpositions, hcases]; rfl
    have hspec := trimPreTurnContextUpdates_spec hget' hboundary hlt (by rw [hitems]; simp)
      manager.referenceContextItem
    rw [htake] at hspec
    have hgt : ¬ front.countP (startsTurn host) + n ≤ n := by omega
    simp only [dropLastNUserTurns, trimmedUpdates, hn, hhead, hlength, if_neg hgt, hcut,
      keptFront, if_pos hany, htake]
    exact ⟨hspec.1, trivial, hspec.2⟩

end ContextManager

variable (front : List ResponseItem)

theorem keptFront_initial : keptFront host front <+: front := by
  unfold keptFront
  split
  · exact rdropWhile_prefix _ front
  · exact prefix_refl _

theorem countP_keptFront :
    (keptFront host front).countP (startsTurn host) =
      front.countP (startsTurn host) := by
  unfold keptFront
  split
  · -- the dropped tail holds context updates only
    conv_rhs => rw [← rdropWhile_append_rtakeWhile (p := isContextUpdate host.toDecoders)
      (l := front), countP_append]
    have htail : (front.rtakeWhile (isContextUpdate host.toDecoders)).countP
        (startsTurn host) = 0 := by
      refine countP_eq_zero.mpr fun item hitem => ?_
      rw [startsTurn_of_isContextUpdate (mem_rtakeWhile_imp hitem)]
      decide
    omega
  · rfl

namespace ContextManager

variable (manager : ContextManager ρ) (n : ℕ)

/-- Every rollback is a cut: none of the items, or the part in front of an instruction message
    with the turns to drop behind it. -/
theorem dropLastNUserTurns_cases (host : Host) :
    ((manager.dropLastNUserTurns host n).items = manager.items ∧
      (n = 0 ∨ manager.items.countP (startsTurn host) = 0)) ∨
    ∃ front message rest, manager.items = front ++ message :: rest ∧
      startsTurn host message ∧
      (rest.countP (startsTurn host) + 1 = n ∨ (rest.countP (startsTurn host) + 1 ≤ n ∧
          front.countP (startsTurn host) = 0)) ∧
      (manager.dropLastNUserTurns host n).items = keptFront host front := by
  rcases Nat.eq_zero_or_pos n with rfl | hn
  · exact .inl ⟨rfl, .inl rfl⟩
  rcases Nat.eq_zero_or_pos (manager.items.countP (startsTurn host)) with
    hzero | hpos
  · exact .inl ⟨(manager.dropLastNUserTurns_of_none hzero).1, .inr hzero⟩
  · right
    obtain ⟨front, message, rest, hitems, hmsg, hrest⟩ := Data.exists_split_countP
      (startsTurn host) (Nat.lt_min.mpr ⟨hn, hpos⟩)
      (Nat.min_le_right _ _)
    have htotal : manager.items.countP (startsTurn host) = front.countP (startsTurn host) +
          (rest.countP (startsTurn host) + 1) := by
      rw [hitems, countP_append, countP_cons_of_pos hmsg]
    have hcount : rest.countP (startsTurn host) + 1 = n ∨
        (rest.countP (startsTurn host) + 1 ≤ n ∧ front.countP (startsTurn host) = 0) := by
      omega
    exact ⟨front, message, rest, hitems, hmsg, hcount,
      (manager.dropLastNUserTurns_split hitems hmsg hcount).1⟩

theorem items_dropLastNUserTurns_initial (host : Host) :
    (manager.dropLastNUserTurns host n).items <+: manager.items := by
  rcases manager.dropLastNUserTurns_cases n host with
    ⟨hsame, -⟩ | ⟨front, message, rest, hitems, -, -, hdrop⟩
  · exact hsame ▸ prefix_refl _
  · rw [hdrop, hitems]
    exact (keptFront_initial front).trans (prefix_append _ _)

/-- A rollback takes back exactly `n` instruction messages, or all there are. -/
theorem countP_dropLastNUserTurns (host : Host) :
    (manager.dropLastNUserTurns host n).items.countP (startsTurn host) =
      manager.items.countP (startsTurn host) - n := by
  rcases manager.dropLastNUserTurns_cases n host with
    ⟨hsame, hn⟩ | ⟨front, message, rest, hitems, hmsg, hcount, hdrop⟩
  · rw [hsame]; omega
  · rw [hdrop, countP_keptFront, hitems, countP_append, countP_cons_of_pos hmsg]
    omega

theorem items_dropLastNUserTurns_congr (host : Host) {ρ' : Type}
    (manager' : ContextManager ρ') (h : manager.items = manager'.items) :
    (manager.dropLastNUserTurns host n).items = (manager'.dropLastNUserTurns host n).items := by
  rcases manager.dropLastNUserTurns_cases n host with
    ⟨hsame, hn | hzero⟩ | ⟨front, message, rest, hitems, hmsg, hcount, hdrop⟩
  · rw [hsame, h, hn]; rfl
  · rw [hsame, (manager'.dropLastNUserTurns_of_none (h ▸ hzero)).1, h]
  · rw [hdrop, (manager'.dropLastNUserTurns_split (h ▸ hitems) hmsg hcount).1]

theorem items_dropLastNUserTurns_eq_take (host : Host) :
    (manager.dropLastNUserTurns host n).items =
      manager.items.take (rollbackCut host manager.items n) := by
  have hcut := manager.items_dropLastNUserTurns_congr n host
    (⟨manager.items, 0, none⟩ : ContextManager Unit) rfl
  rw [rollbackCut, ← hcut]
  exact prefix_iff_eq_take.mp (manager.items_dropLastNUserTurns_initial n host)

/-! ### Two rollbacks in a row -/

/-- Dropping every turn trims nothing. -/
theorem trimmedUpdates_of_le {items : List ResponseItem} (h : items.countP (startsTurn host) ≤ n) :
    trimmedUpdates host items n = [] :=
  if_pos ((length_userMessagePositionsFrom host 0 items).trans_le h)

/-- A rollback clears the reference context exactly if it trims a mixed bundle. -/
theorem reference_dropLastNUserTurns (host : Host) :
    (manager.dropLastNUserTurns host n).referenceContextItem =
      if (trimmedUpdates host manager.items n).any isMixedDevBundle then none
      else manager.referenceContextItem := by
  rcases manager.dropLastNUserTurns_cases n host with
    ⟨-, rfl | hzero⟩ | ⟨front, message, rest, hitems, hmsg, hcount, -⟩
  · simp [dropLastNUserTurns, trimmedUpdates]
  · rw [(manager.dropLastNUserTurns_of_none hzero).2, trimmedUpdates_of_le n (by omega)]
    rfl
  · exact (manager.dropLastNUserTurns_split hitems hmsg hcount).2.2

/-- A rollback after another cuts and trims where one rollback of all the turns does. -/
theorem dropLastNUserTurns_twice (host : Host) {m : ℕ} (hm : m ≠ 0) :
    ((manager.dropLastNUserTurns host n).dropLastNUserTurns host m).items =
        (manager.dropLastNUserTurns host (n + m)).items ∧
      trimmedUpdates host (manager.dropLastNUserTurns host n).items m =
        trimmedUpdates host manager.items (n + m) := by
  rcases manager.dropLastNUserTurns_cases n host with
    ⟨hsame, rfl | hzero⟩ | ⟨front, message, rest, hitems, hmsg, hcount, hdrop⟩
  · rw [Nat.zero_add]
    exact ⟨rfl, rfl⟩
  · rw [((manager.dropLastNUserTurns host n).dropLastNUserTurns_of_none (hsame ▸ hzero)).1, hsame,
      (manager.dropLastNUserTurns_of_none hzero).1, trimmedUpdates_of_le m (by omega),
      trimmedUpdates_of_le (n + m) (by omega)]
    exact ⟨rfl, rfl⟩
  have hkept : (manager.dropLastNUserTurns host n).items.countP
      (startsTurn host) = front.countP (startsTurn host) := hdrop ▸ countP_keptFront front
  rcases (manager.dropLastNUserTurns host n).dropLastNUserTurns_cases m host with
    ⟨hsame, hzero⟩ | ⟨front', message', rest', hitems', hmsg', hcount', hdrop'⟩
  · -- no turn is left for the second rollback
    have hnone := hkept ▸ hzero.resolve_left hm
    have htotal : manager.items.countP (startsTurn host) ≤ n + m := by
      rw [hitems, countP_append, countP_cons_of_pos hmsg]
      omega
    rw [hsame, hdrop, (manager.dropLastNUserTurns_split hitems hmsg
      (.inr ⟨by omega, hnone⟩)).1, trimmedUpdates_of_le _ htotal, ← hdrop,
      trimmedUpdates_of_le m (by omega)]
    exact ⟨rfl, rfl⟩
  · -- the second cut, seen in the whole transcript: no turn starts in what the first one trimmed
    obtain ⟨updates, hfront⟩ : (manager.dropLastNUserTurns host n).items <+: front :=
      hdrop ▸ keptFront_initial front
    have hupdates : updates.countP (startsTurn host) = 0 := by
      have hcountP := congrArg (countP (startsTurn host)) hfront
      rw [countP_append] at hcountP
      omega
    have hwhole : manager.items =
        front' ++ message' :: (rest' ++ (updates ++ message :: rest)) := by
      rw [hitems, ← hfront, hitems']
      simp
    have hfront' : front.countP (startsTurn host) = front'.countP (startsTurn host) +
          (rest'.countP (startsTurn host) + 1) := by
      rw [← hkept, hitems', countP_append, countP_cons_of_pos hmsg']
    have hsplit := manager.dropLastNUserTurns_split (n := n + m) hwhole hmsg' (by
      rw [countP_append, countP_append, countP_cons_of_pos hmsg]
      omega)
    rw [hdrop', hsplit.1, hsplit.2.1, ((manager.dropLastNUserTurns host n).dropLastNUserTurns_split
      hitems' hmsg' hcount').2.1]
    exact ⟨rfl, rfl⟩

/-- **Rollbacks compose** — two in a row leave the transcript and the reference context that one
    of all their turns leaves — exactly if there is no reference context, or the mixed bundles
    that the first of the two trims are matched by one that the single rollback trims. -/
theorem dropLastNUserTurns_add_iff (host : Host) (m : ℕ) :
    (((manager.dropLastNUserTurns host n).dropLastNUserTurns host m).items =
        (manager.dropLastNUserTurns host (n + m)).items ∧
      ((manager.dropLastNUserTurns host n).dropLastNUserTurns host m).referenceContextItem =
        (manager.dropLastNUserTurns host (n + m)).referenceContextItem) ↔
      (manager.referenceContextItem = none ∨
        ((trimmedUpdates host manager.items n).any isMixedDevBundle →
          (trimmedUpdates host manager.items (n + m)).any isMixedDevBundle)) := by
  rcases Nat.eq_zero_or_pos m with rfl | hm
  · exact ⟨fun _ => .inr id, fun _ => ⟨rfl, rfl⟩⟩
  obtain ⟨hitems, htrimmed⟩ := manager.dropLastNUserTurns_twice n host (Nat.pos_iff_ne_zero.mp hm)
  rw [reference_dropLastNUserTurns, reference_dropLastNUserTurns, reference_dropLastNUserTurns,
    htrimmed]
  cases (trimmedUpdates host manager.items n).any isMixedDevBundle <;>
    cases (trimmedUpdates host manager.items (n + m)).any isMixedDevBundle <;>
    simp [hitems, eq_comm]

/-- A mixed bundle between two turns: a rollback of each turn clears the reference context, and
    one of both turns keeps it, though the bundle is gone. -/
theorem not_dropLastNUserTurns_one_one :
    let message (role text : String) : ResponseItem :=
      .message none role.toList [.inputText text.toList, .inputText "b"] none none
    let manager : ContextManager Unit :=
      ⟨[message "user" "a", message "developer" "<model_switch>", message "user" "a"], 0, some ()⟩
    let host : Host := ⟨⟨fun _ => false, fun _ => none⟩, id⟩
    ((manager.dropLastNUserTurns host 1).dropLastNUserTurns host 1).referenceContextItem = none ∧
      (manager.dropLastNUserTurns host 2).referenceContextItem = some () := by
  decide

end ContextManager

/-! ### Legacy compaction -/

/-- A user message and its metadata, as compaction keeps them. -/
structure CompactedUserMessage where
  message : Text
  metadata : Option ResponseItemMetadata

def isInputImage : Option ContentItem → Bool
  | some (.inputImage _ _) => true
  | _ => false

def isImageOpenTagText (text : Text) : Bool :=
  (match stripPrefix "<image name=" text with
    | some rest => ">".toList.isSuffixOf rest
    | none => false) ||
  text == "<image>"

def isImageCloseTagText (text : Text) : Bool := text == "</image>"

/-- The text of the parsed user message: its text parts, without the tags around an image. -/
def userMessageText (content : List ContentItem) : Text :=
  (content.zipIdx.map fun
    | (.inputText text, idx) =>
      if (isImageOpenTagText text && isInputImage content[idx + 1]?) ||
          (0 < idx && isImageCloseTagText text && isInputImage content[idx - 1]?) then []
      else text
    | _ => []).flatten

/-- `parse_turn_item(item)`, for the items it takes for user messages. -/
def parseUserMessageItem (decoders : Decoders) : ResponseItem → Option CompactedUserMessage
  | .message _ role content _ metadata =>
    if role == "user" && !isVisibleHookPromptMessage decoders content &&
        !isContextualUserMessageContent decoders content then
      some { message := userMessageText content, metadata := metadata }
    else none
  | _ => none

def summaryPrefix : Text :=
  ("Another language model started to solve this problem and produced a summary of its " ++
    "thinking process. You also have access to the state of the tools that were used by that " ++
    "language model. Use this to build on the work that has already been done and avoid " ++
    "duplicating work. Here is the summary produced by the other language model, use the " ++
    "information in this summary to assist with your own analysis:").toList

def isSummaryMessage (message : Text) : Bool := (summaryPrefix ++ ['\n']).isPrefixOf message

def collectUserMessages (decoders : Decoders) (items : List ResponseItem) :
    List CompactedUserMessage :=
  (items.filterMap (parseUserMessageItem decoders)).filter fun user =>
    !isSummaryMessage user.message

def compactUserMessageMaxTokens : ℕ := 20000

/-- The newest messages that fit into the budget, newest first; the one that does not fit any more
    is truncated. -/
def selectMessages : ℕ → List CompactedUserMessage → List CompactedUserMessage
  | _, [] => []
  | remaining, message :: older =>
    if remaining = 0 then []
    else
      let tokens := approxTokenCount message.message
      if tokens ≤ remaining then message :: selectMessages (remaining - tokens) older
      else [{ message with message := truncateText message.message (.tokens remaining) }]

/-- A user message of one text. -/
def userTextMessage (text : Text) (metadata : Option ResponseItemMetadata) : ResponseItem :=
  .message none "user" [.inputText text] none metadata

/-- `build_compacted_history` after the given initial context. -/
def buildCompactedHistory (initialContext : List ResponseItem)
    (userMessages : List CompactedUserMessage) (summaryText : Text) : List ResponseItem :=
  let selected := (selectMessages compactUserMessageMaxTokens userMessages.reverse).reverse
  let summaryText :=
    if summaryText.isEmpty then "(no summary available)".toList else summaryText
  initialContext ++ selected.map (fun user => userTextMessage user.message user.metadata) ++
    [userTextMessage summaryText none]

end Codex.Context
