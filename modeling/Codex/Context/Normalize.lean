import Codex.Context.ResponseItem
import Codex.Data.InsertAfter

namespace Codex.Context

open List Option Bool

/-!
# Pairing calls with their outputs

Before the history goes to the model, every call gets an output and every output without a call is
removed.

* `ensureCallOutputsPresent` — insert a synthetic output behind every call that has none.
* `removeOrphanOutputs` — drop the outputs whose call is missing.
* `callKey`, `outputKey` — the kind and the id by which calls and outputs belong together.
* `pairCallsAndOutputs_spec` — the two passes, one after the other.
* `removeFirstItem` — drop the oldest item, and its counterpart.
* `paired_removeFirstItem_iff` — when the rest is still paired.

A set of ids is a list that is only asked for membership. `error_or_panic` only logs in release
builds.
-/

/-! ### The two passes -/

variable (items : List ResponseItem)

def functionOutputIds : List Text :=
  items.filterMap fun
    | .functionCallOutput callId _ _ => some callId
    | _ => none

def toolSearchOutputIds : List Text :=
  items.filterMap fun
    | .toolSearchOutput (some callId) _ _ _ _ => some callId
    | _ => none

def customToolOutputIds : List Text :=
  items.filterMap fun
    | .customToolCallOutput callId _ _ _ => some callId
    | _ => none

/-- The payload of an output that never came. -/
def abortedPayload : FunctionCallOutputPayload := .fromText "aborted"

/-- The synthetic output of a call that has none in `items`. -/
def missingOutput : ResponseItem → Option ResponseItem
  | .functionCall _ _ _ _ callId _ =>
    if (functionOutputIds items).contains callId then none
    else some (.functionCallOutput callId abortedPayload none)
  | .toolSearchCall _ (some callId) _ _ _ _ =>
    if (toolSearchOutputIds items).contains callId then none
    else some (.toolSearchOutput (some callId) "completed" "client" [] none)
  | .customToolCall _ _ callId _ _ _ =>
    if (customToolOutputIds items).contains callId then none
    else some (.customToolCallOutput callId none abortedPayload none)
  -- a local shell call is answered by the output of a function call
  | .localShellCall _ (some callId) _ _ _ =>
    if (functionOutputIds items).contains callId then none
    else some (.functionCallOutput callId abortedPayload none)
  | _ => none

def ensureCallOutputsPresent : List ResponseItem :=
  Data.insertCompanions items (Data.companions (missingOutput items) items 0)

def functionCallIds : List Text :=
  items.filterMap fun
    | .functionCall _ _ _ _ callId _ => some callId
    | _ => none

def toolSearchCallIds : List Text :=
  items.filterMap fun
    | .toolSearchCall _ (some callId) _ _ _ _ => some callId
    | _ => none

def localShellCallIds : List Text :=
  items.filterMap fun
    | .localShellCall _ (some callId) _ _ _ => some callId
    | _ => none

def customToolCallIds : List Text :=
  items.filterMap fun
    | .customToolCall _ _ callId _ _ _ => some callId
    | _ => none

/-- The item is retained: it is no output, or its call is in `items`. -/
def hasMatch : ResponseItem → Bool
  | .functionCallOutput callId _ _ =>
    (functionCallIds items).contains callId || (localShellCallIds items).contains callId
  | .customToolCallOutput callId _ _ _ => (customToolCallIds items).contains callId
  | .toolSearchOutput callId _ execution _ _ =>
    if execution == "server" then true
    else
      match callId with
      | some callId => (toolSearchCallIds items).contains callId
      | none => true
  | _ => true

def removeOrphanOutputs : List ResponseItem := items.filter (hasMatch items)

/-- The two passes of `normalize_history` on calls and outputs. -/
def pairCallsAndOutputs : List ResponseItem := removeOrphanOutputs (ensureCallOutputsPresent items)

/-! ### Calls and outputs that belong together -/

/-- The kinds of outputs. -/
inductive OutputKind where
  | function | customTool | toolSearch
  deriving DecidableEq

/-- The kind of output a call expects, and the id of the call. -/
def callKey : ResponseItem → Option (OutputKind × Text)
  | .functionCall _ _ _ _ callId _ => some (.function, callId)
  | .localShellCall _ (some callId) _ _ _ => some (.function, callId)
  | .customToolCall _ _ callId _ _ _ => some (.customTool, callId)
  | .toolSearchCall _ (some callId) _ _ _ _ => some (.toolSearch, callId)
  | _ => none

/-- The kind of an output, and the id of its call. -/
def outputKey : ResponseItem → Option (OutputKind × Text)
  | .functionCallOutput callId _ _ => some (.function, callId)
  | .customToolCallOutput callId _ _ _ => some (.customTool, callId)
  | .toolSearchOutput (some callId) _ _ _ _ => some (.toolSearch, callId)
  | _ => none

/-- The output of a search that ran on the server, which needs no call. -/
def isServerOutput : ResponseItem → Bool
  | .toolSearchOutput _ _ execution _ _ => execution == "server"
  | _ => false

/-- The synthetic output of a call with the given key. -/
def syntheticOutput : OutputKind × Text → ResponseItem
  | (.function, callId) => .functionCallOutput callId abortedPayload none
  | (.customTool, callId) => .customToolCallOutput callId none abortedPayload none
  | (.toolSearch, callId) =>
    .toolSearchOutput (some callId) "completed" "client" [] none

/-- An output with the key is among the items. -/
def hasOutput (key : OutputKind × Text) : Bool := items.any fun item => outputKey item == some key

/-- A call with the key is among the items. -/
def hasCall (key : OutputKind × Text) : Bool := items.any fun item => callKey item == some key

variable {items : List ResponseItem} {key : OutputKind × Text}

theorem hasOutput_iff : hasOutput items key ↔ ∃ item ∈ items, outputKey item = some key := by
  simp [hasOutput]

theorem hasCall_iff : hasCall items key ↔ ∃ item ∈ items, callKey item = some key := by
  simp [hasCall]

@[simp] theorem outputKey_syntheticOutput (key : OutputKind × Text) :
    outputKey (syntheticOutput key) = some key := by
  obtain ⟨kind, callId⟩ := key
  cases kind <;> rfl

@[simp] theorem callKey_syntheticOutput (key : OutputKind × Text) :
    callKey (syntheticOutput key) = none := by
  obtain ⟨kind, callId⟩ := key
  cases kind <;> rfl

variable (items)

/-- Asking the ids of one kind of item is asking the items. -/
theorem contains_outputIds (callId : Text) :
    (functionOutputIds items).contains callId = hasOutput items (.function, callId) ∧
      (customToolOutputIds items).contains callId = hasOutput items (.customTool, callId) ∧
      (toolSearchOutputIds items).contains callId = hasOutput items (.toolSearch, callId) := by
  refine ⟨?_, ?_, ?_⟩
  all_goals
    rw [Bool.eq_iff_iff, hasOutput_iff, List.contains_iff_mem]
    refine mem_filterMap.trans (exists_congr fun item => and_congr_right fun _ => ?_)
    cases item with
    | toolSearchOutput id => cases id <;> simp [outputKey]
    | _ => simp [outputKey]

variable (item : ResponseItem)

/-- **The missing outputs, by keys.** -/
theorem missingOutput_eq :
    missingOutput items item = (callKey item).bind fun key =>
      if hasOutput items key then none else some (syntheticOutput key) := by
  cases item with
  | functionCall id name callNamespace arguments callId metadata =>
    rw [missingOutput, (contains_outputIds items callId).1]; rfl
  | customToolCall id status callId name input metadata =>
    rw [missingOutput, (contains_outputIds items callId).2.1]; rfl
  | toolSearchCall id callId status execution arguments metadata =>
    cases callId with
    | none => rfl
    | some callId => rw [missingOutput, (contains_outputIds items callId).2.2]; rfl
  | localShellCall id callId status action metadata =>
    cases callId with
    | none => rfl
    | some callId => rw [missingOutput, (contains_outputIds items callId).1]; rfl
  | _ => rfl

/-- The output of a function is matched by a function call or by a local shell call. -/
theorem contains_callIds (callId : Text) :
    ((functionCallIds items).contains callId || (localShellCallIds items).contains callId) =
        hasCall items (.function, callId) ∧
      (customToolCallIds items).contains callId = hasCall items (.customTool, callId) ∧
      (toolSearchCallIds items).contains callId = hasCall items (.toolSearch, callId) := by
  refine ⟨?_, ?_, ?_⟩
  all_goals
    rw [Bool.eq_iff_iff, hasCall_iff]
    simp only [functionCallIds, localShellCallIds, customToolCallIds, toolSearchCallIds,
      or_eq_true, contains_iff_mem, mem_filterMap, ← exists_or, ← and_or_left]
    refine exists_congr fun item => and_congr_right fun _ => ?_
    cases item with
    | localShellCall id callId | toolSearchCall id callId => cases callId <;> simp [callKey]
    | _ => simp [callKey]

/-- **The items that are retained, by keys.** -/
theorem hasMatch_eq :
    hasMatch items item = (isServerOutput item || (outputKey item).all (hasCall items)) := by
  cases item with
  | functionCallOutput callId output metadata =>
    rw [hasMatch, (contains_callIds items callId).1]; rfl
  | customToolCallOutput callId name output metadata =>
    rw [hasMatch, (contains_callIds items callId).2.1]; rfl
  | toolSearchOutput callId status execution tools metadata =>
    cases callId with
    | none =>
      simp only [hasMatch, isServerOutput]
      cases execution == "server" <;> rfl
    | some callId =>
      simp only [hasMatch, isServerOutput, (contains_callIds items callId).2.2]
      cases execution == "server" <;> rfl
  | _ => rfl

/-! ### The pairing -/

theorem ensureCallOutputsPresent_eq :
    ensureCallOutputsPresent items =
      items.flatMap fun item => item :: (missingOutput items item).toList :=
  Data.insertCompanions_companions _ _

variable {items}

theorem missingOutput_eq_some {item output : ResponseItem}
    (h : missingOutput items item = some output) :
    ∃ key, callKey item = some key ∧ hasOutput items key = false ∧ output = syntheticOutput key := by
  rw [missingOutput_eq] at h
  obtain ⟨key, hkey, hif⟩ := bind_eq_some_iff.mp h
  refine ⟨key, hkey, ?_⟩
  cases houtput : hasOutput items key with
  | true => rw [houtput] at hif; cases hif
  | false => rw [houtput] at hif; exact ⟨rfl, (some_inj.mp hif).symm⟩

/-- The first pass adds no calls. -/
theorem hasCall_ensureCallOutputsPresent (items : List ResponseItem) (key : OutputKind × Text) :
    hasCall (ensureCallOutputsPresent items) key = hasCall items key := by
  have hmissing : ∀ item, (missingOutput items item).toList.any
      (fun item => callKey item == some key) = false := by
    intro item
    cases h : missingOutput items item with
    | none => rfl
    | some output =>
      obtain ⟨found, -, -, rfl⟩ := missingOutput_eq_some h
      simp
  rw [ensureCallOutputsPresent_eq]
  simp [hmissing, hasCall]

/-- Calls are never removed. -/
theorem hasMatch_of_callKey {item : ResponseItem} (h : callKey item = some key) :
    hasMatch items item := by
  have hcall : outputKey item = none := by
    cases item <;> first | rfl | cases h
  rw [hasMatch_eq, hcall, Option.all_none, Bool.or_true]

/-- **The two passes at once**: the items that are retained keep their order, and every inserted
    output stands right behind its call. -/
theorem pairCallsAndOutputs_eq (items : List ResponseItem) :
    pairCallsAndOutputs items =
      (items.filter (hasMatch items)).flatMap fun item =>
        item :: (missingOutput items item).toList := by
  have hmatch : hasMatch (ensureCallOutputsPresent items) = hasMatch items := by
    funext item
    rw [hasMatch_eq, hasMatch_eq, funext (hasCall_ensureCallOutputsPresent items)]
  rw [pairCallsAndOutputs, removeOrphanOutputs, hmatch, ensureCallOutputsPresent_eq]
  refine Data.filter_companions _ _ _ fun item hitem output hmissing => ?_
  -- the inserted output finds the call it was inserted for
  obtain ⟨key, hkey, -, rfl⟩ := missingOutput_eq_some hmissing
  refine ⟨hasMatch_of_callKey hkey, ?_⟩
  rw [hasMatch_eq, outputKey_syntheticOutput, all_some,
    hasCall_iff.mpr ⟨item, hitem, hkey⟩, Bool.or_true]

theorem mem_pairCallsAndOutputs {found : ResponseItem} :
    found ∈ pairCallsAndOutputs items ↔
      (found ∈ items ∧ hasMatch items found) ∨
        ∃ item ∈ items, missingOutput items item = some found := by
  rw [pairCallsAndOutputs_eq, mem_flatMap]
  constructor
  · rintro ⟨item, hitem, hfound⟩
    obtain ⟨hitem, hmatch⟩ := mem_filter.mp hitem
    rcases mem_cons.mp hfound with rfl | hfound
    · exact .inl ⟨hitem, hmatch⟩
    · exact .inr ⟨item, hitem, mem_toList.mp hfound⟩
  · rintro (⟨hitem, hmatch⟩ | ⟨item, hitem, hmissing⟩)
    · exact ⟨found, mem_filter.mpr ⟨hitem, hmatch⟩, mem_cons_self⟩
    · obtain ⟨key, hkey, -, -⟩ := missingOutput_eq_some hmissing
      exact ⟨item, mem_filter.mpr ⟨hitem, hasMatch_of_callKey hkey⟩,
        mem_cons_of_mem _ (mem_toList.mpr hmissing)⟩

/-- The calls of the result are those of the items. -/
theorem hasCall_pairCallsAndOutputs (items : List ResponseItem) (key : OutputKind × Text) :
    hasCall (pairCallsAndOutputs items) key = hasCall items key := by
  rw [Bool.eq_iff_iff, hasCall_iff, hasCall_iff]
  constructor
  · rintro ⟨call, hcall, hkey⟩
    rcases mem_pairCallsAndOutputs.mp hcall with ⟨hitem, -⟩ | ⟨item, -, hmissing⟩
    · exact ⟨call, hitem, hkey⟩
    · obtain ⟨found, -, -, rfl⟩ := missingOutput_eq_some hmissing
      rw [callKey_syntheticOutput] at hkey
      cases hkey
  · rintro ⟨call, hcall, hkey⟩
    exact ⟨call, mem_pairCallsAndOutputs.mpr (.inl ⟨hcall, hasMatch_of_callKey hkey⟩), hkey⟩

/-- Every call of the result has its output there. -/
theorem hasOutput_pairCallsAndOutputs (h : hasCall items key) :
    hasOutput (pairCallsAndOutputs items) key := by
  obtain ⟨call, hcall, hkey⟩ := hasCall_iff.mp h
  rw [hasOutput_iff]
  cases houtput : hasOutput items key with
  | true =>
    obtain ⟨output, hitem, houtput⟩ := hasOutput_iff.mp houtput
    refine ⟨output, mem_pairCallsAndOutputs.mpr (.inl ⟨hitem, ?_⟩), houtput⟩
    rw [hasMatch_eq, houtput, Option.all_some, h, Bool.or_true]
  | false =>
    refine ⟨syntheticOutput key, mem_pairCallsAndOutputs.mpr (.inr ⟨call, hcall, ?_⟩),
      outputKey_syntheticOutput key⟩
    rw [missingOutput_eq, hkey, bind_some, houtput]
    rfl

/-- Every output of the result that needs a call has it there. -/
theorem hasMatch_of_mem_pairCallsAndOutputs {output : ResponseItem}
    (h : output ∈ pairCallsAndOutputs items) : hasMatch items output := by
  rcases mem_pairCallsAndOutputs.mp h with ⟨-, hmatch⟩ | ⟨item, hitem, hmissing⟩
  · exact hmatch
  · obtain ⟨key, hkey, -, rfl⟩ := missingOutput_eq_some hmissing
    rw [hasMatch_eq, outputKey_syntheticOutput, all_some,
      hasCall_iff.mpr ⟨item, hitem, hkey⟩, Bool.or_true]

/-- A list in which everything is paired is not changed. -/
theorem pairCallsAndOutputs_eq_self
    (hcalls : ∀ key, hasCall items key → hasOutput items key)
    (houtputs : ∀ output ∈ items, hasMatch items output) :
    pairCallsAndOutputs items = items := by
  rw [pairCallsAndOutputs_eq, filter_eq_self.mpr houtputs]
  refine (flatMap_congr fun item hitem => ?_).trans (flatMap_singleton' items)
  cases hmissing : missingOutput items item with
  | none => rfl
  | some output =>
    obtain ⟨key, hkey, hnone, -⟩ := missingOutput_eq_some hmissing
    rw [hcalls key (hasCall_iff.mpr ⟨item, hitem, hkey⟩)] at hnone
    cases hnone

/-- **The history that goes to the model is well paired.** Every call with an id has an output of
    its kind with that id, and every client output with an id has its call. The items that stay
    are those that are no outputs or have a call, in the same order, with each inserted output right
    behind the call it answers, inserted because the call had none. Running the passes again
    changes nothing. -/
theorem pairCallsAndOutputs_spec (items : List ResponseItem) :
    (∀ call ∈ pairCallsAndOutputs items, ∀ key, callKey call = some key →
      ∃ output ∈ pairCallsAndOutputs items, outputKey output = some key) ∧
    (∀ output ∈ pairCallsAndOutputs items, isServerOutput output = false →
      ∀ key, outputKey output = some key →
        ∃ call ∈ pairCallsAndOutputs items, callKey call = some key) ∧
    (∃ inserted : ResponseItem → Option ResponseItem, pairCallsAndOutputs items =
        ((items.filter fun item => isServerOutput item || (outputKey item).all (hasCall items)).flatMap
          fun item => item :: (inserted item).toList) ∧
      ∀ item output, inserted item = some output →
        callKey item = outputKey output ∧ (callKey item).isSome ∧
          ∀ present ∈ items, outputKey present ≠ outputKey output) ∧
    pairCallsAndOutputs (pairCallsAndOutputs items) = pairCallsAndOutputs items := by
  refine ⟨fun call hcall key hkey => ?_, fun output houtput hserver key hkey => ?_, ?_, ?_⟩
  · apply hasOutput_iff.mp
    apply hasOutput_pairCallsAndOutputs
    rw [← hasCall_pairCallsAndOutputs]
    exact hasCall_iff.mpr ⟨call, hcall, hkey⟩
  · have hmatch := hasMatch_of_mem_pairCallsAndOutputs houtput
    rw [hasMatch_eq, hserver, hkey, Option.all_some, ← hasCall_pairCallsAndOutputs] at hmatch
    exact hasCall_iff.mp hmatch
  · simp only [← hasMatch_eq]
    refine ⟨missingOutput items, pairCallsAndOutputs_eq items, fun item output hmissing => ?_⟩
    obtain ⟨key, hkey, hnone, rfl⟩ := missingOutput_eq_some hmissing
    rw [outputKey_syntheticOutput, hkey]
    refine ⟨rfl, rfl, fun present hpresent hsame => ?_⟩
    rw [hasOutput_iff.mpr ⟨present, hpresent, hsame⟩] at hnone
    cases hnone
  · apply pairCallsAndOutputs_eq_self
    · intro key hkey
      rw [hasCall_pairCallsAndOutputs] at hkey
      exact hasOutput_pairCallsAndOutputs hkey
    · intro output houtput
      rw [hasMatch_eq, funext (hasCall_pairCallsAndOutputs items), ← hasMatch_eq]
      exact hasMatch_of_mem_pairCallsAndOutputs houtput

/-! ### Dropping the oldest item -/

section Remove

variable (items : List ResponseItem)

def isFunctionCall (callId : Text) : ResponseItem → Bool
  | .functionCall _ _ _ _ existing _ => existing = callId
  | _ => false

/-- Remove the first counterpart of an item: the output of a call, or the call of an output. The
    source lists the kinds of items one by one. -/
def removeCorrespondingFor (item : ResponseItem) : List ResponseItem :=
  match callKey item, outputKey item with
  | some key, _ => items.eraseP (outputKey · = some key)
  | none, some (kind, callId) =>
    -- a local shell call is removed only if no function call has the id
    if kind = .function ∧ items.any (isFunctionCall callId) then
      items.eraseP (isFunctionCall callId)
    else items.eraseP (callKey · = some (kind, callId))
  | none, none => items

def removeFirstItem : List ResponseItem → List ResponseItem
  | [] => []
  | removed :: items => removeCorrespondingFor items removed

/-- Every call with an id has an output of its kind, and every output with an id has a call. -/
def Paired : Prop := ∀ key, hasCall items key ↔ hasOutput items key

/-- How many items have the key. -/
def countKey (keyOf : ResponseItem → Option (OutputKind × Text)) (key : OutputKind × Text) : ℕ :=
  items.countP (keyOf · = some key)

end Remove

theorem countKey_cons (keyOf : ResponseItem → Option (OutputKind × Text)) (item : ResponseItem) :
    countKey (item :: items) keyOf key =
      countKey items keyOf key + if keyOf item = some key then 1 else 0 := by
  simp [countKey, countP_cons]

theorem paired_iff : Paired items ↔
    ∀ key, countKey items callKey key = 0 ↔ countKey items outputKey key = 0 := by
  refine forall_congr' fun key => not_iff_not.symm.trans ?_
  simp [hasCall, hasOutput, countKey]

/-- Removing one of the items with a key, if there are any. -/
theorem countKey_eraseP {own other : ResponseItem → Option (OutputKind × Text)}
    (hunique : ∀ item, own item = none ∨ other item = none) {p : ResponseItem → Bool}
    (hp : ∀ item, p item → own item = some key)
    (hany : countKey items own key ≠ 0 → items.any p) (k : OutputKind × Text) :
    countKey (items.eraseP p) own k = countKey items own k - (if key = k then 1 else 0) ∧
      countKey (items.eraseP p) other k = countKey items other k := by
  unfold countKey at *
  cases h : items.any p with
  | true =>
    obtain ⟨item, hmem, hitem⟩ := any_eq_true.mp h
    obtain ⟨item, front, back, -, hitem, rfl, herase⟩ := exists_of_eraseP hmem hitem
    have hother := (hunique item).resolve_left (by simp [hp item hitem])
    simp only [herase, countP_append, countP_cons, hp item hitem, hother]
    by_cases hk : key = k <;> simp [hk]
  | false =>
    have hzero : items.countP (own · = some key) = 0 := by
      by_contra hne
      cases h.symm.trans (hany hne)
    rw [eraseP_of_forall_not (by simpa using h)]
    by_cases hk : key = k
    · simp [← hk, hzero]
    · simp [hk]

theorem callKey_or_outputKey : callKey item = none ∨ outputKey item = none := by
  cases item <;> first | exact .inl rfl | exact .inr rfl

theorem callKey_of_isFunctionCall {callId : Text} {item : ResponseItem}
    (h : isFunctionCall callId item) : callKey item = some (.function, callId) := by
  cases item <;> simp_all [isFunctionCall, callKey]

/-- One output less with the key of a call, and one call less with the key of an output. -/
theorem countKey_removeCorrespondingFor (items : List ResponseItem) (item : ResponseItem)
    (key : OutputKind × Text) :
    countKey (removeCorrespondingFor items item) outputKey key =
      countKey items outputKey key - (if callKey item = some key then 1 else 0) ∧
    countKey (removeCorrespondingFor items item) callKey key =
      countKey items callKey key - if outputKey item = some key then 1 else 0 := by
  unfold removeCorrespondingFor
  rcases hcall : callKey item with _ | k
  · rcases houtput : outputKey item with _ | ⟨kind, callId⟩
    · simp
    · dsimp only
      split
      · rename_i h
        obtain ⟨rfl, hany⟩ := h
        simpa using (countKey_eraseP callKey_or_outputKey (fun _ => callKey_of_isFunctionCall)
          (fun _ => hany) key).symm
      · simpa using (countKey_eraseP callKey_or_outputKey (by simp) (by simp [countKey]) key).symm
  · rw [(callKey_or_outputKey item).resolve_left (by simp [hcall])]
    simpa using countKey_eraseP (fun item => (callKey_or_outputKey item).symm)
      (by simp) (by simp [countKey]) key

/-- The calls and outputs with the id of the oldest item go together: no other call is left just
    when its output is the only one, and the other way round. -/
def Balanced : List ResponseItem → Prop
  | [] => True
  | item :: items => ∀ key, (callKey item = some key →
      (countKey items callKey key = 0 ↔ countKey items outputKey key = 1)) ∧
    (outputKey item = some key →
      (countKey items outputKey key = 0 ↔ countKey items callKey key = 1))

/-- **Dropping the oldest item keeps calls and outputs paired** just when those with its id are
    balanced. -/
theorem paired_removeFirstItem_iff (hpaired : Paired items) :
    Paired (removeFirstItem items) ↔ Balanced items := by
  cases items with
  | nil => exact iff_of_true (fun _ => Iff.rfl) trivial
  | cons item items =>
    rw [paired_iff] at hpaired ⊢
    refine forall_congr' fun key => ?_
    obtain ⟨houtputs, hcalls⟩ := countKey_removeCorrespondingFor items item key
    have hpaired := hpaired key
    simp only [countKey_cons, removeFirstItem, houtputs, hcalls] at hpaired ⊢
    rcases callKey_or_outputKey item with hnone | hnone
    · by_cases hkey : outputKey item = some key <;> simp [hnone, hkey] at hpaired ⊢ <;> omega
    · by_cases hkey : callKey item = some key <;> simp [hnone, hkey] at hpaired ⊢ <;> omega

/-- A call with the id `a` and some outputs. -/
def callWithOutputs (outputs : ℕ) : List ResponseItem :=
  .functionCall none [] none [] "a" none :: replicate outputs (syntheticOutput (.function, "a"))

theorem paired_callWithOutputs (outputs : ℕ) : Paired (callWithOutputs (outputs + 1)) := by
  intro key
  simp [callWithOutputs, hasCall, hasOutput, callKey, outputKey, syntheticOutput]

/-- The call goes with its output; another call and its output stay. -/
theorem paired_removeFirstItem_once :
    let others := [.functionCall none [] none [] "b" none, syntheticOutput (.function, "b")]
    removeFirstItem (callWithOutputs 1 ++ others) = others ∧
      Paired (removeFirstItem (callWithOutputs 1 ++ others)) := by
  intro others
  have hpaired : Paired (callWithOutputs 1 ++ others) := by
    intro key
    simp [others, callWithOutputs, hasCall, hasOutput, callKey, outputKey, syntheticOutput]
  refine ⟨by decide, (paired_removeFirstItem_iff hpaired).mpr fun key => ⟨fun h => ?_, nofun⟩⟩
  cases h
  decide

/-- The second output of the call is left without a call. -/
theorem not_paired_removeFirstItem :
    Paired (callWithOutputs 2) ∧ ¬ Paired (removeFirstItem (callWithOutputs 2)) :=
  ⟨paired_callWithOutputs 1, fun h => absurd (h (.function, "a")) (by decide)⟩

end Codex.Context
