import Codex.ExecServer.LocalProcess

namespace Codex.ExecServer

open LocalProcess ProcessThread ProcessCall Prod Data.Pool ProcessEntry
open List hiding next

/-!
# Shutting down the processes of a session

Every child that was spawned has exited, or has been terminated, or it is under way: a
`start_process` has it and has not put it into the map, or it is in the map, or a `shutdown` has it
and has not terminated it yet (`run_accounted`).  Once all calls have returned, only those in the
map are left.

* `Calm` — at the moment `shutdown` empties the map, no `start_process` is under way, and none gets
  as far as reserving an id afterwards;
* `children_gone_of_calm` — then no child is left behind;
* `shutdown_leaves_child` — a child that is spawned while the map is emptied is never terminated;
* `RequestRun` — runs in which a lost connection drops its requests;
* `starting_of_request` — whose the reserved ids are.
-/

/-! ### The condition -/

/-- `shutdown` empties the map while no `start_process` stands between the reservation of its id and
    the entry of its process, and no id is reserved afterwards. -/
def Calm (trace : List (ℕ × ProcessEvent)) : Prop :=
  ∃ before k children after, trace = before ++ (k, .drained children) :: after ∧
    (∀ i, (i, .reserved) ∈ before → (i, .settled) ∈ before) ∧ ∀ i, (i, .reserved) ∉ after

/-- The child has exited, or it has been told to terminate. -/
def LocalProcess.Gone (server : LocalProcess) (c : ℕ) : Prop :=
  ∃ child, server.children[c]? = some child ∧ (child.hasExited ∨ child.isTerminated)

/-! ### Children -/

variable {c : ℕ} {processId : Text}

namespace LocalProcess

variable {server : LocalProcess}

/-- A change of the state of a child that keeps what has happened to it. -/
theorem Gone.modify {server' : LocalProcess} {k : ℕ} {change : Child → Child}
    (h : server.Gone c) (hchildren : server'.children = server.children.modify k change)
    (hexited : ∀ child, child.hasExited → (change child).hasExited)
    (hterminated : ∀ child, child.isTerminated → (change child).isTerminated) : server'.Gone c := by
  obtain ⟨child, hchild, hgone⟩ := h
  by_cases hkc : k = c
  · refine ⟨change child, ?_, hgone.imp (hexited child) (hterminated child)⟩
    rw [hchildren, getElem?_modify, hchild]
    simp [hkc]
  · refine ⟨child, ?_, hgone⟩
    rw [hchildren, getElem?_modify, hchild]
    simp [hkc]

theorem Gone.terminate (h : server.Gone c) (k : ℕ) : (server.terminate k).Gone c :=
  h.modify rfl (fun _ h => h) (fun _ _ => rfl)

theorem gone_terminate (hc : c < server.children.length) : (server.terminate c).Gone c := by
  refine ⟨{ server.children[c] with isTerminated := true }, ?_, .inr rfl⟩
  simp [terminate, hc]

/-- The map has a running process with this child. -/
def Keeps (server : LocalProcess) (c : ℕ) : Prop :=
  ∃ processId closed, server.processes.lookup processId = some (.running c closed)

theorem mem_running_iff : c ∈ server.running ↔ server.Keeps c := by
  unfold running Keeps
  rw [mem_filterMap]
  constructor
  · rintro ⟨⟨processId, entry⟩, hmem, hchild⟩
    cases entry with
    | starting => cases hchild
    | running child closed =>
      cases hchild
      exact ⟨processId, closed, AList.mem_lookup_iff.mpr hmem⟩
  · rintro ⟨processId, closed, hlookup⟩
    exact ⟨⟨processId, .running c closed⟩, AList.mem_lookup_iff.mp hlookup, rfl⟩

theorem lookup_insert (processId id : Text) (entry : ProcessEntry) :
    (server.insert processId entry).processes.lookup id =
      if id = processId then some entry else server.processes.lookup id := by
  split_ifs with hid
  · rw [hid]
    exact AList.lookup_insert _
  · exact AList.lookup_insert_ne hid

theorem lookup_remove (processId id : Text) : (server.remove processId).processes.lookup id =
    if id = processId then none else server.processes.lookup id := by
  split_ifs with hid
  · rw [hid]
    exact AList.lookup_erase _ _
  · exact AList.lookup_erase_ne hid

@[simp] theorem processes_drop (entry : Option ProcessEntry) :
    (server.drop entry).processes = server.processes := by
  unfold LocalProcess.drop
  split <;> rfl

end LocalProcess

/-! ### What a step does -/

/-- The children that are in the hands of a call. -/
def ProcessThread.inHand : ProcessThread → List ℕ
  | .inserting _ child => [child]
  | .terminating remaining => remaining
  | _ => []

/-- The map or the call has the child. -/
def Held (server : LocalProcess) (thread : ProcessThread) (c : ℕ) : Prop :=
  server.Keeps c ∨ c ∈ thread.inHand

/-- Children are added and go, but the map and the call do not lose them. -/
structure ProcessEffect (server : LocalProcess) (thread : ProcessThread) (server' : LocalProcess)
    (thread' : ProcessThread) : Prop where
  length : server.children.length ≤ server'.children.length
  gone : ∀ c, server.Gone c → server'.Gone c
  held : ∀ c, Held server thread c → server'.Gone c ∨ Held server' thread' c
  bounded : ∀ c, Held server' thread' c → c < server'.children.length
  new : ∀ c < server'.children.length, c < server.children.length ∨ Held server' thread' c

variable {server server' : LocalProcess} {thread thread' : ProcessThread} {event : ProcessEvent}
  {toAbsPath : Text → Except Text Text} {draw : ProcessDraw}

section

variable (hbounded : ∀ c, Held server thread c → c < server.children.length)
include hbounded

/-- A step without a new child. -/
theorem ProcessEffect.of_held (hlength : server'.children.length = server.children.length)
    (hgone : ∀ c, server.Gone c → server'.Gone c)
    (hheld : ∀ c, Held server thread c → server'.Gone c ∨ Held server' thread' c)
    (hheld' : ∀ c, Held server' thread' c → Held server thread c) :
    ProcessEffect server thread server' thread' where
  length := hlength.ge
  gone := hgone
  held := hheld
  bounded c hc := (hbounded c (hheld' c hc)).trans_eq hlength.symm
  new _ hc := .inl (hc.trans_eq hlength)

/-- **What a step of a call does** to the children. -/
theorem effect_of_next (h : thread.next toAbsPath draw server = some (event, server', thread')) :
    ProcessEffect server thread server' thread' := by
  -- the children are left alone, or one of those in the hands of map and call is terminated
  have hsame : ∀ {server' thread'}, server'.children = server.children →
      (∀ c, Held server' thread' c ↔ Held server thread c) →
        ProcessEffect server thread server' thread' := by
    intro server' thread' hchildren hheld
    refine .of_held hbounded (by rw [hchildren]) (fun c hgone => ?_)
      (fun c hc => .inr ((hheld c).mpr hc)) fun c hc => (hheld c).mp hc
    rwa [Gone, hchildren]
  have hterminated : ∀ {server' thread'} k, server'.children = (server.terminate k).children →
      (∀ c, Held server thread c → c = k ∨ Held server' thread' c) →
      (∀ c, Held server' thread' c → Held server thread c) →
        ProcessEffect server thread server' thread' := by
    intro server' thread' k hchildren hheld hheld'
    have hgone : ∀ c, (server.terminate k).Gone c → server'.Gone c :=
      fun c hgone => by rwa [Gone, hchildren]
    refine .of_held hbounded (by simp [hchildren, terminate]) (fun c h => hgone c (h.terminate k))
      (fun c hc => (hheld c hc).imp_left ?_) hheld'
    rintro rfl
    exact hgone c (gone_terminate (hbounded c hc))
  cases thread with
  | starting params =>
    dsimp only [next] at h
    split at h
    · cases h
      exact hsame rfl fun c => Iff.rfl
    · split_ifs at h with hid <;> cases h
      · exact hsame rfl fun c => Iff.rfl
      · refine hsame rfl fun c => ?_
        simp only [Held, Keeps, lookup_insert, inHand]
        grind [AList.lookup_eq_none]
  | spawning processId =>
    dsimp only [next] at h
    split at h <;> cases h
    · exact hsame rfl fun c => Iff.rfl
    · refine ⟨by simp [spawn], fun c hgone => ?_, fun c hc => ?_, fun c hc => ?_, fun c hc => ?_⟩
      · obtain ⟨child, hchild, hgone⟩ := hgone
        refine ⟨child, ?_, hgone⟩
        rw [spawn, getElem?_append_left (List.getElem?_eq_some_iff.mp hchild).1, hchild]
      · exact .inr (.inl (hc.resolve_right not_mem_nil))
      · rw [spawn, length_append]
        rcases hc with hc | hc
        · exact (hbounded c (.inl hc)).trans (Nat.lt_succ_self _)
        · rw [mem_singleton.mp hc]
          exact Nat.lt_succ_self _
      · rw [spawn, length_append] at hc
        exact (Nat.lt_succ_iff_lt_or_eq.mp hc).imp_right fun hc => .inr (mem_singleton.mpr hc)
  | failing processId err =>
    dsimp only [next] at h
    split_ifs at h with hlookup <;> cases h
    · refine hsame rfl fun c => ?_
      simp only [Held, Keeps, lookup_remove, inHand]
      grind
    · exact hsame rfl fun c => Iff.rfl
  | inserting processId child =>
    cases h
    have hself : (server.insert processId (.running child false)).Keeps child :=
      ⟨processId, false, AList.lookup_insert _⟩
    -- what is under the id is dropped
    rcases hlookup : server.processes.lookup processId with _ | _ | ⟨k, closed⟩
    case some.running =>
      refine hterminated k rfl (fun c => ?_) fun c => ?_
      all_goals
        simp only [Held, Keeps, lookup_insert, inHand, processes_drop] at hself ⊢
        grind
    all_goals
      refine hsame rfl fun c => ?_
      simp only [Held, Keeps, lookup_insert, inHand, processes_drop] at hself ⊢
      grind
  | serving processId child =>
    cases h
    refine .of_held hbounded (by simp [exit]) (fun c hgone => ?_) (fun c => .inr) fun c => id
    exact hgone.modify rfl (fun _ _ => rfl) fun _ h => h
  | closing processId =>
    dsimp only [next] at h
    split at h <;> cases h
    · next hlookup =>
      refine hsame rfl fun c => ?_
      simp only [Held, Keeps, lookup_insert, inHand]
      grind
    · exact hsame rfl fun c => Iff.rfl
  | retaining processId =>
    dsimp only [next] at h
    split at h <;> cases h
    · next k hlookup =>
      refine hterminated k rfl (fun c => ?_) fun c => ?_ <;>
        simp only [Held, Keeps, lookup_remove, inHand, terminate] <;> grind
    · exact hsame rfl fun c => Iff.rfl
  | shuttingDown =>
    dsimp only [next] at h
    split_ifs at h with horder
    cases h
    refine hsame rfl fun c => ⟨fun hc => .inl ?_, fun hc => .inr ?_⟩
    · have horder_mem := hc.resolve_left fun ⟨_, _, hlookup⟩ => nomatch hlookup
      exact mem_running_iff.mp (horder.mem_iff.mp horder_mem)
    · exact horder.mem_iff.mpr (mem_running_iff.mpr (hc.resolve_right not_mem_nil))
  | terminating remaining =>
    cases remaining with
    | nil =>
      cases h
      exact hsame rfl fun c => Iff.rfl
    | cons k remaining =>
      cases h
      refine hterminated k rfl (fun c => ?_) fun c hc => hc.imp_right (mem_cons_of_mem k)
      rintro (hkeeps | hmem)
      · exact .inr (.inl hkeeps)
      · exact (mem_cons.mp hmem).imp_right .inr
  | rejected | finished => cases h

end

/-! ### Reserved ids -/

/-- The id that a call has reserved. -/
def ProcessThread.reserved : ProcessThread → Option Text
  | .spawning processId | .failing processId _ | .inserting processId _ => some processId
  | _ => none

/-- What a step of a call does to the ids: an id is reserved by the call that goes on with it, and
    nothing else is put into an empty map. -/
theorem reserved_of_next (h : thread.next toAbsPath draw server = some (event, server', thread')) :
    (∀ params, thread' ≠ .starting params) ∧
    (∀ children, event = .drained children → server'.processes = ∅) ∧
    (thread'.reserved.isSome → event = .reserved ∧ (∃ params, thread = .starting params) ∨
      thread.reserved.isSome ∧ event ≠ .settled) ∧
    (server.processes = ∅ → server'.processes = ∅ ∨ event = .reserved ∨ thread.reserved.isSome) ∧
    ∀ processId, server'.processes.lookup processId = some .starting →
      thread'.reserved = some processId ∨
        server.processes.lookup processId = some .starting ∧ thread.reserved ≠ some processId := by
  have hempty : ∀ {id entry}, server.processes.lookup id = some entry → server.processes ≠ ∅ := by
    intro id entry hlookup hempty
    rw [hempty] at hlookup
    cases hlookup
  cases thread with
  | starting params =>
    dsimp only [next] at h
    split at h
    · cases h
      simp [reserved]
    · split_ifs at h <;> cases h
      · simp [reserved]
      · simp only [reserved, lookup_insert]
        grind
  | spawning id =>
    dsimp only [next] at h
    split at h <;> cases h <;> simp only [reserved, spawn] <;> grind
  | failing id err =>
    dsimp only [next] at h
    split_ifs at h <;> cases h <;> simp only [reserved, lookup_remove] <;> grind
  | inserting id child =>
    cases h
    simp only [reserved, lookup_insert, processes_drop]
    grind
  | serving id child =>
    cases h
    simp [reserved, exit]
  | closing id =>
    dsimp only [next] at h
    split at h <;> cases h
    · next hlookup =>
      simp only [reserved, lookup_insert]
      grind
    · simp [reserved]
  | retaining id =>
    dsimp only [next] at h
    split at h <;> cases h
    · next hlookup =>
      simp only [reserved, lookup_remove, terminate]
      grind
    · simp [reserved]
  | shuttingDown =>
    dsimp only [next] at h
    split_ifs at h
    cases h
    simp [reserved]
  | terminating remaining =>
    cases remaining <;> cases h <;> simp [reserved, terminate]
  | rejected | finished => cases h

/-! ### Runs -/

variable {trace : List (ℕ × ProcessEvent)} {pool : Data.Pool LocalProcess ProcessThread}

/-- Every child has exited or was terminated, or it is in the map or in the hands of a call. -/
theorem run_accounted (run : ProcessRun toAbsPath trace pool) :
    (∀ c < pool.shared.children.length, pool.shared.Gone c ∨ pool.shared.Keeps c ∨
      ∃ thread ∈ pool.threads, c ∈ thread.inHand) ∧
    ∀ c, (pool.shared.Keeps c ∨ ∃ thread ∈ pool.threads, c ∈ thread.inHand) →
      c < pool.shared.children.length := by
  induction run with
  | refl =>
    refine ⟨fun c => nofun, ?_⟩
    rintro c (⟨id, closed, hlookup⟩ | ⟨thread, hmem, -⟩)
    · cases hlookup
    · cases hmem
  | spawn run hl ih =>
    obtain ⟨call, rfl⟩ := hl
    have hnew : ∀ c, c ∉ call.start.inHand := by
      cases call <;> exact fun c => not_mem_nil
    simpa [hnew] using ih
  | @step trace pool i thread thread' event server' run hi hstep ih =>
    obtain ⟨draw, hnext⟩ := hstep
    obtain ⟨haccounted, hbounded⟩ := ih
    have hheld : ∀ c, Held pool.shared thread c → c < pool.shared.children.length :=
      fun c hc => hbounded c (hc.imp_right fun hc => ⟨thread, mem_of_getElem? hi, hc⟩)
    have heffect := effect_of_next hheld hnext
    refine forall_and.mp fun c => ?_
    obtain ⟨others, hbefore, hafter⟩ := exists_mem_set hi thread' (c ∈ ·.inHand)
    rw [hafter, ← or_assoc (a := server'.Keeps c)]
    refine ⟨fun hc => ?_, fun hc => ?_⟩
    · rcases heffect.new c hc with hlt | hnew
      · have hold := haccounted c hlt
        rw [hbefore, ← or_assoc (a := pool.shared.Keeps c)] at hold
        rcases hold with hgone | hheld | hother
        · exact .inl (heffect.gone c hgone)
        · exact (heffect.held c hheld).imp_right .inl
        · exact .inr (.inr hother)
      · exact .inr (.inl hnew)
    · rcases hc with hheld | hother
      · exact heffect.bounded c hheld
      · exact (hbounded c (.inr (hbefore.mpr (.inr hother)))).trans_le heffect.length

/-- The call has reserved its id, and not come to an end. -/
def UnderWay (trace : List (ℕ × ProcessEvent)) (i : ℕ) : Prop :=
  (i, .reserved) ∈ trace ∧ (i, .settled) ∉ trace

variable {i : ℕ}

theorem Calm.of_append (h : Calm (trace ++ [(i, event)])) :
    (∃ children, event = .drained children) ∨
      (Calm trace ∧ event ≠ .reserved ∧ ¬ UnderWay trace i) := by
  obtain ⟨before, k, children, after, htrace, hbefore, hafter⟩ := h
  rcases eq_nil_or_concat after with rfl | ⟨front, last, rfl⟩
  · left
    obtain ⟨-, hlast⟩ := append_inj' htrace rfl
    exact ⟨children, (mk.inj (singleton_inj.mp hlast)).2⟩
  · right
    rw [concat_eq_append, ← cons_append, ← append_assoc] at htrace
    obtain ⟨rfl, hlast⟩ := append_inj' htrace rfl
    refine ⟨⟨before, k, children, front, rfl, hbefore, fun j hj => hafter j (by simp [hj])⟩, ?_, ?_⟩
    · rintro rfl
      exact hafter i (by simp [← hlast])
    · -- a call under way has reserved its id before the map was emptied
      rintro ⟨hreserved, hsettled⟩
      rcases mem_append.mp hreserved with hmem | hmem
      · exact hsettled (mem_append_left _ (hbefore i hmem))
      · rcases mem_cons.mp hmem with hmem | hmem
        · cases (mk.inj hmem).2
        · exact hafter i (by simp [hmem])

/-- The map stays empty after a calm shutdown. -/
theorem run_empty (run : ProcessRun toAbsPath trace pool) (hcalm : Calm trace) :
    pool.shared.processes = ∅ := by
  refine (run.invariant (fun _ => rfl) (I := fun trace server => Calm trace → server.processes = ∅)
    (J := fun trace _ i thread => (thread.reserved.isSome → UnderWay trace i) ∧
      ∀ params, thread = .starting params → ∀ event, (i, event) ∉ trace) ?_ ?_ ?_).1 hcalm
  · rintro trace server i thread - hunseen ⟨call, rfl⟩
    exact ⟨by cases call <;> nofun, fun _ _ => hunseen⟩
  · rintro trace server i thread event server' thread' hempty ⟨hreserved, hunseen⟩ ⟨draw, h⟩
    obtain ⟨hstarting, hdrained, hnext, hput, -⟩ := reserved_of_next h
    refine ⟨fun hcalm => ?_, fun hsome => ?_, fun params hparams => absurd hparams (hstarting _)⟩
    · rcases hcalm.of_append with ⟨children, hevent⟩ | ⟨hcalm, hevent, hunderWay⟩
      · exact hdrained children hevent
      · rcases hput (hempty hcalm) with hempty | hevent' | hsome
        · exact hempty
        · exact absurd hevent' hevent
        · exact absurd (hreserved hsome) hunderWay
    · rcases hnext hsome with ⟨rfl, params, hparams⟩ | ⟨hsome, hevent⟩
      · exact ⟨by simp, by simpa using hunseen params hparams _⟩
      · obtain ⟨hmem, hsettled⟩ := hreserved hsome
        exact ⟨mem_append_left _ hmem, by simpa [hsettled] using hevent.symm⟩
  · intro trace server i thread event server' thread' j other _ _ hother hij _
    have hsame : ∀ e, (j, e) ∈ trace ++ [(i, event)] ↔ (j, e) ∈ trace :=
      fun e => ⟨mem_of_mem_concat hij, mem_append_left _⟩
    simpa [UnderWay, hsame] using hother

/-- What is played from the empty map is a run. -/
theorem exists_processRun {β : Type} (toAbsPath : Text → Except Text Text)
    (turns : List (Data.Pool.Turn ProcessThread ProcessDraw))
    (hturns : ∀ turn ∈ turns, turn.Allowed fun thread => ∃ call : ProcessCall, call.start = thread)
    (read : List (ℕ × ProcessEvent) → Data.Pool LocalProcess ProcessThread → β) {b : β}
    (h : (play (next toAbsPath) ⟨.new, []⟩ turns).map (fun last => read last.1 last.2) = some b) :
    ∃ trace pool, ProcessRun toAbsPath trace pool ∧ read trace pool = b :=
  exists_run_of_play (fun draw _ _ _ _ _ hnext => ⟨draw, hnext⟩) hturns h

/-- The sample call, and the order in which the sample map gives its entries. -/
def sampleStart : ProcessThread := (startProcess ⟨"p", ["sleep"], []⟩).start

def orderOf (order : List ℕ) : ProcessDraw := ⟨none, order⟩

/-- A process is started, and then the session is shut down. -/
def startThenShutdown : List (Data.Pool.Turn ProcessThread ProcessDraw) :=
  [.spawn sampleStart, .step 0 (orderOf []), .step 0 (orderOf []), .step 0 (orderOf []),
    .spawn shutdown.start, .step 1 (orderOf [0]), .step 1 (orderOf []), .step 1 (orderOf [])]

/-- The session is shut down while the child is spawned. -/
def shutdownDuringSpawn : List (Data.Pool.Turn ProcessThread ProcessDraw) :=
  [.spawn sampleStart, .step 0 (orderOf []), .step 0 (orderOf []),
    .spawn shutdown.start, .step 1 (orderOf []), .step 1 (orderOf []), .step 0 (orderOf [])]

/-- **No child is left behind.**  If no `start_process` is under way when `shutdown` empties the
    map, and none reserves an id afterwards, every child has exited or has been told to terminate
    once all calls have returned. -/
theorem children_gone_of_calm {toAbsPath : Text → Except Text Text}
    {trace : List (ℕ × ProcessEvent)} {pool : Data.Pool LocalProcess ProcessThread}
    (run : ProcessRun toAbsPath trace pool) (hcalm : Calm trace)
    (hreturned : ∀ thread ∈ pool.threads, thread.isReturned) :
    ∀ child ∈ pool.shared.children, child.hasExited ∨ child.isTerminated := by
  intro child hchild
  obtain ⟨c, hlt, hc⟩ := getElem_of_mem hchild
  rcases (run_accounted run).1 c hlt with
    ⟨child', hget, hgone⟩ | ⟨id, closed, hlookup⟩ | ⟨thread, hthread, hmem⟩
  · rw [getElem?_eq_getElem hlt, hc] at hget
    cases hget
    exact hgone
  · rw [run_empty run hcalm] at hlookup
    cases hlookup
  · -- a call that has returned has no child
    have := hreturned thread hthread
    cases thread <;> first | exact absurd hmem not_mem_nil | exact absurd this Bool.false_ne_true

/-- The child of the sample is terminated. -/
theorem startThenShutdown_gone :
    ∃ (trace : List (ℕ × ProcessEvent)) (pool : Data.Pool LocalProcess ProcessThread),
      ProcessRun .ok trace pool ∧ Calm trace ∧
        (∀ thread ∈ pool.threads, thread.isReturned) ∧ pool.shared.children.length = 1 ∧
        ∀ child ∈ pool.shared.children, child.hasExited ∨ child.isTerminated := by
  obtain ⟨trace, pool, hrun, hread⟩ := exists_processRun .ok startThenShutdown
    (by simp [startThenShutdown, sampleStart, Data.Pool.Turn.Allowed])
    (fun trace pool => (trace, pool.threads.all (·.isReturned), pool.shared.children.length))
    (b := ([(0, .reserved), (0, .spawned 0), (0, .settled)] ++
      (1, .drained [0]) :: [(1, .told 0), (1, .silent)], true, 1)) (by decide)
  obtain ⟨htrace, hrest⟩ := mk.inj hread
  obtain ⟨hreturned, hlength⟩ := mk.inj hrest
  have hcalm : Calm trace := ⟨_, 1, [0], _, htrace, by simp, by simp⟩
  exact ⟨trace, pool, hrun, hcalm, all_eq_true.mp hreturned, hlength,
    children_gone_of_calm hrun hcalm (all_eq_true.mp hreturned)⟩

/-- A child that is spawned while `shutdown` empties the map is put into the map afterwards, and
    nobody terminates it. -/
theorem shutdown_leaves_child :
    ∃ (trace : List (ℕ × ProcessEvent)) (pool : Data.Pool LocalProcess ProcessThread),
      ProcessRun .ok trace pool ∧ (1, .drained []) ∈ trace ∧
        (∀ thread ∈ pool.threads, thread.isReturned) ∧
        pool.shared.children = [⟨false, false⟩] := by
  obtain ⟨trace, pool, hrun, hread⟩ := exists_processRun .ok shutdownDuringSpawn
    (by simp [shutdownDuringSpawn, sampleStart, Data.Pool.Turn.Allowed])
    (fun trace pool => (trace.contains (1, .drained []), pool.threads.all (·.isReturned),
      pool.shared.children)) (b := (true, true, [⟨false, false⟩])) (by decide)
  obtain ⟨hdrained, hrest⟩ := mk.inj hread
  obtain ⟨hreturned, hchildren⟩ := mk.inj hrest
  exact ⟨trace, pool, hrun, contains_iff_mem.mp hdrained, all_eq_true.mp hreturned, hchildren⟩

/-! ### Requests that are dropped -/

/-- `start_process` with the outcome of the spawn, before it takes the lock again. -/
def ProcessThread.isResolving : ProcessThread → Bool
  | .failing _ _ | .inserting _ _ => true
  | _ => false

/-- The steps of a request.  When its connection is lost it is dropped where it waits: for the lock,
    while another task has it, or for the lock again, and then a child that it has is terminated.
    The spawn itself does not wait.  What can be seen is `none` if the id was reserved. -/
inductive RequestStep (toAbsPath : Text → Except Text Text) (server : LocalProcess) :
    ProcessThread → Option ProcessEvent → LocalProcess → ProcessThread → Prop
  | next {thread thread' : ProcessThread} {event : ProcessEvent} {server' : LocalProcess}
      (h : ProcessStep toAbsPath server thread event server' thread') :
      RequestStep toAbsPath server thread (some event) server' thread'
  | dropped (params : ExecParams) :
      RequestStep toAbsPath server (.starting params) (some .silent) server .finished
  | abandoned {thread : ProcessThread} (h : thread.isResolving) :
      RequestStep toAbsPath server thread none (thread.inHand.foldl terminate server) .finished

/-- The interleavings of any number of requests, of one connection or of several that attach to the
    session one after the other. -/
abbrev RequestRun (toAbsPath : Text → Except Text Text) (trace : List (ℕ × Option ProcessEvent))
    (pool : Data.Pool LocalProcess ProcessThread) : Prop :=
  Data.Pool.Run (fun thread => ∃ call : ProcessCall, call.start = thread) (RequestStep toAbsPath)
    ⟨.new, []⟩ trace pool

/-- **Whose the reserved ids are.**  If no request is dropped while it waits for the lock to enter
    its process, or to take the id back, an id that is reserved belongs to a `start_process` under way. -/
theorem starting_of_request {toAbsPath : Text → Except Text Text}
    {trace : List (ℕ × Option ProcessEvent)} {pool : Data.Pool LocalProcess ProcessThread}
    (run : RequestRun toAbsPath trace pool) (hkept : ∀ i, (i, none) ∉ trace) (processId : Text)
    (hlookup : pool.shared.processes.lookup processId = some .starting) :
    ∃ thread ∈ pool.threads, thread.reserved = some processId := by
  induction run with
  | refl => cases hlookup
  | spawn run hl ih =>
    obtain ⟨thread, hmem, hreserved⟩ := ih hkept hlookup
    exact ⟨thread, mem_append_left _ hmem, hreserved⟩
  | @step trace pool i thread thread' event server' run hi hstep ih =>
    have ih := ih fun j hj => hkept j (mem_append_left _ hj)
    obtain ⟨others, hbefore, hafter⟩ := exists_mem_set hi thread' (·.reserved = some processId)
    rw [hafter]
    cases hstep with
    | next h =>
      obtain ⟨draw, h⟩ := h
      refine ((reserved_of_next h).2.2.2.2 processId hlookup).imp_right fun ⟨hlookup, hne⟩ => ?_
      exact (hbefore.mp (ih hlookup)).resolve_left hne
    | dropped params => exact .inr ((hbefore.mp (ih hlookup)).resolve_left nofun)
    | abandoned => exact absurd mem_concat_self (hkept i)

/-- The id of the sample, while its child is spawned. -/
theorem starting_of_sampleStart :
    ∃ trace pool, RequestRun .ok trace pool ∧ (∀ i, (i, none) ∉ trace) ∧
      pool.shared.processes.lookup "p".toList = some .starting ∧
      ∃ thread ∈ pool.threads, thread.reserved = some "p".toList := by
  have hrun : RequestRun .ok [(0, some .reserved)]
      ⟨new.insert "p" .starting, [.spawning "p"]⟩ :=
    (Data.Pool.Run.refl.spawn ⟨startProcess ⟨"p", ["sleep"], []⟩, rfl⟩).step
      rfl (.next ⟨orderOf [], rfl⟩)
  exact ⟨_, _, hrun, by simp, rfl, starting_of_request hrun (by simp) _ rfl⟩

/-- While the tasks of another process have the lock, the request that has spawned its child is
    dropped, and its id stays reserved. -/
theorem starting_left_behind :
    ∃ trace pool, RequestRun .ok trace pool ∧ pool.threads = [.serving "q" 0, .finished] ∧
      pool.shared.processes.lookup "p".toList = some .starting := by
  have hserving : RequestRun .ok
      [(0, some .reserved), (0, some (.spawned 0)), (0, some .settled)]
      ⟨⟨(∅ : AList _).insert "q" (.running 0 false), [⟨false, false⟩]⟩,
        [.serving "q" 0]⟩ :=
    (((Data.Pool.Run.refl.spawn ⟨startProcess ⟨"q", ["sleep"], []⟩, rfl⟩).step
      rfl (.next ⟨orderOf [], rfl⟩)).step rfl (.next ⟨orderOf [], rfl⟩)).step rfl
        (.next ⟨orderOf [], rfl⟩)
  exact ⟨_, _, (((hserving.spawn ⟨startProcess ⟨"p", ["sleep"], []⟩, rfl⟩).step
    (i := 1) rfl (.next ⟨orderOf [], rfl⟩)).step (i := 1) rfl (.next ⟨orderOf [], rfl⟩)).step
      (i := 1) rfl (.abandoned rfl), rfl, rfl⟩

end Codex.ExecServer
