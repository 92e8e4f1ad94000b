import Codex.ExecServer.SessionRegistry

namespace Codex.ExecServer

open SessionRegistry SessionThread AttachmentState Option SessionCall Function
open List hiding next
open Data.Pool (mem_concat mem_of_mem_concat)

/-!
# The notifications of a resumed session

While a connection is on a session, the sender installed in the session should be the one of this
connection.  `detach` takes the connection off first and removes the sender afterwards, without the
lock of the registry; an `attach` in between installs a sender that `detach` then removes.

* `Notified` — every session with a connection has the sender of this connection;
* `Undisturbed` — no `attach` installs its sender between the two steps of a `detach`;
* `notified_of_undisturbed` — then every session keeps its notifications;
* `resume_loses_notifications` — a run in which a resumed session has none.
-/

variable {ν : Type}

/-! ### What can be seen of a session -/

variable {conn : ConnectionId}

namespace SessionRegistry

/-- The connection on a session. -/
def current (registry : SessionRegistry ν) (r : ℕ) : Option ConnectionId :=
  registry.entries[r]?.bind (·.attachment.currentConnectionId)

/-- The sender of a session. -/
def sender (registry : SessionRegistry ν) (r : ℕ) : Option ν :=
  registry.entries[r]?.bind (·.notifications)

variable (registry : SessionRegistry ν) (r : ℕ)

variable {change : SessionEntry ν → SessionEntry ν}

/-- What a change keeps of the sessions, they keep. -/
theorem bind_update {β : Type} {f : SessionEntry ν → Option β}
    (h : ∀ entry, f (change entry) = f entry) (k : ℕ) :
    (registry.update r change).entries[k]?.bind f = registry.entries[k]?.bind f := by
  simp only [update, getElem?_modify]
  split
  · cases registry.entries[k]? <;> simp [h]
  · simp

@[simp]
theorem length_update (change : SessionEntry ν → SessionEntry ν) :
    (registry.update r change).entries.length = registry.entries.length := by
  simp [update]

@[simp]
theorem current_setNotificationSender (notifications : Option ν) (k : ℕ) :
    (registry.setNotificationSender r notifications).current k = registry.current k := by
  apply bind_update
  exact fun _ => rfl

@[simp]
theorem sender_setAttachment (attachment : AttachmentState) (k : ℕ) :
    (registry.setAttachment r attachment).sender k = registry.sender k := by
  apply bind_update
  exact fun _ => rfl

theorem sender_setNotificationSender_of_ne {k : ℕ} (h : r ≠ k) (notifications : Option ν) :
    (registry.setNotificationSender r notifications).sender k = registry.sender k := by
  simp [sender, setNotificationSender, update, h]

theorem current_setAttachment_of_ne {k : ℕ} (h : r ≠ k) (attachment : AttachmentState) :
    (registry.setAttachment r attachment).current k = registry.current k := by
  simp [current, setAttachment, update, h]

theorem current_setAttachment_self (h : r < registry.entries.length)
    (attachment : AttachmentState) :
    (registry.setAttachment r attachment).current r = attachment.currentConnectionId := by
  simp [current, setAttachment, update, h]

theorem lt_of_current {r : ℕ} (h : registry.current r = some conn) :
    r < registry.entries.length := by
  by_contra hr
  rw [current, getElem?_eq_none (not_lt.mp hr)] at h
  cases h

end SessionRegistry

/-! ### The condition -/

variable (trace : List (ℕ × SessionEvent ν))

/-- Every `detach` that has taken a connection off the session has also removed the sender. -/
def Settled (r : ℕ) : Prop := ∀ i, (i, .dropped r) ∈ trace → (i, .cleared r) ∈ trace

/-- No sender is installed in a session between the two steps of a `detach` from it. -/
def Undisturbed : Prop := ∀ before i r, before ++ [(i, .installed r)] <+: trace → Settled before r

/-- Every session with a connection has the sender this connection has passed to `attach`. -/
def Notified (pool : Data.Pool (SessionRegistry ν) (SessionThread ν)) : Prop :=
  ∀ r conn, pool.shared.current r = some conn →
    (∃ (i : ℕ) (n : ν), pool.threads[i]? = some (.attached conn n r)) ∧
    ∀ (i : ℕ) (n : ν) (k : ℕ), pool.threads[i]? = some (.attached conn n k) →
      pool.shared.sender r = some n

theorem Undisturbed.of_append {trace : List (ℕ × SessionEvent ν)} {step : ℕ × SessionEvent ν}
    (h : Undisturbed (trace ++ [step])) : Undisturbed trace :=
  fun before i r hbefore => h before i r (hbefore.trans (prefix_append _ _))

theorem Undisturbed.settled {trace : List (ℕ × SessionEvent ν)} {i r : ℕ}
    (h : Undisturbed (trace ++ [(i, .installed r)])) : Settled trace r :=
  h trace i r (prefix_refl _)

/-- Only another `detach` unsettles a session. -/
theorem Settled.append {trace : List (ℕ × SessionEvent ν)} {r i : ℕ} {event : SessionEvent ν}
    (h : Settled trace r) (hevent : event ≠ .dropped r) : Settled (trace ++ [(i, event)]) r := by
  intro j hj
  rcases mem_concat.mp hj with hj | ⟨-, hdropped⟩
  · exact mem_append_left _ (h j hj)
  · exact absurd hdropped.symm hevent

/-! ### Assertions -/

/-- The connection whose `attach` this is, while it is in the critical section. -/
def SessionThread.holder : SessionThread ν → Option ConnectionId
  | .checkingExpiry conn _ _ _ | .checkingActive conn _ _ _
  | .installing conn _ _ | .marking conn _ _ => some conn
  | _ => none

/-- The identifier and the sender of an `attach` that has drawn its identifier and not failed. -/
def SessionThread.passed : SessionThread ν → Option (ConnectionId × ν)
  | .locking conn _ notifications | .checkingExpiry conn _ notifications _
  | .checkingActive conn _ notifications _ | .installing conn notifications _
  | .marking conn notifications _ | .attached conn notifications _ =>
    some (conn, notifications)
  | _ => none

/-- What the place of a thread says about the session it works on. -/
def SessionThread.At (registry : SessionRegistry ν) (i : ℕ) : SessionThread ν → Prop
  | .checkingExpiry _ _ _ r | .checkingActive _ _ _ r => r < registry.entries.length
  | .installing _ _ r => r < registry.entries.length ∧ registry.current r = none
  | .marking _ notifications r => r < registry.entries.length ∧ registry.current r = none ∧
      registry.sender r = some notifications ∧ Settled trace r
  | .detaching _ _ => ∀ r, (i, .cleared r) ∉ trace
  | .clearing _ r => (i, .dropped r) ∈ trace ∧ (i, .cleared r) ∉ trace
  | _ => True

/-- The assertion about a thread. -/
structure SessionThread.Holds (trace : List (ℕ × SessionEvent ν)) (registry : SessionRegistry ν)
    (i : ℕ) (thread : SessionThread ν) : Prop where
  drew : ∀ conn notifications, thread.passed = some (conn, notifications) →
    (i, .drew conn notifications) ∈ trace
  locked : ∀ conn, thread.holder = some conn → registry.lock = some conn
  place : thread.At trace registry i

/-- The assertion about the registry. -/
structure SessionRegistry.Sound (trace : List (ℕ × SessionEvent ν))
    (registry : SessionRegistry ν) : Prop where
  unique : ∀ i j conn n m, (i, .drew conn n) ∈ trace →
    (j, .drew conn m) ∈ trace → i = j ∧ n = m
  drawn : ∀ i conn n, (i, .drew conn n) ∈ trace → conn ∈ registry.drawn
  sessions : ∀ sessionId r, registry.sessions sessionId = some r → r < registry.entries.length
  dropped : ∀ i r, (i, .dropped r) ∈ trace → r < registry.entries.length
  notified : ∀ r conn, registry.current r = some conn → Settled trace r ∧
    ∃ i n, (i, .drew conn n) ∈ trace ∧ (i, .attached conn n r) ∈ trace ∧
      registry.sender r = some n

/-! ### What a step does to the sessions -/

/-- What a thread outside the critical section can do while another one is in it. -/
structure Outside (registry : SessionRegistry ν) (event : SessionEvent ν)
    (registry' : SessionRegistry ν) : Prop where
  lock : registry'.lock = registry.lock := by rfl
  length : registry'.entries.length = registry.entries.length
  current : ∀ r, registry.current r = none → registry'.current r = none ∧ event ≠ .dropped r
  sender : ∀ r, event ≠ .cleared r → registry'.sender r = registry.sender r

/-- What a step of a thread may change.  A connection found on a session afterwards was there
    before, with the same sender, or has just been put there. -/
structure Effect (trace : List (ℕ × SessionEvent ν)) (registry : SessionRegistry ν) (i : ℕ)
    (thread : SessionThread ν) (event : SessionEvent ν) (registry' : SessionRegistry ν) :
    Prop where
  drawn : ∀ conn ∈ registry.drawn, conn ∈ registry'.drawn := by
    exact fun _ h => h
  fresh : ∀ conn n, event = .drew conn n →
    conn ∉ registry.drawn ∧ conn ∈ registry'.drawn := by nofun
  length : registry.entries.length ≤ registry'.entries.length := by
    simp [setNotificationSender, setAttachment]
  sessions : ∀ sessionId r, registry'.sessions sessionId = some r →
    registry.sessions sessionId = some r ∨ r < registry'.entries.length := by
    exact fun _ _ h => .inl h
  dropped : ∀ r, event = .dropped r → r < registry'.entries.length ∧
    registry'.current r = none := by nofun
  cleared : ∀ r, event = .cleared r → ¬ Settled trace r := by nofun
  view : ∀ r conn, registry'.current r = some conn →
    (registry.current r = some conn ∧ registry'.sender r = registry.sender r) ∨
    Settled trace r ∧ ∃ n, (i, .drew conn n) ∈ trace ∧
      event = .attached conn n r ∧ registry'.sender r = some n
  outside : thread.holder = none → registry.lock.isSome →
    Outside registry event registry' := by nofun

variable {trace : List (ℕ × SessionEvent ν)} {registry registry' : SessionRegistry ν}
  {event : SessionEvent ν} {thread thread' : SessionThread ν} {i : ℕ}

theorem SessionRegistry.Sound.step (h : registry.Sound trace)
    (heffect : Effect trace registry i thread event registry') :
    registry'.Sound (trace ++ [(i, event)]) where
  unique := by
    intro j k conn n m hj hk
    rw [mem_concat] at hj hk
    rcases hj with hj | ⟨rfl, rfl⟩ <;> rcases hk with hk | ⟨rfl, hevent⟩
    · exact h.unique j k conn n m hj hk
    · exact absurd (h.drawn _ _ _ hj) (heffect.fresh _ _ hevent.symm).1
    · exact absurd (h.drawn _ _ _ hk) (heffect.fresh _ _ rfl).1
    · exact ⟨rfl, (SessionEvent.drew.inj hevent).2.symm⟩
  drawn := by
    intro j conn n hj
    rcases mem_concat.mp hj with hj | ⟨-, rfl⟩
    · exact heffect.drawn _ (h.drawn _ _ _ hj)
    · exact (heffect.fresh _ _ rfl).2
  sessions := by
    intro sessionId r hr
    rcases heffect.sessions sessionId r hr with hr | hr
    · exact (h.sessions _ _ hr).trans_le heffect.length
    · exact hr
  dropped := by
    intro j r hj
    rcases mem_concat.mp hj with hj | ⟨-, rfl⟩
    · exact (h.dropped _ _ hj).trans_le heffect.length
    · exact (heffect.dropped _ rfl).1
  notified := by
    intro r conn hr
    have hdropped : event ≠ .dropped r := by
      intro hevent
      rw [(heffect.dropped r hevent).2] at hr
      cases hr
    rcases heffect.view r conn hr with ⟨hold, hsender⟩ | ⟨hsettled, n, hdrew, rfl, hsender⟩
    · obtain ⟨hsettled, j, n, hdrew, hattached, hn⟩ := h.notified r conn hold
      exact ⟨hsettled.append hdropped, j, n, mem_append_left _ hdrew,
        mem_append_left _ hattached, hsender.trans hn⟩
    · exact ⟨hsettled.append hdropped, i, n, mem_append_left _ hdrew, by simp, hsender⟩

/-! ### The steps one by one -/

/-- Nothing that a connection could see of its session has changed. -/
structure SameView (registry registry' : SessionRegistry ν) : Prop where
  drawn : registry'.drawn = registry.drawn
  length : registry'.entries.length = registry.entries.length
  sessions : ∀ sessionId r, registry'.sessions sessionId = some r →
    registry.sessions sessionId = some r
  current : ∀ r, registry'.current r = registry.current r
  sender : ∀ r, registry'.sender r = registry.sender r

theorem SameView.effect (h : SameView registry registry')
    (hlock : thread.holder = none → registry.lock.isSome → registry'.lock = registry.lock) :
    Effect trace registry i thread .silent registry' where
  drawn := fun _ hc => h.drawn ▸ hc
  length := h.length.ge
  sessions := fun sessionId r hr => .inl (h.sessions sessionId r hr)
  view := fun r _ hc => .inl ⟨(h.current r).symm.trans hc, h.sender r⟩
  outside := fun hholder hsome =>
    ⟨hlock hholder hsome, h.length, fun r hr => ⟨(h.current r).trans hr, nofun⟩,
      fun r _ => h.sender r⟩

variable (registry)

theorem sameView_lock (lock : Option ConnectionId) : SameView registry { registry with lock } :=
  ⟨rfl, rfl, fun _ _ h => h, fun _ => rfl, fun _ => rfl⟩

/-- Removing a session from the map adds none to it. -/
theorem sameView_remove (sessionId : Text)
    (lock : Option ConnectionId) : SameView registry { registry.remove sessionId with lock } := by
  refine ⟨rfl, rfl, fun id r h => ?_, fun _ => rfl, fun _ => rfl⟩
  change update registry.sessions sessionId none id = some r at h
  by_cases hid : id = sessionId
  · rw [hid, update_self] at h
    cases h
  · rwa [update_of_ne hid] at h

theorem sameView_shutdown (r : ℕ) : SameView registry (registry.shutdown r) :=
  ⟨rfl, by simp [shutdown], fun _ _ h => h, bind_update _ _ fun _ => rfl,
    bind_update _ _ fun _ => rfl⟩

variable {registry}

variable {draw : Draw} {r : ℕ} {c : ConnectionId} {attachment : AttachmentState} {n : ν}

/-- The session that a connection is taken off had this connection. -/
theorem current_of_detach {r now : ℕ}
    (h : (registry.attachment? r).bind (·.detach conn now) = some attachment) :
    registry.current r = some conn ∧ attachment.currentConnectionId = none := by
  obtain ⟨old, hold, hdetach⟩ := bind_eq_some_iff.mp h
  obtain ⟨entry, hentry, rfl⟩ := map_eq_some_iff.mp hold
  unfold AttachmentState.detach at hdetach
  split_ifs at hdetach with hne
  cases hdetach
  refine ⟨?_, rfl⟩
  rw [current, hentry]
  exact not_not.mp hne

/-- A new session has the sender of its connection, and nobody has detached from it. -/
theorem effect_insertNew {sessionId : Text} (hsound : registry.Sound trace)
    (hdrew : (i, .drew conn n) ∈ trace) (hlock : ¬ registry.lock.isSome) :
    Effect trace registry i thread (.attached conn n registry.entries.length)
      (registry.insertNew sessionId conn n) where
  outside := fun _ hsome => absurd hsome hlock
  length := by simp [insertNew]
  sessions := by
    intro id r h
    change update registry.sessions sessionId (some registry.entries.length) id = some r at h
    by_cases hid : id = sessionId
    · rw [hid, update_self] at h
      cases h
      simp [insertNew]
    · rw [update_of_ne hid] at h
      exact .inl h
  view := by
    intro r c hr
    have hlt := lt_of_current _ hr
    rw [insertNew, length_append] at hlt
    rcases Nat.lt_succ_iff_lt_or_eq.mp hlt with hlt | rfl
    · left
      simpa [current, sender, insertNew, getElem?_append_left hlt] using hr
    · right
      obtain rfl : conn = c := by
        simpa [current, insertNew, attachedTo] using hr
      refine ⟨fun j hj => absurd (hsound.dropped j _ hj) (lt_irrefl _), n, hdrew, rfl, ?_⟩
      simp [sender, insertNew]

theorem effect_installing (hcurrent : registry.current r = none) :
    Effect trace registry i (.installing c n r) (.installed r)
      (registry.setNotificationSender r (some n)) where
  view := by
    intro k c hk
    rw [current_setNotificationSender] at hk
    have hrk : r ≠ k := fun heq => by rw [← heq, hcurrent] at hk; cases hk
    exact .inl ⟨hk, sender_setNotificationSender_of_ne _ _ hrk _⟩

theorem effect_marking (hdrew : (i, .drew conn n) ∈ trace)
    (hr : r < registry.entries.length) (hsender : registry.sender r = some n)
    (hsettled : Settled trace r) :
    Effect trace registry i (.marking conn n r) (.attached conn n r)
      { registry.setAttachment r (.attachedTo conn) with lock := none } where
  view := by
    intro k c hk
    change (registry.setAttachment r (.attachedTo conn)).current k = some c at hk
    by_cases hrk : r = k
    · subst hrk
      rw [current_setAttachment_self _ _ hr] at hk
      cases hk
      exact .inr ⟨hsettled, n, hdrew, rfl, (sender_setAttachment _ _ _ _).trans hsender⟩
    · rw [current_setAttachment_of_ne _ _ hrk] at hk
      exact .inl ⟨hk, sender_setAttachment _ _ _ _⟩

theorem effect_detaching {r now : ℕ}
    (h : (registry.attachment? r).bind (·.detach conn now) = some attachment) :
    Effect trace registry i thread (.dropped r) (registry.setAttachment r attachment) := by
  obtain ⟨hcurrent, hnone⟩ := current_of_detach h
  have hr := lt_of_current _ hcurrent
  rw [← current_setAttachment_self _ _ hr] at hnone
  exact {
    dropped := by
      intro k hk
      cases hk
      exact ⟨by simpa [setAttachment] using hr, hnone⟩
    view := by
      intro k c hk
      have hrk : r ≠ k := fun heq => by rw [← heq, hnone] at hk; cases hk
      rw [current_setAttachment_of_ne _ _ hrk] at hk
      exact .inl ⟨hk, sender_setAttachment _ _ _ _⟩
    outside := by
      refine fun _ _ => ⟨rfl, by simp [setAttachment], fun k hk => ?_, fun k _ => by simp⟩
      have hrk : r ≠ k := fun heq => by rw [← heq, hcurrent] at hk; cases hk
      rw [current_setAttachment_of_ne _ _ hrk]
      exact ⟨hk, fun heq => hrk (SessionEvent.dropped.inj heq)⟩ }

/-- A sender is removed only from sessions that nobody is on. -/
theorem effect_clearing (hsound : registry.Sound trace) (hdropped : (i, .dropped r) ∈ trace)
    (hcleared : (i, .cleared r) ∉ trace) :
    Effect trace registry i thread (.cleared r) (registry.setNotificationSender r none) where
  outside := fun _ _ =>
    ⟨rfl, by simp [setNotificationSender], fun k hk => ⟨by simpa using hk, nofun⟩, fun k hk =>
      sender_setNotificationSender_of_ne _ r (fun heq => hk (by rw [heq])) none⟩
  cleared := by
    intro k hk hsettled
    cases hk
    exact hcleared (hsettled i hdropped)
  view := by
    intro k c hk
    rw [current_setNotificationSender] at hk
    have hrk : r ≠ k := by
      rintro rfl
      exact hcleared ((hsound.notified r c hk).1 i hdropped)
    exact .inl ⟨hk, sender_setNotificationSender_of_ne _ _ hrk _⟩

/-! ### What a step does to the assertions about the threads -/

section

variable (h : thread.Holds trace registry i)
  (hplace : thread'.At (trace ++ [(i, event)]) registry' i)
include h hplace

/-- The assertion about a thread after a step of its own, but for its place. -/
theorem SessionThread.Holds.own (hpassed : ∀ c n, thread'.passed = some (c, n) →
      thread.passed = some (c, n) ∨ event = .drew c n)
    (hholder : ∀ c, thread'.holder = some c → registry'.lock = some c) :
    thread'.Holds (trace ++ [(i, event)]) registry' i where
  drew := by
    intro c n hc
    rcases hpassed c n hc with hc | rfl
    · exact mem_append_left _ (h.drew c n hc)
    · simp
  locked := hholder
  place := hplace

/-- The same for an `attach` that goes on. -/
theorem SessionThread.Holds.proceed (hpassed : thread'.passed = thread.passed)
    (hholder : ∀ c, thread'.holder = some c → registry'.lock = some c) :
    thread'.Holds (trace ++ [(i, event)]) registry' i :=
  h.own hplace (fun _ _ hc => .inl (hpassed ▸ hc)) hholder

/-- The same for a step after which the thread has no part in an `attach`. -/
theorem SessionThread.Holds.leave (hpassed : thread'.passed = none)
    (hholder : thread'.holder = none) : thread'.Holds (trace ++ [(i, event)]) registry' i := by
  refine h.own hplace (fun c n hc => ?_) (fun c hc => ?_)
  · rw [hpassed] at hc
    cases hc
  · rw [hholder] at hc
    cases hc

end

theorem current_eq_none_of_not_active (h : ¬ (registry.attachment? r).any (·.hasActiveConnection)) :
    registry.current r = none := by
  unfold attachment? at h
  unfold current
  cases hr : registry.entries[r]? with
  | none => rfl
  | some entry => simpa [hr, hasActiveConnection] using h

/-- **What a step of a thread does** to the sessions, and to the assertion about the thread. -/
theorem step_of_next (hfresh : draw.connectionId ∉ registry.drawn) (hsound : registry.Sound trace)
    (hthread : thread.Holds trace registry i)
    (h : thread.next draw registry = some (event, registry', thread')) :
    Effect trace registry i thread event registry' ∧ (Undisturbed (trace ++ [(i, event)]) →
      thread'.Holds (trace ++ [(i, event)]) registry' i) := by
  cases thread with
  | attaching resumeSessionId n =>
    cases h
    refine ⟨{
      drawn := fun _ h => mem_cons_of_mem _ h
      fresh := ?_
      length := le_rfl
      view := fun _ _ h => .inl ⟨h, rfl⟩
      outside := fun _ _ => ⟨rfl, rfl, fun _ hr => ⟨hr, nofun⟩, fun _ _ => rfl⟩ },
      fun _ => hthread.own trivial ?_ fun _ => nofun⟩
    · intro c m hevent
      cases hevent
      exact ⟨hfresh, mem_cons_self⟩
    · intro c m hc
      cases hc
      exact .inr rfl
  | locking c resumeSessionId n =>
    dsimp only [next] at h
    split_ifs at h with hlock
    cases resumeSessionId with
    | none =>
      cases h
      exact ⟨effect_insertNew hsound (hthread.drew c n rfl) hlock,
        fun _ => hthread.proceed trivial rfl fun _ => nofun⟩
    | some sessionId =>
      dsimp only [resumeSession] at h
      split at h <;> cases h
      · exact ⟨(sameView_lock _ _).effect fun _ _ => rfl, fun _ => hthread.leave trivial rfl rfl⟩
      · next r hr =>
        exact ⟨(sameView_lock _ _).effect fun _ hsome => absurd hsome hlock,
          fun _ => hthread.proceed (hsound.sessions _ _ hr) rfl fun _ hc => hc⟩
  | checkingExpiry c sessionId n r =>
    dsimp only [next] at h
    split_ifs at h <;> cases h
    · exact ⟨(sameView_remove _ _ _).effect nofun, fun _ => hthread.leave trivial rfl rfl⟩
    · exact ⟨(sameView_lock _ _).effect nofun,
        fun _ => hthread.proceed hthread.place rfl hthread.locked⟩
  | checkingActive c sessionId n r =>
    dsimp only [next] at h
    split_ifs at h with hactive <;> cases h
    · exact ⟨(sameView_lock _ _).effect nofun, fun _ => hthread.leave trivial rfl rfl⟩
    · exact ⟨(sameView_lock _ _).effect nofun, fun _ => hthread.proceed
        ⟨hthread.place, current_eq_none_of_not_active hactive⟩ rfl hthread.locked⟩
  | installing c n r =>
    cases h
    obtain ⟨hr, hcurrent⟩ := hthread.place
    refine ⟨effect_installing hcurrent, fun hundisturbed => ?_⟩
    refine hthread.proceed ⟨by simpa [setNotificationSender] using hr, ?_, ?_, ?_⟩ rfl hthread.locked
    · rw [current_setNotificationSender]
      exact hcurrent
    · simp [sender, setNotificationSender, SessionRegistry.update, hr]
    · exact hundisturbed.settled.append nofun
  | marking c n r =>
    cases h
    obtain ⟨hr, -, hsender, hsettled⟩ := hthread.place
    exact ⟨effect_marking (hthread.drew c n rfl) hr hsender hsettled,
      fun _ => hthread.proceed trivial rfl fun _ => nofun⟩
  | discarding sessionId r | expiring r =>
    cases h
    exact ⟨(sameView_shutdown _ _).effect fun _ _ => rfl, fun _ => hthread.leave trivial rfl rfl⟩
  | attached | attachFailed | finished => cases h
  | detaching c r =>
    dsimp only [next] at h
    split at h <;> cases h
    · exact ⟨(sameView_lock _ _).effect fun _ _ => rfl, fun _ => hthread.leave trivial rfl rfl⟩
    · next attachment hdetach =>
      refine ⟨effect_detaching hdetach, fun _ => ?_⟩
      refine hthread.leave ⟨by simp, ?_⟩ rfl rfl
      simpa using hthread.place r
  | clearing c r =>
    obtain ⟨entry, -, hnext⟩ := map_eq_some_iff.mp h
    cases hnext
    exact ⟨effect_clearing hsound hthread.place.1 hthread.place.2,
      fun _ => hthread.leave trivial rfl rfl⟩
  | sleeping sessionId c wakesAt =>
    dsimp only [next] at h
    split_ifs at h
    refine ⟨?_, fun _ => ?_⟩ <;> dsimp only [expireSession] at h <;> split at h <;>
      try split_ifs at h
    all_goals cases h
    · exact (sameView_lock _ _).effect fun _ _ => rfl
    · exact (sameView_remove _ _ _).effect fun _ _ => rfl
    · exact (sameView_lock _ _).effect fun _ _ => rfl
    all_goals exact hthread.leave trivial rfl rfl

theorem exists_passed_of_holder (h : thread.holder = some c) :
    ∃ n, thread.passed = some (c, n) := by
  cases thread <;> cases h <;> exact ⟨_, rfl⟩

/-- There is at most one thread in the critical section. -/
theorem holder_eq_none_of_ne {other : SessionThread ν} {j : ℕ} (hsound : registry.Sound trace)
    (hthread : thread.Holds trace registry i) (hother : other.Holds trace registry j) (hij : i ≠ j)
    (hc : other.holder = some c) : thread.holder = none := by
  cases hholder : thread.holder with
  | none => rfl
  | some c' =>
    obtain rfl : c = c' := some.inj ((hother.locked c hc).symm.trans (hthread.locked c' hholder))
    obtain ⟨n, hn⟩ := exists_passed_of_holder hholder
    obtain ⟨m, hm⟩ := exists_passed_of_holder hc
    exact absurd (hsound.unique _ _ _ _ _ (hthread.drew _ _ hn) (hother.drew _ _ hm)).1 hij

/-- The session a thread works on in the critical section is not changed by the others. -/
theorem SessionThread.At.other {other : SessionThread ν} {j : ℕ}
    (hplace : other.At trace registry j) (hij : i ≠ j)
    (hclear : ∀ r, event = .cleared r → ¬ Settled trace r)
    (hout : other.holder.isSome → Outside registry event registry') :
    other.At (trace ++ [(i, event)]) registry' j := by
  cases other with
  | checkingExpiry c sessionId n r | checkingActive c sessionId n r =>
    have hlength := (hout rfl).length
    exact hplace.trans_eq hlength.symm
  | installing c n r =>
    obtain ⟨hr, hcurrent⟩ := hplace
    exact ⟨hr.trans_eq (hout rfl).length.symm, ((hout rfl).current r hcurrent).1⟩
  | marking c n r =>
    obtain ⟨hr, hcurrent, hsender, hsettled⟩ := hplace
    obtain ⟨hcurrent', hdropped⟩ := (hout rfl).current r hcurrent
    refine ⟨hr.trans_eq (hout rfl).length.symm, hcurrent', ?_, hsettled.append hdropped⟩
    -- the sender is only removed by a `detach` that the session is not settled for
    have hcleared : event ≠ .cleared r := fun hevent => hclear r hevent hsettled
    exact ((hout rfl).sender r hcleared).trans hsender
  | detaching c r => exact fun k hk => hplace k (mem_of_mem_concat hij hk)
  | clearing c r =>
    exact ⟨mem_append_left _ hplace.1, fun hk => hplace.2 (mem_of_mem_concat hij hk)⟩
  | attaching | locking | discarding | attached | attachFailed | sleeping | expiring | finished =>
    trivial

theorem holds_of_other {other : SessionThread ν} {j : ℕ} (hsound : registry.Sound trace)
    (hthread : thread.Holds trace registry i) (hother : other.Holds trace registry j) (hij : i ≠ j)
    (heffect : Effect trace registry i thread event registry') :
    other.Holds (trace ++ [(i, event)]) registry' j := by
  have hout : other.holder.isSome → Outside registry event registry' := by
    intro hsome
    obtain ⟨c, hc⟩ := isSome_iff_exists.mp hsome
    refine heffect.outside (holder_eq_none_of_ne hsound hthread hother hij hc) ?_
    rw [hother.locked c hc]
    rfl
  refine ⟨fun c n hc => mem_append_left _ (hother.drew c n hc), fun c hc => ?_,
    hother.place.other hij heffect.cleared hout⟩
  rw [(hout (by rw [hc]; rfl)).lock]
  exact hother.locked c hc

/-! ### Runs -/

/-- The clock is not part of any assertion. -/
theorem SessionRegistry.Sound.withClock (h : registry.Sound trace) (now : ℕ) :
    Sound trace { registry with clock := now } :=
  ⟨h.unique, h.drawn, h.sessions, h.dropped, h.notified⟩

theorem SessionThread.Holds.withClock (h : thread.Holds trace registry i) (now : ℕ) :
    thread.Holds trace { registry with clock := now } i :=
  ⟨h.drew, h.locked, by cases thread <;> exact h.place⟩

theorem sound_new : (new : SessionRegistry ν).Sound [] where
  unique := fun _ _ _ _ _ => nofun
  drawn := fun _ _ _ => nofun
  sessions := fun _ _ => nofun
  dropped := fun _ _ => nofun
  notified := fun _ _ => nofun

theorem holds_start {call : SessionCall ν} (hunseen : ∀ event, (i, event) ∉ trace) :
    call.start.Holds trace registry i := by
  cases call with
  | attach resumeSessionId n => exact ⟨fun _ _ => nofun, fun _ => nofun, trivial⟩
  | detach c r => exact ⟨fun _ _ => nofun, fun _ => nofun, fun _ => hunseen _⟩

variable {pool : Data.Pool (SessionRegistry ν) (SessionThread ν)}

/-- The assertions hold in every run that satisfies the condition. -/
theorem run_sound (run : SessionRun trace pool) (h : Undisturbed trace) :
    pool.shared.Sound trace ∧
      ∀ (i : ℕ) (thread : SessionThread ν), pool.threads[i]? = some thread →
        thread.Holds trace pool.shared i := by
  have hinv := run.invariant (fun _ => sound_new)
    (I := fun trace registry => Undisturbed trace → registry.Sound trace)
    (J := fun trace registry i thread => Undisturbed trace → thread.Holds trace registry i)
    ?_ ?_ ?_
  · exact ⟨hinv.1 h, fun i thread hthread => hinv.2 i thread hthread h⟩
  · rintro trace registry i thread - hunseen ⟨call, rfl⟩ -
    exact holds_start hunseen
  · rintro trace registry i thread event registry' thread' hI hJ ⟨draw, -, hfresh, -, hnext⟩
    have hstep := fun hun : Undisturbed trace => step_of_next (by exact hfresh)
      ((hI hun).withClock draw.now) ((hJ hun).withClock draw.now) hnext
    exact ⟨fun hun => ((hI hun.of_append).withClock draw.now).step (hstep hun.of_append).1,
      fun hun => (hstep hun.of_append).2 hun⟩
  · rintro trace registry i thread event registry' thread' j other hI hJ hother hij
      ⟨draw, -, hfresh, -, hnext⟩ hun
    have hsound := (hI hun.of_append).withClock draw.now
    have hthread := (hJ hun.of_append).withClock draw.now
    exact holds_of_other hsound hthread ((hother hun.of_append).withClock draw.now) hij
      (step_of_next (by exact hfresh) hsound hthread hnext).1

theorem eq_attached_of_next
    (h : thread.next draw registry = some (.attached c n r, registry', thread')) :
    thread' = .attached c n r := by
  cases thread with
  | clearing => simp [next] at h
  | _ =>
    dsimp only [next, resumeSession, expireSession] at h
    repeat' split at h
    all_goals cases h
    all_goals rfl

/-- An `attach` that has returned a handle stays as it is. -/
theorem attached_of_mem (run : SessionRun trace pool) (h : (i, .attached c n r) ∈ trace) :
    pool.threads[i]? = some (.attached c n r) := by
  induction run with
  | refl => cases h
  | spawn run _ ih => rw [getElem?_append_left (run.lt_length_of_mem h), ih h]
  | @step _ pool j _ _ _ _ run hj hstep ih =>
    obtain ⟨draw, -, -, -, hnext⟩ := hstep
    by_cases hij : j = i
    · subst hij
      rw [getElem?_set_self (List.getElem?_eq_some_iff.mp hj).1]
      rcases mem_concat.mp h with h | ⟨-, rfl⟩
      · obtain rfl := Option.some.inj (hj.symm.trans (ih h))
        cases hnext
      · rw [eq_attached_of_next hnext]
    · rw [getElem?_set_ne hij, ih (mem_of_mem_concat hij h)]

/-! ### Played runs -/

/-- The steps of a thread, as a function. -/
def SessionThread.exec (draw : Draw) (registry : SessionRegistry ν) (thread : SessionThread ν) :
    Option (SessionEvent ν × SessionRegistry ν × SessionThread ν) :=
  if registry.clock ≤ draw.now ∧ draw.connectionId ∉ registry.drawn ∧
      ∀ entry ∈ registry.entries, entry.sessionId ≠ draw.sessionId then
    thread.next draw { registry with clock := draw.now }
  else none

theorem sessionStep_of_exec (h : thread.exec draw registry = some (event, registry', thread')) :
    SessionStep registry thread event registry' thread' := by
  unfold exec at h
  split_ifs at h with hdraw
  exact ⟨draw, hdraw.1, hdraw.2.1, hdraw.2.2, h⟩

/-- What is played from the empty registry is a run. -/
theorem exists_sessionRun {β : Type} (turns : List (Data.Pool.Turn (SessionThread ν) Draw))
    (hturns : ∀ turn ∈ turns, turn.Allowed fun thread => ∃ call : SessionCall ν, call.start = thread)
    (read : List (ℕ × SessionEvent ν) → Data.Pool (SessionRegistry ν) (SessionThread ν) → β) {b : β}
    (h : (Data.Pool.play exec ⟨.new, []⟩ turns).map (fun last => read last.1 last.2) = some b) :
    ∃ trace pool, SessionRun trace pool ∧ read trace pool = b :=
  Data.Pool.exists_run_of_play (fun _ _ _ _ _ _ => sessionStep_of_exec) hturns h

/-- The draws of the samples: the time stands still. -/
def sampleDraw (k : ℕ) : Draw := ⟨0, ⟨k⟩, replicate k 's'⟩

/-- The first connection opens a session and begins to detach from it. -/
def openAndDrop : List (Data.Pool.Turn (SessionThread ℕ) Draw) :=
  [.spawn (attach none 7).start, .step 0 (sampleDraw 1), .step 0 (sampleDraw 2),
    .spawn (detach ⟨1⟩ 0).start, .step 1 (sampleDraw 3)]

/-- The second connection resumes the session. -/
def resumeSecond : List (Data.Pool.Turn (SessionThread ℕ) Draw) :=
  .spawn (attach (some (sampleDraw 2).sessionId) 8).start ::
    (range 6).map fun k => .step 2 (sampleDraw (4 + k))

/-- The first connection has detached when the second one resumes its session. -/
def resumeAfterDetach : List (Data.Pool.Turn (SessionThread ℕ) Draw) :=
  openAndDrop ++ [.step 1 (sampleDraw 10)] ++ resumeSecond

/-- The second connection resumes the session before the first one has removed its sender. -/
def resumeDuringDetach : List (Data.Pool.Turn (SessionThread ℕ) Draw) :=
  openAndDrop ++ resumeSecond ++ [.step 1 (sampleDraw 10)]

/-- One more step keeps the condition if it installs no sender during a `detach`. -/
theorem Undisturbed.append (h : Undisturbed trace)
    (hinstalled : ∀ r, event = .installed r → Settled trace r) :
    Undisturbed (trace ++ [(i, event)]) := by
  intro before j r hbefore
  rcases prefix_concat_iff.mp hbefore with heq | hbefore
  · obtain ⟨rfl, hlast⟩ := append_inj' heq rfl
    obtain ⟨-, rfl⟩ := Prod.mk.inj (singleton_inj.mp hlast)
    exact hinstalled r rfl
  · exact h before j r hbefore

/-- Steps that install no sender keep the condition. -/
theorem Undisturbed.append_of_forall (h : Undisturbed trace) {rest : List (ℕ × SessionEvent ν)}
    (hrest : ∀ step ∈ rest, ∀ r, step.2 ≠ .installed r) : Undisturbed (trace ++ rest) := by
  induction rest generalizing trace with
  | nil => rwa [append_nil]
  | cons step rest ih =>
    have hstep : Undisturbed (trace ++ [step]) :=
      h.append fun r hr => absurd hr (hrest step mem_cons_self r)
    have := ih hstep fun step' hmem => hrest step' (mem_cons_of_mem _ hmem)
    rwa [append_assoc] at this

/-- **Notifications.**  If no `attach` installs its sender in a session between the two steps of a
    `detach` from it, a session with a connection always has the sender of this connection. -/
theorem notified_of_undisturbed {trace : List (ℕ × SessionEvent ν)}
    {pool : Data.Pool (SessionRegistry ν) (SessionThread ν)} (run : SessionRun trace pool)
    (h : Undisturbed trace) : Notified pool := by
  obtain ⟨hsound, hthreads⟩ := run_sound run h
  intro r c hc
  obtain ⟨-, i, n, hdrew, hattached, hn⟩ := hsound.notified r c hc
  refine ⟨⟨i, n, attached_of_mem run hattached⟩, fun j m k hj => ?_⟩
  obtain ⟨-, rfl⟩ := hsound.unique i j c n m hdrew ((hthreads j _ hj).drew c m rfl)
  exact hn

/-- The second connection of the sample has its notifications. -/
theorem resumeAfterDetach_notified :
    ∃ (trace : List (ℕ × SessionEvent ℕ)) (pool : Data.Pool (SessionRegistry ℕ) (SessionThread ℕ)),
      SessionRun trace pool ∧ Undisturbed trace ∧ pool.shared.current 0 = some ⟨4⟩ ∧
        Notified pool := by
  obtain ⟨trace, pool, hrun, hread⟩ := exists_sessionRun resumeAfterDetach
    (by simp [resumeAfterDetach, openAndDrop, resumeSecond, Data.Pool.Turn.Allowed])
    (fun trace pool => (trace, pool.shared.current 0))
    (b := ([(0, .drew ⟨1⟩ 7), (0, .attached ⟨1⟩ 7 0), (1, .dropped 0), (1, .cleared 0),
      (2, .drew ⟨4⟩ 8), (2, .silent), (2, .silent), (2, .silent)] ++ [(2, .installed 0)] ++
      [(2, .attached ⟨4⟩ 8 0)], some ⟨4⟩)) (by decide)
  obtain ⟨htrace, hcurrent⟩ := Prod.mk.inj hread
  have hnil : Undisturbed ([] : List (ℕ × SessionEvent ℕ)) :=
    fun before _ _ hbefore => absurd (prefix_nil.mp hbefore) (by simp)
  have hun : Undisturbed trace := by
    rw [htrace]
    refine .append_of_forall (.append (hnil.append_of_forall ?_) ?_) ?_
    · simp
    · -- the one `detach` of the run is over when the sender is installed
      rintro r hr j hj
      simpa using hj
    · simp
  exact ⟨trace, pool, hrun, hun, hcurrent, notified_of_undisturbed hrun hun⟩

/-- A connection resumes a session whose previous connection has not yet removed its sender: the
    session stays with it, and has no sender. -/
theorem resume_loses_notifications :
    ∃ (trace : List (ℕ × SessionEvent ℕ)) (pool : Data.Pool (SessionRegistry ℕ) (SessionThread ℕ)),
      SessionRun trace pool ∧ (∀ thread ∈ pool.threads, thread.isReturned) ∧
        pool.shared.current 0 = some ⟨4⟩ ∧ pool.shared.sender 0 = none ∧ ¬ Notified pool := by
  obtain ⟨trace, pool, hrun, hread⟩ := exists_sessionRun resumeDuringDetach
    (by simp [resumeDuringDetach, openAndDrop, resumeSecond, Data.Pool.Turn.Allowed, or_imp,
      forall_and])
    (fun _ pool => (pool.threads.all (·.isReturned), pool.shared.current 0, pool.shared.sender 0))
    (b := (true, some ⟨4⟩, none)) (by decide)
  obtain ⟨hreturned, hview⟩ := Prod.mk.inj hread
  obtain ⟨hcurrent, hsender⟩ := Prod.mk.inj hview
  refine ⟨trace, pool, hrun, all_eq_true.mp hreturned, hcurrent, hsender, fun hnotified => ?_⟩
  obtain ⟨⟨i, n, hi⟩, hsenders⟩ := hnotified 0 ⟨4⟩ hcurrent
  have hn := hsenders i n 0 hi
  rw [hsender] at hn
  cases hn

end Codex.ExecServer
