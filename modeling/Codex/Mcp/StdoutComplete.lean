import Codex.Mcp.ExecutorTransport

namespace Codex.Mcp

open Codex.ExecServer ExecutorProcessTransport ProcessServer ExecProcessEventReceiver List
open Option Bool

/-!
# No message of an MCP server is lost

The messages that a transport returns are compared with those of the whole stdout of the process.
Up to `lastSeq` the transport has taken all the stdout there is, either from the events or from the
retained output, and behind `lastSeq` there is none before the next event.

* `stdoutOf` — the stdout in the events of a process;
* `ExecutorProcessTransport.Follows` — what holds of a transport and the events;
* `messages_complete` — the messages of a run in which nothing was missed.
-/

/-! ### The stdout of a process -/

def stdoutBytes (chunk : ProcessOutputChunk) : List UInt8 :=
  match chunk.stream with
  | .stdout | .pty => chunk.chunk
  | .stderr => []

/-- The stdout in the events of a process. -/
def stdoutOf (log : List ExecProcessEvent) : List UInt8 := (outputs log).flatMap stdoutBytes

theorem stdoutOf_append (log more : List ExecProcessEvent) :
    stdoutOf (log ++ more) = stdoutOf log ++ stdoutOf more := by
  rw [stdoutOf, outputs_append, flatMap_append]
  rfl

theorem stdoutOf_singleton_output (chunk : ProcessOutputChunk) :
    stdoutOf [.output chunk] = stdoutBytes chunk := by
  simp [stdoutOf, outputs, ExecProcessEvent.output?]

/-- The stdout up to a later event. -/
theorem stdoutOf_take {j k : ℕ} (hle : j ≤ k) (log : List ExecProcessEvent) :
    stdoutOf (log.take k) = stdoutOf (log.take j) ++ stdoutOf ((log.take k).drop j) := by
  conv_lhs => rw [← take_append_drop j (log.take k)]
  rw [stdoutOf_append, take_take, Nat.min_eq_left hle]

variable {event : ExecProcessEvent} {log : List ExecProcessEvent}

theorem stdoutOf_take_succ {k : ℕ} (h : log[k]? = some event) {j : ℕ} (hle : j ≤ k) :
    stdoutOf ((log.take (k + 1)).drop j) = stdoutOf ((log.take k).drop j) ++ stdoutOf [event] := by
  obtain ⟨hlt, rfl⟩ := List.getElem?_eq_some_iff.mp h
  rw [take_succ_eq_append_getElem hlt, drop_append_of_le_length, stdoutOf_append]
  rw [length_take]
  omega

/-- Where there is no stdout, there is none before. -/
theorem stdoutOf_drop_take {j : ℕ} (h : stdoutOf (log.drop j) = []) (k : ℕ) :
    stdoutOf ((log.take k).drop j) = [] := by
  have hsplit := stdoutOf_append ((log.drop j).take (k - j)) ((log.drop j).drop (k - j))
  rw [take_append_drop, h] at hsplit
  rw [drop_take]
  exact (append_eq_nil_iff.mp hsplit.symm).1

/-- The chunks of a log have growing numbers. -/
theorem pairwise_outputs (h : Numbered log) :
    (outputs log).Pairwise (·.seq < ·.seq) ∧ ∀ chunk ∈ outputs log, chunk.seq ≤ log.length := by
  induction log using reverseRecOn with
  | nil => exact ⟨.nil, fun _ => nofun⟩
  | append_singleton log event ih =>
    obtain ⟨hsorted, hle⟩ := ih h.of_append
    rw [outputs_append, length_append, length_singleton]
    cases hevent : event.output? with
    | none =>
      have hnil : outputs [event] = [] := by simp [outputs, hevent]
      rw [hnil, append_nil]
      exact ⟨hsorted, fun chunk hmem => (hle chunk hmem).trans (Nat.le_succ _)⟩
    | some last =>
      have hlast : outputs [event] = [last] := by simp [outputs, hevent]
      have hseq : last.seq = log.length + 1 := by
        cases event <;> cases hevent
        have hnumber := h log.length (.output last) (by simp)
        exact some.inj hnumber
      rw [hlast]
      refine ⟨pairwise_append.mpr ⟨hsorted, pairwise_singleton _ _, ?_⟩, ?_⟩
      · intro chunk hmem other hother
        rw [mem_singleton.mp hother, hseq]
        exact Nat.lt_succ_of_le (hle chunk hmem)
      · exact forall_mem_append.mpr ⟨fun chunk hmem => (hle chunk hmem).trans (Nat.le_succ _),
          forall_mem_singleton.mpr hseq.le⟩

/-- Nothing follows the end of a process. -/
def EndsLast (log : List ExecProcessEvent) : Prop :=
  ∀ k event, log[k]? = some event → event.isClosed → k + 1 = log.length

/-- Before its last event a process is not over. -/
theorem not_isOver_take (hlast : EndsLast log) {k : ℕ} (hk : k ≤ log.length - 1) :
    ¬ IsOver (log.take k) := by
  rintro ⟨event, hmem, hclosed⟩
  obtain ⟨j, hj, rfl⟩ := mem_take_iff_getElem.mp hmem
  have hlt : j < log.length := by omega
  have hend := hlast j log[j] (getElem?_eq_getElem hlt) hclosed
  omega

theorem not_isOver_take_succ {k : ℕ} (hevent : log[k]? = some event)
    (hbefore : ¬ IsOver (log.take k)) (hnotClosed : event.isClosed = false) :
    ¬ IsOver (log.take (k + 1)) := by
  obtain ⟨hlt, rfl⟩ := List.getElem?_eq_some_iff.mp hevent
  rw [take_succ_eq_append_getElem hlt, isOver_append, hnotClosed]
  exact not_or.mpr ⟨hbefore, false_ne_true⟩

/-! ### What holds of a transport -/

namespace ExecutorProcessTransport

variable {μ : Type} {parse : List UInt8 → Option μ} {t : ExecutorProcessTransport μ}

/-- The stdout of the first `lastSeq` events was returned or is in the buffer, whatever follows. -/
def Pushed (parse : List UInt8 → Option μ) (log : List ExecProcessEvent)
    (t : ExecutorProcessTransport μ) : Prop :=
  ∀ more, (t.closed → more = []) →
    messagesOf parse (stdoutOf (log.take t.lastSeq) ++ more) =
      t.returned ++ messagesOf parse (t.stdout.bytes ++ more)

/-- What holds of a transport when `log` are the events of its process and `delivered` of them have
    reached it. -/
structure Follows (parse : List UInt8 → Option μ) (log : List ExecProcessEvent) (delivered : ℕ)
    (t : ExecutorProcessTransport μ) : Prop where
  events : t.events.Follows (log.take delivered)
  lastSeq_le : t.lastSeq ≤ log.length
  pushed : t.Pushed parse log
  /-- No stdout was passed over, except while the transport recovers. -/
  seen : t.phase ≠ .recovering → stdoutOf ((log.take t.events.position).drop t.lastSeq) = []
  notOver : t.closed = false → ¬ IsOver (log.take t.events.position)
  isOver : t.closed → IsOver log ∧ stdoutOf (log.drop t.lastSeq) = []
  recovering : t.phase = .recovering → t.closed = false
  ended : t.phase = .ended → t.closed ∧ t.stdout.bytes = []

variable (t)

theorem pushProcessOutput_eq (chunk : ProcessOutputChunk) :
    ∃ stdout : LineBuffer, stdout.bytes = t.stdout.bytes ++ stdoutBytes chunk ∧
      t.pushProcessOutput chunk = { t with stdout } := by
  unfold pushProcessOutput stdoutBytes
  cases chunk.stream with
  | stdout | pty => exact ⟨_, rfl, rfl⟩
  | stderr => exact ⟨t.stdout, (append_nil _).symm, rfl⟩

theorem pushProcessOutputIfNew_of_lt
    {chunk : ProcessOutputChunk} (hnew : t.lastSeq < chunk.seq) :
    ∃ stdout : LineBuffer, stdout.bytes = t.stdout.bytes ++ stdoutBytes chunk ∧
      t.pushProcessOutputIfNew chunk = { t with stdout, lastSeq := chunk.seq } := by
  rw [pushProcessOutputIfNew, if_neg (Nat.not_le.mpr hnew)]
  exact pushProcessOutput_eq { t with lastSeq := chunk.seq } chunk

/-- The output that a read has given is taken as a whole. -/
theorem foldl_push {chunks : List ProcessOutputChunk} (hsorted : chunks.Pairwise (·.seq < ·.seq))
    (hnew : ∀ chunk ∈ chunks, t.lastSeq < chunk.seq) :
    ∃ stdout : LineBuffer, stdout.bytes = t.stdout.bytes ++ chunks.flatMap stdoutBytes ∧
      chunks.foldl pushProcessOutputIfNew t =
        { t with
          stdout, lastSeq := (chunks.getLast?.map (·.seq)).getD t.lastSeq } := by
  induction chunks generalizing t with
  | nil => exact ⟨t.stdout, (append_nil _).symm, rfl⟩
  | cons chunk chunks ih =>
    obtain ⟨hfirst, hsorted⟩ := pairwise_cons.mp hsorted
    obtain ⟨stdout, hbytes, hpush⟩ := pushProcessOutputIfNew_of_lt t (hnew chunk mem_cons_self)
    obtain ⟨stdout', hbytes', hrest⟩ := ih { t with stdout, lastSeq := chunk.seq } hsorted hfirst
    refine ⟨stdout', ?_, ?_⟩
    · rw [hbytes', hbytes, flatMap_cons, append_assoc]
    · rw [foldl_cons, hpush, hrest, getLast?_cons]
      cases chunks.getLast? <;> rfl

variable {t}

section Steps

variable {delivered : ℕ}

variable {events : ExecProcessEventReceiver} {record : ProcessRecord}

/-- The transport has taken what it had not taken of the first `lastSeq` events. -/
theorem Follows.advance (h : t.Follows parse log delivered)
    (hopen : t.closed = false) (hevents : events.Follows (log.take delivered))
    {stdout : LineBuffer} {lastSeq : ℕ} (hle : t.lastSeq ≤ lastSeq)
    (hlastSeq : lastSeq ≤ log.length) (hstdout : stdout.bytes =
      t.stdout.bytes ++ stdoutOf ((log.take lastSeq).drop t.lastSeq))
    (hseen : stdoutOf ((log.take events.position).drop lastSeq) = []) {closed : Bool}
    (hnotOver : closed = false → ¬ IsOver (log.take events.position))
    (hisOver : closed → IsOver log ∧ stdoutOf (log.drop lastSeq) = []) : Follows parse log delivered
      ⟨events, stdout, closed, lastSeq, .receiving, t.returned⟩ where
  events := hevents
  lastSeq_le := hlastSeq
  pushed := by
    intro more _
    rw [hstdout, stdoutOf_take hle, append_assoc, append_assoc]
    exact h.pushed _ (fun hc => absurd (hopen.symm.trans hc) false_ne_true)
  seen _ := hseen
  notOver := hnotOver
  isOver := hisOver
  recovering := nofun
  ended := nofun

/-- What the next event adds to the stdout. -/
theorem Follows.stdoutOf_next (h : t.Follows parse log delivered)
    (hphase : t.phase ≠ .recovering) (hevent : log[t.events.position]? = some event) :
    stdoutOf ((log.take (max t.lastSeq (t.events.position + 1))).drop
        t.lastSeq) =
      if t.events.position + 1 ≤ t.lastSeq then [] else stdoutOf [event] := by
  split_ifs with hold
  · rw [Nat.max_eq_left hold, drop_eq_nil_of_le (length_take_le _ _)]
    rfl
  · rw [Nat.max_eq_right (by omega), stdoutOf_take_succ hevent (by omega), h.seen hphase,
      nil_append]

theorem Follows.handle (h : t.Follows parse log delivered) (hnumbered : Numbered log)
    (hlast : EndsLast log) (hphase : t.phase = .receiving)
    (hopen : t.closed = false) (hevent : log[t.events.position]? = some event)
    (hevents : events.Follows (log.take delivered))
    (hposition : events.position = t.events.position + 1) :
    (handle { t with events } event).Follows parse log delivered := by
  have hnext := h.stdoutOf_next (by rw [hphase]; exact nofun) hevent
  have hlt := (List.getElem?_eq_some_iff.mp hevent).1
  have hseq := hnumbered _ event hevent
  have hle := h.lastSeq_le
  -- behind the event nothing is left before the next one
  have hseen : ∀ lastSeq, events.position ≤ lastSeq →
      stdoutOf ((log.take events.position).drop lastSeq) = [] := fun lastSeq hpassed => by
    rw [drop_eq_nil_of_le ((length_take_le _ _).trans hpassed)]
    rfl
  have hover : event.isClosed = false → ¬ IsOver (log.take events.position) := by
    rw [hposition]
    exact not_isOver_take_succ hevent (h.notOver hopen)
  have hmax : max t.lastSeq (t.events.position + 1) ≤ log.length := by omega
  cases event with
  | output chunk =>
    have hchunk : chunk.seq = t.events.position + 1 := some.inj hseq
    by_cases hold : chunk.seq ≤ t.lastSeq
    · -- a duplicate
      rw [hchunk] at hold
      rw [Nat.max_eq_left hold, if_pos hold] at hnext
      have hsame : handle { t with events } (.output chunk) =
          ⟨events, t.stdout, false, t.lastSeq, .receiving, t.returned⟩ := by
        rw [handle, pushProcessOutputIfNew, if_pos (by rwa [hchunk]), ← hopen, ← hphase]
      rw [hsame]
      refine h.advance hopen hevents le_rfl hle ?_ (hseen _ (by omega)) (fun _ => hover rfl) nofun
      rw [hnext, append_nil]
    · obtain ⟨stdout, hbytes, hpush⟩ :=
        pushProcessOutputIfNew_of_lt { t with events } (Nat.not_le.mp hold)
      rw [hchunk] at hold
      rw [Nat.max_eq_right (by omega), if_neg hold, stdoutOf_singleton_output] at hnext
      rw [handle, hpush, hopen, hphase]
      exact h.advance hopen hevents (by omega) (by omega) (by rw [hbytes, hchunk, hnext])
        (hseen _ (by omega)) (fun _ => hover rfl) nofun
  | exited seq exitCode =>
    have hseq' : seq = t.events.position + 1 := some.inj hseq
    rw [hopen, hphase, hseq']
    refine h.advance hopen hevents (Nat.le_max_left _ _) hmax ?_ (hseen _ (by omega))
      (fun _ => hover rfl) nofun
    rw [hnext]
    split_ifs <;> exact (append_nil _).symm
  | closed seq =>
    have hseq' : seq = t.events.position + 1 := some.inj hseq
    have hend := hlast _ _ hevent rfl
    rw [hphase, hseq']
    refine h.advance hopen hevents (Nat.le_max_left _ _) hmax ?_ (hseen _ (by omega)) nofun
      (fun _ => ⟨⟨_, mem_of_getElem? hevent, rfl⟩, ?_⟩)
    · rw [hnext]
      split_ifs <;> exact (append_nil _).symm
    · rw [drop_eq_nil_of_le (by omega)]
      rfl
  | failed message => cases hseq

/-- The number a transport goes on from after a read has no output behind it. -/
theorem outputs_drop_reached {lastSeq nextSeq reached : ℕ} (hnumbered : Numbered log)
    (hle : lastSeq ≤ log.length) (hnextSeq : nextSeq = log.length + 1) (hreached : reached =
      max (((outputs (log.drop lastSeq)).getLast?.map (·.seq)).getD lastSeq)
        (((outputs (log.drop lastSeq)).getLast?.map (·.seq + 1)).getD nextSeq - 1)) :
    lastSeq ≤ reached ∧ reached ≤ log.length ∧ outputs (log.drop reached) = [] := by
  have hfilter := outputs_filter hnumbered
  cases hlast : (outputs (log.drop lastSeq)).getLast? with
  | none =>
    simp only [hlast, map_none, getD_none] at hreached
    have hend : reached = log.length := by omega
    rw [hend, drop_length]
    exact ⟨hle, le_rfl, rfl⟩
  | some last =>
    simp only [hlast, map_some, getD_some] at hreached
    have hend : reached = last.seq := by omega
    obtain ⟨before, hbefore⟩ := getLast?_eq_some_iff.mp hlast
    obtain ⟨hsorted, hbound⟩ := pairwise_outputs hnumbered
    have hmem : last ∈ (outputs log).filter fun chunk => decide (lastSeq < chunk.seq) := by
      rw [hfilter, hbefore]
      exact mem_append_right _ mem_cons_self
    rw [mem_filter, decide_eq_true_eq] at hmem
    have hsorted' : (before ++ [last]).Pairwise (·.seq < ·.seq) := by
      rw [← hbefore, ← hfilter]
      exact hsorted.filter _
    rw [hend]
    refine ⟨hmem.2.le, hbound last hmem.1, ?_⟩
    rw [← hfilter, filter_eq_nil_iff]
    intro chunk hchunk hbehind
    rw [decide_eq_true_eq] at hbehind
    -- a chunk behind the last would be among those that were read
    have hread : chunk ∈ before ++ [last] := by
      rw [← hbefore, ← hfilter, mem_filter, decide_eq_true_eq]
      exact ⟨hchunk, hmem.2.trans hbehind⟩
    rcases mem_append.mp hread with hread | hread
    · have hlt := (pairwise_append.mp hsorted').2.2 chunk hread last mem_cons_self
      omega
    · rw [mem_singleton.mp hread] at hbehind
      omega

section

variable (h : t.Follows parse log delivered)
include h

/-- A read after a lag gives all the stdout that the process has written. -/
theorem Follows.recover (hlog : record.log = log)
    {streams : ℕ} {exited : Bool} (hsound : record.Sound streams exited) (hretains : record.Retains)
    (hfits : retainedTotal log ≤ retainedOutputBytesPerProcess)
    (hphase : t.phase = .recovering) {process : RunningProcess}
    (hentry : record.entry = some process) : Follows parse log delivered
      { t.recoverLaggedEvents (some (process.execRead t.lastSeq none)) with
        phase := .receiving } := by
  subst hlog
  have hopen := h.recovering hphase
  have hle := h.lastSeq_le
  obtain ⟨hchunks, hnext⟩ := execRead_chunks hsound.numbered hretains hentry hfits t.lastSeq
  have hfilter := outputs_filter hsound.numbered
  obtain ⟨hsorted, hbound⟩ := pairwise_outputs hsound.numbered
  have hsorted' : (outputs (record.log.drop t.lastSeq)).Pairwise (·.seq < ·.seq) :=
    hfilter _ ▸ hsorted.filter _
  have hnew : ∀ chunk ∈ outputs (record.log.drop t.lastSeq),
      t.lastSeq < chunk.seq := fun chunk hmem => by
    rw [← hfilter, mem_filter, decide_eq_true_eq] at hmem
    exact hmem.2
  obtain ⟨stdout, hbytes, hpush⟩ := foldl_push t hsorted' hnew
  rw [recoverLaggedEvents, hchunks, hnext, hpush]
  rw [hopen]
  -- there is no stdout behind the number the transport goes on from
  generalize hlastSeq : max (_ : ℕ) _ = lastSeq
  obtain ⟨hgrown, hlength, hnone⟩ :=
    outputs_drop_reached hsound.numbered hle (hsound.nextSeq process hentry) hlastSeq.symm
  have hrest : stdoutOf (record.log.drop lastSeq) = [] := by
    rw [stdoutOf, hnone]
    rfl
  refine h.advance hopen h.events hgrown hlength ?_ (stdoutOf_drop_take hrest _)
    (fun hnot hover => ?_) (fun hyes => ⟨(hsound.closed process hentry).mp hyes, hrest⟩)
  · have hsplit := stdoutOf_append ((record.log.take lastSeq).drop t.lastSeq)
      (record.log.drop lastSeq)
    rw [hrest, append_nil, ← drop_append_of_le_length, take_append_drop] at hsplit
    · rw [hbytes, ← hsplit]
      rfl
    · rw [length_take]
      omega
  · refine absurd ((hsound.closed process hentry).mpr ?_) (eq_false_iff.mp hnot)
    exact IsOver.of_prefix (List.take_prefix _ _) hover

/-- A message, or none, was taken from the buffer. -/
theorem Follows.take
    (hphase : t.phase = .receiving) {message : Option μ} {stdout : LineBuffer}
    (htaken : Taken parse t.closed t.stdout.bytes message stdout.bytes) :
    Follows parse log delivered
      { t with stdout, returned := t.returned ++ message.toList } := by
  refine { h with pushed := fun more hmore => ?_, ended := fun hended => ?_ }
  · rw [h.pushed more hmore, htaken more hmore, append_assoc]
  · rw [hphase] at hended
    cases hended

/-- **A turn of the loop keeps what holds of a transport**, if the process is still known when the
    transport recovers. -/
theorem Follows.receive (hlog : record.log = log)
    {streams : ℕ} {exited : Bool} (hsound : record.Sound streams exited) (hretains : record.Retains)
    (hfits : retainedTotal log ≤ retainedOutputBytesPerProcess)
    (hknown : t.phase = .recovering → record.entry.isSome) :
    (t.receive parse (log.take delivered) record.entry).Follows parse log delivered := by
  -- taking nothing from the buffer leaves the messages as they are
  have hscan : ∀ {stdout : LineBuffer}, t.phase = .receiving →
      takeStdoutMessage parse t.closed t.stdout = (none, stdout) →
      Follows parse log delivered { t with stdout } := fun hphase htake => by
    have htaken := h.take hphase (taken_of_takeStdoutMessage htake).1
    rwa [toList_none, append_nil] at htaken
  have hstep := receiveStep_receive parse (log.take delivered) record.entry t
  generalize t.receive parse (log.take delivered) record.entry = next at hstep ⊢
  cases hstep with
  | ended => exact h
  | recovered hphase =>
    obtain ⟨process, hentry⟩ := isSome_iff_exists.mp (hknown hphase)
    rw [hentry]
    exact h.recover hlog hsound hretains hfits hphase hentry
  | message hphase htake => exact h.take hphase (taken_of_takeStdoutMessage htake).1
  | finished hphase htake hclosed =>
    exact { hscan hphase htake with
      seen := fun _ => h.seen (by rw [hphase]; exact nofun)
      recovering := nofun
      ended := fun _ => ⟨hclosed, (taken_of_takeStdoutMessage htake).2.1 rfl hclosed⟩ }
  | waiting hphase htake => exact hscan hphase htake
  | handled hphase htake hopen hrecv =>
    obtain ⟨hevent, hevents, hposition⟩ := h.events.recv_event hrecv
    rw [getElem?_take] at hevent
    split_ifs at hevent
    exact (hscan hphase htake).handle (hlog ▸ hsound.numbered) (hlog ▸ hsound.last) hphase hopen
      hevent hevents hposition
  | lagged hphase htake hopen hrecv =>
    obtain ⟨hevents, -, hbefore⟩ := h.events.recv_lagged hrecv
    refine { hscan hphase htake with
      events := hevents
      seen := fun hnot => absurd rfl hnot
      notOver := fun _ => ?_
      recovering := fun _ => hopen
      ended := nofun }
    -- the last event was not passed over
    rw [length_take] at hbefore
    exact not_isOver_take (hlog ▸ hsound.last) (by dsimp only; omega)

/-- The log grows and more of it reaches the transport. -/
theorem Follows.grow {log' : List ExecProcessEvent}
    (hdelivered : delivered ≤ log.length) (hgrown : log <+: log') {delivered' : ℕ}
    (hle : delivered ≤ delivered') (hlast : EndsLast log') :
    t.Follows parse log' delivered' := by
  obtain ⟨more, rfl⟩ := hgrown
  have htake : ∀ k ≤ log.length, (log ++ more).take k = log.take k := fun k hk =>
    take_append_of_le_length hk
  have hposition : t.events.position ≤ log.length :=
    h.events.position_le.trans (length_take_le' _ _)
  have hlastSeq := h.lastSeq_le
  refine ⟨?_, ?_, ?_, ?_, ?_, ?_, h.recovering, h.ended⟩
  · have hmore := h.events.append (((log ++ more).take delivered').drop delivered)
    rwa [← htake _ hdelivered, ← Nat.min_eq_left hle, ← take_take, Nat.min_eq_left hle,
      take_append_drop] at hmore
  · rw [length_append]
    omega
  · intro rest hrest
    rw [htake _ hlastSeq]
    exact h.pushed rest hrest
  · rw [htake _ hposition]
    exact h.seen
  · rw [htake _ hposition]
    exact h.notOver
  · -- nothing follows the end
    intro hclosed
    obtain ⟨⟨event, hmem, hevent⟩, hrest⟩ := h.isOver hclosed
    obtain ⟨k, hk, rfl⟩ := mem_iff_getElem.mp hmem
    have hend := hlast k log[k]
      (by rw [getElem?_append_left hk, getElem?_eq_getElem hk]) hevent
    have hnil : more = [] := by
      rw [length_append] at hend
      exact eq_nil_of_length_eq_zero (by omega)
    rw [hnil, append_nil]
    exact ⟨⟨_, hmem, hevent⟩, hrest⟩

end

/-- A new transport follows the events, if no stdout was pushed out of the history before. -/
theorem follows_new (hfits : retainedTotal log ≤ retainedOutputBytesPerProcess)
    (hdelivered : delivered ≤ log.length) (hlast : EndsLast log)
    (hmissed : stdoutOf (log.take (delivered - processEventChannelCapacity)) = []) :
    (new (log.take delivered) : ExecutorProcessTransport μ).Follows parse log delivered := by
  have hfits' : retainedTotal (log.take delivered) ≤ retainedOutputBytesPerProcess := by
    have hsplit := retainedTotal_append (log.take delivered) (log.drop delivered)
    rw [take_append_drop] at hsplit
    omega
  obtain ⟨hevents, hposition⟩ := follows_subscribe hfits'
  rw [length_take, Nat.min_eq_left hdelivered] at hposition
  have hcapacity : 0 < processEventChannelCapacity := by decide
  refine ⟨hevents, Nat.zero_le _, fun _ _ => rfl, fun _ => ?_, ?_, nofun, nofun, nofun⟩
  · show stdoutOf ((log.take (subscribe _).position).drop 0) = []
    rw [drop_zero, hposition, hmissed]
  · show _ → ¬ IsOver (log.take (subscribe _).position)
    exact fun _ => not_isOver_take hlast (by omega)

end Steps

end ExecutorProcessTransport

/-! ### A transport comes to its end -/

namespace ExecutorProcessTransport

variable {μ : Type} {parse : List UInt8 → Option μ} {t : ExecutorProcessTransport μ}

/-- A transport that is not closed has not come to the last event. -/
def Tracks (log : List ExecProcessEvent) (t : ExecutorProcessTransport μ) : Prop :=
  t.events.Follows log ∧ (t.closed = false → ¬ IsOver (log.take t.events.position))

variable (t)

theorem handle_eq (event : ExecProcessEvent) :
    (t.handle event).events = t.events ∧
      (t.handle event).phase = t.phase ∧
      ((t.handle event).closed = false →
        t.closed = false ∧ event.isClosed = false) := by
  cases event with
  | output chunk =>
    rw [handle, pushProcessOutputIfNew]
    split_ifs
    · exact ⟨rfl, rfl, fun h => ⟨h, rfl⟩⟩
    · obtain ⟨stdout, -, hpush⟩ := pushProcessOutput_eq { t with lastSeq := chunk.seq } chunk
      rw [hpush]
      exact ⟨rfl, rfl, fun h => ⟨h, rfl⟩⟩
  | exited seq exitCode => exact ⟨rfl, rfl, fun h => ⟨h, rfl⟩⟩
  | closed seq | failed message => exact ⟨rfl, rfl, nofun⟩

theorem recoverLaggedEvents_eq
    (response : Option ReadResponse) :
    (t.recoverLaggedEvents response).events = t.events ∧
      ((t.recoverLaggedEvents response).closed = false → t.closed = false) := by
  cases response with
  | none => exact ⟨rfl, nofun⟩
  | some response =>
    have hfold : ∀ chunks : List ProcessOutputChunk,
        (chunks.foldl pushProcessOutputIfNew t).events = t.events ∧
          (chunks.foldl pushProcessOutputIfNew t).closed = t.closed := by
      intro chunks
      induction chunks using reverseRecOn with
      | nil => exact ⟨rfl, rfl⟩
      | append_singleton chunks chunk ih =>
        rw [foldl_append, foldl_cons]
        generalize chunks.foldl pushProcessOutputIfNew t = pushed at ih ⊢
        obtain ⟨stdout, -, hpush⟩ := pushProcessOutput_eq { pushed with lastSeq := chunk.seq } chunk
        rw [pushProcessOutputIfNew, hpush]
        split_ifs <;> exact ih
    obtain ⟨hevents, hclosed⟩ := hfold response.chunks
    refine ⟨hevents, fun hnot => ?_⟩
    rw [recoverLaggedEvents, or_eq_false_iff, hclosed] at hnot
    exact hnot.1

variable {t}

/-- What a transport has still to do before it comes to the last event: two for an event, one for a
    read. -/
def remaining (log : List ExecProcessEvent) (t : ExecutorProcessTransport μ) : ℕ :=
  2 * (log.length - t.events.position) +
    (if t.phase = .recovering then 1 else 0)

/-- A turn of the loop gets nearer to the end. -/
theorem Tracks.receive (parse : List UInt8 → Option μ) (h : t.Tracks log)
    (hover : IsOver log) (hlast : EndsLast log) (entry : Option RunningProcess) :
    (t.receive parse log entry).phase = .ended ∨
      (t.receive parse log entry).Tracks log ∧
        ((t.receive parse log entry).remaining log < t.remaining log ∨
          (t.receive parse log entry).remaining log = t.remaining log ∧
            (t.receive parse log entry).stdout.bytes.length <
              t.stdout.bytes.length) := by
  obtain ⟨hevents, hnotOver⟩ := h
  have hstep := receiveStep_receive parse log entry t
  generalize t.receive parse log entry = next at hstep ⊢
  cases hstep with
  | ended hphase => exact .inl hphase
  | recovered hphase =>
    obtain ⟨hsame, hopen⟩ := t.recoverLaggedEvents_eq
      (entry.map (·.execRead t.lastSeq none))
    refine .inr ⟨⟨by rwa [hsame], fun hnot => ?_⟩, .inl ?_⟩
    · rw [hsame]
      exact hnotOver (hopen hnot)
    · simp [remaining, hsame, hphase]
  | message hphase htake =>
    exact .inr ⟨⟨hevents, hnotOver⟩, .inr ⟨rfl, (taken_of_takeStdoutMessage htake).2.2 rfl⟩⟩
  | finished => exact .inl rfl
  | waiting hphase htake hopen hrecv =>
    refine absurd hover (?_ : ¬ IsOver log)
    have hend := hnotOver hopen
    rwa [hevents.recv_none hrecv, take_length] at hend
  | @handled stdout event events hphase htake hopen hrecv =>
    obtain ⟨hevent, hevents', hposition⟩ := hevents.recv_event hrecv
    obtain ⟨hsame, hphase', hopen'⟩ := handle_eq { t with stdout, events } event
    have hlt := (List.getElem?_eq_some_iff.mp hevent).1
    refine .inr ⟨⟨by rwa [hsame], fun hnot => ?_⟩, .inl ?_⟩
    · rw [hsame, hposition]
      exact not_isOver_take_succ hevent (hnotOver hopen) (hopen' hnot).2
    · have hnext : (handle { t with stdout, events } event).remaining log =
          2 * (log.length - events.position) +
            (if t.phase = .recovering then 1 else 0) := by
        rw [remaining, hsame, hphase']
      rw [hnext, remaining]
      omega
  | lagged hphase htake hopen hrecv =>
    obtain ⟨hevents', hforward, hbefore⟩ := hevents.recv_lagged hrecv
    refine .inr ⟨⟨hevents', fun _ => not_isOver_take hlast (Nat.le_sub_one_of_lt hbefore)⟩, .inl ?_⟩
    rw [remaining, remaining, if_pos rfl]
    dsimp only
    omega

/-- **Once the process is over, `receive_message` comes to the end.** -/
theorem exists_ended (parse : List UInt8 → Option μ) (t : ExecutorProcessTransport μ)
    (h : t.Tracks log) (hover : IsOver log) (hlast : EndsLast log) (entry : Option RunningProcess) :
    ∃ n, ((fun t => t.receive parse log entry)^[n] t).phase = .ended := by
  rcases h.receive parse hover hlast entry with hended | ⟨htracks, hless⟩
  · exact ⟨1, hended⟩
  · obtain ⟨n, hn⟩ := exists_ended parse _ htracks hover hlast entry
    exact ⟨n + 1, hn⟩
termination_by (t.remaining log, t.stdout.bytes.length)
decreasing_by
  exact Prod.lex_def.mpr hless

end ExecutorProcessTransport

namespace TransportSystem

variable {μ : Type} {parse : List UInt8 → Option μ} {system : TransportSystem μ}

/-- What holds of a process and its transport. -/
structure Inv (parse : List UInt8 → Option μ) (system : TransportSystem μ) : Prop where
  server : system.server.Inv
  retains : system.server.record.Retains
  delivered_le : system.delivered ≤ system.log.length
  transport : ∀ t, system.transport = some t → t.Follows parse system.log system.delivered

/-- Nothing is missed in a turn: a transport is made while the stdout is in the history, and it
    recovers while the process is known. -/
def Kept (system : TransportSystem μ) : TransportTurn → Prop
  | .subscribe => system.transport.isSome ∨
    stdoutOf (system.log.take (system.delivered - processEventChannelCapacity)) = []
  | .receive =>
    (system.transport.any fun t => decide (t.phase = .recovering)) →
      system.server.record.entry.isSome
  | _ => True

instance (system : TransportSystem μ) : DecidablePred system.Kept
  | .subscribe => inferInstanceAs (Decidable (_ ∨ _))
  | .receive => inferInstanceAs (Decidable (_ → _))
  | .server _ | .deliver => inferInstanceAs (Decidable True)

/-- Nothing is missed in a run. -/
def KeptRun (parse : List UInt8 → Option μ) : TransportSystem μ → List TransportTurn → Prop
  | _, [] => True
  | system, turn :: turns => system.Kept turn ∧ KeptRun parse (system.step parse turn) turns

instance decidableKeptRun (parse : List UInt8 → Option μ) :
    (system : TransportSystem μ) → (turns : List TransportTurn) →
      Decidable (KeptRun parse system turns)
  | _, [] => inferInstanceAs (Decidable True)
  | system, turn :: turns =>
    have := decidableKeptRun parse (system.step parse turn) turns
    inferInstanceAs (Decidable (_ ∧ _))

theorem inv_start : (start : TransportSystem μ).Inv parse where
  server := ProcessServer.inv_start
  retains := by
    rintro process ⟨⟩ -
    exact ⟨rfl, rfl⟩
  delivered_le := le_rfl
  transport := fun _ => nofun

theorem log_step (h : system.server.Inv) (turn : TransportTurn) :
    system.log <+: (system.step parse turn).log := by
  cases turn with
  | server turn => exact ProcessServer.log_step h false turn
  | deliver | subscribe | receive => exact prefix_refl _

theorem Inv.step (h : system.Inv parse) {turn : TransportTurn} (hkept : system.Kept turn)
    (hfits : retainedTotal system.log ≤ retainedOutputBytesPerProcess) :
    (system.step parse turn).Inv parse := by
  have hsound := h.server.sound
  cases turn with
  | server turn =>
    have hgrown := ProcessServer.log_step h.server false turn
    have hserver := inv_step h.server false turn
    refine ⟨hserver, h.retains.step false turn, h.delivered_le.trans hgrown.length_le, ?_⟩
    intro t htransport
    exact (h.transport t htransport).grow h.delivered_le hgrown le_rfl hserver.sound.last
  | deliver =>
    refine ⟨h.server, h.retains, Nat.min_le_right _ _, fun t htransport => ?_⟩
    exact (h.transport t htransport).grow h.delivered_le (prefix_refl _)
      (Nat.le_min.mpr ⟨Nat.le_succ _, h.delivered_le⟩) hsound.last
  | subscribe =>
    refine ⟨h.server, h.retains, h.delivered_le, ?_⟩
    rintro t ⟨⟩
    cases htransport : system.transport with
    | some t => exact h.transport t htransport
    | none =>
      have hmissed := hkept.resolve_left (by rw [htransport]; exact nofun)
      exact follows_new hfits h.delivered_le hsound.last hmissed
  | receive =>
    refine ⟨h.server, h.retains, h.delivered_le, fun next hnext => ?_⟩
    obtain ⟨t, htransport, rfl⟩ := map_eq_some_iff.mp hnext
    refine (h.transport t htransport).receive rfl hsound h.retains hfits fun hphase => ?_
    exact hkept (by rw [htransport]; exact decide_eq_true hphase)

theorem retainedTotal_mono {log' : List ExecProcessEvent} (h : log <+: log') :
    retainedTotal log ≤ retainedTotal log' := by
  obtain ⟨more, rfl⟩ := h
  rw [retainedTotal_append]
  exact Nat.le_add_right _ _

theorem server_step (h : system.server.Inv) (turn : TransportTurn) :
    (system.step parse turn).server.Inv := by
  cases turn with
  | server turn => exact inv_step h false turn
  | deliver | subscribe | receive => exact h

theorem log_foldl (h : system.server.Inv) (turns : List TransportTurn) :
    system.log <+: (turns.foldl (step parse) system).log := by
  induction turns generalizing system with
  | nil => exact prefix_refl _
  | cons turn turns ih => exact (log_step h turn).trans (ih (server_step h turn))

theorem Inv.foldl (h : system.Inv parse) {turns : List TransportTurn}
    (hkept : KeptRun parse system turns)
    (hfits : retainedTotal (turns.foldl (TransportSystem.step parse) system).log ≤
      retainedOutputBytesPerProcess) :
    (turns.foldl (TransportSystem.step parse) system).Inv parse := by
  induction turns generalizing system with
  | nil => exact h
  | cons turn turns ih =>
    have hnow := (retainedTotal_mono (log_foldl h.server (turn :: turns))).trans hfits
    exact ih (h.step hkept.1 hnow) hkept.2 hfits

theorem foldl_receive (n : ℕ) (system : TransportSystem μ) :
    ((replicate n TransportTurn.receive).foldl (step parse) system).transport =
      system.transport.map (fun t =>
        t.receive parse system.published system.server.record.entry)^[n] := by
  induction n generalizing system with
  | zero => simp
  | succ n ih =>
    rw [replicate_succ, foldl_cons, ih]
    obtain ⟨server, delivered, _ | t⟩ := system <;> rfl

/-- **No message is lost, if nothing is missed.**  As long as the output fits into what the executor
    retains, a transport returns the first messages of the stdout, and all of them when it comes to
    the end; and once the process is over and its events have arrived, the transport comes to the
    end. -/
theorem messages_complete (parse : List UInt8 → Option μ) (turns : List TransportTurn)
    (hfits : retainedTotal (run parse turns).log ≤ retainedOutputBytesPerProcess)
    (hkept : KeptRun parse start turns) (t : ExecutorProcessTransport μ)
    (htransport : (run parse turns).transport = some t) :
    t.returned <+: messagesOf parse (stdoutOf (run parse turns).log) ∧
      (t.phase = .ended → IsOver (run parse turns).log ∧
        t.returned = messagesOf parse (stdoutOf (run parse turns).log)) ∧
      (IsOver (run parse turns).log → (run parse turns).delivered = (run parse turns).log.length →
        ∃ (n : ℕ) (last : ExecutorProcessTransport μ),
          (run parse (turns ++ replicate n .receive)).transport = some last ∧
            last.phase = .ended) := by
  have hinv : (run parse turns).Inv parse := inv_start.foldl hkept hfits
  have hfollows := hinv.transport t htransport
  have hrun : ∀ n, run parse (turns ++ replicate n .receive) =
      (replicate n TransportTurn.receive).foldl (step parse) (run parse turns) :=
    fun n => foldl_append
  generalize run parse turns = system at *
  have hmessages := hfollows.pushed (stdoutOf (system.log.drop t.lastSeq))
    fun hclosed => (hfollows.isOver hclosed).2
  rw [← stdoutOf_append, take_append_drop] at hmessages
  refine ⟨⟨_, hmessages.symm⟩, fun hended => ?_, fun hover hdelivered => ?_⟩
  · obtain ⟨hclosed, hempty⟩ := hfollows.ended hended
    obtain ⟨hover, hrest⟩ := hfollows.isOver hclosed
    rw [hrest, hempty, append_nil, messagesOf_nil, append_nil] at hmessages
    exact ⟨hover, hmessages.symm⟩
  · have hpublished : system.published = system.log := by
      rw [published, hdelivered, take_length]
    have hevents := hfollows.events
    rw [hdelivered, take_length] at hevents
    obtain ⟨n, hn⟩ := exists_ended parse t
      ⟨hevents, hfollows.notOver⟩ hover hinv.server.sound.last system.server.record.entry
    refine ⟨n, _, ?_, hn⟩
    rw [hrun, foldl_receive, htransport, hpublished]
    rfl

/-! ### Two runs -/

/-- One task takes a chunk and notifies of it. -/
def stdoutChunk (chunk : List UInt8) : List TransportTurn :=
  replicate 2 (.server (.stdout ⟨some chunk, none, true⟩))

def stderrChunk (chunk : List UInt8) : List TransportTurn :=
  replicate 2 (.server (.stderr ⟨some chunk, none, true⟩))

/-- Both streams end and the process exits. -/
def endTurns : List TransportTurn :=
  replicate 3 (.server (.stdout ⟨none, none, true⟩)) ++
    replicate 3 (.server (.stderr ⟨none, none, true⟩)) ++
    replicate 4 (.server (.watcher ⟨none, some 0, true⟩))

/-- A message in two chunks and an unterminated one. -/
def sampleTurns : List TransportTurn :=
  [.subscribe] ++ stdoutChunk [123] ++ stdoutChunk [125, newline, 91, 93] ++ endTurns ++
    replicate 4 .deliver ++ replicate 7 .receive

theorem sampleTurns_complete :
    ∃ t, (run some sampleTurns).transport = some t ∧
      t.phase = .ended ∧ IsOver (run some sampleTurns).log ∧
      t.returned = messagesOf some (stdoutOf (run some sampleTurns).log) ∧
      t.returned = [[123, 125], [91, 93]] := by
  have hseen : (run some sampleTurns).transport.map (fun t =>
      (t.phase, t.returned)) = some (.ended, [[123, 125], [91, 93]]) := by
    decide
  obtain ⟨t, htransport, hpair⟩ := map_eq_some_iff.mp hseen
  obtain ⟨hphase, hreturned⟩ := Prod.mk.inj hpair
  obtain ⟨-, hended, -⟩ := messages_complete some sampleTurns (by decide) (by decide) t
    htransport
  exact ⟨t, htransport, hphase, (hended hphase).1, (hended hphase).2, hreturned⟩

/-- A message and then more events than the history has, before there is a transport. -/
def lateTurns : List TransportTurn :=
  stdoutChunk [123, 125, newline] ++
    (replicate processEventChannelCapacity (stderrChunk [46])).flatten ++ endTurns ++
    replicate (processEventChannelCapacity + 3) .deliver ++ [.subscribe] ++
    replicate (processEventChannelCapacity + 1) .receive

/-- **A message that was pushed out of the history is lost**, although the executor has it. -/
theorem late_transport_loses_message :
    ∃ t, (run some lateTurns).transport = some t ∧ t.phase = .ended ∧
      retainedTotal (run some lateTurns).log ≤ retainedOutputBytesPerProcess ∧
      t.returned = [] ∧
      messagesOf some (stdoutOf (run some lateTurns).log) = [[123, 125]] := by
  have hseen : (run some lateTurns).transport.map (fun t =>
      (t.phase, t.returned)) = some (.ended, []) := by
    decide +kernel
  obtain ⟨t, htransport, hpair⟩ := map_eq_some_iff.mp hseen
  obtain ⟨hphase, hreturned⟩ := Prod.mk.inj hpair
  exact ⟨t, htransport, hphase, by decide +kernel, hreturned, by decide +kernel⟩

end TransportSystem

end Codex.Mcp
