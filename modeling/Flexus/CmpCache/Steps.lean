import Flexus.CmpCache.Controller

/-!
# What a step of the controller does

Reservations come and go with every process but touch neither the policy nor what
the processes are there to do. What is left of a step is one of a few changes: a
process starts, a handler runs, a process moves on, or a process is finalized.
-/

namespace nCMPCache

open Runs

namespace MessageQueue

variable {q q' : MessageQueue} {n : Nat} {t : MemoryTransport} {f : Fault}

theorem check_eq_ok (h : q.check f = .ok q') : q' = q := by
  unfold check at h
  split at h
  · cases h
    rfl
  · cases h

theorem reserve_theQueue (h : q.reserve n = .ok q') : q'.theQueue = q.theQueue := by
  rw [check_eq_ok h]

theorem unreserve_theQueue (h : q.unreserve n = .ok q') : q'.theQueue = q.theQueue := by
  unfold unreserve at h
  split at h
  · cases h
    rfl
  · cases h

theorem enqueue_theQueue (h : q.enqueue t = .ok q') : q'.theQueue = q.theQueue ++ [t] := by
  rw [check_eq_ok h]

theorem dequeue_theQueue : q.dequeue.theQueue = q.theQueue.tail := by
  cases q with
  | mk theQueue _ _ _ => cases theQueue <;> rfl

end MessageQueue

/-- The controller without its reservations, replies and requests: the policy, the
    processes whose handler has not run yet, the jobs of those that are not finalized
    yet, and the snoops that wait for the network. -/
structure Core (cfg : CMPCacheInfo) where
  policy : Policy cfg
  waiting : List ProcessEntry
  pending : Multiset ProcessEntry
  snoops : List MemoryTransport

namespace ProcessEntry

variable (p : ProcessEntry)

@[simp]
theorem job_action : p.job.action = p.action := rfl

@[simp]
theorem job_maf : p.job.maf = p.maf := rfl

@[simp]
theorem job_transport : p.job.transport = p.transport := rfl

@[simp]
theorem job_snoopTransports : p.job.snoopTransports = p.snoopTransports := rfl

@[simp]
theorem job_transmitAfterTag : p.job.transmitAfterTag = p.transmitAfterTag := rfl

end ProcessEntry

namespace Controller

variable {cfg : CMPCacheInfo} {c c' : Controller cfg} {h h' h'' : Held cfg} {n : Nat} {k l : Int}
  {p q : ProcessEntry}

/-- The processes that have run and are not finalized yet. One that is finalized when
    it enters the data pipeline goes on through it. -/
def unfinalized (c : Controller cfg) : List ProcessEntry :=
  c.theDirTagPipeline ++ c.theDataPipeline.filter fun q => !q.transmitAfterTag

def core (c : Controller cfg) : Core cfg where
  policy := c.thePolicy
  waiting := c.theMAFPipeline
  pending := c.unfinalized.map ProcessEntry.job
  snoops := c.SnoopOut.theQueue

/-- Two states of the controller that differ in reservations, outgoing replies and
    requests only, each with a process that has the same job. -/
structure Frame (h h' : Held cfg) : Prop where
  core : h'.1.core = h.1.core
  job : h'.2.job = h.2.job

theorem Frame.refl (h : Held cfg) : Frame h h := ⟨rfl, rfl⟩

theorem Frame.trans (hab : Frame h h') (hbc : Frame h' h'') : Frame h h'' :=
  ⟨hbc.core.trans hab.core, hbc.job.trans hab.job⟩

/-! ## Reservations made -/

/-- A frame in which the process has gained so many places in the cache evict
    buffer. -/
structure Gains (k : Int) (h h' : Held cfg) : Prop extends Frame h h' where
  reserved : h'.2.cacheEBReserved = h.2.cacheEBReserved + k

theorem Gains.trans (hab : Gains k h h') (hbc : Gains l h' h'') : Gains (k + l) h h'' :=
  ⟨hab.toFrame.trans hbc.toFrame, by rw [hbc.reserved, hab.reserved, add_assoc]⟩

theorem gains_reserveSnoopOut (hok : reserveSnoopOut n h = .ok h') : Gains 0 h h' := by
  obtain ⟨q, hq, hpure⟩ := bind_eq_ok.mp hok
  obtain rfl := pure_eq_ok.mp hpure
  refine ⟨⟨?_, rfl⟩, (add_zero _).symm⟩
  simp only [core, unfinalized, MessageQueue.reserve_theQueue hq]

theorem gains_reserveReplyOut (hok : reserveReplyOut n h = .ok h') : Gains 0 h h' := by
  obtain ⟨q, hq, hpure⟩ := bind_eq_ok.mp hok
  obtain rfl := pure_eq_ok.mp hpure
  exact ⟨⟨rfl, rfl⟩, (add_zero _).symm⟩

theorem gains_reserveRequestOut (hok : reserveRequestOut n h = .ok h') : Gains 0 h h' := by
  obtain ⟨q, hq, hpure⟩ := bind_eq_ok.mp hok
  obtain rfl := pure_eq_ok.mp hpure
  exact ⟨⟨rfl, rfl⟩, (add_zero _).symm⟩

theorem gains_reserveCacheEB (hok : reserveCacheEB k h = .ok h') : Gains k h h' := by
  unfold reserveCacheEB at hok
  split at hok
  · cases hok
    exact ⟨⟨rfl, rfl⟩, rfl⟩
  · cases hok

theorem gains_reserveEB (hok : reserveEB k h = .ok h') : Gains k h h' := by
  obtain ⟨h₁, hdir, hcache⟩ := bind_eq_ok.mp hok
  unfold reserveDirEB at hdir
  split at hdir
  · cases hdir
    obtain ⟨hframe, hreserved⟩ := gains_reserveCacheEB hcache
    exact ⟨⟨hframe.core, hframe.job⟩, hreserved⟩
  · cases hdir

theorem gains_reserveMAF (hok : reserveMAF h = .ok h') : Gains 0 h h' := by
  unfold reserveMAF at hok
  split at hok
  · cases hok
  · cases hok
    exact ⟨⟨rfl, rfl⟩, (add_zero _).symm⟩

/-! ## Reservations given back -/

theorem frame_unreserveSnoopOut (hok : unreserveSnoopOut n h = .ok h') : Frame h h' := by
  unfold unreserveSnoopOut at hok
  split at hok
  · cases hok
    exact .refl h
  · split at hok
    · cases hok
    · obtain ⟨q, hq, hpure⟩ := bind_eq_ok.mp hok
      obtain rfl := pure_eq_ok.mp hpure
      refine ⟨?_, rfl⟩
      simp only [core, unfinalized, MessageQueue.unreserve_theQueue hq]

theorem frame_unreserveReplyOut (hok : unreserveReplyOut n h = .ok h') : Frame h h' := by
  obtain ⟨q, hq, hpure⟩ := bind_eq_ok.mp hok
  obtain rfl := pure_eq_ok.mp hpure
  exact ⟨rfl, rfl⟩

theorem frame_unreserveRequestOut (hok : unreserveRequestOut n h = .ok h') : Frame h h' := by
  obtain ⟨q, hq, hpure⟩ := bind_eq_ok.mp hok
  obtain rfl := pure_eq_ok.mp hpure
  exact ⟨rfl, rfl⟩

theorem frame_unreserveEB (hok : unreserveEB h = .ok h') : Frame h h' := by
  unfold unreserveEB at hok
  split at hok
  · cases hok
  · cases hok
    exact ⟨rfl, rfl⟩

theorem frame_unreserveMAF (hok : unreserveMAF h = .ok h') : Frame h h' := by
  unfold unreserveMAF at hok
  split at hok
  · cases hok
  · cases hok
    exact ⟨rfl, rfl⟩

theorem frame_onlyIf {b : Bool} {f : Held cfg → Except Fault (Held cfg)}
    (hf : ∀ {h h'}, f h = .ok h' → Frame h h') (hok : onlyIf b f h = .ok h') : Frame h h' := by
  unfold onlyIf at hok
  split at hok
  · exact hf hok
  · obtain rfl := pure_eq_ok.mp hok
    exact .refl h

theorem frame_releaseRequest (hok : releaseRequest h = .ok h') : Frame h h' := by
  unfold releaseRequest at hok
  split at hok
  · cases hok
  · obtain ⟨h₁, hsnoop, hok⟩ := bind_eq_ok.mp hok
    obtain ⟨h₂, hreply, hok⟩ := bind_eq_ok.mp hok
    obtain ⟨h₃, hrequest, hok⟩ := bind_eq_ok.mp hok
    obtain ⟨h₄, heb, hmaf⟩ := bind_eq_ok.mp hok
    exact (frame_unreserveSnoopOut hsnoop).trans <| (frame_onlyIf frame_unreserveReplyOut hreply).trans <|
      (frame_onlyIf frame_unreserveRequestOut hrequest).trans <|
      (frame_unreserveEB heb).trans (frame_unreserveMAF hmaf)

theorem frame_releaseWakeMAF (hok : releaseWakeMAF h = .ok h') : Frame h h' := by
  unfold releaseWakeMAF at hok
  split at hok
  · cases hok
  · obtain ⟨h₁, hsnoop, hok⟩ := bind_eq_ok.mp hok
    obtain ⟨h₂, hreply, hok⟩ := bind_eq_ok.mp hok
    obtain ⟨h₃, hrequest, heb⟩ := bind_eq_ok.mp hok
    exact (frame_unreserveSnoopOut hsnoop).trans <| (frame_onlyIf frame_unreserveReplyOut hreply).trans <|
      (frame_onlyIf frame_unreserveRequestOut hrequest).trans (frame_unreserveEB heb)

theorem frame_releaseReply (hok : releaseReply h = .ok h') : Frame h h' := by
  unfold releaseReply at hok
  split at hok
  · cases hok
  · obtain ⟨h₁, hsnoop, hok⟩ := bind_eq_ok.mp hok
    obtain ⟨h₂, hreply, heb⟩ := bind_eq_ok.mp hok
    exact (frame_onlyIf frame_unreserveSnoopOut hsnoop).trans <|
      (frame_onlyIf frame_unreserveReplyOut hreply).trans (frame_onlyIf frame_unreserveEB heb)

/-! ## Finalizing -/

theorem core_sendSnoops {ts : List MemoryTransport} (hok : sendSnoops ts c = .ok c') :
    c'.core = { c.core with snoops := c.core.snoops ++ ts } := by
  induction ts generalizing c with
  | nil =>
    obtain rfl := pure_eq_ok.mp hok
    simp
  | cons t ts ih =>
    obtain ⟨q, hq, hrest⟩ := bind_eq_ok.mp hok
    rw [ih hrest]
    simp [core, unfinalized, MessageQueue.enqueue_theQueue hq]

/-- The snoops of a process were sent, the rest is a frame. -/
def Sends (h h' : Held cfg) : Prop :=
  ∃ ts, h'.1.core = { h.1.core with snoops := h.1.core.snoops ++ ts } ∧
    h.2.snoopTransports = ts ++ h'.2.snoopTransports ∧
    h'.2.job = { h.2.job with snoopTransports := h'.2.snoopTransports }

theorem Frame.sends (hf : Frame h h') : Sends h h' := by
  have hsnoops : h'.2.snoopTransports = h.2.snoopTransports :=
    by simpa using congrArg ProcessEntry.snoopTransports hf.job
  exact ⟨[], by simpa using hf.core, by simpa using hsnoops.symm, by rw [hf.job, hsnoops]; rfl⟩

theorem Sends.frame (hs : Sends h h') (hf : Frame h' h'') : Sends h h'' := by
  obtain ⟨ts, hcore, hsplit, hjob⟩ := hs
  have hsnoops : h''.2.snoopTransports = h'.2.snoopTransports :=
    by simpa using congrArg ProcessEntry.snoopTransports hf.job
  exact ⟨ts, hf.core.trans hcore, by rw [hsnoops, hsplit], by rw [hf.job, hsnoops, hjob]⟩

theorem sends_emitSnoops (hok : emitSnoops h = .ok h') : Sends h h' := by
  unfold emitSnoops at hok
  split at hok
  · cases hok
  · obtain ⟨h₁, hunreserve, hok⟩ := bind_eq_ok.mp hok
    obtain ⟨c, hsend, hpure⟩ := bind_eq_ok.mp hok
    obtain rfl := pure_eq_ok.mp hpure
    have hframe := frame_unreserveSnoopOut hunreserve
    have hsnoops : h₁.2.snoopTransports = h.2.snoopTransports :=
      by simpa using congrArg ProcessEntry.snoopTransports hframe.job
    refine ⟨h.2.snoopTransports, ?_, (List.append_nil _).symm, ?_⟩
    · rw [core_sendSnoops hsend, hframe.core, hsnoops]
    · exact congrArg (fun j : ProcessEntry => { j with snoopTransports := [] }) hframe.job

theorem frame_emitReply (hok : emitReply h = .ok h') : Frame h h' := by
  obtain ⟨h₁, hunreserve, hok⟩ := bind_eq_ok.mp hok
  refine (frame_unreserveReplyOut hunreserve).trans ?_
  split at hok
  · cases hok
  · obtain ⟨q, _, hpure⟩ := bind_eq_ok.mp hok
    obtain rfl := pure_eq_ok.mp hpure
    exact ⟨rfl, rfl⟩

theorem frame_emitRequest (hok : emitRequest h = .ok h') : Frame h h' := by
  obtain ⟨h₁, hunreserve, hok⟩ := bind_eq_ok.mp hok
  obtain ⟨q, _, hpure⟩ := bind_eq_ok.mp hok
  obtain rfl := pure_eq_ok.mp hpure
  exact (frame_unreserveRequestOut hunreserve).trans ⟨rfl, rfl⟩

theorem sends_emit (hok : emit h = .ok h') : Sends h h' := by
  unfold emit at hok
  split at hok
  case h_1 | h_2 | h_3 => exact sends_emitSnoops hok
  case h_4 | h_5 =>
    obtain ⟨h₁, hsnoops, hreply⟩ := bind_eq_ok.mp hok
    exact (sends_emitSnoops hsnoops).frame (frame_emitReply hreply)
  case h_6 | h_7 => exact (frame_emitReply hok).sends
  case h_8 => exact (frame_emitRequest hok).sends
  all_goals
    obtain rfl := pure_eq_ok.mp hok
    exact (Frame.refl h).sends

/-- The effect of an action on the miss address file does not depend on reservations
    or messages. -/
theorem finalizeMAF_congr {s : Policy cfg} (haction : q.action = p.action) (hmaf : q.maf = p.maf)
    (htransport : q.transport = p.transport) : finalizeMAF s q = finalizeMAF s p := by
  simp only [finalizeMAF, mafOf, haction, hmaf, htransport]

/-- A finalized process has sent all its snoops and its action has had its effect on
    the miss address file. -/
theorem finalizeProcess_spec (hok : finalizeProcess h = .ok h') :
    ∃ s, finalizeMAF h.1.thePolicy h.2 = .ok s ∧
      h'.1.core = { h.1.core with policy := s, snoops := h.1.core.snoops ++ h.2.snoopTransports } ∧
      h'.2.job = { h.2.job with snoopTransports := [] } := by
  obtain ⟨h₁, hemit, hok⟩ := bind_eq_ok.mp hok
  obtain ⟨s, hmaf, hok⟩ := bind_eq_ok.mp hok
  split at hok
  · cases hok
  · next hsent =>
    split at hok
    · cases hok
    · cases hok
      obtain ⟨ts, hcore, hsplit, hjob⟩ := sends_emit hemit
      have hnil : h₁.2.snoopTransports = [] := by simpa using hsent
      rw [hnil, List.append_nil] at hsplit
      have hpolicy : h₁.1.thePolicy = h.1.thePolicy := congrArg Core.policy hcore
      have hcongr : finalizeMAF h.1.thePolicy h₁.2 = finalizeMAF h.1.thePolicy h.2 :=
        finalizeMAF_congr (by simpa using congrArg ProcessEntry.action hjob)
          (by simpa using congrArg ProcessEntry.maf hjob)
          (by simpa using congrArg ProcessEntry.transport hjob)
      rw [hpolicy, hcongr] at hmaf
      refine ⟨s, hmaf, ?_, by rw [hjob, hnil]⟩
      have hmove : (h₁.1.withPolicy s).core = { h₁.1.core with policy := s } := rfl
      rw [hmove, hcore, hsplit]

/-! ## Steps -/

/-- The process that a step finalizes. -/
def finalizing (c : Controller cfg) : Event → Option ProcessEntry
  | .advanceDirTag =>
    (c.theDirTagPipeline.head?.filter fun q => !q.requiresData || q.transmitAfterTag).map .job
  | .advanceData => (c.theDataPipeline.head?.filter fun q => !q.transmitAfterTag).map .job
  | _ => none

/-- What the end of the first pipeline does with a process that goes on to the second
    one. -/
def handle (reserve : Int) (s : Policy cfg) (p : ProcessEntry) : Handled cfg :=
  match p.type with
  | .eProcWakeMAF => do
    let (s, p) ← Policy.handleWakeMAF reserve s (withEntryTransport s p)
    dropRedundant s p
  | .eProcRequest => Policy.handleRequest reserve s p
  | .eProcReply => s.handleReply p
  | .eProcIdleWork => s.handleIdleWork p
  | _ => .error .unexpectedSnoop

/-- How a process starts: the event, the policy after it and the process. Requests and
    woken requests hold a place in the cache evict buffer. -/
inductive Starts (s : Policy cfg) : Event → Policy cfg → ProcessEntry → Prop
  | wakeMAF {m : MissAddressFile} {e : MAFEntry} {p : ProcessEntry} :
      s.theMAF.getWakingMAF = .ok (m, e) →
      p.job = { type := .eProcWakeMAF, maf := some e.stamp, transport := e.transport } →
      p.cacheEBReserved = 1 → Starts s .wakeMAF { s with theMAF := m } p
  | cacheEvict {s' : Policy cfg} {t : MemoryTransport} {p : ProcessEntry} :
      s.getCacheEvictTransport = .ok (s', t) → p.job = { type := .eProcCacheEvict, transport := t } →
      Starts s .cacheEvict s' p
  | dirEvict {p : ProcessEntry} :
      p.job = { type := .eProcDirEvict, transport := s.getIdleWorkTransport.2 } →
      Starts s .dirEvict s.getIdleWorkTransport.1 p
  | reply {t : MemoryTransport} {p : ProcessEntry} :
      p.job = { type := .eProcReply, transport := t } → Starts s (.reply t) s p
  | snoop {t : MemoryTransport} {p : ProcessEntry} :
      p.job = { type := .eProcSnoop, transport := t } → Starts s (.snoop t) s p
  | request {t : MemoryTransport} {p : ProcessEntry} :
      p.job = { type := .eProcRequest, transport := t } → p.cacheEBReserved = 1 →
      Starts s (.request t) s p
  | idleWork {p : ProcessEntry} :
      p.job = { type := .eProcIdleWork, transport := s.getIdleWorkTransport.2 } →
      Starts s .idleWork s.getIdleWorkTransport.1 p

/-- What a step can do to the core, given the reservations of the cache evict buffer
    and the process the step finalizes. -/
inductive Moves (reserve : Int) (final : Option ProcessEntry) (k : Core cfg) : Event → Core cfg → Prop
  | idle {e : Event} : Moves reserve final k e k
  | start {e : Event} {s : Policy cfg} {p : ProcessEntry} : Starts k.policy e s p →
      Moves reserve final k e { k with policy := s, waiting := k.waiting ++ [p] }
  | handled {p q : ProcessEntry} {rest : List ProcessEntry} {s : Policy cfg} :
      k.waiting = p :: rest → handle reserve k.policy p = .ok (s, q) →
      Moves reserve final k .advanceMAF
        { k with policy := s, waiting := rest, pending := q.job ::ₘ k.pending }
  | evicted {p : ProcessEntry} {rest : List ProcessEntry} : k.waiting = p :: rest →
      p.type = .eProcCacheEvict ∨ p.type = .eProcDirEvict →
      Moves reserve final k .advanceMAF
        { k with waiting := rest, snoops := k.snoops ++ (p.snoopTransports ++ [p.transport]) }
  | finalized {e : Event} {q : ProcessEntry} {rest : Multiset ProcessEntry} {s : Policy cfg} :
      final = some q → k.pending = q ::ₘ rest → finalizeMAF k.policy q = .ok s →
      Moves reserve final k e
        { k with policy := s, pending := rest, snoops := k.snoops ++ q.snoopTransports }
  | taken : Moves reserve final k .takeSnoop { k with snoops := k.snoops.tail }

variable {reserve : Int} {final : Option ProcessEntry} {e : Event}

/-- A process that was given its reservations starts. -/
theorem moves_enqueue {s : Policy cfg} (hgains : Gains k (c.withPolicy s, p) h)
    (hstarts : h.2.job = p.job → h.2.cacheEBReserved = p.cacheEBReserved + k →
      Starts c.thePolicy e s h.2) : Moves reserve final c.core e (enqueue h).core := by
  have hcore : (enqueue h).core = { c.core with policy := s, waiting := c.core.waiting ++ [h.2] } := by
    have hheld : (enqueue h).core = { h.1.core with waiting := h.1.core.waiting ++ [h.2] } := rfl
    rw [hheld, hgains.core]
    rfl
  rw [hcore]
  exact .start (hstarts hgains.job hgains.reserved)

theorem moves_scheduleWakeMAF (hok : c.scheduleWakeMAF = .ok c') :
    Moves reserve final c.core .wakeMAF c'.core := by
  unfold scheduleWakeMAF at hok
  split at hok
  · obtain ⟨⟨m, w⟩, hwaking, hok⟩ := bind_eq_ok.mp hok
    obtain ⟨h₁, hsnoop, hok⟩ := bind_eq_ok.mp hok
    obtain ⟨h₂, hreply, hok⟩ := bind_eq_ok.mp hok
    obtain ⟨h₃, hrequest, hok⟩ := bind_eq_ok.mp hok
    obtain ⟨h₄, heb, hpure⟩ := bind_eq_ok.mp hok
    obtain rfl := pure_eq_ok.mp hpure
    have hgains := (gains_reserveSnoopOut hsnoop).trans <| (gains_reserveReplyOut hreply).trans <|
      (gains_reserveRequestOut hrequest).trans (gains_reserveEB heb)
    exact moves_enqueue hgains fun hjob hreserved => .wakeMAF hwaking hjob hreserved
  · obtain rfl := pure_eq_ok.mp hok
    exact .idle

theorem moves_scheduleCacheEvict (hok : c.scheduleCacheEvict = .ok c') :
    Moves reserve final c.core .cacheEvict c'.core := by
  unfold scheduleCacheEvict at hok
  split at hok
  · obtain ⟨⟨s, t⟩, hevict, hok⟩ := bind_eq_ok.mp hok
    obtain ⟨h₁, hsnoop, hpure⟩ := bind_eq_ok.mp hok
    obtain rfl := pure_eq_ok.mp hpure
    exact moves_enqueue (gains_reserveSnoopOut hsnoop) fun hjob _ => .cacheEvict hevict hjob
  · obtain rfl := pure_eq_ok.mp hok
    exact .idle

theorem moves_scheduleDirEvict (hok : c.scheduleDirEvict = .ok c') :
    Moves reserve final c.core .dirEvict c'.core := by
  unfold scheduleDirEvict at hok
  split at hok
  · obtain ⟨h₁, hsnoop, hok⟩ := bind_eq_ok.mp hok
    obtain ⟨h₂, heb, hpure⟩ := bind_eq_ok.mp hok
    obtain rfl := pure_eq_ok.mp hpure
    exact moves_enqueue ((gains_reserveSnoopOut hsnoop).trans (gains_reserveCacheEB heb))
      fun hjob _ => .dirEvict hjob
  · obtain rfl := pure_eq_ok.mp hok
    exact .idle

theorem moves_scheduleReply {t : MemoryTransport} (hok : c.scheduleReply t = .ok c') :
    Moves reserve final c.core (.reply t) c'.core := by
  unfold scheduleReply at hok
  split at hok
  · obtain ⟨h₁, hsnoop, hok⟩ := bind_eq_ok.mp hok
    obtain ⟨h₂, hreply, hpure⟩ := bind_eq_ok.mp hok
    obtain rfl := pure_eq_ok.mp hpure
    exact moves_enqueue ((gains_reserveSnoopOut hsnoop).trans (gains_reserveReplyOut hreply))
      fun hjob _ => .reply hjob
  · obtain rfl := pure_eq_ok.mp hok
    exact .idle

theorem moves_scheduleSnoop {t : MemoryTransport} (hok : c.scheduleSnoop t = .ok c') :
    Moves reserve final c.core (.snoop t) c'.core := by
  unfold scheduleSnoop at hok
  split at hok
  · obtain ⟨h₁, hsnoop, hok⟩ := bind_eq_ok.mp hok
    obtain ⟨h₂, hreply, hok⟩ := bind_eq_ok.mp hok
    obtain ⟨h₃, hmaf, hpure⟩ := bind_eq_ok.mp hok
    obtain rfl := pure_eq_ok.mp hpure
    exact moves_enqueue ((gains_reserveSnoopOut hsnoop).trans <|
      (gains_reserveReplyOut hreply).trans (gains_reserveMAF hmaf)) fun hjob _ => .snoop hjob
  · obtain rfl := pure_eq_ok.mp hok
    exact .idle

theorem moves_scheduleRequest {t : MemoryTransport} (hok : c.scheduleRequest t = .ok c') :
    Moves reserve final c.core (.request t) c'.core := by
  unfold scheduleRequest at hok
  split at hok
  · obtain ⟨h₁, hsnoop, hok⟩ := bind_eq_ok.mp hok
    obtain ⟨h₂, hreply, hok⟩ := bind_eq_ok.mp hok
    obtain ⟨h₃, hrequest, hok⟩ := bind_eq_ok.mp hok
    obtain ⟨h₄, heb, hok⟩ := bind_eq_ok.mp hok
    obtain ⟨h₅, hmaf, hpure⟩ := bind_eq_ok.mp hok
    obtain rfl := pure_eq_ok.mp hpure
    have hgains := (gains_reserveSnoopOut hsnoop).trans <| (gains_reserveReplyOut hreply).trans <|
      (gains_reserveRequestOut hrequest).trans <| (gains_reserveEB heb).trans (gains_reserveMAF hmaf)
    exact moves_enqueue hgains fun hjob hreserved => .request hjob hreserved
  · obtain rfl := pure_eq_ok.mp hok
    exact .idle

theorem moves_scheduleIdleWork (hok : c.scheduleIdleWork = .ok c') :
    Moves reserve final c.core .idleWork c'.core := by
  unfold scheduleIdleWork at hok
  split at hok
  · obtain ⟨h₁, hsnoop, hok⟩ := bind_eq_ok.mp hok
    obtain ⟨h₂, heb, hpure⟩ := bind_eq_ok.mp hok
    obtain rfl := pure_eq_ok.mp hpure
    exact moves_enqueue ((gains_reserveSnoopOut hsnoop).trans (gains_reserveCacheEB heb))
      fun hjob _ => .idleWork hjob
  · obtain rfl := pure_eq_ok.mp hok
    exact .idle

/-- The controller after its first pipeline gave up its head. -/
def dequeued (c : Controller cfg) (rest : List ProcessEntry) : Controller cfg :=
  { c with theMAFPipeline := rest }

/-- A process whose handler ran goes on to the second pipeline. -/
theorem moves_enqueueLookup {rest : List ProcessEntry} {s : Policy cfg}
    (hwaiting : c.theMAFPipeline = p :: rest) (hhandle : handle reserve c.thePolicy p = .ok (s, q))
    (hframe : Frame ((c.dequeued rest).withPolicy s, q) h) :
    Moves reserve final c.core .advanceMAF (enqueueLookup h).core := by
  have hcore : (enqueueLookup h).core =
      { h.1.core with pending := h.2.job ::ₘ h.1.core.pending } := by
    simp [core, unfinalized, enqueueLookup, Multiset.cons_coe]
  rw [hcore, hframe.core, hframe.job]
  exact .handled hwaiting hhandle

theorem moves_advanceMAFPipeline (hok : c.advanceMAFPipeline = .ok c') :
    Moves c.cacheEBReserve final c.core .advanceMAF c'.core := by
  unfold advanceMAFPipeline at hok
  split at hok
  · obtain rfl := pure_eq_ok.mp hok
    exact .idle
  · next p rest hwaiting =>
    split at hok
    · next htype =>
      obtain ⟨⟨s₁, p₁⟩, hwake, hok⟩ := bind_eq_ok.mp hok
      obtain ⟨⟨s, q⟩, hdrop, hok⟩ := bind_eq_ok.mp hok
      obtain ⟨h, hrelease, hpure⟩ := bind_eq_ok.mp hok
      obtain rfl := pure_eq_ok.mp hpure
      refine moves_enqueueLookup hwaiting ?_ (frame_releaseWakeMAF hrelease)
      simp only [handle, htype]
      exact bind_eq_ok.mpr ⟨_, hwake, hdrop⟩
    · next htype =>
      obtain ⟨h, hfinal, rfl⟩ := map_eq_ok.mp hok
      obtain ⟨s, hmaf, hcore, _⟩ := finalizeProcess_spec hfinal
      obtain rfl := pure_eq_ok.mp hmaf
      rw [hcore]
      exact .evicted hwaiting (.inl htype)
    · next htype =>
      obtain ⟨⟨s, q⟩, hevict, hok⟩ := bind_eq_ok.mp hok
      obtain ⟨h, hfinal, rfl⟩ := map_eq_ok.mp hok
      unfold Policy.handleDirEvict at hevict
      split at hevict
      · cases hevict
      · cases hevict
        obtain ⟨s, hmaf, hcore, _⟩ := finalizeProcess_spec hfinal
        obtain rfl := pure_eq_ok.mp hmaf
        rw [hcore]
        exact .evicted hwaiting (.inr htype)
    · next htype =>
      obtain ⟨⟨s, q⟩, hreply, hok⟩ := bind_eq_ok.mp hok
      obtain ⟨h, hrelease, hpure⟩ := bind_eq_ok.mp hok
      obtain rfl := pure_eq_ok.mp hpure
      refine moves_enqueueLookup hwaiting ?_ (frame_releaseReply hrelease)
      simp only [handle, htype]
      exact hreply
    · obtain ⟨_, hsnoop, _⟩ := bind_eq_ok.mp hok
      cases hsnoop
    · next htype =>
      obtain ⟨⟨s, q⟩, hrequest, hok⟩ := bind_eq_ok.mp hok
      obtain ⟨h, hrelease, hpure⟩ := bind_eq_ok.mp hok
      obtain rfl := pure_eq_ok.mp hpure
      refine moves_enqueueLookup hwaiting ?_ (frame_releaseRequest hrelease)
      simp only [handle, htype]
      exact hrequest
    · next htype =>
      obtain ⟨⟨s, q⟩, hidle, hok⟩ := bind_eq_ok.mp hok
      obtain ⟨h₁, heb, hok⟩ := bind_eq_ok.mp hok
      obtain ⟨h₂, hsnoop, hpure⟩ := bind_eq_ok.mp hok
      obtain rfl := pure_eq_ok.mp hpure
      have hframe := (frame_unreserveEB heb).trans (frame_onlyIf frame_unreserveSnoopOut hsnoop)
      refine moves_enqueueLookup (h := ({ h₂.1 with theIdleWorkScheduled := false }, h₂.2)) hwaiting ?_
        ⟨hframe.core, hframe.job⟩
      simp only [handle, htype]
      exact hidle

/-- A process is finalized after it was taken out of its pipeline. -/
theorem moves_finalizeProcess {c₀ : Controller cfg} (hok : finalizeProcess (c₀, q) = .ok h)
    (hcore : c₀.core = { c.core with pending := c₀.core.pending })
    (hpending : c.core.pending = q.job ::ₘ c₀.core.pending) :
    Moves reserve (some q.job) c.core e h.1.core := by
  obtain ⟨s, hmaf, hfinal, _⟩ := finalizeProcess_spec hok
  have hpolicy : c₀.thePolicy = c.thePolicy := congrArg Core.policy hcore
  have hmaf' : finalizeMAF c.core.policy q.job = .ok s := by
    rw [← hmaf, hpolicy]
    rfl
  rw [hfinal, hcore]
  exact Moves.finalized (q := q.job) rfl hpending hmaf'

theorem moves_advanceDirTagPipeline (hok : c.advanceDirTagPipeline = .ok c') :
    Moves reserve (c.finalizing .advanceDirTag) c.core .advanceDirTag c'.core := by
  unfold advanceDirTagPipeline at hok
  split at hok
  · obtain rfl := pure_eq_ok.mp hok
    exact .idle
  · next q rest htag =>
    have hpending : c.core.pending =
        q.job ::ₘ ({ c with theDirTagPipeline := rest } : Controller cfg).core.pending := by
      simp [core, unfinalized, htag, Multiset.cons_coe]
    split at hok
    · next hdata =>
      obtain ⟨h₁, hfinal, hpure⟩ := bind_eq_ok.mp hok
      obtain rfl := pure_eq_ok.mp hpure
      unfold onlyIf at hfinal
      split at hfinal
      · next htransmit =>
        obtain ⟨_, _, _, hjob⟩ := finalizeProcess_spec hfinal
        have hstill : h₁.2.transmitAfterTag = true := by
          have hsame := congrArg ProcessEntry.transmitAfterTag hjob
          simpa [htransmit] using hsame
        have hcore : ({ h₁.1 with theDataPipeline := h₁.1.theDataPipeline ++ [h₁.2] } :
            Controller cfg).core = h₁.1.core := by
          simp [core, unfinalized, hstill]
        have hthis : c.finalizing .advanceDirTag = some q.job := by
          simp [finalizing, htag, htransmit]
        rw [hcore, hthis]
        exact moves_finalizeProcess hfinal rfl hpending
      · next htransmit =>
        obtain rfl := pure_eq_ok.mp hfinal
        have hcore : ({ c with
              theDirTagPipeline := rest
              theDataPipeline := c.theDataPipeline ++ [q] } : Controller cfg).core = c.core := by
          simp only [core, unfinalized, htag, List.filter_append, List.map_append, List.map_cons,
            Core.mk.injEq, true_and, and_true, Multiset.coe_eq_coe]
          simp only [Bool.not_eq_true] at htransmit
          simp only [htransmit, Bool.not_false, List.filter_cons_of_pos, List.filter_nil, List.map_cons,
            List.map_nil, List.cons_append]
          rw [← List.append_assoc]
          exact List.perm_append_singleton _ _
        rw [hcore]
        exact .idle
    · next hdata =>
      obtain ⟨h₁, hfinal, rfl⟩ := map_eq_ok.mp hok
      have hthis : c.finalizing .advanceDirTag = some q.job := by
        simp [finalizing, htag, hdata]
      rw [hthis]
      exact moves_finalizeProcess hfinal rfl hpending

theorem moves_advanceDataPipeline (hok : c.advanceDataPipeline = .ok c') :
    Moves reserve (c.finalizing .advanceData) c.core .advanceData c'.core := by
  unfold advanceDataPipeline at hok
  split at hok
  · obtain rfl := pure_eq_ok.mp hok
    exact .idle
  · next q rest hdata =>
    obtain ⟨h₁, hfinal, rfl⟩ := map_eq_ok.mp hok
    unfold onlyIf at hfinal
    split at hfinal
    · next htransmit =>
      have hstill : q.transmitAfterTag = false := by simpa using htransmit
      have hpending : c.core.pending =
          q.job ::ₘ ({ c with theDataPipeline := rest } : Controller cfg).core.pending := by
        simp [core, unfinalized, hdata, hstill, Multiset.cons_coe]
      have hthis : c.finalizing .advanceData = some q.job := by
        simp [finalizing, hdata, hstill]
      rw [hthis]
      exact moves_finalizeProcess hfinal rfl hpending
    · next htransmit =>
      obtain rfl := pure_eq_ok.mp hfinal
      have hdone : q.transmitAfterTag = true := by simpa using htransmit
      have hcore : ({ c with theDataPipeline := rest } : Controller cfg).core = c.core := by
        simp [core, unfinalized, hdata, hdone]
      rw [hcore]
      exact .idle

/-- A step of the controller is one of the moves of its core. -/
theorem step_moves (hok : step c e = .ok c') :
    Moves c.cacheEBReserve (c.finalizing e) c.core e c'.core := by
  cases e with
  | wakeMAF => exact moves_scheduleWakeMAF hok
  | cacheEvict => exact moves_scheduleCacheEvict hok
  | dirEvict => exact moves_scheduleDirEvict hok
  | reply t => exact moves_scheduleReply hok
  | snoop t => exact moves_scheduleSnoop hok
  | request t => exact moves_scheduleRequest hok
  | idleWork => exact moves_scheduleIdleWork hok
  | advanceMAF => exact moves_advanceMAFPipeline hok
  | advanceDirTag => exact moves_advanceDirTagPipeline hok
  | advanceData => exact moves_advanceDataPipeline hok
  | takeSnoop =>
    obtain rfl := pure_eq_ok.mp hok
    have hcore : ({ c with SnoopOut := c.SnoopOut.dequeue } : Controller cfg).core =
        { c.core with snoops := c.core.snoops.tail } := by
      simp only [core, unfinalized, MessageQueue.dequeue_theQueue]
    rw [hcore]
    exact .taken
  | takeReply =>
    obtain rfl := pure_eq_ok.mp hok
    exact .idle
  | takeRequest =>
    obtain rfl := pure_eq_ok.mp hok
    exact .idle

/-- A process whose handler has not run yet has neither an action nor messages, and one
    for a request holds a place in the cache evict buffer. -/
structure Fresh (p : ProcessEntry) : Prop where
  job : p.job = { type := p.type, maf := p.maf, transport := p.transport }
  reserved : p.type = .eProcWakeMAF ∨ p.type = .eProcRequest → p.cacheEBReserved = 1

theorem Fresh.of_job {type : ProcessType} {i : Option Nat} {t : MemoryTransport}
    (hjob : p.job = { type := type, maf := i, transport := t })
    (hreserved : type = .eProcWakeMAF ∨ type = .eProcRequest → p.cacheEBReserved = 1) : Fresh p := by
  have htype : p.type = type := congrArg ProcessEntry.type hjob
  have hmaf : p.maf = i := by simpa using congrArg ProcessEntry.maf hjob
  have htransport : p.transport = t := by simpa using congrArg ProcessEntry.transport hjob
  refine ⟨?_, htype ▸ hreserved⟩
  rw [hjob, htype, hmaf, htransport]

theorem Starts.fresh {s s' : Policy cfg} (h : Starts s e s' p) : Fresh p := by
  cases h with
  | wakeMAF _ hjob hreserved => exact .of_job hjob fun _ => hreserved
  | cacheEvict _ hjob => exact .of_job hjob (by simp)
  | dirEvict hjob => exact .of_job hjob (by simp)
  | reply hjob => exact .of_job hjob (by simp)
  | snoop hjob => exact .of_job hjob (by simp)
  | request hjob hreserved => exact .of_job hjob fun _ => hreserved
  | idleWork hjob => exact .of_job hjob (by simp)

theorem moves_fresh {k k' : Core cfg} (hfresh : ∀ p ∈ k.waiting, Fresh p)
    (hmoves : Moves reserve final k e k') : ∀ p ∈ k'.waiting, Fresh p := by
  cases hmoves with
  | idle => exact hfresh
  | start hstarts =>
    intro p hp
    rcases List.mem_append.mp hp with hp | hp
    · exact hfresh p hp
    · obtain rfl := List.mem_singleton.mp hp
      exact hstarts.fresh
  | handled hwaiting _ => exact fun p hp => hfresh p (hwaiting ▸ List.mem_cons_of_mem _ hp)
  | evicted hwaiting _ => exact fun p hp => hfresh p (hwaiting ▸ List.mem_cons_of_mem _ hp)
  | finalized _ _ _ => exact hfresh
  | taken => exact hfresh

/-- What every move of the core keeps holds in every state reached from one in which it
    holds and no process has started. -/
theorem invariant_of_reaches {c₀ : Controller cfg} {I : Core cfg → Prop} (hempty : c₀.theMAFPipeline = [])
    (hinit : I c₀.core)
    (hmoves : ∀ {reserve final k e k'}, (∀ p ∈ k.waiting, Fresh p) → I k →
      Moves reserve final k e k' → I k')
    (hreach : Reaches step Anything c₀ c) : I c.core := by
  have hboth : (∀ p ∈ c.core.waiting, Fresh p) ∧ I c.core := by
    refine Reaches.invariant (I := fun c => (∀ p ∈ c.core.waiting, Fresh p) ∧ I c.core)
      ⟨by simp [core, hempty], hinit⟩ ?_ hreach
    rintro c e c' ⟨hfresh, hI⟩ _ hok
    exact ⟨moves_fresh hfresh (step_moves hok), hmoves hfresh hI (step_moves hok)⟩
  exact hboth.2

/-- What every move of the core keeps holds in every reachable state. -/
theorem Reachable.invariant {I : Core cfg → Prop} (hinit : I (create cfg).core)
    (hmoves : ∀ {reserve final k e k'}, (∀ p ∈ k.waiting, Fresh p) → I k →
      Moves reserve final k e k' → I k')
    (hreach : Reachable c) : I c.core :=
  invariant_of_reaches rfl hinit hmoves hreach

end Controller

end nCMPCache
