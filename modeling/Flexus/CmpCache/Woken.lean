import Flexus.CmpCache.Exclusion

/-!
# Entries in the pipeline

An entry that is woken goes into the pipeline with a process of its own and is put back into a
waiting state, made active or removed when the handler of that process runs.
-/

namespace nCMPCache

open Runs

/-- The states in which an entry waits for something other than the pipeline. -/
def MAFState.isWaiting : MAFState → Bool
  | .eWaitSet | .eWaitRequest | .eWaitEvict | .eWaitAck => true
  | _ => false

namespace Policy

variable {cfg : CMPCacheInfo} {s s' : Policy cfg} {p q : ProcessEntry} {hasMaf : Bool}
  {a : MemoryAddress} {st : MAFState} {reserve : Int} {t : MemoryTransport} {i : Nat}

/-- What running the handler of a request leaves in the miss address file: a record in a
    waiting state, or no change. -/
inductive Leaves (s : Policy cfg) (p : ProcessEntry) (hasMaf : Bool) (s' : Policy cfg)
    (q : ProcessEntry) : Prop
  | recorded {i : Nat} {u : Ticket} :
      (hasMaf = true → p.maf = some i) → (hasMaf = false → i = s.theMAF.nextStamp) →
      s'.theMAF.ticket = Function.update s.theMAF.ticket i (some u) → u.state.isWaiting = true →
      q.action = .eStall ∨ q.action = .eFwdAndWaitAck ∨ q.action = .eNotifyAndWaitAck ∨
        q.action = .eReply → Leaves s p hasMaf s' q
  | redundant : s' = s → q = { p with action := if hasMaf then .eRemoveMAF else .eNoAction } →
      Leaves s p hasMaf s' q
  | evicted : p.transport.msg.type.isEvictType = true → s.evictHeldUp p = false →
      s'.theMAF = s.theMAF → Leaves s p hasMaf s' q

theorem Leaves.of_recorded (h : Recorded s.theMAF s'.theMAF p.maf a st t hasMaf i)
    (hst : st.isWaiting = true)
    (haction : q.action = .eStall ∨ q.action = .eFwdAndWaitAck ∨ q.action = .eNotifyAndWaitAck ∨
      q.action = .eReply) : Leaves s p hasMaf s' q := by
  cases h with
  | kept hslot _ _ hupdate => exact .recorded (fun _ => hslot) (by simp) hupdate hst haction
  | fresh _ hupdate => exact .recorded (by simp) (fun _ => rfl) hupdate hst haction

theorem Leaves.of_stall {s₁ : Policy cfg} (hmaf : s₁.theMAF = s.theMAF)
    (hok : s₁.stall p hasMaf a st = .ok (s', q)) (hst : st.isWaiting = true) :
    Leaves s p hasMaf s' q := by
  obtain ⟨_, rfl, i, hrecorded⟩ := stall_spec hok
  rw [hmaf] at hrecorded
  exact .of_recorded hrecorded hst (.inl rfl)

theorem Behind.isWaiting {type : MemoryMessageType} (h : Behind s type a st) : st.isWaiting = true := by
  obtain ⟨e, _, ⟨rfl, _⟩ | ⟨rfl, _⟩⟩ := h <;> rfl

theorem requested_leaves (h : Requested s p hasMaf a s' q) : Leaves s p hasMaf s' q := by
  cases h with
  | redundant _ _ => exact .redundant rfl rfl
  | queued hbehind hstall => exact .of_stall rfl hstall hbehind.isWaiting
  | noEntry _ hclaim hstall =>
    refine .of_stall rfl hstall ?_
    rcases claimDirEntry_error hclaim with ⟨rfl, _⟩ | ⟨rfl, _⟩ <;> rfl
  | writtenBack _ hclaim hcache hstall =>
    refine .of_stall (claimDirEntry_theMAF hclaim) hstall ?_
    obtain ⟨rfl, _⟩ := claimCacheBlock_error hcache
    rfl
  | served _ hclaim hcache hserve =>
    obtain ⟨dir, hserved⟩ := served_serveRequest hserve
    have hrec := hserved.recorded
    rw [protectEntry_theMAF, claimCacheBlock_theMAF hcache, claimDirEntry_theMAF hclaim,
      (convertUpgrade_type p dir).2.2.2] at hrec
    rcases hrec with ⟨_, hstall, i, hrecorded⟩ | ⟨_, haction, i, _, hrecorded⟩
    · exact .of_recorded hrecorded rfl (.inl hstall)
    · exact .of_recorded hrecorded rfl (.inr haction)

theorem doRequest_leaves (hreserved : 0 < p.cacheEBReserved)
    (hok : doRequest reserve s p hasMaf = .ok (s', q)) : Leaves s p hasMaf s' q := by
  cases hevict : p.transport.msg.type.isEvictType with
  | false => exact requested_leaves (doRequest_requested hevict hok)
  | true =>
    rcases doRequest_evict hevict hok with ⟨_, hbehind, hstall⟩ | ⟨hbehind, hdo⟩
    · exact .of_stall rfl hstall hbehind.isWaiting
    · cases hwaits : s.evictWaits p with
      | true => exact .of_stall rfl (doEvict_waits hwaits hdo) rfl
      | false =>
        exact .evicted hevict (by simp [evictHeldUp, hbehind, hwaits])
          (doEvict_evicted hwaits hreserved hdo).maf

end Policy

namespace Controller

variable {cfg : CMPCacheInfo} {c c' : Controller cfg} {s s' : Policy cfg} {p q : ProcessEntry}
  {reserve : Int} {e : Event} {i : Nat} {k k' : Core cfg} {final : Option ProcessEntry}

/-- The step does not run an eviction that was woken and is free to go ahead. -/
def WokenEvictWaits (c : Controller cfg) (e : Event) : Prop :=
  e = .advanceMAF → ∀ p ∈ c.theMAFPipeline.head?, p.type = .eProcWakeMAF →
    (withEntryTransport c.thePolicy p).transport.msg.type.isEvictType = true →
    c.thePolicy.evictHeldUp (withEntryTransport c.thePolicy p) = true

/-- Every entry in the pipeline belongs to a process whose handler has not run yet. -/
def Owned (k : Core cfg) : Prop :=
  ∀ {i u}, k.policy.theMAF.ticket i = some u → u.state = .eInPipeline →
    ∃ p ∈ k.waiting, p.type = .eProcWakeMAF ∧ p.maf = some i

/-- The handler of a woken process leaves its entry in a waiting state or removes it, and
    ends with an action that the controller knows. -/
theorem handle_woken (hfresh : Fresh p) (htype : p.type = .eProcWakeMAF)
    (hwaits : (withEntryTransport s p).transport.msg.type.isEvictType = true →
      s.evictHeldUp (withEntryTransport s p) = true)
    (hok : handle reserve s p = .ok (s', q)) :
    ∃ i, p.maf = some i ∧ (∀ j, j ≠ i → s'.theMAF.ticket j = s.theMAF.ticket j) ∧
      (∀ u, s'.theMAF.ticket i = some u → u.state.isWaiting = true) ∧
      (wakeMAFReleases q.action).isSome = true := by
  have hmaf : (withEntryTransport s p).maf = p.maf := by rw [withEntryTransport_same]
  have hreserved : 0 < (withEntryTransport s p).cacheEBReserved := by
    rw [withEntryTransport_same]
    exact (hfresh.reserved (.inl htype)).symm ▸ Int.one_pos
  simp only [handle, htype] at hok
  obtain ⟨⟨s₁, p₁⟩, hwake, hdrop⟩ := bind_eq_ok.mp hok
  cases Policy.doRequest_leaves hreserved hwake with
  | @recorded i u hslot _ hupdate hstate haction =>
    have hne : p₁.action ≠ .eRemoveMAF := by
      rcases haction with h | h | h | h <;> simp [h]
    rcases dropRedundant_spec hdrop with ⟨_, rfl, rfl⟩ | ⟨hremove, _⟩
    · refine ⟨i, hmaf ▸ hslot rfl, fun j hj => ?_, fun v hv => ?_, ?_⟩
      · rw [hupdate, Function.update_of_ne hj]
      · rw [hupdate, Function.update_self] at hv
        cases hv
        exact hstate
      · rcases haction with h | h | h | h <;> simp [h, wakeMAFReleases]
    · exact absurd hremove hne
  | redundant hs hp =>
    subst hs hp
    rcases dropRedundant_spec hdrop with ⟨hne, _⟩ | ⟨_, i, hi, rfl, rfl⟩
    · exact absurd rfl hne
    · refine ⟨i, hmaf ▸ hi, fun j hj => ?_, fun v hv => ?_, rfl⟩
      · rw [MissAddressFile.ticket_remove, if_neg hj]
      · rw [MissAddressFile.ticket_remove, if_pos rfl] at hv
        cases hv
  | evicted hevict hfree _ =>
    rw [hwaits hevict] at hfree
    cases hfree

/-- A request that was not woken never puts an entry into the pipeline. -/
theorem handle_not_woken (hfresh : Fresh p) (htype : p.type ≠ .eProcWakeMAF)
    (hok : handle reserve s p = .ok (s', q)) {u : Ticket} (hi : s'.theMAF.ticket i = some u)
    (hu : u.state = .eInPipeline) : s.theMAF.ticket i = some u := by
  unfold handle at hok
  split at hok
  · next h => exact absurd h htype
  · next h =>
    have hreserved : 0 < p.cacheEBReserved := (hfresh.reserved (.inr h)).symm ▸ Int.one_pos
    cases Policy.doRequest_leaves hreserved hok with
    | recorded _ _ hupdate hstate _ =>
      rw [hupdate, Function.update_apply] at hi
      split at hi
      · cases hi
        rw [hu] at hstate
        cases hstate
      · exact hi
    | redundant hs _ => exact hs ▸ hi
    | evicted _ _ hmaf => exact hmaf ▸ hi
  · rwa [(Policy.handleReply_replied hok).tickets.ticket] at hi
  · rwa [Policy.handleIdleWork_theMAF hok] at hi
  · cases hok

/-- Finalizing a process puts no entry into the pipeline. -/
theorem finalized_inPipeline (h : Policy.Finalized s q s') {u : Ticket}
    (hi : s'.theMAF.ticket i = some u) (hu : u.state = .eInPipeline) :
    s.theMAF.ticket i = some u := by
  have hwoken : ∀ {o : Option Ticket} {W : Ticket → Prop} [DecidablePred W],
      (o.map fun v => if W v then { v with state := .eWaking } else v) = some u → o = some u := by
    intro o W _ ho
    obtain ⟨v, rfl, hv⟩ := Option.map_eq_some_iff.mp ho
    split at hv
    · rw [← hv] at hu
      cases hu
    · rw [hv]
  have hremove : ∀ {j}, (s.theMAF.remove j).ticket i = some u → s.theMAF.ticket i = some u := by
    intro j hj
    rw [MissAddressFile.ticket_remove] at hj
    split at hj
    · cases hj
    · exact hj
  cases h with
  | woke _ _ _ _ _ hafter => exact hwoken (hafter i ▸ hi)
  | @removed j _ _ _ _ hs' =>
    rw [hs'] at hi
    rcases Policy.wakeMAFs_spec { s with theMAF := s.theMAF.remove j } q.transport.msg.address with
      ⟨_, hsame⟩ | ⟨_, _, _, hafter⟩
    · rw [hsame] at hi
      exact hremove hi
    · exact hremove (hwoken (hafter i ▸ hi))
  | dropped _ _ hs' => exact hremove (hs' ▸ hi)
  | nothing hs' => exact hs' ▸ hi

/-- A process that starts brings the one entry with it that goes into the pipeline. -/
theorem starts_inPipeline (h : Starts s e s' p) {u : Ticket} (hi : s'.theMAF.ticket i = some u) :
    s.theMAF.ticket i = some u ∨ p.type = .eProcWakeMAF ∧ p.maf = some i := by
  cases h with
  | wakeMAF hwaking hjob _ =>
    obtain ⟨_, _, hafter⟩ := MissAddressFile.ticket_getWakingMAF hwaking
    rw [hafter] at hi
    split at hi
    · next hie =>
      have hmaf := congrArg ProcessEntry.maf hjob
      exact .inr ⟨congrArg ProcessEntry.type hjob, hie ▸ hmaf⟩
    · exact .inl hi
  | cacheEvict hevict _ =>
    obtain ⟨b, x, _, rfl, _⟩ := Policy.getCacheEvictTransport_spec hevict
    exact .inl hi
  | dirEvict _ =>
    rw [Policy.getIdleWorkTransport_frame] at hi
    exact .inl hi
  | reply _ => exact .inl hi
  | snoop _ => exact .inl hi
  | request _ _ => exact .inl hi
  | idleWork _ =>
    rw [Policy.getIdleWorkTransport_frame] at hi
    exact .inl hi

/-- A step that does not run a woken eviction which is free to go ahead keeps every
    entry of the pipeline with its process. -/
theorem moves_owned (hfresh : ∀ p ∈ k.waiting, Fresh p) (howned : Owned k)
    (hmeets : e = .advanceMAF → ∀ p ∈ k.waiting.head?, p.type = .eProcWakeMAF →
      (withEntryTransport k.policy p).transport.msg.type.isEvictType = true →
      k.policy.evictHeldUp (withEntryTransport k.policy p) = true)
    (hmoves : Moves reserve final k e k') : Owned k' := by
  cases hmoves with
  | idle => exact howned
  | start hstarts =>
    intro i u hi hu
    rcases starts_inPipeline hstarts hi with hbefore | hthis
    · obtain ⟨p, hp, htype, hmaf⟩ := howned hbefore hu
      exact ⟨p, List.mem_append_left _ hp, htype, hmaf⟩
    · exact ⟨_, List.mem_append_right _ List.mem_cons_self, hthis⟩
  | @handled p q rest s hwaiting hhandle =>
    have hfreshp := hfresh p (hwaiting ▸ List.mem_cons_self)
    intro i u hi hu
    -- the entry was in the pipeline before, with a process other than the one that ran
    by_cases htype : p.type = .eProcWakeMAF
    · have hheld := hmeets rfl p (by rw [hwaiting]; rfl) htype
      obtain ⟨j, hj, hothers, hthis, _⟩ := handle_woken hfreshp htype hheld hhandle
      by_cases hij : i = j
      · have hwaits := hthis u (hij ▸ hi)
        rw [hu] at hwaits
        cases hwaits
      · obtain ⟨p', hp', htype', hmaf'⟩ := howned ((hothers i hij) ▸ hi) hu
        rw [hwaiting] at hp'
        rcases List.mem_cons.mp hp' with rfl | hrest
        · rw [hj] at hmaf'
          exact absurd (Option.some.inj hmaf').symm hij
        · exact ⟨p', hrest, htype', hmaf'⟩
    · obtain ⟨p', hp', htype', hmaf'⟩ := howned (handle_not_woken hfreshp htype hhandle hi hu) hu
      rw [hwaiting] at hp'
      rcases List.mem_cons.mp hp' with rfl | hrest
      · exact absurd htype' htype
      · exact ⟨p', hrest, htype', hmaf'⟩
  | evicted hwaiting htype =>
    intro i u hi hu
    obtain ⟨p', hp', htype', hmaf'⟩ := howned hi hu
    rw [hwaiting] at hp'
    rcases List.mem_cons.mp hp' with rfl | hrest
    · rw [htype'] at htype
      rcases htype with h | h <;> cases h
    · exact ⟨p', hrest, htype', hmaf'⟩
  | finalized _ _ hmaf =>
    intro i u hi hu
    exact howned (finalized_inPipeline (Policy.finalizeMAF_finalized hmaf) hi hu) hu
  | taken => exact howned

theorem owned_of_reachableWhile (hreach : ReachableWhile WokenEvictWaits c) :
    (∀ p ∈ c.core.waiting, Fresh p) ∧ Owned c.core := by
  refine Reaches.invariant (I := fun c => (∀ p ∈ c.core.waiting, Fresh p) ∧ Owned c.core) ?_ ?_ hreach
  · have hempty : ∀ i, (create cfg).core.policy.theMAF.ticket i = none := fun _ => rfl
    exact ⟨by simp [core, create], fun hi => by simp [hempty] at hi⟩
  · rintro c e c' ⟨hfresh, howned⟩ hmeets hok
    exact ⟨moves_fresh hfresh (step_moves hok), moves_owned hfresh howned hmeets (step_moves hok)⟩

/-- In a run in which every woken eviction has to wait again, an entry in the pipeline
    belongs to a woken process whose handler has not run yet; running that handler ends
    with an action the controller knows and leaves the entry in a waiting state or
    removed. -/
theorem wokenEntries_kept (hreach : ReachableWhile WokenEvictWaits c) :
    (∀ x ∈ c.thePolicy.theMAF.entries, x.state = .eInPipeline →
      ∃ p ∈ c.theMAFPipeline, p.type = .eProcWakeMAF ∧ p.maf = some x.stamp) ∧
    (WokenEvictWaits c .advanceMAF → ∀ p ∈ c.theMAFPipeline.head?, p.type = .eProcWakeMAF →
      ∀ s' q, handle c.cacheEBReserve c.thePolicy p = .ok (s', q) →
        (wakeMAFReleases q.action).isSome = true ∧
        ∀ x ∈ s'.theMAF.entries, p.maf = some x.stamp → x.state.isWaiting = true) := by
  obtain ⟨hfresh, howned⟩ := owned_of_reachableWhile hreach
  refine ⟨fun x hx hstate => howned (MissAddressFile.ticket_of_mem hx) hstate, ?_⟩
  intro hmeets p hp htype s' q hhandle
  have hmem : p ∈ c.core.waiting := List.mem_of_mem_head? hp
  obtain ⟨i, hi, _, hthis, hknown⟩ :=
    handle_woken (hfresh p hmem) htype (hmeets rfl p hp htype) hhandle
  refine ⟨hknown, fun x hx hstamp => ?_⟩
  have hix : i = x.stamp := Option.some.inj (hi.symm.trans hstamp)
  exact hthis x.ticket (hix ▸ MissAddressFile.ticket_of_mem hx)

/-- A test for the steps of a run in which no woken eviction goes ahead. -/
def wokenEvictWaits (c : Controller cfg) (e : Event) : Bool :=
  e != .advanceMAF || c.theMAFPipeline.head?.all fun p => p.type != .eProcWakeMAF ||
    !(withEntryTransport c.thePolicy p).transport.msg.type.isEvictType ||
    c.thePolicy.evictHeldUp (withEntryTransport c.thePolicy p)

theorem wokenEvictWaits_of_test (c : Controller cfg) (e : Event) (h : wokenEvictWaits c e = true) :
    WokenEvictWaits c e := by
  rintro rfl p hp htype hevict
  simp only [wokenEvictWaits, bne_self_eq_false, Bool.false_or, Option.mem_def.mp hp, Option.all_some,
    htype, hevict, Bool.not_true] at h
  exact h

/-- A read that waited for a write is woken and goes into the pipeline. -/
theorem wokenEntries_kept_read :
    ∃ c : Controller (smallBank true), ReachableWhile WokenEvictWaits c ∧
      (∃ x ∈ c.thePolicy.theMAF.entries, x.state = .eInPipeline) ∧
      (∀ x ∈ c.thePolicy.theMAF.entries, x.state = .eInPipeline →
        ∃ p ∈ c.theMAFPipeline, p.type = .eProcWakeMAF ∧ p.maf = some x.stamp) := by
  obtain ⟨c, hreach, hwoken⟩ := exists_reachableWhile wokenEvictWaits wokenEvictWaits_of_test
    (through (.request (message .WriteReq 64 0)) ++ through (.request (message .ReadReq 64 1)) ++
      through (.reply (message .MissReplyWritable 64 0)) ++ through (.reply (message .WriteAck 64 0)) ++
      [.wakeMAF])
    (fun c : Controller (smallBank true) =>
      c.thePolicy.theMAF.entries.any fun x => x.state == .eInPipeline) (by decide +kernel)
  refine ⟨c, hreach, ?_, (wokenEntries_kept hreach).1⟩
  obtain ⟨x, hx, hstate⟩ := List.any_eq_true.mp hwoken
  exact ⟨x, hx, by simpa using hstate⟩

/-- A core reads a block and gives it up before it acknowledges the read. The eviction
    waits, is woken, goes ahead, and leaves its entry in the pipeline for good. -/
theorem wokenEviction_leaves_entry :
    ¬ ∀ c : Controller (smallBank true), Reachable c →
      ∀ x ∈ c.thePolicy.theMAF.entries, x.state = .eInPipeline →
        ∃ p ∈ c.theMAFPipeline ++ c.theDirTagPipeline ++ c.theDataPipeline, p.maf = some x.stamp := by
  intro hall
  obtain ⟨c, hreach, hleft⟩ := exists_reachable
    (through (.request (message .ReadReq 64 0)) ++ through (.request (message .EvictClean 64 0)) ++
      through (.reply (message .MissReplyWritable 64 0)) ++ through (.reply (message .ReadAck 64 0)) ++
      [.wakeMAF, .advanceMAF, .advanceDirTag])
    (fun c : Controller (smallBank true) =>
      (c.thePolicy.theMAF.entries.any fun x => x.state == .eInPipeline) &&
        (c.theMAFPipeline ++ c.theDirTagPipeline ++ c.theDataPipeline).isEmpty)
    (by decide +kernel)
  rw [Bool.and_eq_true, List.isEmpty_iff] at hleft
  obtain ⟨x, hx, hstate⟩ := List.any_eq_true.mp hleft.1
  obtain ⟨p, hp, _⟩ := hall c hreach x hx (by simpa using hstate)
  rw [hleft.2] at hp
  cases hp

end Controller

end nCMPCache
