import Flexus.CmpCache.Replies

/-!
# Conflicting requests exclude each other

The active requests for a block are reads, or there is one of them.
-/

namespace nCMPCache

open Runs

/-- Tickets belong to the block of their message, active ones are requests to read or to
    write, and two active ones of a block are both reads. -/
structure Orderly (cfg : CMPCacheInfo) (T : Nat → Option Ticket) : Prop where
  placed : ∀ {i u}, T i = some u → u.address = cfg.blockAddress u.msg.address
  typed : ∀ {i u}, T i = some u → u.state = .eWaitAck →
    u.type.isReadType = true ∨ u.type.isWriteType = true
  exclusive : ∀ {i j u v}, T i = some u → T j = some v → u.state = .eWaitAck →
    v.At u.address .eWaitAck → i ≠ j → u.type.isReadType = true ∧ v.type.isReadType = true

namespace Orderly

variable {cfg : CMPCacheInfo} {T T' : Nat → Option Ticket} {i : Nat} {u : Ticket}

/-- Tickets may disappear and stop being active. -/
theorem of_fewer (h : Orderly cfg T)
    (hfewer : ∀ j v', T' j = some v' → ∃ v, T j = some v ∧ v'.address = v.address ∧ v'.msg = v.msg ∧
      (v'.state = .eWaitAck → v.state = .eWaitAck)) : Orderly cfg T' := by
  refine ⟨fun {j v'} hj => ?_, fun {j v'} hj hst => ?_, fun {j k v' w'} hj hk hst hat hne => ?_⟩
  · obtain ⟨v, hv, haddr, hmsg, _⟩ := hfewer j v' hj
    rw [haddr, hmsg]
    exact h.placed hv
  · obtain ⟨v, hv, _, hmsg, hstate⟩ := hfewer j v' hj
    have htyped := h.typed hv (hstate hst)
    rwa [Ticket.type, ← hmsg] at htyped
  · obtain ⟨v, hv, haddr, hmsg, hstate⟩ := hfewer j v' hj
    obtain ⟨w, hw, haddr', hmsg', hstate'⟩ := hfewer k w' hk
    have hreads := h.exclusive hv hw (hstate hst) ⟨by rw [← haddr', hat.1, haddr], hstate' hat.2⟩ hne
    rwa [Ticket.type, Ticket.type, ← hmsg, ← hmsg'] at hreads

/-- A ticket may be recorded in a state that is not active. -/
theorem update_waiting (h : Orderly cfg T) (hplaced : u.address = cfg.blockAddress u.msg.address)
    (hstate : u.state ≠ .eWaitAck) : Orderly cfg (Function.update T i (some u)) := by
  have hcase : ∀ {j v}, Function.update T i (some u) j = some v → v = u ∨ T j = some v := by
    intro j v hj
    by_cases hji : j = i
    · rw [hji, Function.update_self] at hj
      exact .inl (Option.some.inj hj).symm
    · rw [Function.update_of_ne hji] at hj
      exact .inr hj
  refine ⟨fun hj => ?_, fun hj hst => ?_, fun hj hk hst hat hne => ?_⟩
  · rcases hcase hj with rfl | hj
    · exact hplaced
    · exact h.placed hj
  · rcases hcase hj with rfl | hj
    · exact absurd hst hstate
    · exact h.typed hj hst
  · rcases hcase hj with rfl | hj
    · exact absurd hst hstate
    · rcases hcase hk with rfl | hk
      · exact absurd hat.2 hstate
      · exact h.exclusive hj hk hst hat hne

/-- A ticket may become active when every other active one of the block is a read, and
    this one too when there are others. -/
theorem update_active (h : Orderly cfg T) (hplaced : u.address = cfg.blockAddress u.msg.address)
    (htyped : u.type.isReadType = true ∨ u.type.isWriteType = true)
    (hothers : ∀ {j v}, j ≠ i → T j = some v → v.At u.address .eWaitAck →
      u.type.isReadType = true ∧ v.type.isReadType = true) :
    Orderly cfg (Function.update T i (some u)) := by
  refine ⟨fun {j v} hj => ?_, fun {j v} hj hst => ?_, fun {j k v w} hj hk hst hat hne => ?_⟩
  · rw [Function.update_apply] at hj
    split at hj
    · cases hj
      exact hplaced
    · exact h.placed hj
  · rw [Function.update_apply] at hj
    split at hj
    · cases hj
      exact htyped
    · exact h.typed hj hst
  · rw [Function.update_apply] at hj hk
    split at hj
    · next hji =>
      cases hj
      split at hk
      · next hki => exact absurd (hji.trans hki.symm) hne
      · next hki => exact hothers hki hk hat
    · next hji =>
      split at hk
      · cases hk
        have hreads := hothers hji hj ⟨hat.1.symm, hst⟩
        exact hreads.symm
      · exact h.exclusive hj hk hst hat hne

end Orderly

namespace Policy

variable {cfg : CMPCacheInfo} {s s' : Policy cfg} {p q : ProcessEntry} {hasMaf : Bool}
  {a : MemoryAddress} {st : MAFState} {i : Nat} {reserve : Int} {t : MemoryTransport}

/-- A process that was woken has the message and the requester of its ticket. -/
def Owns (m : MissAddressFile) (p : ProcessEntry) (hasMaf : Bool) : Prop :=
  hasMaf = true → ∀ {i u}, p.maf = some i → m.ticket i = some u →
    u.msg = p.transport.msg ∧ u.requester = p.transport.dest.requester

/-- A request is recorded with its block, whether it is woken or new. -/
theorem Recorded.update (h : Recorded s.theMAF s'.theMAF p.maf a st t hasMaf i)
    (horderly : Orderly cfg s.theMAF.ticket) (howns : Owns s.theMAF p hasMaf)
    (ha : a = cfg.blockAddress p.transport.msg.address) :
    s'.theMAF.ticket = Function.update s.theMAF.ticket i (some (.of a st t)) := by
  cases h with
  | kept hslot hticket _ hupdate =>
    rw [hupdate, horderly.placed hticket, (howns rfl hslot hticket).1, ← ha]
  | fresh _ hupdate => exact hupdate

theorem stall_orderly (horderly : Orderly cfg s.theMAF.ticket) (howns : Owns s.theMAF p hasMaf)
    (ha : a = cfg.blockAddress p.transport.msg.address) (hst : st ≠ .eWaitAck)
    (hok : s.stall p hasMaf a st = .ok (s', q)) : Orderly cfg s'.theMAF.ticket := by
  obtain ⟨_, _, i, hrecorded⟩ := stall_spec hok
  rw [hrecorded.update horderly howns ha]
  exact horderly.update_waiting ha hst

theorem claimDirEntry_ne_waitAck {type : MemoryMessageType} (h : s.claimDirEntry type a = .error st) :
    st ≠ .eWaitAck := by
  rcases claimDirEntry_error h with ⟨rfl, _⟩ | ⟨rfl, _⟩ <;> simp

theorem Behind.ne_waitAck {type : MemoryMessageType} (h : Behind s type a st) : st ≠ .eWaitAck := by
  obtain ⟨e, _, ⟨rfl, _⟩ | ⟨rfl, _⟩⟩ := h <;> simp

/-- While no other request holds it up, a request is compatible with every active one of
    its block. -/
theorem Clear.compatible {type : MemoryMessageType} {w : Bool} (h : Clear s type a w)
    (horderly : Orderly cfg s.theMAF.ticket)
    (htype : type.isReadType = true ∨ type.isWriteType = true) {j : Nat} {v : Ticket}
    (hj : s.theMAF.ticket j = some v) (hat : v.At a .eWaitAck) :
    type.isReadType = true ∧ v.type.isReadType = true := by
  cases w with
  | true =>
    obtain ⟨hnot, e, hfind, hstate, hread⟩ := h
    obtain ⟨hticket, haddr, _⟩ := MissAddressFile.ticket_of_find hfind
    have hetype : e.ticket.type.isReadType = true :=
      (horderly.typed hticket hstate).resolve_right (Bool.eq_false_iff.mp hread)
    refine ⟨htype.resolve_right (by simp [hnot]), ?_⟩
    by_cases hje : j = e.stamp
    · rw [hje, hticket] at hj
      cases hj
      exact hetype
    · exact (horderly.exclusive hticket hj hstate ⟨hat.1.trans haddr.symm, hat.2⟩ (Ne.symm hje)).2
  | false =>
    cases hfind : s.theMAF.find a with
    | none => exact absurd hat.1 (MissAddressFile.address_ne_of_find hfind hj)
    | some e =>
      have hlow := (MissAddressFile.ticket_of_find hfind).2.2 hj hat.1
      rw [hat.2] at hlow
      exact absurd (h e hfind) (Nat.not_lt.mpr hlow)

theorem convertUpgrade_type (p : ProcessEntry) (dir : SimpleDirectoryState) :
    (convertUpgrade p dir).transport.msg.type.isReadType = p.transport.msg.type.isReadType ∧
      (convertUpgrade p dir).transport.msg.type.isWriteType = p.transport.msg.type.isWriteType ∧
      (convertUpgrade p dir).transport.msg.address = p.transport.msg.address ∧
      (convertUpgrade p dir).maf = p.maf := by
  rcases convertUpgrade_spec p dir with hsame | ⟨htype, hsame⟩
  · rw [hsame]
    exact ⟨rfl, rfl, rfl, rfl⟩
  · rw [hsame, htype]
    exact ⟨rfl, rfl, rfl, rfl⟩

theorem requested_orderly (horderly : Orderly cfg s.theMAF.ticket) (howns : Owns s.theMAF p hasMaf)
    (ha : a = cfg.blockAddress p.transport.msg.address) (h : Requested s p hasMaf a s' q) :
    Orderly cfg s'.theMAF.ticket := by
  cases h with
  | redundant => exact horderly
  | queued hbehind hstall => exact stall_orderly horderly howns ha hbehind.ne_waitAck hstall
  | noEntry _ hclaim hstall =>
    exact stall_orderly horderly howns ha (claimDirEntry_ne_waitAck hclaim) hstall
  | writtenBack _ hclaim hcache hstall =>
    obtain ⟨rfl, _⟩ := claimCacheBlock_error hcache
    rw [← claimDirEntry_theMAF hclaim] at horderly howns
    exact stall_orderly horderly howns ha (by simp) hstall
  | served hclear hclaim hcache hserve =>
    obtain ⟨dir, hserved⟩ := served_serveRequest hserve
    obtain ⟨hread, hwrite, haddress, hslot⟩ := convertUpgrade_type p dir
    have hrec := hserved.recorded
    rw [protectEntry_theMAF, claimCacheBlock_theMAF hcache, claimDirEntry_theMAF hclaim, hslot, hread,
      hwrite] at hrec
    have hq : q.transport.msg.address = p.transport.msg.address := by
      rw [hserved.transport.1, haddress]
    rcases hrec with ⟨_, _, i, hrecorded⟩ | ⟨htype, _, i, _, hrecorded⟩
    · rw [hrecorded.update horderly howns ha]
      exact horderly.update_waiting (by rw [Ticket.of, hq, ha]) (by simp [Ticket.of])
    · rw [hrecorded.update horderly howns ha]
      have hqread : q.transport.msg.type.isReadType = p.transport.msg.type.isReadType := by
        rw [hserved.transport.1, hread]
      have hqwrite : q.transport.msg.type.isWriteType = p.transport.msg.type.isWriteType := by
        rw [hserved.transport.1, hwrite]
      refine horderly.update_active (by rw [Ticket.of, hq, ha]) ?_ fun _ hj hat => ?_
      · simp only [Ticket.of, Ticket.type, hqread, hqwrite]
        exact htype
      · simp only [Ticket.of, Ticket.type, hqread]
        exact hclear.compatible horderly htype hj hat

/-- An eviction waits only for a request whose address, like its own, is that of a
    block. -/
theorem blockAddress_of_evictWaits (horderly : Orderly cfg s.theMAF.ticket)
    (h : s.evictWaits p = true) :
    p.transport.msg.address = cfg.blockAddress p.transport.msg.address := by
  obtain ⟨e, he, _⟩ := List.any_eq_true.mp h
  obtain ⟨hticket, hat⟩ := MissAddressFile.ticket_of_mem_findAll he
  rw [← hat.1, horderly.placed hticket, CMPCacheInfo.blockAddress_blockAddress]

theorem doRequest_orderly (horderly : Orderly cfg s.theMAF.ticket) (howns : Owns s.theMAF p hasMaf)
    (hreserved : 0 < p.cacheEBReserved) (hok : doRequest reserve s p hasMaf = .ok (s', q)) :
    Orderly cfg s'.theMAF.ticket := by
  cases hevict : p.transport.msg.type.isEvictType with
  | false => exact requested_orderly horderly howns rfl (doRequest_requested hevict hok)
  | true =>
    rcases doRequest_evict hevict hok with ⟨_, hbehind, hstall⟩ | ⟨_, hdo⟩
    · exact stall_orderly horderly howns rfl hbehind.ne_waitAck hstall
    · cases hwaits : s.evictWaits p with
      | true =>
        exact stall_orderly horderly howns (blockAddress_of_evictWaits horderly hwaits) (by simp)
          (doEvict_waits hwaits hdo)
      | false =>
        rw [(doEvict_evicted hwaits hreserved hdo).maf]
        exact horderly

end Policy

namespace Controller

variable {cfg : CMPCacheInfo} {c : Controller cfg} {s s' : Policy cfg} {p q : ProcessEntry}
  {reserve : Int} {e : Event} {i : Nat}

theorem withEntryTransport_same (s : Policy cfg) (p : ProcessEntry) :
    withEntryTransport s p = { p with transport := (withEntryTransport s p).transport } := by
  unfold withEntryTransport
  split <;> rfl

/-- A woken process sees the message and the requester of its ticket. -/
theorem owns_withEntryTransport (s : Policy cfg) (p : ProcessEntry) :
    Policy.Owns s.theMAF (withEntryTransport s p) true := by
  intro _ i u hmaf hticket
  rw [withEntryTransport_same] at hmaf
  obtain ⟨e, he, rfl, rfl⟩ := MissAddressFile.ticket_eq_some.mp hticket
  have hget : p.maf.bind s.theMAF.get? = some e := by
    rw [show p.maf = some e.stamp from hmaf]
    exact MissAddressFile.get?_eq_some.mpr ⟨he, rfl⟩
  rw [withEntryTransport, hget]
  exact ⟨rfl, rfl⟩

/-- Dropping a redundant request takes its ticket out. -/
theorem dropRedundant_spec (hok : dropRedundant s p = .ok (s', q)) :
    (p.action ≠ .eRemoveMAF ∧ s' = s ∧ q = p) ∨
    (p.action = .eRemoveMAF ∧ ∃ i, p.maf = some i ∧ s' = { s with theMAF := s.theMAF.remove i } ∧
      q = { p with action := .eNoAction }) := by
  unfold dropRedundant at hok
  split at hok
  · next haction =>
    obtain ⟨e, hof, hpure⟩ := bind_eq_ok.mp hok
    cases pure_eq_ok.mp hpure
    exact .inr ⟨haction, e.stamp, (Policy.mafOf_spec hof).1, rfl, rfl⟩
  · next haction =>
    cases pure_eq_ok.mp hok
    exact .inl ⟨haction, rfl, rfl⟩

theorem orderly_remove (horderly : Orderly cfg s.theMAF.ticket) :
    Orderly cfg (s.theMAF.remove i).ticket := by
  refine horderly.of_fewer fun j v hj => ?_
  rw [MissAddressFile.ticket_remove] at hj
  split at hj
  · cases hj
  · exact ⟨v, hj, rfl, rfl, id⟩

theorem handle_orderly (horderly : Orderly cfg s.theMAF.ticket) (hfresh : Fresh p)
    (hok : handle reserve s p = .ok (s', q)) : Orderly cfg s'.theMAF.ticket := by
  unfold handle at hok
  split at hok
  · next htype =>
    obtain ⟨⟨s₁, p₁⟩, hwake, hdrop⟩ := bind_eq_ok.mp hok
    have hreserved : 0 < (withEntryTransport s p).cacheEBReserved := by
      rw [withEntryTransport_same]
      exact (hfresh.reserved (.inl htype)).symm ▸ Int.one_pos
    have hafter := Policy.doRequest_orderly horderly (owns_withEntryTransport s p) hreserved hwake
    rcases dropRedundant_spec hdrop with ⟨_, rfl, _⟩ | ⟨_, i, _, rfl, _⟩
    · exact hafter
    · exact orderly_remove hafter
  · next htype =>
    have hreserved : 0 < p.cacheEBReserved := (hfresh.reserved (.inr htype)).symm ▸ Int.one_pos
    exact Policy.doRequest_orderly horderly (fun h => absurd h (by simp)) hreserved hok
  · rw [(Policy.handleReply_replied hok).tickets.ticket]
    exact horderly
  · rw [Policy.handleIdleWork_theMAF hok]
    exact horderly
  · cases hok

theorem starts_orderly (horderly : Orderly cfg s.theMAF.ticket) (hstarts : Starts s e s' p) :
    Orderly cfg s'.theMAF.ticket := by
  cases hstarts with
  | wakeMAF hwaking _ _ =>
    obtain ⟨_, hbefore, hafter⟩ := MissAddressFile.ticket_getWakingMAF hwaking
    refine horderly.of_fewer fun j v hj => ?_
    rw [hafter] at hj
    split at hj
    · next hje =>
      cases hj
      rw [hje]
      exact ⟨_, hbefore, rfl, rfl, fun hst => absurd hst (by simp [Ticket.of])⟩
    · exact ⟨v, hj, rfl, rfl, id⟩
  | cacheEvict hevict _ =>
    obtain ⟨b, x, _, rfl, _⟩ := Policy.getCacheEvictTransport_spec hevict
    exact horderly
  | dirEvict _ =>
    rw [Policy.getIdleWorkTransport_frame]
    exact horderly
  | reply _ => exact horderly
  | snoop _ => exact horderly
  | request _ _ => exact horderly
  | idleWork _ =>
    rw [Policy.getIdleWorkTransport_frame]
    exact horderly

/-- Waking some of the tickets makes none of them active. -/
theorem orderly_woken {T : Nat → Option Ticket} {W : Nat → Ticket → Prop}
    [∀ j u, Decidable (W j u)] {T' : Nat → Option Ticket} (horderly : Orderly cfg T)
    (hwoken : ∀ j, T' j = (T j).map fun u => if W j u then { u with state := .eWaking } else u) :
    Orderly cfg T' := by
  refine horderly.of_fewer fun j v hj => ?_
  rw [hwoken] at hj
  obtain ⟨u, hu, rfl⟩ := Option.map_eq_some_iff.mp hj
  refine ⟨u, hu, ?_⟩
  split
  · exact ⟨rfl, rfl, fun hst => absurd hst (by simp)⟩
  · exact ⟨rfl, rfl, id⟩

theorem finalized_orderly (horderly : Orderly cfg s.theMAF.ticket) (h : Policy.Finalized s q s') :
    Orderly cfg s'.theMAF.ticket := by
  cases h with
  | woke _ _ _ _ _ hwoken => exact orderly_woken horderly hwoken
  | @removed i _ _ _ _ hs' =>
    rw [hs']
    rcases Policy.wakeMAFs_spec { s with theMAF := s.theMAF.remove i } q.transport.msg.address with
      ⟨_, hsame⟩ | ⟨_, _, _, hwoken⟩
    · rw [hsame]
      exact orderly_remove horderly
    · exact orderly_woken (orderly_remove horderly) hwoken
  | dropped _ _ hs' =>
    rw [hs']
    exact orderly_remove horderly
  | nothing hs' =>
    rw [hs']
    exact horderly

theorem moves_orderly {final : Option ProcessEntry} {k k' : Core cfg}
    (hfresh : ∀ p ∈ k.waiting, Fresh p) (horderly : Orderly cfg k.policy.theMAF.ticket)
    (hmoves : Moves reserve final k e k') : Orderly cfg k'.policy.theMAF.ticket := by
  cases hmoves with
  | idle => exact horderly
  | start hstarts => exact starts_orderly horderly hstarts
  | handled hwaiting hhandle =>
    exact handle_orderly horderly (hfresh _ (hwaiting ▸ List.mem_cons_self)) hhandle
  | evicted _ _ => exact horderly
  | finalized _ _ hmaf => exact finalized_orderly horderly (Policy.finalizeMAF_finalized hmaf)
  | taken => exact horderly

theorem orderly_of_reachable (hreach : Reachable c) : Orderly cfg c.thePolicy.theMAF.ticket := by
  refine hreach.invariant (I := fun k => Orderly cfg k.policy.theMAF.ticket) ?_ moves_orderly
  have hempty : ∀ i, (create cfg).core.policy.theMAF.ticket i = none := fun _ => rfl
  exact ⟨fun h => by simp [hempty] at h, fun h => by simp [hempty] at h,
    fun h => by simp [hempty] at h⟩

/-- In every reachable state the active requests for a block are all reads and fetches,
    or there is exactly one and it is a write, an upgrade or a non-allocating store. -/
theorem activeRequests_exclusive (hreach : Reachable c) (a : MemoryAddress) :
    (∀ e ∈ c.thePolicy.theMAF.findAll a .eWaitAck, e.type.isReadType = true) ∨
      ∃ e, c.thePolicy.theMAF.findAll a .eWaitAck = [e] ∧ e.type.isWriteType = true := by
  have horderly := orderly_of_reachable hreach
  by_cases hreads : ∀ e ∈ c.thePolicy.theMAF.findAll a .eWaitAck, e.type.isReadType = true
  · exact .inl hreads
  · push Not at hreads
    obtain ⟨e, he, hnot⟩ := hreads
    obtain ⟨hticket, hat⟩ := MissAddressFile.ticket_of_mem_findAll he
    have hwrite : e.type.isWriteType = true := (horderly.typed hticket hat.2).resolve_left hnot
    refine .inr ⟨e, ?_, hwrite⟩
    have honly : ∀ x ∈ c.thePolicy.theMAF.findAll a .eWaitAck, x = e := by
      intro x hx
      obtain ⟨hxticket, hxat⟩ := MissAddressFile.ticket_of_mem_findAll hx
      by_contra hne
      have hstamp : e.stamp ≠ x.stamp := fun h => hne (MissAddressFile.eq_of_stamp_eq
        (MissAddressFile.mem_findAll.mp hx).1 (MissAddressFile.mem_findAll.mp he).1 h.symm)
      have hboth := horderly.exclusive hticket hxticket hat.2 ⟨hxat.1.trans hat.1.symm, hxat.2⟩ hstamp
      exact hnot hboth.1
    have hnodup : (c.thePolicy.theMAF.findAll a .eWaitAck).Nodup :=
      (List.Nodup.of_map _ c.thePolicy.theMAF.stamps).filter _
    cases hall : c.thePolicy.theMAF.findAll a .eWaitAck with
    | nil => simp [hall] at he
    | cons x rest =>
      rw [hall] at honly hnodup
      have hrest : rest = [] := by
        refine List.eq_nil_iff_forall_not_mem.mpr fun y hy => ?_
        have hyx : y = x := (honly y (List.mem_cons_of_mem _ hy)).trans (honly x List.mem_cons_self).symm
        exact (List.nodup_cons.mp hnodup).1 (hyx ▸ hy)
      rw [hrest, honly x List.mem_cons_self]

/-- A small bank with four cores, two directory ways in one set and one array way. -/
def smallBank (theEvictClean : Bool) : CMPCacheInfo where
  theCores := 4
  theBlockSize := 64
  theMAFSize := 8
  theDirEBSize := 4
  theCacheEBSize := 4
  theQueueSize := 16
  theEvictClean := theEvictClean
  theDirAssociativity := 2
  theCacheAssociativity := 1
  makeDirSet := fun _ => 0
  makeCacheSet := fun _ => 0
  blockSize_pos := by decide
  dirAssociativity_pos := Nat.two_pos
  cacheAssociativity_pos := Nat.one_pos

/-- A message that a core, or memory on its behalf, sends to the bank. -/
def message (type : MemoryMessageType) (a : MemoryAddress) (core : Int) : MemoryTransport :=
  { msg := { type := type, address := a }, dest := { type := .Directory, requester := core } }

/-- The message is scheduled and goes through the pipelines. -/
def through (e : Event) : List Event := [e, .advanceMAF, .advanceDirTag, .advanceData]

/-- A core reads the block through to its acknowledgement, after memory answered. -/
def readThrough (a : MemoryAddress) (core : Int) : List Event :=
  through (.request (message .ReadReq a core)) ++ through (.reply (message .MissReplyWritable a core)) ++
    through (.reply (message .ReadAck a core))

/-- Two reads of a block are active at once when two cores share it already. -/
theorem activeRequests_exclusive_twoReads :
    ∃ c : Controller (smallBank true), Reachable c ∧
      (c.thePolicy.theMAF.findAll 64 .eWaitAck).length = 2 ∧
      ((∀ e ∈ c.thePolicy.theMAF.findAll 64 .eWaitAck, e.type.isReadType = true) ∨
        ∃ e, c.thePolicy.theMAF.findAll 64 .eWaitAck = [e] ∧ e.type.isWriteType = true) := by
  obtain ⟨c, hreach, htwo⟩ := exists_reachable
    (readThrough 64 0 ++ through (.request (message .ReadReq 64 1)) ++
      through (.reply (message .ReadAck 64 1)) ++ through (.request (message .ReadReq 64 2)) ++
      through (.request (message .ReadReq 64 3)))
    (fun c : Controller (smallBank true) => (c.thePolicy.theMAF.findAll 64 .eWaitAck).length == 2)
    (by decide +kernel)
  exact ⟨c, hreach, by simpa using htwo, activeRequests_exclusive hreach 64⟩

end Controller

end nCMPCache
