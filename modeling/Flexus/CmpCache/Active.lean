import Flexus.CmpCache.Effects

/-!
# Active requests

A request that becomes active has its block's directory entry, which it protects unless
it is a non-allocating store, and the block is not in the cache evict buffer. Nothing else
makes a request active.
-/

namespace nCMPCache

open Runs

namespace Policy

variable {cfg : CMPCacheInfo} {s s' s₁ s₂ : Policy cfg} {p q : ProcessEntry} {hasMaf mafWaiting : Bool}
  {a : MemoryAddress} {st : MAFState} {i : Nat} {u : Ticket} {reserve : Int}

/-- What holds of the block of a request that has just become active. -/
structure Entered (s' : Policy cfg) (u : Ticket) : Prop where
  absent : s'.theCacheEvictBuffer.find u.address = none
  guarded : u.type ≠ .NonAllocatingStoreReq →
    ∃ block, s'.theDirectory.lookup cfg u.address = some block ∧ block.isProtected = true

/-- A request that is put off makes no ticket active. -/
theorem stall_active (horderly : Orderly cfg s.theMAF.ticket) (howns : Owns s.theMAF p hasMaf)
    (ha : a = cfg.blockAddress p.transport.msg.address) (hst : st ≠ .eWaitAck)
    (hok : s.stall p hasMaf a st = .ok (s', q)) (hu : s'.theMAF.ticket i = some u)
    (hactive : u.state = .eWaitAck) : s.theMAF.ticket i = some u := by
  obtain ⟨_, _, j, hrecorded⟩ := stall_spec hok
  rw [hrecorded.update horderly howns ha, Function.update_apply] at hu
  split at hu
  · cases hu
    exact absurd hactive hst
  · exact hu

/-- A block that the array was asked for is not in the evict buffer. -/
theorem absent_claimCacheBlock (hcopies : Copies s) (haligned : cfg.blockAddress a = a)
    (h : s.claimCacheBlock a = .ok (.ok s')) : s'.theCacheEvictBuffer.find a = none := by
  rcases claimCacheBlock_ok h with ⟨rfl, hvalid | hnone⟩ | ⟨e, hinvalid, he, _, hrecover⟩
  · have habsent := hcopies.apart hvalid
    rwa [haligned] at habsent
  · exact hnone
  · obtain ⟨_, vtag, vstate, _, hfilled⟩ := filled_recoverBlock hcopies hinvalid he hrecover
    rw [hfilled.buffer, haligned, if_neg, if_pos rfl]
    rintro ⟨hkeeps, rfl⟩
    exact (hfilled.victim hkeeps.1).2.2 haligned.symm

/-- Changing the sharers of a block does not change its protection. -/
theorem OneEntry.isProtected {d d' : StdDirectory} {x : MemoryAddress} {block : DirBlock}
    (h : OneEntry cfg a d d') (hblock : d.lookup cfg x = some block) :
    ∃ block', d'.lookup cfg x = some block' ∧ block'.isProtected = block.isProtected := by
  cases h with
  | same => exact ⟨block, hblock, rfl⟩
  | sharers dir =>
    rw [StdDirectory.lookup_setState]
    split
    · next hxa =>
      rw [← StdDirectory.lookup_blockAddress, hxa, StdDirectory.lookup_blockAddress] at hblock
      exact ⟨{ block with state := dir }, by rw [hblock]; rfl, rfl⟩
    · exact ⟨block, hblock, rfl⟩

/-- The entry of a request other than a non-allocating store is found and protected. -/
theorem lookup_protectEntry {type : MemoryMessageType} {block : DirBlock}
    (hblock : s.theDirectory.lookup cfg a = some block) (htype : type ≠ .NonAllocatingStoreReq) :
    (s.protectEntry type a).theDirectory.lookup cfg a = some { block with isProtected := true } := by
  simp only [protectEntry, htype, if_false, StdDirectory.lookup_setProtected, if_true, hblock, Option.map_some]

theorem entered_serveRequest (hsound : Sound s) (ha : cfg.blockAddress a = a)
    (hclaim : s.claimDirEntry p.transport.msg.type a = .ok s₁) (hcache : s₁.claimCacheBlock a = .ok (.ok s₂))
    (hserve : s₂.serveRequest p hasMaf mafWaiting a = .ok (s', q)) (haddress : u.address = a)
    (htype : u.type = q.transport.msg.type) : Entered s' u := by
  obtain ⟨dir, hserved⟩ := served_serveRequest hserve
  have hclaimed : Effects {} s s₁ := effects_claimDirEntry ha hclaim
  constructor
  · rw [haddress, hserved.cacheEB]
    have habsent := absent_claimCacheBlock (hclaimed.sound hsound).copies ha hcache
    unfold protectEntry
    split <;> exact habsent
  · intro hstore
    have hp : p.transport.msg.type ≠ .NonAllocatingStoreReq := by
      intro hnas
      rw [htype, hserved.transport.1] at hstore
      simp [convertUpgrade, hnas] at hstore
    obtain ⟨block, hblock, _⟩ := (claimDirEntry_ok ha hclaim).1.lookup ha hp
    have hfound : s₂.theDirectory.lookup cfg a = some block := by
      rw [claimCacheBlock_frame hcache]
      exact hblock
    obtain ⟨block', hblock', hprotected⟩ := hserved.entry.isProtected (lookup_protectEntry hfound hp)
    exact ⟨block', haddress ▸ hblock', hprotected⟩

/-- A ticket that is active after a request was active before, or its block has been
    entered. -/
theorem requested_active (hsound : Sound s) (horderly : Orderly cfg s.theMAF.ticket)
    (howns : Owns s.theMAF p hasMaf) (ha : a = cfg.blockAddress p.transport.msg.address)
    (h : Requested s p hasMaf a s' q) (hu : s'.theMAF.ticket i = some u) (hactive : u.state = .eWaitAck) :
    s.theMAF.ticket i = some u ∨ (Entered s' u ∧ q.action ≠ .eRemoveMAF) := by
  have haligned : cfg.blockAddress a = a := by rw [ha, CMPCacheInfo.blockAddress_blockAddress]
  cases h with
  | redundant _ _ => exact .inl hu
  | queued hbehind hstall => exact .inl (stall_active horderly howns ha hbehind.ne_waitAck hstall hu hactive)
  | noEntry _ hclaim hstall =>
    exact .inl (stall_active horderly howns ha (claimDirEntry_ne_waitAck hclaim) hstall hu hactive)
  | writtenBack _ hclaim hcache hstall =>
    obtain ⟨rfl, _⟩ := claimCacheBlock_error hcache
    rw [← claimDirEntry_theMAF hclaim] at horderly howns ⊢
    exact .inl (stall_active horderly howns ha (by simp) hstall hu hactive)
  | served _ hclaim hcache hserve =>
    obtain ⟨dir, hserved⟩ := served_serveRequest hserve
    obtain ⟨hread, hwrite, haddress, hslot⟩ := convertUpgrade_type p dir
    have hrec := hserved.recorded
    rw [protectEntry_theMAF, claimCacheBlock_theMAF hcache, claimDirEntry_theMAF hclaim, hslot] at hrec
    rcases hrec with ⟨_, _, j, hrecorded⟩ | ⟨_, haction, j, _, hrecorded⟩
    · rw [hrecorded.update horderly howns ha, Function.update_apply] at hu
      split at hu
      · cases hu
        cases hactive
      · exact .inl hu
    · rw [hrecorded.update horderly howns ha, Function.update_apply] at hu
      split at hu
      · cases hu
        refine .inr ⟨entered_serveRequest hsound haligned hclaim hcache hserve rfl rfl, ?_⟩
        rcases haction with haction | haction | haction <;> rw [haction] <;> simp
      · exact .inl hu

theorem doRequest_active (hsound : Sound s) (horderly : Orderly cfg s.theMAF.ticket)
    (howns : Owns s.theMAF p hasMaf) (hreserved : 0 < p.cacheEBReserved)
    (hok : doRequest reserve s p hasMaf = .ok (s', q)) (hu : s'.theMAF.ticket i = some u)
    (hactive : u.state = .eWaitAck) :
    s.theMAF.ticket i = some u ∨ (Entered s' u ∧ q.action ≠ .eRemoveMAF) := by
  cases hevict : p.transport.msg.type.isEvictType with
  | false => exact requested_active hsound horderly howns rfl (doRequest_requested hevict hok) hu hactive
  | true =>
    rcases doRequest_evict hevict hok with ⟨_, hbehind, hstall⟩ | ⟨_, hdo⟩
    · exact .inl (stall_active horderly howns rfl hbehind.ne_waitAck hstall hu hactive)
    · cases hwaits : s.evictWaits p with
      | true =>
        have ha := blockAddress_of_evictWaits horderly hwaits
        exact .inl (stall_active horderly howns ha (by simp) (doEvict_waits hwaits hdo) hu hactive)
      | false =>
        rw [(doEvict_evicted hwaits hreserved hdo).maf] at hu
        exact .inl hu

end Policy

namespace Controller

variable {cfg : CMPCacheInfo} {s s' : Policy cfg} {p q : ProcessEntry} {reserve : Int} {e : Event} {i : Nat}
  {u : Ticket}

theorem ticket_of_ticket_remove {m : MissAddressFile} {j : Nat} (h : (m.remove j).ticket i = some u) :
    m.ticket i = some u := by
  rw [MissAddressFile.ticket_remove] at h
  split at h
  · cases h
  · exact h

/-- A ticket that is active after a handler was active before, or its block has been
    entered. -/
theorem handle_active (hfresh : Fresh p) (hsound : s.Sound) (horderly : Orderly cfg s.theMAF.ticket)
    (hok : handle reserve s p = .ok (s', q)) (hu : s'.theMAF.ticket i = some u) (hactive : u.state = .eWaitAck) :
    s.theMAF.ticket i = some u ∨ s'.Entered u := by
  unfold handle at hok
  split at hok
  · next htype =>
    obtain ⟨⟨s₁, p₁⟩, hwake, hdrop⟩ := bind_eq_ok.mp hok
    have hreserved : 0 < (withEntryTransport s p).cacheEBReserved := by
      rw [withEntryTransport_same]
      exact (hfresh.reserved (.inl htype)).symm ▸ Int.one_pos
    have howns := owns_withEntryTransport s p
    rcases dropRedundant_spec hdrop with ⟨_, rfl, _⟩ | ⟨hremove, j, _, rfl, _⟩
    · exact (Policy.doRequest_active hsound horderly howns hreserved hwake hu hactive).imp id And.left
    · have hu₁ := ticket_of_ticket_remove hu
      rcases Policy.doRequest_active hsound horderly howns hreserved hwake hu₁ hactive with hbefore | hentered
      · exact .inl hbefore
      · exact absurd hremove hentered.2
  · next htype =>
    have hreserved : 0 < p.cacheEBReserved := (hfresh.reserved (.inr htype)).symm ▸ Int.one_pos
    exact (Policy.doRequest_active hsound horderly (fun h => absurd h (by simp)) hreserved hok hu hactive).imp
      id And.left
  · rw [(Policy.handleReply_replied hok).tickets.ticket] at hu
    exact .inl hu
  · rw [Policy.handleIdleWork_theMAF hok] at hu
    exact .inl hu
  · cases hok

theorem starts_active (hstarts : Starts s e s' p) (hu : s'.theMAF.ticket i = some u)
    (hactive : u.state = .eWaitAck) : s.theMAF.ticket i = some u := by
  cases hstarts with
  | wakeMAF hwaking _ _ =>
    obtain ⟨_, _, hafter⟩ := MissAddressFile.ticket_getWakingMAF hwaking
    rw [hafter] at hu
    split at hu
    · cases hu
      cases hactive
    · exact hu
  | cacheEvict hevict _ =>
    obtain ⟨b, x, _, rfl, _⟩ := Policy.getCacheEvictTransport_spec hevict
    exact hu
  | dirEvict _ =>
    rw [Policy.getIdleWorkTransport_frame] at hu
    exact hu
  | reply _ => exact hu
  | snoop _ => exact hu
  | request _ _ => exact hu
  | idleWork _ =>
    rw [Policy.getIdleWorkTransport_frame] at hu
    exact hu

/-- Tickets that wake up are not active. -/
theorem active_of_woken {T T' : Nat → Option Ticket} {W : Nat → Ticket → Prop} [∀ j u, Decidable (W j u)]
    (hwoken : ∀ j, T' j = (T j).map fun u => if W j u then { u with state := .eWaking } else u)
    (hu : T' i = some u) (hactive : u.state = .eWaitAck) : T i = some u := by
  rw [hwoken] at hu
  obtain ⟨v, hv, hvu⟩ := Option.map_eq_some_iff.mp hu
  split at hvu
  · cases hvu
    cases hactive
  · rw [← hvu]
    exact hv

theorem finalized_active (h : Policy.Finalized s q s') (hu : s'.theMAF.ticket i = some u)
    (hactive : u.state = .eWaitAck) : s.theMAF.ticket i = some u := by
  cases h with
  | woke _ _ _ _ _ hwoken => exact active_of_woken hwoken hu hactive
  | @removed j _ _ _ _ hs' =>
    rw [hs'] at hu
    rcases Policy.wakeMAFs_spec { s with theMAF := s.theMAF.remove j } q.transport.msg.address with
      ⟨_, hsame⟩ | ⟨_, _, _, hwoken⟩
    · rw [hsame] at hu
      exact ticket_of_ticket_remove hu
    · exact ticket_of_ticket_remove (active_of_woken hwoken hu hactive)
  | dropped _ _ hs' =>
    rw [hs'] at hu
    exact ticket_of_ticket_remove hu
  | nothing hs' =>
    rw [hs'] at hu
    exact hu

end Controller

end nCMPCache
