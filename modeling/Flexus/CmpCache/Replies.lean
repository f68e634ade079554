import Flexus.CmpCache.Outcome

/-!
# What becomes of a reply

Replies leave every ticket as it is. They decide what happens when the process is
finalized: the request they complete is removed and others wake up, or a request
wakes up that waited for its block to be gone.
-/

namespace nCMPCache

open Runs

namespace Policy

variable {cfg : CMPCacheInfo} {s s' : Policy cfg} {p q : ProcessEntry} {a : MemoryAddress}
  {maf : MAFEntry} {dir : SimpleDirectoryState}

/-- The tickets and the next stamp are as before. -/
structure SameTickets (s s' : Policy cfg) : Prop where
  ticket : s'.theMAF.ticket = s.theMAF.ticket
  nextStamp : s'.theMAF.nextStamp = s.theMAF.nextStamp

theorem SameTickets.refl (s : Policy cfg) : SameTickets s s := ⟨rfl, rfl⟩

theorem SameTickets.trans {s₁ s₂ s₃ : Policy cfg} (h₁₂ : SameTickets s₁ s₂)
    (h₂₃ : SameTickets s₂ s₃) : SameTickets s₁ s₃ :=
  ⟨h₂₃.ticket.trans h₁₂.ticket, h₂₃.nextStamp.trans h₁₂.nextStamp⟩

theorem sameTickets_of_maf (h : s'.theMAF = s.theMAF) : SameTickets s s' := ⟨by rw [h], by rw [h]⟩

/-- What a process that answers for a reply will do when it is finalized. -/
inductive Answers (s : Policy cfg) (a : MemoryAddress) (q : ProcessEntry) : Prop
  | removes {i : Nat} {u : Ticket} :
      q.action = .eRemoveAndWakeMAF ∨ q.action = .eReplyAndRemoveMAF → q.maf = some i →
      s.theMAF.ticket i = some u → u.At a .eWaitAck → Answers s a q
  | wakes {i : Nat} {u : Ticket} : q.action = .eWakeEvictMAF → q.maf = some i →
      s.theMAF.ticket i = some u → u.At a .eWaitEvict → Answers s a q
  | nothing : q.action = .eNoAction ∨ q.action = .eReply ∨ q.action = .eForward → Answers s a q

/-! ## Lookups -/

theorem matchingMAF_spec {t : MemoryTransport} (h : s.matchingMAF t = .ok maf) :
    s.theMAF.ticket maf.stamp = some maf.ticket ∧ maf.ticket.At t.msg.address .eWaitAck ∧
      maf.requester = t.dest.requester ∧ maf ∈ s.theMAF.entries := by
  unfold matchingMAF at h
  split at h
  · next e he =>
    cases h
    have hmem := List.mem_of_find?_eq_some he
    obtain ⟨hticket, hat⟩ := MissAddressFile.ticket_of_mem_findAll hmem
    exact ⟨hticket, hat, by simpa using List.find?_some he, (MissAddressFile.mem_findAll.mp hmem).1⟩
  · cases h

theorem firstMAF_spec {type : MemoryMessageType} (h : s.firstMAF a type = .ok maf) :
    s.theMAF.ticket maf.stamp = some maf.ticket ∧ maf.ticket.At a .eWaitAck ∧ maf.type = type := by
  unfold firstMAF at h
  split at h
  · next e he =>
    obtain ⟨hticket, hat⟩ := MissAddressFile.ticket_of_findFirst he
    split at h
    · next htype =>
      cases h
      exact ⟨hticket, hat, htype⟩
    · cases h
  · cases h

/-! ## Helpers of the handlers -/

theorem returnReservation_spec (s : Policy cfg) (p : ProcessEntry) (maf : MAFEntry) :
    SameTickets s (s.returnReservation p maf).1 ∧
      (s.returnReservation p maf).1 = { s with theMAF := (s.returnReservation p maf).1.theMAF } ∧
      (s.returnReservation p maf).2 = { p with
        maf := some maf.stamp
        cacheEBReserved := (s.returnReservation p maf).2.cacheEBReserved } := by
  unfold returnReservation
  split
  · refine ⟨⟨?_, rfl⟩, rfl, rfl⟩
    funext j
    exact MissAddressFile.ticket_setCacheEBReserved
  · exact ⟨.refl s, rfl, rfl⟩

theorem wakeWaitEvict_spec (s : Policy cfg) (p : ProcessEntry) (a : MemoryAddress) :
    (s.wakeWaitEvict p a).1 = s ∧ (s.wakeWaitEvict p a).2.transport = p.transport ∧
      (s.wakeWaitEvict p a).2.snoopTransports = p.snoopTransports ∧
      (s.wakeWaitEvict p a).2.replyTransport = p.replyTransport ∧
      Answers s a (s.wakeWaitEvict p a).2 := by
  unfold wakeWaitEvict
  split
  · next w hw =>
    obtain ⟨hticket, hat⟩ := MissAddressFile.ticket_of_findFirst hw
    exact ⟨rfl, rfl, rfl, rfl, .wakes rfl rfl hticket hat⟩
  · exact ⟨rfl, rfl, rfl, rfl, .nothing (.inl rfl)⟩

theorem evictCacheBlock_frame (s : Policy cfg) (vtag : MemoryAddress) (vstate : CacheState) :
    s.evictCacheBlock vtag vstate =
      { s with theCacheEvictBuffer := (s.evictCacheBlock vtag vstate).theCacheEvictBuffer } := by
  unfold evictCacheBlock
  split
  · rfl
  · split <;> rfl

theorem allocateBlock_frame (h : s.allocateBlock a = .ok s') :
    s' = { s with theCache := s'.theCache, theCacheEvictBuffer := s'.theCacheEvictBuffer } := by
  obtain ⟨⟨cache, vtag, vstate⟩, _, hpure⟩ := bind_eq_ok.mp h
  obtain rfl := pure_eq_ok.mp hpure
  rw [evictCacheBlock_frame]

theorem makeRoom_frame (h : s.makeRoom a = .ok s') :
    s' = { s with theCache := s'.theCache, theCacheEvictBuffer := s'.theCacheEvictBuffer } := by
  unfold makeRoom at h
  split at h
  · split at h
    · cases h
    · exact allocateBlock_frame h
  · cases h
    rfl

theorem keepDirtyData_frame (h : s.keepDirtyData a = .ok s') :
    s' = { s with theCache := s'.theCache, theCacheEvictBuffer := s'.theCacheEvictBuffer } := by
  obtain ⟨s₁, hroom, hpure⟩ := bind_eq_ok.mp h
  obtain rfl := pure_eq_ok.mp hpure
  rw [makeRoom_frame hroom]

theorem keepAckData_frame {req : MemoryMessage} (h : s.keepAckData req = .ok s') :
    s' = { s with theCache := s'.theCache, theCacheEvictBuffer := s'.theCacheEvictBuffer } := by
  obtain ⟨s₁, hroom, hpure⟩ := bind_eq_ok.mp h
  obtain rfl := pure_eq_ok.mp hpure
  rw [makeRoom_frame hroom]

theorem keepMemoryData_frame {req : MemoryMessage} (h : s.keepMemoryData req maf = .ok s') :
    s' = { s with theCache := s'.theCache, theCacheEvictBuffer := s'.theCacheEvictBuffer } := by
  obtain ⟨s₁, hroom, hpure⟩ := bind_eq_ok.mp h
  obtain rfl := pure_eq_ok.mp hpure
  rw [makeRoom_frame hroom]

theorem recoverCopy_frame (h : s.recoverCopy a = .ok s') :
    s' = { s with theCache := s'.theCache, theCacheEvictBuffer := s'.theCacheEvictBuffer } := by
  unfold recoverCopy at h
  split at h
  · split at h
    · split at h
      · cases h
        rfl
      · exact recoverBlock_frame h
    · cases h
      rfl
  · cases h
    rfl

theorem yieldCopy_frame (s : Policy cfg) (a : MemoryAddress) :
    s.yieldCopy a = { s with
      theCache := (s.yieldCopy a).theCache
      theCacheEvictBuffer := (s.yieldCopy a).theCacheEvictBuffer } := by
  unfold yieldCopy
  split
  · split
    · split <;> rfl
    · rfl
  · rfl

/-! ## The handlers -/

/-- What a reply leaves behind. Snoops are sent for a read that is forwarded anew. -/
structure Replied (s : Policy cfg) (p : ProcessEntry) (s' : Policy cfg) (q : ProcessEntry) : Prop where
  tickets : SameTickets s s'
  address : q.transport.msg.address = p.transport.msg.address
  answers : Answers s p.transport.msg.address q
  snoops : (∀ {i u}, s.theMAF.ticket i = some u → u.state = .eWaitAck → u.type.isEvictType = false) →
    ∃ l, q.snoopTransports = p.snoopTransports ++ l ∧ ∀ t ∈ l, t.msg.type.isEvictType = false

theorem noSnoops {l : List MemoryTransport} (h : l = p.snoopTransports) :
    ∃ l', l = p.snoopTransports ++ l' ∧ ∀ t ∈ l', t.msg.type.isEvictType = false :=
  ⟨[], by rw [h, List.append_nil], by simp⟩

theorem Answers.of_tickets {s₁ : Policy cfg} (h : Answers s₁ a q) (hsame : SameTickets s s₁) :
    Answers s a q := by
  cases h with
  | removes haction hmaf hticket hat => exact .removes haction hmaf (hsame.ticket ▸ hticket) hat
  | wakes haction hmaf hticket hat => exact .wakes haction hmaf (hsame.ticket ▸ hticket) hat
  | nothing haction => exact .nothing haction

/-- What happened before a helper ran does not matter when it kept the tickets, the
    address and the snoops. -/
theorem Replied.of_same {s₁ : Policy cfg} {p₁ : ProcessEntry} (h : Replied s₁ p₁ s' q)
    (hsame : SameTickets s s₁) (haddress : p₁.transport.msg.address = p.transport.msg.address)
    (hsnoops : p₁.snoopTransports = p.snoopTransports) : Replied s p s' q := by
  obtain ⟨htickets, haddress', hanswers, hsnoops'⟩ := h
  rw [haddress] at haddress' hanswers
  refine ⟨hsame.trans htickets, haddress', hanswers.of_tickets hsame, fun htyped => ?_⟩
  rw [← hsnoops]
  refine hsnoops' fun hu hst => ?_
  rw [hsame.ticket] at hu
  exact htyped hu hst

theorem replied_wakeWaitEvict {r : Policy cfg × ProcessEntry} (hr : r = s.wakeWaitEvict p p.transport.msg.address) :
    Replied s p r.1 r.2 := by
  obtain ⟨hs, htransport, hsnoops, _, hanswers⟩ := wakeWaitEvict_spec s p p.transport.msg.address
  rw [← hr] at hs htransport hsnoops hanswers
  exact ⟨hs ▸ .refl _, by rw [htransport], hanswers, fun _ => noSnoops hsnoops⟩

theorem replied_completeInvalidate {d : DirEBEntry} {sharers : SimpleDirectoryState} {n : Int}
    (hok : s.completeInvalidate p d sharers n = .ok (s', q)) : Replied s p s' q := by
  unfold completeInvalidate at hok
  dsimp only at hok
  split at hok
  · split at hok
    · cases hok
    · simp only [Except.ok.injEq] at hok
      generalize hp' : (if 0 < n then { p with cacheEBReserved := n } else p) = p' at hok
      have hsame : p'.transport = p.transport ∧ p'.snoopTransports = p.snoopTransports := by
        rw [← hp']
        split <;> exact ⟨rfl, rfl⟩
      rw [← hsame.1] at hok
      exact (replied_wakeWaitEvict hok.symm).of_same ⟨rfl, rfl⟩ (by rw [hsame.1]) hsame.2
  · cases hok
    exact ⟨⟨rfl, rfl⟩, rfl, .nothing (.inl rfl), fun _ => noSnoops rfl⟩

theorem replied_handleInvalidateAck (hok : s.handleInvalidateAck p = .ok (s', q)) :
    Replied s p s' q := by
  unfold handleInvalidateAck at hok
  dsimp only at hok
  split at hok
  · cases hok
  · obtain ⟨sharers, _, hok⟩ := bind_eq_ok.mp hok
    split at hok
    · obtain ⟨s₁, hkeep, hok⟩ := bind_eq_ok.mp hok
      have hmaf : s₁.theMAF = s.theMAF := by rw [keepDirtyData_frame hkeep]
      exact (replied_completeInvalidate hok).of_same (sameTickets_of_maf hmaf) rfl rfl
    · exact replied_completeInvalidate hok

theorem replied_handleReadAck (hok : s.handleReadAck p = .ok (s', q)) : Replied s p s' q := by
  obtain ⟨maf, hmatch, hok⟩ := bind_eq_ok.mp hok
  obtain ⟨hticket, hat, _⟩ := matchingMAF_spec hmatch
  obtain ⟨htickets, hs, hp⟩ := returnReservation_spec s p maf
  dsimp only at hok
  split at hok
  · cases hok
  · obtain ⟨sharers, _, hok⟩ := bind_eq_ok.mp hok
    split at hok
    · obtain ⟨s₁, hkeep, hpure⟩ := bind_eq_ok.mp hok
      obtain ⟨rfl, rfl⟩ := Prod.mk.inj (pure_eq_ok.mp hpure)
      have hmaf : s₁.theMAF = (s.returnReservation p maf).1.theMAF := by rw [keepAckData_frame hkeep]
      refine ⟨htickets.trans (sameTickets_of_maf hmaf), by rw [hp], ?_, fun _ => noSnoops (by rw [hp])⟩
      exact .removes (.inl rfl) (by rw [hp]) hticket hat
    · obtain ⟨rfl, rfl⟩ := Prod.mk.inj (pure_eq_ok.mp hok)
      refine ⟨⟨htickets.ticket, htickets.nextStamp⟩, by rw [hp], ?_, fun _ => noSnoops (by rw [hp])⟩
      exact .removes (.inl rfl) (by rw [hp]) hticket hat

theorem replied_handleNASAck (hok : s.handleNASAck p = .ok (s', q)) : Replied s p s' q := by
  obtain ⟨maf, hfirst, hok⟩ := bind_eq_ok.mp hok
  obtain ⟨hticket, hat, _⟩ := firstMAF_spec hfirst
  obtain ⟨htickets, hs, hp⟩ := returnReservation_spec s p maf
  dsimp only at hok
  obtain ⟨rfl, rfl⟩ := Prod.mk.inj (pure_eq_ok.mp hok)
  exact ⟨htickets, by rw [hp], .removes (.inl rfl) (by rw [hp]) hticket hat,
    fun _ => noSnoops (by rw [hp])⟩

theorem replied_handleOwnershipAck {type : MemoryMessageType}
    (hok : handleOwnershipAck type s p = .ok (s', q)) : Replied s p s' q := by
  obtain ⟨maf, hfirst, hok⟩ := bind_eq_ok.mp hok
  obtain ⟨hticket, hat, _⟩ := firstMAF_spec hfirst
  dsimp only at hok
  split at hok
  · cases hok
  · obtain ⟨sharers, _, hok⟩ := bind_eq_ok.mp hok
    obtain ⟨rfl, rfl⟩ := Prod.mk.inj (pure_eq_ok.mp hok)
    generalize hs₁ : yieldCopy { s with
      theDirectory := (s.theDirectory.setState cfg p.transport.msg.address sharers).setProtected cfg
        p.transport.msg.address false } p.transport.msg.address = s₁
    have hmaf : s₁.theMAF = s.theMAF := by rw [← hs₁, yieldCopy_frame]
    obtain ⟨htickets, hs, hp⟩ := returnReservation_spec s₁ p maf
    exact ⟨(sameTickets_of_maf hmaf).trans htickets, by rw [hp], .removes (.inl rfl) (by rw [hp]) hticket hat,
      fun _ => noSnoops (by rw [hp])⟩

theorem replied_handleNASReply (hok : s.handleNASReply p = .ok (s', q)) : Replied s p s' q := by
  obtain ⟨maf, hmatch, hok⟩ := bind_eq_ok.mp hok
  obtain ⟨hticket, hat, _⟩ := matchingMAF_spec hmatch
  dsimp only at hok
  obtain ⟨rfl, rfl⟩ := Prod.mk.inj (pure_eq_ok.mp hok)
  exact ⟨.refl _, rfl, .removes (.inr rfl) rfl hticket hat, fun _ => noSnoops rfl⟩

theorem replied_handleMemoryReply (hok : s.handleMemoryReply p = .ok (s', q)) : Replied s p s' q := by
  obtain ⟨maf, hmatch, hok⟩ := bind_eq_ok.mp hok
  obtain ⟨htickets, hs, hp⟩ := returnReservation_spec s p maf
  dsimp only at hok
  split at hok
  · obtain ⟨s₁, hkeep, hpure⟩ := bind_eq_ok.mp hok
    obtain ⟨rfl, rfl⟩ := Prod.mk.inj (pure_eq_ok.mp hpure)
    have hmaf : s₁.theMAF = (s.returnReservation p maf).1.theMAF := by rw [keepMemoryData_frame hkeep]
    exact ⟨htickets.trans (sameTickets_of_maf hmaf), by rw [hp], .nothing (.inr (.inl rfl)),
      fun _ => noSnoops (by rw [hp])⟩
  · obtain ⟨rfl, rfl⟩ := Prod.mk.inj (pure_eq_ok.mp hok)
    exact ⟨htickets, by rw [hp], .nothing (.inr (.inl rfl)), fun _ => noSnoops (by rw [hp])⟩

theorem replied_retryForward (hmem : maf ∈ s.theMAF.entries) (hstate : maf.state = .eWaitAck)
    (hok : s.retryForward p maf dir = .ok (s', q)) : Replied s p s' q := by
  have hticket := MissAddressFile.ticket_of_mem hmem
  unfold retryForward at hok
  dsimp only at hok
  split at hok
  · split at hok
    · cases hok
    · cases hok
      refine ⟨⟨?_, rfl⟩, rfl, .nothing (.inr (.inl rfl)), fun _ => noSnoops rfl⟩
      funext j
      rw [MissAddressFile.ticket_setState]
      split
      · next hj => rw [hj, hticket, Option.map_some, MAFEntry.ticket, hstate]; rfl
      · rfl
  · split at hok
    · cases hok
      refine ⟨⟨?_, rfl⟩, rfl, .nothing (.inr (.inr rfl)), fun htyped => ⟨_, rfl, ?_⟩⟩
      · funext j
        rw [MissAddressFile.ticket_setTransport]
        split
        · next hj => rw [hj, hticket]; rfl
        · rfl
      · simp only [List.mem_singleton, forall_eq]
        exact htyped hticket hstate
    · cases hok
      refine ⟨.refl _, rfl, .nothing (.inr (.inr rfl)), fun _ => ⟨_, rfl, ?_⟩⟩
      simp only [List.mem_singleton, forall_eq]
      split <;> rfl

theorem replied_handleFwdNAck (hok : s.handleFwdNAck p = .ok (s', q)) : Replied s p s' q := by
  unfold handleFwdNAck at hok
  split at hok
  · cases hok
  · obtain ⟨maf, hmatch, hok⟩ := bind_eq_ok.mp hok
    obtain ⟨s₁, hrecover, hok⟩ := bind_eq_ok.mp hok
    obtain ⟨hticket, hat, _, hmem⟩ := matchingMAF_spec hmatch
    have hmaf : s₁.theMAF = s.theMAF := by rw [recoverCopy_frame hrecover]
    exact (replied_retryForward (hmaf.symm ▸ hmem) hat.2 hok).of_same (sameTickets_of_maf hmaf) rfl rfl

theorem replied_handleEvictAck (hok : s.handleEvictAck p = .ok (s', q)) : Replied s p s' q := by
  unfold handleEvictAck at hok
  dsimp only at hok
  split at hok
  · cases hok
  · split at hok
    · cases hok
    · simp only [Except.ok.injEq] at hok
      exact (replied_wakeWaitEvict hok.symm).of_same ⟨rfl, rfl⟩ rfl rfl

/-- Every reply keeps the tickets. -/
theorem handleReply_replied (hok : s.handleReply p = .ok (s', q)) : Replied s p s' q := by
  unfold handleReply at hok
  split at hok
  case h_1 | h_2 => exact replied_handleInvalidateAck hok
  case h_3 | h_4 | h_5 | h_6 => exact replied_handleReadAck hok
  case h_7 => exact replied_handleNASAck hok
  case h_8 => exact replied_handleOwnershipAck hok
  case h_9 => exact replied_handleOwnershipAck hok
  case h_10 => exact replied_handleNASReply hok
  case h_11 | h_12 | h_13 => exact replied_handleMemoryReply hok
  case h_14 => exact replied_handleFwdNAck hok
  case h_15 => exact replied_handleEvictAck hok
  case h_16 => cases hok

/-! ## The bank's own evictions -/

/-- A write-back marks one entry of the cache evict buffer, and is the message of that
    entry. -/
theorem getCacheEvictTransport_spec {t : MemoryTransport}
    (h : s.getCacheEvictTransport = .ok (s', t)) :
    ∃ b e, s.theCacheEvictBuffer.firstNonPending = .ok (b, e) ∧
      s' = { s with theCacheEvictBuffer := b } ∧ t.msg.type = e.type ∧ t.msg.address = e.address ∧
      t.dest.type = .Memory := by
  unfold getCacheEvictTransport at h
  split at h
  · cases h
  · obtain ⟨⟨b, e⟩, hfirst, hpure⟩ := bind_eq_ok.mp h
    cases pure_eq_ok.mp hpure
    exact ⟨b, e, hfirst, rfl, rfl, rfl, rfl⟩

theorem getIdleWorkTransport_frame (s : Policy cfg) :
    s.getIdleWorkTransport.1 =
      { s with theDirEvictBuffer := s.getIdleWorkTransport.1.theDirEvictBuffer } := by
  unfold getIdleWorkTransport
  split <;> rfl

/-- Idle work sends the invalidation it was started with, or starts a write-back. -/
theorem handleIdleWork_spec (hok : s.handleIdleWork p = .ok (s', q)) :
    (s' = s ∧ q.maf = p.maf ∧
      (q.action = .eNoAction ∧ q.snoopTransports = p.snoopTransports ∨
        q.action = .eForward ∧ p.transport.msg.type ≠ .NumMemoryMessageTypes ∧
          q.snoopTransports = p.snoopTransports ++ [p.transport])) ∨
    ∃ t, s.getCacheEvictTransport = .ok (s', t) ∧ q.action = .eForward ∧ q.maf = p.maf ∧
      q.snoopTransports = p.snoopTransports ++ [t] := by
  unfold handleIdleWork at hok
  split at hok
  · split at hok
    · obtain ⟨⟨s₁, t⟩, hevict, hpure⟩ := bind_eq_ok.mp hok
      cases pure_eq_ok.mp hpure
      exact .inr ⟨t, hevict, rfl, rfl, rfl⟩
    · cases hok
      exact .inl ⟨rfl, rfl, .inl ⟨rfl, rfl⟩⟩
  · next htype =>
    cases hok
    exact .inl ⟨rfl, rfl, .inr ⟨rfl, htype, rfl⟩⟩

theorem handleIdleWork_theMAF (hok : s.handleIdleWork p = .ok (s', q)) : s'.theMAF = s.theMAF := by
  rcases handleIdleWork_spec hok with ⟨rfl, _⟩ | ⟨t, hevict, _⟩
  · rfl
  · obtain ⟨b, e, _, rfl, _⟩ := getCacheEvictTransport_spec hevict
    rfl

/-! ## Waking up -/

/-- The requests that completing the last request for a block wakes up. -/
def WokenWith (cfg : CMPCacheInfo) (a : MemoryAddress) (u : Ticket) : Prop :=
  u.At a .eWaitRequest ∨ u.state = .eWaitSet ∧ StdDirectory.sameSet cfg a u.address = true

instance (a : MemoryAddress) (u : Ticket) : Decidable (WokenWith cfg a u) :=
  inferInstanceAs (Decidable (_ ∨ _))

/-- While a request for the block is active nothing wakes up; else the block is no longer
    protected, and the requests wake up that waited behind others or for room in the
    directory set. -/
theorem wakeMAFs_spec (s : Policy cfg) (a : MemoryAddress) :
    ((∃ i u, s.theMAF.ticket i = some u ∧ u.At a .eWaitAck) ∧ s.wakeMAFs a = s) ∨
    ((∀ i u, s.theMAF.ticket i = some u → ¬ u.At a .eWaitAck) ∧
      s.wakeMAFs a = { s with
        theMAF := (s.wakeMAFs a).theMAF
        theDirectory := s.theDirectory.setProtected cfg a false } ∧
      (s.wakeMAFs a).theMAF.nextStamp = s.theMAF.nextStamp ∧
      ∀ j, (s.wakeMAFs a).theMAF.ticket j = (s.theMAF.ticket j).map fun u =>
        if WokenWith cfg a u then { u with state := .eWaking } else u) := by
  unfold wakeMAFs
  split
  · next hactive =>
    obtain ⟨e, he⟩ := Option.isSome_iff_exists.mp hactive
    obtain ⟨hticket, hat⟩ := MissAddressFile.ticket_of_findFirst he
    exact .inl ⟨⟨_, _, hticket, hat⟩, rfl⟩
  · next hnone =>
    rw [Bool.not_eq_true, Option.isSome_eq_false_iff, Option.isNone_iff_eq_none] at hnone
    refine .inr ⟨fun i u hu => MissAddressFile.not_at_of_findFirst hnone hu, rfl,
      MissAddressFile.nextStamp_wakeAll, fun j => ?_⟩
    rw [MissAddressFile.ticket_wakeAll]
    refine Option.map_congr fun u hu => ?_
    obtain ⟨e, he, rfl, rfl⟩ := MissAddressFile.ticket_eq_some.mp hu
    have hmem : ∀ test : MAFEntry → Bool,
        e.stamp ∈ (s.theMAF.ordered.filter test).map MAFEntry.stamp ↔ test e = true := by
      intro test
      simp only [List.mem_map, List.mem_filter, MissAddressFile.ordered,
        (List.perm_insertionSort _ _).mem_iff]
      constructor
      · rintro ⟨x, ⟨hx, htest⟩, hstamp⟩
        rwa [← MissAddressFile.eq_of_stamp_eq hx he hstamp]
      · exact fun htest => ⟨e, ⟨he, htest⟩, rfl⟩
    refine if_congr ((hmem _).trans ?_) rfl rfl
    simp only [Bool.or_eq_true, Bool.and_eq_true, beq_iff_eq, WokenWith, Ticket.At, MAFEntry.ticket,
      Ticket.of, and_comm]

/-- What finalizing a process does to the policy. -/
inductive Finalized (s : Policy cfg) (q : ProcessEntry) (s' : Policy cfg) : Prop
  | woke {i : Nat} {u : Ticket} : q.action = .eFwdAndWakeEvictMAF ∨ q.action = .eWakeEvictMAF →
      q.maf = some i → s.theMAF.ticket i = some u → s' = { s with theMAF := s'.theMAF } →
      s'.theMAF.nextStamp = s.theMAF.nextStamp →
      (∀ j, s'.theMAF.ticket j = (s.theMAF.ticket j).map fun v =>
        if j = i ∨ v.At u.address .eWaitRequest then { v with state := .eWaking } else v) →
      Finalized s q s'
  | removed {i : Nat} {u : Ticket} :
      q.action = .eRemoveAndWakeMAF ∨ q.action = .eReplyAndRemoveMAF →
      q.maf = some i → s.theMAF.ticket i = some u →
      s' = { s with theMAF := s.theMAF.remove i }.wakeMAFs q.transport.msg.address → Finalized s q s'
  | dropped {i : Nat} : q.action = .eRemoveMAF → q.maf = some i →
      s' = { s with theMAF := s.theMAF.remove i } → Finalized s q s'
  | nothing : s' = s → Finalized s q s'

theorem mafOf_spec {e : MAFEntry} (h : Controller.mafOf s q = .ok e) :
    q.maf = some e.stamp ∧ s.theMAF.ticket e.stamp = some e.ticket := by
  unfold Controller.mafOf at h
  split at h
  · next x hx =>
    cases h
    obtain ⟨i, hi, hget⟩ := Option.bind_eq_some_iff.mp hx
    obtain ⟨hmem, rfl⟩ := MissAddressFile.get?_eq_some.mp hget
    exact ⟨hi, MissAddressFile.ticket_of_mem hmem⟩
  · cases h

theorem finalizeMAF_finalized (hok : Controller.finalizeMAF s q = .ok s') : Finalized s q s' := by
  have hwoke : q.action = .eFwdAndWakeEvictMAF ∨ q.action = .eWakeEvictMAF →
      (Controller.mafOf s q >>= fun e => pure { s with theMAF := s.theMAF.wakeAfterEvict e }) = .ok s' →
      Finalized s q s' := by
    intro haction hok
    obtain ⟨e, hof, hpure⟩ := bind_eq_ok.mp hok
    obtain rfl := pure_eq_ok.mp hpure
    obtain ⟨hmaf, hticket⟩ := mafOf_spec hof
    exact .woke haction hmaf hticket rfl MissAddressFile.nextStamp_wakeAfterEvict
      fun j => MissAddressFile.ticket_wakeAfterEvict
  have hremoved : q.action = .eRemoveAndWakeMAF ∨ q.action = .eReplyAndRemoveMAF →
      (Controller.mafOf s q >>= fun e => pure
        ({ s with theMAF := s.theMAF.remove e.stamp }.wakeMAFs q.transport.msg.address)) = .ok s' →
      Finalized s q s' := by
    intro haction hok
    obtain ⟨e, hof, hpure⟩ := bind_eq_ok.mp hok
    obtain rfl := pure_eq_ok.mp hpure
    obtain ⟨hmaf, hticket⟩ := mafOf_spec hof
    exact .removed haction hmaf hticket rfl
  unfold Controller.finalizeMAF at hok
  split at hok
  · next haction => exact hwoke (.inl haction) hok
  · next haction => exact hwoke (.inr haction) hok
  · next haction => exact hremoved (.inr haction) hok
  · next haction => exact hremoved (.inl haction) hok
  · next haction =>
    obtain ⟨e, hof, hpure⟩ := bind_eq_ok.mp hok
    obtain rfl := pure_eq_ok.mp hpure
    exact .dropped haction (mafOf_spec hof).1 rfl
  · exact .nothing (pure_eq_ok.mp hok).symm

end Policy

end nCMPCache
