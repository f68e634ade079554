import Flexus.CmpCache.Effects

/-!
# Requests that have to wait

A request that is put off should leave the blocks of the bank as they are, up to moving them
between the array and the evict buffer.
-/

namespace nCMPCache

open Runs

namespace Policy

variable {cfg : CMPCacheInfo} {s s' s₁ s₂ : Policy cfg} {p q : ProcessEntry} {hasMaf mafWaiting : Bool}
  {a : MemoryAddress} {reserve : Int} {dir : SimpleDirectoryState}

/-- The state of the bank's copy of a block, in the array or in the evict buffer. -/
def l2State (s : Policy cfg) (x : MemoryAddress) : CacheState :=
  if s.theCache.state x = .Invalid then
    ((s.theCacheEvictBuffer.find (cfg.blockAddress x)).map EvictEntry.state).getD .Invalid
  else s.theCache.state x

/-- A read that finds the only copy of its block dirty in the bank, while other reads of
    the block are not complete yet. -/
def givesUpDirty (s : Policy cfg) (p : ProcessEntry) : Bool :=
  let a := cfg.blockAddress p.transport.msg.address
  p.transport.msg.type == .ReadReq &&
    ((s.theMAF.find a).any fun e => e.state == .eWaitAck && !e.type.isWriteType) &&
    ((s.theDirEvictBuffer.find a).all fun d => d.invalidatesPending == 0) &&
    ((s.theDirectory.lookup cfg a).isSome || (s.theDirectory.pickVictim cfg a).isSome) &&
    (s.knownSharers a).noSharers &&
    (s.theCache.state a == .Modified || s.theCache.state a == .Invalid &&
      (s.theCacheEvictBuffer.find a).any fun e => !e.pending && e.state == .Modified)

theorem l2State_of_same (hcache : ∀ x, s'.theCache.state x = s.theCache.state x)
    (hbuffer : ∀ x, s'.theCacheEvictBuffer.find x = s.theCacheEvictBuffer.find x) (x : MemoryAddress) :
    s'.l2State x = s.l2State x := by
  rw [l2State, l2State, hcache, hbuffer]

/-- A block that comes back from the evict buffer changes places with its victim. -/
theorem Filled.l2State {e : EvictEntry} {vtag : MemoryAddress} {vstate : CacheState} (hcopies : Copies s)
    (he : s.theCacheEvictBuffer.find a = some e) (hfilled : Filled s a e.state vtag vstate s')
    (hkeeps : vstate ≠ .Invalid → keepsVictim cfg vstate) (x : MemoryAddress) :
    s'.l2State x = s.l2State x := by
  obtain ⟨haligned, _, hvalid, _⟩ := hcopies.kept he
  unfold Policy.l2State
  rw [hfilled.array, hfilled.buffer, haligned]
  by_cases hxa : cfg.blockAddress x = a
  · have hsame : s.theCache.state x = .Invalid := by
      rw [StdArray.state_eq_of_blockAddress_eq (hxa.trans haligned.symm)]
      exact hfilled.invalid
    rw [if_pos hxa, if_neg hvalid, hsame, if_pos rfl, hxa, he]
    rfl
  · rw [if_neg hxa]
    by_cases hxv : vstate ≠ .Invalid ∧ cfg.blockAddress x = vtag
    · obtain ⟨hvictim, hvaligned, _⟩ := hfilled.victim hxv.1
      have hbefore : s.theCache.state x = vstate := by
        rw [StdArray.state_eq_of_blockAddress_eq (hxv.2.trans hvaligned.symm)]
        exact hvictim
      rw [if_pos hxv, if_pos rfl, if_pos ⟨hkeeps hxv.1, hxv.2⟩, hbefore, if_neg hxv.1]
      rfl
    · have hnot : ¬ (keepsVictim cfg vstate ∧ cfg.blockAddress x = vtag) := fun h => hxv ⟨h.1.1, h.2⟩
      rw [if_neg hxv, if_neg hnot, if_neg hxa]

/-! ## Stalls while a request is served -/

/-- A request that is served and yet has to wait: the copy in the array is not dirty and
    nothing changes, or it is dirty, nobody shares the block, and the copy is gone. -/
structure ServedLate (s : Policy cfg) (p : ProcessEntry) (a : MemoryAddress) (dir : SimpleDirectoryState)
    (s' : Policy cfg) : Prop where
  buffer : s'.theCacheEvictBuffer = s.theCacheEvictBuffer
  copy : (s.theCache.state a ≠ .Modified ∧ s'.theCache = s.theCache) ∨
    (s.theCache.state a = .Modified ∧ p.transport.msg.type = .ReadReq ∧ dir.noSharers = true ∧
      s'.theCache.state a = .Invalid)

theorem not_stalled_of_activate {p₁ : ProcessEntry} (hok : s.activate p₁ hasMaf a = .ok (s', q))
    (haction : p₁.action ≠ .eStall) : q.action ≠ .eStall := by
  obtain ⟨_, i, rfl, _⟩ := activate_spec hok
  exact haction

theorem eq_readReq {type : MemoryMessageType} (hread : type.isReadType = true) (hne : type ≠ .FetchReq) :
    type = .ReadReq := by
  cases type <;> simp_all [MemoryMessageType.isReadType]

theorem servedLate_serveFromMemory (hinvalid : s.theCache.state a = .Invalid)
    (hok : s.serveFromMemory p hasMaf mafWaiting a = .ok (s', q)) (hstall : q.action = .eStall) :
    ServedLate s p a dir s' := by
  unfold serveFromMemory at hok
  split at hok
  · have hs := (stall_spec hok).1
    exact ⟨by rw [hs], .inl ⟨by simp [hinvalid], by rw [hs]⟩⟩
  · split at hok
    · exact absurd hstall (not_stalled_of_activate hok (by simp [replyWith]))
    case h_2 | h_3 =>
      obtain ⟨⟨s₁, p₁⟩, hactivate, hpure⟩ := bind_eq_ok.mp hok
      obtain ⟨rfl, rfl⟩ := Prod.mk.inj (pure_eq_ok.mp hpure)
      have hactive : p₁.action ≠ .eStall := not_stalled_of_activate hactivate (by simp [toMemory])
      exact absurd hstall hactive
    · exact absurd hstall (not_stalled_of_activate hok (by simp [toMemory]))
    · cases hok

theorem servedLate_serveRead (htype : p.transport.msg.type.isReadType = true)
    (hok : s.serveRead p hasMaf mafWaiting a dir = .ok (s', q)) (hstall : q.action = .eStall) :
    ServedLate s p a dir s' := by
  unfold serveRead at hok
  split at hok
  · next hforward =>
    have hclean : s.theCache.state a ≠ .Modified := by
      intro hdirty
      simp [needsForward, hdirty] at hforward
    split at hok
    · have hs := (stall_spec hok).1
      exact ⟨by rw [hs], .inl ⟨hclean, by rw [hs]⟩⟩
    · obtain ⟨⟨s₁, p₁⟩, hactivate, hpure⟩ := bind_eq_ok.mp hok
      obtain ⟨rfl, rfl⟩ := Prod.mk.inj (pure_eq_ok.mp hpure)
      have hactive : p₁.action ≠ .eStall := not_stalled_of_activate hactivate (by simp)
      exact absurd hstall hactive
  · split at hok
    · next hwait =>
      have hs := (stall_spec hok).1
      have hbuffer : (s.passDirty a true).theCacheEvictBuffer = s.theCacheEvictBuffer := by
        rw [(passDirty_spec true).1]
      refine ⟨by rw [hs]; exact hbuffer, ?_⟩
      simp only [grantsWrite, Bool.and_eq_true, bne_iff_ne] at hwait
      by_cases hdirty : s.theCache.state a = .Modified
      · refine .inr ⟨hdirty, eq_readReq htype hwait.1.2, hwait.1.1.1, ?_⟩
        · have hgone : s.passDirty a true =
              { s with theCache := (s.theCache.setState a .Invalid).invalidateBlock a } := by
            simp [passDirty, hdirty]
          rw [hs, hgone, StdArray.state_invalidateBlock,
            StdArray.state_setState (StdArray.way_isSome_of_state (by simp [hdirty])), if_pos rfl]
      · refine .inl ⟨hdirty, ?_⟩
        have hkept : s.passDirty a true = s := by simp [passDirty, hdirty]
        rw [hs, hkept]
    · obtain ⟨sharers, _, hactivate⟩ := bind_eq_ok.mp hok
      exact absurd hstall (not_stalled_of_activate hactivate (by simp [replyWith]))

theorem servedLate_serveRequest {block : DirBlock} (hlookup : s.theDirectory.lookup cfg a = some block)
    (hok : s.serveRequest p hasMaf mafWaiting a = .ok (s', q)) (hstall : q.action = .eStall) :
    ServedLate s p a block.state s' := by
  unfold serveRequest at hok
  rw [hlookup] at hok
  dsimp only at hok
  have hsame : (s.protectEntry p.transport.msg.type a).theCache = s.theCache ∧
      (s.protectEntry p.transport.msg.type a).theCacheEvictBuffer = s.theCacheEvictBuffer := by
    unfold protectEntry
    split <;> exact ⟨rfl, rfl⟩
  have hback : ∀ {p' : ProcessEntry}, (p'.transport.msg.type = .ReadReq → p.transport.msg.type = .ReadReq) →
      ServedLate (s.protectEntry p.transport.msg.type a) p' a block.state s' →
      ServedLate s p a block.state s' := by
    rintro p' htype ⟨hbuffer, hcopy⟩
    rw [hsame.1] at hcopy
    refine ⟨hbuffer.trans hsame.2, hcopy.imp_right ?_⟩
    exact fun ⟨hdirty, hread, hrest⟩ => ⟨hdirty, htype hread, hrest⟩
  have hread : (convertUpgrade p block.state).transport.msg.type = .ReadReq →
      p.transport.msg.type = .ReadReq := by
    rcases convertUpgrade_spec p block.state with hc | ⟨_, hc⟩
    · rw [hc]
      exact id
    · rw [hc]
      simp
  split at hok
  · next hmemory => exact hback hread (servedLate_serveFromMemory hmemory.2 hok hstall)
  · split at hok
    case h_1 | h_2 =>
      next htype => exact hback hread (servedLate_serveRead (by rw [htype]; rfl) hok hstall)
    · unfold serveWrite at hok
      split at hok
      · obtain ⟨sharers, _, hactivate⟩ := bind_eq_ok.mp hok
        exact absurd hstall (not_stalled_of_activate hactivate (by simp [replyWith]))
      · unfold invalidateSharers at hok
        dsimp only at hok
        split at hok
        · cases hok
        · exact absurd hstall (not_stalled_of_activate hok (by simp [notifyWrite, replyWith]))
    · unfold serveUpgrade at hok
      split at hok
      · split at hok
        · cases hok
        · exact absurd hstall (not_stalled_of_activate hok (by simp [replyWith]))
      · exact absurd hstall (not_stalled_of_activate hok (by simp [notifyUpgrade, replyWith]))
    · unfold serveStore at hok
      split at hok
      · exact absurd hstall (not_stalled_of_activate hok (by simp [toMemory]))
      · exact absurd hstall (not_stalled_of_activate hok (by simp [replyWith]))
    · cases hok

/-! ## Stalled requests -/

/-- An eviction that goes ahead ends with another action. -/
theorem doEvict_not_stalled (hwaits : s.evictWaits p = false)
    (hok : doEvict reserve s p hasMaf = .ok (s', q)) : q.action ≠ .eStall := by
  have hleft : ∀ {s₁ : Policy cfg} {p₁ : ProcessEntry} {active fwd : Bool},
      s₁.finishEvict p₁ active fwd = .ok (s', q) → q.action ≠ .eStall := by
    intro s₁ p₁ active fwd hfinish
    rcases (finishEvict_left hfinish).action with ⟨haction | haction, _⟩ | ⟨haction | haction, _⟩ <;>
      simp [haction]
  unfold doEvict at hok
  rw [if_neg (by simp [hwaits])] at hok
  split at hok
  · obtain ⟨t, _, hfinish⟩ := bind_eq_ok.mp hok
    exact hleft hfinish
  · exact hleft hok

/-- What a read has to meet to give up a dirty copy while it waits. -/
theorem givesUpDirty_iff :
    s.givesUpDirty p = true ↔ p.transport.msg.type = .ReadReq ∧
      (∃ e, s.theMAF.find (cfg.blockAddress p.transport.msg.address) = some e ∧ e.state = .eWaitAck ∧
        e.type.isWriteType = false) ∧
      (∀ d, s.theDirEvictBuffer.find (cfg.blockAddress p.transport.msg.address) = some d →
        d.invalidatesPending = 0) ∧
      ((s.theDirectory.lookup cfg (cfg.blockAddress p.transport.msg.address)).isSome = true ∨
        (s.theDirectory.pickVictim cfg (cfg.blockAddress p.transport.msg.address)).isSome = true) ∧
      (s.knownSharers (cfg.blockAddress p.transport.msg.address)).noSharers = true ∧
      (s.theCache.state (cfg.blockAddress p.transport.msg.address) = .Modified ∨
        s.theCache.state (cfg.blockAddress p.transport.msg.address) = .Invalid ∧
        ∃ e, s.theCacheEvictBuffer.find (cfg.blockAddress p.transport.msg.address) = some e ∧
          e.pending = false ∧ e.state = .Modified) := by
  simp only [givesUpDirty, Bool.and_eq_true, Bool.or_eq_true, beq_iff_eq, Option.any_eq_true,
    Option.all_eq_true, Bool.not_eq_true', and_assoc]

/-- A request that waits although it has its directory entry: the bank keeps its copies
    unless a read gave up a dirty one. -/
theorem servedLate_l2State_iff (hsound : Sound s) (ha : a = cfg.blockAddress p.transport.msg.address)
    (hclear : Clear s p.transport.msg.type a true)
    (hclaim : s.claimDirEntry p.transport.msg.type a = .ok s₁) (hcache : s₁.claimCacheBlock a = .ok (.ok s₂))
    (hlate : ServedLate s₂ p a (s.knownSharers a) s') :
    (∀ x, s'.l2State x = s.l2State x) ↔ s.givesUpDirty p = false := by
  have haligned : cfg.blockAddress a = a := by rw [ha, CMPCacheInfo.blockAddress_blockAddress]
  obtain ⟨hclaimed, hpending⟩ := claimDirEntry_ok haligned hclaim
  have hframe := claimDirEntry_frame hclaim
  have harray₁ : s₁.theCache = s.theCache := by rw [hframe]
  have hbuffer₁ : s₁.theCacheEvictBuffer = s.theCacheEvictBuffer := by rw [hframe]
  have hclaimDir : Effects {} s s₁ := effects_claimDirEntry haligned hclaim
  have hsound₁ := hclaimDir.sound hsound
  have hcopies₁ := hsound₁.copies
  have hclaimCache : Effects { evicts := fun _ => True } s₁ s₂ :=
    effects_claimCacheBlock hcopies₁ (fun _ _ _ _ _ => trivial) hcache
  have hcopies₂ := (hclaimCache.sound hsound₁).copies
  have hroom : (s.theDirectory.lookup cfg a).isSome = true ∨
      (s.theDirectory.pickVictim cfg a).isSome = true := by
    cases hclaimed with
    | kept _ hfound =>
      rcases hfound with hsome | ⟨hstore, _⟩
      · exact .inl hsome
      · have hread := hclear.1
        rw [hstore] at hread
        cases hread
    | allocated hnone hallocate _ =>
      obtain ⟨w, hw, _⟩ := StdDirectory.allocate_spec hnone haligned hallocate
      exact .inr (by rw [hw]; rfl)
  -- what the array says of the block once the evict buffer gave it back
  have hdirty : s₂.theCache.state a = .Modified ↔
      (s.theCache.state a = .Modified ∨ s.theCache.state a = .Invalid ∧
        ∃ e, s.theCacheEvictBuffer.find a = some e ∧ e.pending = false ∧ e.state = .Modified) := by
    rcases claimCacheBlock_ok hcache with ⟨rfl, hcase⟩ | ⟨e, hinvalid, he, hfree, hrecover⟩
    · rw [harray₁]
      rw [harray₁, hbuffer₁] at hcase
      refine ⟨.inl, fun h => h.resolve_right ?_⟩
      rintro ⟨hinvalid, e, he, _⟩
      rcases hcase with hvalid | hnone
      · exact hvalid hinvalid
      · rw [hnone] at he
        cases he
    · obtain ⟨_, vtag, vstate, _, hfilled⟩ := filled_recoverBlock hcopies₁ hinvalid he hrecover
      rw [hfilled.array, if_pos rfl, ← harray₁, ← hbuffer₁, hinvalid, he]
      constructor
      · exact fun hm => .inr ⟨rfl, e, rfl, hfree, hm⟩
      · rintro (hm | ⟨_, e', he', _, hm⟩)
        · cases hm
        · cases he'
          exact hm
  rcases hlate.copy with ⟨hclean, hsame⟩ | ⟨hmodified, hread, hnone, hgone⟩
  · -- nothing is given up, and the victim of a clean block is kept
    have hfalse : s.givesUpDirty p = false := by
      rw [Bool.eq_false_iff]
      intro htrue
      have hcond := (givesUpDirty_iff.mp htrue).2.2.2.2.2
      rw [← ha] at hcond
      exact hclean (hdirty.mpr hcond)
    refine ⟨fun _ => hfalse, fun _ x => ?_⟩
    have hfirst : s₁.l2State x = s.l2State x :=
      l2State_of_same (fun x => by rw [harray₁]) (fun x => by rw [hbuffer₁]) x
    have hlast : s'.l2State x = s₂.l2State x :=
      l2State_of_same (fun x => by rw [hsame]) (fun x => by rw [hlate.buffer]) x
    rw [hlast, ← hfirst]
    rcases claimCacheBlock_ok hcache with ⟨rfl, _⟩ | ⟨e, hinvalid, he, _, hrecover⟩
    · rfl
    · obtain ⟨_, vtag, vstate, _, hfilled⟩ := filled_recoverBlock hcopies₁ hinvalid he hrecover
      have hevict : cfg.theEvictClean = true := by
        by_contra hno
        have hmod := (hcopies₁.kept he).2.2.2.2 (by simpa using hno)
        rw [hfilled.array, if_pos rfl] at hclean
        exact hclean hmod
      exact hfilled.l2State hcopies₁ he (fun hv => ⟨hv, .inl hevict⟩) x
  · have htrue : s.givesUpDirty p = true := by
      refine givesUpDirty_iff.mpr ⟨hread, ?_, ?_, ?_, ?_, ?_⟩
      · rw [← ha]
        exact hclear.2
      · rw [← ha]
        exact hpending
      · rw [← ha]
        exact hroom
      · rw [← ha]
        exact hnone
      · rw [← ha]
        exact hdirty.mp hmodified
    rw [htrue]
    simp only [Bool.true_eq_false, iff_false, not_forall]
    refine ⟨a, ?_⟩
    -- afterwards neither the array nor the evict buffer has the block
    have hafter : s'.l2State a = .Invalid := by
      have hnone₂ := hcopies₂.apart (x := a) (by rw [hmodified]; simp)
      rw [l2State, if_pos hgone, hlate.buffer, hnone₂]
      rfl
    have hbefore : s.l2State a = .Modified := by
      rcases hdirty.mp hmodified with hm | ⟨hinvalid, e, he, _, hm⟩
      · rw [l2State, hm]
        simp
      · rw [l2State, if_pos hinvalid, haligned, he]
        exact hm
    rw [hafter, hbefore]
    simp

/-- A request that ends up waiting leaves the copies of the bank alone, unless it is a read
    that gave up a dirty copy. -/
theorem doRequest_stalled_iff (hsound : Sound s) (hok : doRequest reserve s p hasMaf = .ok (s', q))
    (hstall : q.action = .eStall) :
    (∀ x, s'.l2State x = s.l2State x) ↔ s.givesUpDirty p = false := by
  have hqueued : ∀ {b : MemoryAddress} {st : MAFState}, s.stall p hasMaf b st = .ok (s', q) →
      ∀ x, s'.l2State x = s.l2State x := by
    intro b st hput x
    have hs := (stall_spec hput).1
    exact l2State_of_same (fun x => by rw [hs]) (fun x => by rw [hs]) x
  have hkept : (∀ x, s'.l2State x = s.l2State x) → s.givesUpDirty p ≠ true →
      ((∀ x, s'.l2State x = s.l2State x) ↔ s.givesUpDirty p = false) := by
    intro hsame hnot
    simp only [hsame, implies_true, Bool.not_eq_true] at hnot ⊢
    simp [hnot]
  cases hevict : p.transport.msg.type.isEvictType with
  | true =>
    have hnot : s.givesUpDirty p ≠ true := by
      intro htrue
      rw [(givesUpDirty_iff.mp htrue).1] at hevict
      cases hevict
    rcases doRequest_evict hevict hok with ⟨_, _, hput⟩ | ⟨_, hdo⟩
    · exact hkept (hqueued hput) hnot
    · cases hwaits : s.evictWaits p with
      | true => exact hkept (hqueued (doEvict_waits hwaits hdo)) hnot
      | false => exact absurd hstall (doEvict_not_stalled hwaits hdo)
  | false =>
    have haligned := cfg.blockAddress_blockAddress p.transport.msg.address
    cases doRequest_requested hevict hok with
    | redundant _ _ => cases hasMaf <;> simp at hstall
    | queued hbehind hput =>
      refine hkept (hqueued hput) fun htrue => ?_
      obtain ⟨htype, ⟨e, he, hstate, hread⟩, _⟩ := givesUpDirty_iff.mp htrue
      obtain ⟨e', he', hcase⟩ := hbehind
      rw [he] at he'
      cases he'
      have hnoWrite : MemoryMessageType.ReadReq.isWriteType = false := rfl
      simp [hstate, htype, hread, hnoWrite] at hcase
    | noEntry _ hclaim hput =>
      refine hkept (hqueued hput) fun htrue => ?_
      obtain ⟨_, _, hpending, hroom, _⟩ := givesUpDirty_iff.mp htrue
      rcases claimDirEntry_error hclaim with ⟨_, d, hd, hnot⟩ | ⟨_, hnone, hvictim⟩
      · exact hnot (hpending d hd)
      · simp [hnone, hvictim] at hroom
    | @writtenBack _ _ s₁ _ _ _ hclaim hcache hput =>
      have hframe := claimDirEntry_frame hclaim
      have hs := (stall_spec hput).1
      refine hkept (fun x => ?_) fun htrue => ?_
      · refine l2State_of_same (fun x => ?_) (fun x => ?_) x
        · rw [hs, hframe]
        · rw [hs, hframe]
      · obtain ⟨_, hinvalid, e, he, hpending⟩ := claimCacheBlock_error hcache
        rw [hframe] at hinvalid he
        rcases (givesUpDirty_iff.mp htrue).2.2.2.2.2 with hmodified | ⟨_, e', he', hfree, _⟩
        · rw [hinvalid] at hmodified
          cases hmodified
        · have hee : e' = e := Option.some.inj (he'.symm.trans he)
          rw [hee, hpending] at hfree
          cases hfree
    | @served w s₁ s₂ _ _ hclear hclaim hcache hserve =>
      obtain ⟨dir, hserved⟩ := served_serveRequest hserve
      rcases hserved.recorded with ⟨hwait, _⟩ | ⟨_, haction, _⟩
      · subst hwait
        have hnas : p.transport.msg.type ≠ .NonAllocatingStoreReq := by
          intro hstore
          have hread := hclear.1
          rw [hstore] at hread
          cases hread
        obtain ⟨block, hblock, hknown⟩ := (claimDirEntry_ok haligned hclaim).1.lookup haligned hnas
        have hfound : s₂.theDirectory.lookup cfg (cfg.blockAddress p.transport.msg.address) = some block := by
          rw [claimCacheBlock_frame hcache]
          exact hblock
        have hlate := servedLate_serveRequest hfound hserve hstall
        rw [hknown] at hlate
        exact servedLate_l2State_iff hsound rfl hclear hclaim hcache hlate
      · rw [hstall] at haction
        simp at haction

end Policy

namespace Controller

variable {cfg : CMPCacheInfo} {c : Controller cfg} {p q : ProcessEntry} {s' : Policy cfg} {reserve : Int}
  {hasMaf : Bool}

/-- In every reachable state, a request or woken request that is only queued leaves the
    state of every block in the bank as it was if and only if it is not a read of a block
    that is dirty in the bank, that nobody shares, and that other reads are waiting for. -/
theorem stalledRequest_keeps_copies_iff (hreach : Reachable c)
    (hok : Policy.doRequest reserve c.thePolicy p hasMaf = .ok (s', q)) (hstall : q.action = .eStall) :
    (∀ x, s'.l2State x = c.thePolicy.l2State x) ↔ c.thePolicy.givesUpDirty p = false :=
  Policy.doRequest_stalled_iff (sound_of_reachable hreach) hok hstall

/-- The process that a request of a core starts. -/
def requestProcess (t : MemoryTransport) : ProcessEntry :=
  { type := .eProcRequest, transport := t, cacheEBReserved := 1 }

/-- A core owns a block and writes it back while a read of another core was forwarded to
    it. -/
def writeBackDuringRead : List Event :=
  through (.request (message .WriteReq 64 0)) ++ through (.reply (message .MissReplyWritable 64 0)) ++
    through (.reply (message .WriteAck 64 0)) ++ through (.request (message .ReadReq 64 1)) ++
    through (.request (message .EvictDirty 64 0))

/-- A write by one core makes a read by another one wait, and nothing else changes. -/
theorem stalledRequest_keeps_copies_read :
    ∃ (c : Controller (smallBank true)) (s' : Policy (smallBank true)) (q : ProcessEntry), Reachable c ∧
      Policy.doRequest 0 c.thePolicy (requestProcess (message .ReadReq 64 1)) false = .ok (s', q) ∧
      q.action = .eStall ∧ ∀ x, s'.l2State x = c.thePolicy.l2State x := by
  obtain ⟨c, hreach, hrun⟩ := exists_reachable (through (.request (message .WriteReq 64 0)))
    (fun c : Controller (smallBank true) =>
      match Policy.doRequest 0 c.thePolicy (requestProcess (message .ReadReq 64 1)) false with
      | .ok (_, q) => q.action == .eStall &&
        !c.thePolicy.givesUpDirty (requestProcess (message .ReadReq 64 1))
      | .error _ => false) (by decide +kernel)
  split at hrun
  · next s' q hok =>
    simp only [Bool.and_eq_true, beq_iff_eq, Bool.not_eq_true'] at hrun
    exact ⟨c, s', q, hreach, hok, hrun.1, (stalledRequest_keeps_copies_iff hreach hok hrun.1).mpr hrun.2⟩
  · cases hrun

/-- A third core reads the block that was written back while the first read is still on its
    way: it has to wait, and the only up-to-date copy is gone. -/
theorem stalledRequest_drops_dirty_copy :
    ¬ ∀ (c : Controller (smallBank true)) (p q : ProcessEntry) (s' : Policy (smallBank true)) reserve hasMaf,
      Reachable c → Policy.doRequest reserve c.thePolicy p hasMaf = .ok (s', q) → q.action = .eStall →
      ∀ x, s'.l2State x = c.thePolicy.l2State x := by
  intro hall
  obtain ⟨c, hreach, hrun⟩ := exists_reachable writeBackDuringRead
    (fun c : Controller (smallBank true) =>
      match Policy.doRequest 0 c.thePolicy (requestProcess (message .ReadReq 64 2)) false with
      | .ok (s', q) => q.action == .eStall && c.thePolicy.l2State 64 == .Modified &&
        s'.l2State 64 == .Invalid
      | .error _ => false) (by decide +kernel)
  split at hrun
  · next s' q hok =>
    simp only [Bool.and_eq_true, beq_iff_eq] at hrun
    have hsame := hall c _ q s' 0 false hreach hok hrun.1.1 64
    rw [hrun.1.2, hrun.2] at hsame
    cases hsame
  · cases hrun

end Controller

end nCMPCache
