import Flexus.CmpCache.Residency

/-!
# What the handlers do to the bank

Every handler is a sequence of moves of the bank's copies and of its directory.
-/

namespace nCMPCache

open Runs Relation

namespace Policy

variable {cfg : CMPCacheInfo} {s s' s₁ s₂ : Policy cfg} {p q : ProcessEntry} {hasMaf mafWaiting : Bool}
  {a : MemoryAddress} {reserve : Int} {type : MemoryMessageType}

variable {w : Causes}

/-- One move of the bank's copies or of its directory. -/
inductive Effect (w : Causes) (s s' : Policy cfg) : Prop
  | copies : s'.theDirectory = s.theDirectory → s'.theDirEvictBuffer = s.theDirEvictBuffer →
      CopyMove w s s' → Effect w s s'
  | directory : s'.theCache = s.theCache → s'.theCacheEvictBuffer = s.theCacheEvictBuffer →
      DirMove w s s' → Effect w s s'

/-- A sequence of such moves. -/
def Effects (w : Causes) : Policy cfg → Policy cfg → Prop := ReflTransGen (Effect w)

/-- The copies of the bank and its directory are in order. -/
structure Sound (s : Policy cfg) : Prop where
  copies : Copies s
  resident : Resident s

theorem Effect.sound (hsound : Sound s) (h : Effect w s s') : Sound s' := by
  obtain ⟨hcopies, hresident⟩ := hsound
  cases h with
  | copies hdir hbuffer hmove =>
    refine ⟨hmove.copies hcopies, ?_⟩
    refine ⟨hdir ▸ hresident.placed, fun hx => hresident.buffered (hbuffer ▸ hx), fun {x} hx => ?_⟩
    rw [hbuffer]
    exact hresident.apart (hdir ▸ hx)
  | directory hcache hbuffer hmove =>
    refine ⟨?_, hmove.resident hresident⟩
    have hsame : CopyMove w s s' := .same (fun x => by rw [hcache]) fun x => by rw [hbuffer]
    exact hsame.copies hcopies

namespace Effects

theorem refl (s : Policy cfg) : Effects w s s := ReflTransGen.refl

theorem trans (h₁ : Effects w s s₁) (h₂ : Effects w s₁ s') : Effects w s s' := ReflTransGen.trans h₁ h₂

theorem of_copies (hdir : s'.theDirectory = s.theDirectory)
    (hbuffer : s'.theDirEvictBuffer = s.theDirEvictBuffer) (h : CopyMove w s s') :
    Effects w s s' :=
  ReflTransGen.single (.copies hdir hbuffer h)

theorem of_directory (hcache : s'.theCache = s.theCache)
    (hbuffer : s'.theCacheEvictBuffer = s.theCacheEvictBuffer) (h : DirMove w s s') :
    Effects w s s' :=
  ReflTransGen.single (.directory hcache hbuffer h)

/-- Only the miss address file changed. -/
theorem of_maf (h : s' = { s with theMAF := s'.theMAF }) : Effects w s s' := by
  rw [h]
  exact of_copies rfl rfl (.same (fun _ => rfl) fun _ => rfl)

theorem sound (hsound : Sound s) (h : Effects w s s') : Sound s' := by
  induction h with
  | refl => exact hsound
  | tail _ hlast ih => exact hlast.sound ih

end Effects

/-! ## Requests -/

theorem effects_claimDirEntry (haligned : cfg.blockAddress a = a)
    (h : s.claimDirEntry type a = .ok s') : Effects w s s' := by
  obtain ⟨hclaimed, hpending⟩ := claimDirEntry_ok haligned h
  have hframe := claimDirEntry_frame h
  exact .of_directory (by rw [hframe]) (by rw [hframe]) (.claimed haligned hclaimed hpending)

theorem effects_recoverBlock {e : EvictEntry} (hcopies : Copies s) (hinvalid : s.theCache.state a = .Invalid)
    (he : s.theCacheEvictBuffer.find a = some e) (hpending : e.pending = false)
    (hevicts : ∀ x, s.Displaces a x → w.evicts x) (hok : s.recoverBlock a e = .ok s') :
    Effects w s s' := by
  obtain ⟨cache, vtag, vstate, hallocate, hfilled⟩ := filled_recoverBlock hcopies hinvalid he hok
  obtain ⟨haligned, hplain, _⟩ := hcopies.kept he
  have hframe := recoverBlock_frame hok
  refine .of_copies (by rw [hframe]) (by rw [hframe]) (.filled hfilled hplain (fun e' he' => .inl ?_)
    fun hkeeps => hevicts vtag ⟨hinvalid, cache, vstate, hallocate, hkeeps⟩)
  rw [haligned, he] at he'
  cases he'
  exact hpending

theorem effects_claimCacheBlock (hcopies : Copies s)
    (hevicts : ∀ e, s.theCacheEvictBuffer.find a = some e → e.pending = false →
      ∀ x, s.Displaces a x → w.evicts x)
    (h : s.claimCacheBlock a = .ok (.ok s')) : Effects w s s' := by
  rcases claimCacheBlock_ok h with ⟨rfl, _⟩ | ⟨e, hinvalid, he, hpending, hrecover⟩
  · exact .refl _
  · exact effects_recoverBlock hcopies hinvalid he hpending (hevicts e he hpending) hrecover

theorem effects_protectEntry : Effects w s (s.protectEntry type a) := by
  unfold protectEntry
  split
  · exact .refl s
  · exact .of_directory rfl rfl (.protect rfl rfl)

theorem Served.effects (h : Served s p hasMaf mafWaiting a s' q) : Effects w s s' := by
  have hdir : Effects w s { s with theDirectory := s'.theDirectory } :=
    .of_directory rfl rfl (.entry h.entry rfl)
  refine hdir.trans (.of_copies rfl h.dirEB ?_)
  exact copyMove_oneCopy h.copies h.cacheEB

/-- The blocks an eviction with data is stored for. -/
def storing (s : Policy cfg) (p : ProcessEntry) (x : MemoryAddress) : Prop :=
  p.transport.msg.type.isEvictType = true ∧ s.evictHeldUp p = false ∧
    carriesData p.transport.msg = true ∧ s.validSharer p = true ∧
    s.theCache.state p.transport.msg.address = .Invalid ∧ x = cfg.blockAddress p.transport.msg.address

/-- A request that is not held up finds its block in the evict buffer, where its write-back
    is not under way yet. -/
def recovering (s : Policy cfg) (p : ProcessEntry) (a : MemoryAddress) : Prop :=
  p.transport.msg.type.isEvictType = false ∧ (∃ mafWaiting, Clear s p.transport.msg.type a mafWaiting) ∧
    (∃ s₁, s.claimDirEntry p.transport.msg.type a = .ok s₁) ∧
    ∃ e, s.theCacheEvictBuffer.find a = some e ∧ e.pending = false

/-- The causes of a request or an eviction: the block its data is stored for, and the one
    that leaves the array for a block that is stored or comes back. -/
def requestCauses (s : Policy cfg) (p : ProcessEntry) : Causes where
  stores := storing s p
  evicts x :=
    (storing s p (cfg.blockAddress p.transport.msg.address) ∧ s.Displaces p.transport.msg.address x) ∨
    (recovering s p (cfg.blockAddress p.transport.msg.address) ∧
      s.Displaces (cfg.blockAddress p.transport.msg.address) x)

/-- A request other than an eviction does nothing to the evict buffer's pending entries. -/
theorem Requested.effects (hsound : Sound s) (haligned : cfg.blockAddress a = a)
    (hevict : p.transport.msg.type.isEvictType = false)
    (hevicts : recovering s p a → ∀ x, s.Displaces a x → w.evicts x)
    (h : Requested s p hasMaf a s' q) : Effects w s s' := by
  cases h with
  | redundant _ _ => exact .refl s
  | queued _ hstall => exact .of_maf (stall_spec hstall).1
  | noEntry _ _ hstall => exact .of_maf (stall_spec hstall).1
  | writtenBack _ hclaim _ hstall =>
    exact (effects_claimDirEntry haligned hclaim).trans (.of_maf (stall_spec hstall).1)
  | @served mafWaiting s₁ s₂ _ _ hclear hclaim hcache hserve =>
    have hclaimed : Effects w s s₁ := effects_claimDirEntry haligned hclaim
    have hsound₁ := hclaimed.sound hsound
    have hframe := claimDirEntry_frame hclaim
    have hrecovered : Effects w s₁ s₂ := by
      refine effects_claimCacheBlock hsound₁.copies (fun e he hpending x hx => ?_) hcache
      rw [hframe] at he hx
      exact hevicts ⟨hevict, ⟨mafWaiting, hclear⟩, ⟨s₁, hclaim⟩, e, he, hpending⟩ x hx
    obtain ⟨dir, hserved⟩ := served_serveRequest hserve
    exact (hclaimed.trans hrecovered).trans (effects_protectEntry.trans hserved.effects)

/-- Data of an eviction goes to the copy in the array, or fills the array. -/
theorem Stored.copyMove (hcopies : Copies s)
    (hevict : p.transport.msg.type.isEvictType = true) (hfree : s.evictHeldUp p = false)
    (h : Stored s p s') : CopyMove (requestCauses s p) s s' := by
  cases h with
  | nothing hcache hceb => exact .same (fun x => by rw [hcache]) fun x => by rw [hceb]
  | updated hvalid hcache hceb =>
    have hplain : CacheState.Modified.plain = true := rfl
    refine .changed hvalid hplain (fun x => ?_) fun x => by rw [hceb]
    have hway : ((s.theCache.recordAccess p.transport.msg.address).way
        p.transport.msg.address).isSome := by
      rw [StdArray.way_congr StdArray.recordAccess_theBlocks]
      exact StdArray.way_isSome_of_state hvalid
    rw [hcache, StdArray.state_setState hway, StdArray.state_recordAccess]
  | filled hdata hsharer hinvalid hfill hcache hceb =>
    obtain ⟨cache, vtag, vstate, hallocate, hfilled⟩ := filled_fillFromEvict hcopies hinvalid hfill
    have hstoring : storing s p (cfg.blockAddress p.transport.msg.address) :=
      ⟨hevict, hfree, hdata, hsharer, hinvalid, rfl⟩
    refine .filled (hfilled.congr hcache hceb) ?_ (fun e _ => .inr hstoring) fun hkeeps => ?_
    · split <;> rfl
    · exact .inl ⟨hstoring, hinvalid, cache, vstate, hallocate, hkeeps⟩

theorem Evicted.effects (hsound : Sound s) (hevict : p.transport.msg.type.isEvictType = true)
    (hfree : s.evictHeldUp p = false) (h : Evicted s p s' q) :
    Effects (requestCauses s p) s s' := by
  have hcopies : Effects (requestCauses s p) s
      { s with theCache := s'.theCache, theCacheEvictBuffer := s'.theCacheEvictBuffer } := by
    refine .of_copies rfl rfl (Stored.copyMove hsound.copies hevict hfree ?_)
    cases h.stored with
    | nothing hcache hceb => exact .nothing hcache hceb
    | updated hvalid hcache hceb => exact .updated hvalid hcache hceb
    | filled hdata hsharer hinvalid hfill hcache hceb =>
      exact .filled hdata hsharer hinvalid hfill hcache hceb
  have hentry : Effects (requestCauses s p)
      { s with theCache := s'.theCache, theCacheEvictBuffer := s'.theCacheEvictBuffer }
      { s' with theDirEvictBuffer := s.theDirEvictBuffer } :=
    .of_directory rfl rfl (.entry h.entry rfl)
  refine hcopies.trans (hentry.trans (.of_directory rfl rfl (.buffer rfl (fun hx => ?_) ?_
    fun hx hpending => .inl ?_)))
  · obtain ⟨d, hd, _⟩ := h.dirEB.found hx
    exact ⟨d, hd⟩
  · exact fun hx hpending _ => h.dirEB.pending hx hpending
  · obtain ⟨d, hd, hsame⟩ := h.dirEB.found hx
    exact ⟨d, hd, hsame ▸ hpending⟩

/-- What a request or an eviction does to the bank. -/
theorem doRequest_effects (hsound : Sound s) (hreserved : 0 < p.cacheEBReserved)
    (hok : doRequest reserve s p hasMaf = .ok (s', q)) :
    Effects (requestCauses s p) s s' := by
  cases hevict : p.transport.msg.type.isEvictType with
  | false =>
    refine (doRequest_requested hevict hok).effects hsound (cfg.blockAddress_blockAddress _) hevict ?_
    exact fun hrecovering x hx => .inr ⟨hrecovering, hx⟩
  | true =>
    rcases doRequest_evict hevict hok with ⟨_, _, hstall⟩ | ⟨hbehind, hdo⟩
    · exact .of_maf (stall_spec hstall).1
    · cases hwaits : s.evictWaits p with
      | true => exact .of_maf (stall_spec (doEvict_waits hwaits hdo)).1
      | false =>
        exact (doEvict_evicted hwaits hreserved hdo).effects hsound hevict
          (by simp [evictHeldUp, hbehind, hwaits])

/-! ## Replies -/

/-- The reply brings data for the array, or a copy back from the evict buffer. -/
def bringsData (s : Policy cfg) (p : ProcessEntry) : Prop :=
  match p.transport.msg.type with
  | .InvUpdateAck => True
  | .FetchAckDirty | .ReadAckDirty | .FetchAck | .ReadAck => p.transport.msg.ackRequiresData = true
  | .FetchReply | .MissReply | .MissReplyWritable =>
    ∃ maf, s.matchingMAF p.transport = .ok maf ∧ maf.type.isReadType = true
  | .FwdNAck => ∃ e, s.theCacheEvictBuffer.find p.transport.msg.address = some e ∧ e.pending = false
  | _ => False

/-- The causes of a reply: the block that a core owns from now on, the one whose last
    invalidate is acknowledged, the one whose write-back is over, and the one that leaves
    the array for data that the reply brings. -/
def replyCauses (s : Policy cfg) (p : ProcessEntry) : Causes where
  owns x := (p.transport.msg.type = .WriteAck ∨ p.transport.msg.type = .UpgradeAck) ∧
    x = p.transport.msg.address
  frees x := (p.transport.msg.type = .WriteAck ∨ p.transport.msg.type = .UpgradeAck) ∧
    x = p.transport.msg.address
  invalidated x := (p.transport.msg.type = .InvalidateAck ∨ p.transport.msg.type = .InvUpdateAck) ∧
    x = p.transport.msg.address ∧ ∀ d, s.theDirEvictBuffer.find x = some d → d.invalidatesPending = 1
  acks x := p.transport.msg.type = .EvictAck ∧ x = p.transport.msg.address
  evicts x := s.bringsData p ∧ s.Displaces p.transport.msg.address x

theorem effects_makeRoom {cst : CacheState} (hcopies : Copies s) (haligned : cfg.blockAddress a = a)
    (hplain : cst.plain = true) (hevicts : ∀ x, s.Displaces a x → w.evicts x)
    (hroom : s.makeRoom a = .ok s₁) :
    Effects w s { s₁ with theCache := s₁.theCache.setState a cst } := by
  have hframe := makeRoom_frame hroom
  refine .of_copies ?_ ?_ (copyMove_makeRoom hcopies haligned hplain hevicts hroom)
  · rw [hframe]
  · rw [hframe]

/-- Making room for a block does not change its own state. -/
theorem state_makeRoom (hroom : s.makeRoom a = .ok s₁) : s₁.theCache.state a = s.theCache.state a := by
  unfold makeRoom at hroom
  split at hroom
  · next hinvalid =>
    split at hroom
    · cases hroom
    · obtain ⟨⟨cache, vtag, vstate⟩, hallocate, hpure⟩ := bind_eq_ok.mp hroom
      obtain rfl := pure_eq_ok.mp hpure
      rw [evictCacheBlock_frame, hinvalid]
      exact (StdArray.allocate_spec hinvalid hallocate).2.1
  · cases hroom
    rfl

theorem effects_keepDirtyData (hcopies : Copies s) (haligned : cfg.blockAddress a = a)
    (hevicts : ∀ x, s.Displaces a x → w.evicts x) (hok : s.keepDirtyData a = .ok s') : Effects w s s' := by
  obtain ⟨s₁, hroom, hpure⟩ := bind_eq_ok.mp hok
  obtain rfl := pure_eq_ok.mp hpure
  exact effects_makeRoom hcopies haligned rfl hevicts hroom

theorem effects_keepAckData {req : MemoryMessage} (hcopies : Copies s)
    (haligned : cfg.blockAddress req.address = req.address)
    (hevicts : ∀ x, s.Displaces req.address x → w.evicts x) (hok : s.keepAckData req = .ok s') :
    Effects w s s' := by
  obtain ⟨s₁, hroom, hpure⟩ := bind_eq_ok.mp hok
  obtain rfl := pure_eq_ok.mp hpure
  refine effects_makeRoom hcopies haligned ?_ hevicts hroom
  have hplain := hcopies.plain req.address
  rw [state_makeRoom hroom]
  unfold ackState
  split
  · rfl
  · rfl
  · split
    · exact hplain
    · rfl
  · split
    · exact hplain
    · rfl
  · exact hplain

theorem effects_keepMemoryData {req : MemoryMessage} {maf : MAFEntry} (hcopies : Copies s)
    (haligned : cfg.blockAddress req.address = req.address)
    (hevicts : ∀ x, s.Displaces req.address x → w.evicts x) (hok : s.keepMemoryData req maf = .ok s') :
    Effects w s s' := by
  obtain ⟨s₁, hroom, hpure⟩ := bind_eq_ok.mp hok
  obtain rfl := pure_eq_ok.mp hpure
  refine effects_makeRoom hcopies haligned ?_ hevicts hroom
  split <;> rfl

theorem effects_recoverCopy (hcopies : Copies s)
    (hevicts : ∀ e, s.theCacheEvictBuffer.find a = some e → e.pending = false →
      ∀ x, s.Displaces a x → w.evicts x)
    (hok : s.recoverCopy a = .ok s') : Effects w s s' := by
  unfold recoverCopy at hok
  split at hok
  · next hinvalid =>
    split at hok
    · next e he =>
      split at hok
      · cases hok
        exact .refl s
      · next hpending =>
        have hfree : e.pending = false := by simpa using hpending
        exact effects_recoverBlock hcopies hinvalid he hfree (hevicts e he hfree) hok
    · cases hok
      exact .refl s
  · cases hok
    exact .refl s

theorem effects_yieldCopy (howns : w.owns a) : Effects w s (s.yieldCopy a) := by
  have hframe := yieldCopy_frame s a
  refine .of_copies (by rw [hframe]) (by rw [hframe]) ?_
  unfold yieldCopy
  split
  · split
    · next e he =>
      split
      · next hclean =>
        refine .yielded he howns (fun _ => rfl) fun x => ?_
        have hfind := CacheEvictBuffer.find_modify (b := s.theCacheEvictBuffer) (a := a) (x := x)
          (f := fun e => { e with state := .Exclusive, type := .EvictClean }) fun _ => rfl
        rw [he] at hfind
        rw [if_pos hclean]
        exact hfind
      · next hclean =>
        refine .yielded he howns (fun _ => rfl) fun x => ?_
        rw [if_neg hclean]
        exact CacheEvictBuffer.find_remove
    · exact .same (fun _ => rfl) fun _ => rfl
  · next hvalid =>
    have hplain : CacheState.Exclusive.plain = true := rfl
    refine .changed hvalid hplain (fun x => ?_) fun _ => rfl
    exact StdArray.state_setState (StdArray.way_isSome_of_state hvalid)

/-- One invalidate less is pending for a block; after the last one the entry goes. -/
theorem effects_completeInvalidate {d : DirEBEntry} {sharers : SimpleDirectoryState} {n : Int}
    (hd : ∃ d', s.theDirEvictBuffer.find p.transport.msg.address = some d' ∧
      d'.invalidatesPending = d.invalidatesPending)
    (hlast : d.invalidatesPending = 1 → w.invalidated p.transport.msg.address)
    (hok : s.completeInvalidate p d sharers n = .ok (s', q)) : Effects w s s' := by
  obtain ⟨d', hd', hsame⟩ := hd
  have hfind : ∀ x, ((s.theDirEvictBuffer.setState p.transport.msg.address sharers).completeInvalidate
      p.transport.msg.address).find x = if x = p.transport.msg.address then
        some { d' with state := sharers, invalidatesPending := d'.invalidatesPending - 1 }
      else s.theDirEvictBuffer.find x := by
    intro x
    rw [DirEvictBuffer.find_completeInvalidate]
    split
    · rw [DirEvictBuffer.find_setState, if_pos rfl, hd']
      rfl
    · next hx => rw [DirEvictBuffer.find_setState, if_neg hx]
  have hbefore : ∀ {x e}, (if x = p.transport.msg.address then
        some { d' with state := sharers, invalidatesPending := d'.invalidatesPending - 1 }
      else s.theDirEvictBuffer.find x) = some e → ∃ e', s.theDirEvictBuffer.find x = some e' := by
    intro x e hx
    split at hx
    · next hxa => exact ⟨d', hxa ▸ hd'⟩
    · exact ⟨e, hx⟩
  unfold completeInvalidate at hok
  dsimp only at hok
  split at hok
  · next hzero =>
    split at hok
    · cases hok
    · simp only [Except.ok.injEq] at hok
      have hs : _ = s' := congrArg Prod.fst hok
      rw [(wakeWaitEvict_spec _ _ _).1] at hs
      rw [← hs]
      refine .of_directory rfl rfl (.buffer rfl (fun {x e} hx => ?_) (fun {x e} hx _ hkept => ?_)
        fun {x e} hx hpending => .inl ?_)
      · rw [DirEvictBuffer.find_remove, hfind] at hx
        split at hx
        · cases hx
        · exact ⟨e, hx⟩
      · have hxa : x ≠ p.transport.msg.address := by
          rintro rfl
          exact hkept (hlast (by omega))
        refine ⟨e, ?_, by assumption⟩
        rw [DirEvictBuffer.find_remove, if_neg hxa, hfind, if_neg hxa]
        exact hx
      · rw [DirEvictBuffer.find_remove, hfind] at hx
        split at hx
        · cases hx
        · exact ⟨e, hx, hpending⟩
  · next hmore =>
    cases hok
    refine .of_directory rfl rfl (.buffer rfl (fun {x e} hx => ?_) (fun {x e} hx hpending _ => ?_)
      fun {x e} hx hpending => .inl ?_)
    · rw [hfind] at hx
      exact hbefore hx
    · by_cases hxa : x = p.transport.msg.address
      · refine ⟨_, (hfind x).trans (if_pos hxa), ?_⟩
        change d'.invalidatesPending - 1 ≠ 0
        rw [hsame]
        exact hmore
      · exact ⟨e, by rw [hfind, if_neg hxa]; exact hx, hpending⟩
    · rw [hfind] at hx
      split at hx
      · next hxa =>
        cases hx
        exact ⟨d', hxa ▸ hd', by simp only at hpending; omega⟩
      · exact ⟨e, hx, hpending⟩

theorem effects_handleInvalidateAck (hsound : Sound s)
    (htype : p.transport.msg.type = .InvalidateAck ∨ p.transport.msg.type = .InvUpdateAck)
    (hok : s.handleInvalidateAck p = .ok (s', q)) : Effects (replyCauses s p) s s' := by
  unfold handleInvalidateAck at hok
  dsimp only at hok
  split at hok
  · cases hok
  · next d hd =>
    have hlast : d.invalidatesPending = 1 → (replyCauses s p).invalidated p.transport.msg.address := by
      refine fun hone => ⟨htype, rfl, fun d' hd' => ?_⟩
      rw [hd] at hd'
      cases hd'
      exact hone
    obtain ⟨sharers, _, hok⟩ := bind_eq_ok.mp hok
    split at hok
    · obtain ⟨s₁, hkeep, hok⟩ := bind_eq_ok.mp hok
      have hframe := keepDirtyData_frame hkeep
      have hbrings : s.bringsData p := by
        have hupdate : p.transport.msg.type = .InvUpdateAck := by assumption
        simp [bringsData, hupdate]
      have hkept : Effects (replyCauses s p) s s₁ :=
        effects_keepDirtyData hsound.copies (hsound.resident.buffered hd) (fun x hx => ⟨hbrings, hx⟩) hkeep
      have hbuffer : s₁.theDirEvictBuffer = s.theDirEvictBuffer := by rw [hframe]
      have hreserve : Effects (replyCauses s p) s₁ { s₁ with
          theDirEvictBuffer := s₁.theDirEvictBuffer.setCacheEBReserved p.transport.msg.address 0 } := by
        have hkeeps : KeepsPending s₁.theDirEvictBuffer
            (s₁.theDirEvictBuffer.setCacheEBReserved p.transport.msg.address 0) :=
          keepsPending_setCacheEBReserved
        refine .of_directory rfl rfl (.buffer rfl (fun hx => ?_) (fun hx hp _ => hkeeps.pending hx hp)
          fun hx hp => .inl ?_)
        · obtain ⟨d, hd, _⟩ := hkeeps.found hx
          exact ⟨d, hd⟩
        · obtain ⟨d, hd, hsame⟩ := hkeeps.found hx
          exact ⟨d, hd, hsame ▸ hp⟩
      refine hkept.trans (hreserve.trans ?_)
      refine effects_completeInvalidate ⟨{ d with cacheEBReserved := 0 }, ?_, rfl⟩ ?_ hok
      · rw [DirEvictBuffer.find_setCacheEBReserved, if_pos rfl, hbuffer, hd]
        rfl
      · exact hlast
    · exact effects_completeInvalidate ⟨d, hd, rfl⟩ hlast hok

/-- The requests that wait for an acknowledgement are recorded under block addresses. -/
theorem aligned_of_matchingMAF {t : MemoryTransport} {maf : MAFEntry}
    (horderly : Orderly cfg s.theMAF.ticket) (h : s.matchingMAF t = .ok maf) :
    cfg.blockAddress t.msg.address = t.msg.address := by
  obtain ⟨hticket, hat, _⟩ := matchingMAF_spec h
  have hplaced := horderly.placed hticket
  rw [hat.1] at hplaced
  rw [hplaced, CMPCacheInfo.blockAddress_blockAddress]

theorem effects_handleReadAck (hsound : Sound s) (horderly : Orderly cfg s.theMAF.ticket)
    (hevicts : p.transport.msg.ackRequiresData = true →
      ∀ x, s.Displaces p.transport.msg.address x → w.evicts x)
    (hok : s.handleReadAck p = .ok (s', q)) : Effects w s s' := by
  obtain ⟨maf, hmatch, hok⟩ := bind_eq_ok.mp hok
  have haligned := aligned_of_matchingMAF horderly hmatch
  obtain ⟨_, hs, _⟩ := returnReservation_spec s p maf
  have hreturn : Effects w s (s.returnReservation p maf).1 := .of_maf hs
  dsimp only at hok
  split at hok
  · cases hok
  · obtain ⟨sharers, _, hok⟩ := bind_eq_ok.mp hok
    have hentry : Effects w (s.returnReservation p maf).1 { (s.returnReservation p maf).1 with
        theDirectory := (s.returnReservation p maf).1.theDirectory.setState cfg p.transport.msg.address
          sharers } := .of_directory rfl rfl (.entry (.sharers sharers) rfl)
    have hjoined := hreturn.trans hentry
    split at hok
    · next hdata =>
      obtain ⟨s₁, hkeep, hpure⟩ := bind_eq_ok.mp hok
      obtain ⟨rfl, rfl⟩ := Prod.mk.inj (pure_eq_ok.mp hpure)
      refine hjoined.trans (effects_keepAckData (hjoined.sound hsound).copies haligned (fun x hx => ?_) hkeep)
      refine hevicts hdata x ?_
      unfold Displaces at hx ⊢
      rwa [hs] at hx
    · obtain ⟨rfl, rfl⟩ := Prod.mk.inj (pure_eq_ok.mp hok)
      exact hjoined

theorem effects_handleNASAck (hok : s.handleNASAck p = .ok (s', q)) : Effects w s s' := by
  obtain ⟨maf, _, hok⟩ := bind_eq_ok.mp hok
  obtain ⟨_, hs, _⟩ := returnReservation_spec s p maf
  dsimp only at hok
  obtain ⟨rfl, rfl⟩ := Prod.mk.inj (pure_eq_ok.mp hok)
  exact .of_maf hs

theorem effects_handleOwnershipAck (howns : w.owns p.transport.msg.address)
    (hfrees : w.frees p.transport.msg.address) (hok : handleOwnershipAck type s p = .ok (s', q)) :
    Effects w s s' := by
  obtain ⟨maf, _, hok⟩ := bind_eq_ok.mp hok
  dsimp only at hok
  split at hok
  · cases hok
  · obtain ⟨sharers, _, hok⟩ := bind_eq_ok.mp hok
    obtain ⟨rfl, rfl⟩ := Prod.mk.inj (pure_eq_ok.mp hok)
    generalize hd : s.theDirectory.setState cfg p.transport.msg.address sharers = d
    have hentry : Effects w s { s with theDirectory := d } := by
      rw [← hd]
      exact .of_directory rfl rfl (.entry (.sharers sharers) rfl)
    have hfree : Effects w { s with theDirectory := d }
        { s with theDirectory := d.setProtected cfg p.transport.msg.address false } :=
      .of_directory rfl rfl (.unprotect hfrees rfl rfl)
    obtain ⟨_, hs, _⟩ := returnReservation_spec (yieldCopy
      { s with theDirectory := d.setProtected cfg p.transport.msg.address false }
      p.transport.msg.address) p maf
    exact hentry.trans (hfree.trans ((effects_yieldCopy howns).trans (.of_maf hs)))

theorem effects_handleNASReply (hok : s.handleNASReply p = .ok (s', q)) : Effects w s s' := by
  obtain ⟨maf, _, hok⟩ := bind_eq_ok.mp hok
  dsimp only at hok
  obtain ⟨rfl, rfl⟩ := Prod.mk.inj (pure_eq_ok.mp hok)
  exact .refl s

theorem effects_handleMemoryReply (hsound : Sound s) (horderly : Orderly cfg s.theMAF.ticket)
    (hevicts : ∀ maf, s.matchingMAF p.transport = .ok maf → maf.type.isReadType = true →
      ∀ x, s.Displaces p.transport.msg.address x → w.evicts x)
    (hok : s.handleMemoryReply p = .ok (s', q)) : Effects w s s' := by
  obtain ⟨maf, hmatch, hok⟩ := bind_eq_ok.mp hok
  have haligned := aligned_of_matchingMAF horderly hmatch
  obtain ⟨_, hs, _⟩ := returnReservation_spec s p maf
  have hreturn : Effects w s (s.returnReservation p maf).1 := .of_maf hs
  dsimp only at hok
  split at hok
  · next hread =>
    obtain ⟨s₁, hkeep, hpure⟩ := bind_eq_ok.mp hok
    obtain ⟨rfl, rfl⟩ := Prod.mk.inj (pure_eq_ok.mp hpure)
    refine hreturn.trans (effects_keepMemoryData (hreturn.sound hsound).copies haligned (fun x hx => ?_) hkeep)
    refine hevicts maf hmatch hread x ?_
    unfold Displaces at hx ⊢
    rwa [hs] at hx
  · obtain ⟨rfl, rfl⟩ := Prod.mk.inj (pure_eq_ok.mp hok)
    exact hreturn

theorem effects_retryForward {maf : MAFEntry} {dir : SimpleDirectoryState}
    (hok : s.retryForward p maf dir = .ok (s', q)) : Effects w s s' := by
  unfold retryForward at hok
  dsimp only at hok
  split at hok
  · split at hok
    · cases hok
    · cases hok
      exact .of_copies rfl rfl (.same (fun _ => StdArray.state_recordAccess) fun _ => rfl)
  · split at hok
    · cases hok
      exact .of_maf rfl
    · cases hok
      exact .refl s

theorem effects_handleFwdNAck (hsound : Sound s)
    (hevicts : ∀ e, s.theCacheEvictBuffer.find p.transport.msg.address = some e → e.pending = false →
      ∀ x, s.Displaces p.transport.msg.address x → w.evicts x)
    (hok : s.handleFwdNAck p = .ok (s', q)) : Effects w s s' := by
  unfold handleFwdNAck at hok
  split at hok
  · cases hok
  · obtain ⟨maf, _, hok⟩ := bind_eq_ok.mp hok
    obtain ⟨s₁, hrecover, hok⟩ := bind_eq_ok.mp hok
    exact (effects_recoverCopy hsound.copies hevicts hrecover).trans (effects_retryForward hok)

theorem effects_handleEvictAck (hacks : w.acks p.transport.msg.address) (hok : s.handleEvictAck p = .ok (s', q)) : Effects w s s' := by
  unfold handleEvictAck at hok
  dsimp only at hok
  split at hok
  · cases hok
  · next e he =>
    split at hok
    · cases hok
    · next hpending =>
      simp only [Except.ok.injEq] at hok
      have hs : _ = s' := congrArg Prod.fst hok
      rw [(wakeWaitEvict_spec _ _ _).1] at hs
      rw [← hs]
      refine .of_copies rfl rfl (.acknowledged he (by simpa using hpending) hacks (fun _ => rfl) fun _ => ?_)
      exact CacheEvictBuffer.find_remove

/-- What a reply does to the bank. -/
theorem handleReply_effects (hsound : Sound s) (horderly : Orderly cfg s.theMAF.ticket)
    (hok : s.handleReply p = .ok (s', q)) : Effects (replyCauses s p) s s' := by
  unfold handleReply at hok
  split at hok
  · next htype => exact effects_handleInvalidateAck hsound (.inl htype) hok
  · next htype => exact effects_handleInvalidateAck hsound (.inr htype) hok
  case h_3 | h_4 | h_5 | h_6 =>
    next htype =>
    refine effects_handleReadAck hsound horderly (fun hdata x hx => ⟨?_, hx⟩) hok
    simpa [bringsData, htype] using hdata
  case h_7 => exact effects_handleNASAck hok
  case h_8 =>
    next htype => exact effects_handleOwnershipAck ⟨.inl htype, rfl⟩ ⟨.inl htype, rfl⟩ hok
  case h_9 =>
    next htype => exact effects_handleOwnershipAck ⟨.inr htype, rfl⟩ ⟨.inr htype, rfl⟩ hok
  case h_10 => exact effects_handleNASReply hok
  case h_11 | h_12 | h_13 =>
    next htype =>
    refine effects_handleMemoryReply hsound horderly (fun maf hmatch hread x hx => ⟨?_, hx⟩) hok
    simp only [bringsData, htype]
    exact ⟨maf, hmatch, hread⟩
  case h_14 =>
    next htype =>
    refine effects_handleFwdNAck hsound (fun e he hpending x hx => ⟨?_, hx⟩) hok
    simp only [bringsData, htype]
    exact ⟨e, he, hpending⟩
  case h_15 => next htype => exact effects_handleEvictAck ⟨htype, rfl⟩ hok
  case h_16 => cases hok

/-! ## The bank's own evictions, and finalizing -/

theorem effects_getCacheEvictTransport {t : MemoryTransport} (hmarks : w.marks t.msg.address)
    (h : s.getCacheEvictTransport = .ok (s', t)) : Effects w s s' := by
  obtain ⟨b, e, hfirst, rfl, _, haddress, _⟩ := getCacheEvictTransport_spec h
  obtain ⟨he, hpending, hfind⟩ := CacheEvictBuffer.find_firstNonPending hfirst
  exact .of_copies rfl rfl (.marked he hpending (haddress ▸ hmarks) (fun _ => rfl) hfind)

/-- Starting to invalidate a block that leaves the directory. -/
theorem effects_getIdleWorkTransport
    (hrecalls : ∀ d, s.theDirEvictBuffer.oldestRequiringInvalidates = some d → w.recalls d.address) :
    Effects w s s.getIdleWorkTransport.1 := by
  unfold getIdleWorkTransport
  split
  · exact .refl s
  · next d hd =>
    have hmem := List.mem_of_find?_eq_some hd
    have hready : d.invalidatesPending = 0 := by
      simpa [DirEBEntry.invalidatesRequired] using List.find?_some hd
    have hfind : s.theDirEvictBuffer.find d.address = some d :=
      Keyed.lookup_of_mem s.theDirEvictBuffer.unique hmem
    refine .of_directory rfl rfl (.buffer rfl (fun {x e} hx => ?_) (fun {x e} hx hpending _ => ?_)
      fun {x e} hx hpending => ?_)
    · rw [DirEvictBuffer.find_setCacheEBReserved] at hx
      split at hx
      · next hxd => exact ⟨d, hxd ▸ hfind⟩
      · next hxd =>
        rw [DirEvictBuffer.find_setInvalidatesPending, if_neg hxd] at hx
        exact ⟨e, hx⟩
    · have hxd : x ≠ d.address := by
        rintro rfl
        rw [hfind] at hx
        cases hx
        exact hpending hready
      refine ⟨e, ?_, hpending⟩
      rw [DirEvictBuffer.find_setCacheEBReserved, if_neg hxd,
        DirEvictBuffer.find_setInvalidatesPending, if_neg hxd]
      exact hx
    · by_cases hxd : x = d.address
      · exact .inr (hxd ▸ hrecalls d hd)
      · rw [DirEvictBuffer.find_setCacheEBReserved, if_neg hxd,
          DirEvictBuffer.find_setInvalidatesPending, if_neg hxd] at hx
        exact .inl ⟨e, hx, hpending⟩

theorem effects_handleIdleWork (hmarks : ∀ x, w.marks x) (hok : s.handleIdleWork p = .ok (s', q)) : Effects w s s' := by
  rcases handleIdleWork_spec hok with ⟨rfl, _⟩ | ⟨t, hevict, _⟩
  · exact .refl _
  · exact effects_getCacheEvictTransport (hmarks _) hevict

/-- A block is free again when the process that is finalized removes its last request. -/
def finalCauses (s : Policy cfg) (q : ProcessEntry) : Causes where
  frees x := x = q.transport.msg.address ∧
    ∃ i, q.maf = some i ∧ (q.action = .eRemoveAndWakeMAF ∨ q.action = .eReplyAndRemoveMAF) ∧
      ∀ j u, j ≠ i → s.theMAF.ticket j = some u → ¬ u.At x .eWaitAck

theorem Finalized.effects (h : Finalized s q s') : Effects (finalCauses s q) s s' := by
  cases h with
  | woke _ _ _ hs _ _ => exact .of_maf hs
  | @removed i u haction hmaf _ hs =>
    rw [hs]
    rcases wakeMAFs_spec { s with theMAF := s.theMAF.remove i } q.transport.msg.address with
      ⟨_, hsame⟩ | ⟨hnone, hwoke, _⟩
    · rw [hsame]
      exact .of_maf rfl
    · rw [hwoke]
      refine .of_directory rfl rfl (.unprotect ⟨rfl, i, hmaf, haction, fun j v hj hv => ?_⟩ rfl rfl)
      refine hnone j v ?_
      rw [MissAddressFile.ticket_remove, if_neg hj]
      exact hv
  | dropped _ _ hs =>
    rw [hs]
    exact .of_maf rfl
  | nothing hs =>
    rw [hs]
    exact .refl s

theorem sound_create (cfg : CMPCacheInfo) : Sound (create cfg) := by
  refine ⟨⟨fun _ => rfl, fun x => ?_, fun h => by cases h⟩,
    ⟨StdDirectory.wellPlaced_create cfg, fun h => (by cases h), fun _ => rfl⟩⟩
  have hinvalid : (create cfg).theCache.state x = .Invalid := StdArray.state_eq_invalid fun _ _ => rfl
  rw [hinvalid]
  rfl

end Policy

namespace Controller

variable {cfg : CMPCacheInfo} {c c' : Controller cfg} {s s' : Policy cfg} {p q : ProcessEntry}
  {reserve : Int} {e : Event} {k k' : Core cfg} {final : Option ProcessEntry}

/-- The causes of running the handler of a process. -/
def causes (s : Policy cfg) (p : ProcessEntry) : Policy.Causes :=
  match p.type with
  | .eProcWakeMAF => s.requestCauses (withEntryTransport s p)
  | .eProcRequest => s.requestCauses p
  | .eProcReply => s.replyCauses p
  | .eProcIdleWork => { marks := fun _ => True }
  | _ => {}

theorem dropRedundant_effects {w : Policy.Causes} (hok : dropRedundant s p = .ok (s', q)) :
    Policy.Effects w s s' := by
  unfold dropRedundant at hok
  split at hok
  · obtain ⟨e, _, hpure⟩ := bind_eq_ok.mp hok
    obtain ⟨rfl, rfl⟩ := Prod.mk.inj (pure_eq_ok.mp hpure)
    exact .of_maf rfl
  · obtain ⟨rfl, rfl⟩ := Prod.mk.inj (pure_eq_ok.mp hok)
    exact .refl _

theorem handle_effects (hfresh : Fresh p) (hsound : s.Sound) (horderly : Orderly cfg s.theMAF.ticket)
    (hok : handle reserve s p = .ok (s', q)) : Policy.Effects (causes s p) s s' := by
  unfold handle at hok
  split at hok
  · next htype =>
    obtain ⟨⟨s₁, p₁⟩, hwake, hdrop⟩ := bind_eq_ok.mp hok
    have hreserved : 0 < (withEntryTransport s p).cacheEBReserved := by
      have hone := hfresh.reserved (.inl htype)
      unfold withEntryTransport
      split
      · simp [hone]
      · simp [hone]
    simp only [causes, htype]
    exact (Policy.doRequest_effects hsound hreserved hwake).trans (dropRedundant_effects hdrop)
  · next htype =>
    simp only [causes, htype]
    exact Policy.doRequest_effects hsound (by simp [hfresh.reserved (.inr htype)]) hok
  · next htype =>
    simp only [causes, htype]
    exact Policy.handleReply_effects hsound horderly hok
  · next htype =>
    simp only [causes, htype]
    exact Policy.effects_handleIdleWork (fun _ => trivial) hok
  · cases hok

theorem Starts.effects {w : Policy.Causes} (hmarks : e = .cacheEvict → ∀ x, w.marks x)
    (hrecalls : e = .dirEvict ∨ e = .idleWork →
      ∀ d, s.theDirEvictBuffer.oldestRequiringInvalidates = some d → w.recalls d.address)
    (h : Starts s e s' p) : Policy.Effects w s s' := by
  cases h with
  | wakeMAF _ _ _ => exact .of_maf rfl
  | cacheEvict hevict _ => exact Policy.effects_getCacheEvictTransport (hmarks rfl _) hevict
  | dirEvict _ => exact Policy.effects_getIdleWorkTransport (hrecalls (.inl rfl))
  | reply _ => exact .refl s
  | snoop _ => exact .refl s
  | request _ _ => exact .refl s
  | idleWork _ => exact Policy.effects_getIdleWorkTransport (hrecalls (.inr rfl))

/-- Every move of the controller keeps the copies and the directory in order. -/
theorem moves_sound (hfresh : ∀ p ∈ k.waiting, Fresh p) (horderly : Orderly cfg k.policy.theMAF.ticket)
    (hsound : k.policy.Sound) (hmoves : Moves reserve final k e k') : k'.policy.Sound := by
  cases hmoves with
  | idle => exact hsound
  | start hstarts =>
    have heffects : Policy.Effects { marks := fun _ => True, recalls := fun _ => True } k.policy _ :=
      hstarts.effects (fun _ _ => trivial) fun _ _ _ => trivial
    exact heffects.sound hsound
  | handled hwaiting hhandle =>
    have hp := hfresh _ (hwaiting ▸ List.mem_cons_self)
    exact (handle_effects hp hsound horderly hhandle).sound hsound
  | evicted _ _ => exact hsound
  | finalized _ _ hmaf => exact (Policy.finalizeMAF_finalized hmaf).effects.sound hsound
  | taken => exact hsound

theorem sound_of_reachable (hreach : Reachable c) : c.thePolicy.Sound := by
  have hboth : Orderly cfg c.core.policy.theMAF.ticket ∧ c.core.policy.Sound := by
    refine hreach.invariant (I := fun k => Orderly cfg k.policy.theMAF.ticket ∧ k.policy.Sound) ?_ ?_
    · exact ⟨orderly_of_reachable .start, Policy.sound_create cfg⟩
    · rintro reserve final k e k' hfresh ⟨horderly, hsound⟩ hmoves
      exact ⟨moves_orderly hfresh horderly hmoves, moves_sound hfresh horderly hsound hmoves⟩
  exact hboth.2

end Controller

end nCMPCache
