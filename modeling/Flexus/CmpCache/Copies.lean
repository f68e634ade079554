import Flexus.CmpCache.Exclusion

/-!
# The bank's own copies

The bank holds a block in its array or in its evict buffer, never in both.
-/

namespace nCMPCache

open Runs

/-- The states a copy of the bank can be in. -/
def CacheState.plain : CacheState → Bool
  | .Modified | .Exclusive | .Shared | .Invalid => true
  | _ => false

namespace Policy

variable {cfg : CMPCacheInfo} {s s' : Policy cfg} {p q : ProcessEntry} {hasMaf mafWaiting : Bool}
  {a : MemoryAddress} {reserve : Int} {cst vstate : CacheState} {vtag : MemoryAddress}

/-- No block is in the array and in the evict buffer at once, and the blocks of the evict
    buffer are block addresses with a copy that may be written back. -/
structure Copies (s : Policy cfg) : Prop where
  apart : ∀ {x}, s.theCache.state x ≠ .Invalid → s.theCacheEvictBuffer.find (cfg.blockAddress x) = none
  plain : ∀ x, (s.theCache.state x).plain = true
  kept : ∀ {x e}, s.theCacheEvictBuffer.find x = some e → cfg.blockAddress x = x ∧
    e.state.plain = true ∧ e.state ≠ .Invalid ∧ e.type.isEvictType = true ∧
    (cfg.theEvictClean = false → e.state = .Modified)

/-- The victim leaves for the evict buffer, rather than being dropped. -/
def keepsVictim (cfg : CMPCacheInfo) (vstate : CacheState) : Prop :=
  vstate ≠ .Invalid ∧ (cfg.theEvictClean = true ∨ evictType vstate = .EvictDirty)

instance (vstate : CacheState) : Decidable (keepsVictim cfg vstate) :=
  inferInstanceAs (Decidable (_ ∧ _))

/-- A block that is not in the array is put there in the given state. Its way may have held
    a victim, and its entry in the evict buffer is gone. -/
structure Filled (s : Policy cfg) (a : MemoryAddress) (cst : CacheState) (vtag : MemoryAddress)
    (vstate : CacheState) (s' : Policy cfg) : Prop where
  invalid : s.theCache.state a = .Invalid
  victim : vstate ≠ .Invalid → s.theCache.state vtag = vstate ∧ cfg.blockAddress vtag = vtag ∧
    vtag ≠ cfg.blockAddress a
  array : ∀ x, s'.theCache.state x =
    if cfg.blockAddress x = cfg.blockAddress a then cst
    else if vstate ≠ .Invalid ∧ cfg.blockAddress x = vtag then .Invalid else s.theCache.state x
  buffer : ∀ x, s'.theCacheEvictBuffer.find x =
    if keepsVictim cfg vstate ∧ x = vtag then
      some { address := vtag, type := evictType vstate, state := vstate }
    else if x = cfg.blockAddress a then none else s.theCacheEvictBuffer.find x

/-- The blocks a message is about: data of a core's eviction is stored, a core has become
    the owner, the last request is complete, all cores have invalidated their copies, their
    copies are called back, a write-back is handed out, memory has acknowledged it, another
    block takes the place in the array. -/
structure Causes where
  stores : MemoryAddress → Prop := fun _ => False
  owns : MemoryAddress → Prop := fun _ => False
  frees : MemoryAddress → Prop := fun _ => False
  invalidated : MemoryAddress → Prop := fun _ => False
  recalls : MemoryAddress → Prop := fun _ => False
  marks : MemoryAddress → Prop := fun _ => False
  acks : MemoryAddress → Prop := fun _ => False
  evicts : MemoryAddress → Prop := fun _ => False

/-- Making room in the array for a block sends another one to the evict buffer. -/
def Displaces (s : Policy cfg) (a x : MemoryAddress) : Prop :=
  s.theCache.state a = .Invalid ∧
    ∃ cache vstate, s.theCache.allocate a = .ok (cache, x, vstate) ∧ keepsVictim cfg vstate

/-- What happens to the copies of the bank, and the causes this has to have. -/
inductive CopyMove (w : Causes) (s s' : Policy cfg) : Prop
  | same : (∀ x, s'.theCache.state x = s.theCache.state x) →
      (∀ x, s'.theCacheEvictBuffer.find x = s.theCacheEvictBuffer.find x) → CopyMove w s s'
  | changed {a : MemoryAddress} {cst : CacheState} : s.theCache.state a ≠ .Invalid →
      cst.plain = true →
      (∀ x, s'.theCache.state x =
        if cfg.blockAddress x = cfg.blockAddress a then cst else s.theCache.state x) →
      (∀ x, s'.theCacheEvictBuffer.find x = s.theCacheEvictBuffer.find x) → CopyMove w s s'
  | filled {a vtag : MemoryAddress} {cst vstate : CacheState} : Filled s a cst vtag vstate s' →
      cst.plain = true → (∀ e, s.theCacheEvictBuffer.find (cfg.blockAddress a) = some e →
        e.pending = false ∨ w.stores (cfg.blockAddress a)) →
      (keepsVictim cfg vstate → w.evicts vtag) → CopyMove w s s'
  | yielded {a : MemoryAddress} {e : EvictEntry} : s.theCacheEvictBuffer.find a = some e →
      w.owns a → (∀ x, s'.theCache.state x = s.theCache.state x) →
      (∀ x, s'.theCacheEvictBuffer.find x = if x = a then
        (if cfg.theEvictClean then some { e with state := .Exclusive, type := .EvictClean } else none)
        else s.theCacheEvictBuffer.find x) → CopyMove w s s'
  | marked {e : EvictEntry} : s.theCacheEvictBuffer.find e.address = some e → e.pending = false →
      w.marks e.address → (∀ x, s'.theCache.state x = s.theCache.state x) →
      (∀ x, s'.theCacheEvictBuffer.find x =
        if x = e.address then some { e with pending := true } else s.theCacheEvictBuffer.find x) →
      CopyMove w s s'
  | acknowledged {a : MemoryAddress} {e : EvictEntry} : s.theCacheEvictBuffer.find a = some e →
      e.pending = true → w.acks a → (∀ x, s'.theCache.state x = s.theCache.state x) →
      (∀ x, s'.theCacheEvictBuffer.find x =
        if x = a then none else s.theCacheEvictBuffer.find x) → CopyMove w s s'

/-! ## The invariant -/

theorem evictType_isEvictType (cst : CacheState) : (evictType cst).isEvictType = true := by
  cases cst <;> rfl

theorem eq_modified_of_evictType (hplain : cst.plain = true) (hdirty : evictType cst = .EvictDirty) :
    cst = .Modified := by
  cases cst <;> simp_all [CacheState.plain, evictType]

theorem Filled.copies (hcopies : Copies s) (h : Filled s a cst vtag vstate s') (hplain : cst.plain = true) :
    Copies s' := by
  have hvplain : keepsVictim cfg vstate → vstate.plain = true := by
    intro hkeeps
    rw [← (h.victim hkeeps.1).1]
    exact hcopies.plain vtag
  refine ⟨fun {x} hx => ?_, fun x => ?_, fun {x e} hx => ?_⟩
  · rw [h.array] at hx
    rw [h.buffer]
    by_cases hxa : cfg.blockAddress x = cfg.blockAddress a
    · rw [if_neg, if_pos hxa]
      rintro ⟨hkeeps, hxv⟩
      exact (h.victim hkeeps.1).2.2 (hxv.symm.trans hxa)
    · rw [if_neg hxa] at hx
      split at hx
      · exact absurd rfl hx
      · next hxv =>
        rw [if_neg (fun hkeeps => hxv ⟨hkeeps.1.1, hkeeps.2⟩), if_neg hxa]
        exact hcopies.apart hx
  · rw [h.array]
    split
    · exact hplain
    · split
      · rfl
      · exact hcopies.plain x
  · rw [h.buffer] at hx
    split at hx
    · next hkeeps =>
      cases hx
      obtain ⟨⟨hvalid, hclean⟩, rfl⟩ := hkeeps
      refine ⟨(h.victim hvalid).2.1, hvplain ⟨hvalid, hclean⟩, hvalid, evictType_isEvictType _, ?_⟩
      intro hno
      rcases hclean with hyes | hdirty
      · rw [hno] at hyes
        cases hyes
      · exact eq_modified_of_evictType (hvplain ⟨hvalid, .inr hdirty⟩) hdirty
    · split at hx
      · cases hx
      · exact hcopies.kept hx

theorem Filled.congr {s₁ : Policy cfg} (h : Filled s a cst vtag vstate s₁)
    (hcache : s'.theCache = s₁.theCache) (hbuffer : s'.theCacheEvictBuffer = s₁.theCacheEvictBuffer) :
    Filled s a cst vtag vstate s' :=
  ⟨h.invalid, h.victim, fun x => hcache ▸ h.array x, fun x => hbuffer ▸ h.buffer x⟩

theorem CopyMove.copies {w : Causes} (hcopies : Copies s)
    (h : CopyMove w s s') : Copies s' := by
  cases h with
  | same harray hbuffer =>
    refine ⟨fun {x} hx => ?_, fun x => ?_, fun {x e} hx => ?_⟩
    · rw [harray] at hx
      rw [hbuffer]
      exact hcopies.apart hx
    · rw [harray]
      exact hcopies.plain x
    · rw [hbuffer] at hx
      exact hcopies.kept hx
  | @changed b c hvalid hplain harray hbuffer =>
    refine ⟨fun {x} hx => ?_, fun x => ?_, fun {x e} hx => ?_⟩
    · rw [hbuffer]
      rw [harray] at hx
      split at hx
      · next hxb =>
        rw [hxb]
        exact hcopies.apart hvalid
      · exact hcopies.apart hx
    · rw [harray]
      split
      · exact hplain
      · exact hcopies.plain x
    · rw [hbuffer] at hx
      exact hcopies.kept hx
  | filled hfilled hplain _ _ => exact hfilled.copies hcopies hplain
  | @yielded b e he _ harray hbuffer =>
    obtain ⟨haligned, _⟩ := hcopies.kept he
    refine ⟨fun {x} hx => ?_, fun x => ?_, fun {x e'} hx => ?_⟩
    · rw [harray] at hx
      have hnone := hcopies.apart hx
      rw [hbuffer, if_neg]
      · exact hnone
      · rintro rfl
        rw [he] at hnone
        cases hnone
    · rw [harray]
      exact hcopies.plain x
    · rw [hbuffer] at hx
      split at hx
      · next hxb =>
        split at hx
        · next hclean =>
          cases hx
          exact ⟨hxb ▸ haligned, rfl, by simp, rfl, by simp [hclean]⟩
        · cases hx
      · exact hcopies.kept hx
  | @marked e he _ _ harray hbuffer =>
    refine ⟨fun {x} hx => ?_, fun x => ?_, fun {x e'} hx => ?_⟩
    · rw [harray] at hx
      have hnone := hcopies.apart hx
      rw [hbuffer, if_neg]
      · exact hnone
      · intro hxe
        rw [hxe, he] at hnone
        cases hnone
    · rw [harray]
      exact hcopies.plain x
    · rw [hbuffer] at hx
      split at hx
      · next hxe =>
        cases hx
        have hkept := hcopies.kept he
        exact hxe ▸ hkept
      · exact hcopies.kept hx
  | @acknowledged b e he _ _ harray hbuffer =>
    refine ⟨fun {x} hx => ?_, fun x => ?_, fun {x e'} hx => ?_⟩
    · rw [harray] at hx
      rw [hbuffer]
      split
      · rfl
      · exact hcopies.apart hx
    · rw [harray]
      exact hcopies.plain x
    · rw [hbuffer] at hx
      split at hx
      · cases hx
      · exact hcopies.kept hx

/-! ## Moves of the handlers -/

/-- A victim that is not in the evict buffer gets an entry of its own. -/
theorem find_evictCacheBlock (hnone : vstate ≠ .Invalid → s.theCacheEvictBuffer.find vtag = none)
    (x : MemoryAddress) :
    (s.evictCacheBlock vtag vstate).theCacheEvictBuffer.find x =
      if keepsVictim cfg vstate ∧ x = vtag then
        some { address := vtag, type := evictType vstate, state := vstate }
      else s.theCacheEvictBuffer.find x := by
  unfold evictCacheBlock
  split
  · next hinvalid => rw [if_neg (fun h => h.1.1 hinvalid)]
  · next hvalid =>
    have hiff : (cfg.theEvictClean || evictType vstate == .EvictDirty) = true ↔ keepsVictim cfg vstate := by
      simp [keepsVictim, hvalid]
    split
    · next hkeeps =>
      rw [CacheEvictBuffer.find_allocEntry, hnone hvalid]
      by_cases hx : x = vtag
      · rw [if_pos hx, if_pos ⟨hiff.mp hkeeps, hx⟩]
        rfl
      · rw [if_neg hx, if_neg fun h => hx h.2]
    · next hkeeps => rw [if_neg fun h => hkeeps (hiff.mpr h.1)]

/-- Evicting a victim does not look at the array. -/
theorem evictCacheBlock_cache {cache : StdArray cfg} :
    ({ s with theCache := cache }.evictCacheBlock vtag vstate).theCacheEvictBuffer =
      (s.evictCacheBlock vtag vstate).theCacheEvictBuffer := by
  unfold evictCacheBlock
  split
  · rfl
  · split <;> rfl

/-- Room was made for a block, its old entry in the evict buffer is gone, and the victim
    was evicted. -/
theorem filled_of_allocate {cache : StdArray cfg} {b : CacheEvictBuffer} (hcopies : Copies s)
    (hinvalid : s.theCache.state a = .Invalid) (hallocate : s.theCache.allocate a = .ok (cache, vtag, vstate))
    (hb : ∀ x, b.find x = if x = cfg.blockAddress a then none else s.theCacheEvictBuffer.find x)
    (hcache : ∀ x, s'.theCache.state x = (cache.setState a cst).state x)
    (hbuffer : s'.theCacheEvictBuffer =
      ({ s with theCacheEvictBuffer := b }.evictCacheBlock vtag vstate).theCacheEvictBuffer) :
    Filled s a cst vtag vstate s' := by
  obtain ⟨hway, _, hvictim, hothers⟩ := StdArray.allocate_spec hinvalid hallocate
  have hleft : vstate ≠ .Invalid → s.theCache.state vtag = vstate ∧ cfg.blockAddress vtag = vtag ∧
      vtag ≠ cfg.blockAddress a :=
    fun hvalid => ⟨(hvictim hvalid).1, (hvictim hvalid).2.1, (hvictim hvalid).2.2.1⟩
  refine ⟨hinvalid, hleft, fun x => ?_, fun x => ?_⟩
  · rw [hcache, StdArray.state_setState hway]
    split
    · rfl
    · split
      · next hx =>
        obtain ⟨hvalid, hxv⟩ := hx
        have hsame : cfg.blockAddress x = cfg.blockAddress vtag := hxv.trans (hleft hvalid).2.1.symm
        rw [StdArray.state_eq_of_blockAddress_eq hsame]
        exact (hvictim hvalid).2.2.2
      · next hx =>
        refine hothers x ?_
        by_cases hvalid : vstate = .Invalid
        · exact .inl hvalid
        · exact .inr fun hxv => hx ⟨hvalid, hxv⟩
  · have hnone : vstate ≠ .Invalid → b.find vtag = none := by
      intro hvalid
      obtain ⟨hstate, haligned, hne⟩ := hleft hvalid
      rw [hb, if_neg hne]
      have hapart := hcopies.apart (x := vtag) (by rw [hstate]; exact hvalid)
      rwa [haligned] at hapart
    rw [hbuffer, find_evictCacheBlock (s := { s with theCacheEvictBuffer := b }) hnone, hb]

theorem filled_recoverBlock {e : EvictEntry} (hcopies : Copies s) (hinvalid : s.theCache.state a = .Invalid)
    (he : s.theCacheEvictBuffer.find a = some e) (hok : s.recoverBlock a e = .ok s') :
    ∃ cache vtag vstate, s.theCache.allocate a = .ok (cache, vtag, vstate) ∧
      Filled s a e.state vtag vstate s' := by
  obtain ⟨⟨cache, vtag, vstate⟩, hallocate, hpure⟩ := bind_eq_ok.mp hok
  obtain rfl := pure_eq_ok.mp hpure
  have haligned := (hcopies.kept he).1
  refine ⟨cache, vtag, vstate, hallocate, filled_of_allocate (b := s.theCacheEvictBuffer.remove a) hcopies hinvalid
    hallocate (fun x => ?_) (fun x => ?_) ?_⟩
  · rw [haligned]
    exact CacheEvictBuffer.find_remove
  · rw [evictCacheBlock_frame]
  · exact evictCacheBlock_cache (s := { s with theCacheEvictBuffer := s.theCacheEvictBuffer.remove a })

theorem filled_fillFromEvict {req : MemoryMessage} (hcopies : Copies s)
    (hinvalid : s.theCache.state req.address = .Invalid) (hok : s.fillFromEvict req = .ok s') :
    ∃ cache vtag vstate, s.theCache.allocate req.address = .ok (cache, vtag, vstate) ∧
      Filled s req.address
        (if req.type = MemoryMessageType.EvictDirty then CacheState.Modified else .Exclusive) vtag vstate s' := by
  obtain ⟨⟨cache, vtag, vstate⟩, hallocate, hpure⟩ := bind_eq_ok.mp hok
  obtain rfl := pure_eq_ok.mp hpure
  refine ⟨cache, vtag, vstate, hallocate, filled_of_allocate
    (b := s.theCacheEvictBuffer.remove (cfg.blockAddress req.address)) hcopies hinvalid hallocate
    (fun x => CacheEvictBuffer.find_remove) (fun x => ?_) ?_⟩
  · rw [evictCacheBlock_frame]
  · exact evictCacheBlock_cache
      (s := { s with theCacheEvictBuffer := s.theCacheEvictBuffer.remove (cfg.blockAddress req.address) })

/-- Room is made for data that arrives for a block, which then gets its state. -/
theorem copyMove_makeRoom {w : Causes} {s₁ : Policy cfg} (hcopies : Copies s)
    (haligned : cfg.blockAddress a = a) (hplain : cst.plain = true)
    (hevicts : ∀ x, s.Displaces a x → w.evicts x) (hroom : s.makeRoom a = .ok s₁) :
    CopyMove w s { s₁ with theCache := s₁.theCache.setState a cst } := by
  unfold makeRoom at hroom
  split at hroom
  · next hinvalid =>
    split at hroom
    · cases hroom
    · next hnone =>
      rw [Bool.not_eq_true, Option.isSome_eq_false_iff, Option.isNone_iff_eq_none] at hnone
      obtain ⟨⟨cache, vtag, vstate⟩, hallocate, hpure⟩ := bind_eq_ok.mp hroom
      obtain rfl := pure_eq_ok.mp hpure
      refine .filled (filled_of_allocate (b := s.theCacheEvictBuffer) hcopies hinvalid hallocate
        (fun x => ?_) (fun x => ?_) evictCacheBlock_cache) hplain ?_
        fun hkeeps => hevicts vtag ⟨hinvalid, cache, vstate, hallocate, hkeeps⟩
      · split
        · next hx => rw [hx, haligned, hnone]
        · rfl
      · rw [evictCacheBlock_frame]
      · rw [haligned, hnone]
        simp
  · next hvalid =>
    cases hroom
    refine .changed hvalid hplain (fun x => ?_) fun x => rfl
    exact StdArray.state_setState (StdArray.way_isSome_of_state hvalid)

/-- The bank's copy of a block is one copy in the sense of the array. -/
theorem copyMove_oneCopy {w : Causes} (h : OneCopy a s.theCache s'.theCache)
    (hbuffer : s'.theCacheEvictBuffer = s.theCacheEvictBuffer) : CopyMove w s s' := by
  by_cases hsame : s'.theCache.state a = s.theCache.state a
  · refine .same (fun x => ?_) fun x => by rw [hbuffer]
    rcases h x with hx | ⟨hxa, _⟩
    · exact hx
    · rw [StdArray.state_eq_of_blockAddress_eq hxa, hsame, StdArray.state_eq_of_blockAddress_eq hxa]
  · have hthis := (h a).resolve_left hsame
    have hplain : (s'.theCache.state a).plain = true := by
      rcases hthis.2.2 with hst | hst
      · rw [hst]
        rfl
      · rw [hst]
        rfl
    refine .changed hthis.2.1 hplain (fun x => ?_) fun x => by rw [hbuffer]
    split
    · next hxa => exact StdArray.state_eq_of_blockAddress_eq hxa
    · next hxa =>
      rcases h x with hx | ⟨hxa', _⟩
      · exact hx
      · exact absurd hxa' hxa

end Policy

end nCMPCache
