import Flexus.CmpCache.Message

/-!
# The cache array and the cache evict buffer

The blocks the bank itself holds. A block that loses its way in the array may go
to the evict buffer, from where it is written back to memory.
-/

namespace nCMPCache

inductive CacheState where
  | Modified | Owned | Exclusive | Shared | Invalid | InvalidPresent | Forward
  deriving DecidableEq, Repr

/-- A way of the array. Assigning a state leaves the protected and locked flags
    alone. -/
structure Block where
  tag : MemoryAddress
  state : CacheState
  isProtected : Bool := false
  isLocked : Bool := false
  deriving DecidableEq, Repr

def Block.valid (b : Block) : Bool := b.state != .Invalid

@[simp]
theorem Block.valid_iff {b : Block} : b.valid = true ↔ b.state ≠ .Invalid := by simp [Block.valid]

/-- The array, by set and way, with the ways of each set from most to least
    recently used. A valid way holds a block of its own set, and no block is valid
    in two ways. -/
structure StdArray (cfg : CMPCacheInfo) where
  theBlocks : Nat → Nat → Block
  theMRUOrder : Nat → List Nat
  valid_at : ∀ i w, (theBlocks i w).state ≠ .Invalid → w < cfg.theCacheAssociativity ∧
    cfg.makeCacheSet (theBlocks i w).tag = i ∧
    cfg.blockAddress (theBlocks i w).tag = (theBlocks i w).tag
  valid_unique : ∀ i w v, (theBlocks i w).state ≠ .Invalid → (theBlocks i v).state ≠ .Invalid →
    (theBlocks i w).tag = (theBlocks i v).tag → w = v
  mru_perm : ∀ i, (theMRUOrder i).Perm (List.range cfg.theCacheAssociativity)

namespace StdArray

variable {cfg : CMPCacheInfo}

def create (cfg : CMPCacheInfo) : StdArray cfg where
  theBlocks := fun _ _ => { tag := 0, state := .Invalid }
  theMRUOrder := fun _ => List.range cfg.theCacheAssociativity
  valid_at := fun _ _ h => absurd rfl h
  valid_unique := fun _ _ _ h => absurd rfl h
  mru_perm := fun _ => List.Perm.refl _

variable (cfg) in
def makeSet (a : MemoryAddress) : Nat := cfg.makeCacheSet (cfg.blockAddress a)

/-- The way in which the block is valid. -/
def hitWay (arr : StdArray cfg) (a : MemoryAddress) : Option Nat :=
  (List.range cfg.theCacheAssociativity).find? fun w =>
    (arr.theBlocks (makeSet cfg a) w).tag == cfg.blockAddress a &&
      (arr.theBlocks (makeSet cfg a) w).valid

/-- The way a lookup points to: where the block is valid, else the last way that
    still has its tag. -/
def way (arr : StdArray cfg) (a : MemoryAddress) : Option Nat :=
  match arr.hitWay a with
  | some w => some w
  | none =>
    (List.range cfg.theCacheAssociativity).reverse.find? fun w =>
      (arr.theBlocks (makeSet cfg a) w).tag == cfg.blockAddress a

/-- The state a lookup reports. -/
def state (arr : StdArray cfg) (a : MemoryAddress) : CacheState :=
  match arr.hitWay a with
  | some w => (arr.theBlocks (makeSet cfg a) w).state
  | none => .Invalid

theorem hitWay_spec {arr : StdArray cfg} {a : MemoryAddress} {w : Nat} (h : arr.hitWay a = some w) :
    w < cfg.theCacheAssociativity ∧
      (arr.theBlocks (makeSet cfg a) w).tag = cfg.blockAddress a ∧
      (arr.theBlocks (makeSet cfg a) w).state ≠ .Invalid := by
  have hmem := List.mem_of_find?_eq_some h
  have htest := List.find?_some h
  simp only [Bool.and_eq_true, beq_iff_eq, Block.valid_iff] at htest
  exact ⟨List.mem_range.mp hmem, htest⟩

theorem hitWay_eq_none {arr : StdArray cfg} {a : MemoryAddress} (h : arr.hitWay a = none) {w : Nat}
    (htag : (arr.theBlocks (makeSet cfg a) w).tag = cfg.blockAddress a) :
    (arr.theBlocks (makeSet cfg a) w).state = .Invalid := by
  by_contra hvalid
  have hw := (arr.valid_at _ _ hvalid).1
  have hno := List.find?_eq_none.mp h w (List.mem_range.mpr hw)
  simp [htag, hvalid] at hno

theorem hitWay_of_valid {arr : StdArray cfg} {a : MemoryAddress} {w : Nat}
    (htag : (arr.theBlocks (makeSet cfg a) w).tag = cfg.blockAddress a)
    (hvalid : (arr.theBlocks (makeSet cfg a) w).state ≠ .Invalid) : arr.hitWay a = some w := by
  cases hhit : arr.hitWay a with
  | none => exact absurd (hitWay_eq_none hhit htag) hvalid
  | some v =>
    obtain ⟨_, hvtag, hv⟩ := hitWay_spec hhit
    rw [arr.valid_unique _ v w hv hvalid (hvtag.trans htag.symm)]

theorem way_spec {arr : StdArray cfg} {a : MemoryAddress} {w : Nat} (h : arr.way a = some w) :
    w < cfg.theCacheAssociativity ∧
      (arr.theBlocks (makeSet cfg a) w).tag = cfg.blockAddress a ∧
      ∀ v, (arr.theBlocks (makeSet cfg a) v).tag = cfg.blockAddress a →
        (arr.theBlocks (makeSet cfg a) v).state ≠ .Invalid → v = w := by
  unfold way at h
  split at h
  · next v hhit =>
    obtain rfl := Option.some.inj h
    obtain ⟨hlt, htag, hvalid⟩ := hitWay_spec hhit
    refine ⟨hlt, htag, fun u hutag hu => ?_⟩
    exact arr.valid_unique _ u v hu hvalid (hutag.trans htag.symm)
  · next hhit =>
    have hmem := List.mem_of_find?_eq_some h
    rw [List.mem_reverse, List.mem_range] at hmem
    refine ⟨hmem, by simpa using List.find?_some h, fun v hvtag hv => ?_⟩
    exact absurd (hitWay_eq_none hhit hvtag) hv

/-- The state of a block is what some way says, and invalid when no way holds it. -/
theorem state_of_valid (arr : StdArray cfg) {a : MemoryAddress} {w : Nat}
    (htag : (arr.theBlocks (makeSet cfg a) w).tag = cfg.blockAddress a)
    (hvalid : (arr.theBlocks (makeSet cfg a) w).state ≠ .Invalid) :
    arr.state a = (arr.theBlocks (makeSet cfg a) w).state := by
  simp only [state, hitWay_of_valid htag hvalid]

theorem exists_way_of_state {arr : StdArray cfg} {a : MemoryAddress} (h : arr.state a ≠ .Invalid) :
    ∃ w, arr.hitWay a = some w ∧ (arr.theBlocks (makeSet cfg a) w).tag = cfg.blockAddress a ∧
      (arr.theBlocks (makeSet cfg a) w).state = arr.state a := by
  cases hhit : arr.hitWay a with
  | none => simp [state, hhit] at h
  | some w => exact ⟨w, rfl, (hitWay_spec hhit).2.1, by simp [state, hhit]⟩

/-- Replace one way, keeping the array well formed. -/
def update (arr : StdArray cfg) (i w : Nat) (b : Block)
    (hat : b.state ≠ .Invalid → w < cfg.theCacheAssociativity ∧ cfg.makeCacheSet b.tag = i ∧
      cfg.blockAddress b.tag = b.tag)
    (huniq : b.state ≠ .Invalid → ∀ v, (arr.theBlocks i v).state ≠ .Invalid →
      (arr.theBlocks i v).tag = b.tag → v = w) : StdArray cfg where
  theBlocks := fun j v => if j = i ∧ v = w then b else arr.theBlocks j v
  theMRUOrder := arr.theMRUOrder
  valid_at := by
    intro j v hvalid
    by_cases h : j = i ∧ v = w
    · obtain ⟨rfl, rfl⟩ := h
      simp only [and_self, if_true] at hvalid ⊢
      exact hat hvalid
    · simp only [if_neg h] at hvalid ⊢
      exact arr.valid_at j v hvalid
  valid_unique := by
    intro j v u hv hu htag
    by_cases hvw : j = i ∧ v = w <;> by_cases huw : j = i ∧ u = w
    · rw [hvw.2, huw.2]
    · simp only [if_pos hvw, if_neg huw] at hv hu htag
      rw [hvw.2, huniq hv u (hvw.1 ▸ hu) (hvw.1 ▸ htag.symm)]
    · simp only [if_neg hvw, if_pos huw] at hv hu htag
      rw [huw.2, huniq hu v (huw.1 ▸ hv) (huw.1 ▸ htag)]
    · simp only [if_neg hvw, if_neg huw] at hv hu htag
      exact arr.valid_unique j v u hv hu htag
  mru_perm := arr.mru_perm

/-- Assign a state to the way a lookup points to. -/
def setState (arr : StdArray cfg) (a : MemoryAddress) (st : CacheState) : StdArray cfg :=
  match h : arr.way a with
  | some w =>
    arr.update (makeSet cfg a) w { arr.theBlocks (makeSet cfg a) w with state := st }
      (fun _ => by
        obtain ⟨hlt, htag, _⟩ := way_spec h
        refine ⟨hlt, ?_, ?_⟩
        · simp only [htag]
          rfl
        · simp only [htag, CMPCacheInfo.blockAddress_blockAddress])
      (fun _ v hv htag => by
        obtain ⟨_, hwtag, honly⟩ := way_spec h
        exact honly v (htag.trans hwtag) hv)
  | none => arr

/-- Reorder the ways of one set. -/
def reorder (arr : StdArray cfg) (i : Nat) (f : List Nat → List Nat) (hf : ∀ l, (f l).Perm l) :
    StdArray cfg :=
  { arr with
    theMRUOrder := fun j => if j = i then f (arr.theMRUOrder j) else arr.theMRUOrder j
    mru_perm := by
      intro j
      split
      · exact (hf _).trans (arr.mru_perm j)
      · exact arr.mru_perm j }

def moveToHead (w : Nat) (l : List Nat) : List Nat := if w ∈ l then w :: l.erase w else l

def moveToTail (w : Nat) (l : List Nat) : List Nat := if w ∈ l then l.erase w ++ [w] else l

theorem moveToHead_perm (w : Nat) (l : List Nat) : (moveToHead w l).Perm l := by
  unfold moveToHead
  split
  · next h => exact (List.perm_cons_erase h).symm
  · exact List.Perm.refl _

theorem moveToTail_perm (w : Nat) (l : List Nat) : (moveToTail w l).Perm l := by
  unfold moveToTail
  split
  · next h => exact (List.perm_append_singleton w _).trans (List.perm_cons_erase h).symm
  · exact List.Perm.refl _

/-- The way a lookup points to becomes the most recently used one. -/
def recordAccess (arr : StdArray cfg) (a : MemoryAddress) : StdArray cfg :=
  match arr.way a with
  | some w => arr.reorder (makeSet cfg a) (moveToHead w) (moveToHead_perm w)
  | none => arr

/-- The way a lookup points to becomes the least recently used one. -/
def invalidateBlock (arr : StdArray cfg) (a : MemoryAddress) : StdArray cfg :=
  match arr.way a with
  | some w => arr.reorder (makeSet cfg a) (moveToTail w) (moveToTail_perm w)
  | none => arr

/-- The least recently used way that is neither protected nor locked. -/
def pickVictim (arr : StdArray cfg) (i : Nat) : Option Nat :=
  (arr.theMRUOrder i).reverse.find? fun w =>
    !(arr.theBlocks i w).isProtected && !(arr.theBlocks i w).isLocked

/-- Make room for a block that is not valid: its old way if it still has one, else
    the way of a victim, whose tag and state are returned. -/
def allocate (arr : StdArray cfg) (a : MemoryAddress) :
    Except Fault (StdArray cfg × MemoryAddress × CacheState) :=
  match arr.way a with
  | some _ => .ok (arr.recordAccess a, cfg.blockAddress a, .Invalid)
  | none =>
    match arr.pickVictim (makeSet cfg a) with
    | some w =>
      let victim := arr.theBlocks (makeSet cfg a) w
      .ok ((arr.update (makeSet cfg a) w { victim with tag := cfg.blockAddress a, state := .Invalid }
          (fun h => absurd rfl h) (fun h => absurd rfl h)).reorder (makeSet cfg a) (moveToHead w)
            (moveToHead_perm w), victim.tag, victim.state)
    | none => .error .noVictim

section Lookups

variable {arr arr' : StdArray cfg} {a b : MemoryAddress} {st : CacheState}

/-- The blocks decide what a lookup sees; the order of use does not. -/
theorem way_congr (h : arr'.theBlocks = arr.theBlocks) : arr'.way a = arr.way a := by
  simp only [way, hitWay, h]

theorem state_congr (h : arr'.theBlocks = arr.theBlocks) : arr'.state a = arr.state a := by
  simp only [state, hitWay, h]

theorem recordAccess_theBlocks : (arr.recordAccess a).theBlocks = arr.theBlocks := by
  unfold recordAccess
  split <;> rfl

theorem invalidateBlock_theBlocks : (arr.invalidateBlock a).theBlocks = arr.theBlocks := by
  unfold invalidateBlock
  split <;> rfl

@[simp]
theorem state_recordAccess : (arr.recordAccess a).state b = arr.state b :=
  state_congr recordAccess_theBlocks

@[simp]
theorem state_invalidateBlock : (arr.invalidateBlock a).state b = arr.state b :=
  state_congr invalidateBlock_theBlocks

/-- Addresses of one block see one state. -/
theorem state_blockAddress : arr.state (cfg.blockAddress a) = arr.state a := by
  simp only [state, hitWay, makeSet, CMPCacheInfo.blockAddress_blockAddress]

theorem state_eq_of_blockAddress_eq (h : cfg.blockAddress a = cfg.blockAddress b) :
    arr.state a = arr.state b := by
  rw [← state_blockAddress, h, state_blockAddress]

theorem state_eq_invalid
    (h : ∀ w, (arr.theBlocks (makeSet cfg a) w).tag = cfg.blockAddress a →
      (arr.theBlocks (makeSet cfg a) w).state = .Invalid) : arr.state a = .Invalid := by
  by_contra hvalid
  obtain ⟨w, _, htag, hst⟩ := exists_way_of_state hvalid
  exact hvalid (hst ▸ h w htag)

/-- Two arrays report one state for a block when every way that differs holds a
    valid copy of it in neither. -/
theorem state_eq_of_ways
    (h : ∀ w, arr'.theBlocks (makeSet cfg a) w = arr.theBlocks (makeSet cfg a) w ∨
      ((arr'.theBlocks (makeSet cfg a) w).tag = cfg.blockAddress a →
        (arr'.theBlocks (makeSet cfg a) w).state = .Invalid) ∧
      ((arr.theBlocks (makeSet cfg a) w).tag = cfg.blockAddress a →
        (arr.theBlocks (makeSet cfg a) w).state = .Invalid)) :
    arr'.state a = arr.state a := by
  by_cases hvalid : arr.state a = .Invalid
  · rw [hvalid]
    refine state_eq_invalid fun w htag => ?_
    rcases h w with heq | ⟨hnew, _⟩
    · rw [heq] at htag ⊢
      by_contra hw
      exact hw ((state_of_valid arr htag hw).symm.trans hvalid)
    · exact hnew htag
  · obtain ⟨w, _, htag, hst⟩ := exists_way_of_state hvalid
    rcases h w with heq | ⟨_, hold⟩
    · have htag' : (arr'.theBlocks (makeSet cfg a) w).tag = cfg.blockAddress a := by
        rw [heq, htag]
      have hvalid' : (arr'.theBlocks (makeSet cfg a) w).state ≠ .Invalid := by
        rw [heq, hst]
        exact hvalid
      rw [state_of_valid arr' htag' hvalid', heq, hst]
    · exact absurd (hst ▸ hold htag) hvalid

theorem way_isSome_of_state (h : arr.state a ≠ .Invalid) : (arr.way a).isSome := by
  obtain ⟨w, hhit, _⟩ := exists_way_of_state h
  simp [way, hhit]

theorem setState_theBlocks {w : Nat} (hway : arr.way a = some w) (j v : Nat) :
    (arr.setState a st).theBlocks j v =
      if j = makeSet cfg a ∧ v = w then { arr.theBlocks (makeSet cfg a) w with state := st }
      else arr.theBlocks j v := by
  unfold setState
  split
  · next u hu =>
    obtain rfl : u = w := Option.some.inj (hu.symm.trans hway)
    rfl
  · next hnone =>
    rw [hnone] at hway
    cases hway

/-- Assigning a state to the way of a block changes the state of that block only. -/
theorem state_setState (hway : (arr.way a).isSome) :
    (arr.setState a st).state b =
      if cfg.blockAddress b = cfg.blockAddress a then st else arr.state b := by
  obtain ⟨w, hw⟩ := Option.isSome_iff_exists.mp hway
  obtain ⟨_, htag, honly⟩ := way_spec hw
  have hblocks : ∀ j v, (arr.setState a st).theBlocks j v = _ := setState_theBlocks hw
  by_cases hsame : cfg.blockAddress b = cfg.blockAddress a
  · rw [if_pos hsame, state_eq_of_blockAddress_eq hsame]
    by_cases hst : st = .Invalid
    · subst hst
      refine state_eq_invalid fun v hv => ?_
      rw [hblocks] at hv ⊢
      by_cases hvw : v = w
      · simp [hvw]
      · simp only [hvw, and_false, if_false] at hv ⊢
        by_contra hvalid
        exact hvw (honly v hv hvalid)
    · have hnew := hblocks (makeSet cfg a) w
      simp only [and_self, if_true] at hnew
      have hstate := state_of_valid (arr.setState a st) (a := a) (w := w)
        (by rw [hnew]; exact htag) (by rw [hnew]; exact hst)
      rw [hstate, hnew]
  · rw [if_neg hsame]
    refine state_eq_of_ways fun v => ?_
    rw [hblocks]
    by_cases hv : makeSet cfg b = makeSet cfg a ∧ v = w
    · refine Or.inr ?_
      rw [if_pos hv, hv.1, hv.2]
      exact ⟨fun h => absurd (h.symm.trans htag) hsame, fun h => absurd (h.symm.trans htag) hsame⟩
    · exact Or.inl (if_neg hv)

/-- What `allocate` does: the block has a way but no valid copy in it, the victim is
    gone from the array, and every other block is as before. -/
theorem allocate_spec {vtag : MemoryAddress} {vstate : CacheState} (hinvalid : arr.state a = .Invalid)
    (h : arr.allocate a = .ok (arr', vtag, vstate)) :
    (arr'.way a).isSome ∧ arr'.state a = .Invalid ∧
    (vstate ≠ .Invalid → arr.state vtag = vstate ∧ cfg.blockAddress vtag = vtag ∧
      vtag ≠ cfg.blockAddress a ∧ arr'.state vtag = .Invalid) ∧
    ∀ b, (vstate = .Invalid ∨ cfg.blockAddress b ≠ vtag) → arr'.state b = arr.state b := by
  unfold allocate at h
  split at h
  · next w hw =>
    simp only [Except.ok.injEq, Prod.mk.injEq] at h
    obtain ⟨rfl, rfl, rfl⟩ := h
    refine ⟨?_, by simpa using hinvalid, fun hne => absurd rfl hne, fun b _ => state_recordAccess⟩
    rw [way_congr recordAccess_theBlocks, hw]
    rfl
  · next hway =>
    split at h
    · next w hvictim =>
      simp only [Except.ok.injEq, Prod.mk.injEq] at h
      obtain ⟨harr, rfl, rfl⟩ := h
      have hwlt : w < cfg.theCacheAssociativity := by
        have hmem := List.mem_of_find?_eq_some hvictim
        rw [List.mem_reverse] at hmem
        exact List.mem_range.mp ((arr.mru_perm _).mem_iff.mp hmem)
      have hblocks : ∀ j v, arr'.theBlocks j v =
          if j = makeSet cfg a ∧ v = w then
            { arr.theBlocks (makeSet cfg a) w with tag := cfg.blockAddress a, state := .Invalid }
          else arr.theBlocks j v := fun j v => by rw [← harr]; rfl
      have hnotag : ∀ v < cfg.theCacheAssociativity,
          (arr.theBlocks (makeSet cfg a) v).tag ≠ cfg.blockAddress a := by
        intro v hv
        unfold way at hway
        split at hway
        · cases hway
        · have hno := List.find?_eq_none.mp hway v (by simpa using hv)
          simpa using hno
      have hstate : arr'.state a = .Invalid := by
        refine state_eq_invalid fun v hv => ?_
        rw [hblocks] at hv ⊢
        by_cases hvw : v = w
        · simp [hvw]
        · simp only [hvw, and_false, if_false] at hv ⊢
          by_contra hvalid
          exact hnotag v (arr.valid_at _ _ hvalid).1 hv
      have hmiss : arr'.hitWay a = none := by
        cases hhit : arr'.hitWay a with
        | none => rfl
        | some v =>
          simp only [state, hhit] at hstate
          exact absurd hstate (hitWay_spec hhit).2.2
      refine ⟨?_, hstate, fun hvalid => ?_, fun b hb => ?_⟩
      · simp only [way, hmiss, List.find?_isSome]
        refine ⟨w, by simpa using hwlt, ?_⟩
        rw [hblocks]
        simp
      · obtain ⟨_, hset, hblock⟩ := arr.valid_at _ _ hvalid
        have hmk : makeSet cfg (arr.theBlocks (makeSet cfg a) w).tag = makeSet cfg a := by
          rw [makeSet, hblock, hset]
        refine ⟨?_, hblock, hnotag w hwlt, ?_⟩
        · have hval := state_of_valid arr (a := (arr.theBlocks (makeSet cfg a) w).tag) (w := w)
          rw [hmk] at hval
          exact hval hblock.symm hvalid
        · refine state_eq_invalid fun v hv => ?_
          rw [hmk, hblocks, hblock] at hv
          rw [hmk, hblocks]
          by_cases hvw : v = w
          · simp [hvw]
          · simp only [hvw, and_false, if_false] at hv ⊢
            by_contra hother
            exact hvw (arr.valid_unique _ v w hother hvalid hv)
      · by_cases hab : cfg.blockAddress b = cfg.blockAddress a
        · rw [state_eq_of_blockAddress_eq hab, hstate, state_eq_of_blockAddress_eq hab, hinvalid]
        · refine state_eq_of_ways fun v => ?_
          rw [hblocks]
          by_cases hv : makeSet cfg b = makeSet cfg a ∧ v = w
          · refine Or.inr ?_
            rw [if_pos hv, hv.1, hv.2]
            refine ⟨fun htag => absurd htag.symm hab, fun htag => ?_⟩
            rcases hb with hb | hb
            · exact hb
            · exact absurd htag.symm hb
          · exact Or.inl (if_neg hv)
    · cases h

end Lookups

end StdArray

end nCMPCache
