import Flexus.CmpCache.Array
import Flexus.Lib.Ranking
import Flexus.Lib.Runs

/-!
# One set of the array under LRU replacement

The ways of a set and the array in which they stand from the most to the least recently used
one. The array is shifted by loops whenever a way is used or given up.
-/

namespace nCMPCache

open Runs Ranking

/-- The assertions of a set, its reads through null pointers and past its arrays. -/
inductive SetFault where
  | noLookup
  | noBlock
  | wrongTag
  | allProtected
  | pastTheOrder
  deriving DecidableEq, Repr

namespace LRU

structure SetLRU where
  theAssociativity : Nat
  theBlocks : Nat → Block
  theMRUOrder : List Nat

structure LookupResult where
  theBlock : Option Nat
  theBlockAddress : MemoryAddress
  isHit : Bool
  theOrigState : CacheState
  deriving DecidableEq, Repr

namespace SetLRU

def create (aAssociativity : Nat) : SetLRU where
  theAssociativity := aAssociativity
  theBlocks := fun _ => { tag := 0, state := .Invalid }
  theMRUOrder := List.range aAssociativity

/-! ## The order -/

/-- Where a way stands in the order. A loop that does not find it reads past the end. -/
def find (aBlock : Nat) (order : List Nat) : Except SetFault Nat :=
  match order.findIdx? (· == aBlock) with
  | some i => .ok i
  | none => .error .pastTheOrder

def moveToHead (s : SetLRU) (aBlock : Nat) : Except SetFault SetLRU := do
  let i ← find aBlock s.theMRUOrder
  .ok { s with theMRUOrder := (shiftUp 0 s.theMRUOrder i).set 0 aBlock }

def moveToTail (s : SetLRU) (aBlock : Nat) : Except SetFault SetLRU := do
  let i ← find aBlock s.theMRUOrder
  let last := s.theAssociativity - 1
  .ok { s with theMRUOrder := (shiftDown 0 s.theMRUOrder i (last - i)).set last aBlock }

/-- Nothing moves when the way is at the head already. -/
def recordAccess (s : SetLRU) (aBlock : Nat) : Except SetFault (SetLRU × Bool) :=
  if s.theMRUOrder[0]? = some aBlock then .ok (s, false)
  else do
    let s ← s.moveToHead aBlock
    .ok (s, true)

def invalidateBlock (s : SetLRU) (aBlock : Nat) : Except SetFault SetLRU := s.moveToTail aBlock

def Evictable (s : SetLRU) (w : Nat) : Bool :=
  !(s.theBlocks w).isProtected && !(s.theBlocks w).isLocked

def LockedEvictable (s : SetLRU) (w : Nat) : Bool :=
  !(s.theBlocks w).isProtected && (s.theBlocks w).isLocked

/-- The last way in the order that passes a test. -/
def pickLast (s : SetLRU) (p : Nat → Bool) : Except SetFault Nat :=
  match s.theMRUOrder.reverse.find? p with
  | some w => .ok w
  | none => .error .allProtected

def pickVictim (s : SetLRU) : Except SetFault Nat := s.pickLast s.Evictable

def pickLockedVictim (s : SetLRU) : Except SetFault Nat := s.pickLast s.LockedEvictable

/-! ## Lookups and what is done through them -/

/-- The scan of the ways: the first one in which the block is valid, else the last one that
    has its tag. -/
def scan (s : SetLRU) (anAddress : MemoryAddress) : List Nat → Option Nat → LookupResult
  | [], t =>
    { theBlock := t, theBlockAddress := anAddress, isHit := false, theOrigState := .Invalid }
  | i :: rest, t =>
    if (s.theBlocks i).tag = anAddress then
      if (s.theBlocks i).valid then
        { theBlock := some i, theBlockAddress := anAddress, isHit := true,
          theOrigState := (s.theBlocks i).state }
      else s.scan anAddress rest (some i)
    else s.scan anAddress rest t

def lookupBlock (s : SetLRU) (anAddress : MemoryAddress) : LookupResult :=
  s.scan anAddress (List.range s.theAssociativity) none

/-- What a replacement returns when there is no victim. -/
def noVictim (anAddress : MemoryAddress) : LookupResult :=
  { theBlock := none, theBlockAddress := anAddress, isHit := false, theOrigState := .Invalid }

/-- What a replacement returns of its victim, as it was. -/
def victimLookup (s : SetLRU) (w : Nat) : LookupResult :=
  { theBlock := some w, theBlockAddress := (s.theBlocks w).tag, isHit := false,
    theOrigState := (s.theBlocks w).state }

def put (s : SetLRU) (w : Nat) (b : Block) : SetLRU :=
  { s with theBlocks := Function.update s.theBlocks w b }

theorem put_self (s : SetLRU) (w : Nat) : s.put w (s.theBlocks w) = s := by
  rw [put, Function.update_eq_self]

/-- Give a way to a block. The flags of the way stay. -/
def refill (s : SetLRU) (w : Nat) (anAddress : MemoryAddress) : SetLRU :=
  s.put w { s.theBlocks w with tag := anAddress, state := .Invalid }

def LookupResult.refilled (lookup : LookupResult) (w : Nat) : LookupResult :=
  { lookup with isHit := true, theOrigState := .Invalid, theBlock := some w }

/-- Find a way for the block of a lookup. Returned are the set, the lookup and the victim. -/
def allocate (s : SetLRU) (lookup : LookupResult) (anAddress : MemoryAddress) :
    Except SetFault (SetLRU × LookupResult × LookupResult) :=
  match lookup.theBlock with
  | some w =>
    if (s.theBlocks w).tag = anAddress then do
      let (s, _) ← s.recordAccess w
      .ok (s, { lookup with isHit := true }, noVictim anAddress)
    else .error .wrongTag
  | none => do
    let w ← s.pickVictim
    let (s', _) ← (s.refill w anAddress).recordAccess w
    .ok (s', LookupResult.refilled lookup w, s.victimLookup w)

/-- Find a locked way for the block of a lookup. A way of the block that is not locked gets the
    tag of the victim in exchange. -/
def replaceLocked (s : SetLRU) (lookup : LookupResult) (anAddress : MemoryAddress) :
    Except SetFault (SetLRU × LookupResult × LookupResult) :=
  match lookup.theBlock with
  | some u =>
    if (s.theBlocks u).isLocked then
      if (s.theBlocks u).tag = anAddress then do
        let (s, _) ← s.recordAccess u
        .ok (s, { lookup with isHit := true }, noVictim anAddress)
      else .error .wrongTag
    else do
      let w ← s.pickLockedVictim
      let swapped := s.put u { s.theBlocks u with tag := (s.theBlocks w).tag }
      let (s', _) ← (swapped.refill w anAddress).recordAccess w
      .ok (s', LookupResult.refilled lookup w, s.victimLookup w)
  | none => do
    let w ← s.pickLockedVictim
    let (s', _) ← (s.refill w anAddress).recordAccess w
    .ok (s', LookupResult.refilled lookup w, s.victimLookup w)

/-- What a caller does with a lookup. -/
inductive Use where
  | recordAccess
  | invalidateBlock
  | allocate
  | replaceLocked
  | setState (aNewState : CacheState)
  | setProtected (val : Bool)
  | setLocked (val : Bool)
  deriving DecidableEq, Repr

/-- Use a lookup. The way it points to must be there, except to find one. -/
def use (s : SetLRU) (lookup : LookupResult) : Use → Except SetFault (SetLRU × LookupResult)
  | .allocate => do
    let (s, lookup, _) ← s.allocate lookup lookup.theBlockAddress
    .ok (s, lookup)
  | .replaceLocked => do
    let (s, lookup, _) ← s.replaceLocked lookup lookup.theBlockAddress
    .ok (s, lookup)
  | .recordAccess =>
    match lookup.theBlock with
    | some w => do
      let (s, _) ← s.recordAccess w
      .ok (s, lookup)
    | none => .error .noBlock
  | .invalidateBlock =>
    match lookup.theBlock with
    | some w => do
      let s ← s.invalidateBlock w
      .ok (s, lookup)
    | none => .error .noBlock
  | .setState aNewState =>
    match lookup.theBlock with
    | some w => .ok (s.put w { s.theBlocks w with state := aNewState }, lookup)
    | none => .error .noBlock
  | .setProtected val =>
    match lookup.theBlock with
    | some w => .ok (s.put w { s.theBlocks w with isProtected := val }, lookup)
    | none => .error .noBlock
  | .setLocked val =>
    match lookup.theBlock with
    | some w => .ok (s.put w { s.theBlocks w with isLocked := val }, lookup)
    | none => .error .noBlock

/-! ## The loops -/

section Loops

variable {s : SetLRU} {w : Nat}

theorem find_append {pre post : List Nat} (hpre : w ∉ pre) : find w (pre ++ w :: post) = .ok pre.length := by
  have hindex : (pre ++ w :: post).findIdx? (· == w) = some pre.length := by
    rw [List.findIdx?_append, List.findIdx?_eq_none_iff.mpr]
    · simp [List.findIdx?_cons]
    · intro v hv
      simpa using fun heq : v = w => hpre (heq ▸ hv)
  rw [find, hindex]

/-- The loops of `moveToHead` put a way of the order at its head and leave the others as they
    stand. -/
theorem moveToHead_eq (hw : w ∈ s.theMRUOrder) :
    s.moveToHead w = .ok { s with theMRUOrder := promote w s.theMRUOrder } := by
  obtain ⟨pre, post, hsplit, hpre⟩ := List.eq_append_cons_of_mem hw
  rw [moveToHead, hsplit, find_append hpre, promote_append hpre, ← shiftUp_set 0 pre post w w]
  rfl

theorem moveToTail_eq (hw : w ∈ s.theMRUOrder) (hlen : s.theMRUOrder.length = s.theAssociativity) :
    s.moveToTail w = .ok { s with theMRUOrder := demote w s.theMRUOrder } := by
  obtain ⟨pre, post, hsplit, hpre⟩ := List.eq_append_cons_of_mem hw
  have hlast : s.theAssociativity - 1 = pre.length + post.length := by
    rw [← hlen, hsplit, List.length_append, List.length_cons]
    omega
  have hcount : pre.length + post.length - pre.length = post.length := by omega
  have hshift := shiftDown_set 0 pre post w w
  simp only [moveToTail, hsplit, find_append hpre, demote_append hpre, hlast]
  change Except.ok _ = _
  rw [hcount, hshift]

/-- An access promotes the way also when it finds it at the head. -/
theorem recordAccess_eq (hw : w ∈ s.theMRUOrder) :
    ∃ moved, s.recordAccess w = .ok ({ s with theMRUOrder := promote w s.theMRUOrder }, moved) := by
  unfold recordAccess
  split
  · next hhead =>
    refine ⟨false, ?_⟩
    obtain ⟨rest, hrest⟩ : ∃ rest, s.theMRUOrder = w :: rest := by
      cases horder : s.theMRUOrder with
      | nil => simp [horder] at hhead
      | cons v rest =>
        simp only [horder, List.getElem?_cons_zero, Option.some.injEq] at hhead
        exact ⟨rest, by rw [hhead]⟩
    have hsame : promote w s.theMRUOrder = s.theMRUOrder := by
      rw [hrest, promote, List.erase_cons_head]
    rw [hsame]
  · exact ⟨true, by rw [moveToHead_eq hw]; rfl⟩

end Loops

/-! ## Tags -/

/-- The ways below `k` were never used since the set was made, and they stand in their first
    order. No two of the others have one tag. -/
structure TouchedFrom (k : Nat) (s : SetLRU) : Prop where
  perm : s.theMRUOrder.Perm (List.range s.theAssociativity)
  initial : ∀ w < k, s.theBlocks w = { tag := 0, state := .Invalid }
  ascending : s.theMRUOrder.filter (fun w => decide (w < k)) = List.range k
  distinct : ∀ v w, k ≤ v → k ≤ w → v < s.theAssociativity → w < s.theAssociativity →
    (s.theBlocks v).tag = (s.theBlocks w).tag → v = w

/-- A lookup points to the way that has its tag, which may be the last one never used, and to
    none when no way has it. -/
structure InHand (k : Nat) (s : SetLRU) (lookup : LookupResult) : Prop where
  at_way : ∀ w, lookup.theBlock = some w →
    w < s.theAssociativity ∧ k ≤ w + 1 ∧ (s.theBlocks w).tag = lookup.theBlockAddress
  only : ∀ v, k ≤ v → v < s.theAssociativity → (s.theBlocks v).tag = lookup.theBlockAddress →
    lookup.theBlock = some v

section Tags

variable {s s' : SetLRU} {k w : Nat} {a : MemoryAddress} {lookup lookup' : LookupResult}

/-- The first order ranks the ways by their numbers, the lowest first. -/
theorem ranked_range (n : Nat) : Ranked (fun w : Nat => -(w : Int)) (List.range n) := by
  apply List.Pairwise.imp _ List.pairwise_lt_range
  intro v w hlt
  exact neg_lt_neg (Int.ofNat_lt.mpr hlt)

theorem touchedFrom_create (n : Nat) : TouchedFrom n (create n) where
  perm := List.Perm.refl _
  initial := fun _ _ => rfl
  ascending := List.filter_eq_self.mpr fun _ hw => decide_eq_true (List.mem_range.mp hw)
  distinct := fun _ _ hv _ hv' => absurd hv' (Nat.not_lt.mpr hv)

namespace TouchedFrom

theorem mem_order (ht : TouchedFrom k s) : w ∈ s.theMRUOrder ↔ w < s.theAssociativity := by
  rw [ht.perm.mem_iff, List.mem_range]

theorem nodup (ht : TouchedFrom k s) : s.theMRUOrder.Nodup :=
  ht.perm.nodup_iff.mpr List.nodup_range

theorem length_order (ht : TouchedFrom k s) : s.theMRUOrder.length = s.theAssociativity := by
  rw [ht.perm.length_eq, List.length_range]

theorem le_assoc (ht : TouchedFrom k s) : k ≤ s.theAssociativity := by
  have hlen := congrArg List.length ht.ascending
  rw [List.length_range] at hlen
  rw [← ht.length_order, ← hlen]
  exact List.length_filter_le _ _

/-- A way is valid only when it was used, and no two of these have one tag. -/
theorem valid_unique (ht : TouchedFrom k s) {v : Nat} (hv : v < s.theAssociativity)
    (hw : w < s.theAssociativity) (hvalid : (s.theBlocks v).state ≠ .Invalid)
    (hvalid' : (s.theBlocks w).state ≠ .Invalid)
    (htag : (s.theBlocks v).tag = (s.theBlocks w).tag) : v = w := by
  have htouched : ∀ u, (s.theBlocks u).state ≠ .Invalid → k ≤ u := by
    intro u hu
    by_contra hlt
    rw [ht.initial u (Nat.not_le.mp hlt)] at hu
    exact hu rfl
  exact ht.distinct v w (htouched v hvalid) (htouched w hvalid') hv hw htag

/-- Write a way with a tag that no other way in use has. The way is then in use as well, of
    those never used before it can only be the last one. -/
theorem put (ht : TouchedFrom k s) {b : Block} (hk : k ≤ w + 1)
    (hother : ∀ v, k ≤ v → v < s.theAssociativity → v ≠ w → (s.theBlocks v).tag ≠ b.tag) :
    TouchedFrom (min k w) (s.put w b) where
  perm := ht.perm
  initial := by
    intro v hv
    have hne : v ≠ w := by omega
    change Function.update s.theBlocks w b v = _
    rw [Function.update_of_ne hne]
    exact ht.initial v (by omega)
  ascending := by
    have hfewer : s.theMRUOrder.filter (fun v => decide (v < min k w)) =
        (s.theMRUOrder.filter fun v => decide (v < k)).filter fun v => decide (v < min k w) := by
      rw [List.filter_filter]
      apply List.filter_congr
      intro v _
      simp only [lt_inf_iff, Bool.decide_and]
      cases decide (v < k) <;> simp
    change s.theMRUOrder.filter _ = _
    rw [hfewer, ht.ascending]
    have hsplit : k = min k w + (k - min k w) := by omega
    rw [hsplit, List.range_add, List.filter_append]
    have hlow : (List.range (min k w)).filter (fun v => decide (v < min k w)) = List.range (min k w) :=
      List.filter_eq_self.mpr fun v hv => by simpa using hv
    rw [← hsplit, hlow, List.filter_eq_nil_iff.mpr, List.append_nil]
    intro v hv
    obtain ⟨i, _, rfl⟩ := List.mem_map.mp hv
    simp only [decide_eq_true_eq]
    omega
  distinct := by
    have htags : ∀ v, v ≠ w → ((s.put w b).theBlocks v).tag = (s.theBlocks v).tag := fun v hv => by
      change (Function.update s.theBlocks w b v).tag = _
      rw [Function.update_of_ne hv]
    have htag : ((s.put w b).theBlocks w).tag = b.tag := by
      change (Function.update s.theBlocks w b w).tag = _
      rw [Function.update_self]
    intro u v hu hv hun hvn heq
    by_cases huw : u = w <;> by_cases hvw : v = w
    · rw [huw, hvw]
    · rw [huw, htag, htags v hvw] at heq
      exact absurd heq.symm (hother v (by omega) hvn hvw)
    · rw [hvw, htag, htags u huw] at heq
      exact absurd heq (hother u (by omega) hun huw)
    · rw [htags u huw, htags v hvw] at heq
      exact ht.distinct u v (by omega) (by omega) hun hvn heq

/-- The way a lookup points to may be counted among those in use. -/
theorem touch (ht : TouchedFrom k s) (hin : InHand k s lookup) (hblock : lookup.theBlock = some w) :
    TouchedFrom (min k w) s := by
  obtain ⟨_, hk, htag⟩ := hin.at_way w hblock
  have hput := ht.put (b := s.theBlocks w) hk fun v hv hvn hne heq => by
    have hv := hin.only v hv hvn (heq.trans htag)
    rw [hblock] at hv
    exact hne (Option.some.inj hv).symm
  rwa [put_self] at hput

/-- Moving a way in use leaves the others, and those never used, as they stand. -/
theorem promote (ht : TouchedFrom k s) (hk : k ≤ w) (hw : w < s.theAssociativity) :
    TouchedFrom k { s with theMRUOrder := promote w s.theMRUOrder } where
  perm := (promote_perm (ht.mem_order.mpr hw)).trans ht.perm
  initial := ht.initial
  ascending := by
    rw [filter_promote (by simpa using hk)]
    exact ht.ascending
  distinct := ht.distinct

theorem demote (ht : TouchedFrom k s) (hk : k ≤ w) (hw : w < s.theAssociativity) :
    TouchedFrom k { s with theMRUOrder := demote w s.theMRUOrder } where
  perm := (demote_perm (ht.mem_order.mpr hw)).trans ht.perm
  initial := ht.initial
  ascending := by
    rw [filter_demote (by simpa using hk)]
    exact ht.ascending
  distinct := ht.distinct

/-- A lookup may point to any way in use that has its tag. -/
theorem inHand (ht : TouchedFrom k s) (hk : k ≤ w) (hw : w < s.theAssociativity)
    (hblock : lookup.theBlock = some w) (htag : (s.theBlocks w).tag = lookup.theBlockAddress) :
    InHand k s lookup where
  at_way := by
    intro v hv
    obtain rfl := Option.some.inj (hblock.symm.trans hv)
    exact ⟨hw, by omega, htag⟩
  only := fun v hv hvn htagv => by rw [hblock, ht.distinct w v hk hv hw hvn (htag.trans htagv.symm)]

/-- Of the ways never used, the last one is taken first. -/
theorem victim_touched (ht : TouchedFrom k s) {p : Nat → Bool} (hp : ∀ v < k, p v = true)
    (hfind : s.theMRUOrder.reverse.find? p = some w) : w < s.theAssociativity ∧ k ≤ w + 1 := by
  have hmem := List.mem_reverse.mp (List.mem_of_find?_eq_some hfind)
  refine ⟨ht.mem_order.mp hmem, ?_⟩
  by_contra hlt
  obtain ⟨_, lower, higher, hsplit, hlower⟩ := List.find?_eq_some_iff_append.mp hfind
  have hlast : k - 1 ∈ lower ++ w :: higher := by
    rw [← hsplit, List.mem_reverse]
    exact ht.mem_order.mpr (by have := ht.le_assoc; omega)
  have hhigher : k - 1 ∈ higher := by
    simp only [List.mem_append, List.mem_cons] at hlast
    rcases hlast with hlast | hlast | hlast
    · have hno := hlower _ hlast
      simp [hp (k - 1) (by omega)] at hno
    · omega
    · exact hlast
  -- the ways never used stand in ascending order, so none above `w` comes before it
  have hdescending : ((lower ++ w :: higher).filter fun v => decide (v < k)).Pairwise (· > ·) := by
    rw [← hsplit, List.filter_reverse, ht.ascending, List.pairwise_reverse]
    exact List.pairwise_lt_range
  rw [List.filter_append, List.filter_cons_of_pos (by simp; omega)] at hdescending
  have hbelow := (List.pairwise_cons.mp (List.pairwise_append.mp hdescending).2.1).1 (k - 1)
    (List.mem_filter.mpr ⟨hhigher, by simp; omega⟩)
  omega

end TouchedFrom

/-- A scan ends at the first way in which the block is valid, or if there is none with the last
    one that has its tag. -/
theorem scan_spec (ways : List Nat) (t : Option Nat) :
    (s.scan a ways t).theBlockAddress = a ∧
      ((∃ w ∈ ways, (s.scan a ways t).theBlock = some w ∧ (s.theBlocks w).tag = a ∧
          (s.theBlocks w).state ≠ .Invalid) ∨
        (∀ w ∈ ways, (s.theBlocks w).tag = a → (s.theBlocks w).state = .Invalid) ∧
        (s.scan a ways t).theBlock =
          (ways.reverse.find? fun w => decide ((s.theBlocks w).tag = a)).or t) := by
  induction ways generalizing t with
  | nil => exact ⟨rfl, Or.inr ⟨fun _ h => absurd h List.not_mem_nil, rfl⟩⟩
  | cons i rest ih =>
    simp only [scan]
    split
    · next htag =>
      split
      · next hvalid =>
        exact ⟨rfl, Or.inl ⟨i, List.mem_cons_self .., rfl, htag, Block.valid_iff.mp hvalid⟩⟩
      · next hinvalid =>
        obtain ⟨haddr, ⟨w, hw, hfound⟩ | ⟨hnone, hlast⟩⟩ := ih (some i)
        · exact ⟨haddr, Or.inl ⟨w, List.mem_cons_of_mem _ hw, hfound⟩⟩
        · refine ⟨haddr, Or.inr ⟨List.forall_mem_cons.mpr ⟨fun _ => ?_, hnone⟩, ?_⟩⟩
          · simpa using hinvalid
          · rw [hlast, List.reverse_cons, List.find?_append]
            simp [htag]
    · next htag =>
      obtain ⟨haddr, ⟨w, hw, hfound⟩ | ⟨hnone, hlast⟩⟩ := ih t
      · exact ⟨haddr, Or.inl ⟨w, List.mem_cons_of_mem _ hw, hfound⟩⟩
      · refine ⟨haddr, Or.inr ⟨List.forall_mem_cons.mpr ⟨fun h => absurd h htag, hnone⟩, ?_⟩⟩
        rw [hlast, List.reverse_cons, List.find?_append]
        simp [htag]

/-- What a lookup finds: a way in use that has the tag, or else the last way never used when
    the tag is the one that it was made with. -/
theorem lookupBlock_inHand (ht : TouchedFrom k s) : InHand k s (s.lookupBlock a) := by
  obtain ⟨haddr, ⟨w, hw, hblock, htag, hvalid⟩ | ⟨-, hlast⟩⟩ :=
    scan_spec (s := s) (a := a) (List.range s.theAssociativity) none
  · have hk : k ≤ w := by
      by_contra hlt
      rw [ht.initial w (Nat.not_le.mp hlt)] at hvalid
      exact hvalid rfl
    exact ht.inHand hk (List.mem_range.mp hw) hblock (htag.trans haddr.symm)
  · rw [Option.or_none] at hlast
    change (s.lookupBlock a).theBlock = _ at hlast
    change (s.lookupBlock a).theBlockAddress = a at haddr
    -- no way behind the one found has the tag
    have hlastOne : ∀ w, (s.lookupBlock a).theBlock = some w → w < s.theAssociativity ∧
        (s.theBlocks w).tag = a ∧
        ∀ v, v < s.theAssociativity → (s.theBlocks v).tag = a → v ≠ w → v < w := by
      intro w hw
      obtain ⟨hmem, htag, hbehind⟩ := (ranked_range _).find_reverse.mp (hlast.symm.trans hw)
      refine ⟨List.mem_range.mp hmem, of_decide_eq_true htag, fun v hv htagv hne => ?_⟩
      have hrank := hbehind v (List.mem_range.mpr hv) (decide_eq_true htagv) hne
      omega
    constructor
    · intro w hw
      obtain ⟨hmem, htag, hbehind⟩ := hlastOne w hw
      refine ⟨hmem, ?_, htag.trans haddr.symm⟩
      by_contra hlt
      have hlow : (s.theBlocks (k - 1)).tag = a := by
        rw [ht.initial (k - 1) (by omega), ← htag, ht.initial w (by omega)]
      have hle := ht.le_assoc
      have := hbehind (k - 1) (by omega) hlow (by omega)
      omega
    · intro v hv hvn htagv
      rw [haddr] at htagv
      cases hblock : (s.lookupBlock a).theBlock with
      | none =>
        have hno := List.find?_eq_none.mp (hlast.symm.trans hblock) v (by simpa using hvn)
        simp [htagv] at hno
      | some w =>
        obtain ⟨hmem, htag, hbehind⟩ := hlastOne w hblock
        by_contra hne
        have hne : v ≠ w := fun heq => hne (by rw [heq])
        have hlt := hbehind v hvn htagv hne
        exact hne (ht.distinct v w hv (by omega) hvn hmem (htagv.trans htag.symm))

end Tags

/-! ## One use -/

/-- What a use does to the order, for the way it ends with. -/
def Use.reorder (w : Nat) : Use → List Nat → List Nat
  | .recordAccess | .allocate | .replaceLocked => promote w
  | .invalidateBlock => demote w
  | .setState _ | .setProtected _ | .setLocked _ => id

def moved (s : SetLRU) (u : Use) (w : Nat) : SetLRU :=
  { s with theMRUOrder := u.reorder w s.theMRUOrder }

/-- What is known after a use: the way that the lookup points to is in use, has the tag and
    stands where the use put it. -/
structure Used (s s' : SetLRU) (lookup : LookupResult) (u : Use) (k w : Nat) : Prop where
  touched : TouchedFrom k s'
  le : k ≤ w
  lt : w < s'.theAssociativity
  block : lookup.theBlock = some w
  tag : (s'.theBlocks w).tag = lookup.theBlockAddress
  assoc : s'.theAssociativity = s.theAssociativity
  order : s'.theMRUOrder = u.reorder w s.theMRUOrder

section Uses

variable {s s' : SetLRU} {k v w : Nat} {b : Block} {lookup lookup' victim : LookupResult} {u : Use}

theorem TouchedFrom.moved (ht : TouchedFrom k s) (hk : k ≤ w) (hw : w < s.theAssociativity) :
    TouchedFrom k (s.moved u w) := by
  cases u with
  | recordAccess | allocate | replaceLocked => exact ht.promote hk hw
  | invalidateBlock => exact ht.demote hk hw
  | setState | setProtected | setLocked => exact ht

/-- The way of a lookup is written, but its tag stays, and then moved. -/
theorem InHand.used_same (ht : TouchedFrom k s) (hin : InHand k s lookup)
    (hblock : lookup.theBlock = some w) (htag : b.tag = (s.theBlocks w).tag)
    (hblock' : lookup'.theBlock = some w)
    (haddr : lookup'.theBlockAddress = lookup.theBlockAddress) :
    Used s ((s.put w b).moved u w) lookup' u (min k w) w := by
  obtain ⟨hw, hk, hat⟩ := hin.at_way w hblock
  have hput : TouchedFrom (min k w) (s.put w b) := ht.put hk fun v hv hvn hne heq => by
    have honly := hin.only v hv hvn (heq.trans (htag.trans hat))
    exact hne (Option.some.inj (honly.symm.trans hblock))
  have hle : min k w ≤ w := Nat.min_le_right k w
  refine ⟨hput.moved hle hw, hle, hw, hblock', ?_, rfl, rfl⟩
  change (Function.update s.theBlocks w b w).tag = _
  rw [Function.update_self, htag, hat, haddr]

/-- A way is given to the block of a lookup that points to none. -/
theorem InHand.used_refill (ht : TouchedFrom k s) (hin : InHand k s lookup)
    (hnone : lookup.theBlock = none) (hw : w < s.theAssociativity) (hk : k ≤ w + 1) :
    Used s ((s.refill w lookup.theBlockAddress).moved u w) (LookupResult.refilled lookup w) u
      (min k w) w := by
  have hput : TouchedFrom (min k w) (s.refill w lookup.theBlockAddress) :=
    ht.put hk fun v hv hvn _ heq => by
      have honly := hin.only v hv hvn heq
      rw [hnone] at honly
      cases honly
  have hle : min k w ≤ w := Nat.min_le_right k w
  refine ⟨hput.moved hle hw, hle, hw, rfl, ?_, rfl, rfl⟩
  change (Function.update s.theBlocks w _ w).tag = _
  rw [Function.update_self]
  rfl

/-- Exchanging the tags of two ways in use keeps them distinct. -/
theorem TouchedFrom.swap (ht : TouchedFrom k s) (hv : k ≤ v) (hvn : v < s.theAssociativity)
    (hw : k ≤ w) (hwn : w < s.theAssociativity) (hother : ∀ x < k, s'.theBlocks x = s.theBlocks x)
    (htags : ∀ x, (s'.theBlocks x).tag = (s.theBlocks (Equiv.swap v w x)).tag)
    (hassoc : s'.theAssociativity = s.theAssociativity) (horder : s'.theMRUOrder = s.theMRUOrder) :
    TouchedFrom k s' where
  perm := by
    rw [horder, hassoc]
    exact ht.perm
  initial := fun x hx => (hother x hx).trans (ht.initial x hx)
  ascending := by
    rw [horder]
    exact ht.ascending
  distinct := by
    have hinside : ∀ x, k ≤ x → x < s'.theAssociativity →
        k ≤ Equiv.swap v w x ∧ Equiv.swap v w x < s.theAssociativity := by
      intro x hx hxn
      rw [Equiv.swap_apply_def]
      split
      · exact ⟨hw, hwn⟩
      · split
        · exact ⟨hv, hvn⟩
        · exact ⟨hx, hassoc ▸ hxn⟩
    intro x y hx hy hxn hyn heq
    rw [htags, htags] at heq
    obtain ⟨hx', hxn'⟩ := hinside x hx hxn
    obtain ⟨hy', hyn'⟩ := hinside y hy hyn
    exact (Equiv.swap v w).injective (ht.distinct _ _ hx' hy' hxn' hyn' heq)

/-- A way in use is given to the block of a lookup that points to another one, which gets the
    tag in exchange. -/
theorem InHand.used_swap (ht : TouchedFrom k s) (hin : InHand k s lookup)
    (hblock : lookup.theBlock = some v) (hw : w < s.theAssociativity) (hk : k ≤ w) :
    Used s (((s.put v { s.theBlocks v with tag := (s.theBlocks w).tag }).refill w
      lookup.theBlockAddress).moved u w) (LookupResult.refilled lookup w) u (min k v) w := by
  obtain ⟨hv, hkv, hat⟩ := hin.at_way v hblock
  have htags : ∀ x, (((s.put v { s.theBlocks v with tag := (s.theBlocks w).tag }).refill w
      lookup.theBlockAddress).theBlocks x).tag = (s.theBlocks (Equiv.swap v w x)).tag := by
    intro x
    change (Function.update (Function.update s.theBlocks v _) w _ x).tag = _
    by_cases hxw : x = w
    · subst hxw
      rw [Function.update_self, Equiv.swap_apply_right, hat]
    · rw [Function.update_of_ne hxw]
      by_cases hxv : x = v
      · subst hxv
        rw [Function.update_self, Equiv.swap_apply_left]
      · rw [Function.update_of_ne hxv, Equiv.swap_apply_of_ne_of_ne hxv hxw]
  have hle : min k v ≤ w := by omega
  have hnew := (ht.touch hin hblock).swap (Nat.min_le_right k v) hv hle hw
    (fun x hx => by
      change Function.update (Function.update s.theBlocks v _) w _ x = _
      rw [Function.update_of_ne (by omega), Function.update_of_ne (by omega)])
    htags rfl rfl
  refine ⟨hnew.moved hle hw, hle, hw, rfl, ?_, rfl, rfl⟩
  exact (htags w).trans (by rw [Equiv.swap_apply_right, hat]; rfl)

/-- Only ways that were given to a block are ever locked. -/
theorem TouchedFrom.le_of_locked (ht : TouchedFrom k s) (h : (s.theBlocks w).isLocked = true) :
    k ≤ w := by
  by_contra hlt
  rw [ht.initial w (Nat.not_le.mp hlt)] at h
  cases h

theorem pickLast_eq_ok {p : Nat → Bool} :
    s.pickLast p = .ok w ↔ s.theMRUOrder.reverse.find? p = some w := by
  unfold pickLast
  cases s.theMRUOrder.reverse.find? p <;> simp

/-- A victim may be given away: it is in use, or the last one never used. -/
theorem TouchedFrom.pickVictim (ht : TouchedFrom k s) (h : s.pickVictim = .ok w) :
    w < s.theAssociativity ∧ k ≤ w + 1 := by
  apply ht.victim_touched (p := s.Evictable) _ (pickLast_eq_ok.mp h)
  intro v hv
  simp [Evictable, ht.initial v hv]

theorem TouchedFrom.pickLockedVictim (ht : TouchedFrom k s) (h : s.pickLockedVictim = .ok w) :
    w < s.theAssociativity ∧ k ≤ w := by
  have hfind := pickLast_eq_ok.mp h
  have hlocked := List.find?_some hfind
  simp only [LockedEvictable, Bool.and_eq_true] at hlocked
  exact ⟨ht.mem_order.mp (List.mem_reverse.mp (List.mem_of_find?_eq_some hfind)),
    ht.le_of_locked hlocked.2⟩

theorem allocate_spec (ht : TouchedFrom k s) (hin : InHand k s lookup)
    (h : s.allocate lookup lookup.theBlockAddress = .ok (s', lookup', victim)) :
    ∃ k w, Used s s' lookup' .allocate k w := by
  unfold allocate at h
  split at h
  · next w hblock =>
    obtain ⟨hw, -, hat⟩ := hin.at_way w hblock
    obtain ⟨_, hmove⟩ := recordAccess_eq (ht.mem_order.mpr hw)
    rw [if_pos hat, hmove] at h
    cases h
    have hused : Used s ((s.put w (s.theBlocks w)).moved .allocate w) { lookup with isHit := true }
      .allocate _ w := hin.used_same ht hblock rfl hblock rfl
    rw [put_self] at hused
    exact ⟨_, _, hused⟩
  · next hnone =>
    cases hpick : s.pickVictim with
    | error => rw [hpick] at h; cases h
    | ok w =>
      obtain ⟨hw, hk⟩ := ht.pickVictim hpick
      obtain ⟨_, hmove⟩ := recordAccess_eq (s := s.refill w lookup.theBlockAddress)
        (ht.mem_order.mpr hw)
      rw [hpick] at h
      simp only [bind, Except.bind, hmove] at h
      cases h
      have hused := hin.used_refill (u := .allocate) ht hnone hw hk
      exact ⟨_, _, hused⟩

theorem replaceLocked_spec (ht : TouchedFrom k s) (hin : InHand k s lookup)
    (h : s.replaceLocked lookup lookup.theBlockAddress = .ok (s', lookup', victim)) :
    ∃ k w, Used s s' lookup' .replaceLocked k w := by
  unfold replaceLocked at h
  split at h
  · next v hblock =>
    obtain ⟨hv, -, hat⟩ := hin.at_way v hblock
    split at h
    · obtain ⟨_, hmove⟩ := recordAccess_eq (ht.mem_order.mpr hv)
      rw [hmove] at h
      cases h
      have hused : Used s ((s.put v (s.theBlocks v)).moved .replaceLocked v)
        { lookup with isHit := true } .replaceLocked _ v := hin.used_same ht hblock rfl hblock rfl
      rw [put_self] at hused
      exact ⟨_, _, hused⟩
    · cases hpick : s.pickLockedVictim with
      | error => rw [hpick] at h; cases h
      | ok w =>
        obtain ⟨hw, hk⟩ := ht.pickLockedVictim hpick
        obtain ⟨_, hmove⟩ := recordAccess_eq (s := (s.put v { s.theBlocks v with
          tag := (s.theBlocks w).tag }).refill w lookup.theBlockAddress) (ht.mem_order.mpr hw)
        rw [hpick] at h
        simp only [bind, Except.bind, hmove] at h
        cases h
        have hused := hin.used_swap (u := .replaceLocked) ht hblock hw hk
        exact ⟨_, _, hused⟩
  · next hnone =>
    cases hpick : s.pickLockedVictim with
    | error => rw [hpick] at h; cases h
    | ok w =>
      obtain ⟨hw, hk⟩ := ht.pickLockedVictim hpick
      obtain ⟨_, hmove⟩ := recordAccess_eq (s := s.refill w lookup.theBlockAddress)
        (ht.mem_order.mpr hw)
      rw [hpick] at h
      simp only [bind, Except.bind, hmove] at h
      cases h
      have hused := hin.used_refill (u := .replaceLocked) ht hnone hw (by omega)
      exact ⟨_, _, hused⟩

/-- What a use does, by cases on the use and on where the lookup points. -/
theorem use_spec (ht : TouchedFrom k s) (hin : InHand k s lookup)
    (h : s.use lookup u = .ok (s', lookup')) : ∃ k w, Used s s' lookup' u k w := by
  have hsame : ∀ w, lookup.theBlock = some w → Used s (s.moved u w) lookup u (min k w) w := by
    intro w hblock
    have hused := hin.used_same (u := u) ht hblock rfl hblock rfl
    rwa [put_self] at hused
  cases u with
  | allocate =>
    simp only [use, bind, Except.bind] at h
    split at h
    · cases h
    · next hallocate =>
      cases h
      exact allocate_spec ht hin hallocate
  | replaceLocked =>
    simp only [use, bind, Except.bind] at h
    split at h
    · cases h
    · next hreplace =>
      cases h
      exact replaceLocked_spec ht hin hreplace
  | recordAccess =>
    simp only [use] at h
    split at h
    · next w hblock =>
      obtain ⟨_, hmove⟩ := recordAccess_eq (ht.mem_order.mpr (hin.at_way w hblock).1)
      rw [hmove] at h
      cases h
      exact ⟨_, _, hsame w hblock⟩
    · cases h
  | invalidateBlock =>
    simp only [use] at h
    split at h
    · next w hblock =>
      rw [invalidateBlock, moveToTail_eq (ht.mem_order.mpr (hin.at_way w hblock).1) ht.length_order] at h
      cases h
      exact ⟨_, _, hsame w hblock⟩
    · cases h
  | setState aNewState =>
    simp only [use] at h
    split at h
    · next w hblock =>
      cases h
      have hused := hin.used_same (u := .setState aNewState)
        (b := { s.theBlocks w with state := aNewState }) ht hblock rfl hblock rfl
      exact ⟨_, _, hused⟩
    · cases h
  | setProtected val =>
    simp only [use] at h
    split at h
    · next w hblock =>
      cases h
      have hused := hin.used_same (u := .setProtected val)
        (b := { s.theBlocks w with isProtected := val }) ht hblock rfl hblock rfl
      exact ⟨_, _, hused⟩
    · cases h
  | setLocked val =>
    simp only [use] at h
    split at h
    · next w hblock =>
      cases h
      have hused := hin.used_same (u := .setLocked val)
        (b := { s.theBlocks w with isLocked := val }) ht hblock rfl hblock rfl
      exact ⟨_, _, hused⟩
    · cases h

end Uses

end SetLRU

end LRU

open LRU

/-! ## The sets of the array -/

namespace StdArray

variable {cfg : CMPCacheInfo} {arr : StdArray cfg} {a : MemoryAddress} {w i : Nat}

def theSets (arr : StdArray cfg) (i : Nat) : SetLRU where
  theAssociativity := cfg.theCacheAssociativity
  theBlocks := arr.theBlocks i
  theMRUOrder := arr.theMRUOrder i

/-- The scan of a set finds the way in which the array has the block. -/
theorem lookupBlock_theSets :
    ((arr.theSets (makeSet cfg a)).lookupBlock (cfg.blockAddress a)).theBlock = arr.way a := by
  obtain ⟨-, ⟨w, -, hblock, htag, hvalid⟩ | ⟨hnone, hlast⟩⟩ := SetLRU.scan_spec
    (s := arr.theSets (makeSet cfg a)) (a := cfg.blockAddress a)
    (List.range cfg.theCacheAssociativity) none
  · rw [way, hitWay_of_valid htag hvalid]
    exact hblock
  · have hmiss : arr.hitWay a = none := by
      apply List.find?_eq_none.mpr
      intro w hw htest
      simp only [Bool.and_eq_true, beq_iff_eq, Block.valid_iff] at htest
      exact htest.2 (hnone w hw htest.1)
    rw [Option.or_none] at hlast
    rw [way, hmiss]
    exact hlast.trans (List.find?_congr fun _ _ => rfl)

theorem pickVictim_theSets :
    (arr.theSets i).pickVictim = .ok w ↔ arr.pickVictim i = some w :=
  SetLRU.pickLast_eq_ok

/-- The loops of a set do to its order what the array does. -/
theorem moveToHead_theSets (hw : w < cfg.theCacheAssociativity) :
    (arr.theSets i).moveToHead w = .ok ((arr.reorder i (moveToHead w) (moveToHead_perm w)).theSets i) := by
  have hmem : w ∈ arr.theMRUOrder i := (arr.mru_perm i).mem_iff.mpr (List.mem_range.mpr hw)
  rw [SetLRU.moveToHead_eq hmem]
  simp [theSets, reorder, moveToHead, hmem, promote]

theorem moveToTail_theSets (hw : w < cfg.theCacheAssociativity) :
    (arr.theSets i).moveToTail w = .ok ((arr.reorder i (moveToTail w) (moveToTail_perm w)).theSets i) := by
  have hmem : w ∈ arr.theMRUOrder i := (arr.mru_perm i).mem_iff.mpr (List.mem_range.mpr hw)
  have hlen : (arr.theMRUOrder i).length = cfg.theCacheAssociativity := by
    rw [(arr.mru_perm i).length_eq, List.length_range]
  rw [SetLRU.moveToTail_eq hmem hlen]
  simp [theSets, reorder, moveToTail, hmem, demote]

/-- The loops over the ways of a set find and move what the array does. -/
theorem loops_as_array (arr : StdArray cfg) (a : MemoryAddress) (i : Nat) (w : Fin cfg.theCacheAssociativity) :
    ((arr.theSets (makeSet cfg a)).lookupBlock (cfg.blockAddress a)).theBlock = arr.way a ∧
      (∀ v, (arr.theSets i).pickVictim = .ok v ↔ arr.pickVictim i = some v) ∧
      (arr.theSets i).moveToHead w = .ok ((arr.reorder i (moveToHead w) (moveToHead_perm w)).theSets i) ∧
      (arr.theSets i).moveToTail w = .ok ((arr.reorder i (moveToTail w) (moveToTail_perm w)).theSets i) :=
  ⟨lookupBlock_theSets, fun _ => pickVictim_theSets, moveToHead_theSets w.isLt, moveToTail_theSets w.isLt⟩

end StdArray

/-! ## Runs -/

/-- A set in use. The lookup in hand is the one taken last. The clock counts the uses, and a way
    that was given up counts as used before all others. -/
structure SetRun where
  set : SetLRU
  lookup : Option LookupResult
  clock : Nat
  lastUse : Nat → Int

namespace SetRun

inductive Event where
  | lookup (anAddress : MemoryAddress)
  | use (u : SetLRU.Use)
  deriving DecidableEq, Repr

def create (aAssociativity : Nat) : SetRun where
  set := SetLRU.create aAssociativity
  lookup := none
  clock := 0
  lastUse := fun w => -w

/-- The time of a use, which gives up the way or is an access to it. -/
def stamp (r : SetRun) (w : Nat) : SetLRU.Use → Nat → Int
  | .recordAccess | .allocate | .replaceLocked => Function.update r.lastUse w (r.clock + 1)
  | .invalidateBlock => Function.update r.lastUse w (-(r.set.theAssociativity + r.clock + 1))
  | .setState _ | .setProtected _ | .setLocked _ => r.lastUse

def step (r : SetRun) : Event → Except SetFault SetRun
  | .lookup anAddress => .ok { r with lookup := some (r.set.lookupBlock anAddress) }
  | .use u =>
    match r.lookup with
    | none => .error .noLookup
    | some lookup => do
      let (set, lookup) ← r.set.use lookup u
      .ok
        { set := set
          lookup := some lookup
          clock := r.clock + 1
          lastUse := (lookup.theBlock.map fun w => r.stamp w u).getD r.lastUse }

/-- What holds after any run of a set with a number of ways. -/
structure Consistent (n : Nat) (r : SetRun) : Prop where
  assoc : r.set.theAssociativity = n
  tags : ∃ k, SetLRU.TouchedFrom k r.set ∧ ∀ lookup, r.lookup = some lookup → SetLRU.InHand k r.set lookup
  ranked : Ranked r.lastUse r.set.theMRUOrder
  stamps : ∀ w < n, r.lastUse w ≤ r.clock ∧ -(n + r.clock : Int) ≤ r.lastUse w

variable {n : Nat} {r r' : SetRun}

theorem consistent_create (n : Nat) : Consistent n (create n) where
  assoc := rfl
  tags := ⟨n, SetLRU.touchedFrom_create n, fun _ h => by cases h⟩
  ranked := SetLRU.ranked_range n
  stamps := fun w hw => by
    simp only [create]
    omega

/-- The stamp of a use ranks the way where the use puts it. -/
theorem Consistent.ranked_stamp {u : SetLRU.Use} {w : Nat} (hr : Consistent n r) :
    Ranked (r.stamp w u) (u.reorder w r.set.theMRUOrder) := by
  obtain ⟨k, ht, -⟩ := hr.tags
  have hstamps : ∀ v ∈ r.set.theMRUOrder,
      r.lastUse v < r.clock + 1 ∧ -(r.set.theAssociativity + r.clock + 1 : Int) < r.lastUse v := by
    intro v hv
    have hstamp := hr.stamps v (hr.assoc ▸ ht.mem_order.mp hv)
    have hassoc := hr.assoc
    omega
  cases u with
  | recordAccess | allocate | replaceLocked => exact hr.ranked.promote fun v hv => (hstamps v hv).1
  | invalidateBlock => exact hr.ranked.demote fun v hv => (hstamps v hv).2
  | setState | setProtected | setLocked => exact hr.ranked

theorem Consistent.stamp_bounds {u : SetLRU.Use} {w v : Nat} (hr : Consistent n r) (hv : v < n) :
    r.stamp w u v ≤ (r.clock + 1 : Nat) ∧ -(n + (r.clock + 1 : Nat) : Int) ≤ r.stamp w u v := by
  have hstamp := hr.stamps v hv
  have hassoc := hr.assoc
  cases u <;> simp only [stamp, Function.update_apply] <;> (try split) <;> omega

/-- One event moves at most one way. -/
theorem Consistent.step {e : Event} (hr : Consistent n r) (h : r.step e = .ok r') :
    Consistent n r' ∧ ∃ w, r'.set.theMRUOrder.erase w = r.set.theMRUOrder.erase w := by
  obtain ⟨k, ht, hin⟩ := hr.tags
  cases e with
  | lookup a =>
    cases h
    exact ⟨⟨hr.assoc, ⟨k, ht, fun _ hl => Option.some.inj hl ▸ SetLRU.lookupBlock_inHand ht⟩, hr.ranked,
      hr.stamps⟩, 0, rfl⟩
  | use u =>
    simp only [SetRun.step] at h
    split at h
    · cases h
    · next lookup hlookup =>
      cases huse : r.set.use lookup u with
      | error => rw [huse] at h; cases h
      | ok result =>
        obtain ⟨set, lookup'⟩ := result
        rw [huse] at h
        cases h
        obtain ⟨k', w, hused⟩ := SetLRU.use_spec ht (hin _ hlookup) huse
        have hinHand : SetLRU.InHand k' set lookup' :=
          hused.touched.inHand hused.le hused.lt hused.block hused.tag
        simp only [hused.block, Option.map_some, Option.getD_some]
        refine ⟨⟨hused.assoc.trans hr.assoc, ⟨k', hused.touched, fun _ hl => ?_⟩, ?_, fun v hv => ?_⟩,
          w, ?_⟩
        · exact Option.some.inj hl ▸ hinHand
        · change Ranked _ set.theMRUOrder
          rw [hused.order]
          exact hr.ranked_stamp
        · exact hr.stamp_bounds hv
        · rw [hused.order]
          cases u with
          | recordAccess | allocate | replaceLocked => exact erase_promote
          | invalidateBlock => exact erase_demote ht.nodup
          | setState | setProtected | setLocked => rfl

/-- The replacement of a set, after any run from its creation. The order is one of the ways, the
    loops move one way to either end and leave the others in order, as does every event, the
    victim is the way used longest ago of those neither protected nor locked, and no two valid
    ways have one tag. -/
theorem replacement_correct (hrun : Reaches step Anything (create n) r) :
    r.set.theMRUOrder.Perm (List.range n) ∧
    (∀ w < n,
      r.set.moveToHead w = .ok { r.set with theMRUOrder := w :: r.set.theMRUOrder.erase w } ∧
      r.set.moveToTail w = .ok { r.set with theMRUOrder := r.set.theMRUOrder.erase w ++ [w] }) ∧
    (∀ e r', r.step e = .ok r' → ∃ w, r'.set.theMRUOrder.erase w = r.set.theMRUOrder.erase w) ∧
    (∀ w, r.set.pickVictim = .ok w ↔ w < n ∧ r.set.Evictable w = true ∧
      ∀ v < n, r.set.Evictable v = true → v ≠ w → r.lastUse w < r.lastUse v) ∧
    ∀ v w, v < n → w < n → (r.set.theBlocks v).valid = true → (r.set.theBlocks w).valid = true →
      (r.set.theBlocks v).tag = (r.set.theBlocks w).tag → v = w := by
  have hr : Consistent n r := hrun.invariant (consistent_create n) fun _ _ _ hr _ h => (hr.step h).1
  obtain ⟨k, ht, -⟩ := hr.tags
  have hmem : ∀ v, v ∈ r.set.theMRUOrder ↔ v < n := fun v => by rw [ht.mem_order, hr.assoc]
  refine ⟨hr.assoc ▸ ht.perm, fun w hw => ⟨?_, ?_⟩, fun e r' h => (hr.step h).2, fun w => ?_, ?_⟩
  · exact SetLRU.moveToHead_eq ((hmem w).mpr hw)
  · exact SetLRU.moveToTail_eq ((hmem w).mpr hw) ht.length_order
  · rw [SetLRU.pickVictim, SetLRU.pickLast_eq_ok, hr.ranked.find_reverse]
    simp only [hmem]
  · intro v w hv hw hvalid hvalid' htag
    rw [← hr.assoc] at hv hw
    exact ht.valid_unique hv hw (Block.valid_iff.mp hvalid) (Block.valid_iff.mp hvalid') htag

/-- Two blocks fill a set of two ways. The second is given up, and the third takes its way. -/
theorem replacement_correct_three :
    ∃ r, Reaches step Anything (create 2) r ∧ r.set.pickVictim = .ok 1 ∧
      r.set.theMRUOrder.Perm (List.range 2) := by
  have hruns : ((runWhile step (fun _ _ => true) (create 2)
      [.lookup 64, .use .allocate, .use (.setState .Shared), .lookup 128, .use .allocate,
        .use (.setState .Modified), .use (.setProtected true), .lookup 64, .use .invalidateBlock,
        .lookup 192, .use .allocate]).any fun r =>
          decide (r.set.pickVictim = .ok 1 ∧ r.set.theMRUOrder = [1, 0])) = true := by
    decide
  obtain ⟨r, hreach, hr⟩ := exists_reaches (fun _ _ _ => trivial) hruns
  exact ⟨r, hreach, (of_decide_eq_true hr).1, (replacement_correct hreach).1⟩

end SetRun

end nCMPCache
