import Flexus.CmpCache.Flexpoint
import Flexus.Lib.Dealing

/-!
# Sets dealt out to banks

What the array of a bank and its directory have in common: a set for every address, the bank
and the group of every address, a tag, and a loader that goes through the archive of the whole
cache, counts the sets whose first address is its own, and skips the others. A shift by a
negative number of places has no result.
-/

namespace nCMPCache

open Dealing

/-- How a set is loaded from its record, which has an entry for each way. -/
structure SetReader (β γ : Type) where
  loadSet : List β → γ → Option (γ × List β)
  emptySet : γ
  Readable : β → Prop
  Stored : List β → γ → Prop

namespace SetReader

variable {β γ : Type} (R : SetReader β γ) (theAssociativity : Nat)

/-- Every set of the whole cache was written with an entry for each way that can be read. -/
def Written (records : Nat → List β) : Prop :=
  ∀ g, (records g).length = theAssociativity ∧ ∀ x ∈ records g, R.Readable x

/-- A set that is loaded has the record that it read, and some records are such that no set has
    two of them, or one without reading. -/
structure Sound : Prop where
  reads : ∀ r : List β, r.length = theAssociativity → (∀ x ∈ r, R.Readable x) →
    ∃ v, Reads theAssociativity R.loadSet R.emptySet r v ∧ R.Stored r v
  distinct : ∃ records, R.Written theAssociativity records ∧ (∀ g, ¬ R.Stored (records g) R.emptySet) ∧
    ∀ g g' v, R.Stored (records g) v → R.Stored (records g') v → g = g'

end SetReader

/-- A banked array, with the set of the whole cache under which the functional simulator writes
    the record of an address. -/
structure BankedArray (β γ : Type) extends SetReader β γ where
  theNumSets : Nat
  theAssociativity : Nat
  theBlockSize : Nat
  theBanks : Nat
  theGroups : Nat
  makeSet : MemoryAddress → Option Nat
  getBank : MemoryAddress → Option Nat
  getGroup : MemoryAddress → Option Nat
  makeTag : MemoryAddress → MemoryAddress
  globalSet : MemoryAddress → Nat

namespace BankedArray

variable {β γ : Type} (A : BankedArray β γ)

def theTotalSets : Nat := A.theNumSets * A.theBanks * A.theGroups

/-- The address belongs to the bank and the group of a node. -/
def Local (theNodeId : Nat) (a : MemoryAddress) : Prop :=
  A.getBank a = some (theNodeId % A.theBanks) ∧ A.getGroup a = some (theNodeId / A.theBanks)

instance (theNodeId : Nat) (a : MemoryAddress) : Decidable (A.Local theNodeId a) :=
  inferInstanceAs (Decidable (_ ∧ _))

def isLocal (theNodeId global_set : Nat) : Bool := decide (A.Local theNodeId (global_set * A.theBlockSize))

/-- Load the part of a node. The number of all sets is a signed number of 32 bits. -/
def loadState (theNodeId set_count associativity : Nat) (items : List β) : Option (Nat → γ) :=
  if A.theTotalSets < 2 ^ 31 ∧ set_count = A.theTotalSets ∧ associativity = A.theAssociativity then
    deal (A.isLocal theNodeId) A.theNumSets A.theAssociativity A.loadSet A.theTotalSets 0 0 items
      fun _ => A.emptySet
  else none

/-- The indexing of a banked array is right: every address has a set of the array, every set is
    that of an address of every bank, addresses that differ in nothing the array looks at are in
    one block, and every bank loads, for each of its addresses, the record that was written for
    the address into the set in which it looks the address up. -/
structure Indexed : Prop where
  makeSet_lt : ∀ a < 2 ^ 64, ∃ m < A.theNumSets, A.makeSet a = some m
  exists_address : ∀ theNodeId < A.theBanks * A.theGroups, ∀ m < A.theNumSets,
    ∃ a < 2 ^ 64, A.Local theNodeId a ∧ A.makeSet a = some m
  block_eq : ∀ a < 2 ^ 64, ∀ b < 2 ^ 64, A.getBank a = A.getBank b → A.getGroup a = A.getGroup b →
    A.makeSet a = A.makeSet b → A.makeTag a = A.makeTag b → a / A.theBlockSize = b / A.theBlockSize
  loaded : ∀ theNodeId < A.theBanks * A.theGroups, ∀ records : Nat → List β,
    A.Written A.theAssociativity records → ∃ theSets, A.loadState theNodeId A.theTotalSets A.theAssociativity
        ((List.range A.theTotalSets).flatMap records) = some theSets ∧
      ∀ a < 2 ^ 64, A.Local theNodeId a → ∀ m, A.makeSet a = some m →
        A.Stored (records (A.globalSet a)) (theSets m)

variable {A} {theNodeId a b m m' : Nat}

/-- The record of an address is that of the set of its own bank in which it is looked up. -/
theorem Indexed.place (hA : A.Indexed) (hreader : A.Sound A.theAssociativity)
    (hnode : theNodeId < A.theBanks * A.theGroups) (ha : a < 2 ^ 64) (hlocal : A.Local theNodeId a)
    (hset : A.makeSet a = some m) :
    A.theTotalSets < 2 ^ 31 ∧ A.globalSet a < A.theTotalSets ∧
      A.isLocal theNodeId (A.globalSet a) = true ∧
      Nat.count (A.isLocal theNodeId · = true) (A.globalSet a) = m := by
  obtain ⟨records, hwritten, hempty, hinj⟩ := hreader.distinct
  choose done hreads hstored using fun g => hreader.reads _ (hwritten g).1 (hwritten g).2
  obtain ⟨theSets, hload, hsets⟩ := hA.loaded theNodeId hnode records hwritten
  have hrecord := hsets a ha hlocal m hset
  unfold loadState at hload
  split at hload
  · next hhead =>
    refine ⟨hhead.1, ?_⟩
    rcases deal_place hreads hload m with ⟨j, hj, hmine, hcount, hdone⟩ | hfresh
    · rw [hdone] at hrecord
      obtain rfl := hinj _ _ _ hrecord (hstored j)
      exact ⟨hj, hmine, hcount⟩
    · rw [hfresh] at hrecord
      exact absurd hrecord (hempty _)
  · cases hload

/-- Addresses of one bank that are looked up in one set have one record. -/
theorem Indexed.globalSet_eq (hA : A.Indexed) (hreader : A.Sound A.theAssociativity)
    (hnode : theNodeId < A.theBanks * A.theGroups) (ha : a < 2 ^ 64) (hb : b < 2 ^ 64)
    (hlocal : A.Local theNodeId a) (hlocal' : A.Local theNodeId b) (hset : A.makeSet a = some m)
    (hset' : A.makeSet b = some m) : A.globalSet a = A.globalSet b := by
  obtain ⟨-, -, hmine, hcount⟩ := hA.place hreader hnode ha hlocal hset
  obtain ⟨-, -, hmine', hcount'⟩ := hA.place hreader hnode hb hlocal' hset'
  exact Nat.count_injective hmine hmine' (hcount.trans hcount'.symm)

end BankedArray

namespace StdArrayInfo

variable {info : StdArrayInfo}

/-- The loader of the array is an instance of dealing out a stream. -/
theorem loadSets_eq_deal (theNodeId k : Nat) : ∀ s place items theSets,
    info.loadSets theNodeId k s place items theSets =
      deal (info.isLocal theNodeId) info.theNumSets info.theAssociativity
        (nCMPCache.loadState info.theAssociativity) k s place items theSets := by
  induction k with
  | zero => exact fun _ _ _ _ => rfl
  | succ k ih =>
    intro s place items theSets
    simp only [loadSets, deal, ih]
    rcases nCMPCache.loadState info.theAssociativity items (theSets place) with _ | ⟨v, rest⟩ <;> rfl

namespace Layout

variable {off low bank mid group high theNodeId s m : Nat}

theorem localIndex_eq_count (h : info.Layout off low bank mid group high)
    (hnode : theNodeId < info.theBanks * info.theGroups) (hs : s ≤ info.theTotalSets) :
    h.localIndex theNodeId s = Nat.count (info.isLocal theNodeId · = true) s := by
  induction s with
  | zero => simp [localIndex]
  | succ s ih =>
    rw [h.localIndex_succ (by omega) hnode, ih (by omega), Nat.count_succ]

/-- Every node has as many sets as its array. -/
theorem localIndex_total (h : info.Layout off low bank mid group high) :
    h.localIndex theNodeId info.theTotalSets = info.theNumSets := by
  have hrank : ∀ A K d R : Nat, 0 < A * K → Interleave.rank A K d (A * K * R) = A * R := by
    intro A K d R hpos
    rw [Interleave.rank, Nat.mul_div_cancel_left _ hpos, Nat.mul_mod_right, Nat.zero_sub, Nat.zero_min,
      Nat.add_zero, Nat.mul_comm]
  have hpos : ∀ i, 0 < 2 ^ i := Nat.two_pow_pos
  have htotal : info.theTotalSets = 2 ^ low * 2 ^ bank * (2 ^ mid * 2 ^ group * 2 ^ high) := by
    rw [h.total]
    ring
  have hinner : 2 ^ low * (2 ^ mid * 2 ^ group * 2 ^ high) = 2 ^ low * 2 ^ mid * 2 ^ group * 2 ^ high := by
    ring
  rw [localIndex, htotal, hrank _ _ _ _ (Nat.mul_pos (hpos _) (hpos _)), hinner,
    hrank _ _ _ _ (Nat.mul_pos (Nat.mul_pos (hpos _) (hpos _)) (hpos _)), h.numSets, Nat.pow_add, Nat.pow_add]

/-- Every set of a node is the place of one of its sets in the whole cache. -/
theorem exists_local (h : info.Layout off low bank mid group high)
    (hnode : theNodeId < info.theBanks * info.theGroups) (hm : m < info.theNumSets) :
    ∃ τ < info.theTotalSets, info.isLocal theNodeId τ = true ∧ info.makeSet (τ * info.theBlockSize) = m := by
  rw [← h.localIndex_total, h.localIndex_eq_count hnode le_rfl] at hm
  obtain ⟨τ, hτ, hlocal, rfl⟩ := exists_count_eq hm
  exact ⟨τ, hτ, hlocal, by rw [← h.localIndex_eq hτ hlocal, h.localIndex_eq_count hnode hτ.le]⟩

end Layout

end StdArrayInfo

/-- An array whose addresses fall under the sets of the whole cache, of which every bank has its
    own, is right. -/
theorem BankedArray.indexed_of_layout {β γ : Type} {A : BankedArray β γ} {info : StdArrayInfo}
    {off low bank mid group high : Nat} (h : info.Layout off low bank mid group high)
    (hreader : A.Sound A.theAssociativity) (hsets : A.theNumSets = info.theNumSets)
    (hbanks : A.theBanks = info.theBanks) (hgroups : A.theGroups = info.theGroups)
    (htotal : A.theTotalSets < 2 ^ 31)
    (hglobal : ∀ a, A.globalSet a < A.theTotalSets)
    (hsurj : ∀ τ < A.theTotalSets, ∃ a < 2 ^ 64, A.globalSet a = τ)
    (hlocal : ∀ theNodeId a, A.Local theNodeId a ↔ info.isLocal theNodeId (A.globalSet a) = true)
    (hload : ∀ theNodeId, ∀ s < A.theTotalSets, A.isLocal theNodeId s = info.isLocal theNodeId s)
    (hset : ∀ a, A.makeSet a = some (info.makeSet (A.globalSet a * info.theBlockSize)))
    (htag : ∀ a < 2 ^ 64, ∀ b < 2 ^ 64, A.makeTag a = A.makeTag b →
      a / A.theBlockSize = b / A.theBlockSize) : A.Indexed := by
  have htotal' : A.theTotalSets = info.theTotalSets := by
    rw [theTotalSets, hsets, hbanks, hgroups]
    rfl
  have hcount : ∀ theNodeId, ∀ s ≤ A.theTotalSets, Nat.count (A.isLocal theNodeId · = true) s =
      Nat.count (info.isLocal theNodeId · = true) s := by
    intro theNodeId s hs
    induction s with
    | zero => rfl
    | succ s ih =>
      rw [Nat.count_succ, Nat.count_succ, ih (by omega), hload theNodeId s (by omega)]
  have hplace : ∀ theNodeId < info.theBanks * info.theGroups, ∀ s < A.theTotalSets,
      info.isLocal theNodeId s = true →
        Nat.count (A.isLocal theNodeId · = true) s = info.makeSet (s * info.theBlockSize) := by
    intro theNodeId hnode s hs hmine
    rw [hcount theNodeId s hs.le, ← h.localIndex_eq_count hnode (htotal' ▸ hs.le),
      h.localIndex_eq (htotal' ▸ hs) hmine]
  constructor
  · exact fun a _ => ⟨_, hsets ▸ h.makeSet_lt _, hset a⟩
  · intro theNodeId hnode m hm
    rw [hbanks, hgroups] at hnode
    obtain ⟨τ, hτ, hmine, hm'⟩ := h.exists_local hnode (hsets ▸ hm)
    obtain ⟨a, ha, rfl⟩ := hsurj τ (htotal' ▸ hτ)
    exact ⟨a, ha, (hlocal theNodeId a).mpr hmine, by rw [hset, hm']⟩
  · exact fun a ha b hb _ _ _ => htag a ha b hb
  · intro theNodeId hnode records hwritten
    rw [hbanks, hgroups] at hnode
    choose done hreads hstored using fun g => hreader.reads _ (hwritten g).1 (hwritten g).2
    obtain ⟨theSets, hdeal, hdone⟩ := exists_deal (A.isLocal theNodeId) A.theNumSets A.theTotalSets hreads (by
        intro j hj hmine
        rw [hload theNodeId j hj] at hmine
        rw [hplace theNodeId hnode j hj hmine, hsets]
        exact h.makeSet_lt _)
    refine ⟨theSets, by rw [loadState, if_pos ⟨htotal, rfl, rfl⟩, hdeal], fun a ha hloc m hm => ?_⟩
    have hmine := (hlocal theNodeId a).mp hloc
    rw [hset] at hm
    rw [← Option.some.inj hm, ← hplace theNodeId hnode _ (hglobal a) hmine,
      hdone _ (hglobal a) (by rw [hload theNodeId _ (hglobal a), hmine])]
    exact hstored _

end nCMPCache
