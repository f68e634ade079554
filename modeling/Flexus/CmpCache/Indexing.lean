import Flexus.CmpCache.BankedArray
import Flexus.CmpCache.Directory
import Flexus.FastCMPCache.DirectoryFlexpoint
import Flexus.Lib.XorShift

/-!
# The index of the array and of the directory of a bank

The masks and the shifts by which an address is taken apart are set up once. There are three
fields of index bits, below the bits of the bank, between these and the bits of the group, and
above them. The directory can fold the upper bits of an address into the index first. The
arithmetic is that of signed numbers, in which a field can have a negative width.
-/

namespace nCMPCache

open SetArray XorShift
open nFastCache (BlockSerializer)
open nFastCMPCache (StdDirEntrySerializer)

/-- A failed assertion, and a shift by a negative number of places, which has no result. -/
inductive InitFault where
  | assertion
  | negativeShift
  deriving DecidableEq, Repr

def shl (x : Nat) (count : Int) : Except InitFault Nat :=
  if 0 ≤ count then .ok (x <<< count.toNat) else .error .negativeShift

/-- The complement of a number of 64 bits. -/
def not64 (x : Nat) : Nat := (2 ^ 64 - 1) ^^^ x

structure IndexFields where
  setLowMask : Nat
  setMidMask : Nat
  setHighMask : Nat
  setLowShift : Nat
  setMidShift : Nat
  setHighShift : Nat
  theBankMask : Nat
  theBankShift : Nat
  theGroupMask : Nat
  theGroupShift : Nat
  tagMask : Nat
  deriving DecidableEq, Repr

namespace IndexFields

variable (f : IndexFields)

def makeSet (a : MemoryAddress) : Nat :=
  (a >>> f.setLowShift &&& f.setLowMask) ||| (a >>> f.setMidShift &&& f.setMidMask) |||
    (a >>> f.setHighShift &&& f.setHighMask)

def getBank (a : MemoryAddress) : Nat := a >>> f.theBankShift &&& f.theBankMask

def getGroup (a : MemoryAddress) : Nat := a >>> f.theGroupShift &&& f.theGroupMask

def makeTag (a : MemoryAddress) : MemoryAddress := a &&& f.tagMask

end IndexFields

namespace StdArrayInfo

variable (info : StdArrayInfo)

/-- What the directory asserts. -/
def DirectoryAsserts : Prop :=
  0 < info.theNumSets ∧ 0 < info.theAssociativity ∧ 0 < info.theBlockSize ∧
    (info.theBlockSize - 1) &&& info.theBlockSize = 0 ∧
    (info.theBankInterleaving - 1) &&& info.theBankInterleaving = 0 ∧
    (info.theGroupInterleaving - 1) &&& info.theGroupInterleaving = 0 ∧
    info.theBankInterleaving * info.theBanks ≤ info.theGroupInterleaving

/-- The array also asserts that the number of its sets is a power of two. -/
def ArrayAsserts : Prop :=
  info.DirectoryAsserts ∧ info.theNumSets &&& (info.theNumSets - 1) = 0

instance : Decidable info.DirectoryAsserts :=
  inferInstanceAs (Decidable (_ ∧ _ ∧ _ ∧ _ ∧ _ ∧ _ ∧ _))

instance : Decidable info.ArrayAsserts := inferInstanceAs (Decidable (_ ∧ _))

/-- The widths of the three fields. When the lower two are wider than the index, the middle one is
    what the lowest leaves of it. -/
def fieldBits : Int × Int × Int :=
  let lowBits : Int := info.bankInterleavingBits - info.blockOffsetBits
  let midBits : Int := info.groupInterleavingBits - info.bankInterleavingBits - info.bankBits
  let highBits : Int := info.indexBits - midBits - lowBits
  if midBits + lowBits > info.indexBits then (lowBits, info.indexBits - lowBits, 0)
  else (lowBits, midBits, highBits)

def indexFields : Except InitFault IndexFields := do
  let (lowBits, midBits, highBits) := info.fieldBits
  let low ← shl 1 lowBits
  let mid ← shl 1 midBits
  let high ← shl 1 highBits
  let setMidMask ← shl (mid - 1) lowBits
  let setHighMask ← shl (high - 1) (midBits + lowBits)
  .ok
    { setLowMask := low - 1
      setMidMask := setMidMask
      setHighMask := setHighMask
      setLowShift := info.blockOffsetBits
      setMidShift := info.bankBits + info.blockOffsetBits
      setHighShift := info.groupBits + info.bankBits + info.blockOffsetBits
      theBankMask := info.theBanks - 1
      theBankShift := info.bankInterleavingBits
      theGroupMask := info.theGroups - 1
      theGroupShift := info.groupInterleavingBits
      tagMask := not64 0 &&& not64 (info.theBlockSize - 1) }

/-- The array of a bank whose addresses are folded before they are taken apart. -/
def banked {β γ : Type} (R : SetReader β γ) (f : IndexFields) (skewed : MemoryAddress → Option MemoryAddress)
    (globalSet : MemoryAddress → Nat) : BankedArray β γ where
  toSetReader := R
  theNumSets := info.theNumSets
  theAssociativity := info.theAssociativity
  theBlockSize := info.theBlockSize
  theBanks := info.theBanks
  theGroups := info.theGroups
  makeSet := fun a => (skewed a).map f.makeSet
  getBank := fun a => (skewed a).map f.getBank
  getGroup := fun a => (skewed a).map f.getGroup
  makeTag := f.makeTag
  globalSet := globalSet

end StdArrayInfo

/-! ## The array -/

inductive ReplacementPolicy where
  | REPLACEMENT_LRU
  | REPLACEMENT_PLRU
  deriving DecidableEq, Repr

/-- A set of the array. The bits by which the second policy replaces are not loaded. -/
inductive CacheSet where
  | setLRU (set : SetLRU Block)
  | setPseudoLRU (theBlocks : Nat → Block)

namespace CacheSet

def create (theAssociativity : Nat) : ReplacementPolicy → CacheSet
  | .REPLACEMENT_LRU => .setLRU (.create theAssociativity Block.fresh)
  | .REPLACEMENT_PLRU => .setPseudoLRU fun _ => Block.fresh

def theBlocks : CacheSet → Nat → Block
  | .setLRU set => set.theBlocks
  | .setPseudoLRU theBlocks => theBlocks

/-- The second policy reads nothing. -/
def loadState (theAssociativity : Nat) (items : List BlockSerializer) :
    CacheSet → Option (CacheSet × List BlockSerializer)
  | .setLRU set =>
    match nCMPCache.loadState theAssociativity items set with
    | some (set, rest) => some (.setLRU set, rest)
    | none => none
  | .setPseudoLRU theBlocks => some (.setPseudoLRU theBlocks, items)

/-- The first entry of a record is that of the last way. -/
def reader (theAssociativity : Nat) (policy : ReplacementPolicy) : SetReader BlockSerializer CacheSet where
  loadSet := loadState theAssociativity
  emptySet := create theAssociativity policy
  Readable := fun bs => (CacheState.char2State bs.state).isSome
  Stored := fun record set => ∀ i bs, record.reverse[i]? = some bs →
    ∃ state, CacheState.char2State bs.state = some state ∧
      set.theBlocks i = Block.kind.assign Block.fresh bs.tag state

/-- A set under the first policy has what it read. -/
theorem reader_sound {theAssociativity : Nat} (h : 0 < theAssociativity) :
    (reader theAssociativity .REPLACEMENT_LRU).Sound theAssociativity where
  reads := by
    intro r hlength hreadable
    let stateOf (bs : BlockSerializer) : CacheState := (CacheState.char2State bs.state).getD .Invalid
    have hstate : ∀ bs ∈ r, CacheState.char2State bs.state = some (stateOf bs) := by
      intro bs hbs
      obtain ⟨state, hs⟩ := Option.isSome_iff_exists.mp (hreadable bs hbs)
      simp only [stateOf, hs, Option.getD_some]
    obtain ⟨t, hfill, -, -, hblocks⟩ := SetLRU.fillDown_spec (s := .create theAssociativity Block.fresh)
      (n := theAssociativity) (f := fun b bs => (CacheState.char2State bs.state).map fun state =>
        Block.kind.assign b bs.tag state)
      (h := fun b bs => Block.kind.assign b bs.tag (stateOf bs)) r rfl
      (fun b bs hbs => by rw [hstate bs hbs]; rfl)
    refine ⟨.setLRU t, ⟨hlength, fun rest => ?_⟩, fun i bs hbs => ?_⟩
    · have hload := hfill rest
      rw [hlength] at hload
      simp only [reader, loadState, create, nCMPCache.loadState, hload]
    · have hmem : bs ∈ r := List.mem_reverse.mp (List.mem_of_getElem? hbs)
      exact ⟨stateOf bs, hstate bs hmem, hblocks i bs hbs⟩
  distinct := by
    let record (g : Nat) : List BlockSerializer := List.replicate theAssociativity { tag := g + 1, state := 'S' }
    have htag : ∀ g v, (reader theAssociativity .REPLACEMENT_LRU).Stored (record g) v →
        (v.theBlocks 0).tag = g + 1 := by
      intro g v hstored
      have hfirst : (record g).reverse[0]? = some { tag := g + 1, state := 'S' } := by
        simp [record, h]
      obtain ⟨state, -, hblock⟩ := hstored 0 _ hfirst
      rw [hblock]
      rfl
    refine ⟨record, fun g => ⟨List.length_replicate, fun bs hbs => ?_⟩, fun g hstored => ?_,
      fun g g' v hg hg' => ?_⟩
    · rw [List.eq_of_mem_replicate hbs]
      rfl
    · have hzero := htag g _ hstored
      cases hzero
    · have hsame : g + 1 = g' + 1 := (htag g v hg).symm.trans (htag g' v hg')
      omega

end CacheSet

/-! ## The directory -/

/-- The assignment of the bits of an archive. -/
def SimpleDirectoryState.assign (s : SimpleDirectoryState) (bits : BitVec 64) : SimpleDirectoryState :=
  ⟨(List.range s.theSharers.length).map bits.getLsbD⟩

/-- The lowest bit of a tag is that of the protection, which stays. -/
def DirBlock.assign (b : DirBlock) (serializer : StdDirEntrySerializer) : DirBlock :=
  { b with tag := serializer.tag >>> 1 <<< 1, state := b.state.assign serializer.state }

namespace DirSet

/-- Fill the ways from one on with as many entries as given. -/
def fillUp : Nat → Nat → List StdDirEntrySerializer → (Nat → DirBlock) →
    Option ((Nat → DirBlock) × List StdDirEntrySerializer)
  | 0, _, items, set => some (set, items)
  | _ + 1, _, [], _ => none
  | k + 1, way, serializer :: items, set =>
    fillUp k (way + 1) items (Function.update set way ((set way).assign serializer))

def loadState (theAssociativity : Nat) (items : List StdDirEntrySerializer) (set : Nat → DirBlock) :
    Option ((Nat → DirBlock) × List StdDirEntrySerializer) :=
  fillUp theAssociativity 0 items set

def create (theNumSharers : Nat) : Nat → DirBlock := fun _ =>
  { tag := 0, isProtected := false, state := .create theNumSharers }

def reader (theAssociativity theNumSharers : Nat) : SetReader StdDirEntrySerializer (Nat → DirBlock) where
  loadSet := loadState theAssociativity
  emptySet := create theNumSharers
  Readable := fun _ => True
  Stored := fun record set => ∀ i serializer, record[i]? = some serializer →
    set i = (create theNumSharers i).assign serializer

theorem fillUp_spec (items rest : List StdDirEntrySerializer) :
    ∀ way (set : Nat → DirBlock), fillUp items.length way (items ++ rest) set =
      some (fun v => if way ≤ v then (items[v - way]?).elim (set v) (set v).assign else set v, rest) := by
  induction items with
  | nil =>
    intro way set
    simp [fillUp]
  | cons serializer items ih =>
    intro way set
    rw [List.length_cons, List.cons_append, fillUp, ih]
    congr 2
    funext v
    rcases Nat.lt_trichotomy v way with hlt | rfl | hgt
    · rw [if_neg (by omega), if_neg (by omega), Function.update_of_ne (by omega)]
    · rw [if_neg (by omega), if_pos le_rfl, Function.update_self, Nat.sub_self]
      rfl
    · have hindex : v - way = v - (way + 1) + 1 := by omega
      rw [if_pos (by omega), if_pos (by omega), Function.update_of_ne (by omega), hindex,
        List.getElem?_cons_succ]

/-- A set of the directory has what it read. -/
theorem reader_sound {theAssociativity theNumSharers : Nat} (h : 0 < theAssociativity) :
    (reader theAssociativity theNumSharers).Sound theAssociativity where
  reads := by
    intro r hlength _
    refine ⟨fun v => (r[v]?).elim (create theNumSharers v) (create theNumSharers v).assign,
      ⟨hlength, fun rest => ?_⟩, ?_⟩
    · simp only [reader, loadState]
      rw [← hlength, fillUp_spec]
      simp
    · intro i serializer hi
      simp only [hi, Option.elim_some]
  distinct := by
    let record (g : Nat) : List StdDirEntrySerializer :=
      List.replicate theAssociativity { tag := 2 * (g + 1), state := 0 }
    have htag : ∀ g v, (reader theAssociativity theNumSharers).Stored (record g) v →
        (v 0).tag = 2 * (g + 1) := by
      intro g v hstored
      have hfirst : (record g)[0]? = some { tag := 2 * (g + 1), state := 0 } := by
        simp [record, h]
      have hround : (2 * (g + 1)) >>> 1 <<< 1 = 2 * (g + 1) := by
        rw [Nat.shiftRight_eq_div_pow, Nat.shiftLeft_eq]
        omega
      rw [hstored 0 _ hfirst, DirBlock.assign]
      exact hround
    refine ⟨record, fun g => ⟨List.length_replicate, fun _ _ => trivial⟩, fun g hstored => ?_,
      fun g g' v hg hg' => ?_⟩
    · have hzero := htag g _ hstored
      cases hzero
    · have hsame : 2 * (g + 1) = 2 * (g' + 1) := (htag g v hg).symm.trans (htag g' v hg')
      omega

end DirSet

namespace StdArrayInfo

variable (info : StdArrayInfo)

/-- The functional cache that writes the archive of the array. -/
def fastCache (h : 0 < info.theAssociativity) : nFastCache.Geometry where
  theNumSets := info.theTotalSets
  theAssoc := info.theAssociativity
  theBlockSize := info.theBlockSize
  assoc_pos := h

/-- The functional directory that writes the archive of the directory. -/
def fastDirectory (theSkewSet : Bool) (h : 0 < info.theAssociativity) : nFastCMPCache.StandardConfig where
  theNumSets := info.theTotalSets
  theAssociativity := info.theAssociativity
  theSkewSet := theSkewSet
  theSpecialInterleaving := false
  theSetShift := info.blockOffsetBits
  theSkewShift := 34 - info.theTotalSets.log2
  theReplPolicy := .LRURepl
  associativity_pos := h

def stdArray (policy : ReplacementPolicy) : Except InitFault (BankedArray BlockSerializer CacheSet) :=
  if h : info.ArrayAsserts then do
    let f ← info.indexFields
    .ok (info.banked (CacheSet.reader info.theAssociativity policy) f some (info.fastCache h.1.2.1).get_set)
  else .error .assertion

def skewShift : Int := 34 - (info.indexBits + info.bankBits + info.blockOffsetBits)

def skew (theSkewSet : Bool) (a : MemoryAddress) : Option MemoryAddress :=
  if theSkewSet then
    if 0 ≤ info.skewShift then some (xorShift info.skewShift.toNat a) else none
  else some a

def stdDirectory (theSkewSet : Bool) (theNumSharers : Nat) :
    Except InitFault (BankedArray StdDirEntrySerializer (Nat → DirBlock)) :=
  if h : info.DirectoryAsserts then do
    let f ← info.indexFields
    .ok (info.banked (DirSet.reader info.theAssociativity theNumSharers) f (info.skew theSkewSet)
      (info.fastDirectory theSkewSet h.2.1).get_set)
  else .error .assertion

end StdArrayInfo

end nCMPCache
