import Flexus.CmpCache.Array
import Flexus.FastCache.Flexpoint
import Flexus.Lib.Interleave

/-!
# Loading the array of a cache bank

The sets of the cache are dealt out to the banks and the groups of banks by bits of the
address. A bank reads the archive of the whole cache, counts the sets that are its own, and
skips the others.
-/

namespace nCMPCache

open SetArray Interleave
open nFastCache (BlockSerializer Archive)

/-- A block is kept from replacement while it is protected or locked. -/
def Block.kind : LineKind MemoryAddress Block CacheState where
  tag := Block.tag
  state := Block.state
  valid := fun s => decide (s ≠ .Invalid)
  replaceable := fun b => !b.isProtected && !b.isLocked
  Plain := fun b => b.isProtected = false ∧ b.isLocked = false
  assign := fun b a s => { b with tag := a, state := s }
  tag_assign := fun _ _ _ => rfl
  state_assign := fun _ _ _ => rfl
  plain_assign := fun _ _ _ h => h
  replaceable_of_plain := fun b h => by simp [h]

/-- A block as it is before anything is loaded. -/
def Block.fresh : Block := { tag := 0, state := .Invalid }

def CacheState.char2State : Char → Option CacheState
  | 'M' => some .Modified
  | 'O' => some .Owned
  | 'E' => some .Exclusive
  | 'S' => some .Shared
  | 'I' => some .Invalid
  | 'P' => some .InvalidPresent
  | 'F' => some .Forward
  | _ => none

def loadState (theAssociativity : Nat) (items : List BlockSerializer) (s : SetLRU Block) :
    Option (SetLRU Block × List BlockSerializer) :=
  SetLRU.fillDown (fun b bs => (CacheState.char2State bs.state).map fun state =>
    Block.kind.assign b bs.tag state) theAssociativity items s

structure StdArrayInfo where
  theNumSets : Nat
  theAssociativity : Nat
  theBlockSize : Nat
  theBanks : Nat
  theBankInterleaving : Nat
  theGroups : Nat
  theGroupInterleaving : Nat
  deriving DecidableEq, Repr

namespace StdArrayInfo

variable (info : StdArrayInfo)

def blockOffsetBits : Nat := info.theBlockSize.log2

def indexBits : Nat := info.theNumSets.log2

def bankBits : Nat := info.theBanks.log2

def bankInterleavingBits : Nat := info.theBankInterleaving.log2

def groupBits : Nat := info.theGroups.log2

def groupInterleavingBits : Nat := info.theGroupInterleaving.log2

def lowBits : Nat := info.bankInterleavingBits - info.blockOffsetBits

/-- The index bits between those of the bank and those of the group. -/
def midBits : Nat :=
  let midBits := info.groupInterleavingBits - info.bankInterleavingBits - info.bankBits
  if midBits + info.lowBits > info.indexBits then info.indexBits - info.lowBits else midBits

def highBits : Nat := info.indexBits - info.midBits - info.lowBits

def setLowMask : Nat := (1 <<< info.lowBits) - 1

def setMidMask : Nat := ((1 <<< info.midBits) - 1) <<< info.lowBits

def setHighMask : Nat := ((1 <<< info.highBits) - 1) <<< (info.midBits + info.lowBits)

def setLowShift : Nat := info.blockOffsetBits

def setMidShift : Nat := info.bankBits + info.blockOffsetBits

def setHighShift : Nat := info.groupBits + info.bankBits + info.blockOffsetBits

def makeSet (anAddress : MemoryAddress) : Nat :=
  (anAddress >>> info.setLowShift &&& info.setLowMask) |||
    (anAddress >>> info.setMidShift &&& info.setMidMask) |||
      (anAddress >>> info.setHighShift &&& info.setHighMask)

def getBank (anAddress : MemoryAddress) : Nat :=
  anAddress >>> info.bankInterleavingBits &&& (info.theBanks - 1)

def getGroup (anAddress : MemoryAddress) : Nat :=
  anAddress >>> info.groupInterleavingBits &&& (info.theGroups - 1)

/-- The node whose bank an address belongs to. -/
def nodeOf (anAddress : MemoryAddress) : Nat :=
  info.getGroup anAddress * info.theBanks + info.getBank anAddress

def init : Nat → SetLRU Block := fun _ => .create info.theAssociativity Block.fresh

/-- Whether a set of the whole cache belongs to the bank of a node. -/
def isLocal (theNodeId global_set : Nat) : Bool :=
  info.getBank (global_set * info.theBlockSize) == theNodeId % info.theBanks &&
    info.getGroup (global_set * info.theBlockSize) == theNodeId / info.theBanks

/-- Load the sets of a node from set `global_set` of the whole cache on. There is no set
    after the last one of the bank to load into. -/
def loadSets (theNodeId : Nat) :
    Nat → Nat → Nat → List BlockSerializer → (Nat → SetLRU Block) → Option (Nat → SetLRU Block)
  | 0, _, _, _, theSets => some theSets
  | k + 1, global_set, local_set, items, theSets =>
    if info.isLocal theNodeId global_set then
      if local_set < info.theNumSets then
        match loadState info.theAssociativity items (theSets local_set) with
        | some (s, rest) =>
          loadSets theNodeId k (global_set + 1) (local_set + 1) rest (Function.update theSets local_set s)
        | none => none
      else none
    else if info.theAssociativity ≤ items.length then
      loadSets theNodeId k (global_set + 1) local_set (items.drop info.theAssociativity) theSets
    else none

def theTotalSets : Nat := info.theNumSets * info.theBanks * info.theGroups

/-- Load a binary archive of the whole cache into the bank of a node. -/
def loadArchive (theNodeId : Nat) (ar : Archive) : Option (Nat → SetLRU Block) :=
  if ar.set_count = info.theTotalSets ∧ ar.associativity = info.theAssociativity then
    info.loadSets theNodeId info.theTotalSets 0 0 ar.blocks info.init
  else none

/-- The array has the sets of a functional cache, dealt out by bits of their number. -/
structure SameGeometry (g : nFastCache.Geometry) : Prop where
  blockSize : info.theBlockSize = g.theBlockSize
  associativity : info.theAssociativity = g.theAssoc
  sets : info.theTotalSets = g.theNumSets
  bankInterleaving : ∃ i, info.theBankInterleaving = 2 ^ i
  groupInterleaving : ∃ i, info.theGroupInterleaving = 2 ^ i
  interleaving : info.theBankInterleaving * info.theBanks ≤ info.theGroupInterleaving
  block_le : info.theBlockSize ≤ info.theBankInterleaving
  bank_le : info.theBankInterleaving * info.theBanks ≤ info.theTotalSets * info.theBlockSize
  group_le : info.theGroups = 1 ∨
    info.theGroupInterleaving * info.theGroups ≤ info.theTotalSets * info.theBlockSize

/-- The bits of an address: those of the offset, the lower index bits, those of the bank, the
    middle index bits, those of the group, and the other index bits. -/
structure Layout (off low bank mid group high : Nat) : Prop where
  blockSize : info.theBlockSize = 2 ^ off
  banks : info.theBanks = 2 ^ bank
  groups : info.theGroups = 2 ^ group
  numSets : info.theNumSets = 2 ^ (low + mid + high)
  bankInterleaving : info.theBankInterleaving = 2 ^ (off + low)
  groupInterleaving : group = 0 ∨ info.theGroupInterleaving = 2 ^ (off + low + bank + mid)
  low_eq : info.lowBits = low
  mid_eq : info.midBits = mid

variable {info} {g : nFastCache.Geometry}

theorem exists_two_pow {a b n : Nat} (h : a * b = 2 ^ n) : (∃ i, a = 2 ^ i) ∧ ∃ j, b = 2 ^ j := by
  obtain ⟨i, -, hi⟩ := (Nat.dvd_prime_pow Nat.prime_two).mp (Dvd.intro b h)
  obtain ⟨j, -, hj⟩ := (Nat.dvd_prime_pow Nat.prime_two).mp (Dvd.intro_left a h)
  exact ⟨⟨i, hi⟩, j, hj⟩

theorem SameGeometry.layout (h : info.SameGeometry g) (hblock : ∃ i, g.theBlockSize = 2 ^ i)
    (hsets : ∃ i, g.theNumSets = 2 ^ i) :
    ∃ off low bank mid group high, info.Layout off low bank mid group high := by
  obtain ⟨off, hoff⟩ := hblock
  obtain ⟨n, hn⟩ := hsets
  obtain ⟨⟨i, hi⟩, group, hgroup⟩ := exists_two_pow (h.sets.trans hn)
  obtain ⟨⟨idx, hidx⟩, bank, hbank⟩ := exists_two_pow hi
  obtain ⟨bi, hbi⟩ := h.bankInterleaving
  obtain ⟨gi, hgi⟩ := h.groupInterleaving
  have hB : info.theBlockSize = 2 ^ off := h.blockSize.trans hoff
  have htotal : info.theTotalSets = 2 ^ (idx + bank + group) := by
    rw [theTotalSets, hidx, hbank, hgroup, Nat.pow_add, Nat.pow_add]
  have hlow : off ≤ bi := by
    have := h.block_le
    rwa [hB, hbi, Nat.pow_le_pow_iff_right (by omega)] at this
  have hmid : bi + bank ≤ gi := by
    have := h.interleaving
    rwa [hbi, hbank, hgi, ← Nat.pow_add, Nat.pow_le_pow_iff_right (by omega)] at this
  have hbankfit : bi + bank ≤ idx + bank + group + off := by
    have := h.bank_le
    rwa [hbi, hbank, htotal, hB, ← Nat.pow_add, ← Nat.pow_add, Nat.pow_le_pow_iff_right (by omega)] at this
  have hgroupfit : group = 0 ∨ gi + group ≤ idx + bank + group + off := by
    rcases h.group_le with hone | hle
    · left
      rw [hgroup] at hone
      exact (Nat.pow_eq_one.mp hone).resolve_left (by omega)
    · right
      rwa [hgi, hgroup, htotal, hB, ← Nat.pow_add, ← Nat.pow_add, Nat.pow_le_pow_iff_right (by omega)] at hle
  have hlowBits : info.lowBits = bi - off := by
    simp only [lowBits, bankInterleavingBits, blockOffsetBits, hbi, hB, Nat.log2_two_pow]
  have hmidBits : info.midBits =
      if gi - bi - bank + (bi - off) > idx then idx - (bi - off) else gi - bi - bank := by
    simp only [midBits, hlowBits, groupInterleavingBits, bankInterleavingBits, bankBits, indexBits, hbi, hgi,
      hbank, hidx, Nat.log2_two_pow]
  refine ⟨off, bi - off, bank, info.midBits, group, idx - (bi - off) - info.midBits, ?_⟩
  split at hmidBits
  · exact ⟨hB, hbank, hgroup, by rw [hidx]; congr 1; omega, by rw [hbi]; congr 1; omega,
      by left; omega, hlowBits, rfl⟩
  · refine ⟨hB, hbank, hgroup, by rw [hidx]; congr 1; omega, by rw [hbi]; congr 1; omega, ?_, hlowBits, rfl⟩
    right
    rw [hgi]
    congr 1
    omega

theorem and_mask (x n s : Nat) : x &&& (((1 <<< n) - 1) <<< s) = x / 2 ^ s % 2 ^ n * 2 ^ s := by
  rw [Nat.one_shiftLeft, ← Nat.shiftRight_eq_div_pow, ← Nat.and_two_pow_sub_one_eq_mod,
    ← Nat.shiftLeft_eq]
  apply Nat.eq_of_testBit_eq
  intro i
  simp only [Nat.testBit_and, Nat.testBit_shiftLeft, Nat.testBit_shiftRight]
  by_cases hi : s ≤ i
  · simp [hi]
  · simp [hi]

theorem or_above {x y s : Nat} (h : x < 2 ^ s) : x ||| y * 2 ^ s = y * 2 ^ s + x := by
  rw [Nat.or_comm, ← Nat.shiftLeft_eq, Nat.shiftLeft_add_eq_or_of_lt h]

namespace Layout

variable {off low bank mid group high : Nat}

/-- The number of sets of the whole cache. -/
theorem total (h : info.Layout off low bank mid group high) :
    info.theTotalSets = 2 ^ low * 2 ^ bank * 2 ^ mid * 2 ^ group * 2 ^ high := by
  rw [theTotalSets, h.numSets, h.banks, h.groups, Nat.pow_add, Nat.pow_add]
  ring

theorem getBank_eq (h : info.Layout off low bank mid group high) (a : MemoryAddress) :
    info.getBank a = digit (2 ^ low) (2 ^ bank) (a / info.theBlockSize % info.theTotalSets) := by
  rw [h.total, Nat.mul_assoc (_ * _), Nat.mul_assoc (_ * _), digit_mod, getBank, bankInterleavingBits,
    h.bankInterleaving, Nat.log2_two_pow, h.banks, Nat.and_two_pow_sub_one_eq_mod,
    Nat.shiftRight_eq_div_pow, Nat.pow_add, ← Nat.div_div_eq_div_mul, h.blockSize]
  rfl

theorem getGroup_eq (h : info.Layout off low bank mid group high) (a : MemoryAddress) :
    info.getGroup a =
      digit (2 ^ low * 2 ^ bank * 2 ^ mid) (2 ^ group) (a / info.theBlockSize % info.theTotalSets) := by
  rw [h.total, digit_mod, getGroup, h.groups, Nat.and_two_pow_sub_one_eq_mod]
  rcases h.groupInterleaving with hzero | hgi
  · rw [hzero, Nat.pow_zero, digit, Nat.mod_one, Nat.mod_one]
  · rw [groupInterleavingBits, hgi, Nat.log2_two_pow, Nat.shiftRight_eq_div_pow, digit,
      Nat.add_assoc off, Nat.add_assoc off, Nat.pow_add, ← Nat.div_div_eq_div_mul, h.blockSize, Nat.pow_add,
      Nat.pow_add]

/-- The set within the bank is what is left of the set of the whole cache. -/
theorem makeSet_eq (h : info.Layout off low bank mid group high) (a : MemoryAddress) :
    info.makeSet a = dropDigit (2 ^ low * 2 ^ mid) (2 ^ group)
      (dropDigit (2 ^ low) (2 ^ bank) (a / info.theBlockSize % info.theTotalSets)) := by
  have hhigh : info.highBits = high := by
    rw [highBits, h.low_eq, h.mid_eq, indexBits, h.numSets, Nat.log2_two_pow]
    omega
  have hlowMask : ∀ x, x &&& info.setLowMask = x % 2 ^ low := by
    intro x
    rw [setLowMask, h.low_eq, Nat.one_shiftLeft, Nat.and_two_pow_sub_one_eq_mod]
  have hmidMask : ∀ x, x &&& info.setMidMask = x / 2 ^ low % 2 ^ mid * 2 ^ low := by
    intro x
    rw [setMidMask, h.low_eq, h.mid_eq, and_mask]
  have hhighMask : ∀ x, x &&& info.setHighMask = x / 2 ^ (mid + low) % 2 ^ high * 2 ^ (mid + low) := by
    intro x
    rw [setHighMask, h.low_eq, h.mid_eq, hhigh, and_mask]
  have hshift : ∀ i, a >>> (i + off) = a / info.theBlockSize / 2 ^ i := by
    intro i
    rw [Nat.shiftRight_eq_div_pow, Nat.add_comm, Nat.pow_add, ← Nat.div_div_eq_div_mul, h.blockSize]
  have hoff : info.blockOffsetBits = off := by rw [blockOffsetBits, h.blockSize, Nat.log2_two_pow]
  have hbank : info.bankBits = bank := by rw [bankBits, h.banks, Nat.log2_two_pow]
  have hgroup : info.groupBits = group := by rw [groupBits, h.groups, Nat.log2_two_pow]
  have hlowFit : a / info.theBlockSize % 2 ^ low < 2 ^ low := Nat.mod_lt _ (Nat.two_pow_pos low)
  have hmidFit : a / info.theBlockSize / 2 ^ bank / 2 ^ low % 2 ^ mid * 2 ^ low +
      a / info.theBlockSize % 2 ^ low < 2 ^ (mid + low) := by
    have hmod := Nat.mod_lt (a / info.theBlockSize / 2 ^ bank / 2 ^ low) (Nat.two_pow_pos mid)
    have hmul := Nat.mul_le_mul_right (2 ^ low) (Nat.succ_le_of_lt hmod)
    rw [Nat.succ_mul, ← Nat.pow_add] at hmul
    exact Nat.lt_of_lt_of_le (Nat.add_lt_add_left hlowFit _) hmul
  have hlowShift : a >>> off = a / info.theBlockSize := by
    rw [Nat.shiftRight_eq_div_pow, h.blockSize]
  rw [makeSet, hlowMask, hmidMask, hhighMask, setLowShift, setMidShift, setHighShift, hoff, hbank, hgroup,
    hlowShift, hshift, hshift, or_above hlowFit, or_above hmidFit, dropDigit_dropDigit (Nat.two_pow_pos low),
    h.total]
  generalize a / info.theBlockSize = n
  have htop : n % (2 ^ low * 2 ^ bank * 2 ^ mid * 2 ^ group * 2 ^ high) /
      (2 ^ low * 2 ^ bank * 2 ^ mid * 2 ^ group) = n / 2 ^ (group + bank) / 2 ^ (mid + low) % 2 ^ high := by
    rw [Nat.mod_mul_right_div_self, Nat.div_div_eq_div_mul, ← Nat.pow_add, ← Nat.pow_add, ← Nat.pow_add,
      ← Nat.pow_add]
    congr 3
    omega
  have hmiddle : n % (2 ^ low * 2 ^ bank * 2 ^ mid * 2 ^ group * 2 ^ high) / (2 ^ low * 2 ^ bank) % 2 ^ mid =
      n / 2 ^ bank / 2 ^ low % 2 ^ mid := by
    have hmod := digit_mod (A := 2 ^ low * 2 ^ bank) (K := 2 ^ mid) (n := n) (R := 2 ^ group * 2 ^ high)
    rw [← Nat.mul_assoc] at hmod
    rw [← digit, hmod, digit, Nat.div_div_eq_div_mul, Nat.mul_comm (2 ^ low)]
  have hbottom : n % (2 ^ low * 2 ^ bank * 2 ^ mid * 2 ^ group * 2 ^ high) % 2 ^ low = n % 2 ^ low := by
    rw [Nat.mul_assoc, Nat.mul_assoc, Nat.mul_assoc, Nat.mod_mul_right_mod]
  rw [htop, hmiddle, hbottom, Nat.pow_add 2 mid low, Nat.mul_comm (2 ^ mid), Nat.add_assoc]

/-- How many of the sets below `s` belong to the bank of a node. -/
def localIndex (_ : info.Layout off low bank mid group high) (theNodeId s : Nat) : Nat :=
  rank (2 ^ low * 2 ^ mid) (2 ^ group) (theNodeId / info.theBanks)
    (rank (2 ^ low) (2 ^ bank) (theNodeId % info.theBanks) s)

variable {theNodeId s : Nat}

theorem set_address (h : info.Layout off low bank mid group high) (hs : s < info.theTotalSets) :
    s * info.theBlockSize / info.theBlockSize % info.theTotalSets = s := by
  have hpos : 0 < info.theBlockSize := by
    rw [h.blockSize]
    exact Nat.two_pow_pos off
  rw [Nat.mul_div_cancel _ hpos, Nat.mod_eq_of_lt hs]

theorem isLocal_iff (h : info.Layout off low bank mid group high) (hs : s < info.theTotalSets) :
    info.isLocal theNodeId s = true ↔ digit (2 ^ low) (2 ^ bank) s = theNodeId % info.theBanks ∧
      digit (2 ^ low * 2 ^ bank * 2 ^ mid) (2 ^ group) s = theNodeId / info.theBanks := by
  unfold isLocal
  rw [Bool.and_eq_true, beq_iff_eq, beq_iff_eq, h.getBank_eq, h.getGroup_eq, h.set_address hs]

theorem localIndex_succ (h : info.Layout off low bank mid group high) (hs : s < info.theTotalSets)
    (hnode : theNodeId < info.theBanks * info.theGroups) : h.localIndex theNodeId (s + 1) =
      h.localIndex theNodeId s + if info.isLocal theNodeId s = true then 1 else 0 := by
  have hbank : theNodeId % info.theBanks < 2 ^ bank := by
    rw [h.banks]
    exact Nat.mod_lt _ (Nat.two_pow_pos bank)
  have hgroup : theNodeId / info.theBanks < 2 ^ group := by
    rw [← h.groups]
    exact Nat.div_lt_of_lt_mul hnode
  unfold localIndex
  rw [rank_rank_succ (Nat.two_pow_pos low) (Nat.two_pow_pos mid) hbank hgroup]
  simp only [h.isLocal_iff hs]

/-- The count of a node's sets gives each of them the place that its addresses look for. -/
theorem localIndex_eq (h : info.Layout off low bank mid group high) (hs : s < info.theTotalSets)
    (hlocal : info.isLocal theNodeId s = true) :
    h.localIndex theNodeId s = info.makeSet (s * info.theBlockSize) := by
  obtain ⟨hbank, hgroup⟩ := (h.isLocal_iff hs).mp hlocal
  rw [localIndex, rank_rank_of_digit (Nat.two_pow_pos low) (Nat.two_pow_pos mid) hbank hgroup, h.makeSet_eq,
    h.set_address hs]

theorem makeSet_lt (h : info.Layout off low bank mid group high) (a : MemoryAddress) :
    info.makeSet a < info.theNumSets := by
  have htotal := h.total
  have hpos : 0 < info.theTotalSets := by
    rw [htotal, ← Nat.pow_add, ← Nat.pow_add, ← Nat.pow_add, ← Nat.pow_add]
    exact Nat.two_pow_pos _
  have hlt := Nat.mod_lt (a / info.theBlockSize) hpos
  have hone : dropDigit (2 ^ low) (2 ^ bank) (a / info.theBlockSize % info.theTotalSets) <
      2 ^ low * 2 ^ mid * 2 ^ group * 2 ^ high := by
    have := dropDigit_lt (K := 2 ^ bank) (R := 2 ^ mid * 2 ^ group * 2 ^ high) (Nat.two_pow_pos low)
      (Nat.two_pow_pos bank) (n := a / info.theBlockSize % info.theTotalSets) (by
        convert hlt using 1
        rw [htotal]
        ring)
    convert this using 1
    ring
  rw [h.makeSet_eq, h.numSets, Nat.pow_add, Nat.pow_add]
  exact dropDigit_lt (Nat.mul_pos (Nat.two_pow_pos low) (Nat.two_pow_pos mid)) (Nat.two_pow_pos group) hone

/-- Every set of a node is loaded with its own part of the archive. -/
theorem loadSets_spec (h : info.Layout off low bank mid group high)
    (hnode : theNodeId < info.theBanks * info.theGroups) (chunks : Nat → List BlockSerializer)
    (done : Nat → SetLRU Block) (hlength : ∀ j, (chunks j).length = info.theAssociativity)
    (hread : ∀ j rest, loadState info.theAssociativity (chunks j ++ rest)
      (.create info.theAssociativity Block.fresh) = some (done j, rest)) (k : Nat) :
    ∀ s (theSets : Nat → SetLRU Block), s + k = info.theTotalSets →
      (∀ i, h.localIndex theNodeId s ≤ i → theSets i = .create info.theAssociativity Block.fresh) →
      ∃ filled, info.loadSets theNodeId k s (h.localIndex theNodeId s) ((List.range' s k).flatMap chunks)
          theSets = some filled ∧
        (∀ i < h.localIndex theNodeId s, filled i = theSets i) ∧
        ∀ j, s ≤ j → j < info.theTotalSets → info.isLocal theNodeId j = true →
          filled (info.makeSet (j * info.theBlockSize)) = done j := by
  induction k with
  | zero => exact fun s theSets hs _ => ⟨theSets, rfl, fun _ _ => rfl, fun j hle hlt _ => by omega⟩
  | succ k ih =>
    intro s theSets hs hfresh
    have hlt : s < info.theTotalSets := by omega
    have hnext := h.localIndex_succ hlt hnode
    rw [List.range'_succ, List.flatMap_cons, loadSets]
    by_cases hlocal : info.isLocal theNodeId s = true
    · rw [if_pos hlocal] at hnext
      have hplace := h.localIndex_eq hlt hlocal
      rw [if_pos hlocal, if_pos (hplace ▸ h.makeSet_lt _), hfresh _ le_rfl, hread]
      simp only
      rw [← hnext]
      obtain ⟨filled, hload, hbelow, hdone⟩ := ih (s + 1)
        (Function.update theSets (h.localIndex theNodeId s) (done s)) (by omega) (by
          intro i hi
          rw [Function.update_of_ne (by omega)]
          exact hfresh i (by omega))
      refine ⟨filled, hload, fun i hi => ?_, fun j hle hj hjlocal => ?_⟩
      · rw [hbelow i (by omega), Function.update_of_ne (by omega)]
      · rcases Nat.eq_or_lt_of_le hle with rfl | hlt'
        · rw [← hplace, hbelow _ (by omega), Function.update_self]
        · exact hdone j hlt' hj hjlocal
    · have hsame : h.localIndex theNodeId (s + 1) = h.localIndex theNodeId s := by
        rw [hnext, if_neg hlocal]
        rfl
      have hfit : info.theAssociativity ≤ (chunks s ++ (List.range' (s + 1) k).flatMap chunks).length := by
        rw [List.length_append, hlength]
        omega
      rw [if_neg hlocal, if_pos hfit, ← hlength s, List.drop_left, ← hsame]
      obtain ⟨filled, hload, hbelow, hdone⟩ := ih (s + 1) theSets (by omega) (by rwa [hsame])
      refine ⟨filled, hload, hbelow, fun j hle hj hjlocal => ?_⟩
      rcases Nat.eq_or_lt_of_le hle with rfl | hlt'
      · exact absurd hjlocal hlocal
      · exact hdone j hlt' hj hjlocal

end Layout

end StdArrayInfo

/-! ## What is read -/

/-- The state of a block under its name in the bank. -/
def stateOf : nFastCache.CoherenceState_t → CacheState
  | .kModified => .Modified
  | .kOwned => .Owned
  | .kExclusive => .Exclusive
  | .kShared => .Shared
  | .kInvalid => .Invalid
  | .kMigratory => .Invalid

theorem char2State_charOf (s : nFastCache.CoherenceState_t) :
    CacheState.char2State (nFastCache.charOf s) = some (stateOf s) := by
  cases s <;> rfl

theorem loadState_items {assoc : Nat} {l : nFastCache.block_set_t} (hlength : l.length ≤ assoc) :
    ∃ t, (∀ rest, loadState assoc (l.items assoc ++ rest) (.create assoc Block.fresh) = some (t, rest)) ∧
      t.theMRUOrder = List.range assoc ∧
      t.recency = (l.entries assoc).reverse.map fun e =>
        Block.kind.assign Block.fresh e.1 (stateOf e.2) :=
  nFastCache.block_set_t.fillDown_items Block.kind char2State_charOf hlength Block.fresh

end nCMPCache
