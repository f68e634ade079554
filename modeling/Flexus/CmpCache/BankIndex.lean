import Flexus.CmpCache.Indexing

/-!
# Which banks index their sets right

The fields of the index are set up for a bank interleaving that is neither finer than a block
nor coarser than all sets of a bank, and for a group interleaving that is no coarser than the
sets of all banks of a group.
-/

namespace nCMPCache

open SetArray Interleave XorShift

namespace StdArrayInfo

section Sizes

variable (info : StdArrayInfo)

/-- Sizes that the assertions accept. All are powers of two, and signed numbers of 32 bits. -/
structure Accepted : Prop where
  numSets : info.theNumSets.isPowerOfTwo
  blockSize : info.theBlockSize.isPowerOfTwo
  banks : info.theBanks.isPowerOfTwo
  groups : info.theGroups.isPowerOfTwo
  bankInterleaving : info.theBankInterleaving.isPowerOfTwo
  groupInterleaving : info.theGroupInterleaving.isPowerOfTwo
  associativity : 0 < info.theAssociativity
  interleaving : info.theBankInterleaving * info.theBanks ≤ info.theGroupInterleaving
  numSets_lt : info.theNumSets < 2 ^ 31
  blockSize_lt : info.theBlockSize < 2 ^ 31
  groupInterleaving_lt : info.theGroupInterleaving < 2 ^ 31

/-- The sizes for which the fields of the index are those of the address, and for which all sets
    of the cache can be counted. -/
def Fits : Prop :=
  info.theBlockSize ≤ info.theBankInterleaving ∧
    info.theBankInterleaving ≤ info.theNumSets * info.theBlockSize ∧
    (info.theGroups = 1 ∨ info.theGroupInterleaving ≤ info.theNumSets * info.theBanks * info.theBlockSize) ∧
    info.theTotalSets < 2 ^ 31

/-- The bytes under the sets of the banks of a group. -/
def groupBytes : Nat := info.theNumSets * info.theBanks * info.theBlockSize

/-- The sizes for which a folded address is looked for where the functional directory has it. -/
def SkewFits : Prop :=
  info.theGroups = 1 ∧ info.groupBytes < 2 ^ 34 ∧
    (info.theBanks = 1 ∨ info.groupBytes * info.groupBytes ≤ 2 ^ 34 * info.theBankInterleaving)

/-- The exponents of the sizes. -/
structure Sizes (off idx bank group bi gi : Nat) : Prop where
  blockSize : info.theBlockSize = 2 ^ off
  numSets : info.theNumSets = 2 ^ idx
  banks : info.theBanks = 2 ^ bank
  groups : info.theGroups = 2 ^ group
  bankInterleaving : info.theBankInterleaving = 2 ^ bi
  groupInterleaving : info.theGroupInterleaving = 2 ^ gi
  associativity : 0 < info.theAssociativity
  interleaving : bi + bank ≤ gi
  off_lt : off < 31
  idx_lt : idx < 31
  gi_lt : gi < 31

/-- The fields of the index when none has a negative width. -/
def fields : IndexFields where
  setLowMask := info.setLowMask
  setMidMask := info.setMidMask
  setHighMask := info.setHighMask
  setLowShift := info.setLowShift
  setMidShift := info.setMidShift
  setHighShift := info.setHighShift
  theBankMask := info.theBanks - 1
  theBankShift := info.bankInterleavingBits
  theGroupMask := info.theGroups - 1
  theGroupShift := info.groupInterleavingBits
  tagMask := not64 0 &&& not64 (info.theBlockSize - 1)

end Sizes

variable {info : StdArrayInfo}

theorem Accepted.exists_sizes (h : info.Accepted) : ∃ off idx bank group bi gi,
    info.Sizes off idx bank group bi gi := by
  obtain ⟨idx, hidx⟩ := h.numSets
  obtain ⟨off, hoff⟩ := h.blockSize
  obtain ⟨bank, hbank⟩ := h.banks
  obtain ⟨group, hgroup⟩ := h.groups
  obtain ⟨bi, hbi⟩ := h.bankInterleaving
  obtain ⟨gi, hgi⟩ := h.groupInterleaving
  have hlt : ∀ {x k : Nat}, x = 2 ^ k → x < 2 ^ 31 → k < 31 := by
    rintro x k rfl hx
    exact (Nat.pow_lt_pow_iff_right (by omega)).mp hx
  have hinterleaving := h.interleaving
  rw [hbi, hbank, hgi, ← Nat.pow_add, Nat.pow_le_pow_iff_right (by omega)] at hinterleaving
  exact ⟨off, idx, bank, group, bi, gi, hoff, hidx, hbank, hgroup, hbi, hgi, h.associativity, hinterleaving,
    hlt hoff h.blockSize_lt, hlt hidx h.numSets_lt, hlt hgi h.groupInterleaving_lt⟩

namespace Sizes

variable {off idx bank group bi gi : Nat}

theorem arrayAsserts (h : info.Sizes off idx bank group bi gi) : info.ArrayAsserts := by
  have hpow : ∀ k, 2 ^ k &&& (2 ^ k - 1) = 0 := fun k => by
    rw [Nat.and_two_pow_sub_one_eq_mod, Nat.mod_self]
  have hpow' : ∀ k, (2 ^ k - 1) &&& 2 ^ k = 0 := fun k => by rw [Nat.and_comm, hpow]
  have hle : 2 ^ bi * 2 ^ bank ≤ 2 ^ gi := by
    rw [← Nat.pow_add]
    exact Nat.pow_le_pow_right (by omega) h.interleaving
  rw [ArrayAsserts, DirectoryAsserts, h.numSets, h.blockSize, h.banks, h.bankInterleaving, h.groupInterleaving]
  exact ⟨⟨Nat.two_pow_pos _, h.associativity, Nat.two_pow_pos _, hpow' _, hpow' _, hpow' _, hle⟩, hpow _⟩

theorem fits_iff (h : info.Sizes off idx bank group bi gi) :
    info.Fits ↔ off ≤ bi ∧ bi ≤ idx + off ∧ (group = 0 ∨ gi ≤ idx + bank + off) ∧
      idx + bank + group < 31 := by
  have hone : (2 ^ group = 1) ↔ group = 0 := by simp
  rw [Fits, theTotalSets, h.numSets, h.blockSize, h.banks, h.groups, h.bankInterleaving, h.groupInterleaving,
    ← Nat.pow_add, ← Nat.pow_add, ← Nat.pow_add, ← Nat.pow_add, Nat.pow_le_pow_iff_right (by omega),
    Nat.pow_le_pow_iff_right (by omega), Nat.pow_le_pow_iff_right (by omega),
    Nat.pow_lt_pow_iff_right (by omega), hone]

theorem skewFits_iff (h : info.Sizes off idx bank group bi gi) :
    info.SkewFits ↔ group = 0 ∧ idx + bank + off < 34 ∧
      (bank = 0 ∨ 2 * (idx + bank + off) ≤ 34 + bi) := by
  have hone : ∀ k, (2 ^ k = 1) ↔ k = 0 := fun k => by simp
  rw [SkewFits, groupBytes, h.numSets, h.blockSize, h.banks, h.groups, h.bankInterleaving, ← Nat.pow_add,
    ← Nat.pow_add, ← Nat.pow_add, ← Nat.pow_add, Nat.pow_le_pow_iff_right (by omega),
    Nat.pow_lt_pow_iff_right (by omega), hone, hone, ← Nat.two_mul]

theorem total (h : info.Sizes off idx bank group bi gi) : info.theTotalSets = 2 ^ (idx + bank + group) := by
  rw [theTotalSets, h.numSets, h.banks, h.groups, Nat.pow_add, Nat.pow_add]

/-! ### Setting up the fields -/

theorem bits (h : info.Sizes off idx bank group bi gi) :
    info.blockOffsetBits = off ∧ info.indexBits = idx ∧ info.bankBits = bank ∧
      info.bankInterleavingBits = bi ∧ info.groupBits = group ∧ info.groupInterleavingBits = gi := by
  simp only [blockOffsetBits, indexBits, bankBits, bankInterleavingBits, groupBits, groupInterleavingBits,
    h.blockSize, h.numSets, h.banks, h.bankInterleaving, h.groups, h.groupInterleaving, Nat.log2_two_pow,
    and_self]

theorem lowBits_eq (h : info.Sizes off idx bank group bi gi) : info.lowBits = bi - off := by
  obtain ⟨hoff, -, -, hbi, -, -⟩ := h.bits
  rw [lowBits, hoff, hbi]

theorem midBits_eq (h : info.Sizes off idx bank group bi gi) :
    info.midBits = if gi - bi - bank + (bi - off) > idx then idx - (bi - off) else gi - bi - bank := by
  obtain ⟨-, hidx, hbank, hbi, -, hgi⟩ := h.bits
  rw [midBits, h.lowBits_eq, hidx, hbank, hbi, hgi]

theorem fieldBits_eq (h : info.Sizes off idx bank group bi gi) (hlow : off ≤ bi) (hfit : bi ≤ idx + off) :
    info.fieldBits = ((info.lowBits : Int), (info.midBits : Int), (info.highBits : Int)) := by
  obtain ⟨hoff, hidx, hbank, hbi, -, hgi⟩ := h.bits
  have hinterleaving := h.interleaving
  have hlow' := h.lowBits_eq
  have hmid' := h.midBits_eq
  have hhigh' : info.highBits = idx - info.midBits - info.lowBits := by rw [highBits, hidx]
  rw [fieldBits, hoff, hidx, hbank, hbi, hgi]
  split
  · rw [if_pos (by omega)] at hmid'
    congr 2 <;> omega
  · rw [if_neg (by omega)] at hmid'
    congr 2 <;> omega

theorem shl_natCast (x n : Nat) : shl x (n : Int) = .ok (x <<< n) := by
  rw [shl, if_pos (Int.natCast_nonneg n), Int.toNat_natCast]

theorem shl_of_neg {x : Nat} {n : Int} (h : n < 0) : shl x n = .error .negativeShift :=
  if_neg (by omega)

theorem indexFields_eq (h : info.Sizes off idx bank group bi gi) (hlow : off ≤ bi) (hfit : bi ≤ idx + off) :
    info.indexFields = .ok info.fields := by
  have hsum : (info.midBits : Int) + info.lowBits = ((info.midBits + info.lowBits : Nat) : Int) := by omega
  rw [indexFields, h.fieldBits_eq hlow hfit]
  simp only [hsum, shl_natCast]
  rfl

/-- A bank interleaving that is finer than a block, or coarser than all sets of a bank, makes a
    field of negative width. -/
theorem indexFields_of_not_fit (h : info.Sizes off idx bank group bi gi)
    (hfit : ¬ (off ≤ bi ∧ bi ≤ idx + off)) : info.indexFields = .error .negativeShift := by
  obtain ⟨hoff, hidx, hbank, hbi, -, hgi⟩ := h.bits
  have hinterleaving := h.interleaving
  rcases Nat.lt_or_ge bi off with hlow | hlow
  · have hneg : info.fieldBits.1 < 0 := by
      rw [fieldBits, hoff, hbi]
      split <;> omega
    rw [indexFields]
    simp only [shl_of_neg hneg]
    rfl
  · have hlow' : info.fieldBits.1 = ((bi - off : Nat) : Int) := by
      rw [fieldBits, hoff, hbi]
      split <;> omega
    have hneg : info.fieldBits.2.1 < 0 := by
      rw [fieldBits, hoff, hidx, hbank, hbi, hgi]
      rw [if_pos (by omega)]
      change (idx : Int) - (bi - off) < 0
      omega
    rw [indexFields]
    simp only [hlow', shl_natCast, shl_of_neg hneg]
    rfl

/-- The address has the bits of its fields. -/
theorem layout (h : info.Sizes off idx bank group bi gi) (hlow : off ≤ bi) (hfit : bi ≤ idx + off)
    (hgroup : group = 0 ∨ gi ≤ idx + bank + off) :
    info.Layout off (bi - off) bank info.midBits group (idx - (bi - off) - info.midBits) := by
  have hinterleaving := h.interleaving
  have hmid := h.midBits_eq
  have hle : info.midBits ≤ idx - (bi - off) := by
    rw [hmid]
    split <;> omega
  refine ⟨h.blockSize, h.banks, h.groups, ?_, ?_, ?_, h.lowBits_eq, rfl⟩
  · rw [h.numSets]
    congr 1
    omega
  · rw [h.bankInterleaving]
    congr 1
    omega
  · rcases hgroup with hzero | hgroup
    · exact Or.inl hzero
    · rw [if_neg (by omega)] at hmid
      right
      rw [h.groupInterleaving]
      congr 1
      omega

end Sizes

/-! ## Indexing that is right -/

section Right

variable {β γ : Type} {R : SetReader β γ} {off low bank mid group high : Nat}

theorem Layout.total_pos (h : info.Layout off low bank mid group high) : 0 < info.theTotalSets := by
  rw [h.total, ← Nat.pow_add, ← Nat.pow_add, ← Nat.pow_add, ← Nat.pow_add]
  exact Nat.two_pow_pos _

theorem makeTag_div (hoff : info.theBlockSize = 2 ^ off) {a : MemoryAddress} (ha : a < 2 ^ 64) :
    info.fields.makeTag a / info.theBlockSize = a / info.theBlockSize := by
  rw [hoff, ← Nat.shiftRight_eq_div_pow, ← Nat.shiftRight_eq_div_pow]
  apply Nat.eq_of_testBit_eq
  intro i
  have hbelow : decide (off + i < off) = false := decide_eq_false (by omega)
  have hmask : info.fields.tagMask.testBit (off + i) = decide (off + i < 64) := by
    simp only [fields, not64, hoff, Nat.testBit_and, Nat.testBit_xor, Nat.testBit_two_pow_sub_one,
      Nat.zero_testBit, hbelow, Bool.xor_false, Bool.and_self]
  rw [Nat.testBit_shiftRight, Nat.testBit_shiftRight, IndexFields.makeTag, Nat.testBit_and, hmask]
  rcases Nat.lt_or_ge (off + i) 64 with hlt | hge
  · rw [decide_eq_true hlt, Bool.and_true]
  · have hzero : a.testBit (off + i) = false :=
      Nat.testBit_lt_two_pow (Nat.lt_of_lt_of_le ha (Nat.pow_le_pow_right (by omega) hge))
    rw [hzero, Bool.false_and]

theorem banked_local_iff {skewed : MemoryAddress → MemoryAddress} {globalSet : MemoryAddress → Nat}
    {theNodeId : Nat} {a : MemoryAddress} :
    (info.banked R info.fields (fun a => some (skewed a)) globalSet).Local theNodeId a ↔
      info.getBank (skewed a) = theNodeId % info.theBanks ∧
        info.getGroup (skewed a) = theNodeId / info.theBanks :=
  and_congr Option.some_inj Option.some_inj

/-- The sets of the whole cache fall to the addresses, folded in any way that keeps the bank and
    the group of the first address of every set, and every set has an address. -/
theorem Layout.indexed (h : info.Layout off low bank mid group high)
    (hR : R.Sound info.theAssociativity) (htotal : info.theTotalSets < 2 ^ 31)
    {skewed : MemoryAddress → MemoryAddress} {globalSet : MemoryAddress → Nat}
    (hglobal : ∀ a, globalSet a = skewed a / info.theBlockSize % info.theTotalSets)
    (hsurj : ∀ τ < info.theTotalSets, ∃ a < 2 ^ 64, globalSet a = τ)
    (hfirst : ∀ s < info.theTotalSets,
      info.getBank (skewed (s * info.theBlockSize)) = info.getBank (s * info.theBlockSize) ∧
        info.getGroup (skewed (s * info.theBlockSize)) = info.getGroup (s * info.theBlockSize)) :
    (info.banked R info.fields (fun a => some (skewed a)) globalSet).Indexed := by
  have hlt : ∀ a, globalSet a < info.theTotalSets := fun a => hglobal a ▸ Nat.mod_lt _ h.total_pos
  refine BankedArray.indexed_of_layout
    (A := info.banked R info.fields (fun a => some (skewed a)) globalSet) h hR rfl rfl rfl htotal hlt hsurj
    ?_ ?_ ?_ ?_
  · intro theNodeId a
    change _ ↔ info.isLocal theNodeId (globalSet a) = true
    rw [banked_local_iff, h.isLocal_iff (hlt a), h.getBank_eq, h.getGroup_eq, ← hglobal]
  · intro theNodeId s hs
    have hs' := hfirst s hs
    rw [Bool.eq_iff_iff, BankedArray.isLocal, decide_eq_true_iff, isLocal, Bool.and_eq_true, beq_iff_eq,
      beq_iff_eq]
    rw [← hs'.1, ← hs'.2]
    exact banked_local_iff
  · intro a
    have hset : info.makeSet (skewed a) = info.makeSet (globalSet a * info.theBlockSize) := by
      rw [h.makeSet_eq, h.makeSet_eq, h.set_address (hlt a), hglobal]
    exact congrArg some hset
  · intro a ha b hb htag
    have hdiv := congrArg (· / info.theBlockSize) htag
    exact (makeTag_div h.blockSize ha).symm.trans (hdiv.trans (makeTag_div h.blockSize hb))

/-- The node of an address has the bank and the group of the address. -/
theorem Layout.nodeOf_spec (h : info.Layout off low bank mid group high) (a : MemoryAddress) :
    info.nodeOf a < info.theBanks * info.theGroups ∧ info.nodeOf a % info.theBanks = info.getBank a ∧
      info.nodeOf a / info.theBanks = info.getGroup a := by
  have hbank_lt : info.getBank a < info.theBanks := by
    rw [h.getBank_eq, h.banks]
    exact Nat.mod_lt _ (Nat.two_pow_pos bank)
  have hgroup_lt : info.getGroup a < info.theGroups := by
    rw [h.getGroup_eq, h.groups]
    exact Nat.mod_lt _ (Nat.two_pow_pos group)
  refine ⟨?_, ?_, ?_⟩
  · have hmul := Nat.mul_le_mul_right info.theBanks (Nat.succ_le_of_lt hgroup_lt)
    rw [Nat.succ_mul, Nat.mul_comm info.theGroups] at hmul
    rw [nodeOf]
    omega
  · rw [nodeOf, Nat.mul_add_mod', Nat.mod_eq_of_lt hbank_lt]
  · rw [nodeOf, Nat.mul_comm, Nat.mul_add_div (by omega), Nat.div_eq_of_lt hbank_lt, Nat.add_zero]

/-- The bank, the group and the set of a bank tell the set of the whole cache. -/
theorem Layout.globalSet_injective (h : info.Layout off low bank mid group high) {a b : MemoryAddress}
    (hbank : info.getBank a = info.getBank b) (hgroup : info.getGroup a = info.getGroup b)
    (hset : info.makeSet a = info.makeSet b) :
    a / info.theBlockSize % info.theTotalSets = b / info.theBlockSize % info.theTotalSets := by
  obtain ⟨hnode, hmod, hdiv⟩ := h.nodeOf_spec a
  have hplace : ∀ c, info.getBank c = info.getBank a → info.getGroup c = info.getGroup a →
      info.isLocal (info.nodeOf a) (c / info.theBlockSize % info.theTotalSets) = true ∧
        Nat.count (info.isLocal (info.nodeOf a) · = true) (c / info.theBlockSize % info.theTotalSets) =
          info.makeSet c := by
    intro c hcbank hcgroup
    have hlt := Nat.mod_lt (c / info.theBlockSize) h.total_pos
    have hlocal : info.isLocal (info.nodeOf a) (c / info.theBlockSize % info.theTotalSets) = true := by
      rw [h.isLocal_iff hlt, ← h.getBank_eq, ← h.getGroup_eq, hmod, hdiv]
      exact ⟨hcbank, hcgroup⟩
    refine ⟨hlocal, ?_⟩
    rw [← h.localIndex_eq_count hnode hlt.le, h.localIndex_eq hlt hlocal, h.makeSet_eq, h.set_address hlt,
      ← h.makeSet_eq]
  obtain ⟨hlocal, hcount⟩ := hplace a rfl rfl
  obtain ⟨hlocal', hcount'⟩ := hplace b hbank.symm hgroup.symm
  exact Nat.count_injective hlocal hlocal' (hcount.trans (hset.trans hcount'.symm))

end Right

/-! ## Indexing that is not right -/

section Wrong

variable {β γ : Type} {R : SetReader β γ} {off idx bank group bi gi : Nat}
  {skewed : MemoryAddress → MemoryAddress} {globalSet : MemoryAddress → Nat}

namespace Sizes

theorem node_lt (h : info.Sizes off idx bank group bi gi) {theNodeId : Nat} (hnode : theNodeId < 2 ^ (bank + group)) :
    theNodeId < info.theBanks * info.theGroups := by
  rwa [h.banks, h.groups, ← Nat.pow_add]

theorem getBank_eq (h : info.Sizes off idx bank group bi gi) (a : MemoryAddress) :
    info.getBank a = a / 2 ^ bi % 2 ^ bank := by
  obtain ⟨-, -, -, hbi, -, -⟩ := h.bits
  rw [getBank, hbi, h.banks, Nat.and_two_pow_sub_one_eq_mod, Nat.shiftRight_eq_div_pow]

theorem getGroup_eq (h : info.Sizes off idx bank group bi gi) (a : MemoryAddress) :
    info.getGroup a = a / 2 ^ gi % 2 ^ group := by
  obtain ⟨-, -, -, -, -, hgi⟩ := h.bits
  rw [getGroup, hgi, h.groups, Nat.and_two_pow_sub_one_eq_mod, Nat.shiftRight_eq_div_pow]

theorem fields_zero (h : info.Sizes off idx bank group bi gi) :
    info.getBank 0 = 0 ∧ info.getGroup 0 = 0 ∧ info.makeSet 0 = 0 := by
  refine ⟨?_, ?_, ?_⟩
  · rw [h.getBank_eq, Nat.zero_div, Nat.zero_mod]
  · rw [h.getGroup_eq, Nat.zero_div, Nat.zero_mod]
  · simp [makeSet]

/-- The bit above the index is in no field when the group interleaving is coarser than the sets
    of all banks of a group. -/
theorem fields_above (h : info.Sizes off idx bank group bi gi) (hlow : off ≤ bi) (hfit : bi ≤ idx + off)
    (hcut : idx + bank + off < gi) :
    info.getBank (2 ^ (off + bank + idx)) = 0 ∧ info.getGroup (2 ^ (off + bank + idx)) = 0 ∧
      info.makeSet (2 ^ (off + bank + idx)) = 0 := by
  obtain ⟨hoff, hidx, hbank, -, -, -⟩ := h.bits
  have hmid := h.midBits_eq
  rw [if_pos (by omega)] at hmid
  have hhigh : info.highBits = 0 := by
    rw [highBits, hidx, hmid, h.lowBits_eq]
    omega
  refine ⟨?_, ?_, ?_⟩
  · rw [h.getBank_eq, two_pow_div_mod, if_neg (by omega)]
  · rw [h.getGroup_eq, two_pow_div_mod, if_neg (by omega)]
  · have hlowField : 2 ^ (off + bank + idx) >>> info.setLowShift &&& info.setLowMask = 0 := by
      rw [setLowShift, setLowMask, hoff, h.lowBits_eq, Nat.one_shiftLeft, Nat.and_two_pow_sub_one_eq_mod,
        Nat.shiftRight_eq_div_pow, two_pow_div_mod, if_neg (by omega)]
    have hmidField : 2 ^ (off + bank + idx) >>> info.setMidShift &&& info.setMidMask = 0 := by
      rw [setMidShift, setMidMask, hoff, hbank, h.lowBits_eq, hmid, and_mask, Nat.shiftRight_eq_div_pow,
        Nat.pow_div (by omega) (by omega), two_pow_div_mod, if_neg (by omega), Nat.zero_mul]
    have hhighField : 2 ^ (off + bank + idx) >>> info.setHighShift &&& info.setHighMask = 0 := by
      rw [setHighMask, hhigh]
      simp
    rw [makeSet, hlowField, hmidField, hhighField]
    rfl

/-- Two addresses that the bank cannot tell from each other have to have one record. -/
theorem not_indexed_of_same (h : info.Sizes off idx bank group bi gi) (hR : R.Sound info.theAssociativity)
    {a b : MemoryAddress} (ha : a < 2 ^ 64) (hb : b < 2 ^ 64)
    (hbank : info.getBank (skewed a) = 0 ∧ info.getBank (skewed b) = 0)
    (hgroup : info.getGroup (skewed a) = 0 ∧ info.getGroup (skewed b) = 0)
    (hset : info.makeSet (skewed a) = info.makeSet (skewed b)) (hne : globalSet a ≠ globalSet b) :
    ¬ (info.banked R info.fields (fun a => some (skewed a)) globalSet).Indexed := by
  intro hA
  have hnode : 0 < info.theBanks * info.theGroups := h.node_lt (Nat.two_pow_pos _)
  have hlocal : ∀ c, info.getBank (skewed c) = 0 → info.getGroup (skewed c) = 0 →
      (info.banked R info.fields (fun a => some (skewed a)) globalSet).Local 0 c := by
    intro c hcbank hcgroup
    rw [banked_local_iff, Nat.zero_mod, Nat.zero_div]
    exact ⟨hcbank, hcgroup⟩
  exact hne (hA.globalSet_eq hR hnode ha hb (hlocal a hbank.1 hgroup.1) (hlocal b hbank.2 hgroup.2) rfl
    (congrArg some hset.symm))

/-- Every set of the whole cache can be counted. -/
theorem total_lt (h : info.Sizes off idx bank group bi gi) (hR : R.Sound info.theAssociativity)
    (hA : (info.banked R info.fields (fun a => some (skewed a)) globalSet).Indexed) :
    idx + bank + group < 31 := by
  have hnode : 0 < info.theBanks * info.theGroups := h.node_lt (Nat.two_pow_pos _)
  have hset : 0 < info.theNumSets := by
    rw [h.numSets]
    exact Nat.two_pow_pos _
  obtain ⟨a, ha, hlocal, hmake⟩ := hA.exists_address 0 hnode 0 hset
  have htotal : info.theTotalSets < 2 ^ 31 := (hA.place hR hnode ha hlocal hmake).1
  rw [h.total] at htotal
  exact (Nat.pow_lt_pow_iff_right (by omega)).mp htotal

end Sizes

end Wrong

end StdArrayInfo

end nCMPCache
