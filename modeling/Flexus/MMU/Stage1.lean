import Flexus.Lib.Runs
import Flexus.MMU.Walk

/-!
# The translation of stage 1

The walk of the architecture for the 4KB granule, in terms of bit fields, and the condition
under which the walk of the MMU computes it.
-/

open BitFields Runs

namespace Stage1

inductive Result where
  | output (address : Nat)
  | fault
  deriving DecidableEq, Repr

/-- Where a walk ends: the descriptor addresses, and the level and value of the last one. -/
structure Reached where
  addresses : List Nat
  level : Nat
  descriptor : Nat
  deriving DecidableEq, Repr

/-- The lowest bit of the index into a table with `n` more levels below it. -/
def bottom (n : Nat) : Nat := 12 + 9 * n

def valid (descriptor : Nat) : Prop := descriptor % 2 = 1

/-- The second bit of a descriptor: a table, or on the last level a page. -/
def table (descriptor : Nat) : Prop := descriptor / 2 % 2 = 1

instance (d : Nat) : Decidable (valid d) := inferInstanceAs (Decidable (_ = _))
instance (d : Nat) : Decidable (table d) := inferInstanceAs (Decidable (_ = _))

/-- The walk through a table at `base` with `n` levels below it, indexed by the bits from
    `top` on. -/
def descend (mem : Nat → Nat) (va : Nat) : Nat → Nat → Nat → Reached
  | 0, base, top =>
    let address := base + 8 * field va top (bottom 0)
    ⟨[address], 3, mem address⟩
  | n + 1, base, top =>
    let address := base + 8 * field va top (bottom (n + 1))
    let descriptor := mem address
    if valid descriptor ∧ table descriptor then
      let r := descend mem va n (field descriptor 47 12 * 2 ^ 12) (bottom (n + 1) - 1)
      { r with addresses := address :: r.addresses }
    else ⟨[address], 2 - n, descriptor⟩

/-- The number of levels below the first one, for an input of `64 - tnsz` bits. -/
def levelsBelow (tnsz : Nat) : Nat := (64 - tnsz - 12 + 8) / 9 - 1

/-- The lowest bit of the table's address in the base register. -/
def baseLSB (tnsz : Nat) : Nat := 3 + (64 - tnsz) - bottom (levelsBelow tnsz)

def walk (mem : Nat → Nat) (ttbr tnsz va : Nat) : Reached :=
  descend mem va (levelsBelow tnsz) (field ttbr 47 (baseLSB tnsz) * 2 ^ baseLSB tnsz) (63 - tnsz)

/-- The walk of an address: bit 55 tells the regime, and with it the base register and the
    field of the control register that holds its size. -/
def translate (mem : Nat → Nat) (tcr ttbr0 ttbr1 va : Nat) : Reached :=
  if va.testBit 55 then walk mem ttbr1 (field tcr 21 16) va else walk mem ttbr0 (field tcr 5 0) va

/-- What the last descriptor makes of the address. -/
def Reached.result (r : Reached) (va : Nat) : Result :=
  if ¬ valid r.descriptor then .fault
  else if r.level = 3 then
    if table r.descriptor then .output (field r.descriptor 47 12 * 2 ^ 12 + va % 2 ^ 12) else .fault
  else if r.level = 0 then .fault
  else .output (field r.descriptor 47 (bottom (3 - r.level)) * 2 ^ bottom (3 - r.level) +
    va % 2 ^ bottom (3 - r.level))

end Stage1

namespace nMMU

open Stage1

variable {m : mmu_t} {mem : BitVec 64 → BitVec 64}

theorem toNat_extractBitsWithBounds (v : BitVec 64) {hi lo : Nat} (hle : lo ≤ hi) (hhi : hi < 63) :
    (extractBitsWithBounds v hi lo).toNat = field v.toNat hi lo := by
  rw [extractBitsWithBounds, toNat_ushiftRight_and_mask v (by omega), field]
  congr 2
  omega

theorem extractSingleBitAsBool_eq {v : BitVec 64} (k : Nat) :
    extractSingleBitAsBool v k = decide (v.toNat / 2 ^ k % 2 = 1) := by
  have hbit : ((v >>> k) &&& 1#64).toNat = v.toNat / 2 ^ k % 2 := by
    rw [BitVec.toNat_and, BitVec.toNat_ushiftRight, Nat.shiftRight_eq_div_pow]
    exact Nat.and_one_is_mod _
  rw [extractSingleBitAsBool, Bool.eq_iff_iff, bne_iff_ne, decide_eq_true_iff, ne_eq, ← BitVec.toNat_inj, hbit,
    BitVec.toNat_zero]
  omega

/-! ## Resolvers -/

/-- The resolver indexes the table at `base` with `n` levels below it by the bits from `top`
    on. -/
structure Resolves (r : TTResolver) (n base top : Nat) : Prop where
  level : r.level = 3 - n
  msb : r.TTBR_MSB = 47
  lsb : r.TTBR_LSB + bottom n = top + 4
  base : field r.RawTTBRReg.toNat 47 r.TTBR_LSB * 2 ^ r.TTBR_LSB = base
  offset_lsb : r.offset_LSB = bottom n
  offset_msb : r.offset_MSB = top
  le : bottom n ≤ top
  top_le : top ≤ 47
  bound : n ≤ 3

theorem Resolves.resolve {r : TTResolver} {n base top : Nat} (h : Resolves r n base top) (va : BitVec 64) :
    (r.resolve va).toNat = base + 8 * field va.toNat top (bottom n) := by
  have hlsb := h.lsb
  have hle := h.le
  have htop := h.top_le
  have hbottom : 12 ≤ bottom n := by rw [bottom]; omega
  have hbase : (extractBitsWithBounds r.RawTTBRReg 47 r.TTBR_LSB).toNat = _ :=
    toNat_extractBitsWithBounds r.RawTTBRReg (by omega) (by omega)
  have hindex : (extractBitsWithBounds va top (bottom n)).toNat = _ :=
    toNat_extractBitsWithBounds va (by omega) (by omega)
  have hfieldIndex := field_lt va.toNat top (bottom n)
  have hfieldBase := field_lt r.RawTTBRReg.toNat 47 r.TTBR_LSB
  have hshift : (r.maskAndShiftInputAddress va).toNat = 8 * field va.toNat top (bottom n) := by
    rw [TTResolver.maskAndShiftInputAddress, h.offset_lsb, h.offset_msb, BitVec.toNat_shiftLeft, hindex,
      Nat.shiftLeft_eq, Nat.mod_eq_of_lt, Nat.mul_comm]
    have hpow : 2 ^ (top + 1 - bottom n) ≤ 2 ^ 36 := Nat.pow_le_pow_right (by omega) (by omega)
    omega
  have hbelow : (r.maskAndShiftInputAddress va).toNat < 2 ^ r.TTBR_LSB := by
    have hpow : 2 ^ r.TTBR_LSB = 2 ^ (top + 1 - bottom n) * 8 := by
      rw [show r.TTBR_LSB = top + 1 - bottom n + 3 from by omega, Nat.pow_add]
    omega
  have hfit : (extractBitsWithBounds r.RawTTBRReg 47 r.TTBR_LSB).toNat * 2 ^ r.TTBR_LSB < 2 ^ 64 := by
    rw [hbase]
    calc field r.RawTTBRReg.toNat 47 r.TTBR_LSB * 2 ^ r.TTBR_LSB
        < 2 ^ (47 + 1 - r.TTBR_LSB) * 2 ^ r.TTBR_LSB := Nat.mul_lt_mul_of_pos_right hfieldBase (Nat.two_pow_pos _)
      _ = 2 ^ 48 := by rw [← Nat.pow_add]; congr 1; omega
      _ < 2 ^ 64 := by decide
  rw [TTResolver.resolve, h.msb, toNat_shiftLeft_or hfit hbelow, hshift, hbase, h.base]

/-- The regime uses the 4KB granule, with an input of 25 to 48 bits. -/
structure SmallGranule (g : TranslationGranule) (tnsz : Nat) : Prop where
  size : g.KBSize = 1 <<< 12
  width : g.PAddrWidth = 48
  offset : g.IAddrOffset = tnsz
  lo : 16 ≤ tnsz
  hi : tnsz ≤ 39

theorem SmallGranule.initial {g : TranslationGranule} {tnsz : Nat} (h : SmallGranule g tnsz) :
    g.getInitialLookupLevel = 3 - levelsBelow tnsz ∧ 1 ≤ levelsBelow tnsz ∧ levelsBelow tnsz ≤ 3 := by
  have hlo := h.lo
  have hhi := h.hi
  rw [TranslationGranule.getInitialLookupLevel, if_pos h.size, h.offset, levelsBelow]
  split
  · omega
  · split <;> omega

/-- The first resolver of a walk. -/
theorem setupTTResolver_initial {isBR0 : Bool} {tnsz : Nat} (ttbr : BitVec 64) (h : SmallGranule (m.gran isBR0) tnsz) :
    ∃ r, m.setupTTResolver isBR0 (3 - levelsBelow tnsz) ttbr = .ok r ∧
      Resolves r (levelsBelow tnsz) (field ttbr.toNat 47 (baseLSB tnsz) * 2 ^ baseLSB tnsz) (63 - tnsz) := by
  have hlo := h.lo
  have hhi := h.hi
  have hwidth : m.getPAWidth isBR0 = 48 := h.width
  by_cases hzero : tnsz ≤ 24
  · have hn : levelsBelow tnsz = 3 := by rw [levelsBelow]; omega
    have hx : baseLSB tnsz = 28 - tnsz := by rw [baseLSB, hn, bottom]; omega
    refine ⟨⟨0, ttbr, 28 - tnsz, 47, 39, 28 - tnsz + 35⟩, ?_, ?_⟩
    · rw [hn]
      simp only [mmu_t.setupTTResolver, L0Resolver, h.offset, hwidth]
      rw [if_pos ⟨hlo, hzero⟩]
    · rw [hn, hx]
      exact ⟨rfl, rfl, by simp only [bottom]; omega, rfl, rfl, by dsimp only; omega, by simp only [bottom]; omega,
        by omega, by omega⟩
  · by_cases hone : tnsz ≤ 33
    · have hn : levelsBelow tnsz = 2 := by rw [levelsBelow]; omega
      have hx : baseLSB tnsz = 37 - tnsz := by rw [baseLSB, hn, bottom]; omega
      refine ⟨⟨1, ttbr, 37 - tnsz, 47, 30, 37 - tnsz + 26⟩, ?_, ?_⟩
      · rw [hn]
        simp only [mmu_t.setupTTResolver, L1Resolver, h.offset, hwidth]
        rw [if_pos ⟨by omega, hone⟩]
      · rw [hn, hx]
        exact ⟨rfl, rfl, by simp only [bottom]; omega, rfl, rfl, by dsimp only; omega, by simp only [bottom]; omega,
        by omega, by omega⟩
    · have hn : levelsBelow tnsz = 1 := by rw [levelsBelow]; omega
      have hx : baseLSB tnsz = 46 - tnsz := by rw [baseLSB, hn, bottom]; omega
      refine ⟨⟨2, ttbr, 46 - tnsz, 47, 21, 46 - tnsz + 17⟩, ?_, ?_⟩
      · rw [hn]
        simp only [mmu_t.setupTTResolver, L2Resolver, h.offset, hwidth]
        rw [if_pos ⟨by omega, hhi⟩]
      · rw [hn, hx]
        exact ⟨rfl, rfl, by simp only [bottom]; omega, rfl, rfl, by dsimp only; omega, by simp only [bottom]; omega,
        by omega, by omega⟩

/-- The resolver of a table that was reached through a descriptor. -/
theorem setupTTResolver_next {isBR0 : Bool} {tnsz n : Nat} (raw : BitVec 64)
    (h : SmallGranule (m.gran isBR0) tnsz) (hn : n + 1 ≤ levelsBelow tnsz) :
    ∃ r, m.setupTTResolver isBR0 (3 - n) raw = .ok r ∧
      Resolves r n (field raw.toNat 47 12 * 2 ^ 12) (bottom (n + 1) - 1) := by
  have hlo := h.lo
  have hhi := h.hi
  have hwidth : m.getPAWidth isBR0 = 48 := h.width
  rw [levelsBelow] at hn
  match n, hn with
  | 0, _ =>
    refine ⟨_, by simp only [mmu_t.setupTTResolver, hwidth]; rfl, ?_⟩
    constructor <;> simp [L3Resolver, bottom]
  | 1, hn =>
    refine ⟨⟨2, raw, 12, 47, 21, 29⟩, ?_, ?_⟩
    · simp only [mmu_t.setupTTResolver, L2Resolver, h.offset, hwidth]
      rw [if_neg (by omega)]
    · constructor <;> simp [bottom]
  | 2, hn =>
    refine ⟨⟨1, raw, 12, 47, 30, 38⟩, ?_, ?_⟩
    · simp only [mmu_t.setupTTResolver, L1Resolver, h.offset, hwidth]
      rw [if_neg (by omega)]
    · constructor <;> simp [bottom]
  | n + 3, hn => omega

/-! ## One lookup -/

/-- What a finished walk tells its requester. -/
def Translation.result (t : Translation) : Result :=
  if t.thePageFault || t.resync then .fault else .output t.thePaddr.toNat

/-- What the walk makes of the last descriptor, where a page is masked with `2 ^ k` bytes. -/
def computed (r : Reached) (va k : Nat) : Result :=
  if ¬ valid r.descriptor then .fault
  else if r.level = 3 then .output (field r.descriptor 47 12 * 2 ^ 12 ||| va % 2 ^ k)
  else .output (field r.descriptor 47 (bottom (3 - r.level)) * 2 ^ bottom (3 - r.level) +
    va % 2 ^ bottom (3 - r.level))

/-- A walk about to read a descriptor of the table at `base`, with `n` levels below it. -/
structure Ready (m : mmu_t) (tnsz k n base top : Nat) (w : Walk) : Prop where
  level : w.stateful.currentLookupLevel = 3 - n
  resolves : Resolves w.stateful.TTAddressResolver n base top
  regime : SmallGranule (m.gran w.stateful.isBR0) tnsz
  le : n ≤ levelsBelow tnsz
  left : w.basic.theCurrentTranslationLevel + n + 1 = w.stateful.requiredTableLookups
  granule : w.stateful.granuleSize = 1 <<< k
  small : k ≤ 16
  going : w.basic.theDone = false ∧ w.basic.thePageFault = false ∧ w.basic.resync = false

theorem toNat_granule_mask (va : BitVec 64) {k : Nat} (hk : k ≤ 30) :
    (va &&& (BitVec.ofNat 64 (1 <<< k) - 1)).toNat = va.toNat % 2 ^ k := by
  have hone : BitVec.ofNat 64 (1 <<< k) = 1#64 <<< k := by
    apply BitVec.eq_of_toNat_eq
    rw [BitVec.toNat_ofNat, BitVec.toNat_shiftLeft]
    rfl
  rw [hone]
  exact toNat_and_mask va (by omega)

/-- The bits above `lo` of a descriptor, in place. -/
theorem toNat_output_bits (raw : BitVec 64) {lo : Nat} (hlo : lo ≤ 47) :
    (extractBitsWithBounds raw 47 lo <<< lo).toNat = field raw.toNat 47 lo * 2 ^ lo ∧
      (extractBitsWithBounds raw 47 lo).toNat * 2 ^ lo < 2 ^ 64 := by
  have hbits : (extractBitsWithBounds raw 47 lo).toNat = _ := toNat_extractBitsWithBounds raw hlo (by omega)
  have hfit : field raw.toNat 47 lo * 2 ^ lo < 2 ^ 64 :=
    calc field raw.toNat 47 lo * 2 ^ lo
        < 2 ^ (47 + 1 - lo) * 2 ^ lo := Nat.mul_lt_mul_of_pos_right (field_lt _ _ _) (Nat.two_pow_pos _)
      _ = 2 ^ 48 := by rw [← Nat.pow_add]; congr 1; omega
      _ < 2 ^ 64 := by decide
  rw [BitVec.toNat_shiftLeft, hbits, Nat.shiftLeft_eq, Nat.mod_eq_of_lt hfit]
  exact ⟨rfl, hfit⟩

/-- The output of a block of `2 ^ lo` bytes. -/
theorem toNat_block (raw va : BitVec 64) {lo : Nat} (hlo : lo ≤ 30) :
    ((extractBitsWithBounds raw 47 lo <<< lo) ||| (va &&& (BitVec.ofNat 64 (1 <<< lo) - 1))).toNat =
      field raw.toNat 47 lo * 2 ^ lo + va.toNat % 2 ^ lo := by
  obtain ⟨-, hfit⟩ := toNat_output_bits raw (hlo.trans (by decide))
  have hmask := toNat_granule_mask va hlo
  rw [toNat_shiftLeft_or hfit (by rw [hmask]; exact Nat.mod_lt _ (Nat.two_pow_pos _)), hmask,
    toNat_extractBitsWithBounds raw (by omega) (by omega)]

/-- The output of a page, whose offset is masked with the granule of the walk. -/
theorem toNat_page (raw va : BitVec 64) {k : Nat} (hk : k ≤ 16) :
    ((extractBitsWithBounds raw 47 12 <<< 12) ||| (va &&& (BitVec.ofNat 64 (1 <<< k) - 1))).toNat =
      (field raw.toNat 47 12 * 2 ^ 12 ||| va.toNat % 2 ^ k) := by
  rw [BitVec.toNat_or, (toNat_output_bits raw (by omega)).1, toNat_granule_mask va (by omega)]

/-- The descriptor a walk is about to read, after it was read. -/
def read (mem : BitVec 64 → BitVec 64) (w : Walk) : Walk :=
  let address := w.stateful.TTAddressResolver.resolve w.basic.theVaddr
  { w with
    basic := { w.basic with
      theCurrentTranslationLevel := w.basic.theCurrentTranslationLevel + 1
      thePaddr := address
      rawTTEValue := mem address
      trace_addresses := w.basic.trace_addresses ++ [address] }
    trace_address := address }

theorem Ready.lookup {tnsz k n base top : Nat} {w : Walk} (h : Ready m tnsz k n base top w) :
    m.lookup mem w = m.walk (read mem w) := by
  have hleft := h.left
  have hmore : w.basic.theCurrentTranslationLevel < w.stateful.requiredTableLookups := by omega
  rw [mmu_t.lookup, mmu_t.preTranslate, if_pos hmore]
  rfl

/-- A walk that ended after the descriptors of `w` and one more. -/
structure Ended (w w' : Walk) (result : Result) : Prop where
  done : w'.basic.theDone = true
  trace : w'.basic.trace_addresses = w.basic.trace_addresses
  result_eq : w'.basic.result = result

section Descriptor

variable {w : Walk} {k : Nat}

theorem valid_iff {raw : BitVec 64} : extractSingleBitAsBool raw 0 = true ↔ valid raw.toNat := by
  rw [extractSingleBitAsBool_eq, decide_eq_true_iff, valid, Nat.pow_zero, Nat.div_one]

theorem table_iff {raw : BitVec 64} : extractSingleBitAsBool raw 1 = true ↔ table raw.toNat := by
  rw [extractSingleBitAsBool_eq, decide_eq_true_iff, table, Nat.pow_one]

theorem walk_invalid (hdone : w.basic.theDone = false) (hfault : w.basic.thePageFault = false)
    (hinvalid : ¬ valid w.basic.rawTTEValue.toNat) : ∃ w', m.walk w = .ok w' ∧ Ended w w' .fault := by
  have hbit : extractSingleBitAsBool w.basic.rawTTEValue 0 = false := by
    rwa [← Bool.not_eq_true, valid_iff]
  simp only [mmu_t.walk, hbit, if_true]
  cases hkind : w.basic.isData && w.basic.hasInstruction with
  | true =>
    simp only [Translation.raise, hkind, if_true, Translation.setDone, hdone]
    exact ⟨_, rfl, rfl, rfl, by simp [Translation.result]⟩
  | false =>
    simp only [Translation.raise, hkind, Translation.setPagefault, hfault, Translation.setDone, hdone]
    exact ⟨_, rfl, rfl, rfl, by simp [Translation.result]⟩

theorem walk_page (hgoing : w.basic.theDone = false ∧ w.basic.thePageFault = false ∧ w.basic.resync = false)
    (hvalid : valid w.basic.rawTTEValue.toNat) (hlevel : w.stateful.currentLookupLevel = 3)
    (hresolver : w.stateful.TTAddressResolver.level = 3) (hgranule : w.stateful.granuleSize = 1 <<< k)
    (hk : k ≤ 16) :
    ∃ w', m.walk w = .ok w' ∧
      Ended w w' (.output (field w.basic.rawTTEValue.toNat 47 12 * 2 ^ 12 ||| w.basic.theVaddr.toNat % 2 ^ k)) := by
  obtain ⟨hdone, hfault, hresync⟩ := hgoing
  have hbit := valid_iff.mpr hvalid
  simp only [mmu_t.walk, hbit, hlevel, if_true, Translation.setDone, hdone, TTResolver.getBlockOutputBits, hresolver,
    hgranule]
  refine ⟨_, rfl, rfl, rfl, ?_⟩
  simp only [Translation.result, hfault, hresync]
  rw [← toNat_page w.basic.rawTTEValue w.basic.theVaddr hk]
  rfl

theorem walk_table {r : TTResolver} (hvalid : valid w.basic.rawTTEValue.toNat)
    (htable : table w.basic.rawTTEValue.toNat) (hlevel : w.stateful.currentLookupLevel ≠ 3)
    (hresolver : m.setupTTResolver w.stateful.isBR0 (w.stateful.currentLookupLevel + 1) w.basic.rawTTEValue =
      .ok r) :
    m.walk w = .ok { w with
      stateful := { w.stateful with
        currentLookupLevel := w.stateful.currentLookupLevel + 1, TTAddressResolver := r } } := by
  have hbit := valid_iff.mpr hvalid
  have hnext := table_iff.mpr htable
  simp only [mmu_t.walk, hbit, hnext, hlevel, if_true, if_false, hresolver]
  rfl

/-- A block of level 1 or 2, with `n + 1` levels below. -/
theorem walk_block {n : Nat} (hgoing : w.basic.theDone = false ∧ w.basic.thePageFault = false ∧ w.basic.resync = false)
    (hvalid : valid w.basic.rawTTEValue.toNat) (hblock : ¬ table w.basic.rawTTEValue.toNat) (hn : n ≤ 1)
    (hlevel : w.stateful.currentLookupLevel = 2 - n) (hresolver : w.stateful.TTAddressResolver.level = 2 - n) :
    ∃ w', m.walk w = .ok w' ∧
      Ended w w' (.output (field w.basic.rawTTEValue.toNat 47 (bottom (n + 1)) * 2 ^ bottom (n + 1) +
        w.basic.theVaddr.toNat % 2 ^ bottom (n + 1))) := by
  obtain ⟨hdone, hfault, hresync⟩ := hgoing
  have hbit := valid_iff.mpr hvalid
  have hnext : extractSingleBitAsBool w.basic.rawTTEValue 1 = false := by
    rwa [← Bool.not_eq_true, table_iff]
  have hsize : mmu_t.blockSize (2 - n) = .ok (1 <<< bottom (n + 1)) := by
    match n, hn with
    | 0, _ => rfl
    | 1, _ => rfl
  have hbits : w.stateful.TTAddressResolver.getBlockOutputBits w.basic.rawTTEValue =
      extractBitsWithBounds w.basic.rawTTEValue 47 (bottom (n + 1)) <<< bottom (n + 1) := by
    rw [TTResolver.getBlockOutputBits, hresolver]
    match n, hn with
    | 0, _ => rfl
    | 1, _ => rfl
  have hthree : 2 - n ≠ 3 := by omega
  simp only [mmu_t.walk, hbit, hnext, hthree, if_false, hlevel, hsize, Translation.setDone, hdone, hbits]
  refine ⟨_, rfl, rfl, rfl, ?_⟩
  simp only [Translation.result, hfault, hresync]
  rw [← toNat_block w.basic.rawTTEValue w.basic.theVaddr (by rw [bottom]; omega)]
  rfl

/-- A block of level 0 fails an assertion. -/
theorem walk_block_zero (hvalid : valid w.basic.rawTTEValue.toNat) (hblock : ¬ table w.basic.rawTTEValue.toNat)
    (hlevel : w.stateful.currentLookupLevel = 0) : m.walk w = .error .assertion := by
  have hbit := valid_iff.mpr hvalid
  have hnext : extractSingleBitAsBool w.basic.rawTTEValue 1 = false := by
    rwa [← Bool.not_eq_true, table_iff]
  simp only [mmu_t.walk, hbit, hnext, hlevel]
  rfl

end Descriptor

/-! ## Whole walks -/

section Walk

variable {tnsz k n base top : Nat} {w : Walk}

/-- The word of memory at an address, as a number. -/
def word (mem : BitVec 64 → BitVec 64) (address : Nat) : Nat := (mem (BitVec.ofNat 64 address)).toNat

/-- The address and the value of the descriptor that is read next. -/
theorem Ready.descriptor (h : Ready m tnsz k n base top w) (mem : BitVec 64 → BitVec 64) :
    (w.stateful.TTAddressResolver.resolve w.basic.theVaddr).toNat =
        base + 8 * field w.basic.theVaddr.toNat top (bottom n) ∧
      (read mem w).basic.rawTTEValue.toNat =
        word mem (base + 8 * field w.basic.theVaddr.toNat top (bottom n)) := by
  have haddress := h.resolves.resolve w.basic.theVaddr
  refine ⟨haddress, ?_⟩
  rw [← haddress, word, BitVec.ofNat_toNat, BitVec.setWidth_eq]
  rfl

/-- The addresses of the descriptors that were read. -/
def Translation.trace (t : Translation) : List Nat := t.trace_addresses.map BitVec.toNat

theorem Ready.trace_read (h : Ready m tnsz k n base top w) (mem : BitVec 64 → BitVec 64) :
    (read mem w).basic.trace =
      w.basic.trace ++ [base + 8 * field w.basic.theVaddr.toNat top (bottom n)] := by
  rw [← h.resolves.resolve, Translation.trace, Translation.trace, read, List.map_append]
  rfl

/-- A walk that went through a table descriptor, to the level of the resolver. -/
def below (w : Walk) (r : TTResolver) : Walk :=
  { w with
    stateful := { w.stateful with
      currentLookupLevel := w.stateful.currentLookupLevel + 1, TTAddressResolver := r } }

theorem Ready.below {r : TTResolver} (h : Ready m tnsz k (n + 1) base top w)
    (hresolves : Resolves r n (field (read mem w).basic.rawTTEValue.toNat 47 12 * 2 ^ 12) (bottom (n + 1) - 1)) :
    Ready m tnsz k n (field (read mem w).basic.rawTTEValue.toNat 47 12 * 2 ^ 12) (bottom (n + 1) - 1)
      (below (read mem w) r) := by
  have hbound := h.resolves.bound
  have hlevel := h.level
  have hleft := h.left
  refine ⟨?_, hresolves, h.regime, Nat.le_of_succ_le h.le, ?_, h.granule, h.small, h.going⟩
  · simp only [nMMU.below, read]
    omega
  · simp only [nMMU.below, read]
    omega

/-- A table descriptor is one lookup, and leads to the level below. -/
theorem Ready.lookups_table (h : Ready m tnsz k (n + 1) base top w)
    (hvalid : valid (read mem w).basic.rawTTEValue.toNat) (htable : table (read mem w).basic.rawTTEValue.toNat)
    (fuel : Nat) :
    ∃ w', Ready m tnsz k n (field (read mem w).basic.rawTTEValue.toNat 47 12 * 2 ^ 12) (bottom (n + 1) - 1) w' ∧
      m.lookups mem (fuel + 1) w = m.lookups mem fuel w' ∧ w'.basic.theVaddr = w.basic.theVaddr ∧
        w'.basic.trace = (read mem w).basic.trace := by
  have hbound := h.resolves.bound
  have hlevel : (read mem w).stateful.currentLookupLevel = 3 - (n + 1) := h.level
  have hsame : (read mem w).stateful.currentLookupLevel + 1 = 3 - n := by omega
  obtain ⟨r, hresolver, hresolves⟩ := setupTTResolver_next (read mem w).basic.rawTTEValue h.regime h.le
  have hwalk := walk_table hvalid htable (by omega) (hsame ▸ hresolver)
  refine ⟨nMMU.below (read mem w) r, h.below hresolves, ?_, rfl, rfl⟩
  rw [mmu_t.lookups, h.lookup, hwalk]
  simp only [bind, Except.bind, h.going.1, read]
  rfl

/-- A lookup that ends the walk. -/
theorem Ready.lookups_last {result : Result} (h : Ready m tnsz k n base top w)
    (hended : ∃ w', m.walk (read mem w) = .ok w' ∧ Ended (read mem w) w' result) (fuel : Nat) :
    ∃ w', m.lookups mem (fuel + 1) w = .ok w' ∧ w'.basic.trace = (read mem w).basic.trace ∧
      w'.basic.result = result := by
  obtain ⟨w', hwalk, hend⟩ := hended
  refine ⟨w', ?_, ?_, hend.result_eq⟩
  · rw [mmu_t.lookups, h.lookup, hwalk]
    simp only [bind, Except.bind, hend.done]
    rfl
  · rw [Translation.trace, hend.trace]
    rfl

/-- The lookups of a walk end where the architecture's walk ends: with its result if they get
    there without a block of level 0, which fails an assertion. -/
theorem lookups_spec (h : Ready m tnsz k n base top w) (mem : BitVec 64 → BitVec 64) :
    let r := descend (word mem) w.basic.theVaddr.toNat n base top
    (r.level = 0 ∧ valid r.descriptor → m.lookups mem (n + 1) w = .error .assertion) ∧
      (¬ (r.level = 0 ∧ valid r.descriptor) → ∃ w', m.lookups mem (n + 1) w = .ok w' ∧
        w'.basic.trace = w.basic.trace ++ r.addresses ∧
          w'.basic.result = computed r w.basic.theVaddr.toNat k) := by
  induction n generalizing base top w with
  | zero =>
    obtain ⟨-, hvalue⟩ := h.descriptor mem
    refine ⟨fun hzero => by simp [descend] at hzero, fun _ => ?_⟩
    simp only [descend, computed, ← hvalue]
    rw [← h.trace_read mem]
    by_cases hvalid : valid (read mem w).basic.rawTTEValue.toNat
    · rw [if_neg (not_not.mpr hvalid)]
      exact h.lookups_last (walk_page h.going hvalid h.level h.resolves.level h.granule h.small) 0
    · rw [if_pos hvalid]
      exact h.lookups_last (walk_invalid h.going.1 h.going.2.1 hvalid) 0
  | succ n ih =>
    obtain ⟨-, hvalue⟩ := h.descriptor mem
    have hbound := h.resolves.bound
    have htrace := h.trace_read mem
    by_cases hnext : valid (read mem w).basic.rawTTEValue.toNat ∧ table (read mem w).basic.rawTTEValue.toNat
    case pos =>
      obtain ⟨w', hready, hlookups, hva, hbelow⟩ := h.lookups_table hnext.1 hnext.2 (n + 1)
      obtain ⟨hzero, hother⟩ := ih hready
      rw [hva] at hzero hother
      rw [hlookups]
      simp only [descend, ← hvalue, if_pos hnext]
      refine ⟨hzero, fun hnot => ?_⟩
      obtain ⟨w'', hok, htraces, hresult⟩ := hother hnot
      refine ⟨w'', hok, ?_, hresult⟩
      rw [htraces, hbelow, htrace, List.append_assoc]
      rfl
    case neg =>
      simp only [descend, ← hvalue, if_neg hnext]
      rw [← htrace]
      have hlevel : (read mem w).stateful.currentLookupLevel = 2 - n := by
        rw [← show 3 - (n + 1) = 2 - n from by omega]
        exact h.level
      have hresolver : (read mem w).stateful.TTAddressResolver.level = 2 - n := by
        rw [← show 3 - (n + 1) = 2 - n from by omega]
        exact h.resolves.level
      by_cases hvalid : valid (read mem w).basic.rawTTEValue.toNat
      case neg =>
        refine ⟨fun hzero => absurd hzero.2 hvalid, fun _ => ?_⟩
        rw [computed, if_pos hvalid]
        exact h.lookups_last (walk_invalid h.going.1 h.going.2.1 hvalid) (n + 1)
      case pos =>
        have hblock : ¬ table (read mem w).basic.rawTTEValue.toNat := fun htable => hnext ⟨hvalid, htable⟩
        refine ⟨fun hzero => ?_, fun hnot => ?_⟩
        · rw [mmu_t.lookups, h.lookup, walk_block_zero hvalid hblock (hlevel.trans hzero.1)]
          rfl
        · have hn : n ≤ 1 := by
            by_contra hgt
            exact hnot ⟨by omega, hvalid⟩
          have hthree : 2 - n ≠ 3 := by omega
          have hbelow : 3 - (2 - n) = n + 1 := by omega
          simp only [computed, if_neg (not_not.mpr hvalid), if_neg hthree, hbelow]
          exact h.lookups_last (walk_block h.going hvalid hblock hn hlevel hresolver) (n + 1)

end Walk

/-! ## The regime of an address -/

section Regime

open TranslationGranule

variable {r : mmu_regs_t} {outOfRange : Nat → BitVec 64} {va : BitVec 64} {isBR0 : Bool}

/-- The limits that are computed in doubles are exact for the sizes of the 4KB granule. -/
theorem roundDouble_limits : ∀ t, t < 40 → 16 ≤ t →
    roundDouble (2 ^ (64 - t) - 1) = 2 ^ (64 - t) - 1 ∧
      roundDouble (2 ^ 64 - 2 ^ (64 - t)) = 2 ^ 64 - 2 ^ (64 - t) := by
  decide

theorem toNat_ofDouble {d : Nat} (hd : d < 2 ^ 64) : (ofDouble outOfRange d).toNat = d := by
  rw [ofDouble, if_pos hd, BitVec.toNat_ofNat, Nat.mod_eq_of_lt hd]

theorem getIAOffsetValue_eq :
    r.getIAOffsetValue isBR0 = if isBR0 then field r.TCR.toNat 5 0 else field r.TCR.toNat 21 16 := by
  rw [mmu_regs_t.getIAOffsetValue, extractBitsWithRange, extractBitsWithRange,
    toNat_ushiftRight_and_mask _ (by omega), toNat_ushiftRight_and_mask _ (by omega)]
  rfl

theorem setup_eq_ok (hsetup : r.setupAddressSpaceSizesAndGranules = .ok m) :
    m.mmu_regs = r ∧ ∀ isBR0, r.getGranuleSize (if isBR0 then 0 else 1) = .ok (m.gran isBR0).KBSize ∧
      (m.gran isBR0).PAddrWidth = 48 ∧ (m.gran isBR0).IAddrOffset = r.getIAOffsetValue isBR0 := by
  obtain ⟨s0, h0, hrest⟩ := bind_eq_ok.mp hsetup
  obtain ⟨s1, h1, hrest⟩ := bind_eq_ok.mp hrest
  obtain ⟨_, -, hrest⟩ := bind_eq_ok.mp hrest
  rw [← pure_eq_ok.mp hrest]
  refine ⟨rfl, fun isBR0 => ?_⟩
  cases isBR0 with
  | true => exact ⟨h0, rfl, rfl⟩
  | false => exact ⟨h1, rfl, rfl⟩

/-- The regime that the MMU selects is the one that bit 55 of the address tells. -/
theorem testBit_of_selected {tnsz : Nat} (h : SmallGranule (m.gran isBR0) tnsz)
    (hselected : m.checkBR0RangeForVAddr outOfRange va = if isBR0 then 0 else 1) :
    va.toNat.testBit 55 = !isBR0 := by
  obtain ⟨hupper, hlower⟩ := roundDouble_limits tnsz (by have := h.hi; omega) h.lo
  have hpow : 2 ^ (64 - tnsz) ≤ 2 ^ 48 := Nat.pow_le_pow_right (by omega) (by have := h.lo; omega)
  have hpos := Nat.two_pow_pos (64 - tnsz)
  have hoffset := h.offset
  rw [mmu_t.checkBR0RangeForVAddr] at hselected
  cases isBR0 with
  | true =>
    have hle : va ≤ m.Gran0.GetUpperAddressRangeLimit outOfRange := by
      by_contra hgt
      simp only [hgt, if_false] at hselected
      split at hselected <;> simp at hselected
    rw [BitVec.le_def, GetUpperAddressRangeLimit, show m.Gran0.IAddrOffset = tnsz from hoffset, hupper,
      toNat_ofDouble (by omega)] at hle
    rw [Nat.testBit_eq_decide_div_mod_eq]
    simp only [Bool.not_true, decide_eq_false_iff_not]
    omega
  | false =>
    have hle : m.Gran1.GetLowerAddressRangeLimit outOfRange ≤ va := by
      by_contra hgt
      simp only [hgt, if_false] at hselected
      split at hselected <;> simp at hselected
    rw [BitVec.le_def, GetLowerAddressRangeLimit, show m.Gran1.IAddrOffset = tnsz from hoffset, hlower,
      toNat_ofDouble (by omega)] at hle
    have hlt := va.isLt
    rw [Nat.testBit_eq_decide_div_mod_eq]
    simp only [Bool.not_false, decide_eq_true_eq]
    omega

/-- The size of a granule is a power of two. -/
theorem getGranuleSize_pow {granuleNum size : Nat} (h : r.getGranuleSize granuleNum = .ok size) :
    ∃ k, 12 ≤ k ∧ k ≤ 16 ∧ size = 1 <<< k := by
  rw [mmu_regs_t.getGranuleSize] at h
  split at h
  all_goals
    split at h
    all_goals first
      | exact ⟨12, by omega, by omega, (Except.ok.inj h).symm⟩
      | exact ⟨14, by omega, by omega, (Except.ok.inj h).symm⟩
      | exact ⟨16, by omega, by omega, (Except.ok.inj h).symm⟩
      | cases h

/-- The walk of an accepted address starts at the first level of its regime, with the granule
    of the other one. -/
theorem InitialTranslationSetup_spec {aType : eTLBtype} {hasInstruction : Bool} {k : Nat}
    (hsetup : r.setupAddressSpaceSizesAndGranules = .ok m)
    (hselected : m.checkBR0RangeForVAddr outOfRange va = if isBR0 then 0 else 1)
    (hsmall : SmallGranule (m.gran isBR0) (r.getIAOffsetValue isBR0))
    (hother : r.getGranuleSize isBR0.toNat = .ok (1 <<< k)) (hk : k ≤ 16) :
    ∃ w, m.InitialTranslationSetup outOfRange (Translation.create va aType hasInstruction) = .ok (some w) ∧
      w.basic = Translation.create va aType hasInstruction ∧
        Ready m (r.getIAOffsetValue isBR0) k (levelsBelow (r.getIAOffsetValue isBR0))
          (field (if isBR0 then r.TTBR0 else r.TTBR1).toNat 47 (baseLSB (r.getIAOffsetValue isBR0)) *
            2 ^ baseLSB (r.getIAOffsetValue isBR0)) (63 - r.getIAOffsetValue isBR0) w := by
  obtain ⟨hregs, -⟩ := setup_eq_ok hsetup
  obtain ⟨hinitial, hlow, hhigh⟩ := hsmall.initial
  obtain ⟨resolver, hresolver, hresolves⟩ := setupTTResolver_initial
    (if isBR0 then r.TTBR0 else r.TTBR1) hsmall
  have hbr : (m.checkBR0RangeForVAddr outOfRange va == 0) = isBR0 := by
    rw [hselected]
    cases isBR0 <;> rfl
  have hne : m.checkBR0RangeForVAddr outOfRange va ≠ -1 := by
    rw [hselected]
    cases isBR0 <;> decide
  have hlevel : m.getInitialLookupLevel isBR0 = 3 - levelsBelow (r.getIAOffsetValue isBR0) := hinitial
  refine ⟨⟨Translation.create va aType hasInstruction,
    ⟨4 - (3 - levelsBelow (r.getIAOffsetValue isBR0)), 3 - levelsBelow (r.getIAOffsetValue isBR0), isBR0, 1 <<< k,
      resolver, 0⟩, 0⟩, ?_, rfl, ?_⟩
  · simp only [mmu_t.InitialTranslationSetup, Translation.create, hne, if_false, hbr, hregs, hother, hlevel]
    simp only [bind, Except.bind, pure, Except.pure, hresolver]
  · refine ⟨rfl, hresolves, hsmall, le_refl _, ?_, rfl, hk, rfl, rfl, rfl⟩
    simp only [Translation.create]
    omega

end Regime

/-! ## Agreement with the architecture -/

section Agreement

variable {r : mmu_regs_t} {va : BitVec 64} {isBR0 : Bool}

/-- What the architecture reads for the address. -/
def mmu_regs_t.architectural (r : mmu_regs_t) (mem : BitVec 64 → BitVec 64) (va : BitVec 64) : Reached :=
  translate (word mem) r.TCR.toNat r.TTBR0.toNat r.TTBR1.toNat va.toNat

/-- The number of offset bits of the granule that a page's offset is masked with: the one of
    the other regime. -/
def mmu_regs_t.pageMaskBits (r : mmu_regs_t) (isBR0 : Bool) : Nat :=
  match r.getGranuleSize isBR0.toNat with
  | .ok size => size.log2
  | .error _ => 12

/-- The last descriptor is not a valid one of level 0, and on level 3 it is a page that has
    every bit set which the other regime's granule lets through from the address. -/
def Covered (reached : Reached) (va k : Nat) : Prop :=
  valid reached.descriptor → reached.level ≠ 0 ∧
    (reached.level = 3 → table reached.descriptor ∧
      ∀ i, i < k → 12 ≤ i → va.testBit i = true → reached.descriptor.testBit i = true)

instance (reached : Reached) (va k : Nat) : Decidable (Covered reached va k) :=
  inferInstanceAs (Decidable (_ → _))

/-- The page offset that is masked too wide changes nothing exactly when the bits it lets
    through are set in the page's address. -/
theorem page_eq_iff {d va k : Nat} (hk : k ≤ 16) (hlow : 12 ≤ k) :
    (field d 47 12 * 2 ^ 12 ||| va % 2 ^ k) = field d 47 12 * 2 ^ 12 + va % 2 ^ 12 ↔
      ∀ i, i < k → 12 ≤ i → va.testBit i = true → d.testBit i = true := by
  have hadd : field d 47 12 * 2 ^ 12 + va % 2 ^ 12 = (field d 47 12 <<< 12 ||| va % 2 ^ 12) := by
    rw [← Nat.shiftLeft_add_eq_or_of_lt (Nat.mod_lt _ (Nat.two_pow_pos _)), Nat.shiftLeft_eq]
  have hbit : ∀ i, i < 16 → (field d 47 12 <<< 12).testBit i = (decide (12 ≤ i) && d.testBit i) := by
    intro i hi
    rw [Nat.testBit_shiftLeft, field, Nat.testBit_mod_two_pow, Nat.testBit_div_two_pow]
    by_cases hge : 12 ≤ i
    · have hsmall : i - 12 < 47 + 1 - 12 := by omega
      simp [hge, hsmall]
    · simp [hge]
  rw [hadd, ← Nat.shiftLeft_eq]
  constructor
  · intro heq i hlt hge hva
    have hi := congrArg (Nat.testBit · i) heq
    have hnot : ¬ i < 12 := by omega
    simp only [Nat.testBit_or, Nat.testBit_mod_two_pow, hbit i (by omega), hge, hlt, hnot, hva] at hi
    simpa using hi
  · intro hset
    apply Nat.eq_of_testBit_eq
    intro i
    simp only [Nat.testBit_or, Nat.testBit_mod_two_pow]
    by_cases hlt : i < 12
    · have hk' : i < k := by omega
      simp [hlt, hk']
    · by_cases hk' : i < k
      · cases hva : va.testBit i with
        | false => simp
        | true =>
          have hge : 12 ≤ i := by omega
          simp [hbit i (by omega), hset i hk' hge hva, hge]
      · simp [hlt, hk']

/-- The code's reading of the last descriptor against the architecture's. -/
theorem computed_eq_iff {reached : Reached} {va k : Nat} (hk : k ≤ 16) (hlow : 12 ≤ k) :
    (¬ (reached.level = 0 ∧ valid reached.descriptor) ∧ computed reached va k = reached.result va) ↔
      Covered reached va k := by
  rw [Covered, computed, Reached.result]
  by_cases hvalid : valid reached.descriptor
  case neg => simp [hvalid]
  rw [if_neg (not_not.mpr hvalid), if_neg (not_not.mpr hvalid)]
  by_cases hthree : reached.level = 3
  · by_cases htable : table reached.descriptor
    · simp only [hthree, htable, hvalid, if_true, Result.output.injEq, page_eq_iff hk hlow]
      simp
    · simp [hthree, htable, hvalid]
  · by_cases hzero : reached.level = 0 <;> simp [hthree, hzero, hvalid]

/-- For a regime with the 4KB granule and an address that the MMU accepts, the walk ends in
    time, without a failed assertion, and with the descriptor addresses and the result of the
    architecture, exactly when its last descriptor is covered. -/
theorem walk_architectural_iff (r : mmu_regs_t) (m : mmu_t) (outOfRange : Nat → BitVec 64)
    (mem : BitVec 64 → BitVec 64) (va : BitVec 64) (isBR0 : Bool) (aType : eTLBtype) (hasInstruction : Bool)
    (hsetup : r.setupAddressSpaceSizesAndGranules = .ok m)
    (hselected : m.checkBR0RangeForVAddr outOfRange va = if isBR0 then 0 else 1)
    (hgranule : r.getGranuleSize (if isBR0 then 0 else 1) = .ok (1 <<< 12))
    (htnsz : 16 ≤ r.getIAOffsetValue isBR0 ∧ r.getIAOffsetValue isBR0 ≤ 39) :
    (∃ w, m.push_back_trace outOfRange mem (4 - m.getInitialLookupLevel isBR0)
          (Translation.create va aType hasInstruction) = .ok (some w) ∧
        w.basic.trace = (r.architectural mem va).addresses ∧
          w.basic.result = (r.architectural mem va).result va.toNat) ↔
      Covered (r.architectural mem va) va.toNat (r.pageMaskBits isBR0) := by
  obtain ⟨-, hgran⟩ := setup_eq_ok hsetup
  obtain ⟨hsize, hwidth, hoffset⟩ := hgran isBR0
  have hsmall : SmallGranule (m.gran isBR0) (r.getIAOffsetValue isBR0) :=
    ⟨Except.ok.inj (hsize.symm.trans hgranule), hwidth, hoffset, htnsz.1, htnsz.2⟩
  have hother := (hgran !isBR0).1
  have hnum : (if (!isBR0) = true then 0 else 1) = isBR0.toNat := by cases isBR0 <;> rfl
  rw [hnum] at hother
  obtain ⟨k, hlow, hk, hpow⟩ := getGranuleSize_pow hother
  rw [hpow] at hother
  have hmask : r.pageMaskBits isBR0 = k := by
    rw [mmu_regs_t.pageMaskBits, hother]
    simp only [Nat.shiftLeft_eq, one_mul]
    exact Nat.log2_two_pow
  obtain ⟨w, hstart, hbasic, hready⟩ := InitialTranslationSetup_spec hsetup hselected hsmall hother hk
  have hva : w.basic.theVaddr = va := by rw [hbasic]; rfl
  have htrace : w.basic.trace = [] := by rw [hbasic]; rfl
  have hreached : r.architectural mem va = descend (word mem) va.toNat (levelsBelow (r.getIAOffsetValue isBR0))
      (field (if isBR0 then r.TTBR0 else r.TTBR1).toNat 47 (baseLSB (r.getIAOffsetValue isBR0)) *
        2 ^ baseLSB (r.getIAOffsetValue isBR0)) (63 - r.getIAOffsetValue isBR0) := by
    rw [mmu_regs_t.architectural, Stage1.translate, testBit_of_selected hsmall hselected, getIAOffsetValue_eq]
    cases isBR0 <;> rfl
  have hfuel : 4 - m.getInitialLookupLevel isBR0 = levelsBelow (r.getIAOffsetValue isBR0) + 1 := by
    obtain ⟨hinitial, hone, hthree⟩ := hsmall.initial
    rw [mmu_t.getInitialLookupLevel, hinitial]
    omega
  obtain ⟨hzero, hother⟩ := lookups_spec hready mem
  rw [hva, ← hreached] at hzero hother
  rw [hmask, hfuel, ← computed_eq_iff hk hlow]
  have hpush : ∀ fuel, m.push_back_trace outOfRange mem fuel (Translation.create va aType hasInstruction) =
      (m.lookups mem fuel w).map some := by
    intro fuel
    rw [mmu_t.push_back_trace, hstart]
    cases hlookups : m.lookups mem fuel w <;> simp [bind, Except.bind, hlookups, Except.map, pure, Except.pure]
  rw [hpush]
  by_cases hblock : (r.architectural mem va).level = 0 ∧ valid (r.architectural mem va).descriptor
  · rw [hzero hblock]
    refine iff_of_false ?_ fun h => h.1 hblock
    rintro ⟨w', hw', -⟩
    cases hw'
  · obtain ⟨w', hok, htraces, hresult⟩ := hother hblock
    rw [htrace, List.nil_append] at htraces
    rw [hok, and_iff_right hblock, ← hresult]
    constructor
    · rintro ⟨w'', hw'', -, hequal⟩
      obtain rfl := Option.some_inj.mp (Except.ok.inj hw'')
      exact hequal
    · intro hequal
      exact ⟨w', rfl, htraces, hequal⟩

/-- A walk of four levels in the first regime, where both regimes use the 4KB granule. -/
theorem walk_architectural_page :
    ∃ w, (⟨⟨0x80100010, 0x1000, 0, 0⟩, ⟨4096, 48, 16⟩, ⟨4096, 48, 16⟩⟩ : mmu_t).push_back_trace (fun _ => 0)
          (fun _ => 0x10003) 4 (Translation.create 0x3000 .kINST false) = .ok (some w) ∧
        w.basic.trace = ((⟨0x80100010, 0x1000, 0, 0⟩ : mmu_regs_t).architectural (fun _ => 0x10003) 0x3000).addresses ∧
          w.basic.result =
            ((⟨0x80100010, 0x1000, 0, 0⟩ : mmu_regs_t).architectural (fun _ => 0x10003) 0x3000).result 0x3000 :=
  (walk_architectural_iff ⟨0x80100010, 0x1000, 0, 0⟩ ⟨⟨0x80100010, 0x1000, 0, 0⟩, ⟨4096, 48, 16⟩, ⟨4096, 48, 16⟩⟩
    (fun _ => 0) (fun _ => 0x10003) 0x3000 true .kINST false (by decide) (by decide) (by decide)
    ⟨by decide, by decide⟩).mpr (by decide)

/-- With the 64KB granule in the second regime, the page at 0x10000 is given out as 0x13000
    for the address 0x3000 of the first. -/
theorem walk_not_architectural :
    ¬ ∀ (r : mmu_regs_t) (m : mmu_t) (outOfRange : Nat → BitVec 64) (mem : BitVec 64 → BitVec 64) (va : BitVec 64)
        (isBR0 : Bool) (aType : eTLBtype) (hasInstruction : Bool),
      r.setupAddressSpaceSizesAndGranules = .ok m →
      (m.checkBR0RangeForVAddr outOfRange va = if isBR0 then 0 else 1) →
      r.getGranuleSize (if isBR0 then 0 else 1) = .ok (1 <<< 12) →
      16 ≤ r.getIAOffsetValue isBR0 ∧ r.getIAOffsetValue isBR0 ≤ 39 →
      ∃ w, m.push_back_trace outOfRange mem (4 - m.getInitialLookupLevel isBR0)
          (Translation.create va aType hasInstruction) = .ok (some w) ∧
        w.basic.trace = (r.architectural mem va).addresses ∧
          w.basic.result = (r.architectural mem va).result va.toNat := by
  intro hall
  obtain ⟨w, hw, -, hresult⟩ := hall ⟨0xC0100010, 0x1000, 0, 0⟩
    ⟨⟨0xC0100010, 0x1000, 0, 0⟩, ⟨4096, 48, 16⟩, ⟨65536, 48, 16⟩⟩ (fun _ => 0) (fun _ => 0x10003) 0x3000 true .kINST
    false (by decide) (by decide) (by decide) ⟨by decide, by decide⟩
  have hcode := congrArg (fun x => x.toOption.join.map fun w => w.basic.result) hw
  simp only [Except.toOption, Option.join_some, Option.map_some, hresult] at hcode
  exact absurd hcode (by decide)

end Agreement

end nMMU
