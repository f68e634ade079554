import Flexus.Lib.BitFields

/-!
# Registers and translation granules

What the MMU reads from its system registers: the granule and the address range of each of
the two translation regimes, and the regime that an address belongs to.
-/

namespace nMMU

/-- A failed assertion, a register object that is not there, or a walk that was not given
    enough lookups. -/
inductive MMUFault where
  | assertion
  | nullMMU
  | outOfFuel
  deriving DecidableEq, Repr

/-- The registers of exception level 1 that a walk depends on. -/
structure mmu_regs_t where
  TCR : BitVec 64
  TTBR0 : BitVec 64
  TTBR1 : BitVec 64
  ID_AA64MMFR0_EL1 : BitVec 64
  deriving DecidableEq, Repr

def extractBitsWithBounds (input : BitVec 64) (upperBitBound lowerBitBound : Nat) : BitVec 64 :=
  (input >>> lowerBitBound) &&& ((1#64 <<< (upperBitBound - lowerBitBound + 1)) - 1#64)

def extractBitsWithRange (input : BitVec 64) (lbound numBits : Nat) : BitVec 64 :=
  (input >>> lbound) &&& ((1#64 <<< numBits) - 1#64)

def extractSingleBitAsBool (input : BitVec 64) (bitshift : Nat) : Bool :=
  ((input >>> bitshift) &&& 1#64) != 0#64

/-! ## Granules -/

structure TranslationGranule where
  KBSize : Nat
  PAddrWidth : Nat
  IAddrOffset : Nat
  deriving DecidableEq, Repr

namespace TranslationGranule

def getInitialLookupLevel (g : TranslationGranule) : Nat :=
  let TnSz := g.IAddrOffset
  if g.KBSize = 1 <<< 12 then
    if 34 ≤ TnSz then 2 else if 25 ≤ TnSz then 1 else 0
  else if g.KBSize = 1 <<< 14 then
    if 39 ≤ TnSz then 3 else if 28 ≤ TnSz then 2 else if 17 ≤ TnSz then 1 else 0
  else if g.KBSize = 1 <<< 16 then
    if 35 ≤ TnSz then 3 else if 22 ≤ TnSz then 2 else 1
  else 0

/-- The double that is nearest to a number, with ties to even. -/
def roundDouble (n : Nat) : Nat :=
  let e := n.log2 - 52
  let q := n / 2 ^ e
  let r := n % 2 ^ e
  (if 2 * r > 2 ^ e ∨ 2 * r = 2 ^ e ∧ q % 2 = 1 then q + 1 else q) * 2 ^ e

/-- The conversion of a double to `uint64_t`; what it gives beyond the range of the type is
    left to `outOfRange`. -/
def ofDouble (outOfRange : Nat → BitVec 64) (d : Nat) : BitVec 64 :=
  if d < 2 ^ 64 then BitVec.ofNat 64 d else outOfRange d

/-- `TG0_Granule::GetUpperAddressRangeLimit` -/
def GetUpperAddressRangeLimit (outOfRange : Nat → BitVec 64) (g : TranslationGranule) : BitVec 64 :=
  ofDouble outOfRange (roundDouble (2 ^ (64 - g.IAddrOffset) - 1))

/-- `TG1_Granule::GetLowerAddressRangeLimit` -/
def GetLowerAddressRangeLimit (outOfRange : Nat → BitVec 64) (g : TranslationGranule) : BitVec 64 :=
  ofDouble outOfRange (roundDouble (2 ^ 64 - 2 ^ (64 - g.IAddrOffset)))

end TranslationGranule

/-! ## The MMU object -/

structure mmu_t where
  mmu_regs : mmu_regs_t
  Gran0 : TranslationGranule
  Gran1 : TranslationGranule
  deriving DecidableEq, Repr

namespace mmu_regs_t

variable (r : mmu_regs_t)

/-- The two regimes encode their granules differently. -/
def getGranuleSize (granuleNum : Nat) : Except MMUFault Nat :=
  if granuleNum = 0 then
    match (extractBitsWithRange r.TCR 14 2).toNat with
    | 0b00 => .ok (1 <<< 12)
    | 0b01 => .ok (1 <<< 16)
    | 0b11 => .ok (1 <<< 14)
    | _ => .error .assertion
  else
    match (extractBitsWithRange r.TCR 30 2).toNat with
    | 0b10 => .ok (1 <<< 12)
    | 0b11 => .ok (1 <<< 16)
    | 0b01 => .ok (1 <<< 14)
    | _ => .error .assertion

def parsePASizeFromRegs : Except MMUFault Nat :=
  match (extractBitsWithRange r.ID_AA64MMFR0_EL1 0 4).toNat with
  | 0b0000 => .ok 32
  | 0b0001 => .ok 36
  | 0b0010 => .ok 40
  | 0b0011 => .ok 42
  | 0b0100 => .ok 44
  | 0b0101 => .ok 48
  | 0b0110 => .ok 52
  | _ => .error .assertion

def getIAOffsetValue (isBR0 : Bool) : Nat :=
  if isBR0 then (extractBitsWithRange r.TCR 0 6).toNat else (extractBitsWithRange r.TCR 16 6).toNat

/-- `setupAddressSpaceSizesAndGranules` on a new object; the physical size that is parsed is
    replaced by 48. -/
def setupAddressSpaceSizesAndGranules : Except MMUFault mmu_t := do
  let TG0_Size ← r.getGranuleSize 0
  let TG1_Size ← r.getGranuleSize 1
  let _ ← r.parsePASizeFromRegs
  return {
    mmu_regs := r
    Gran0 := ⟨TG0_Size, 48, r.getIAOffsetValue true⟩
    Gran1 := ⟨TG1_Size, 48, r.getIAOffsetValue false⟩ }

end mmu_regs_t

namespace mmu_t

variable (m : mmu_t)

def checkBR0RangeForVAddr (outOfRange : Nat → BitVec 64) (theVaddr : BitVec 64) : Int :=
  let upperBR0Bound := m.Gran0.GetUpperAddressRangeLimit outOfRange
  let lowerBR1Bound := m.Gran1.GetLowerAddressRangeLimit outOfRange
  if theVaddr ≤ upperBR0Bound then 0
  else if lowerBR1Bound ≤ theVaddr then 1
  else -1

/-- The granule of a regime. -/
def gran (isBR0 : Bool) : TranslationGranule := if isBR0 then m.Gran0 else m.Gran1

def getInitialLookupLevel (isBR0 : Bool) : Nat := (m.gran isBR0).getInitialLookupLevel

def getPAWidth (isBR0 : Bool) : Nat := (m.gran isBR0).PAddrWidth

end mmu_t

end nMMU
