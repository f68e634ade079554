import Flexus.MMU.Granules

/-!
# Page walks

The resolvers that index the translation tables level by level, and the walk of one
translation: the address of the next descriptor, then what the descriptor read there says.
-/

namespace nMMU

/-- The resolvers `L0Resolver` to `L3Resolver`; `level` stands for the class. -/
structure TTResolver where
  level : Nat
  RawTTBRReg : BitVec 64
  TTBR_LSB : Nat
  TTBR_MSB : Nat
  offset_LSB : Nat
  offset_MSB : Nat
  deriving DecidableEq, Repr

def L0Resolver (aGranule : TranslationGranule) (aTTBR : BitVec 64) (aPhysAddrWidth : Nat) :
    Except MMUFault TTResolver :=
  let TnSz := aGranule.IAddrOffset
  if 16 ≤ TnSz ∧ TnSz ≤ 24 then
    let x := 28 - TnSz
    .ok ⟨0, aTTBR, x, aPhysAddrWidth - 1, 39, x + 35⟩
  else .error .assertion

def L1Resolver (aGranule : TranslationGranule) (aTTBR : BitVec 64) (aPhysAddrWidth : Nat) : TTResolver :=
  let TnSz := aGranule.IAddrOffset
  let x := if 25 ≤ TnSz ∧ TnSz ≤ 33 then 37 - TnSz else 12
  ⟨1, aTTBR, x, aPhysAddrWidth - 1, 30, x + 26⟩

def L2Resolver (aGranule : TranslationGranule) (aTTBR : BitVec 64) (aPhysAddrWidth : Nat) : TTResolver :=
  let TnSz := aGranule.IAddrOffset
  let x := if 34 ≤ TnSz ∧ TnSz ≤ 39 then 46 - TnSz else 12
  ⟨2, aTTBR, x, aPhysAddrWidth - 1, 21, x + 17⟩

def L3Resolver (aTTBR : BitVec 64) (aPhysAddrWidth : Nat) : TTResolver :=
  ⟨3, aTTBR, 12, aPhysAddrWidth - 1, 12, 20⟩

namespace TTResolver

def maskAndShiftInputAddress (r : TTResolver) (anAddr : BitVec 64) : BitVec 64 :=
  extractBitsWithBounds anAddr r.offset_MSB r.offset_LSB <<< 3

def resolve (r : TTResolver) (inputAddress : BitVec 64) : BitVec 64 :=
  (extractBitsWithBounds r.RawTTBRReg r.TTBR_MSB r.TTBR_LSB <<< r.TTBR_LSB) |||
    r.maskAndShiftInputAddress inputAddress

/-- A descriptor of level 0 is not allowed to be a block. -/
def getBlockOutputBits (r : TTResolver) (rawTTE : BitVec 64) : BitVec 64 :=
  match r.level with
  | 1 => extractBitsWithBounds rawTTE 47 30 <<< 30
  | 2 => extractBitsWithBounds rawTTE 47 21 <<< 21
  | 3 => extractBitsWithBounds rawTTE 47 12 <<< 12
  | _ => 0

end TTResolver

inductive eTLBstatus where
  | kTLBunresolved
  | kTLBmiss
  | kTLBhit
  deriving DecidableEq, Repr

inductive eTLBtype where
  | kINST
  | kDATA
  | kNONE
  deriving DecidableEq, Repr

/-- A translation request; `hasInstruction` stands for the pointer to its instruction, and
    `resync` for the effect of `forceResync` on it. -/
structure Translation where
  theVaddr : BitVec 64
  theTLBtype : eTLBtype
  hasInstruction : Bool
  thePaddr : BitVec 64
  theTLBstatus : eTLBstatus
  theReady : Bool
  theWaiting : Bool
  theDone : Bool
  theAnnul : Bool
  thePageFault : Bool
  resync : Bool
  theTimeoutCounter : Nat
  theCurrentTranslationLevel : Nat
  rawTTEValue : BitVec 64
  trace_addresses : List (BitVec 64)
  deriving DecidableEq, Repr

/-- A new request of a core. -/
def Translation.create (theVaddr : BitVec 64) (aType : eTLBtype) (hasInstruction : Bool) : Translation :=
  ⟨theVaddr, aType, hasInstruction, 0, .kTLBunresolved, false, false, false, false, false, false, 0, 0, 0, []⟩

structure TranslationState where
  requiredTableLookups : Nat
  currentLookupLevel : Nat
  isBR0 : Bool
  granuleSize : Nat
  TTAddressResolver : TTResolver
  BlockSizeFromTTs : Nat
  deriving DecidableEq, Repr

/-- A translation with its state, and the address of the descriptor to be read. -/
structure Walk where
  basic : Translation
  stateful : TranslationState
  trace_address : BitVec 64
  deriving DecidableEq, Repr

namespace Translation

def isInstr (t : Translation) : Bool := t.theTLBtype == .kINST

def isData (t : Translation) : Bool := t.theTLBtype == .kDATA

def setDone (t : Translation) : Except MMUFault Translation :=
  if t.theDone then .error .assertion else .ok { t with theDone := true }

def setPagefault (t : Translation) : Except MMUFault Translation :=
  if t.thePageFault then .error .assertion else .ok { t with thePageFault := true }

/-- A data request resynchronizes its instruction, any other one faults. -/
def raise (t : Translation) : Except MMUFault Translation :=
  if t.isData && t.hasInstruction then .ok { t with resync := true } else t.setPagefault

end Translation

namespace mmu_t

variable (m : mmu_t)

/-- The resolver of a level, for a table at the address in `TTDescriptor`. -/
def setupTTResolver (isBR0 : Bool) (currentLookupLevel : Nat) (TTDescriptor : BitVec 64) :
    Except MMUFault TTResolver :=
  let PAWidth := m.getPAWidth isBR0
  match currentLookupLevel with
  | 0 => L0Resolver (m.gran isBR0) TTDescriptor PAWidth
  | 1 => .ok (L1Resolver (m.gran isBR0) TTDescriptor PAWidth)
  | 2 => .ok (L2Resolver (m.gran isBR0) TTDescriptor PAWidth)
  | 3 => .ok (L3Resolver TTDescriptor PAWidth)
  | _ => .error .assertion

/-- The state of a new walk, or none for an address of neither regime. The granule is asked
    for by the number of the regime, which is 1 for the first. -/
def InitialTranslationSetup (outOfRange : Nat → BitVec 64) (basic : Translation) :
    Except MMUFault (Option Walk) := do
  let br := m.checkBR0RangeForVAddr outOfRange basic.theVaddr
  if br = -1 then return none
  let isBR0 := br == 0
  let initialLevel := m.getInitialLookupLevel isBR0
  let granuleSize ← m.mmu_regs.getGranuleSize isBR0.toNat
  let initialTTBR := if isBR0 then m.mmu_regs.TTBR0 else m.mmu_regs.TTBR1
  let resolver ← m.setupTTResolver isBR0 initialLevel initialTTBR
  return some ⟨basic, ⟨4 - initialLevel, initialLevel, isBR0, granuleSize, resolver, 0⟩, 0⟩

def preWalk (w : Walk) : Walk :=
  let TTEDescriptor := w.stateful.TTAddressResolver.resolve w.basic.theVaddr
  { w with basic := { w.basic with thePaddr := TTEDescriptor }, trace_address := TTEDescriptor }

def preTranslate (w : Walk) : Walk :=
  if w.basic.theCurrentTranslationLevel < w.stateful.requiredTableLookups then
    preWalk { w with
      basic := { w.basic with theCurrentTranslationLevel := w.basic.theCurrentTranslationLevel + 1 } }
  else w

/-- The size of the block that a descriptor of an intermediate level maps. -/
def blockSize : Nat → Except MMUFault Nat
  | 1 => .ok (1 <<< 30)
  | 2 => .ok (1 <<< 21)
  | _ => .error .assertion

def walk (w : Walk) : Except MMUFault Walk := do
  let raw := w.basic.rawTTEValue
  if extractSingleBitAsBool raw 0 = false then
    let t ← w.basic.raise
    return { w with basic := ← t.setDone }
  else if w.stateful.currentLookupLevel = 3 then
    let shiftedRegionBits := w.stateful.TTAddressResolver.getBlockOutputBits raw
    let maskedVAddr := w.basic.theVaddr &&& (BitVec.ofNat 64 w.stateful.granuleSize - 1)
    let t := { w.basic with thePaddr := shiftedRegionBits ||| maskedVAddr }
    return { w with basic := ← t.setDone, stateful := { w.stateful with BlockSizeFromTTs := 1 <<< 12 } }
  else if extractSingleBitAsBool raw 1 then
    let level := w.stateful.currentLookupLevel + 1
    let resolver ← m.setupTTResolver w.stateful.isBR0 level raw
    return { w with stateful := { w.stateful with currentLookupLevel := level, TTAddressResolver := resolver } }
  else
    let shiftedRegionBits := w.stateful.TTAddressResolver.getBlockOutputBits raw
    let size ← blockSize w.stateful.currentLookupLevel
    let maskedVAddr := w.basic.theVaddr &&& (BitVec.ofNat 64 size - 1)
    let t := { w.basic with thePaddr := shiftedRegionBits ||| maskedVAddr }
    return { w with basic := ← t.setDone, stateful := { w.stateful with BlockSizeFromTTs := size } }

/-- One round of the loop: the next descriptor is read and looked at. -/
def lookup (mem : BitVec 64 → BitVec 64) (w : Walk) : Except MMUFault Walk :=
  let w := preTranslate w
  m.walk { w with
    basic := { w.basic with
      rawTTEValue := mem w.trace_address
      trace_addresses := w.basic.trace_addresses ++ [w.trace_address] } }

/-- The loop of `push_back_trace`. -/
def lookups (mem : BitVec 64 → BitVec 64) : Nat → Walk → Except MMUFault Walk
  | 0, _ => .error .outOfFuel
  | fuel + 1, w => do
    let w ← m.lookup mem w
    if w.basic.theDone then return w else lookups mem fuel w

/-- The walk of a translation, with at most `fuel` lookups. -/
def push_back_trace (outOfRange : Nat → BitVec 64) (mem : BitVec 64 → BitVec 64) (fuel : Nat)
    (basic : Translation) : Except MMUFault (Option Walk) := do
  match ← m.InitialTranslationSetup outOfRange basic with
  | none => return none
  | some w => return some (← m.lookups mem fuel w)

end mmu_t

end nMMU
