import Flexus.ArmDecoder.Operations
import Flexus.ArmDecoder.Reverse

/-!
# Semantic actions

The actions that an instruction is made of: what each reads from the operand slots and the
register file, what it computes, and the slots and registers it writes.
-/

namespace narmDecoder

/-! ## Conditions -/

namespace PSTATE

def N (theVal : BitVec 32) : Bool := theVal &&& PSTATE_N ≠ 0#32
def Z (theVal : BitVec 32) : Bool := theVal &&& PSTATE_Z ≠ 0#32
def C (theVal : BitVec 32) : Bool := theVal &&& PSTATE_C ≠ 0#32
def V (theVal : BitVec 32) : Bool := theVal &&& PSTATE_V ≠ 0#32

end PSTATE

/-- A condition code above 15 fails the assertion. -/
def ConditionHolds (pstate : BitVec 32) (condcode : BitVec 64) : Except Fault Bool := do
  let result ← match (condcode >>> 1).toNat with
    | 0 => .ok (PSTATE.Z pstate)
    | 1 => .ok (PSTATE.C pstate)
    | 2 => .ok (PSTATE.N pstate)
    | 3 => .ok (PSTATE.V pstate)
    | 4 => .ok (PSTATE.C pstate && !PSTATE.Z pstate)
    | 5 => .ok (PSTATE.N pstate == PSTATE.V pstate)
    | 6 => .ok (PSTATE.N pstate == PSTATE.V pstate && !PSTATE.Z pstate)
    | 7 => .ok true
    | _ => .error .assertion
  if condcode &&& 1#64 = 1#64 ∧ condcode ≠ 0xf#64 then return !result
  return result

/-- `BCOND`. -/
def BCOND : List Operand → Except Fault Bool
  | [a, b] => do
    let p ← a.getUint64
    let test ← b.getUint64
    ConditionHolds (p.setWidth 32) test
  | _ => .error .assertion

/-! ## The instruction's view of the machine -/

inductive eNZCV where
  | kN | kZ | kC | kV
  deriving DecidableEq, Repr

/-- What an instruction finds in the core: the register maps, whose names keep the type of the
    register, the values of the physical registers, the core's processor state and that of the
    functional simulator. -/
structure Env where
  map : reg → Nat
  create : reg → Nat × Nat
  readRegister : mapped_reg → BitVec 64
  _PSTATE : BitVec 32
  readPSTATE : BitVec 64

namespace Env

def mapped (env : Env) (name : reg) : mapped_reg := ⟨name.theType, env.map name⟩

def created (env : Env) (name : reg) : mapped_reg := ⟨name.theType, (env.create name).1⟩

def previous (env : Env) (name : reg) : mapped_reg := ⟨name.theType, (env.create name).2⟩

end Env

/-- The operands of an instruction and the registers that it has written. -/
structure Store where
  theOperands : OperandMap
  registers : mapped_reg → Option (BitVec 64)

namespace Store

variable (s : Store)

def operand (code : eOperandCode) : Operand := s.theOperands.operand code

def setOperand (code : eOperandCode) (value : Operand) : Store :=
  { s with theOperands := s.theOperands.set code value }

def writeRegister (name : mapped_reg) (value : BitVec 64) : Store :=
  { s with registers := Function.update s.registers name (some value) }

@[simp] theorem operand_setOperand_self (code : eOperandCode) (value : Operand) :
    (s.setOperand code value).operand code = value := OperandMap.operand_set_self ..

@[simp] theorem operand_setOperand_of_ne {code other : eOperandCode} (value : Operand) (h : other ≠ code) :
    (s.setOperand code value).operand other = s.operand other := OperandMap.operand_set_of_ne _ _ _ _ h

@[simp] theorem registers_setOperand (code : eOperandCode) (value : Operand) :
    (s.setOperand code value).registers = s.registers := rfl

@[simp] theorem operand_writeRegister (name : mapped_reg) (value : BitVec 64) (code : eOperandCode) :
    (s.writeRegister name value).operand code = s.operand code := rfl

@[simp] theorem registers_writeRegister_self (name : mapped_reg) (value : BitVec 64) :
    (s.writeRegister name value).registers name = some value := Function.update_self ..

@[simp] theorem registers_writeRegister_of_ne {name other : mapped_reg} (value : BitVec 64) (h : other ≠ name) :
    (s.writeRegister name value).registers other = s.registers other := Function.update_of_ne h ..

end Store

/-- `register_value_extractor` and `boost::get<uint64_t>` after it. -/
def Operand.getRegisterValue : Operand → Except Fault (BitVec 64)
  | .uint64 value => .ok value
  | .int64 value => .ok value
  | .bits _ => .error .badGet
  | .reg _ => .error .assertion
  | .mapped_reg _ => .error .assertion

/-! ## Actions -/

/-- The actions, with the values that their constructors keep. -/
inductive Action where
  | readRegister (theRegisterCode theOperandCode : eOperandCode) (the64 : Bool)
  | readConstant (theVal : BitVec 64) (theOperandCode : eOperandCode)
  | readNZCV (theBit : eNZCV) (theOperandCode : eOperandCode)
  | execute (theOperation : Operation) (theOperands : List eOperandCode) (theResult : eOperandCode)
  | bitField (theOperandCode1 theOperandCode2 : eOperandCode) (theS theR thewmask thetmask : BitVec 64)
      (theExtend the64 : Bool)
  | extract (theOperandCode1 theOperandCode2 theOperandCode3 : eOperandCode) (the64 : Bool)
  | ror (theOperandCode1 theOperandCode2 : eOperandCode) (the64 : Bool)
  | reverse (theInputCode theOutputCode : eOperandCode) (the64 : Bool)
  | reorder (theInputCode theOutputCode : eOperandCode) (theContainerSize : Nat) (the64 : Bool)
  | count (theInputCode theOutputCode : eOperandCode) (theCountOp : eCountOp) (the64 : Bool)
  | crc (thePoly : BitVec 32) (theInputCode theInputCode2 theOutputCode : eOperandCode) (the64 : Bool)
  | conditionSelect (theResult : eOperandCode) (theInvert theIncrement : Bool)
  | conditionCompare (theResult : eOperandCode) (theSub_op the64 : Bool)
  | writeback (theResult theRd : eOperandCode) (the64 : Bool)
  | writecc (theCC : eOperandCode) (the64 : Bool)
  | annul (theRegisterCode theOutputCode : eOperandCode)
  deriving DecidableEq

/-- The flags with those of the 32-bit result put in, as `WriteccAction` and
    `ConditionCompareAction` do it. -/
def patchFlags32 (flags result : BitVec 64) : BitVec 64 :=
  let flags := flags &&& (~~~PSTATE_N).setWidth 64
  let flags := flags ||| if result &&& (1#64 <<< 31) ≠ 0#64 then PSTATE_N.setWidth 64 else 0#64
  let flags := flags ||| if result &&& 0xFFFFFFFF#64 = 0#64 then PSTATE_Z.setWidth 64 else 0#64
  flags ||| if result >>> 32 = 1#64 then PSTATE_C.setWidth 64 else 0#64

/-- The value that `WriteccAction` writes to the condition register. -/
def ccValue (the64 : Bool) (readPSTATE flags result : BitVec 64) : BitVec 64 :=
  (readPSTATE &&& 0x0FFFFFFF#64) ||| if the64 then flags else patchFlags32 flags result

/-- The bits of a rotated operand that the masks of `BitFieldAction` select, above the sign, the
    zeros or the bits of the destination. -/
def bitFieldValue (theS thewmask thetmask : BitVec 64) (theExtend the64 : Bool) (src dst res : BitVec 64) : BitVec 64 :=
  let bot := (dst &&& ~~~thewmask) ||| (res &&& thewmask)
  let top_mask := if the64 then BitVec.allOnes 64 else 0xFFFFFFFF#64
  let top := if theExtend then if src &&& shl64 1#64 theS.toNat ≠ 0#64 then top_mask else 0#64 else dst
  (top &&& ~~~thetmask) ||| (bot &&& thetmask)

/-- A field of two operands next to each other, from bit `imm` on. -/
def extractValue (the64 : Bool) (src src2 imm : BitVec 64) : Except Fault (BitVec 64) := do
  let applied ← (operation (if the64 then .kCONCAT64_ else .kCONCAT32_)).apply [.uint64 src, .uint64 src2]
  let res ← applied.value.getBits
  return (res >>> imm.toNat).setWidth 64

/-- `bitReverse`, whose test is true of bit 0 at most, which it moves out of the word. -/
def CRCAction.bitReverse (input : BitVec 32) : BitVec 32 :=
  (List.range 32).foldl (fun out_val i =>
    if input &&& (1#32 <<< i) = 1#32 then out_val ||| (1#32 <<< ((32 - i) % 32)) else out_val) 0#32

namespace Action

variable (env : Env) (s : Store)

/-- The width of an operand, as it is handed to the rotation. -/
def operandSize (the64 : Bool) : BitVec 64 := if the64 then 64#64 else 32#64

/-- `doEvaluate`, for an action that is ready. -/
def doEvaluate : Action → Except Fault Store
  | readRegister theRegisterCode theOperandCode the64 => do
    let name ← (s.operand theRegisterCode).getMappedReg
    return s.setOperand theOperandCode (.uint64 (widthMask the64 (env.readRegister name)))
  | readConstant theVal theOperandCode => return s.setOperand theOperandCode (.uint64 theVal)
  | readNZCV theBit theOperandCode =>
    let nzcv_bit := match theBit with
      | .kN => PSTATE.N env._PSTATE
      | .kZ => PSTATE.Z env._PSTATE
      | .kC => PSTATE.C env._PSTATE
      | .kV => PSTATE.V env._PSTATE
    return s.setOperand theOperandCode (.bits (if nzcv_bit then 1#128 else 0#128))
  | execute theOperation theOperands theResult => do
    let applied ← theOperation.apply (theOperands.map s.operand)
    let s := match applied.theNZCV with
      | some nzcv => s.setOperand .kResultCC (.uint64 (nzcv.setWidth 64))
      | none => s
    if applied.the128 then
      return s.setOperand theResult (.bits (← applied.value.getBits))
    else
      return s.setOperand theResult (.uint64 (← applied.value.getUint64))
  | bitField theOperandCode1 theOperandCode2 theS theR thewmask thetmask theExtend the64 => do
    let src ← (s.operand theOperandCode1).getUint64
    let dst ← (s.operand theOperandCode2).getUint64
    let applied ← (operation .kROR_).apply [.uint64 src, .uint64 theR, .uint64 (operandSize the64)]
    let res ← applied.value.getUint64
    return s.setOperand .kResult (.uint64 (bitFieldValue theS thewmask thetmask theExtend the64 src dst res))
  | extract theOperandCode1 theOperandCode2 theOperandCode3 the64 => do
    let src ← (s.operand theOperandCode1).getUint64
    let src2 ← (s.operand theOperandCode2).getUint64
    let imm ← (s.operand theOperandCode3).getUint64
    return s.setOperand .kResult (.uint64 (← extractValue the64 src src2 imm))
  | ror theOperandCode1 theOperandCode2 the64 => do
    let src ← (s.operand theOperandCode1).getUint64
    let imm ← (s.operand theOperandCode2).getUint64
    return s.setOperand .kResult (.uint64 (← extractValue the64 src src imm))
  | reverse theInputCode theOutputCode the64 => do
    let in_val ← (s.operand theInputCode).getUint64
    return s.setOperand theOutputCode (.uint64 (reverseValue the64 in_val))
  | reorder theInputCode theOutputCode theContainerSize the64 => do
    let in_val ← (s.operand theInputCode).getUint64
    return s.setOperand theOutputCode (.uint64 (reorderValue theContainerSize the64 in_val))
  | count theInputCode theOutputCode theCountOp the64 => do
    let in_val ← (s.operand theInputCode).getUint64
    return s.setOperand theOutputCode (.uint64 (countValue theCountOp the64 in_val))
  | crc _ theInputCode _ theOutputCode the64 => do
    let acc ← (s.operand theInputCode).getBits
    let reversed := CRCAction.bitReverse (acc.setWidth 32)
    -- The shift is on a 32-bit value. The second input and the polynomial do not matter.
    let data := (reversed <<< ((if the64 then 64 else 32) % 32)).setWidth 128
    return s.setOperand theOutputCode (.bits (data &&& 0xffffffff#128))
  | conditionSelect theResult theInvert theIncrement => do
    let result ← BCOND [s.operand .kOperand3, s.operand .kCondition]
    if result then return s.setOperand theResult (s.operand .kOperand1)
    let s := s.setOperand theResult (s.operand .kOperand2)
    let s ← if theInvert then do
        let applied ← (operation .kNot_).apply [s.operand .kResult]
        pure (s.setOperand theResult applied.value)
      else pure s
    if theIncrement then do
      let applied ← (operation .kADD_).apply [s.operand .kResult, s.operand .kOperand5]
      return s.setOperand theResult applied.value
    return s
  | conditionCompare theResult theSub_op the64 => do
    let result ← BCOND [s.operand .kOperand3, s.operand .kCondition]
    let nzcv := (← (s.operand .kOperand4).getUint64) <<< 28
    let res := if nzcv &&& PSTATE_N.setWidth 64 ≠ 0#64 then BitVec.allOnes 64 else 0#64
    if result then do
      let op := operation (if theSub_op then .kSUBS_ else .kADDS_)
      let applied ← op.apply [s.operand .kOperand1, s.operand .kOperand2]
      let nzcv := (applied.theNZCV.getD 0#32).setWidth 64
      let nzcv ← if the64 then pure nzcv else do pure (patchFlags32 nzcv (← applied.value.getUint64))
      return (s.setOperand theResult applied.value).setOperand .kResultCC (.uint64 nzcv)
    return (s.setOperand theResult (.uint64 res)).setOperand .kResultCC (.uint64 nzcv)
  | writeback theResult theRd the64 => do
    let res ← (s.operand theResult).getRegisterValue
    let name ← (s.operand theRd).getMappedReg
    if the64 then return s.writeRegister name res
    return (s.setOperand theResult (.uint64 (widthMask false res))).writeRegister name (widthMask false res)
  | writecc theCC the64 => do
    let name ← (s.operand theCC).getMappedReg
    let flags ← (s.operand .kResultCC).getRegisterValue
    let result ← if the64 then pure 0#64 else (s.operand .kResult).getRegisterValue
    return s.writeRegister name (ccValue the64 env.readPSTATE flags result)
  | annul theRegisterCode theOutputCode => do
    let name ← (s.operand theRegisterCode).getMappedReg
    return s.setOperand theOutputCode (.uint64 (env.readRegister name))

/-- Whether `doEvaluate` ends with `satisfyDependants`. -/
def satisfiesDependants : Action → Bool
  | readNZCV .. => false
  | crc .. => false
  | _ => true

/-- The actions that the dispatch of the instruction schedules. They do not wait for their
    argument, which stands for the register that they read. -/
def isRead : Action → Bool
  | readRegister .. => true
  | readConstant .. => true
  | readNZCV .. => true
  | _ => false

/-- The predicate of an action, which is off only for the annulment. -/
def predicate : Action → Bool
  | annul .. => false
  | _ => true

end Action

end narmDecoder
