import Mathlib.Tactic

/-!
# Operands of a semantic instruction

The values that the actions of an instruction hand to each other, the numbered slots they
hand them over in, and the ways in which reading a slot can fail.
-/

namespace narmDecoder

/-- What stops an action: a failed assertion, `boost::get` of another type than the stored
    one, a division by zero, or a loop that its counter cannot leave. -/
inductive Fault where
  | assertion
  | badGet
  | divisionByZero
  | endlessLoop
  deriving DecidableEq, Repr

inductive eRegisterType where
  | xRegisters
  | vRegisters
  | ccBits
  deriving DecidableEq, Repr

structure reg where
  theType : eRegisterType
  theIndex : Nat
  deriving DecidableEq, Repr

structure mapped_reg where
  theType : eRegisterType
  theIndex : Nat
  deriving DecidableEq, Repr

/-- `boost::variant<reg, mapped_reg, int64_t, uint64_t, bits>`. -/
inductive Operand where
  | reg (name : reg)
  | mapped_reg (name : mapped_reg)
  | int64 (value : BitVec 64)
  | uint64 (value : BitVec 64)
  | bits (value : BitVec 128)
  deriving DecidableEq, Repr

namespace Operand

/-- `boost::get<uint64_t>`. -/
def getUint64 : Operand → Except Fault (BitVec 64)
  | .uint64 value => .ok value
  | _ => .error .badGet

def getInt64 : Operand → Except Fault (BitVec 64)
  | .int64 value => .ok value
  | _ => .error .badGet

def getBits : Operand → Except Fault (BitVec 128)
  | .bits value => .ok value
  | _ => .error .badGet

def getReg : Operand → Except Fault narmDecoder.reg
  | .reg name => .ok name
  | _ => .error .badGet

def getMappedReg : Operand → Except Fault narmDecoder.mapped_reg
  | .mapped_reg name => .ok name
  | _ => .error .badGet

@[simp] theorem getUint64_uint64 (value : BitVec 64) : (uint64 value).getUint64 = .ok value := rfl

@[simp] theorem getUint64_bits (value : BitVec 128) : (bits value).getUint64 = .error .badGet := rfl

end Operand

/-- `DBG_Assert`. -/
def assert (p : Prop) [Decidable p] : Except Fault Unit :=
  if p then .ok () else .error .assertion

/-! ## Slots -/

inductive eOperandCode where
  | kRS1 | kRS2 | kRS3 | kRS4 | kRS5
  | kCCs
  | kRD | kRD1 | kRD2 | kCCd
  | kPS1 | kPS2 | kPS3 | kPS4 | kPS5
  | kCCps
  | kPD | kPD1 | kPD2 | kCCpd
  | kPPD | kPPD1 | kPPD2 | kPCCpd
  | kOperand1 | kOperand2 | kOperand3 | kOperand4 | kOperand5
  | kResult | kResult1 | kResult2
  | kResultCC
  | kAddress
  | kCondition
  | kUopAddressOffset | kSopAddressOffset
  deriving DecidableEq, Repr

/-- `eOperandCode(kOperand1 + anOpNumber - 1)`, for the numbers that are asserted. -/
inductive OpNumber where
  | one | two | three | four | five
  deriving DecidableEq, Repr

namespace OpNumber

def kOperand : OpNumber → eOperandCode
  | one => .kOperand1
  | two => .kOperand2
  | three => .kOperand3
  | four => .kOperand4
  | five => .kOperand5

def kRS : OpNumber → eOperandCode
  | one => .kRS1
  | two => .kRS2
  | three => .kRS3
  | four => .kRS4
  | five => .kRS5

def kPS : OpNumber → eOperandCode
  | one => .kPS1
  | two => .kPS2
  | three => .kPS3
  | four => .kPS4
  | five => .kPS5

end OpNumber

/-- The operand map of an instruction. -/
abbrev OperandMap := eOperandCode → Option Operand

namespace OperandMap

variable (m : OperandMap) (code other : eOperandCode) (value : Operand)

/-- `operand(code)`, whose type is checked when the value is taken out. A slot that was never
    set holds a `reg`. -/
def operand : Operand := (m code).getD (.reg ⟨.xRegisters, 0⟩)

def hasOperand : Bool := (m code).isSome

def set : OperandMap := Function.update m code (some value)

@[simp] theorem operand_set_self : (m.set code value).operand code = value := by
  simp [operand, set]

@[simp] theorem operand_set_of_ne (h : other ≠ code) : (m.set code value).operand other = m.operand other := by
  simp [operand, set, h]

end OperandMap

/-! ## Fields of an opcode -/

/-- The bit field of `length` bits from bit `start` on. -/
def extract32 (value : BitVec 32) (start length : Nat) : BitVec 32 :=
  (value >>> start) &&& (BitVec.allOnes 32 >>> (32 - length))

/-- The same field as a signed number. -/
def sextract32 (value : BitVec 32) (start length : Nat) : BitVec 32 :=
  (value <<< (32 - length - start)).sshiftRight (32 - length)

end narmDecoder
