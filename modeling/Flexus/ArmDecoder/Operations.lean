import Flexus.ArmDecoder.Operand

/-!
# The operations of the execute action

Every operation takes the values of its operand slots, asserts how many there are, and
returns a value and, when it sets the condition flags, four flag bits.

A shift by the width of its operand or more is undefined in C++. It is modelled as the
processors that the simulator runs on compute it, with the count taken modulo the width.
-/

namespace narmDecoder

/-- The flag bits of the processor state. -/
def PSTATE_V : BitVec 32 := 1#32 <<< 28
def PSTATE_C : BitVec 32 := 1#32 <<< 29
def PSTATE_Z : BitVec 32 := 1#32 <<< 30
def PSTATE_N : BitVec 32 := 1#32 <<< 31

inductive eOpType where
  | kADD_ | kADDS_ | kCONCAT32_ | kCONCAT64_ | kAND_ | kANDS_ | kANDSN_ | kORR_ | kXOR_
  | kSUB_ | kSUBS_ | kAndN_ | kOrN_ | kEoN_ | kXnor_
  | kMulX_ | kUMul_ | kUMulH_ | kUMulL_ | kSMul_ | kSMulH_ | kSMulL_
  | kUDivX_ | kUDiv_ | kSDiv_ | kSDivX_
  | kMOV_ | kMOVN_ | kMOVK_
  | kSextB_ | kSextH_ | kSextW_ | kSextX_ | kZextB_ | kZextH_ | kZextW_ | kZextX_
  | kNot_ | kROR_ | kASR_ | kLSR_ | kLSL_ | kOVERWRITE_
  deriving DecidableEq, Repr

/-- What an operation leaves: its value, the flags it has set (`theNZCV`, when
    `theNZCVFlags`), and whether the value has 128 bits. -/
structure Applied where
  value : Operand
  theNZCV : Option (BitVec 32)
  the128 : Bool
  deriving DecidableEq, Repr

/-- A 64-bit value without flags. -/
def plain (value : BitVec 64) : Applied := ⟨.uint64 value, none, false⟩

/-! ## Bits -/

def shl64 (value : BitVec 64) (count : Nat) : BitVec 64 := value <<< (count % 64)

def shr64 (value : BitVec 64) (count : Nat) : BitVec 64 := value >>> (count % 64)

/-- `1 << i` on an `int`, widened to 64 bits. -/
def intBit (i : Nat) : BitVec 64 := (1#32 <<< (i % 32)).signExtend 64

/-- The loop of `ones` has a 32-bit counter, which never reaches a greater length. -/
def ones (length : BitVec 64) : Except Fault (BitVec 64) :=
  if length.toNat < 2 ^ 32 then
    .ok ((List.range length.toNat).foldl (fun tmp i => tmp ||| intBit i) 0#64)
  else .error .endlessLoop

/-- The mask of the operand size. -/
def sizeMask (input_size : BitVec 64) : BitVec 64 :=
  if input_size = 32#64 then 0xffffffff#64 else BitVec.allOnes 64

def ror (input input_size shift_size : BitVec 64) : Except Fault (BitVec 64) := do
  assert (input_size = 64#64 ∨ input_size = 32#64)
  let mask ← ones shift_size
  let remaining_bits := shl64 (input &&& mask) (input_size - shift_size).toNat
  return (remaining_bits ||| shr64 input shift_size.toNat) &&& sizeMask input_size

def asr (input input_size shift_size : BitVec 64) : Except Fault (BitVec 64) := do
  assert (input_size = 64#64 ∨ input_size = 32#64)
  if input &&& intBit (input_size - 1).toNat ≠ 0#64 then
    let filled ← ones shift_size
    return shr64 (input ||| shl64 filled input_size.toNat) shift_size.toNat &&& sizeMask input_size
  else
    return shr64 input shift_size.toNat &&& sizeMask input_size

/-! ## The operations -/

/-- One 64-bit operand. -/
def unary (f : BitVec 64 → BitVec 64) : List Operand → Except Fault Applied
  | [a] => do return plain (f (← a.getUint64))
  | _ => .error .assertion

/-- Two 64-bit operands. -/
def binary (f : BitVec 64 → BitVec 64 → BitVec 64) : List Operand → Except Fault Applied
  | [a, b] => do return plain (f (← a.getUint64) (← b.getUint64))
  | _ => .error .assertion

/-- Three 64-bit operands, on which the operation can fail. -/
def ternary (f : BitVec 64 → BitVec 64 → BitVec 64 → Except Fault (BitVec 64)) :
    List Operand → Except Fault Applied
  | [a, b, c] => do return plain (← f (← a.getUint64) (← b.getUint64) (← c.getUint64))
  | _ => .error .assertion

/-- The operands that were set on the operation itself take the place of the others. -/
def ADD (theOperands operands : List Operand) : Except Fault Applied :=
  match if theOperands = [] then operands else theOperands with
  | [a] => do return plain (← a.getUint64)
  | [a, b] => do return plain ((← a.getUint64) + (← b.getUint64))
  | _ => .error .assertion

/-- The sum and its flags, as `ADDS` and `SUBS` compute them. The conversion of `sresult` to
    `int64_t` leaves the same 64 bits as `uresult`. -/
def addWithFlags (op1 op2 carry : BitVec 64) : Applied :=
  let sresult := op1 + op2 + carry
  let uresult := op1 + op2 + carry
  let result := uresult
  let overflow : Bool := decide (uresult < op1) || decide (uresult < op2)
  let N := if result &&& (1#64 <<< 63) ≠ 0#64 then PSTATE_N else 0#32
  let Z := if result = 0#64 then PSTATE_Z else 0#32
  let C := if overflow then PSTATE_C else 0#32
  let V := if result.toInt = sresult.toInt then 0#32 else PSTATE_V
  ⟨.uint64 result, some (N ||| Z ||| C ||| V), false⟩

def ADDS : List Operand → Except Fault Applied
  | [a, b] => do return addWithFlags (← a.getUint64) (← b.getUint64) 0#64
  | [a, b, c] => do
    let carry ← c.getUint64
    return addWithFlags (← a.getUint64) (← b.getUint64) carry
  | _ => .error .assertion

def SUBS : List Operand → Except Fault Applied
  | [a, b] => do return addWithFlags (← a.getUint64) (~~~(← b.getUint64)) 1#64
  | [a, b, c] => do
    let carry ← c.getUint64
    return addWithFlags (← a.getUint64) (~~~(← b.getUint64)) carry
  | _ => .error .assertion

/-- A value with the flags of `ANDS` and `ANDSN`, which leave `C` and `V` clear. -/
def logicalWithFlags (result : BitVec 64) : Applied :=
  let N := if result &&& (1#64 <<< 63) ≠ 0#64 then PSTATE_N else 0#32
  let Z := if result = 0#64 then PSTATE_Z else 0#32
  ⟨.uint64 result, some (N ||| Z ||| 0#32 ||| 0#32), false⟩

def ANDS : List Operand → Except Fault Applied
  | [a, b] => do return logicalWithFlags ((← a.getUint64) &&& (← b.getUint64))
  | _ => .error .assertion

def ANDSN : List Operand → Except Fault Applied
  | [a, b] => do return logicalWithFlags ((← a.getUint64) &&& ~~~(← b.getUint64))
  | _ => .error .assertion

def CONCAT32 : List Operand → Except Fault Applied
  | [a, b] => do
    let op1 := (← a.getUint64) &&& 0xffffffff#64
    let op2 := (← b.getUint64) &&& 0xffffffff#64
    return ⟨.bits (((op1 <<< 32) ||| op2).setWidth 128), none, true⟩
  | _ => .error .assertion

def concat_bits (lhs rhs : BitVec 128) : BitVec 128 := (lhs <<< 64) ||| rhs

def CONCAT64 : List Operand → Except Fault Applied
  | [a, b] => do
    let op1 ← a.getUint64
    let op2 ← b.getUint64
    return ⟨.bits (concat_bits (op1.setWidth 128) (op2.setWidth 128)), none, true⟩
  | _ => .error .assertion

/-- Shifts by the count modulo the operand size. -/
def shiftBy (f : BitVec 64 → Nat → BitVec 64) (op1 op2 data_size : BitVec 64) : Except Fault (BitVec 64) :=
  if data_size = 0#64 then .error .divisionByZero
  else .ok (f op1 (op2 % data_size).toNat &&& sizeMask data_size)

def LSL : List Operand → Except Fault Applied := ternary (shiftBy shl64)

def LSR : List Operand → Except Fault Applied := ternary (shiftBy shr64)

def ASR : List Operand → Except Fault Applied :=
  ternary fun input shift_size input_size => asr input input_size shift_size

def ROR : List Operand → Except Fault Applied :=
  ternary fun input shift_size input_size => ror input input_size shift_size

/-- An operand with the upper bits set when its sign bit is. -/
def sext (signBit upper : BitVec 64) (op1 : BitVec 64) : BitVec 64 :=
  if op1 &&& signBit ≠ 0#64 then op1 ||| upper else op1

def SIGNED_UPPER_BOUND_B : BitVec 64 := 0xFFFFFFFFFFFFFF00#64
def SIGNED_UPPER_BOUND_H : BitVec 64 := 0xFFFFFFFFFFFF0000#64
def SIGNED_UPPER_BOUND_W : BitVec 64 := 0xFFFFFFFF00000000#64
def SIGNED_UPPER_BOUND_X : BitVec 64 := 0#64

def SextB : List Operand → Except Fault Applied := unary (sext (intBit 7) SIGNED_UPPER_BOUND_B)

def SextH : List Operand → Except Fault Applied := unary (sext (intBit 15) SIGNED_UPPER_BOUND_H)

def SextW : List Operand → Except Fault Applied := unary (sext (intBit 31) SIGNED_UPPER_BOUND_W)

def SextX : List Operand → Except Fault Applied := unary fun op1 => op1 ||| SIGNED_UPPER_BOUND_X

def low32 (value : BitVec 64) : BitVec 64 := value &&& 0xFFFFFFFF#64

/-- The low word with its sign in the upper one. -/
def signed32 (value : BitVec 64) : BitVec 64 :=
  low32 value ||| (if low32 value &&& 0x80000000#64 ≠ 0#64 then 0xFFFFFFFF00000000#64 else 0#64)

/-- A quotient of unsigned numbers, zero for the divisor zero. Both divisions use it. -/
def quotient (op0 op1 : BitVec 64) : BitVec 64 := if op1 = 0#64 then 0#64 else op0 / op1

/-- The high half of a product of 128 bits. -/
def highHalf (product : BitVec 128) : BitVec 64 := (product >>> 64).setWidth 64

def MOV (theOperands operands : List Operand) : Except Fault Applied :=
  match if theOperands = [] then operands else theOperands with
  | [a] => do return plain (← a.getUint64)
  | _ => .error .assertion

/-- An operation: its type and the operands that were set on it. -/
structure Operation where
  theType : eOpType
  theOperands : List Operand
  deriving DecidableEq, Repr

/-- `operation(aType)`. -/
def operation (aType : eOpType) : Operation := ⟨aType, []⟩

/-- The call operator. -/
def Operation.apply (op : Operation) (operands : List Operand) : Except Fault Applied :=
  match op.theType with
  | .kADD_ => ADD op.theOperands operands
  | .kADDS_ => ADDS operands
  | .kCONCAT32_ => CONCAT32 operands
  | .kCONCAT64_ => CONCAT64 operands
  | .kAND_ => binary (· &&& ·) operands
  | .kANDS_ => ANDS operands
  | .kANDSN_ => ANDSN operands
  | .kORR_ => binary (· ||| ·) operands
  | .kXOR_ => binary (· ^^^ ·) operands
  | .kSUB_ => binary (· - ·) operands
  | .kSUBS_ => SUBS operands
  | .kAndN_ => binary (fun a b => a &&& ~~~b) operands
  | .kOrN_ => binary (fun a b => a ||| ~~~b) operands
  | .kEoN_ => binary (fun a b => a ||| ~~~b) operands
  | .kXnor_ => binary (fun a b => a ^^^ ~~~b) operands
  | .kMulX_ => binary (· * ·) operands
  | .kUMul_ => binary (· * ·) operands
  | .kUMulH_ => binary (fun a b => highHalf (a.setWidth 128 * b.setWidth 128)) operands
  | .kUMulL_ => binary (fun a b => low32 a * low32 b) operands
  | .kSMul_ => binary (fun a b => signed32 a * signed32 b) operands
  | .kSMulH_ => binary (fun a b => highHalf (a.signExtend 128 * b.signExtend 128)) operands
  | .kSMulL_ => binary (fun a b => signed32 a * signed32 b) operands
  | .kUDivX_ => binary quotient operands
  | .kUDiv_ => binary quotient operands
  | .kSDiv_ => binary quotient operands
  | .kSDivX_ => binary quotient operands
  | .kMOV_ => MOV op.theOperands operands
  | .kMOVN_ => unary (~~~ ·) operands
  | .kMOVK_ => ternary (fun imm rd mask => .ok (rd &&& mask ||| imm)) operands
  | .kSextB_ => SextB operands
  | .kSextH_ => SextH operands
  | .kSextW_ => SextW operands
  | .kSextX_ => SextX operands
  | .kZextB_ => unary id operands
  | .kZextH_ => unary id operands
  | .kZextW_ => unary id operands
  | .kZextX_ => unary id operands
  | .kNot_ => unary (~~~ ·) operands
  | .kROR_ => ROR operands
  | .kASR_ => ASR operands
  | .kLSR_ => LSR operands
  | .kLSL_ => LSL operands
  | .kOVERWRITE_ => ternary (fun lhs rhs mask => .ok (lhs &&& mask ||| rhs)) operands

/-- `shift(aType)`. -/
def shift (aType : BitVec 32) : Except Fault Operation :=
  if aType = 0#32 then .ok (operation .kLSL_)
  else if aType = 1#32 then .ok (operation .kLSR_)
  else if aType = 2#32 then .ok (operation .kASR_)
  else if aType = 3#32 then .ok (operation .kROR_)
  else .error .assertion

end narmDecoder
