import Flexus.ArmDecoder.SharedFunctions

/-!
# Data processing with registers

The decoder functions of the register encodings, and the functions that choose among them.
-/

namespace narmDecoder

open SemanticInstruction

/-- One bit of the opcode as a `bool`. -/
def bit (theOpcode : BitVec 32) (start : Nat) : Bool := extract32 theOpcode start 1 ≠ 0#32

/-- The number of bits of an operand, as the value of an operand slot. -/
def sizeOperand (sf : Bool) : Operand := .uint64 (if sf then 64#64 else 32#64)

/-! ## One source -/

/-- The encodings whose action has one source register. -/
def oneSource (act : Bool → Action) (theOpcode : BitVec 32) : Decoded :=
  let rd := extract32 theOpcode 0 5
  let rn := extract32 theOpcode 5 5
  let sf := bit theOpcode 31
  build do
    let (act, rs_deps) ← newAction (act sf) 1 (noDeps 1)
    readRegister .one rn (depsAt rs_deps 0) sf
    addDestination rd act sf false

def RBIT : BitVec 32 → Decoded := oneSource fun sf => .reverse .kOperand1 .kResult sf

def REV (theOpcode : BitVec 32) : Decoded :=
  let opc := extract32 theOpcode 10 2
  let sf := bit theOpcode 31
  if opc = 0#32 then .error .assertion
  else
    match containerSize opc sf with
    | none => unallocated_encoding
    | some container_size => oneSource (fun sf => .reorder .kOperand1 .kResult container_size sf) theOpcode

def CL (theOpcode : BitVec 32) : Decoded :=
  let opcode := if bit theOpcode 10 then eCountOp.kCountOp_CLS else .kCountOp_CLZ
  oneSource (fun sf => .count .kOperand1 .kResult opcode sf) theOpcode

/-! ## Two sources -/

def DIV (theOpcode : BitVec 32) : Decoded :=
  let rd := extract32 theOpcode 0 5
  let rn := extract32 theOpcode 5 5
  let rm := extract32 theOpcode 16 5
  let is_signed := bit theOpcode 10
  let sf := bit theOpcode 31
  build do
    let (exec, rs_deps) ← addExecute (operation (if is_signed then .kSDiv_ else .kUDiv_)) (noDeps 2)
    readRegister .one rn (depsAt rs_deps 0) sf
    readRegister .two rm (depsAt rs_deps 1) sf
    addDestination rd exec sf false

def SHIFT (theOpcode : BitVec 32) : Decoded :=
  let rd := extract32 theOpcode 0 5
  let rn := extract32 theOpcode 5 5
  let rm := extract32 theOpcode 16 5
  let shift_type := extract32 theOpcode 10 2
  let sf := bit theOpcode 31
  build do
    let op ← shift shift_type
    let (exec, rs_deps) ← addExecute op (noDeps 3)
    addReadXRegister .one rn (depsAt rs_deps 0) sf
    addReadXRegister .two rm (depsAt rs_deps 1) sf
    addReadConstant .three (if sf then 64#64 else 32#64) (depsAt rs_deps 2)
    addDestination rd exec sf false

/-- The lists of dependances are connected while they are empty. -/
def CRC (theOpcode : BitVec 32) : Decoded :=
  let rd := extract32 theOpcode 0 5
  let rn := extract32 theOpcode 5 5
  let sz := extract32 theOpcode 10 2
  let crc32c := bit theOpcode 12
  let rm := extract32 theOpcode 16 5
  let sf := bit theOpcode 31
  if sf ∧ sz ≠ 3#32 then unallocated_encoding
  else if !sf ∧ sz = 3#32 then unallocated_encoding
  else build do
    let rs_deps := noDeps 2
    let poly := if crc32c then 0x1EDC6F41#32 else 0x04C11DB7#32
    let act ← addNewComponent (.crc poly .kOperand1 .kOperand2 .kResult sf) 1
    readRegister .one rn (depsAt rs_deps 0) false
    readRegister .two rm (depsAt rs_deps 1) sf
    connect (depsAt rs_deps 0) act
    connect (depsAt rs_deps 1) act
    addDestination rd act sf false

/-! ## Conditions -/

def CSEL (theOpcode : BitVec 32) : Decoded :=
  if bit theOpcode 29 ∨ bit theOpcode 11 then unallocated_encoding
  else
    let rd := extract32 theOpcode 0 5
    let rn := extract32 theOpcode 5 5
    let cond := extract32 theOpcode 12 4
    let rm := extract32 theOpcode 16 5
    let inv := bit theOpcode 30
    let sf := bit theOpcode 31
    let inc := bit theOpcode 10
    build do
      setOperand .kOperand5 (.uint64 1#64)
      let (act, rs_deps) ← newAction (.conditionSelect .kResult inv inc) 3 (noDeps 3)
      setOperand .kCondition (.uint64 (cond.setWidth 64))
      readRegister .one rn (depsAt rs_deps 0) sf
      readRegister .two rm (depsAt rs_deps 1) sf
      addReadCC .three (depsAt rs_deps 2) true
      addDestination rd act sf false

def CCMP (theOpcode : BitVec 32) : Decoded :=
  if !bit theOpcode 29 then unallocated_encoding
  else if theOpcode &&& 0x410#32 ≠ 0#32 then unallocated_encoding
  else
    let flags := extract32 theOpcode 0 4
    let rn := extract32 theOpcode 5 5
    let rm := extract32 theOpcode 16 5
    let cond := extract32 theOpcode 12 4
    let sub_op := bit theOpcode 30
    let sf := bit theOpcode 31
    let imm_provided := bit theOpcode 11
    build do
      let (act, rs_deps) ← newAction (.conditionCompare .kResult sub_op sf) 3 (noDeps 3)
      setOperand .kCondition (.uint64 (cond.setWidth 64))
      setOperand .kOperand4 (.uint64 (flags.setWidth 64))
      readRegister .one rn (depsAt rs_deps 0) sf
      if imm_provided then addReadConstant .two (rm.setWidth 64) (depsAt rs_deps 1)
      else readRegister .two rm (depsAt rs_deps 1) sf
      addReadCC .three (depsAt rs_deps 2) true
      addSetCC act true

/-! ## Arithmetic -/

def ADDSUB_CARRY (theOpcode : BitVec 32) : Decoded :=
  let rd := extract32 theOpcode 0 5
  let rn := extract32 theOpcode 5 5
  let rm := extract32 theOpcode 16 5
  let sf := bit theOpcode 31
  let sub_op := bit theOpcode 30
  let setflags := bit theOpcode 29
  build do
    let (exec, rs_deps) ← addExecute (operation (addSubType sub_op setflags)) (noDeps 3)
    readRegister .one rn (depsAt rs_deps 0) sf
    readRegister .two rm (depsAt rs_deps 1) sf
    addRead (.readNZCV .kC .kOperand3) (depsAt rs_deps 2)
    addFlagsDestination rd exec sf setflags

/-- The multiplication of an encoding: signed or not, of words or of the high half. -/
def mulType (is_high is_long is_signed : Bool) : eOpType :=
  if is_high then if is_signed then .kSMulH_ else .kUMulH_
  else if is_long then if is_signed then .kSMulL_ else .kUMulL_
  else if is_signed then .kSMul_ else .kUMul_

/-- The instruction of `DP_3_SRC`, once it is known to be allocated. -/
def multiply (theOpcode op_id : BitVec 32) (is_signed : Bool) : Decoded :=
  let rd := extract32 theOpcode 0 5
  let rn := extract32 theOpcode 5 5
  let rm := extract32 theOpcode 16 5
  let ra := extract32 theOpcode 10 5
  let sf := bit theOpcode 31
  let is_long := bit theOpcode 21
  let is_sub := bit op_id 0
  let is_high := bit op_id 2
  build do
    let (mul, rs_deps) ← addExecute (operation (mulType is_high is_long is_signed)) (noDeps 2)
    readRegister .one rn (depsAt rs_deps 0) (if is_long then false else sf)
    readRegister .two rm (depsAt rs_deps 1) (if is_long then false else sf)
    if !is_high then do
      let (act, rs2_deps) ← addExecuteOn (operation (if is_sub then .kSUB_ else .kADD_)) [.kOperand3, .kResult]
        .kResult (noDeps 2)
      readRegister .three ra (depsAt rs2_deps 0) sf
      connect (depsAt rs2_deps 1) mul
      addDestination rd act sf false
    else addDestination rd mul sf false

def DP_3_SRC (theOpcode : BitVec 32) : Decoded :=
  let op_id := (extract32 theOpcode 29 3 <<< 4) ||| (extract32 theOpcode 21 3 <<< 1) ||| extract32 theOpcode 15 1
  if op_id = 0x42#32 ∨ op_id = 0x43#32 ∨ op_id = 0x44#32 then multiply theOpcode op_id true
  else if op_id = 0x0#32 ∨ op_id = 0x1#32 ∨ op_id = 0x40#32 ∨ op_id = 0x41#32 ∨
      op_id = 0x4a#32 ∨ op_id = 0x4b#32 ∨ op_id = 0x4c#32 then multiply theOpcode op_id false
  else unallocated_encoding

/-- A shift by a constant of what is in the third slot, into the second. -/
def addShift (op : Operation) (shift_amount : BitVec 32) (sf : Bool) :
    Build (Nat × List (List InternalDependance)) := do
  setOperand .kOperand4 (.uint64 (shift_amount.setWidth 64))
  setOperand .kOperand5 (sizeOperand sf)
  let (sh, rs_deps) ← addExecuteOn op [.kOperand3, .kOperand4, .kOperand5] .kOperand2 (noDeps 1)
  addDispatchEffect (.satisfy (← dependance sh 1))
  addDispatchEffect (.satisfy (← dependance sh 2))
  return (sh, rs_deps)

def ADDSUB_SHIFTED (theOpcode : BitVec 32) : Decoded :=
  let rd := extract32 theOpcode 0 5
  let rn := extract32 theOpcode 5 5
  let rm := extract32 theOpcode 16 5
  let setflags := bit theOpcode 29
  let sub_op := bit theOpcode 30
  let sf := bit theOpcode 31
  let shift_amount := extract32 theOpcode 10 6
  let shift_type := extract32 theOpcode 22 2
  if shift_type = 3#32 ∨ (!sf ∧ 31#32 < shift_amount) then unallocated_encoding
  else build do
    let (sh, rs_deps) ← addShift (← shift shift_type) shift_amount sf
    let (res, rs2_deps) ← addExecute (operation (addSubType sub_op setflags)) (noDeps 2)
    connect (depsAt rs2_deps 1) sh
    readRegister .one rn (depsAt rs2_deps 0) sf
    readRegister .three rm (depsAt rs_deps 0) sf
    addFlagsDestination rd res sf setflags

/-- The first source of an extended addition, which is read as a register also when it is 31. -/
def readBase (anOpNumber : OpNumber) (rn : BitVec 32) (deps : List InternalDependance) (sf : Bool) : Build Unit :=
  if rn = 31#32 then addReadXRegister anOpNumber rn deps sf else readRegister anOpNumber rn deps sf

/-- The list of dependances that the extension has grows before the shift takes it. -/
def ADDSUB_EXTENDED (theOpcode : BitVec 32) : Decoded :=
  let rd := extract32 theOpcode 0 5
  let rn := extract32 theOpcode 5 5
  let option := extract32 theOpcode 13 3
  let rm := extract32 theOpcode 16 5
  let setflags := bit theOpcode 29
  let sub_op := bit theOpcode 30
  let sf := bit theOpcode 31
  let shift_amount := extract32 theOpcode 10 3
  if 4#32 < shift_amount then unallocated_encoding
  else build do
    let extend_type ← DecodeRegExtend option
    let (ex, rs_deps) ← addExecuteOn (extend extend_type) [.kOperand3] .kOperand2 (noDeps 1)
    setOperand .kOperand4 (.uint64 (shift_amount.setWidth 64))
    setOperand .kOperand5 (sizeOperand sf)
    let (sh, rs_deps) ← addExecuteOn (← shift 0#32) [.kOperand2, .kOperand4, .kOperand5] .kOperand2
      (rs_deps ++ noDeps 1)
    connect (depsAt rs_deps 1) ex
    addDispatchEffect (.satisfy (← dependance sh 2))
    let (res, rs2_deps) ← addExecute (operation (addSubType sub_op setflags)) (noDeps 2)
    connect (depsAt rs2_deps 1) sh
    readBase .one rn (depsAt rs2_deps 0) sf
    readRegister .three rm (depsAt rs_deps 0) sf
    addFlagsDestination rd res sf setflags

/-- The operation of a logical instruction, negating its second operand or not. -/
def logicalType (opc : BitVec 32) (n : Bool) : eOpType :=
  match opc.toNat with
  | 0 => if n then .kAndN_ else .kAND_
  | 1 => if n then .kOrN_ else .kORR_
  | 2 => if n then .kXnor_ else .kXOR_
  | _ => if n then .kANDSN_ else .kANDS_

def LOGICAL (theOpcode : BitVec 32) : Decoded :=
  let sf := bit theOpcode 31
  let opc := extract32 theOpcode 29 2
  let shift_type := extract32 theOpcode 22 2
  let rm := extract32 theOpcode 16 5
  let shift_amount := extract32 theOpcode 10 6
  let rn := extract32 theOpcode 5 5
  let rd := extract32 theOpcode 0 5
  let setflags : Bool := opc = 3#32
  let n := bit theOpcode 21
  if !sf ∧ shift_amount &&& 0x20#32 ≠ 0#32 then unallocated_encoding
  else build do
    let (sh, rs_deps) ← addShift (← shift shift_type) shift_amount sf
    let (act, rs2_deps) ← addExecute (operation (logicalType opc n)) (noDeps 2)
    connect (depsAt rs2_deps 1) sh
    readRegister .one rn (depsAt rs2_deps 0) sf
    readRegister .three rm (depsAt rs_deps 0) sf
    addFlagsDestination rd act sf setflags

/-! ## The choice of the function -/

def disas_data_proc_2src (theOpcode : BitVec 32) : Decoded :=
  let opcode := extract32 theOpcode 10 6
  if bit theOpcode 29 then unallocated_encoding
  else if opcode = 2#32 ∨ opcode = 3#32 then DIV theOpcode
  else if 8#32 ≤ opcode ∧ opcode ≤ 11#32 then SHIFT theOpcode
  else if 16#32 ≤ opcode ∧ opcode ≤ 23#32 then CRC theOpcode
  else unallocated_encoding

def disas_data_proc_1src (theOpcode : BitVec 32) : Decoded :=
  let opcode := extract32 theOpcode 10 6
  if bit theOpcode 29 ∨ extract32 theOpcode 16 5 ≠ 0#32 then unallocated_encoding
  else if opcode = 0#32 then RBIT theOpcode
  else if 1#32 ≤ opcode ∧ opcode ≤ 3#32 then REV theOpcode
  else if opcode = 4#32 ∨ opcode = 5#32 then CL theOpcode
  else .error .assertion

def disas_data_proc_reg (theOpcode : BitVec 32) : Decoded :=
  match (extract32 theOpcode 24 5).toNat with
  | 0x0a => LOGICAL theOpcode
  | 0x0b => if bit theOpcode 21 then ADDSUB_EXTENDED theOpcode else ADDSUB_SHIFTED theOpcode
  | 0x1b => DP_3_SRC theOpcode
  | 0x1a =>
    match (extract32 theOpcode 21 3).toNat with
    | 0x0 => ADDSUB_CARRY theOpcode
    | 0x2 => CCMP theOpcode
    | 0x4 => CSEL theOpcode
    | 0x6 => if bit theOpcode 30 then disas_data_proc_1src theOpcode else disas_data_proc_2src theOpcode
    | _ => unallocated_encoding
  | _ => unallocated_encoding

end narmDecoder
