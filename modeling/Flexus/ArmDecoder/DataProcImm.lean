import Flexus.ArmDecoder.DataProcReg

/-!
# Data processing with immediates

The decoder functions of the immediate encodings, and the masks that an immediate of a logical
instruction or a bit-field move stands for.
-/

namespace narmDecoder

open SemanticInstruction

structure armcode where
  thePC : BitVec 64
  theOpcode : BitVec 32
  deriving DecidableEq, Repr

/-- `sextract64`. -/
def sextract64 (value : BitVec 64) (start length : Nat) : BitVec 64 :=
  (value <<< (64 - length - start)).sshiftRight (64 - length)

/-! ## Masks -/

/-- The low `length` bits. -/
def bitmask64 (length : Nat) : Except Fault (BitVec 64) := do
  assert (0 < length ∧ length ≤ 64)
  return BitVec.allOnes 64 >>> (64 - length)

/-- The loop of `bitfield_replicate`, which doubles a nonzero element size up to 64. -/
def replicateFrom (mask : BitVec 64) (e : Nat) : BitVec 64 :=
  if 0 < e ∧ e < 64 then replicateFrom (mask ||| (mask <<< e)) (e * 2) else mask
termination_by 64 - e

def bitfield_replicate (mask : BitVec 64) (e : Nat) : Except Fault (BitVec 64) := do
  assert (e ≠ 0)
  return replicateFrom mask e

/-- The masks, or none for a reserved immediate. -/
def logic_imm_decode_wmask (immn imms immr : BitVec 32) (immediate : Bool) :
    Except Fault (Option (BitVec 64 × BitVec 64)) := do
  assert (immn < 2#32 ∧ imms < 64#32 ∧ immr < 64#32)
  let len : Int := 31 - clz32 ((immn <<< 6) ||| (~~~imms &&& 0x3f#32))
  if len < 1 then return none
  let e := 1 <<< len.toNat
  let levels := BitVec.ofNat 32 (e - 1)
  let s := imms &&& levels
  let r := immr &&& levels
  let d := (s - r) &&& levels
  if immediate ∧ s = levels then return none
  let mask ← bitmask64 (s.toNat + 1)
  let mask2 ← bitmask64 (d.toNat + 1)
  let mask ← if r ≠ 0#32 then do
      pure (((mask >>> r.toNat) ||| (mask <<< (e - r.toNat))) &&& (← bitmask64 e))
    else pure mask
  return some (← bitfield_replicate mask e, ← bitfield_replicate mask2 e)

/-! ## The encodings -/

def ADR (code : armcode) : Decoded :=
  let rd := extract32 code.theOpcode 0 5
  let offset := sextract64 (code.theOpcode.setWidth 64) 5 19
  let offset := (offset <<< 2) ||| (extract32 code.theOpcode 29 2).setWidth 64
  let op := bit code.theOpcode 31
  let base := if op then code.thePC &&& ~~~0xfff#64 else code.thePC
  let offset := if op then offset <<< 12 else offset
  build do
    let (exec, rs_deps) ← addExecute (operation .kADD_) (noDeps 2)
    addReadConstant .one base (depsAt rs_deps 0)
    addReadConstant .two offset (depsAt rs_deps 1)
    addDestination rd exec true false

/-- `bitsize`. -/
def bitsize (sf : Bool) : BitVec 32 := if sf then 64#32 else 32#32

def EXTR (theOpcode : BitVec 32) : Decoded :=
  let sf := bit theOpcode 31
  let n := bit theOpcode 22
  let rm := extract32 theOpcode 16 5
  let imm := extract32 theOpcode 10 6
  let rn := extract32 theOpcode 5 5
  let rd := extract32 theOpcode 0 5
  let op21 := extract32 theOpcode 29 2
  let op0 := bit theOpcode 21
  if sf ≠ n ∨ op21 ≠ 0#32 ∨ op0 ∨ bitsize sf ≤ imm then unallocated_encoding
  else if rn = rm then build do
    let (exec, rs_deps) ← newAction (.ror .kOperand1 .kOperand2 sf) 2 (noDeps 2)
    readRegister .one rn (depsAt rs_deps 0) sf
    addReadConstant .two (imm.setWidth 64) (depsAt rs_deps 1)
    addDestination rd exec sf false
  else build do
    let (exec, rs_deps) ← newAction (.extract .kOperand1 .kOperand2 .kOperand3 sf) 3 (noDeps 3)
    readRegister .one rn (depsAt rs_deps 0) sf
    readRegister .two rm (depsAt rs_deps 1) sf
    addReadConstant .three (imm.setWidth 64) (depsAt rs_deps 2)
    addDestination rd exec sf false

def BFM (theOpcode : BitVec 32) : Decoded := do
  let rd := extract32 theOpcode 0 5
  let rn := extract32 theOpcode 5 5
  let imms := extract32 theOpcode 10 6
  let immr := extract32 theOpcode 16 6
  let n := bit theOpcode 22
  let opc := extract32 theOpcode 29 2
  let sf := bit theOpcode 31
  if sf ≠ n ∨ bitsize sf ≤ immr ∨ bitsize sf ≤ imms ∨ 2#32 < opc then unallocated_encoding
  else
    let inzero : Bool := opc ≠ 1#32
    let extend : Bool := opc = 0#32
    match ← logic_imm_decode_wmask (extract32 theOpcode 22 1) imms immr false with
    | none => unallocated_encoding
    | some (wmask, tmask) =>
      let wmask := if sf then wmask else wmask &&& 0xffffffff#64
      build do
        let (exec, rs_deps) ← newAction (.bitField .kOperand1 .kOperand2 (imms.setWidth 64) (immr.setWidth 64)
          wmask tmask extend sf) 2 (noDeps 2)
        readRegister .one rn (depsAt rs_deps 0) sf
        if inzero then addReadConstant .two 0#64 (depsAt rs_deps 1)
        else readRegister .two rd (depsAt rs_deps 1) sf
        addDestination rd exec sf false

inductive eMoveWideOp where
  | kMoveWideOp_N
  | kMoveWideOp_Z
  | kMoveWideOp_K
  deriving DecidableEq, Repr

def moveWideOp (opc : BitVec 32) : Option eMoveWideOp :=
  match opc.toNat with
  | 0 => some .kMoveWideOp_N
  | 2 => some .kMoveWideOp_Z
  | 3 => some .kMoveWideOp_K
  | _ => none

def MOVE (theOpcode : BitVec 32) : Decoded :=
  let rd := extract32 theOpcode 0 5
  let imm := (extract32 theOpcode 5 16).setWidth 64
  let sf := bit theOpcode 31
  let pos := extract32 theOpcode 21 2 <<< 4
  if !sf ∧ 32#32 ≤ pos then unallocated_encoding
  else
    match moveWideOp (extract32 theOpcode 29 2) with
    | none => unallocated_encoding
    | some opcode => build do
      let mask := ~~~(0xffff#64 <<< pos.toNat)
      setOperand .kOperand3 (.uint64 mask)
      let (act, rs_deps) ← match opcode with
        | .kMoveWideOp_K => do
          let (act, rs_deps) ← addExecuteOn (operation .kMOVK_) [.kOperand1, .kOperand2, .kOperand3] .kResult (noDeps 2)
          addDispatchEffect (.satisfy (← dependance act 2))
          readRegister .two rd (depsAt rs_deps 1) sf
          pure (act, rs_deps)
        | .kMoveWideOp_N => addExecute (operation .kMOVN_) (noDeps 1)
        | .kMoveWideOp_Z => addExecute (operation .kMOV_) (noDeps 1)
      addReadConstant .one (imm <<< pos.toNat) (depsAt rs_deps 0)
      addDestination rd act sf false

/-- The operation of a logical immediate. -/
def logicalImmType (opc : BitVec 32) : eOpType :=
  match opc.toNat with
  | 0 => .kAND_
  | 1 => .kORR_
  | 2 => .kXOR_
  | _ => .kANDS_

def LOGICALIMM (theOpcode : BitVec 32) : Decoded := do
  let rd := extract32 theOpcode 0 5
  let rn := extract32 theOpcode 5 5
  let imms := extract32 theOpcode 10 6
  let immr := extract32 theOpcode 16 6
  let opc := extract32 theOpcode 29 2
  let sf := bit theOpcode 31
  let setflags : Bool := opc = 3#32
  match ← logic_imm_decode_wmask (extract32 theOpcode 22 1) imms immr true with
  | none => unallocated_encoding
  | some (wmask, _) =>
    let wmask := if sf then wmask else wmask &&& 0xffffffff#64
    build do
      let (exec, rs_deps) ← addExecute (operation (logicalImmType opc)) (noDeps 2)
      readRegister .one rn (depsAt rs_deps 0) sf
      addReadConstant .two wmask (depsAt rs_deps 1)
      addFlagsDestination rd exec sf setflags

/-- The instruction of `ALUIMM`, once the immediate is shifted. -/
def addImmediate (theOpcode imm : BitVec 32) : Decoded :=
  let rd := extract32 theOpcode 0 5
  let rn := extract32 theOpcode 5 5
  let setflags := bit theOpcode 29
  let sub_op := bit theOpcode 30
  let sf := bit theOpcode 31
  build do
    let (exec, rs_deps) ← addExecute (operation (addSubType sub_op setflags)) (noDeps 2)
    addReadConstant .two (imm.setWidth 64) (depsAt rs_deps 1)
    addReadXRegister .one rn (depsAt rs_deps 0) sf
    addFlagsDestination rd exec sf setflags

def ALUIMM (theOpcode : BitVec 32) : Decoded :=
  let imm := extract32 theOpcode 10 12
  let shift := extract32 theOpcode 22 2
  if shift = 0#32 then addImmediate theOpcode imm
  else if shift = 1#32 then addImmediate theOpcode (imm <<< 12)
  else unallocated_encoding

def disas_data_proc_imm (code : armcode) : Decoded :=
  match (extract32 code.theOpcode 23 6).toNat with
  | 0x20 => ADR code
  | 0x21 => ADR code
  | 0x22 => ALUIMM code.theOpcode
  | 0x23 => ALUIMM code.theOpcode
  | 0x24 => LOGICALIMM code.theOpcode
  | 0x25 => MOVE code.theOpcode
  | 0x26 => BFM code.theOpcode
  | 0x27 => EXTR code.theOpcode
  | _ => unallocated_encoding

end narmDecoder
