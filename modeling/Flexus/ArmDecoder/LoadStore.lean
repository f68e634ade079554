import Flexus.ArmDecoder.DataProcReg
import Flexus.MemQueue.Entry

/-!
# Loads and stores

The functions that an opcode of the group is given to, and what those that build loads say of the
loaded value: how much is loaded, by which action, and into which registers it is written.
-/

namespace narmDecoder

open nuArchARM (eSize bits)

/-- What an opcode of the group is given to. -/
inductive LoadStore where
  | unallocated_encoding | blackBox | nop
  | STXR | CAS | LDXR | STRL | LDAQ | LDR_lit | LDP | STP | STR | LDR
  deriving DecidableEq, Repr

variable (theOpcode : BitVec 32)

/-! ## Classes -/

/-- Load/store (immediate post-indexed, immediate pre-indexed, unscaled immediate). -/
def disas_ldst_reg_imm9 : LoadStore :=
  let size := extract32 theOpcode 30 2
  let V := bit theOpcode 26
  let opc := extract32 theOpcode 22 2
  if size = 3#32 ∧ opc = 2#32 then .blackBox
  else if opc = 3#32 ∧ 1#32 < size then .unallocated_encoding
  else if V then .blackBox
  else if opc = 0#32 then .STR
  else .LDR

/-- Load/store (register offset). -/
def disas_ldst_reg_roffset : LoadStore :=
  let size := extract32 theOpcode 30 2
  let option := extract32 theOpcode 13 3
  let V := bit theOpcode 26
  let opc := extract32 theOpcode 22 2
  if extract32 option 1 1 = 0#32 then .unallocated_encoding
  else if ¬V ∧ opc = 3#32 ∧ 1#32 < size then .unallocated_encoding
  else if V then .blackBox
  else if opc = 0#32 then .STR
  else .LDR

/-- Load/store (unsigned immediate). -/
def disas_ldst_reg_unsigned_imm : LoadStore :=
  let size := extract32 theOpcode 30 2
  let V := bit theOpcode 26
  let opc := extract32 theOpcode 22 2
  let is_store := opc = 0#32 ∨ (opc = 2#32 ∧ size = 0#32)
  if size = 3#32 ∧ opc = 2#32 then .nop
  else if opc = 3#32 ∧ 1#32 < size then .unallocated_encoding
  else if V then .blackBox
  else if is_store then .STR
  else .LDR

def disas_ldst_reg : LoadStore :=
  match (extract32 theOpcode 24 2).toNat with
  | 0 =>
    if extract32 theOpcode 21 1 = 1#32 ∧ extract32 theOpcode 10 2 = 2#32 then disas_ldst_reg_roffset theOpcode
    else disas_ldst_reg_imm9 theOpcode
  | 1 => disas_ldst_reg_unsigned_imm theOpcode
  | _ => .unallocated_encoding

def disas_ldst_pair : LoadStore :=
  let is_vector := bit theOpcode 26
  let is_load := bit theOpcode 22
  if extract32 theOpcode 30 2 = 3#32 then .unallocated_encoding
  else if is_vector then .blackBox
  else if is_load then .LDP
  else .STP

def disas_ld_lit : LoadStore :=
  let V := bit theOpcode 26
  let opc := extract32 theOpcode 30 2
  match V.toNat + (opc <<< 1).toNat with
  | 0 | 2 | 4 | 6 => .LDR_lit
  | _ => .blackBox

def disas_ldst_excl : LoadStore :=
  let rt2 := extract32 theOpcode 10 5
  let o0 := bit theOpcode 15
  let o1 := bit theOpcode 21
  let L := bit theOpcode 22
  let o2 := bit theOpcode 23
  if ((o2 && o1) || (!o2 && o1)) ∧ rt2 ≠ 31#32 then .unallocated_encoding
  else
    match o0.toNat ||| o1.toNat <<< 1 ||| L.toNat <<< 2 ||| o2.toNat <<< 3 with
    | 0 | 1 => .STXR
    | 2 | 3 | 6 | 7 | 10 | 11 | 14 | 15 => .CAS
    | 4 | 5 => .LDXR
    | 8 | 9 => .STRL
    | 12 | 13 => .LDAQ
    | _ => .unallocated_encoding

/-- Loads and stores. -/
def disas_ldst : LoadStore :=
  match (extract32 theOpcode 24 6).toNat with
  | 0x08 => disas_ldst_excl theOpcode
  | 0x18 | 0x1c => disas_ld_lit theOpcode
  | 0x28 | 0x29 | 0x2c | 0x2d => disas_ldst_pair theOpcode
  | 0x38 | 0x39 | 0x3c | 0x3d => disas_ldst_reg theOpcode
  | 0x0c | 0x0d => .blackBox
  | _ => .unallocated_encoding

/-! ## The loads that are built -/

def dbSize (aSize : BitVec 32) : Except Fault eSize :=
  match aSize.toNat with
  | 8 => .ok .kByte
  | 16 => .ok .kHalfWord
  | 32 => .ok .kWord
  | 64 => .ok .kDoubleWord
  | 128 => .ok .kQuadWord
  | _ => .error .assertion

inductive eSignCode where
  | kSignExtend | kZeroExtend | kNoExtension
  deriving DecidableEq, Repr

inductive eIndex where
  | kNoOffset | kPostIndex | kSignedOffset | kPreIndex
  deriving DecidableEq, Repr

def getIndex (index : BitVec 32) : eIndex :=
  match index.toNat with
  | 0x1 => .kPostIndex
  | 0x2 => .kSignedOffset
  | 0x3 => .kPreIndex
  | _ => .kNoOffset

/-- The action that takes the loaded value. -/
inductive ValueAction where
  | loadAction (theSize : eSize) (theSignExtend : eSignCode)
  | ldpAction (theSize : eSize) (theSignExtend : eSignCode)
  deriving DecidableEq, Repr

/-- The arguments of `addDestination`: the register, the slot of its value, and its width. -/
structure Destination where
  rd : BitVec 32
  theResult : eOperandCode
  is64 : Bool
  deriving DecidableEq, Repr

/-- What a load says of its value. -/
structure Load where
  theSize : eSize
  theAction : ValueAction
  theDestinations : List Destination
  deriving DecidableEq, Repr

def addPairDestination (rd rd1 : BitVec 32) (is64 : Bool) : List Destination :=
  [⟨rd, .kResult, is64⟩, ⟨rd1, .kResult1, is64⟩]

/-- A load, or none where the function calls `blackBox` or `unallocated_encoding`. -/
abbrev Loaded := Except Fault (Option Load)

def LDAQ : Loaded := do
  let size := 8#32 <<< extract32 theOpcode 30 2
  let rt := extract32 theOpcode 0 5
  let regsize := if size = 0x3#32 then 64 else 32
  let sz ← dbSize size
  return some ⟨sz, .loadAction sz .kZeroExtend, [⟨rt, .kResult, regsize = 64⟩]⟩

def LDXR : Loaded := do
  let rt := extract32 theOpcode 0 5
  let rt2 := extract32 theOpcode 10 5
  let size := 8#32 <<< extract32 theOpcode 30 2
  let is_pair := bit theOpcode 21
  let sz ← dbSize size
  return some ⟨sz, if ¬is_pair then .loadAction sz .kZeroExtend else .ldpAction sz .kZeroExtend,
    if ¬is_pair then [⟨rt, .kResult, size = 64#32⟩] else addPairDestination rt rt2 (size = 64#32)⟩

/-- Load register (literal). -/
def LDR_lit : Loaded := do
  let rt := extract32 theOpcode 0 5
  let opc := extract32 theOpcode 30 2
  let (size, is_signed, is_prefetch) ← match opc.toNat with
    | 0 => .ok (4#32, false, false)
    | 1 => .ok (8#32, false, false)
    | 2 => .ok (4#32, true, false)
    | 3 => .ok (2#32, false, true)
    | _ => .error Fault.assertion
  if is_prefetch then return none
  let size := size * 8
  let sz ← dbSize size
  return some ⟨sz, .loadAction sz (if is_signed then .kSignExtend else .kNoExtension),
    [⟨rt, .kResult, size = 64#32⟩]⟩

/-- Load pair (all forms). -/
def LDP : Loaded := do
  let opc := extract32 theOpcode 30 2
  let L := bit theOpcode 22
  let index := getIndex (extract32 theOpcode 23 3)
  let rt2 := extract32 theOpcode 10 5
  let rt := extract32 theOpcode 0 5
  let scale := 2 + extract32 opc 1 1
  let is_signed := opc &&& 0x1 = 0x1#32
  let size := 8#32 <<< (scale + 1)
  let sz ← dbSize size
  if (opc &&& 1 = 1#32 ∧ ¬L) ∨ opc = 3#32 ∨ (is_signed ∧ index = .kNoOffset) then return none
  return some ⟨sz, .ldpAction sz (if is_signed then .kSignExtend else .kNoExtension),
    addPairDestination rt rt2 (size / 2 = 64#32)⟩

/-- Load register, but for literals. -/
def LDR : Loaded := do
  let rt := extract32 theOpcode 0 5
  let opc := extract32 theOpcode 22 2
  let size := extract32 theOpcode 30 2
  let regsize :=
    if opc &&& 0x2 = 0#32 then if size = 0x3#32 then 64 else 32
    else if size ≠ 0x3#32 then if opc &&& 1 ≠ 0#32 then 32 else 64
    else 0
  let sz ← dbSize (8#32 <<< size)
  return some ⟨sz, .loadAction sz (if extract32 opc 1 1 ≠ 0#32 then .kSignExtend else .kZeroExtend),
    [⟨rt, .kResult, regsize = 64⟩]⟩

/-- The load that is built for an opcode. -/
def builtLoad : Loaded :=
  match disas_ldst theOpcode with
  | .LDAQ => LDAQ theOpcode
  | .LDXR => LDXR theOpcode
  | .LDR_lit => LDR_lit theOpcode
  | .LDP => LDP theOpcode
  | .LDR => LDR theOpcode
  | _ => .ok none

end narmDecoder
