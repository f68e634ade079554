import Flexus.ArmDecoder.Instruction

/-!
# What the decoder functions share

The functions that create actions and connect them: reading a register or a constant into an
operand slot, executing an operation, and writing the result back.
-/

namespace narmDecoder

open SemanticInstruction

/-! ## Actions -/

/-- One more dependance for each list: `opDeps[i].push_back(act->dependance(i))`. -/
def pushDependances (act : Nat) : Nat → List (List InternalDependance) → Build (List (List InternalDependance))
  | _, [] => return []
  | i, deps :: opDeps => do
    let dep ← dependance act i
    return (deps ++ [dep]) :: (← pushDependances act (i + 1) opDeps)

def newAction (act : Action) (numOperands : Nat) (opDeps : List (List InternalDependance)) :
    Build (Nat × List (List InternalDependance)) := do
  let id ← addNewComponent act numOperands
  return (id, ← pushDependances id 0 opDeps)

/-- The operand slots from the first on. -/
def operandCodes : List eOperandCode := [.kOperand1, .kOperand2, .kOperand3, .kOperand4, .kOperand5]

/-- `n` lists of dependances, all empty. -/
def noDeps (n : Nat) : List (List InternalDependance) := List.replicate n []

/-- `executeAction` on the slots that it is given. -/
def addExecuteOn (anOperation : Operation) (anOperands : List eOperandCode) (aResult : eOperandCode)
    (opDeps : List (List InternalDependance)) : Build (Nat × List (List InternalDependance)) :=
  newAction (.execute anOperation anOperands aResult) anOperands.length opDeps

/-- `executeAction` on as many slots as there are lists. -/
def addExecute (anOperation : Operation) (opDeps : List (List InternalDependance)) :
    Build (Nat × List (List InternalDependance)) :=
  addExecuteOn anOperation (operandCodes.take opDeps.length) .kResult opDeps

/-! ## Sources -/

/-- The dependances at a place of the list. -/
def depsAt (opDeps : List (List InternalDependance)) (i : Nat) : List InternalDependance := opDeps.getD i []

/-- A new action that is evaluated from the dispatch on. -/
def addRead (act : Action) (dependances : List InternalDependance) : Build Unit := do
  let id ← addNewComponent act 1
  connect dependances id
  addDispatchAction id

def addReadConstant (anOpNumber : OpNumber) (val : BitVec 64) (dependances : List InternalDependance) : Build Unit :=
  addRead (.readConstant val anOpNumber.kOperand) dependances

def addReadXRegister (anOpNumber : OpNumber) (rs : BitVec 32) (dependances : List InternalDependance)
    (is_64 : Bool) : Build Unit := do
  setOperand anOpNumber.kRS (.reg ⟨.xRegisters, rs.toNat⟩)
  addDispatchEffect (.mapSource anOpNumber.kRS anOpNumber.kPS)
  addRead (.readRegister anOpNumber.kPS anOpNumber.kOperand is_64) dependances

/-- Register 31 is read as zero. -/
def readRegister (anOpNumber : OpNumber) (rs : BitVec 32) (dependances : List InternalDependance)
    (is_64 : Bool) : Build Unit :=
  if rs = 31#32 then addReadConstant anOpNumber 0#64 dependances
  else addReadXRegister anOpNumber rs dependances is_64

def addReadCC (anOpNumber : OpNumber) (dependances : List InternalDependance) (is_64 : Bool) : Build Unit := do
  setOperand .kCCs (.reg ⟨.ccBits, 0⟩)
  addDispatchEffect (.mapSource .kCCs .kCCps)
  addRead (.readRegister .kCCps anOpNumber.kOperand is_64) dependances

/-! ## Destinations -/

/-- The annulment of a write-back. Its action is off until the instruction is annulled. -/
def addAnnulment (aWritebackDependance : InternalDependance) : Build Unit := do
  let annul ← addNewComponent (.annul .kPPD .kResult) 1
  connectDependance aWritebackDependance annul

/-- A write-back that depends on `exec` and that the retirement depends on. -/
def connectWriteback (wb exec : Nat) : Build Unit := do
  let dep ← dependance wb 0
  addAnnulment dep
  connectDependance dep exec
  connectDependance (← retirementDependance) wb

def addWriteback (exec : Nat) (a64 : Bool) : Build Unit := do
  addDispatchEffect (.mapDestination .kRD .kPD .kPPD)
  let wb ← addNewComponent (.writeback .kResult .kPD a64) 1
  connectWriteback wb exec

def addSetCC (exec : Nat) (is64 : Bool) : Build Unit := do
  setOperand .kCCd (.reg ⟨.ccBits, 0⟩)
  addDispatchEffect (.mapDestination .kCCd .kCCpd .kPCCpd)
  let cc ← addNewComponent (.writecc .kCCpd is64) 1
  connectWriteback cc exec

def addDestination (rd : BitVec 32) (exec : Nat) (is64 setflags : Bool) : Build Unit := do
  setOperand .kRD (.reg ⟨.xRegisters, rd.toNat⟩)
  addWriteback exec is64
  if setflags then addSetCC exec is64

/-- The end of the instructions that may set the flags: with them and the destination 31, only
    the flags are written. -/
def addFlagsDestination (rd : BitVec 32) (exec : Nat) (is64 setflags : Bool) : Build Unit :=
  if !setflags ∨ rd ≠ 31#32 then addDestination rd exec is64 setflags
  else addSetCC exec is64

/-! ## Operations by field -/

inductive eExtendType where
  | kExtendType_UXTB | kExtendType_UXTH | kExtendType_UXTW | kExtendType_UXTX
  | kExtendType_SXTB | kExtendType_SXTH | kExtendType_SXTW | kExtendType_SXTX
  deriving DecidableEq, Repr

def DecodeRegExtend (anOption : BitVec 32) : Except Fault eExtendType :=
  match anOption.toNat with
  | 0 => .ok .kExtendType_UXTB
  | 1 => .ok .kExtendType_UXTH
  | 2 => .ok .kExtendType_UXTW
  | 3 => .ok .kExtendType_UXTX
  | 4 => .ok .kExtendType_SXTB
  | 5 => .ok .kExtendType_SXTH
  | 6 => .ok .kExtendType_SXTW
  | 7 => .ok .kExtendType_SXTX
  | _ => .error .assertion

def extend : eExtendType → Operation
  | .kExtendType_SXTB => operation .kSextB_
  | .kExtendType_SXTH => operation .kSextH_
  | .kExtendType_SXTW => operation .kSextW_
  | .kExtendType_SXTX => operation .kSextX_
  | .kExtendType_UXTB => operation .kZextB_
  | .kExtendType_UXTH => operation .kZextH_
  | .kExtendType_UXTW => operation .kZextW_
  | .kExtendType_UXTX => operation .kZextX_

/-- The operation of an addition or a subtraction. -/
def addSubType (sub_op setflags : Bool) : eOpType :=
  if setflags then if sub_op then .kSUBS_ else .kADDS_ else if sub_op then .kSUB_ else .kADD_

end narmDecoder
