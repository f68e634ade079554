import Mathlib
import Flexus.ArmDecoder.DataProcImm
import Flexus.ArmDecoder.WordFlags

/-!
# The 32-bit forms among the encodings

The instructions that are built for the 32-bit encodings that set the flags have the actions of
the corresponding form.
-/

namespace narmDecoder

open SemanticInstruction

attribute [local simp] build addExecute addExecuteOn newAction pushDependances dependance addNewComponent addRead
  addReadConstant addReadXRegister readRegister readBase addReadCC addShift connect connectDependance addDestination
  addWriteback connectWriteback addAnnulment addSetCC addFlagsDestination setOperand addDispatchEffect
  addDispatchAction retirementDependance assert StateT.run bind StateT.bind Except.bind get getThe MonadStateOf.get
  StateT.get modify modifyGet MonadStateOf.modifyGet StateT.modifyGet pure StateT.pure Except.pure liftM monadLift
  MonadLift.monadLift StateT.lift noDeps depsAt operandCodes new

/-- The instruction has the actions of a form. -/
def SemanticInstruction.HasForm (inst : SemanticInstruction) (form : FlagForm) : Prop :=
  ∀ a ∈ form.actions ++ [form.writecc], a ∈ inst.components.map Component.theAction

variable {op : BitVec 32} {inst : SemanticInstruction}

theorem addImmediate_form {imm : BitVec 32} (h : addImmediate op imm = .ok (some inst)) (hsf : bit op 31 = false) (hflags : bit op 29 = true) :
    inst.HasForm (.addSub (bit op 30)) := by
  unfold addImmediate at h
  dsimp only at h
  rw [hsf, hflags] at h
  generalize extract32 op 0 5 = rd at h
  generalize extract32 op 5 5 = rn at h
  by_cases hd : rd = 31#32 <;> simp [hd] at h
  all_goals
    subst h
    simp [HasForm, FlagForm.actions, FlagForm.writecc]

theorem ADDSUB_CARRY_form (h : ADDSUB_CARRY op = .ok (some inst)) (hsf : bit op 31 = false) (hflags : bit op 29 = true) :
    inst.HasForm (.carry (bit op 30)) := by
  unfold ADDSUB_CARRY at h
  dsimp only at h
  rw [hsf, hflags] at h
  generalize extract32 op 0 5 = rd at h
  generalize extract32 op 5 5 = rn at h
  generalize extract32 op 16 5 = rm at h
  by_cases hd : rd = 31#32 <;> by_cases hn : rn = 31#32 <;> by_cases hm : rm = 31#32 <;> simp [hd, hn, hm] at h
  all_goals
    subst h
    simp [HasForm, FlagForm.actions, FlagForm.writecc]

theorem ADDSUB_SHIFTED_form (h : ADDSUB_SHIFTED op = .ok (some inst)) (hsf : bit op 31 = false) (hflags : bit op 29 = true) :
    inst.HasForm (.addSub (bit op 30)) := by
  unfold ADDSUB_SHIFTED at h
  dsimp only at h
  split at h
  · cases h
  rw [hsf, hflags] at h
  generalize extract32 op 0 5 = rd at h
  generalize extract32 op 5 5 = rn at h
  generalize extract32 op 16 5 = rm at h
  cases hsh : shift (extract32 op 22 2) with
  | error f => simp [hsh] at h
  | ok sh =>
    by_cases hd : rd = 31#32 <;> by_cases hn : rn = 31#32 <;> by_cases hm : rm = 31#32 <;>
      simp [hsh, hd, hn, hm] at h
    all_goals
      subst h
      simp [HasForm, FlagForm.actions, FlagForm.writecc]

theorem ADDSUB_EXTENDED_form (h : ADDSUB_EXTENDED op = .ok (some inst)) (hsf : bit op 31 = false)
    (hflags : bit op 29 = true) : inst.HasForm (.addSub (bit op 30)) := by
  unfold ADDSUB_EXTENDED at h
  dsimp only at h
  split at h
  · cases h
  rw [hsf, hflags] at h
  generalize extract32 op 0 5 = rd at h
  generalize extract32 op 5 5 = rn at h
  generalize extract32 op 16 5 = rm at h
  cases hex : DecodeRegExtend (extract32 op 13 3) with
  | error f => simp [hex] at h
  | ok extend_type =>
    have hsh : shift 0#32 = .ok (operation .kLSL_) := rfl
    by_cases hd : rd = 31#32 <;> by_cases hn : rn = 31#32 <;> by_cases hm : rm = 31#32 <;>
      simp [hex, hsh, hd, hn, hm] at h
    all_goals
      subst h
      simp [HasForm, FlagForm.actions, FlagForm.writecc]

theorem LOGICAL_form (h : LOGICAL op = .ok (some inst)) (hsf : bit op 31 = false) (hflags : extract32 op 29 2 = 3#32) :
    inst.HasForm (.logical (bit op 21)) := by
  unfold LOGICAL at h
  dsimp only at h
  split at h
  · cases h
  rw [hsf, hflags] at h
  generalize extract32 op 0 5 = rd at h
  generalize extract32 op 5 5 = rn at h
  generalize extract32 op 16 5 = rm at h
  cases hsh : shift (extract32 op 22 2) with
  | error f => simp [hsh] at h
  | ok sh =>
    by_cases hd : rd = 31#32 <;> by_cases hn : rn = 31#32 <;> by_cases hm : rm = 31#32 <;>
      simp [hsh, hd, hn, hm] at h
    all_goals
      subst h
      simp [HasForm, FlagForm.actions, FlagForm.writecc]

theorem LOGICALIMM_form (h : LOGICALIMM op = .ok (some inst)) (hsf : bit op 31 = false)
    (hflags : extract32 op 29 2 = 3#32) : inst.HasForm (.logical false) := by
  unfold LOGICALIMM at h
  dsimp only at h
  rw [hsf, hflags] at h
  generalize extract32 op 0 5 = rd at h
  generalize extract32 op 5 5 = rn at h
  have htype : logicalImmType 3#32 = logicalType 3#32 false := rfl
  cases hmask : logic_imm_decode_wmask (extract32 op 22 1) (extract32 op 10 6) (extract32 op 16 6) true with
  | error f => simp [hmask] at h
  | ok masks =>
    cases masks with
    | none => simp [hmask, unallocated_encoding] at h
    | some masks =>
      by_cases hd : rd = 31#32 <;> by_cases hn : rn = 31#32 <;> simp [hmask, hd, hn, htype] at h
      all_goals
        subst h
        simp [HasForm, FlagForm.actions, FlagForm.writecc]

theorem CCMP_form (h : CCMP op = .ok (some inst)) (hsf : bit op 31 = false) :
    inst.HasForm (.compare (bit op 30)) := by
  unfold CCMP at h
  dsimp only at h
  split at h
  · cases h
  split at h
  · cases h
  rw [hsf] at h
  generalize extract32 op 5 5 = rn at h
  generalize extract32 op 16 5 = rm at h
  generalize bit op 11 = imm_provided at h
  cases imm_provided <;> by_cases hn : rn = 31#32 <;> by_cases hm : rm = 31#32 <;> simp [hn, hm] at h
  all_goals
    subst h
    simp [HasForm, FlagForm.actions, FlagForm.writecc]

end narmDecoder
