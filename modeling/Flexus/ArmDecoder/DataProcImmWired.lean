import Flexus.ArmDecoder.DataProcRegWired
import Flexus.ArmDecoder.DataProcImm

/-!
# The wiring of the immediate encodings

Every instruction that the decoder builds for a data-processing encoding with an immediate
passes the check.
-/

namespace narmDecoder

open SemanticInstruction

attribute [local simp] build addExecute addExecuteOn newAction pushDependances dependance addNewComponent addRead
  addReadConstant addReadXRegister readRegister connect connectDependance addDestination addWriteback
  connectWriteback addAnnulment addSetCC addFlagsDestination setOperand addDispatchEffect addDispatchAction
  retirementDependance assert StateT.run bind StateT.bind Except.bind get getThe MonadStateOf.get StateT.get modify
  modifyGet MonadStateOf.modifyGet StateT.modifyGet pure StateT.pure Except.pure liftM monadLift
  MonadLift.monadLift StateT.lift noDeps depsAt operandCodes new

variable {op : BitVec 32} {inst : SemanticInstruction} (env : Env)

theorem ADR_wired {code : armcode} (h : ADR code = .ok (some inst)) : inst.Wired env (inst.decodedFacts env) := by
  unfold ADR at h
  simp at h
  subst h
  exact wired_of_check [1, 0, 0, 2] rfl (inRange_of_plain [_] rfl rfl (List.forall_mem_singleton.mpr (Or.inl rfl))) env

theorem EXTR_wired (h : EXTR op = .ok (some inst)) : inst.Wired env (inst.decodedFacts env) := by
  unfold EXTR at h
  dsimp only at h
  split at h
  · cases h
  generalize extract32 op 5 5 = rn at h
  generalize extract32 op 16 5 = rm at h
  by_cases hsame : rn = rm
  · subst hsame
    by_cases hn : rn = 31#32 <;> simp [hn] at h
    all_goals
      subst h
      exact wired_of_check [1, 0, 0, 2] rfl (inRange_of_plain [] rfl rfl (by simp)) env
  · rw [if_neg hsame] at h
    by_cases hn : rn = 31#32 <;> by_cases hm : rm = 31#32 <;> simp [hn, hm] at h
    all_goals
      subst h
      exact wired_of_check [1, 0, 0, 0, 2] rfl (inRange_of_plain [] rfl rfl (by simp)) env

/-- A rotation that a field of the opcode gives. -/
theorem rotation_lt (immr : BitVec 32) : ∀ theR ∈ [immr.setWidth 64], theR.toNat < 2 ^ 32 := by
  intro theR hmem
  rw [List.mem_singleton.mp hmem, BitVec.toNat_setWidth]
  exact lt_of_le_of_lt (Nat.mod_le _ _) immr.isLt

theorem BFM_wired (h : BFM op = .ok (some inst)) : inst.Wired env (inst.decodedFacts env) := by
  unfold BFM at h
  dsimp only at h
  split at h
  · cases h
  generalize extract32 op 0 5 = rd at h
  generalize extract32 op 5 5 = rn at h
  generalize extract32 op 29 2 = opc at h
  generalize extract32 op 16 6 = immr at h
  cases hmask : logic_imm_decode_wmask (extract32 op 22 1) (extract32 op 10 6) immr false with
  | error f => simp [hmask] at h
  | ok masks =>
    rw [hmask] at h
    cases masks with
    | none => cases h
    | some masks =>
      by_cases hn : rn = 31#32 <;> by_cases hopc : opc = 1#32 <;> by_cases hd : rd = 31#32 <;> simp [hn, hopc, hd] at h
      all_goals
        subst h
        refine wired_of_check [1, 0, 0, 2] rfl ⟨fun _ h => (by cases h), fun _ h => (by cases h), ?_⟩ env
        exact rotation_lt immr

theorem MOVE_wired (h : MOVE op = .ok (some inst)) : inst.Wired env (inst.decodedFacts env) := by
  unfold MOVE at h
  dsimp only at h
  split at h
  · cases h
  generalize extract32 op 0 5 = rd at h
  cases hopc : moveWideOp (extract32 op 29 2) with
  | none =>
    rw [hopc] at h
    cases h
  | some opcode =>
    rw [hopc] at h
    cases opcode with
    | kMoveWideOp_K =>
      by_cases hd : rd = 31#32 <;> simp [hd] at h
      all_goals
        subst h
        exact wired_of_check [1, 0, 0, 2] rfl
          (inRange_of_plain [_] rfl rfl (List.forall_mem_singleton.mpr (Or.inl rfl))) env
    | kMoveWideOp_N =>
      simp at h
      subst h
      exact wired_of_check [1, 0, 2] rfl (inRange_of_plain [_] rfl rfl (List.forall_mem_singleton.mpr (Or.inl rfl))) env
    | kMoveWideOp_Z =>
      simp at h
      subst h
      exact wired_of_check [1, 0, 2] rfl (inRange_of_plain [_] rfl rfl (List.forall_mem_singleton.mpr (Or.inl rfl))) env

theorem logicalImmType_accepts (opc : BitVec 32) : (operation (logicalImmType opc)).accepts 2 = true := by
  unfold logicalImmType
  split <;> rfl

theorem LOGICALIMM_wired (h : LOGICALIMM op = .ok (some inst)) : inst.Wired env (inst.decodedFacts env) := by
  unfold LOGICALIMM at h
  dsimp only at h
  generalize extract32 op 0 5 = rd at h
  generalize extract32 op 5 5 = rn at h
  generalize extract32 op 29 2 = opc at h
  cases hmask : logic_imm_decode_wmask (extract32 op 22 1) (extract32 op 10 6) (extract32 op 16 6) true with
  | error f => simp [hmask] at h
  | ok masks =>
    rw [hmask] at h
    cases masks with
    | none => cases h
    | some masks =>
      by_cases hopc : opc = 3#32
      · subst hopc
        by_cases hd : rd = 31#32 <;> by_cases hn : rn = 31#32 <;> simp [hd, hn] at h
        all_goals
          subst h
          exact wired_of_check [1, 0, 0, 2, 0, 2] rfl
            (inRange_of_plain [_] rfl rfl (List.forall_mem_singleton.mpr (Or.inl rfl))) env
      · have hlog := logicalImmType_accepts opc
        generalize operation (logicalImmType opc) = log at h hlog
        by_cases hn : rn = 31#32 <;> simp [hn, hopc] at h
        all_goals
          subst h
          exact wired_of_check [1, 0, 0, 2] rfl
            (inRange_of_plain [_] rfl rfl (List.forall_mem_singleton.mpr (Or.inl hlog))) env

theorem addImmediate_wired {imm : BitVec 32} (h : addImmediate op imm = .ok (some inst)) :
    inst.Wired env (inst.decodedFacts env) := by
  unfold addImmediate at h
  dsimp only at h
  generalize extract32 op 0 5 = rd at h
  generalize bit op 30 = sub_op at h
  generalize bit op 29 = setflags at h
  cases setflags
  · have hadd := addSubType_accepts sub_op
    generalize operation (addSubType sub_op false) = add at h hadd
    simp at h
    subst h
    exact wired_of_check [1, 0, 0, 2] rfl (inRange_of_plain [_] rfl rfl (List.forall_mem_singleton.mpr (Or.inl hadd))) env
  · cases sub_op <;> by_cases hd : rd = 31#32 <;> simp [hd] at h
    all_goals
      subst h
      exact wired_of_check [1, 0, 0, 2, 0, 2] rfl
        (inRange_of_plain [_] rfl rfl (List.forall_mem_singleton.mpr (Or.inl rfl))) env

theorem ALUIMM_wired (h : ALUIMM op = .ok (some inst)) : inst.Wired env (inst.decodedFacts env) := by
  unfold ALUIMM at h
  dsimp only at h
  split at h
  · exact addImmediate_wired env h
  · split at h
    · exact addImmediate_wired env h
    · cases h

end narmDecoder
