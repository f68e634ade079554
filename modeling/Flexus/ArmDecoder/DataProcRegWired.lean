import Mathlib
import Flexus.ArmDecoder.Check
import Flexus.ArmDecoder.DataProcReg

/-!
# The wiring of the register encodings

Every instruction that the decoder builds for a data-processing encoding with registers passes
the check, but for those that read the carry, the CRC instructions and the shifts by a register.
-/

namespace narmDecoder

open SemanticInstruction

attribute [local simp] build addExecute addExecuteOn newAction pushDependances dependance addNewComponent addRead
  addReadConstant addReadXRegister readRegister addReadCC connect connectDependance addDestination addWriteback
  connectWriteback addAnnulment addSetCC addFlagsDestination setOperand addDispatchEffect addDispatchAction
  retirementDependance assert StateT.run bind StateT.bind Except.bind get getThe MonadStateOf.get StateT.get modify
  modifyGet MonadStateOf.modifyGet StateT.modifyGet pure StateT.pure Except.pure liftM monadLift
  MonadLift.monadLift StateT.lift noDeps depsAt operandCodes new addShift sizeOperand

theorem extract32_lt (value : BitVec 32) (start : Nat) {length : Nat} (h : length ≤ 32) :
    (extract32 value start length).toNat < 2 ^ length := by
  have hmask : (BitVec.allOnes 32 >>> (32 - length)).toNat < 2 ^ length := by
    rw [BitVec.toNat_ushiftRight, BitVec.toNat_allOnes, Nat.shiftRight_eq_div_pow,
      Nat.div_lt_iff_lt_mul (by positivity), ← Nat.pow_add, Nat.add_sub_cancel' h]
    omega
  rw [extract32, BitVec.toNat_and]
  exact lt_of_le_of_lt Nat.and_le_right hmask

variable {op : BitVec 32} {inst : SemanticInstruction} (env : Env)

/-! ## One and two sources -/

theorem RBIT_wired (h : RBIT op = .ok (some inst)) : inst.Wired env (inst.decodedFacts env) := by
  unfold RBIT oneSource at h
  dsimp only at h
  generalize extract32 op 5 5 = rn at h
  by_cases hn : rn = 31#32 <;> simp [hn] at h
  all_goals
    subst h
    exact wired_of_check [1, 0, 2] rfl (inRange_of_plain [] rfl rfl (by simp)) env

theorem REV_wired (h : REV op = .ok (some inst)) : inst.Wired env (inst.decodedFacts env) := by
  unfold REV oneSource at h
  dsimp only at h
  generalize extract32 op 10 2 = opc at h
  generalize bit op 31 = sf at h
  generalize extract32 op 5 5 = rn at h
  split at h
  · cases h
  cases hsize : containerSize opc sf with
  | none =>
    rw [hsize] at h
    cases h
  | some size =>
    rw [hsize] at h
    by_cases hn : rn = 31#32 <;> simp [hn] at h
    all_goals
      subst h
      exact wired_of_check [1, 0, 2] rfl (inRange_of_plain [] rfl rfl (by simp)) env

theorem CL_wired (h : CL op = .ok (some inst)) : inst.Wired env (inst.decodedFacts env) := by
  unfold CL oneSource at h
  dsimp only at h
  generalize (if bit op 10 then eCountOp.kCountOp_CLS else .kCountOp_CLZ) = opcode at h
  generalize extract32 op 5 5 = rn at h
  by_cases hn : rn = 31#32 <;> simp [hn] at h
  all_goals
    subst h
    exact wired_of_check [1, 0, 2] rfl (inRange_of_plain [] rfl rfl (by simp)) env

theorem DIV_wired (h : DIV op = .ok (some inst)) : inst.Wired env (inst.decodedFacts env) := by
  unfold DIV at h
  dsimp only at h
  have hop : ∀ s : Bool, (operation (if s then .kSDiv_ else .kUDiv_)).accepts 2 = true := by decide
  replace hop := hop (bit op 10)
  generalize operation _ = div at h hop
  generalize extract32 op 5 5 = rn at h
  generalize extract32 op 16 5 = rm at h
  by_cases hn : rn = 31#32 <;> by_cases hm : rm = 31#32 <;> simp [hn, hm] at h
  all_goals
    subst h
    exact wired_of_check [1, 0, 0, 2] rfl (inRange_of_plain [_] rfl rfl (List.forall_mem_singleton.mpr (Or.inl hop))) env

/-! ## Conditions -/

theorem condition_lt (op : BitVec 32) (start : Nat) : ((extract32 op start 4).setWidth 64).toNat < 16 := by
  rw [BitVec.toNat_setWidth]
  exact lt_of_le_of_lt (Nat.mod_le _ _) (extract32_lt op start (by omega))

theorem CSEL_wired (h : CSEL op = .ok (some inst)) : inst.Wired env (inst.decodedFacts env) := by
  unfold CSEL at h
  split at h
  · cases h
  have hcond := condition_lt op 12
  dsimp only at h
  generalize extract32 op 12 4 = cond at h hcond
  generalize extract32 op 5 5 = rn at h
  generalize extract32 op 16 5 = rm at h
  by_cases hn : rn = 31#32 <;> by_cases hm : rm = 31#32 <;> simp [hn, hm] at h
  all_goals
    subst h
    refine wired_of_check [1, 0, 0, 0, 2] rfl ⟨fun _ h => (by cases h), fun x hx => ?_, fun _ h => (by cases h)⟩ env
    cases hx
    exact hcond

theorem CCMP_wired (h : CCMP op = .ok (some inst)) : inst.Wired env (inst.decodedFacts env) := by
  unfold CCMP at h
  split at h
  · cases h
  split at h
  · cases h
  have hcond := condition_lt op 12
  dsimp only at h
  generalize extract32 op 12 4 = cond at h hcond
  generalize extract32 op 5 5 = rn at h
  generalize extract32 op 16 5 = rm at h
  generalize bit op 11 = imm_provided at h
  cases imm_provided <;> by_cases hn : rn = 31#32 <;> by_cases hm : rm = 31#32 <;> simp [hn, hm] at h
  all_goals
    subst h
    refine wired_of_check [1, 0, 0, 0, 2] rfl ⟨fun _ h => (by cases h), fun x hx => ?_, fun _ h => (by cases h)⟩ env
    cases hx
    exact hcond

/-! ## Multiplications -/

theorem mulType_accepts (is_high is_long is_signed : Bool) :
    (operation (mulType is_high is_long is_signed)).accepts 2 = true := by
  cases is_high <;> cases is_long <;> cases is_signed <;> rfl

theorem addSub_accepts (is_sub : Bool) : (operation (if is_sub then .kSUB_ else .kADD_)).accepts 2 = true := by
  cases is_sub <;> rfl

theorem multiply_wired {op_id : BitVec 32} {is_signed : Bool} (h : multiply op op_id is_signed = .ok (some inst)) :
    inst.Wired env (inst.decodedFacts env) := by
  unfold multiply at h
  dsimp only at h
  have hmul := mulType_accepts (bit op_id 2) (bit op 21) is_signed
  have hadd := addSub_accepts (bit op_id 0)
  generalize operation (mulType _ _ _) = mul at h hmul
  generalize operation (if bit op_id 0 = true then eOpType.kSUB_ else .kADD_) = add at h hadd
  generalize extract32 op 5 5 = rn at h
  generalize extract32 op 16 5 = rm at h
  generalize extract32 op 10 5 = ra at h
  generalize (if bit op 21 = true then false else bit op 31) = is_64 at h
  generalize bit op_id 2 = is_high at h
  cases is_high
  · by_cases hn : rn = 31#32 <;> by_cases hm : rm = 31#32 <;> by_cases ha : ra = 31#32 <;> simp [hn, hm, ha] at h
    all_goals
      subst h
      refine wired_of_check [1, 0, 0, 2, 0, 3] rfl (inRange_of_plain [_, _] rfl rfl ?_) env
      exact List.forall_mem_cons.mpr ⟨Or.inl hmul, List.forall_mem_singleton.mpr (Or.inl hadd)⟩
  · by_cases hn : rn = 31#32 <;> by_cases hm : rm = 31#32 <;> simp [hn, hm] at h
    all_goals
      subst h
      exact wired_of_check [1, 0, 0, 2] rfl (inRange_of_plain [_] rfl rfl (List.forall_mem_singleton.mpr (Or.inl hmul))) env

theorem DP_3_SRC_wired (h : DP_3_SRC op = .ok (some inst)) : inst.Wired env (inst.decodedFacts env) := by
  unfold DP_3_SRC at h
  dsimp only at h
  split at h
  · exact multiply_wired env h
  · split at h
    · exact multiply_wired env h
    · cases h

/-! ## Shifted and extended operands -/

theorem shift_ok {shift_type : BitVec 32} {sh : Operation} (h : shift shift_type = .ok sh) : sh.isShift = true := by
  unfold shift at h
  split at h
  · cases h
    rfl
  split at h
  · cases h
    rfl
  split at h
  · cases h
    rfl
  split at h
  · cases h
    rfl
  · cases h

/-- A shift by a field of the opcode, of the operand's size. -/
theorem shiftFits {sh : Operation} (hsh : sh.isShift = true) {c : eOperandCode} {amount : BitVec 32} {sf : Bool}
    (hamount : inst.decoded .kOperand4 = some (.uint64 (amount.setWidth 64)))
    (hsize : inst.decoded .kOperand5 = some (.uint64 (if sf then 64#64 else 32#64))) :
    inst.OperationFits (sh, [c, .kOperand4, .kOperand5]) := by
  refine Or.inr ⟨hsh, ⟨c, rfl⟩, ⟨_, hamount, ?_⟩, ⟨_, hsize, ?_⟩⟩
  · rw [BitVec.toNat_setWidth]
    exact lt_of_le_of_lt (Nat.mod_le _ _) amount.isLt
  · cases sf
    · exact Or.inr rfl
    · exact Or.inl rfl

theorem addSubType_accepts (sub_op : Bool) : (operation (addSubType sub_op false)).accepts 2 = true := by
  cases sub_op <;> rfl

theorem ADDSUB_SHIFTED_wired (h : ADDSUB_SHIFTED op = .ok (some inst)) : inst.Wired env (inst.decodedFacts env) := by
  unfold ADDSUB_SHIFTED at h
  dsimp only at h
  split at h
  · cases h
  generalize extract32 op 10 6 = amount at h
  generalize extract32 op 0 5 = rd at h
  generalize extract32 op 5 5 = rn at h
  generalize extract32 op 16 5 = rm at h
  generalize bit op 31 = sf at h
  generalize bit op 30 = sub_op at h
  generalize bit op 29 = setflags at h
  cases hsh : shift (extract32 op 22 2) with
  | error f => simp [hsh] at h
  | ok sh =>
    have hisShift := shift_ok hsh
    cases setflags
    · have hadd := addSubType_accepts sub_op
      generalize operation (addSubType sub_op false) = add at h hadd
      by_cases hn : rn = 31#32 <;> by_cases hm : rm = 31#32 <;> simp [hsh, hn, hm] at h
      all_goals
        subst h
        refine wired_of_check [1, 2, 0, 0, 3] rfl (inRange_of_plain [_, _] rfl rfl ?_) env
        exact List.forall_mem_cons.mpr ⟨shiftFits hisShift rfl rfl, List.forall_mem_singleton.mpr (Or.inl hadd)⟩
    · cases sub_op <;> by_cases hd : rd = 31#32 <;> by_cases hn : rn = 31#32 <;> by_cases hm : rm = 31#32 <;>
        simp [hsh, hd, hn, hm] at h
      all_goals
        subst h
        refine wired_of_check [1, 2, 0, 0, 3, 0, 3] rfl (inRange_of_plain [_, _] rfl rfl ?_) env
        exact List.forall_mem_cons.mpr ⟨shiftFits hisShift rfl rfl, List.forall_mem_singleton.mpr (Or.inl rfl)⟩

theorem extend_accepts (e : eExtendType) : (extend e).accepts 1 = true := by
  cases e <;> rfl

theorem readBase_eq (n : OpNumber) (rn : BitVec 32) (deps : List InternalDependance) (sf : Bool) :
    readBase n rn deps sf = addReadXRegister n rn deps sf := by
  unfold readBase readRegister
  split <;> rfl

theorem ADDSUB_EXTENDED_wired (h : ADDSUB_EXTENDED op = .ok (some inst)) : inst.Wired env (inst.decodedFacts env) := by
  unfold ADDSUB_EXTENDED at h
  dsimp only at h
  split at h
  · cases h
  generalize extract32 op 10 3 = amount at h
  generalize extract32 op 0 5 = rd at h
  generalize extract32 op 5 5 = rn at h
  generalize extract32 op 16 5 = rm at h
  generalize bit op 31 = sf at h
  generalize bit op 30 = sub_op at h
  generalize bit op 29 = setflags at h
  simp only [readBase_eq] at h
  have hshift : shift 0#32 = .ok (operation .kLSL_) := rfl
  have hisShift : (operation .kLSL_).isShift = true := rfl
  generalize operation .kLSL_ = sh at hshift hisShift
  cases hext : DecodeRegExtend (extract32 op 13 3) with
  | error f => simp [hext] at h
  | ok e =>
    have hex := extend_accepts e
    cases setflags
    · have hadd := addSubType_accepts sub_op
      generalize operation (addSubType sub_op false) = add at h hadd
      by_cases hm : rm = 31#32 <;> simp [hext, hshift, hm] at h
      all_goals
        subst h
        refine wired_of_check [1, 2, 3, 0, 0, 4] rfl (inRange_of_plain [_, _, _] rfl rfl ?_) env
        exact List.forall_mem_cons.mpr ⟨Or.inl hex, List.forall_mem_cons.mpr ⟨shiftFits hisShift rfl rfl,
          List.forall_mem_singleton.mpr (Or.inl hadd)⟩⟩
    · cases sub_op <;> by_cases hd : rd = 31#32 <;> by_cases hm : rm = 31#32 <;> simp [hext, hshift, hd, hm] at h
      all_goals
        subst h
        refine wired_of_check [1, 2, 3, 0, 0, 4, 0, 4] rfl (inRange_of_plain [_, _, _] rfl rfl ?_) env
        exact List.forall_mem_cons.mpr ⟨Or.inl hex, List.forall_mem_cons.mpr ⟨shiftFits hisShift rfl rfl,
          List.forall_mem_singleton.mpr (Or.inl rfl)⟩⟩

/-! ## Logical operations -/

theorem logicalType_accepts (opc : BitVec 32) (n : Bool) : (operation (logicalType opc n)).accepts 2 = true := by
  unfold logicalType
  split <;> cases n <;> rfl

theorem LOGICAL_wired (h : LOGICAL op = .ok (some inst)) : inst.Wired env (inst.decodedFacts env) := by
  unfold LOGICAL at h
  dsimp only at h
  split at h
  · cases h
  generalize extract32 op 10 6 = amount at h
  generalize extract32 op 0 5 = rd at h
  generalize extract32 op 5 5 = rn at h
  generalize extract32 op 16 5 = rm at h
  generalize bit op 31 = sf at h
  generalize bit op 21 = n at h
  generalize extract32 op 29 2 = opc at h
  cases hsh : shift (extract32 op 22 2) with
  | error f => simp [hsh] at h
  | ok sh =>
    have hisShift := shift_ok hsh
    by_cases hopc : opc = 3#32
    · subst hopc
      cases n <;> by_cases hd : rd = 31#32 <;> by_cases hn : rn = 31#32 <;> by_cases hm : rm = 31#32 <;>
        simp [hsh, hd, hn, hm] at h
      all_goals
        subst h
        refine wired_of_check [1, 2, 0, 0, 3, 0, 3] rfl (inRange_of_plain [_, _] rfl rfl ?_) env
        exact List.forall_mem_cons.mpr ⟨shiftFits hisShift rfl rfl, List.forall_mem_singleton.mpr (Or.inl rfl)⟩
    · have hlog := logicalType_accepts opc n
      generalize operation (logicalType opc n) = log at h hlog
      by_cases hn : rn = 31#32 <;> by_cases hm : rm = 31#32 <;> simp [hsh, hopc, hn, hm] at h
      all_goals
        subst h
        refine wired_of_check [1, 2, 0, 0, 3] rfl (inRange_of_plain [_, _] rfl rfl ?_) env
        exact List.forall_mem_cons.mpr ⟨shiftFits hisShift rfl rfl, List.forall_mem_singleton.mpr (Or.inl hlog)⟩

end narmDecoder
