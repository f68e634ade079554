import Flexus.ArmDecoder.DataProcImmWired

/-!
# Data processing

Which data-processing instructions complete: all but the additions and subtractions with carry,
the CRC instructions, and the rotations and arithmetic shifts by a register whose amount needs
more than 32 bits.
-/

namespace narmDecoder

open SemanticInstruction

attribute [local simp] build addExecute addExecuteOn newAction pushDependances dependance addNewComponent addRead
  addReadConstant addReadXRegister readRegister connect connectDependance addDestination addWriteback
  connectWriteback addAnnulment addSetCC addFlagsDestination setOperand addDispatchEffect addDispatchAction
  retirementDependance assert StateT.run bind StateT.bind Except.bind get getThe MonadStateOf.get StateT.get modify
  modifyGet MonadStateOf.modifyGet StateT.modifyGet pure StateT.pure Except.pure liftM monadLift
  MonadLift.monadLift StateT.lift noDeps depsAt operandCodes new

/-- The data-processing part of `disas_a64_insn`. No other instruction is built here. -/
def disas_data_proc (code : armcode) : Decoded :=
  if code.theOpcode = 1#32 then unallocated_encoding
  else
    match (extract32 code.theOpcode 25 4).toNat with
    | 0x8 => disas_data_proc_imm code
    | 0x9 => disas_data_proc_imm code
    | 0x5 => disas_data_proc_reg code.theOpcode
    | 0xd => disas_data_proc_reg code.theOpcode
    | _ => unallocated_encoding

variable {op : BitVec 32} {inst : SemanticInstruction}

/-! ## The actions that are never ready -/

theorem ADDSUB_CARRY_blocked (h : ADDSUB_CARRY op = .ok (some inst)) : inst.blocked 0 2 = true := by
  unfold ADDSUB_CARRY at h
  dsimp only at h
  generalize extract32 op 0 5 = rd at h
  generalize extract32 op 5 5 = rn at h
  generalize extract32 op 16 5 = rm at h
  generalize operation (addSubType (bit op 30) (bit op 29)) = add at h
  generalize bit op 29 = setflags at h
  cases setflags <;> by_cases hd : rd = 31#32 <;> by_cases hn : rn = 31#32 <;> by_cases hm : rm = 31#32 <;>
    simp [hd, hn, hm] at h
  all_goals
    subst h
    rfl

theorem CRC_blocked (h : CRC op = .ok (some inst)) : inst.blocked 0 0 = true := by
  unfold CRC at h
  dsimp only at h
  split at h
  · cases h
  split at h
  · cases h
  generalize extract32 op 5 5 = rn at h
  generalize extract32 op 16 5 = rm at h
  by_cases hn : rn = 31#32 <;> by_cases hm : rm = 31#32 <;> simp [hn, hm] at h
  all_goals
    subst h
    rfl

/-! ## Shifts by a register -/

/-- The value of a register operand. -/
def sourceValue (env : Env) (sf : Bool) (r : BitVec 32) : BitVec 64 :=
  widthMask sf (env.readRegister (env.mapped ⟨.xRegisters, r.toNat⟩))

/-- The shifts whose loop does not end. -/
def Endless (shift_type : BitVec 32) (input amount : BitVec 64) : Prop :=
  2 ^ 32 ≤ amount.toNat ∧ (shift_type = 3#32 ∨ shift_type = 2#32 ∧ 2 ^ 31 ≤ input.toNat)

/-- Bit 31, and bit 63 as `asr` has it, with their sign. -/
theorem and_intBit (input : BitVec 64) (sf : Bool) :
    input &&& intBit ((if sf then 64#64 else 32#64) - 1#64).toNat ≠ 0#64 ↔ 2 ^ 31 ≤ input.toNat := by
  have hmask : intBit ((if sf then 64#64 else 32#64) - 1#64).toNat = 0xffffffff80000000#64 := by cases sf <;> decide
  have hbit : ∀ i, (0xffffffff80000000#64).getLsbD i = (decide (31 ≤ i) && decide (i < 64)) := by
    intro i
    by_cases hi : i < 64
    · have hall : ∀ i < 64, (0xffffffff80000000#64).getLsbD i = (decide (31 ≤ i) && decide (i < 64)) := by decide
      exact hall i hi
    · rw [BitVec.getLsbD_of_ge _ _ (by omega), decide_eq_false hi, Bool.and_false]
  rw [hmask]
  constructor
  · intro hne
    by_contra hlt
    apply hne
    apply BitVec.eq_of_getLsbD_eq
    intro i hi
    rw [BitVec.getLsbD_and, hbit, BitVec.getLsbD_zero]
    by_cases h31 : 31 ≤ i
    · have hzero : input.getLsbD i = false := Nat.testBit_lt_two_pow
        (lt_of_lt_of_le (not_le.mp hlt) (Nat.pow_le_pow_right (by omega) h31))
      rw [hzero, Bool.false_and]
    · rw [decide_eq_false h31, Bool.false_and, Bool.and_false]
  · intro hle hzero
    obtain ⟨i, hi, hset⟩ := Nat.exists_ge_and_testBit_of_ge_two_pow hle
    have hlt : i < 64 := by
      by_contra hge
      have hoff : input.getLsbD i = false := BitVec.getLsbD_of_ge _ _ (by omega)
      rw [BitVec.getLsbD, hset] at hoff
      cases hoff
    have hbit' : (input &&& 0xffffffff80000000#64).getLsbD i = true := by
      rw [BitVec.getLsbD_and, hbit, decide_eq_true hi, decide_eq_true hlt, BitVec.getLsbD, hset]
      rfl
    rw [hzero, BitVec.getLsbD_zero] at hbit'
    cases hbit'

theorem size_cases (sf : Bool) : (if sf then 64#64 else 32#64) = 64#64 ∨ (if sf then 64#64 else 32#64) = 32#64 := by
  cases sf
  · exact Or.inr rfl
  · exact Or.inl rfl

theorem ones_fails {length : BitVec 64} (h : 2 ^ 32 ≤ length.toNat) : ones length = .error .endlessLoop := by
  rw [ones, if_neg (by omega)]

/-- A shift by a register succeeds, unless its loop does not end. -/
theorem apply_shift_of_not_endless {shift_type : BitVec 32} {sh : Operation} (hsh : shift shift_type = .ok sh)
    (input amount : BitVec 64) (sf : Bool) (h : ¬Endless shift_type input amount) :
    ∃ y, sh.apply [.uint64 input, .uint64 amount, .uint64 (if sf then 64#64 else 32#64)] =
      .ok ⟨.uint64 y, none, false⟩ := by
  have hsize := size_cases sf
  have hassert := assert_size hsize
  have hsign := and_intBit input sf
  generalize (if sf then 64#64 else 32#64) = size at hsize hassert hsign
  by_cases hamount : amount.toNat < 2 ^ 32
  · exact Operation.apply_shift (shift_ok hsh) input hsize hamount
  · have hrest : shift_type ≠ 3#32 ∧ (shift_type = 2#32 → ¬2 ^ 31 ≤ input.toNat) := by
      rw [Endless, not_and_or, not_or, not_and] at h
      exact h.resolve_left (by omega)
    obtain ⟨hror, hasr⟩ := hrest
    unfold shift at hsh
    split at hsh
    · cases hsh
      obtain ⟨y, hy⟩ := shiftBy_ok shl64 input amount hsize
      exact ⟨y, by simp only [operation, Operation.apply, LSL, ternary, Operand.getUint64, bind, Except.bind, hy]; rfl⟩
    split at hsh
    · cases hsh
      obtain ⟨y, hy⟩ := shiftBy_ok shr64 input amount hsize
      exact ⟨y, by simp only [operation, Operation.apply, LSR, ternary, Operand.getUint64, bind, Except.bind, hy]; rfl⟩
    split at hsh
    · next h2 =>
      cases hsh
      obtain ⟨y, hy⟩ := asr_ok input amount hsize (fun hne => absurd (hsign.mp hne) (hasr h2))
      exact ⟨y, by simp only [operation, Operation.apply, ASR, ternary, Operand.getUint64, bind, Except.bind, hy]; rfl⟩
    cases hsh

theorem apply_shift_of_endless {shift_type : BitVec 32} {sh : Operation} (hsh : shift shift_type = .ok sh)
    (input amount : BitVec 64) (sf : Bool) (h : Endless shift_type input amount) :
    sh.apply [.uint64 input, .uint64 amount, .uint64 (if sf then 64#64 else 32#64)] = .error .endlessLoop := by
  have hassert := assert_size (size_cases sf)
  have hsign := and_intBit input sf
  generalize (if sf then 64#64 else 32#64) = size at hassert hsign
  obtain ⟨hamount, rfl | ⟨rfl, hinput⟩⟩ := h
  · cases hsh
    simp only [operation, Operation.apply, ROR, ternary, Operand.getUint64, bind, Except.bind, ror, hassert,
      ones_fails hamount]
  · cases hsh
    have hset : input &&& intBit (size - 1).toNat ≠ 0#64 := hsign.mpr hinput
    simp only [operation, Operation.apply, ASR, ternary, Operand.getUint64, bind, Except.bind, asr, hassert,
      ones_fails hamount, if_pos hset]

/-- What is known of the operands of a shift by a register. -/
def shiftFacts (inst : SemanticInstruction) (env : Env) (input amount size : BitVec 64) : Facts where
  name := inst.names env
  value c v :=
    match c with
    | .kOperand1 => v = input
    | .kOperand2 => v = amount
    | .kOperand3 => v = size
    | _ => True
  register _ _ := True

theorem shiftFacts_operands {env : Env} {input amount size : BitVec 64} {xs : List (BitVec 64)}
    (h : List.Forall₂ (shiftFacts inst env input amount size).value [.kOperand1, .kOperand2, .kOperand3] xs) :
    xs = [input, amount, size] := by
  match xs, h with
  | [x, y, z], .cons hx (.cons hy (.cons hz .nil)) => exact congrArg₂ _ hx (congrArg₂ _ hy (congrArg₂ _ hz rfl))

/-- A shift by a register completes unless its loop does not end. -/
theorem SHIFT_completes_iff (h : SHIFT op = .ok (some inst)) (env : Env) :
    inst.Completes env ↔ ¬Endless (extract32 op 10 2) (sourceValue env (bit op 31) (extract32 op 5 5))
      (sourceValue env (bit op 31) (extract32 op 16 5)) := by
  unfold SHIFT at h
  dsimp only at h
  generalize extract32 op 0 5 = rd at h
  generalize extract32 op 5 5 = rn at h ⊢
  generalize extract32 op 16 5 = rm at h ⊢
  generalize bit op 31 = sf at h ⊢
  generalize extract32 op 10 2 = shift_type at h ⊢
  cases hsh : shift shift_type with
  | error f => simp [hsh] at h
  | ok sh =>
    simp [hsh] at h
    have hnot := apply_shift_of_not_endless hsh (sourceValue env sf rn) (sourceValue env sf rm) sf
    have hend := apply_shift_of_endless hsh (sourceValue env sf rn) (sourceValue env sf rm) sf
    have hvalues : ∀ xs, List.Forall₂ (shiftFacts inst env (sourceValue env sf rn) (sourceValue env sf rm)
        (if sf then 64#64 else 32#64)).value [.kOperand1, .kOperand2, .kOperand3] xs →
        xs = [sourceValue env sf rn, sourceValue env sf rm, if sf then 64#64 else 32#64] :=
      fun xs hxs => shiftFacts_operands hxs
    generalize hF : shiftFacts inst env (sourceValue env sf rn) (sourceValue env sf rm) (if sf then 64#64 else 32#64) = F
      at hvalues
    have hplaced : inst.Placed env F := by
      subst h
      subst hF
      refine ⟨?_, ?_, rfl⟩
      · intro p hp
        fin_cases hp <;> exact ⟨_, rfl⟩
      · intro e he
        fin_cases he
        · exact ⟨rfl, _, rfl, rfl⟩
        · exact ⟨rfl, _, rfl, rfl⟩
        · exact ⟨rfl, rfl, _, rfl, rfl, rfl⟩
    have hothers : ∀ j c, j ≠ 0 → inst.components[j]? = some c → c.theAction.predicate → c.theAction.Fits env F := by
      subst h
      subst hF
      intro j c hj hget hpred
      match j, hj, hget with
      | 1, _, hget => cases hget; exact ⟨rfl, rfl, rfl⟩
      | 2, _, hget => cases hget; exact ⟨rfl, rfl, rfl⟩
      | 3, _, hget => cases hget; exact ⟨rfl, rfl⟩
      | 4, _, hget => cases hget; exact ⟨rfl, rfl, fun _ _ => ⟨trivial, trivial⟩⟩
      | 5, _, hget => cases hget; cases hpred
    have hexec : ∃ deps, inst.components[0]? = some ⟨.execute sh [.kOperand1, .kOperand2, .kOperand3] .kResult, 3, deps⟩ := by
      subst h
      exact ⟨_, rfl⟩
    obtain ⟨deps, hexec⟩ := hexec
    have hkinds : ∀ c ∈ [eOperandCode.kOperand1, .kOperand2, .kOperand3], c.kind = .data := by decide
    constructor
    · intro hcompletes hendless
      have hnode : 0 ∈ inst.nodes := by
        subst h
        exact List.contains_iff_mem.mp rfl
      apply hplaced.not_completes hnode hothers hexec _ hcompletes
      intro s hreads s' heval
      obtain ⟨xs, hxs, hfit⟩ := Action.operands_of_holds hkinds hreads
      rw [hvalues xs hfit] at hxs
      simp [Action.doEvaluate, hxs, hend hendless] at heval
    · intro hendless
      apply Wired.completes (F := F)
      refine ⟨hplaced, ?_, [1, 0, 0, 0, 2], by subst h; rfl⟩
      intro c hc hpred
      obtain ⟨j, hj⟩ := List.mem_iff_getElem?.mp hc
      by_cases hzero : j = 0
      · subst hzero
        rw [hexec] at hj
        cases hj
        refine ⟨hkinds, rfl, fun xs hxs => ?_⟩
        obtain ⟨y, hy⟩ := hnot hendless
        refine ⟨y, none, ?_, ?_, fun f hf => (by cases hf), fun hset => ?_⟩
        · rw [hvalues xs hxs]
          exact hy
        · subst hF
          trivial
        · rw [isShift_setsFlags (shift_ok hsh)] at hset
          cases hset
      · exact hothers j c hzero hj hpred

/-! ## All encodings -/

/-- The data-processing encodings with two sources. -/
def TwoSources (op : BitVec 32) : Prop :=
  (extract32 op 24 5).toNat = 0x1a ∧ (extract32 op 21 3).toNat = 0x6 ∧ bit op 30 = false

/-- Additions and subtractions with carry. -/
def ReadsCarry (op : BitVec 32) : Prop := (extract32 op 24 5).toNat = 0x1a ∧ (extract32 op 21 3).toNat = 0x0

def IsCRC (op : BitVec 32) : Prop := TwoSources op ∧ 16#32 ≤ extract32 op 10 6 ∧ extract32 op 10 6 ≤ 23#32

/-- Rotations and arithmetic shifts by a register whose loop does not end. -/
def ShiftsEndlessly (env : Env) (op : BitVec 32) : Prop :=
  TwoSources op ∧ 8#32 ≤ extract32 op 10 6 ∧ extract32 op 10 6 ≤ 11#32 ∧
    Endless (extract32 op 10 2) (sourceValue env (bit op 31) (extract32 op 5 5))
      (sourceValue env (bit op 31) (extract32 op 16 5))

/-- The instructions that do not complete. -/
def Stuck (env : Env) (op : BitVec 32) : Prop := ReadsCarry op ∨ IsCRC op ∨ ShiftsEndlessly env op

theorem not_stuck_of_ne {env : Env} (h : (extract32 op 24 5).toNat ≠ 0x1a) : ¬Stuck env op := by
  rintro (hcarry | hcrc | hshift)
  · exact h hcarry.1
  · exact h hcrc.1.1
  · exact h hshift.1.1

theorem not_stuck_of_class {env : Env} (hcarry : (extract32 op 21 3).toNat ≠ 0x0)
    (htwo : (extract32 op 21 3).toNat ≠ 0x6) : ¬Stuck env op := by
  rintro (h | h | h)
  · exact hcarry h.2
  · exact htwo h.1.2.1
  · exact htwo h.1.2.1

theorem disas_data_proc_2src_completes_iff (htwo : TwoSources op) (h : disas_data_proc_2src op = .ok (some inst))
    (env : Env) : inst.Completes env ↔ ¬Stuck env op := by
  have hcarry : ¬ReadsCarry op := fun hcarry => absurd (hcarry.2.symm.trans htwo.2.1) (by decide)
  unfold disas_data_proc_2src at h
  dsimp only at h
  split at h
  · cases h
  split at h
  · next hdiv =>
    refine iff_of_true (DIV_wired env h).completes ?_
    rintro (hstuck | hstuck | hstuck)
    · exact hcarry hstuck
    · rcases hdiv with hdiv | hdiv <;> exact absurd (hdiv ▸ hstuck.2.1) (by decide)
    · rcases hdiv with hdiv | hdiv <;> exact absurd (hdiv ▸ hstuck.2.1) (by decide)
  split at h
  · next hshift =>
    rw [SHIFT_completes_iff h env, not_iff_not]
    refine ⟨fun hend => Or.inr (Or.inr ⟨htwo, hshift.1, hshift.2, hend⟩), ?_⟩
    rintro (hstuck | hstuck | hstuck)
    · exact absurd hstuck hcarry
    · exact absurd (BitVec.le_trans hstuck.2.1 hshift.2) (by decide)
    · exact hstuck.2.2.2
  split at h
  · next hcrc =>
    exact iff_of_false (not_completes_of_blocked (CRC_blocked h) env)
      (fun hstuck => hstuck (Or.inr (Or.inl ⟨htwo, hcrc.1, hcrc.2⟩)))
  · cases h

theorem disas_data_proc_1src_completes (h : disas_data_proc_1src op = .ok (some inst)) (env : Env) :
    inst.Completes env := by
  unfold disas_data_proc_1src at h
  dsimp only at h
  split at h
  · cases h
  split at h
  · exact (RBIT_wired env h).completes
  split at h
  · exact (REV_wired env h).completes
  split at h
  · exact (CL_wired env h).completes
  · cases h

theorem disas_data_proc_reg_completes_iff (h : disas_data_proc_reg op = .ok (some inst)) (env : Env) :
    inst.Completes env ↔ ¬Stuck env op := by
  unfold disas_data_proc_reg at h
  split at h
  · next hclass => exact iff_of_true (LOGICAL_wired env h).completes (not_stuck_of_ne (by omega))
  · next hclass =>
    split at h
    · exact iff_of_true (ADDSUB_EXTENDED_wired env h).completes (not_stuck_of_ne (by omega))
    · exact iff_of_true (ADDSUB_SHIFTED_wired env h).completes (not_stuck_of_ne (by omega))
  · next hclass => exact iff_of_true (DP_3_SRC_wired env h).completes (not_stuck_of_ne (by omega))
  · next hclass =>
    split at h
    · next hsub =>
      exact iff_of_false (not_completes_of_blocked (ADDSUB_CARRY_blocked h) env)
        (fun hstuck => hstuck (Or.inl ⟨hclass, hsub⟩))
    · next hsub => exact iff_of_true (CCMP_wired env h).completes (not_stuck_of_class (by omega) (by omega))
    · next hsub => exact iff_of_true (CSEL_wired env h).completes (not_stuck_of_class (by omega) (by omega))
    · next hsub =>
      split at h
      · next hone =>
        refine iff_of_true (disas_data_proc_1src_completes h env) ?_
        rintro (hstuck | hstuck | hstuck)
        · exact absurd (hstuck.2.symm.trans hsub) (by decide)
        · exact absurd (hone.symm.trans hstuck.1.2.2) (by decide)
        · exact absurd (hone.symm.trans hstuck.1.2.2) (by decide)
      · next hone => exact disas_data_proc_2src_completes_iff ⟨hclass, hsub, Bool.eq_false_iff.mpr hone⟩ h env
    · cases h
  · cases h

theorem disas_data_proc_imm_completes {code : armcode} (h : disas_data_proc_imm code = .ok (some inst)) (env : Env) :
    inst.Completes env := by
  unfold disas_data_proc_imm at h
  split at h
  · exact (ADR_wired env h).completes
  · exact (ADR_wired env h).completes
  · exact (ALUIMM_wired env h).completes
  · exact (ALUIMM_wired env h).completes
  · exact (LOGICALIMM_wired env h).completes
  · exact (MOVE_wired env h).completes
  · exact (BFM_wired env h).completes
  · exact (EXTR_wired env h).completes
  · cases h

theorem toNat_extract32 (value : BitVec 32) (start : Nat) {length : Nat} (h : length ≤ 32) :
    (extract32 value start length).toNat = value.toNat / 2 ^ start % 2 ^ length := by
  have hmask : (BitVec.allOnes 32 >>> (32 - length)).toNat = 2 ^ length - 1 := by
    rw [BitVec.toNat_ushiftRight, BitVec.toNat_allOnes, Nat.shiftRight_eq_div_pow]
    interval_cases length <;> rfl
  rw [extract32, BitVec.toNat_and, hmask, Nat.and_two_pow_sub_one_eq_mod, BitVec.toNat_ushiftRight,
    Nat.shiftRight_eq_div_pow]

/-- **Which data-processing instructions complete**: whatever the registers and flags hold, and in
    whatever order its actions are evaluated, an instruction that the decoder builds finds all
    operands of the right type and number and produces its result, but for those with carry, the
    CRC instructions and the shifts whose loop does not end. -/
theorem disas_data_proc_completes_iff {code : armcode} (h : disas_data_proc code = .ok (some inst)) (env : Env) :
    inst.Completes env ↔ ¬Stuck env code.theOpcode := by
  have hclass : (extract32 code.theOpcode 24 5).toNat = 0x1a → (extract32 code.theOpcode 25 4).toNat = 0xd := by
    rw [toNat_extract32 _ _ (by omega), toNat_extract32 _ _ (by omega)]
    omega
  unfold disas_data_proc at h
  split at h
  · cases h
  split at h
  · exact iff_of_true (disas_data_proc_imm_completes h env) (not_stuck_of_ne (by omega))
  · exact iff_of_true (disas_data_proc_imm_completes h env) (not_stuck_of_ne (by omega))
  · exact disas_data_proc_reg_completes_iff h env
  · exact disas_data_proc_reg_completes_iff h env
  · cases h

/-- `ADD X0, X1, #1` completes, with all registers zero. -/
theorem disas_data_proc_completes_iff_addImmediate :
    ∃ inst, disas_data_proc ⟨0#64, 0x91000420#32⟩ = .ok (some inst) ∧
      (inst.Completes ⟨fun _ => 0, fun _ => (1, 0), fun _ => 0#64, 0#32, 0#64⟩ ↔
        ¬Stuck ⟨fun _ => 0, fun _ => (1, 0), fun _ => 0#64, 0#32, 0#64⟩ 0x91000420#32) := by
  have hsome : ((disas_data_proc ⟨0#64, 0x91000420#32⟩).toOption.join).isSome = true := by decide +kernel
  cases hdecode : disas_data_proc ⟨0#64, 0x91000420#32⟩ with
  | error f =>
    rw [hdecode] at hsome
    cases hsome
  | ok decoded =>
    cases decoded with
    | none =>
      rw [hdecode] at hsome
      cases hsome
    | some inst => exact ⟨inst, rfl, disas_data_proc_completes_iff hdecode _⟩

/-- `ADC X0, X1, X2` waits for its carry for ever. -/
theorem not_disas_data_proc_completes :
    ¬∀ (code : armcode) (inst : SemanticInstruction) (env : Env),
      disas_data_proc code = .ok (some inst) → inst.Completes env := by
  intro hall
  have hdecode : disas_data_proc ⟨0#64, 0x9A020020#32⟩ = ADDSUB_CARRY 0x9A020020#32 := by
    have hgroup : (extract32 0x9A020020#32 25 4).toNat = 0xd := by decide
    have hclass : (extract32 0x9A020020#32 24 5).toNat = 0x1a := by decide
    have hsub : (extract32 0x9A020020#32 21 3).toNat = 0x0 := by decide
    have hnot : ¬0x9A020020#32 = 1#32 := by decide
    simp only [disas_data_proc, disas_data_proc_reg, hgroup, hclass, hsub, if_neg hnot]
  have hsome : ((ADDSUB_CARRY 0x9A020020#32).toOption.join).isSome = true := by decide +kernel
  cases hcarry : ADDSUB_CARRY 0x9A020020#32 with
  | error f =>
    rw [hcarry] at hsome
    cases hsome
  | ok decoded =>
    cases decoded with
    | none =>
      rw [hcarry] at hsome
      cases hsome
    | some inst =>
      let env : Env := ⟨fun _ => 0, fun _ => (1, 0), fun _ => 0#64, 0#32, 0#64⟩
      exact not_completes_of_blocked (ADDSUB_CARRY_blocked hcarry) env (hall _ inst env (hdecode.trans hcarry))

end narmDecoder
