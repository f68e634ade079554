import Flexus.ArmDecoder.Flags
import Flexus.ArmDecoder.DataProcReg

/-!
# The flags of 32-bit instructions

The flags of a 32-bit operation are computed on words of 64 bits and patched afterwards. What
the actions of an instruction leave in the condition register, against the flags of the 32-bit
operation.
-/

namespace narmDecoder

open AddWithCarry

/-! ## Forms -/

/-- The 32-bit forms that set the flags: additions and subtractions, those with carry, logical
    ands and those with the complement, and conditional compares. -/
inductive FlagForm where
  | addSub (sub : Bool)
  | carry (sub : Bool)
  | logical (negate : Bool)
  | compare (sub : Bool)
  deriving DecidableEq, Repr

namespace FlagForm

/-- The actions that compute the flags. -/
def actions : FlagForm → List Action
  | addSub sub => [.execute (operation (addSubType sub true)) [.kOperand1, .kOperand2] .kResult]
  | carry sub =>
    [.readNZCV .kC .kOperand3,
      .execute (operation (addSubType sub true)) [.kOperand1, .kOperand2, .kOperand3] .kResult]
  | logical negate => [.execute (operation (logicalType 3#32 negate)) [.kOperand1, .kOperand2] .kResult]
  | compare sub => [.conditionCompare .kResult sub false]

/-- The write-back of the result, which a conditional compare does not have. -/
def writebacks (wroteBack : Bool) : FlagForm → List Action
  | compare _ => []
  | _ => if wroteBack then [.writeback .kResult .kPD false] else []

/-- The write of the flags. A conditional compare has patched them itself. -/
def writecc : FlagForm → Action
  | compare _ => .writecc .kCCpd true
  | _ => .writecc .kCCpd false

/-- The actions in the order in which they are evaluated. The write-back and the write of the
    flags both wait for the same action, so either may come first. -/
def run (form : FlagForm) (wroteBack : Bool) : List Action :=
  form.actions ++ form.writebacks wroteBack ++ [form.writecc]

end FlagForm

/-- The evaluation of actions one after another. -/
def evaluate (env : Env) (s : Store) (actions : List Action) : Except Fault Store :=
  actions.foldlM (fun s act => act.doEvaluate env s) s

/-- What the actions of a 32-bit form find: its operands and, in a conditional compare, the flags
    that are tested, the condition and the flags for when it does not hold. -/
structure WordSources where
  x : BitVec 32
  y : BitVec 32
  pstate : BitVec 64
  cond : BitVec 4
  flagBits : BitVec 4
  rd : mapped_reg
  cc : mapped_reg

namespace WordSources

/-- The slots as the reads leave them, with the operands extended by zeros. -/
def load (src : WordSources) (form : FlagForm) (s : Store) : Store :=
  let s := (s.setOperand .kPD (.mapped_reg src.rd)).setOperand .kCCpd (.mapped_reg src.cc)
  let s := match form with
    | .compare _ =>
      ((s.setOperand .kOperand3 (.uint64 src.pstate)).setOperand .kCondition
        (.uint64 (src.cond.setWidth 64))).setOperand .kOperand4 (.uint64 (src.flagBits.setWidth 64))
    | _ => s
  (s.setOperand .kOperand1 (.uint64 (src.x.setWidth 64))).setOperand .kOperand2 (.uint64 (src.y.setWidth 64))

end WordSources

/-- The flags in a processor state. -/
def flagsOf (pstate : BitVec 32) : Flags :=
  ⟨PSTATE.N pstate, PSTATE.Z pstate, PSTATE.C pstate, PSTATE.V pstate⟩

/-- The flags in the condition register after the run, if it does not fail. -/
def writtenFlags (form : FlagForm) (wroteBack : Bool) (env : Env) (src : WordSources) (s : Store) : Option Flags :=
  match evaluate env (src.load form s) (form.run wroteBack) with
  | .ok s' => (s'.registers src.cc).map fun v => flagsOf (v.setWidth 32)
  | .error _ => none

/-! ## The architecture's flags -/

/-- The number that is added to a word: the second operand or its complement. -/
def addend32 (sub : Bool) (y : BitVec 32) : BitVec 32 := if sub then ~~~y else y

/-- The conditions by name: EQ, NE, CS, CC, MI, PL, VS, VC, HI, LS, GE, LT, GT, LE and twice AL. -/
def armConditionHolds (f : Flags) (cond : BitVec 4) : Bool :=
  match cond.toNat with
  | 0 => f.z
  | 1 => !f.z
  | 2 => f.c
  | 3 => !f.c
  | 4 => f.n
  | 5 => !f.n
  | 6 => f.v
  | 7 => !f.v
  | 8 => f.c && !f.z
  | 9 => !f.c || f.z
  | 10 => f.n == f.v
  | 11 => f.n != f.v
  | 12 => !f.z && f.n == f.v
  | 13 => f.z || f.n != f.v
  | _ => true

/-- The flags of the 32-bit operation. -/
def armFlags (form : FlagForm) (env : Env) (src : WordSources) : Flags :=
  match form with
  | .addSub sub => flags src.x (addend32 sub src.y) sub
  | .carry sub => flags src.x (addend32 sub src.y) (PSTATE.C env._PSTATE)
  | .logical negate =>
    let result := src.x &&& (if negate then ~~~src.y else src.y)
    ⟨result.msb, decide (result = 0#32), false, false⟩
  | .compare sub =>
    if armConditionHolds (flagsOf (src.pstate.setWidth 32)) src.cond then flags src.x (addend32 sub src.y) sub
    else ⟨src.flagBits.getLsbD 3, src.flagBits.getLsbD 2, src.flagBits.getLsbD 1, src.flagBits.getLsbD 0⟩

/-- When the flags of the code are those of the architecture: there is no signed overflow, the
    form is not one with a carry, and an addition whose result has been written back has not
    produced a carry. -/
def WordFlagsRight (form : FlagForm) (wroteBack : Bool) (src : WordSources) : Prop :=
  match form with
  | .addSub sub =>
    Representable 32 (signedSum src.x (addend32 sub src.y) sub) ∧
      ¬(sub = false ∧ wroteBack = true ∧ 2 ^ 32 ≤ unsignedSum src.x src.y false)
  | .carry _ => False
  | .logical _ => True
  | .compare sub =>
    armConditionHolds (flagsOf (src.pstate.setWidth 32)) src.cond = true →
      Representable 32 (signedSum src.x (addend32 sub src.y) sub)

/-! ## Flag bits -/

theorem flagsOf_nzcvBits (f : Flags) : flagsOf (nzcvBits f) = f := by
  obtain ⟨n, z, c, v⟩ := f
  revert n z c v
  decide

theorem ConditionHolds_eq (pstate : BitVec 32) (cond : BitVec 4) :
    ConditionHolds pstate (cond.setWidth 64) = .ok (armConditionHolds (flagsOf pstate) cond) := by
  unfold ConditionHolds flagsOf
  generalize PSTATE.N pstate = n
  generalize PSTATE.Z pstate = z
  generalize PSTATE.C pstate = c
  generalize PSTATE.V pstate = v
  revert n z c v cond
  decide

/-- The flags of a result, put over those that the operation has set. -/
def patched (f : Flags) (result : BitVec 64) : Flags :=
  ⟨result.getLsbD 31, f.z || decide (result &&& 0xFFFFFFFF#64 = 0#64), f.c || decide (result >>> 32 = 1#64), f.v⟩

theorem patchFlags32_eq (f : Flags) (result : BitVec 64) :
    patchFlags32 ((nzcvBits f).setWidth 64) result = (nzcvBits (patched f result)).setWidth 64 := by
  have hbits : ∀ fn fz fc fv n z c : Bool,
      (((nzcvBits ⟨fn, fz, fc, fv⟩).setWidth 64 &&& (~~~PSTATE_N).setWidth 64 |||
          if n then PSTATE_N.setWidth 64 else 0#64) ||| if z then PSTATE_Z.setWidth 64 else 0#64) |||
          (if c then PSTATE_C.setWidth 64 else 0#64) =
        (nzcvBits ⟨n, fz || z, fc || c, fv⟩).setWidth 64 := by decide +kernel
  have h := hbits f.n f.z f.c f.v (result.getLsbD 31) (decide (result &&& 0xFFFFFFFF#64 = 0#64))
    (decide (result >>> 32 = 1#64))
  simp only [decide_eq_true_eq] at h
  rw [patched, ← h]
  simp only [patchFlags32, BitFields.and_bit_ne_zero_iff result (i := 31) (by omega)]

/-- The flags are kept among the other bits of the processor state. -/
theorem flagsOf_ccValue (readPSTATE flags result : BitVec 64) :
    flagsOf ((ccValue true readPSTATE flags result).setWidth 32) = flagsOf (flags.setWidth 32) := by
  have hmask : ∀ m : BitVec 32, 0x0FFFFFFF#32 &&& m = 0#32 →
      (ccValue true readPSTATE flags result).setWidth 32 &&& m = flags.setWidth 32 &&& m := by
    intro m hm
    have hcut : (0x0FFFFFFF#64).setWidth 32 = 0x0FFFFFFF#32 := by decide
    rw [ccValue, if_pos rfl, BitVec.setWidth_or, BitVec.setWidth_and, hcut, BitVec.and_or_distrib_right,
      BitVec.and_assoc, hm, BitVec.and_zero, BitVec.zero_or]
  simp only [flagsOf, PSTATE.N, PSTATE.Z, PSTATE.C, PSTATE.V]
  rw [hmask PSTATE_N (by decide), hmask PSTATE_Z (by decide), hmask PSTATE_C (by decide),
    hmask PSTATE_V (by decide)]

theorem flagsOf_ccValue_patched (readPSTATE : BitVec 64) (f : Flags) (result : BitVec 64) :
    flagsOf ((ccValue false readPSTATE ((nzcvBits f).setWidth 64) result).setWidth 32) = patched f result := by
  have hcut : ((nzcvBits (patched f result)).setWidth 64).setWidth 32 = nzcvBits (patched f result) := by
    rw [BitVec.setWidth_setWidth_of_le _ (by omega), BitVec.setWidth_eq]
  calc flagsOf ((ccValue false readPSTATE ((nzcvBits f).setWidth 64) result).setWidth 32)
      = flagsOf ((ccValue true readPSTATE (patchFlags32 ((nzcvBits f).setWidth 64) result) result).setWidth 32) := rfl
    _ = flagsOf ((patchFlags32 ((nzcvBits f).setWidth 64) result).setWidth 32) := flagsOf_ccValue ..
    _ = patched f result := by rw [patchFlags32_eq, hcut, flagsOf_nzcvBits]

/-! ## Words in wider words -/

theorem setWidth_widthMask (r : BitVec 64) : (widthMask false r).setWidth 32 = r.setWidth 32 := by
  have hmask : (0xffffffff#64).setWidth 32 = BitVec.allOnes 32 := by decide
  rw [widthMask, if_neg Bool.false_ne_true, BitVec.setWidth_and, hmask, BitVec.and_allOnes]

theorem and_lowMask_eq_zero_iff (r : BitVec 64) : r &&& 0xFFFFFFFF#64 = 0#64 ↔ r.setWidth 32 = 0#32 := by
  have hlow : (r &&& 0xFFFFFFFF#64).toNat = (r.setWidth 32).toNat := by
    rw [BitVec.toNat_and, BitVec.toNat_setWidth]
    exact Nat.and_two_pow_sub_one_eq_mod r.toNat 32
  rw [← BitVec.toNat_inj, ← BitVec.toNat_inj, hlow]
  exact Iff.rfl

theorem patched_eq (f : Flags) (r : BitVec 64) :
    patched f r =
      ⟨(r.setWidth 32).msb, f.z || decide (r.setWidth 32 = 0#32), f.c || decide (r >>> 32 = 1#64), f.v⟩ := by
  have hmsb : r.getLsbD 31 = (r.setWidth 32).msb := by
    rw [BitVec.msb_eq_getLsbD_last, BitVec.getLsbD_setWidth]
    rfl
  rw [patched, hmsb, decide_eq_decide.mpr (and_lowMask_eq_zero_iff r)]

/-- The low word of a sum of words that are extended by zeros. -/
theorem setWidth_sum (sub : Bool) (x y : BitVec 32) (c : Bool) :
    (sum (x.setWidth 64) (addend sub (y.setWidth 64)) c).setWidth 32 = sum x (addend32 sub y) c := by
  have hx : (x.setWidth 64).setWidth 32 = x := by
    rw [BitVec.setWidth_setWidth_of_le _ (by omega), BitVec.setWidth_eq]
  have hy : (y.setWidth 64).setWidth 32 = y := by
    rw [BitVec.setWidth_setWidth_of_le _ (by omega), BitVec.setWidth_eq]
  rw [sum_setWidth (by omega), hx]
  cases sub with
  | false => rw [addend, addend32, if_neg Bool.false_ne_true, if_neg Bool.false_ne_true, hy]
  | true => rw [addend, addend32, if_pos rfl, if_pos rfl, BitVec.setWidth_not (by omega), hy]

/-- The upper word of a sum is one exactly when an addition has produced a carry. -/
theorem ushiftRight_sum (sub : Bool) (x y : BitVec 32) (c : Bool) :
    sum (x.setWidth 64) (addend sub (y.setWidth 64)) c >>> 32 = 1#64 ↔
      sub = false ∧ 2 ^ 32 ≤ unsignedSum x y c := by
  have hx := x.isLt
  have hy := y.isLt
  have hc : c.toNat ≤ 1 := Bool.toNat_le c
  rw [← BitVec.toNat_inj, BitVec.toNat_ushiftRight, toNat_sum, Nat.shiftRight_eq_div_pow, unsignedSum, unsignedSum,
    BitVec.toNat_setWidth_of_le (by omega)]
  cases sub with
  | false =>
    rw [addend, if_neg Bool.false_ne_true, BitVec.toNat_setWidth_of_le (by omega), BitVec.toNat_ofNat,
      and_iff_right rfl]
    omega
  | true =>
    rw [addend, if_pos rfl, BitVec.toNat_not, BitVec.toNat_setWidth_of_le (by omega), BitVec.toNat_ofNat]
    simp only [Bool.true_eq_false, false_and, iff_false]
    omega

/-- The carry that the 64-bit operation has set is that of a subtraction. -/
theorem flagsSet_carry (sub : Bool) (x y : BitVec 32) (c : Bool) :
    (flagsSet (x.setWidth 64) (addend sub (y.setWidth 64)) c).c =
      (sub && decide (2 ^ 32 ≤ unsignedSum x (addend32 sub y) c)) := by
  have hx := x.isLt
  have hy := y.isLt
  have hc : c.toNat ≤ 1 := Bool.toNat_le c
  have hones : ¬(x.setWidth 64 = BitVec.allOnes 64) := by
    rw [← BitVec.toNat_inj, BitVec.toNat_setWidth_of_le (by omega), BitVec.toNat_allOnes]
    omega
  have hcarry := sum_lt_or_lt_iff (x.setWidth 64) (addend sub (y.setWidth 64)) c
  rw [flagsSet, decide_eq_decide.mpr hcarry, Bool.eq_iff_iff, Bool.and_eq_true, decide_eq_true_iff,
    decide_eq_true_iff, and_iff_left (fun h => hones h.1)]
  cases sub with
  | false =>
    rw [addend, if_neg Bool.false_ne_true, unsignedSum, BitVec.toNat_setWidth_of_le (by omega),
      BitVec.toNat_setWidth_of_le (by omega)]
    simp only [Bool.false_eq_true, false_and, iff_false]
    omega
  | true =>
    rw [addend, addend32, if_pos rfl, if_pos rfl, carry_complement_iff, carry_complement_iff,
      BitVec.toNat_setWidth_of_le (by omega), BitVec.toNat_setWidth_of_le (by omega)]
    exact (and_iff_right rfl).symm

/-- The patched flags of a sum: those of the 32-bit sum, but for the overflow. -/
theorem patched_sum (sub : Bool) (x y : BitVec 32) (c : Bool) :
    patched (flagsSet (x.setWidth 64) (addend sub (y.setWidth 64)) c) (sum (x.setWidth 64) (addend sub (y.setWidth 64)) c) =
      { flags x (addend32 sub y) c with v := false } := by
  simp only [patched_eq, setWidth_sum, ushiftRight_sum, flagsSet_carry]
  have hzero : (flagsSet (x.setWidth 64) (addend sub (y.setWidth 64)) c).z = true → sum x (addend32 sub y) c = 0#32 := by
    intro h
    rw [← setWidth_sum, of_decide_eq_true h]
    rfl
  ext
  · rfl
  · simpa [flags] using hzero
  · cases sub <;> simp [flags, addend32]
  · rfl

/-- The same when the result has been cut to a word: the carry of an addition is lost. -/
theorem patched_masked_sum (sub : Bool) (x y : BitVec 32) (c : Bool) :
    patched (flagsSet (x.setWidth 64) (addend sub (y.setWidth 64)) c)
        (widthMask false (sum (x.setWidth 64) (addend sub (y.setWidth 64)) c)) =
      { flags x (addend32 sub y) c with c := sub && decide (2 ^ 32 ≤ unsignedSum x (addend32 sub y) c), v := false } := by
  have htop : ∀ r, ¬widthMask false r >>> 32 = 1#64 := by
    intro r
    have hlt : (widthMask false r).toNat < 2 ^ 32 := by
      rw [widthMask, if_neg Bool.false_ne_true, BitVec.toNat_and]
      exact lt_of_le_of_lt Nat.and_le_right (by decide)
    rw [← BitVec.toNat_inj, BitVec.toNat_ushiftRight, Nat.shiftRight_eq_div_pow, BitVec.toNat_ofNat]
    omega
  rw [patched_eq, setWidth_widthMask, setWidth_sum, decide_eq_false (htop _), flagsSet_carry]
  have hzero : (flagsSet (x.setWidth 64) (addend sub (y.setWidth 64)) c).z = true → sum x (addend32 sub y) c = 0#32 := by
    intro h
    rw [← setWidth_sum, of_decide_eq_true h]
    rfl
  ext
  · rfl
  · simpa [flags] using hzero
  · simp
  · rfl

/-! ## Runs -/

variable {env : Env} {src : WordSources} {s : Store}

theorem load_kOperand1 (src : WordSources) (s : Store) (form : FlagForm) : (src.load form s).operand .kOperand1 = .uint64 (src.x.setWidth 64) := by
  unfold WordSources.load
  rw [Store.operand_setOperand_of_ne _ _ (by decide), Store.operand_setOperand_self]

theorem load_kOperand2 (src : WordSources) (s : Store) (form : FlagForm) : (src.load form s).operand .kOperand2 = .uint64 (src.y.setWidth 64) := by
  unfold WordSources.load
  rw [Store.operand_setOperand_self]

theorem load_kPD (src : WordSources) (s : Store) (form : FlagForm) : (src.load form s).operand .kPD = .mapped_reg src.rd := by
  cases form <;> simp [WordSources.load]

theorem load_kCCpd (src : WordSources) (s : Store) (form : FlagForm) : (src.load form s).operand .kCCpd = .mapped_reg src.cc := by
  cases form <;> simp [WordSources.load]

/-- A form whose one action is an operation on the two operands. -/
theorem writtenFlags_of_execute {form : FlagForm} {op : Operation} {f : Flags} {result : BitVec 64}
    (wroteBack : Bool) (hactions : form.actions = [.execute op [.kOperand1, .kOperand2] .kResult])
    (hwritebacks : form.writebacks wroteBack = if wroteBack then [.writeback .kResult .kPD false] else [])
    (hwritecc : form.writecc = .writecc .kCCpd false)
    (happly : op.apply [.uint64 (src.x.setWidth 64), .uint64 (src.y.setWidth 64)] =
      .ok ⟨.uint64 result, some (nzcvBits f), false⟩) :
    writtenFlags form wroteBack env src s = some (patched f (if wroteBack then widthMask false result else result)) := by
  have h1 := load_kOperand1 src s form
  have h2 := load_kOperand2 src s form
  have hpd := load_kPD src s form
  have hcc := load_kCCpd src s form
  rw [writtenFlags, FlagForm.run, hactions, hwritebacks, hwritecc]
  generalize src.load form s = start at h1 h2 hpd hcc
  have hfinal := fun r => flagsOf_ccValue_patched env.readPSTATE f r
  cases wroteBack with
  | false =>
    simp [evaluate, Action.doEvaluate, h1, h2, hcc, happly, bind, Except.bind, pure, Except.pure, Operand.getUint64,
      Operand.getRegisterValue, Operand.getMappedReg, hfinal]
  | true =>
    simp [evaluate, Action.doEvaluate, h1, h2, hpd, hcc, happly, bind, Except.bind, pure, Except.pure,
      Operand.getUint64, Operand.getRegisterValue, Operand.getMappedReg, hfinal]

/-- A conditional compare takes the flags of the operation or those of the instruction. -/
theorem writtenFlags_compare (sub wroteBack : Bool) :
    writtenFlags (.compare sub) wroteBack env src s =
      some (if armConditionHolds (flagsOf (src.pstate.setWidth 32)) src.cond then
          patched (flagsSet (src.x.setWidth 64) (addend sub (src.y.setWidth 64)) sub)
            (sum (src.x.setWidth 64) (addend sub (src.y.setWidth 64)) sub)
        else ⟨src.flagBits.getLsbD 3, src.flagBits.getLsbD 2, src.flagBits.getLsbD 1, src.flagBits.getLsbD 0⟩) := by
  have h1 := load_kOperand1 src s (.compare sub)
  have h2 := load_kOperand2 src s (.compare sub)
  have h3 : (src.load (.compare sub) s).operand .kOperand3 = .uint64 src.pstate := by simp [WordSources.load]
  have h4 : (src.load (.compare sub) s).operand .kOperand4 = .uint64 (src.flagBits.setWidth 64) := by
    simp [WordSources.load]
  have hcond : (src.load (.compare sub) s).operand .kCondition = .uint64 (src.cond.setWidth 64) := by
    simp [WordSources.load]
  have hcc := load_kCCpd src s (.compare sub)
  rw [writtenFlags]
  generalize src.load (.compare sub) s = start at h1 h2 h3 h4 hcond hcc
  have hbcond : BCOND [.uint64 src.pstate, .uint64 (src.cond.setWidth 64)] =
      .ok (armConditionHolds (flagsOf (src.pstate.setWidth 32)) src.cond) := ConditionHolds_eq ..
  have happly : (operation (if sub then .kSUBS_ else .kADDS_)).apply
      [.uint64 (src.x.setWidth 64), .uint64 (src.y.setWidth 64)] = .ok _ := addSub_eq sub _ _ none
  have hcut : ∀ f r, flagsOf ((ccValue true env.readPSTATE (patchFlags32 ((nzcvBits f).setWidth 64) r) 0#64).setWidth 32) =
      patched f r := fun f r => flagsOf_ccValue_patched env.readPSTATE f r
  have hbits : flagsOf ((ccValue true env.readPSTATE (src.flagBits.setWidth 64 <<< 28) 0#64).setWidth 32) =
      ⟨src.flagBits.getLsbD 3, src.flagBits.getLsbD 2, src.flagBits.getLsbD 1, src.flagBits.getLsbD 0⟩ := by
    rw [flagsOf_ccValue]
    generalize src.flagBits = b
    revert b
    decide
  cases hholds : armConditionHolds (flagsOf (src.pstate.setWidth 32)) src.cond with
  | false =>
    rw [hholds] at hbcond
    simp [FlagForm.run, FlagForm.actions, FlagForm.writebacks, FlagForm.writecc, evaluate, Action.doEvaluate, h3, h4,
      hcond, hcc, hbcond, bind, Except.bind, pure, Except.pure, Operand.getUint64, Operand.getRegisterValue,
      Operand.getMappedReg, hbits]
  | true =>
    rw [hholds] at hbcond
    simp [FlagForm.run, FlagForm.actions, FlagForm.writebacks, FlagForm.writecc, evaluate, Action.doEvaluate, h1, h2, h3,
      h4, hcond, hcc, hbcond, happly, bind, Except.bind, pure, Except.pure, Operand.getUint64, Operand.getRegisterValue,
      Operand.getMappedReg, hcut, carryIn]

/-- An operation does not accept the carry as it has been read. -/
theorem writtenFlags_carry (sub wroteBack : Bool) : writtenFlags (.carry sub) wroteBack env src s = none := by
  have h1 := load_kOperand1 src s (.carry sub)
  have h2 := load_kOperand2 src s (.carry sub)
  rw [writtenFlags]
  generalize src.load (.carry sub) s = start at h1 h2
  have happly : ∀ b, (operation (addSubType sub true)).apply
      [.uint64 (src.x.setWidth 64), .uint64 (src.y.setWidth 64), .bits b] = .error .badGet := by
    intro b
    cases sub <;> rfl
  simp [FlagForm.run, FlagForm.actions, evaluate, Action.doEvaluate, h1, h2, happly, bind, Except.bind, pure,
    Except.pure]

/-- A word that is extended by zeros has no upper half. -/
theorem widthMask_setWidth (z : BitVec 32) : widthMask false (z.setWidth 64) = z.setWidth 64 := by
  apply BitVec.eq_of_toNat_eq
  have hz := z.isLt
  rw [widthMask, if_neg Bool.false_ne_true, BitVec.toNat_and, BitVec.toNat_setWidth_of_le (by omega)]
  exact (Nat.and_two_pow_sub_one_eq_mod z.toNat 32).trans (Nat.mod_eq_of_lt hz)

/-- A logical operation on words that are extended by zeros yields such a word. -/
theorem apply_logical (negate : Bool) (x y : BitVec 32) :
    (operation (logicalType 3#32 negate)).apply [.uint64 (x.setWidth 64), .uint64 (y.setWidth 64)] =
      .ok ⟨.uint64 ((x &&& (if negate then ~~~y else y)).setWidth 64),
        some (nzcvBits ⟨false, decide (x &&& (if negate then ~~~y else y) = 0#32), false, false⟩), false⟩ := by
  have hvalue : x.setWidth 64 &&& (if negate then ~~~(y.setWidth 64) else y.setWidth 64) =
      (x &&& (if negate then ~~~y else y)).setWidth 64 := by
    apply BitVec.eq_of_getLsbD_eq
    intro i hi
    cases negate <;> by_cases h : i < 32 <;> simp [h, hi]
    exact fun hx => absurd (hx.symm.trans (BitVec.getLsbD_of_ge x i (by omega))) (by decide)
  have hsign : ∀ z : BitVec 32, (z.setWidth 64).msb = false := by
    intro z
    rw [BitVec.msb_eq_getLsbD_last, BitVec.getLsbD_setWidth, BitVec.getLsbD_of_ge z _ (by omega), Bool.and_false]
  have hzero : ∀ z : BitVec 32, z.setWidth 64 = 0#64 ↔ z = 0#32 := by
    intro z
    rw [← BitVec.toNat_inj, ← BitVec.toNat_inj, BitVec.toNat_setWidth_of_le (by omega)]
    exact Iff.rfl
  have happly : (operation (logicalType 3#32 negate)).apply [.uint64 (x.setWidth 64), .uint64 (y.setWidth 64)] =
      .ok (logicalWithFlags (x.setWidth 64 &&& (if negate then ~~~(y.setWidth 64) else y.setWidth 64))) := by
    cases negate <;> rfl
  rw [happly, hvalue]
  generalize x &&& (if negate then ~~~y else y) = z
  simp only [logicalWithFlags, and_topBit_ne_zero_iff, hsign, hzero, nzcvBits, decide_eq_true_eq, Bool.false_eq_true,
    if_false]

/-- The patched flags of a word that is extended by zeros. -/
theorem patched_word (z : BitVec 32) :
    patched ⟨false, decide (z = 0#32), false, false⟩ (z.setWidth 64) = ⟨z.msb, decide (z = 0#32), false, false⟩ := by
  have hz := z.isLt
  have htop : ¬z.setWidth 64 >>> 32 = 1#64 := by
    rw [← BitVec.toNat_inj, BitVec.toNat_ushiftRight, BitVec.toNat_setWidth_of_le (by omega),
      Nat.shiftRight_eq_div_pow, BitVec.toNat_ofNat]
    omega
  have hcut : (z.setWidth 64).setWidth 32 = z := by
    rw [BitVec.setWidth_setWidth_of_le _ (by omega), BitVec.setWidth_eq]
  rw [patched_eq, hcut, Bool.or_self, decide_eq_false htop, Bool.or_false]

/-! ## All forms -/

theorem overflow_eq_iff (x y : BitVec 32) (c : Bool) :
    { flags x y c with v := false } = flags x y c ↔ Representable 32 (signedSum x y c) := by
  rw [Flags.ext_iff]
  simp [flags]

theorem overflow_carry_eq_iff (sub : Bool) (x y : BitVec 32) :
    { flags x (addend32 sub y) sub with
        c := sub && decide (2 ^ 32 ≤ unsignedSum x (addend32 sub y) sub), v := false } =
        flags x (addend32 sub y) sub ↔
      Representable 32 (signedSum x (addend32 sub y) sub) ∧ ¬(sub = false ∧ 2 ^ 32 ≤ unsignedSum x y false) := by
  rw [Flags.ext_iff]
  cases sub with
  | false => simp [flags, addend32, and_comm]
  | true => simp [flags]

/-- **The flags of the 32-bit forms**: what the actions leave in the condition register are the
    flags of the 32-bit operation exactly when there is no signed overflow, the form does not use
    a carry, and an addition whose result was written back first has produced none. -/
theorem writtenFlags_eq_arm_iff (form : FlagForm) (wroteBack : Bool) (env : Env) (src : WordSources) (s : Store) :
    writtenFlags form wroteBack env src s = some (armFlags form env src) ↔ WordFlagsRight form wroteBack src := by
  cases form with
  | addSub sub =>
    rw [writtenFlags_of_execute wroteBack rfl rfl rfl (addSub_eq sub _ _ none), Option.some.injEq]
    cases wroteBack with
    | false =>
      rw [if_neg Bool.false_ne_true, carryIn, Option.getD_none, patched_sum]
      simp only [armFlags, WordFlagsRight, overflow_eq_iff, Bool.false_eq_true, false_and, and_false, not_false_eq_true,
        and_true]
    | true =>
      rw [if_pos rfl, carryIn, Option.getD_none, patched_masked_sum]
      simp only [armFlags, WordFlagsRight, overflow_carry_eq_iff, true_and]
  | carry sub =>
    rw [writtenFlags_carry]
    exact iff_of_false (by simp) id
  | logical negate =>
    rw [writtenFlags_of_execute wroteBack rfl rfl rfl (apply_logical negate _ _), widthMask_setWidth, ite_self,
      patched_word]
    exact iff_of_true rfl trivial
  | compare sub =>
    rw [writtenFlags_compare, Option.some.injEq, patched_sum]
    dsimp only [armFlags, WordFlagsRight]
    cases armConditionHolds (flagsOf (src.pstate.setWidth 32)) src.cond with
    | false => exact iff_of_true rfl (fun h => absurd h Bool.false_ne_true)
    | true =>
      rw [if_pos rfl, if_pos rfl, overflow_eq_iff]
      exact ⟨fun h _ => h, fun h => h rfl⟩

/-- The greatest signed word plus one overflows. The sum of the greatest word and one produces a
    carry, which is lost once the result has been written back. -/
theorem not_writtenFlags_eq_arm :
    let env : Env := ⟨fun _ => 0, fun _ => (1, 0), fun _ => 0#64, 0#32, 0#64⟩
    let s : Store := ⟨fun _ => none, fun _ => none⟩
    let src (x : BitVec 32) : WordSources := ⟨x, 1#32, 0#64, 0#4, 0#4, ⟨.xRegisters, 0⟩, ⟨.ccBits, 0⟩⟩
    writtenFlags (.addSub false) false env (src 0x7FFFFFFF#32) s ≠
        some (armFlags (.addSub false) env (src 0x7FFFFFFF#32)) ∧
      writtenFlags (.addSub false) true env (src 0xFFFFFFFF#32) s ≠
        some (armFlags (.addSub false) env (src 0xFFFFFFFF#32)) := by
  decide

end narmDecoder
