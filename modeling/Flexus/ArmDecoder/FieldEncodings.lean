import Flexus.ArmDecoder.Fields

/-!
# The encodings of bit fields, extracts and logical immediates

What the instructions that are built for the allocated encodings yield, and the encodings that
are not allocated.
-/

namespace narmDecoder

open SemanticInstruction

attribute [local simp] build addExecute addExecuteOn newAction pushDependances dependance addNewComponent addRead
  addReadConstant addReadXRegister readRegister connect connectDependance addDestination addWriteback
  connectWriteback addAnnulment addSetCC addFlagsDestination setOperand addDispatchEffect addDispatchAction
  retirementDependance assert StateT.run bind StateT.bind Except.bind get getThe MonadStateOf.get StateT.get modify
  modifyGet MonadStateOf.modifyGet StateT.modifyGet pure StateT.pure Except.pure liftM monadLift
  MonadLift.monadLift StateT.lift noDeps depsAt operandCodes new

/-- The value of a register operand is what the decoder has read into its slot. -/
theorem operandValue_read (env : Env) (sf : Bool) (r : BitVec 32) :
    (r = 31#32 → 0#64 = operandValue env sf r) ∧
      (r ≠ 31#32 → widthMask sf (env.readRegister (env.mapped ⟨.xRegisters, r.toNat⟩)) = operandValue env sf r) :=
  ⟨fun h => (if_pos h).symm, fun h => (if_neg h).symm⟩

/-! ## Extracts -/

theorem extract_fits {inst : SemanticInstruction} {env : Env} {sf : Bool} {high low : BitVec 64} {lsb : Nat}
    (hlsb : lsb < datasize sf) :
    (Action.extract .kOperand1 .kOperand2 .kOperand3 sf).Fits env
      (resultFacts inst env sf high low (BitVec.ofNat 64 lsb) (armExtract sf high low lsb)) := by
  refine ⟨rfl, rfl, rfl, ?_⟩
  intro src src2 imm (hsrc : src = high) (hsrc2 : src2 = low) (himm : imm = BitVec.ofNat 64 lsb)
  rw [hsrc, hsrc2, himm]
  exact extractValue_eq sf high low hlsb

theorem ror_fits {inst : SemanticInstruction} {env : Env} {sf : Bool} {src c : BitVec 64} {lsb : Nat}
    (hlsb : lsb < datasize sf) :
    (Action.ror .kOperand1 .kOperand2 sf).Fits env
      (resultFacts inst env sf src (BitVec.ofNat 64 lsb) c (armExtract sf src src lsb)) := by
  refine ⟨rfl, rfl, ?_⟩
  intro src' imm (hsrc : src' = src) (himm : imm = BitVec.ofNat 64 lsb)
  rw [hsrc, himm]
  exact extractValue_eq sf src src hlsb

theorem setWidth_eq_ofNat (v : BitVec 32) : v.setWidth 64 = BitVec.ofNat 64 v.toNat := by
  apply BitVec.eq_of_toNat_eq
  rw [BitVec.toNat_setWidth, BitVec.toNat_ofNat]

theorem not_bitsize_le {sf : Bool} {v : BitVec 32} (h : v.toNat < datasize sf) : ¬bitsize sf ≤ v := by
  rw [BitVec.le_def]
  cases sf
  · exact Nat.not_le.mpr h
  · exact Nat.not_le.mpr h

theorem EXTR_yields (op : BitVec 32) (env : Env) (hsf : bit op 31 = bit op 22) (hop21 : extract32 op 29 2 = 0#32)
    (hop0 : bit op 21 = false) (himm : (extract32 op 10 6).toNat < datasize (bit op 31)) :
    ∃ inst, EXTR op = .ok (some inst) ∧
      inst.Yields env (bit op 31) (some (env.created ⟨.xRegisters, (extract32 op 0 5).toNat⟩))
        (armExtract (bit op 31) (operandValue env (bit op 31) (extract32 op 5 5))
          (operandValue env (bit op 31) (extract32 op 16 5)) (extract32 op 10 6).toNat) := by
  have halloc : ¬(bit op 31 ≠ bit op 22 ∨ extract32 op 29 2 ≠ 0#32 ∨ bit op 21 = true ∨
      bitsize (bit op 31) ≤ extract32 op 10 6) := by
    rintro (h | h | h | h)
    · exact h hsf
    · exact h hop21
    · rw [hop0] at h
      cases h
    · exact not_bitsize_le himm h
  unfold EXTR
  dsimp only
  rw [if_neg halloc]
  generalize extract32 op 0 5 = rd
  generalize extract32 op 5 5 = rn
  generalize extract32 op 16 5 = rm
  generalize bit op 31 = sf at himm ⊢
  generalize extract32 op 10 6 = imm at himm ⊢
  have himm64 := setWidth_eq_ofNat imm
  have hx := operandValue_read env sf rn
  have hy := operandValue_read env sf rm
  by_cases hsame : rn = rm
  · subst hsame
    generalize operandValue env sf rn = x at hx
    rw [if_pos rfl]
    by_cases hn : rn = 31#32 <;> simp [hn]
    all_goals
      apply yields_of_check (a := x) (b := BitVec.ofNat 64 imm.toNat) (c := 0#64) [1, 0, 0, 2] rfl rfl
      · intro comp hcomp hpred
        fin_cases hcomp
        · exact ror_fits himm
        · first
            | exact ⟨rfl, hx.1 hn⟩
            | exact ⟨rfl, rfl, hx.2 hn⟩
        · exact ⟨rfl, himm64⟩
        · exact writeback_fits rfl
        · cases hpred
      · rfl
      · rintro _ ⟨⟩
        exact ⟨rfl, 3, rfl, _, rfl, rfl⟩
  · generalize operandValue env sf rn = x at hx
    generalize operandValue env sf rm = y at hy
    rw [if_neg hsame]
    by_cases hn : rn = 31#32 <;> by_cases hm : rm = 31#32 <;> simp [hn, hm]
    all_goals
      apply yields_of_check (a := x) (b := y) (c := BitVec.ofNat 64 imm.toNat) [1, 0, 0, 0, 2] rfl rfl
      · intro comp hcomp hpred
        fin_cases hcomp
        · exact extract_fits himm
        · first
            | exact ⟨rfl, hx.1 hn⟩
            | exact ⟨rfl, rfl, hx.2 hn⟩
        · first
            | exact ⟨rfl, hy.1 hm⟩
            | exact ⟨rfl, rfl, hy.2 hm⟩
        · exact ⟨rfl, himm64⟩
        · exact writeback_fits rfl
        · cases hpred
      · rfl
      · rintro _ ⟨⟩
        exact ⟨rfl, 4, rfl, _, rfl, rfl⟩

/-! ## Bit-field moves -/

/-- A mask that is cut to the width of the operands keeps its bits below. -/
theorem getLsbD_cut (sf : Bool) (m : BitVec 64) {i : Nat} (hi : i < datasize sf) :
    (if sf then m else m &&& 0xffffffff#64).getLsbD i = m.getLsbD i := by
  cases sf with
  | true => rfl
  | false =>
    have hall : ∀ i < 32, (0xffffffff#64).getLsbD i = true := by decide
    rw [if_neg Bool.false_ne_true, BitVec.getLsbD_and, hall i hi, Bool.and_true]

theorem bitField_fits {inst : SemanticInstruction} {env : Env} {sf extend : Bool} {w t : Nat → Bool}
    {wmask tmask x y c : BitVec 64} {S R : Nat} (hS : S < datasize sf) (hR : R < datasize sf)
    (hw : ∀ i < datasize sf, wmask.getLsbD i = w i) (ht : ∀ i < datasize sf, tmask.getLsbD i = t i)
    (hx : ∀ i, datasize sf ≤ i → x.getLsbD i = false) :
    (Action.bitField .kOperand1 .kOperand2 (BitVec.ofNat 64 S) (BitVec.ofNat 64 R) wmask tmask extend sf).Fits env
      (resultFacts inst env sf x y c (armBitField sf extend w t S R x y)) := by
  refine ⟨rfl, rfl, ?_⟩
  intro src dst (hsrc : src = x) (hdst : dst = y)
  obtain ⟨res, hres, hbits⟩ := ror_bits hR hx
  rw [hsrc, hdst]
  exact ⟨res, hres, bitFieldValue_eq hS hw ht hbits⟩

theorem toNat_bit (op : BitVec 32) (start : Nat) : (extract32 op start 1).toNat = (bit op start).toNat := by
  have hlt : (extract32 op start 1).toNat < 2 ^ 1 := extract32_lt op start (by omega)
  have hzero : extract32 op start 1 = 0#32 ↔ (extract32 op start 1).toNat = 0 := by
    rw [← BitVec.toNat_inj]
    exact Iff.rfl
  by_cases h : extract32 op start 1 = 0#32
  · rw [bit, h]
    rfl
  · have hone : (extract32 op start 1).toNat = 1 := by
      have hne : (extract32 op start 1).toNat ≠ 0 := fun hcontra => h (hzero.mpr hcontra)
      omega
    rw [hone, bit, decide_eq_true h]
    rfl

/-- The masks of an encoding. -/
theorem masks_of_fields (op : BitVec 32) (immediate : Bool) :
    match decodeBitMasks (bit op 22).toNat (extract32 op 10 6).toNat (extract32 op 16 6).toNat immediate with
    | none => logic_imm_decode_wmask (extract32 op 22 1) (extract32 op 10 6) (extract32 op 16 6) immediate = .ok none
    | some (w, t) => ∃ wmask tmask,
        logic_imm_decode_wmask (extract32 op 22 1) (extract32 op 10 6) (extract32 op 16 6) immediate =
          .ok (some (wmask, tmask)) ∧
        (∀ i < 64, wmask.getLsbD i = w i) ∧ ∀ i < 64, tmask.getLsbD i = t i := by
  rw [← toNat_bit]
  exact logic_imm_decode_wmask_spec (extract32_lt op 22 (by omega)) (extract32_lt op 10 (by omega))
    (extract32_lt op 16 (by omega)) immediate

theorem BFM_yields (op : BitVec 32) (env : Env) (hsf : bit op 31 = bit op 22) (hopc : extract32 op 29 2 ≠ 3#32)
    (hs : (extract32 op 10 6).toNat < datasize (bit op 31)) (hr : (extract32 op 16 6).toNat < datasize (bit op 31))
    {w t : Nat → Bool} (hmasks : decodeBitMasks (bit op 22).toNat (extract32 op 10 6).toNat (extract32 op 16 6).toNat
      false = some (w, t)) :
    ∃ inst, BFM op = .ok (some inst) ∧
      inst.Yields env (bit op 31) (some (env.created ⟨.xRegisters, (extract32 op 0 5).toNat⟩))
        (armBitField (bit op 31) (extract32 op 29 2 = 0#32) w t (extract32 op 10 6).toNat (extract32 op 16 6).toNat
          (operandValue env (bit op 31) (extract32 op 5 5))
          (if extract32 op 29 2 = 1#32 then operandValue env (bit op 31) (extract32 op 0 5) else 0#64)) := by
  have hfields := masks_of_fields op false
  rw [hmasks] at hfields
  obtain ⟨wmask, tmask, hdecode, hw, ht⟩ := hfields
  have hopc' : ¬2#32 < extract32 op 29 2 := by
    have hlt : (extract32 op 29 2).toNat < 2 ^ 2 := extract32_lt op 29 (by omega)
    rw [ne_eq, ← BitVec.toNat_inj, BitVec.toNat_ofNat] at hopc
    rw [BitVec.lt_def, BitVec.toNat_ofNat]
    omega
  have halloc : ¬(bit op 31 ≠ bit op 22 ∨ bitsize (bit op 31) ≤ extract32 op 16 6 ∨
      bitsize (bit op 31) ≤ extract32 op 10 6 ∨ 2#32 < extract32 op 29 2) := by
    rintro (h | h | h | h)
    · exact h hsf
    · exact not_bitsize_le hr h
    · exact not_bitsize_le hs h
    · exact hopc' h
  unfold BFM
  dsimp only
  rw [if_neg halloc, hdecode]
  have hx := operandValue_read env (bit op 31) (extract32 op 5 5)
  have hd := operandValue_read env (bit op 31) (extract32 op 0 5)
  have hbits := fun i => getLsbD_operandValue env (bit op 31) (extract32 op 5 5) (i := i)
  have hcut := fun i => getLsbD_cut (bit op 31) wmask (i := i)
  have hle := datasize_le (bit op 31)
  generalize operandValue env (bit op 31) (extract32 op 5 5) = x at hx hbits ⊢
  generalize operandValue env (bit op 31) (extract32 op 0 5) = z at hd ⊢
  generalize extract32 op 0 5 = rd at *
  generalize extract32 op 5 5 = rn at *
  generalize extract32 op 10 6 = imms at *
  generalize extract32 op 16 6 = immr at *
  generalize extract32 op 29 2 = opc at *
  generalize bit op 31 = sf at *
  have hy : (opc = 1#32 → z = if opc = 1#32 then z else 0#64) ∧ (opc ≠ 1#32 → 0#64 = if opc = 1#32 then z else 0#64) :=
    ⟨fun h => (if_pos h).symm, fun h => (if_neg h).symm⟩
  generalize (if opc = 1#32 then z else 0#64) = y at hy ⊢
  generalize decide (opc = 0#32) = extend
  have hfits : ∀ inst, (Action.bitField .kOperand1 .kOperand2 (imms.setWidth 64) (immr.setWidth 64)
      (if sf then wmask else wmask &&& 0xffffffff#64) tmask extend sf).Fits env
      (resultFacts inst env sf x y 0#64 (armBitField sf extend w t imms.toNat immr.toNat x y)) := by
    intro inst
    rw [setWidth_eq_ofNat, setWidth_eq_ofNat]
    exact bitField_fits hs hr (fun i hi => (hcut i hi).trans (hw i (by omega))) (fun i hi => ht i (by omega)) hbits
  generalize armBitField sf extend w t imms.toNat immr.toNat x y = v at hfits ⊢
  by_cases hn : rn = 31#32 <;> by_cases hone : opc = 1#32 <;> by_cases hd31 : rd = 31#32 <;> simp [hn, hone, hd31]
  all_goals
    apply yields_of_check (a := x) (b := y) (c := 0#64) [1, 0, 0, 2] rfl rfl
    · intro comp hcomp hpred
      fin_cases hcomp
      · exact hfits _
      · first
          | exact ⟨rfl, hx.1 hn⟩
          | exact ⟨rfl, rfl, hx.2 hn⟩
      · first
          | exact ⟨rfl, hy.2 hone⟩
          | exact ⟨rfl, (hd.1 hd31).trans (hy.1 hone)⟩
          | exact ⟨rfl, rfl, (hd.2 hd31).trans (hy.1 hone)⟩
      · exact writeback_fits rfl
      · cases hpred
    · rfl
    · rintro _ ⟨⟩
      exact ⟨rfl, 3, rfl, _, rfl, rfl⟩

/-! ## Logical immediates -/

/-- The operation of a logical immediate computes the architecture's result. -/
theorem apply_logicalImm (sf : Bool) (opc : BitVec 32) {w : Nat → Bool} {x wmask : BitVec 64}
    (hw : ∀ i < datasize sf, wmask.getLsbD i = w i) :
    ∃ y nzcv, (operation (logicalImmType opc)).apply [.uint64 x, .uint64 wmask] = .ok ⟨.uint64 y, nzcv, false⟩ ∧
      widthMask sf y = armLogical sf opc w x ∧ ((operation (logicalImmType opc)).setsFlags = true → nzcv.isSome = true) := by
  unfold logicalImmType armLogical
  generalize opc.toNat = k
  match k with
  | 0 =>
    refine ⟨_, _, rfl, ?_, fun h => (by cases h)⟩
    apply eq_wordWhere
    intro i hi
    rw [BitVec.getLsbD_and, hw i hi]
    rfl
  | 1 =>
    refine ⟨_, _, rfl, ?_, fun h => (by cases h)⟩
    apply eq_wordWhere
    intro i hi
    rw [BitVec.getLsbD_or, hw i hi]
    rfl
  | 2 =>
    refine ⟨_, _, rfl, ?_, fun h => (by cases h)⟩
    apply eq_wordWhere
    intro i hi
    rw [BitVec.getLsbD_xor, hw i hi]
    rfl
  | k + 3 =>
    refine ⟨_, _, rfl, ?_, fun _ => rfl⟩
    apply eq_wordWhere
    intro i hi
    rw [BitVec.getLsbD_and, hw i hi]
    rfl

theorem logical_fits {inst : SemanticInstruction} {env : Env} {sf : Bool} (opc : BitVec 32) {w : Nat → Bool}
    {x wmask c : BitVec 64} (hw : ∀ i < datasize sf, wmask.getLsbD i = w i) :
    (Action.execute (operation (logicalImmType opc)) [.kOperand1, .kOperand2] .kResult).Fits env
      (resultFacts inst env sf x wmask c (armLogical sf opc w x)) := by
  refine ⟨?_, rfl, ?_⟩
  · intro code hcode
    fin_cases hcode <;> rfl
  · intro xs hxs
    match xs, hxs with
    | [src, imm], .cons hsrc (.cons himm .nil) =>
      have hsrc : src = x := hsrc
      have himm : imm = wmask := himm
      obtain ⟨y, nzcv, happly, hy, hsets⟩ := apply_logicalImm sf opc (x := x) hw
      rw [hsrc, himm]
      exact ⟨y, nzcv, happly, hy, fun _ _ => trivial, hsets⟩

theorem LOGICALIMM_yields (op : BitVec 32) (env : Env) {w t : Nat → Bool}
    (hmasks : decodeBitMasks (bit op 22).toNat (extract32 op 10 6).toNat (extract32 op 16 6).toNat true = some (w, t)) :
    ∃ inst, LOGICALIMM op = .ok (some inst) ∧
      inst.Yields env (bit op 31) (FieldGroup.destination .logical op env)
        (armLogical (bit op 31) (extract32 op 29 2) w (operandValue env (bit op 31) (extract32 op 5 5))) := by
  have hfields := masks_of_fields op true
  rw [hmasks] at hfields
  obtain ⟨wmask, tmask, hdecode, hw, -⟩ := hfields
  unfold LOGICALIMM FieldGroup.destination
  dsimp only
  rw [hdecode]
  have hx := operandValue_read env (bit op 31) (extract32 op 5 5)
  have hcut := fun i => getLsbD_cut (bit op 31) wmask (i := i)
  have hle := datasize_le (bit op 31)
  generalize operandValue env (bit op 31) (extract32 op 5 5) = x at hx ⊢
  generalize extract32 op 0 5 = rd at *
  generalize extract32 op 5 5 = rn at *
  generalize extract32 op 29 2 = opc at *
  generalize bit op 31 = sf at *
  have hfits : ∀ inst, (Action.execute (operation (logicalImmType opc)) [.kOperand1, .kOperand2] .kResult).Fits env
      (resultFacts inst env sf x (if sf then wmask else wmask &&& 0xffffffff#64) 0#64 (armLogical sf opc w x)) :=
    fun inst => logical_fits opc fun i hi => (hcut i hi).trans (hw i (by omega))
  generalize armLogical sf opc w x = v at hfits ⊢
  by_cases hopc : opc = 3#32
  · subst hopc
    by_cases hd : rd = 31#32 <;> by_cases hn : rn = 31#32 <;> simp [hd, hn]
    all_goals
      apply yields_of_check (a := x) (b := if sf then wmask else wmask &&& 0xffffffff#64) (c := 0#64)
        [1, 0, 0, 2, 0, 2] rfl rfl
      · intro comp hcomp hpred
        fin_cases hcomp
        · exact hfits _
        · first
            | exact ⟨rfl, hx.1 hn⟩
            | exact ⟨rfl, rfl, hx.2 hn⟩
        · exact ⟨rfl, rfl⟩
        all_goals
          first
            | exact writeback_fits rfl
            | exact writecc_fits rfl rfl
            | cases hpred
      · rfl
      · rintro _ ⟨⟩
        try exact ⟨rfl, 3, rfl, _, rfl, rfl⟩
  · generalize operation (logicalImmType opc) = log at hfits ⊢
    by_cases hn : rn = 31#32 <;> simp [hn, hopc]
    all_goals
      apply yields_of_check (a := x) (b := if sf then wmask else wmask &&& 0xffffffff#64) (c := 0#64)
        [1, 0, 0, 2] rfl rfl
      · intro comp hcomp hpred
        fin_cases hcomp
        · exact hfits _
        · first
            | exact ⟨rfl, hx.1 hn⟩
            | exact ⟨rfl, rfl, hx.2 hn⟩
        · exact ⟨rfl, rfl⟩
        · exact writeback_fits rfl
        · cases hpred
      · rfl
      · rintro _ ⟨⟩
        exact ⟨rfl, 3, rfl, _, rfl, rfl⟩

/-! ## All encodings -/

/-- The reserved immediates are rejected. -/
theorem LOGICALIMM_none {op : BitVec 32} (hmasks : decodeBitMasks (bit op 22).toNat (extract32 op 10 6).toNat
    (extract32 op 16 6).toNat true = none) : LOGICALIMM op = .ok none := by
  have hfields := masks_of_fields op true
  rw [hmasks] at hfields
  unfold LOGICALIMM
  dsimp only
  rw [hfields]
  rfl

theorem BFM_none {op : BitVec 32} (hmasks : decodeBitMasks (bit op 22).toNat (extract32 op 10 6).toNat
    (extract32 op 16 6).toNat false = none) : BFM op = .ok none := by
  have hfields := masks_of_fields op false
  rw [hmasks] at hfields
  unfold BFM
  dsimp only
  split
  · rfl
  · rw [hfields]
    rfl

/-- With `N` set the element has 64 bits, and only the run of 64 ones is reserved. -/
theorem decodeBitMasks_of_N (immr : Nat) {imms : Nat} (h : imms < 64) :
    decodeBitMasks 1 imms immr true = none ↔ imms = 63 := by
  have hlog : Nat.log2 (1 * 64 + (63 - imms)) = 6 := by
    rw [Nat.log2_eq_iff (by omega)]
    omega
  have hlarge : ¬1 * 64 + (63 - imms) < 2 := by omega
  unfold decodeBitMasks
  simp only [hlog, if_neg hlarge]
  split
  · next hres =>
    refine iff_of_true rfl ?_
    omega
  · next hres =>
    refine iff_of_false (by simp) ?_
    intro hlast
    apply hres
    rw [hlast]
    exact ⟨trivial, rfl⟩

/-- The immediates of 64-bit elements that the decoder accepts in a 32-bit operation. -/
def WideImmediate (group : FieldGroup) (op : BitVec 32) : Prop :=
  group = .logical ∧ bit op 31 = false ∧ bit op 22 = true ∧ extract32 op 10 6 ≠ 63#32

instance (group : FieldGroup) (op : BitVec 32) : Decidable (WideImmediate group op) :=
  inferInstanceAs (Decidable (_ ∧ _))

/-- The fields that are too large for a 32-bit operand. -/
theorem bitsize_le_iff (sf : Bool) {v : BitVec 32} (hv : v.toNat < 64) :
    bitsize sf ≤ v ↔ sf = false ∧ 32 ≤ v.toNat := by
  rw [BitVec.le_def]
  cases sf with
  | false => exact (and_iff_right rfl).symm
  | true => exact iff_of_false (Nat.not_le.mpr hv) (fun h => by cases h.1)

theorem lt_datasize_iff (sf : Bool) {v : BitVec 32} (hv : v.toNat < 64) :
    v.toNat < datasize sf ↔ ¬(sf = false ∧ 32 ≤ v.toNat) := by
  cases sf with
  | false =>
    rw [datasize, if_neg Bool.false_ne_true, and_iff_right rfl, not_le]
  | true => exact iff_of_true hv (fun h => by cases h.1)

theorem bitField_conforms (op : BitVec 32) : FieldGroup.bitField.Conforms op := by
  intro env
  have hs : (extract32 op 10 6).toNat < 2 ^ 6 := extract32_lt op 10 (by omega)
  have hr : (extract32 op 16 6).toNat < 2 ^ 6 := extract32_lt op 16 (by omega)
  dsimp only [FieldGroup.armResult, FieldGroup.decode]
  by_cases hnone : extract32 op 29 2 = 3#32 ∨ bit op 31 ≠ bit op 22 ∨
      ((!bit op 31) = true ∧ (32 ≤ (extract32 op 16 6).toNat ∨ 32 ≤ (extract32 op 10 6).toNat))
  · rw [if_pos hnone]
    unfold BFM
    dsimp only
    rw [if_pos]
    · rfl
    rcases hnone with hopc | hsf | ⟨hsf, hr' | hs'⟩
    · rw [hopc]
      exact Or.inr (Or.inr (Or.inr (by decide)))
    · exact Or.inl hsf
    · exact Or.inr (Or.inl ((bitsize_le_iff _ hr).mpr ⟨by simpa using hsf, hr'⟩))
    · exact Or.inr (Or.inr (Or.inl ((bitsize_le_iff _ hs).mpr ⟨by simpa using hsf, hs'⟩)))
  · rw [if_neg hnone]
    rw [not_or, not_or, not_and, not_or] at hnone
    obtain ⟨hopc, hsf, hfields⟩ := hnone
    cases hmasks : decodeBitMasks (bit op 22).toNat (extract32 op 10 6).toNat (extract32 op 16 6).toNat false with
    | none => exact BFM_none hmasks
    | some masks =>
      obtain ⟨w, t⟩ := masks
      apply BFM_yields op env (not_not.mp hsf) hopc _ _ hmasks
      · exact (lt_datasize_iff _ hs).mpr fun h => (hfields (by simpa using h.1)).2 h.2
      · exact (lt_datasize_iff _ hr).mpr fun h => (hfields (by simpa using h.1)).1 h.2

theorem extract_conforms (op : BitVec 32) : FieldGroup.extract.Conforms op := by
  intro env
  have hs : (extract32 op 10 6).toNat < 2 ^ 6 := extract32_lt op 10 (by omega)
  dsimp only [FieldGroup.armResult, FieldGroup.decode]
  by_cases hnone : extract32 op 29 2 ≠ 0#32 ∨ bit op 21 = true ∨ bit op 31 ≠ bit op 22 ∨
      ((!bit op 31) = true ∧ 32 ≤ (extract32 op 10 6).toNat)
  · rw [if_pos hnone]
    unfold EXTR
    dsimp only
    rw [if_pos]
    · rfl
    rcases hnone with hop21 | hop0 | hsf | ⟨hsf, hs'⟩
    · exact Or.inr (Or.inl hop21)
    · exact Or.inr (Or.inr (Or.inl hop0))
    · exact Or.inl hsf
    · exact Or.inr (Or.inr (Or.inr ((bitsize_le_iff _ hs).mpr ⟨by simpa using hsf, hs'⟩)))
  · rw [if_neg hnone]
    rw [not_or, not_or, not_or, not_and] at hnone
    obtain ⟨hop21, hop0, hsf, hfields⟩ := hnone
    apply EXTR_yields op env (not_not.mp hsf) (not_not.mp hop21) (Bool.eq_false_iff.mpr hop0)
    exact (lt_datasize_iff _ hs).mpr fun h => hfields (by simpa using h.1) h.2

theorem logical_conforms_iff (op : BitVec 32) : FieldGroup.logical.Conforms op ↔ ¬WideImmediate .logical op := by
  have hs : (extract32 op 10 6).toNat < 2 ^ 6 := extract32_lt op 10 (by omega)
  have hlast : extract32 op 10 6 = 63#32 ↔ (extract32 op 10 6).toNat = 63 := by
    rw [← BitVec.toNat_inj]
    exact Iff.rfl
  dsimp only [FieldGroup.Conforms, FieldGroup.armResult, FieldGroup.decode]
  by_cases hwide : (!bit op 31) = true ∧ bit op 22 = true
  · have hsf : bit op 31 = false := by simpa using hwide.1
    have hmasks := decodeBitMasks_of_N (extract32 op 16 6).toNat hs
    constructor
    · rintro hall ⟨-, -, -, hne⟩
      cases hdecode : decodeBitMasks 1 (extract32 op 10 6).toNat (extract32 op 16 6).toNat true with
      | none => exact hne (hlast.mpr (hmasks.mp hdecode))
      | some masks =>
        obtain ⟨w, t⟩ := masks
        let env : Env := ⟨fun _ => 0, fun _ => (1, 0), fun _ => 0#64, 0#32, 0#64⟩
        have hnone := hall env
        rw [if_pos hwide] at hnone
        have hone : (bit op 22).toNat = 1 := by rw [hwide.2]; rfl
        obtain ⟨inst, hinst, -⟩ := LOGICALIMM_yields op env (w := w) (t := t) (by rw [hone, hdecode])
        rw [hinst] at hnone
        cases hnone
    · intro hnot env
      have hnarrow : extract32 op 10 6 = 63#32 := by
        by_contra hne
        exact hnot ⟨rfl, hsf, hwide.2, hne⟩
      rw [if_pos hwide]
      apply LOGICALIMM_none
      rw [hwide.2]
      exact hmasks.mpr (hlast.mp hnarrow)
  · refine iff_of_true (fun env => ?_) (fun h => hwide ⟨by rw [h.2.1]; rfl, h.2.2.1⟩)
    rw [if_neg hwide]
    cases hmasks : decodeBitMasks (bit op 22).toNat (extract32 op 10 6).toNat (extract32 op 16 6).toNat true with
    | none => exact LOGICALIMM_none hmasks
    | some masks =>
      obtain ⟨w, t⟩ := masks
      exact LOGICALIMM_yields op env hmasks

end narmDecoder
