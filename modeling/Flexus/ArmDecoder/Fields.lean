import Flexus.ArmDecoder.Masks
import Flexus.ArmDecoder.Results

/-!
# Bit-field moves, extracts and logical immediates

The values of the bit-field, extract and logical actions against the architecture's, bit by bit,
and the encodings that are not allocated.
-/

namespace narmDecoder

open ElementMasks

/-! ## The architecture -/

/-- The width of a register operand. -/
def datasize (sf : Bool) : Nat := if sf then 64 else 32

/-- A word of the width of the operands, given by its bits. -/
def wordWhere (sf : Bool) (p : Nat → Bool) : BitVec 64 := bitsWhere 64 fun i => decide (i < datasize sf) && p i

/-- The result of a bit-field move: the rotated source where both masks select it, above the
    destination or zeros below, and the destination, zeros or the sign around. -/
def armBitField (sf extend : Bool) (w t : Nat → Bool) (S R : Nat) (src dst : BitVec 64) : BitVec 64 :=
  wordWhere sf fun i =>
    if t i then if w i then src.getLsbD ((i + R) % datasize sf) else dst.getLsbD i
    else if extend then src.getLsbD S else dst.getLsbD i

/-- The bits from `lsb` on of two operands next to each other. -/
def armExtract (sf : Bool) (high low : BitVec 64) (lsb : Nat) : BitVec 64 :=
  wordWhere sf fun i =>
    if i + lsb < datasize sf then low.getLsbD (i + lsb) else high.getLsbD (i + lsb - datasize sf)

/-- The result of a logical operation with an immediate, by its `opc` field. -/
def armLogical (sf : Bool) (opc : BitVec 32) (w : Nat → Bool) (src : BitVec 64) : BitVec 64 :=
  wordWhere sf fun i =>
    match opc.toNat with
    | 0 => src.getLsbD i && w i
    | 1 => src.getLsbD i || w i
    | 2 => src.getLsbD i ^^ w i
    | _ => src.getLsbD i && w i

/-- The groups of encodings. -/
inductive FieldGroup where
  | bitField
  | extract
  | logical
  deriving DecidableEq, Repr

namespace FieldGroup

/-- The decoder function of a group. -/
def decode : FieldGroup → BitVec 32 → Decoded
  | bitField => BFM
  | extract => EXTR
  | logical => LOGICALIMM

/-- The architecture's result for the register operands `X`, or none where the encoding is not
    allocated. -/
def armResult (group : FieldGroup) (op : BitVec 32) (X : BitVec 32 → BitVec 64) : Option (BitVec 64) :=
  let sf := bit op 31
  let opc := extract32 op 29 2
  let n := bit op 22
  let immr := (extract32 op 16 6).toNat
  let imms := (extract32 op 10 6).toNat
  let rm := extract32 op 16 5
  let rn := extract32 op 5 5
  let rd := extract32 op 0 5
  match group with
  | bitField =>
    if opc = 3#32 ∨ sf ≠ n ∨ (!sf ∧ (32 ≤ immr ∨ 32 ≤ imms)) then none
    else (decodeBitMasks n.toNat imms immr false).map fun (w, t) =>
      armBitField sf (opc = 0#32) w t imms immr (X rn) (if opc = 1#32 then X rd else 0#64)
  | extract =>
    if opc ≠ 0#32 ∨ bit op 21 ∨ sf ≠ n ∨ (!sf ∧ 32 ≤ imms) then none
    else some (armExtract sf (X rn) (X rm) imms)
  | logical =>
    if !sf ∧ n then none
    else (decodeBitMasks n.toNat imms immr true).map fun (w, _) => armLogical sf opc w (X rn)

/-- The register that the result is written to. The flag-setting operation with the destination
    31 has none. -/
def destination (group : FieldGroup) (op : BitVec 32) (env : Env) : Option mapped_reg :=
  if group = logical ∧ extract32 op 29 2 = 3#32 ∧ extract32 op 0 5 = 31#32 then none
  else some (env.created ⟨.xRegisters, (extract32 op 0 5).toNat⟩)

/-- The decoder rejects the encoding if it is not allocated, and otherwise builds an instruction
    that completes with the architecture's result, whatever the registers hold. -/
def Conforms (group : FieldGroup) (op : BitVec 32) : Prop :=
  ∀ env, match group.armResult op (operandValue env (bit op 31)) with
    | none => group.decode op = .ok none
    | some v => ∃ inst, group.decode op = .ok (some inst) ∧
        inst.Yields env (bit op 31) (group.destination op env) v

end FieldGroup

/-! ## Words by their bits -/

theorem eq_wordWhere {sf : Bool} {x : BitVec 64} {p : Nat → Bool} (h : ∀ i < datasize sf, x.getLsbD i = p i) :
    widthMask sf x = wordWhere sf p := by
  apply eq_bitsWhere
  intro i hi
  have hmask : (widthMask sf x).getLsbD i = (decide (i < datasize sf) && x.getLsbD i) := by
    cases sf with
    | true => rw [widthMask, if_pos rfl, datasize, if_pos rfl, decide_eq_true hi, Bool.true_and]
    | false =>
      have hones : (0xffffffff#64).getLsbD i = decide (i < 32) := by
        have hall : ∀ i < 64, (0xffffffff#64).getLsbD i = decide (i < 32) := by decide
        exact hall i hi
      rw [widthMask, if_neg Bool.false_ne_true, datasize, if_neg Bool.false_ne_true, BitVec.getLsbD_and, hones,
        Bool.and_comm]
  rw [hmask]
  by_cases hlt : i < datasize sf
  · rw [decide_eq_true hlt, Bool.true_and, Bool.true_and, h i hlt]
  · rw [decide_eq_false hlt, Bool.false_and, Bool.false_and]

/-- A register operand has no bits above its width. -/
theorem getLsbD_operandValue (env : Env) (sf : Bool) (r : BitVec 32) {i : Nat} (h : datasize sf ≤ i) :
    (operandValue env sf r).getLsbD i = false := by
  unfold operandValue
  split
  · exact BitVec.getLsbD_zero
  · cases sf with
    | true => exact BitVec.getLsbD_of_ge _ _ h
    | false =>
      have hones : (0xffffffff#64).getLsbD i = false := by
        by_cases hi : i < 64
        · have hall : ∀ i < 64, 32 ≤ i → (0xffffffff#64).getLsbD i = false := by decide
          exact hall i hi h
        · exact BitVec.getLsbD_of_ge _ _ (by omega)
      rw [sourceValue, widthMask, if_neg Bool.false_ne_true, BitVec.getLsbD_and, hones, Bool.and_false]

/-! ## Rotation -/

/-- The mask of `ones` selects at least the bits below its length. -/
theorem getLsbD_ones {n : Nat} (hn : n < 64) {m : BitVec 64} (h : ones (BitVec.ofNat 64 n) = .ok m) {j : Nat}
    (hj : j < n) : m.getLsbD j = true := by
  have hall : ∀ n < 64, ∀ j < n, ((List.range n).foldl (fun tmp i => tmp ||| intBit i) 0#64).getLsbD j = true := by
    decide +kernel
  have hlen : (BitVec.ofNat 64 n).toNat = n := by
    rw [BitVec.toNat_ofNat]
    omega
  rw [ones, hlen, if_pos (by omega)] at h
  cases h
  exact hall n hn j hj

theorem datasize_le (sf : Bool) : datasize sf ≤ 64 := by
  cases sf <;> decide

theorem toNat_operandSize (sf : Bool) : (Action.operandSize sf).toNat = datasize sf := by
  cases sf <;> rfl

theorem getLsbD_sizeMask (sf : Bool) {i : Nat} (h : i < datasize sf) :
    (sizeMask (Action.operandSize sf)).getLsbD i = true := by
  cases sf with
  | true =>
    have hall : ∀ i < 64, (sizeMask (Action.operandSize true)).getLsbD i = true := by decide
    exact hall i h
  | false =>
    have hall : ∀ i < 32, (sizeMask (Action.operandSize false)).getLsbD i = true := by decide
    exact hall i h

/-- The rotation of an operand, which has no bits above its width. -/
theorem ror_bits {sf : Bool} {src : BitVec 64} {R : Nat} (hR : R < datasize sf)
    (hsrc : ∀ i, datasize sf ≤ i → src.getLsbD i = false) :
    ∃ y, ror src (Action.operandSize sf) (BitVec.ofNat 64 R) = .ok y ∧
      ∀ i < datasize sf, y.getLsbD i = src.getLsbD ((i + R) % datasize sf) := by
  have hle := datasize_le sf
  have hsize := toNat_operandSize sf
  have hassert : assert (Action.operandSize sf = 64#64 ∨ Action.operandSize sf = 32#64) = .ok () := by
    cases sf <;> rfl
  have hRnat : (BitVec.ofNat 64 R).toNat = R := by
    rw [BitVec.toNat_ofNat]
    omega
  obtain ⟨mask, hmask⟩ := ones_ok (show (BitVec.ofNat 64 R).toNat < 2 ^ 32 by omega)
  have hcount : (Action.operandSize sf - BitVec.ofNat 64 R).toNat = datasize sf - R := by
    rw [BitVec.toNat_sub, hsize, hRnat]
    omega
  refine ⟨(shl64 (src &&& mask) (Action.operandSize sf - BitVec.ofNat 64 R).toNat |||
    shr64 src (BitVec.ofNat 64 R).toNat) &&& sizeMask (Action.operandSize sf), ?_, ?_⟩
  · rw [ror, hassert, hmask]
    rfl
  intro i hi
  rw [BitVec.getLsbD_and, getLsbD_sizeMask sf hi, Bool.and_true, BitVec.getLsbD_or, hcount, hRnat, shl64, shr64,
    BitVec.getLsbD_ushiftRight, Nat.mod_eq_of_lt (show R < 64 by omega)]
  by_cases hzero : R = 0
  · subst hzero
    have hnone : mask = 0#64 := by
      cases hmask
      rfl
    rw [hnone, BitVec.and_zero, BitVec.zero_shiftLeft, BitVec.getLsbD_zero, Bool.false_or, Nat.zero_add, Nat.add_zero,
      Nat.mod_eq_of_lt hi]
  · rw [Nat.mod_eq_of_lt (show datasize sf - R < 64 by omega), BitVec.getLsbD_shiftLeft, BitVec.getLsbD_and,
      decide_eq_true (show i < 64 by omega), Bool.true_and]
    by_cases hlow : i < datasize sf - R
    · have hplace : (i + R) % datasize sf = R + i := by
        rw [Nat.mod_eq_of_lt (by omega), Nat.add_comm]
      rw [decide_eq_true hlow, Bool.not_true, Bool.false_and, Bool.false_or, hplace]
    · have hplace : (i + R) % datasize sf = i - (datasize sf - R) := by
        rw [Nat.mod_eq_sub_mod (by omega), Nat.mod_eq_of_lt (by omega)]
        omega
      have hset : mask.getLsbD (i - (datasize sf - R)) = true := getLsbD_ones (by omega) hmask (by omega)
      rw [decide_eq_false hlow, Bool.not_false, Bool.true_and, hset, Bool.and_true, hsrc (R + i) (by omega),
        Bool.or_false, hplace]

/-! ## The values of the actions -/

/-- The bits above a field that is extended by its sign. -/
theorem getLsbD_sign {sf : Bool} {src : BitVec 64} {S i : Nat} (hS : S < datasize sf) (hi : i < datasize sf) :
    (if src &&& shl64 1#64 (BitVec.ofNat 64 S).toNat ≠ 0#64 then
      if sf then BitVec.allOnes 64 else 0xFFFFFFFF#64 else 0#64).getLsbD i = src.getLsbD S := by
  have hle := datasize_le sf
  have hmask : (if sf then BitVec.allOnes 64 else 0xFFFFFFFF#64).getLsbD i = true := by
    cases sf with
    | true =>
      have hall : ∀ i < 64, (BitVec.allOnes 64).getLsbD i = true := by decide
      exact hall i hi
    | false =>
      have hall : ∀ i < 32, (0xFFFFFFFF#64).getLsbD i = true := by decide
      exact hall i hi
  rw [BitVec.toNat_ofNat, Nat.mod_eq_of_lt (show S < 2 ^ 64 by omega), shl64, Nat.mod_eq_of_lt (show S < 64 by omega)]
  by_cases hset : src.getLsbD S = true
  · rw [if_pos ((BitFields.and_bit_ne_zero_iff src (by omega)).mpr hset), hmask, hset]
  · rw [if_neg (fun h => hset ((BitFields.and_bit_ne_zero_iff src (by omega)).mp h)), BitVec.getLsbD_zero,
      Bool.eq_false_iff.mpr hset]

theorem bitFieldValue_eq {sf extend : Bool} {w t : Nat → Bool} {wmask tmask src dst res : BitVec 64} {S R : Nat}
    (hS : S < datasize sf) (hw : ∀ i < datasize sf, wmask.getLsbD i = w i)
    (ht : ∀ i < datasize sf, tmask.getLsbD i = t i)
    (hres : ∀ i < datasize sf, res.getLsbD i = src.getLsbD ((i + R) % datasize sf)) :
    widthMask sf (bitFieldValue (BitVec.ofNat 64 S) wmask tmask extend sf src dst res) =
      armBitField sf extend w t S R src dst := by
  have hle := datasize_le sf
  apply eq_wordWhere
  intro i hi
  have hi64 : i < 64 := by omega
  simp only [bitFieldValue, BitVec.getLsbD_or, BitVec.getLsbD_and, BitVec.getLsbD_not, hw i hi, ht i hi, hres i hi,
    decide_eq_true hi64, Bool.true_and]
  cases extend with
  | true =>
    rw [if_pos rfl, if_pos rfl, getLsbD_sign hS hi]
    cases t i <;> cases w i <;> simp
  | false =>
    rw [if_neg Bool.false_ne_true, if_neg Bool.false_ne_true]
    cases t i <;> cases w i <;> simp

theorem extractValue_eq (sf : Bool) (high low : BitVec 64) {lsb : Nat} (hlsb : lsb < datasize sf) :
    ∃ y, extractValue sf high low (BitVec.ofNat 64 lsb) = .ok y ∧ widthMask sf y = armExtract sf high low lsb := by
  have hle := datasize_le sf
  have hnat : (BitVec.ofNat 64 lsb).toNat = lsb := by
    rw [BitVec.toNat_ofNat]
    omega
  cases sf with
  | true =>
    refine ⟨_, rfl, ?_⟩
    apply eq_wordWhere
    intro i hi
    have hi : i < 64 := hi
    have hlsb : lsb < 64 := hlsb
    have hds : datasize true = 64 := rfl
    rw [hnat, hds, BitVec.getLsbD_setWidth, decide_eq_true hi, Bool.true_and, BitVec.getLsbD_ushiftRight,
      Nat.add_comm lsb i, concat_bits, BitVec.getLsbD_or, BitVec.getLsbD_shiftLeft, BitVec.getLsbD_setWidth,
      BitVec.getLsbD_setWidth, decide_eq_true (show i + lsb < 128 by omega), Bool.true_and, Bool.true_and]
    by_cases hlow : i + lsb < 64
    · rw [if_pos hlow, decide_eq_true hlow, Bool.not_true, Bool.false_and, Bool.false_or]
    · rw [if_neg hlow, decide_eq_false hlow, Bool.not_false, Bool.true_and,
        decide_eq_true (show i + lsb - 64 < 128 by omega), Bool.true_and, BitVec.getLsbD_of_ge low _ (by omega),
        Bool.or_false]
  | false =>
    refine ⟨_, rfl, ?_⟩
    apply eq_wordWhere
    intro i hi
    have hi : i < 32 := hi
    have hlsb : lsb < 32 := hlsb
    have hds : datasize false = 32 := rfl
    have hones : ∀ j < 64, (0xffffffff#64).getLsbD j = decide (j < 32) := by decide
    rw [hnat, hds, BitVec.getLsbD_setWidth, decide_eq_true (show i < 64 by omega), Bool.true_and,
      BitVec.getLsbD_ushiftRight, Nat.add_comm lsb i, BitVec.getLsbD_setWidth,
      decide_eq_true (show i + lsb < 128 by omega), Bool.true_and, BitVec.getLsbD_or, BitVec.getLsbD_shiftLeft,
      decide_eq_true (show i + lsb < 64 by omega), Bool.true_and, BitVec.getLsbD_and, BitVec.getLsbD_and,
      hones _ (by omega), hones _ (by omega)]
    by_cases hlow : i + lsb < 32
    · rw [if_pos hlow, decide_eq_true hlow, Bool.not_true, Bool.false_and, Bool.false_or, Bool.and_true]
    · rw [if_neg hlow, decide_eq_false hlow, Bool.not_false, Bool.true_and,
        decide_eq_true (show i + lsb - 32 < 32 by omega), Bool.and_true, Bool.and_false, Bool.or_false]

end narmDecoder
