import Flexus.Lib.SignedDivision
import Flexus.ArmDecoder.Extend

/-!
# Products, quotients and `EON`

The operations of two operands against what the architecture computes from the numbers that
the operands stand for. The products are right. `SDiv` divides unsigned numbers, and `EoN` is
an OR with the complement instead of an exclusive one.
-/

namespace narmDecoder

open Extension SignedDivision

/-- The number of the low word of a register. -/
def lowWord (x : BitVec 64) : BitVec 32 := x.setWidth 32

/-- What the architecture computes from two operands. -/
def armBinary : eOpType → Option (BitVec 64 → BitVec 64 → BitVec 64)
  | .kUMulH_ => some fun x y => BitVec.ofNat 64 (x.toNat * y.toNat / 2 ^ 64)
  | .kSMulH_ => some fun x y => BitVec.ofInt 64 (x.toInt * y.toInt / 2 ^ 64)
  | .kUMulL_ => some fun x y => BitVec.ofNat 64 ((lowWord x).toNat * (lowWord y).toNat)
  | .kSMulL_ => some fun x y => BitVec.ofInt 64 ((lowWord x).toInt * (lowWord y).toInt)
  | .kUDiv_ | .kUDivX_ => some fun x y => BitVec.ofNat 64 (x.toNat / y.toNat)
  | .kSDiv_ | .kSDivX_ => some fun x y => BitVec.ofInt 64 (x.toInt.tdiv y.toInt)
  | .kEoN_ => some fun x y => x ^^^ ~~~y
  | _ => none

/-- The operands of which the operation computes it: for the signed quotients those whose
    unsigned quotient is the same, for `EoN` those without a bit in the first operand that the
    second one lacks. -/
def BinaryRight (aType : eOpType) (x y : BitVec 64) : Prop :=
  (aType = .kSDiv_ ∨ aType = .kSDivX_ → QuotientsAgree x y) ∧ (aType = .kEoN_ → x &&& ~~~y = 0#64)

instance (aType : eOpType) (x y : BitVec 64) : Decidable (BinaryRight aType x y) :=
  inferInstanceAs (Decidable (_ ∧ _))

/-! ## Products -/

theorem highHalf_ofNat (n : Nat) : highHalf (BitVec.ofNat 128 n) = BitVec.ofNat 64 (n / 2 ^ 64) := by
  apply BitVec.eq_of_toNat_eq
  rw [highHalf, BitVec.toNat_setWidth, BitVec.toNat_ushiftRight, BitVec.toNat_ofNat, BitVec.toNat_ofNat,
    Nat.shiftRight_eq_div_pow]
  omega

theorem highHalf_ofInt (i : Int) : highHalf (BitVec.ofInt 128 i) = BitVec.ofInt 64 (i / 2 ^ 64) := by
  apply BitVec.eq_of_toNat_eq
  rw [highHalf, BitVec.toNat_setWidth, BitVec.toNat_ushiftRight, BitVec.toNat_ofInt, BitVec.toNat_ofInt,
    Nat.shiftRight_eq_div_pow]
  omega

theorem low32_eq (x : BitVec 64) : low32 x = (lowWord x).setWidth 64 := by
  apply BitVec.eq_of_toNat_eq
  rw [low32, lowWord, BitVec.toNat_and, BitVec.toNat_setWidth, BitVec.toNat_setWidth]
  have hmask : (0xFFFFFFFF#64).toNat = 2 ^ 32 - 1 := rfl
  rw [hmask, Nat.and_two_pow_sub_one_eq_mod]
  omega

theorem signed32_eq (x : BitVec 64) : signed32 x = (lowWord x).signExtend 64 := by
  have hlow : (low32 x).setWidth 32 = lowWord x := by
    rw [low32_eq]
    simp
  have hbelow : (low32 x).toNat < 2 ^ 32 := by
    rw [low32_eq, BitVec.toNat_setWidth]
    omega
  have hsext : signed32 x = sext 0x80000000#64 0xFFFFFFFF00000000#64 (low32 x) := by
    unfold signed32 sext
    split <;> simp
  have hextends := sext_eq_iff (low32 x) 0x80000000#64 0xFFFFFFFF00000000#64 32 (by omega) (by decide) rfl (by decide)
  rw [hsext, hextends.mpr (Or.inl hbelow), hlow]

/-! ## The operations -/

/-- What the code computes from two operands. -/
def computed : eOpType → BitVec 64 → BitVec 64 → BitVec 64
  | .kUMulH_, x, y => highHalf (x.setWidth 128 * y.setWidth 128)
  | .kSMulH_, x, y => highHalf (x.signExtend 128 * y.signExtend 128)
  | .kUMulL_, x, y => low32 x * low32 y
  | .kSMulL_, x, y => signed32 x * signed32 y
  | .kEoN_, x, y => x ||| ~~~y
  | _, x, y => quotient x y

theorem apply_eq_computed {aType : eOpType} {f : BitVec 64 → BitVec 64 → BitVec 64} (h : armBinary aType = some f)
    (x y : BitVec 64) : (operation aType).apply [.uint64 x, .uint64 y] = .ok (plain (computed aType x y)) := by
  unfold armBinary at h
  split at h
  case h_10 => cases h
  all_goals rfl

theorem quotient_eq (x y : BitVec 64) : quotient x y = x / y := by
  unfold quotient
  split
  case isTrue h => rw [h, BitVec.udiv_zero]
  case isFalse => rfl

theorem or_not_eq_xor_not_iff (x y : BitVec 64) : x ||| ~~~y = x ^^^ ~~~y ↔ x &&& ~~~y = 0#64 := by
  constructor
  · intro h
    apply BitVec.eq_of_getLsbD_eq
    intro i hi
    have hbit := congrArg (fun v => v.getLsbD i) h
    simp only [BitVec.getLsbD_or, BitVec.getLsbD_xor] at hbit
    rw [BitVec.getLsbD_and, BitVec.getLsbD_zero]
    revert hbit
    cases x.getLsbD i <;> cases (~~~y).getLsbD i <;> decide
  · intro h
    apply BitVec.eq_of_getLsbD_eq
    intro i hi
    have hbit := congrArg (fun v => v.getLsbD i) h
    simp only [BitVec.getLsbD_and, BitVec.getLsbD_zero] at hbit
    rw [BitVec.getLsbD_or, BitVec.getLsbD_xor]
    revert hbit
    cases x.getLsbD i <;> cases (~~~y).getLsbD i <;> decide

theorem umulh_eq (x y : BitVec 64) :
    highHalf (x.setWidth 128 * y.setWidth 128) = BitVec.ofNat 64 (x.toNat * y.toNat / 2 ^ 64) := by
  rw [← BitVec.ofNat_toNat, ← BitVec.ofNat_toNat, BitVec.ofNat_mul_ofNat, highHalf_ofNat]

theorem smulh_eq (x y : BitVec 64) :
    highHalf (x.signExtend 128 * y.signExtend 128) = BitVec.ofInt 64 (x.toInt * y.toInt / 2 ^ 64) := by
  rw [BitVec.signExtend, BitVec.signExtend, ← BitVec.ofInt_mul, highHalf_ofInt]

theorem umull_eq (x y : BitVec 64) :
    low32 x * low32 y = BitVec.ofNat 64 ((lowWord x).toNat * (lowWord y).toNat) := by
  rw [low32_eq, low32_eq, ← BitVec.ofNat_toNat, ← BitVec.ofNat_toNat, BitVec.ofNat_mul_ofNat]

theorem smull_eq (x y : BitVec 64) :
    signed32 x * signed32 y = BitVec.ofInt 64 ((lowWord x).toInt * (lowWord y).toInt) := by
  rw [signed32_eq, signed32_eq, BitVec.signExtend, BitVec.signExtend, ← BitVec.ofInt_mul]

theorem udiv_eq (x y : BitVec 64) : quotient x y = BitVec.ofNat 64 (x.toNat / y.toNat) := by
  rw [quotient_eq, ← BitVec.toNat_udiv, BitVec.ofNat_toNat, BitVec.setWidth_eq]

theorem sdiv_eq_iff (x y : BitVec 64) :
    quotient x y = BitVec.ofInt 64 (x.toInt.tdiv y.toInt) ↔ QuotientsAgree x y := by
  rw [quotient_eq, ← sdiv_eq_ofInt_tdiv, udiv_eq_sdiv_iff (by omega)]

theorem computed_eq_arm_iff {aType : eOpType} {f : BitVec 64 → BitVec 64 → BitVec 64} (h : armBinary aType = some f)
    (x y : BitVec 64) : computed aType x y = f x y ↔ BinaryRight aType x y := by
  unfold armBinary at h
  split at h
  case h_1 =>
    cases h
    simpa [computed, BinaryRight] using umulh_eq x y
  case h_2 =>
    cases h
    simpa [computed, BinaryRight] using smulh_eq x y
  case h_3 =>
    cases h
    simpa [computed, BinaryRight] using umull_eq x y
  case h_4 =>
    cases h
    simpa [computed, BinaryRight] using smull_eq x y
  case h_5 | h_6 =>
    cases h
    simpa [computed, BinaryRight] using udiv_eq x y
  case h_7 | h_8 =>
    cases h
    simpa [computed, BinaryRight] using sdiv_eq_iff x y
  case h_9 =>
    cases h
    simpa [computed, BinaryRight] using or_not_eq_xor_not_iff x y
  case h_10 => cases h

/-- The products and the unsigned quotients are the architecture's for all operands, the signed
    quotients for those with the same unsigned quotient, and `EoN` for those in which the first
    operand has no bit that the second one lacks. -/
theorem binary_eq_arm_iff {aType : eOpType} {f : BitVec 64 → BitVec 64 → BitVec 64} (h : armBinary aType = some f)
    (x y : BitVec 64) :
    (operation aType).apply [.uint64 x, .uint64 y] = .ok (plain (f x y)) ↔ BinaryRight aType x y := by
  rw [apply_eq_computed h, ← computed_eq_arm_iff h, Except.ok.injEq, plain, plain, Applied.mk.injEq,
    Operand.uint64.injEq]
  simp

/-- Seven by minus eight is zero, also for unsigned numbers. -/
theorem binary_eq_arm_iff_seven :
    (operation .kSDiv_).apply [.uint64 7#64, .uint64 (-8#64)] =
      .ok (plain (BitVec.ofInt 64 ((7#64).toInt.tdiv (-8#64).toInt))) := by
  have hsdiv : armBinary .kSDiv_ = some fun x y => BitVec.ofInt 64 (x.toInt.tdiv y.toInt) := rfl
  exact (binary_eq_arm_iff hsdiv 7#64 (-8#64)).mpr (by decide)

/-- Minus two divided by two is not minus one, and the exclusive OR of one with the complement
    of zero keeps the lowest bit. -/
theorem not_binary_eq_arm :
    ∃ f g, armBinary .kSDiv_ = some f ∧ armBinary .kEoN_ = some g ∧
      (operation .kSDiv_).apply [.uint64 (-2#64), .uint64 2#64] ≠ .ok (plain (f (-2#64) 2#64)) ∧
      (operation .kEoN_).apply [.uint64 1#64, .uint64 0#64] ≠ .ok (plain (g 1#64 0#64)) := by
  refine ⟨_, _, rfl, rfl, ?_, ?_⟩
  · decide
  · decide

end narmDecoder
