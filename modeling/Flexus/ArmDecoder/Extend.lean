import Flexus.Lib.Extension
import Flexus.ArmDecoder.SharedFunctions

/-!
# The extension of a register

The operations that `extend` returns, against the architecture's extension of the low bits of a
register.
-/

namespace narmDecoder

open Extension

/-- The number of bits that an option extends, and whether it extends them with their sign. -/
def extendedWidth (anOption : BitVec 32) : Nat := 8 * 2 ^ (anOption.toNat % 4)

def extendsSigned (anOption : BitVec 32) : Bool := decide (4 ≤ anOption.toNat)

/-- The architecture's extension: the low bits of the register, with zeros or copies of their
    sign above them. -/
def armExtendReg (width : Nat) (signed : Bool) (x : BitVec 64) : BitVec 64 :=
  if signed then (x.setWidth width).signExtend 64 else (x.setWidth width).setWidth 64

/-- The register holds no more than the field, or the field is signed and negative. -/
def HoldsField (width : Nat) (signed : Bool) (x : BitVec 64) : Prop :=
  x.toNat < 2 ^ width ∨ (signed = true ∧ x.getLsbD (width - 1) = true)

instance (width : Nat) (signed : Bool) (x : BitVec 64) : Decidable (HoldsField width signed x) :=
  inferInstanceAs (Decidable (_ ∨ _))

/-! ## The operations -/

/-- The sign is tested with a mask that has the sign bit, and may have bits above it. -/
theorem sext_eq_iff (x signBit upper : BitVec 64) (w : Nat) (hw : 0 < w ∧ w < 64)
    (hupper : ∀ i < 64, upper.getLsbD i = decide (w ≤ i)) (hsign : signBit.getLsbD (w - 1) = true)
    (hbelow : ∀ i < w - 1, signBit.getLsbD i = false) :
    sext signBit upper x = (x.setWidth w).signExtend 64 ↔ x.toNat < 2 ^ w ∨ x.getLsbD (w - 1) = true := by
  unfold sext
  by_cases htest : x &&& signBit = 0#64
  · rw [if_neg (not_not_intro htest)]
    have hclear : x.getLsbD (w - 1) = false := by
      have hbit := congrArg (fun v => v.getLsbD (w - 1)) htest
      simpa only [BitVec.getLsbD_and, hsign, Bool.and_true, BitVec.getLsbD_zero] using hbit
    rw [eq_signExtend_of_lt x hw.1 hclear, hclear]
    simp
  · rw [if_pos htest, or_eq_signExtend_iff x hw hupper]
    refine ⟨Or.inr, ?_⟩
    rintro (hlt | hset)
    · -- The only bit that such a register and the mask can share is the sign bit.
      by_contra hclear
      apply htest
      apply BitVec.eq_of_getLsbD_eq
      intro i hi
      rw [BitVec.getLsbD_and, BitVec.getLsbD_zero]
      obtain hlow | rfl | hhigh : i < w - 1 ∨ i = w - 1 ∨ w ≤ i := by omega
      · rw [hbelow i hlow, Bool.and_false]
      · rw [Bool.eq_false_iff.mpr hclear, Bool.false_and]
      · rw [(toNat_lt_two_pow_iff x w).mp hlt i hhigh, Bool.false_and]
    · exact hset

theorem sext_eq_arm_iff (x signBit upper : BitVec 64) (w : Nat) (hw : 0 < w ∧ w < 64)
    (hupper : ∀ i < 64, upper.getLsbD i = decide (w ≤ i)) (hsign : signBit.getLsbD (w - 1) = true)
    (hbelow : ∀ i < w - 1, signBit.getLsbD i = false) :
    sext signBit upper x = armExtendReg w true x ↔ HoldsField w true x := by
  rw [armExtendReg, if_pos rfl, sext_eq_iff x signBit upper w hw hupper hsign hbelow, HoldsField]
  simp

theorem eq_armExtendReg_iff (x : BitVec 64) (w : Nat) : x = armExtendReg w false x ↔ HoldsField w false x := by
  rw [armExtendReg, if_neg Bool.false_ne_true, setWidth_setWidth_eq_iff, HoldsField]
  simp

theorem eq_armExtendReg_64 (signed : Bool) (x : BitVec 64) : x = armExtendReg 64 signed x := by
  rw [armExtendReg, BitVec.setWidth_eq, BitVec.signExtend_eq, BitVec.setWidth_eq, ite_self]

/-- The value of the operation that `extend` returns. -/
def extended (anExtend : eExtendType) (x : BitVec 64) : BitVec 64 :=
  match anExtend with
  | .kExtendType_UXTB | .kExtendType_UXTH | .kExtendType_UXTW | .kExtendType_UXTX => x
  | .kExtendType_SXTB => sext (intBit 7) SIGNED_UPPER_BOUND_B x
  | .kExtendType_SXTH => sext (intBit 15) SIGNED_UPPER_BOUND_H x
  | .kExtendType_SXTW => sext (intBit 31) SIGNED_UPPER_BOUND_W x
  | .kExtendType_SXTX => x ||| SIGNED_UPPER_BOUND_X

theorem extend_apply (anExtend : eExtendType) (x : BitVec 64) :
    (extend anExtend).apply [.uint64 x] = .ok (plain (extended anExtend x)) := by
  cases anExtend <;> rfl

/-- The option that an extension is decoded from. -/
def optionOf : eExtendType → Nat
  | .kExtendType_UXTB => 0
  | .kExtendType_UXTH => 1
  | .kExtendType_UXTW => 2
  | .kExtendType_UXTX => 3
  | .kExtendType_SXTB => 4
  | .kExtendType_SXTH => 5
  | .kExtendType_SXTW => 6
  | .kExtendType_SXTX => 7

theorem toNat_of_decode {anOption : BitVec 32} {anExtend : eExtendType}
    (h : DecodeRegExtend anOption = .ok anExtend) : anOption.toNat = optionOf anExtend := by
  unfold DecodeRegExtend at h
  split at h
  case h_9 => cases h
  all_goals
    cases h
    assumption

theorem extended_eq_arm_iff (anExtend : eExtendType) (x : BitVec 64) :
    extended anExtend x = armExtendReg (8 * 2 ^ (optionOf anExtend % 4)) (decide (4 ≤ optionOf anExtend)) x ↔
      HoldsField (8 * 2 ^ (optionOf anExtend % 4)) (decide (4 ≤ optionOf anExtend)) x := by
  have hwide : ∀ signed, HoldsField 64 signed x := fun _ => Or.inl x.isLt
  cases anExtend with
  | kExtendType_UXTB | kExtendType_UXTH | kExtendType_UXTW | kExtendType_UXTX => exact eq_armExtendReg_iff x _
  | kExtendType_SXTB =>
    exact sext_eq_arm_iff x (intBit 7) SIGNED_UPPER_BOUND_B 8 (by omega) (by decide) rfl (by decide)
  | kExtendType_SXTH =>
    exact sext_eq_arm_iff x (intBit 15) SIGNED_UPPER_BOUND_H 16 (by omega) (by decide) rfl (by decide)
  | kExtendType_SXTW =>
    exact sext_eq_arm_iff x (intBit 31) SIGNED_UPPER_BOUND_W 32 (by omega) (by decide) rfl (by decide)
  | kExtendType_SXTX =>
    rw [extended, SIGNED_UPPER_BOUND_X, BitVec.or_zero]
    exact iff_of_true (eq_armExtendReg_64 true x) (hwide true)

/-- The operation that `extend` returns for an option that `DecodeRegExtend` accepts computes
    the architecture's extension for exactly the registers that hold no more than the field, or
    whose field is signed and negative. -/
theorem extend_eq_arm_iff {anOption : BitVec 32} {anExtend : eExtendType}
    (h : DecodeRegExtend anOption = .ok anExtend) (x : BitVec 64) :
    (extend anExtend).apply [.uint64 x] =
        .ok (plain (armExtendReg (extendedWidth anOption) (extendsSigned anOption) x)) ↔
      HoldsField (extendedWidth anOption) (extendsSigned anOption) x := by
  rw [extendedWidth, extendsSigned, toNat_of_decode h, extend_apply, ← extended_eq_arm_iff, Except.ok.injEq, plain,
    plain, Applied.mk.injEq, Operand.uint64.injEq]
  simp

/-- A byte with its sign set, under the option that extends signed bytes. -/
theorem extend_eq_arm_iff_signedByte :
    (extend .kExtendType_SXTB).apply [.uint64 0x1ff80#64] =
        .ok (plain (armExtendReg (extendedWidth 4#32) (extendsSigned 4#32) 0x1ff80#64)) ↔
      HoldsField (extendedWidth 4#32) (extendsSigned 4#32) 0x1ff80#64 :=
  extend_eq_arm_iff rfl 0x1ff80#64

/-- The unsigned extension of the byte in `0x1ff` leaves the register as it is, and so does the
    signed extension of the byte in `0x17f`. -/
theorem not_extend_eq_arm :
    ∃ anOption anExtend anOption' anExtend', DecodeRegExtend anOption = .ok anExtend ∧
      DecodeRegExtend anOption' = .ok anExtend' ∧
      (extend anExtend).apply [.uint64 0x1ff#64] ≠
        .ok (plain (armExtendReg (extendedWidth anOption) (extendsSigned anOption) 0x1ff#64)) ∧
      (extend anExtend').apply [.uint64 0x17f#64] ≠
        .ok (plain (armExtendReg (extendedWidth anOption') (extendsSigned anOption') 0x17f#64)) := by
  refine ⟨0#32, .kExtendType_UXTB, 4#32, .kExtendType_SXTB, rfl, rfl, ?_, ?_⟩
  · decide
  · decide

end narmDecoder
