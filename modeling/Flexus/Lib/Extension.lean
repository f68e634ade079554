import Mathlib.Tactic

/-!
# Fields and their extension

When a word holds no more than its low bits, and when it is the unsigned or the signed
extension of them.
-/

namespace Extension

variable {n : Nat}

theorem toNat_lt_two_pow_iff (x : BitVec n) (w : Nat) :
    x.toNat < 2 ^ w ↔ ∀ i, w ≤ i → x.getLsbD i = false := by
  constructor
  · intro hlt i hi
    exact Nat.testBit_lt_two_pow (hlt.trans_le (Nat.pow_le_pow_right (by omega) hi))
  · intro hzero
    exact Nat.lt_pow_two_of_testBit _ hzero

/-- Above the field every bit of a signed extension is its sign. -/
theorem getLsbD_signExtend_setWidth (x : BitVec n) {w : Nat} (hw : 0 < w) {i : Nat} (hi : i < n) :
    ((x.setWidth w).signExtend n).getLsbD i = x.getLsbD (min i (w - 1)) := by
  rw [BitVec.getLsbD_signExtend, decide_eq_true hi, Bool.true_and]
  by_cases hlow : i < w
  · rw [if_pos hlow, Nat.min_eq_left (by omega), BitVec.getLsbD_setWidth, decide_eq_true hlow, Bool.true_and]
  · rw [if_neg hlow, Nat.min_eq_right (by omega), BitVec.msb_setWidth, decide_eq_true hw, Bool.true_and]

theorem setWidth_setWidth_eq_iff (x : BitVec n) (w : Nat) :
    x = (x.setWidth w).setWidth n ↔ x.toNat < 2 ^ w := by
  rw [← BitVec.toNat_inj, BitVec.toNat_setWidth, BitVec.toNat_setWidth]
  have hmod : x.toNat % 2 ^ w % 2 ^ n = x.toNat % 2 ^ w :=
    Nat.mod_eq_of_lt (lt_of_le_of_lt (Nat.mod_le _ _) x.isLt)
  rw [hmod]
  constructor
  · intro h
    rw [h]
    exact Nat.mod_lt _ (Nat.two_pow_pos w)
  · intro hlt
    exact (Nat.mod_eq_of_lt hlt).symm

/-- Where the sign of the field is clear, its extension is the word that holds no more than it. -/
theorem eq_signExtend_of_lt (x : BitVec n) {w : Nat} (hw : 0 < w) (hsign : x.getLsbD (w - 1) = false) :
    x = (x.setWidth w).signExtend n ↔ x.toNat < 2 ^ w := by
  rw [toNat_lt_two_pow_iff]
  constructor
  · intro heq i hi
    by_cases hlt : i < n
    · rw [heq, getLsbD_signExtend_setWidth x hw hlt, Nat.min_eq_right (by omega), hsign]
    · exact BitVec.getLsbD_of_ge x i (by omega)
  · intro hzero
    apply BitVec.eq_of_getLsbD_eq
    intro i hi
    rw [getLsbD_signExtend_setWidth x hw hi]
    by_cases hlow : i < w
    · rw [Nat.min_eq_left (by omega)]
    · rw [Nat.min_eq_right (by omega), hsign, hzero i (by omega)]

/-- Setting all the bits above the field extends it where its sign is set. -/
theorem or_eq_signExtend_iff (x : BitVec n) {upper : BitVec n} {w : Nat} (hw : 0 < w ∧ w < n)
    (hupper : ∀ i < n, upper.getLsbD i = decide (w ≤ i)) :
    x ||| upper = (x.setWidth w).signExtend n ↔ x.getLsbD (w - 1) = true := by
  constructor
  · intro heq
    have hbit := congrArg (fun v => v.getLsbD w) heq
    rwa [BitVec.getLsbD_or, hupper w hw.2, decide_eq_true le_rfl, Bool.or_true,
      getLsbD_signExtend_setWidth x hw.1 hw.2, Nat.min_eq_right (by omega), eq_comm] at hbit
  · intro hsign
    apply BitVec.eq_of_getLsbD_eq
    intro i hi
    rw [BitVec.getLsbD_or, hupper i hi, getLsbD_signExtend_setWidth x hw.1 hi]
    by_cases hlow : i < w
    · have hnot : ¬w ≤ i := by omega
      rw [decide_eq_false hnot, Bool.or_false, Nat.min_eq_left (by omega)]
    · have hhigh : w ≤ i := by omega
      rw [decide_eq_true hhigh, Bool.or_true, Nat.min_eq_right (by omega), hsign]

end Extension
