import Mathlib.Tactic

/-!
# Bit fields

The number in the bits `hi` down to `lo` of a machine word, and what the usual shifts and
masks compute in terms of it.
-/

namespace BitFields

/-- The bits `hi` down to `lo` of a number. -/
def field (x hi lo : Nat) : Nat := x / 2 ^ lo % 2 ^ (hi + 1 - lo)

variable {w : Nat}

theorem field_lt (x hi lo : Nat) : field x hi lo < 2 ^ (hi + 1 - lo) := Nat.mod_lt _ (Nat.two_pow_pos _)

/-- The mask of the `n` low bits, as it is computed. -/
theorem toNat_mask {n : Nat} (hn : n < w) : ((1#w <<< n) - 1#w).toNat = 2 ^ n - 1 := by
  have hlt : 2 ^ n < 2 ^ w := Nat.pow_lt_pow_right (by omega) hn
  have hpos := Nat.two_pow_pos n
  have hone : (1#w).toNat = 1 := by
    rw [BitVec.toNat_ofNat, Nat.mod_eq_of_lt (by omega)]
  have hshift : (1#w <<< n).toNat = 2 ^ n := by
    rw [BitVec.toNat_shiftLeft, hone, Nat.shiftLeft_eq, one_mul, Nat.mod_eq_of_lt hlt]
  rw [BitVec.toNat_sub_of_le, hshift, hone]
  rw [BitVec.le_def, hshift, hone]
  omega

theorem toNat_and_mask {n : Nat} (x : BitVec w) (hn : n < w) :
    (x &&& ((1#w <<< n) - 1#w)).toNat = x.toNat % 2 ^ n := by
  rw [BitVec.toNat_and, toNat_mask hn, Nat.and_two_pow_sub_one_eq_mod]

theorem toNat_ushiftRight_and_mask {n lo : Nat} (x : BitVec w) (hn : n < w) :
    ((x >>> lo) &&& ((1#w <<< n) - 1#w)).toNat = x.toNat / 2 ^ lo % 2 ^ n := by
  rw [toNat_and_mask _ hn, BitVec.toNat_ushiftRight, Nat.shiftRight_eq_div_pow]

/-- A test of one bit by a mask. -/
theorem and_bit_ne_zero_iff {i : Nat} (x : BitVec w) (hi : i < w) :
    x &&& (1#w <<< i) ≠ 0#w ↔ x.getLsbD i = true := by
  rw [← BitVec.twoPow_eq, BitVec.and_twoPow]
  have hpow : BitVec.twoPow w i ≠ 0#w := by
    intro hzero
    have hbit := congrArg (fun u => u.getLsbD i) hzero
    simp [hi] at hbit
  cases x.getLsbD i <;> simp [hpow]

/-- A shifted value with another one below it. -/
theorem toNat_shiftLeft_or {n : Nat} {a b : BitVec w} (hfit : a.toNat * 2 ^ n < 2 ^ w) (hbelow : b.toNat < 2 ^ n) :
    ((a <<< n) ||| b).toNat = a.toNat * 2 ^ n + b.toNat := by
  rw [BitVec.toNat_or, BitVec.toNat_shiftLeft, Nat.shiftLeft_eq, Nat.mod_eq_of_lt hfit, ← Nat.shiftLeft_eq,
    ← Nat.shiftLeft_add_eq_or_of_lt hbelow]

/-! ## Combined shifts -/

/-- Two different shifts of a number differ in as many low bits as wanted. The bits of the
    number change every `g` places, where `g` is the distance of the shifts. -/
theorem exists_shifts_differ_aux (m g k : Nat) (hg : 0 < g) :
    ∃ x < 2 ^ (m + k), ∀ j < k, x.testBit (m + j) ≠ x.testBit (m + g + j) := by
  refine ⟨Nat.ofBits fun i : Fin (m + k) => decide ((m + k - 1 - i) / g % 2 = 0), Nat.ofBits_lt_two_pow _, ?_⟩
  intro j hj
  rw [Nat.testBit_ofBits_lt _ _ (by omega)]
  dsimp only
  have hrest : m + k - 1 - (m + j) = k - 1 - j := by omega
  rw [hrest]
  rcases Nat.lt_or_ge (g + j) k with hlt | hge
  · have hnext : k - 1 - j = (m + k - 1 - (m + g + j)) + g := by omega
    rw [Nat.testBit_ofBits_lt _ _ (by omega), hnext, Nat.add_div_right _ hg, ne_eq, decide_eq_decide]
    dsimp only
    omega
  · have hsmall : (k - 1 - j) / g = 0 := Nat.div_eq_of_lt (by omega)
    rw [Nat.testBit_ofBits_ge _ _ (by omega), hsmall]
    decide

/-- The exclusive or of two different shifts of a number can have all the bits of a mask. -/
theorem exists_xor_shifts_and {s t n k : Nat} (hst : s ≠ t) (hn : n < 2 ^ k) :
    ∃ x < 2 ^ (s + k), ((x >>> s) ^^^ (x >>> t)) &&& n = n := by
  have hall : ∃ x < 2 ^ (s + k), ∀ j < k, x.testBit (s + j) ≠ x.testBit (t + j) := by
    rcases Nat.lt_or_ge s t with hlt | hge
    · obtain ⟨x, hx, hdiffer⟩ := exists_shifts_differ_aux s (t - s) k (by omega)
      refine ⟨x, hx, fun j hj => ?_⟩
      have hj' := hdiffer j hj
      rwa [Nat.add_sub_of_le hlt.le] at hj'
    · obtain ⟨x, hx, hdiffer⟩ := exists_shifts_differ_aux t (s - t) k (by omega)
      refine ⟨x, lt_of_lt_of_le hx (Nat.pow_le_pow_right (by omega) (by omega)), fun j hj => ?_⟩
      have hj' := hdiffer j hj
      rw [Nat.add_sub_of_le hge] at hj'
      exact hj'.symm
  obtain ⟨x, hx, hdiffer⟩ := hall
  refine ⟨x, hx, Nat.eq_of_testBit_eq fun j => ?_⟩
  rw [Nat.testBit_and, Nat.testBit_xor, Nat.testBit_shiftRight, Nat.testBit_shiftRight]
  rcases Nat.lt_or_ge j k with hlt | hge
  · have hj := hdiffer j hlt
    rw [Bool.xor_iff_ne.mpr hj, Bool.true_and]
  · have hzero : n.testBit j = false :=
      Nat.testBit_lt_two_pow (lt_of_lt_of_le hn (Nat.pow_le_pow_right (by omega) hge))
    rw [hzero, Bool.and_false]

end BitFields
