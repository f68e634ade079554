import Mathlib.Tactic

/-!
# Unsigned and signed quotients

When the unsigned quotient of two words is the signed one.
-/

namespace SignedDivision

variable {w : Nat}

theorem toNat_neg_of_msb {x : BitVec w} (h : x.msb = true) : (-x).toNat = 2 ^ w - x.toNat := by
  rw [BitVec.msb_eq_decide, decide_eq_true_eq] at h
  have hpos := Nat.two_pow_pos (w - 1)
  rw [BitVec.toNat_neg]
  exact Nat.mod_eq_of_lt (by omega)

/-- The bounds of a word by its sign. -/
theorem toNat_bounds (x : BitVec w) (hw : 0 < w) :
    (x.msb = true → 2 ^ (w - 1) ≤ x.toNat) ∧ (x.msb = false → x.toNat < 2 ^ (w - 1)) ∧
      2 ^ w = 2 * 2 ^ (w - 1) ∧ x.toNat < 2 ^ w := by
  refine ⟨?_, ?_, ?_, x.isLt⟩
  · intro h
    rwa [BitVec.msb_eq_decide, decide_eq_true_eq] at h
  · intro h
    rwa [BitVec.msb_eq_decide, decide_eq_false_iff_not, not_le] at h
  · rw [← pow_succ', Nat.sub_add_cancel hw]

section

variable {x y : BitVec w}

/-- A nonnegative number is below every divisor that is read as a negative one. -/
theorem udiv_eq_sdiv_of_divisor_neg (hw : 0 < w) (hx : x.msb = false) (hy : y.msb = true) :
    x / y = x.sdiv y ↔ x.toNat < 2 ^ w - y.toNat := by
  have hsdiv : x.sdiv y = -(x / -y) := by
    rw [BitVec.sdiv_eq, hx, hy]
    rfl
  obtain ⟨-, hlow, -, -⟩ := toNat_bounds x hw
  obtain ⟨hhigh, -, -, hlt⟩ := toNat_bounds y hw
  have hzero : x / y = 0#w := by
    apply BitVec.eq_of_toNat_eq
    rw [BitVec.toNat_udiv, BitVec.toNat_zero]
    exact Nat.div_eq_of_lt (lt_of_lt_of_le (hlow hx) (hhigh hy))
  rw [hsdiv, hzero, eq_comm, BitVec.neg_eq_zero_iff, ← BitVec.toNat_inj, BitVec.toNat_udiv, BitVec.toNat_zero,
    toNat_neg_of_msb hy, Nat.div_eq_zero_iff]
  constructor
  · rintro (h | h)
    · omega
    · exact h
  · exact Or.inr

/-- A number that is read as a negative one has too great a quotient by any divisor but one. -/
theorem udiv_eq_sdiv_of_dividend_neg (hw : 0 < w) (hx : x.msb = true) (hy : y.msb = false) :
    x / y = x.sdiv y ↔ y = 0#w ∨ y = 1#w := by
  have hsdiv : x.sdiv y = -(-x / y) := by
    rw [BitVec.sdiv_eq, hx, hy]
    rfl
  obtain ⟨hhigh, -, hdouble, hltx⟩ := toNat_bounds x hw
  obtain ⟨-, hlow, -, -⟩ := toNat_bounds y hw
  have hX := hhigh hx
  have hY := hlow hy
  constructor
  · intro heq
    by_contra hne
    obtain ⟨hzero, hone⟩ := not_or.mp hne
    have hy0 : y.toNat ≠ 0 := fun h => hzero (BitVec.eq_of_toNat_eq h)
    have hy1 : y.toNat ≠ 1 := by
      intro h
      apply hone
      apply BitVec.eq_of_toNat_eq
      rw [h, BitVec.toNat_one hw]
    have hnat := congrArg BitVec.toNat heq
    rw [hsdiv, BitVec.toNat_neg, BitVec.toNat_udiv, BitVec.toNat_udiv, toNat_neg_of_msb hx] at hnat
    have hunsigned : x.toNat / y.toNat ≤ x.toNat / 2 := Nat.div_le_div_left (by omega) (by omega)
    have hpos : 0 < x.toNat / y.toNat := Nat.div_pos (by omega) (by omega)
    have hsigned : (2 ^ w - x.toNat) / y.toNat ≤ 2 ^ w - x.toNat := Nat.div_le_self _ _
    generalize (2 ^ w - x.toNat) / y.toNat = quotient at hnat hsigned
    -- The negated quotient is zero, or not below half of the range.
    by_cases hquot : quotient = 0
    · rw [hquot, Nat.sub_zero, Nat.mod_self] at hnat
      omega
    · rw [Nat.mod_eq_of_lt (by omega)] at hnat
      omega
  · rintro (rfl | rfl)
    · rw [BitVec.udiv_zero, BitVec.sdiv_zero]
    · rw [BitVec.udiv_one, BitVec.sdiv_one]

theorem udiv_eq_sdiv_of_both_neg (hw : 0 < w) (hx : x.msb = true) (hy : y.msb = true) :
    x / y = x.sdiv y ↔ x = y := by
  have hsdiv : x.sdiv y = -x / -y := by
    rw [BitVec.sdiv_eq, hx, hy]
    rfl
  obtain ⟨hhighx, -, -, hltx⟩ := toNat_bounds x hw
  obtain ⟨hhighy, -, -, hlty⟩ := toNat_bounds y hw
  have hX := hhighx hx
  have hY := hhighy hy
  have hhalf := Nat.two_pow_pos (w - 1)
  rw [hsdiv, ← BitVec.toNat_inj, BitVec.toNat_udiv, BitVec.toNat_udiv, toNat_neg_of_msb hx, toNat_neg_of_msb hy]
  constructor
  · intro heq
    apply BitVec.eq_of_toNat_eq
    obtain hlt | hle := Nat.lt_or_ge x.toNat y.toNat
    · rw [Nat.div_eq_of_lt hlt] at heq
      have hpos : 0 < (2 ^ w - x.toNat) / (2 ^ w - y.toNat) := Nat.div_pos (by omega) (by omega)
      omega
    · have hpos : 0 < x.toNat / y.toNat := Nat.div_pos hle (by omega)
      rw [heq, Nat.div_pos_iff] at hpos
      omega
  · rintro rfl
    rw [Nat.div_self (by omega), Nat.div_self (by omega)]

end

/-- The quotients agree for the divisors zero and one, for a number divided by itself, for two
    nonnegative numbers, and where the quotient by a negative number is zero. -/
def QuotientsAgree (x y : BitVec w) : Prop :=
  y = 0#w ∨ y = 1#w ∨ x = y ∨ (0 ≤ x.toInt ∧ (0 ≤ y.toInt ∨ x.toInt < -y.toInt))

instance (x y : BitVec w) : Decidable (QuotientsAgree x y) := inferInstanceAs (Decidable (_ ∨ _))

theorem udiv_eq_sdiv_iff (hw : 0 < w) (x y : BitVec w) : x / y = x.sdiv y ↔ QuotientsAgree x y := by
  have hhalf := Nat.two_pow_pos (w - 1)
  obtain ⟨hhighx, hlowx, hdouble, hltx⟩ := toNat_bounds x hw
  obtain ⟨hhighy, hlowy, -, hlty⟩ := toNat_bounds y hw
  have hintx := x.toInt_eq_msb_cond
  have hinty := y.toInt_eq_msb_cond
  unfold QuotientsAgree
  cases hx : x.msb with
  | false =>
    rw [hx, if_neg Bool.false_ne_true] at hintx
    cases hy : y.msb with
    | false =>
      rw [hy, if_neg Bool.false_ne_true] at hinty
      have hsdiv : x.sdiv y = x / y := by
        rw [BitVec.sdiv_eq, hx, hy]
        rfl
      refine iff_of_true hsdiv.symm (Or.inr (Or.inr (Or.inr ⟨?_, Or.inl ?_⟩)))
      · omega
      · omega
    | true =>
      rw [hy, if_pos rfl] at hinty
      rw [udiv_eq_sdiv_of_divisor_neg hw hx hy]
      constructor
      · intro hlt
        refine Or.inr (Or.inr (Or.inr ⟨?_, Or.inr ?_⟩))
        · omega
        · omega
      · rintro (rfl | rfl | rfl | ⟨-, hnonneg | hlt⟩)
        · simp at hy
        · have hone := hhighy hy
          rw [BitVec.toNat_one hw] at hone ⊢
          have hzero := hlowx hx
          omega
        · rw [hx] at hy
          cases hy
        · omega
        · omega
  | true =>
    rw [hx, if_pos rfl] at hintx
    cases hy : y.msb with
    | false =>
      rw [udiv_eq_sdiv_of_dividend_neg hw hx hy]
      constructor
      · rintro (h | h)
        · exact Or.inl h
        · exact Or.inr (Or.inl h)
      · rintro (h | h | rfl | ⟨hnonneg, -⟩)
        · exact Or.inl h
        · exact Or.inr h
        · rw [hx] at hy
          cases hy
        · omega
    | true =>
      rw [udiv_eq_sdiv_of_both_neg hw hx hy]
      constructor
      · exact fun h => Or.inr (Or.inr (Or.inl h))
      · rintro (rfl | rfl | h | ⟨hnonneg, -⟩)
        · simp at hy
        · -- One is read as a negative number only in a word of one bit.
          apply BitVec.eq_of_toNat_eq
          have hone := hhighy hy
          have hge := hhighx hx
          rw [BitVec.toNat_one hw] at hone ⊢
          omega
        · exact h
        · omega

/-- The signed quotient is truncated toward zero and wraps around. -/
theorem sdiv_eq_ofInt_tdiv (x y : BitVec w) : x.sdiv y = BitVec.ofInt w (x.toInt.tdiv y.toInt) := by
  apply BitVec.eq_of_toInt_eq
  rw [BitVec.toInt_sdiv, BitVec.toInt_ofInt]

end SignedDivision
