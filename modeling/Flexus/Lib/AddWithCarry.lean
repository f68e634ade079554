import Mathlib.Tactic

/-!
# Addition with a carry

The sum of two words and a carry, with the four flags a processor derives from it, and what
the comparisons of wrapped words say about these flags.
-/

namespace AddWithCarry

/-- Negative, zero, carry and overflow. -/
@[ext] structure Flags where
  n : Bool
  z : Bool
  c : Bool
  v : Bool
  deriving DecidableEq, Repr

variable {w : Nat}

/-- The sum over the natural numbers. -/
def unsignedSum (x y : BitVec w) (c : Bool) : Nat := x.toNat + y.toNat + c.toNat

/-- The sum over the integers. -/
def signedSum (x y : BitVec w) (c : Bool) : Int := x.toInt + y.toInt + c.toInt

/-- An integer that is the value of a signed word. -/
def Representable (w : Nat) (i : Int) : Prop := -2 ^ (w - 1) ≤ i ∧ i < 2 ^ (w - 1)

instance (i : Int) : Decidable (Representable w i) := inferInstanceAs (Decidable (_ ∧ _))

/-- The wrapped sum. -/
def sum (x y : BitVec w) (c : Bool) : BitVec w := BitVec.ofNat w (unsignedSum x y c)

/-- The flags: the sign of the wrapped sum, whether it is zero, whether the unsigned sum is
    out of range and whether the signed one is. -/
def flags (x y : BitVec w) (c : Bool) : Flags where
  n := (sum x y c).msb
  z := decide (sum x y c = 0#w)
  c := decide (2 ^ w ≤ unsignedSum x y c)
  v := !decide (Representable w (signedSum x y c))

theorem toNat_sum (x y : BitVec w) (c : Bool) : (sum x y c).toNat = unsignedSum x y c % 2 ^ w := by
  rw [sum, BitVec.toNat_ofNat]

/-- The sum as a processor computes it, word by word. -/
theorem add_add_eq_sum (x y : BitVec w) (c : Bool) : x + y + BitVec.ofNat w c.toNat = sum x y c := by
  apply BitVec.eq_of_toNat_eq
  rw [toNat_sum, BitVec.toNat_add, BitVec.toNat_add, BitVec.toNat_ofNat]
  simp only [unsignedSum, Nat.add_mod_mod, Nat.mod_add_mod]

/-- A wrapped sum below one of its operands has produced a carry; the only carry not seen this way
    is that of two words of ones with a carry-in. -/
theorem sum_lt_or_lt_iff (x y : BitVec w) (c : Bool) :
    (sum x y c < x ∨ sum x y c < y) ↔
      2 ^ w ≤ unsignedSum x y c ∧ ¬(x = BitVec.allOnes w ∧ y = BitVec.allOnes w ∧ c = true) := by
  have hx := x.isLt
  have hy := y.isLt
  have hc : c.toNat ≤ 1 := Bool.toNat_le c
  have hones : ∀ u : BitVec w, u = BitVec.allOnes w ↔ u.toNat = 2 ^ w - 1 := by
    intro u
    rw [← BitVec.toNat_inj, BitVec.toNat_allOnes]
  have hcarry : c = true ↔ c.toNat = 1 := by cases c <;> decide
  rw [BitVec.lt_def, BitVec.lt_def, toNat_sum, hones, hones, hcarry]
  unfold unsignedSum
  rcases Nat.lt_or_ge (x.toNat + y.toNat + c.toNat) (2 ^ w) with hlt | hge
  · rw [Nat.mod_eq_of_lt hlt]
    omega
  · rw [Nat.mod_eq_sub_mod hge, Nat.mod_eq_of_lt (by omega)]
    omega

/-- A sum of wide words, cut to a narrower width. -/
theorem sum_setWidth {v : Nat} (h : w ≤ v) (x y : BitVec v) (c : Bool) :
    (sum x y c).setWidth w = sum (x.setWidth w) (y.setWidth w) c := by
  apply BitVec.eq_of_toNat_eq
  have hdvd : 2 ^ w ∣ 2 ^ v := Nat.pow_dvd_pow 2 h
  rw [BitVec.toNat_setWidth, toNat_sum, toNat_sum, Nat.mod_mod_of_dvd _ hdvd]
  simp only [unsignedSum, BitVec.toNat_setWidth]
  exact (((Nat.mod_modEq _ _).add (Nat.mod_modEq _ _)).add_right _).symm

/-- The carry of a subtraction, at any width: there is no borrow. -/
theorem carry_complement_iff (x y : BitVec w) (c : Bool) :
    2 ^ w ≤ unsignedSum x (~~~y) c ↔ y.toNat + 1 ≤ x.toNat + c.toNat := by
  have hy := y.isLt
  rw [unsignedSum, BitVec.toNat_not]
  omega

end AddWithCarry
