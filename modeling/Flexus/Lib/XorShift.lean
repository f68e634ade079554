import Mathlib.Tactic

/-!
# Folding the upper bits of a number into the lower ones

The exclusive or of a number with a right shift of itself.
-/

namespace XorShift

def xorShift (s a : Nat) : Nat := a ^^^ (a >>> s)

variable {s a b k t : Nat}

theorem xorShift_xor : xorShift s (a ^^^ b) = xorShift s a ^^^ xorShift s b := by
  rw [xorShift, Nat.shiftRight_xor_distrib, xorShift, xorShift]
  ac_rfl

@[simp]
theorem xorShift_zero : xorShift s 0 = 0 := by simp [xorShift]

theorem xorShift_zero_left : xorShift 0 a = 0 := by simp [xorShift]

theorem eq_of_xor_eq_zero (h : a ^^^ b = 0) : a = b := by
  rw [← Nat.zero_xor b, ← h, Nat.xor_assoc, Nat.xor_self, Nat.xor_zero]

theorem eq_zero_of_xorShift (hs : 0 < s) (h : xorShift s a = 0) : a = 0 := by
  have heq : a = a >>> s := eq_of_xor_eq_zero h
  by_contra hne
  have hlt : a / 2 ^ s < a := Nat.div_lt_self (Nat.pos_of_ne_zero hne) (Nat.one_lt_two_pow hs.ne')
  rw [← Nat.shiftRight_eq_div_pow, ← heq] at hlt
  exact Nat.lt_irrefl _ hlt

theorem xorShift_injective (hs : 0 < s) : Function.Injective (xorShift s) := by
  intro x y hxy
  apply eq_of_xor_eq_zero
  apply eq_zero_of_xorShift hs
  rw [xorShift_xor, hxy, Nat.xor_self]

theorem xorShift_lt (h : a < 2 ^ k) : xorShift s a < 2 ^ k :=
  Nat.xor_lt_two_pow h (Nat.lt_of_le_of_lt (Nat.shiftRight_le a s) h)

/-- Every number of a width is reached from one of that width. -/
theorem exists_xorShift (hs : 0 < s) (h : b < 2 ^ k) : ∃ a < 2 ^ k, xorShift s a = b := by
  let f : Fin (2 ^ k) → Fin (2 ^ k) := fun a => ⟨xorShift s a, xorShift_lt a.isLt⟩
  have hinj : Function.Injective f := fun x y hxy =>
    Fin.ext (xorShift_injective hs (congrArg Fin.val hxy))
  obtain ⟨a, ha⟩ := Finite.injective_iff_surjective.mp hinj ⟨b, h⟩
  exact ⟨a, a.isLt, congrArg Fin.val ha⟩

/-- The window of a folded number is the exclusive or of two windows. -/
theorem window : xorShift s a / 2 ^ b % 2 ^ t = (a / 2 ^ b ^^^ a / 2 ^ (b + s)) % 2 ^ t := by
  rw [xorShift, Nat.xor_div_two_pow, Nat.shiftRight_eq_div_pow, Nat.div_div_eq_div_mul, ← Nat.pow_add,
    Nat.add_comm s b]

theorem two_pow_div_mod : 2 ^ k / 2 ^ b % 2 ^ t = if b ≤ k ∧ k < b + t then 2 ^ (k - b) else 0 := by
  by_cases hb : b ≤ k
  · rw [Nat.pow_div hb (by omega)]
    by_cases ht : k < b + t
    · rw [if_pos ⟨hb, ht⟩, Nat.mod_eq_of_lt (Nat.pow_lt_pow_right (by omega) (by omega))]
    · rw [if_neg fun h => ht h.2, Nat.mod_eq_zero_of_dvd (Nat.pow_dvd_pow 2 (by omega))]
  · rw [if_neg fun h => hb h.1, Nat.div_eq_of_lt (Nat.pow_lt_pow_right (by omega) (by omega)), Nat.zero_mod]

/-- Numbers whose highest bits differ have an exclusive or with the higher of them. -/
theorem window_ne_zero {x y u : Nat} (hx : 2 ^ u ≤ x) (hx' : x < 2 ^ (u + 1)) (hy : y < 2 ^ u)
    (ht : u < t) : (x ^^^ y) % 2 ^ t ≠ 0 := by
  have hbit : ((x ^^^ y) % 2 ^ t).testBit u = true := by
    have hxbit : x.testBit u = true := by
      rw [Nat.testBit_eq_decide_div_mod_eq]
      have hone : x / 2 ^ u = 1 := by
        apply Nat.div_eq_of_lt_le
        · omega
        · rw [Nat.pow_succ] at hx'
          omega
      rw [hone]
      rfl
    rw [Nat.testBit_mod_two_pow, Nat.testBit_xor, hxbit, Nat.testBit_lt_two_pow hy]
    simpa using ht
  intro hzero
  rw [hzero, Nat.zero_testBit] at hbit
  cases hbit

end XorShift
