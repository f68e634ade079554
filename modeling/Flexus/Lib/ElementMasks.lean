import Mathlib.Tactic

/-!
# Element masks

Words that are given by a predicate on their bits, and the masks that repeat an element: a run
of ones, rotated within the element and copied over the word by doubling.
-/

namespace ElementMasks

variable {w : Nat}

/-- The word whose bits are those that the predicate holds of. -/
def bitsWhere (w : Nat) (p : Nat → Bool) : BitVec w := BitVec.ofNat w (Nat.ofBits fun i : Fin w => p i)

theorem getLsbD_bitsWhere (p : Nat → Bool) (i : Nat) : (bitsWhere w p).getLsbD i = (decide (i < w) && p i) := by
  by_cases hi : i < w
  · rw [bitsWhere, BitVec.getLsbD_ofNat, Nat.testBit_ofBits_lt _ _ hi]
  · rw [BitVec.getLsbD_of_ge _ _ (by omega), decide_eq_false hi, Bool.false_and]

/-- A word is given by its bits. -/
theorem eq_bitsWhere {x : BitVec w} {p : Nat → Bool} (h : ∀ i < w, x.getLsbD i = p i) : x = bitsWhere w p := by
  apply BitVec.eq_of_getLsbD_eq
  intro i hi
  rw [h i hi, getLsbD_bitsWhere, decide_eq_true hi, Bool.true_and]

/-! ## Runs -/

/-- The low `n` ones. -/
theorem getLsbD_allOnes_ushiftRight {n : Nat} (hn : n ≤ w) (i : Nat) :
    (BitVec.allOnes w >>> (w - n)).getLsbD i = decide (i < n) := by
  rw [BitVec.getLsbD_ushiftRight, BitVec.getLsbD_allOnes, decide_eq_decide]
  omega

/-- The bits of a run of ones from bit zero to `s`, rotated right by `r` within an element. -/
theorem getLsbD_rotate {m : BitVec w} {e r s : Nat} (hr : 0 < r) (hre : r < e) (hse : s < e) (hew : e ≤ w)
    (hm : ∀ i, m.getLsbD i = decide (i ≤ s)) (i : Nat) :
    (((m >>> r) ||| (m <<< (e - r))) &&& (BitVec.allOnes w >>> (w - e))).getLsbD i =
      (decide (i < e) && decide ((i + r) % e ≤ s)) := by
  rw [BitVec.getLsbD_and, BitVec.getLsbD_or, BitVec.getLsbD_ushiftRight, BitVec.getLsbD_shiftLeft,
    getLsbD_allOnes_ushiftRight hew, hm, hm]
  by_cases hi : i < e
  · have hiw : i < w := by omega
    rw [decide_eq_true hi, decide_eq_true hiw, Bool.and_true, Bool.true_and, Bool.true_and]
    by_cases hlow : i < e - r
    · have hsum : (i + r) % e = r + i := by
        rw [Nat.mod_eq_of_lt (by omega), Nat.add_comm]
      rw [hsum, decide_eq_true hlow, Bool.not_true, Bool.false_and, Bool.or_false]
    · have hsum : (i + r) % e = i - (e - r) := by
        rw [Nat.mod_eq_sub_mod (by omega), Nat.mod_eq_of_lt (by omega)]
        omega
      have hhigh : ¬r + i ≤ s := by omega
      rw [hsum, decide_eq_false hlow, decide_eq_false hhigh, Bool.not_false, Bool.true_and, Bool.false_or]
  · rw [decide_eq_false hi, Bool.and_false, Bool.false_and]

/-! ## Copies -/

/-- Doubling an element: a predicate of which the element's bits are the first period. -/
theorem getLsbD_double {m : BitVec w} {e : Nat} {p : Nat → Bool} (hp : ∀ i, p (i + e) = p i)
    (hm : ∀ i < w, m.getLsbD i = (decide (i < e) && p i)) {i : Nat} (hi : i < w) :
    (m ||| (m <<< e)).getLsbD i = (decide (i < e * 2) && p i) := by
  rw [BitVec.getLsbD_or, BitVec.getLsbD_shiftLeft, hm i hi, decide_eq_true hi, Bool.true_and]
  by_cases hlow : i < e
  · have hdouble : i < e * 2 := by omega
    rw [decide_eq_true hlow, decide_eq_true hdouble, Bool.not_true, Bool.false_and, Bool.or_false]
  · have hback : p i = p (i - e) := by
      rw [← hp (i - e), Nat.sub_add_cancel (by omega)]
    have hiff : i - e < e ↔ i < e * 2 := by omega
    rw [hm (i - e) (by omega), decide_eq_false hlow, Bool.false_and, Bool.false_or, Bool.not_false, Bool.true_and,
      hback, decide_eq_decide.mpr hiff]

/-- A predicate on places within an element has the element's size as a period. -/
theorem periodic_mod (e : Nat) (p : Nat → Bool) (i : Nat) : p ((i + e) % e) = p (i % e) := by
  rw [Nat.add_mod_right]

end ElementMasks
