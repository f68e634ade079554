import Flexus.Lib.BitFields
import Mathlib.Tactic

/-!
# Rearranged bits

Words whose bits are the bits of another word in a different order, and the loop that copies
a word bit by bit to other places.
-/

namespace BitPermutation

variable {w : Nat}

/-- The word whose bit `i` is bit `f i` of the given one. -/
def permute (f : Nat → Nat) (x : BitVec w) : BitVec w :=
  BitVec.ofNat w (Nat.ofBits fun i : Fin w => x.getLsbD (f i))

theorem getLsbD_permute (f : Nat → Nat) (x : BitVec w) {i : Nat} (hi : i < w) :
    (permute f x).getLsbD i = x.getLsbD (f i) := by
  rw [permute, BitVec.getLsbD_ofNat, Nat.testBit_ofBits_lt _ _ hi, decide_eq_true hi, Bool.true_and]

/-- A rearrangement that undoes itself. -/
theorem permute_permute {f : Nat → Nat} (x : BitVec w) (hlt : ∀ i < w, f i < w) (hinv : ∀ i < w, f (f i) = i) :
    permute f (permute f x) = x := by
  apply BitVec.eq_of_getLsbD_eq
  intro i hi
  rw [getLsbD_permute f _ hi, getLsbD_permute f x (hlt i hi), hinv i hi]

/-- The loop that sets bit `g i` for every set bit `i` below `n`. -/
def copyBits (n : Nat) (g : Nat → Nat) (x : BitVec w) : BitVec w :=
  (List.range n).foldl (fun out i => if x &&& (1#w <<< i) ≠ 0#w then out ||| (1#w <<< g i) else out) 0#w

theorem copyBits_succ (n : Nat) (g : Nat → Nat) (x : BitVec w) :
    copyBits (n + 1) g x =
      if x &&& (1#w <<< n) ≠ 0#w then copyBits n g x ||| (1#w <<< g n) else copyBits n g x := by
  rw [copyBits, List.range_succ, List.foldl_append, List.foldl_cons, List.foldl_nil]
  rfl

/-- What the loop has copied after `n` rounds. -/
theorem getLsbD_copyBits {n : Nat} (g : Nat → Nat) (x : BitVec w) (hn : n ≤ w) {j : Nat} (hj : j < w) :
    (copyBits n g x).getLsbD j = true ↔ ∃ i < n, g i = j ∧ x.getLsbD i = true := by
  induction n with
  | zero => simp [copyBits]
  | succ n ih =>
    have hstep : (copyBits (n + 1) g x).getLsbD j = true ↔
        (copyBits n g x).getLsbD j = true ∨ g n = j ∧ x.getLsbD n = true := by
      rw [copyBits_succ]
      by_cases hset : x.getLsbD n = true
      · rw [if_pos ((BitFields.and_bit_ne_zero_iff x (by omega)).mpr hset), BitVec.getLsbD_or, ← BitVec.twoPow_eq, BitVec.getLsbD_twoPow]
        simp only [Bool.or_eq_true, Bool.and_eq_true, decide_eq_true_eq, hset, and_true]
        constructor
        · rintro (hold | ⟨-, rfl⟩)
          · exact Or.inl hold
          · exact Or.inr rfl
        · rintro (hold | rfl)
          · exact Or.inl hold
          · exact Or.inr ⟨hj, rfl⟩
      · rw [if_neg (fun h => hset ((BitFields.and_bit_ne_zero_iff x (by omega)).mp h))]
        simp [hset]
    rw [hstep, ih (by omega)]
    constructor
    · rintro (⟨i, hi, hcopied⟩ | hlast)
      · exact ⟨i, by omega, hcopied⟩
      · exact ⟨n, by omega, hlast⟩
    · rintro ⟨i, hi, hcopied⟩
      rcases Nat.lt_or_ge i n with hlt | hge
      · exact Or.inl ⟨i, hlt, hcopied⟩
      · obtain rfl : i = n := by omega
        exact Or.inr hcopied

end BitPermutation
