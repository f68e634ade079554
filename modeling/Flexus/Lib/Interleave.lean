import Mathlib.Tactic

/-!
# Interleaved numberings

When the units of a resource are dealt out in turns, the number of a unit has a digit that
says whose it is. The units of one owner, counted from below, are numbered by leaving the
digit out.
-/

namespace Interleave

/-- The digit of a number in the place of weight `A`, one of `K` values. -/
def digit (A K n : Nat) : Nat := n / A % K

/-- The number without that digit. -/
def dropDigit (A K n : Nat) : Nat := n / (A * K) * A + n % A

/-- The numbers below `n` that have the digit `d`. -/
def rank (A K d n : Nat) : Nat := n / (A * K) * A + min (n % (A * K) - d * A) A

variable {A K d n : Nat}

@[simp]
theorem rank_zero : rank A K d 0 = 0 := by simp [rank]

theorem digit_eq_mod : digit A K n = n % (A * K) / A := by
  rw [digit, Nat.mod_mul_right_div_self]

theorem digit_eq_iff (hA : 0 < A) :
    digit A K n = d ↔ d * A ≤ n % (A * K) ∧ n % (A * K) < d * A + A := by
  rw [digit_eq_mod, Nat.div_eq_iff hA]
  omega

theorem rank_succ (hA : 0 < A) (hd : d < K) :
    rank A K d (n + 1) = rank A K d n + if digit A K n = d then 1 else 0 := by
  have hP : 0 < A * K := Nat.mul_pos hA (Nat.zero_lt_of_lt hd)
  have hfit : d * A + A ≤ A * K := by nlinarith
  have hlt := Nat.mod_lt n hP
  have hdigit := digit_eq_iff (K := K) (d := d) (n := n) hA
  unfold rank
  by_cases hlast : n % (A * K) + 1 = A * K
  · -- the last number of a round: the next one starts a new round
    have hdvd : A * K ∣ n + 1 := by
      refine ⟨n / (A * K) + 1, ?_⟩
      have := Nat.div_add_mod n (A * K)
      rw [Nat.mul_add]
      omega
    rw [Nat.succ_div_of_dvd hdvd, Nat.mod_eq_zero_of_dvd hdvd, Nat.add_mul, Nat.one_mul]
    split
    · next h => have := hdigit.mp h; omega
    · next h => have := mt hdigit.mpr h; omega
  · have hnot : ¬ A * K ∣ n + 1 := by
      intro hdvd
      have hzero := Nat.mod_eq_zero_of_dvd hdvd
      rw [Nat.add_mod] at hzero
      rcases Nat.lt_or_ge 1 (A * K) with hbig | hone
      · rw [Nat.mod_eq_of_lt hbig, Nat.mod_eq_of_lt (by omega)] at hzero
        omega
      · omega
    have hmod : (n + 1) % (A * K) = n % (A * K) + 1 := by
      rw [Nat.add_mod, Nat.mod_eq_of_lt (b := A * K) (a := 1) (by omega), Nat.mod_eq_of_lt (by omega)]
    rw [Nat.succ_div_of_not_dvd hnot, hmod]
    split
    · next h => have := hdigit.mp h; omega
    · next h => have := mt hdigit.mpr h; omega

/-- A digit does not depend on what lies above it. -/
theorem digit_mod {R : Nat} : digit A K (n % (A * K * R)) = digit A K n := by
  rw [digit_eq_mod, digit_eq_mod, Nat.mod_mul_right_mod]

/-- A number that has the digit is numbered by leaving it out. -/
theorem rank_of_digit (hA : 0 < A) (h : digit A K n = d) : rank A K d n = dropDigit A K n := by
  obtain ⟨hle, hlt⟩ := (digit_eq_iff hA).mp h
  have hmod : n % A = n % (A * K) - d * A := by
    have hsame : n % (A * K) % A = n % A := Nat.mod_mul_right_mod n A K
    rw [← hsame]
    obtain ⟨r, hr⟩ := Nat.exists_eq_add_of_le hle
    rw [hr, Nat.add_comm, Nat.add_mul_mod_self_right, Nat.mod_eq_of_lt (by omega)]
    omega
  unfold rank dropDigit
  rw [hmod, min_eq_left (by omega)]

/-- A digit above the one that is left out keeps its value and loses weight. -/
theorem digit_dropDigit (hA : 0 < A) {M G : Nat} :
    digit (A * M) G (dropDigit A K n) = digit (A * K * M) G n := by
  have hlow : n % A / A = 0 := Nat.div_eq_of_lt (Nat.mod_lt n hA)
  unfold digit dropDigit
  rw [← Nat.div_div_eq_div_mul (_ + _), Nat.add_comm, Nat.add_mul_div_right _ _ hA, hlow, Nat.zero_add,
    Nat.div_div_eq_div_mul]

/-- The numbers below `n` that have two given digits, the second of them above the first. -/
theorem rank_rank_succ (hA : 0 < A) {M G g : Nat} (hM : 0 < M) (hd : d < K) (hg : g < G) :
    rank (A * M) G g (rank A K d (n + 1)) = rank (A * M) G g (rank A K d n) +
      if digit A K n = d ∧ digit (A * K * M) G n = g then 1 else 0 := by
  rw [rank_succ hA hd]
  by_cases hdigit : digit A K n = d
  · rw [if_pos hdigit, rank_succ (Nat.mul_pos hA hM) hg, rank_of_digit hA hdigit, digit_dropDigit hA]
    simp only [hdigit, true_and]
  · rw [if_neg hdigit, if_neg fun h => hdigit h.1]
    rfl

theorem rank_rank_of_digit (hA : 0 < A) {M G g : Nat} (hM : 0 < M) (hd : digit A K n = d)
    (hg : digit (A * K * M) G n = g) :
    rank (A * M) G g (rank A K d n) = dropDigit (A * M) G (dropDigit A K n) := by
  rw [rank_of_digit hA hd, rank_of_digit (Nat.mul_pos hA hM)]
  rwa [digit_dropDigit hA]

theorem dropDigit_lt (hA : 0 < A) (hK : 0 < K) {R : Nat} (hn : n < A * K * R) : dropDigit A K n < A * R := by
  have hround : n / (A * K) < R := (Nat.div_lt_iff_lt_mul (Nat.mul_pos hA hK)).mpr (Nat.mul_comm _ R ▸ hn)
  have hle := Nat.mul_le_mul_right A (Nat.succ_le_of_lt hround)
  rw [Nat.succ_mul, Nat.mul_comm R] at hle
  exact Nat.lt_of_lt_of_le (Nat.add_lt_add_left (Nat.mod_lt n hA) _) hle

/-- What is left of a number without two of its digits. -/
theorem dropDigit_dropDigit (hA : 0 < A) {M G : Nat} :
    dropDigit (A * M) G (dropDigit A K n) =
      n / (A * K * M * G) * (A * M) + n / (A * K) % M * A + n % A := by
  have hlow : n % A / A = 0 := Nat.div_eq_of_lt (Nat.mod_lt n hA)
  have hdiv : (n / (A * K) * A + n % A) / A = n / (A * K) := by
    rw [Nat.add_comm, Nat.add_mul_div_right _ _ hA, hlow, Nat.zero_add]
  have hmod : (n / (A * K) * A + n % A) % A = n % A := by
    rw [Nat.add_comm, Nat.add_mul_mod_self_right, Nat.mod_mod]
  unfold dropDigit
  rw [Nat.mod_mul, hmod, hdiv, Nat.mul_assoc A M G, ← Nat.div_div_eq_div_mul _ A, hdiv,
    Nat.div_div_eq_div_mul, ← Nat.mul_assoc (A * K) M G, Nat.mul_comm A (_ % M)]
  omega

end Interleave
