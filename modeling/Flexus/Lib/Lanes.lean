import Mathlib.Tactic

/-! Byte lanes of a bit vector: lane `k` of `x` is the byte that starts at bit
`8 * k`. Masks that select a contiguous range of lanes are windows, and every
operation of the file is described by what it does to a single lane. -/

namespace Lanes

variable {w : Nat}

/-- The byte of `x` in lane `k`; lanes beyond the width read as zero. -/
def lane (x : BitVec w) (k : Nat) : BitVec 8 :=
  x.extractLsb' (8 * k) 8

/-- The mask of the lanes from `lo` up to, not including, `hi`. -/
def window (w lo hi : Nat) : BitVec w :=
  (BitVec.allOnes w <<< (8 * lo)) &&& ~~~(BitVec.allOnes w <<< (8 * hi))

theorem getLsbD_window (lo hi i : Nat) :
    (window w lo hi).getLsbD i = (decide (i < w) && decide (8 * lo ≤ i) && decide (i < 8 * hi)) := by
  by_cases hw : i < w
  · by_cases hlo : 8 * lo ≤ i <;> by_cases hhi : i < 8 * hi <;>
      (simp [window, hw, hlo, hhi]; try omega)
  · simp [window, hw]

theorem getLsbD_lane (x : BitVec w) (k j : Nat) :
    (lane x k).getLsbD j = (decide (j < 8) && x.getLsbD (8 * k + j)) := by
  simp [lane, BitVec.getLsbD_extractLsb']

/-- Two vectors that agree on every bit of lane `k` have the same byte there. -/
theorem lane_ext {v : Nat} {x : BitVec w} {y : BitVec v} {k l : Nat}
    (hbits : ∀ j, j < 8 → x.getLsbD (8 * k + j) = y.getLsbD (8 * l + j)) :
    lane x k = lane y l := by
  apply BitVec.eq_of_getLsbD_eq
  intro j hj
  rw [getLsbD_lane, getLsbD_lane, hbits j hj]

theorem lane_and_window (x : BitVec w) {lo hi k : Nat} (hlo : lo ≤ k) (hhi : k < hi) :
    lane (x &&& window w lo hi) k = lane x k := by
  apply lane_ext
  intro j hj
  rw [BitVec.getLsbD_and, getLsbD_window]
  by_cases hw : 8 * k + j < w
  · have h1 : 8 * lo ≤ 8 * k + j := by omega
    have h2 : 8 * k + j < 8 * hi := by omega
    simp [hw, h1, h2]
  · simp [BitVec.getLsbD_of_ge x _ (by omega : w ≤ 8 * k + j)]

theorem window_shiftLeft (lo hi n : Nat) :
    window w lo hi <<< (8 * n) = window w (lo + n) (hi + n) := by
  apply BitVec.eq_of_getLsbD_eq
  intro i hiw
  rw [BitVec.getLsbD_shiftLeft, getLsbD_window, getLsbD_window]
  by_cases hin : i < 8 * n
  · have hlo : ¬ 8 * (lo + n) ≤ i := by omega
    simp [hin, hlo]
  · have hlo : 8 * lo ≤ i - 8 * n ↔ 8 * (lo + n) ≤ i := by omega
    have hhi : i - 8 * n < 8 * hi ↔ i < 8 * (hi + n) := by omega
    have hsub : i - 8 * n < w := by omega
    simp [hin, hiw, hlo, hhi, hsub]

theorem window_shiftRight {lo hi n : Nat} (hlo : n ≤ lo) (hw : 8 * hi ≤ w) :
    window w lo hi >>> (8 * n) = window w (lo - n) (hi - n) := by
  apply BitVec.eq_of_getLsbD_eq
  intro i hiw
  rw [BitVec.getLsbD_ushiftRight, getLsbD_window, getLsbD_window]
  have h1 : 8 * lo ≤ 8 * n + i ↔ 8 * (lo - n) ≤ i := by omega
  have h2 : (8 * n + i < w ∧ 8 * n + i < 8 * hi) ↔ i < 8 * (hi - n) := by omega
  rw [Bool.eq_iff_iff]
  simp only [Bool.and_eq_true, decide_eq_true_eq, h1]
  rw [← h2]
  tauto

theorem lane_shiftRight (x : BitVec w) (n k : Nat) : lane (x >>> (8 * n)) k = lane x (k + n) := by
  apply lane_ext
  intro j _
  rw [BitVec.getLsbD_ushiftRight]
  congr 1
  omega

theorem lane_shiftLeft (x : BitVec w) {n k : Nat} (hn : n ≤ k) (hk : 8 * (k + 1) ≤ w) :
    lane (x <<< (8 * n)) k = lane x (k - n) := by
  apply lane_ext
  intro j hj
  have h1 : 8 * k + j < w := by omega
  have h2 : ¬ 8 * k + j < 8 * n := by omega
  have h3 : 8 * k + j - 8 * n = 8 * (k - n) + j := by omega
  rw [BitVec.getLsbD_shiftLeft, h3]
  simp [h1, h2]

/-- Pasting `y` over `x` under a window replaces exactly the lanes of the window. -/
theorem lane_overlay (x y : BitVec w) (lo hi k : Nat) :
    lane ((x &&& ~~~window w lo hi) ||| (y &&& window w lo hi)) k =
      if lo ≤ k ∧ k < hi then lane y k else lane x k := by
  have hbit : ∀ j, j < 8 →
      ((x &&& ~~~window w lo hi) ||| (y &&& window w lo hi)).getLsbD (8 * k + j) =
        if lo ≤ k ∧ k < hi then y.getLsbD (8 * k + j) else x.getLsbD (8 * k + j) := by
    intro j hj
    have hlo : 8 * lo ≤ 8 * k + j ↔ lo ≤ k := by omega
    have hhi : 8 * k + j < 8 * hi ↔ k < hi := by omega
    simp only [BitVec.getLsbD_or, BitVec.getLsbD_and, BitVec.getLsbD_not, getLsbD_window, hlo, hhi]
    by_cases hw : 8 * k + j < w
    · by_cases h1 : lo ≤ k <;> by_cases h2 : k < hi <;> simp [hw, h1, h2]
    · simp [hw, BitVec.getLsbD_of_ge x _ (by omega : w ≤ 8 * k + j),
        BitVec.getLsbD_of_ge y _ (by omega : w ≤ 8 * k + j)]
  split
  case isTrue hin =>
    apply lane_ext
    intro j hj
    rw [hbit j hj, if_pos hin]
  case isFalse hout =>
    apply lane_ext
    intro j hj
    rw [hbit j hj, if_neg hout]

/-- One window masks another to itself exactly when it contains it. -/
theorem window_and_eq_left_iff {lo hi lo' hi' : Nat} (hne : lo < hi) (hw : 8 * hi ≤ w) :
    window w lo hi &&& window w lo' hi' = window w lo hi ↔ lo' ≤ lo ∧ hi ≤ hi' := by
  constructor
  · intro heq
    -- The first and the last bit of the inner window decide the containment.
    have hfirst := congrArg (fun x => BitVec.getLsbD x (8 * lo)) heq
    have hlast := congrArg (fun x => BitVec.getLsbD x (8 * hi - 1)) heq
    have h1 : 8 * lo < w := by omega
    have h2 : 8 * lo < 8 * hi := by omega
    have h3 : 8 * hi - 1 < w := by omega
    have h4 : 8 * lo ≤ 8 * hi - 1 := by omega
    have h5 : 8 * hi - 1 < 8 * hi := by omega
    simp only [BitVec.getLsbD_and, getLsbD_window, h1, h2, h3, h4, h5, decide_true, Bool.and_true,
      Bool.true_and, le_refl, Bool.and_eq_true, decide_eq_true_eq] at hfirst hlast
    omega
  · rintro ⟨hlo, hhi⟩
    apply BitVec.eq_of_getLsbD_eq
    intro i hiw
    simp only [BitVec.getLsbD_and, getLsbD_window, hiw, decide_true, Bool.true_and]
    by_cases h1 : 8 * lo ≤ i <;> by_cases h2 : i < 8 * hi
    · have h3 : 8 * lo' ≤ i := by omega
      have h4 : i < 8 * hi' := by omega
      simp [h3, h4]
    · simp [h2]
    · simp [h1]
    · simp [h1]

/-- Two windows share a bit exactly when they share a lane. -/
theorem window_and_ne_zero_iff {lo hi lo' hi' : Nat} (hw : 8 * hi ≤ w) :
    window w lo hi &&& window w lo' hi' ≠ 0 ↔ ∃ k, (lo ≤ k ∧ k < hi) ∧ lo' ≤ k ∧ k < hi' := by
  constructor
  · intro hne
    by_contra hnone
    apply hne
    apply BitVec.eq_of_getLsbD_eq
    intro i hiw
    have hlane : ¬ ((8 * lo ≤ i ∧ i < 8 * hi) ∧ 8 * lo' ≤ i ∧ i < 8 * hi') := by
      rintro ⟨⟨h1, h2⟩, h3, h4⟩
      exact hnone ⟨i / 8, ⟨by omega, by omega⟩, by omega, by omega⟩
    have hbit : (window w lo hi &&& window w lo' hi').getLsbD i = false := by
      rw [← Bool.not_eq_true, BitVec.getLsbD_and, getLsbD_window, getLsbD_window]
      simpa [hiw] using hlane
    simpa using hbit
  · rintro ⟨k, ⟨hlo, hhi⟩, hlo', hhi'⟩ hzero
    have hbit := congrArg (fun x => BitVec.getLsbD x (8 * k)) hzero
    have h1 : 8 * k < w := by omega
    have h2 : 8 * lo ≤ 8 * k := by omega
    have h3 : 8 * k < 8 * hi := by omega
    have h4 : 8 * lo' ≤ 8 * k := by omega
    have h5 : 8 * k < 8 * hi' := by omega
    simp only [BitVec.getLsbD_and, getLsbD_window, h1, h2, h3, h4, h5, decide_true,
      Bool.and_self] at hbit
    simp at hbit

/-- Clearing the low `n` bits of an address rounds it down to a multiple of `2 ^ n`. -/
theorem clearLow_toNat (x : BitVec w) (n : Nat) :
    (x >>> n <<< n).toNat = x.toNat / 2 ^ n * 2 ^ n := by
  rw [BitVec.toNat_shiftLeft, BitVec.toNat_ushiftRight, Nat.shiftLeft_eq, Nat.shiftRight_eq_div_pow]
  apply Nat.mod_eq_of_lt
  exact (Nat.div_mul_le_self _ _).trans_lt x.isLt

/-- Folding overwrites from the oldest to the youngest writer leaves what the
    youngest writer wrote, or the initial value when there is none. -/
theorem foldl_overwrite {α β : Type*} (writers : List α) (writes : α → Bool) (written : α → β)
    (init : β) :
    writers.foldl (fun b a => if writes a then written a else b) init =
      (writers.reverse.find? writes).elim init written := by
  induction writers using List.reverseRecOn with
  | nil => rfl
  | append_singleton rest last ih =>
    rw [List.foldl_append, List.reverse_append]
    by_cases hlast : writes last = true
    · simp [hlast]
    · simpa [hlast] using ih

end Lanes
