import Mathlib.Tactic

/-!
# Leading runs

How many of the first members of a sequence have a property before one has not.
-/

namespace LeadingRun

/-- The number of members of the sequence `p 0, p 1, ...`, of the first `n`, that come before
    a false one. -/
def run : Nat → (Nat → Bool) → Nat
  | 0, _ => 0
  | n + 1, p => if p 0 then run n (fun j => p (j + 1)) + 1 else 0

variable {n : Nat} {p q : Nat → Bool}

theorem run_le : ∀ (n : Nat) (p : Nat → Bool), run n p ≤ n
  | 0, _ => Nat.le_refl 0
  | n + 1, p => by
    have ih := run_le n (fun j => p (j + 1))
    rw [run]
    split <;> omega

theorem run_congr (h : ∀ j < n, p j = q j) : run n p = run n q := by
  induction n generalizing p q with
  | zero => rfl
  | succ n ih =>
    rw [run, run, h 0 (by omega), ih fun j hj => h (j + 1) (by omega)]

/-- The run goes on behind a part of the sequence only when it covers that part. -/
theorem run_add (m n : Nat) (p : Nat → Bool) :
    run (m + n) p = if run m p = m then m + run n (fun j => p (m + j)) else run m p := by
  induction m generalizing p with
  | zero => simp [run]
  | succ m ih =>
    have hcount : m + 1 + n = (m + n) + 1 := by omega
    rw [hcount, run, run, ih]
    by_cases hp : p 0
    · have hshift : ∀ j, m + j + 1 = m + 1 + j := fun j => by omega
      simp only [hp, if_true, Nat.add_right_cancel_iff, hshift]
      split <;> omega
    · simp [hp]

theorem run_eq_self_iff : run n p = n ↔ ∀ j < n, p j = true := by
  induction n generalizing p with
  | zero => simp [run]
  | succ n ih =>
    rw [run]
    by_cases hp : p 0 = true
    · rw [if_pos hp, Nat.add_right_cancel_iff, ih]
      constructor
      · intro h j hj
        cases j with
        | zero => exact hp
        | succ j => exact h j (by omega)
      · exact fun h j hj => h (j + 1) (by omega)
    · rw [if_neg hp]
      constructor
      · intro h
        omega
      · exact fun h => absurd (h 0 (by omega)) hp

/-- The members that equal the one before them are those that equal the first. -/
theorem run_adjacent (n : Nat) (a : Nat → Bool) :
    run n (fun j => a j == a (j + 1)) = run n (fun j => a 0 == a (j + 1)) := by
  induction n generalizing a with
  | zero => rfl
  | succ n ih =>
    rw [run, run, ih fun j => a (j + 1)]
    by_cases h : a 0 = a (0 + 1)
    · simp only [h]
    · simp [h]

end LeadingRun
