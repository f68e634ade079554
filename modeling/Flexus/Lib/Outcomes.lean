import Mathlib.Tactic

/-!
# Outcomes of faulting computations

A computation yields a property when every value it returns has the property and every
fault it stops with is one that is allowed. The rules follow the computation.
-/

namespace Runs

universe u

variable {φ : Type*} {α β : Type u} {allowed : φ → Prop} {P Q : α → Prop} {R : β → Prop} {x : Except φ α}

/-- Every value has the property and every fault is allowed. -/
def Yields (allowed : φ → Prop) (x : Except φ α) (P : α → Prop) : Prop :=
  (∀ a, x = .ok a → P a) ∧ ∀ f, x = .error f → allowed f

theorem Yields.ok {a : α} (h : P a) : Yields allowed (.ok a) P := by
  refine ⟨?_, ?_⟩
  · rintro b hb
    cases hb
    exact h
  · rintro f hf
    cases hf

theorem Yields.of_eq_ok {a : α} (hx : x = .ok a) (h : P a) : Yields allowed x P := hx ▸ .ok h

theorem Yields.pure {a : α} (h : P a) : Yields allowed (Pure.pure a) P := .ok h

theorem Yields.error {f : φ} (h : allowed f) : Yields allowed (.error f) P := by
  refine ⟨?_, ?_⟩
  · rintro b hb
    cases hb
  · rintro g hg
    cases hg
    exact h

/-- One computation after another. -/
theorem Yields.bind {f : α → Except φ β} (hx : Yields allowed x P) (hf : ∀ a, P a → Yields allowed (f a) R) :
    Yields allowed (x >>= f) R := by
  cases x with
  | error g => exact .error (hx.2 g rfl)
  | ok a => exact hf a (hx.1 a rfl)

theorem Yields.map {f : α → β} (hx : Yields allowed x P) (hf : ∀ a, P a → R (f a)) :
    Yields allowed (f <$> x) R := by
  cases x with
  | error g => exact .error (hx.2 g rfl)
  | ok a => exact .ok (hf a (hx.1 a rfl))

theorem Yields.weaken (hx : Yields allowed x P) (h : ∀ a, P a → Q a) : Yields allowed x Q :=
  ⟨fun a ha => h a (hx.1 a ha), hx.2⟩

theorem Yields.allow {allowed' : φ → Prop} (hx : Yields allowed x P) (h : ∀ f, allowed f → allowed' f) :
    Yields allowed' x P :=
  ⟨hx.1, fun f hf => h f (hx.2 f hf)⟩

/-- Two properties of the same computation, of which the second one's faults count. -/
theorem Yields.also {allowed' : φ → Prop} (hx : Yields allowed x P) (hy : Yields allowed' x Q) :
    Yields allowed' x fun a => P a ∧ Q a :=
  ⟨fun a ha => ⟨hx.1 a ha, hy.1 a ha⟩, hy.2⟩

/-- What is known of the values is enough when the faults are all allowed. -/
theorem Yields.of_ok (hfault : ∀ f, x = .error f → allowed f) (h : ∀ a, x = .ok a → P a) :
    Yields allowed x P :=
  ⟨h, hfault⟩

theorem Yields.ite {b : Prop} [Decidable b] {y : Except φ α} (hx : b → Yields allowed x P)
    (hy : ¬ b → Yields allowed y P) : Yields allowed (if b then x else y) P := by
  by_cases hb : b
  · rw [if_pos hb]
    exact hx hb
  · rw [if_neg hb]
    exact hy hb

/-- A loop over the numbers below a bound, with an invariant for each number of passes. -/
theorem Yields.foldlM_range {I : Nat → α → Prop} {f : α → Nat → Except φ α} {a : α} {n : Nat} (hstart : I 0 a)
    (hpass : ∀ i < n, ∀ a, I i a → Yields allowed (f a i) (I (i + 1))) :
    Yields allowed ((List.range n).foldlM f a) (I n) := by
  induction n with
  | zero => exact .ok hstart
  | succ n ih =>
    rw [List.range_succ, List.foldlM_append]
    apply (ih fun i hi => hpass i (by omega)).bind
    intro b hb
    rw [List.foldlM_cons]
    apply (hpass n (by omega) b hb).bind
    intro c hc
    exact .pure hc

end Runs
