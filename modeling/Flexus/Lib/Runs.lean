import Mathlib.Tactic

/-!
# Runs of a faulting state machine

A machine is a step function that either produces the next state or stops with a
fault. The states it reaches, possibly only through steps that meet a condition
on the state before them, and the rule that carries an invariant along.
-/

namespace Runs

variable {σ ε φ : Type*}

/-- The states reached from `init` by fault-free steps that all meet `Meets`,
    a condition on the state before the step and its event. -/
inductive Reaches (step : σ → ε → Except φ σ) (Meets : σ → ε → Prop) (init : σ) : σ → Prop
  | start : Reaches step Meets init init
  | next {s s' : σ} {e : ε} : Reaches step Meets init s → Meets s e → step s e = .ok s' →
      Reaches step Meets init s'

/-- Every fault-free run, whatever its steps. -/
def Anything : σ → ε → Prop := fun _ _ => True

variable {step : σ → ε → Except φ σ} {Meets Meets' : σ → ε → Prop} {init s s' : σ}

/-- An invariant of the initial state that every admitted step keeps holds in
    every state reached. -/
theorem Reaches.invariant {I : σ → Prop} (hinit : I init)
    (hstep : ∀ s e s', I s → Meets s e → step s e = .ok s' → I s')
    (h : Reaches step Meets init s) : I s := by
  induction h with
  | start => exact hinit
  | next _ hmeets hok ih => exact hstep _ _ _ ih hmeets hok

/-- An invariant may be used to prove the next one: the second invariant's step
    lemma starts from a state in which the first one is known. -/
theorem Reaches.invariant_given {I J : σ → Prop}
    (hI : ∀ s, Reaches step Meets init s → I s) (hinit : J init)
    (hstep : ∀ s e s', I s → J s → Meets s e → step s e = .ok s' → J s')
    (h : Reaches step Meets init s) : J s := by
  induction h with
  | start => exact hinit
  | next hbefore hmeets hok ih => exact hstep _ _ _ (hI _ hbefore) ih hmeets hok

/-- A state reached under a condition is reached under every weaker one. -/
theorem Reaches.weaken (hweaker : ∀ s e, Meets s e → Meets' s e)
    (h : Reaches step Meets init s) : Reaches step Meets' init s := by
  induction h with
  | start => exact .start
  | next _ hmeets hok ih => exact .next ih (hweaker _ _ hmeets) hok

/-- A list of events run in order, while each of them passes a test and none faults. -/
def runWhile (step : σ → ε → Except φ σ) (test : σ → ε → Bool) : σ → List ε → Option σ
  | s, [] => some s
  | s, e :: es =>
    if test s e then
      match step s e with
      | .ok s' => runWhile step test s' es
      | .error _ => none
    else none

/-- Running a list of events reaches its final state. -/
theorem reaches_of_runWhile {test : σ → ε → Bool} (htest : ∀ s e, test s e = true → Meets s e)
    {es : List ε} (hrun : runWhile step test init es = some s) : Reaches step Meets init s := by
  suffices hgen : ∀ start, Reaches step Meets init start → runWhile step test start es = some s →
      Reaches step Meets init s from hgen init .start hrun
  clear hrun
  intro start hstart hrun
  induction es generalizing start with
  | nil =>
    simp only [runWhile, Option.some.injEq] at hrun
    rwa [← hrun]
  | cons e es ih =>
    simp only [runWhile] at hrun
    split at hrun
    · next hmeets =>
      split at hrun
      · next mid hmid => exact ih mid (.next hstart (htest _ _ hmeets) hmid) hrun
      · cases hrun
    · cases hrun

/-- A state with a given property is reached when running a list of events leads to
    one. -/
theorem exists_reaches {test : σ → ε → Bool} (htest : ∀ s e, test s e = true → Meets s e)
    {es : List ε} {P : σ → Bool} (hrun : (runWhile step test init es).any P = true) :
    ∃ s, Reaches step Meets init s ∧ P s = true := by
  cases hend : runWhile step test init es with
  | none => simp [hend] at hrun
  | some s =>
    rw [hend] at hrun
    exact ⟨s, reaches_of_runWhile htest hend, hrun⟩

/-! ## Given events -/

/-- Every state of a run of the given events has a property, up to the first fault. -/
def Throughout (step : σ → ε → Except φ σ) (P : σ → Prop) : σ → List ε → Prop
  | s, [] => P s
  | s, e :: es => P s ∧
    match step s e with
    | .ok s' => Throughout step P s' es
    | .error _ => True

/-- Every event meets a condition on the state it finds, up to the first fault. -/
def EachMeets (step : σ → ε → Except φ σ) (Meets : σ → ε → Prop) : σ → List ε → Prop
  | _, [] => True
  | s, e :: es => Meets s e ∧
    match step s e with
    | .ok s' => EachMeets step Meets s' es
    | .error _ => True

instance EachMeets.decidable {step : σ → ε → Except φ σ} {Meets : σ → ε → Prop}
    [∀ s e, Decidable (Meets s e)] : ∀ (es : List ε) (s : σ), Decidable (EachMeets step Meets s es)
  | [], _ => .isTrue trivial
  | e :: es, s =>
    have : Decidable (match step s e with
        | .ok s' => EachMeets step Meets s' es
        | .error _ => True) :=
      match step s e with
      | .ok s' => EachMeets.decidable es s'
      | .error _ => .isTrue trivial
    inferInstanceAs (Decidable (_ ∧ _))

/-- A property that follows from an invariant, and that a step of the invariant keeps exactly
    when its event meets a condition under which the invariant is kept as well. -/
theorem throughout_iff {I P : σ → Prop} {Valid : σ → ε → Prop} {es : List ε}
    (hP : ∀ s, I s → P s)
    (hok : ∀ s e, I s → Valid s e → ∃ s', step s e = .ok s')
    (hexact : ∀ s e s', I s → Valid s e → step s e = .ok s' → P s' → Meets s e)
    (hkeep : ∀ s e s', I s → Valid s e → Meets s e → step s e = .ok s' → I s')
    (hinit : I init) (hvalid : EachMeets step Valid init es) :
    Throughout step P init es ↔ EachMeets step Meets init es := by
  induction es generalizing init with
  | nil => exact iff_of_true (hP init hinit) trivial
  | cons e es ih =>
    obtain ⟨hone, hrest⟩ := hvalid
    obtain ⟨s', hs'⟩ := hok init e hinit hone
    simp only [Throughout, EachMeets, hs', hP init hinit, true_and] at hrest ⊢
    constructor
    · intro hall
      have hfirst : P s' := by
        cases es with
        | nil => exact hall
        | cons _ _ => exact hall.1
      have hmeets := hexact init e s' hinit hone hs' hfirst
      exact ⟨hmeets, (ih (hkeep init e s' hinit hone hmeets hs') hrest).mp hall⟩
    · rintro ⟨hmeets, hmeetsRest⟩
      exact (ih (hkeep init e s' hinit hone hmeets hs') hrest).mpr hmeetsRest

/-! ## Faulting computations -/

section Faults

universe u

variable {α β : Type u} {x : Except φ α} {f : α → Except φ β} {g : α → β} {a : α} {b : β}

theorem bind_eq_ok : (x >>= f) = .ok b ↔ ∃ a, x = .ok a ∧ f a = .ok b := by
  cases x with
  | error _ => simp [bind, Except.bind]
  | ok _ => simp [bind, Except.bind]

theorem bind_eq_error {e : φ} :
    (x >>= f) = .error e ↔ x = .error e ∨ ∃ a, x = .ok a ∧ f a = .error e := by
  cases x with
  | error _ => simp [bind, Except.bind]
  | ok _ => simp [bind, Except.bind]

theorem map_eq_ok : (g <$> x) = .ok b ↔ ∃ a, x = .ok a ∧ g a = b := by
  cases x with
  | error _ => simp [Functor.map, Except.map]
  | ok _ => simp [Functor.map, Except.map]

theorem map_eq_error {e : φ} : (g <$> x) = .error e ↔ x = .error e := by
  cases x with
  | error _ => simp [Functor.map, Except.map]
  | ok _ => simp [Functor.map, Except.map]

theorem pure_eq_ok {a' : α} : (pure a : Except φ α) = .ok a' ↔ a = a' := by
  simp [pure, Except.pure]

end Faults

end Runs
