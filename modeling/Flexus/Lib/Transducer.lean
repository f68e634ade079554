import Mathlib.Tactic

/-!
# Machines with outputs

A machine answers every input with an output and a next state.
-/

namespace Transducer

variable {σ ι ω α β : Type*}

/-- The outputs and the final state of a sequence of inputs. -/
def run (step : σ → ι → ω × σ) : σ → List ι → List ω × σ
  | s, [] => ([], s)
  | s, i :: is => ((step s i).1 :: (run step (step s i).2 is).1, (run step (step s i).2 is).2)

/-- Each input meets a condition on the state it finds. -/
def EachMeets (step : σ → ι → ω × σ) (Meets : σ → ι → Prop) : σ → List ι → Prop
  | _, [] => True
  | s, i :: is => Meets s i ∧ EachMeets step Meets (step s i).2 is

instance EachMeets.decidable {step : σ → ι → ω × σ} {Meets : σ → ι → Prop} [∀ s i, Decidable (Meets s i)] :
    ∀ (is : List ι) (s : σ), Decidable (EachMeets step Meets s is)
  | [], _ => .isTrue trivial
  | i :: is, s =>
    have : Decidable (EachMeets step Meets (step s i).2 is) := EachMeets.decidable is _
    inferInstanceAs (Decidable (Meets s i ∧ EachMeets step Meets (step s i).2 is))

variable (f g : σ → ι → ω × σ) (seen : ω → β) (view : σ → α)

/-- One input is answered alike and leaves states that look alike. -/
def StepAgrees (s t : σ) (i : ι) : Prop :=
  seen (f s i).1 = seen (g t i).1 ∧ view (f s i).2 = view (g t i).2

/-- A sequence of inputs is answered alike and leaves states that look alike. -/
def Agrees (s t : σ) (is : List ι) : Prop :=
  (run f s is).1.map seen = (run g t is).1.map seen ∧ view (run f s is).2 = view (run g t is).2

/-- The machines agree after each input of the sequence. -/
def AgreesThroughout (s t : σ) (is : List ι) : Prop := ∀ pre, pre <+: is → Agrees f g seen view s t pre

variable {f g seen view} {s t : σ} {i : ι} {is : List ι}

theorem agrees_cons :
    Agrees f g seen view s t (i :: is) ↔
      seen (f s i).1 = seen (g t i).1 ∧ Agrees f g seen view (f s i).2 (g t i).2 is := by
  simp only [Agrees, run, List.map_cons, List.cons.injEq]
  tauto

theorem agreesThroughout_cons (hview : view s = view t) :
    AgreesThroughout f g seen view s t (i :: is) ↔
      StepAgrees f g seen view s t i ∧ AgreesThroughout f g seen view (f s i).2 (g t i).2 is := by
  constructor
  · intro hall
    have hone := agrees_cons.mp (hall [i] (List.prefix_cons_inj i |>.mpr List.nil_prefix))
    refine ⟨⟨hone.1, hone.2.2⟩, fun pre hpre => ?_⟩
    exact (agrees_cons.mp (hall (i :: pre) ((List.prefix_cons_inj i).mpr hpre))).2
  · rintro ⟨hone, hrest⟩ pre hpre
    cases pre with
    | nil => exact ⟨rfl, hview⟩
    | cons j pre =>
      obtain ⟨rfl, hshort⟩ := List.cons_prefix_cons.mp hpre
      exact agrees_cons.mpr ⟨hone.1, hrest pre hshort⟩

/-- Agreement throughout a sequence, from the condition under which one step agrees. -/
theorem agreesThroughout_iff {Meets : σ → ι → Prop}
    (hstep : ∀ s t i, view s = view t → (StepAgrees f g seen view s t i ↔ Meets t i))
    (hview : view s = view t) :
    AgreesThroughout f g seen view s t is ↔ EachMeets g Meets t is := by
  induction is generalizing s t with
  | nil => exact iff_of_true (fun pre hpre => List.prefix_nil.mp hpre ▸ ⟨rfl, hview⟩) trivial
  | cons i is ih =>
    rw [agreesThroughout_cons hview, hstep s t i hview, EachMeets, and_congr_right_iff]
    intro hmeets
    exact ih ((hstep s t i hview).mpr hmeets).2

theorem AgreesThroughout.agrees (h : AgreesThroughout f g seen view s t is) : Agrees f g seen view s t is :=
  h is (List.prefix_refl is)

/-- A machine whose steps look alike from states that look alike agrees with itself. -/
theorem agrees_of_congr (hstep : ∀ s t i, view s = view t → StepAgrees f f seen view s t i)
    (hview : view s = view t) : Agrees f f seen view s t is := by
  induction is generalizing s t with
  | nil => exact ⟨rfl, hview⟩
  | cons i is ih => exact agrees_cons.mpr ⟨(hstep s t i hview).1, ih (hstep s t i hview).2⟩

/-- A machine whose steps simulate those of another one answers as the other one does, up to how
    answers are told. -/
theorem run_simulation {σ' ω' : Type*} {g : σ' → ι → ω' × σ'} {R : σ → σ' → Prop} {told : ω' → ω} {s' : σ'} (is : List ι)
    (hstep : ∀ s s' i, R s s' → (f s i).1 = told (g s' i).1 ∧ R (f s i).2 (g s' i).2) (h : R s s') :
    (run f s is).1 = (run g s' is).1.map told ∧ R (run f s is).2 (run g s' is).2 := by
  induction is generalizing s s' with
  | nil => exact ⟨rfl, h⟩
  | cons i is ih =>
    obtain ⟨hsame, hnext⟩ := hstep s s' i h
    obtain ⟨hanswers, hend⟩ := ih hnext
    exact ⟨by rw [run, run, List.map_cons, hsame, hanswers], hend⟩

end Transducer
