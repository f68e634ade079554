import Mathlib.Tactic

/-!
# Computations with events

A computation records events as it goes on, and it returns a value or stops. Some stops are
faults. The events tell exactly whether there is a fault when a computation faults only at an
event that is not sound, and at each such event.
-/

namespace Runs

universe u

/-- A computation with the events of its run. -/
structure Traced (ε φ : Type*) (α : Type u) where
  events : List ε
  result : Except φ α

namespace Traced

variable {ε φ : Type*} {α β : Type u}

instance : Monad (Traced ε φ) where
  pure a := ⟨[], .ok a⟩
  bind x f :=
    match x.result with
    | .ok a => ⟨x.events ++ (f a).events, (f a).result⟩
    | .error stop => ⟨x.events, .error stop⟩

@[simp]
theorem pure_bind (a : α) (f : α → Traced ε φ β) : pure a >>= f = f a := rfl

/-- Stop without an event. -/
def stop (f : φ) : Traced ε φ α := ⟨[], .error f⟩

@[simp]
theorem stop_bind (g : φ) (f : α → Traced ε φ β) : stop g >>= f = stop g := rfl

/-- An event, and what comes after it. -/
def record (e : ε) (x : Traced ε φ α) : Traced ε φ α := ⟨e :: x.events, x.result⟩

/-- There is a fault exactly if an event is not sound, and the value has a property that can
    depend on the events. -/
structure Meets (sound : ε → Prop) (fault : φ → Prop) (x : Traced ε φ α) (P : α → List ε → Prop) :
    Prop where
  exact : (∃ f, x.result = .error f ∧ fault f) ↔ ∃ e ∈ x.events, ¬ sound e
  yields : ∀ a, x.result = .ok a → P a x.events

variable {sound : ε → Prop} {fault : φ → Prop} {x : Traced ε φ α} {P Q : α → List ε → Prop}
  {R : β → List ε → Prop} {e : ε}

theorem error_iff {g : φ} : (∃ f, (Except.error g : Except φ α) = .error f ∧ fault f) ↔ fault g := by
  constructor
  · rintro ⟨f, hf, hfault⟩
    cases hf
    exact hfault
  · exact fun hfault => ⟨g, rfl, hfault⟩

namespace Meets

theorem weaken (h : Meets sound fault x P) (hPQ : ∀ a l, P a l → Q a l) : Meets sound fault x Q :=
  ⟨h.exact, fun a ha => hPQ a _ (h.yields a ha)⟩

theorem pure {a : α} (h : P a []) : Meets sound fault (Pure.pure a) P := by
  refine ⟨iff_of_false ?_ ?_, ?_⟩
  · rintro ⟨f, hf, -⟩
    cases hf
  · rintro ⟨e, he, -⟩
    exact List.not_mem_nil he
  · intro b hb
    cases hb
    exact h

theorem stop {f : φ} (h : ¬ fault f) : Meets sound fault (stop f : Traced ε φ α) P := by
  refine ⟨iff_of_false ?_ ?_, ?_⟩
  · rintro ⟨g, hg, hfault⟩
    cases hg
    exact h hfault
  · rintro ⟨e, he, -⟩
    exact List.not_mem_nil he
  · intro b hb
    cases hb

/-- What a computation before another one returned is sound so far. -/
theorem sound_of_ok (h : Meets sound fault x P) {a : α} (ha : x.result = .ok a) : ∀ e ∈ x.events, sound e := by
  intro e he
  by_contra hsound
  obtain ⟨f, hf, -⟩ := h.exact.mpr ⟨e, he, hsound⟩
  rw [ha] at hf
  cases hf

/-- One computation after another. -/
theorem bind {f : α → Traced ε φ β} (hx : Meets sound fault x P)
    (hf : ∀ a l, P a l → Meets sound fault (f a) fun b l' => R b (l ++ l')) :
    Meets sound fault (x >>= f) R := by
  obtain ⟨events, result⟩ := x
  cases result with
  | error stop =>
    refine ⟨?_, fun b hb => by cases hb⟩
    refine Iff.trans ?_ hx.exact
    exact error_iff.trans error_iff.symm
  | ok a =>
    have hnext := hf a events (hx.yields a rfl)
    refine ⟨?_, fun b hb => hnext.yields b hb⟩
    change (∃ g, (f a).result = .error g ∧ fault g) ↔ ∃ e ∈ events ++ (f a).events, ¬ sound e
    rw [hnext.exact]
    constructor
    · rintro ⟨e, he, hsound⟩
      exact ⟨e, List.mem_append_right _ he, hsound⟩
    · rintro ⟨e, he, hsound⟩
      rcases List.mem_append.mp he with he | he
      · exact absurd (hx.sound_of_ok rfl e he) hsound
      · exact ⟨e, he, hsound⟩

theorem ite {b : Prop} [Decidable b] {y : Traced ε φ α} (hx : b → Meets sound fault x P)
    (hy : ¬ b → Meets sound fault y P) : Meets sound fault (if b then x else y) P := by
  by_cases hb : b
  · rw [if_pos hb]
    exact hx hb
  · rw [if_neg hb]
    exact hy hb

/-- A sound event. -/
theorem record (he : sound e) (hx : Meets sound fault x fun a l => P a (e :: l)) :
    Meets sound fault (record e x) P := by
  refine ⟨hx.exact.trans ⟨?_, ?_⟩, hx.yields⟩
  · rintro ⟨e', he', hsound⟩
    exact ⟨e', List.mem_cons_of_mem _ he', hsound⟩
  · rintro ⟨e', he', hsound⟩
    rcases List.mem_cons.mp he' with rfl | he'
    · exact absurd he hsound
    · exact ⟨e', he', hsound⟩

/-- An event that is not sound, with its fault. -/
theorem record_fault {f : φ} (he : ¬ sound e) (hx : x.result = .error f) (hf : fault f) :
    Meets sound fault (Traced.record e x) P := by
  refine ⟨iff_of_true ⟨f, hx, hf⟩ ⟨e, List.mem_cons_self, he⟩, ?_⟩
  intro a ha
  cases hx.symm.trans ha

end Meets

end Traced

end Runs
