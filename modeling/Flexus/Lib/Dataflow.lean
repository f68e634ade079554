import Flexus.Lib.Runs

/-!
# Networks of actions

Actions that wait for their arguments. An argument is given from the start or satisfied by
another action once that has run. An action whose arguments are all satisfied runs once, on a
store that all share, and can fail. Which action runs next is left open.
-/

namespace Dataflow

open Runs

variable {ι σ φ : Type*} [DecidableEq ι]

/-- The actions, how many arguments each has, which arguments are given, which arguments an
    action satisfies, and what it does to the store. -/
structure Network (ι σ φ : Type*) where
  nodes : List ι
  arity : ι → Nat
  given : ι → Nat → Bool
  signals : ι → ι → Nat → Bool
  run : ι → σ → Except φ σ

structure State (ι σ : Type*) where
  store : σ
  done : List ι

variable (net : Network ι σ φ)

/-- The argument is given, or an action that satisfies it has run. -/
def Satisfied (s : State ι σ) (i : ι) (k : Nat) : Prop := net.given i k ∨ ∃ j ∈ s.done, net.signals j i k

/-- An action that can run now. -/
def Ready (s : State ι σ) (i : ι) : Prop := i ∈ net.nodes ∧ i ∉ s.done ∧ ∀ k < net.arity i, Satisfied net s i k

instance (s : State ι σ) (i : ι) (k : Nat) : Decidable (Satisfied net s i k) :=
  inferInstanceAs (Decidable (_ ∨ _))

instance (s : State ι σ) (i : ι) : Decidable (Ready net s i) := inferInstanceAs (Decidable (_ ∧ _ ∧ _))

/-- The evaluation of an action, which does nothing unless the action is ready. -/
def step (s : State ι σ) (i : ι) : Except φ (State ι σ) :=
  if Ready net s i then
    match net.run i s.store with
    | .ok store => .ok ⟨store, i :: s.done⟩
    | .error fault => .error fault
  else .ok s

/-- Nothing has run. -/
def start (store : σ) : State ι σ := ⟨store, []⟩

/-- Every action has run. -/
def Finished (s : State ι σ) : Prop := ∀ i ∈ net.nodes, i ∈ s.done

variable {net}

theorem step_of_ready {s : State ι σ} {i : ι} {store : σ} (hready : Ready net s i)
    (hrun : net.run i s.store = .ok store) : step net s i = .ok ⟨store, i :: s.done⟩ := by
  rw [step, if_pos hready, hrun]

theorem step_of_not_ready {s : State ι σ} {i : ι} (hready : ¬Ready net s i) : step net s i = .ok s := by
  rw [step, if_neg hready]

/-- What a step does: nothing, or it runs one action. -/
theorem step_cases {s s' : State ι σ} {i : ι} (h : step net s i = .ok s') :
    s' = s ∨ Ready net s i ∧ ∃ store, net.run i s.store = .ok store ∧ s' = ⟨store, i :: s.done⟩ := by
  by_cases hready : Ready net s i
  · rw [step, if_pos hready] at h
    split at h
    · next store hrun => exact Or.inr ⟨hready, store, hrun, (Except.ok.inj h).symm⟩
    · cases h
  · rw [step_of_not_ready hready] at h
    exact Or.inl (Except.ok.inj h).symm

/-! ## Supplied networks -/

/-- What an action needs holds at the start, or is established by every action that satisfies
    some argument of it that is not given. -/
def Supply {κ : Type*} (net : Network ι σ φ) (Holds : κ → σ → Prop) (needs provides : ι → List κ) (init : σ) : Prop :=
  ∀ i ∈ net.nodes, ∀ s ∈ needs i, Holds s init ∨
    ∃ k < net.arity i, ¬net.given i k ∧ ∀ j ∈ net.nodes, net.signals j i k → s ∈ provides j

/-- On a store where all that an action needs holds, the action succeeds, keeps what holds and
    establishes what it provides. -/
def RunsWell {κ : Type*} (net : Network ι σ φ) (Holds : κ → σ → Prop) (needs provides : ι → List κ) (i : ι) : Prop :=
  ∀ store, (∀ s ∈ needs i, Holds s store) →
    ∃ store', net.run i store = .ok store' ∧ (∀ s, Holds s store → Holds s store') ∧ ∀ s ∈ provides i, Holds s store'

/-- What makes a network run without a fault: a family of properties of the store that running
    an action keeps, and that every action needs some of and establishes others of. -/
structure Supplied {κ : Type*} (net : Network ι σ φ) (Holds : κ → σ → Prop) (needs provides : ι → List κ) (init : σ) :
    Prop where
  runs : ∀ i ∈ net.nodes, RunsWell net Holds needs provides i
  supply : Supply net Holds needs provides init

variable {κ : Type*} {Holds : κ → σ → Prop} {needs provides : ι → List κ} {init : σ}

/-- What is known of every state reached. -/
structure Sound (net : Network ι σ φ) (Holds : κ → σ → Prop) (provides : ι → List κ) (init : σ) (s : State ι σ) :
    Prop where
  isNode : ∀ i, i ∈ s.done → i ∈ net.nodes
  kept : ∀ k, Holds k init → Holds k s.store
  provided : ∀ i, i ∈ s.done → ∀ k ∈ provides i, Holds k s.store

omit [DecidableEq ι] in
theorem sound_start : Sound net Holds provides init (start init) :=
  ⟨fun _ h => absurd h List.not_mem_nil, fun _ h => h, fun _ h => absurd h List.not_mem_nil⟩

omit [DecidableEq ι] in
/-- A ready action finds all that it needs. -/
theorem needs_hold (hsup : Supply net Holds needs provides init) {s : State ι σ} {i : ι}
    (hs : Sound net Holds provides init s) (hready : Ready net s i) : ∀ k ∈ needs i, Holds k s.store := by
  intro k hk
  rcases hsup i hready.1 k hk with hinit | ⟨a, ha, hgiven, hsource⟩
  · exact hs.kept k hinit
  · rcases hready.2.2 a ha with hgiv | ⟨j, hj, hsig⟩
    · exact absurd hgiv hgiven
    · exact hs.provided j hj k (hsource j (hs.isNode j hj) hsig)

omit [DecidableEq ι] in
/-- What is known stays known when an action has run well. -/
theorem sound_done {s : State ι σ} {i : ι} {store : σ} (hs : Sound net Holds provides init s) (hi : i ∈ net.nodes)
    (hkeep : ∀ k, Holds k s.store → Holds k store) (hprov : ∀ k ∈ provides i, Holds k store) :
    Sound net Holds provides init ⟨store, i :: s.done⟩ := by
  constructor
  · intro j hj
    rcases List.mem_cons.mp hj with rfl | hj
    · exact hi
    · exact hs.isNode j hj
  · exact fun k hk => hkeep k (hs.kept k hk)
  · intro j hj k hk
    rcases List.mem_cons.mp hj with rfl | hj
    · exact hprov k hk
    · exact hkeep k (hs.provided j hj k hk)

namespace Supplied

/-- No step from such a state fails, and the next state is such a state again. -/
theorem step_sound (hsup : Supplied net Holds needs provides init) {s : State ι σ}
    (hs : Sound net Holds provides init s) (i : ι) : ∃ s', step net s i = .ok s' ∧ Sound net Holds provides init s' := by
  by_cases hready : Ready net s i
  · obtain ⟨store, hrun, hkeep, hprov⟩ := hsup.runs i hready.1 s.store (needs_hold hsup.supply hs hready)
    exact ⟨_, step_of_ready hready hrun, sound_done hs hready.1 hkeep hprov⟩
  · exact ⟨s, step_of_not_ready hready, hs⟩

theorem reaches_sound (hsup : Supplied net Holds needs provides init) {s : State ι σ}
    (h : Reaches (step net) Anything (start init) s) : Sound net Holds provides init s := by
  apply h.invariant sound_start
  intro s i s' hs _ hstep
  obtain ⟨t, ht, hsound⟩ := hsup.step_sound hs i
  rw [ht] at hstep
  rwa [← Except.ok.inj hstep]

/-- No reachable state has a step that fails. -/
theorem never_fails (hsup : Supplied net Holds needs provides init) {s : State ι σ}
    (h : Reaches (step net) Anything (start init) s) (i : ι) (f : φ) : step net s i ≠ .error f := by
  obtain ⟨s', hs', -⟩ := hsup.step_sound (hsup.reaches_sound h) i
  rw [hs']
  intro hcontra
  cases hcontra

end Supplied

/-! ## Completion -/

/-- Every argument is given or satisfied by an action of a lower rank. -/
def Ranked (net : Network ι σ φ) (rank : ι → Nat) : Prop :=
  ∀ i ∈ net.nodes, ∀ k < net.arity i, net.given i k ∨ ∃ j ∈ net.nodes, rank j < rank i ∧ net.signals j i k

/-- A part of a schedule that evaluates every action. -/
def Round (net : Network ι σ φ) (r : List ι) : Prop := ∀ i ∈ net.nodes, i ∈ r

/-- The evaluation of a list of actions. -/
def evaluate (net : Network ι σ φ) : State ι σ → List ι → Except φ (State ι σ)
  | s, [] => .ok s
  | s, i :: is =>
    match step net s i with
    | .ok s' => evaluate net s' is
    | .error f => .error f

theorem done_mono_step {s s' : State ι σ} {i : ι} (h : step net s i = .ok s') {j : ι} (hj : j ∈ s.done) : j ∈ s'.done := by
  rcases step_cases h with rfl | ⟨-, store, -, rfl⟩
  · exact hj
  · exact List.mem_cons_of_mem _ hj

theorem done_mono {s s' : State ι σ} {is : List ι} (h : evaluate net s is = .ok s') {j : ι} (hj : j ∈ s.done) :
    j ∈ s'.done := by
  induction is generalizing s with
  | nil => rwa [← Except.ok.inj h]
  | cons i is ih =>
    rw [evaluate] at h
    split at h
    · next t ht => exact ih h (done_mono_step ht hj)
    · cases h

theorem reaches_of_evaluate {s₀ s s' : State ι σ} {is : List ι} (hs : Reaches (step net) Anything s₀ s)
    (h : evaluate net s is = .ok s') : Reaches (step net) Anything s₀ s' := by
  induction is generalizing s with
  | nil => rwa [← Except.ok.inj h]
  | cons i is ih =>
    rw [evaluate] at h
    split at h
    · next t ht => exact ih (hs.next trivial ht) h
    · cases h

/-- An action whose arguments are satisfied is done after it has been evaluated. -/
theorem done_of_satisfied {s s' : State ι σ} {is : List ι} {i : ι} (h : evaluate net s is = .ok s')
    (hnode : i ∈ net.nodes) (hmem : i ∈ is) (hsat : ∀ k < net.arity i, Satisfied net s i k) : i ∈ s'.done := by
  induction is generalizing s with
  | nil => cases hmem
  | cons j is ih =>
    rw [evaluate] at h
    split at h
    · next t ht =>
      rcases List.mem_cons.mp hmem with rfl | htail
      · apply done_mono h
        by_cases hdone : i ∈ s.done
        · exact done_mono_step ht hdone
        · have hready : Ready net s i := ⟨hnode, hdone, hsat⟩
          rcases step_cases ht with rfl | ⟨-, store, -, rfl⟩
          · rw [step, if_pos hready] at ht
            split at ht
            · rw [← Except.ok.inj ht]
              exact List.mem_cons_self ..
            · cases ht
          · exact List.mem_cons_self ..
      · apply ih h htail
        intro k hk
        rcases hsat k hk with hgiven | ⟨m, hm, hsig⟩
        · exact Or.inl hgiven
        · exact Or.inr ⟨m, done_mono_step ht hm, hsig⟩
    · cases h

namespace Supplied

/-- From a state that is reached, every schedule runs to its end. -/
theorem evaluate_ok (hsup : Supplied net Holds needs provides init) {s : State ι σ}
    (hs : Sound net Holds provides init s) (is : List ι) :
    ∃ s', evaluate net s is = .ok s' ∧ Sound net Holds provides init s' := by
  induction is generalizing s with
  | nil => exact ⟨s, rfl, hs⟩
  | cons i is ih =>
    obtain ⟨t, ht, hsound⟩ := hsup.step_sound hs i
    obtain ⟨s', hs', hfin⟩ := ih hsound
    refine ⟨s', ?_, hfin⟩
    rw [evaluate, ht]
    exact hs'

/-- After as many rounds as there are ranks, all actions have run. -/
theorem finished_of_rounds (hsup : Supplied net Holds needs provides init) {rank : ι → Nat}
    (hrank : Ranked net rank) (rounds : List (List ι)) (hround : ∀ r ∈ rounds, Round net r)
    (hlen : ∀ i ∈ net.nodes, rank i < rounds.length) {s : State ι σ}
    (h : Reaches (step net) Anything (start init) s) :
    ∃ s', evaluate net s rounds.flatten = .ok s' ∧ Finished net s' := by
  suffices hgen : ∀ (rounds : List (List ι)) (n : Nat) (s : State ι σ), (∀ r ∈ rounds, Round net r) →
      Sound net Holds provides init s → (∀ i ∈ net.nodes, rank i < n → i ∈ s.done) →
      ∃ s', evaluate net s rounds.flatten = .ok s' ∧ ∀ i ∈ net.nodes, rank i < n + rounds.length → i ∈ s'.done by
    obtain ⟨s', hs', hdone⟩ := hgen rounds 0 s hround (hsup.reaches_sound h) (fun _ _ hlt => absurd hlt (by omega))
    exact ⟨s', hs', fun i hi => hdone i hi (by have := hlen i hi; omega)⟩
  intro rounds
  induction rounds with
  | nil => exact fun n s _ _ hdone => ⟨s, rfl, hdone⟩
  | cons r rounds ih =>
    intro n s hround hs hdone
    obtain ⟨t, ht, hsound⟩ := hsup.evaluate_ok hs r
    have hnext : ∀ i ∈ net.nodes, rank i < n + 1 → i ∈ t.done := by
      intro i hi hlt
      apply done_of_satisfied ht hi (hround r (List.mem_cons_self ..) i hi)
      intro k hk
      rcases hrank i hi k hk with hgiven | ⟨j, hj, hless, hsig⟩
      · exact Or.inl hgiven
      · exact Or.inr ⟨j, hdone j hj (by omega), hsig⟩
    obtain ⟨s', hs', hfin⟩ := ih (n + 1) t (fun r hr => hround r (List.mem_cons_of_mem _ hr)) hsound hnext
    refine ⟨s', ?_, fun i hi hlt => hfin i hi (by rw [List.length_cons] at hlt; omega)⟩
    rw [List.flatten_cons]
    have happend : ∀ (is js : List ι) (s t : State ι σ), evaluate net s is = .ok t →
        evaluate net s (is ++ js) = evaluate net t js := by
      intro is
      induction is with
      | nil =>
        intro js s t h
        rw [← Except.ok.inj h]
        rfl
      | cons i is ih =>
        intro js s t h
        rw [evaluate] at h
        rw [List.cons_append, evaluate]
        split at h
        · exact ih js _ t h
        · cases h
    rw [happend r _ s t ht, hs']

end Supplied

/-- An action with an argument that nothing satisfies never runs. -/
theorem never_done {i : ι} {k : Nat} (hk : k < net.arity i) (hgiven : ¬net.given i k)
    (hsource : ∀ j, ¬net.signals j i k) {store : σ} {s : State ι σ}
    (h : Reaches (step net) Anything (start store) s) : i ∉ s.done := by
  apply h.invariant (I := fun s => i ∉ s.done)
  · exact List.not_mem_nil
  · intro s j s' hs _ hstep hdone
    rcases step_cases hstep with rfl | ⟨hready, store, -, rfl⟩
    · exact hs hdone
    · rcases List.mem_cons.mp hdone with rfl | hdone
      · rcases hready.2.2 k hk with hg | ⟨m, -, hsig⟩
        · exact hgiven hg
        · exact hsource m hsig
      · exact hs hdone

/-- An action that fails whenever it has all that it needs never runs, when all others run well. -/
theorem never_done_of_fails (hsup : Supply net Holds needs provides init) {i : ι}
    (hruns : ∀ j ∈ net.nodes, j ≠ i → RunsWell net Holds needs provides j)
    (hfails : ∀ store, (∀ k ∈ needs i, Holds k store) → ∀ store', net.run i store ≠ .ok store') {s : State ι σ}
    (h : Reaches (step net) Anything (start init) s) : i ∉ s.done := by
  suffices hboth : Sound net Holds provides init s ∧ i ∉ s.done from hboth.2
  apply h.invariant (I := fun s => Sound net Holds provides init s ∧ i ∉ s.done)
  · exact ⟨sound_start, List.not_mem_nil⟩
  · intro s j s' hs _ hstep
    rcases step_cases hstep with rfl | ⟨hready, store, hrun, rfl⟩
    · exact hs
    · have hneeds := needs_hold hsup hs.1 hready
      by_cases hsame : j = i
      · subst hsame
        exact absurd hrun (hfails s.store hneeds store)
      · obtain ⟨store', hrun', hkeep, hprov⟩ := hruns j hready.1 hsame s.store hneeds
        rw [hrun] at hrun'
        rw [← Except.ok.inj hrun'] at hkeep hprov
        refine ⟨sound_done hs.1 hready.1 hkeep hprov, ?_⟩
        rw [List.mem_cons, not_or]
        exact ⟨fun h => hsame h.symm, hs.2⟩

end Dataflow
