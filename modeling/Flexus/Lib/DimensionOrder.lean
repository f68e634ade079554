import Mathlib.Logic.Relation
import Mathlib.Tactic

/-!
# Dimension-order routing

A message goes along one axis until its first coordinate is the one of its destination, and
then along another axis. An axis tells in which direction a message goes and on which virtual
channel; it carries the distance that each step shortens and a ranking of its channels that
grows along each route.
-/

namespace DimensionOrder

/-! ## Walks and cycles -/

section Walks

variable {σ τ : Type*} {R : σ → σ → Prop} {S : τ → τ → Prop} {a b t : σ} {n : Nat}

/-- Walks with a number of steps. -/
inductive Walk (R : σ → σ → Prop) : Nat → σ → σ → Prop
  | nil (a : σ) : Walk R 0 a a
  | cons {n : Nat} {a b c : σ} : R a b → Walk R n b c → Walk R (n + 1) a c

theorem Walk.map (f : σ → τ) (h : ∀ a b, R a b → S (f a) (f b)) (hwalk : Walk R n a b) :
    Walk S n (f a) (f b) := by
  induction hwalk with
  | nil a => exact .nil _
  | cons hstep _ ih => exact .cons (h _ _ hstep) ih

/-- If a step comes nearer by one at most, a walk is as long as the distance at least. -/
theorem Walk.dist_le (dist : σ → Nat) (h : ∀ a b, R a b → dist a ≤ dist b + 1) (hwalk : Walk R n a b) :
    dist a ≤ dist b + n := by
  induction hwalk with
  | nil a => exact le_refl _
  | cons hstep _ ih =>
    have hfirst := h _ _ hstep
    omega

/-- If there is always a step that comes nearer by one, there is a walk as long as the
    distance. -/
theorem walk_of_descent (dist : σ → Nat) (hzero : ∀ a, dist a = 0 ↔ a = t)
    (h : ∀ a, a ≠ t → ∃ b, R a b ∧ dist a = dist b + 1) (hdist : dist a = n) : Walk R n a t := by
  induction n generalizing a with
  | zero =>
    rw [(hzero a).mp hdist]
    exact .nil t
  | succ n ih =>
    have hat : a ≠ t := by
      intro hat
      have hnone := (hzero a).mpr hat
      omega
    obtain ⟨b, hstep, hnear⟩ := h a hat
    exact .cons hstep (ih (by omega))

/-- A relation along which a number grows has no cycles. -/
theorem acyclic_of_rank {rank : σ → Nat} (h : ∀ a b, R a b → rank a < rank b) (a : σ) :
    ¬ Relation.TransGen R a a := by
  intro hcycle
  have hgrows : ∀ b, Relation.TransGen R a b → rank a < rank b := by
    intro b hpath
    induction hpath with
    | single hstep => exact h _ _ hstep
    | tail _ hstep ih => exact ih.trans (h _ _ hstep)
  exact lt_irrefl _ (hgrows a hcycle)

end Walks

/-! ## Axes -/

section Axes

variable {α β V : Type*}

/-- A step in one of the two directions of an axis. -/
def Toward (Next : α → α → Prop) : Bool → α → α → Prop
  | true, a, b => Next a b
  | false, a, b => Next b a

/-- An axis of a network, with the direction and the virtual channel on which a message at a
    position leaves for another one. -/
structure Axis (α V : Type*) where
  Next : α → α → Prop
  forward : α → α → Bool
  channel : α → α → V
  dist : α → α → Nat
  rank : Bool → V → α → Nat
  bound : Nat
  next_unique {a b c : α} : Next a b → Next a c → b = c
  next_injective {a b c : α} : Next a c → Next b c → a = b
  dist_eq_zero {a t : α} : dist a t = 0 ↔ a = t
  dist_next {a b t : α} : Next a b → dist a t ≤ dist b t + 1 ∧ dist b t ≤ dist a t + 1
  progress {a t : α} : a ≠ t → ∃ b, Toward Next (forward a t) a b ∧ dist a t = dist b t + 1
  forward_step {a b t : α} : a ≠ t → b ≠ t → Toward Next (forward a t) a b → forward b t = forward a t
  rank_step {a b t : α} : a ≠ t → b ≠ t → Toward Next (forward a t) a b →
    rank (forward a t) (channel a t) a < rank (forward a t) (channel b t) b
  rank_lt (fwd : Bool) (v : V) (a : α) : rank fwd v a < bound

namespace Axis

variable (X : Axis α V) {a b c t : α} {fwd : Bool}

theorem toward_unique (hb : Toward X.Next fwd a b) (hc : Toward X.Next fwd a c) : b = c := by
  cases fwd with
  | true => exact X.next_unique hb hc
  | false => exact X.next_injective hb hc

theorem toward_not : Toward X.Next (!fwd) a b ↔ Toward X.Next fwd b a := by
  cases fwd <;> exact Iff.rfl

theorem dist_toward (h : Toward X.Next fwd a b) : X.dist a t ≤ X.dist b t + 1 := by
  cases fwd with
  | true => exact (X.dist_next h).1
  | false => exact (X.dist_next h).2

end Axis

end Axes

/-! ## Two axes -/

/-- The ports of a switch: two on each axis and one for its own messages. -/
inductive Port where
  | first (forward : Bool)
  | second (forward : Bool)
  | out
  deriving DecidableEq, Repr

namespace Port

/-- The port at the other end of a link. -/
def opposite : Port → Port
  | first fwd => first (!fwd)
  | second fwd => second (!fwd)
  | out => out

/-- The ports in the forward directions. -/
def IsForward (p : Port) : Prop := p = first true ∨ p = second true

@[simp]
theorem opposite_opposite (p : Port) : p.opposite.opposite = p := by
  cases p <;> simp [opposite]

theorem isForward_or_opposite {p : Port} (hp : p ≠ out) : p.IsForward ∨ p.opposite.IsForward := by
  cases p with
  | first fwd => cases fwd <;> simp [IsForward, opposite]
  | second fwd => cases fwd <;> simp [IsForward, opposite]
  | out => exact absurd rfl hp

end Port

section Routes

variable {α β V : Type*} (X : Axis α V) (Y : Axis β V)

/-- The neighbour of a switch behind one of its ports. -/
def Neighbour : Port → α × β → α × β → Prop
  | .first fwd, s, s' => Toward X.Next fwd s.1 s'.1 ∧ s.2 = s'.2
  | .second fwd, s, s' => s.1 = s'.1 ∧ Toward Y.Next fwd s.2 s'.2
  | .out, _, _ => False

def dist (s d : α × β) : Nat := X.dist s.1 d.1 + Y.dist s.2 d.2

/-- A number for each channel behind a port of a switch that grows along each route. -/
def rank : Port → V → α × β → Nat
  | .first fwd, v, s => X.rank fwd v s.1
  | .second fwd, v, s => X.bound + Y.rank fwd v s.2
  | .out, _, _ => X.bound + Y.bound

variable {X Y} {s s' s'' d : α × β} {p : Port}

theorem neighbour_unique (h : Neighbour X Y p s s') (h' : Neighbour X Y p s s'') : s' = s'' := by
  cases p with
  | first fwd => exact Prod.ext (X.toward_unique h.1 h'.1) (h.2.symm.trans h'.2)
  | second fwd => exact Prod.ext (h.1.symm.trans h'.1) (Y.toward_unique h.2 h'.2)
  | out => exact h.elim

theorem Neighbour.ne_out (h : Neighbour X Y p s s') : p ≠ .out := by
  rintro rfl
  exact h

theorem neighbour_opposite (h : Neighbour X Y p s s') : Neighbour X Y p.opposite s' s := by
  cases p with
  | first fwd => exact ⟨X.toward_not.mpr h.1, h.2.symm⟩
  | second fwd => exact ⟨h.1.symm, Y.toward_not.mpr h.2⟩
  | out => exact h

/-- The neighbours of a switch in the forward directions. -/
theorem exists_forward {P : Port → α × β → Prop} :
    (∃ port s', port.IsForward ∧ Neighbour X Y port s s' ∧ P port s') ↔
      (∃ a, X.Next s.1 a ∧ P (.first true) (a, s.2)) ∨ ∃ b, Y.Next s.2 b ∧ P (.second true) (s.1, b) := by
  constructor
  · rintro ⟨_, ⟨a, b⟩, rfl | rfl, ⟨hfirst, hsecond⟩, hP⟩
    · subst hsecond
      exact .inl ⟨a, hfirst, hP⟩
    · subst hfirst
      exact .inr ⟨b, hsecond, hP⟩
  · rintro (⟨a, hnext, hP⟩ | ⟨b, hnext, hP⟩)
    · exact ⟨.first true, (a, s.2), .inl rfl, ⟨hnext, rfl⟩, hP⟩
    · exact ⟨.second true, (s.1, b), .inr rfl, ⟨rfl, hnext⟩, hP⟩

theorem dist_eq_zero : dist X Y s d = 0 ↔ s = d := by
  unfold dist
  rw [Nat.add_eq_zero_iff, X.dist_eq_zero, Y.dist_eq_zero, Prod.ext_iff]

theorem dist_neighbour (h : Neighbour X Y p s s') : dist X Y s d ≤ dist X Y s' d + 1 := by
  unfold dist
  cases p with
  | first fwd =>
    have hnear := X.dist_toward (t := d.1) h.1
    rw [h.2]
    omega
  | second fwd =>
    have hnear := Y.dist_toward (t := d.2) h.2
    rw [h.1]
    omega
  | out => exact h.elim

variable [DecidableEq α] [DecidableEq β] (v₀ : V)

variable (X Y) in
/-- The port and the virtual channel on which a message leaves a switch. -/
def route (s d : α × β) : Port × V :=
  if s.1 ≠ d.1 then (.first (X.forward s.1 d.1), X.channel s.1 d.1)
  else if s.2 ≠ d.2 then (.second (Y.forward s.2 d.2), Y.channel s.2 d.2)
  else (.out, v₀)

variable {v₀}

theorem route_first (hx : s.1 ≠ d.1) :
    route X Y v₀ s d = (.first (X.forward s.1 d.1), X.channel s.1 d.1) := if_pos hx

theorem route_second (hx : s.1 = d.1) (hy : s.2 ≠ d.2) :
    route X Y v₀ s d = (.second (Y.forward s.2 d.2), Y.channel s.2 d.2) := by
  unfold route
  rw [if_neg (not_not_intro hx), if_pos hy]

theorem route_self : route X Y v₀ d d = (.out, v₀) := by
  unfold route
  rw [if_neg (not_not_intro rfl), if_neg (not_not_intro rfl)]

/-- The route of a message always goes to a neighbour that is nearer to its destination. -/
theorem route_progress (v₀ : V) (hsd : s ≠ d) :
    ∃ s', Neighbour X Y (route X Y v₀ s d).1 s s' ∧ dist X Y s d = dist X Y s' d + 1 := by
  unfold dist
  by_cases hx : s.1 = d.1
  · have hy : s.2 ≠ d.2 := fun hy => hsd (Prod.ext hx hy)
    obtain ⟨b, hstep, hnear⟩ := Y.progress hy
    rw [route_second hx hy]
    refine ⟨(s.1, b), ⟨rfl, hstep⟩, ?_⟩
    dsimp only
    omega
  · obtain ⟨a, hstep, hnear⟩ := X.progress hx
    rw [route_first hx]
    refine ⟨(a, s.2), ⟨hstep, rfl⟩, ?_⟩
    dsimp only
    omega

/-- A message follows its route to its destination on a way as long as the distance. -/
theorem walk_route : Walk (fun s s' => Neighbour X Y (route X Y v₀ s d).1 s s') (dist X Y s d) s d :=
  walk_of_descent (fun s => dist X Y s d) (fun _ => dist_eq_zero) (fun _ h => route_progress v₀ h) rfl

/-- A message whose first coordinate is right has left the first axis. -/
theorem bound_le_rank (hx : s.1 = d.1) :
    X.bound ≤ rank X Y (route X Y v₀ s d).1 (route X Y v₀ s d).2 s := by
  by_cases hy : s.2 = d.2
  · rw [Prod.ext hx hy, route_self]
    exact Nat.le_add_right _ _
  · rw [route_second hx hy]
    exact Nat.le_add_right _ _

/-- The number of a channel grows from each hop of a route to the next one. -/
theorem rank_route (h : Neighbour X Y (route X Y v₀ s d).1 s s') :
    rank X Y (route X Y v₀ s d).1 (route X Y v₀ s d).2 s <
      rank X Y (route X Y v₀ s' d).1 (route X Y v₀ s' d).2 s' := by
  by_cases hx : s.1 = d.1
  · by_cases hy : s.2 = d.2
    · rw [Prod.ext hx hy, route_self] at h
      exact h.elim
    · rw [route_second hx hy] at h ⊢
      obtain ⟨hsame, hstep⟩ := h
      have hx' : s'.1 = d.1 := hsame.symm.trans hx
      by_cases hy' : s'.2 = d.2
      · rw [Prod.ext hx' hy', route_self]
        exact Nat.add_lt_add_left (Y.rank_lt _ _ _) _
      · rw [route_second hx' hy', Y.forward_step hy hy' hstep]
        exact Nat.add_lt_add_left (Y.rank_step hy hy' hstep) _
  · rw [route_first hx] at h ⊢
    obtain ⟨hstep, -⟩ := h
    by_cases hx' : s'.1 = d.1
    · exact (X.rank_lt _ _ _).trans_le (bound_le_rank hx')
    · rw [route_first hx', X.forward_step hx hx' hstep]
      exact X.rank_step hx hx' hstep

end Routes

/-! ## Lines and rings -/

/-- The distance of two positions of a line. -/
def apart (a t : Nat) : Nat := (a - t) + (t - a)

/-- The positions of a line, which needs a single virtual channel. -/
def line (n : Nat) : Axis (Fin n) Bool where
  Next a b := b.val = a.val + 1
  forward a t := decide (a < t)
  channel _ _ := false
  dist a t := apart a t
  rank fwd _ a := if fwd then a.val else n - 1 - a.val
  bound := n + 1
  next_unique {a b c} hb hc := by omega
  next_injective {a b c} ha hb := by omega
  dist_eq_zero {a t} := by
    unfold apart
    omega
  dist_next {a b t} h := by
    unfold apart
    omega
  progress {a t} hne := by
    have ha := a.isLt
    have ht := t.isLt
    unfold apart
    by_cases hlt : a < t
    · refine ⟨⟨a.val + 1, by omega⟩, ?_, ?_⟩
      · rw [decide_eq_true hlt]
        rfl
      · dsimp only
        omega
    · refine ⟨⟨a.val - 1, by omega⟩, ?_, ?_⟩
      · rw [decide_eq_false hlt]
        change a.val = a.val - 1 + 1
        omega
      · dsimp only
        omega
  forward_step {a b t} ha hb h := by
    by_cases hlt : a < t
    · rw [decide_eq_true hlt] at h ⊢
      change b.val = a.val + 1 at h
      exact decide_eq_true (by omega)
    · rw [decide_eq_false hlt] at h ⊢
      change a.val = b.val + 1 at h
      exact decide_eq_false (by omega)
  rank_step {a b t} ha hb h := by
    by_cases hlt : a < t
    · rw [decide_eq_true hlt] at h ⊢
      change b.val = a.val + 1 at h
      simp only [if_true]
      omega
    · rw [decide_eq_false hlt] at h ⊢
      change a.val = b.val + 1 at h
      simp only [Bool.false_eq_true, if_false]
      omega
  rank_lt fwd _ a := by
    split <;> omega

/-- The positions of a ring of even size. A message takes the shorter way, on a virtual channel
    that changes where the way goes over the end of the ring. -/
def ring (n : Nat) (hn : n = 1 ∨ 2 ∣ n) : Axis (Fin n) Bool where
  Next a b := b.val = a.val + 1 ∨ b.val = 0 ∧ a.val + 1 = n
  forward a t := decide (a.val < t.val ∧ t.val - a.val < n / 2 ∨ t.val + n / 2 < a.val)
  channel a t := decide (a.val < t.val)
  dist a t := min (apart a t) (n - apart a t)
  rank fwd v a :=
    match fwd, v with
    | true, false => a.val
    | true, true => n + a.val
    | false, true => n - 1 - a.val
    | false, false => n + (n - 1 - a.val)
  bound := 2 * n
  next_unique {a b c} hb hc := by omega
  next_injective {a b c} ha hb := by omega
  dist_eq_zero {a t} := by
    unfold apart
    omega
  dist_next {a b t} h := by
    unfold apart
    omega
  progress {a t} hne := by
    have ha := a.isLt
    have ht := t.isLt
    unfold apart
    by_cases hfwd : a.val < t.val ∧ t.val - a.val < n / 2 ∨ t.val + n / 2 < a.val
    · rw [decide_eq_true hfwd]
      by_cases hend : a.val + 1 = n
      · refine ⟨⟨0, by omega⟩, .inr ⟨rfl, hend⟩, ?_⟩
        dsimp only
        omega
      · refine ⟨⟨a.val + 1, by omega⟩, .inl rfl, ?_⟩
        dsimp only
        omega
    · rw [decide_eq_false hfwd]
      by_cases hend : a.val = 0
      · refine ⟨⟨n - 1, by omega⟩, .inr ⟨hend, Nat.sub_add_cancel (by omega)⟩, ?_⟩
        dsimp only
        omega
      · refine ⟨⟨a.val - 1, by omega⟩, .inl (by dsimp only; omega), ?_⟩
        dsimp only
        omega
  forward_step {a b t} ha hb h := by
    by_cases hfwd : a.val < t.val ∧ t.val - a.val < n / 2 ∨ t.val + n / 2 < a.val
    · rw [decide_eq_true hfwd] at h ⊢
      rcases h with h | h
      · exact decide_eq_true (by omega)
      · exact decide_eq_true (by omega)
    · rw [decide_eq_false hfwd] at h ⊢
      rcases h with h | h
      · exact decide_eq_false (by omega)
      · exact decide_eq_false (by omega)
  rank_step {a b t} ha hb h := by
    by_cases hfwd : a.val < t.val ∧ t.val - a.val < n / 2 ∨ t.val + n / 2 < a.val
    · rw [decide_eq_true hfwd] at h ⊢
      change b.val = a.val + 1 ∨ b.val = 0 ∧ a.val + 1 = n at h
      by_cases hat : a.val < t.val <;> by_cases hbt : b.val < t.val <;>
        simp only [hat, hbt, decide_true, decide_false] <;> omega
    · rw [decide_eq_false hfwd] at h ⊢
      change a.val = b.val + 1 ∨ a.val = 0 ∧ b.val + 1 = n at h
      by_cases hat : a.val < t.val <;> by_cases hbt : b.val < t.val <;>
        simp only [hat, hbt, decide_true, decide_false] <;> omega
  rank_lt fwd v a := by
    have ha := a.isLt
    cases fwd <;> cases v <;> dsimp only <;> omega

theorem ring_next {n : Nat} {hn : n = 1 ∨ 2 ∣ n} {a b : Fin n} :
    (ring n hn).Next a b ↔ b.val = (a.val + 1) % n := by
  change b.val = a.val + 1 ∨ b.val = 0 ∧ a.val + 1 = n ↔ _
  by_cases hend : a.val + 1 = n
  · rw [hend, Nat.mod_self]
    omega
  · rw [Nat.mod_eq_of_lt (by omega)]
    omega

end DimensionOrder
