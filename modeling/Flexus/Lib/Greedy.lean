import Mathlib.Tactic

/-!
# Serving requests within a budget

Requests are tried in order as long as some budget is left. A request that is served changes
the state and costs one unit; one that cannot be served costs nothing.
-/

namespace Greedy

variable {σ α : Type*} (serve : σ → α → Option σ)

/-- What is left of the budget, and the state, after all requests. -/
def serveAll : Nat × σ → List α → Nat × σ
  | s, [] => s
  | (0, s), _ :: _ => (0, s)
  | (b + 1, s), a :: as =>
    match serve s a with
    | none => serveAll (b + 1, s) as
    | some s' => serveAll (b, s') as

/-- The requests that are tried, served or not. -/
def tried : Nat × σ → List α → List α
  | _, [] => []
  | (0, _), _ :: _ => []
  | (b + 1, s), a :: as => a ::
    match serve s a with
    | none => tried (b + 1, s) as
    | some s' => tried (b, s') as

/-- A request that is served is the last one or uses the budget up. -/
def ServedLast : Nat × σ → List α → Prop
  | _, [] => True
  | (0, _), _ :: _ => True
  | (b + 1, s), a :: as =>
    match serve s a with
    | none => ServedLast (b + 1, s) as
    | some _ => b = 0 ∨ as = []

variable {serve} {s s' : σ} {b : Nat} {a : α} {as bs : List α}

@[simp]
theorem serveAll_zero : serveAll serve (0, s) as = (0, s) := by
  cases as <;> rfl

@[simp]
theorem tried_zero : tried serve (0, s) as = [] := by
  cases as <;> rfl

theorem serveAll_none (h : serve s a = none) :
    serveAll serve (b + 1, s) (a :: as) = serveAll serve (b + 1, s) as := by
  rw [serveAll, h]

theorem serveAll_some (h : serve s a = some s') :
    serveAll serve (b + 1, s) (a :: as) = serveAll serve (b, s') as := by
  rw [serveAll, h]

theorem tried_none (h : serve s a = none) :
    tried serve (b + 1, s) (a :: as) = a :: tried serve (b + 1, s) as := by
  rw [tried, h]

theorem tried_some (h : serve s a = some s') :
    tried serve (b + 1, s) (a :: as) = a :: tried serve (b, s') as := by
  rw [tried, h]

theorem servedLast_none (h : serve s a = none) :
    ServedLast serve (b + 1, s) (a :: as) ↔ ServedLast serve (b + 1, s) as := by
  rw [ServedLast, h]

theorem servedLast_some (h : serve s a = some s') :
    ServedLast serve (b + 1, s) (a :: as) ↔ b = 0 ∨ as = [] := by
  rw [ServedLast, h]

/-- Requests in two parts are served one part after the other. -/
theorem serveAll_append (st : Nat × σ) :
    serveAll serve st (as ++ bs) = serveAll serve (serveAll serve st as) bs := by
  induction as generalizing st with
  | nil => rfl
  | cons a as ih =>
    obtain ⟨b, s⟩ := st
    cases b with
    | zero => simp
    | succ b =>
      rw [List.cons_append]
      cases h : serve s a with
      | none => rw [serveAll_none h, serveAll_none h, ih]
      | some s' => rw [serveAll_some h, serveAll_some h, ih]

theorem tried_append (st : Nat × σ) :
    tried serve st (as ++ bs) = tried serve st as ++ tried serve (serveAll serve st as) bs := by
  induction as generalizing st with
  | nil => rfl
  | cons a as ih =>
    obtain ⟨b, s⟩ := st
    cases b with
    | zero => simp
    | succ b =>
      rw [List.cons_append]
      cases h : serve s a with
      | none => rw [tried_none h, tried_none h, serveAll_none h, ih, List.cons_append]
      | some s' => rw [tried_some h, tried_some h, serveAll_some h, ih, List.cons_append]

end Greedy
