import Mathlib.Tactic

/-!
# Orders of recency

A list that keeps its members from the highest to the lowest rank. A member that is promoted
goes to the head with a rank above all others, and one that is demoted goes to the tail with a
rank below them. The last member that passes a test is then the one of the lowest rank. In
an array both moves are made by shifting the members between the old and the new place.
-/

namespace Ranking

variable {α ρ : Type*} [LinearOrder ρ]

/-- The list stands from the highest to the lowest rank. -/
def Ranked (rank : α → ρ) (l : List α) : Prop :=
  l.Pairwise fun higher lower => rank lower < rank higher

variable {rank : α → ρ} {l : List α} {w : α} {r : ρ}

theorem Ranked.nodup (h : Ranked rank l) : l.Nodup := by
  apply List.Pairwise.imp _ h
  rintro u v hlt rfl
  exact lt_irrefl _ hlt

/-- The last member that passes a test has the lowest rank of all that do. -/
theorem Ranked.find_reverse (h : Ranked rank l) {p : α → Bool} :
    l.reverse.find? p = some w ↔ w ∈ l ∧ p w = true ∧ ∀ v ∈ l, p v = true → v ≠ w → rank w < rank v := by
  have hrev : l.reverse.Pairwise fun lower higher => rank lower < rank higher :=
    List.pairwise_reverse.mpr h
  rw [List.find?_eq_some_iff_append]
  constructor
  · rintro ⟨hp, lower, higher, hsplit, hlower⟩
    refine ⟨List.mem_reverse.mp (hsplit ▸ by simp), hp, fun v hv hpv hne => ?_⟩
    have hv : v ∈ lower ++ w :: higher := hsplit ▸ List.mem_reverse.mpr hv
    rw [hsplit] at hrev
    simp only [List.mem_append, List.mem_cons, hne, false_or] at hv
    rcases hv with hv | hv
    · have hno := hlower v hv
      simp [hpv] at hno
    · exact (List.pairwise_cons.mp (List.pairwise_append.mp hrev).2.1).1 v hv
  · rintro ⟨hw, hp, hleast⟩
    obtain ⟨lower, higher, hsplit⟩ := List.append_of_mem (List.mem_reverse.mpr hw)
    refine ⟨hp, lower, higher, hsplit, fun v hv => ?_⟩
    rw [hsplit] at hrev
    have hlt : rank v < rank w := (List.pairwise_append.mp hrev).2.2 v hv w (by simp)
    by_contra hpv
    have hmem : v ∈ l := List.mem_reverse.mp (hsplit ▸ List.mem_append_left _ hv)
    have hne : v ≠ w := fun heq => absurd hlt (heq ▸ lt_irrefl _)
    exact absurd hlt (not_lt.mpr (hleast v hmem (by simpa using hpv) hne).le)

section Moves

variable [DecidableEq α]

def promote (w : α) (l : List α) : List α := w :: l.erase w

def demote (w : α) (l : List α) : List α := l.erase w ++ [w]

theorem promote_perm (h : w ∈ l) : (promote w l).Perm l := (List.perm_cons_erase h).symm

theorem demote_perm (h : w ∈ l) : (demote w l).Perm l :=
  (List.perm_append_singleton w _).trans (List.perm_cons_erase h).symm

theorem promote_append {pre post : List α} (h : w ∉ pre) :
    promote w (pre ++ w :: post) = w :: (pre ++ post) := by
  rw [promote, List.erase_append_right _ h, List.erase_cons_head]

theorem demote_append {pre post : List α} (h : w ∉ pre) :
    demote w (pre ++ w :: post) = pre ++ post ++ [w] := by
  rw [demote, List.erase_append_right _ h, List.erase_cons_head]

theorem erase_promote : (promote w l).erase w = l.erase w := List.erase_cons_head ..

theorem erase_demote (h : l.Nodup) : (demote w l).erase w = l.erase w := by
  rw [demote, List.erase_append_right _ h.not_mem_erase]
  simp

/-- A test that the moved member fails selects the others as before. -/
theorem filter_promote {p : α → Bool} (h : p w = false) : (promote w l).filter p = l.filter p := by
  rw [promote, List.filter_cons_of_neg (by simp [h])]
  induction l with
  | nil => rfl
  | cons x l ih =>
    by_cases hx : x = w
    · subst hx
      rw [List.erase_cons_head, List.filter_cons_of_neg (by simp [h])]
    · rw [List.erase_cons_tail (by simpa using hx), List.filter_cons, List.filter_cons, ih]

theorem filter_demote {p : α → Bool} (h : p w = false) : (demote w l).filter p = l.filter p := by
  have hpromote : (promote w l).filter p = l.filter p := filter_promote h
  rw [promote, List.filter_cons_of_neg (by simp [h])] at hpromote
  rw [demote, List.filter_append, List.filter_cons_of_neg (by simp [h]), List.filter_nil,
    List.append_nil, hpromote]

theorem Ranked.erase_update (h : Ranked rank l) : Ranked (Function.update rank w r) (l.erase w) := by
  have herased : Ranked rank (l.erase w) := List.Pairwise.sublist List.erase_sublist h
  apply List.Pairwise.imp_of_mem _ herased
  intro u v hu hv hlt
  have hout : ∀ x ∈ l.erase w, x ≠ w := fun x hx heq => h.nodup.not_mem_erase (heq ▸ hx)
  rwa [Function.update_of_ne (hout u hu), Function.update_of_ne (hout v hv)]

theorem Ranked.promote (h : Ranked rank l) (hr : ∀ v ∈ l, rank v < r) :
    Ranked (Function.update rank w r) (promote w l) := by
  apply List.pairwise_cons.mpr
  refine ⟨fun v hv => ?_, h.erase_update⟩
  have hne : v ≠ w := fun heq => h.nodup.not_mem_erase (heq ▸ hv)
  rw [Function.update_self, Function.update_of_ne hne]
  exact hr v (List.mem_of_mem_erase hv)

theorem Ranked.demote (h : Ranked rank l) (hr : ∀ v ∈ l, r < rank v) :
    Ranked (Function.update rank w r) (demote w l) := by
  apply List.pairwise_append.mpr
  refine ⟨h.erase_update, List.pairwise_singleton _ _, fun v hv u hu => ?_⟩
  obtain rfl := List.mem_singleton.mp hu
  have hne : v ≠ u := fun heq => h.nodup.not_mem_erase (heq ▸ hv)
  rw [Function.update_self, Function.update_of_ne hne]
  exact hr v (List.mem_of_mem_erase hv)

end Moves

/-! ## Shifts in an array -/

variable (default : α)

/-- Copy each member before the index one place up, from the index down. -/
def shiftUp (l : List α) : Nat → List α
  | 0 => l
  | i + 1 => shiftUp (l.set (i + 1) (l.getD i default)) i

/-- Copy the members after an index one place down, as many as given. -/
def shiftDown (l : List α) (i : Nat) : Nat → List α
  | 0 => l
  | count + 1 => shiftDown (l.set i (l.getD (i + 1) default)) (i + 1) count

theorem set_append_cons (pre post : List α) (x y : α) :
    (pre ++ x :: post).set pre.length y = pre ++ y :: post := by
  rw [List.set_append_right _ _ (Nat.le_refl _), Nat.sub_self, List.set_cons_zero]

/-- The induction is on the members before the gap, the nearest one first. -/
theorem shiftUp_set (pre post : List α) (x y : α) :
    (shiftUp default (pre ++ x :: post) pre.length).set 0 y = y :: (pre ++ post) := by
  induction pre using List.reverseRecOn generalizing x post with
  | nil => rfl
  | append_singleton pre z ih =>
    have hread : (pre ++ [z] ++ x :: post).getD pre.length default = z := by simp
    have hwrite : (pre ++ [z] ++ x :: post).set (pre.length + 1) z = pre ++ z :: z :: post := by
      have h := set_append_cons (pre ++ [z]) post x z
      rw [List.length_append, List.length_singleton] at h
      rw [h, List.append_assoc, List.singleton_append]
    rw [List.length_append, List.length_singleton, shiftUp, hread, hwrite, ih, List.append_assoc,
      List.singleton_append]

theorem shiftDown_set (pre post : List α) (x y : α) :
    (shiftDown default (pre ++ x :: post) pre.length post.length).set (pre.length + post.length) y =
      pre ++ post ++ [y] := by
  induction post generalizing pre x with
  | nil =>
    rw [List.length_nil, shiftDown, Nat.add_zero, set_append_cons, List.append_nil]
  | cons z post ih =>
    have hread : (pre ++ x :: z :: post).getD (pre.length + 1) default = z := by simp
    have hmoved : (pre ++ x :: z :: post).set pre.length z = (pre ++ [z]) ++ z :: post := by
      rw [set_append_cons, List.append_assoc, List.singleton_append]
    have hih := ih (pre ++ [z]) z
    rw [List.length_append, List.length_singleton] at hih
    rw [List.length_cons, shiftDown, hread, hmoved]
    have hlen : pre.length + (post.length + 1) = pre.length + 1 + post.length := by omega
    rw [hlen, hih, List.append_assoc, List.append_assoc, List.append_assoc]
    rfl

end Ranking
