import Mathlib.Tactic

/-!
# Dealing out a stream of records

A stream has a record for every number, and a reader keeps those of the numbers that are its
own, one after the other in consecutive places, and skips the others. A record is then found in
the place that counts the reader's numbers before it.
-/

namespace Dealing

variable {β γ : Type*} (mine : Nat → Bool) (places size : Nat) (load : List β → γ → Option (γ × List β))

/-- Read the records of the numbers from `s` on, as many as given. There is no place after the
    last one. -/
def deal : Nat → Nat → Nat → List β → (Nat → γ) → Option (Nat → γ)
  | 0, _, _, _, filled => some filled
  | k + 1, s, place, items, filled =>
    if mine s then
      if place < places then
        match load items (filled place) with
        | some (v, rest) => deal k (s + 1) (place + 1) rest (Function.update filled place v)
        | none => none
      else none
    else if size ≤ items.length then deal k (s + 1) place (items.drop size) filled
    else none

variable {mine places size load} {fresh : γ}

/-- A record that, whatever follows it, loads a value into a place that was not used. -/
def Reads (size : Nat) (load : List β → γ → Option (γ × List β)) (fresh : γ) (chunk : List β) (v : γ) :
    Prop :=
  chunk.length = size ∧ ∀ rest, load (chunk ++ rest) fresh = some (v, rest)

theorem exists_count_eq {p : Nat → Prop} [DecidablePred p] {n m : Nat} (h : m < Nat.count p n) :
    ∃ j < n, p j ∧ Nat.count p j = m := by
  induction n with
  | zero => simp at h
  | succ n ih =>
    rcases Nat.lt_or_ge m (Nat.count p n) with hlt | hge
    · obtain ⟨j, hj, hpj⟩ := ih hlt
      exact ⟨j, by omega, hpj⟩
    · rw [Nat.count_succ] at h
      split at h
      · next hp => exact ⟨n, by omega, hp, by omega⟩
      · omega

/-- A reader that takes nothing off the stream has nothing in its places. -/
theorem deal_idle (hload : ∀ items, load items fresh = some (fresh, items)) (k : Nat) :
    ∀ s place items after, deal mine places size load k s place items (fun _ => fresh) = some after →
      after = fun _ => fresh := by
  induction k with
  | zero => exact fun _ _ _ _ h => (Option.some.inj h).symm
  | succ k ih =>
    intro s place items after h
    have hsame : Function.update (fun _ => fresh) place fresh = fun _ => fresh :=
      Function.update_eq_self place fun _ => fresh
    rw [deal] at h
    split at h
    · split at h
      · simp only [hload, hsame] at h
        exact ih _ _ _ _ h
      · cases h
    · split at h
      · exact ih _ _ _ _ h
      · cases h

variable {chunks : Nat → List β} {done : Nat → γ}

variable (mine places) in
/-- The records fit exactly when there is a place for each, and each is then in its place. -/
theorem deal_spec (hread : ∀ j, Reads size load fresh (chunks j) (done j)) (k : Nat) :
    ∀ s (before : Nat → γ), (∀ i, Nat.count (mine · = true) s ≤ i → before i = fresh) →
      (∀ after, deal mine places size load k s (Nat.count (mine · = true) s)
          ((List.range' s k).flatMap chunks) before = some after →
        (∀ i < Nat.count (mine · = true) s, after i = before i) ∧
        (∀ j, s ≤ j → j < s + k → mine j = true → after (Nat.count (mine · = true) j) = done j) ∧
        ∀ i, Nat.count (mine · = true) (s + k) ≤ i → after i = fresh) ∧
      ((∀ j, s ≤ j → j < s + k → mine j = true → Nat.count (mine · = true) j < places) →
        ∃ after, deal mine places size load k s (Nat.count (mine · = true) s)
          ((List.range' s k).flatMap chunks) before = some after) := by
  induction k with
  | zero =>
    intro s before hbefore
    refine ⟨fun after h => ?_, fun _ => ⟨before, rfl⟩⟩
    obtain rfl := Option.some.inj h
    exact ⟨fun _ _ => rfl, fun j hle hlt => by omega, hbefore⟩
  | succ k ih =>
    intro s before hbefore
    have hstep : Nat.count (mine · = true) (s + 1) = Nat.count (mine · = true) s +
        if mine s = true then 1 else 0 := Nat.count_succ _ _
    rw [List.range'_succ, List.flatMap_cons, deal]
    by_cases hmine : mine s = true
    · rw [if_pos hmine] at hstep ⊢
      have hnext : ∀ i, Nat.count (mine · = true) (s + 1) ≤ i →
          Function.update before (Nat.count (mine · = true) s) (done s) i = fresh := by
        intro i hi
        rw [Function.update_of_ne (by omega)]
        exact hbefore i (by omega)
      obtain ⟨hafter, hfits⟩ := ih (s + 1) _ hnext
      rw [hbefore _ le_rfl, (hread s).2]
      refine ⟨fun after h => ?_, fun hall => ?_⟩
      · split at h
        · simp only [← hstep] at h
          obtain ⟨hlow, hdone, hhigh⟩ := hafter after h
          refine ⟨fun i hi => ?_, fun j hle hlt hj => ?_,
            fun i hi => hhigh i (by rwa [Nat.add_assoc, Nat.add_comm 1 k])⟩
          · rw [hlow i (by omega), Function.update_of_ne (by omega)]
          · rcases Nat.eq_or_lt_of_le hle with rfl | hlt'
            · rw [hlow _ (by omega), Function.update_self]
            · exact hdone j hlt' (by omega) hj
        · cases h
      · rw [if_pos (hall s le_rfl (by omega) hmine)]
        simp only [← hstep]
        exact hfits fun j hle hlt => hall j (by omega) (by omega)
    · have hfit : size ≤ (chunks s ++ (List.range' (s + 1) k).flatMap chunks).length := by
        rw [List.length_append, (hread s).1]
        omega
      rw [if_neg hmine, Nat.add_zero] at hstep
      rw [if_neg hmine]
      obtain ⟨hafter, hfits⟩ := ih (s + 1) before (by rwa [hstep])
      rw [if_pos hfit, ← (hread s).1, List.drop_left, (hread s).1]
      rw [hstep] at hafter hfits
      refine ⟨fun after h => ?_, fun hall => hfits fun j hle hlt => hall j (by omega) (by omega)⟩
      obtain ⟨hlow, hdone, hhigh⟩ := hafter after h
      refine ⟨hlow, fun j hle hlt hj => ?_, fun i hi => hhigh i (by rwa [Nat.add_assoc, Nat.add_comm 1 k])⟩
      rcases Nat.eq_or_lt_of_le hle with rfl | hlt'
      · exact absurd hj hmine
      · exact hdone j hlt' (by omega) hj

/-- What is in the places when all records were read: the records of the reader's numbers, each
    in its place, and nothing behind them. -/
theorem deal_place (hread : ∀ j, Reads size load fresh (chunks j) (done j)) {total : Nat} {after : Nat → γ}
    (h : deal mine places size load total 0 0 ((List.range total).flatMap chunks) (fun _ => fresh) =
      some after) (m : Nat) :
    (∃ j < total, mine j = true ∧ Nat.count (mine · = true) j = m ∧ after m = done j) ∨
      after m = fresh := by
  rw [List.range_eq_range', ← Nat.count_zero (mine · = true)] at h
  obtain ⟨-, hdone, hfresh⟩ := ((deal_spec mine places hread total 0 _ fun _ _ => rfl).1 after) h
  rw [Nat.zero_add] at hdone hfresh
  rcases Nat.lt_or_ge m (Nat.count (mine · = true) total) with hlt | hge
  · obtain ⟨j, hj, hmine, rfl⟩ := exists_count_eq hlt
    exact Or.inl ⟨j, hj, hmine, rfl, hdone j (Nat.zero_le _) hj hmine⟩
  · exact Or.inr (hfresh m hge)

variable (mine places) in
/-- With a place for each of the reader's numbers, all records are read. -/
theorem exists_deal (total : Nat) (hread : ∀ j, Reads size load fresh (chunks j) (done j))
    (hfit : ∀ j < total, mine j = true → Nat.count (mine · = true) j < places) :
    ∃ after, deal mine places size load total 0 0 ((List.range total).flatMap chunks) (fun _ => fresh) =
        some after ∧
      ∀ j < total, mine j = true → after (Nat.count (mine · = true) j) = done j := by
  obtain ⟨hafter, hfits⟩ := deal_spec mine places hread total 0 (fun _ => fresh)
    fun _ _ => rfl
  rw [Nat.count_zero, ← List.range_eq_range'] at hafter hfits
  obtain ⟨after, h⟩ := hfits fun j _ hlt => hfit j (by omega)
  exact ⟨after, h, fun j hj => (hafter after h).2.1 j (Nat.zero_le _) (by omega)⟩

end Dealing
