import Mathlib.Data.List.AList
import Mathlib.Tactic

/-!
# Tallies

How often each pair occurs, kept as a map of rows whose cells are counts: a cell that counts
down to zero goes, and a row without cells goes with it.
-/

namespace Tally

variable {ρ θ : Type*} [DecidableEq ρ] [DecidableEq θ]

/-- The cells of one row. -/
abbrev Row (θ : Type*) := AList fun _ : θ => Int

/-- The rows. -/
abbrev Table (ρ θ : Type*) := AList fun _ : ρ => Row θ

/-- The count of a pair, zero when there is no cell for it. -/
def get (t : Table ρ θ) (r : ρ) (q : θ) : Int := ((t.lookup r).bind fun row => row.lookup q).getD 0

/-- Count a pair once more, in a new row or cell when there was none. -/
def add (t : Table ρ θ) (r : ρ) (q : θ) : Table ρ θ :=
  let row := (t.lookup r).getD ∅
  t.insert r (row.insert q ((row.lookup q).getD 0 + 1))

/-- Count a pair once less. There has to be a cell for it. -/
def drop (t : Table ρ θ) (r : ρ) (q : θ) : Option (Table ρ θ) :=
  match (t.lookup r : Option (Row θ)) with
  | none => none
  | some row =>
    match (row.lookup q : Option Int) with
    | none => none
    | some n =>
      if n - 1 = 0 then
        if (row.erase q).entries.length = 0 then some (t.erase r) else some (t.insert r (row.erase q))
      else some (t.insert r (row.insert q (n - 1)))

/-- The table counts the pairs of a list: no cell is zero and no row is empty. -/
structure Counts (t : Table ρ θ) (l : List (ρ × θ)) : Prop where
  count : ∀ r q, get t r q = l.count (r, q)
  cell : ∀ {r row q n}, t.lookup r = some row → row.lookup q = some n → 0 < n
  row : ∀ {r row}, t.lookup r = some row → ∃ q, (row.lookup q).isSome = true

variable {t t' : Table ρ θ} {l l' : List (ρ × θ)} {r x : ρ} {q y : θ} {row : Row θ} {n : Int}

theorem counts_empty : Counts (∅ : Table ρ θ) [] :=
  ⟨fun r q => by simp [get], fun h => by simp at h, fun h => by simp at h⟩

theorem Counts.perm (h : Counts t l) (hperm : l.Perm l') : Counts t l' :=
  ⟨fun r q => by rw [h.count, hperm.count_eq], h.cell, h.row⟩

theorem get_of_lookup (hrow : t.lookup r = some row) : get t r q = (row.lookup q).getD 0 := by
  rw [get, hrow, Option.bind_some]

omit [DecidableEq θ] in
theorem lookup_insert_row : (t.insert r row).lookup x = if x = r then some row else t.lookup x := by
  split
  · next hx => rw [hx, AList.lookup_insert]
  · next hx => rw [AList.lookup_insert_ne hx]

theorem lookup_insert_cell {row : Row θ} :
    (row.insert q n).lookup y = if y = q then some n else row.lookup y := by
  split
  · next hy => rw [hy, AList.lookup_insert]
  · next hy => rw [AList.lookup_insert_ne hy]

/-- A pair is counted exactly when it is in the list. -/
theorem Counts.mem_iff (h : Counts t l) : (r, q) ∈ l ↔ ∃ row n, t.lookup r = some row ∧ row.lookup q = some n := by
  rw [← List.count_pos_iff]
  have hcount := h.count r q
  constructor
  · intro hpos
    cases hrow : t.lookup r with
    | none =>
      simp only [get, hrow, Option.bind_none, Option.getD_none] at hcount
      omega
    | some row =>
      rw [get_of_lookup hrow] at hcount
      cases hn : row.lookup q with
      | none =>
        simp only [hn, Option.getD_none] at hcount
        omega
      | some n => exact ⟨row, n, rfl, hn⟩
  · rintro ⟨row, n, hrow, hn⟩
    have hpos := h.cell hrow hn
    rw [get_of_lookup hrow, hn, Option.getD_some] at hcount
    omega

theorem Counts.add (h : Counts t l) : Counts (add t r q) ((r, q) :: l) := by
  have hold : ∀ y, ((((t.lookup r).getD ∅).lookup y).getD 0 : Int) = get t r y := by
    intro y
    rw [get]
    cases t.lookup r with
    | none => simp
    | some row => rfl
  refine ⟨fun x y => ?_, fun {x row y n} hrow hn => ?_, fun {x row} hrow => ?_⟩
  · rw [get, Tally.add, lookup_insert_row, List.count_cons]
    by_cases hx : x = r
    · subst hx
      rw [if_pos rfl, Option.bind_some, lookup_insert_cell]
      by_cases hy : y = q
      · subst hy
        rw [if_pos rfl, Option.getD_some, hold, h.count]
        simp
      · rw [if_neg hy, hold, h.count]
        simp [Ne.symm hy]
    · rw [if_neg hx, ← get, h.count]
      simp [Ne.symm hx]
  · rw [Tally.add, lookup_insert_row] at hrow
    split at hrow
    · cases hrow
      rw [lookup_insert_cell] at hn
      split at hn
      · cases hn
        rw [hold, h.count]
        omega
      · cases hr : t.lookup r with
        | none => simp [hr] at hn
        | some old =>
          rw [hr, Option.getD_some] at hn
          exact h.cell hr hn
    · exact h.cell hrow hn
  · rw [Tally.add, lookup_insert_row] at hrow
    split at hrow
    · cases hrow
      exact ⟨q, by rw [AList.lookup_insert]; rfl⟩
    · exact h.row hrow

/-- Only one row changes, and there only the count of one pair, which goes down by one. -/
theorem Counts.of_row (h : Counts t l) (hmem : (r, q) ∈ l) (hothers : ∀ x, x ≠ r → t'.lookup x = t.lookup x)
    (hget : ∀ y, get t' r y = get t r y - if y = q then 1 else 0)
    (hcell : ∀ {row y n}, t'.lookup r = some row → row.lookup y = some n → 0 < n)
    (hrow : ∀ {row}, t'.lookup r = some row → ∃ y, (row.lookup y).isSome = true) :
    Counts t' (l.erase (r, q)) := by
  have hpos := List.count_pos_iff.mpr hmem
  refine ⟨fun x y => ?_, fun {x row y n} hx hn => ?_, fun {x row} hx => ?_⟩
  · rw [List.count_erase]
    by_cases hxr : x = r
    · subst hxr
      rw [hget, h.count]
      by_cases hy : y = q
      · subst hy
        simp only [if_true, beq_self_eq_true]
        omega
      · simp [hy, Ne.symm hy]
    · have hsame : get t' x y = get t x y := by rw [get, get, hothers x hxr]
      rw [hsame, h.count]
      simp [Ne.symm hxr]
  · by_cases hxr : x = r
    · subst hxr
      exact hcell hx hn
    · rw [hothers x hxr] at hx
      exact h.cell hx hn
  · by_cases hxr : x = r
    · subst hxr
      exact hrow hx
    · rw [hothers x hxr] at hx
      exact h.row hx

/-- A pair of the list can be counted off, which leaves the counts of the rest. -/
theorem Counts.drop (h : Counts t l) (hmem : (r, q) ∈ l) :
    ∃ t', drop t r q = some t' ∧ Counts t' (l.erase (r, q)) := by
  obtain ⟨row, n, hrow, hn⟩ := h.mem_iff.mp hmem
  have hbefore : ∀ y, get t r y = (row.lookup y).getD 0 := fun y => get_of_lookup hrow
  have hothers : ∀ {row' : Row θ} x, x ≠ r → (t.insert r row').lookup x = t.lookup x := by
    intro row' x hx
    rw [lookup_insert_row, if_neg hx]
  simp only [Tally.drop, hrow, hn]
  by_cases hlast : n - 1 = 0
  · have hgone : ∀ y, (row.erase q).lookup y = if y = q then none else row.lookup y := by
      intro y
      split
      · next hy => rw [hy, AList.lookup_erase]
      · next hy => rw [AList.lookup_erase_ne hy]
    rw [if_pos hlast]
    by_cases hempty : (row.erase q).entries.length = 0
    · rw [if_pos hempty]
      have hnone : (t.erase r).lookup r = none := AList.lookup_erase r t
      refine ⟨_, rfl, h.of_row hmem (fun x hx => AList.lookup_erase_ne hx) (fun y => ?_) ?_ ?_⟩
      · have hcell : (row.erase q).lookup y = none := by
          have hnil : (row.erase q) = ∅ := AList.ext (List.length_eq_zero_iff.mp hempty)
          rw [hnil, AList.lookup_empty]
        rw [hgone] at hcell
        rw [get, hnone, hbefore]
        split at hcell
        · next hy =>
          rw [hy, hn, if_pos rfl, Option.getD_some, Option.bind_none, Option.getD_none]
          omega
        · next hy =>
          rw [hcell, if_neg hy]
          rfl
      · intro row' y m hsome
        rw [hnone] at hsome
        cases hsome
      · intro row' hsome
        rw [hnone] at hsome
        cases hsome
    · rw [if_neg hempty]
      refine ⟨_, rfl, h.of_row hmem hothers (fun y => ?_) ?_ ?_⟩
      · rw [get_of_lookup (AList.lookup_insert t), hbefore, hgone]
        split
        · next hy =>
          rw [hy, hn, Option.getD_none, Option.getD_some]
          omega
        · rw [sub_zero]
      · intro row' y m hsome hm
        rw [AList.lookup_insert] at hsome
        cases hsome
        rw [hgone] at hm
        split at hm
        · cases hm
        · exact h.cell hrow hm
      · intro row' hsome
        rw [AList.lookup_insert] at hsome
        cases hsome
        obtain ⟨c, hc⟩ := List.exists_mem_of_length_pos (Nat.pos_of_ne_zero hempty)
        exact ⟨c.1, AList.lookup_isSome.mpr (List.mem_map_of_mem hc)⟩
  · rw [if_neg hlast]
    have hpos := h.cell hrow hn
    refine ⟨_, rfl, h.of_row hmem hothers (fun y => ?_) ?_ ?_⟩
    · rw [get_of_lookup (AList.lookup_insert t), hbefore, lookup_insert_cell]
      split
      · next hy => rw [hy, hn, Option.getD_some, Option.getD_some]
      · rw [sub_zero]
    · intro row' y m hsome hm
      rw [AList.lookup_insert] at hsome
      cases hsome
      rw [lookup_insert_cell] at hm
      split at hm
      · cases hm
        omega
      · exact h.cell hrow hm
    · intro row' hsome
      rw [AList.lookup_insert] at hsome
      cases hsome
      exact ⟨q, by rw [AList.lookup_insert]; rfl⟩

/-- The row of a first component holds the second components it occurs with. -/
theorem Counts.mem_keys (h : Counts t l) (hrow : t.lookup r = some row) : y ∈ row.keys ↔ (r, y) ∈ l := by
  rw [h.mem_iff, ← AList.mem_keys, ← AList.lookup_isSome, Option.isSome_iff_exists]
  constructor
  · rintro ⟨n, hn⟩
    exact ⟨row, n, hrow, hn⟩
  · rintro ⟨row', n, hrow', hn⟩
    rw [hrow] at hrow'
    cases hrow'
    exact ⟨n, hn⟩

theorem Counts.not_mem (h : Counts t l) (hrow : t.lookup r = none) (y : θ) : (r, y) ∉ l := by
  rw [h.mem_iff]
  rintro ⟨row, n, hsome, _⟩
  rw [hrow] at hsome
  cases hsome

end Tally
