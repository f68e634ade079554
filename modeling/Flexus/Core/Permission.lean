import Flexus.Core.Places

/-!
# The lines of the store buffer

Each operation on the tracked lines changes the count of one line, if any, and
keeps the number of lines without permission.
-/

namespace nuArchARM

open Runs

namespace Permissions

/-- How many stores need a line. -/
def countAt (p : Permissions) (addr : PhysicalMemoryAddress) : ℤ :=
  ((p.find addr).map SBLine.theCount).getD 0

/-- Whether the permission for a line is missing. -/
def missing (l : SBLine) : ℤ := if l.thePermission then 0 else 1

/-- A line is tracked once, for at least one store, and the lines without permission are
    counted. -/
structure Sane (p : Permissions) : Prop where
  unique : (p.theSBLines_Permission.map SBLine.theAddress).Nodup
  positive : ∀ l ∈ p.theSBLines_Permission, 0 < l.theCount
  falsecount : p.theSBLines_Permission_falsecount = (p.theSBLines_Permission.map missing).sum

variable {p p' : Permissions} {addr : PhysicalMemoryAddress}

theorem missing_nonneg (l : SBLine) : 0 ≤ missing l := by
  unfold missing
  split <;> decide

theorem sum_missing_le (ls : List SBLine) : (ls.map missing).sum ≤ (ls.length : ℤ) := by
  induction ls with
  | nil => simp
  | cons l ls ih =>
    have hone : missing l ≤ 1 := by
      unfold missing
      split <;> decide
    simp only [List.map_cons, List.sum_cons, List.length_cons]
    push_cast
    omega

theorem sum_missing_nonneg (ls : List SBLine) : 0 ≤ (ls.map missing).sum := by
  apply List.sum_nonneg
  intro x hx
  obtain ⟨l, -, rfl⟩ := List.mem_map.mp hx
  exact missing_nonneg l

/-- The missing permission of a line is one of those counted. -/
theorem missing_le_sum {l : SBLine} {ls : List SBLine} (hl : l ∈ ls) :
    missing l ≤ (ls.map missing).sum := by
  induction ls with
  | nil => cases hl
  | cons x ls ih =>
    have hrest := sum_missing_nonneg ls
    have hx := missing_nonneg x
    simp only [List.map_cons, List.sum_cons]
    rcases List.mem_cons.mp hl with rfl | hl
    · omega
    · have := ih hl
      omega

theorem sum_missing (ls : List SBLine) :
    (ls.map missing).sum = (ls.countP fun l => !l.thePermission : ℤ) := by
  induction ls with
  | nil => rfl
  | cons l ls ih =>
    rw [List.map_cons, List.sum_cons, List.countP_cons, ih, missing]
    cases l.thePermission with
    | true => simp
    | false =>
      simp
      ring

theorem sane_empty : Sane ⟨[], 0⟩ := ⟨by simp, by simp, by simp⟩

theorem countAt_of_find {l : SBLine} (h : p.find addr = some l) : p.countAt addr = l.theCount := by
  simp [countAt, h]

/-- Only tracked lines are needed. -/
theorem Sane.find_of_countAt_pos (h : p.Sane) (hpos : 0 < p.countAt addr) :
    ∃ l, p.find addr = some l ∧ l ∈ p.theSBLines_Permission ∧ 0 < l.theCount := by
  cases hfind : p.find addr with
  | none => simp [countAt, hfind] at hpos
  | some l =>
    have hmem := (Keyed.mem_of_lookup hfind).1
    exact ⟨l, rfl, hmem, h.positive l hmem⟩

/-- A tracked line is changed in place. -/
theorem Sane.modify (h : p.Sane) {f : SBLine → SBLine} {n : ℤ} {l : SBLine}
    (hfind : p.find addr = some l) (haddr : ∀ x, (f x).theAddress = x.theAddress)
    (hpos : 0 < (f l).theCount)
    (hn : n = p.theSBLines_Permission_falsecount + (missing (f l) - missing l)) :
    Sane ⟨p.modify addr f, n⟩ := by
  have hkey := (Keyed.mem_of_lookup hfind).2
  refine ⟨?_, ?_, ?_⟩
  · change ((Keyed.alter SBLine.theAddress addr f p.theSBLines_Permission).map _).Nodup
    rw [Keyed.map_alter haddr]
    exact h.unique
  · intro x hx
    obtain ⟨y, hy, rfl⟩ := List.mem_map.mp hx
    by_cases hya : y.theAddress = addr
    · have hyl : y = l := List.inj_on_of_nodup_map h.unique hy (Keyed.mem_of_lookup hfind).1
        (hya.trans hkey.symm)
      rw [if_pos hya, hyl]
      exact hpos
    · rw [if_neg hya]
      exact h.positive y hy
  · have hsum : ((Keyed.alter SBLine.theAddress addr f p.theSBLines_Permission).map missing).sum =
        _ := Keyed.sum_alter h.unique
    change n = ((Keyed.alter SBLine.theAddress addr f p.theSBLines_Permission).map missing).sum
    rw [hsum, hn, h.falsecount]
    have hlook : Keyed.lookup SBLine.theAddress p.theSBLines_Permission addr = some l := hfind
    rw [hlook, Option.map_some, Option.getD_some]

theorem countAt_modify {f : SBLine → SBLine} {n : ℤ} (haddr : ∀ x, (f x).theAddress = x.theAddress)
    {l : SBLine} (hfind : p.find addr = some l) (a : PhysicalMemoryAddress) :
    countAt ⟨p.modify addr f, n⟩ a = if a = addr then (f l).theCount else p.countAt a := by
  have hlook : Keyed.lookup SBLine.theAddress p.theSBLines_Permission addr = some l := hfind
  have halter : find ⟨p.modify addr f, n⟩ a =
      if a = addr then (Keyed.lookup SBLine.theAddress p.theSBLines_Permission addr).map f
      else p.find a := Keyed.lookup_alter haddr
  rw [countAt, halter]
  by_cases ha : a = addr
  · rw [if_pos ha, if_pos ha, hlook]
    rfl
  · rw [if_neg ha, if_neg ha]
    rfl

/-- One more store needs the line. -/
theorem require_yields (h : p.Sane) :
    Yields NoCounter (p.require addr) fun r => r.1.Sane ∧
      ∀ a, r.1.countAt a = p.countAt a + if a = addr then 1 else 0 := by
  rw [require]
  cases hfind : p.find addr with
  | none =>
    dsimp only
    have hle := sum_missing_le p.theSBLines_Permission
    have hnonneg := sum_missing_nonneg p.theSBLines_Permission
    have hfalse := h.falsecount
    rw [if_neg (by rw [List.length_append, List.length_singleton]; push_cast; omega)]
    refine .ok ⟨⟨?_, ?_, ?_⟩, ?_⟩
    · exact Keyed.nodup_append_singleton h.unique (Keyed.lookup_eq_none.mp hfind)
    · intro l hl
      rcases List.mem_append.mp hl with hl | hl
      · exact h.positive l hl
      · rw [List.mem_singleton.mp hl]
        exact one_pos
    · rw [List.map_append, List.sum_append, ← h.falsecount]
      rfl
    · intro a
      have hlook : find ⟨p.theSBLines_Permission ++ [⟨addr, 1, false⟩],
          p.theSBLines_Permission_falsecount + 1⟩ a =
          (p.find a).or (if addr = a then some ⟨addr, 1, false⟩ else none) :=
        Keyed.lookup_append_singleton
      rw [countAt, hlook, countAt]
      by_cases ha : a = addr
      · subst ha
        rw [hfind]
        simp
      · rw [if_neg (fun hne => ha hne.symm), if_neg ha, Option.or_none, add_zero]
  | some l =>
    have hmem := (Keyed.mem_of_lookup hfind).1
    have hpos := h.positive l hmem
    refine .ok ⟨h.modify hfind (fun _ => rfl) (by dsimp only; omega) (by simp [missing]), ?_⟩
    intro a
    refine (countAt_modify (by intro _; rfl) hfind a).trans ?_
    by_cases ha : a = addr
    · rw [if_pos ha, if_pos ha, ha, countAt_of_find hfind]
    · rw [if_neg ha, if_neg ha, add_zero]

/-- A store that needed the line does so no more. -/
theorem unrequire_yields (h : p.Sane) (hpos : 0 < p.countAt addr) :
    Yields NoCounter (p.unrequire addr) fun p' => p'.Sane ∧
      ∀ a, p'.countAt a = p.countAt a - if a = addr then 1 else 0 := by
  obtain ⟨l, hfind, hmem, hl⟩ := h.find_of_countAt_pos hpos
  have hcount := countAt_of_find hfind
  have hmissing := missing_le_sum hmem
  have hfalse := h.falsecount
  simp only [unrequire, hfind]
  rw [if_neg (by omega)]
  refine .ite (fun hzero => ?_) fun hzero => ?_
  · -- the last store is gone, and with it the line
    have hgone : (if l.thePermission then p.theSBLines_Permission_falsecount
        else p.theSBLines_Permission_falsecount - 1) =
        p.theSBLines_Permission_falsecount - missing l := by
      unfold missing
      split <;> omega
    rw [hgone, if_neg (by omega)]
    refine .ok ⟨⟨Keyed.nodup_erase h.unique, ?_, ?_⟩, ?_⟩
    · intro x hx
      exact h.positive x (List.mem_of_mem_filter hx)
    · have hsum : ((Keyed.erase SBLine.theAddress addr p.theSBLines_Permission).map missing).sum =
          _ := Keyed.sum_erase h.unique
      have hlook : Keyed.lookup SBLine.theAddress p.theSBLines_Permission addr = some l := hfind
      rw [hsum, hlook, Option.map_some, Option.getD_some, h.falsecount]
    · intro a
      have hlook : find ⟨Keyed.erase SBLine.theAddress addr p.theSBLines_Permission,
          p.theSBLines_Permission_falsecount - missing l⟩ a =
          if a = addr then none else p.find a := Keyed.lookup_erase
      rw [countAt, hlook]
      by_cases ha : a = addr
      · rw [if_pos ha, if_pos ha, ha, hcount]
        simp only [Option.map_none, Option.getD_none]
        omega
      · rw [if_neg ha, if_neg ha, sub_zero, countAt]
  · refine .ok ⟨h.modify hfind (fun _ => rfl) (by dsimp only; omega) (by simp [missing]), ?_⟩
    intro a
    refine (countAt_modify (by intro _; rfl) hfind a).trans ?_
    by_cases ha : a = addr
    · rw [if_pos ha, if_pos ha, ha, hcount]
    · rw [if_neg ha, if_neg ha, sub_zero]

/-- Only the permission of a line changes. -/
theorem acquire_yields (h : p.Sane) :
    Yields NoCounter (p.acquire addr) fun p' => p'.Sane ∧ ∀ a, p'.countAt a = p.countAt a := by
  rw [acquire]
  cases hfind : p.find addr with
  | none => exact .ok ⟨h, fun _ => rfl⟩
  | some l =>
    dsimp only
    have hmem := (Keyed.mem_of_lookup hfind).1
    have hmissing := missing_le_sum hmem
    have hfalse := h.falsecount
    have hgained : (if l.thePermission then p.theSBLines_Permission_falsecount
        else p.theSBLines_Permission_falsecount - 1) =
        p.theSBLines_Permission_falsecount - missing l := by
      unfold missing
      split <;> omega
    rw [hgained, if_neg (by omega)]
    refine .ok ⟨h.modify hfind (fun _ => rfl) (h.positive l hmem) (by simp [missing]; omega), ?_⟩
    intro a
    refine (countAt_modify (by intro _; rfl) hfind a).trans ?_
    by_cases ha : a = addr
    · rw [if_pos ha, ha, countAt_of_find hfind]
    · rw [if_neg ha]

theorem lose_yields (h : p.Sane) :
    Yields NoCounter (p.lose addr) fun p' => p'.Sane ∧ ∀ a, p'.countAt a = p.countAt a := by
  rw [lose]
  cases hfind : p.find addr with
  | none => exact .ok ⟨h, fun _ => rfl⟩
  | some l =>
    dsimp only
    have hmem := (Keyed.mem_of_lookup hfind).1
    have hsane : Sane ⟨p.modify addr fun l => { l with thePermission := false },
        p.theSBLines_Permission_falsecount + (1 - missing l)⟩ :=
      h.modify hfind (fun _ => rfl) (h.positive l hmem) (by simp [missing])
    have hlost : (if l.thePermission then p.theSBLines_Permission_falsecount + 1
        else p.theSBLines_Permission_falsecount) =
        p.theSBLines_Permission_falsecount + (1 - missing l) := by
      unfold missing
      split <;> omega
    have hle := sum_missing_le (p.modify addr fun l => { l with thePermission := false })
    have hnonneg := sum_missing_nonneg (p.modify addr fun l => { l with thePermission := false })
    have hfalse := hsane.falsecount
    have hlength : (p.modify addr fun l => { l with thePermission := false }).length =
        p.theSBLines_Permission.length := List.length_map _
    dsimp only at hfalse
    rw [hlength] at hle
    rw [hlost, if_neg (by omega)]
    refine .ok ⟨hsane, ?_⟩
    intro a
    refine (countAt_modify (by intro _; rfl) hfind a).trans ?_
    by_cases ha : a = addr
    · rw [if_pos ha, ha, countAt_of_find hfind]
    · rw [if_neg ha]

end Permissions

end nuArchARM
