import Mathlib.Tactic

/-!
# Who is present while

Marks are made when something comes and when it leaves, in the order of their times. From one mark
to the next as many are present as have come and not left.
-/

structure Mark (κ : Type*) where
  key : κ
  time : Nat
  enters : Bool
  deriving DecidableEq, Repr

/-- A stretch of time with the number of those that are present. -/
structure Stretch where
  opens : Nat
  closes : Nat
  present : Nat
  deriving DecidableEq, Repr

namespace Census

variable {κ : Type*}

def entered (ms : List (Mark κ)) : List (Mark κ) := ms.filter fun m => m.enters

def left (ms : List (Mark κ)) : List (Mark κ) := ms.filter fun m => !m.enters

def present (ms : List (Mark κ)) : Nat := (entered ms).length - (left ms).length

def lastTime (ms : List (Mark κ)) : Nat := (ms.getLast?.map Mark.time).getD 0

/-- The stretches that end with the marks of a list, behind those that came before. -/
def stretchesFrom : List (Mark κ) → List (Mark κ) → List Stretch
  | _, [] => []
  | before, m :: ms => ⟨lastTime before, m.time, present before⟩ :: stretchesFrom (before ++ [m]) ms

def stretches (ms : List (Mark κ)) : List Stretch := stretchesFrom [] ms

/-- Stretches that follow each other without a gap. -/
def Covers : Nat → List Stretch → Nat → Prop
  | a, [], b => a = b
  | a, s :: ss, b => s.opens = a ∧ s.opens ≤ s.closes ∧ Covers s.closes ss b

/-- The times are in order, nobody comes or leaves twice, and who leaves has come before. -/
structure Orderly (ms : List (Mark κ)) : Prop where
  sorted : ms.Pairwise fun a b => a.time ≤ b.time
  once : ((entered ms).map Mark.key).Nodup
  gone : ((left ms).map Mark.key).Nodup
  known : ∀ m ∈ left ms, ∃ a ∈ entered ms, a.key = m.key
  after : ms.Pairwise fun a b => a.enters = false → b.enters = true → a.key ≠ b.key

variable {ms before rest : List (Mark κ)} {m : Mark κ} {s : Stretch}

theorem entered_append (ms rest : List (Mark κ)) : entered (ms ++ rest) = entered ms ++ entered rest :=
  List.filter_append ..

theorem left_append (ms rest : List (Mark κ)) : left (ms ++ rest) = left ms ++ left rest := List.filter_append ..

theorem mem_left : m ∈ left ms ↔ m ∈ ms ∧ m.enters = false := by
  rw [left, List.mem_filter, Bool.not_eq_true']

theorem mem_entered : m ∈ entered ms ↔ m ∈ ms ∧ m.enters = true := List.mem_filter

theorem entered_cons_of_enters (h : m.enters = true) : entered (m :: ms) = m :: entered ms := List.filter_cons_of_pos h

theorem entered_cons_of_leaves (h : m.enters = false) : entered (m :: ms) = entered ms :=
  List.filter_cons_of_neg (by simp [h])

theorem left_cons_of_enters (h : m.enters = true) : left (m :: ms) = left ms :=
  List.filter_cons_of_neg (by simp [h])

theorem left_cons_of_leaves (h : m.enters = false) : left (m :: ms) = m :: left ms :=
  List.filter_cons_of_pos (by simp [h])

theorem entered_enter (h : m.enters = true) : entered (ms ++ [m]) = entered ms ++ [m] := by
  rw [entered_append, entered_cons_of_enters h]
  rfl

theorem entered_leave (h : m.enters = false) : entered (ms ++ [m]) = entered ms := by
  rw [entered_append, entered_cons_of_leaves h]
  exact List.append_nil _

theorem left_enter (h : m.enters = true) : left (ms ++ [m]) = left ms := by
  rw [left_append, left_cons_of_enters h]
  exact List.append_nil _

theorem left_leave (h : m.enters = false) : left (ms ++ [m]) = left ms ++ [m] := by
  rw [left_append, left_cons_of_leaves h]
  rfl

theorem lastTime_append_singleton : lastTime (ms ++ [m]) = m.time := by
  rw [lastTime, List.getLast?_concat]
  rfl

/-! ## Parts of a list of marks -/

theorem Orderly.initial (h : Orderly (ms ++ rest)) : Orderly ms where
  sorted := (List.pairwise_append.mp h.sorted).1
  once := by
    have honce := h.once
    rw [entered_append, List.map_append] at honce
    exact (List.nodup_append.mp honce).1
  gone := by
    have hgone := h.gone
    rw [left_append, List.map_append] at hgone
    exact (List.nodup_append.mp hgone).1
  known := by
    intro m hm
    obtain ⟨a, ha, hkey⟩ := h.known m (left_append ms rest ▸ List.mem_append_left _ hm)
    rw [entered_append] at ha
    obtain ha | ha := List.mem_append.mp ha
    · exact ⟨a, ha, hkey⟩
    · -- a later mark is not one of a coming
      obtain ⟨hm, hleaves⟩ := mem_left.mp hm
      obtain ⟨ha, hcomes⟩ := mem_entered.mp ha
      exact absurd hkey.symm ((List.pairwise_append.mp h.after).2.2 m hm a ha hleaves hcomes)
  after := (List.pairwise_append.mp h.after).1

/-- The marks of some of the keys. -/
theorem Orderly.ofKeys (h : Orderly ms) (p : κ → Bool) : Orderly (ms.filter fun m => p m.key) where
  sorted := h.sorted.filter _
  once := h.once.sublist ((List.filter_sublist.filter _).map _)
  gone := h.gone.sublist ((List.filter_sublist.filter _).map _)
  known := by
    intro m hm
    obtain ⟨hm, hleaves⟩ := mem_left.mp hm
    obtain ⟨hm, hp⟩ := List.mem_filter.mp hm
    obtain ⟨a, ha, hkey⟩ := h.known m (mem_left.mpr ⟨hm, hleaves⟩)
    obtain ⟨ha, hcomes⟩ := mem_entered.mp ha
    exact ⟨a, mem_entered.mpr ⟨List.mem_filter.mpr ⟨ha, hkey ▸ hp⟩, hcomes⟩, hkey⟩
  after := h.after.filter _

/-- Marks of leaving are left out. -/
theorem Orderly.forget (h : Orderly ms) (q : Mark κ → Bool) (hleaves : ∀ a ∈ ms, q a = false → a.enters = false) :
    entered (ms.filter q) = entered ms ∧ Orderly (ms.filter q) := by
  have hentered : entered (ms.filter q) = entered ms := by
    rw [entered, List.filter_filter]
    apply List.filter_congr
    intro a ha
    cases hq : q a with
    | true => rw [Bool.and_true]
    | false => rw [Bool.and_false, hleaves a ha hq]
  have hleft : left (ms.filter q) ⊆ left ms := (List.filter_sublist.filter _).subset
  refine ⟨hentered, h.sorted.filter _, ?_, ?_, ?_, h.after.filter _⟩
  · rw [hentered]
    exact h.once
  · exact h.gone.sublist ((List.filter_sublist.filter _).map _)
  · rw [hentered]
    exact fun a ha => h.known a (hleft ha)

theorem Orderly.left_le (h : Orderly ms) : (left ms).length ≤ (entered ms).length := by
  have hsub : (left ms).map Mark.key ⊆ (entered ms).map Mark.key := by
    intro k hk
    obtain ⟨m, hm, rfl⟩ := List.mem_map.mp hk
    obtain ⟨a, ha, hkey⟩ := h.known m hm
    exact hkey ▸ List.mem_map_of_mem ha
  have hle := (h.gone.subperm hsub).length_le
  rwa [List.length_map, List.length_map] at hle

theorem Orderly.present_enter (h : Orderly (ms ++ [m])) (henters : m.enters = true) :
    present (ms ++ [m]) = present ms + 1 := by
  have hle := h.initial.left_le
  rw [present, present, entered_enter henters, left_enter henters, List.length_append, List.length_singleton]
  omega

theorem Orderly.present_leave (h : Orderly (ms ++ [m])) (hleaves : m.enters = false) :
    present (ms ++ [m]) + 1 = present ms := by
  have hle := h.left_le
  rw [entered_leave hleaves, left_leave hleaves, List.length_append, List.length_singleton] at hle
  rw [present, present, entered_leave hleaves, left_leave hleaves, List.length_append, List.length_singleton]
  omega

theorem Orderly.lastTime_le (h : Orderly (ms ++ m :: rest)) : lastTime ms ≤ m.time := by
  cases hlast : ms.getLast? with
  | none => simp [lastTime, hlast]
  | some a =>
    rw [lastTime, hlast]
    exact (List.pairwise_append.mp h.sorted).2.2 a (List.mem_of_getLast? hlast) m List.mem_cons_self

theorem Orderly.le_lastTime (h : Orderly ms) {a : Mark κ} (ha : a ∈ ms) : a.time ≤ lastTime ms := by
  obtain ⟨before, rest, rfl⟩ := List.append_of_mem ha
  obtain rfl | ⟨rest, b, rfl⟩ := List.eq_nil_or_concat rest
  · rw [lastTime_append_singleton]
  · have hsame : before ++ a :: (rest ++ [b]) = (before ++ a :: rest) ++ [b] := by simp
    rw [List.concat_eq_append, hsame] at h ⊢
    rw [lastTime_append_singleton]
    exact (List.pairwise_append.mp h.sorted).2.2 a (by simp) b List.mem_cons_self

/-! ## More marks -/

theorem pairwise_append_singleton {R : Mark κ → Mark κ → Prop} (h : ms.Pairwise R) (hlast : ∀ a ∈ ms, R a m) :
    (ms ++ [m]).Pairwise R := by
  rw [List.pairwise_append]
  refine ⟨h, List.pairwise_singleton _ _, fun a ha b hb => ?_⟩
  rw [List.mem_singleton.mp hb]
  exact hlast a ha

/-- Something comes that was never there. -/
theorem Orderly.enter (h : Orderly ms) (henters : m.enters = true) (htime : ∀ a ∈ ms, a.time ≤ m.time)
    (hnew : ∀ a ∈ ms, a.key ≠ m.key) : Orderly (ms ++ [m]) := by
  constructor
  · exact pairwise_append_singleton h.sorted htime
  · rw [entered_enter henters, List.map_append, List.map_singleton, ← List.concat_eq_append]
    refine h.once.concat fun hmem => ?_
    obtain ⟨a, ha, hkey⟩ := List.mem_map.mp hmem
    exact hnew a (mem_entered.mp ha).1 hkey
  · rw [left_enter henters]
    exact h.gone
  · rw [left_enter henters, entered_enter henters]
    intro a ha
    obtain ⟨b, hb, hkey⟩ := h.known a ha
    exact ⟨b, List.mem_append_left _ hb, hkey⟩
  · exact pairwise_append_singleton h.after fun a ha _ _ => hnew a ha

/-- Something leaves that has come and not left. -/
theorem Orderly.leave (h : Orderly ms) (hleaves : m.enters = false) (htime : ∀ a ∈ ms, a.time ≤ m.time)
    (hcame : ∃ a ∈ entered ms, a.key = m.key) (hstays : ∀ a ∈ left ms, a.key ≠ m.key) : Orderly (ms ++ [m]) := by
  constructor
  · exact pairwise_append_singleton h.sorted htime
  · rw [entered_leave hleaves]
    exact h.once
  · rw [left_leave hleaves, List.map_append, List.map_singleton, ← List.concat_eq_append]
    refine h.gone.concat fun hmem => ?_
    obtain ⟨a, ha, hkey⟩ := List.mem_map.mp hmem
    exact hstays a ha hkey
  · rw [left_leave hleaves, entered_leave hleaves]
    intro a ha
    obtain ha | ha := List.mem_append.mp ha
    · exact h.known a ha
    · rw [List.mem_singleton.mp ha]
      exact hcame
  · refine pairwise_append_singleton h.after fun a ha _ hcomes => ?_
    rw [hleaves] at hcomes
    cases hcomes

/-- Something that has come and not left gets another key, which nothing else has. -/
theorem Orderly.rekey {m' : Mark κ} (h : Orderly (ms ++ m :: rest)) (henters : m.enters = true)
    (henters' : m'.enters = true) (htime : m'.time = m.time) (hstays : ∀ a ∈ left (ms ++ m :: rest), a.key ≠ m.key)
    (hnew : ∀ a ∈ ms ++ rest, a.key ≠ m'.key) : Orderly (ms ++ m' :: rest) := by
  have hparts : ∀ x : Mark κ, x.enters = true → entered (ms ++ x :: rest) = entered ms ++ x :: entered rest ∧
      left (ms ++ x :: rest) = left ms ++ left rest := by
    intro x hx
    rw [entered_append, left_append, entered_cons_of_enters hx, left_cons_of_enters hx]
    exact ⟨rfl, rfl⟩
  obtain ⟨hcame, hleft⟩ := hparts m henters
  obtain ⟨hcame', hleft'⟩ := hparts m' henters'
  have hentered : ∀ a ∈ entered ms ++ entered rest, a.key ≠ m'.key := by
    intro a ha
    rw [← entered_append] at ha
    exact hnew a (mem_entered.mp ha).1
  constructor
  · have hsorted := h.sorted
    simp only [List.pairwise_append, List.pairwise_cons, List.mem_cons, forall_eq_or_imp, htime] at hsorted ⊢
    exact hsorted
  · have honce := h.once
    rw [hcame, List.map_append, List.map_cons, List.nodup_middle, List.nodup_cons, ← List.map_append] at honce
    rw [hcame', List.map_append, List.map_cons, List.nodup_middle, List.nodup_cons, ← List.map_append]
    refine ⟨fun hmem => ?_, honce.2⟩
    obtain ⟨a, ha, hkey⟩ := List.mem_map.mp hmem
    exact hentered a ha hkey
  · rw [hleft', ← hleft]
    exact h.gone
  · intro a ha
    rw [hleft', ← hleft] at ha
    obtain ⟨b, hb, hkey⟩ := h.known a ha
    rw [hcame] at hb
    rw [hcame']
    refine ⟨b, ?_, hkey⟩
    simp only [List.mem_append, List.mem_cons] at hb ⊢
    obtain hb | rfl | hb := hb
    · exact .inl hb
    · exact absurd hkey.symm (hstays a ha)
    · exact .inr (.inr hb)
  · have hafter := h.after
    simp only [List.pairwise_append, List.pairwise_cons, List.mem_cons, forall_eq_or_imp] at hafter ⊢
    obtain ⟨hms, ⟨-, hrest⟩, hcross⟩ := hafter
    refine ⟨hms, ⟨fun b _ hgone => ?_, hrest⟩, fun a ha => ⟨fun _ _ => ?_, (hcross a ha).2⟩⟩
    · rw [henters'] at hgone
      cases hgone
    · exact hnew a (List.mem_append_left _ ha)

/-! ## Stretches -/

theorem stretchesFrom_append (before ms : List (Mark κ)) (m : Mark κ) :
    stretchesFrom before (ms ++ [m]) =
      stretchesFrom before ms ++ [⟨lastTime (before ++ ms), m.time, present (before ++ ms)⟩] := by
  induction ms generalizing before with
  | nil => simp [stretchesFrom]
  | cons a ms ih =>
    rw [List.cons_append, stretchesFrom, stretchesFrom, ih, List.append_assoc, List.singleton_append]
    rfl

theorem stretches_append (ms : List (Mark κ)) (m : Mark κ) :
    stretches (ms ++ [m]) = stretches ms ++ [⟨lastTime ms, m.time, present ms⟩] :=
  stretchesFrom_append [] ms m

theorem mem_stretches_append (h : s ∈ stretches ms) (rest : List (Mark κ)) : s ∈ stretches (ms ++ rest) := by
  induction rest using List.reverseRecOn with
  | nil => rwa [List.append_nil]
  | append_singleton rest m ih =>
    rw [← List.append_assoc, stretches_append]
    exact List.mem_append_left _ ih

/-- A stretch is the one before a mark. -/
theorem exists_of_mem_stretches (h : s ∈ stretches ms) :
    ∃ before m rest, ms = before ++ m :: rest ∧ s = ⟨lastTime before, m.time, present before⟩ := by
  induction ms using List.reverseRecOn with
  | nil => cases h
  | append_singleton ms m ih =>
    rw [stretches_append] at h
    obtain h | h := List.mem_append.mp h
    · obtain ⟨before, a, rest, rfl, hs⟩ := ih h
      exact ⟨before, a, rest ++ [m], by simp, hs⟩
    · exact ⟨ms, m, [], rfl, List.mem_singleton.mp h⟩

theorem Covers.append {a b : Nat} {ss : List Stretch} (h : Covers a ss b) (hopens : s.opens = b)
    (hle : s.opens ≤ s.closes) : Covers a (ss ++ [s]) s.closes := by
  induction ss generalizing a with
  | nil => exact ⟨hopens.trans h.symm, hle, rfl⟩
  | cons x ss ih => exact ⟨h.1, h.2.1, ih h.2.2⟩

/-- The stretches cover the time from the beginning to the last mark. -/
theorem Orderly.covers (h : Orderly ms) : Covers 0 (stretches ms) (lastTime ms) := by
  induction ms using List.reverseRecOn with
  | nil => rfl
  | append_singleton ms m ih =>
    rw [stretches_append, lastTime_append_singleton]
    exact (ih h.initial).append rfl h.lastTime_le

variable [DecidableEq κ]

/-- Those that are present have come, and their keys are not among those that have left. -/
theorem Orderly.present_eq (h : Orderly ms) :
    present ms = ((entered ms).filter fun a => a.key ∉ (left ms).map Mark.key).length := by
  have hperm : (((entered ms).filter fun a => a.key ∈ (left ms).map Mark.key).map Mark.key).Perm
      ((left ms).map Mark.key) := by
    rw [List.perm_ext_iff_of_nodup (h.once.sublist (List.filter_sublist.map _)) h.gone]
    intro k
    constructor
    · intro hk
      obtain ⟨a, ha, rfl⟩ := List.mem_map.mp hk
      simpa using (List.mem_filter.mp ha).2
    · intro hk
      obtain ⟨m, hm, rfl⟩ := List.mem_map.mp hk
      obtain ⟨a, ha, hkey⟩ := h.known m hm
      rw [← hkey]
      refine List.mem_map_of_mem (List.mem_filter.mpr ⟨ha, ?_⟩)
      rw [decide_eq_true_eq, hkey]
      exact hk
  have hlength := hperm.length_eq
  have hsplit := List.length_eq_length_filter_add (l := entered ms) fun a => decide (a.key ∈ (left ms).map Mark.key)
  rw [List.length_map, List.length_map] at hlength
  simp only [← decide_not] at hsplit
  rw [present]
  omega

/-- Those that are there throughout a stretch have come when it opens and not left before it
    closes. -/
def through (ms : List (Mark κ)) (s : Stretch) : List (Mark κ) :=
  (entered ms).filter fun a => a.time ≤ s.opens ∧ ∀ b ∈ left ms, b.key = a.key → s.closes ≤ b.time

/-- Each stretch has the number of those that are there throughout it. -/
theorem Orderly.present_stretch (h : Orderly ms) (hs : s ∈ stretches ms) (hlong : s.opens < s.closes) :
    s.present = (through ms s).length := by
  obtain ⟨before, m, rest, rfl, rfl⟩ := exists_of_mem_stretches hs
  simp only at hlong ⊢
  have hbefore := h.initial
  have hlater : ∀ a ∈ m :: rest, m.time ≤ a.time := by
    intro a ha
    obtain rfl | ha := List.mem_cons.mp ha
    · exact Nat.le_refl _
    · exact (List.pairwise_cons.mp (List.pairwise_append.mp h.sorted).2.1).1 a ha
  rw [hbefore.present_eq, through, entered_append, List.filter_append, List.length_append]
  have hnone : (entered (m :: rest)).filter (fun a => decide (a.time ≤ lastTime before ∧
      ∀ b ∈ left (before ++ m :: rest), b.key = a.key → m.time ≤ b.time)) = [] := by
    rw [List.filter_eq_nil_iff]
    intro a ha hin
    have hle := hlater a (mem_entered.mp ha).1
    have hsoon := (of_decide_eq_true hin).1
    omega
  rw [hnone, List.length_nil, Nat.add_zero]
  congr 1
  apply List.filter_congr
  intro a ha
  rw [decide_eq_decide]
  constructor
  · intro hstays
    refine ⟨hbefore.le_lastTime (mem_entered.mp ha).1, fun b hb hkey => ?_⟩
    rw [left_append] at hb
    obtain hb | hb := List.mem_append.mp hb
    · exact absurd (hkey ▸ List.mem_map_of_mem hb) hstays
    · exact hlater b (mem_left.mp hb).1
  · rintro ⟨-, hstays⟩ hgone
    obtain ⟨b, hb, hkey⟩ := List.mem_map.mp hgone
    have hle : m.time ≤ b.time := hstays b (left_append before (m :: rest) ▸ List.mem_append_left _ hb) hkey
    have hearly := hbefore.le_lastTime (mem_left.mp hb).1
    omega

end Census
