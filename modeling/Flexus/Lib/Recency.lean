import Flexus.Lib.Keyed

/-!
# Bounded maps that forget the least recent key

A sequence of keys with their values, the least recent one first. A key that is set becomes
the most recent one, and the least recent one goes when there are too many.
-/

@[ext]
structure Recency (κ ν : Type*) (capacity : Nat) where
  items : List (κ × ν)
  unique : (items.map Prod.fst).Nodup
  bounded : items.length ≤ capacity

namespace Recency

variable {κ ν : Type*} [DecidableEq κ] {capacity : Nat}

def empty : Recency κ ν capacity where
  items := []
  unique := List.nodup_nil
  bounded := Nat.zero_le _

variable (m : Recency κ ν capacity) (k : κ) (v : ν)

def find : Option ν := (Keyed.lookup Prod.fst m.items k).map Prod.snd

/-- Forget a key. -/
def remove : Recency κ ν capacity where
  items := Keyed.erase Prod.fst k m.items
  unique := Keyed.nodup_erase m.unique
  bounded := Nat.le_trans (List.length_filter_le _ _) m.bounded

/-- The items with a key at the recent end. -/
def moved : List (κ × ν) := Keyed.erase Prod.fst k m.items ++ [(k, v)]

variable {m k v}

theorem not_mem_erase : k ∉ (Keyed.erase Prod.fst k m.items).map Prod.fst := by
  rw [← Keyed.lookup_eq_none, Keyed.lookup_erase, if_pos rfl]

theorem nodup_moved : ((m.moved k v).map Prod.fst).Nodup :=
  Keyed.nodup_append_singleton (Keyed.nodup_erase m.unique) not_mem_erase

variable (m k v)

/-- Set the value of a key. -/
def touch : Recency κ ν capacity where
  items := (m.moved k v).drop ((m.moved k v).length - capacity)
  unique := nodup_moved.sublist ((List.drop_sublist _ _).map _)
  bounded := by
    rw [List.length_drop]
    omega

variable {m k v}

theorem touch_items : (m.touch k v).items = (m.moved k v).drop ((m.moved k v).length - capacity) := rfl

theorem erase_of_not_mem (h : k ∉ m.items.map Prod.fst) : Keyed.erase Prod.fst k m.items = m.items := by
  apply List.filter_eq_self.mpr
  intro e he
  apply bne_iff_ne.mpr
  rintro rfl
  exact h (List.mem_map_of_mem he)

theorem moved_of_not_mem (h : k ∉ m.items.map Prod.fst) : m.moved k v = m.items ++ [(k, v)] := by
  rw [moved, erase_of_not_mem h]

/-- Nothing is forgotten for a key that was there. -/
theorem touch_of_mem (h : k ∈ m.items.map Prod.fst) : (m.touch k v).items = m.moved k v := by
  have hshorter : (Keyed.erase Prod.fst k m.items).length < m.items.length := by
    obtain ⟨e, he, rfl⟩ := List.mem_map.mp h
    exact List.length_filter_lt_length_iff_exists.mpr ⟨e, he, by simp⟩
  have hfits : (m.moved k v).length ≤ capacity := by
    have hbounded := m.bounded
    rw [moved, List.length_append, List.length_singleton]
    omega
  rw [touch_items, Nat.sub_eq_zero_of_le hfits, List.drop_zero]

/-- A new key stands behind the others, of which the least recent goes from a full map. -/
theorem touch_of_not_mem (hcapacity : 0 < capacity) (h : k ∉ m.items.map Prod.fst) :
    (m.touch k v).items =
      (if capacity ≤ m.items.length then m.items.tail else m.items) ++ [(k, v)] := by
  have hbounded := m.bounded
  rw [touch_items, moved_of_not_mem h, List.length_append, List.length_singleton]
  split
  · next hfull =>
    have hone : m.items.length + 1 - capacity = 1 := by omega
    rw [hone, List.drop_one, List.tail_append_of_ne_nil]
    intro hnil
    rw [hnil, List.length_nil] at hfull
    omega
  · next hroom =>
    have hzero : m.items.length + 1 - capacity = 0 := by omega
    rw [hzero, List.drop_zero]

end Recency
