import Flexus.Lib.Runs

/-!
# Bitsets of a fixed size

A bitset is a list of bits, one for each index below its size. Writing a bit that the
set does not have is a fault. Groups are the aligned blocks of a given length; filling
the groups of some bits can only add bits.
-/

namespace Bitset

variable {φ : Type*}

/-- The bit with the given index; a bit outside the set reads as clear. -/
def test (b : List Bool) (i : Nat) : Bool := b.getD i false

/-- The number of bits that are set. -/
def count (b : List Bool) : Nat := b.count true

/-- The indices of the bits that are set, in increasing order. -/
def ones (b : List Bool) : List Nat := (List.range b.length).filter (test b)

/-- Write one bit. -/
def write (fault : φ) (b : List Bool) (i : Nat) (v : Bool) : Except φ (List Bool) :=
  if i < b.length then .ok (b.set i v) else .error fault

/-- Set `n` bits from `base` on, one after the other. -/
def fill (fault : φ) (b : List Bool) (base n : Nat) : Except φ (List Bool) :=
  (List.range n).foldlM (fun b i => write fault b (base + i) true) b

/-- Write the bits `0 .. n - 1`, each from its index and its old value. -/
def rewrite (fault : φ) (b : List Bool) (n : Nat) (f : Nat → Bool → Bool) : Except φ (List Bool) :=
  (List.range n).foldlM (fun b i => write fault b i (f i (test b i))) b

section Bits

variable {fault : φ} {b c : List Bool} {i j base n : Nat} {v : Bool} {f : Nat → Bool → Bool}

theorem test_of_le (h : b.length ≤ i) : test b i = false := by
  simp [test, List.getD_eq_getElem?_getD, List.getElem?_eq_none h]

theorem lt_of_test (h : test b i = true) : i < b.length := by
  by_contra hnot
  rw [test_of_le (by omega)] at h
  cases h

theorem test_set : test (b.set i v) j = if i = j ∧ i < b.length then v else test b j := by
  simp only [test, List.getD_eq_getElem?_getD, List.getElem?_set]
  by_cases hij : i = j
  · subst hij
    by_cases hi : i < b.length <;> simp [hi]
  · simp [hij]

@[simp]
theorem test_replicate : test (List.replicate n false) i = false := by
  simp only [test, List.getD_eq_getElem?_getD, List.getElem?_replicate]
  split <;> rfl

/-- Two sets of one size with the same bits are equal. -/
theorem ext (hlength : b.length = c.length) (h : ∀ i, test b i = test c i) : b = c := by
  refine List.ext_getElem hlength fun i hb hc => ?_
  have hi := h i
  simpa [test, List.getD_eq_getElem?_getD, hb, hc] using hi

theorem mem_ones : i ∈ ones b ↔ test b i = true := by
  simp only [ones, List.mem_filter, List.mem_range, and_iff_right_iff_imp]
  exact lt_of_test

theorem nodup_ones : (ones b).Nodup := List.nodup_range.filter _

theorem length_ones : (ones b).length = count b := by
  have hmap : (List.range b.length).map (test b) = b := by
    refine List.ext_getElem (by simp) fun i h1 h2 => ?_
    simp only [List.length_map, List.length_range] at h1
    simp [test, List.getD_eq_getElem?_getD, h1]
  rw [ones, ← List.countP_eq_length_filter, count]
  conv_rhs => rw [← hmap]
  rw [List.count, List.countP_map]
  refine List.countP_congr fun i _ => ?_
  simp

/-- More bits count more. -/
theorem count_mono (h : ∀ i, test b i = true → test c i = true) : count b ≤ count c := by
  rw [← length_ones, ← length_ones]
  exact (nodup_ones.subperm fun i hi => mem_ones.mpr (h i (mem_ones.mp hi))).length_le

theorem write_eq_ok (h : i < b.length) : write fault b i v = .ok (b.set i v) := if_pos h

variable (fault) in
/-- Filling a range that the set has sets exactly the bits of the range. -/
theorem fill_spec (h : base + n ≤ b.length) :
    ∃ c, fill fault b base n = .ok c ∧ c.length = b.length ∧
      ∀ i, test c i = (test b i || (decide (base ≤ i) && decide (i < base + n))) := by
  induction n with
  | zero =>
    refine ⟨b, rfl, rfl, fun i => ?_⟩
    have hnone : ¬ (base ≤ i ∧ i < base) := by omega
    simp only [Nat.add_zero]
    by_cases h1 : base ≤ i <;> by_cases h2 : i < base <;> simp_all
  | succ n ih =>
    obtain ⟨c, hc, hlength, hbits⟩ := ih (by omega)
    have hroom : base + n < c.length := by omega
    refine ⟨c.set (base + n) true, ?_, by simpa using hlength, fun i => ?_⟩
    · rw [fill] at hc ⊢
      rw [List.range_succ, List.foldlM_append, hc]
      simp only [List.foldlM_cons, List.foldlM_nil, bind, Except.bind, write_eq_ok hroom]
      rfl
    · rw [test_set, hbits]
      by_cases hi : base + n = i
      · subst hi
        simp [hroom]
      · have hlt : i < base + (n + 1) ↔ i < base + n := by omega
        simp [hi, hlt]

variable (fault) in
/-- Rewriting the first `n` bits of a set that has them. -/
theorem rewrite_spec (h : n ≤ b.length) :
    ∃ c, rewrite fault b n f = .ok c ∧ c.length = b.length ∧
      ∀ i, test c i = if i < n then f i (test b i) else test b i := by
  induction n with
  | zero => exact ⟨b, rfl, rfl, fun i => by simp⟩
  | succ n ih =>
    obtain ⟨c, hc, hlength, hbits⟩ := ih (by omega)
    have hroom : n < c.length := by omega
    refine ⟨c.set n (f n (test c n)), ?_, by simpa using hlength, fun i => ?_⟩
    · rw [rewrite] at hc ⊢
      rw [List.range_succ, List.foldlM_append, hc]
      simp only [List.foldlM_cons, List.foldlM_nil, bind, Except.bind, write_eq_ok hroom]
      rfl
    · rw [test_set, hbits, hbits]
      by_cases hi : n = i
      · subst hi
        simp [hroom]
      · have hlt : i < n + 1 ↔ i < n := by omega
        simp [hi, hlt]

end Bits

/-! ## Groups -/

/-- Set the group of `G` bits that bit `n` belongs to. -/
def fillGroup (fault : φ) (b : List Bool) (G n : Nat) : Except φ (List Bool) := fill fault b (n / G * G) G

/-- The group of bit `n` lies within a set of the given size. -/
def GroupFits (size G n : Nat) : Prop := n / G * G + G ≤ size

instance (size G n : Nat) : Decidable (GroupFits size G n) := inferInstanceAs (Decidable (_ ≤ _))

variable {fault : φ} {b : List Bool} {G n : Nat}

variable (fault) in
/-- Filling a group that fits sets the bits that share the group. -/
theorem fillGroup_spec (hG : 0 < G) (hfits : GroupFits b.length G n) :
    ∃ c, fillGroup fault b G n = .ok c ∧ c.length = b.length ∧
      ∀ i, test c i = (test b i || decide (i / G = n / G)) := by
  obtain ⟨c, hc, hlength, hbits⟩ := fill_spec fault hfits
  refine ⟨c, hc, hlength, fun i => ?_⟩
  have hiff : (n / G * G ≤ i ∧ i < n / G * G + G) ↔ i / G = n / G := by
    rw [Nat.div_eq_iff hG]
    omega
  rw [hbits, ← Bool.decide_and, decide_eq_decide.mpr hiff]

end Bitset
