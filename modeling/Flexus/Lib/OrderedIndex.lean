import Mathlib.Data.List.Sort
import Mathlib.Data.List.TakeWhile
import Mathlib.Data.Prod.Lex
import Mathlib.Tactic

/-!
# Ordered, non-unique indices

A container of values kept sorted by a key, several values to a key. A new value
goes behind the values with its key. A value changed in place stays where it is
as long as its neighbours allow it, and is otherwise taken out and put in again,
so the order among equal keys depends on the changes made and not on the values
alone.
-/

namespace OrderedIndex

variable {α κ : Type*} [LinearOrder κ] (key : α → κ)

/-- Keys ascend along the list. -/
def Ascending (l : List α) : Prop := l.Pairwise fun x y => key x ≤ key y

/-- Put a value behind every value whose key is not greater. -/
def link (e : α) (l : List α) : List α := l.orderedInsert (fun x y => key x < key y) e

/-- Whether a value may stay between its neighbours. -/
def inPlace (before : Option α) (e : α) (behind : Option α) : Bool :=
  before.all (fun x => key x ≤ key e) && behind.all (fun x => key e ≤ key x)

/-- Change the first value that meets `p` and restore the order. -/
def modify (p : α → Bool) (f : α → α) (l : List α) : List α :=
  match l.takeWhile (fun e => !p e), l.dropWhile (fun e => !p e) with
  | pre, e :: post =>
    if inPlace key pre.getLast? (f e) post.head? then pre ++ f e :: post
    else link key (f e) (pre ++ post)
  | _, [] => l

variable {key} {e x : α} {l : List α} {p q : α → Bool} {f : α → α}

theorem link_perm : (link key e l).Perm (e :: l) := List.perm_orderedInsert _ _ _

@[simp]
theorem mem_link : x ∈ link key e l ↔ x = e ∨ x ∈ l := by
  rw [link_perm.mem_iff, List.mem_cons]

theorem ascending_link (hl : Ascending key l) : Ascending key (link key e l) := by
  induction l with
  | nil => simp [link, Ascending]
  | cons y l ih =>
    obtain ⟨hy, htail⟩ := List.pairwise_cons.mp hl
    by_cases hlt : key e < key y
    · have heq : link key e (y :: l) = e :: y :: l := by simp [link, List.orderedInsert, hlt]
      rw [heq]
      refine List.pairwise_cons.mpr ⟨?_, hl⟩
      intro z hz
      rcases List.mem_cons.mp hz with rfl | hz
      · exact hlt.le
      · exact hlt.le.trans (hy z hz)
    · have heq : link key e (y :: l) = y :: link key e l := by
        simp [link, List.orderedInsert, hlt]
      rw [heq]
      refine List.pairwise_cons.mpr ⟨?_, ih htail⟩
      intro z hz
      rcases mem_link.mp hz with rfl | hz
      · exact not_lt.mp hlt
      · exact hy z hz

/-- A value that fails a test is not seen among those that pass it. -/
theorem filter_link_of_neg (he : q e = false) : (link key e l).filter q = l.filter q := by
  induction l with
  | nil => simp [link, he]
  | cons y l ih =>
    by_cases hlt : key e < key y
    · have heq : link key e (y :: l) = e :: y :: l := by simp [link, List.orderedInsert, hlt]
      rw [heq, List.filter_cons_of_neg (by simp [he])]
    · have heq : link key e (y :: l) = y :: link key e l := by
        simp [link, List.orderedInsert, hlt]
      rw [heq, List.filter_cons, List.filter_cons, ih]

/-- A value goes behind the values with its key. -/
theorem filter_link_key (hq : ∀ x, q x = true → key x = key e) (he : q e = true)
    (hl : Ascending key l) : (link key e l).filter q = l.filter q ++ [e] := by
  induction l with
  | nil => simp [link, he]
  | cons y l ih =>
    obtain ⟨hy, htail⟩ := List.pairwise_cons.mp hl
    by_cases hlt : key e < key y
    · have heq : link key e (y :: l) = e :: y :: l := by simp [link, List.orderedInsert, hlt]
      have hnone : (y :: l).filter q = [] := by
        apply List.filter_eq_nil_iff.mpr
        intro z hz hqz
        have hle : key y ≤ key z := by
          rcases List.mem_cons.mp hz with rfl | hz
          · exact le_rfl
          · exact hy z hz
        exact absurd (hlt.trans_le hle) (hq z hqz ▸ lt_irrefl _)
      rw [heq, List.filter_cons_of_pos he, hnone, List.nil_append]
    · have heq : link key e (y :: l) = y :: link key e l := by
        simp [link, List.orderedInsert, hlt]
      rw [heq, List.filter_cons, List.filter_cons, ih htail]
      split <;> simp

/-- The list around the first value that meets `p`. -/
theorem exists_split (hx : x ∈ l) (hp : p x = true) :
    ∃ pre y post, l = pre ++ y :: post ∧ p y = true ∧ (∀ z ∈ pre, p z = false) ∧
      l.takeWhile (fun e => !p e) = pre ∧ l.dropWhile (fun e => !p e) = y :: post := by
  induction l with
  | nil => cases hx
  | cons z l ih =>
    by_cases hz : p z = true
    · exact ⟨[], z, l, rfl, hz, by simp, by simp [hz], by simp [hz]⟩
    · have hzf : p z = false := by simpa using hz
      have hxl : x ∈ l := by
        rcases List.mem_cons.mp hx with rfl | hxl
        · exact absurd hp hz
        · exact hxl
      obtain ⟨pre, y, post, hl, hy, hpre, htake, hdrop⟩ := ih hxl
      refine ⟨z :: pre, y, post, by rw [hl]; rfl, hy, ?_, by simp [hzf, htake],
        by simp [hzf, hdrop]⟩
      intro w hw
      rcases List.mem_cons.mp hw with rfl | hw
      · exact hzf
      · exact hpre w hw

/-- When no value meets `p`, nothing changes. -/
theorem modify_of_not_mem (hno : ∀ x ∈ l, p x = false) : modify key p f l = l := by
  have hdrop : l.dropWhile (fun e => !p e) = [] := by
    rw [List.dropWhile_eq_nil_iff]
    intro x hx
    simp [hno x hx]
  simp only [modify, hdrop]

/-- Changing the one value that meets `p` keeps the others and, up to order,
    maps the list. -/
theorem modify_perm (huniq : l.Pairwise fun x y => p x = true → p y = false) :
    (modify key p f l).Perm (l.map fun x => if p x then f x else x) := by
  by_cases hany : ∃ x ∈ l, p x = true
  · obtain ⟨x, hx, hpx⟩ := hany
    obtain ⟨pre, y, post, rfl, hy, hpre, htake, hdrop⟩ := exists_split hx hpx
    have hpost : ∀ z ∈ post, p z = false := by
      intro z hz
      have htail := (List.pairwise_append.mp huniq).2.1
      exact (List.pairwise_cons.mp htail).1 z hz hy
    have hmapPre : pre.map (fun x => if p x then f x else x) = pre := by
      refine (List.map_congr_left fun z hz => ?_).trans (List.map_id pre)
      simp [hpre z hz]
    have hmapPost : post.map (fun x => if p x then f x else x) = post := by
      refine (List.map_congr_left fun z hz => ?_).trans (List.map_id post)
      simp [hpost z hz]
    simp only [modify, htake, hdrop, List.map_append, List.map_cons, hmapPre, hmapPost, hy, if_true]
    split
    · exact List.Perm.refl _
    · exact link_perm.trans List.perm_middle.symm
  · push Not at hany
    have hno : ∀ x ∈ l, p x = false := fun x hx => by simpa using hany x hx
    rw [modify_of_not_mem hno]
    refine List.Perm.of_eq (Eq.symm ?_)
    refine (List.map_congr_left fun z hz => ?_).trans (List.map_id l)
    simp [hno z hz]

theorem ascending_modify (hl : Ascending key l) : Ascending key (modify key p f l) := by
  by_cases hany : ∃ x ∈ l, p x = true
  · obtain ⟨x, hx, hpx⟩ := hany
    obtain ⟨pre, y, post, rfl, hy, hpre, htake, hdrop⟩ := exists_split hx hpx
    obtain ⟨hascPre, hascTail, hcross⟩ := List.pairwise_append.mp hl
    obtain ⟨hhead, hascPost⟩ := List.pairwise_cons.mp hascTail
    have hjoin : Ascending key (pre ++ post) :=
      List.pairwise_append.mpr ⟨hascPre, hascPost, fun a ha b hb =>
        hcross a ha b (List.mem_cons_of_mem _ hb)⟩
    simp only [modify, htake, hdrop]
    split
    · next hplace =>
      simp only [inPlace, Bool.and_eq_true, Option.all_eq_true, decide_eq_true_eq] at hplace
      have hbefore : ∀ a ∈ pre, key a ≤ key (f y) := by
        intro a ha
        rcases List.eq_nil_or_concat pre with rfl | ⟨front, last, rfl⟩
        · cases ha
        · have hlast : key last ≤ key (f y) := hplace.1 last (by simp)
          rcases List.mem_append.mp (List.concat_eq_append ▸ ha) with hfront | hsingle
          · rw [List.concat_eq_append] at hascPre
            exact ((List.pairwise_append.mp hascPre).2.2 a hfront last (by simp)).trans hlast
          · rw [List.mem_singleton.mp hsingle]
            exact hlast
      have hbehind : ∀ b ∈ post, key (f y) ≤ key b := by
        intro b hb
        cases post with
        | nil => cases hb
        | cons first rest =>
          have hfirst : key (f y) ≤ key first := hplace.2 first (by simp)
          rcases List.mem_cons.mp hb with rfl | hrest
          · exact hfirst
          · exact hfirst.trans ((List.pairwise_cons.mp hascPost).1 b hrest)
      refine List.pairwise_append.mpr ⟨hascPre, List.pairwise_cons.mpr ⟨hbehind, hascPost⟩, ?_⟩
      intro a ha b hb
      rcases List.mem_cons.mp hb with rfl | hpost
      · exact hbefore a ha
      · exact hcross a ha b (List.mem_cons_of_mem _ hpost)
    · exact ascending_link hjoin
  · push Not at hany
    rwa [modify_of_not_mem fun x hx => by simpa using hany x hx]

/-- The first value that meets a test has the least key among those that do. -/
theorem key_le_of_find? (hl : Ascending key l) (hfind : l.find? q = some e) (hx : x ∈ l)
    (hq : q x = true) : key e ≤ key x := by
  induction l with
  | nil => cases hx
  | cons y l ih =>
    obtain ⟨hy, htail⟩ := List.pairwise_cons.mp hl
    by_cases hqy : q y = true
    · have hye : y = e := by simpa [hqy] using hfind
      subst hye
      rcases List.mem_cons.mp hx with rfl | hx
      · exact le_rfl
      · exact hy x hx
    · rcases List.mem_cons.mp hx with rfl | hx
      · exact absurd hq hqy
      · exact ih htail (by simpa [hqy] using hfind) hx

end OrderedIndex
