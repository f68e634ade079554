import Mathlib.Tactic

/-!
# Lists with a unique key

A sequence of values that is also indexed by a unique key: what a lookup finds
after a value was appended, changed or taken out.
-/

namespace Keyed

variable {α κ : Type*} [DecidableEq κ] (key : α → κ)

/-- The value with the given key. -/
def lookup (l : List α) (k : κ) : Option α := l.find? fun e => key e == k

/-- Change the value with the given key. -/
def alter (k : κ) (f : α → α) (l : List α) : List α := l.map fun e => if key e = k then f e else e

/-- Take out the value with the given key. -/
def erase (k : κ) (l : List α) : List α := l.filter fun e => key e != k

variable {key} {l : List α} {k x : κ} {f : α → α} {e : α}

theorem lookup_alter (hf : ∀ e, key (f e) = key e) :
    lookup key (alter key k f l) x = if x = k then (lookup key l k).map f else lookup key l x := by
  induction l with
  | nil => simp [lookup, alter]
  | cons y l ih =>
    simp only [lookup, alter] at ih
    by_cases hyk : key y = k <;> by_cases hyx : key y = x <;> by_cases hxk : x = k <;>
      simp_all [lookup, alter]

theorem lookup_erase : lookup key (erase key k l) x = if x = k then none else lookup key l x := by
  induction l with
  | nil => simp [lookup, erase]
  | cons y l ih =>
    simp only [lookup, erase] at ih
    by_cases hyk : key y = k <;> by_cases hyx : key y = x <;> by_cases hxk : x = k <;>
      simp_all [lookup, erase]

theorem lookup_append_singleton :
    lookup key (l ++ [e]) x = (lookup key l x).or (if key e = x then some e else none) := by
  rw [lookup, lookup, List.find?_append]
  by_cases h : key e = x <;> simp [h]

theorem lookup_eq_none : lookup key l k = none ↔ k ∉ l.map key := by
  simp [lookup]

theorem mem_of_lookup (h : lookup key l k = some e) : e ∈ l ∧ key e = k :=
  ⟨List.mem_of_find?_eq_some h, by simpa using List.find?_some h⟩

theorem lookup_of_mem (hunique : (l.map key).Nodup) (he : e ∈ l) : lookup key l (key e) = some e := by
  cases h : lookup key l (key e) with
  | none => exact absurd (List.mem_map_of_mem he) (lookup_eq_none.mp h)
  | some x =>
    obtain ⟨hx, hkey⟩ := mem_of_lookup h
    rw [List.inj_on_of_nodup_map hunique hx he hkey]

theorem map_alter (hf : ∀ e, key (f e) = key e) : (alter key k f l).map key = l.map key := by
  rw [alter, List.map_map]
  refine List.map_congr_left fun e _ => ?_
  simp only [Function.comp_apply]
  split
  · exact hf e
  · rfl

/-- A change that changes nothing. -/
theorem alter_eq_self (hf : ∀ e ∈ l, key e = k → f e = e) : alter key k f l = l := by
  have hsame : ∀ e ∈ l, (if key e = k then f e else e) = e := by
    intro e he
    split
    · next hk => exact hf e he hk
    · rfl
  rw [alter, List.map_congr_left hsame, List.map_id']

theorem erase_alter (hf : ∀ e, key (f e) = key e) : erase key k (alter key k f l) = erase key k l := by
  induction l with
  | nil => rfl
  | cons y l ih =>
    simp only [erase, alter] at ih
    by_cases hyk : key y = k
    · simp [erase, alter, hyk, hf, ih]
    · simp [erase, alter, hyk, ih]

/-- The place of the value that is changed. -/
theorem alter_append_cons {l₁ l₂ : List α} (hunique : ((l₁ ++ e :: l₂).map key).Nodup) :
    alter key (key e) f (l₁ ++ e :: l₂) = l₁ ++ f e :: l₂ := by
  rw [List.map_append, List.map_cons, List.nodup_append, List.nodup_cons] at hunique
  obtain ⟨_, ⟨hafter, _⟩, hbefore⟩ := hunique
  have hsame : ∀ {l : List α}, (∀ x ∈ l, key x ≠ key e) → alter key (key e) f l = l := by
    intro l hl
    exact alter_eq_self fun x hx hxe => absurd hxe (hl x hx)
  have hleft : alter key (key e) f l₁ = l₁ := hsame fun x hx =>
    hbefore (key x) (List.mem_map_of_mem hx) (key e) List.mem_cons_self
  have hright : alter key (key e) f l₂ = l₂ := hsame fun x hx hxe =>
    hafter (hxe ▸ List.mem_map_of_mem hx)
  rw [alter] at hleft hright
  rw [alter, List.map_append, List.map_cons, if_pos rfl, hleft, hright]

section Image

variable {β : Type*} {image : α → β} {key' : β → κ}

theorem lookup_map (hkey : ∀ e, key' (image e) = key e) :
    lookup key' (l.map image) k = (lookup key l k).map image := by
  rw [lookup, lookup, List.find?_map]
  congr 1
  refine List.find?_congr fun e _ => ?_
  rw [Function.comp_apply, hkey]

theorem map_erase (hkey : ∀ e, key' (image e) = key e) :
    (erase key k l).map image = erase key' k (l.map image) := by
  rw [erase, erase, List.filter_map]
  congr 1
  refine List.filter_congr fun e _ => ?_
  rw [Function.comp_apply, hkey]

/-- A change that the image does not show. -/
theorem map_alter_of_same (hf : ∀ e, image (f e) = image e) :
    (alter key k f l).map image = l.map image := by
  rw [alter, List.map_map]
  refine List.map_congr_left fun e _ => ?_
  rw [Function.comp_apply]
  split
  · exact hf e
  · rfl

/-- A change of the image. -/
theorem map_alter_image {g : β → β} (hkey : ∀ e, key' (image e) = key e)
    (hf : ∀ e, image (f e) = g (image e)) :
    (alter key k f l).map image = alter key' k g (l.map image) := by
  rw [alter, alter, List.map_map, List.map_map]
  refine List.map_congr_left fun e _ => ?_
  rw [Function.comp_apply, Function.comp_apply, hkey]
  split
  · exact hf e
  · rfl

end Image

theorem nodup_erase (hunique : (l.map key).Nodup) : ((erase key k l).map key).Nodup :=
  hunique.sublist (List.filter_sublist.map _)

omit [DecidableEq κ] in
theorem nodup_append_singleton (hunique : (l.map key).Nodup) (hfresh : key e ∉ l.map key) :
    ((l ++ [e]).map key).Nodup := by
  rw [List.map_append, List.map_singleton]
  exact List.concat_eq_append ▸ hunique.concat hfresh

/-- A sum over the values, after the one with the given key was changed. -/
theorem sum_alter {g : α → ℤ} (hunique : (l.map key).Nodup) :
    ((alter key k f l).map g).sum = (l.map g).sum + ((lookup key l k).map fun e => g (f e) - g e).getD 0 := by
  induction l with
  | nil => simp [alter, lookup]
  | cons y l ih =>
    have htail := ih (List.nodup_cons.mp hunique).2
    by_cases hyk : key y = k
    · have hrest : lookup key l k = none := lookup_eq_none.mpr (hyk ▸ (List.nodup_cons.mp hunique).1)
      have hfirst : lookup key (y :: l) k = some y := by simp [lookup, hyk]
      rw [hrest, Option.map_none, Option.getD_none] at htail
      rw [hfirst]
      simp only [alter, List.map_cons, List.sum_cons, if_pos hyk, Option.map_some, Option.getD_some] at htail ⊢
      rw [htail]
      ring
    · have hfirst : lookup key (y :: l) k = lookup key l k := by simp [lookup, hyk]
      rw [hfirst]
      simp only [alter, List.map_cons, List.sum_cons, if_neg hyk] at htail ⊢
      rw [htail]
      ring

/-- A sum over the values, after the one with the given key was taken out. -/
theorem sum_erase {g : α → ℤ} (hunique : (l.map key).Nodup) :
    ((erase key k l).map g).sum = (l.map g).sum - ((lookup key l k).map g).getD 0 := by
  induction l with
  | nil => simp [erase, lookup]
  | cons y l ih =>
    have htail := ih (List.nodup_cons.mp hunique).2
    by_cases hyk : key y = k
    · have hrest : lookup key l k = none := lookup_eq_none.mpr (hyk ▸ (List.nodup_cons.mp hunique).1)
      have hfirst : lookup key (y :: l) k = some y := by simp [lookup, hyk]
      have hout : erase key k (y :: l) = erase key k l := by simp [erase, hyk]
      rw [hrest, Option.map_none, Option.getD_none] at htail
      rw [hfirst, hout, htail]
      simp
    · have hfirst : lookup key (y :: l) k = lookup key l k := by simp [lookup, hyk]
      have hout : erase key k (y :: l) = y :: erase key k l := by simp [erase, hyk]
      rw [hfirst, hout, List.map_cons, List.sum_cons, htail, List.map_cons, List.sum_cons]
      ring

/-- Counting as a sum. -/
theorem length_filter_eq_sum (p : α → Bool) (l : List α) :
    ((l.filter p).length : ℤ) = (l.map fun e => if p e then 1 else 0).sum := by
  induction l with
  | nil => rfl
  | cons y l ih =>
    rw [List.map_cons, List.sum_cons, ← ih, List.filter_cons]
    split
    · rw [List.length_cons]
      push_cast
      ring
    · ring

/-- How many values have a property, after the one with the given key was changed. -/
theorem length_filter_alter {p : α → Bool} (hunique : (l.map key).Nodup) (hfound : lookup key l k = some e) :
    (((alter key k f l).filter p).length : ℤ) =
      (l.filter p).length + ((if p (f e) then 1 else 0) - if p e then 1 else 0) := by
  rw [length_filter_eq_sum, length_filter_eq_sum, sum_alter hunique, hfound]
  rfl

/-- How many values have a property, after the one with the given key was taken out. -/
theorem length_filter_erase {p : α → Bool} (hunique : (l.map key).Nodup) (hfound : lookup key l k = some e) :
    (((erase key k l).filter p).length : ℤ) = (l.filter p).length - if p e then 1 else 0 := by
  rw [length_filter_eq_sum, length_filter_eq_sum, sum_erase hunique, hfound]
  rfl

theorem length_alter : (alter key k f l).length = l.length := List.length_map _

theorem length_erase (hunique : (l.map key).Nodup) (hfound : lookup key l k = some e) :
    ((erase key k l).length : ℤ) = l.length - 1 := by
  have hall := length_filter_erase (p := fun _ => true) hunique hfound
  simpa using hall

end Keyed
