import Flexus.FastCache.StdCache
import Flexus.Lib.Runs

/-!
# Replacement in the standard array

A component looks the block of a request up and keeps the result while the request goes on.
Snoops come in between and look up and change blocks of their own.
-/

namespace nFastCache

open CoherenceState_t

/-- The calls of a component, in the order in which they reach the array. -/
inductive Call where
  | lookup (tagset : Nat)
  | snoop (tagset : Nat) (change : Option (CoherenceState_t × Bool))
  | updateLRU
  | changeState (new_state : CoherenceState_t) (make_MRU make_LRU : Bool)
  | evict
  | allocate (new_state : CoherenceState_t)
  deriving DecidableEq, Repr

/-- A call that no component makes. -/
inductive CallFault where
  | noLookup
  | invalidBlock
  | allocating
  | invalidState
  deriving DecidableEq, Repr

/-- The array, the lookup that the current request holds, and whether its allocation is on
    the way. -/
structure Component (g : Geometry) where
  theCache : StdCache g
  lookup : Option StdLookupResult
  theAllocateInProgress : Bool

namespace Component

variable {g : Geometry}

def start (g : Geometry) : Component g := ⟨.empty g, none, false⟩

/-- A snoop looks its block up, changes it when it is valid and the protocol says so, and
    looks it up again. -/
def snoop (c : StdCache g) (tagset : Nat) (change : Option (CoherenceState_t × Bool)) : StdCache g :=
  let found := c.lookup tagset
  let changed := match change with
    | none => found.1
    | some (new_state, make_LRU) =>
      if found.1.getState found.2 = kInvalid then found.1
      else found.1.changeState found.2 new_state false make_LRU
  (changed.lookup tagset).1

/-- What an allocation of the current request evicts. -/
def evicted (c : Component g) : List (Nat × CoherenceState_t) :=
  match c.lookup with
  | none => []
  | some l => (c.theCache.allocate l kInvalid).1

def step (c : Component g) : Call → Except CallFault (Component g)
  | .lookup tagset =>
    if c.theAllocateInProgress then .error .allocating
    else .ok { c with
      theCache := (c.theCache.lookup tagset).1
      lookup := some (c.theCache.lookup tagset).2 }
  | .snoop tagset change => .ok { c with theCache := snoop c.theCache tagset change }
  | .updateLRU =>
    match c.lookup with
    | none => .error .noLookup
    | some l =>
      if c.theAllocateInProgress then .error .allocating
      else if c.theCache.getState l = kInvalid then .error .invalidBlock
      else .ok { c with theCache := c.theCache.updateLRU l, lookup := none }
  | .changeState new_state make_MRU make_LRU =>
    match c.lookup with
    | none => .error .noLookup
    | some l =>
      if c.theAllocateInProgress then .error .allocating
      -- A block that a snoop has invalidated meanwhile is only changed as a recent one.
      else if l.theState = kInvalid ∨ c.theCache.getState l = kInvalid ∧ make_MRU = false then
        .error .invalidBlock
      else .ok { c with
        theCache := c.theCache.changeState l new_state make_MRU make_LRU
        lookup := none }
  | .evict =>
    if c.lookup = none then .error .noLookup
    else if c.theAllocateInProgress then .error .allocating
    else .ok { c with theAllocateInProgress := true }
  | .allocate new_state =>
    match c.lookup with
    | none => .error .noLookup
    | some l =>
      if c.theAllocateInProgress = false then .error .allocating
      else if new_state = kInvalid then .error .invalidState
      else .ok ⟨(c.theCache.allocate l new_state).2, none, false⟩

end Component

/-! ## One set -/

namespace block_set_t

variable {l l' : block_set_t} {e : BlockEntry} {assoc tag w : Nat} {s : CoherenceState_t}
  {mru lru : Bool}

/-- The invalid blocks are the least recently used ones. -/
def InvalidOldest (l : block_set_t) : Prop :=
  l.Pairwise fun x y => y.state = kInvalid → x.state = kInvalid

/-- The ways are those of the first blocks of the set. -/
def Dense (l : block_set_t) : Prop := ∀ x ∈ l, x.way < l.length

/-- No lookup puts a block in the set. -/
def Stuck (assoc : Nat) (l : block_set_t) : Prop :=
  assoc ≤ l.length ∨ ∃ x ∈ l, x.way = l.length % 65536

/-- A change of the state of a block keeps the invalid blocks first: as the most recently
    used one the block is valid or alone, as the least recently used one it is invalid or no
    other one is, and in its place it is valid or none before it is. -/
def Orderly (l : block_set_t) (w : Nat) (s : CoherenceState_t) (make_MRU make_LRU : Bool) : Prop :=
  if make_MRU then s ≠ kInvalid ∨ ∀ x ∈ l, x.way ≠ w → x.state = kInvalid
  else if make_LRU then s = kInvalid ∨ ∀ x ∈ l, x.way ≠ w → x.state ≠ kInvalid
  else s ≠ kInvalid ∨ ∀ x ∈ l.takeWhile (fun x => x.way != w), x.state = kInvalid

instance : Decidable (Orderly l w s mru lru) := by
  unfold Orderly
  infer_instance

theorem filter_way (h : WellFormed assoc l) (he : e ∈ l) :
    (l.filter fun x => x.way == e.way) = [e] := by
  have hsame : (l.filter fun x => x.way == e.way) = l.filter fun x => x == e := by
    refine List.filter_congr fun x hx => ?_
    rw [Bool.eq_iff_iff, beq_iff_eq, beq_iff_eq]
    exact ⟨h.way_inj hx he, fun heq => heq ▸ rfl⟩
  rw [hsame, List.filter_beq, List.count_eq_one_of_mem h.tags.of_map he]
  rfl

/-- The set after a change of one block, which is put in front, behind, or left in place. -/
theorem filter_modify (h : WellFormed assoc l) (he : e ∈ l) {f : BlockEntry → BlockEntry}
    (hfresh : ∀ x ∈ l, x.way ≠ e.way → x.tag ≠ (f e).tag) :
    ((modify e.way f l).filter fun x => x.way != e.way) = (l.filter fun x => x.way != e.way) ∧
      ((modify e.way f l).filter fun x => x.way == e.way) = [{ f e with way := e.way }] := by
  have hsingle := filter_way h he
  rw [modify_eq_map h he hfresh]
  constructor
  · rw [List.filter_map]
    have hcomp : (l.filter ((fun x : BlockEntry => x.way != e.way) ∘ fun x =>
        if x.way = e.way then { f x with way := e.way } else x)) = l.filter fun x => x.way != e.way := by
      refine List.filter_congr fun x _ => ?_
      by_cases hx : x.way = e.way <;> simp [hx]
    rw [hcomp]
    conv_rhs => rw [← List.map_id (l.filter fun x => x.way != e.way)]
    refine List.map_congr_left fun x hx => ?_
    have hne : x.way ≠ e.way := by simpa using (List.mem_filter.mp hx).2
    simp [hne]
  · rw [List.filter_map]
    have hcomp : (l.filter ((fun x : BlockEntry => x.way == e.way) ∘ fun x =>
        if x.way = e.way then { f x with way := e.way } else x)) = l.filter fun x => x.way == e.way := by
      refine List.filter_congr fun x _ => ?_
      by_cases hx : x.way = e.way <;> simp [hx]
    rw [hcomp, hsingle]
    simp

theorem allocate_eq (h : WellFormed assoc l) (he : e ∈ l)
    (hfresh : e.tag = tag ∨ ∀ x ∈ l, x.tag ≠ tag) :
    (allocate tag s e.way l).2 = (l.filter fun x => x.way != e.way) ++ [⟨tag, s, e.way⟩] := by
  unfold allocate
  rw [find?_way h he]
  by_cases htag : e.tag = tag
  · obtain ⟨hothers, hblock⟩ := filter_modify (f := fun x => { x with state := s }) h he
      (fresh_of_state h he)
    simp only [htag, if_true, relocateToTail]
    rw [hothers, hblock, ← htag]
  · obtain ⟨hothers, hblock⟩ := filter_modify (f := fun x => { x with tag := tag, state := s }) h he
      fun x hx _ => (hfresh.resolve_left htag) x hx
    simp only [htag, if_false, relocateToTail]
    rw [hothers, hblock]

/-- A block that is given up is valid and of another tag. -/
theorem mem_evicted (h : WellFormed assoc l) (he : e ∈ l) {v : Nat × CoherenceState_t}
    (hv : v ∈ (allocate tag s e.way l).1) :
    v = (e.tag, e.state) ∧ e.tag ≠ tag ∧ e.state ≠ kInvalid := by
  unfold allocate at hv
  rw [find?_way h he] at hv
  by_cases htag : e.tag = tag
  · simp [htag] at hv
  · by_cases hvalid : isValid e.state = true
    · simp only [htag, if_false, hvalid, if_true, List.mem_singleton] at hv
      exact ⟨hv, htag, by simpa [isValid] using hvalid⟩
    · simp [htag, hvalid] at hv

/-! ## The order of a set -/

theorem InvalidOldest.sublist (h : InvalidOldest l) (hsub : l'.Sublist l) : InvalidOldest l' :=
  List.Pairwise.sublist hsub h

theorem InvalidOldest.tail {b : BlockEntry} (h : InvalidOldest l)
    (hb : b.state = kInvalid → ∀ x ∈ l, x.state = kInvalid) : InvalidOldest (l ++ [b]) := by
  refine List.pairwise_append.mpr ⟨h, List.pairwise_singleton _ _, ?_⟩
  intro x hx y hy hinvalid
  rw [List.mem_singleton.mp hy] at hinvalid
  exact hb hinvalid x hx

theorem InvalidOldest.head {b : BlockEntry} (h : InvalidOldest l)
    (hb : (∃ x ∈ l, x.state = kInvalid) → b.state = kInvalid) : InvalidOldest (b :: l) :=
  List.pairwise_cons.mpr ⟨fun x hx hinvalid => hb ⟨x, hx, hinvalid⟩, h⟩

/-- A valid block at the front is in a set of valid blocks. -/
theorem InvalidOldest.all_valid (h : InvalidOldest l) (hhead : l.head? = some e)
    (hvalid : e.state ≠ kInvalid) : ∀ x ∈ l, x.state ≠ kInvalid := by
  cases l with
  | nil => cases hhead
  | cons y rest =>
    cases hhead
    intro x hx hinvalid
    rcases List.mem_cons.mp hx with rfl | hx
    · exact hvalid hinvalid
    · exact hvalid ((List.pairwise_cons.mp h).1 x hx hinvalid)

theorem InvalidOldest.lookup (h : InvalidOldest l) : InvalidOldest (lookup assoc tag l).1 := by
  unfold block_set_t.lookup
  split
  · exact h
  · split
    · rcases push_front_cases { tag := tag, state := kInvalid, way := l.length % 65536 } l with
        ⟨heq, -⟩ | ⟨x, -, heq⟩
      · rw [heq]
        exact h.head fun _ => rfl
      · rw [heq]
        exact h
    · cases l <;> exact h

theorem InvalidOldest.touch (h : InvalidOldest l) (hwell : WellFormed assoc l) (he : e ∈ l)
    (hvalid : e.state ≠ kInvalid) : InvalidOldest (relocateToTail e.way l) := by
  rw [relocateToTail, filter_way hwell he]
  exact (h.sublist List.filter_sublist).tail fun hinvalid => absurd hinvalid hvalid

/-- A block of a set, with what is less and what is more recently used. -/
theorem exists_split (h : WellFormed assoc l) (he : e ∈ l) : ∃ l₁ l₂, l = l₁ ++ e :: l₂ ∧
    (∀ x ∈ l₁, x.way ≠ e.way) ∧ ∀ x ∈ l₂, x.way ≠ e.way := by
  obtain ⟨l₁, l₂, rfl⟩ := List.append_of_mem he
  have hways := h.ways
  rw [List.map_append, List.map_cons, List.nodup_append] at hways
  obtain ⟨-, hback, hcross⟩ := hways
  refine ⟨l₁, l₂, rfl, ?_, ?_⟩
  · intro x hx
    exact hcross _ (List.mem_map_of_mem hx) _ List.mem_cons_self
  · intro x hx hway
    exact (List.nodup_cons.mp hback).1 (hway ▸ List.mem_map_of_mem hx)

theorem modify_split (h : WellFormed assoc l) (he : e ∈ l) {l₁ l₂ : block_set_t}
    (hsplit : l = l₁ ++ e :: l₂) (h₁ : ∀ x ∈ l₁, x.way ≠ e.way) (h₂ : ∀ x ∈ l₂, x.way ≠ e.way) :
    modify e.way (fun x => { x with state := s }) l = l₁ ++ { e with state := s } :: l₂ := by
  have hsame : ∀ {m : block_set_t}, (∀ x ∈ m, x.way ≠ e.way) →
      (m.map fun x => if x.way = e.way then { x with state := s, way := e.way } else x) = m := by
    intro m hm
    conv_rhs => rw [← List.map_id m]
    refine List.map_congr_left fun x hx => ?_
    simp [hm x hx]
  rw [modify_eq_map h he (fresh_of_state h he)]
  conv_lhs => rw [hsplit]
  rw [List.map_append, List.map_cons, hsame h₁, hsame h₂, if_pos rfl]

theorem InvalidOldest.updateState (h : InvalidOldest l) (hwell : WellFormed assoc l) (he : e ∈ l)
    (hvalid : e.state ≠ kInvalid ∨ mru = true) (horder : Orderly l e.way s mru lru) :
    InvalidOldest (updateState s mru lru e.way l) := by
  obtain ⟨hothers, hblock⟩ := filter_modify (f := fun x => { x with state := s }) hwell he
    (fresh_of_state hwell he)
  have hkept : InvalidOldest (l.filter fun x => x.way != e.way) := h.sublist List.filter_sublist
  have hother : ∀ {x : BlockEntry}, x ∈ (l.filter fun x => x.way != e.way) → x ∈ l ∧ x.way ≠ e.way := by
    intro x hx
    simpa using List.mem_filter.mp hx
  unfold block_set_t.updateState
  cases mru with
  | true =>
    simp only [if_true, relocateToTail]
    rw [hothers, hblock]
    refine hkept.tail fun hinvalid x hx => ?_
    obtain ⟨hx, hway⟩ := hother hx
    exact (horder.resolve_left (not_not.mpr hinvalid)) x hx hway
  | false =>
    have hstate := hvalid.resolve_right (by decide)
    cases lru with
    | true =>
      simp only [Bool.false_eq_true, if_false, if_true, relocateToHead]
      rw [hothers, hblock]
      refine hkept.head ?_
      rintro ⟨x, hx, hinvalid⟩
      obtain ⟨hx, hway⟩ := hother hx
      exact horder.resolve_right fun hall => hall x hx hway hinvalid
    | false =>
      obtain ⟨l₁, l₂, hsplit, h₁, h₂⟩ := exists_split hwell he
      simp only [Bool.false_eq_true, if_false]
      rw [modify_split hwell he hsplit h₁ h₂]
      have hbefore : (l.takeWhile fun x => x.way != e.way) = l₁ := by
        rw [hsplit, List.takeWhile_append_of_pos (by simpa using h₁), List.takeWhile_cons_of_neg (by simp),
          List.append_nil]
      rw [hsplit] at h
      obtain ⟨hfront, hback, hcross⟩ := List.pairwise_append.mp h
      obtain ⟨hbehind, hrest⟩ := List.pairwise_cons.mp hback
      have horder : s ≠ kInvalid ∨ ∀ x ∈ l.takeWhile (fun x => x.way != e.way), x.state = kInvalid := horder
      rw [hbefore] at horder
      refine List.pairwise_append.mpr ⟨hfront, ?_, ?_⟩
      · refine List.pairwise_cons.mpr ⟨fun y hy hinvalid => ?_, hrest⟩
        exact absurd (hbehind y hy hinvalid) hstate
      · intro x hx y hy hinvalid
        rcases List.mem_cons.mp hy with rfl | hy
        · exact (horder.resolve_left (not_not.mpr hinvalid)) x hx
        · exact hcross x hx y (List.mem_cons_of_mem _ hy) hinvalid

/-! ## What a request holds -/

/-- The way holds the block of the tag, or the block was not found and no lookup finds one. -/
def Holds (assoc tag : Nat) (s : CoherenceState_t) (w : Nat) (l : block_set_t) : Prop :=
  ∃ e ∈ l, e.way = w ∧ (e.tag = tag ∨ (∀ x ∈ l, x.tag ≠ tag) ∧ s = kInvalid ∧ Stuck assoc l)

/-- A block of another tag in the way is the least recently used one. -/
def HoldsFirst (tag w : Nat) (l : block_set_t) : Prop :=
  ∀ e ∈ l, e.way = w → e.tag ≠ tag → l.head? = some e

theorem lookup_of_stuck (h : Stuck assoc l) : (lookup assoc tag l).1 = l := by
  unfold lookup
  split
  · rfl
  · next hfind =>
    split
    · next hlength =>
      obtain ⟨x, hx, hway⟩ := h.resolve_left (Nat.not_le.mpr hlength)
      rcases push_front_cases { tag := tag, state := kInvalid, way := l.length % 65536 } l with
        ⟨-, hfresh⟩ | ⟨y, -, heq⟩
      · exact absurd hway (hfresh x hx)
      · rw [heq]
    · cases l <;> rfl

theorem lookup_of_mem (he : ∃ e ∈ l, e.tag = tag) : (lookup assoc tag l).1 = l := by
  unfold lookup
  cases hfind : l.find? fun x => x.tag == tag with
  | some e => rfl
  | none =>
    obtain ⟨e, he, htag⟩ := he
    have hno := List.find?_eq_none.mp hfind e he
    simp [htag] at hno

/-- The block of a tag that is in the set is found. -/
theorem lookup_found (h : WellFormed assoc l) (he : e ∈ l) :
    lookup assoc e.tag l = (l, e.state, e.way) := by
  unfold lookup
  cases hfind : l.find? fun x => x.tag == e.tag with
  | none =>
    have hno := List.find?_eq_none.mp hfind e he
    simp at hno
  | some x =>
    have htag : x.tag = e.tag := by simpa using List.find?_some hfind
    rw [h.tag_inj (List.mem_of_find?_eq_some hfind) he htag]

/-- What a lookup finds: the block of the tag, or nothing and the set takes no more blocks. -/
theorem holds_lookup (hassoc : 0 < assoc) :
    Holds assoc tag (lookup assoc tag l).2.1 (lookup assoc tag l).2.2 (lookup assoc tag l).1 := by
  unfold lookup
  split
  · next e hfind =>
    exact ⟨e, List.mem_of_find?_eq_some hfind, rfl, .inl (by simpa using List.find?_some hfind)⟩
  · next hfind =>
    have hnone : ∀ x ∈ l, x.tag ≠ tag := fun x hx => by simpa using List.find?_eq_none.mp hfind x hx
    split
    · unfold push_front
      split
      · next x hclash =>
        have hx := List.mem_of_find?_eq_some hclash
        have hsome := List.find?_some hclash
        simp only [Bool.or_eq_true, beq_iff_eq] at hsome
        exact ⟨x, hx, rfl, .inr ⟨hnone, rfl, .inr ⟨x, hx, hsome.resolve_left (hnone x hx)⟩⟩⟩
      · exact ⟨_, List.mem_cons_self, rfl, .inl rfl⟩
    · next hlength =>
      cases l with
      | nil => simp at hlength; omega
      | cons e l => exact ⟨e, List.mem_cons_self, rfl, .inr ⟨hnone, rfl, .inl (Nat.not_lt.mp hlength)⟩⟩

/-- With room for every way, the block that stands for one that is not found is the least
    recently used one. -/
theorem holdsFirst_lookup (h : WellFormed assoc l) (hdense : Dense l) (hassoc : assoc ≤ 65536) :
    HoldsFirst tag (lookup assoc tag l).2.2 (lookup assoc tag l).1 := by
  unfold lookup
  split
  · next e hfind =>
    intro x hx hway htag
    have hfound : e.tag = tag := by simpa using List.find?_some hfind
    rw [h.way_inj hx (List.mem_of_find?_eq_some hfind) hway] at htag
    exact absurd hfound htag
  · next hfind =>
    split
    · next hlength =>
      have hmod : l.length % 65536 = l.length := Nat.mod_eq_of_lt (by omega)
      unfold push_front
      split
      · next y hclash =>
        have hsome := List.find?_some hclash
        have hy := List.mem_of_find?_eq_some hclash
        have hlt := hdense y hy
        have htag : y.tag ≠ tag := by simpa using List.find?_eq_none.mp hfind y hy
        simp only [Bool.or_eq_true, beq_iff_eq, htag, false_or] at hsome
        omega
      · intro x hx hway htag
        rcases List.mem_cons.mp hx with rfl | hx
        · exact absurd rfl htag
        · have hlt := hdense x hx
          simp only at hway
          omega
    · cases l with
      | nil => exact fun x hx => absurd hx List.not_mem_nil
      | cons e rest =>
        intro x hx hway _
        rw [h.way_inj hx List.mem_cons_self hway]
        rfl

theorem Dense.lookup (h : Dense l) (hassoc : assoc ≤ 65536) : Dense (lookup assoc tag l).1 := by
  unfold block_set_t.lookup
  split
  · exact h
  · split
    · next hlength =>
      rcases push_front_cases { tag := tag, state := kInvalid, way := l.length % 65536 } l with
        ⟨heq, -⟩ | ⟨y, -, heq⟩
      · rw [heq]
        have hmod : l.length % 65536 = l.length := Nat.mod_eq_of_lt (by omega)
        intro x hx
        rcases List.mem_cons.mp hx with rfl | hx
        · simp [hmod]
        · have hlt := h x hx
          simp only [List.length_cons]
          omega
      · rw [heq]
        exact h
    · cases l <;> exact h

/-! ## What stays of a set -/

theorem Dense.of_ways (h : Dense l) (hways : (l'.map BlockEntry.way).Perm (l.map BlockEntry.way)) :
    Dense l' := by
  intro x hx
  obtain ⟨y, hy, hway⟩ := List.mem_map.mp (hways.mem_iff.mp (List.mem_map_of_mem hx))
  have hlength := hways.length_eq
  simp only [List.length_map] at hlength
  rw [← hway, hlength]
  exact h y hy

/-- The tag and the way of a block. -/
def ident (x : BlockEntry) : Nat × Nat := (x.tag, x.way)

theorem ways_of_ident (h : (l'.map ident).Perm (l.map ident)) :
    (l'.map BlockEntry.way).Perm (l.map BlockEntry.way) := by
  have hways := h.map Prod.snd
  rw [List.map_map, List.map_map] at hways
  exact hways

theorem Stuck.of_ways (h : Stuck assoc l) (hways : (l'.map BlockEntry.way).Perm (l.map BlockEntry.way)) :
    Stuck assoc l' := by
  have hlength := hways.length_eq
  simp only [List.length_map] at hlength
  unfold Stuck
  rw [hlength]
  refine h.imp_right ?_
  rintro ⟨x, hx, hway⟩
  obtain ⟨y, hy, hsame⟩ := List.mem_map.mp (hways.mem_iff.mpr (List.mem_map_of_mem hx))
  exact ⟨y, hy, hsame.trans hway⟩

theorem Holds.of_ident (h : Holds assoc tag s w l) (hident : (l'.map ident).Perm (l.map ident)) :
    Holds assoc tag s w l' := by
  obtain ⟨e, he, hway, hfound⟩ := h
  obtain ⟨e', he', hsame⟩ := List.mem_map.mp (hident.mem_iff.mpr (List.mem_map_of_mem he))
  refine ⟨e', he', (congrArg Prod.snd hsame).trans hway, ?_⟩
  refine hfound.imp (fun htag => (congrArg Prod.fst hsame).trans htag) ?_
  rintro ⟨hnone, hstate, hstuck⟩
  refine ⟨fun x hx htag => ?_, hstate, hstuck.of_ways (ways_of_ident hident)⟩
  obtain ⟨y, hy, hyx⟩ := List.mem_map.mp (hident.mem_iff.mp (List.mem_map_of_mem hx))
  exact hnone y hy ((congrArg Prod.fst hyx).trans htag)

/-- A lookup may add a block, but not one of a tag that the set cannot take. -/
theorem Holds.lookup {t : Nat} (h : Holds assoc tag s w l) :
    Holds assoc tag s w (lookup assoc t l).1 := by
  obtain ⟨e, he, hway, htag | ⟨hnone, hstate, hstuck⟩⟩ := h
  · exact ⟨e, subset_lookup he, hway, .inl htag⟩
  · rw [lookup_of_stuck hstuck]
    exact ⟨e, he, hway, .inr ⟨hnone, hstate, hstuck⟩⟩

theorem HoldsFirst.lookup {t : Nat} (h : HoldsFirst tag w l) (hholds : Holds assoc tag s w l)
    (hwell : WellFormed assoc l) : HoldsFirst tag w (lookup assoc t l).1 := by
  obtain ⟨e, he, hway, htag | ⟨-, -, hstuck⟩⟩ := hholds
  · intro x hx hxw hne
    have hafter : WellFormed assoc (block_set_t.lookup assoc t l).1 := lookup_wellFormed hwell
    have hsame := hafter.way_inj hx (subset_lookup he) (hxw.trans hway.symm)
    exact absurd (hsame ▸ htag) hne
  · rw [lookup_of_stuck hstuck]
    exact h

theorem updateState_ident (h : WellFormed assoc l) (he : e ∈ l) :
    ((updateState s mru lru e.way l).map ident).Perm (l.map ident) := by
  have hmodify : (modify e.way (fun x => { x with state := s }) l).map ident = l.map ident := by
    rw [modify_eq_map h he (fresh_of_state h he), List.map_map]
    refine List.map_congr_left fun x _ => ?_
    by_cases hx : x.way = e.way <;> simp [ident, hx]
  rw [← hmodify]
  exact (updateState_perm s mru lru e.way l).map _

/-- A snoop leaves the block that stands for a missing one where it is, unless it makes
    another block the least recently used one. -/
theorem HoldsFirst.updateState (h : HoldsFirst tag w l) (hwell : WellFormed assoc l) (he : e ∈ l)
    (hfirst : lru = true → e.way = w) : HoldsFirst tag w (updateState s false lru e.way l) := by
  unfold block_set_t.updateState
  cases lru with
  | true =>
    obtain ⟨hothers, hblock⟩ := filter_modify (f := fun x => { x with state := s }) hwell he
      (fresh_of_state hwell he)
    simp only [Bool.false_eq_true, if_false, if_true, relocateToHead]
    rw [hothers, hblock]
    intro x hx hway _
    rcases List.mem_append.mp hx with hx | hx
    · rw [List.mem_singleton.mp hx]
      rfl
    · have hne : x.way ≠ e.way := by simpa using (List.mem_filter.mp hx).2
      exact absurd (hway.trans (hfirst rfl).symm) hne
  | false =>
    obtain ⟨l₁, l₂, hsplit, h₁, h₂⟩ := exists_split hwell he
    simp only [Bool.false_eq_true, if_false]
    rw [modify_split hwell he hsplit h₁ h₂]
    intro x hx hway htag
    rw [hsplit] at h
    cases l₁ with
    | nil =>
      rcases List.mem_cons.mp hx with rfl | hx
      · rfl
      · have hhead := h x (List.mem_cons_of_mem _ hx) hway htag
        exact absurd (Option.some.inj hhead).symm fun heq => h₂ x hx (by rw [heq])
    | cons y rest =>
      rcases List.mem_append.mp hx with hx | hx
      · exact h x (List.mem_append_left _ hx) hway htag
      · rcases List.mem_cons.mp hx with rfl | hx
        · have hhead := h e (List.mem_append_right _ List.mem_cons_self) hway htag
          exact absurd (congrArg BlockEntry.way (Option.some.inj hhead)) (h₁ y List.mem_cons_self)
        · exact h x (List.mem_append_right _ (List.mem_cons_of_mem _ hx)) hway htag

end block_set_t

/-! ## The calls -/

namespace StdCache

variable {g : Geometry} {c : StdCache g} {addr i : Nat} {l : block_set_t}
  {hwell : l.WellFormed g.theAssoc}
  {hplaced : ∀ e ∈ l, e.tag = g.get_tag addr ∨ ∃ x ∈ c.theBlocks (g.get_set addr), e.tag = x.tag}

theorem theBlocks_setSet : (c.setSet addr l hwell hplaced).theBlocks i =
    if i = g.get_set addr then l else c.theBlocks i := by
  unfold setSet
  by_cases hi : i = g.get_set addr
  · rw [if_pos hi, hi]
    exact Function.update_self ..
  · rw [if_neg hi]
    exact Function.update_of_ne hi ..

theorem theBlocks_lookup (c : StdCache g) (t i : Nat) : (c.lookup t).1.theBlocks i =
    if i = g.get_set t then (block_set_t.lookup g.theAssoc (g.get_tag t) (c.theBlocks (g.get_set t))).1
    else c.theBlocks i := by
  rw [StdCache.lookup, theBlocks_setSet]

theorem theBlocks_changeState (l : StdLookupResult) (s : CoherenceState_t) (mru lru : Bool) :
    (c.changeState l s mru lru).theBlocks i = if i = g.get_set l.theAddress then
      block_set_t.updateState s mru lru l.theBlock (c.theBlocks (g.get_set l.theAddress))
    else c.theBlocks i := by
  rw [StdCache.changeState, theBlocks_setSet]

theorem theBlocks_updateLRU (l : StdLookupResult) : (c.updateLRU l).theBlocks i =
    if i = g.get_set l.theAddress then
      block_set_t.relocateToTail l.theBlock (c.theBlocks (g.get_set l.theAddress))
    else c.theBlocks i := by
  rw [StdCache.updateLRU, theBlocks_setSet]

theorem theBlocks_allocate (l : StdLookupResult) (s : CoherenceState_t) :
    (c.allocate l s).2.theBlocks i = if i = g.get_set l.theAddress then
      (block_set_t.allocate (g.get_tag l.theAddress) s l.theBlock
        (c.theBlocks (g.get_set l.theAddress))).2
    else c.theBlocks i := by
  rw [StdCache.allocate, theBlocks_setSet]

end StdCache

namespace Component

open block_set_t

variable {g : Geometry} {c : StdCache g} {k k' : Component g} {t i : Nat}

/-- What a snoop does to a set: its block is looked up, or the block was there and valid
    and the snoop changes it. -/
inductive Snooped (assoc tag : Nat) (change : Option (CoherenceState_t × Bool))
    (l : block_set_t) : block_set_t → Prop
  | looked : Snooped assoc tag change l (block_set_t.lookup assoc tag (block_set_t.lookup assoc tag l).1).1
  | changed {e : BlockEntry} {s : CoherenceState_t} {make_LRU : Bool} :
      e ∈ l → e.tag = tag → e.state ≠ kInvalid → change = some (s, make_LRU) →
      Snooped assoc tag change l (block_set_t.updateState s false make_LRU e.way l)

theorem snoop_other {change : Option (CoherenceState_t × Bool)} (hi : i ≠ g.get_set t) :
    (snoop c t change).theBlocks i = c.theBlocks i := by
  have hlookup : ∀ d : StdCache g, (d.lookup t).1.theBlocks i = d.theBlocks i := by
    intro d
    rw [StdCache.theBlocks_lookup, if_neg hi]
  have hset : i ≠ g.get_set (g.get_tag t) := by rwa [g.get_set_get_tag]
  unfold snoop
  rw [hlookup]
  cases change with
  | none => exact hlookup c
  | some p =>
    dsimp only
    split
    · exact hlookup c
    · rw [StdCache.theBlocks_changeState]
      exact (if_neg hset).trans (hlookup c)

theorem snoop_set (c : StdCache g) (t : Nat) (change : Option (CoherenceState_t × Bool)) :
    Snooped g.theAssoc (g.get_tag t) change (c.theBlocks (g.get_set t))
      ((snoop c t change).theBlocks (g.get_set t)) := by
  have hlookup : ∀ d : StdCache g, (d.lookup t).1.theBlocks (g.get_set t) =
      (block_set_t.lookup g.theAssoc (g.get_tag t) (d.theBlocks (g.get_set t))).1 := by
    intro d
    rw [StdCache.theBlocks_lookup, if_pos rfl]
  unfold snoop
  rw [hlookup]
  cases change with
  | none =>
    dsimp only
    rw [hlookup]
    exact .looked
  | some p =>
    obtain ⟨s, make_LRU⟩ := p
    dsimp only
    have hstate : (c.lookup t).1.getState (c.lookup t).2 = c.stateOf (g.get_tag t) := by
      rw [StdCache.getState_eq (StdCache.finds_lookup c t), StdCache.stateOf_lookup]
      rfl
    rw [hstate]
    by_cases hinvalid : c.stateOf (g.get_tag t) = kInvalid
    · rw [if_pos hinvalid, hlookup]
      exact .looked
    · rw [if_neg hinvalid]
      have hset := g.get_set_get_tag t
      rw [StdCache.stateOf, hset] at hinvalid
      obtain ⟨e, he, htag⟩ : ∃ e ∈ c.theBlocks (g.get_set t), e.tag = g.get_tag t := by
        by_contra hnone
        push Not at hnone
        exact hinvalid (stateOf_of_not_mem hnone)
      have hvalid : e.state ≠ kInvalid := by
        rwa [← htag, stateOf_of_mem (c.wellFormed _).tags he] at hinvalid
      have hfound := lookup_found (c.wellFormed (g.get_set t)) he
      rw [htag] at hfound
      have hway : (c.lookup t).2.theBlock = e.way := by
        change (block_set_t.lookup g.theAssoc (g.get_tag t) _).2.2 = e.way
        rw [hfound]
      have haddr : (c.lookup t).2.theAddress = g.get_tag t := rfl
      rw [StdCache.theBlocks_changeState, haddr, hset, if_pos rfl, hway, hlookup, hfound]
      dsimp only
      rw [lookup_of_mem]
      · exact .changed he htag hvalid rfl
      · have hident : ((block_set_t.updateState s false make_LRU e.way
            (c.theBlocks (g.get_set t))).map ident).Perm _ := updateState_ident (c.wellFormed _) he
        obtain ⟨y, hy, hsame⟩ := List.mem_map.mp (hident.mem_iff.mpr (List.mem_map_of_mem he))
        exact ⟨y, hy, (congrArg Prod.fst hsame).trans htag⟩

theorem Snooped.holds {assoc tag addr w : Nat} {s : CoherenceState_t}
    {change : Option (CoherenceState_t × Bool)} {l l' : block_set_t}
    (h : Snooped assoc tag change l l') (hwell : l.WellFormed assoc)
    (hholds : Holds assoc addr s w l) : Holds assoc addr s w l' := by
  cases h with
  | looked => exact hholds.lookup.lookup
  | changed he _ _ _ => exact hholds.of_ident (updateState_ident hwell he)

theorem Snooped.dense {assoc tag : Nat} {change : Option (CoherenceState_t × Bool)}
    {l l' : block_set_t} (h : Snooped assoc tag change l l') (hwell : l.WellFormed assoc)
    (hassoc : assoc ≤ 65536) (hdense : Dense l) : Dense l' := by
  cases h with
  | looked => exact (hdense.lookup hassoc).lookup hassoc
  | changed he _ _ _ => exact hdense.of_ways (ways_of_ident (updateState_ident hwell he))

/-- The set of a lookup. -/
abbrev setOf (c : StdCache g) (l : StdLookupResult) : block_set_t := c.theBlocks (g.get_set l.theAddress)

/-- The lookup of the current request is good, and the ways of a set are its first ones. -/
structure Sound (k : Component g) : Prop where
  aligned : ∀ l, k.lookup = some l → g.get_tag l.theAddress = l.theAddress
  holds : ∀ l, k.lookup = some l →
    Holds g.theAssoc l.theAddress l.theState l.theBlock (setOf k.theCache l)
  dense : g.theAssoc ≤ 65536 → ∀ i, Dense (k.theCache.theBlocks i)

theorem start_sound : Sound (start g) := by
  refine ⟨fun l hl => ?_, fun l hl => ?_, fun _ i x hx => ?_⟩
  · cases hl
  · cases hl
  · cases hx

theorem sound_of_idle (hidle : k.lookup = none)
    (hdense : g.theAssoc ≤ 65536 → ∀ i, Dense (k.theCache.theBlocks i)) : Sound k where
  aligned := by simp [hidle]
  holds := by simp [hidle]
  dense := hdense

/-- What an allocation leaves in the set of its lookup: the other blocks, and its own block
    as the most recently used one. -/
theorem allocate_set (hsound : Sound k) {l : StdLookupResult} (hl : k.lookup = some l)
    {s : CoherenceState_t} :
    (k.theCache.allocate l s).2.theBlocks i = if i = g.get_set l.theAddress then
      (setOf k.theCache l).filter (fun x : BlockEntry => x.way != l.theBlock) ++
        [BlockEntry.mk l.theAddress s l.theBlock]
      else k.theCache.theBlocks i := by
  obtain ⟨e, he, hway, hfound⟩ := hsound.holds l hl
  rw [StdCache.theBlocks_allocate, hsound.aligned l hl, ← hway,
    allocate_eq (k.theCache.wellFormed _) he (hfound.imp id And.left)]

theorem ways_allocated {assoc w tag : Nat} {s : CoherenceState_t} {l : block_set_t}
    (hwell : l.WellFormed assoc) (hw : ∃ e ∈ l, e.way = w) :
    ((l.filter (fun x : BlockEntry => x.way != w) ++ [BlockEntry.mk tag s w]).map BlockEntry.way).Perm
      (l.map BlockEntry.way) := by
  obtain ⟨e, he, rfl⟩ := hw
  have hperm := (relocateToTail_perm e.way l).map BlockEntry.way
  rw [relocateToTail, filter_way hwell he, List.map_append] at hperm
  rw [List.map_append]
  exact hperm

theorem step_sound (h : Sound k) {call : Call} (hok : step k call = .ok k') : Sound k' := by
  cases call with
  | lookup t =>
    simp only [step] at hok
    split at hok
    · cases hok
    · cases hok
      refine ⟨?_, ?_, fun hassoc i => ?_⟩
      · rintro l hl
        cases hl
        exact g.get_tag_get_tag t
      · rintro l hl
        cases hl
        have haddr : (k.theCache.lookup t).2.theAddress = g.get_tag t := rfl
        rw [setOf, haddr, g.get_set_get_tag, StdCache.theBlocks_lookup, if_pos rfl]
        exact holds_lookup g.assoc_pos
      · rw [StdCache.theBlocks_lookup]
        split
        · exact (h.dense hassoc _).lookup hassoc
        · exact h.dense hassoc i
  | snoop t change =>
    simp only [step, Except.ok.injEq] at hok
    subst hok
    have hsnoop := snoop_set k.theCache t change
    have hwell := k.theCache.wellFormed (g.get_set t)
    refine ⟨h.aligned, fun l hl => ?_, fun hassoc i => ?_⟩
    · by_cases hset : g.get_set l.theAddress = g.get_set t
      · rw [setOf, hset]
        exact hsnoop.holds hwell (hset ▸ h.holds l hl)
      · rw [setOf, snoop_other hset]
        exact h.holds l hl
    · by_cases hset : i = g.get_set t
      · rw [hset]
        exact hsnoop.dense hwell hassoc (h.dense hassoc _)
      · rw [snoop_other hset]
        exact h.dense hassoc i
  | updateLRU =>
    simp only [step] at hok
    split at hok
    · cases hok
    · next l hl =>
      split_ifs at hok
      cases hok
      refine sound_of_idle rfl fun hassoc i => ?_
      rw [StdCache.theBlocks_updateLRU]
      split
      · exact (h.dense hassoc _).of_ways ((relocateToTail_perm _ _).map _)
      · exact h.dense hassoc i
  | changeState s mru lru =>
    simp only [step] at hok
    split at hok
    · cases hok
    · next l hl =>
      split_ifs at hok
      cases hok
      obtain ⟨e, he, hway, -⟩ := h.holds l hl
      refine sound_of_idle rfl fun hassoc i => ?_
      rw [StdCache.theBlocks_changeState]
      split
      · rw [← hway]
        exact (h.dense hassoc _).of_ways (ways_of_ident (updateState_ident (k.theCache.wellFormed _) he))
      · exact h.dense hassoc i
  | evict =>
    simp only [step] at hok
    split_ifs at hok
    cases hok
    exact ⟨h.aligned, h.holds, h.dense⟩
  | allocate s =>
    simp only [step] at hok
    split at hok
    · cases hok
    · next l hl =>
      split_ifs at hok
      cases hok
      obtain ⟨e, he, hway, -⟩ := h.holds l hl
      refine sound_of_idle rfl fun hassoc i => ?_
      rw [allocate_set h hl]
      split
      · exact (h.dense hassoc (g.get_set l.theAddress)).of_ways
          (ways_allocated (k.theCache.wellFormed _) ⟨e, he, hway⟩)
      · exact h.dense hassoc i

end Component

end nFastCache
