import Mathlib.Tactic

/-!
# Tag arrays of the functional caches

A functional cache looks a block up before it serves a request and keeps the result of the
lookup until the block is allocated or changes its state.
-/

namespace nFastCache

inductive CoherenceState_t where
  | kMigratory | kModified | kOwned | kExclusive | kShared | kInvalid
  deriving DecidableEq, Repr

open CoherenceState_t

/-- All states but `kInvalid` have the valid bit. -/
def isValid (s : CoherenceState_t) : Bool := s != kInvalid

/-- The address of the block that an address lies in, for a block size that is a power
    of two. -/
def blockOf (size addr : Nat) : Nat := addr / size * size

theorem blockOf_blockOf (size addr : Nat) : blockOf size (blockOf size addr) = blockOf size addr := by
  unfold blockOf
  rcases Nat.eq_zero_or_pos size with rfl | hpos
  · simp
  · rw [Nat.mul_div_cancel _ hpos]

/-- An array of blocks and what its operations do to the states of the blocks. The
    result of a lookup stays good as long as nothing else happens to the array. The
    blocks that are evicted when a block is allocated are reported with their states
    before the array changes. -/
structure AbstractCache (size : Nat) where
  Cache : Type
  LookupResult : Type
  stateOf : Cache → Nat → CoherenceState_t
  Finds : Cache → LookupResult → Nat → Prop
  empty : Cache
  lookup : Cache → Nat → Cache × LookupResult
  getState : Cache → LookupResult → CoherenceState_t
  allocate : Cache → LookupResult → CoherenceState_t → List (Nat × CoherenceState_t) × Cache
  changeState : Cache → LookupResult → CoherenceState_t → Bool → Bool → Cache
  updateLRU : Cache → LookupResult → Cache
  stateOf_empty : ∀ b, stateOf empty b = kInvalid
  stateOf_lookup : ∀ c a b, stateOf (lookup c a).1 b = stateOf c b
  finds_lookup : ∀ c a, Finds (lookup c a).1 (lookup c a).2 (blockOf size a)
  getState_eq : ∀ c l b, Finds c l b → getState c l = stateOf c b
  stateOf_changeState : ∀ c l a s mru lru, Finds c l a → stateOf c a ≠ kInvalid →
    ∀ b, stateOf (changeState c l s mru lru) b = if b = a then s else stateOf c b
  stateOf_updateLRU : ∀ c l a, Finds c l a → ∀ b, stateOf (updateLRU c l) b = stateOf c b
  evicted_allocate : ∀ c l a s, Finds c l a →
    ((allocate c l s).1.map Prod.fst).Nodup ∧
      ∀ v ∈ (allocate c l s).1, v.1 ≠ a ∧ blockOf size v.1 = v.1 ∧ isValid v.2 = true ∧
        stateOf c v.1 = v.2
  stateOf_allocate : ∀ c l a s, Finds c l a → ∀ b, stateOf (allocate c l s).2 b =
    if b = a then s else if b ∈ (allocate c l s).1.map Prod.fst then kInvalid else stateOf c b

/-- A block and the way it is in. -/
structure BlockEntry where
  tag : Nat
  state : CoherenceState_t
  way : Nat
  deriving DecidableEq, Repr

/-- The sizes of a standard array. -/
structure Geometry where
  theNumSets : Nat
  theAssoc : Nat
  theBlockSize : Nat
  assoc_pos : 0 < theAssoc

def Geometry.get_set (g : Geometry) (addr : Nat) : Nat := addr / g.theBlockSize % g.theNumSets

def Geometry.get_tag (g : Geometry) (addr : Nat) : Nat := blockOf g.theBlockSize addr

/-! ## One set -/

/-- The blocks of a set from the least to the most recently used one. Two blocks of a
    set differ in their tags and in their ways. -/
abbrev block_set_t := List BlockEntry

namespace block_set_t

/-- Insert a block at the front. An insertion that would repeat a tag or a way leaves the
    set as it is and finds the block that is in its way. -/
def push_front (e : BlockEntry) (l : block_set_t) : block_set_t × Nat :=
  match l.find? fun x => x.tag == e.tag || x.way == e.way with
  | some x => (l, x.way)
  | none => (e :: l, e.way)

/-- Change the block in a way. A change that repeats the tag of another block erases the
    block. -/
def modify (w : Nat) (f : BlockEntry → BlockEntry) (l : block_set_t) : block_set_t :=
  match l.find? fun x => x.way == w with
  | none => l
  | some e =>
    if l.any fun x => x.way != w && x.tag == (f e).tag then l.filter fun x => x.way != w
    else l.map fun x => if x.way = w then { f x with way := w } else x

def relocateToTail (w : Nat) (l : block_set_t) : block_set_t :=
  l.filter (fun x => x.way != w) ++ l.filter fun x => x.way == w

def relocateToHead (w : Nat) (l : block_set_t) : block_set_t :=
  l.filter (fun x => x.way == w) ++ l.filter fun x => x.way != w

/-- The state of the block with a tag; a block that is not there is invalid. -/
def stateOf (l : block_set_t) (tag : Nat) : CoherenceState_t :=
  match l.find? fun x => x.tag == tag with
  | some e => e.state
  | none => kInvalid

/-- What holds of the blocks of a set: the tags and the ways are distinct, and the set has
    no more blocks than ways. -/
structure WellFormed (assoc : Nat) (l : block_set_t) : Prop where
  tags : (l.map BlockEntry.tag).Nodup
  ways : (l.map BlockEntry.way).Nodup
  length_le : l.length ≤ assoc

variable {l l' : block_set_t} {e : BlockEntry} {assoc tag w : Nat} {s : CoherenceState_t}
  {f : BlockEntry → BlockEntry}

theorem stateOf_of_mem (htags : (l.map BlockEntry.tag).Nodup) (h : e ∈ l) :
    stateOf l e.tag = e.state := by
  have hinj := List.inj_on_of_nodup_map htags
  unfold stateOf
  cases hfind : l.find? fun x => x.tag == e.tag with
  | none => simpa using List.find?_eq_none.mp hfind e h
  | some x =>
    have htag : x.tag = e.tag := by simpa using List.find?_some hfind
    rw [hinj (List.mem_of_find?_eq_some hfind) h htag]

theorem stateOf_of_not_mem (h : ∀ e ∈ l, e.tag ≠ tag) : stateOf l tag = kInvalid := by
  unfold stateOf
  rw [List.find?_eq_none.mpr fun x hx => by simpa using h x hx]

/-- Two sets with the same blocks of a tag agree on its state. -/
theorem stateOf_congr (htags : (l.map BlockEntry.tag).Nodup) (htags' : (l'.map BlockEntry.tag).Nodup)
    (h : ∀ e, e.tag = tag → (e ∈ l ↔ e ∈ l')) : stateOf l tag = stateOf l' tag := by
  by_cases hmem : ∃ e ∈ l, e.tag = tag
  · obtain ⟨e, he, rfl⟩ := hmem
    rw [stateOf_of_mem htags he, stateOf_of_mem htags' ((h e rfl).mp he)]
  · push Not at hmem
    rw [stateOf_of_not_mem hmem, stateOf_of_not_mem fun e he htag => hmem e ((h e htag).mpr he) htag]

namespace WellFormed

theorem perm (h : WellFormed assoc l) (hperm : l'.Perm l) : WellFormed assoc l' where
  tags := (hperm.map _).nodup_iff.mpr h.tags
  ways := (hperm.map _).nodup_iff.mpr h.ways
  length_le := hperm.length_eq ▸ h.length_le

theorem stateOf_perm (h : WellFormed assoc l) (hperm : l'.Perm l) : stateOf l' tag = stateOf l tag :=
  stateOf_congr (h.perm hperm).tags h.tags fun _ _ => hperm.mem_iff

theorem sublist (h : WellFormed assoc l) (hsub : l'.Sublist l) : WellFormed assoc l' where
  tags := h.tags.sublist (hsub.map _)
  ways := h.ways.sublist (hsub.map _)
  length_le := hsub.length_le.trans h.length_le

theorem way_inj (h : WellFormed assoc l) {x : BlockEntry} (hx : x ∈ l) (he : e ∈ l)
    (hway : x.way = e.way) : x = e :=
  List.inj_on_of_nodup_map h.ways hx he hway

theorem tag_inj (h : WellFormed assoc l) {x : BlockEntry} (hx : x ∈ l) (he : e ∈ l)
    (htag : x.tag = e.tag) : x = e :=
  List.inj_on_of_nodup_map h.tags hx he htag

end WellFormed

theorem relocateToTail_perm (w : Nat) (l : block_set_t) : (relocateToTail w l).Perm l :=
  List.perm_append_comm.trans (List.filter_append_perm (fun x : BlockEntry => x.way == w) l)

theorem relocateToHead_perm (w : Nat) (l : block_set_t) : (relocateToHead w l).Perm l :=
  List.filter_append_perm (fun x : BlockEntry => x.way == w) l

theorem push_front_cases (e : BlockEntry) (l : block_set_t) :
    (push_front e l = (e :: l, e.way) ∧ ∀ x ∈ l, x.way ≠ e.way) ∨
      ∃ x ∈ l, push_front e l = (l, x.way) := by
  unfold push_front
  cases hfind : l.find? fun x => x.tag == e.tag || x.way == e.way with
  | none =>
    refine .inl ⟨rfl, fun x hx hway => ?_⟩
    simpa [hway] using List.find?_eq_none.mp hfind x hx
  | some x => exact .inr ⟨x, List.mem_of_find?_eq_some hfind, rfl⟩

theorem WellFormed.cons (h : WellFormed assoc l) (htag : ∀ x ∈ l, x.tag ≠ e.tag)
    (hway : ∀ x ∈ l, x.way ≠ e.way) (hlength : l.length < assoc) : WellFormed assoc (e :: l) where
  tags := by simpa using ⟨fun x hx heq => htag x hx heq, h.tags⟩
  ways := by simpa using ⟨fun x hx heq => hway x hx heq, h.ways⟩
  length_le := hlength

theorem find?_way (h : WellFormed assoc l) (he : e ∈ l) :
    (l.find? fun x => x.way == e.way) = some e := by
  cases hfind : l.find? fun x => x.way == e.way with
  | none => simpa using List.find?_eq_none.mp hfind e he
  | some x =>
    have hway : x.way = e.way := by simpa using List.find?_some hfind
    rw [h.way_inj (List.mem_of_find?_eq_some hfind) he hway]

/-- A change of a block that repeats no tag replaces the block. -/
theorem modify_eq_map (h : WellFormed assoc l) (he : e ∈ l)
    (hfresh : ∀ x ∈ l, x.way ≠ e.way → x.tag ≠ (f e).tag) :
    modify e.way f l = l.map fun x => if x.way = e.way then { f x with way := e.way } else x := by
  have hany : (l.any fun x => x.way != e.way && x.tag == (f e).tag) = false := by
    simpa using hfresh
  unfold modify
  rw [find?_way h he]
  simp only [hany, Bool.false_eq_true, if_false]

theorem WellFormed.modify (h : WellFormed assoc l) : WellFormed assoc (modify w f l) := by
  unfold block_set_t.modify
  split
  · exact h
  · next e hfind =>
    have hmem := List.mem_of_find?_eq_some hfind
    have hway : e.way = w := by simpa using List.find?_some hfind
    split
    · exact h.sublist List.filter_sublist
    · next hany =>
      have hfresh : ∀ x ∈ l, x.way ≠ w → x.tag ≠ (f e).tag := by simpa using hany
      refine ⟨?_, ?_, by simpa using h.length_le⟩
      · rw [List.map_map, List.nodup_map_iff_inj_on h.tags.of_map]
        intro x hx y hy heq
        simp only [Function.comp_apply] at heq
        by_cases hxw : x.way = w <;> by_cases hyw : y.way = w
        · exact h.way_inj hx hy (hxw.trans hyw.symm)
        · rw [if_pos hxw, if_neg hyw, h.way_inj hx hmem (hxw.trans hway.symm)] at heq
          exact absurd heq.symm (hfresh y hy hyw)
        · rw [if_neg hxw, if_pos hyw, h.way_inj hy hmem (hyw.trans hway.symm)] at heq
          exact absurd heq (hfresh x hx hxw)
        · rw [if_neg hxw, if_neg hyw] at heq
          exact h.tag_inj hx hy heq
      · have hways : (l.map fun x => if x.way = w then { f x with way := w } else x).map
            BlockEntry.way = l.map BlockEntry.way := by
          rw [List.map_map]
          refine List.map_congr_left fun x _ => ?_
          simp only [Function.comp_apply]
          split
          · next hxw => exact hxw.symm
          · rfl
        rw [hways]
        exact h.ways

theorem mem_modify (h : WellFormed assoc l) (he : e ∈ l)
    (hfresh : ∀ x ∈ l, x.way ≠ e.way → x.tag ≠ (f e).tag) {y : BlockEntry} :
    y ∈ block_set_t.modify e.way f l ↔ y = { f e with way := e.way } ∨ (y ∈ l ∧ y ≠ e) := by
  rw [modify_eq_map h he hfresh, List.mem_map]
  constructor
  · rintro ⟨x, hx, rfl⟩
    split
    · next hway => exact .inl (by rw [h.way_inj hx he hway])
    · next hway => exact .inr ⟨hx, fun heq => hway (by rw [heq])⟩
  · rintro (rfl | ⟨hy, hne⟩)
    · exact ⟨e, he, by simp⟩
    · exact ⟨y, hy, if_neg fun hway => hne (h.way_inj hy he hway)⟩

/-- What a change of one block does to the states: the block's new tag has its new state,
    its old tag is gone. -/
theorem stateOf_modify (h : WellFormed assoc l) (he : e ∈ l)
    (hfresh : ∀ x ∈ l, x.way ≠ e.way → x.tag ≠ (f e).tag) :
    stateOf (block_set_t.modify e.way f l) tag =
      if tag = (f e).tag then (f e).state else if tag = e.tag then kInvalid else stateOf l tag := by
  have hwell := h.modify (w := e.way) (f := f)
  split
  · next htag =>
    subst htag
    exact stateOf_of_mem (e := { f e with way := e.way }) hwell.tags ((mem_modify h he hfresh).mpr (.inl rfl))
  · next hnew =>
    split
    · next hold =>
      apply stateOf_of_not_mem
      intro y hy htag
      rcases (mem_modify h he hfresh).mp hy with rfl | ⟨hmem, hne⟩
      · exact hnew htag.symm
      · exact hne (h.tag_inj hmem he (htag.trans hold))
    · next hold =>
      apply stateOf_congr hwell.tags h.tags
      intro y htag
      rw [mem_modify h he hfresh]
      constructor
      · rintro (rfl | ⟨hmem, -⟩)
        · exact absurd htag.symm hnew
        · exact hmem
      · intro hmem
        exact .inr ⟨hmem, fun heq => hold (by rw [← htag, heq])⟩

/-- Find the block with a tag. If it is not there and the set has room, it is put in the
    set as an invalid block; otherwise the least recently used block stands for it. -/
def lookup (assoc tag : Nat) (l : block_set_t) : block_set_t × CoherenceState_t × Nat :=
  match l.find? fun x => x.tag == tag with
  | some e => (l, e.state, e.way)
  | none =>
    if l.length < assoc then
      let inserted := push_front { tag := tag, state := kInvalid, way := l.length % 65536 } l
      (inserted.1, kInvalid, inserted.2)
    else
      match l with
      | [] => (l, kInvalid, 0)
      | e :: _ => (l, kInvalid, e.way)

/-- Give the block in a way to a tag, as the most recently used one. A valid block of
    another tag is evicted first. -/
def allocate (tag : Nat) (s : CoherenceState_t) (w : Nat) (l : block_set_t) :
    List (Nat × CoherenceState_t) × block_set_t :=
  match l.find? fun x => x.way == w with
  | none => ([], l)
  | some block =>
    if block.tag = tag then
      ([], relocateToTail w (modify w (fun x => { x with state := s }) l))
    else
      (if isValid block.state then [(block.tag, block.state)] else [],
        relocateToTail w (modify w (fun x => { x with tag := tag, state := s }) l))

def updateState (s : CoherenceState_t) (make_MRU make_LRU : Bool) (w : Nat) (l : block_set_t) :
    block_set_t :=
  let l := modify w (fun x => { x with state := s }) l
  if make_MRU then relocateToTail w l else if make_LRU then relocateToHead w l else l

/-- The way is that of the block with the tag, or no block has the tag. -/
def Finds (l : block_set_t) (tag : Nat) (s : CoherenceState_t) (w : Nat) : Prop :=
  ∃ e ∈ l, e.way = w ∧ (e.tag = tag ∨ (∀ x ∈ l, x.tag ≠ tag) ∧ s = kInvalid)

theorem lookup_wellFormed (h : WellFormed assoc l) : WellFormed assoc (lookup assoc tag l).1 := by
  unfold lookup
  split
  · exact h
  · next hfind =>
    split
    · next hlength =>
      rcases push_front_cases { tag := tag, state := kInvalid, way := l.length % 65536 } l with
        ⟨heq, hways⟩ | ⟨x, -, heq⟩
      · rw [heq]
        exact h.cons (fun x hx => by simpa using List.find?_eq_none.mp hfind x hx) hways hlength
      · rw [heq]
        exact h
    · cases l <;> exact h

theorem mem_lookup {x : BlockEntry} (hx : x ∈ (lookup assoc tag l).1) :
    x ∈ l ∨ x.tag = tag ∧ x.state = kInvalid := by
  unfold lookup at hx
  split at hx
  · exact .inl hx
  · split at hx
    · rcases push_front_cases { tag := tag, state := kInvalid, way := l.length % 65536 } l with
        ⟨heq, -⟩ | ⟨y, -, heq⟩
      · rw [heq] at hx
        rcases List.mem_cons.mp hx with rfl | hmem
        · exact .inr ⟨rfl, rfl⟩
        · exact .inl hmem
      · rw [heq] at hx
        exact .inl hx
    · cases l <;> exact .inl hx

theorem subset_lookup {x : BlockEntry} (hx : x ∈ l) : x ∈ (lookup assoc tag l).1 := by
  unfold lookup
  split
  · exact hx
  · split
    · rcases push_front_cases { tag := tag, state := kInvalid, way := l.length % 65536 } l with
        ⟨heq, -⟩ | ⟨y, -, heq⟩
      · rw [heq]
        exact List.mem_cons_of_mem _ hx
      · rw [heq]
        exact hx
    · cases l <;> exact hx

/-- A lookup does not change the state of any block. -/
theorem stateOf_lookup (h : WellFormed assoc l) {t : Nat} :
    stateOf (lookup assoc tag l).1 t = stateOf l t := by
  by_cases hmem : ∃ e ∈ l, e.tag = t
  · obtain ⟨e, he, rfl⟩ := hmem
    rw [stateOf_of_mem h.tags he, stateOf_of_mem (lookup_wellFormed h).tags (subset_lookup he)]
  · push Not at hmem
    rw [stateOf_of_not_mem hmem]
    by_cases hnew : ∃ e ∈ (lookup assoc tag l).1, e.tag = t
    · obtain ⟨e, he, rfl⟩ := hnew
      rw [stateOf_of_mem (lookup_wellFormed h).tags he]
      rcases mem_lookup he with hold | ⟨-, hstate⟩
      · exact absurd rfl (hmem e hold)
      · exact hstate
    · push Not at hnew
      exact stateOf_of_not_mem hnew

theorem finds_lookup (hassoc : 0 < assoc) :
    Finds (lookup assoc tag l).1 tag (lookup assoc tag l).2.1 (lookup assoc tag l).2.2 := by
  unfold lookup
  split
  · next e hfind =>
    exact ⟨e, List.mem_of_find?_eq_some hfind, rfl, .inl (by simpa using List.find?_some hfind)⟩
  · next hfind =>
    have hnone : ∀ x ∈ l, x.tag ≠ tag := fun x hx => by simpa using List.find?_eq_none.mp hfind x hx
    split
    · rcases push_front_cases { tag := tag, state := kInvalid, way := l.length % 65536 } l with
        ⟨heq, -⟩ | ⟨y, hy, heq⟩
      · rw [heq]
        exact ⟨_, List.mem_cons_self, rfl, .inl rfl⟩
      · rw [heq]
        exact ⟨y, hy, rfl, .inr ⟨hnone, rfl⟩⟩
    · next hlength =>
      cases l with
      | nil => simp at hlength; omega
      | cons e l => exact ⟨e, List.mem_cons_self, rfl, .inr ⟨hnone, rfl⟩⟩

theorem mem_modify_or {y : BlockEntry} (hy : y ∈ modify w f l) :
    y ∈ l ∨ ∃ x ∈ l, y = { f x with way := w } := by
  unfold modify at hy
  split at hy
  · exact .inl hy
  · split at hy
    · exact .inl (List.mem_of_mem_filter hy)
    · obtain ⟨x, hx, rfl⟩ := List.mem_map.mp hy
      split
      · exact .inr ⟨x, hx, rfl⟩
      · exact .inl hx

theorem allocate_wellFormed (h : WellFormed assoc l) : WellFormed assoc (allocate tag s w l).2 := by
  unfold allocate
  split
  · exact h
  · split
    · exact h.modify.perm (relocateToTail_perm w _)
    · exact h.modify.perm (relocateToTail_perm w _)

theorem mem_allocate {x : BlockEntry} (hx : x ∈ (allocate tag s w l).2) :
    x.tag = tag ∨ ∃ y ∈ l, x.tag = y.tag := by
  unfold allocate at hx
  split at hx
  · exact .inr ⟨x, hx, rfl⟩
  · split at hx
    · rcases mem_modify_or ((relocateToTail_perm w _).mem_iff.mp hx) with hmem | ⟨y, hy, rfl⟩
      · exact .inr ⟨x, hmem, rfl⟩
      · exact .inr ⟨y, hy, rfl⟩
    · rcases mem_modify_or ((relocateToTail_perm w _).mem_iff.mp hx) with hmem | ⟨y, hy, rfl⟩
      · exact .inr ⟨x, hmem, rfl⟩
      · exact .inl rfl

theorem updateState_perm (s : CoherenceState_t) (mru lru : Bool) (w : Nat) (l : block_set_t) :
    (updateState s mru lru w l).Perm (modify w (fun x => { x with state := s }) l) := by
  unfold updateState
  cases mru <;> cases lru
  · exact .refl _
  · exact relocateToHead_perm w _
  · exact relocateToTail_perm w _
  · exact relocateToTail_perm w _

theorem updateState_wellFormed (h : WellFormed assoc l) {mru lru : Bool} :
    WellFormed assoc (updateState s mru lru w l) :=
  h.modify.perm (updateState_perm s mru lru w l)

theorem mem_updateState {mru lru : Bool} {x : BlockEntry} (hx : x ∈ updateState s mru lru w l) :
    ∃ y ∈ l, x.tag = y.tag := by
  rcases mem_modify_or ((updateState_perm s mru lru w l).mem_iff.mp hx) with hmem | ⟨y, hy, rfl⟩
  · exact ⟨x, hmem, rfl⟩
  · exact ⟨y, hy, rfl⟩

/-- Writing the state of a block repeats no tag. -/
theorem fresh_of_state (h : WellFormed assoc l) (he : e ∈ l) :
    ∀ x ∈ l, x.way ≠ e.way → x.tag ≠ { e with state := s }.tag :=
  fun x hx hway htag => hway (by rw [h.tag_inj hx he htag])

theorem stateOf_updateState (h : WellFormed assoc l) (he : e ∈ l) {mru lru : Bool} {t : Nat} :
    stateOf (updateState s mru lru e.way l) t = if t = e.tag then s else stateOf l t := by
  rw [h.modify.stateOf_perm (updateState_perm s mru lru e.way l),
    stateOf_modify (f := fun x => { x with state := s }) h he (fresh_of_state h he)]
  split
  · rfl
  · rfl

/-- What an allocation evicts: at most one block, a valid one of another tag, reported in
    its state. -/
theorem evicted_allocate (h : WellFormed assoc l) {st : CoherenceState_t} (hfinds : Finds l tag st w) :
    ((allocate tag s w l).1.map Prod.fst).Nodup ∧
      ∀ v ∈ (allocate tag s w l).1, v.1 ≠ tag ∧ isValid v.2 = true ∧ stateOf l v.1 = v.2 ∧
        ∃ e ∈ l, e.tag = v.1 := by
  obtain ⟨e, he, rfl, -⟩ := hfinds
  unfold allocate
  rw [find?_way h he]
  by_cases htag : e.tag = tag
  · simp [htag]
  · by_cases hvalid : isValid e.state = true
    · simp only [htag, hvalid, if_true, if_false]
      refine ⟨by simp, fun v hv => ?_⟩
      obtain rfl := List.mem_singleton.mp hv
      exact ⟨htag, hvalid, stateOf_of_mem h.tags he, e, he, rfl⟩
    · simp [htag, hvalid]

theorem stateOf_allocate (h : WellFormed assoc l) {st : CoherenceState_t} (hfinds : Finds l tag st w)
    {t : Nat} : stateOf (allocate tag s w l).2 t =
      if t = tag then s
      else if t ∈ (allocate tag s w l).1.map Prod.fst then kInvalid else stateOf l t := by
  obtain ⟨e, he, rfl, hfound⟩ := hfinds
  unfold allocate
  rw [find?_way h he]
  by_cases htag : e.tag = tag
  · simp only [htag, if_true]
    rw [h.modify.stateOf_perm (relocateToTail_perm e.way _),
      stateOf_modify (f := fun x => { x with state := s }) h he (fresh_of_state h he)]
    simp only [htag, List.map_nil, List.not_mem_nil, if_false]
    split
    · rfl
    · rfl
  · have hnone : ∀ x ∈ l, x.tag ≠ tag := (hfound.resolve_left htag).1
    simp only [htag, if_false]
    rw [h.modify.stateOf_perm (relocateToTail_perm e.way _),
      stateOf_modify (f := fun x => { x with tag := tag, state := s }) h he fun x hx _ => hnone x hx]
    split
    · rfl
    · by_cases hvalid : isValid e.state = true
      · simp [hvalid]
      · have hstate : e.state = kInvalid := by simpa [isValid] using hvalid
        rw [if_neg hvalid]
        simp only [List.map_nil, List.not_mem_nil, if_false]
        split
        · next ht => rw [ht, stateOf_of_mem h.tags he, hstate]
        · rfl

end block_set_t

/-! ## The array -/

theorem Geometry.get_tag_get_tag (g : Geometry) (addr : Nat) :
    g.get_tag (g.get_tag addr) = g.get_tag addr :=
  blockOf_blockOf _ _

theorem Geometry.get_set_get_tag (g : Geometry) (addr : Nat) :
    g.get_set (g.get_tag addr) = g.get_set addr := by
  unfold get_set get_tag blockOf
  rcases Nat.eq_zero_or_pos g.theBlockSize with hzero | hpos
  · simp [hzero]
  · rw [Nat.mul_div_cancel _ hpos]

/-- The sets of an array. Every block is in the set of its tag. -/
structure StdCache (g : Geometry) where
  theBlocks : Nat → block_set_t
  wellFormed : ∀ i, (theBlocks i).WellFormed g.theAssoc
  placed : ∀ i, ∀ e ∈ theBlocks i, g.get_set e.tag = i ∧ g.get_tag e.tag = e.tag

/-- The block that a lookup found, by its way in the set of the address. -/
structure StdLookupResult where
  theAddress : Nat
  theState : CoherenceState_t
  theBlock : Nat
  deriving DecidableEq, Repr

namespace StdCache

variable {g : Geometry}

def empty (g : Geometry) : StdCache g where
  theBlocks := fun _ => []
  wellFormed := fun _ => ⟨List.nodup_nil, List.nodup_nil, Nat.zero_le _⟩
  placed := fun _ _ he => absurd he List.not_mem_nil

/-- Put other blocks in the set of an address. -/
def setSet (c : StdCache g) (addr : Nat) (l : block_set_t) (hwell : l.WellFormed g.theAssoc)
    (hplaced : ∀ e ∈ l, e.tag = g.get_tag addr ∨ ∃ x ∈ c.theBlocks (g.get_set addr), e.tag = x.tag) :
    StdCache g where
  theBlocks := Function.update c.theBlocks (g.get_set addr) l
  wellFormed := by
    intro i
    rcases eq_or_ne i (g.get_set addr) with rfl | hne
    · simpa using hwell
    · simpa [Function.update_of_ne hne] using c.wellFormed i
  placed := by
    intro i e he
    rcases eq_or_ne i (g.get_set addr) with rfl | hne
    · rcases hplaced e (by simpa using he) with htag | ⟨x, hx, htag⟩
      · rw [htag, g.get_set_get_tag, g.get_tag_get_tag]
        exact ⟨rfl, rfl⟩
      · rw [htag]
        exact c.placed _ x hx
    · rw [Function.update_of_ne hne] at he
      exact c.placed i e he

def lookup (c : StdCache g) (tagset : Nat) : StdCache g × StdLookupResult :=
  let set := c.theBlocks (g.get_set tagset)
  let found := set.lookup g.theAssoc (g.get_tag tagset)
  (c.setSet tagset found.1 (block_set_t.lookup_wellFormed (c.wellFormed _)) (fun _ he =>
      (block_set_t.mem_lookup he).symm.imp And.left fun hold => ⟨_, hold, rfl⟩),
    { theAddress := g.get_tag tagset, theState := found.2.1, theBlock := found.2.2 })

def getState (c : StdCache g) (lookup : StdLookupResult) : CoherenceState_t :=
  match (c.theBlocks (g.get_set lookup.theAddress)).find? fun x => x.way == lookup.theBlock with
  | some block => if block.tag = lookup.theAddress then block.state else lookup.theState
  | none => lookup.theState

def allocate (c : StdCache g) (lookup : StdLookupResult) (new_state : CoherenceState_t) :
    List (Nat × CoherenceState_t) × StdCache g :=
  let set := c.theBlocks (g.get_set lookup.theAddress)
  let new_tag := g.get_tag lookup.theAddress
  let done := set.allocate new_tag new_state lookup.theBlock
  (done.1, c.setSet lookup.theAddress done.2 (block_set_t.allocate_wellFormed (c.wellFormed _))
    fun _ he => block_set_t.mem_allocate he)

def changeState (c : StdCache g) (lookup : StdLookupResult) (new_state : CoherenceState_t)
    (make_MRU make_LRU : Bool) : StdCache g :=
  c.setSet lookup.theAddress
    ((c.theBlocks (g.get_set lookup.theAddress)).updateState new_state make_MRU make_LRU
      lookup.theBlock)
    (block_set_t.updateState_wellFormed (c.wellFormed _))
    fun _ he => .inr (block_set_t.mem_updateState he)

def updateLRU (c : StdCache g) (lookup : StdLookupResult) : StdCache g :=
  c.setSet lookup.theAddress
    ((c.theBlocks (g.get_set lookup.theAddress)).relocateToTail lookup.theBlock)
    ((c.wellFormed _).perm (block_set_t.relocateToTail_perm _ _))
    fun e he => .inr ⟨e, (block_set_t.relocateToTail_perm _ _).mem_iff.mp he, rfl⟩

/-- The state of a block; a block that is not in its set is invalid. -/
def stateOf (c : StdCache g) (tag : Nat) : CoherenceState_t :=
  (c.theBlocks (g.get_set tag)).stateOf tag

/-- The lookup is good for the block: its address is that of the block, and its way holds the
    block or, if the block is not in the set, some other one. -/
def Finds (c : StdCache g) (lookup : StdLookupResult) (tag : Nat) : Prop :=
  lookup.theAddress = tag ∧ g.get_tag tag = tag ∧
    (c.theBlocks (g.get_set tag)).Finds tag lookup.theState lookup.theBlock

variable {c : StdCache g} {addr b : Nat} {l : block_set_t} {lookup : StdLookupResult}
  {hwell : l.WellFormed g.theAssoc}
  {hplaced : ∀ e ∈ l, e.tag = g.get_tag addr ∨ ∃ x ∈ c.theBlocks (g.get_set addr), e.tag = x.tag}

theorem stateOf_setSet : (c.setSet addr l hwell hplaced).stateOf b =
    if g.get_set b = g.get_set addr then l.stateOf b else c.stateOf b := by
  unfold stateOf setSet
  split
  · next h => simp [h]
  · next h => simp [Function.update_of_ne h]

theorem stateOf_lookup (c : StdCache g) (a b : Nat) : (c.lookup a).1.stateOf b = c.stateOf b := by
  unfold StdCache.lookup
  rw [stateOf_setSet]
  split
  · next h => rw [block_set_t.stateOf_lookup (c.wellFormed _), stateOf, h]
  · rfl

theorem finds_lookup (c : StdCache g) (a : Nat) :
    (c.lookup a).1.Finds (c.lookup a).2 (blockOf g.theBlockSize a) := by
  refine ⟨rfl, g.get_tag_get_tag a, ?_⟩
  have hset : g.get_set (blockOf g.theBlockSize a) = g.get_set a := g.get_set_get_tag a
  unfold StdCache.lookup setSet
  rw [hset]
  simp only [Function.update_self]
  exact block_set_t.finds_lookup g.assoc_pos

theorem getState_eq (h : c.Finds lookup b) : c.getState lookup = c.stateOf b := by
  obtain ⟨haddr, -, e, he, hway, hfound⟩ := h
  unfold StdCache.getState StdCache.stateOf
  rw [haddr, ← hway, block_set_t.find?_way (c.wellFormed _) he]
  rcases hfound with htag | ⟨hnone, hstate⟩
  · rw [← htag]
    simp only [if_true]
    exact (block_set_t.stateOf_of_mem (c.wellFormed _).tags (htag ▸ he)).symm
  · rw [block_set_t.stateOf_of_not_mem hnone]
    simp only [hnone e he, if_false]
    exact hstate

theorem stateOf_changeState (h : c.Finds lookup addr) (hvalid : c.stateOf addr ≠ kInvalid)
    {s : CoherenceState_t} {mru lru : Bool} :
    (c.changeState lookup s mru lru).stateOf b = if b = addr then s else c.stateOf b := by
  obtain ⟨haddr, -, e, he, hway, hfound⟩ := h
  have htag : e.tag = addr := by
    rcases hfound with htag | ⟨hnone, -⟩
    · exact htag
    · exact absurd (block_set_t.stateOf_of_not_mem hnone) hvalid
  unfold StdCache.changeState
  rw [stateOf_setSet, haddr, ← hway, block_set_t.stateOf_updateState (c.wellFormed _) he, htag]
  by_cases hb : b = addr
  · simp [hb]
  · by_cases hset : g.get_set b = g.get_set addr
    · simp [hb, hset, stateOf]
    · simp [hb, hset]

theorem stateOf_updateLRU (h : c.Finds lookup addr) :
    (c.updateLRU lookup).stateOf b = c.stateOf b := by
  unfold StdCache.updateLRU
  rw [stateOf_setSet, h.1,
    (c.wellFormed _).stateOf_perm (block_set_t.relocateToTail_perm lookup.theBlock _)]
  split
  · next hset => rw [stateOf, hset]
  · rfl

theorem allocate_fst (h : c.Finds lookup addr) (s : CoherenceState_t) : (c.allocate lookup s).1 =
    ((c.theBlocks (g.get_set addr)).allocate addr s lookup.theBlock).1 := by
  obtain ⟨rfl, haligned, -⟩ := h
  change (block_set_t.allocate (g.get_tag lookup.theAddress) s lookup.theBlock _).1 = _
  rw [haligned]

theorem evicted_allocate (h : c.Finds lookup addr) (s : CoherenceState_t) :
    ((c.allocate lookup s).1.map Prod.fst).Nodup ∧
      ∀ v ∈ (c.allocate lookup s).1, v.1 ≠ addr ∧ blockOf g.theBlockSize v.1 = v.1 ∧
        isValid v.2 = true ∧ c.stateOf v.1 = v.2 ∧ g.get_set v.1 = g.get_set addr := by
  rw [allocate_fst h]
  obtain ⟨-, -, hfinds⟩ := h
  obtain ⟨hnodup, hevicted⟩ :=
    block_set_t.evicted_allocate (s := s) (c.wellFormed (g.get_set addr)) hfinds
  refine ⟨hnodup, fun v hv => ?_⟩
  obtain ⟨hne, hvalid, hstate, e, he, htag⟩ := hevicted v hv
  obtain ⟨hset, hplaced⟩ := c.placed _ e he
  rw [htag] at hset hplaced
  exact ⟨hne, hplaced, hvalid, by rw [stateOf, hset, hstate], hset⟩

theorem stateOf_allocate (h : c.Finds lookup addr) (s : CoherenceState_t) :
    (c.allocate lookup s).2.stateOf b = if b = addr then s
      else if b ∈ (c.allocate lookup s).1.map Prod.fst then kInvalid else c.stateOf b := by
  have hevicted := (evicted_allocate h s).2
  by_cases hset : g.get_set b = g.get_set addr
  · rw [allocate_fst h]
    obtain ⟨rfl, haligned, hfinds⟩ := h
    unfold StdCache.allocate
    rw [stateOf_setSet, if_pos hset, haligned,
      block_set_t.stateOf_allocate (c.wellFormed _) hfinds, stateOf, hset]
  · have hb : b ≠ addr := fun heq => hset (by rw [heq])
    have hmem : b ∉ (c.allocate lookup s).1.map Prod.fst := by
      intro hmem
      obtain ⟨v, hv, rfl⟩ := List.mem_map.mp hmem
      exact hset (hevicted v hv).2.2.2.2
    rw [if_neg hb, if_neg hmem]
    unfold StdCache.allocate
    rw [stateOf_setSet, h.1, if_neg hset]

/-- The standard array is an array in the sense of the protocols. -/
def array (g : Geometry) : AbstractCache g.theBlockSize where
  Cache := StdCache g
  LookupResult := StdLookupResult
  stateOf := stateOf
  Finds := Finds
  empty := empty g
  lookup := StdCache.lookup
  getState := getState
  allocate := StdCache.allocate
  changeState := StdCache.changeState
  updateLRU := StdCache.updateLRU
  stateOf_empty := fun _ => rfl
  stateOf_lookup := stateOf_lookup
  finds_lookup := finds_lookup
  getState_eq := fun _ _ _ h => getState_eq h
  stateOf_changeState := fun _ _ _ _ _ _ h hvalid _ => stateOf_changeState h hvalid
  stateOf_updateLRU := fun _ _ _ h _ => stateOf_updateLRU h
  evicted_allocate := fun _ _ _ s h =>
    ⟨(evicted_allocate h s).1, fun v hv =>
      have hv := (evicted_allocate h s).2 v hv
      ⟨hv.1, hv.2.1, hv.2.2.1, hv.2.2.2.1⟩⟩
  stateOf_allocate := fun _ _ _ s h _ => stateOf_allocate h s

end StdCache

end nFastCache
