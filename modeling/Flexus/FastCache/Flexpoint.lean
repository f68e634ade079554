import Flexus.FastCache.StdCache
import Flexus.Lib.WaySet

/-!
# Saved states of the functional caches

A functional cache saves the blocks of each set from the least to the most recently used one,
and then as many invalid entries as the set has ways left.
-/

namespace nFastCache

open CoherenceState_t

/-- A block in a binary archive. -/
structure BlockSerializer where
  tag : Nat
  state : Char
  deriving DecidableEq, Repr

structure Archive where
  set_count : Nat
  associativity : Nat
  blocks : List BlockSerializer
  deriving DecidableEq, Repr

/-- What a formatted stream holds between its blanks. -/
inductive Token where
  | paren (c : Char)
  | num (n : Nat)
  deriving DecidableEq, Repr

def stateChar : CoherenceState_t → Option Char
  | kModified => some 'M'
  | kOwned => some 'O'
  | kExclusive => some 'E'
  | kShared => some 'S'
  | kInvalid => some 'I'
  | kMigratory => none

def kSave_ValidBit : Nat := 1

def kSave_DirtyBit : Nat := 2

def kSave_ModifiableBit : Nat := 4

def stateBits : CoherenceState_t → Option Nat
  | kModified => some (kSave_ValidBit ||| kSave_DirtyBit ||| kSave_ModifiableBit)
  | kOwned => some (kSave_ValidBit ||| kSave_DirtyBit)
  | kExclusive => some (kSave_ValidBit ||| kSave_ModifiableBit)
  | kShared => some kSave_ValidBit
  | kInvalid => some 0
  | kMigratory => none

namespace block_set_t

/-- The blocks of a set and what stands for its other ways. -/
def entries (theAssoc : Nat) (l : block_set_t) : List (Nat × CoherenceState_t) :=
  (l.map fun e => (e.tag, e.state)) ++ List.replicate (theAssoc - l.length) (0, kInvalid)

def saveState (theAssoc : Nat) (l : block_set_t) : Option (List BlockSerializer) :=
  (l.entries theAssoc).mapM fun e => (stateChar e.2).map fun c => { tag := e.1, state := c }

def textLine (state tag : Nat) : List Token := [.paren '[', .num state, .num tag, .paren ']']

def saveText (theAssoc shift : Nat) (l : block_set_t) : Option (List Token) :=
  ((l.entries theAssoc).mapM fun e => (stateBits e.2).map fun s => textLine s (e.1 >>> shift)).map
    fun lines => .paren '{' :: lines.flatten ++
      .paren '}' :: .paren '<' :: ((List.range theAssoc).map .num ++ [.paren '>'])

end block_set_t

namespace StdCache

variable {g : Geometry}

def saveState (c : StdCache g) : Option Archive :=
  ((List.range g.theNumSets).mapM fun set => (c.theBlocks set).saveState g.theAssoc).map fun sets =>
    { set_count := g.theNumSets, associativity := g.theAssoc, blocks := sets.flatten }

def saveText (c : StdCache g) : Option (List Token) :=
  ((List.range g.theNumSets).mapM fun set =>
    (c.theBlocks set).saveText g.theAssoc (g.theBlockSize.log2 + g.theNumSets.log2)).map List.flatten

end StdCache

/-! ## What is saved -/

theorem mapM_eq_map {α β : Type*} {f : α → Option β} {h : α → β} {l : List α}
    (hf : ∀ x ∈ l, f x = some (h x)) : l.mapM f = some (l.map h) := by
  induction l with
  | nil => rfl
  | cons x l ih =>
    rw [List.mapM_cons, hf x List.mem_cons_self, ih fun y hy => hf y (List.mem_cons_of_mem _ hy)]
    rfl

/-- The character of a state that has one. -/
def charOf (s : CoherenceState_t) : Char := (stateChar s).getD 'I'

def bitsOf (s : CoherenceState_t) : Nat := (stateBits s).getD 0

theorem stateChar_eq {s : CoherenceState_t} (h : s ≠ kMigratory) : stateChar s = some (charOf s) := by
  cases s <;> first | rfl | exact absurd rfl h

theorem stateBits_eq {s : CoherenceState_t} (h : s ≠ kMigratory) : stateBits s = some (bitsOf s) := by
  cases s <;> first | rfl | exact absurd rfl h

namespace block_set_t

variable {l : block_set_t} {assoc shift : Nat}

theorem length_entries (h : l.length ≤ assoc) : (l.entries assoc).length = assoc := by
  simp [entries]
  omega

theorem mem_entries {e : Nat × CoherenceState_t} (he : e ∈ l.entries assoc) :
    (∃ x ∈ l, e = (x.tag, x.state)) ∨ e = (0, kInvalid) := by
  rcases List.mem_append.mp he with hmem | hmem
  · obtain ⟨x, hx, rfl⟩ := List.mem_map.mp hmem
    exact .inl ⟨x, hx, rfl⟩
  · exact .inr (List.eq_of_mem_replicate hmem)

theorem entries_ne (h : ∀ e ∈ l, e.state ≠ kMigratory) :
    ∀ e ∈ l.entries assoc, e.2 ≠ kMigratory := by
  intro e he
  rcases mem_entries he with ⟨x, hx, rfl⟩ | rfl
  · exact h x hx
  · simp

/-- The items of a set in an archive. -/
def items (assoc : Nat) (l : block_set_t) : List BlockSerializer :=
  (l.entries assoc).map fun e => { tag := e.1, state := charOf e.2 }

def textLines (assoc shift : Nat) (l : block_set_t) : List (List Token) :=
  (l.entries assoc).map fun e => textLine (bitsOf e.2) (e.1 >>> shift)

def text (assoc shift : Nat) (l : block_set_t) : List Token :=
  .paren '{' :: (l.textLines assoc shift).flatten ++
    .paren '}' :: .paren '<' :: ((List.range assoc).map .num ++ [.paren '>'])

/-- A set filled from the items of an archive has the saved entries from the least to the most
    recently used one. -/
theorem fillDown_items {β σ : Type*} (K : SetArray.LineKind Nat β σ) {char2State : Char → Option σ}
    {name : CoherenceState_t → σ} (hchar : ∀ s, char2State (charOf s) = some (name s))
    (hlength : l.length ≤ assoc) (b : β) :
    ∃ t, (∀ rest, SetArray.SetLRU.fillDown
        (fun b (bs : BlockSerializer) => (char2State bs.state).map fun state => K.assign b bs.tag state)
        assoc (l.items assoc ++ rest) (.create assoc b) = some (t, rest)) ∧
      t.theMRUOrder = List.range assoc ∧
      t.recency = (l.entries assoc).reverse.map fun e => K.assign b e.1 (name e.2) := by
  have hitems : (l.items assoc).length = assoc := by rw [items, List.length_map, length_entries hlength]
  have hread : ∀ b : β, ∀ x ∈ l.items assoc,
      ((char2State x.state).map fun state => K.assign b x.tag state) =
        some (((char2State x.state).map fun state => K.assign b x.tag state).getD b) := by
    intro b x hx
    obtain ⟨e, -, rfl⟩ := List.mem_map.mp hx
    rw [hchar]
    rfl
  obtain ⟨t, hload, horder, hrecency⟩ := SetArray.SetLRU.fillDown_create (l.items assoc) b hitems hread
  refine ⟨t, hload, horder, ?_⟩
  rw [hrecency, items, ← List.map_reverse, List.map_map]
  refine List.map_congr_left fun e _ => ?_
  simp only [Function.comp_apply, hchar, Option.map_some, Option.getD_some]

theorem saveState_eq (h : ∀ e ∈ l, e.state ≠ kMigratory) : l.saveState assoc = some (l.items assoc) := by
  apply mapM_eq_map
  intro e he
  rw [stateChar_eq (entries_ne h e he)]
  rfl

theorem saveText_eq (h : ∀ e ∈ l, e.state ≠ kMigratory) :
    l.saveText assoc shift = some (l.text assoc shift) := by
  have hlines : ((l.entries assoc).mapM fun e =>
      (stateBits e.2).map fun s => textLine s (e.1 >>> shift)) = some (l.textLines assoc shift) := by
    apply mapM_eq_map
    intro e he
    rw [stateBits_eq (entries_ne h e he)]
    rfl
  rw [saveText, hlines]
  rfl

end block_set_t

namespace StdCache

variable {g : Geometry} {c : StdCache g}

theorem saveState_eq (h : ∀ i, ∀ e ∈ c.theBlocks i, e.state ≠ kMigratory) :
    c.saveState = some
      { set_count := g.theNumSets
        associativity := g.theAssoc
        blocks := (List.range g.theNumSets).flatMap fun i => (c.theBlocks i).items g.theAssoc } := by
  rw [saveState, mapM_eq_map fun i _ => block_set_t.saveState_eq (h i)]
  rfl

theorem saveText_eq (h : ∀ i, ∀ e ∈ c.theBlocks i, e.state ≠ kMigratory) :
    c.saveText = some ((List.range g.theNumSets).flatMap fun i =>
      (c.theBlocks i).text g.theAssoc (g.theBlockSize.log2 + g.theNumSets.log2)) := by
  rw [saveText, mapM_eq_map fun i _ => block_set_t.saveText_eq (h i)]
  rfl

/-- The states that the operations of the cache lead to from the empty cache. No protocol
    asks for the migratory state. -/
inductive Reachable : StdCache g → Prop
  | start : Reachable (empty g)
  | lookup {c : StdCache g} (addr : Nat) : Reachable c → Reachable (c.lookup addr).1
  | allocate {c : StdCache g} {l : StdLookupResult} {tag : Nat} {s : CoherenceState_t} :
      Reachable c → c.Finds l tag → s ≠ kMigratory → Reachable (c.allocate l s).2
  | changeState {c : StdCache g} {l : StdLookupResult} {tag : Nat} {s : CoherenceState_t}
      {mru lru : Bool} :
      Reachable c → c.Finds l tag → s ≠ kMigratory → Reachable (c.changeState l s mru lru)
  | updateLRU {c : StdCache g} {l : StdLookupResult} {tag : Nat} :
      Reachable c → c.Finds l tag → Reachable (c.updateLRU l)

end StdCache

namespace block_set_t

variable {l : block_set_t} {s : CoherenceState_t} {tag w : Nat} {x : BlockEntry}

theorem state_of_mem_allocate (hx : x ∈ (allocate tag s w l).2) :
    x.state = s ∨ ∃ y ∈ l, x.state = y.state := by
  unfold allocate at hx
  split at hx
  · exact .inr ⟨x, hx, rfl⟩
  · split at hx
    · rcases mem_modify_or ((relocateToTail_perm w _).mem_iff.mp hx) with hmem | ⟨y, -, rfl⟩
      · exact .inr ⟨x, hmem, rfl⟩
      · exact .inl rfl
    · rcases mem_modify_or ((relocateToTail_perm w _).mem_iff.mp hx) with hmem | ⟨y, -, rfl⟩
      · exact .inr ⟨x, hmem, rfl⟩
      · exact .inl rfl

theorem state_of_mem_updateState {mru lru : Bool} (hx : x ∈ updateState s mru lru w l) :
    x.state = s ∨ ∃ y ∈ l, x.state = y.state := by
  rcases mem_modify_or ((updateState_perm s mru lru w l).mem_iff.mp hx) with hmem | ⟨y, -, rfl⟩
  · exact .inr ⟨x, hmem, rfl⟩
  · exact .inl rfl

end block_set_t

namespace StdCache

variable {g : Geometry} {c : StdCache g}

theorem mem_update {sets : Nat → block_set_t} {j i : Nat} {l : block_set_t} {e : BlockEntry}
    (he : e ∈ Function.update sets j l i) : e ∈ l ∨ e ∈ sets i := by
  rcases eq_or_ne i j with rfl | hne
  · rw [Function.update_self] at he
    exact .inl he
  · rw [Function.update_of_ne hne] at he
    exact .inr he

/-- Every block of a reachable state has a state that is saved. -/
theorem Reachable.saved (h : c.Reachable) : ∀ i, ∀ e ∈ c.theBlocks i, e.state ≠ kMigratory := by
  induction h with
  | start => exact fun _ _ he => absurd he List.not_mem_nil
  | lookup addr _ ih =>
    intro i e he
    rcases mem_update he with hmem | hmem
    · rcases block_set_t.mem_lookup hmem with hold | ⟨-, hstate⟩
      · exact ih _ e hold
      · simp [hstate]
    · exact ih i e hmem
  | allocate _ _ hs ih =>
    intro i e he
    rcases mem_update he with hmem | hmem
    · rcases block_set_t.state_of_mem_allocate hmem with hstate | ⟨y, hy, hstate⟩
      · exact hstate ▸ hs
      · exact hstate ▸ ih _ y hy
    · exact ih i e hmem
  | changeState _ _ hs ih =>
    intro i e he
    rcases mem_update he with hmem | hmem
    · rcases block_set_t.state_of_mem_updateState hmem with hstate | ⟨y, hy, hstate⟩
      · exact hstate ▸ hs
      · exact hstate ▸ ih _ y hy
    · exact ih i e hmem
  | updateLRU _ _ ih =>
    intro i e he
    rcases mem_update he with hmem | hmem
    · exact ih _ e ((block_set_t.relocateToTail_perm _ _).mem_iff.mp hmem)
    · exact ih i e hmem

end StdCache

end nFastCache
