import Flexus.CmpCache.Message
import Flexus.FastCache.Flexpoint

/-!
# Loading the array of an L1 cache

The array reads the blocks that a functional cache saved.
-/

namespace nCache

open SetArray
open nCMPCache (MemoryAddress)
open nFastCache (BlockSerializer Archive Token)

/-- The states of a block. `Owned` belongs to other protocols. -/
inductive State where
  | Modified | Owned | Exclusive | Shared | Invalid
  deriving DecidableEq, Repr

abbrev Block := Line MemoryAddress State

/-- A line is kept from replacement while it is protected and valid. -/
def Block.kind : LineKind MemoryAddress Block State where
  tag := Line.tag
  state := Line.state
  valid := fun s => decide (s ≠ .Invalid)
  replaceable := fun b => !b.isProtected || decide (b.state = .Invalid)
  Plain := fun b => b.isProtected = false
  assign := fun b a s => { b with tag := a, state := s }
  tag_assign := fun _ _ _ => rfl
  state_assign := fun _ _ _ => rfl
  plain_assign := fun _ _ _ h => h
  replaceable_of_plain := fun b h => by simp [h]

/-- A line as it is before anything is loaded. -/
def Block.fresh : Block := { tag := 0, state := .Invalid }

namespace State

def char2State : Char → Option State
  | 'M' => some Modified
  | 'O' => some Owned
  | 'E' => some Exclusive
  | 'S' => some Shared
  | 'I' => some Invalid
  | _ => none

def int2State : Nat → Option State
  | 7 => some Modified
  | 3 => some Owned
  | 5 => some Exclusive
  | 1 => some Shared
  | 0 => some Invalid
  | _ => none

end State

/-! ## One set -/

def loadState (theAssociativity : Nat) (items : List BlockSerializer) (s : SetLRU Block) :
    Option (SetLRU Block × List BlockSerializer) :=
  SetLRU.fillDown (fun b bs => (State.char2State bs.state).map fun state =>
    Block.kind.assign b bs.tag state) theAssociativity items s

/-- Read the lines of a set, from way `i` on. The characters around a line are not looked
    at. -/
def loadTextLines (theTagShift setBits : Nat) :
    Nat → Nat → List Token → SetLRU Block → Option (SetLRU Block × List Token)
  | 0, _, stream, s => some (s, stream)
  | k + 1, i, .paren _ :: .num state :: .num tag :: .paren _ :: stream, s =>
    match State.int2State state with
    | some state =>
      loadTextLines theTagShift setBits k (i + 1) stream
        { s with
          theBlocks := Function.update s.theBlocks i
            (Block.kind.assign (s.theBlocks i) (tag <<< theTagShift ||| setBits) state) }
    | none => none
  | _ + 1, _, _, _ => none

def skipNumbers : Nat → List Token → Option (List Token)
  | 0, stream => some stream
  | k + 1, .num _ :: stream => skipNumbers k stream
  | _ + 1, _ => none

/-- Read one set from a text. A wrong bracket after the lines is reported as an error, a
    wrong bracket around the list of ways is not. -/
def loadTextState (theAssociativity theTagShift theSetShift theSet : Nat) (stream : List Token)
    (s : SetLRU Block) : Option (SetLRU Block × List Token) :=
  match stream with
  | .paren '{' :: stream =>
    match loadTextLines theTagShift (theSet <<< theSetShift) theAssociativity 0 stream s with
    | some (s, .paren '}' :: .paren '<' :: stream) =>
      match skipNumbers theAssociativity stream with
      | some (.paren _ :: stream) => some (s, stream)
      | _ => none
    | some (s, .paren '}' :: .paren _ :: stream) => some (s, stream)
    | _ => none
  | _ => none

/-! ## The array -/

structure StdArrayInfo where
  theCacheSize : Nat
  theAssociativity : Nat
  theBlockSize : Nat
  deriving DecidableEq, Repr

namespace StdArrayInfo

variable (info : StdArrayInfo)

def setCount : Nat := info.theCacheSize / info.theAssociativity / info.theBlockSize

def indexBits : Nat := info.setCount.log2

def setIndexShift : Nat := info.theBlockSize.log2

def setIndexMask : Nat := (1 <<< info.indexBits) - 1

def theTagShift : Nat := info.theBlockSize.log2 + info.indexBits

def makeSet (anAddress : MemoryAddress) : Nat := (anAddress >>> info.setIndexShift) &&& info.setIndexMask

def init : Nat → SetLRU Block := fun _ => .create info.theAssociativity Block.fresh

/-- Load a binary archive. One of another geometry stops the simulator. -/
def loadState (ar : Archive) : Option (Nat → SetLRU Block) :=
  if ar.set_count = info.setCount ∧ ar.associativity = info.theAssociativity then
    (SetLRU.fillSets (fun _ => nCache.loadState info.theAssociativity) info.setCount 0 ar.blocks
      info.init).map Prod.fst
  else none

def loadText (stream : List Token) : Option (Nat → SetLRU Block) :=
  (SetLRU.fillSets (loadTextState info.theAssociativity info.theTagShift info.setIndexShift)
    info.setCount 0 stream info.init).map Prod.fst

end StdArrayInfo

/-! ## What is read -/

/-- The state of a block under its name in the timing cache. -/
def stateOf : nFastCache.CoherenceState_t → State
  | .kModified => .Modified
  | .kOwned => .Owned
  | .kExclusive => .Exclusive
  | .kShared => .Shared
  | .kInvalid => .Invalid
  | .kMigratory => .Invalid

theorem char2State_charOf (s : nFastCache.CoherenceState_t) :
    State.char2State (nFastCache.charOf s) = some (stateOf s) := by
  cases s <;> rfl

theorem int2State_bitsOf (s : nFastCache.CoherenceState_t) :
    State.int2State (nFastCache.bitsOf s) = some (stateOf s) := by
  cases s <;> rfl

variable {assoc : Nat} {l : nFastCache.block_set_t}

theorem loadState_items (hlength : l.length ≤ assoc) :
    ∃ t, (∀ rest, loadState assoc (l.items assoc ++ rest) (.create assoc Block.fresh) = some (t, rest)) ∧
      t.theMRUOrder = List.range assoc ∧
      t.recency = (l.entries assoc).reverse.map fun e =>
        Block.kind.assign Block.fresh e.1 (stateOf e.2) :=
  nFastCache.block_set_t.fillDown_items Block.kind char2State_charOf hlength Block.fresh

theorem loadTextLines_textLines (tagShift setBits shift : Nat)
    (entries : List (Nat × nFastCache.CoherenceState_t)) (i : Nat) (s : SetLRU Block) :
    ∃ t, (∀ rest, loadTextLines tagShift setBits entries.length i
        ((entries.map fun e => nFastCache.block_set_t.textLine (nFastCache.bitsOf e.2) (e.1 >>> shift)).flatten
          ++ rest) s = some (t, rest)) ∧
      t.theMRUOrder = s.theMRUOrder ∧ (∀ j < i, t.theBlocks j = s.theBlocks j) ∧
      ∀ j, (hj : j < entries.length) → t.theBlocks (i + j) = Block.kind.assign (s.theBlocks (i + j))
        ((entries[j].1 >>> shift) <<< tagShift ||| setBits) (stateOf entries[j].2) := by
  induction entries generalizing i s with
  | nil => exact ⟨s, fun _ => rfl, rfl, fun _ _ => rfl, fun j hj => absurd hj (Nat.not_lt_zero j)⟩
  | cons e entries ih =>
    obtain ⟨t, hload, horder, hbelow, hdone⟩ := ih (i + 1)
      { s with
        theBlocks := Function.update s.theBlocks i
          (Block.kind.assign (s.theBlocks i) ((e.1 >>> shift) <<< tagShift ||| setBits) (stateOf e.2)) }
    simp only at hbelow hdone
    refine ⟨t, fun rest => ?_, horder, fun j hj => ?_, fun j hj => ?_⟩
    · rw [← hload]
      simp only [List.map_cons, List.flatten_cons, List.length_cons,
        nFastCache.block_set_t.textLine, List.cons_append, List.nil_append, loadTextLines,
        int2State_bitsOf]
    · rw [hbelow j (by omega), Function.update_of_ne (by omega)]
    · cases j with
      | zero => rw [Nat.add_zero, hbelow i (by omega), Function.update_self, List.getElem_cons_zero]
      | succ j =>
        have hj' : j < entries.length := by simpa using hj
        have hone := hdone j hj'
        rw [Function.update_of_ne (by omega)] at hone
        have heq : i + (j + 1) = i + 1 + j := by omega
        simp only [List.getElem_cons_succ]
        rw [heq, hone]

theorem skipNumbers_range (n : Nat) (rest : List Token) :
    skipNumbers n ((List.range n).map .num ++ rest) = some rest := by
  have hany : ∀ ns : List Nat, skipNumbers ns.length (ns.map .num ++ rest) = some rest := by
    intro ns
    induction ns with
    | nil => rfl
    | cons m ns ih => exact ih
  simpa using hany (List.range n)

/-- A set read from a text has the saved entries from the most to the least recently used
    one. -/
theorem loadTextState_text (hlength : l.length ≤ assoc) (tagShift setShift shift set : Nat) :
    ∃ t, (∀ rest, loadTextState assoc tagShift setShift set (l.text assoc shift ++ rest)
        (.create assoc Block.fresh) = some (t, rest)) ∧
      t.theMRUOrder = List.range assoc ∧
      t.recency = (l.entries assoc).map fun e => Block.kind.assign Block.fresh
        ((e.1 >>> shift) <<< tagShift ||| set <<< setShift) (stateOf e.2) := by
  have hentries := nFastCache.block_set_t.length_entries hlength
  obtain ⟨t, hload, horder, -, hdone⟩ := loadTextLines_textLines tagShift (set <<< setShift) shift
    (l.entries assoc) 0 (.create assoc Block.fresh)
  rw [hentries] at hload
  have horder' : t.theMRUOrder = List.range assoc := horder
  refine ⟨t, fun rest => ?_, horder', ?_⟩
  · simp only [nFastCache.block_set_t.text, nFastCache.block_set_t.textLines, loadTextState,
      List.cons_append, List.append_assoc, List.nil_append, hload, skipNumbers_range]
  · unfold SetLRU.recency
    rw [horder']
    apply List.ext_getElem (by simp [hentries])
    intro j hj hj'
    have hlt : j < (l.entries assoc).length := by simpa using hj'
    rw [List.getElem_map, List.getElem_map, List.getElem_range]
    have hline := hdone j hlt
    rw [Nat.zero_add] at hline
    exact hline

end nCache
