import Flexus.Lib.Keyed

/-!
# Tables of the branch predictors

The branch target buffer, the bimodal table and the pattern table of the gshare predictor.
-/

namespace SharedTypes

inductive eBranchType where
  | kNonBranch
  | kConditional
  | kUnconditional
  | kCall
  | kReturn
  | kLastBranchType
  deriving DecidableEq, Repr

inductive eDirection where
  | kStronglyTaken
  | kTaken
  | kNotTaken
  | kStronglyNotTaken
  deriving DecidableEq, Repr

namespace eDirection

/-- The test `direction >= kNotTaken`; its negation is `direction <= kTaken`. -/
def notTaken : eDirection → Bool
  | kStronglyTaken | kTaken => false
  | kNotTaken | kStronglyNotTaken => true

def moreTaken : eDirection → eDirection
  | kStronglyTaken => kStronglyTaken
  | kTaken => kStronglyTaken
  | kNotTaken => kTaken
  | kStronglyNotTaken => kNotTaken

def moreNotTaken : eDirection → eDirection
  | kStronglyNotTaken => kStronglyNotTaken
  | kNotTaken => kStronglyNotTaken
  | kTaken => kNotTaken
  | kStronglyTaken => kTaken

def apply (aDirection aState : eDirection) : eDirection :=
  if aDirection.notTaken then aState.moreNotTaken else aState.moreTaken

def reverse (direction : eDirection) : eDirection :=
  if direction.notTaken then kTaken else kNotTaken

end eDirection

/-! ## The branch target buffer -/

structure BTBEntry where
  thePC : BitVec 64
  theBranchType : eBranchType
  theTarget : BitVec 64
  deriving DecidableEq, Repr

/-- A set of the buffer: a sequence, oldest entry first, in which a program counter occurs
    once. An entry that turns out to be no branch is taken out, never kept. -/
@[ext]
structure btb_set_t where
  entries : List BTBEntry
  unique : (entries.map BTBEntry.thePC).Nodup
  branches : ∀ e ∈ entries, e.theBranchType ≠ .kNonBranch
  deriving DecidableEq

namespace btb_set_t

def empty : btb_set_t where
  entries := []
  unique := List.nodup_nil
  branches := by simp

def find (s : btb_set_t) (aPC : BitVec 64) : Option BTBEntry :=
  Keyed.lookup BTBEntry.thePC s.entries aPC

def erase (s : btb_set_t) (aPC : BitVec 64) : btb_set_t where
  entries := Keyed.erase BTBEntry.thePC aPC s.entries
  unique := Keyed.nodup_erase s.unique
  branches e he := s.branches e (List.mem_of_mem_filter he)

def pop_front (s : btb_set_t) : btb_set_t where
  entries := s.entries.tail
  unique := s.unique.sublist ((List.tail_sublist _).map _)
  branches e he := s.branches e (List.mem_of_mem_tail he)

/-- An insertion at the end, refused when the program counter is there already. -/
def push_back (s : btb_set_t) (e : BTBEntry) (hbranch : e.theBranchType ≠ .kNonBranch) : btb_set_t :=
  if hfresh : e.thePC ∈ s.entries.map BTBEntry.thePC then s
  else
    { entries := s.entries ++ [e]
      unique := Keyed.nodup_append_singleton s.unique hfresh
      branches := by
        intro x hx
        obtain hold | hnew := List.mem_append.mp hx
        · exact s.branches x hold
        · rwa [List.mem_singleton.mp hnew] }

theorem push_back_entries {s : btb_set_t} {e : BTBEntry} {hbranch : e.theBranchType ≠ .kNonBranch} :
    (s.push_back e hbranch).entries =
      if e.thePC ∈ s.entries.map BTBEntry.thePC then s.entries else s.entries ++ [e] := by
  rw [push_back]
  split <;> rfl

/-- What `BTB::update` does to the set of the address: an entry found is changed and moved
    to the end, a new one evicts the oldest of a full set. -/
def update (s : btb_set_t) (theBTBAssoc : Nat) (aPC : BitVec 64) (aType : eBranchType)
    (aTarget : BitVec 64) : Bool × btb_set_t :=
  match s.find aPC with
  | some iter =>
    if htype : aType = .kNonBranch then (false, s.erase aPC)
    else
      let target := if aTarget ≠ 0 then aTarget else iter.theTarget
      (false, (s.erase aPC).push_back
        { iter with theBranchType := aType, theTarget := target } htype)
  | none =>
    if htype : aType = .kNonBranch then (false, s)
    else
      let room := if theBTBAssoc ≤ s.entries.length then s.pop_front else s
      (true, room.push_back ⟨aPC, aType, aTarget⟩ htype)

/-- An update makes a new entry exactly when a branch is not found. -/
theorem update_isNew {s : btb_set_t} {n : Nat} {aPC aTarget : BitVec 64} {aType : eBranchType} :
    (s.update n aPC aType aTarget).1 = true ↔ s.find aPC = none ∧ aType ≠ .kNonBranch := by
  unfold update
  cases s.find aPC with
  | none =>
    dsimp only
    split
    · next htype => simp [htype]
    · next htype => simp [htype]
  | some iter =>
    dsimp only
    split <;> simp

end btb_set_t

/-- The masks below come from sizes of type `int32_t`, so the conversion of an index to
    `int32_t` changes nothing. -/
structure BTB where
  theBTB : List btb_set_t
  theBTBSets : BitVec 32
  theBTBAssoc : BitVec 32
  theIndexMask : BitVec 64
  inRange : theIndexMask.toNat < theBTB.length
  deriving DecidableEq

theorem and_toNat_lt {n : Nat} {mask : BitVec 64} (x : BitVec 64) (hmask : mask.toNat < n) :
    (x &&& mask).toNat < n := by
  rw [BitVec.toNat_and]
  exact Nat.lt_of_le_of_lt Nat.and_le_right hmask

namespace BTB

/-- `hsize` is the constructor's assertion, for a size that is not zero. -/
def create (aBTBSets aBTBAssoc : Nat) (hsize : 0 < aBTBSets ∧ (aBTBSets - 1) &&& aBTBSets = 0) : BTB where
  theBTB := List.replicate aBTBSets .empty
  theBTBSets := BitVec.ofNat 32 aBTBSets
  theBTBAssoc := BitVec.ofNat 32 aBTBAssoc
  theIndexMask := BitVec.ofNat 64 (aBTBSets - 1)
  inRange := by
    rw [List.length_replicate, BitVec.toNat_ofNat]
    have hle := Nat.mod_le (aBTBSets - 1) (2 ^ 64)
    omega

variable (t : BTB) (anAddress : BitVec 64)

def index : Fin t.theBTB.length :=
  ⟨((anAddress >>> 2) &&& t.theIndexMask).toNat, and_toNat_lt _ t.inRange⟩

def theSet : btb_set_t := t.theBTB.get (t.index anAddress)

def contains : Bool := ((t.theSet anAddress).find anAddress).isSome

def type : eBranchType :=
  match (t.theSet anAddress).find anAddress with
  | none => .kNonBranch
  | some iter => iter.theBranchType

def target : Option (BitVec 64) := ((t.theSet anAddress).find anAddress).map BTBEntry.theTarget

def update (aPC : BitVec 64) (aType : eBranchType) (aTarget : BitVec 64) : Bool × BTB :=
  let r := (t.theSet aPC).update t.theBTBAssoc.toNat aPC aType aTarget
  (r.1, { t with
    theBTB := t.theBTB.set (t.index aPC) r.2
    inRange := by
      rw [List.length_set]
      exact t.inRange })

variable {t anAddress}

/-- An address is of no branch type exactly when the buffer has no entry for it. -/
theorem type_eq_kNonBranch :
    t.type anAddress = .kNonBranch ↔ (t.theSet anAddress).find anAddress = none := by
  rw [type]
  cases hfind : (t.theSet anAddress).find anAddress with
  | none => simp
  | some iter =>
    have hbranch := (t.theSet anAddress).branches iter (Keyed.mem_of_lookup hfind).1
    simpa using hbranch

/-- An update makes a new entry exactly when a branch is seen at an address of no branch. -/
theorem update_isNew {aType : eBranchType} {aTarget : BitVec 64} :
    (t.update anAddress aType aTarget).1 = true ↔ t.type anAddress = .kNonBranch ∧ aType ≠ .kNonBranch := by
  rw [type_eq_kNonBranch]
  exact btb_set_t.update_isNew

end BTB

/-! ## Direction tables -/

structure Bimodal where
  theTable : List eDirection
  theSize : BitVec 32
  theIndexMask : BitVec 64
  inRange : theIndexMask.toNat < theTable.length
  deriving DecidableEq

/-- The initial directions alternate. -/
def alternating (n : Nat) : List eDirection := List.iterate eDirection.reverse .kNotTaken n

namespace Bimodal

def create (aSize : Nat) (hsize : 0 < aSize ∧ (aSize - 1) &&& aSize = 0) : Bimodal where
  theTable := alternating aSize
  theSize := BitVec.ofNat 32 aSize
  theIndexMask := BitVec.ofNat 64 (aSize - 1)
  inRange := by
    rw [alternating, List.length_iterate, BitVec.toNat_ofNat]
    have hle := Nat.mod_le (aSize - 1) (2 ^ 64)
    omega

variable (t : Bimodal) (anAddress : BitVec 64)

def index : Fin t.theTable.length :=
  ⟨(((anAddress >>> 19) ^^^ (anAddress >>> 2)) &&& t.theIndexMask).toNat, and_toNat_lt _ t.inRange⟩

def direction : eDirection := t.theTable.get (t.index anAddress)

def update (aDirection : eDirection) : Bimodal :=
  { t with
    theTable := t.theTable.set (t.index anAddress) aDirection
    inRange := by
      rw [List.length_set]
      exact t.inRange }

end Bimodal

@[ext]
structure gShare where
  thePatternTable : List eDirection
  theShiftReg : BitVec 32
  theShiftRegSize : BitVec 32
  thePatternMask : BitVec 32
  inRange : thePatternMask.toNat < thePatternTable.length
  deriving DecidableEq

namespace gShare

def create (aSize : Nat) : gShare where
  thePatternTable := alternating (2 ^ aSize)
  theShiftReg := 0
  theShiftRegSize := BitVec.ofNat 32 aSize
  thePatternMask := BitVec.ofNat 32 (2 ^ aSize - 1)
  inRange := by
    rw [alternating, List.length_iterate, BitVec.toNat_ofNat]
    have hle := Nat.mod_le (2 ^ aSize - 1) (2 ^ 32)
    have hpos := Nat.two_pow_pos aSize
    omega

variable (t : gShare) (anAddress : BitVec 64) (aShiftReg : BitVec 32)

/-- The address is hashed with the history it is given. -/
def index : Fin t.thePatternTable.length :=
  ⟨((aShiftReg.setWidth 64 ^^^ (anAddress >>> 2)) &&& t.thePatternMask.setWidth 64).toNat,
    and_toNat_lt _ (by rw [BitVec.toNat_setWidth_of_le (by decide)]; exact t.inRange)⟩

def shiftIn (aDirection : eDirection) : gShare :=
  let shifted := (t.theShiftReg <<< 1) &&& t.thePatternMask
  { t with theShiftReg := if aDirection.notTaken then shifted ||| 1 else shifted }

def setShiftReg (aPreviousShiftRegState : BitVec 32) : gShare :=
  { t with theShiftReg := aPreviousShiftRegState &&& t.thePatternMask }

def shiftReg : BitVec 32 := t.theShiftReg

def direction : eDirection := t.thePatternTable.get (t.index anAddress aShiftReg)

def update (aDirection : eDirection) : gShare :=
  { t with
    thePatternTable := t.thePatternTable.set (t.index anAddress aShiftReg) aDirection
    inRange := by
      rw [List.length_set]
      exact t.inRange }

end gShare

end SharedTypes
