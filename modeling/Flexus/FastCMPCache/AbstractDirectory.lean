import Flexus.CmpCache.Message

/-!
# Directories of the functional CMP cache

A directory keeps, for each block it has an entry for, the caches that may hold the
block. The part all directories share turns the answers to snoops and requests into
changes of the sharers.
-/

namespace nFastCMPCache

open nCMPCache (MemoryMessageType)

/-- The functional cache writes `NoRequest` for the last message type. -/
abbrev NoRequest : MemoryMessageType := .NumMemoryMessageTypes

/-- One bit for each index of a cache. The code has `MAX_NUM_SHARERS` of them. -/
structure SharingVector (n : Nat) where
  sharers : Fin n → Bool

namespace SharingVector

variable {n : Nat}

def empty : SharingVector n := { sharers := fun _ => false }

def addSharer (v : SharingVector n) (index : Fin n) : SharingVector n :=
  { sharers := Function.update v.sharers index true }

def removeSharer (v : SharingVector n) (index : Fin n) : SharingVector n :=
  { sharers := Function.update v.sharers index false }

def isSharer (v : SharingVector n) (index : Fin n) : Bool := v.sharers index

/-- The sharers in increasing order. -/
def toList (v : SharingVector n) : List (Fin n) := (List.finRange n).filter v.sharers

def countSharers (v : SharingVector n) : Nat := v.toList.length

variable {v w : SharingVector n} {i j : Fin n}

@[simp]
theorem isSharer_addSharer : (v.addSharer i).isSharer j = (decide (j = i) || v.isSharer j) := by
  simp only [addSharer, isSharer, Function.update_apply]
  split
  · next h => simp [h]
  · next h => simp [h]

@[simp]
theorem isSharer_removeSharer : (v.removeSharer i).isSharer j = (!decide (j = i) && v.isSharer j) := by
  simp only [removeSharer, isSharer, Function.update_apply]
  split
  · next h => simp [h]
  · next h => simp [h]

@[simp]
theorem isSharer_empty : (empty : SharingVector n).isSharer j = false := rfl

theorem ext (h : ∀ i, v.isSharer i = w.isSharer i) : v = w := by
  cases v
  cases w
  exact congrArg mk (funext h)

theorem mem_toList : i ∈ v.toList ↔ v.isSharer i = true := by
  simp [toList, isSharer]

theorem nodup_toList : v.toList.Nodup := (List.nodup_finRange n).filter _

theorem countSharers_eq_zero : v.countSharers = 0 ↔ ∀ i, v.isSharer i = false := by
  rw [countSharers, List.length_eq_zero_iff, List.eq_nil_iff_forall_not_mem]
  simp [mem_toList]

theorem toList_of_unique (h : ∀ j, v.isSharer j = true ↔ j = i) : v.toList = [i] := by
  rw [← List.perm_singleton, List.perm_ext_iff_of_nodup nodup_toList (List.nodup_singleton i)]
  simp [mem_toList, h]

theorem countSharers_eq_one : v.countSharers = 1 ↔ ∃ i, ∀ j, v.isSharer j = true ↔ j = i := by
  constructor
  · intro h
    obtain ⟨i, hi⟩ := List.length_eq_one_iff.mp h
    exact ⟨i, fun j => by rw [← mem_toList, hi, List.mem_singleton]⟩
  · rintro ⟨i, hi⟩
    rw [countSharers, toList_of_unique hi, List.length_singleton]

end SharingVector

inductive SharingState where
  | ZeroSharers | OneSharer | ManySharers
  deriving DecidableEq, Repr

/-- The sharing state that goes with a vector. -/
def SharingVector.state {n : Nat} (v : SharingVector n) : SharingState :=
  match v.countSharers with
  | 0 => .ZeroSharers
  | 1 => .OneSharer
  | _ => .ManySharers

namespace SharingVector

variable {n : Nat} {v : SharingVector n}

theorem state_eq_zero : v.state = .ZeroSharers ↔ ∀ i, v.isSharer i = false := by
  rw [← countSharers_eq_zero, state]
  split <;> simp_all

theorem state_eq_one : v.state = .OneSharer ↔ ∃ i, ∀ j, v.isSharer j = true ↔ j = i := by
  rw [← countSharers_eq_one, state]
  split <;> simp_all

theorem state_of_count (h : 2 ≤ v.countSharers) : v.state = .ManySharers := by
  unfold state
  split
  · omega
  · omega
  · rfl

end SharingVector

/-- An entry of a directory: the sharers of a block. -/
structure BlockDirectoryEntry (n : Nat) where
  theAddress : Nat
  theSharers : SharingVector n
  theState : SharingState

namespace BlockDirectoryEntry

variable {n : Nat}

def new (addr : Nat) : BlockDirectoryEntry n :=
  { theAddress := addr, theSharers := .empty, theState := .ZeroSharers }

def addSharer (e : BlockDirectoryEntry n) (index : Fin n) : BlockDirectoryEntry n :=
  let sharers := e.theSharers.addSharer index
  { e with theSharers := sharers
           theState := if sharers.countSharers = 1 then .OneSharer else .ManySharers }

/-- Only the one sharer there is can be made exclusive. -/
def makeExclusive (e : BlockDirectoryEntry n) (index : Fin n) : Option (BlockDirectoryEntry n) :=
  if e.theSharers.isSharer index ∧ e.theSharers.countSharers = 1 then
    some { e with theState := .OneSharer }
  else none

def removeSharer (e : BlockDirectoryEntry n) (index : Fin n) : BlockDirectoryEntry n :=
  let sharers := e.theSharers.removeSharer index
  { e with theSharers := sharers
           theState := if sharers.countSharers = 0 then .ZeroSharers
             else if sharers.countSharers = 1 then .OneSharer else e.theState }

/-- The entry starts again for another block. -/
def reset (_e : BlockDirectoryEntry n) (addr : Nat) : BlockDirectoryEntry n := new addr

/-- The state of an entry is the one that goes with its sharers. -/
def Consistent (e : BlockDirectoryEntry n) : Prop := e.theState = e.theSharers.state

variable {e : BlockDirectoryEntry n} {i : Fin n}

theorem consistent_new (addr : Nat) : (new addr : BlockDirectoryEntry n).Consistent :=
  (SharingVector.state_eq_zero.mpr fun _ => rfl).symm

theorem Consistent.addSharer (i : Fin n) : (e.addSharer i).Consistent := by
  have hmem : i ∈ (e.theSharers.addSharer i).toList := by simp [SharingVector.mem_toList]
  have hpos : 0 < (e.theSharers.addSharer i).countSharers := List.length_pos_of_mem hmem
  change (if (e.theSharers.addSharer i).countSharers = 1 then SharingState.OneSharer
    else .ManySharers) = (e.theSharers.addSharer i).state
  split
  · next h => exact (SharingVector.state_eq_one.mpr (SharingVector.countSharers_eq_one.mp h)).symm
  · exact (SharingVector.state_of_count (by omega)).symm

theorem Consistent.removeSharer (h : e.Consistent) (i : Fin n) : (e.removeSharer i).Consistent := by
  change (if (e.theSharers.removeSharer i).countSharers = 0 then SharingState.ZeroSharers
    else if (e.theSharers.removeSharer i).countSharers = 1 then .OneSharer else e.theState) =
      (e.theSharers.removeSharer i).state
  split
  · next h0 => exact (SharingVector.state_eq_zero.mpr (SharingVector.countSharers_eq_zero.mp h0)).symm
  · split
    · next h1 => exact (SharingVector.state_eq_one.mpr (SharingVector.countSharers_eq_one.mp h1)).symm
    · have hmany : 2 ≤ (e.theSharers.removeSharer i).countSharers := by omega
      have hle : (e.theSharers.removeSharer i).countSharers ≤ e.theSharers.countSharers := by
        apply List.Sublist.length_le
        refine List.monotone_filter_right _ fun j => ?_
        simp only [SharingVector.removeSharer, Function.update_apply]
        split <;> simp
      rw [h, SharingVector.state_of_count (by omega), SharingVector.state_of_count hmany]

theorem makeExclusive_of_unique (h : ∀ j, e.theSharers.isSharer j = true ↔ j = i) :
    e.makeExclusive i = some { e with theState := .OneSharer } := by
  unfold makeExclusive
  rw [if_pos ⟨(h i).mpr rfl, SharingVector.countSharers_eq_one.mpr ⟨i, h⟩⟩]

end BlockDirectoryEntry

/-- What a kind of directory does to the sharers of a block. `none` is a failed assertion. -/
structure SharerOperations (n : Nat) where
  Directory : Type
  Entry : Type
  addSharer : Fin n → Entry → Nat → Directory → Option Directory
  addExclusiveSharer : Fin n → Entry → Nat → Directory → Option Directory
  removeSharer : Fin n → Entry → Nat → Directory → Option Directory
  failedSnoop : Fin n → Entry → Nat → Directory → Option Directory
  makeSharerExclusive : Fin n → Entry → Nat → Directory → Option Directory

namespace SharerOperations

variable {n : Nat} (D : SharerOperations n)

def processSnoopResponse (index : Fin n) (type : MemoryMessageType) (dir_entry : D.Entry)
    (address : Nat) (dir : D.Directory) : Option D.Directory :=
  match type with
  | .Invalidate | .ReturnNAck => D.failedSnoop index dir_entry address dir
  | .InvalidateAck | .InvUpdateAck => D.removeSharer index dir_entry address dir
  | .ReturnReply | .ReturnReplyDirty | .DowngradeAck | .DownUpdateAck => some dir
  | _ => none

def processRequestResponse (index : Fin n) (request response : MemoryMessageType)
    (dir_entry : D.Entry) (address : Nat) (dir : D.Directory) : Option D.Directory :=
  match request with
  | .EvictClean | .EvictWritable | .EvictDirty => D.removeSharer index dir_entry address dir
  | .UpgradeReq =>
    if response = .UpgradeReply then D.makeSharerExclusive index dir_entry address dir else none
  | _ =>
    match response with
    | .MissReply | .FwdReplyOwned => D.addSharer index dir_entry address dir
    | .MissReplyWritable | .MissReplyDirty => D.addExclusiveSharer index dir_entry address dir
    | .NonAllocatingStoreReply => some dir
    | _ => none

end SharerOperations

/-- A kind of directory. A lookup may leave actions that are carried out later in the
    request: each reads the directory when it is run, and says which caches are to
    invalidate which block. -/
structure AbstractDirectory (n : Nat) extends SharerOperations n where
  lookup : Fin n → Nat → MemoryMessageType → Directory →
    Directory × SharingVector n × SharingState × Entry × List (Directory → Nat × SharingVector n)
  respond : Fin n → MemoryMessageType → MemoryMessageType → Entry → Nat → Directory → Option Directory

end nFastCMPCache
