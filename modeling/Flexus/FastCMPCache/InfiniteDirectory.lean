import Flexus.FastCMPCache.FastCMPCache

/-!
# The directory without bounds

An entry is made when a block gets its first sharer and goes when the last sharer evicts
the block.
-/

namespace nFastCMPCache

open nCMPCache (MemoryMessageType)

variable {n : Nat}

/-- The entries by address. -/
abbrev inf_directory_t (n : Nat) := Nat → Option (BlockDirectoryEntry n)

namespace InfiniteDirectory

/-- The entry for an address; it is made if it is not there. -/
def findOrCreateEntry (addr : Nat) (dir : inf_directory_t n) : BlockDirectoryEntry n :=
  (dir addr).getD (.new addr)

def put (addr : Nat) (e : BlockDirectoryEntry n) (dir : inf_directory_t n) : inf_directory_t n :=
  Function.update dir addr (some e)

section Put

variable {addr b : Nat} {e : BlockDirectoryEntry n} {dir : inf_directory_t n}

theorem put_self : put addr e dir addr = some e := Function.update_self ..

theorem put_of_ne (h : b ≠ addr) : put addr e dir b = dir b := Function.update_of_ne h ..

theorem findOrCreateEntry_put : findOrCreateEntry addr (put addr e dir) = e := by
  rw [findOrCreateEntry, put_self, Option.getD_some]

end Put

def addSharer (index : Fin n) (address : Nat) (dir : inf_directory_t n) : inf_directory_t n :=
  put address ((findOrCreateEntry address dir).addSharer index) dir

def addExclusiveSharer (index : Fin n) (address : Nat) (dir : inf_directory_t n) :
    Option (inf_directory_t n) := do
  let e ← ((findOrCreateEntry address dir).addSharer index).makeExclusive index
  some (put address e dir)

/-- The lookup found an entry or not; without one there is nothing to remove. -/
def removeSharer (index : Fin n) (found : Bool) (address : Nat) (dir : inf_directory_t n) :
    inf_directory_t n :=
  if found then put address ((findOrCreateEntry address dir).removeSharer index) dir else dir

def makeSharerExclusive (index : Fin n) (found : Bool) (address : Nat) (dir : inf_directory_t n) :
    Option (inf_directory_t n) :=
  if found then do
    let e ← (findOrCreateEntry address dir).makeExclusive index
    some (put address e dir)
  else some dir

abbrev operations (n : Nat) : SharerOperations n where
  Directory := inf_directory_t n
  Entry := Bool
  addSharer := fun index _ address dir => some (addSharer index address dir)
  addExclusiveSharer := fun index _ address dir => addExclusiveSharer index address dir
  removeSharer := fun index found address dir => some (removeSharer index found address dir)
  failedSnoop := fun index found address dir => some (removeSharer index found address dir)
  makeSharerExclusive := makeSharerExclusive

/-- After an eviction an entry without sharers is erased. -/
def processRequestResponse (index : Fin n) (request response : MemoryMessageType) (found : Bool)
    (address : Nat) (dir : inf_directory_t n) : Option (inf_directory_t n) := do
  let dir ← (operations n).processRequestResponse index request response found address dir
  if request.isEvictType && found && (findOrCreateEntry address dir).theState == .ZeroSharers then
    some (Function.update dir address none)
  else some dir

/-! ## What an answer does to the entry of a block -/

/-- Only the entry of one block has changed, and there only whether one cache is a sharer. -/
structure Responded (i : Fin n) (present : Bool) (blk : Nat) (dir dir' : inf_directory_t n) : Prop where
  entries : ∀ b, b ≠ blk → dir' b = dir b
  consistent : (findOrCreateEntry blk dir').Consistent
  sharers : ∀ j, (findOrCreateEntry blk dir').theSharers.isSharer j =
    if j = i then present else (findOrCreateEntry blk dir).theSharers.isSharer j

section Responses

variable {i : Fin n} {blk : Nat} {dir : inf_directory_t n} {request response : MemoryMessageType}
  {found : Bool}

theorem respond_of {dir' : inf_directory_t n} (hrequest : request.isEvictType = false)
    (h : (operations n).processRequestResponse i request response found blk dir = some dir') :
    processRequestResponse i request response found blk dir = some dir' := by
  unfold processRequestResponse
  rw [h]
  simp [hrequest]

theorem responded_addSharer : Responded i true blk dir (addSharer i blk dir) where
  entries := fun _ hb => put_of_ne hb
  consistent := by
    rw [addSharer, findOrCreateEntry_put]
    exact BlockDirectoryEntry.Consistent.addSharer i
  sharers := by
    intro j
    rw [addSharer, findOrCreateEntry_put]
    by_cases hj : j = i
    · simp [BlockDirectoryEntry.addSharer, hj]
    · simp [BlockDirectoryEntry.addSharer, hj]

/-- A cache can become the exclusive sharer of a block that no other cache shares. -/
theorem addExclusiveSharer_eq
    (halone : ∀ j, j ≠ i → (findOrCreateEntry blk dir).theSharers.isSharer j = false) :
    addExclusiveSharer i blk dir = some (addSharer i blk dir) := by
  have hunique : ∀ j, ((findOrCreateEntry blk dir).addSharer i).theSharers.isSharer j = true ↔ j = i := by
    intro j
    by_cases hj : j = i
    · simp [BlockDirectoryEntry.addSharer, hj]
    · simp [BlockDirectoryEntry.addSharer, hj, halone j hj]
  have hstate : ((findOrCreateEntry blk dir).addSharer i).theState = .OneSharer := by
    rw [BlockDirectoryEntry.Consistent.addSharer i]
    exact SharingVector.state_eq_one.mpr ⟨i, hunique⟩
  unfold addExclusiveSharer
  rw [BlockDirectoryEntry.makeExclusive_of_unique hunique, ← hstate]
  rfl

/-- A cache that misses becomes a sharer, whatever kind of reply it gets, if a reply that
    allows writing finds no other sharer. -/
theorem respond_miss (hrequest : request = .ReadReq ∨ request = .FetchReq ∨ request = .WriteReq)
    (hresponse : response = .MissReply ∨ (response = .MissReplyWritable ∨ response = .MissReplyDirty) ∧
      ∀ j, j ≠ i → (findOrCreateEntry blk dir).theSharers.isSharer j = false) :
    processRequestResponse i request response found blk dir = some (addSharer i blk dir) := by
  have hevict : request.isEvictType = false := by
    rcases hrequest with h | h | h <;> rw [h] <;> rfl
  apply respond_of hevict
  rcases hresponse with rfl | ⟨hwritable, halone⟩
  · rcases hrequest with rfl | rfl | rfl <;> rfl
  · have h := addExclusiveSharer_eq halone
    rcases hrequest with rfl | rfl | rfl <;> rcases hwritable with rfl | rfl <;> exact h

theorem respond_upgrade (hfound : found = true)
    (hunique : ∀ j, (findOrCreateEntry blk dir).theSharers.isSharer j = true ↔ j = i) :
    ∃ dir', processRequestResponse i .UpgradeReq .UpgradeReply found blk dir = some dir' ∧
      Responded i true blk dir dir' := by
  subst hfound
  refine ⟨put blk { findOrCreateEntry blk dir with theState := .OneSharer } dir, respond_of rfl ?_,
    fun _ hb => put_of_ne hb, ?_, fun j => ?_⟩
  · change makeSharerExclusive i true blk dir = _
    unfold makeSharerExclusive
    rw [BlockDirectoryEntry.makeExclusive_of_unique hunique]
    rfl
  · rw [findOrCreateEntry_put]
    exact (SharingVector.state_eq_one.mpr ⟨i, hunique⟩).symm
  · rw [findOrCreateEntry_put]
    split
    · next hj => exact (hunique j).mpr hj
    · rfl

theorem responded_removeSharer (hconsistent : (findOrCreateEntry blk dir).Consistent) :
    Responded i false blk dir (removeSharer i true blk dir) where
  entries := fun _ hb => put_of_ne hb
  consistent := by
    simp only [removeSharer, if_true, findOrCreateEntry_put]
    exact hconsistent.removeSharer i
  sharers := by
    intro j
    simp only [removeSharer, if_true, findOrCreateEntry_put]
    by_cases hj : j = i
    · simp [BlockDirectoryEntry.removeSharer, hj]
    · simp [BlockDirectoryEntry.removeSharer, hj]

/-- An eviction removes the sharer; an entry that is erased had no other. -/
theorem respond_evict (response : MemoryMessageType) (hrequest : request.isEvictType = true) (hfound : found = true)
    (hconsistent : (findOrCreateEntry blk dir).Consistent) :
    ∃ dir', processRequestResponse i request response found blk dir = some dir' ∧
      Responded i false blk dir dir' := by
  subst hfound
  have hremove : (operations n).processRequestResponse i request response true blk dir =
      some (removeSharer i true blk dir) := by
    cases request <;> first | rfl | cases hrequest
  have hresponded := responded_removeSharer (i := i) hconsistent
  unfold processRequestResponse
  rw [hremove]
  simp only [Option.bind_eq_bind, Option.bind_some, hrequest, Bool.true_and, beq_iff_eq]
  split
  · next hzero =>
    have hnone := SharingVector.state_eq_zero.mp (hresponded.consistent.symm.trans hzero)
    have hnew : findOrCreateEntry blk (Function.update (removeSharer i true blk dir) blk none) = .new blk := by
      rw [findOrCreateEntry, Function.update_self, Option.getD_none]
    refine ⟨_, rfl, fun b hb => ?_, ?_, fun j => ?_⟩
    · rw [Function.update_of_ne hb]
      exact hresponded.entries b hb
    · rw [hnew]
      exact BlockDirectoryEntry.consistent_new blk
    · rw [hnew, ← hresponded.sharers j, hnone j]
      rfl
  · exact ⟨_, rfl, hresponded⟩

end Responses

end InfiniteDirectory

open InfiniteDirectory in
/-- The directory without bounds as one of the directories of the cache. A lookup leaves no
    actions for later. -/
abbrev InfiniteDirectory (n : Nat) : AbstractDirectory n where
  toSharerOperations := operations n
  lookup := fun _ address _ dir =>
    (dir, (findOrCreateEntry address dir).theSharers, (findOrCreateEntry address dir).theState,
      (dir address).isSome, [])
  respond := processRequestResponse

end nFastCMPCache
