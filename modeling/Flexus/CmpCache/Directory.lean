import Flexus.CmpCache.Message
import Flexus.Lib.Keyed
import Mathlib.Data.List.MinMax

/-!
# The directory and its evict buffer

Which cores may hold a block. A directory set whose ways are all protected cannot
take another block; a block that loses its way while cores still share it moves
to the evict buffer, from where it is invalidated in the cores.
-/

namespace nCMPCache

/-- The cores that share a block, one bit each. -/
structure SimpleDirectoryState where
  theSharers : List Bool
  deriving DecidableEq, Repr

namespace SimpleDirectoryState

/-- No sharers, for so many cores. -/
def create (aNumSharers : Nat) : SimpleDirectoryState := ⟨List.replicate aNumSharers false⟩

def isSharer (s : SimpleDirectoryState) (sharer : Int) : Bool :=
  0 ≤ sharer && s.theSharers.getD sharer.toNat false

def countSharers (s : SimpleDirectoryState) : Nat := s.theSharers.count true

def noSharers (s : SimpleDirectoryState) : Bool := s.countSharers == 0

def oneSharer (s : SimpleDirectoryState) : Bool := s.countSharers == 1

def getSharerList (s : SimpleDirectoryState) : List Int :=
  (s.theSharers.zipIdx.filter fun b => b.1).map fun b => (b.2 : Int)

def getOtherSharers (s : SimpleDirectoryState) (exclude : Int) : List Int :=
  s.getSharerList.filter fun n => n != exclude

def getFirstSharer (s : SimpleDirectoryState) : Int := s.getSharerList.headD (-1)

/-- Set the bit of a core; a core the bitset has no bit for is an error. -/
def set (s : SimpleDirectoryState) (sharer : Int) (b : Bool) : Except Fault SimpleDirectoryState :=
  if 0 ≤ sharer ∧ sharer.toNat < s.theSharers.length then .ok ⟨s.theSharers.set sharer.toNat b⟩
  else .error .sharerOutOfRange

def addSharer (s : SimpleDirectoryState) (sharer : Int) : Except Fault SimpleDirectoryState :=
  s.set sharer true

def removeSharer (s : SimpleDirectoryState) (sharer : Int) : Except Fault SimpleDirectoryState :=
  s.set sharer false

/-- Remove a core that may not be a sharer any more. -/
def dropSharer (s : SimpleDirectoryState) (sharer : Int) : Except Fault SimpleDirectoryState :=
  if s.isSharer sharer then s.removeSharer sharer else .ok s

/-- Add a core that may be a sharer already. -/
def joinSharer (s : SimpleDirectoryState) (sharer : Int) : Except Fault SimpleDirectoryState :=
  if s.isSharer sharer then .ok s else s.addSharer sharer

def setSharer (s : SimpleDirectoryState) (sharer : Int) : Except Fault SimpleDirectoryState :=
  (create s.theSharers.length).set sharer true

section Sharers

variable {s : SimpleDirectoryState} {n x : Int}

theorem mem_getSharerList : n ∈ s.getSharerList ↔ s.isSharer n = true := by
  simp only [getSharerList, isSharer, List.mem_map, List.mem_filter, Bool.and_eq_true, decide_eq_true_eq]
  constructor
  · rintro ⟨⟨b, i⟩, ⟨hmem, hb⟩, rfl⟩
    have hget := List.mem_zipIdx_iff_getElem?.mp hmem
    simp only at hb hget
    subst hb
    exact ⟨Int.natCast_nonneg i, by simp [List.getD_eq_getElem?_getD, hget]⟩
  · rintro ⟨hnonneg, hbit⟩
    have hget : s.theSharers[n.toNat]? = some true := by
      rw [List.getD_eq_getElem?_getD] at hbit
      cases hi : s.theSharers[n.toNat]? with
      | none => simp [hi] at hbit
      | some b => simpa [hi] using hbit
    exact ⟨(true, n.toNat), ⟨List.mem_zipIdx_iff_getElem?.mpr hget, rfl⟩, Int.toNat_of_nonneg hnonneg⟩

theorem length_getSharerList : s.getSharerList.length = s.countSharers := by
  have hcount : ∀ (l : List Bool) k, ((l.zipIdx k).filter fun b => b.1).length = l.count true := by
    intro l
    induction l with
    | nil => simp
    | cons b l ih =>
      intro k
      cases b with
      | true => simp [List.zipIdx_cons, ih]
      | false => simp [List.zipIdx_cons, ih]
  rw [getSharerList, List.length_map, hcount, countSharers]

theorem nodup_getSharerList : s.getSharerList.Nodup := by
  have hidx : ((s.theSharers.zipIdx.filter fun b => b.1).map Prod.snd).Nodup := by
    refine List.Nodup.sublist (List.filter_sublist.map _) ?_
    rw [List.zipIdx_map_snd]
    exact List.nodup_range'
  have hmap : s.getSharerList = ((s.theSharers.zipIdx.filter fun b => b.1).map Prod.snd).map Nat.cast := by
    rw [getSharerList, List.map_map]
    rfl
  rw [hmap]
  exact hidx.map Nat.cast_injective

theorem mem_getOtherSharers : n ∈ s.getOtherSharers x ↔ s.isSharer n = true ∧ n ≠ x := by
  simp [getOtherSharers, mem_getSharerList]

theorem nodup_getOtherSharers : (s.getOtherSharers x).Nodup := nodup_getSharerList.filter _

/-- Leaving out a sharer leaves one sharer less. -/
theorem length_getOtherSharers (hx : s.isSharer x = true) :
    (s.getOtherSharers x).length + 1 = s.countSharers := by
  have herase : s.getOtherSharers x = s.getSharerList.erase x :=
    (nodup_getSharerList.erase_eq_filter x).symm
  have hmem := mem_getSharerList.mpr hx
  rw [herase, List.length_erase_of_mem hmem, ← length_getSharerList]
  have := List.length_pos_of_mem hmem
  omega

/-- Leaving out no sharer leaves them all. -/
theorem getOtherSharers_eq (hx : s.isSharer x = false) : s.getOtherSharers x = s.getSharerList := by
  refine List.filter_eq_self.mpr fun n hn => ?_
  have hsharer := mem_getSharerList.mp hn
  simp only [bne_iff_ne, ne_eq]
  rintro rfl
  rw [hx] at hsharer
  cases hsharer

theorem isSharer_getFirstSharer (h : s.noSharers = false) : s.isSharer s.getFirstSharer = true := by
  rw [← mem_getSharerList, getFirstSharer]
  cases hl : s.getSharerList with
  | nil =>
    have hzero := length_getSharerList (s := s)
    rw [hl] at hzero
    simp [noSharers, ← hzero] at h
  | cons y l => simp

end Sharers

end SimpleDirectoryState

/-- A way of the directory. There is no valid bit: a way that was never used has
    tag zero and no sharers. -/
structure DirBlock where
  tag : MemoryAddress
  isProtected : Bool
  state : SimpleDirectoryState
  deriving DecidableEq, Repr

/-- The ways of each set. -/
structure StdDirectory where
  theSets : Nat → Nat → DirBlock

namespace StdDirectory

variable (cfg : CMPCacheInfo)

def create : StdDirectory :=
  ⟨fun _ _ => { tag := 0, isProtected := false, state := .create cfg.theCores }⟩

def makeSet (a : MemoryAddress) : Nat := cfg.makeDirSet (cfg.blockAddress a)

def sameSet (a b : MemoryAddress) : Bool := makeSet cfg a == makeSet cfg b

/-- The ways of the set that the block belongs to. -/
def ways (d : StdDirectory) (a : MemoryAddress) : List DirBlock :=
  (List.range cfg.theDirAssociativity).map (d.theSets (makeSet cfg a))

/-- The first way of the block's set that has its tag. -/
def way (d : StdDirectory) (a : MemoryAddress) : Option Nat :=
  (List.range cfg.theDirAssociativity).find? fun w =>
    (d.theSets (makeSet cfg a) w).tag == cfg.blockAddress a

/-- The block a lookup points to. -/
def lookup (d : StdDirectory) (a : MemoryAddress) : Option DirBlock :=
  (d.way cfg a).map (d.theSets (makeSet cfg a))

/-- Replace one way. -/
def set (d : StdDirectory) (i w : Nat) (b : DirBlock) : StdDirectory :=
  ⟨fun j v => if j = i ∧ v = w then b else d.theSets j v⟩

/-- Change the block a lookup points to. -/
def modify (d : StdDirectory) (a : MemoryAddress) (f : DirBlock → DirBlock) : StdDirectory :=
  match d.way cfg a with
  | some w => d.set (makeSet cfg a) w (f (d.theSets (makeSet cfg a) w))
  | none => d

def setProtected (d : StdDirectory) (a : MemoryAddress) (val : Bool) : StdDirectory :=
  d.modify cfg a fun b => { b with isProtected := val }

def setState (d : StdDirectory) (a : MemoryAddress) (s : SimpleDirectoryState) : StdDirectory :=
  d.modify cfg a fun b => { b with state := s }

/-- The first of the unprotected ways with the fewest sharers. -/
def pickVictim (d : StdDirectory) (a : MemoryAddress) : Option Nat :=
  ((List.range cfg.theDirAssociativity).filter fun w =>
    !(d.theSets (makeSet cfg a) w).isProtected).argmin fun w =>
      (d.theSets (makeSet cfg a) w).state.countSharers

/-- Give the block a way of its set. The victim is returned when it has sharers. -/
def allocate (d : StdDirectory) (a : MemoryAddress) (s : SimpleDirectoryState) :
    Option (StdDirectory × Option (MemoryAddress × SimpleDirectoryState)) :=
  match d.pickVictim cfg a with
  | none => none
  | some w =>
    let victim := d.theSets (makeSet cfg a) w
    some (d.set (makeSet cfg a) w { victim with tag := a, state := s },
      if victim.state.noSharers then none else some (victim.tag, victim.state))

section Lookups

variable {cfg : CMPCacheInfo} {d d' : StdDirectory} {a b : MemoryAddress} {w : Nat} {block : DirBlock}
  {f : DirBlock → DirBlock}

theorem way_spec (h : d.way cfg a = some w) :
    w < cfg.theDirAssociativity ∧ (d.theSets (makeSet cfg a) w).tag = cfg.blockAddress a :=
  ⟨List.mem_range.mp (List.mem_of_find?_eq_some h), by simpa using List.find?_some h⟩

theorem way_eq_none (h : d.way cfg a = none) (hw : w < cfg.theDirAssociativity) :
    (d.theSets (makeSet cfg a) w).tag ≠ cfg.blockAddress a := by
  simpa using List.find?_eq_none.mp h w (List.mem_range.mpr hw)

theorem lookup_eq_some (h : d.lookup cfg a = some block) :
    ∃ w, d.way cfg a = some w ∧ d.theSets (makeSet cfg a) w = block :=
  Option.map_eq_some_iff.mp h

theorem lookup_eq_none : d.lookup cfg a = none ↔ d.way cfg a = none := Option.map_eq_none_iff

/-- Where a block is found depends on the tags of its set only. -/
theorem way_congr (h : ∀ w, (d'.theSets (makeSet cfg a) w).tag = (d.theSets (makeSet cfg a) w).tag) :
    d'.way cfg a = d.way cfg a := by
  simp only [way, h]

theorem modify_theSets (hway : d.way cfg a = some w) (j v : Nat) :
    (d.modify cfg a f).theSets j v =
      if j = makeSet cfg a ∧ v = w then f (d.theSets (makeSet cfg a) w) else d.theSets j v := by
  simp only [modify, hway]
  rfl

theorem modify_of_way_none (hway : d.way cfg a = none) : d.modify cfg a f = d := by
  simp only [modify, hway]

theorem way_modify (hf : ∀ b, (f b).tag = b.tag) : (d.modify cfg a f).way cfg b = d.way cfg b := by
  cases hway : d.way cfg a with
  | none => rw [modify_of_way_none hway]
  | some w =>
    refine way_congr fun v => ?_
    rw [modify_theSets hway]
    split
    · next hv => rw [hf, hv.1, hv.2]
    · rfl

/-- Changing the entry of a block changes what a lookup of that block sees, and nothing
    else. -/
theorem lookup_modify (hf : ∀ b, (f b).tag = b.tag) :
    (d.modify cfg a f).lookup cfg b =
      if cfg.blockAddress b = cfg.blockAddress a then (d.lookup cfg a).map f else d.lookup cfg b := by
  unfold lookup
  rw [way_modify hf]
  cases hway : d.way cfg a with
  | none =>
    rw [modify_of_way_none hway]
    split
    · next hb =>
      have hsame : d.way cfg b = d.way cfg a := by rw [way, way, makeSet, makeSet, hb]
      rw [hsame, hway]
      rfl
    · rfl
  | some w =>
    obtain ⟨_, htag⟩ := way_spec hway
    split
    · next hb =>
      have hset : makeSet cfg b = makeSet cfg a := by rw [makeSet, makeSet, hb]
      have hsame : d.way cfg b = some w := by rw [← hway, way, way, hset, hb]
      rw [hsame, Option.map_some, Option.map_some, Option.map_some, modify_theSets hway, hset]
      simp
    · next hb =>
      refine Option.map_congr fun v hv => ?_
      obtain ⟨_, hvtag⟩ := way_spec hv
      rw [modify_theSets hway, if_neg]
      rintro ⟨hset, rfl⟩
      rw [hset, htag] at hvtag
      exact hb hvtag.symm

theorem lookup_setProtected {val : Bool} :
    (d.setProtected cfg a val).lookup cfg b =
      if cfg.blockAddress b = cfg.blockAddress a then
        (d.lookup cfg a).map fun block => { block with isProtected := val }
      else d.lookup cfg b :=
  lookup_modify fun _ => rfl

theorem lookup_setState {s : SimpleDirectoryState} :
    (d.setState cfg a s).lookup cfg b =
      if cfg.blockAddress b = cfg.blockAddress a then
        (d.lookup cfg a).map fun block => { block with state := s }
      else d.lookup cfg b :=
  lookup_modify fun _ => rfl

theorem lookup_blockAddress : d.lookup cfg (cfg.blockAddress a) = d.lookup cfg a := by
  simp only [lookup, way, makeSet, CMPCacheInfo.blockAddress_blockAddress]

/-- The victim is an unprotected way with the fewest sharers. -/
theorem pickVictim_spec (h : d.pickVictim cfg a = some w) :
    w < cfg.theDirAssociativity ∧ (d.theSets (makeSet cfg a) w).isProtected = false ∧
      ∀ v < cfg.theDirAssociativity, (d.theSets (makeSet cfg a) v).isProtected = false →
        (d.theSets (makeSet cfg a) w).state.countSharers ≤
          (d.theSets (makeSet cfg a) v).state.countSharers := by
  have hmem := List.argmin_mem (Option.mem_def.mpr h)
  simp only [List.mem_filter, List.mem_range, Bool.not_eq_true'] at hmem
  refine ⟨hmem.1, hmem.2, fun v hv hunprotected => ?_⟩
  refine List.le_of_mem_argmin (f := fun w => (d.theSets (makeSet cfg a) w).state.countSharers) ?_
    (Option.mem_def.mpr h)
  simp [hv, hunprotected]

/-- What `allocate` does: the block takes the way of a victim that is not protected, and
    lookups of every other block that was not in this way see what they saw. -/
theorem allocate_spec {s : SimpleDirectoryState} {victim : Option (MemoryAddress × SimpleDirectoryState)}
    (hfresh : d.lookup cfg a = none) (haligned : cfg.blockAddress a = a)
    (h : d.allocate cfg a s = some (d', victim)) :
    ∃ w, d.pickVictim cfg a = some w ∧
      d' = d.set (makeSet cfg a) w { d.theSets (makeSet cfg a) w with tag := a, state := s } ∧
      d'.lookup cfg a = some { d.theSets (makeSet cfg a) w with tag := a, state := s } ∧
      victim = (if (d.theSets (makeSet cfg a) w).state.noSharers then none
        else some ((d.theSets (makeSet cfg a) w).tag, (d.theSets (makeSet cfg a) w).state)) ∧
      ∀ b, cfg.blockAddress b ≠ a →
        (makeSet cfg b = makeSet cfg a → (d.theSets (makeSet cfg a) w).tag ≠ cfg.blockAddress b) →
        d'.lookup cfg b = d.lookup cfg b := by
  unfold allocate at h
  split at h
  · cases h
  · next w hw =>
    cases h
    obtain ⟨hlt, _, _⟩ := pickVictim_spec hw
    have hnone := lookup_eq_none.mp hfresh
    generalize hd' : d.set (makeSet cfg a) w { d.theSets (makeSet cfg a) w with tag := a, state := s } = d'
    have hsets : ∀ j v, d'.theSets j v = if j = makeSet cfg a ∧ v = w then
        { d.theSets (makeSet cfg a) w with tag := a, state := s } else d.theSets j v := by
      intro j v
      rw [← hd']
      rfl
    refine ⟨w, hw, hd'.symm, ?_, rfl, fun b hb hbw => ?_⟩
    · have hway : d'.way cfg a = some w := by
        refine List.find?_range_eq_some.mpr ⟨by simp [hsets, haligned], List.mem_range.mpr hlt, ?_⟩
        intro v hv
        simp [hsets, hv.ne, way_eq_none hnone (hv.trans hlt)]
      simp [lookup, hway, hsets]
    · have hway : d'.way cfg b = d.way cfg b := by
        have htag : ∀ v, ((d'.theSets (makeSet cfg b) v).tag == cfg.blockAddress b) =
            ((d.theSets (makeSet cfg b) v).tag == cfg.blockAddress b) := by
          intro v
          by_cases hv : makeSet cfg b = makeSet cfg a ∧ v = w
          · have hold : (d.theSets (makeSet cfg b) v).tag ≠ cfg.blockAddress b := by
              rw [hv.1, hv.2]
              exact hbw hv.1
            rw [hsets, if_pos hv]
            simp [Ne.symm hb, hold]
          · rw [hsets, if_neg hv]
        simp only [way, htag]
      rw [lookup, lookup, hway]
      refine Option.map_congr fun v hv => ?_
      rw [hsets, if_neg]
      rintro ⟨hset, rfl⟩
      have hvtag := (way_spec hv).2
      rw [hset] at hvtag
      exact hbw hset hvtag

end Lookups

end StdDirectory

/-- A block on its way out of the directory. The invalidates are counted down by
    the acknowledgements, so a count other than zero means some are pending. -/
structure DirEBEntry where
  address : MemoryAddress
  state : SimpleDirectoryState
  invalidatesPending : Int := 0
  cacheEBReserved : Int := 0
  deriving DecidableEq, Repr

def DirEBEntry.invalidatesRequired (e : DirEBEntry) : Bool := e.invalidatesPending == 0

/-- The directory evict buffer, oldest entry first; addresses are unique. -/
structure DirEvictBuffer where
  entries : List DirEBEntry
  theSize : Nat
  theCurSize : Int
  thePendingInvalidates : Int
  unique : (entries.map DirEBEntry.address).Nodup

namespace DirEvictBuffer

def create (aSize : Nat) : DirEvictBuffer where
  entries := []
  theSize := aSize
  theCurSize := 0
  thePendingInvalidates := 0
  unique := List.nodup_nil

def find (b : DirEvictBuffer) (a : MemoryAddress) : Option DirEBEntry :=
  Keyed.lookup DirEBEntry.address b.entries a

/-- The counter goes up even when the address is there already and the unique index
    refuses the entry. -/
def insert (b : DirEvictBuffer) (a : MemoryAddress) (s : SimpleDirectoryState) : DirEvictBuffer :=
  if h : a ∈ b.entries.map DirEBEntry.address then { b with theCurSize := b.theCurSize + 1 }
  else
    { b with
      entries := b.entries ++ [{ address := a, state := s }]
      theCurSize := b.theCurSize + 1
      unique := Keyed.nodup_append_singleton b.unique h }

/-- Change an entry in place. -/
def modify (b : DirEvictBuffer) (a : MemoryAddress) (f : DirEBEntry → DirEBEntry)
    (hf : ∀ e, (f e).address = e.address) : DirEvictBuffer :=
  { b with
    entries := Keyed.alter DirEBEntry.address a f b.entries
    unique := (Keyed.map_alter hf).symm ▸ b.unique }

def remove (b : DirEvictBuffer) (a : MemoryAddress) : DirEvictBuffer :=
  { b with
    entries := Keyed.erase DirEBEntry.address a b.entries
    theCurSize := b.theCurSize - 1
    thePendingInvalidates :=
      if (b.find a).any fun e => e.invalidatesPending != 0 then b.thePendingInvalidates - 1
      else b.thePendingInvalidates
    unique := Keyed.nodup_erase b.unique }

def setState (b : DirEvictBuffer) (a : MemoryAddress) (s : SimpleDirectoryState) : DirEvictBuffer :=
  b.modify a (fun e => { e with state := s }) fun _ => rfl

def setCacheEBReserved (b : DirEvictBuffer) (a : MemoryAddress) (n : Int) : DirEvictBuffer :=
  b.modify a (fun e => { e with cacheEBReserved := n }) fun _ => rfl

def completeInvalidate (b : DirEvictBuffer) (a : MemoryAddress) : DirEvictBuffer :=
  { b.modify a (fun e => { e with invalidatesPending := e.invalidatesPending - 1 }) fun _ => rfl with
    thePendingInvalidates :=
      if (b.find a).any fun e => e.invalidatesPending == 1 then b.thePendingInvalidates - 1
      else b.thePendingInvalidates }

def setInvalidatesPending (b : DirEvictBuffer) (a : MemoryAddress) (count : Int) : DirEvictBuffer :=
  { b.modify a (fun e => { e with invalidatesPending := count }) fun _ => rfl with
    thePendingInvalidates := b.thePendingInvalidates + 1 }

def empty (b : DirEvictBuffer) : Bool := b.entries.isEmpty

/-- With so many places reserved, no further one can be. -/
def full (b : DirEvictBuffer) (reserve : Int) : Bool := b.theSize ≤ b.theCurSize + reserve

def freeSlotsPending (b : DirEvictBuffer) (reserve : Int) : Bool :=
  0 < b.thePendingInvalidates || b.theCurSize + reserve < b.theSize

/-- Only the newest entry is looked at. -/
def idleWorkReady (b : DirEvictBuffer) : Bool :=
  b.entries.getLast?.any DirEBEntry.invalidatesRequired

def oldestRequiringInvalidates (b : DirEvictBuffer) : Option DirEBEntry :=
  b.entries.find? DirEBEntry.invalidatesRequired

section Lookups

variable {b : DirEvictBuffer} {a x : MemoryAddress} {s : SimpleDirectoryState}

theorem find_insert :
    (b.insert a s).find x =
      (b.find x).or (if a = x then some { address := a, state := s } else none) := by
  unfold insert
  split
  · next hmem =>
    by_cases hax : a = x
    · subst hax
      cases hfind : b.find a with
      | none => exact absurd hmem (Keyed.lookup_eq_none.mp hfind)
      | some e => exact hfind
    · simp only [hax, if_false, Option.or_none]
      rfl
  · exact Keyed.lookup_append_singleton

theorem find_modify {f : DirEBEntry → DirEBEntry} (hf : ∀ e, (f e).address = e.address) :
    (b.modify a f hf).find x = if x = a then (b.find a).map f else b.find x :=
  Keyed.lookup_alter hf

theorem find_remove : (b.remove a).find x = if x = a then none else b.find x :=
  Keyed.lookup_erase

theorem find_setState :
    (b.setState a s).find x =
      if x = a then (b.find a).map fun e => { e with state := s } else b.find x :=
  find_modify (f := fun e => { e with state := s }) fun _ => rfl

theorem find_setCacheEBReserved {n : Int} :
    (b.setCacheEBReserved a n).find x =
      if x = a then (b.find a).map fun e => { e with cacheEBReserved := n } else b.find x :=
  find_modify (f := fun e => { e with cacheEBReserved := n }) fun _ => rfl

theorem find_completeInvalidate :
    (b.completeInvalidate a).find x =
      if x = a then (b.find a).map fun e => { e with invalidatesPending := e.invalidatesPending - 1 }
      else b.find x :=
  find_modify (f := fun e => { e with invalidatesPending := e.invalidatesPending - 1 }) fun _ => rfl

theorem find_setInvalidatesPending {count : Int} :
    (b.setInvalidatesPending a count).find x =
      if x = a then (b.find a).map fun e => { e with invalidatesPending := count } else b.find x :=
  find_modify (f := fun e => { e with invalidatesPending := count }) fun _ => rfl

end Lookups

end DirEvictBuffer

end nCMPCache
