import Flexus.FastCMPCache.TaglessHashes
import Flexus.Lib.Runs

/-!
# The tagless directory

A block has one bucket for each hash function, and the directory answers with the sharers that
all its buckets have in common. Next to them it keeps the exact sharers of each block.
-/

namespace nFastCMPCache

open nCMPCache (MemoryMessageType)

namespace SharingVector

variable {n : Nat} {v w : SharingVector n} {i : Fin n}

def inter (v w : SharingVector n) : SharingVector n := { sharers := fun i => v.sharers i && w.sharers i }

@[simp]
theorem isSharer_inter : (v.inter w).isSharer i = (v.isSharer i && w.isSharer i) := rfl

end SharingVector

/-- Keep the sharers that another entry has too. -/
def BlockDirectoryEntry.inter {n : Nat} (e e' : BlockDirectoryEntry n) : BlockDirectoryEntry n :=
  let sharers := e.theSharers.inter e'.theSharers
  { e with theSharers := sharers
           theState := if sharers.countSharers = 1 then .OneSharer
             else if sharers.countSharers = 0 then .ZeroSharers else .ManySharers }

/-- A bucket knows the exact entries of its blocks by reference. -/
structure TaglessDirectoryBucket (n : Nat) where
  theTaglessEntry : BlockDirectoryEntry n
  thePreciseDirectory : Nat → Option Nat

structure TaglessLookupResult (n : Nat) where
  theBuckets : List (Nat × Nat)
  theTrueState : Nat
  theTaglessState : BlockDirectoryEntry n

/-- The buckets by set and index, and the exact entries that were created so far. -/
structure TaglessDirectory (n : Nat) where
  theDirectory : Nat → Nat → TaglessDirectoryBucket n
  theEntries : Nat → BlockDirectoryEntry n
  created : Nat

namespace TaglessSizes

variable (d : TaglessSizes)

def get_set (addr : Nat) : Nat := (addr >>> d.theSetShift) &&& d.theSetMask

def bucket_offset : Nat := if d.thePartitioned then d.theNumBuckets else 0

/-- The hash functions with the first bucket of each. -/
def slotsFrom : Nat → List HashPolicy → List (HashPolicy × Nat)
  | _, [] => []
  | first_bucket, p :: ps => (p, first_bucket) :: slotsFrom (first_bucket + d.bucket_offset) ps

def slots : List (HashPolicy × Nat) := d.slotsFrom 0 d.hash_fns

def bucketIndex (addr : Nat) (slot : HashPolicy × Nat) : Nat := d.hash slot.1 addr + slot.2

/-- The buckets of a block. -/
def bucketsOf (addr : Nat) : List (Nat × Nat) :=
  d.slots.map fun slot => (d.get_set addr, d.bucketIndex addr slot)

/-- Whether some other one of the tags needs a bucket of a block. -/
def needed (address : Nat) (tags : List Nat) (slot : HashPolicy × Nat) : Bool :=
  tags.any fun tag => tag != address &&
    if d.thePartitioned then d.bucketIndex tag slot == d.bucketIndex address slot
    else d.hash_fns.any fun p => d.hash p tag == d.bucketIndex address slot

end TaglessSizes

namespace TaglessDirectory

variable {n : Nat}

def create : TaglessDirectory n where
  theDirectory := fun _ _ => { theTaglessEntry := .new 0, thePreciseDirectory := fun _ => none }
  theEntries := fun _ => .new 0
  created := 0

def bucket (dir : TaglessDirectory n) (place : Nat × Nat) : TaglessDirectoryBucket n :=
  dir.theDirectory place.1 place.2

def setBucket (dir : TaglessDirectory n) (place : Nat × Nat) (b : TaglessDirectoryBucket n) :
    TaglessDirectory n :=
  { dir with theDirectory :=
      Function.update dir.theDirectory place.1 (Function.update (dir.theDirectory place.1) place.2 b) }

/-- Change the sharers of a bucket. -/
def modifySharers (f : BlockDirectoryEntry n → BlockDirectoryEntry n) (dir : TaglessDirectory n)
    (place : Nat × Nat) : TaglessDirectory n :=
  dir.setBucket place { dir.bucket place with theTaglessEntry := f (dir.bucket place).theTaglessEntry }

/-- Change what a bucket knows of one block. -/
def modifyPrecise (addr : Nat) (f : Option Nat → Option Nat) (dir : TaglessDirectory n)
    (place : Nat × Nat) : TaglessDirectory n :=
  dir.setBucket place { dir.bucket place with
    thePreciseDirectory := Function.update (dir.bucket place).thePreciseDirectory addr
      (f ((dir.bucket place).thePreciseDirectory addr)) }

def modifyEntry (dir : TaglessDirectory n) (ref : Nat) (f : BlockDirectoryEntry n → BlockDirectoryEntry n) :
    TaglessDirectory n :=
  { dir with theEntries := Function.update dir.theEntries ref (f (dir.theEntries ref)) }

/-- A new exact entry, which is put in the buckets that do not know the block. -/
def createEntry (dir : TaglessDirectory n) (addr : Nat) (places : List (Nat × Nat)) : TaglessDirectory n :=
  places.foldl (modifyPrecise addr fun known => known.or (some dir.created))
    { dir with
      theEntries := Function.update dir.theEntries dir.created (.new addr)
      created := dir.created + 1 }

variable (d : TaglessSizes)

/-- Find the buckets and the exact entry of a block. A bucket index past the last bucket is
    an assertion failure. -/
def findOrCreateEntry (addr : Nat) (dir : TaglessDirectory n) :
    Option (TaglessDirectory n × TaglessLookupResult n) :=
  if (d.bucketsOf addr).all fun place => decide (place.2 < d.theTotalNumBuckets) then
    match d.bucketsOf addr with
    | [] => none
    | first :: rest =>
      let state := rest.foldl (fun e place => e.inter (dir.bucket place).theTaglessEntry)
        (dir.bucket first).theTaglessEntry
      match (dir.bucket first).thePreciseDirectory addr with
      | some ref => some (dir, { theBuckets := first :: rest, theTrueState := ref, theTaglessState := state })
      | none => some (dir.createEntry addr (first :: rest),
          { theBuckets := first :: rest, theTrueState := dir.created, theTaglessState := state })
  else none

def lookup (addr : Nat) (dir : TaglessDirectory n) :
    Option (TaglessDirectory n × SharingVector n × SharingState × TaglessLookupResult n) :=
  (findOrCreateEntry d addr dir).map fun (dir, block) =>
    (dir, block.theTaglessState.theSharers, block.theTaglessState.theState, block)

/-- Clear the bit of a cache in the buckets of a block that no other block of the cache
    needs. -/
def clearUnneeded (index : Fin n) (entry : TaglessLookupResult n) (address : Nat) (tags : List Nat)
    (dir : TaglessDirectory n) : TaglessDirectory n :=
  (d.slots.zip entry.theBuckets).foldl
    (fun dir x => if d.needed address tags x.1 then dir
      else dir.modifySharers (·.removeSharer index) x.2) dir

/-! ## The operations

The tags are those that the set-tag probe of the cache reports. -/

def addSharer (index : Fin n) (entry : TaglessLookupResult n) (dir : TaglessDirectory n) :
    TaglessDirectory n :=
  (entry.theBuckets.foldl (modifySharers (·.addSharer index)) dir).modifyEntry entry.theTrueState
    (·.addSharer index)

def makeSharerExclusive (index : Fin n) (entry : TaglessLookupResult n) (dir : TaglessDirectory n) :
    Option (TaglessDirectory n) :=
  ((dir.theEntries entry.theTrueState).makeExclusive index).map fun e =>
    dir.modifyEntry entry.theTrueState fun _ => e

def addExclusiveSharer (index : Fin n) (entry : TaglessLookupResult n) (dir : TaglessDirectory n) :
    Option (TaglessDirectory n) :=
  makeSharerExclusive index entry (addSharer index entry dir)

def removeSharer (index : Fin n) (entry : TaglessLookupResult n) (address : Nat) (tags : List Nat)
    (dir : TaglessDirectory n) : TaglessDirectory n :=
  let dir := dir.modifyEntry entry.theTrueState (·.removeSharer index)
  if d.theUpdateOnSnoop then clearUnneeded d index entry address tags dir else dir

abbrev operations (n : Nat) (tags : List Nat) : SharerOperations n where
  Directory := TaglessDirectory n
  Entry := TaglessLookupResult n
  addSharer := fun index entry _ dir => some (addSharer index entry dir)
  addExclusiveSharer := fun index entry _ dir => addExclusiveSharer index entry dir
  removeSharer := fun index entry address dir => some (removeSharer d index entry address tags dir)
  failedSnoop := fun index entry address dir => some (removeSharer d index entry address tags dir)
  makeSharerExclusive := fun index entry _ dir => makeSharerExclusive index entry dir

/-- What an eviction adds to the changes that all directories make. -/
def processRequestResponse (index : Fin n) (request response : MemoryMessageType)
    (entry : TaglessLookupResult n) (address : Nat) (tags : List Nat) (dir : TaglessDirectory n) :
    Option (TaglessDirectory n) :=
  ((operations d n tags).processRequestResponse index request response entry address dir).map fun dir =>
    if request.isEvictType then
      let dir := if (dir.theEntries entry.theTrueState).theState = .ZeroSharers then
          entry.theBuckets.foldl (modifyPrecise address fun _ => none) dir
        else dir
      clearUnneeded d index entry address tags dir
    else dir

end TaglessDirectory

/-! ## Runs -/

/-- The directory, and the blocks that each cache holds. -/
structure TaglessSystem (n : Nat) where
  dir : TaglessDirectory n
  held : Fin n → List Nat

/-- What is done to the directory. The entries come from lookups, the tags from set-tag
    probes. -/
inductive TaglessEvent (n : Nat) where
  | lookup (address : Nat)
  | addSharer (index : Fin n) (entry : TaglessLookupResult n) (address : Nat)
  | addExclusiveSharer (index : Fin n) (entry : TaglessLookupResult n) (address : Nat)
  | makeSharerExclusive (index : Fin n) (entry : TaglessLookupResult n) (address : Nat)
  | failedSnoop (index : Fin n) (entry : TaglessLookupResult n) (address : Nat) (tags : List Nat)
  | removeSharer (index : Fin n) (entry : TaglessLookupResult n) (address : Nat) (tags : List Nat)
  | evict (index : Fin n) (request response : MemoryMessageType) (entry : TaglessLookupResult n)
      (address : Nat) (tags : List Nat)

namespace TaglessSystem

variable {n : Nat}

def start : TaglessSystem n := { dir := .create, held := fun _ => [] }

/-- The cache has the block from now on. -/
def gain (s : TaglessSystem n) (index : Fin n) (address : Nat) (dir : TaglessDirectory n) :
    TaglessSystem n :=
  { dir := dir, held := Function.update s.held index (address :: s.held index) }

/-- The cache no longer has the block. -/
def lose (s : TaglessSystem n) (index : Fin n) (address : Nat) (dir : TaglessDirectory n) :
    TaglessSystem n :=
  { dir := dir, held := Function.update s.held index ((s.held index).filter fun a => a != address) }

variable (d : TaglessSizes)

/-- The exact entry that a lookup of the block finds. -/
def trueStateOf (dir : TaglessDirectory n) (address : Nat) : Option Nat :=
  match d.bucketsOf address with
  | [] => none
  | first :: _ => (dir.bucket first).thePreciseDirectory address

/-- The entry is that of a lookup of the block, and the block's exact entry was not dropped
    since. -/
def Current (dir : TaglessDirectory n) (entry : TaglessLookupResult n) (address : Nat) : Prop :=
  entry.theBuckets = d.bucketsOf address ∧ trueStateOf d dir address = some entry.theTrueState

instance (dir : TaglessDirectory n) (entry : TaglessLookupResult n) (address : Nat) :
    Decidable (Current d dir entry address) := inferInstanceAs (Decidable (_ ∧ _))

/-- A probe reports the blocks that the cache holds in the set of the address. Whether the
    block at the address itself is still there does not matter. -/
def Exact (s : TaglessSystem n) (index : Fin n) (address : Nat) (tags : List Nat) : Prop :=
  (∀ tag ∈ tags, tag = address ∨ tag ∈ s.held index ∧ d.get_set tag = d.get_set address) ∧
    ∀ tag ∈ s.held index, d.get_set tag = d.get_set address → tag ≠ address → tag ∈ tags

instance (s : TaglessSystem n) (index : Fin n) (address : Nat) (tags : List Nat) :
    Decidable (Exact d s index address tags) := inferInstanceAs (Decidable (_ ∧ _))

def step (s : TaglessSystem n) : TaglessEvent n → Except Unit (TaglessSystem n)
  | .lookup address =>
    match s.dir.lookup d address with
    | some found => .ok { s with dir := found.1 }
    | none => .error ()
  | .addSharer index entry address => .ok (s.gain index address (s.dir.addSharer index entry))
  | .addExclusiveSharer index entry address =>
    match s.dir.addExclusiveSharer index entry with
    | some dir => .ok (s.gain index address dir)
    | none => .error ()
  | .makeSharerExclusive index entry _ =>
    match s.dir.makeSharerExclusive index entry with
    | some dir => .ok { s with dir := dir }
    | none => .error ()
  | .failedSnoop index entry address tags =>
    .ok (s.lose index address (s.dir.removeSharer d index entry address tags))
  | .removeSharer index entry address tags =>
    .ok (s.lose index address (s.dir.removeSharer d index entry address tags))
  | .evict index request response entry address tags =>
    match s.dir.processRequestResponse d index request response entry address tags with
    | some dir => .ok (s.lose index address dir)
    | none => .error ()

/-- What a run may do: use entries while they are current, and answer probes exactly. -/
def Meets (s : TaglessSystem n) : TaglessEvent n → Prop
  | .lookup _ => True
  | .addSharer _ entry address => Current d s.dir entry address
  | .addExclusiveSharer _ entry address => Current d s.dir entry address
  | .makeSharerExclusive _ entry address => Current d s.dir entry address
  | .failedSnoop index entry address tags =>
    Current d s.dir entry address ∧ Exact d s index address tags
  | .removeSharer index entry address tags =>
    Current d s.dir entry address ∧ Exact d s index address tags
  | .evict index request _ entry address tags =>
    request.isEvictType = true ∧ Current d s.dir entry address ∧ Exact d s index address tags

instance (s : TaglessSystem n) : ∀ e : TaglessEvent n, Decidable (Meets d s e)
  | .lookup _ => .isTrue trivial
  | .addSharer _ entry address => inferInstanceAs (Decidable (Current d s.dir entry address))
  | .addExclusiveSharer _ entry address => inferInstanceAs (Decidable (Current d s.dir entry address))
  | .makeSharerExclusive _ entry address => inferInstanceAs (Decidable (Current d s.dir entry address))
  | .failedSnoop .. => inferInstanceAs (Decidable (_ ∧ _))
  | .removeSharer .. => inferInstanceAs (Decidable (_ ∧ _))
  | .evict .. => inferInstanceAs (Decidable (_ ∧ _ ∧ _))

abbrev Reachable : TaglessSystem n → Prop := Runs.Reaches (step d) (Meets d) start

/-- Every sharer that the exact entry of a looked up block has is one of those returned. -/
def Overapproximates (dir : TaglessDirectory n) : Prop :=
  ∀ address found, dir.lookup d address = some found →
    ∀ i, (found.1.theEntries found.2.2.2.theTrueState).theSharers.isSharer i = true →
      found.2.1.isSharer i = true

end TaglessSystem

/-- Every bucket index lies in the partition of its hash function, and below the number of
    all buckets. An unpartitioned directory is one partition. -/
def TaglessSizes.InPartition (d : TaglessSizes) : Prop :=
  ∀ addr, ∀ slot ∈ d.slots, slot.2 ≤ d.bucketIndex addr slot ∧
    d.bucketIndex addr slot < d.theTotalNumBuckets ∧
      (d.thePartitioned = true → d.bucketIndex addr slot < slot.2 + d.theNumBuckets)

namespace TaglessConfig

/-- The directory of the configuration comes into being, finds buckets inside their
    partitions, and never forgets a sharer. -/
def Sound (c : TaglessConfig) : Prop :=
  ∃ d, c.init = .ok d ∧ d.InPartition ∧
    ∀ n, ∀ s : TaglessSystem n, TaglessSystem.Reachable d s → TaglessSystem.Overapproximates d s.dir

/-- No policy that masks its values goes beyond the number of buckets to which the prime
    policies lowered the width of the partitions. -/
def Confined (c : TaglessConfig) : Prop :=
  ∀ d, c.init = .ok d → c.thePartitioned = false ∨ d.theNumBuckets = c.theNumBuckets ∨
    ∀ p ∈ c.theHashPolicyList, p.isPrime = false → ∀ addr, d.hash p addr < d.theNumBuckets

end TaglessConfig

/-! ## Buckets -/

namespace TaglessDirectory

variable {n : Nat} {d : TaglessSizes} {dir : TaglessDirectory n} {p q : Nat × Nat}
  {places : List (Nat × Nat)} {i index : Fin n} {addr : Nat}

/-- The bit of a cache in a bucket. -/
def bit (dir : TaglessDirectory n) (i : Fin n) (q : Nat × Nat) : Bool :=
  (dir.bucket q).theTaglessEntry.theSharers.isSharer i

def precise (dir : TaglessDirectory n) (q : Nat × Nat) (addr : Nat) : Option Nat :=
  (dir.bucket q).thePreciseDirectory addr

theorem bucket_setBucket {b : TaglessDirectoryBucket n} :
    (dir.setBucket p b).bucket q = if q = p then b else dir.bucket q := by
  change Function.update dir.theDirectory p.1 (Function.update (dir.theDirectory p.1) p.2 b) q.1 q.2 = _
  by_cases hset : q.1 = p.1
  · by_cases hway : q.2 = p.2
    · rw [if_pos (Prod.ext hset hway), hset, Function.update_self, hway, Function.update_self]
    · rw [if_neg fun heq => hway (by rw [heq]), hset, Function.update_self, Function.update_of_ne hway]
      change _ = dir.theDirectory q.1 q.2
      rw [hset]
  · rw [if_neg fun heq => hset (by rw [heq]), Function.update_of_ne hset]
    rfl

section Fields

variable {f : BlockDirectoryEntry n → BlockDirectoryEntry n} {h : Option Nat → Option Nat} {ref a : Nat}

theorem bit_modifySharers : (dir.modifySharers f p).bit i q =
    if q = p then (f (dir.bucket p).theTaglessEntry).theSharers.isSharer i else dir.bit i q := by
  unfold bit modifySharers
  rw [bucket_setBucket]
  split <;> rfl

@[simp]
theorem precise_modifySharers : (dir.modifySharers f p).precise q a = dir.precise q a := by
  unfold precise modifySharers
  rw [bucket_setBucket]
  split
  · next heq => rw [heq]
  · rfl

@[simp]
theorem bit_modifyPrecise : (dir.modifyPrecise addr h p).bit i q = dir.bit i q := by
  unfold bit modifyPrecise
  rw [bucket_setBucket]
  split
  · next heq => rw [heq]
  · rfl

theorem precise_modifyPrecise : (dir.modifyPrecise addr h p).precise q a =
    if q = p ∧ a = addr then h (dir.precise p addr) else dir.precise q a := by
  unfold precise modifyPrecise
  rw [bucket_setBucket]
  by_cases hq : q = p
  · by_cases ha : a = addr
    · rw [if_pos hq, if_pos ⟨hq, ha⟩, ha]
      exact Function.update_self _ _ _
    · rw [if_pos hq, if_neg fun hand => ha hand.2, hq]
      exact Function.update_of_ne ha _ _
  · rw [if_neg hq, if_neg fun hand => hq hand.1]

@[simp]
theorem bit_modifyEntry : (dir.modifyEntry ref f).bit i q = dir.bit i q := rfl

@[simp]
theorem precise_modifyEntry : (dir.modifyEntry ref f).precise q a = dir.precise q a := rfl

end Fields

/-- What some changes of the buckets leave as it was. -/
structure SameStates (dir dir' : TaglessDirectory n) : Prop where
  entries : dir'.theEntries = dir.theEntries
  created : dir'.created = dir.created

theorem SameStates.refl (dir : TaglessDirectory n) : SameStates dir dir := ⟨rfl, rfl⟩

theorem sameStates_modifySharers {f : BlockDirectoryEntry n → BlockDirectoryEntry n}
    (dir : TaglessDirectory n) (p : Nat × Nat) : SameStates dir (dir.modifySharers f p) := ⟨rfl, rfl⟩

theorem sameStates_modifyPrecise {f : Option Nat → Option Nat} (dir : TaglessDirectory n) (p : Nat × Nat) :
    SameStates dir (dir.modifyPrecise addr f p) := ⟨rfl, rfl⟩

theorem SameStates.foldl {α : Type*} {f : TaglessDirectory n → α → TaglessDirectory n}
    (hf : ∀ dir x, SameStates dir (f dir x)) (l : List α) (dir : TaglessDirectory n) :
    SameStates dir (l.foldl f dir) := by
  induction l generalizing dir with
  | nil => exact .refl _
  | cons x l ih =>
    have hone := hf dir x
    have hrest := ih (f dir x)
    exact ⟨hrest.entries.trans hone.entries, hrest.created.trans hone.created⟩

theorem foldl_keeps {α β : Type*} (view : TaglessDirectory n → β)
    {f : TaglessDirectory n → α → TaglessDirectory n} {l : List α} (hf : ∀ dir, ∀ x ∈ l, view (f dir x) = view dir)
    (dir : TaglessDirectory n) : view (l.foldl f dir) = view dir := by
  induction l generalizing dir with
  | nil => rfl
  | cons x l ih =>
    rw [List.foldl_cons, ih fun dir y hy => hf dir y (List.mem_cons_of_mem _ hy)]
    exact hf dir x List.mem_cons_self

/-- Adding a sharer sets its bit in all the buckets, and clears none. -/
theorem bit_foldl_addSharer : (places.foldl (modifySharers (·.addSharer index)) dir).bit i q =
    (decide (q ∈ places ∧ i = index) || dir.bit i q) := by
  induction places generalizing dir with
  | nil => simp
  | cons p places ih =>
    rw [List.foldl_cons, ih, bit_modifySharers]
    by_cases hq : q = p
    · subst hq
      rw [if_pos rfl]
      by_cases hi : i = index <;> by_cases hmem : q ∈ places <;>
        simp [BlockDirectoryEntry.addSharer, bit, hi, hmem]
    · simp [hq]

/-- A bit that some other block needs in every slot of the bucket is not cleared. -/
theorem bit_clearUnneeded {entry : TaglessLookupResult n} {address : Nat} {tags : List Nat}
    (hbit : dir.bit i q = true)
    (hneeded : i = index → ∀ x ∈ d.slots.zip entry.theBuckets, x.2 = q → d.needed address tags x.1 = true) :
    (dir.clearUnneeded d index entry address tags).bit i q = true := by
  rw [← hbit]
  refine foldl_keeps (fun dir => dir.bit i q) ?_ dir
  intro dir x hx
  split
  · rfl
  · next hunneeded =>
    rw [bit_modifySharers]
    split
    · next heq =>
      have hne : i ≠ index := fun hi => hunneeded (hneeded hi x hx heq.symm)
      simp [BlockDirectoryEntry.removeSharer, hne, bit, heq]
    · rfl

@[simp]
theorem precise_clearUnneeded {entry : TaglessLookupResult n} {address a : Nat} {tags : List Nat} :
    (dir.clearUnneeded d index entry address tags).precise q a = dir.precise q a := by
  refine foldl_keeps (fun dir => dir.precise q a) ?_ dir
  intro dir x _
  split
  · rfl
  · exact precise_modifySharers

theorem sameStates_clearUnneeded {entry : TaglessLookupResult n} {address : Nat} {tags : List Nat} :
    SameStates dir (dir.clearUnneeded d index entry address tags) := by
  apply SameStates.foldl
  intro dir x
  split
  · exact .refl _
  · exact ⟨rfl, rfl⟩

end TaglessDirectory

/-! ## Partitions -/

namespace TaglessSizes

variable {d : TaglessSizes} {addr tag : Nat} {slot slot' : HashPolicy × Nat} {q : Nat × Nat} {tags : List Nat}

/-- The hash functions of a partitioned directory stay within the width of a partition. -/
def Narrow (d : TaglessSizes) : Prop :=
  d.thePartitioned = true → ∀ p ∈ d.hash_fns, ∀ addr, d.hash p addr < d.theNumBuckets

theorem mem_slotsFrom {ps : List HashPolicy} {first : Nat} (h : slot ∈ d.slotsFrom first ps) :
    slot.1 ∈ ps ∧ ∃ k < ps.length, slot.2 = first + k * d.bucket_offset := by
  induction ps generalizing first with
  | nil => exact absurd h List.not_mem_nil
  | cons p ps ih =>
    rcases List.mem_cons.mp h with rfl | hmem
    · exact ⟨List.mem_cons_self, 0, by simp, by simp⟩
    · obtain ⟨hpolicy, k, hk, hslot⟩ := ih hmem
      refine ⟨List.mem_cons_of_mem _ hpolicy, k + 1, by simpa using hk, ?_⟩
      rw [hslot, Nat.succ_mul]
      omega

theorem slotsFrom_fst (first : Nat) (ps : List HashPolicy) : (d.slotsFrom first ps).map Prod.fst = ps := by
  induction ps generalizing first with
  | nil => rfl
  | cons p ps ih => rw [slotsFrom, List.map_cons, ih]

theorem slotsFrom_injective {ps : List HashPolicy} {first : Nat} (hpos : 0 < d.bucket_offset)
    (h : slot ∈ d.slotsFrom first ps) (h' : slot' ∈ d.slotsFrom first ps) (heq : slot.2 = slot'.2) :
    slot = slot' := by
  induction ps generalizing first with
  | nil => exact absurd h List.not_mem_nil
  | cons p ps ih =>
    have hlater : ∀ s ∈ d.slotsFrom (first + d.bucket_offset) ps, first < s.2 := by
      intro s hs
      obtain ⟨-, k, -, hk⟩ := mem_slotsFrom hs
      omega
    rcases List.mem_cons.mp h with rfl | hmem <;> rcases List.mem_cons.mp h' with rfl | hmem'
    · rfl
    · exact absurd heq (Nat.ne_of_lt (hlater _ hmem'))
    · exact absurd heq.symm (Nat.ne_of_lt (hlater _ hmem))
    · exact ih hmem hmem'

theorem mem_bucketsOf : q ∈ d.bucketsOf addr ↔
    ∃ slot ∈ d.slots, q = (d.get_set addr, d.bucketIndex addr slot) := by
  unfold bucketsOf
  rw [List.mem_map]
  exact ⟨fun ⟨s, hs, heq⟩ => ⟨s, hs, heq.symm⟩, fun ⟨s, hs, heq⟩ => ⟨s, hs, heq.symm⟩⟩

theorem mem_zip_bucketsOf {x : (HashPolicy × Nat) × (Nat × Nat)} (h : x ∈ d.slots.zip (d.bucketsOf addr)) :
    x.1 ∈ d.slots ∧ x.2 = (d.get_set addr, d.bucketIndex addr x.1) := by
  rw [bucketsOf, List.zip_map_right] at h
  obtain ⟨y, hy, rfl⟩ := List.mem_map.mp h
  have hsame : y.1 ∈ d.slots ∧ y.2 = y.1 := by
    obtain ⟨a, b⟩ := y
    have hmem := List.of_mem_zip hy
    refine ⟨hmem.1, ?_⟩
    obtain ⟨k, hk, heq⟩ := List.mem_iff_getElem.mp hy
    rw [List.getElem_zip, Prod.mk.injEq] at heq
    exact heq.2.symm.trans heq.1
  refine ⟨hsame.1, ?_⟩
  simp [hsame.2]

/-- A block that shares a bucket with another one is found to need it. -/
theorem needed_of_shared (hnarrow : d.Narrow) (hpos : 0 < d.theNumBuckets) (hne : tag ≠ addr)
    (htag : tag ∈ tags) (hslot : slot ∈ d.slots) (hslot' : slot' ∈ d.slots)
    (hshared : d.bucketIndex tag slot' = d.bucketIndex addr slot) : d.needed addr tags slot = true := by
  refine List.any_eq_true.mpr ⟨tag, htag, ?_⟩
  rw [Bool.and_eq_true, bne_iff_ne]
  refine ⟨hne, ?_⟩
  obtain ⟨hpolicy, k, -, hk⟩ := mem_slotsFrom hslot
  obtain ⟨hpolicy', k', -, hk'⟩ := mem_slotsFrom hslot'
  by_cases hpart : d.thePartitioned = true
  · have hoffset : d.bucket_offset = d.theNumBuckets := if_pos hpart
    have hlt := hnarrow hpart _ hpolicy addr
    have hlt' := hnarrow hpart _ hpolicy' tag
    have hsame : k = k' := by
      unfold bucketIndex at hshared
      rw [hk, hk', hoffset] at hshared
      rcases Nat.lt_trichotomy k k' with hless | heq | hless
      · have := Nat.mul_le_mul_right d.theNumBuckets (Nat.succ_le_of_lt hless)
        rw [Nat.succ_mul] at this
        omega
      · exact heq
      · have := Nat.mul_le_mul_right d.theNumBuckets (Nat.succ_le_of_lt hless)
        rw [Nat.succ_mul] at this
        omega
    have hslots : slot' = slot :=
      slotsFrom_injective (by rw [hoffset]; exact hpos) hslot' hslot (by rw [hk, hk', hsame])
    rw [if_pos hpart, beq_iff_eq, ← hshared, hslots]
  · have hoffset : d.bucket_offset = 0 := if_neg hpart
    have hzero : slot'.2 = 0 := by rw [hk', hoffset, Nat.mul_zero, Nat.add_zero]
    rw [if_neg hpart, List.any_eq_true]
    refine ⟨slot'.1, hpolicy', ?_⟩
    rw [beq_iff_eq, ← hshared, bucketIndex, hzero, Nat.add_zero]

end TaglessSizes

namespace TaglessConfig

variable {c : TaglessConfig} {d : TaglessSizes}

theorem Leads.hash_lt (h : c.Leads d) {p : HashPolicy} (addr : Nat) : d.hash p addr < c.theNumBuckets := by
  have hpos := h.buckets_pos
  have hle := h.buckets_le
  cases hprime : p.isPrime with
  | true => exact Nat.lt_of_lt_of_le (TaglessSizes.hash_lt_buckets hprime hpos) hle
  | false =>
    have hmask := TaglessSizes.hash_le_mask (d := d) hprime addr
    rw [h.mask] at hmask
    omega

theorem narrow_of_confined (hconf : c.Confined) (hinit : c.init = .ok d) : d.Narrow := by
  have h := leads_of_init hinit
  intro hpart p hp addr
  rw [h.partitioned] at hpart
  rw [h.fns] at hp
  rcases hconf d hinit with hunpart | hsame | hmasked
  · rw [hpart] at hunpart
    cases hunpart
  · rw [hsame]
    exact h.hash_lt addr
  · cases hprime : p.isPrime with
    | true => exact TaglessSizes.hash_lt_buckets hprime h.buckets_pos
    | false => exact hmasked p hp hprime addr

theorem inPartition_iff (hinit : c.init = .ok d) : d.InPartition ↔ d.Narrow := by
  have h := leads_of_init hinit
  constructor
  · intro hin hpart p hp addr
    rw [← TaglessSizes.slotsFrom_fst 0 d.hash_fns] at hp
    obtain ⟨slot, hslot, rfl⟩ := List.mem_map.mp hp
    have hlt := (hin addr slot hslot).2.2 hpart
    unfold TaglessSizes.bucketIndex at hlt
    omega
  · intro hnarrow addr slot hslot
    obtain ⟨hpolicy, k, hk, hfirst⟩ := TaglessSizes.mem_slotsFrom hslot
    rw [Nat.zero_add] at hfirst
    have hwide := h.hash_lt (p := slot.1) addr
    unfold TaglessSizes.bucketIndex
    refine ⟨Nat.le_add_left _ _, ?_, fun hpart => ?_⟩
    · rw [h.total, hfirst, TaglessSizes.bucket_offset, h.partitioned]
      rw [h.fns] at hk
      split
      · have hle := Nat.mul_le_mul_right c.theNumBuckets (Nat.succ_le_of_lt hk)
        rw [Nat.succ_mul] at hle
        have hmul := Nat.mul_le_mul_left k h.buckets_le
        omega
      · omega
    · have := hnarrow hpart slot.1 hpolicy addr
      omega

end TaglessConfig

end nFastCMPCache
