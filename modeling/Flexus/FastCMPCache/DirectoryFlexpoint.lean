import Flexus.FastCMPCache.StandardDirectory

/-!
# Saving and loading the directory of fixed size

The sharers of an entry are a vector of `MAX_NUM_SHARERS` bits, but they are saved as a number
of 64 bits. An entry comes back as long as its sharers are among the first 64 caches.
-/

namespace nFastCMPCache

def MAX_NUM_SHARERS : Nat := 512

namespace SharingVector

variable {n : Nat} (v : SharingVector n)

/-- The bit at a position, none beyond the end. -/
def test (i : Nat) : Bool := if h : i < n then v.isSharer ⟨i, h⟩ else false

/-- Shift the bits below a position in, from the highest to the lowest. -/
def shiftBelow : Nat → BitVec 64 → BitVec 64
  | 0, ret => ret
  | i + 1, ret => shiftBelow i ((ret <<< 1) ||| if v.test i then 1 else 0)

def getUInt64 : BitVec 64 := v.shiftBelow 64 0

/-- The sharers that are the bits of a number. -/
def setSharers (s : BitVec 64) : SharingVector n := { sharers := fun i => s.getLsbD i }

theorem getLsbD_shiftedIn (b : Bool) {ret : BitVec 64} {j : Nat} (hj : j < 64) :
    ((ret <<< 1) ||| if b then 1 else 0).getLsbD j = if j = 0 then b else ret.getLsbD (j - 1) := by
  rw [BitVec.getLsbD_or, BitVec.getLsbD_shiftLeft]
  cases j with
  | zero => cases b <;> simp
  | succ j =>
    have hbit : (if b then (1 : BitVec 64) else 0).getLsbD (j + 1) = false := by
      cases b <;> simp
    rw [hbit]
    simp [hj]

theorem getLsbD_shiftBelow {i j : Nat} {ret : BitVec 64} (hj : j < 64) :
    (v.shiftBelow i ret).getLsbD j = if j < i then v.test j else ret.getLsbD (j - i) := by
  induction i generalizing ret with
  | zero => rfl
  | succ i ih =>
    rw [shiftBelow, ih]
    rcases Nat.lt_trichotomy j i with hlt | rfl | hgt
    · have hlt' : j < i + 1 := by omega
      rw [if_pos hlt, if_pos hlt']
    · rw [if_neg (Nat.lt_irrefl j), if_pos (Nat.lt_succ_self j), getLsbD_shiftedIn _ (by omega),
        if_pos (Nat.sub_self j)]
    · have hge : ¬ j < i := by omega
      have hge' : ¬ j < i + 1 := by omega
      have hne : j - i ≠ 0 := by omega
      rw [if_neg hge, if_neg hge', getLsbD_shiftedIn _ (by omega), if_neg hne, Nat.sub_sub]

theorem getLsbD_getUInt64 {j : Nat} (hj : j < 64) : v.getUInt64.getLsbD j = v.test j := by
  rw [getUInt64, getLsbD_shiftBelow v hj, if_pos hj]

/-- A vector comes back from its number exactly when it has no sharer from the 64th on. -/
theorem setSharers_getUInt64 : setSharers v.getUInt64 = v ↔ ∀ i, v.isSharer i = true → i.val < 64 := by
  have hbit : ∀ i : Fin n, (setSharers v.getUInt64 : SharingVector n).isSharer i =
      (decide (i.val < 64) && v.isSharer i) := by
    intro i
    change v.getUInt64.getLsbD i = _
    by_cases hi : i.val < 64
    · rw [getLsbD_getUInt64 v hi, test, dif_pos i.isLt, decide_eq_true hi, Bool.true_and]
    · rw [BitVec.getLsbD_of_ge _ _ (by omega), decide_eq_false hi, Bool.false_and]
  constructor
  · intro heq i hi
    have hsame := hbit i
    rw [heq, hi, Bool.and_true] at hsame
    exact of_decide_eq_true hsame.symm
  · intro hlow
    apply SharingVector.ext
    intro i
    rw [hbit]
    cases hi : v.isSharer i with
    | false => exact Bool.and_false _
    | true => rw [decide_eq_true (hlow i hi), Bool.true_and]

end SharingVector

structure StdDirEntrySerializer where
  tag : Nat
  state : BitVec 64
  deriving DecidableEq, Repr

namespace BlockDirectoryEntry

variable {n : Nat}

def getSerializer (e : BlockDirectoryEntry n) : StdDirEntrySerializer where
  tag := e.theAddress
  state := e.theSharers.getUInt64

/-- The assignment of a serializer. -/
def assign (serializer : StdDirEntrySerializer) : BlockDirectoryEntry n :=
  let sharers := SharingVector.setSharers serializer.state
  { theAddress := serializer.tag
    theSharers := sharers
    theState := if sharers.countSharers = 1 then .OneSharer
      else if sharers.countSharers = 0 then .ZeroSharers else .ManySharers }

theorem assign_consistent (serializer : StdDirEntrySerializer) :
    (assign serializer : BlockDirectoryEntry n).Consistent := by
  unfold Consistent assign SharingVector.state
  dsimp only
  generalize (SharingVector.setSharers serializer.state : SharingVector n).countSharers = count
  match count with
  | 0 => rfl
  | 1 => rfl
  | _ + 2 => rfl

/-- An entry comes back exactly when its state is the one of its sharers and none of these is
    beyond the first 64. -/
theorem assign_getSerializer {e : BlockDirectoryEntry n} :
    assign e.getSerializer = e ↔ e.Consistent ∧ ∀ i, e.theSharers.isSharer i = true → i.val < 64 := by
  constructor
  · intro heq
    have hsharers := congrArg theSharers heq
    refine ⟨heq ▸ assign_consistent _, ?_⟩
    exact (SharingVector.setSharers_getUInt64 _).mp hsharers
  · rintro ⟨hconsistent, hlow⟩
    have hsharers := (SharingVector.setSharers_getUInt64 e.theSharers).mpr hlow
    have hstate : (assign e.getSerializer : BlockDirectoryEntry n).Consistent := assign_consistent _
    unfold Consistent at hstate hconsistent
    have hvector : (assign e.getSerializer : BlockDirectoryEntry n).theSharers = e.theSharers := hsharers
    rw [hvector, ← hconsistent] at hstate
    cases e with
    | mk theAddress theSharers theState =>
      unfold assign at hvector hstate ⊢
      exact congrArg₂ (mk theAddress) hvector hstate

end BlockDirectoryEntry

/-! ## Directories -/

/-- What is in the archive of a directory, in the order in which it is written. -/
structure DirectoryArchive where
  set_count : Nat
  associativity : Nat
  entries : List StdDirEntrySerializer

namespace StandardDirectory

variable {n : Nat} {c : StandardConfig} {dir dir' : std_directory_t n}

/-- The places of a directory, in the order of the loops over sets and ways. -/
def places (c : StandardConfig) : List (Nat × Nat) :=
  (List.range c.theNumSets).flatMap fun set => (List.range c.theAssociativity).map fun way => (set, way)

def saveState (c : StandardConfig) (dir : std_directory_t n) : DirectoryArchive where
  set_count := c.theNumSets
  associativity := c.theAssociativity
  entries := (places c).map fun place => (entryAt dir place).getSerializer

/-- Read an entry for each place. An archive that ends too early is an error. -/
def readEntries : List (Nat × Nat) → List StdDirEntrySerializer → std_directory_t n →
    Option (std_directory_t n)
  | [], _, dir => some dir
  | _ :: _, [], _ => none
  | place :: rest, serializer :: entries, dir =>
    readEntries rest entries (write place (.assign serializer) dir)

/-- The shape in the archive has to be that of the directory. -/
def loadState (c : StandardConfig) (ia : DirectoryArchive) (dir : std_directory_t n) :
    Option (std_directory_t n) :=
  if ia.set_count = c.theNumSets ∧ ia.associativity = c.theAssociativity then
    readEntries (places c) ia.entries dir
  else none

theorem mem_places {place : Nat × Nat} :
    place ∈ places c ↔ place.1 < c.theNumSets ∧ place.2 < c.theAssociativity := by
  obtain ⟨set, way⟩ := place
  simp only [places, List.mem_flatMap, List.mem_map, List.mem_range, Prod.mk.injEq]
  constructor
  · rintro ⟨set', hset, way', hway, rfl, rfl⟩
    exact ⟨hset, hway⟩
  · rintro ⟨hset, hway⟩
    exact ⟨set, hset, way, hway, rfl, rfl⟩

/-- Every place that is read has what was written for it, also when it is read again. -/
theorem readEntries_spec (f : Nat × Nat → StdDirEntrySerializer) (ps : List (Nat × Nat))
    (dir : std_directory_t n) :
    ∃ dir', readEntries ps (ps.map f) dir = some dir' ∧
      ∀ p, (p ∈ ps → entryAt dir' p = .assign (f p)) ∧ (p ∉ ps → entryAt dir' p = entryAt dir p) := by
  induction ps generalizing dir with
  | nil => exact ⟨dir, rfl, fun p => ⟨fun h => absurd h List.not_mem_nil, fun _ => rfl⟩⟩
  | cons q ps ih =>
    obtain ⟨dir', hread, hall⟩ := ih (write q (.assign (f q)) dir)
    refine ⟨dir', hread, fun p => ?_⟩
    obtain ⟨hin, hout⟩ := hall p
    constructor
    · intro hp
      by_cases hrest : p ∈ ps
      · exact hin hrest
      · obtain rfl : p = q := (List.mem_cons.mp hp).resolve_right hrest
        rw [hout hrest, entryAt_write]
    · intro hp
      rw [List.mem_cons, not_or] at hp
      rw [hout hp.2, entryAt_write_of_ne hp.1]

/-- An entry of a loaded directory is the saved one, as far as its serializer has it. -/
theorem loadState_saveState (c : StandardConfig) (dir loader : std_directory_t n) :
    ∃ dir', loadState c (saveState c dir) loader = some dir' ∧
      ∀ set < c.theNumSets, ∀ way < c.theAssociativity,
        dir' set way = .assign (dir set way).getSerializer := by
  obtain ⟨dir', hread, hall⟩ :=
    readEntries_spec (fun place => (entryAt dir place).getSerializer) (places c) loader
  refine ⟨dir', ?_, fun set hset way hway => (hall (set, way)).1 (mem_places.mpr ⟨hset, hway⟩)⟩
  rw [loadState, if_pos ⟨rfl, rfl⟩]
  exact hread

end StandardDirectory

/-! ## The indices of the caches -/

/-- The index of a data cache, which makes room for the instruction cache beside it. -/
def requestIndex (SeparateID : Bool) (anIndex : Nat) : Nat := if SeparateID then anIndex <<< 1 else anIndex

/-- The index of an instruction cache. -/
def fetchRequestIndex (SeparateID : Bool) (anIndex : Nat) : Nat :=
  if SeparateID then (anIndex <<< 1) ||| 1 else anIndex

theorem fetchRequestIndex_separate (anIndex : Nat) : fetchRequestIndex true anIndex = 2 * anIndex + 1 := by
  have hone : 1 < 2 ^ 1 := by decide
  rw [fetchRequestIndex, if_pos rfl, ← Nat.shiftLeft_add_eq_or_of_lt hone, Nat.shiftLeft_eq]
  omega

/-- The indices of all caches are sharers exactly when twice the cores fit where the caches of
    a core are separate. -/
theorem indices_valid_iff {theCMPWidth : Nat} {SeparateID : Bool} (hwidth : theCMPWidth ≤ MAX_NUM_SHARERS) :
    (∀ anIndex < theCMPWidth, requestIndex SeparateID anIndex < MAX_NUM_SHARERS ∧
        fetchRequestIndex SeparateID anIndex < MAX_NUM_SHARERS) ↔
      (SeparateID = true → 2 * theCMPWidth ≤ MAX_NUM_SHARERS) := by
  unfold MAX_NUM_SHARERS at *
  cases SeparateID with
  | false =>
    refine iff_of_true (fun anIndex hlt => ?_) nofun
    have hlt' : anIndex < 512 := by omega
    exact ⟨hlt', hlt'⟩
  | true =>
    constructor
    · intro hall _
      by_contra hbig
      have hlast := (hall (theCMPWidth - 1) (by omega)).2
      rw [fetchRequestIndex_separate] at hlast
      omega
    · intro hfits anIndex hlt
      have hfits' := hfits rfl
      rw [fetchRequestIndex_separate, requestIndex, if_pos rfl, Nat.shiftLeft_eq]
      omega

namespace StandardDirectory

variable {c : StandardConfig}

/-- A checkpoint restores the directory, and every cache index is one of a sharer, exactly when
    no entry has a sharer from the 64th on, every entry has the state of its sharers, and twice
    the cores fit where the caches of a core are separate. -/
theorem checkpoint_iff {theCMPWidth : Nat} (hwidth : theCMPWidth ≤ MAX_NUM_SHARERS) (SeparateID : Bool)
    (dir loader : std_directory_t MAX_NUM_SHARERS) :
    ((∃ dir', loadState c (saveState c dir) loader = some dir' ∧
        ∀ set < c.theNumSets, ∀ way < c.theAssociativity, dir' set way = dir set way) ∧
      ∀ anIndex < theCMPWidth, requestIndex SeparateID anIndex < MAX_NUM_SHARERS ∧
        fetchRequestIndex SeparateID anIndex < MAX_NUM_SHARERS) ↔
    (∀ set < c.theNumSets, ∀ way < c.theAssociativity, (dir set way).Consistent ∧
        ∀ i, (dir set way).theSharers.isSharer i = true → i.val < 64) ∧
      (SeparateID = true → 2 * theCMPWidth ≤ MAX_NUM_SHARERS) := by
  apply and_congr _ (indices_valid_iff hwidth)
  obtain ⟨dir', hload, hall⟩ := loadState_saveState c dir loader
  constructor
  · rintro ⟨dir'', hload', hsame⟩ set hset way hway
    obtain rfl : dir' = dir'' := Option.some.inj (hload.symm.trans hload')
    apply BlockDirectoryEntry.assign_getSerializer.mp
    rw [← hall set hset way hway, hsame set hset way hway]
  · intro hgood
    refine ⟨dir', hload, fun set hset way hway => ?_⟩
    rw [hall set hset way hway]
    exact BlockDirectoryEntry.assign_getSerializer.mpr (hgood set hset way hway)

def noSharers : std_directory_t MAX_NUM_SHARERS := fun _ _ => .new 0

/-- Sixteen cores with separate caches, and an empty directory. -/
theorem checkpoint_iff_sixteen :
    (∃ dir', loadState oneEntry (saveState oneEntry noSharers) noSharers = some dir' ∧
      ∀ set < 1, ∀ way < 1, dir' set way = noSharers set way) ∧
    ∀ anIndex < 16, requestIndex true anIndex < MAX_NUM_SHARERS ∧
      fetchRequestIndex true anIndex < MAX_NUM_SHARERS := by
  have hwidth : 16 ≤ MAX_NUM_SHARERS := by decide
  apply (checkpoint_iff hwidth true noSharers noSharers).mpr
  refine ⟨fun _ _ _ _ => ⟨BlockDirectoryEntry.consistent_new 0, fun i hi => ?_⟩, fun _ => by decide⟩
  cases hi

/-- The 65th cache is the only sharer of a block. -/
def sharedByLater : std_directory_t MAX_NUM_SHARERS := fun _ _ =>
  (BlockDirectoryEntry.new 0).addSharer ⟨64, by decide⟩

/-- The 65th cache is no sharer any more after the directory was saved and loaded. And with
    512 cores the index of the last instruction cache is 1023. -/
theorem checkpoint_loses_sharer :
    (¬ ∃ dir', loadState oneEntry (saveState oneEntry sharedByLater) noSharers = some dir' ∧
      ∀ set < 1, ∀ way < 1, dir' set way = sharedByLater set way) ∧
    fetchRequestIndex true 511 = 1023 := by
  refine ⟨?_, by decide⟩
  rintro ⟨dir', hload, hsame⟩
  obtain ⟨dir'', hload', hall⟩ := loadState_saveState oneEntry sharedByLater noSharers
  obtain rfl : dir' = dir'' := Option.some.inj (hload.symm.trans hload')
  have hback : BlockDirectoryEntry.assign (sharedByLater 0 0).getSerializer = sharedByLater 0 0 :=
    (hall 0 (by decide) 0 (by decide)).symm.trans (hsame 0 (by decide) 0 (by decide))
  have hsharer : (sharedByLater 0 0).theSharers.isSharer ⟨64, by decide⟩ = true := by
    simp [sharedByLater, BlockDirectoryEntry.addSharer]
  have hlow := (BlockDirectoryEntry.assign_getSerializer.mp hback).2 _ hsharer
  exact absurd hlow (by decide)

end StandardDirectory

end nFastCMPCache
