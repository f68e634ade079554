import Flexus.Lib.Keyed
import Flexus.Lib.Runs
import Flexus.MemQueue.Mask

/-!
# The value tracker

The values that memory operations still in flight give to a word of memory: one that all
processors see and one for each processor with outstanding stores. The stores are pasted
into a container of 16 bytes while the word is read from memory as 8 bytes.
-/

namespace nuArchARM

open Lanes Runs

/-- Memory as `readPhysicalAddress` sees it. -/
abbrev Memory := PhysicalMemoryAddress → BitVec 8

/-- `readPhysicalAddress`: the byte at the lowest address is the lowest of the value. -/
def readPhysicalAddress (mem : Memory) (anAddress : PhysicalMemoryAddress) (aSize : Nat) : bits :=
  (List.range aSize).foldl (fun tmp i =>
    tmp ||| (((mem (anAddress + BitVec.ofNat 64 i)).setWidth 128 <<< (8 * i)) &&& (0xff#128 <<< (8 * i)))) 0

/-- The number of outstanding stores is a `uint32_t`; it counts stores of one processor to
    one word that are in flight. -/
structure LocalValue where
  theValue : bits
  theOutstandingStores : Nat
  deriving DecidableEq, Repr

def kSimicsReflectsG : bits := -1
def kPoisonedByDMA : bits := -2

structure ValueTrack where
  theSimicsReflectsCPU : bits
  theGloballyVisibleValue : bits
  theLocallyVisibleValues : List (BitVec 32 × LocalValue)
  deriving DecidableEq, Repr

namespace ValueTrack

def find (t : ValueTrack) (aCPU : BitVec 32) : Option LocalValue :=
  (Keyed.lookup Prod.fst t.theLocallyVisibleValues aCPU).map Prod.snd

def setLocal (t : ValueTrack) (aCPU : BitVec 32) (l : LocalValue) : ValueTrack :=
  { t with
    theLocallyVisibleValues := Keyed.alter Prod.fst aCPU (fun x => (x.1, l)) t.theLocallyVisibleValues }

def insertLocal (t : ValueTrack) (aCPU : BitVec 32) (l : LocalValue) : ValueTrack :=
  { t with theLocallyVisibleValues := t.theLocallyVisibleValues ++ [(aCPU, l)] }

def eraseLocal (t : ValueTrack) (aCPU : BitVec 32) : ValueTrack :=
  { t with theLocallyVisibleValues := Keyed.erase Prod.fst aCPU t.theLocallyVisibleValues }

/-- The processor whose view memory stands for. -/
def reflect (t : ValueTrack) (aCPU : bits) : ValueTrack := { t with theSimicsReflectsCPU := aCPU }

/-- A value that every processor sees, and memory stands for. -/
def publish (t : ValueTrack) (aValue : bits) : ValueTrack :=
  { t with theGloballyVisibleValue := aValue, theSimicsReflectsCPU := kSimicsReflectsG }

variable {t : ValueTrack} {aCPU c : BitVec 32} {l l' : LocalValue}

@[simp]
theorem find_publish {x : bits} : (t.publish x).find c = t.find c := rfl

@[simp]
theorem find_reflect {x : bits} : (t.reflect x).find c = t.find c := rfl

theorem find_setLocal (hfind : t.find aCPU = some l') :
    (t.setLocal aCPU l).find c = if c = aCPU then some l else t.find c := by
  have hkey : ∀ x : BitVec 32 × LocalValue, (x.1, l).1 = x.1 := fun _ => rfl
  rw [find, setLocal, Keyed.lookup_alter hkey]
  split
  · next heq =>
    obtain ⟨x, hx, -⟩ := Option.map_eq_some_iff.mp hfind
    rw [hx]
    rfl
  · rfl

theorem find_insertLocal (hfind : t.find aCPU = none) :
    (t.insertLocal aCPU l).find c = if c = aCPU then some l else t.find c := by
  rw [find, insertLocal, Keyed.lookup_append_singleton]
  by_cases heq : c = aCPU
  · subst heq
    rw [find, Option.map_eq_none_iff] at hfind
    simp [hfind]
  · simp [heq, Ne.symm heq, find]

theorem find_eraseLocal : (t.eraseLocal aCPU).find c = if c = aCPU then none else t.find c := by
  rw [find, eraseLocal, Keyed.lookup_erase]
  split <;> rfl

theorem find_eq_none_of_nil (hnil : t.theLocallyVisibleValues = []) : t.find c = none := by
  rw [find, hnil]
  rfl

end ValueTrack

/-- The tracked words, by their aligned address. -/
structure ValueTracker where
  theTracker : PhysicalMemoryAddress → Option ValueTrack

inductive TrackerFault where
  | assertion
  deriving DecidableEq, Repr

/-- The arguments of a store and of its commit. -/
structure Store where
  anAddress : PhysicalMemoryAddress
  aSize : eSize
  aStoreValue : bits
  deriving DecidableEq, Repr

namespace ValueTracker

def empty : ValueTracker := ⟨fun _ => none⟩

def insert (v : ValueTracker) (aligned : PhysicalMemoryAddress) (t : ValueTrack) : ValueTracker :=
  ⟨Function.update v.theTracker aligned (some t)⟩

def erase (v : ValueTracker) (aligned : PhysicalMemoryAddress) : ValueTracker :=
  ⟨Function.update v.theTracker aligned none⟩

def dwAddr (anAddress : PhysicalMemoryAddress) : PhysicalMemoryAddress := anAddress &&& ~~~7#64

/-- The distance from the end of the access to the end of 16 bytes, as a `uint32_t`. -/
def offset (r : Store) : BitVec 32 :=
  (BitVec.ofNat 64 (16 - r.aSize.bytes) - (r.anAddress - dwAddr r.anAddress)).setWidth 32

def makeMask (r : Store) : bits := mask r.aSize <<< (offset r * 8#32).toNat

def align (r : Store) : bits := r.aStoreValue <<< (offset r * 8#32).toNat

def overlay (anOriginalValue : bits) (r : Store) : bits :=
  let available := makeMask r
  let update_aligned := align r
  (anOriginalValue &&& ~~~available) ||| (update_aligned &&& available)

/-- The update of the globally visible value after a write by a device. -/
def freshen (mem : Memory) (aligned : PhysicalMemoryAddress) (t : ValueTrack) : ValueTrack :=
  if t.theSimicsReflectsCPU = kPoisonedByDMA then
    t.publish (readPhysicalAddress mem aligned 8)
  else t

/-- `store` on a word that is tracked. -/
def storeTracked (mem : Memory) (aCPU : BitVec 32) (r : Store) (track : ValueTrack) : ValueTrack :=
  let t := freshen mem (dwAddr r.anAddress) track
  match t.find aCPU with
  | some l =>
    if t.theSimicsReflectsCPU = aCPU.signExtend 128 then
      -- memory stands for this processor's view and is read again
      let simics_value := readPhysicalAddress mem (dwAddr r.anAddress) 8
      t.setLocal aCPU ⟨overlay simics_value r, l.theOutstandingStores + 1⟩
    else
      (t.reflect (aCPU.setWidth 128)).setLocal aCPU ⟨overlay l.theValue r, l.theOutstandingStores + 1⟩
  | none =>
    (t.reflect (aCPU.setWidth 128)).insertLocal aCPU ⟨overlay t.theGloballyVisibleValue r, 1⟩

/-- The entry `store` makes for a word that is not tracked. -/
def newTrack (mem : Memory) (aCPU : BitVec 32) (r : Store) : ValueTrack :=
  let simics_value := readPhysicalAddress mem (dwAddr r.anAddress) r.aSize.bytes
  ⟨aCPU.signExtend 128, simics_value, [(aCPU, ⟨overlay simics_value r, 1⟩)]⟩

def store (v : ValueTracker) (mem : Memory) (aCPU : BitVec 32) (r : Store) : Except TrackerFault ValueTracker :=
  if r.anAddress = 0 then .error .assertion
  else
    match v.theTracker (dwAddr r.anAddress) with
    | none => .ok (v.insert (dwAddr r.anAddress) (newTrack mem aCPU r))
    | some track => .ok (v.insert (dwAddr r.anAddress) (storeTracked mem aCPU r track))

/-- `commitStore` on the entry and the local value it finds. -/
def commitTracked (mem : Memory) (aCPU : BitVec 32) (r : Store) (track : ValueTrack) (l : LocalValue) :
    ValueTrack :=
  let t := freshen mem (dwAddr r.anAddress) track
  let t := t.publish (overlay t.theGloballyVisibleValue r)
  if l.theOutstandingStores - 1 = 0 then t.eraseLocal aCPU
  else t.setLocal aCPU ⟨l.theValue, l.theOutstandingStores - 1⟩

def commitStore (v : ValueTracker) (mem : Memory) (aCPU : BitVec 32) (r : Store) :
    Except TrackerFault ValueTracker :=
  if r.anAddress = 0 ∨ ¬ r.anAddress < 0x40000000000#64 then .error .assertion
  else
    match v.theTracker (dwAddr r.anAddress) with
    | none => .error .assertion
    | some track =>
      match track.find aCPU with
      | none => .error .assertion
      | some l =>
        let t := commitTracked mem aCPU r track l
        if t.theLocallyVisibleValues = [] then .ok (v.erase (dwAddr r.anAddress))
        else .ok (v.insert (dwAddr r.anAddress) t)

end ValueTracker

/-! ## The bytes of a word -/

/-- The position of a store in its word of 8 bytes. -/
def Store.lead (r : Store) : Nat := (r.anAddress - ValueTracker.dwAddr r.anAddress).toNat

/-- The store lies inside the word at the aligned address `A`. -/
def Store.InWord (A : PhysicalMemoryAddress) (r : Store) : Prop :=
  ValueTracker.dwAddr r.anAddress = A ∧ r.lead + r.aSize.bytes ≤ 8

instance (A : PhysicalMemoryAddress) (r : Store) : Decidable (r.InWord A) :=
  inferInstanceAs (Decidable (_ ∧ _))

/-- A word after a store: byte `i` of the value goes to the address plus `i`. -/
def Store.overlaid (r : Store) (word : Nat → BitVec 8) (k : Nat) : BitVec 8 :=
  if r.lead ≤ k ∧ k < r.lead + r.aSize.bytes then lane r.aStoreValue (k - r.lead) else word k

theorem getLsbD_readPhysicalAddress (mem : Memory) (a : PhysicalMemoryAddress) (n i : Nat) :
    (readPhysicalAddress mem a n).getLsbD i =
      (decide (i < 128) && decide (i < 8 * n) && (mem (a + BitVec.ofNat 64 (i / 8))).getLsbD (i % 8)) := by
  induction n with
  | zero => simp [readPhysicalAddress]
  | succ n ih =>
    have hstep : readPhysicalAddress mem a (n + 1) = readPhysicalAddress mem a n |||
        (((mem (a + BitVec.ofNat 64 n)).setWidth 128 <<< (8 * n)) &&& (0xff#128 <<< (8 * n))) := by
      rw [readPhysicalAddress, List.range_succ, List.foldl_append]
      rfl
    have hbyte : ∀ j, (0xff#128).getLsbD j = decide (j < 8) := by
      intro j
      by_cases hj : j < 128
      · decide +revert
      · rw [BitVec.getLsbD_of_ge _ _ (by omega)]
        simp
        omega
    rw [hstep, BitVec.getLsbD_or, ih, BitVec.getLsbD_and, BitVec.getLsbD_shiftLeft, BitVec.getLsbD_shiftLeft,
      BitVec.getLsbD_setWidth, hbyte]
    by_cases hbefore : i < 8 * n
    · have hsucc : i < 8 * (n + 1) := by omega
      simp [hbefore, hsucc]
    · by_cases hlast : i < 8 * (n + 1)
      · have hdiv : i / 8 = n := by omega
        have hmod : i - 8 * n = i % 8 := by omega
        have hlt : i % 8 < 8 := by omega
        have hwide : i % 8 < 128 := by omega
        simp [hbefore, hlast, hdiv, hmod, hlt, hwide]
        exact fun h _ => h
      · have hge : ¬ i - 8 * n < 8 := by omega
        simp [hbefore, hlast, hge]

/-- Byte `k` of the value read is the byte of memory at the address plus `k`. -/
theorem lane_readPhysicalAddress (mem : Memory) (a : PhysicalMemoryAddress) {n k : Nat} (hk : k < 16) :
    lane (readPhysicalAddress mem a n) k = if k < n then mem (a + BitVec.ofNat 64 k) else 0 := by
  apply BitVec.eq_of_getLsbD_eq
  intro j hj
  have hdiv : (8 * k + j) / 8 = k := by omega
  have hmod : (8 * k + j) % 8 = j := by omega
  have hin : 8 * k + j < 8 * n ↔ k < n := by omega
  have hwide : 8 * k + j < 128 := by omega
  rw [getLsbD_lane, getLsbD_readPhysicalAddress, hdiv, hmod]
  by_cases hkn : k < n
  · simp [hj, hin, hkn, hwide]
  · simp [hin, hkn]

namespace Store

variable {A : PhysicalMemoryAddress} {r : Store}

/-- Inside a word of 8 bytes the distance to the end of 16 is at least 8. -/
theorem InWord.offset (hword : r.InWord A) :
    (ValueTracker.offset r * 8#32).toNat = 8 * (16 - r.aSize.bytes - r.lead) ∧ r.aSize.bytes + r.lead ≤ 8 := by
  obtain ⟨-, hin⟩ := hword
  have hpos := eSize.bytes_pos r.aSize
  have hsub : (BitVec.ofNat 64 (16 - r.aSize.bytes) - (r.anAddress - ValueTracker.dwAddr r.anAddress)).toNat =
      16 - r.aSize.bytes - r.lead := by
    rw [BitVec.toNat_sub_of_le]
    · rw [BitVec.toNat_ofNat, lead]
      omega
    · rw [BitVec.le_def, BitVec.toNat_ofNat]
      have hlead : (r.anAddress - ValueTracker.dwAddr r.anAddress).toNat = r.lead := rfl
      omega
  refine ⟨?_, by omega⟩
  rw [ValueTracker.offset, BitVec.toNat_mul, BitVec.toNat_setWidth, hsub, BitVec.toNat_ofNat]
  omega

/-- A store is pasted beyond the 8 bytes that are read from memory. -/
theorem InWord.lane_overlay (hword : r.InWord A) (x : bits) {k : Nat} (hk : k < 8) :
    lane (ValueTracker.overlay x r) k = lane x k := by
  obtain ⟨hoffset, hin⟩ := hword.offset
  rw [ValueTracker.overlay, ValueTracker.makeMask, mask_eq_window, hoffset, window_shiftLeft, Lanes.lane_overlay,
    if_neg (by omega)]

end Store

/-! ## The views of a word -/

/-- What the views of one word should be: the bytes that are visible to all, and for each
    processor the bytes it sees and its stores that are not committed. -/
structure WordViews where
  visible : Nat → BitVec 8
  view : BitVec 32 → Nat → BitVec 8
  outstanding : BitVec 32 → List Store

/-- The tracker beside the views it should have. -/
structure Tracked where
  tracker : ValueTracker
  views : WordViews

inductive TrackerEvent where
  | store (aCPU : BitVec 32) (r : Store)
  | commitStore (aCPU : BitVec 32) (r : Store)
  deriving DecidableEq, Repr

namespace WordViews

/-- A store is seen by its own processor, over the bytes visible to all if it has no other. -/
def store (w : WordViews) (aCPU : BitVec 32) (r : Store) : WordViews :=
  { w with
    view := Function.update w.view aCPU
      (r.overlaid (if w.outstanding aCPU = [] then w.visible else w.view aCPU))
    outstanding := Function.update w.outstanding aCPU (w.outstanding aCPU ++ [r]) }

def commitStore (w : WordViews) (aCPU : BitVec 32) (r : Store) : WordViews :=
  { w with
    visible := r.overlaid w.visible
    outstanding := Function.update w.outstanding aCPU ((w.outstanding aCPU).erase r) }

end WordViews

namespace Tracked

/-- No word is tracked, and the word at `A` has the bytes of memory. -/
def start (mem : Memory) (A : PhysicalMemoryAddress) : Tracked where
  tracker := .empty
  views :=
    { visible := fun k => mem (A + BitVec.ofNat 64 k)
      view := fun _ k => mem (A + BitVec.ofNat 64 k)
      outstanding := fun _ => [] }

def step (mem : Memory) (s : Tracked) : TrackerEvent → Except TrackerFault Tracked
  | .store aCPU r => return ⟨← s.tracker.store mem aCPU r, s.views.store aCPU r⟩
  | .commitStore aCPU r => return ⟨← s.tracker.commitStore mem aCPU r, s.views.commitStore aCPU r⟩

/-- Stores inside the word, each committed after it was made; the addresses are those the
    assertions admit. -/
def Valid (A : PhysicalMemoryAddress) (s : Tracked) : TrackerEvent → Prop
  | .store _ r => r.anAddress ≠ 0 ∧ r.InWord A
  | .commitStore aCPU r => r.anAddress < 0x40000000000#64 ∧ r ∈ s.views.outstanding aCPU

instance (A : PhysicalMemoryAddress) (s : Tracked) : ∀ e, Decidable (Valid A s e)
  | .store _ _ => inferInstanceAs (Decidable (_ ∧ _))
  | .commitStore _ _ => inferInstanceAs (Decidable (_ ∧ _))

/-- The tracker has the views: the globally visible value reads as the bytes visible to all,
    and every processor with outstanding stores has a local value that reads as its view. -/
structure Exact (A : PhysicalMemoryAddress) (s : Tracked) : Prop where
  visible : ∀ track, s.tracker.theTracker A = some track →
    ∀ k, k < 8 → lane track.theGloballyVisibleValue k = s.views.visible k
  locals : ∀ aCPU, s.views.outstanding aCPU ≠ [] →
    ∃ track l, s.tracker.theTracker A = some track ∧ track.find aCPU = some l ∧
      ∀ k, k < 8 → lane l.theValue k = s.views.view aCPU k

/-- The store writes what memory holds. -/
def Store.Silent (mem : Memory) (r : nuArchARM.Store) : Prop :=
  ∀ i, i < r.aSize.bytes → lane r.aStoreValue i = mem (r.anAddress + BitVec.ofNat 64 i)

instance (mem : Memory) (r : nuArchARM.Store) : Decidable (Store.Silent mem r) :=
  inferInstanceAs (Decidable (∀ i, i < r.aSize.bytes → _))

/-- The condition on a step: a store writes what memory holds, and where the word is not
    tracked, memory holds zeroes beyond as many of its first bytes as are stored. -/
def Harmless (mem : Memory) (A : PhysicalMemoryAddress) (s : Tracked) : TrackerEvent → Prop
  | .store _ r => Store.Silent mem r ∧ ((s.tracker.theTracker A).isNone →
    ∀ k, k < 8 → r.aSize.bytes ≤ k → mem (A + BitVec.ofNat 64 k) = 0)
  | .commitStore _ _ => True

instance (mem : Memory) (A : PhysicalMemoryAddress) (s : Tracked) : ∀ e, Decidable (Harmless mem A s e)
  | .store _ _ => inferInstanceAs (Decidable (_ ∧ _))
  | .commitStore _ _ => inferInstanceAs (Decidable True)

/-- The invariant of the runs that meet the condition: all views are the bytes of memory, and
    the local values are those of the processors with outstanding stores. -/
structure Settled (mem : Memory) (A : PhysicalMemoryAddress) (s : Tracked) : Prop where
  visible : ∀ k, k < 8 → s.views.visible k = mem (A + BitVec.ofNat 64 k)
  view : ∀ c, s.views.outstanding c ≠ [] → ∀ k, k < 8 → s.views.view c k = mem (A + BitVec.ofNat 64 k)
  stores : ∀ c, ∀ r ∈ s.views.outstanding c, r.anAddress ≠ 0 ∧ r.InWord A ∧ Store.Silent mem r
  untracked : s.tracker.theTracker A = none → ∀ c, s.views.outstanding c = []
  global : ∀ track, s.tracker.theTracker A = some track →
    ∀ k, k < 8 → lane track.theGloballyVisibleValue k = mem (A + BitVec.ofNat 64 k)
  absent : ∀ track, s.tracker.theTracker A = some track →
    ∀ c, track.find c = none → s.views.outstanding c = []
  present : ∀ track, s.tracker.theTracker A = some track → ∀ c l, track.find c = some l →
    s.views.outstanding c ≠ [] ∧ l.theOutstandingStores = (s.views.outstanding c).length ∧
      ∀ k, k < 8 → lane l.theValue k = mem (A + BitVec.ofNat 64 k)

end Tracked

/-! ## One operation -/

section Operation

variable {mem : Memory} {A : PhysicalMemoryAddress} {r : Store} {aCPU : BitVec 32} {track : ValueTrack}

/-- The bytes of the word at `A`, as memory holds them. -/
def Reads (mem : Memory) (A : PhysicalMemoryAddress) (word : Nat → BitVec 8) : Prop :=
  ∀ k, k < 8 → word k = mem (A + BitVec.ofNat 64 k)

theorem Store.InWord.address (hword : r.InWord A) (i : Nat) :
    r.anAddress + BitVec.ofNat 64 i = A + BitVec.ofNat 64 (r.lead + i) := by
  obtain ⟨rfl, -⟩ := hword
  rw [BitVec.ofNat_add, Store.lead, BitVec.ofNat_toNat, BitVec.setWidth_eq, ← BitVec.add_assoc,
    BitVec.add_comm (ValueTracker.dwAddr _), BitVec.sub_add_cancel]

/-- A store over the bytes of memory leaves them exactly when it writes what is there. -/
theorem overlaid_reads_iff {word : Nat → BitVec 8} (hword : r.InWord A) (hreads : Reads mem A word) :
    Reads mem A (r.overlaid word) ↔ Tracked.Store.Silent mem r := by
  have hin := hword.2
  constructor
  · intro h i hi
    have hk := h (r.lead + i) (by omega)
    rw [Store.overlaid, if_pos (by omega), Nat.add_sub_cancel_left] at hk
    rw [hk, hword.address]
  · intro h k hk
    rw [Store.overlaid]
    split
    · next hinside =>
      rw [h (k - r.lead) (by omega), hword.address]
      congr 3
      omega
    · exact hreads k hk

theorem reads_readPhysicalAddress : Reads mem A (lane (readPhysicalAddress mem A 8)) := by
  intro k hk
  rw [lane_readPhysicalAddress mem A (by omega), if_pos hk]

theorem reads_overlay {x : bits} (hword : r.InWord A) (hreads : Reads mem A (lane x)) :
    Reads mem A (lane (ValueTracker.overlay x r)) := by
  intro k hk
  rw [hword.lane_overlay x hk]
  exact hreads k hk

namespace ValueTracker

variable (mem A) in
theorem freshen_find {c : BitVec 32} : (freshen mem A track).find c = track.find c := by
  rw [freshen]
  split <;> rfl

theorem freshen_reads (hglobal : Reads mem A (lane track.theGloballyVisibleValue)) :
    Reads mem A (lane (freshen mem A track).theGloballyVisibleValue) := by
  rw [freshen]
  split
  · exact reads_readPhysicalAddress
  · exact hglobal

variable (aCPU) in
/-- A store to a tracked word gives its processor a local value over the bytes of memory,
    whichever of the three values it is pasted into. -/
theorem storeTracked_spec (hword : r.InWord A) (hglobal : Reads mem A (lane track.theGloballyVisibleValue))
    (hlocal : ∀ l, track.find aCPU = some l → Reads mem A (lane l.theValue)) :
    Reads mem A (lane (storeTracked mem aCPU r track).theGloballyVisibleValue) ∧
      ∃ l, (∀ c, (storeTracked mem aCPU r track).find c = if c = aCPU then some l else track.find c) ∧
        Reads mem A (lane l.theValue) ∧
          l.theOutstandingStores = ((track.find aCPU).elim 0 LocalValue.theOutstandingStores) + 1 := by
  have hfresh := freshen_reads hglobal
  have haligned : dwAddr r.anAddress = A := hword.1
  simp only [storeTracked, haligned]
  cases hfind : (freshen mem A track).find aCPU with
  | none =>
    refine ⟨hfresh, ⟨overlay (freshen mem A track).theGloballyVisibleValue r, 1⟩, fun c => ?_,
      reads_overlay hword hfresh, ?_⟩
    · dsimp only
      rw [ValueTrack.find_insertLocal (by rw [ValueTrack.find_reflect, hfind]), ValueTrack.find_reflect,
        freshen_find mem A]
    · rw [← freshen_find mem A, hfind]
      rfl
  | some l =>
    have hcount : (track.find aCPU).elim 0 LocalValue.theOutstandingStores = l.theOutstandingStores := by
      rw [← freshen_find mem A, hfind]
      rfl
    have hvalue : Reads mem A (lane l.theValue) := hlocal l (freshen_find mem A ▸ hfind)
    rw [hcount]
    dsimp only
    split
    case isTrue =>
      refine ⟨hfresh, ⟨overlay (readPhysicalAddress mem A 8) r, l.theOutstandingStores + 1⟩, fun c => ?_,
        reads_overlay hword reads_readPhysicalAddress, rfl⟩
      rw [ValueTrack.find_setLocal hfind, freshen_find mem A]
    case isFalse =>
      have hreflect : ((freshen mem A track).reflect (aCPU.setWidth 128)).find aCPU = some l := hfind
      refine ⟨hfresh, ⟨overlay l.theValue r, l.theOutstandingStores + 1⟩, fun c => ?_,
        reads_overlay hword hvalue, rfl⟩
      rw [ValueTrack.find_setLocal hreflect, ValueTrack.find_reflect, freshen_find mem A]

variable (mem aCPU) in
/-- A new entry reads as the bytes that were read, as many as are stored, and zeroes beyond. -/
theorem newTrack_spec (hword : r.InWord A) :
    (∀ k, k < 8 → lane (newTrack mem aCPU r).theGloballyVisibleValue k =
        if k < r.aSize.bytes then mem (A + BitVec.ofNat 64 k) else 0) ∧
      ∃ l, (∀ c, (newTrack mem aCPU r).find c = if c = aCPU then some l else none) ∧
        (∀ k, k < 8 → lane l.theValue k = lane (newTrack mem aCPU r).theGloballyVisibleValue k) ∧
          l.theOutstandingStores = 1 := by
  have haligned : dwAddr r.anAddress = A := hword.1
  simp only [newTrack, haligned]
  refine ⟨fun k hk => lane_readPhysicalAddress mem A (by omega),
    ⟨overlay (readPhysicalAddress mem A r.aSize.bytes) r, 1⟩, fun c => ?_,
    fun k hk => hword.lane_overlay _ hk, rfl⟩
  by_cases heq : c = aCPU
  · simp [ValueTrack.find, Keyed.lookup, heq]
  · simp [ValueTrack.find, Keyed.lookup, heq, Ne.symm heq]

/-- A commit keeps the bytes of the globally visible value and takes one store off its
    processor's count. -/
theorem commitTracked_spec {l : LocalValue} (hword : r.InWord A)
    (hglobal : Reads mem A (lane track.theGloballyVisibleValue)) (hfind : track.find aCPU = some l) :
    Reads mem A (lane (commitTracked mem aCPU r track l).theGloballyVisibleValue) ∧
      ∀ c, (commitTracked mem aCPU r track l).find c =
        if c = aCPU then
          (if l.theOutstandingStores - 1 = 0 then none else some ⟨l.theValue, l.theOutstandingStores - 1⟩)
        else track.find c := by
  have haligned : dwAddr r.anAddress = A := hword.1
  have hfresh := reads_overlay hword (freshen_reads hglobal)
  have hsame : ∀ x c, ((freshen mem A track).publish x).find c = track.find c := by
    intro x c
    rw [ValueTrack.find_publish, freshen_find mem A]
  simp only [commitTracked, haligned]
  split
  case isTrue hlast =>
    refine ⟨hfresh, fun c => ?_⟩
    rw [ValueTrack.find_eraseLocal, hsame]
  case isFalse hmore =>
    refine ⟨hfresh, fun c => ?_⟩
    rw [ValueTrack.find_setLocal ((hsame _ aCPU).trans hfind), hsame]

theorem store_eq_ok {v v' : ValueTracker} (hword : r.InWord A) (h : v.store mem aCPU r = .ok v') :
    v' = v.insert A ((v.theTracker A).elim (newTrack mem aCPU r) (storeTracked mem aCPU r)) := by
  have haligned : dwAddr r.anAddress = A := hword.1
  simp only [store, haligned] at h
  split at h
  · cases h
  · cases htrack : v.theTracker A with
    | none =>
      rw [htrack] at h
      exact (Except.ok.inj h).symm
    | some track =>
      rw [htrack] at h
      exact (Except.ok.inj h).symm

@[simp]
theorem insert_theTracker {v : ValueTracker} {t : ValueTrack} : (v.insert A t).theTracker A = some t := by
  simp [insert]

@[simp]
theorem erase_theTracker {v : ValueTracker} : (v.erase A).theTracker A = none := by
  simp [erase]

end ValueTracker

end Operation

/-! ## Runs -/

namespace Tracked

open ValueTracker

variable {mem : Memory} {A : PhysicalMemoryAddress} {r : nuArchARM.Store} {aCPU : BitVec 32}
  {s s' : Tracked} {e : TrackerEvent}

theorem settled_start : Settled mem A (start mem A) where
  visible _ _ := rfl
  view _ hne := absurd rfl hne
  stores _ _ hr := by cases hr
  untracked _ _ := rfl
  global _ htrack := by cases htrack
  absent _ htrack := by cases htrack
  present _ htrack := by cases htrack

theorem Settled.exact (hsettled : Settled mem A s) : Exact A s where
  visible track htrack k hk := (hsettled.global track htrack k hk).trans (hsettled.visible k hk).symm
  locals aCPU hne := by
    cases htrack : s.tracker.theTracker A with
    | none => exact absurd (hsettled.untracked htrack aCPU) hne
    | some track =>
      cases hfind : track.find aCPU with
      | none => exact absurd (hsettled.absent track htrack aCPU hfind) hne
      | some l =>
        refine ⟨track, l, rfl, hfind, fun k hk => ?_⟩
        rw [(hsettled.present track htrack aCPU l hfind).2.2 k hk, hsettled.view aCPU hne k hk]

/-- The entry and the local value that a commit looks for are there. -/
theorem Settled.find_of_outstanding (hsettled : Settled mem A s) (hr : r ∈ s.views.outstanding aCPU) :
    ∃ track l, s.tracker.theTracker A = some track ∧ track.find aCPU = some l := by
  obtain ⟨track, l, htrack, hfind, -⟩ := hsettled.exact.locals aCPU (List.ne_nil_of_mem hr)
  exact ⟨track, l, htrack, hfind⟩

theorem commitStore_eq {track : ValueTrack} {l : LocalValue} (hsettled : Settled mem A s)
    (hbound : r.anAddress < 0x40000000000#64) (hr : r ∈ s.views.outstanding aCPU)
    (htrack : s.tracker.theTracker A = some track) (hfind : track.find aCPU = some l) :
    s.tracker.commitStore mem aCPU r = .ok
      (if (commitTracked mem aCPU r track l).theLocallyVisibleValues = [] then s.tracker.erase A
        else s.tracker.insert A (commitTracked mem aCPU r track l)) := by
  obtain ⟨hzero, hword, -⟩ := hsettled.stores aCPU r hr
  have haligned : dwAddr r.anAddress = A := hword.1
  simp only [commitStore, haligned, htrack, hfind]
  rw [if_neg (not_or.mpr ⟨hzero, not_not.mpr hbound⟩)]
  split <;> rfl

theorem step_ok (hsettled : Settled mem A s) (hvalid : Valid A s e) : ∃ s', step mem s e = .ok s' := by
  cases e with
  | store aCPU r =>
    obtain ⟨hzero, -⟩ := hvalid
    simp only [step, ValueTracker.store, if_neg hzero]
    cases s.tracker.theTracker (dwAddr r.anAddress) <;> exact ⟨_, rfl⟩
  | commitStore aCPU r =>
    obtain ⟨hbound, hr⟩ := hvalid
    obtain ⟨track, l, htrack, hfind⟩ := hsettled.find_of_outstanding hr
    simp only [step, commitStore_eq hsettled hbound hr htrack hfind]
    exact ⟨_, rfl⟩

/-- The base of a store, as its processor sees it, is what memory holds. -/
theorem Settled.reads_base (hsettled : Settled mem A s) :
    Reads mem A (if s.views.outstanding aCPU = [] then s.views.visible else s.views.view aCPU) := by
  split
  · exact hsettled.visible
  · next hne => exact hsettled.view aCPU hne

theorem step_store (hword : r.InWord A) (hstep : step mem s (.store aCPU r) = .ok s') :
    s' = ⟨s.tracker.insert A ((s.tracker.theTracker A).elim (newTrack mem aCPU r) (storeTracked mem aCPU r)),
      s.views.store aCPU r⟩ := by
  obtain ⟨v', hv', hs'⟩ := bind_eq_ok.mp hstep
  rw [← pure_eq_ok.mp hs', store_eq_ok hword hv']

/-- A store whose result is exact writes what memory holds, and does not cut off bytes. -/
theorem harmless_of_exact (hsettled : Settled mem A s) (hvalid : Valid A s e) (hstep : step mem s e = .ok s')
    (hexact : Exact A s') : Harmless mem A s e := by
  cases e with
  | commitStore aCPU r => exact trivial
  | store aCPU r =>
    obtain ⟨-, hword⟩ := hvalid
    have hs' := step_store hword hstep
    subst hs'
    have hvisible := hexact.visible _ insert_theTracker
    obtain ⟨track', l, htrack', hfind', hview⟩ := hexact.locals aCPU (by simp [WordViews.store])
    rw [insert_theTracker, Option.some_inj] at htrack'
    subst htrack'
    simp only [WordViews.store, Function.update_self] at hvisible hview
    have hsilent : Reads mem A (lane l.theValue) → Store.Silent mem r := fun hreads =>
      (overlaid_reads_iff hword hsettled.reads_base).mp fun k hk => (hview k hk).symm.trans (hreads k hk)
    cases htrack : s.tracker.theTracker A with
    | none =>
      simp only [htrack, Option.elim_none] at hvisible hfind'
      obtain ⟨hread, l', hfind, hvalue, -⟩ := newTrack_spec mem aCPU hword
      rw [hfind, if_pos rfl, Option.some_inj] at hfind'
      subst hfind'
      have hglobal : Reads mem A (lane (newTrack mem aCPU r).theGloballyVisibleValue) := fun k hk =>
        (hvisible k hk).trans (hsettled.visible k hk)
      refine ⟨hsilent fun k hk => (hvalue k hk).trans (hglobal k hk), fun _ k hk hge => ?_⟩
      rw [← hglobal k hk, hread k hk, if_neg (by omega)]
    | some track =>
      simp only [htrack, Option.elim_some] at hfind'
      obtain ⟨-, l', hfind, hvalue, -⟩ := storeTracked_spec aCPU hword (hsettled.global track htrack)
        fun l hl => (hsettled.present track htrack aCPU l hl).2.2
      rw [hfind, if_pos rfl, Option.some_inj] at hfind'
      subst hfind'
      exact ⟨hsilent hvalue, by simp [htrack]⟩

/-- The entry after a harmless store reads as memory, and so does the local value of its
    processor, which counts one store more. -/
theorem stored_spec (hsettled : Settled mem A s) (hword : r.InWord A)
    (hharmless : Harmless mem A s (.store aCPU r)) :
    Reads mem A (lane ((s.tracker.theTracker A).elim (newTrack mem aCPU r)
        (storeTracked mem aCPU r)).theGloballyVisibleValue) ∧
      ∃ l, (∀ c, ((s.tracker.theTracker A).elim (newTrack mem aCPU r) (storeTracked mem aCPU r)).find c =
          if c = aCPU then some l else (s.tracker.theTracker A).bind fun track => track.find c) ∧
        Reads mem A (lane l.theValue) ∧ l.theOutstandingStores = (s.views.outstanding aCPU).length + 1 := by
  cases htrack : s.tracker.theTracker A with
  | none =>
    obtain ⟨hread, l, hfind, hvalue, hcount⟩ := newTrack_spec mem aCPU hword
    have hglobal : Reads mem A (lane (newTrack mem aCPU r).theGloballyVisibleValue) := by
      intro k hk
      rw [hread k hk]
      split
      · rfl
      · next hge => exact (hharmless.2 (by simp [htrack]) k hk (by omega)).symm
    refine ⟨hglobal, l, hfind, fun k hk => (hvalue k hk).trans (hglobal k hk), ?_⟩
    rw [hcount, hsettled.untracked htrack aCPU]
    rfl
  | some track =>
    obtain ⟨hglobal, l, hfind, hvalue, hcount⟩ := storeTracked_spec aCPU hword
      (hsettled.global track htrack) fun l hl => (hsettled.present track htrack aCPU l hl).2.2
    refine ⟨hglobal, l, hfind, hvalue, ?_⟩
    rw [hcount]
    cases hold : track.find aCPU with
    | none => rw [hsettled.absent track htrack aCPU hold]; rfl
    | some l' => rw [Option.elim_some, (hsettled.present track htrack aCPU l' hold).2.1]

theorem Settled.store (hsettled : Settled mem A s) (hzero : r.anAddress ≠ 0) (hword : r.InWord A)
    (hharmless : Harmless mem A s (.store aCPU r)) (hstep : step mem s (.store aCPU r) = .ok s') :
    Settled mem A s' := by
  obtain ⟨hglobal, l, hfind, hvalue, hcount⟩ := stored_spec hsettled hword hharmless
  rw [step_store hword hstep]
  have hother : ∀ c, c ≠ aCPU → (s.views.store aCPU r).outstanding c = s.views.outstanding c ∧
      (s.views.store aCPU r).view c = s.views.view c := fun c hc =>
    ⟨Function.update_of_ne hc _ _, Function.update_of_ne hc _ _⟩
  have hown : (s.views.store aCPU r).outstanding aCPU = s.views.outstanding aCPU ++ [r] :=
    Function.update_self _ _ _
  refine ⟨hsettled.visible, fun c hne => ?_, fun c x hx => ?_, fun hnone => ?_, fun track htrack => ?_,
    fun track htrack c hnone => ?_, fun track htrack c l' hl' => ?_⟩
  · by_cases hc : c = aCPU
    · subst hc
      simp only [WordViews.store, Function.update_self]
      exact (overlaid_reads_iff hword hsettled.reads_base).mpr hharmless.1
    · rw [(hother c hc).1] at hne
      rw [(hother c hc).2]
      exact hsettled.view c hne
  · by_cases hc : c = aCPU
    · subst hc
      rw [hown] at hx
      obtain hold | hnew := List.mem_append.mp hx
      · exact hsettled.stores c x hold
      · rw [List.mem_singleton.mp hnew]
        exact ⟨hzero, hword, hharmless.1⟩
    · rw [(hother c hc).1] at hx
      exact hsettled.stores c x hx
  · simp at hnone
  · obtain rfl := Option.some_inj.mp (insert_theTracker.symm.trans htrack)
    exact hglobal
  · obtain rfl := Option.some_inj.mp (insert_theTracker.symm.trans htrack)
    rw [hfind] at hnone
    by_cases hc : c = aCPU
    · rw [if_pos hc] at hnone
      cases hnone
    · rw [if_neg hc] at hnone
      rw [(hother c hc).1]
      cases hold : s.tracker.theTracker A with
      | none => exact hsettled.untracked hold c
      | some track => exact hsettled.absent track hold c (by simpa [hold] using hnone)
  · obtain rfl := Option.some_inj.mp (insert_theTracker.symm.trans htrack)
    rw [hfind] at hl'
    by_cases hc : c = aCPU
    · subst hc
      rw [if_pos rfl, Option.some_inj] at hl'
      subst hl'
      rw [hown]
      exact ⟨by simp, by rw [hcount]; simp, hvalue⟩
    · rw [if_neg hc] at hl'
      rw [(hother c hc).1]
      obtain ⟨track, hold, hl⟩ := Option.bind_eq_some_iff.mp hl'
      exact hsettled.present track hold c l' hl

theorem Settled.commitStore (hsettled : Settled mem A s) (hbound : r.anAddress < 0x40000000000#64)
    (hr : r ∈ s.views.outstanding aCPU) (hstep : step mem s (.commitStore aCPU r) = .ok s') :
    Settled mem A s' := by
  obtain ⟨track, l, htrack, hfind⟩ := hsettled.find_of_outstanding hr
  obtain ⟨-, hword, hsilent⟩ := hsettled.stores aCPU r hr
  obtain ⟨-, hlength, hvalue⟩ := hsettled.present track htrack aCPU l hfind
  obtain ⟨hglobal, hafter⟩ := commitTracked_spec hword (hsettled.global track htrack) hfind
  have herase := List.length_erase_of_mem hr
  obtain ⟨v', hv', hs'⟩ := bind_eq_ok.mp hstep
  rw [commitStore_eq hsettled hbound hr htrack hfind] at hv'
  have hown : (s.views.commitStore aCPU r).outstanding aCPU = (s.views.outstanding aCPU).erase r :=
    Function.update_self _ _ _
  have hother : ∀ c, c ≠ aCPU → (s.views.commitStore aCPU r).outstanding c = s.views.outstanding c :=
    fun c hc => Function.update_of_ne hc _ _
  have hsub : ∀ c x, x ∈ (s.views.commitStore aCPU r).outstanding c → x ∈ s.views.outstanding c := by
    intro c x hx
    by_cases hc : c = aCPU
    · subst hc
      rw [hown] at hx
      exact List.mem_of_mem_erase hx
    · rwa [hother c hc] at hx
  have habsent : ∀ c, (commitTracked mem aCPU r track l).find c = none →
      (s.views.commitStore aCPU r).outstanding c = [] := by
    intro c hnone
    rw [hafter] at hnone
    by_cases hc : c = aCPU
    · subst hc
      have hlast : l.theOutstandingStores - 1 = 0 := by
        by_contra hmore
        simp [hmore] at hnone
      rw [hown]
      apply List.eq_nil_of_length_eq_zero
      omega
    · rw [if_neg hc] at hnone
      rw [hother c hc]
      exact hsettled.absent track htrack c hnone
  have htracker : s'.tracker.theTracker A =
      if (commitTracked mem aCPU r track l).theLocallyVisibleValues = [] then none
      else some (commitTracked mem aCPU r track l) := by
    rw [← pure_eq_ok.mp hs', ← Except.ok.inj hv']
    split
    · exact erase_theTracker
    · exact insert_theTracker
  have htracked : ∀ track', s'.tracker.theTracker A = some track' → track' = commitTracked mem aCPU r track l := by
    intro track' htrack'
    rw [htracker] at htrack'
    split at htrack'
    · cases htrack'
    · exact (Option.some_inj.mp htrack').symm
  rw [← pure_eq_ok.mp hs'] at htracker htracked ⊢
  refine ⟨(overlaid_reads_iff hword hsettled.visible).mpr hsilent, fun c hne => ?_, fun c x hx => ?_,
    fun hnone c => ?_, fun track' htrack' => ?_, fun track' htrack' c hnone => ?_,
    fun track' htrack' c l' hl' => ?_⟩
  · obtain ⟨x, hx⟩ := List.exists_mem_of_ne_nil _ hne
    exact hsettled.view c (List.ne_nil_of_mem (hsub c x hx))
  · exact hsettled.stores c x (hsub c x hx)
  · rw [htracker] at hnone
    split at hnone
    · next hnil => exact habsent c (ValueTrack.find_eq_none_of_nil hnil)
    · cases hnone
  · rw [htracked track' htrack']
    exact hglobal
  · rw [htracked track' htrack'] at hnone
    exact habsent c hnone
  · rw [htracked track' htrack', hafter] at hl'
    by_cases hc : c = aCPU
    · subst hc
      rw [if_pos rfl] at hl'
      split at hl'
      · cases hl'
      · next hmore =>
        rw [← Option.some_inj.mp hl', hown]
        refine ⟨List.ne_nil_of_length_pos (by omega), ?_, hvalue⟩
        dsimp only
        omega
    · rw [if_neg hc] at hl'
      rw [hother c hc]
      exact hsettled.present track htrack c l' hl'

/-- In a run of stores and commits on one word the tracker has the views of the word in every
    state exactly when every store writes what memory holds, and finds the word tracked or
    memory with zeroes beyond the bytes it makes the entry from. -/
theorem views_exact_iff (mem : Memory) (A : PhysicalMemoryAddress) (events : List TrackerEvent)
    (hvalid : EachMeets (step mem) (Valid A) (start mem A) events) :
    Throughout (step mem) (Exact A) (start mem A) events ↔
      EachMeets (step mem) (Harmless mem A) (start mem A) events := by
  have hkeep : ∀ s e s', Settled mem A s → Valid A s e → Harmless mem A s e → step mem s e = .ok s' →
      Settled mem A s' := by
    intro s e s' hsettled hone hmeets hstep
    cases e with
    | store aCPU r => exact hsettled.store hone.1 hone.2 hmeets hstep
    | commitStore aCPU r => exact hsettled.commitStore hone.1 hone.2 hstep
  exact throughout_iff (fun _ hsettled => hsettled.exact) (fun _ _ hsettled hone => step_ok hsettled hone)
    (fun _ _ _ hsettled hone hstep hexact => harmless_of_exact hsettled hone hstep hexact) hkeep settled_start
    hvalid

/-- Two processors store the byte that memory holds, and commit in the other order. -/
theorem views_exact_silent :
    Throughout (step fun a => if a = 0x1000 then 0x11 else 0) (Exact 0x1000)
      (start (fun a => if a = 0x1000 then 0x11 else 0) 0x1000)
      [.store 0 ⟨0x1000, .kByte, 0x11⟩, .store 1 ⟨0x1000, .kDoubleWord, 0x11⟩,
        .store 0 ⟨0x1002, .kHalfWord, 0⟩, .commitStore 1 ⟨0x1000, .kDoubleWord, 0x11⟩,
        .commitStore 0 ⟨0x1000, .kByte, 0x11⟩] :=
  (views_exact_iff _ 0x1000 _ (by decide)).mpr (by decide)

/-- The byte 0x11 is stored to a word of zeroes: the local value reads as zero there. -/
theorem views_not_exact :
    ¬ ∀ (mem : Memory) (A : PhysicalMemoryAddress) (events : List TrackerEvent),
      EachMeets (step mem) (Valid A) (start mem A) events →
        Throughout (step mem) (Exact A) (start mem A) events := by
  intro hall
  have hvalid : Valid 0x1000 (start (fun _ => 0) 0x1000) (.store 0 ⟨0x1000, .kByte, 0x11⟩) := by decide
  obtain ⟨s', hs'⟩ := step_ok settled_start hvalid
  have hexact := hall (fun _ => 0) 0x1000 [.store 0 ⟨0x1000, .kByte, 0x11⟩] (by decide)
  simp only [Throughout, hs'] at hexact
  exact absurd (harmless_of_exact settled_start hvalid hs' hexact.2) (by decide)

end Tracked

end nuArchARM
