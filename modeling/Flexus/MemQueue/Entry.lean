import Mathlib.Data.List.Basic
import Mathlib.Tactic

namespace nuArchARM

/-- Machine values are 128-bit unsigned integers, addresses are 64-bit ones. -/
abbrev bits := BitVec 128
abbrev PhysicalMemoryAddress := BitVec 64

inductive eSize where
  | kByte
  | kHalfWord
  | kWord
  | kDoubleWord
  | kQuadWord
  deriving DecidableEq, Repr

/-- The number of bytes an access of this size touches. -/
def eSize.bytes : eSize → Nat
  | .kByte => 1
  | .kHalfWord => 2
  | .kWord => 4
  | .kDoubleWord => 8
  | .kQuadWord => 16

/-- The operations a memory queue entry can be created with. -/
inductive eOperation where
  | kLoad
  | kRMW
  | kCAS
  | kCASP
  | kStore
  | kMEMBARMarker
  deriving DecidableEq, Repr

inductive eStatus where
  | kComplete
  | kAnnulled
  | kIssuedToMemory
  | kAwaitingIssue
  | kAwaitingPort
  | kAwaitingAddress
  | kAwaitingValue
  deriving DecidableEq, Repr

inductive eQueue where
  | kLSQ
  | kSSB
  | kSB
  deriving DecidableEq, Repr

def kInvalid : PhysicalMemoryAddress := 0#64
def kUnresolved : PhysicalMemoryAddress := -1#64

/-- One entry of the memory queue. The sequence number also stands for the
    instruction: both are assigned together and neither ever changes, so an
    iterator of the `by_insn` index is a sequence number here. The instruction
    that depends on a load's value is only known to be there or not, and an
    entry linked to a miss register only remembers that it is. -/
structure MemQueueEntry where
  theSequenceNum : Nat
  thePaddr_aligned : PhysicalMemoryAddress
  theQueue : eQueue
  thePaddr : PhysicalMemoryAddress
  theSideEffect : Bool
  theInverseEndian : Bool
  theException : Bool
  theOperation : eOperation
  theSize : eSize
  theDependance : Bool
  theAnnulled : Bool
  thePartialSnoop : Bool
  theIssued : Bool
  theMSHR : Bool
  theExtendedValue : Option bits
  theValue : Option bits
  theCompareValue : Option bits
  deriving DecidableEq, Repr

namespace MemQueueEntry

/-- The constructor: no address, no value, no request. -/
def create (aSequenceNum : Nat) (anOperation : eOperation) (aSize : eSize) (aDependance : Bool) :
    MemQueueEntry where
  theSequenceNum := aSequenceNum
  thePaddr_aligned := kUnresolved
  theQueue := .kLSQ
  thePaddr := kUnresolved
  theSideEffect := false
  theInverseEndian := false
  theException := false
  theOperation := anOperation
  theSize := aSize
  theDependance := aDependance
  theAnnulled := false
  thePartialSnoop := false
  theIssued := false
  theMSHR := false
  theExtendedValue := none
  theValue := none
  theCompareValue := none

/-- `updatePaddr`: the address and, through the index, the bucket key change together. -/
def setPaddr (e : MemQueueEntry) (anAddr : PhysicalMemoryAddress) : MemQueueEntry :=
  { e with thePaddr := anAddr, thePaddr_aligned := anAddr &&& 0xFFFFFFFFFFFFFFF8#64 }

def isStore (e : MemQueueEntry) : Bool :=
  e.theOperation == .kStore || e.theOperation == .kRMW || e.theOperation == .kCAS

def isLoad (e : MemQueueEntry) : Bool :=
  e.theOperation == .kLoad || e.theOperation == .kRMW || e.theOperation == .kCAS

def isAtomic (e : MemQueueEntry) : Bool :=
  e.theOperation == .kRMW || e.theOperation == .kCAS || e.theOperation == .kCASP

def isAbnormalAccess (e : MemQueueEntry) : Bool :=
  e.theSideEffect || e.theException

/-- The value slot the load half of an entry reads and writes. -/
def loadValue (e : MemQueueEntry) : Option bits :=
  if e.isAtomic then e.theExtendedValue else e.theValue

/-- Assignment through the reference `loadValue()` returns. -/
def setLoadValue (e : MemQueueEntry) (v : Option bits) : MemQueueEntry :=
  if e.isAtomic then { e with theExtendedValue := v } else { e with theValue := v }

def status (e : MemQueueEntry) : eStatus :=
  if e.theAnnulled then .kAnnulled
  else if e.theOperation = .kMEMBARMarker then .kIssuedToMemory
  else if e.thePaddr = kUnresolved then .kAwaitingAddress
  else match e.theOperation with
    | .kLoad =>
      if e.theValue.isSome then .kComplete
      else if e.theMSHR then .kIssuedToMemory
      else if e.theIssued then .kAwaitingPort
      else .kAwaitingIssue
    | .kStore =>
      if e.theValue.isNone then .kAwaitingValue
      else if e.theMSHR then .kIssuedToMemory
      else if e.theIssued then .kAwaitingPort
      else .kAwaitingIssue
    | .kRMW | .kCAS =>
      if e.theValue.isSome && e.theExtendedValue.isSome then .kComplete
      else if e.theMSHR then .kIssuedToMemory
      else if e.theIssued then .kAwaitingPort
      else .kAwaitingIssue
    -- Other operations fail an assertion; the value returned after it is never used.
    | _ => .kComplete

/-- A store that takes part in forwarding: not annulled. -/
def isLiveStore (e : MemQueueEntry) : Bool :=
  e.isStore && e.status != .kAnnulled

/-- Being annulled is the first thing `status` tests. -/
theorem status_eq_annulled_iff (e : MemQueueEntry) :
    e.status = .kAnnulled ↔ e.theAnnulled = true := by
  constructor
  · intro hstatus
    by_contra hlive
    revert hstatus
    rw [status, if_neg hlive]
    repeat' split
    all_goals simp
  · intro hannulled
    simp [status, hannulled]

theorem isLiveStore_iff (e : MemQueueEntry) :
    e.isLiveStore = true ↔ e.isStore = true ∧ e.theAnnulled = false := by
  have hstatus := e.status_eq_annulled_iff
  simp [isLiveStore, hstatus]

@[simp] theorem loadValue_setLoadValue (e : MemQueueEntry) (v : Option bits) :
    (e.setLoadValue v).loadValue = v := by
  unfold setLoadValue loadValue isAtomic
  split <;> simp_all

/-- The bucket key of a resolved entry is its address with the low three bits cleared. -/
def Aligned (e : MemQueueEntry) : Prop :=
  e.thePaddr_aligned = e.thePaddr &&& 0xFFFFFFFFFFFFFFF8#64

instance (e : MemQueueEntry) : Decidable e.Aligned :=
  inferInstanceAs (Decidable (_ = _))

/-- A later version of the same entry: its place in program order and its byte
    order are fixed, and its address is the old one or unresolved again. -/
structure SameKey (e e' : MemQueueEntry) : Prop where
  seq : e'.theSequenceNum = e.theSequenceNum
  endian : e'.theInverseEndian = e.theInverseEndian
  addr : (e'.thePaddr = e.thePaddr ∧ e'.thePaddr_aligned = e.thePaddr_aligned) ∨
    (e'.thePaddr = kUnresolved ∧ e'.thePaddr_aligned = kUnresolved)

theorem SameKey.of_eq {e e' : MemQueueEntry} (hseq : e'.theSequenceNum = e.theSequenceNum)
    (hendian : e'.theInverseEndian = e.theInverseEndian) (hpaddr : e'.thePaddr = e.thePaddr)
    (haligned : e'.thePaddr_aligned = e.thePaddr_aligned) : e.SameKey e' :=
  ⟨hseq, hendian, .inl ⟨hpaddr, haligned⟩⟩

theorem SameKey.refl (e : MemQueueEntry) : e.SameKey e :=
  .of_eq rfl rfl rfl rfl

theorem SameKey.trans {a b c : MemQueueEntry} (hab : a.SameKey b) (hbc : b.SameKey c) :
    a.SameKey c := by
  refine ⟨hbc.seq.trans hab.seq, hbc.endian.trans hab.endian, ?_⟩
  obtain ⟨hpaddr, haligned⟩ | hunresolved := hbc.addr
  · rw [hpaddr, haligned]
    exact hab.addr
  · exact .inr hunresolved

end MemQueueEntry

/-- The memory queue in program order. Entries are appended with increasing
    sequence numbers, every resolved address determines its bucket key, and no
    code ever sets the inverse-endian flag the constructor clears. -/
structure memq_t where
  entries : List MemQueueEntry
  ordered : entries.Pairwise (fun a b => a.theSequenceNum < b.theSequenceNum)
  aligned : ∀ e ∈ entries, e.thePaddr ≠ kUnresolved → e.Aligned
  native : ∀ e ∈ entries, e.theInverseEndian = false

namespace memq_t

/-- The queue after some of its entries are changed in place. -/
def modify (q : memq_t) (f : MemQueueEntry → MemQueueEntry) (hf : ∀ e : MemQueueEntry, e.SameKey (f e)) :
    memq_t where
  entries := q.entries.map f
  ordered := by
    rw [List.pairwise_map]
    exact q.ordered.imp fun {a b} hab => by rw [(hf a).seq, (hf b).seq]; exact hab
  aligned := by
    intro e' he' hresolved
    obtain ⟨e, he, rfl⟩ := List.mem_map.mp he'
    obtain ⟨hpaddr, haligned⟩ | ⟨hunresolved, _⟩ := (hf e).addr
    · have hold := q.aligned e he (hpaddr ▸ hresolved)
      rw [MemQueueEntry.Aligned, hpaddr, haligned]
      exact hold
    · exact absurd hunresolved hresolved
  native := by
    intro e' he'
    obtain ⟨e, he, rfl⟩ := List.mem_map.mp he'
    rw [(hf e).endian]
    exact q.native e he

/-- `theMemQueue.get<by_insn>().find`. -/
def find (q : memq_t) (s : Nat) : Option MemQueueEntry :=
  q.entries.find? fun e => e.theSequenceNum == s

/-- The entries of one bucket of the `by_paddr` index that are older than `s`,
    oldest first: the range from `lower_bound(aligned)` to the entry itself. -/
def olderInBucket (q : memq_t) (a : PhysicalMemoryAddress) (s : Nat) : List MemQueueEntry :=
  q.entries.filter fun e => e.thePaddr_aligned == a && decide (e.theSequenceNum < s)

/-- The youngest of these entries that is selected by `p`: a walk backwards from
    the entry `s` through its bucket. -/
def youngestOlder (q : memq_t) (a : PhysicalMemoryAddress) (s : Nat) (p : MemQueueEntry → Bool) :
    Option MemQueueEntry :=
  (q.olderInBucket a s).reverse.find? p

/-- `lower_bound(aligned, s)` of the `by_paddr` index, or nothing when that
    iterator is already past the bucket. -/
def lowerBound (q : memq_t) (a : PhysicalMemoryAddress) (s : Nat) : Option MemQueueEntry :=
  q.entries.find? fun e => e.thePaddr_aligned == a && decide (s ≤ e.theSequenceNum)

/-- `insertLSQ`: a new entry gets the next sequence number and no address. -/
def insertLSQ (q : memq_t) (s : Nat) (hs : ∀ e ∈ q.entries, e.theSequenceNum < s)
    (anOperation : eOperation) (aSize : eSize) (aDependance : Bool) : memq_t where
  entries := q.entries ++ [.create s anOperation aSize aDependance]
  ordered := by
    rw [List.pairwise_append]
    refine ⟨q.ordered, List.pairwise_singleton _ _, ?_⟩
    intro e he e' he'
    obtain rfl := List.mem_singleton.mp he'
    exact hs e he
  aligned := by
    intro e he hresolved
    rw [List.mem_append, List.mem_singleton] at he
    obtain he | rfl := he
    · exact q.aligned e he hresolved
    · exact absurd rfl hresolved
  native := by
    intro e he
    rw [List.mem_append, List.mem_singleton] at he
    obtain he | rfl := he
    · exact q.native e he
    · rfl

def updatePaddr (q : memq_t) (s : Nat) (anAddr : PhysicalMemoryAddress) : memq_t where
  entries := q.entries.map fun e => if e.theSequenceNum = s then e.setPaddr anAddr else e
  ordered := by
    rw [List.pairwise_map]
    refine q.ordered.imp ?_
    intro a b hab
    split <;> split <;> exact hab
  aligned := by
    intro e' he' hresolved
    obtain ⟨e, he, rfl⟩ := List.mem_map.mp he'
    split at hresolved
    case isTrue hs => rw [if_pos hs]; rfl
    case isFalse hs => rw [if_neg hs]; exact q.aligned e he hresolved
  native := by
    intro e' he'
    obtain ⟨e, he, rfl⟩ := List.mem_map.mp he'
    split <;> exact q.native e he

theorem mem_olderInBucket {q : memq_t} {a : PhysicalMemoryAddress} {s : Nat} {e : MemQueueEntry} :
    e ∈ q.olderInBucket a s ↔ e ∈ q.entries ∧ e.thePaddr_aligned = a ∧ e.theSequenceNum < s := by
  simp [olderInBucket]

/-- Sequence numbers identify entries. -/
theorem eq_of_seq {q : memq_t} {e e' : MemQueueEntry} (he : e ∈ q.entries) (he' : e' ∈ q.entries)
    (hseq : e.theSequenceNum = e'.theSequenceNum) : e = e' := by
  have hnodup : (q.entries.map MemQueueEntry.theSequenceNum).Nodup := by
    rw [List.Nodup, List.pairwise_map]
    exact q.ordered.imp fun hab => Nat.ne_of_lt hab
  exact List.inj_on_of_nodup_map hnodup he he' hseq

theorem find_eq_some {q : memq_t} {s : Nat} {e : MemQueueEntry} :
    q.find s = some e ↔ e ∈ q.entries ∧ e.theSequenceNum = s := by
  constructor
  · intro hfind
    exact ⟨List.mem_of_find?_eq_some hfind, by simpa using List.find?_some hfind⟩
  · rintro ⟨hmem, rfl⟩
    obtain ⟨found, hfound⟩ : ∃ found, q.find e.theSequenceNum = some found := by
      rw [← Option.isSome_iff_exists, find, List.find?_isSome]
      exact ⟨e, hmem, by simp⟩
    have hseq : found.theSequenceNum = e.theSequenceNum := by simpa using List.find?_some hfound
    rw [hfound, eq_of_seq (List.mem_of_find?_eq_some hfound) hmem hseq]

/-- The entry `m` is the youngest older entry of the bucket that `p` selects. -/
structure IsYoungest (q : memq_t) (a : PhysicalMemoryAddress) (s : Nat) (p : MemQueueEntry → Bool)
    (m : MemQueueEntry) : Prop where
  mem : m ∈ q.entries
  bucket : m.thePaddr_aligned = a
  older : m.theSequenceNum < s
  selected : p m = true
  youngest : ∀ x ∈ q.entries, x.thePaddr_aligned = a → x.theSequenceNum < s → p x = true →
    x.theSequenceNum ≤ m.theSequenceNum

section YoungestOlder

variable {q : memq_t} {a : PhysicalMemoryAddress} {s : Nat} {p : MemQueueEntry → Bool}

theorem IsYoungest.unique {m m' : MemQueueEntry} (h : q.IsYoungest a s p m)
    (h' : q.IsYoungest a s p m') : m = m' := by
  refine eq_of_seq h.mem h'.mem (le_antisymm ?_ ?_)
  · exact h'.youngest m h.mem h.bucket h.older h.selected
  · exact h.youngest m' h'.mem h'.bucket h'.older h'.selected

private theorem isYoungest_of_youngestOlder {m : MemQueueEntry}
    (h : q.youngestOlder a s p = some m) : q.IsYoungest a s p m := by
  have hmem := List.mem_of_find?_eq_some h
  rw [List.mem_reverse, mem_olderInBucket] at hmem
  refine ⟨hmem.1, hmem.2.1, hmem.2.2, List.find?_some h, ?_⟩
  intro x hx hbucket holder hsel
  obtain ⟨-, before, after, hsplit, hfirst⟩ := List.find?_eq_some_iff_append.mp h
  have hx' : x ∈ (q.olderInBucket a s).reverse := by
    rw [List.mem_reverse, mem_olderInBucket]
    exact ⟨hx, hbucket, holder⟩
  have hordered : (q.olderInBucket a s).reverse.Pairwise
      (fun a b => b.theSequenceNum < a.theSequenceNum) := by
    rw [List.pairwise_reverse]
    exact q.ordered.filter _
  rw [hsplit] at hx' hordered
  rw [List.pairwise_append] at hordered
  obtain ⟨-, htail, -⟩ := hordered
  rw [List.mem_append, List.mem_cons] at hx'
  obtain hbefore | rfl | hafter := hx'
  · have hnot := hfirst x hbefore
    simp [hsel] at hnot
  · exact le_rfl
  · exact (List.rel_of_pairwise_cons htail hafter).le

theorem youngestOlder_eq_none_iff : q.youngestOlder a s p = none ↔
    ∀ x ∈ q.entries, x.thePaddr_aligned = a → x.theSequenceNum < s → p x = false := by
  rw [youngestOlder, List.find?_eq_none]
  simp only [List.mem_reverse, mem_olderInBucket, Bool.not_eq_true, and_imp]

theorem youngestOlder_eq_some_iff {m : MemQueueEntry} :
    q.youngestOlder a s p = some m ↔ q.IsYoungest a s p m := by
  constructor
  · exact isYoungest_of_youngestOlder
  · intro hm
    cases hfound : q.youngestOlder a s p with
    | none =>
      have hnone := youngestOlder_eq_none_iff.mp hfound m hm.mem hm.bucket hm.older
      simp [hm.selected] at hnone
    | some m' => rw [(isYoungest_of_youngestOlder hfound).unique hm]

end YoungestOlder

end memq_t

end nuArchARM
