import Flexus.CmpCache.Message
import Flexus.Lib.OrderedIndex

/-!
# The miss address file

The requests the controller is working on or has put off, ordered by block
address and state.
-/

namespace nCMPCache

inductive MAFState where
  | eWaitSet | eWaitRequest | eWaitEvict | eWaitAck | eWaking | eInPipeline | eWaitRevoke
  | eFinishing
  deriving DecidableEq, Repr

def MAFState.toNat : MAFState → Nat
  | .eWaitSet => 0
  | .eWaitRequest => 1
  | .eWaitEvict => 2
  | .eWaitAck => 3
  | .eWaking => 4
  | .eInPipeline => 5
  | .eWaitRevoke => 6
  | .eFinishing => 7

/-- An entry of the file. The stamp counts the insertions, so it stands for an
    iterator to the entry and for its place in the sequenced index. -/
structure MAFEntry where
  stamp : Nat
  address : MemoryAddress
  state : MAFState
  cacheEBReserved : Int := 0
  transport : MemoryTransport
  deriving DecidableEq, Repr

namespace MAFEntry

def type (e : MAFEntry) : MemoryMessageType := e.transport.msg.type

def requester (e : MAFEntry) : Int := e.transport.dest.requester

/-- The composite key of the address index. -/
def key (e : MAFEntry) : ℕ ×ₗ ℕ := toLex (e.address, e.state.toNat)

/-- The entry is in the given state and belongs to the given block. -/
def At (e : MAFEntry) (a : MemoryAddress) (st : MAFState) : Prop := e.address = a ∧ e.state = st

instance (e : MAFEntry) (a : MemoryAddress) (st : MAFState) : Decidable (e.At a st) :=
  inferInstanceAs (Decidable (_ ∧ _))

end MAFEntry

/-- The file, in the order of its address index. Several entries may share address
    and state; stamps are unique and the next one is fresh. -/
structure MissAddressFile where
  entries : List MAFEntry
  nextStamp : Nat
  theSize : Nat
  theCurSize : Int
  ascending : OrderedIndex.Ascending MAFEntry.key entries
  stamps : (entries.map MAFEntry.stamp).Nodup
  stamp_lt : ∀ e ∈ entries, e.stamp < nextStamp

namespace MissAddressFile

def create (aSize : Nat) : MissAddressFile where
  entries := []
  nextStamp := 0
  theSize := aSize
  theCurSize := 0
  ascending := List.Pairwise.nil
  stamps := List.nodup_nil
  stamp_lt := by simp

/-- The entry an iterator points to, when it is still there. -/
def get? (m : MissAddressFile) (i : Nat) : Option MAFEntry := m.entries.find? fun e => e.stamp == i

/-- The entry of the block that is in the lowest state. -/
def find (m : MissAddressFile) (a : MemoryAddress) : Option MAFEntry :=
  m.entries.find? fun e => e.address == a

def findFirst (m : MissAddressFile) (a : MemoryAddress) (st : MAFState) : Option MAFEntry :=
  m.entries.find? fun e => e.At a st

def findAll (m : MissAddressFile) (a : MemoryAddress) (st : MAFState) : List MAFEntry :=
  m.entries.filter fun e => e.At a st

/-- The entries in the order they were inserted. -/
def ordered (m : MissAddressFile) : List MAFEntry :=
  m.entries.insertionSort fun x y => x.stamp ≤ y.stamp

/-- With so many places reserved, no further one can be. -/
def full (m : MissAddressFile) (reserve : Int) : Bool := m.theSize ≤ m.theCurSize + reserve

def insert (m : MissAddressFile) (t : MemoryTransport) (a : MemoryAddress) (st : MAFState) :
    MissAddressFile where
  entries := OrderedIndex.link MAFEntry.key
    { stamp := m.nextStamp, address := a, state := st, transport := t } m.entries
  nextStamp := m.nextStamp + 1
  theSize := m.theSize
  theCurSize := m.theCurSize + 1
  ascending := OrderedIndex.ascending_link m.ascending
  stamps := by
    refine (OrderedIndex.link_perm.map _).nodup_iff.mpr (List.nodup_cons.mpr ⟨?_, m.stamps⟩)
    intro hmem
    obtain ⟨e, he, heq⟩ := List.mem_map.mp hmem
    exact (m.stamp_lt e he).ne heq
  stamp_lt := by
    intro e he
    rcases OrderedIndex.mem_link.mp he with rfl | he
    · exact Nat.lt_succ_self _
    · exact (m.stamp_lt e he).trans (Nat.lt_succ_self _)

/-- The entries after the one with the given stamp was changed. -/
def modifyEntries (l : List MAFEntry) (i : Nat) (f : MAFEntry → MAFEntry) : List MAFEntry :=
  OrderedIndex.modify MAFEntry.key (fun e => e.stamp == i) f l

theorem modifyEntries_perm {l : List MAFEntry} {i : Nat} {f : MAFEntry → MAFEntry}
    (hstamps : (l.map MAFEntry.stamp).Nodup) :
    (modifyEntries l i f).Perm (l.map fun e => if e.stamp = i then f e else e) := by
  have huniq : l.Pairwise fun x y => (x.stamp == i) = true → (y.stamp == i) = false := by
    refine (List.pairwise_map.mp hstamps).imp fun {x y} hne hx => ?_
    rw [beq_iff_eq] at hx
    rw [beq_eq_false_iff_ne, ← hx]
    exact hne.symm
  simpa only [beq_iff_eq] using! OrderedIndex.modify_perm (f := f) huniq

/-- Changing an entry through an iterator: every index is restored. -/
def modify (m : MissAddressFile) (i : Nat) (f : MAFEntry → MAFEntry)
    (hf : ∀ e, (f e).stamp = e.stamp) : MissAddressFile where
  entries := modifyEntries m.entries i f
  nextStamp := m.nextStamp
  theSize := m.theSize
  theCurSize := m.theCurSize
  ascending := OrderedIndex.ascending_modify m.ascending
  stamps := by
    refine ((modifyEntries_perm m.stamps).map _).nodup_iff.mpr ?_
    have hstamp : (m.entries.map fun e => if e.stamp = i then f e else e).map MAFEntry.stamp =
        m.entries.map MAFEntry.stamp := by
      rw [List.map_map]
      refine List.map_congr_left fun e _ => ?_
      simp only [Function.comp_apply]
      split
      · exact hf e
      · rfl
    rw [hstamp]
    exact m.stamps
  stamp_lt := by
    intro e he
    obtain ⟨x, hx, rfl⟩ := List.mem_map.mp ((modifyEntries_perm m.stamps).mem_iff.mp he)
    split
    · rw [hf]
      exact m.stamp_lt x hx
    · exact m.stamp_lt x hx

/-- The state of an entry changes, together with the transport it shares with the
    process that changes it. -/
def setState (m : MissAddressFile) (i : Nat) (st : MAFState) (t : MemoryTransport) :
    MissAddressFile :=
  m.modify i (fun e => { e with state := st, transport := t }) fun _ => rfl

def setCacheEBReserved (m : MissAddressFile) (i : Nat) (reserved : Int) : MissAddressFile :=
  m.modify i (fun e => { e with cacheEBReserved := reserved }) fun _ => rfl

def setTransport (m : MissAddressFile) (i : Nat) (t : MemoryTransport) : MissAddressFile :=
  m.modify i (fun e => { e with transport := t }) fun _ => rfl

def wake (m : MissAddressFile) (i : Nat) : MissAddressFile :=
  m.modify i (fun e => { e with state := .eWaking }) fun _ => rfl

def wakeAll (m : MissAddressFile) (is : List Nat) : MissAddressFile := is.foldl wake m

def remove (m : MissAddressFile) (i : Nat) : MissAddressFile where
  entries := m.entries.filter fun e => e.stamp != i
  nextStamp := m.nextStamp
  theSize := m.theSize
  theCurSize := m.theCurSize - 1
  ascending := m.ascending.sublist List.filter_sublist
  stamps := m.stamps.sublist (List.filter_sublist.map _)
  stamp_lt := fun e he => m.stamp_lt e (List.mem_of_mem_filter he)

/-- Wake an entry that waits for an eviction, then every request for its block that
    waits behind another one, in the order of the address index. -/
def wakeAfterEvict (m : MissAddressFile) (e : MAFEntry) : MissAddressFile :=
  let woken := m.wake e.stamp
  woken.wakeAll ((woken.findAll e.address .eWaitRequest).map MAFEntry.stamp)

def hasWakingEntry (m : MissAddressFile) : Bool := m.entries.any fun e => e.state == .eWaking

/-- The waking entry that was inserted first. -/
def peekWakingMAF (m : MissAddressFile) : Option MAFEntry :=
  m.ordered.find? fun e => e.state == .eWaking

/-- The entry `peekWakingMAF` finds goes into the pipeline. -/
def getWakingMAF (m : MissAddressFile) : Except Fault (MissAddressFile × MAFEntry) :=
  match m.peekWakingMAF with
  | some e =>
    .ok (m.modify e.stamp (fun e => { e with state := .eInPipeline }) fun _ => rfl,
      { e with state := .eInPipeline })
  | none => .error .noWakingMAF

section Entries

variable {m : MissAddressFile} {a : MemoryAddress} {st : MAFState} {t : MemoryTransport} {i : Nat}
  {e x : MAFEntry}

theorem eq_of_stamp_eq (hx : x ∈ m.entries) (he : e ∈ m.entries) (h : x.stamp = e.stamp) : x = e := by
  exact List.inj_on_of_nodup_map m.stamps hx he h

theorem get?_eq_some : m.get? i = some e ↔ e ∈ m.entries ∧ e.stamp = i := by
  constructor
  · intro h
    exact ⟨List.mem_of_find?_eq_some h, by simpa using List.find?_some h⟩
  · rintro ⟨he, rfl⟩
    cases hget : m.get? e.stamp with
    | none => simpa using List.find?_eq_none.mp hget e he
    | some x =>
      have hx : x.stamp = e.stamp := by simpa using List.find?_some hget
      rw [eq_of_stamp_eq (List.mem_of_find?_eq_some hget) he hx]

theorem mem_findAll : e ∈ m.findAll a st ↔ e ∈ m.entries ∧ e.At a st := by
  simp [findAll]

theorem mem_of_findFirst (h : m.findFirst a st = some e) : e ∈ m.entries ∧ e.At a st :=
  ⟨List.mem_of_find?_eq_some h, by simpa using List.find?_some h⟩

theorem findFirst_eq_none : m.findFirst a st = none ↔ ∀ e ∈ m.entries, ¬ e.At a st := by
  simp [findFirst]

theorem find_eq_none : m.find a = none ↔ ∀ e ∈ m.entries, e.address ≠ a := by
  simp [find]

/-- `find` returns an entry of the block, and none of the block's entries is in a
    lower state. -/
theorem find_lowest (h : m.find a = some e) :
    e ∈ m.entries ∧ e.address = a ∧
      ∀ x ∈ m.entries, x.address = a → e.state.toNat ≤ x.state.toNat := by
  have haddr : e.address = a := by simpa using List.find?_some h
  refine ⟨List.mem_of_find?_eq_some h, haddr, fun x hx hxa => ?_⟩
  have hkey := OrderedIndex.key_le_of_find? m.ascending h hx (by simpa using hxa)
  rcases Prod.Lex.toLex_le_toLex.mp hkey with hlt | ⟨_, hle⟩
  · exact absurd hlt (by simp [haddr, hxa])
  · exact hle

theorem mem_insert :
    x ∈ (m.insert t a st).entries ↔
      x = { stamp := m.nextStamp, address := a, state := st, transport := t } ∨ x ∈ m.entries :=
  OrderedIndex.mem_link

theorem mem_remove : x ∈ (m.remove i).entries ↔ x ∈ m.entries ∧ x.stamp ≠ i := by
  simp [remove]

theorem mem_modify {f : MAFEntry → MAFEntry} {hf : ∀ e, (f e).stamp = e.stamp} :
    x ∈ (m.modify i f hf).entries ↔
      ∃ y ∈ m.entries, x = if y.stamp = i then f y else y := by
  refine (modifyEntries_perm m.stamps).mem_iff.trans ?_
  simp only [List.mem_map, eq_comm]

theorem mem_wakeAll {is : List Nat} :
    x ∈ (m.wakeAll is).entries ↔
      ∃ y ∈ m.entries, x = if y.stamp ∈ is then { y with state := .eWaking } else y := by
  induction is generalizing m with
  | nil => simp [wakeAll]
  | cons i is ih =>
    have hstep : x ∈ (m.wakeAll (i :: is)).entries ↔ x ∈ ((m.wake i).wakeAll is).entries := Iff.rfl
    rw [hstep, ih]
    constructor
    · rintro ⟨y, hy, rfl⟩
      obtain ⟨z, hz, rfl⟩ := mem_modify.mp hy
      refine ⟨z, hz, ?_⟩
      by_cases hzi : z.stamp = i <;> by_cases hzs : z.stamp ∈ is
        <;> simp [hzi, hzs]
    · rintro ⟨z, hz, rfl⟩
      refine ⟨_, mem_modify.mpr ⟨z, hz, rfl⟩, ?_⟩
      by_cases hzi : z.stamp = i <;> by_cases hzs : z.stamp ∈ is
        <;> simp [hzi, hzs]

/-- Waking after an eviction sets the entry and the requests that wait behind
    another one for its block to waking, and nothing else. -/
theorem mem_wakeAfterEvict :
    x ∈ (m.wakeAfterEvict e).entries ↔ ∃ y ∈ m.entries,
      x = if y.stamp = e.stamp ∨ y.At e.address .eWaitRequest then { y with state := .eWaking }
        else y := by
  have hstamps : ∀ y ∈ m.entries,
      ((if y.stamp = e.stamp then { y with state := .eWaking } else y : MAFEntry).stamp ∈
          ((m.wake e.stamp).findAll e.address .eWaitRequest).map MAFEntry.stamp ↔
        y.stamp ≠ e.stamp ∧ y.At e.address .eWaitRequest) := by
    intro y hy
    have hsame : (if y.stamp = e.stamp then { y with state := .eWaking } else y : MAFEntry).stamp =
        y.stamp := by split <;> rfl
    rw [hsame, List.mem_map]
    constructor
    · rintro ⟨w, hw, hwy⟩
      obtain ⟨hmem, hat⟩ := mem_findAll.mp hw
      obtain ⟨z, hz, rfl⟩ := mem_modify.mp hmem
      by_cases hze : z.stamp = e.stamp
      · simp [hze, MAFEntry.At] at hat
      · rw [if_neg hze] at hwy hat
        rw [← eq_of_stamp_eq hz hy hwy]
        exact ⟨hze, hat⟩
    · rintro ⟨hne, hat⟩
      refine ⟨y, mem_findAll.mpr ⟨mem_modify.mpr ⟨y, hy, ?_⟩, hat⟩, rfl⟩
      rw [if_neg hne]
  have hone : ∀ y ∈ m.entries,
      (if (if y.stamp = e.stamp then { y with state := .eWaking } else y : MAFEntry).stamp ∈
            ((m.wake e.stamp).findAll e.address .eWaitRequest).map MAFEntry.stamp then
          { (if y.stamp = e.stamp then { y with state := .eWaking } else y : MAFEntry) with
            state := .eWaking }
        else if y.stamp = e.stamp then { y with state := .eWaking } else y) =
      if y.stamp = e.stamp ∨ y.At e.address .eWaitRequest then { y with state := .eWaking }
        else y := by
    intro y hy
    simp only [hstamps y hy]
    by_cases hye : y.stamp = e.stamp <;> simp [hye]
  rw [wakeAfterEvict, mem_wakeAll]
  constructor
  · rintro ⟨y, hy, rfl⟩
    obtain ⟨z, hz, rfl⟩ := mem_modify.mp hy
    exact ⟨z, hz, hone z hz⟩
  · rintro ⟨z, hz, rfl⟩
    exact ⟨_, mem_modify.mpr ⟨z, hz, rfl⟩, (hone z hz).symm⟩

theorem peekWakingMAF_spec (h : m.peekWakingMAF = some e) : e ∈ m.entries ∧ e.state = .eWaking := by
  have hmem := List.mem_of_find?_eq_some h
  refine ⟨(List.perm_insertionSort _ _).mem_iff.mp hmem, by simpa using List.find?_some h⟩

end Entries

end MissAddressFile

end nCMPCache
