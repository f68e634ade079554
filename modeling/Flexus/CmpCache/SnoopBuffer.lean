import Flexus.CmpCache.Message
import Flexus.Lib.OrderedIndex
import Flexus.Lib.Runs

/-!
# The snoop buffer

The snoops that a cache has sent, and those that wait for them, ordered by block address and
state, and the list of those that were woken. Woken snoops are moved to the list in bulk, and
one counter stands for both containers.
-/

namespace nCMPCache

open OrderedIndex Runs

inductive SnoopStates where
  | kSnoopOutstanding | kSnoopWaking | kSnoopWaiting
  deriving DecidableEq, Repr

def SnoopStates.toNat : SnoopStates → Nat
  | .kSnoopOutstanding => 0
  | .kSnoopWaking => 1
  | .kSnoopWaiting => 2

/-- An entry of the buffer. The stamp counts the insertions, so it stands for an iterator to
    the entry. -/
structure SnoopEntry where
  stamp : Nat
  transport : MemoryTransport
  state : SnoopStates
  theBlockAddress : MemoryAddress
  deriving DecidableEq, Repr

namespace SnoopEntry

def key (e : SnoopEntry) : ℕ ×ₗ ℕ := toLex (e.theBlockAddress, e.state.toNat)

/-- The snoop waits for others of its block. -/
def WaitsFor (a : MemoryAddress) (e : SnoopEntry) : Bool :=
  decide (e.theBlockAddress = a ∧ e.state = .kSnoopWaiting)

end SnoopEntry

/-- The assertions of the buffer, and its uses of an iterator or a list that has no entry. -/
inductive SnoopFault where
  | bufferFull
  | noReservation
  | dangling
  | wakeListEmpty
  deriving DecidableEq, Repr

structure SnoopBuffer where
  theSnoops : List SnoopEntry
  theWakeList : List SnoopEntry
  theSize : Int
  theReserve : Int
  theCurSize : Int
  nextStamp : Nat
  ascending : Ascending SnoopEntry.key theSnoops

namespace SnoopBuffer

def create (aSize : Int) : SnoopBuffer where
  theSnoops := []
  theWakeList := []
  theSize := aSize
  theReserve := 0
  theCurSize := 0
  nextStamp := 0
  ascending := List.Pairwise.nil

/-- The entry of a snoop that is put in next. -/
def newEntry (b : SnoopBuffer) (newTransport : MemoryTransport) (s : SnoopStates) : SnoopEntry :=
  { stamp := b.nextStamp, transport := newTransport, state := s,
    theBlockAddress := newTransport.msg.address }

def insert (b : SnoopBuffer) (e : SnoopEntry) : SnoopBuffer where
  theSnoops := link SnoopEntry.key e b.theSnoops
  theWakeList := b.theWakeList
  theSize := b.theSize
  theReserve := b.theReserve
  theCurSize := b.theCurSize + 1
  nextStamp := b.nextStamp + 1
  ascending := ascending_link b.ascending

def reserve (b : SnoopBuffer) : Except SnoopFault SnoopBuffer :=
  if b.theCurSize + b.theReserve < b.theSize then .ok { b with theReserve := b.theReserve + 1 }
  else .error .bufferFull

def unreserve (b : SnoopBuffer) : Except SnoopFault SnoopBuffer :=
  if b.theReserve > 0 then .ok { b with theReserve := b.theReserve - 1 } else .error .noReservation

def allocEntry (b : SnoopBuffer) (newTransport : MemoryTransport) : Except SnoopFault SnoopBuffer :=
  if b.theCurSize < b.theSize then .ok (b.insert (b.newEntry newTransport .kSnoopOutstanding))
  else .error .bufferFull

def addWaitingEntry (b : SnoopBuffer) (newTransport : MemoryTransport) : Except SnoopFault SnoopBuffer :=
  if b.theCurSize < b.theSize then .ok (b.insert (b.newEntry newTransport .kSnoopWaiting))
  else .error .bufferFull

/-- The entries of a block that wait, which stand together in the index. -/
def getWaitingEntries (b : SnoopBuffer) (anAddress : MemoryAddress) : List SnoopEntry :=
  b.theSnoops.filter fun e => decide (e.key = toLex (anAddress, SnoopStates.kSnoopWaiting.toNat))

def wakeWaitingEntries (b : SnoopBuffer) (anAddress : MemoryAddress) : SnoopBuffer × Bool :=
  if b.getWaitingEntries anAddress = [] then (b, false)
  else
    ({ b with
        theWakeList := b.theWakeList ++ b.getWaitingEntries anAddress
        theSnoops := b.theSnoops.filter fun e =>
          decide (e.key ≠ toLex (anAddress, SnoopStates.kSnoopWaiting.toNat))
        ascending := b.ascending.sublist List.filter_sublist }, true)

/-- The entry an iterator points to, when it is still there. -/
def get? (b : SnoopBuffer) (i : Nat) : Option SnoopEntry := b.theSnoops.find? fun e => e.stamp == i

def remove (b : SnoopBuffer) (i : Nat) : Except SnoopFault SnoopBuffer :=
  if (b.get? i).isSome then
    .ok
      { b with
        theSnoops := b.theSnoops.filter fun e => e.stamp != i
        theCurSize := b.theCurSize - 1
        ascending := b.ascending.sublist List.filter_sublist }
  else .error .dangling

/-- Hand out the first snoop of the wake list. -/
def wakeSnoop (b : SnoopBuffer) : Except SnoopFault (SnoopBuffer × MemoryTransport) :=
  match b.theWakeList with
  | [] => .error .wakeListEmpty
  | e :: rest => .ok ({ b with theWakeList := rest, theCurSize := b.theCurSize - 1 }, e.transport)

/-- Hand out snoops, as many as given. -/
def wakeSnoops : Nat → SnoopBuffer → Except SnoopFault (SnoopBuffer × List MemoryTransport)
  | 0, b => .ok (b, [])
  | count + 1, b => do
    let (b, t) ← b.wakeSnoop
    let (b, ts) ← wakeSnoops count b
    .ok (b, t :: ts)

end SnoopBuffer

/-- A buffer in use, and the snoops that were ever put in, taken out through an iterator, and
    handed out, in that order of time. -/
structure SnoopRun where
  buffer : SnoopBuffer
  added : List SnoopEntry
  removed : List SnoopEntry
  handed : List SnoopEntry

namespace SnoopRun

inductive Event where
  | reserve
  | unreserve
  | allocEntry (newTransport : MemoryTransport)
  | addWaitingEntry (newTransport : MemoryTransport)
  | wakeWaitingEntries (anAddress : MemoryAddress)
  | remove (entry : Nat)
  | wakeSnoop
  deriving DecidableEq, Repr

def create (aSize : Int) : SnoopRun where
  buffer := .create aSize
  added := []
  removed := []
  handed := []

def step (r : SnoopRun) : Event → Except SnoopFault SnoopRun
  | .reserve => do
    let buffer ← r.buffer.reserve
    .ok { r with buffer := buffer }
  | .unreserve => do
    let buffer ← r.buffer.unreserve
    .ok { r with buffer := buffer }
  | .allocEntry newTransport => do
    let buffer ← r.buffer.allocEntry newTransport
    .ok { r with buffer := buffer, added := r.added ++ [r.buffer.newEntry newTransport .kSnoopOutstanding] }
  | .addWaitingEntry newTransport => do
    let buffer ← r.buffer.addWaitingEntry newTransport
    .ok { r with buffer := buffer, added := r.added ++ [r.buffer.newEntry newTransport .kSnoopWaiting] }
  | .wakeWaitingEntries anAddress =>
    .ok { r with buffer := (r.buffer.wakeWaitingEntries anAddress).1 }
  | .remove entry => do
    let buffer ← r.buffer.remove entry
    .ok { r with buffer := buffer, removed := r.removed ++ (r.buffer.get? entry).toList }
  | .wakeSnoop => do
    let (buffer, _) ← r.buffer.wakeSnoop
    .ok { r with buffer := buffer, handed := r.handed ++ r.buffer.theWakeList.head?.toList }

/-- Where the snoops are that were put in: in one of the two containers, taken out or handed
    out, each at one place, and those of one block that waited in the order they came. -/
structure Conserved (r : SnoopRun) : Prop where
  size : r.buffer.theCurSize = r.buffer.theSnoops.length + r.buffer.theWakeList.length
  stamps : r.added.map SnoopEntry.stamp = List.range r.buffer.nextStamp
  places : r.added.Perm (r.buffer.theSnoops ++ (r.buffer.theWakeList ++ (r.removed ++ r.handed)))
  woken : ∀ e ∈ r.handed ++ r.buffer.theWakeList, e.state = .kSnoopWaiting
  inOrder : ∀ a, (r.added.filter fun e => e.WaitsFor a && decide (e ∉ r.removed)) =
    (r.handed ++ r.buffer.theWakeList ++ r.buffer.theSnoops).filter (SnoopEntry.WaitsFor a)

theorem key_eq_iff {a : MemoryAddress} {e : SnoopEntry} :
    e.key = toLex (a, SnoopStates.kSnoopWaiting.toNat) ↔ e.WaitsFor a = true := by
  have hinj : ∀ s : SnoopStates, s.toNat = SnoopStates.kSnoopWaiting.toNat → s = .kSnoopWaiting := by
    intro s h
    cases s <;> first | rfl | cases h
  rw [SnoopEntry.key, SnoopEntry.WaitsFor, decide_eq_true_iff, toLex_inj, Prod.mk.injEq]
  exact and_congr_right fun _ => ⟨hinj _, fun h => by rw [h]⟩

variable {r : SnoopRun} {e x : SnoopEntry} {a : MemoryAddress}

theorem getWaitingEntries_eq {b : SnoopBuffer} :
    b.getWaitingEntries a = b.theSnoops.filter (SnoopEntry.WaitsFor a) := by
  apply List.filter_congr
  intro x _
  rw [Bool.eq_iff_iff, decide_eq_true_iff, key_eq_iff]

/-- What waking moves and what it leaves, also when there is nothing to move. -/
theorem wakeWaitingEntries_theWakeList {b : SnoopBuffer} : (b.wakeWaitingEntries a).1.theWakeList =
    b.theWakeList ++ b.theSnoops.filter (SnoopEntry.WaitsFor a) := by
  unfold SnoopBuffer.wakeWaitingEntries
  split
  · next hnone =>
    rw [← getWaitingEntries_eq, hnone, List.append_nil]
  · exact congrArg _ getWaitingEntries_eq

theorem wakeWaitingEntries_theSnoops {b : SnoopBuffer} : (b.wakeWaitingEntries a).1.theSnoops =
    b.theSnoops.filter fun e => !e.WaitsFor a := by
  unfold SnoopBuffer.wakeWaitingEntries
  split
  · next hnone =>
    rw [getWaitingEntries_eq, List.filter_eq_nil_iff] at hnone
    exact (List.filter_eq_self.mpr fun x hx => by simpa using hnone x hx).symm
  · apply List.filter_congr
    intro x _
    rw [Bool.eq_iff_iff, decide_eq_true_iff, ne_eq, key_eq_iff, Bool.not_eq_true', Bool.not_eq_true]

theorem wakeWaitingEntries_theCurSize {b : SnoopBuffer} :
    (b.wakeWaitingEntries a).1.theCurSize = b.theCurSize := by
  unfold SnoopBuffer.wakeWaitingEntries
  split <;> rfl

theorem wakeWaitingEntries_nextStamp {b : SnoopBuffer} :
    (b.wakeWaitingEntries a).1.nextStamp = b.nextStamp := by
  unfold SnoopBuffer.wakeWaitingEntries
  split <;> rfl

/-- Taking out those that wait for one block keeps the order of those that wait for any. -/
theorem filter_waitsFor_parts (l : List SnoopEntry) (a b : MemoryAddress) :
    (l.filter (SnoopEntry.WaitsFor b)).filter (SnoopEntry.WaitsFor a) ++
      (l.filter fun e => !e.WaitsFor b).filter (SnoopEntry.WaitsFor a) =
      l.filter (SnoopEntry.WaitsFor a) := by
  by_cases hab : a = b
  · subst hab
    have hnone : (l.filter fun e => !e.WaitsFor a).filter (SnoopEntry.WaitsFor a) = [] := by
      rw [List.filter_filter, List.filter_eq_nil_iff]
      simp
    rw [hnone, List.append_nil, List.filter_filter]
    simp
  · have hother : ∀ e : SnoopEntry, e.WaitsFor a = true → e.WaitsFor b = false := by
      intro e he
      have haddr := (of_decide_eq_true he).1
      simp [SnoopEntry.WaitsFor, haddr, hab]
    have hnone : (l.filter (SnoopEntry.WaitsFor b)).filter (SnoopEntry.WaitsFor a) = [] := by
      rw [List.filter_filter, List.filter_eq_nil_iff]
      intro e _ hboth
      rw [Bool.and_eq_true] at hboth
      simp [hother e hboth.1] at hboth
    rw [hnone, List.nil_append, List.filter_filter]
    apply List.filter_congr
    intro e _
    cases hwaits : e.WaitsFor a with
    | true => simp [hother e hwaits]
    | false => rfl

namespace Conserved

/-- The snoops put in and still somewhere have different stamps. -/
theorem nodup (h : Conserved r) : ((r.buffer.theSnoops ++ (r.buffer.theWakeList ++
    (r.removed ++ r.handed))).map SnoopEntry.stamp).Nodup := by
  rw [← (h.places.map _).nodup_iff, h.stamps]
  exact List.nodup_range

theorem stamp_lt (h : Conserved r) (he : e ∈ r.added) : e.stamp < r.buffer.nextStamp := by
  rw [← List.mem_range, ← h.stamps]
  exact List.mem_map_of_mem he

theorem eq_of_stamp_eq (h : Conserved r) (he : e ∈ r.added) (hx : x ∈ r.added)
    (heq : e.stamp = x.stamp) : e = x := by
  apply List.inj_on_of_nodup_map _ he hx heq
  rw [h.stamps]
  exact List.nodup_range

theorem create (aSize : Int) : Conserved (create aSize) where
  size := rfl
  stamps := rfl
  places := List.Perm.refl _
  woken := fun _ he => absurd he List.not_mem_nil
  inOrder := fun _ => rfl

/-- A new snoop stands behind all others of its block that wait. -/
theorem insert (h : Conserved r) (t : MemoryTransport) (s : SnoopStates) :
    Conserved { r with
      buffer := r.buffer.insert (r.buffer.newEntry t s)
      added := r.added ++ [r.buffer.newEntry t s] } where
  size := by
    have hperm : (link SnoopEntry.key (r.buffer.newEntry t s) r.buffer.theSnoops).Perm _ := link_perm
    have hlen := hperm.length_eq
    have hsize := h.size
    simp only [SnoopBuffer.insert, hlen, List.length_cons, Nat.cast_succ]
    omega
  stamps := by
    rw [List.map_append, h.stamps]
    exact List.range_succ.symm
  places := by
    apply (List.perm_append_singleton _ _).trans
    exact ((h.places.cons _).trans (link_perm.symm.append_right _))
  woken := h.woken
  inOrder := by
    intro a
    have hnew : r.buffer.newEntry t s ∉ r.removed := by
      intro hmem
      have hadded : r.buffer.newEntry t s ∈ r.added := h.places.mem_iff.mpr (by simp [hmem])
      exact Nat.lt_irrefl _ (h.stamp_lt hadded)
    have hold := h.inOrder a
    simp only [List.filter_append] at hold ⊢
    rw [hold]
    by_cases hwaits : (r.buffer.newEntry t s).WaitsFor a = true
    · have hlink := filter_link_key (e := r.buffer.newEntry t s) (q := SnoopEntry.WaitsFor a)
        (fun x hx => (key_eq_iff.mpr hx).trans (key_eq_iff.mpr hwaits).symm) hwaits r.buffer.ascending
      simp only [SnoopBuffer.insert, hlink]
      simp [hwaits, hnew]
    · have hfalse : (r.buffer.newEntry t s).WaitsFor a = false := by simpa using hwaits
      have hlink : (link SnoopEntry.key (r.buffer.newEntry t s) r.buffer.theSnoops).filter
          (SnoopEntry.WaitsFor a) = _ := filter_link_of_neg hfalse
      simp only [SnoopBuffer.insert, hlink]
      simp [hwaits]

/-- Waking moves the snoops of a block that wait to the end of the list. -/
theorem wakeWaitingEntries (h : Conserved r) (b : MemoryAddress) :
    Conserved { r with buffer := (r.buffer.wakeWaitingEntries b).1 } := by
  have hparts : (r.buffer.theSnoops.filter (SnoopEntry.WaitsFor b) ++
      r.buffer.theSnoops.filter fun e => !e.WaitsFor b).Perm r.buffer.theSnoops :=
    List.filter_append_perm _ _
  constructor
  · have hlen := hparts.length_eq
    have hsize := h.size
    rw [List.length_append] at hlen
    simp only [wakeWaitingEntries_theWakeList, wakeWaitingEntries_theSnoops,
      wakeWaitingEntries_theCurSize, List.length_append, Nat.cast_add]
    omega
  · rw [wakeWaitingEntries_nextStamp]
    exact h.stamps
  · simp only [wakeWaitingEntries_theWakeList, wakeWaitingEntries_theSnoops]
    apply h.places.trans
    apply (hparts.symm.append_right _).trans
    apply (List.perm_append_comm.append_right _).trans
    rw [List.append_assoc]
    apply List.Perm.append_left
    rw [← List.append_assoc]
    exact List.perm_append_comm.append_right _
  · intro e he
    simp only [wakeWaitingEntries_theWakeList, List.mem_append] at he
    rcases he with he | he | he
    · exact h.woken e (List.mem_append_left _ he)
    · exact h.woken e (List.mem_append_right _ he)
    · have hwaits := (List.mem_filter.mp he).2
      exact (of_decide_eq_true hwaits).2
  · intro a
    have hold := h.inOrder a
    simp only [wakeWaitingEntries_theWakeList, wakeWaitingEntries_theSnoops, List.filter_append,
      List.append_assoc] at hold ⊢
    rw [hold, filter_waitsFor_parts]

/-- An entry taken out leaves the others in their order. -/
theorem remove (h : Conserved r) {b : SnoopBuffer} {i : Nat} (hok : r.buffer.remove i = .ok b) :
    Conserved { r with buffer := b, removed := r.removed ++ (r.buffer.get? i).toList } := by
  unfold SnoopBuffer.remove at hok
  split at hok
  case isFalse => cases hok
  case isTrue hsome =>
    cases hok
    obtain ⟨e, he⟩ := Option.isSome_iff_exists.mp hsome
    have hmem : e ∈ r.buffer.theSnoops := List.mem_of_find?_eq_some he
    have hstamp : e.stamp = i := by simpa using List.find?_some he
    have hadded : ∀ x, x ∈ r.added ↔ x ∈ r.buffer.theSnoops ∨ x ∈ r.buffer.theWakeList ∨
        x ∈ r.removed ∨ x ∈ r.handed := fun x => by
      rw [h.places.mem_iff]
      simp only [List.mem_append]
    have hother : ∀ x ∈ r.added, (x.stamp ≠ i ↔ x ≠ e) := by
      intro x hx
      rw [← hstamp, not_iff_not]
      exact ⟨h.eq_of_stamp_eq hx ((hadded e).mpr (Or.inl hmem)), fun heq => by rw [heq]⟩
    have hnodup := List.Nodup.of_map _ h.nodup
    have hparts : r.buffer.theSnoops.Perm (e :: r.buffer.theSnoops.filter fun x => x.stamp != i) := by
      have hfilter : (r.buffer.theSnoops.filter fun x => x.stamp != i) = r.buffer.theSnoops.erase e := by
        rw [(List.nodup_append.mp hnodup).1.erase_eq_filter]
        apply List.filter_congr
        intro x hx
        rw [Bool.eq_iff_iff, bne_iff_ne, bne_iff_ne]
        exact hother x ((hadded x).mpr (Or.inl hx))
      rw [hfilter]
      exact List.perm_cons_erase hmem
    have hapart : ∀ x ∈ r.handed ++ r.buffer.theWakeList, x.stamp ≠ i := by
      intro x hx heq
      have hx' : x ∈ r.added := (hadded x).mpr (by
        rcases List.mem_append.mp hx with hx | hx <;> simp [hx])
      have hxe : x = e := h.eq_of_stamp_eq hx' ((hadded e).mpr (Or.inl hmem)) (heq.trans hstamp.symm)
      refine (List.nodup_append.mp hnodup).2.2 e hmem x ?_ hxe.symm
      rcases List.mem_append.mp hx with hx | hx <;> simp [hx]
    simp only [he, Option.toList_some]
    constructor
    · have hlen := hparts.length_eq
      have hsize := h.size
      rw [List.length_cons] at hlen
      simp only
      omega
    · exact h.stamps
    · apply h.places.trans
      apply (hparts.append_right _).trans
      simp only [List.cons_append, List.append_assoc, List.nil_append]
      apply List.perm_middle.symm.trans
      apply List.Perm.append_left
      apply List.perm_middle.symm.trans
      apply List.Perm.append_left
      exact List.perm_middle.symm
    · exact h.woken
    · intro a
      have hold := congrArg (List.filter fun x => x.stamp != i) (h.inOrder a)
      have hkeep : (r.handed ++ r.buffer.theWakeList).filter (fun x => x.stamp != i) =
          r.handed ++ r.buffer.theWakeList :=
        List.filter_eq_self.mpr fun x hx => by simpa using hapart x hx
      have hswap : ∀ l : List SnoopEntry, (l.filter (SnoopEntry.WaitsFor a)).filter (fun x => x.stamp != i) =
          (l.filter fun x => x.stamp != i).filter (SnoopEntry.WaitsFor a) := fun l => by
        rw [List.filter_filter, List.filter_filter]
        exact List.filter_congr fun x _ => Bool.and_comm _ _
      rw [hswap, List.filter_append, hkeep, List.filter_filter] at hold
      rw [← hold]
      apply List.filter_congr
      intro x hx
      rw [Bool.eq_iff_iff]
      simp only [Bool.and_eq_true, decide_eq_true_eq, List.mem_append, List.mem_singleton, not_or,
        bne_iff_ne, hother x hx]
      exact ⟨fun ⟨hw, hr, hne⟩ => ⟨hne, hw, hr⟩, fun ⟨hne, hw, hr⟩ => ⟨hw, hr, hne⟩⟩

/-- The snoop handed out is the one that was woken first. -/
theorem wakeSnoop (h : Conserved r) {b : SnoopBuffer} {t : MemoryTransport}
    (hok : r.buffer.wakeSnoop = .ok (b, t)) :
    Conserved { r with buffer := b, handed := r.handed ++ r.buffer.theWakeList.head?.toList } := by
  unfold SnoopBuffer.wakeSnoop at hok
  split at hok
  · cases hok
  · next e rest hlist =>
    cases hok
    obtain ⟨hsize, hstamps, hplaces, hwoken, hinOrder⟩ := h
    rw [hlist] at hsize hplaces hwoken hinOrder
    simp only [hlist, List.head?_cons, Option.toList_some]
    constructor
    · simp only [List.length_cons, Nat.cast_succ] at hsize
      simp only
      omega
    · exact hstamps
    · apply hplaces.trans
      apply List.Perm.append_left
      simp only [List.cons_append, ← List.append_assoc]
      exact (List.perm_append_singleton e _).symm
    · simpa using hwoken
    · simpa using hinOrder

theorem step (h : Conserved r) {r' : SnoopRun} {e : Event} (hok : r.step e = .ok r') : Conserved r' := by
  cases e with
  | reserve =>
    simp only [SnoopRun.step, SnoopBuffer.reserve] at hok
    split at hok
    · cases hok
      exact ⟨h.size, h.stamps, h.places, h.woken, h.inOrder⟩
    · cases hok
  | unreserve =>
    simp only [SnoopRun.step, SnoopBuffer.unreserve] at hok
    split at hok
    · cases hok
      exact ⟨h.size, h.stamps, h.places, h.woken, h.inOrder⟩
    · cases hok
  | allocEntry t =>
    simp only [SnoopRun.step, SnoopBuffer.allocEntry] at hok
    split at hok
    · cases hok
      exact h.insert t .kSnoopOutstanding
    · cases hok
  | addWaitingEntry t =>
    simp only [SnoopRun.step, SnoopBuffer.addWaitingEntry] at hok
    split at hok
    · cases hok
      exact h.insert t .kSnoopWaiting
    · cases hok
  | wakeWaitingEntries a =>
    cases hok
    exact h.wakeWaitingEntries a
  | remove i =>
    cases hremove : r.buffer.remove i with
    | error => simp only [SnoopRun.step, hremove] at hok; cases hok
    | ok b =>
      simp only [SnoopRun.step, hremove] at hok
      cases hok
      exact h.remove hremove
  | wakeSnoop =>
    cases hwake : r.buffer.wakeSnoop with
    | error => simp only [SnoopRun.step, hwake] at hok; cases hok
    | ok result =>
      obtain ⟨b, t⟩ := result
      simp only [SnoopRun.step, hwake] at hok
      cases hok
      exact h.wakeSnoop hwake

end Conserved

/-- As many calls as snoops were woken hand all of them out, in the order of the list. -/
theorem wakeSnoops_spec (b : SnoopBuffer) :
    ∃ b', SnoopBuffer.wakeSnoops b.theWakeList.length b =
        .ok (b', b.theWakeList.map SnoopEntry.transport) ∧
      b'.theWakeList = [] ∧ b'.theSnoops = b.theSnoops := by
  induction hlist : b.theWakeList generalizing b with
  | nil => exact ⟨b, rfl, hlist, rfl⟩
  | cons e rest ih =>
    obtain ⟨b', hrest, hempty, hsnoops⟩ :=
      ih { b with theWakeList := rest, theCurSize := b.theCurSize - 1 } rfl
    refine ⟨b', ?_, hempty, hsnoops⟩
    simp only [List.length_cons, SnoopBuffer.wakeSnoops, SnoopBuffer.wakeSnoop, hlist]
    change (do
      let (b, ts) ← SnoopBuffer.wakeSnoops rest.length _
      _) = _
    rw [hrest]
    rfl

/-- The snoops of a buffer, after any run. The counter stands for both containers, and every snoop
    put in is in one of them, was taken out, or was handed out, at one place only. Those of one
    block that waited, and were not taken out, came in this order: those handed out, those on the
    wake list, those that wait still. Waking a block moves all of its snoops that wait to the end
    of the list, and the list is then handed out as it stands. -/
theorem snoops_conserved {aSize : Int} (hrun : Reaches step Anything (create aSize) r) :
    r.buffer.theCurSize = r.buffer.theSnoops.length + r.buffer.theWakeList.length ∧
    (r.added.map SnoopEntry.stamp).Nodup ∧
    r.added.Perm (r.buffer.theSnoops ++ (r.buffer.theWakeList ++ (r.removed ++ r.handed))) ∧
    (∀ e ∈ r.handed ++ r.buffer.theWakeList, e.state = .kSnoopWaiting) ∧
    (∀ a, (r.added.filter fun e => e.WaitsFor a && decide (e ∉ r.removed)) =
      (r.handed ++ r.buffer.theWakeList ++ r.buffer.theSnoops).filter (SnoopEntry.WaitsFor a)) ∧
    ∀ a, ∃ b, (r.buffer.wakeWaitingEntries a).1 = b ∧
      b.theWakeList = r.buffer.theWakeList ++ r.buffer.theSnoops.filter (SnoopEntry.WaitsFor a) ∧
      (b.theSnoops = r.buffer.theSnoops.filter fun e => !e.WaitsFor a) ∧
      ∃ b', SnoopBuffer.wakeSnoops b.theWakeList.length b =
        .ok (b', b.theWakeList.map SnoopEntry.transport) ∧ b'.theWakeList = [] ∧
          b'.theSnoops = b.theSnoops := by
  have h : Conserved r := hrun.invariant (Conserved.create aSize) fun _ _ _ h _ hok => h.step hok
  have hnodup : (r.added.map SnoopEntry.stamp).Nodup := by
    rw [h.stamps]
    exact List.nodup_range
  refine ⟨h.size, hnodup, h.places, h.woken, h.inOrder, fun a => ⟨_, rfl, ?_, ?_, wakeSnoops_spec _⟩⟩
  · rw [wakeWaitingEntries_theWakeList]
  · rw [wakeWaitingEntries_theSnoops]

/-- Two snoops of block 64 wait with one of block 128 between them, and are woken. -/
theorem snoops_conserved_two : ∃ r, Reaches step Anything (create 8) r ∧
    r.handed.map SnoopEntry.stamp = [0] ∧ r.buffer.theCurSize = 3 ∧
      (r.added.map SnoopEntry.stamp).Nodup := by
  let probe (a : MemoryAddress) : MemoryTransport :=
    { msg := { type := .ReadReq, address := a }, dest := { type := .Directory } }
  have hruns : ((runWhile step (fun _ _ => true) (create 8)
      [.addWaitingEntry (probe 64), .allocEntry (probe 64), .addWaitingEntry (probe 128),
        .addWaitingEntry (probe 64), .wakeWaitingEntries 64, .wakeSnoop]).any fun r =>
          decide (r.handed.map SnoopEntry.stamp = [0] ∧ r.buffer.theCurSize = 3)) = true := by
    decide
  obtain ⟨r, hreach, hr⟩ := exists_reaches (fun _ _ _ => trivial) hruns
  have hend := of_decide_eq_true hr
  exact ⟨r, hreach, hend.1, hend.2, (snoops_conserved hreach).2.1⟩

end SnoopRun

end nCMPCache
