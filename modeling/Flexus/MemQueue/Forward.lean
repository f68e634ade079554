import Flexus.MemQueue.Mask

open Lanes

namespace nuArchARM

/-- The part of the core that store forwarding reads and writes. -/
structure CoreImpl where
  theMemQueue : memq_t
  thePartialSnoopersOutstanding : BitVec 32
  thePartialSnoopLoads : Nat
  theSpeculativeOrder : Bool

namespace CoreImpl

/-- The core after the entry `s` of its queue is changed in place. -/
def update (c : CoreImpl) (s : Nat) (f : MemQueueEntry → MemQueueEntry)
    (hf : ∀ e : MemQueueEntry, e.SameKey (f e)) : CoreImpl :=
  { c with
    theMemQueue := c.theMemQueue.modify (fun e => if e.theSequenceNum = s then f e else e) (by
      intro e
      split
      · exact hf e
      · exact .refl e) }

end CoreImpl

/-- The load value a covering store forwards, when it forwards one. A store of
    the same size hands over its value as it is; a wider one hands over the
    bytes of the load. -/
def forwarded (aStore aLoad : MemQueueEntry) : Option bits :=
  if aLoad.theSize = aStore.theSize then aStore.theValue
  else aStore.theValue.map fun v => writeAligned aLoad (align aStore v)

/-- What `forwardValue` leaves in the load. A copy between entries of different
    byte order fails an assertion; no queue holds such entries. -/
def forwardEntry (aStore aLoad : MemQueueEntry) : MemQueueEntry :=
  if covers aStore aLoad then
    { aLoad.setLoadValue (forwarded aStore aLoad) with thePartialSnoop := false }
  else
    { aLoad.setLoadValue none with thePartialSnoop := true }

theorem setLoadValue_sameKey (e : MemQueueEntry) (v : Option bits) : e.SameKey (e.setLoadValue v) := by
  unfold MemQueueEntry.setLoadValue
  split <;> exact .of_eq rfl rfl rfl rfl

theorem unloaded_sameKey (e : MemQueueEntry) : e.SameKey (e.setLoadValue none) :=
  setLoadValue_sameKey e none

theorem forwardEntry_sameKey (aStore aLoad : MemQueueEntry) :
    aLoad.SameKey (forwardEntry aStore aLoad) := by
  unfold forwardEntry
  split
  · exact (setLoadValue_sameKey aLoad (forwarded aStore aLoad)).trans (.of_eq rfl rfl rfl rfl)
  · exact (setLoadValue_sameKey aLoad none).trans (.of_eq rfl rfl rfl rfl)

/-- `forwardValue(*aStore, aLoad)`, with the count of loads that wait for a
    partial snoop. -/
def forwardValue (c : CoreImpl) (aStore aLoad : MemQueueEntry) : CoreImpl :=
  let c := c.update aLoad.theSequenceNum (forwardEntry aStore) (forwardEntry_sameKey aStore)
  if covers aStore aLoad then
    if aLoad.thePartialSnoop then
      { c with thePartialSnoopersOutstanding := c.thePartialSnoopersOutstanding - 1 }
    else c
  else if aLoad.thePartialSnoop then c
  else
    { c with
      thePartialSnoopersOutstanding := c.thePartialSnoopersOutstanding + 1
      thePartialSnoopLoads := c.thePartialSnoopLoads + 1 }

/-- The store `snoopQueue` stops at: walking back from the load through its
    bucket, the first store that is not annulled and intersects the load. -/
def snoopMatch (q : memq_t) (aLoad : MemQueueEntry) : Option MemQueueEntry :=
  q.youngestOlder aLoad.thePaddr_aligned aLoad.theSequenceNum fun e =>
    e.isLiveStore && intersects e aLoad

/-- A search result kept between loads: `some none` is the iterator `end()`. -/
abbrev SnoopState := Option (Option Nat)

def snoopQueue (c : CoreImpl) (aLoad : MemQueueEntry) : CoreImpl × SnoopState :=
  match snoopMatch c.theMemQueue aLoad with
  | some aStore => (forwardValue c aStore aLoad, some (some aStore.theSequenceNum))
  | none => (c, some none)

def snoopStores (c : CoreImpl) (s : Nat) (aCachedSnoopState : SnoopState) : CoreImpl × SnoopState :=
  match c.theMemQueue.find s with
  | none => (c, aCachedSnoopState)
  | some aLoad =>
    if aLoad.thePaddr = kUnresolved then (c, aCachedSnoopState)
    else
      let c := c.update s (fun e => e.setLoadValue none) (fun e => setLoadValue_sameKey e none)
      let aLoad := aLoad.setLoadValue none
      match aCachedSnoopState with
      | some (some m) =>
        match c.theMemQueue.find m with
        | some aStore => (forwardValue c aStore aLoad, aCachedSnoopState)
        | none => (c, aCachedSnoopState)
      | some none => (c, aCachedSnoopState)
      | none => snoopQueue c aLoad

/-- `applyStores` over the older entries of the bucket: every store with a value
    that is not annulled and intersects the load is pasted over its value. -/
def applyStores (stores : List MemQueueEntry) (aLoad : MemQueueEntry) (aLoadValue : bits) : bits :=
  stores.foldl
    (fun v e =>
      match e.theValue with
      | some sv => if e.isLiveStore && intersects e aLoad then overlay e sv aLoad v else v
      | none => v)
    aLoadValue

def applyAllStores (q : memq_t) (aLoad : MemQueueEntry) (aLoadValue : bits) : bits :=
  applyStores (q.olderInBucket aLoad.thePaddr_aligned aLoad.theSequenceNum) aLoad aLoadValue

theorem find_update_self (c : CoreImpl) (s : Nat) (f : MemQueueEntry → MemQueueEntry)
    (hf : ∀ e : MemQueueEntry, e.SameKey (f e)) :
    (c.update s f hf).theMemQueue.find s = (c.theMemQueue.find s).map f := by
  cases hfind : c.theMemQueue.find s with
  | none =>
    refine List.find?_eq_none.mpr ?_
    intro e' he' hseq
    obtain ⟨e, he, rfl⟩ := List.mem_map.mp he'
    have hnot := List.find?_eq_none.mp hfind e he
    split at hseq
    case isTrue hs => exact hnot (by simpa using hs)
    case isFalse => exact hnot hseq
  | some e =>
    obtain ⟨he, hs⟩ := memq_t.find_eq_some.mp hfind
    refine memq_t.find_eq_some.mpr ⟨?_, (hf e).seq.trans hs⟩
    refine List.mem_map.mpr ⟨e, he, ?_⟩
    rw [if_pos hs]

theorem find_update_other (c : CoreImpl) {s s' : Nat} (hne : s' ≠ s)
    (f : MemQueueEntry → MemQueueEntry) (hf : ∀ e : MemQueueEntry, e.SameKey (f e)) :
    (c.update s f hf).theMemQueue.find s' = c.theMemQueue.find s' := by
  cases hfind : c.theMemQueue.find s' with
  | none =>
    refine List.find?_eq_none.mpr ?_
    intro e' he' hseq
    obtain ⟨e, he, rfl⟩ := List.mem_map.mp he'
    have hnot := List.find?_eq_none.mp hfind e he
    split at hseq
    case isTrue hs =>
      rw [(hf e).seq] at hseq
      exact hnot hseq
    case isFalse => exact hnot hseq
  | some e =>
    obtain ⟨he, hs⟩ := memq_t.find_eq_some.mp hfind
    refine memq_t.find_eq_some.mpr ⟨?_, hs⟩
    refine List.mem_map.mpr ⟨e, he, ?_⟩
    rw [if_neg (by omega)]

/-- Forwarding touches no entry but the load. -/
theorem forwardValue_queue (c : CoreImpl) (aStore aLoad : MemQueueEntry) :
    (forwardValue c aStore aLoad).theMemQueue =
      (c.update aLoad.theSequenceNum (forwardEntry aStore) (forwardEntry_sameKey aStore)).theMemQueue := by
  unfold forwardValue
  repeat' split
  all_goals rfl

/-- The snoop of the load `L` considers the entry `S`: it lies in the range of the
    index that is searched, and it intersects the load. -/
def Considers (q : memq_t) (S L : MemQueueEntry) : Prop :=
  S ∈ q.olderInBucket L.thePaddr_aligned L.theSequenceNum ∧ intersects S L = true

instance (q : memq_t) (S L : MemQueueEntry) : Decidable (Considers q S L) :=
  inferInstanceAs (Decidable (_ ∧ _))

/-- A quad word that does not start on an 8-byte boundary. -/
def MisalignedQuad (e : MemQueueEntry) : Prop :=
  e.theSize = .kQuadWord ∧ e.thePaddr.toNat % 8 ≠ 0

instance (e : MemQueueEntry) : Decidable (MisalignedQuad e) :=
  inferInstanceAs (Decidable (_ ∧ _))

theorem inWindow_iff_not_misalignedQuad {e : MemQueueEntry} (haligned : e.Aligned) :
    e.InWindow ↔ ¬ MisalignedQuad e := by
  have hout := haligned.not_inWindow_iff
  rw [haligned.lead_eq] at hout
  rw [MisalignedQuad, ← hout, not_not]

/-- An older entry that touches a byte of a load is considered exactly when the
    two start in the same aligned 8 bytes and neither is a misaligned quad word. -/
theorem considers_iff_same_bucket (q : memq_t) (S L : MemQueueEntry) (hS : S ∈ q.entries)
    (hL : L ∈ q.entries) (hSresolved : S.thePaddr ≠ kUnresolved)
    (hLresolved : L.thePaddr ≠ kUnresolved) (holder : S.theSequenceNum < L.theSequenceNum)
    (hshared : ∃ a, S.touches a ∧ L.touches a) :
    Considers q S L ↔ S.thePaddr.toNat / 8 = L.thePaddr.toNat / 8 ∧ ¬ MisalignedQuad S ∧
      ¬ MisalignedQuad L := by
  have hSaligned := q.aligned S hS hSresolved
  have hLaligned := q.aligned L hL hLresolved
  have hbucket : S.thePaddr_aligned = L.thePaddr_aligned ↔
      S.thePaddr.toNat / 8 = L.thePaddr.toNat / 8 := by
    rw [← BitVec.toNat_inj, hSaligned.toNat_eq, hLaligned.toNat_eq]
    omega
  rw [← hbucket, ← inWindow_iff_not_misalignedQuad hSaligned,
    ← inWindow_iff_not_misalignedQuad hLaligned]
  constructor
  · rintro ⟨hrange, hinter⟩
    exact ⟨(memq_t.mem_olderInBucket.mp hrange).2.1,
      inWindow_of_intersects hSaligned hLaligned hinter⟩
  · rintro ⟨hsame, hSwin, hLwin⟩
    refine ⟨memq_t.mem_olderInBucket.mpr ⟨hS, hsame, holder⟩, ?_⟩
    exact (intersects_iff_touches hsame hSwin hLwin).mpr hshared

/-- A double word store and a load of the word it starts with. -/
def storeThenWord : memq_t where
  entries := [
    (MemQueueEntry.create 1 .kStore .kDoubleWord false).setPaddr 0x1000#64,
    (MemQueueEntry.create 2 .kLoad .kWord true).setPaddr 0x1000#64]
  ordered := by decide
  aligned := by decide
  native := by decide

theorem considers_storeThenWord :
    Considers storeThenWord ((MemQueueEntry.create 1 .kStore .kDoubleWord false).setPaddr 0x1000#64)
      ((MemQueueEntry.create 2 .kLoad .kWord true).setPaddr 0x1000#64) :=
  (considers_iff_same_bucket storeThenWord _ _ (by decide) (by decide) (by decide) (by decide)
    (by decide) ⟨0x1000#64, by decide, by decide⟩).mpr (by decide)

/-- A double word store across an 8-byte boundary and a load behind the boundary. -/
def storeAcrossBoundary : memq_t where
  entries := [
    (MemQueueEntry.create 1 .kStore .kDoubleWord false).setPaddr 0x1004#64,
    (MemQueueEntry.create 2 .kLoad .kWord true).setPaddr 0x1008#64]
  ordered := by decide
  aligned := by decide
  native := by decide

/-- The load behind the boundary bypasses the store that writes its bytes: they
    are in different buckets of the index. -/
theorem not_considers_storeAcrossBoundary :
    ¬ ∀ (q : memq_t) (S L : MemQueueEntry), S ∈ q.entries → L ∈ q.entries →
      S.thePaddr ≠ kUnresolved → L.thePaddr ≠ kUnresolved → S.isLiveStore = true →
      L.isLoad = true → S.theSequenceNum < L.theSequenceNum →
      (∃ a, S.touches a ∧ L.touches a) → Considers q S L := by
  intro hall
  have hconsidered := hall storeAcrossBoundary
    ((MemQueueEntry.create 1 .kStore .kDoubleWord false).setPaddr 0x1004#64)
    ((MemQueueEntry.create 2 .kLoad .kWord true).setPaddr 0x1008#64) (by decide) (by decide)
    (by decide) (by decide) (by decide) (by decide) (by decide) ⟨0x1008#64, by decide, by decide⟩
  revert hconsidered
  decide

end nuArchARM
