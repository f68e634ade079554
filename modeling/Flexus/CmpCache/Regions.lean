import Flexus.CmpCache.MissAddressFile
import Flexus.Lib.Runs
import Flexus.Lib.Tally

/-!
# The regions of the miss address file

Besides its entries the file records how many of them each core has in each region of memory.
A function that the user of the file registers says which region an address belongs to. The
recorder is written under regions, and read under the address that is asked about.
-/

namespace nCMPCache

open Runs

/-- How an operation on the file stops: an assertion fails, or the iterator is not valid. -/
inductive RegionFault where
  | assertion
  | danglingMAF
  deriving DecidableEq, Repr

/-- The file with its recorder: for each region the cores that have entries there, and how
    many. -/
structure RegionFile where
  theMAF : MissAddressFile
  theRegionRecorder : Tally.Table MemoryAddress Int

namespace RegionFile

def create (aSize : Nat) : RegionFile := ⟨.create aSize, ∅⟩

variable (regionFunc : MemoryAddress → MemoryAddress)

def insert (m : RegionFile) (t : MemoryTransport) (a : MemoryAddress) (st : MAFState) : RegionFile :=
  ⟨m.theMAF.insert t a st, Tally.add m.theRegionRecorder (regionFunc a) t.dest.requester⟩

/-- The recorder has to have a row and a cell for the entry. -/
def remove (m : RegionFile) (i : Nat) : Except RegionFault RegionFile :=
  match m.theMAF.get? i with
  | none => .error .danglingMAF
  | some e =>
    match Tally.drop m.theRegionRecorder (regionFunc e.address) e.requester with
    | none => .error .assertion
    | some recorder => .ok ⟨m.theMAF.remove i, recorder⟩

/-- The first active request of a core for a block. -/
def removeFirst (m : RegionFile) (a : MemoryAddress) (requester : Int) : Except RegionFault RegionFile :=
  match (m.theMAF.findAll a .eWaitAck).find? fun e => e.requester == requester with
  | none => .error .assertion
  | some e => m.remove regionFunc e.stamp

/-- The region of the address is computed and not used: the row that is looked up is that of
    the address itself. -/
def otherRegionRequesters (m : RegionFile) (a : MemoryAddress) (requester : Int) : Bool :=
  match (m.theRegionRecorder.lookup a : Option (Tally.Row Int)) with
  | none => false
  | some row =>
    if row.entries.length < 1 then false
    else if row.entries.length = 1 ∧ row.keys.head? = some requester then false
    else true

/-- What is done to the file: entries come and go, and change their state. -/
inductive Call where
  | insert (t : MemoryTransport) (a : MemoryAddress) (st : MAFState)
  | remove (i : Nat)
  | removeFirst (a : MemoryAddress) (requester : Int)
  | setState (i : Nat) (st : MAFState)
  | setCacheEBReserved (i : Nat) (reserved : Int)
  | wake (i : Nat)
  | wakeAfterEvict (i : Nat)
  | getWakingMAF
  deriving DecidableEq, Repr

def step (m : RegionFile) : Call → Except RegionFault RegionFile
  | .insert t a st => .ok (m.insert regionFunc t a st)
  | .remove i => m.remove regionFunc i
  | .removeFirst a requester => m.removeFirst regionFunc a requester
  | .setState i st => .ok { m with theMAF := m.theMAF.modify i (fun e => { e with state := st }) fun _ => rfl }
  | .setCacheEBReserved i reserved => .ok { m with theMAF := m.theMAF.setCacheEBReserved i reserved }
  | .wake i => .ok { m with theMAF := m.theMAF.wake i }
  | .wakeAfterEvict i =>
    match m.theMAF.get? i with
    | none => .error .danglingMAF
    | some e => .ok { m with theMAF := m.theMAF.wakeAfterEvict e }
  | .getWakingMAF =>
    match m.theMAF.getWakingMAF with
    | .error _ => .error .assertion
    | .ok (maf, _) => .ok { m with theMAF := maf }

/-- The region and the core of an entry. -/
def place (e : MAFEntry) : MemoryAddress × Int := (regionFunc e.address, e.requester)

/-- The recorder counts the entries of each core in each region, and has nothing else. -/
def Recorded (m : RegionFile) : Prop := Tally.Counts m.theRegionRecorder (m.theMAF.entries.map (place regionFunc))

variable {regionFunc} {m m' : RegionFile} {i : Nat} {e : MAFEntry}

/-- A change of an entry that keeps its block and its core. -/
theorem places_modify {maf : MissAddressFile} {f : MAFEntry → MAFEntry} (hf : ∀ e, (f e).stamp = e.stamp)
    (hsame : ∀ e, place regionFunc (f e) = place regionFunc e) :
    ((maf.modify i f hf).entries.map (place regionFunc)).Perm (maf.entries.map (place regionFunc)) := by
  refine ((MissAddressFile.modifyEntries_perm maf.stamps).map _).trans (List.Perm.of_eq ?_)
  rw [List.map_map]
  refine List.map_congr_left fun e _ => ?_
  rw [Function.comp_apply]
  split
  · exact hsame e
  · rfl

theorem places_wake {maf : MissAddressFile} :
    ((maf.wake i).entries.map (place regionFunc)).Perm (maf.entries.map (place regionFunc)) :=
  places_modify (f := fun e => { e with state := .eWaking }) (fun _ => rfl) fun _ => rfl

theorem places_wakeAll {is : List Nat} {maf : MissAddressFile} :
    ((maf.wakeAll is).entries.map (place regionFunc)).Perm (maf.entries.map (place regionFunc)) := by
  induction is generalizing maf with
  | nil => exact List.Perm.refl _
  | cons i is ih => exact ih.trans places_wake

theorem recorded_insert {t : MemoryTransport} {a : MemoryAddress} {st : MAFState} (h : Recorded regionFunc m) :
    Recorded regionFunc (m.insert regionFunc t a st) := by
  have hentries : (m.insert regionFunc t a st).theMAF.entries.Perm
      ({ stamp := m.theMAF.nextStamp, address := a, state := st, transport := t } :: m.theMAF.entries) :=
    OrderedIndex.link_perm
  exact (Tally.Counts.add h).perm (hentries.map (place regionFunc)).symm

theorem recorded_modify {f : MAFEntry → MAFEntry} {hf : ∀ e, (f e).stamp = e.stamp} (h : Recorded regionFunc m)
    (hsame : ∀ e, place regionFunc (f e) = place regionFunc e) :
    Recorded regionFunc { m with theMAF := m.theMAF.modify i f hf } := by
  exact Tally.Counts.perm h (places_modify hf hsame).symm

/-- The entry that is removed is counted off. -/
theorem recorded_remove (h : Recorded regionFunc m) (hok : m.remove regionFunc i = .ok m') :
    Recorded regionFunc m' := by
  unfold remove at hok
  split at hok
  · cases hok
  · next e he =>
    obtain ⟨hmem, hstamp⟩ := MissAddressFile.get?_eq_some.mp he
    have hplace : (regionFunc e.address, e.requester) ∈ m.theMAF.entries.map (place regionFunc) :=
      List.mem_map_of_mem hmem
    obtain ⟨recorder, hdrop, hcounts⟩ := Tally.Counts.drop h hplace
    rw [hdrop] at hok
    cases hok
    refine hcounts.perm ?_
    have hsplit : m.theMAF.entries.Perm (e :: (m.theMAF.remove i).entries) := by
      refine (List.perm_cons_erase hmem).trans (List.Perm.of_eq ?_)
      rw [(List.Nodup.of_map _ m.theMAF.stamps).erase_eq_filter]
      refine congrArg (e :: ·) (List.filter_congr fun x hx => ?_)
      rw [Bool.eq_iff_iff, bne_iff_ne, bne_iff_ne, ← hstamp, not_iff_not]
      exact ⟨fun h => congrArg MAFEntry.stamp h, fun h => MissAddressFile.eq_of_stamp_eq hx hmem h⟩
    exact ((hsplit.map (place regionFunc)).erase _).trans (by rw [List.map_cons, place, List.erase_cons_head])

theorem recorded_step {c : Call} (h : Recorded regionFunc m) (hok : step regionFunc m c = .ok m') :
    Recorded regionFunc m' := by
  cases c with
  | insert t a st =>
    cases hok
    exact recorded_insert h
  | remove i => exact recorded_remove h hok
  | removeFirst a requester =>
    simp only [step, removeFirst] at hok
    split at hok
    · cases hok
    · exact recorded_remove h hok
  | setState i st =>
    cases hok
    exact recorded_modify h fun _ => rfl
  | setCacheEBReserved i reserved =>
    cases hok
    exact recorded_modify h fun _ => rfl
  | wake i =>
    cases hok
    exact recorded_modify h fun _ => rfl
  | wakeAfterEvict i =>
    simp only [step] at hok
    split at hok
    · cases hok
    · cases hok
      exact Tally.Counts.perm h (places_wakeAll.trans places_wake).symm
  | getWakingMAF =>
    simp only [step, MissAddressFile.getWakingMAF] at hok
    cases hpeek : m.theMAF.peekWakingMAF with
    | none =>
      rw [hpeek] at hok
      cases hok
    | some e =>
      rw [hpeek] at hok
      cases hok
      exact recorded_modify h fun _ => rfl

/-- What the query answers: whether some entry of the region that the address itself names
    belongs to another core. -/
theorem otherRegionRequesters_iff {a : MemoryAddress} {requester : Int} (h : Recorded regionFunc m) :
    m.otherRegionRequesters a requester = true ↔
      ∃ e ∈ m.theMAF.entries, regionFunc e.address = a ∧ e.requester ≠ requester := by
  have hpairs : (∃ e ∈ m.theMAF.entries, regionFunc e.address = a ∧ e.requester ≠ requester) ↔
      ∃ q, (a, q) ∈ m.theMAF.entries.map (place regionFunc) ∧ q ≠ requester := by
    constructor
    · rintro ⟨e, he, rfl, hother⟩
      exact ⟨e.requester, List.mem_map_of_mem he, hother⟩
    · rintro ⟨q, hq, hother⟩
      obtain ⟨e, he, hplace⟩ := List.mem_map.mp hq
      obtain ⟨rfl, rfl⟩ := Prod.mk.inj hplace
      exact ⟨e, he, rfl, hother⟩
  rw [hpairs, otherRegionRequesters]
  cases hrow : m.theRegionRecorder.lookup a with
  | none =>
    refine iff_of_false Bool.false_ne_true ?_
    rintro ⟨q, hq, _⟩
    exact h.not_mem hrow q hq
  | some row =>
    simp only [← h.mem_keys hrow]
    have hlength : row.entries.length = row.keys.length := (List.length_map _).symm
    have hunique := row.keys_nodup
    rw [hlength]
    obtain ⟨q, hq⟩ := h.row hrow
    rw [AList.lookup_isSome, AList.mem_keys] at hq
    generalize row.keys = keys at hunique hq
    match keys with
    | [] => cases hq
    | [k] => simp
    | k :: k' :: rest =>
      refine iff_of_true (by simp) ?_
      -- of two cores one is not the one that asks
      by_cases hk : k = requester
      · have hne : k ≠ k' := fun heq => (List.nodup_cons.mp hunique).1 (heq ▸ List.mem_cons_self)
        exact ⟨k', by simp, fun heq => hne (hk.trans heq.symm)⟩
      · exact ⟨k, List.mem_cons_self, hk⟩

/-- The states the file reaches, whatever is done to it. -/
def Reachable (regionFunc : MemoryAddress → MemoryAddress) (aSize : Nat) (m : RegionFile) : Prop :=
  Reaches (step regionFunc) Anything (create aSize) m

theorem recorded_of_reachable {aSize : Nat} (hreach : Reachable regionFunc aSize m) :
    Recorded regionFunc m := by
  have hinit : Recorded regionFunc (create aSize) := Tally.counts_empty
  exact Reaches.invariant hinit (fun _ _ _ h _ hok => recorded_step h hok) hreach

/-- A request of core zero for a block. -/
def request (a : MemoryAddress) : MemoryTransport :=
  { msg := { type := .ReadReq, address := a }, dest := { type := .Directory, requester := 0 } }

/-- A new file with the request of one core. -/
theorem reachable_request (aSize : Nat) (a : MemoryAddress) :
    Reachable regionFunc aSize ((create aSize).insert regionFunc (request a) a .eWaitAck) :=
  .next (e := .insert (request a) a .eWaitAck) .start trivial rfl

/-- For every region function the recorder holds, in every state of every run, how many
    entries each core has in each region, and nothing else. The query is right about an address
    in all of them exactly when the address is the name of its own region. -/
theorem regions_right_iff (regionFunc : MemoryAddress → MemoryAddress) (aSize : Nat) :
    (∀ m, Reachable regionFunc aSize m →
      (∀ r q, Tally.get m.theRegionRecorder r q =
        (m.theMAF.entries.filter fun e => regionFunc e.address = r ∧ e.requester = q).length) ∧
      ∀ r row q n, m.theRegionRecorder.lookup r = some row → row.lookup q = some n → n ≠ 0) ∧
    ∀ a, (∀ m, Reachable regionFunc aSize m → ∀ requester,
        (m.otherRegionRequesters a requester = true ↔
          ∃ e ∈ m.theMAF.entries, regionFunc e.address = regionFunc a ∧ e.requester ≠ requester)) ↔
      regionFunc a = a := by
  refine ⟨fun m hreach => ?_, fun a => ⟨fun hright => ?_, fun hself m hreach requester => ?_⟩⟩
  · have h := recorded_of_reachable hreach
    refine ⟨fun r q => ?_, fun r row q n hrow hn => (h.cell hrow hn).ne'⟩
    rw [h.count, List.count, List.countP_map, ← List.countP_eq_length_filter]
    refine congrArg Nat.cast (List.countP_congr fun e _ => ?_)
    simp [place]
  · by_contra hother
    -- one request of core zero for the block, and core one asks
    have hreach : Reachable regionFunc aSize _ := reachable_request aSize a
    have hquery := (otherRegionRequesters_iff (recorded_of_reachable hreach)).mp
      ((hright _ hreach 1).mpr ⟨_, OrderedIndex.mem_link.mpr (.inl rfl), rfl, (zero_ne_one : (0 : Int) ≠ 1)⟩)
    obtain ⟨e, he, hregion, _⟩ := hquery
    rcases OrderedIndex.mem_link.mp he with rfl | he
    · exact hother hregion
    · cases he
  · rw [hself]
    exact otherRegionRequesters_iff (recorded_of_reachable hreach)

/-- With regions of a kilobyte, the request of core zero for block 64 is not seen by core one,
    which asks about the same block. -/
theorem not_regions_right :
    ¬ ∀ (regionFunc : MemoryAddress → MemoryAddress) (aSize : Nat) (m : RegionFile),
      Reachable regionFunc aSize m → ∀ a requester,
        (m.otherRegionRequesters a requester = true ↔
          ∃ e ∈ m.theMAF.entries, regionFunc e.address = regionFunc a ∧ e.requester ≠ requester) := by
  intro hall
  have hquery := (hall (fun a => a / 1024 * 1024) 4 _ (reachable_request 4 64) 64 1).mpr
    ⟨_, OrderedIndex.mem_link.mpr (.inl rfl), rfl, (zero_ne_one : (0 : Int) ≠ 1)⟩
  revert hquery
  decide

end RegionFile

end nCMPCache
