import Flexus.MemQueue.Resnoop

namespace nuArchARM

/-- Whether `doLoad` gets as far as snooping the stores for this load. -/
def snoops (c : CoreImpl) (s : Nat) : Bool :=
  match c.theMemQueue.find s with
  | none => false
  | some e =>
    !(e.isAtomic && e.thePartialSnoop) && e.status != .kAnnulled && e.status != .kAwaitingAddress &&
      !e.isAbnormalAccess && !(e.isAtomic && !c.theSpeculativeOrder) && e.thePaddr != kUnresolved

def Visit.snoops (v : Visit) : Bool :=
  nuArchARM.snoops v.before v.load

/-- What a load ends with: its value and its partial snoop flag. -/
def outcome (c : CoreImpl) (s : Nat) : Option (Option bits × Bool) :=
  (c.theMemQueue.find s).map fun e => (e.loadValue, e.thePartialSnoop)

/-- The visit ends as it would have with a search of its own. -/
def Visit.Agrees (S : Surroundings) (v : Visit) : Prop :=
  outcome (doLoad S v.before v.load v.cached).1 v.load =
    outcome (doLoad S v.before v.load none).1 v.load

instance (S : Surroundings) (v : Visit) : Decidable (v.Agrees S) :=
  inferInstanceAs (Decidable (_ = _))

/-- Two search results that mean the same to the load `L`: both empty; both a
    store that covers it, with the same bytes to forward; both a store that does
    not; or one empty and the other a store that leaves the load, like an empty
    result, without a value and with the flag it had. -/
def SameForward (L : MemQueueEntry) : Option MemQueueEntry → Option MemQueueEntry → Prop
  | none, none => True
  | some m, some m' =>
    covers m L = covers m' L ∧ (covers m L = true → forwarded m L = forwarded m' L)
  | some m, none | none, some m =>
    (covers m L = true ∧ forwarded m L = none ∧ L.thePartialSnoop = false) ∨
      (covers m L = false ∧ L.thePartialSnoop = true)

/-- Every visited load that snoops after another one has fits the match of the
    first: the store found for the first snooping load means the same to it as
    the store it would find itself. -/
def FirstMatchFits (visits : List Visit) : Prop :=
  ∀ pre v post, visits = pre ++ v :: post → v.snoops = true →
    ∀ first, pre.find? Visit.snoops = some first →
      ∀ L, v.before.theMemQueue.find v.load = some L →
        ∀ L₁, v.before.theMemQueue.find first.load = some L₁ →
          SameForward L (snoopMatch v.before.theMemQueue L₁) (snoopMatch v.before.theMemQueue L)

/-- What a search result leaves in a load. -/
def forwardedOutcome (L : MemQueueEntry) : Option MemQueueEntry → Option bits × Bool
  | none => (none, L.thePartialSnoop)
  | some m => if covers m L then (forwarded m L, false) else (none, true)

theorem forwardedOutcome_eq_iff (L : MemQueueEntry) (m m' : Option MemQueueEntry) :
    forwardedOutcome L m = forwardedOutcome L m' ↔ SameForward L m m' := by
  cases m with
  | none =>
    cases m' with
    | none => simp [SameForward]
    | some m' =>
      by_cases hcov : covers m' L = true
      · simp only [forwardedOutcome, SameForward, hcov, if_true, Prod.mk.injEq]
        rw [eq_comm (a := none)]
        simp
      · simp [forwardedOutcome, SameForward, hcov]
  | some m =>
    cases m' with
    | none =>
      by_cases hcov : covers m L = true
      · simp only [forwardedOutcome, SameForward, hcov, if_true, Prod.mk.injEq]
        rw [eq_comm (a := false)]
        simp
      · cases hflag : L.thePartialSnoop <;> simp [forwardedOutcome, SameForward, hcov, hflag]
    | some m' =>
      by_cases hcov : covers m L = true <;> by_cases hcov' : covers m' L = true <;>
        simp [forwardedOutcome, SameForward, hcov, hcov']

/-- The two entries touch the same bytes. -/
structure SameBytes (e e' : MemQueueEntry) : Prop where
  size : e'.theSize = e.theSize
  paddr : e'.thePaddr = e.thePaddr
  aligned : e'.thePaddr_aligned = e.thePaddr_aligned

/-- The two entries, as stores, forward the same bytes to the same loads. -/
structure SameStore (e e' : MemQueueEntry) : Prop extends SameBytes e e' where
  seq : e'.theSequenceNum = e.theSequenceNum
  live : e'.isLiveStore = e.isLiveStore
  value : e'.theValue = e.theValue

namespace SameBytes

variable {m m' L L' : MemQueueEntry}

theorem makeMask_eq (h : SameBytes L L') : makeMask L' = makeMask L := by
  simp only [makeMask, offset, h.size, h.paddr, h.aligned]

theorem intersects_eq (hm : SameBytes m m') (hL : SameBytes L L') :
    intersects m' L' = intersects m L := by
  rw [intersects, intersects, hm.makeMask_eq, hL.makeMask_eq]

theorem covers_eq (hm : SameBytes m m') (hL : SameBytes L L') : covers m' L' = covers m L := by
  rw [covers, covers, hm.makeMask_eq, hL.makeMask_eq]

end SameBytes

theorem SameStore.forwarded_eq {m m' L L' : MemQueueEntry} (hm : SameStore m m')
    (hL : SameBytes L L') : forwarded m' L' = forwarded m L := by
  have hmask := hL.makeMask_eq
  simp only [forwarded, writeAligned, align, offset, hmask, hm.size, hm.paddr, hm.aligned, hm.value,
    hL.size, hL.paddr, hL.aligned]

theorem OnlyResults.sameBytes {e e' : MemQueueEntry} (h : OnlyResults e e') : SameBytes e e' := by
  rw [OnlyResults] at h
  rw [h]
  exact ⟨rfl, rfl, rfl⟩

theorem OnlyIssued.sameStore {e e' : MemQueueEntry} (h : OnlyIssued e e') : SameStore e e' := by
  refine ⟨h.onlyResults.sameBytes, h.onlyResults.sameAccess.seq,
    h.onlyResults.sameAccess.isLiveStore_eq, ?_⟩
  rw [OnlyIssued] at h
  rw [h]

/-- When the older entries are the same stores as before, a walk backwards ends
    at the same store. -/
theorem youngestOlder_related {R : MemQueueEntry → MemQueueEntry → Prop} {c c' : CoreImpl}
    (h : Related R c c') {a : PhysicalMemoryAddress} {s : Nat} {p p' : MemQueueEntry → Bool}
    (hseq : ∀ e e', R e e' → e'.theSequenceNum = e.theSequenceNum)
    (hstore : ∀ e e', R e e' → e.theSequenceNum < s → SameStore e e')
    (hp : ∀ e e', SameStore e e' → p' e' = p e) :
    Option.Rel SameStore (c.theMemQueue.youngestOlder a s p)
      (c'.theMemQueue.youngestOlder a s p') := by
  -- A candidate of the later queue was a candidate of the earlier one.
  have hback : ∀ x' ∈ c'.theMemQueue.entries, x'.thePaddr_aligned = a → x'.theSequenceNum < s →
      p' x' = true → ∃ x ∈ c.theMemQueue.entries, SameStore x x' ∧ x.thePaddr_aligned = a ∧
        x.theSequenceNum < s ∧ p x = true := by
    intro x' hx' hbucket holder hsel
    obtain ⟨x, hx, hrel⟩ := h.exists_of_mem_right hx'
    have hlt : x.theSequenceNum < s := by
      rw [← hseq x x' hrel]
      exact holder
    have hsame := hstore x x' hrel hlt
    exact ⟨x, hx, hsame, hsame.aligned ▸ hbucket, hlt, hp x x' hsame ▸ hsel⟩
  cases hfound : c.theMemQueue.youngestOlder a s p with
  | none =>
    have hnone := memq_t.youngestOlder_eq_none_iff.mp hfound
    have hnone' : c'.theMemQueue.youngestOlder a s p' = none := by
      refine memq_t.youngestOlder_eq_none_iff.mpr ?_
      intro x' hx' hbucket holder
      by_contra hsel
      obtain ⟨x, hx, -, hb, ho, hpx⟩ := hback x' hx' hbucket holder (by simpa using hsel)
      simp [hnone x hx hb ho] at hpx
    rw [hnone']
    exact .none
  | some m =>
    have hm := memq_t.youngestOlder_eq_some_iff.mp hfound
    obtain ⟨m', hm', hrel⟩ := h.exists_of_mem hm.mem
    have hsame := hstore m m' hrel hm.older
    have hfound' : c'.theMemQueue.youngestOlder a s p' = some m' := by
      refine memq_t.youngestOlder_eq_some_iff.mpr ⟨hm', ?_, ?_, ?_, ?_⟩
      · rw [hsame.aligned, hm.bucket]
      · rw [hsame.seq]
        exact hm.older
      · rw [hp m m' hsame, hm.selected]
      · intro x' hx' hbucket holder hsel
        obtain ⟨x, hx, hxx, hb, ho, hpx⟩ := hback x' hx' hbucket holder hsel
        rw [hxx.seq, hsame.seq]
        exact hm.youngest x hx hb ho hpx
    rw [hfound']
    exact .some hsame

/-- When the entries older than a load are the same stores as before, the load
    finds the same match. -/
theorem snoopMatch_related {R : MemQueueEntry → MemQueueEntry → Prop} {c c' : CoreImpl}
    (h : Related R c c') {L L' : MemQueueEntry} (hL : SameBytes L L')
    (hLseq : L'.theSequenceNum = L.theSequenceNum)
    (hseq : ∀ e e', R e e' → e'.theSequenceNum = e.theSequenceNum)
    (hstore : ∀ e e', R e e' → e.theSequenceNum < L.theSequenceNum → SameStore e e') :
    Option.Rel SameStore (snoopMatch c.theMemQueue L) (snoopMatch c'.theMemQueue L') := by
  rw [snoopMatch, snoopMatch, hL.aligned, hLseq]
  refine youngestOlder_related h hseq hstore ?_
  intro e e' hee
  rw [hee.live, hee.intersects_eq hL]

theorem forwardedOutcome_rel {L L' : MemQueueEntry} (hL : SameBytes L L')
    (hflag : L'.thePartialSnoop = L.thePartialSnoop) {m m' : Option MemQueueEntry}
    (hm : Option.Rel SameStore m m') : forwardedOutcome L' m' = forwardedOutcome L m := by
  cases hm with
  | none => simp [forwardedOutcome, hflag]
  | some hsame =>
    simp only [forwardedOutcome, hsame.covers_eq hL, hsame.forwarded_eq hL]

/-- The store a search result stands for: one found earlier, or the load's own match. -/
def resolve (q : memq_t) (L : MemQueueEntry) : SnoopState → Option MemQueueEntry
  | none => snoopMatch q L
  | some none => none
  | some (some m) => q.find m

theorem forwardEntry_outcome (aStore aLoad : MemQueueEntry) :
    ((forwardEntry aStore aLoad).loadValue, (forwardEntry aStore aLoad).thePartialSnoop) =
      forwardedOutcome aLoad (some aStore) := by
  have hvalue : ∀ v b, MemQueueEntry.loadValue { aLoad.setLoadValue v with thePartialSnoop := b } = v := by
    intro v b
    exact MemQueueEntry.loadValue_setLoadValue aLoad v
  unfold forwardEntry forwardedOutcome
  split <;> simp [*]

theorem SameStore.refl (e : MemQueueEntry) : SameStore e e :=
  ⟨⟨rfl, rfl, rfl⟩, rfl, rfl, rfl⟩

/-- Dropping the value of a load does not change what it finds. -/
theorem snoopMatch_cleared {c : CoreImpl} {s : Nat} {L : MemQueueEntry}
    (hfind : c.theMemQueue.find s = some L) :
    Option.Rel SameStore (snoopMatch c.theMemQueue L)
      (snoopMatch (c.update s (fun e => e.setLoadValue none)
        unloaded_sameKey).theMemQueue (L.setLoadValue none)) := by
  have hs : L.theSequenceNum = s := (memq_t.find_eq_some.mp hfind).2
  refine snoopMatch_related (R := fun e e' => e'.theSequenceNum = e.theSequenceNum ∧
    (e.theSequenceNum < L.theSequenceNum → SameStore e e')) ?_
    (onlyResults_setLoadValue L none).sameBytes (setLoadValue_sameKey L none).seq
    (fun _ _ h => h.1) (fun _ _ h => h.2)
  refine .update (fun e => ⟨rfl, fun _ => .refl e⟩) ?_ c
  intro e he
  exact ⟨(setLoadValue_sameKey e none).seq, fun hlt => absurd he (by omega)⟩

theorem map_seq_rel {m m' : Option MemQueueEntry} (h : Option.Rel SameStore m m') :
    m'.map (·.theSequenceNum) = m.map (·.theSequenceNum) := by
  cases h with
  | none => rfl
  | some hsame => simp [hsame.seq]

/-- `snoopStores` leaves in the load what the search result it uses means to it. -/
theorem snoopStores_outcome {c : CoreImpl} {s : Nat} {L : MemQueueEntry}
    (hfind : c.theMemQueue.find s = some L) (hresolved : L.thePaddr ≠ kUnresolved)
    {cached : SnoopState} (hcached : ∀ m, cached = some (some m) → m < s) :
    outcome (snoopStores c s cached).1 s =
      some (forwardedOutcome L (resolve c.theMemQueue L cached)) := by
  have hs : L.theSequenceNum = s := (memq_t.find_eq_some.mp hfind).2
  have hkey := setLoadValue_sameKey L none
  have hbytes : SameBytes L (L.setLoadValue none) := (onlyResults_setLoadValue L none).sameBytes
  have hflag : (L.setLoadValue none).thePartialSnoop = L.thePartialSnoop := by
    unfold MemQueueEntry.setLoadValue
    split <;> rfl
  let cleared := c.update s (fun e => e.setLoadValue none) unloaded_sameKey
  have hclear : cleared.theMemQueue.find s = some (L.setLoadValue none) := by
    rw [find_update_self, hfind, Option.map_some]
  have hnothing : outcome cleared s = some (forwardedOutcome L none) := by
    rw [outcome, hclear]
    simp [forwardedOutcome, hflag]
  have hforward : ∀ m, outcome (forwardValue cleared m (L.setLoadValue none)) s =
      some (forwardedOutcome (L.setLoadValue none) (some m)) := by
    intro m
    have hqueue := forwardValue_queue cleared m (L.setLoadValue none)
    rw [hkey.seq, hs] at hqueue
    rw [outcome, hqueue, find_update_self, hclear, Option.map_some, Option.map_some,
      forwardEntry_outcome]
  rw [snoopStores, hfind]
  simp only [hresolved, if_false]
  rcases cached with _ | _ | m
  · change outcome (snoopQueue cleared (L.setLoadValue none)).1 s = _
    rw [resolve, ← forwardedOutcome_rel hbytes hflag (snoopMatch_cleared hfind), snoopQueue]
    cases hmatch : snoopMatch cleared.theMemQueue (L.setLoadValue none) with
    | none =>
      rw [hnothing]
      simp [forwardedOutcome, hflag]
    | some m => exact hforward m
  · exact hnothing
  · have hne : m ≠ s := (hcached m rfl).ne
    have hother : (c.update s (fun e => e.setLoadValue none)
        unloaded_sameKey).theMemQueue.find m = c.theMemQueue.find m :=
      find_update_other c hne _ _
    dsimp only
    rw [hother, resolve]
    cases hm : c.theMemQueue.find m with
    | none => exact hnothing
    | some aStore =>
      rw [hforward, forwardedOutcome_rel hbytes hflag (.some (.refl aStore))]

/-- The search result `snoopStores` hands on: the one it received, or its own. -/
theorem snoopStores_result {c : CoreImpl} {s : Nat} {L : MemQueueEntry}
    (hfind : c.theMemQueue.find s = some L) (hresolved : L.thePaddr ≠ kUnresolved)
    (cached : SnoopState) : (snoopStores c s cached).2 =
      some (cached.getD ((snoopMatch c.theMemQueue L).map (·.theSequenceNum))) := by
  rw [snoopStores, hfind]
  simp only [hresolved, if_false]
  rcases cached with _ | _ | m
  · dsimp only
    rw [Option.getD_none, ← map_seq_rel (snoopMatch_cleared hfind), snoopQueue]
    split <;> simp [*]
  · rfl
  · dsimp only
    split <;> rfl

/-- A load that snoops is cleaned up, searched for, and settled. -/
theorem doLoad_of_snoops (S : Surroundings) {c : CoreImpl} {s : Nat} {L : MemQueueEntry}
    (hfind : c.theMemQueue.find s = some L) (hsnoops : snoops c s = true) (cached : SnoopState) :
    L.thePaddr ≠ kUnresolved ∧ doLoad S c s cached =
      (settleLoad S (snoopStores (leaveStatus S c L).1 s cached).1 s (leaveStatus S c L).2,
        (snoopStores (leaveStatus S c L).1 s cached).2) := by
  simp only [snoops, hfind, Bool.and_eq_true, bne_iff_ne, Bool.not_eq_true'] at hsnoops
  obtain ⟨⟨⟨⟨⟨hatomic, hannulled⟩, haddress⟩, habnormal⟩, hspeculative⟩, hresolved⟩ := hsnoops
  refine ⟨hresolved, ?_⟩
  rw [doLoad, hfind]
  simp only [hatomic, hannulled, haddress, habnormal, hspeculative, if_false, Bool.false_eq_true]

theorem snoopStores_unresolved {c : CoreImpl} {s : Nat}
    (h : ∀ L, c.theMemQueue.find s = some L → L.thePaddr = kUnresolved) (cached : SnoopState) :
    snoopStores c s cached = (c, cached) := by
  unfold snoopStores
  split
  case h_1 => rfl
  case h_2 L hfind => simp [h L hfind]

theorem leaveStatus_frame (S : Surroundings) (c : CoreImpl) (L : MemQueueEntry) :
    Related (fun e e' => SameStore e e' ∧ OnlyResults e e' ∧ e'.loadValue = e.loadValue ∧
      e'.thePartialSnoop = e.thePartialSnoop) c (leaveStatus S c L).1 := by
  refine leaveStatus_related (s := L.theSequenceNum) ?_ ?_ ?_ ?_ c rfl
  · exact fun e => ⟨⟨⟨rfl, rfl, rfl⟩, rfl, rfl, rfl⟩, rfl, rfl, rfl⟩
  · rintro x y z ⟨hxy, hry, hvy, hfy⟩ ⟨hyz, hrz, hvz, hfz⟩
    refine ⟨⟨⟨hyz.size.trans hxy.size, hyz.paddr.trans hxy.paddr, hyz.aligned.trans hxy.aligned⟩,
      hyz.seq.trans hxy.seq, hyz.live.trans hxy.live, hyz.value.trans hxy.value⟩, ?_,
      hvz.trans hvy, hfz.trans hfy⟩
    rw [OnlyResults] at *
    rw [hrz, hry]
  · intro e e' h
    refine ⟨h.sameStore, h.onlyResults, ?_, ?_⟩
    · rw [OnlyIssued] at h
      rw [h]
      rfl
    · rw [OnlyIssued] at h
      rw [h]
  · intro e _
    have hresults : OnlyResults e { e with theMSHR := false } := rfl
    exact ⟨⟨⟨rfl, rfl, rfl⟩, rfl, hresults.sameAccess.isLiveStore_eq, rfl⟩, hresults, rfl, rfl⟩

/-- A load that does not snoop neither uses nor changes the search result. -/
theorem doLoad_of_not_snoops (S : Surroundings) {c : CoreImpl} {s : Nat}
    (hsnoops : snoops c s = false) (cached : SnoopState) :
    doLoad S c s cached = ((doLoad S c s none).1, cached) := by
  unfold doLoad
  cases hfind : c.theMemQueue.find s with
  | none => rfl
  | some L =>
    dsimp only
    by_cases hatomic : (L.isAtomic && L.thePartialSnoop) = true
    · simp only [hatomic, if_true]
    by_cases hannulled : L.status = .kAnnulled
    · simp only [hatomic, hannulled, if_true, if_false, Bool.false_eq_true]
    by_cases haddress : L.status = .kAwaitingAddress
    · simp [hatomic, haddress]
    by_cases habnormal : L.isAbnormalAccess = true
    · simp only [hatomic, hannulled, haddress, habnormal, if_true, if_false, Bool.false_eq_true]
    by_cases hspeculative : (L.isAtomic && !c.theSpeculativeOrder) = true
    · simp only [hatomic, hannulled, haddress, habnormal, hspeculative, if_true, if_false,
        Bool.false_eq_true]
    have hunresolved : L.thePaddr = kUnresolved := by
      simpa [snoops, hfind, hatomic, hannulled, haddress, habnormal, hspeculative] using hsnoops
    have hleft : ∀ L', (leaveStatus S c L).1.theMemQueue.find s = some L' →
        L'.thePaddr = kUnresolved := by
      intro L' hfind'
      obtain ⟨L'', hfind'', hsame, -⟩ := (leaveStatus_frame S c L).find_eq_some
        (fun _ _ h => h.1.seq) hfind
      rw [hfind'] at hfind''
      cases hfind''
      rw [hsame.paddr, hunresolved]
    simp only [hatomic, hannulled, haddress, habnormal, hspeculative, if_false, Bool.false_eq_true,
      snoopStores_unresolved hleft]

/-- Settling a load only tells the others about it. -/
theorem settleLoad_outcome (S : Surroundings) {c : CoreImpl} {s : Nat} {L : MemQueueEntry}
    (hfind : c.theMemQueue.find s = some L) (v : Option bits) :
    outcome (settleLoad S c s v) s = outcome c s := by
  have hrel : Related (fun e e' => e'.theSequenceNum = e.theSequenceNum ∧
      (e.theSequenceNum = s → OnlyIssued e e')) c (settleLoad S c s v) := by
    refine settleLoad_related (fun e => ⟨rfl, fun _ => rfl⟩) ?_ ?_ ?_ ?_ c v
    · rintro x y z ⟨hseq, hxy⟩ ⟨hseq', hyz⟩
      refine ⟨hseq'.trans hseq, fun hs => ?_⟩
      have hy := hxy hs
      have hz := hyz (hseq.trans hs)
      rw [OnlyIssued] at *
      rw [hz, hy]
    · exact fun e e' h => ⟨h.onlyResults.sameAccess.seq, fun _ => h⟩
    · exact fun c => (S.squash_reaction s c).imp fun e e' h => ⟨h.seq, fun hs => h.older hs.le⟩
    · exact fun c => (S.satisfy_reaction s c).imp fun e e' h => ⟨h.seq, fun hs => h.older hs.le⟩
  obtain ⟨L', hfind', hseq, hissued⟩ := hrel.find_eq_some (fun _ _ h => h.1) hfind
  have hL := hissued (memq_t.find_eq_some.mp hfind).2
  rw [OnlyIssued] at hL
  rw [outcome, outcome, hfind, hfind', hL]
  rfl

/-- A load that snoops ends with what the search result means to it. -/
theorem doLoad_outcome (S : Surroundings) {c : CoreImpl} {s : Nat} {L : MemQueueEntry}
    (hfind : c.theMemQueue.find s = some L) (hsnoops : snoops c s = true) {cached : SnoopState}
    (hcached : ∀ m, cached = some (some m) → m < s) :
    outcome (doLoad S c s cached).1 s =
      some (forwardedOutcome L (resolve c.theMemQueue L cached)) := by
  obtain ⟨hresolved, hdo⟩ := doLoad_of_snoops S hfind hsnoops cached
  have hframe := leaveStatus_frame S c L
  obtain ⟨L', hfind', hstore, hresults, -, hflag⟩ := hframe.find_eq_some (fun _ _ h => h.1.seq) hfind
  have hmatch : Option.Rel SameStore (resolve c.theMemQueue L cached)
      (resolve (leaveStatus S c L).1.theMemQueue L' cached) := by
    rcases cached with _ | _ | m
    · exact snoopMatch_related hframe hstore.toSameBytes hstore.seq (fun _ _ h => h.1.seq)
        (fun _ _ h _ => h.1)
    · exact .none
    · rw [resolve, resolve]
      cases hm : c.theMemQueue.find m with
      | none =>
        have hnone : (leaveStatus S c L).1.theMemQueue.find m = none := by
          refine List.find?_eq_none.mpr ?_
          intro e' he' hseq'
          obtain ⟨e, he, hee, -⟩ := hframe.exists_of_mem_right he'
          rw [hee.seq] at hseq'
          exact List.find?_eq_none.mp hm e he hseq'
        rw [hnone]
        exact .none
      | some e =>
        obtain ⟨e', hm', hee, -⟩ := hframe.find_eq_some (fun _ _ h => h.1.seq) hm
        rw [hm']
        exact .some hee
  have hafter : outcome (snoopStores (leaveStatus S c L).1 s cached).1 s =
      some (forwardedOutcome L (resolve c.theMemQueue L cached)) := by
    rw [snoopStores_outcome hfind' (by rw [hstore.paddr]; exact hresolved) hcached,
      forwardedOutcome_rel hstore.toSameBytes hflag hmatch]
  rw [hdo]
  cases hend : (snoopStores (leaveStatus S c L).1 s cached).1.theMemQueue.find s with
  | none => simp [outcome, hend] at hafter
  | some L'' => rw [settleLoad_outcome S hend, hafter]

/-- The search result handed on: the one received, or the load's own match. -/
theorem doLoad_result (S : Surroundings) {c : CoreImpl} {s : Nat} {L : MemQueueEntry}
    (hfind : c.theMemQueue.find s = some L) (hsnoops : snoops c s = true) (cached : SnoopState) :
    (doLoad S c s cached).2 =
      some (cached.getD ((snoopMatch c.theMemQueue L).map (·.theSequenceNum))) := by
  obtain ⟨hresolved, hdo⟩ := doLoad_of_snoops S hfind hsnoops cached
  have hframe := leaveStatus_frame S c L
  obtain ⟨L', hfind', hstore, -, -, -⟩ := hframe.find_eq_some (fun _ _ h => h.1.seq) hfind
  have hmatch : Option.Rel SameStore (snoopMatch c.theMemQueue L)
      (snoopMatch (leaveStatus S c L).1.theMemQueue L') :=
    snoopMatch_related hframe hstore.toSameBytes hstore.seq (fun _ _ h => h.1.seq)
      (fun _ _ h _ => h.1)
  rw [hdo, ← map_seq_rel hmatch]
  exact snoopStores_result hfind' (by rw [hstore.paddr]; exact hresolved) cached

/-- The search result on its way to the entries from `s` on is the match of the
    load `first`, the first one that snooped, as the queue stands now. -/
def CameFrom (c : CoreImpl) (s : Nat) (cached : SnoopState) : Option Nat → Prop
  | none => cached = none
  | some first => first < s ∧ ∃ L₁, c.theMemQueue.find first = some L₁ ∧
      cached = some ((snoopMatch c.theMemQueue L₁).map (·.theSequenceNum))

theorem CameFrom.mono {c : CoreImpl} {s s' : Nat} (hs : s ≤ s') {cached : SnoopState}
    {first : Option Nat} (h : CameFrom c s cached first) : CameFrom c s' cached first := by
  cases first with
  | none => exact h
  | some first => exact ⟨h.1.trans_le hs, h.2⟩

/-- The match of a load that is not younger than the visited one survives the visit. -/
theorem snoopMatch_after_doLoad (S : Surroundings) {c : CoreImpl} {s l : Nat} (hl : l ≤ s)
    (cached : SnoopState) {L : MemQueueEntry} (hfind : c.theMemQueue.find l = some L) :
    ∃ L', (doLoad S c s cached).1.theMemQueue.find l = some L' ∧
      (snoopMatch (doLoad S c s cached).1.theMemQueue L').map (·.theSequenceNum) =
        (snoopMatch c.theMemQueue L).map (·.theSequenceNum) := by
  have hframe := doLoad_frame S c s cached
  have hseq : L.theSequenceNum = l := (memq_t.find_eq_some.mp hfind).2
  obtain ⟨L', hfind', hLL⟩ := hframe.find_eq_some (fun _ _ h => h.seq) hfind
  have hbytes : SameBytes L L' := by
    obtain hlt | heq := Nat.lt_or_eq_of_le hl
    · exact (hLL.older (by omega)).sameStore.toSameBytes
    · exact (hLL.own (by omega)).sameBytes
  refine ⟨L', hfind', map_seq_rel ?_⟩
  refine snoopMatch_related hframe hbytes hLL.seq (fun _ _ h => h.seq) ?_
  intro e e' h holder
  exact (h.older (by omega)).sameStore

/-- One visit hands the search result of the first snooping load on. -/
theorem CameFrom.step (S : Surroundings) {c : CoreImpl} {s : Nat} {cached : SnoopState}
    {first : Option Nat} (h : CameFrom c s cached first) :
    CameFrom (doLoad S c s cached).1 (s + 1) (doLoad S c s cached).2
      (first <|> if snoops c s then some s else none) := by
  cases first with
  | some first =>
    obtain ⟨hlt, L₁, hfind, hcached⟩ := h
    obtain ⟨L₁', hfind', hmatch⟩ := snoopMatch_after_doLoad S hlt.le cached hfind
    have hsame : (doLoad S c s cached).2 = cached := by
      by_cases hsnoops : snoops c s = true
      · cases hL : c.theMemQueue.find s with
        | none => simp [snoops, hL] at hsnoops
        | some L =>
          rw [doLoad_result S hL hsnoops, hcached]
          rfl
      · rw [doLoad_of_not_snoops S (by simpa using hsnoops)]
    exact ⟨by omega, L₁', hfind', by rw [hsame, hmatch, hcached]⟩
  | none =>
    have hnone : cached = none := h
    by_cases hsnoops : snoops c s = true
    · cases hL : c.theMemQueue.find s with
      | none => simp [snoops, hL] at hsnoops
      | some L =>
        obtain ⟨L', hfind', hmatch⟩ := snoopMatch_after_doLoad S le_rfl cached hL
        rw [if_pos hsnoops]
        refine ⟨by omega, L', hfind', ?_⟩
        rw [doLoad_result S hL hsnoops, hmatch, hnone]
        rfl
    · rw [if_neg hsnoops, doLoad_of_not_snoops S (by simpa using hsnoops)]
      exact hnone

/-- Along the whole loop each visit receives the match of the first load that
    snooped before it. -/
theorem scanDependants_cameFrom (S : Surroundings) {U : MemQueueEntry}
    (hkey : U.thePaddr_aligned ≠ kUnresolved) (fuel : Nat) (c : CoreImpl) (cached : SnoopState)
    {s : Nat} {first : Option Nat} (hcame : CameFrom c s cached first) {pre post : List Visit}
    {v : Visit} (hvisits : (scanDependants S U fuel c cached
      (c.theMemQueue.lowerBound U.thePaddr_aligned s)).2 = pre ++ v :: post) :
    CameFrom v.before v.load v.cached (first <|> (pre.find? Visit.snoops).map (·.load)) := by
  induction fuel generalizing c cached s first pre with
  | zero => simp [scanDependants] at hvisits
  | succ fuel ih =>
    cases hiter : c.theMemQueue.lowerBound U.thePaddr_aligned s with
    | none => simp [hiter, scanDependants] at hvisits
    | some entry =>
      obtain ⟨-, -, hle, -⟩ := lowerBound_eq_some hiter
      rw [hiter, scanDependants] at hvisits
      dsimp only at hvisits
      split at hvisits
      case isTrue =>
        have hhere := hcame.mono hle
        rw [lowerBound_again (doLoad_sameAccess S c entry.theSequenceNum cached) hkey] at hvisits
        cases pre with
        | nil =>
          simp only [List.nil_append, List.cons.injEq] at hvisits
          obtain ⟨rfl, -⟩ := hvisits
          simpa using hhere
        | cons w pre =>
          simp only [List.cons_append, List.cons.injEq] at hvisits
          obtain ⟨rfl, hrest⟩ := hvisits
          have hnext := ih _ _ (hhere.step S) hrest
          rw [List.find?_cons]
          cases first with
          | some first => exact hnext
          | none =>
            cases hsnoops : snoops c entry.theSequenceNum with
            | true => simpa [Visit.snoops, hsnoops] using hnext
            | false => simpa [Visit.snoops, hsnoops] using hnext
      case isFalse =>
        split at hvisits
        case isTrue => simp at hvisits
        case isFalse => exact ih c cached (hcame.mono (by omega)) hvisits

/-- The store a handed-on search result stands for is the match it came from. -/
theorem CameFrom.resolve_eq {c : CoreImpl} {s first : Nat} {cached : SnoopState}
    (h : CameFrom c s cached (some first)) {L L₁ : MemQueueEntry}
    (hfind : c.theMemQueue.find first = some L₁) :
    (∀ m, cached = some (some m) → m < s) ∧
      resolve c.theMemQueue L cached = snoopMatch c.theMemQueue L₁ := by
  obtain ⟨hlt, L', hfind', rfl⟩ := h
  rw [hfind] at hfind'
  cases hfind'
  have hseq := (memq_t.find_eq_some.mp hfind).2
  cases hmatch : snoopMatch c.theMemQueue L₁ with
  | none => exact ⟨by simp, rfl⟩
  | some m =>
    have hm := memq_t.youngestOlder_eq_some_iff.mp hmatch
    refine ⟨?_, memq_t.find_eq_some.mpr ⟨hm.mem, rfl⟩⟩
    intro n hn
    obtain rfl : m.theSequenceNum = n := by simpa using hn
    have holder := hm.older
    omega

/-- Two stores to the two words of a double word, a load of the double word and
    a load of the first word. -/
def wordsThenLoads : CoreImpl where
  theMemQueue := {
    entries := [
      { (MemQueueEntry.create 1 .kStore .kWord false).setPaddr 0x1000#64 with
        theValue := some 7#128 },
      { (MemQueueEntry.create 2 .kStore .kWord false).setPaddr 0x1004#64 with
        theValue := some 9#128 },
      (MemQueueEntry.create 3 .kLoad .kDoubleWord true).setPaddr 0x1000#64,
      (MemQueueEntry.create 4 .kLoad .kWord true).setPaddr 0x1000#64]
    ordered := by decide
    aligned := by decide
    native := by decide }
  thePartialSnoopersOutstanding := 0
  thePartialSnoopLoads := 0
  theSpeculativeOrder := false

end nuArchARM
