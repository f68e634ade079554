import Flexus.MemQueue.Forward

namespace nuArchARM

/-- The same access later on: nothing that decides which bytes it touches, or
    whether it takes part in forwarding, has changed, except that its address
    may be unresolved again. -/
structure SameAccess (e e' : MemQueueEntry) : Prop extends MemQueueEntry.SameKey e e' where
  op : e'.theOperation = e.theOperation
  size : e'.theSize = e.theSize
  annulled : e'.theAnnulled = e.theAnnulled

/-- Everything but the port request flag is as before. -/
def OnlyIssued (e e' : MemQueueEntry) : Prop :=
  e' = { e with theIssued := e'.theIssued }

/-- Everything but the results of a load is as before. -/
def OnlyResults (e e' : MemQueueEntry) : Prop :=
  e' = { e with
    theExtendedValue := e'.theExtendedValue
    theValue := e'.theValue
    thePartialSnoop := e'.thePartialSnoop
    theIssued := e'.theIssued
    theMSHR := e'.theMSHR }

/-- What telling the dependants of the load `s` may do to an entry. They are
    younger instructions whose own address may become unresolved and whose own
    loads may snoop again; of an older entry at most a port is requested. -/
structure Reaction (s : Nat) (e e' : MemQueueEntry) : Prop extends SameAccess e e' where
  older : e.theSequenceNum ≤ s → OnlyIssued e e'

/-- Two states of the core whose queues hold the same entries, related pairwise. -/
structure Related (R : MemQueueEntry → MemQueueEntry → Prop) (c c' : CoreImpl) : Prop where
  entries : List.Forall₂ R c.theMemQueue.entries c'.theMemQueue.entries
  order : c'.theSpeculativeOrder = c.theSpeculativeOrder

/-- The rest of the core as a load sees it: squashing or satisfying the
    instructions that wait for the load `s`, and waking the operations blocked
    on a miss register that is released. -/
structure Surroundings where
  squash : Nat → CoreImpl → CoreImpl
  satisfy : Nat → CoreImpl → CoreImpl
  wakeBlocked : Nat → CoreImpl → CoreImpl
  squash_reaction : ∀ s c, Related (Reaction s) c (squash s c)
  satisfy_reaction : ∀ s c, Related (Reaction s) c (satisfy s c)
  wakeBlocked_issued : ∀ s c, Related OnlyIssued c (wakeBlocked s c)

namespace CoreImpl

def setIssued (c : CoreImpl) (s : Nat) (b : Bool) : CoreImpl :=
  c.update s (fun e => { e with theIssued := b }) (fun _ => .of_eq rfl rfl rfl rfl)

/-- The load value is dropped and the port request forgotten. -/
def dropValue (c : CoreImpl) (s : Nat) : CoreImpl :=
  c.update s (fun e => { e.setLoadValue none with theIssued := false })
    (fun e => (setLoadValue_sameKey e none).trans (.of_eq rfl rfl rfl rfl))

end CoreImpl

/-- Leaving the MSHR keeps the entry where it is in the queue. -/
theorem unlinked_sameKey (e : MemQueueEntry) : e.SameKey { e with theMSHR := false } :=
  .of_eq rfl rfl rfl rfl

def breakMSHRLink (S : Surroundings) (c : CoreImpl) (e : MemQueueEntry) : CoreImpl :=
  let s := e.theSequenceNum
  let c := c.setIssued s false
  if e.theMSHR then
    (S.wakeBlocked s c).update s (fun e => { e with theMSHR := false }) unlinked_sameKey
  else c

/-- `lower_bound(kLSQ)` of the `by_queue` index: the oldest entry of the load-store queue or,
    when that is empty, of the queues behind it. -/
def memq_t.lsqHead (q : memq_t) : Option MemQueueEntry :=
  (q.entries.find? fun e => e.theQueue == .kLSQ).or
    ((q.entries.find? fun e => e.theQueue == .kSSB).or
      (q.entries.find? fun e => e.theQueue == .kSB))

/-- A partial snoop may only request a port at the head of the load queue. -/
def requestPort (c : CoreImpl) (e : MemQueueEntry) : CoreImpl :=
  if e.thePartialSnoop &&
      c.theMemQueue.lsqHead.map (·.theSequenceNum) != some e.theSequenceNum then c
  else c.setIssued e.theSequenceNum true

/-- The first switch of `doLoad`: the previous status of the load is cleaned up
    and the value it may have to take back is recorded. -/
def leaveStatus (S : Surroundings) (c : CoreImpl) (e : MemQueueEntry) : CoreImpl × Option bits :=
  match e.status with
  | .kAwaitingValue | .kComplete => (c.setIssued e.theSequenceNum false, e.loadValue)
  | .kIssuedToMemory => (breakMSHRLink S c e, none)
  | .kAwaitingPort | .kAwaitingIssue =>
    if e.isAtomic then (c.setIssued e.theSequenceNum false, e.loadValue) else (c, none)
  | _ => (c, none)

/-- The last part of `doLoad`: the dependants hear of a changed value, or a port
    is requested for a load that found none. -/
def settleLoad (S : Surroundings) (c : CoreImpl) (s : Nat) (previous_value : Option bits) :
    CoreImpl :=
  match c.theMemQueue.find s with
  | none => c
  | some e =>
    if e.isAtomic && e.thePartialSnoop then c
    else match e.status with
      | .kComplete | .kAwaitingValue =>
        if previous_value = e.loadValue then c
        else
          let c := c.setIssued s false
          let c := if previous_value.isSome then S.squash s c else c
          if e.loadValue.isSome then S.satisfy s c else c
      | .kAwaitingIssue =>
        requestPort (if previous_value.isSome then S.squash s c else c) e
      | .kAwaitingPort => if previous_value.isSome then S.squash s c else c
      | _ => c

def doLoad (S : Surroundings) (c : CoreImpl) (s : Nat) (aCachedSnoopState : SnoopState) :
    CoreImpl × SnoopState :=
  match c.theMemQueue.find s with
  | none => (c, aCachedSnoopState)
  | some e =>
    if e.isAtomic && e.thePartialSnoop then
      let c := if e.loadValue.isSome && e.theDependance then S.squash s c else c
      (c.dropValue s, aCachedSnoopState)
    else if e.status = .kAnnulled then (c.setIssued s false, aCachedSnoopState)
    else if e.status = .kAwaitingAddress then (c, aCachedSnoopState)
    else
      let left := leaveStatus S c e
      if e.isAbnormalAccess then
        let c := if left.2.isSome then S.squash s left.1 else left.1
        (c.setIssued s false, aCachedSnoopState)
      else if e.isAtomic && !c.theSpeculativeOrder then (left.1, aCachedSnoopState)
      else
        let snooped := snoopStores left.1 s aCachedSnoopState
        (settleLoad S snooped.1 s left.2, snooped.2)

/-- One load visited by `updateDependantLoads`: the state it was visited in and
    the search result it was handed. -/
structure Visit where
  before : CoreImpl
  load : Nat
  cached : SnoopState

/-- The loop of `updateDependantLoads` from the iterator `iter`, with the loads
    it visits. The store itself never changes during the loop. -/
def scanDependants (S : Surroundings) (updated_store : MemQueueEntry) :
    Nat → CoreImpl → SnoopState → Option MemQueueEntry → CoreImpl × List Visit
  | 0, c, _, _ => (c, [])
  | _ + 1, c, _, none => (c, [])
  | fuel + 1, c, cached_search, some entry =>
    let key := updated_store.thePaddr_aligned
    let iter := c.theMemQueue.lowerBound key (entry.theSequenceNum + 1)
    if entry.isLoad && intersects updated_store entry then
      let done := doLoad S c entry.theSequenceNum cached_search
      -- The index is searched again only when the bucket had more entries before the load.
      let iter := iter.bind fun next => done.1.theMemQueue.lowerBound key next.theSequenceNum
      let rest := scanDependants S updated_store fuel done.1 done.2 iter
      (rest.1, ⟨c, entry.theSequenceNum, cached_search⟩ :: rest.2)
    else if entry.isStore && entry.status != .kAnnulled && intersects updated_store entry then
      (c, [])
    else scanDependants S updated_store fuel c cached_search iter

/-- `updateDependantLoads`, with the loads it visits. Every round of the loop
    moves to a younger entry, so the length of the queue bounds the rounds. -/
def updateDependantLoads (S : Surroundings) (c : CoreImpl) (u : Nat) : CoreImpl × List Visit :=
  match c.theMemQueue.find u with
  | none => (c, [])
  | some updated_store =>
    if updated_store.thePaddr = kUnresolved ∨ updated_store.thePaddr = kInvalid then (c, [])
    else
      scanDependants S updated_store c.theMemQueue.entries.length c none
        (c.theMemQueue.lowerBound updated_store.thePaddr_aligned (u + 1))

/-- `resnoopDependantLoads`: the store counts as annulled while its dependants
    search again. -/
def resnoopDependantLoads (S : Surroundings) (c : CoreImpl) (u : Nat) : CoreImpl :=
  match c.theMemQueue.find u with
  | none => c
  | some e =>
    if e.thePaddr ≠ kInvalid ∧ e.thePaddr ≠ kUnresolved then
      let annulled := c.update u (fun e => { e with theAnnulled := true })
        (fun _ => .of_eq rfl rfl rfl rfl)
      (updateDependantLoads S annulled u).1.update u
        (fun x => { x with theAnnulled := e.theAnnulled }) (fun _ => .of_eq rfl rfl rfl rfl)
    else c

theorem SameAccess.refl (e : MemQueueEntry) : SameAccess e e :=
  ⟨.refl e, rfl, rfl, rfl⟩

theorem SameAccess.trans {a b c : MemQueueEntry} (hab : SameAccess a b) (hbc : SameAccess b c) :
    SameAccess a c :=
  ⟨hab.toSameKey.trans hbc.toSameKey, hbc.op.trans hab.op, hbc.size.trans hab.size,
    hbc.annulled.trans hab.annulled⟩

theorem OnlyResults.sameAccess {e e' : MemQueueEntry} (h : OnlyResults e e') : SameAccess e e' := by
  rw [OnlyResults] at h
  rw [h]
  exact ⟨.of_eq rfl rfl rfl rfl, rfl, rfl, rfl⟩

theorem OnlyIssued.onlyResults {e e' : MemQueueEntry} (h : OnlyIssued e e') : OnlyResults e e' := by
  rw [OnlyIssued] at h
  rw [h]
  rfl

namespace Related

variable {R : MemQueueEntry → MemQueueEntry → Prop} {c c' : CoreImpl}

theorem refl (hrefl : ∀ e, R e e) (c : CoreImpl) : Related R c c :=
  ⟨List.forall₂_same.mpr fun e _ => hrefl e, rfl⟩

theorem trans (htrans : ∀ x y z, R x y → R y z → R x z) {a b d : CoreImpl} (hab : Related R a b)
    (hbd : Related R b d) : Related R a d := by
  refine ⟨?_, hbd.order.trans hab.order⟩
  obtain ⟨hlength, hget⟩ := List.forall₂_iff_get.mp hab.entries
  obtain ⟨hlength', hget'⟩ := List.forall₂_iff_get.mp hbd.entries
  refine List.forall₂_iff_get.mpr ⟨hlength.trans hlength', ?_⟩
  intro i hi hi'
  exact htrans _ _ _ (hget i hi (hlength ▸ hi)) (hget' i (hlength ▸ hi) hi')

theorem imp {R' : MemQueueEntry → MemQueueEntry → Prop} (himp : ∀ e e', R e e' → R' e e')
    (h : Related R c c') : Related R' c c' :=
  ⟨h.entries.imp himp, h.order⟩

theorem exists_of_mem (h : Related R c c') {e : MemQueueEntry} (he : e ∈ c.theMemQueue.entries) :
    ∃ e' ∈ c'.theMemQueue.entries, R e e' := by
  obtain ⟨hlength, hget⟩ := List.forall₂_iff_get.mp h.entries
  obtain ⟨i, hi, rfl⟩ := List.getElem_of_mem he
  exact ⟨_, List.get_mem _ ⟨i, by omega⟩, hget i hi (by omega)⟩

theorem exists_of_mem_right (h : Related R c c') {e' : MemQueueEntry}
    (he' : e' ∈ c'.theMemQueue.entries) : ∃ e ∈ c.theMemQueue.entries, R e e' := by
  obtain ⟨hlength, hget⟩ := List.forall₂_iff_get.mp h.entries
  obtain ⟨i, hi, rfl⟩ := List.getElem_of_mem he'
  exact ⟨_, List.get_mem _ ⟨i, by omega⟩, hget i (by omega) hi⟩

/-- Looking an entry up by its sequence number gives related entries. -/
theorem find_eq_some (h : Related R c c') (hseq : ∀ e e', R e e' → e'.theSequenceNum = e.theSequenceNum)
    {s : Nat} {e : MemQueueEntry} (hfind : c.theMemQueue.find s = some e) :
    ∃ e', c'.theMemQueue.find s = some e' ∧ R e e' := by
  obtain ⟨hmem, rfl⟩ := memq_t.find_eq_some.mp hfind
  obtain ⟨e', hmem', hrel⟩ := h.exists_of_mem hmem
  exact ⟨e', memq_t.find_eq_some.mpr ⟨hmem', hseq e e' hrel⟩, hrel⟩

theorem update (hrefl : ∀ e, R e e) {s : Nat} {f : MemQueueEntry → MemQueueEntry}
    {hf : ∀ e : MemQueueEntry, e.SameKey (f e)} (hstep : ∀ e, e.theSequenceNum = s → R e (f e))
    (c : CoreImpl) : Related R c (c.update s f hf) := by
  refine ⟨?_, rfl⟩
  change List.Forall₂ R _ (List.map _ _)
  rw [List.forall₂_map_right_iff, List.forall₂_same]
  intro e _
  split
  case isTrue hs => exact hstep e hs
  case isFalse => exact hrefl e

end Related

theorem onlyResults_setLoadValue (e : MemQueueEntry) (v : Option bits) :
    OnlyResults e (e.setLoadValue v) := by
  unfold MemQueueEntry.setLoadValue
  split <;> rfl

theorem onlyResults_forwardEntry (aStore aLoad : MemQueueEntry) :
    OnlyResults aLoad (forwardEntry aStore aLoad) := by
  unfold forwardEntry MemQueueEntry.setLoadValue
  repeat' split
  all_goals rfl

section DoLoad

/-! What a load may do to the queue is described by one relation `R` between
the entries before and after: it allows any change of the results of the load
itself, a port request anywhere, and whatever the surroundings do. -/

variable {R : MemQueueEntry → MemQueueEntry → Prop} {S : Surroundings} {s : Nat}
  (hrefl : ∀ e, R e e) (htrans : ∀ x y z, R x y → R y z → R x z)
  (hissued : ∀ e e', OnlyIssued e e' → R e e')
  (hunlink : ∀ e, e.theSequenceNum = s → R e { e with theMSHR := false })
  (hown : ∀ e e', e.theSequenceNum = s → OnlyResults e e' → R e e')
  (hsquash : ∀ c, Related R c (S.squash s c)) (hsatisfy : ∀ c, Related R c (S.satisfy s c))

include hrefl

include hissued in
theorem setIssued_related (c : CoreImpl) (b : Bool) : Related R c (c.setIssued s b) := by
  refine .update hrefl ?_ c
  intro e hs
  exact hissued e _ rfl

include hown in
theorem forwardValue_related (c : CoreImpl) (aStore : MemQueueEntry) {aLoad : MemQueueEntry}
    (hs : aLoad.theSequenceNum = s) : Related R c (forwardValue c aStore aLoad) := by
  have hupdate : Related R c (c.update aLoad.theSequenceNum (forwardEntry aStore)
      (forwardEntry_sameKey aStore)) := by
    refine .update hrefl ?_ c
    intro e he
    exact hown e _ (he.trans hs) (onlyResults_forwardEntry aStore e)
  unfold forwardValue
  repeat' split
  all_goals exact ⟨hupdate.entries, hupdate.order⟩

include htrans

include hown in
theorem snoopStores_related (c : CoreImpl) (cached : SnoopState) :
    Related R c (snoopStores c s cached).1 := by
  have hdrop : Related R c (c.update s (fun e => e.setLoadValue none) unloaded_sameKey) :=
    .update hrefl (fun e hs => hown e _ hs (onlyResults_setLoadValue e none)) c
  unfold snoopStores
  split
  case h_1 => exact .refl hrefl c
  case h_2 aLoad hfind =>
    have hseq : (aLoad.setLoadValue none).theSequenceNum = s := by
      rw [(setLoadValue_sameKey aLoad none).seq, (memq_t.find_eq_some.mp hfind).2]
    dsimp only
    unfold snoopQueue
    repeat' split
    all_goals first
      | exact .refl hrefl c
      | exact hdrop
      | exact hdrop.trans htrans (forwardValue_related hrefl hown _ _ hseq)

include hissued hunlink in
theorem leaveStatus_related (c : CoreImpl) {e : MemQueueEntry} (hs : e.theSequenceNum = s) :
    Related R c (leaveStatus S c e).1 := by
  subst hs
  have hclear := setIssued_related (s := e.theSequenceNum) hrefl hissued c false
  have hwake := fun c => (S.wakeBlocked_issued e.theSequenceNum c).imp hissued
  have hcut : ∀ c : CoreImpl, Related R c (c.update e.theSequenceNum
      (fun e => { e with theMSHR := false }) unlinked_sameKey) :=
    fun c => .update hrefl hunlink c
  unfold leaveStatus breakMSHRLink
  repeat' split
  all_goals first
    | exact .refl hrefl c
    | exact hclear
    | exact (hclear.trans htrans (hwake _)).trans htrans (hcut _)

include hissued hsquash hsatisfy in
theorem settleLoad_related (c : CoreImpl) (previous_value : Option bits) :
    Related R c (settleLoad S c s previous_value) := by
  unfold settleLoad
  split
  case h_1 => exact .refl hrefl c
  case h_2 e hfind =>
    have hmaybe : ∀ c, Related R c (if previous_value.isSome then S.squash s c else c) := by
      intro c
      split
      · exact hsquash c
      · exact .refl hrefl c
    have hclear := setIssued_related (s := s) hrefl hissued c false
    have hport : ∀ c, Related R c (requestPort c e) := by
      intro c
      unfold requestPort
      split
      · exact .refl hrefl c
      · exact setIssued_related hrefl hissued c true
    split
    case isTrue => exact .refl hrefl c
    case isFalse =>
      split
      case h_1 | h_2 =>
        split
        case isTrue => exact .refl hrefl c
        case isFalse =>
          dsimp only
          split
          · exact (hclear.trans htrans (hmaybe _)).trans htrans (hsatisfy _)
          · exact hclear.trans htrans (hmaybe _)
      case h_3 => exact (hmaybe c).trans htrans (hport _)
      case h_4 => exact hmaybe c
      case h_5 => exact .refl hrefl c

include hissued hown hsquash hsatisfy in
/-- Whatever relation allows the load's own results and the reactions around it
    holds between the queues before and after `doLoad`. -/
theorem doLoad_related (c : CoreImpl) (cached : SnoopState) :
    Related R c (doLoad S c s cached).1 := by
  have hclear := fun c => setIssued_related (s := s) hrefl hissued c false
  have hmaybe : ∀ (b : Bool) c, Related R c (if b then S.squash s c else c) := by
    intro b c
    split
    · exact hsquash c
    · exact .refl hrefl c
  have hdrop : ∀ c : CoreImpl, Related R c (c.dropValue s) := by
    intro c
    refine .update hrefl ?_ c
    intro x hx
    refine hown x _ hx ?_
    unfold MemQueueEntry.setLoadValue
    split <;> rfl
  unfold doLoad
  split
  case h_1 => exact .refl hrefl c
  case h_2 e hfind =>
    have hs : e.theSequenceNum = s := (memq_t.find_eq_some.mp hfind).2
    have hleft := leaveStatus_related (S := S) hrefl htrans hissued
      (fun x hx => hown x _ hx rfl) c hs
    split
    case isTrue => exact (hmaybe _ c).trans htrans (hdrop _)
    split
    case isTrue => exact hclear c
    split
    case isTrue => exact .refl hrefl c
    dsimp only
    split
    case isTrue => exact (hleft.trans htrans (hmaybe _ _)).trans htrans (hclear _)
    split
    case isTrue => exact hleft
    case isFalse =>
      exact (hleft.trans htrans (snoopStores_related hrefl htrans hown _ cached)).trans htrans
        (settleLoad_related hrefl htrans hissued hsquash hsatisfy _ _)

end DoLoad

/-- Visiting a load leaves every access what it was. -/
theorem doLoad_sameAccess (S : Surroundings) (c : CoreImpl) (s : Nat) (cached : SnoopState) :
    Related SameAccess c (doLoad S c s cached).1 :=
  doLoad_related SameAccess.refl @SameAccess.trans
    (fun _ _ h => h.onlyResults.sameAccess) (fun _ _ _ h => h.sameAccess)
    (fun c => (S.squash_reaction s c).imp fun _ _ h => h.toSameAccess)
    (fun c => (S.satisfy_reaction s c).imp fun _ _ h => h.toSameAccess) c cached

/-- What a visit of the load `s` leaves of an entry that is not younger: its own
    results may change, and of the older ones only the port request. -/
structure Frame (s : Nat) (e e' : MemQueueEntry) : Prop where
  seq : e'.theSequenceNum = e.theSequenceNum
  own : e.theSequenceNum = s → OnlyResults e e'
  older : e.theSequenceNum < s → OnlyIssued e e'

theorem Frame.refl (s : Nat) (e : MemQueueEntry) : Frame s e e :=
  ⟨rfl, fun _ => rfl, fun _ => rfl⟩

theorem Frame.trans (s : Nat) (x y z : MemQueueEntry) (hxy : Frame s x y) (hyz : Frame s y z) :
    Frame s x z := by
  refine ⟨hyz.seq.trans hxy.seq, fun heq => ?_, fun hlt => ?_⟩
  · have hy := hxy.own heq
    have hz := hyz.own (hxy.seq.trans heq)
    rw [OnlyResults] at *
    rw [hz, hy]
  · have hy := hxy.older hlt
    have hz := hyz.older (hxy.seq ▸ hlt)
    rw [OnlyIssued] at *
    rw [hz, hy]

theorem Frame.of_onlyResults {s : Nat} (e e' : MemQueueEntry) (hs : e.theSequenceNum = s)
    (h : OnlyResults e e') : Frame s e e' :=
  ⟨h.sameAccess.seq, fun _ => h, fun hlt => absurd hs hlt.ne⟩

theorem snoopStores_frame (c : CoreImpl) (s : Nat) (cached : SnoopState) :
    Related (Frame s) c (snoopStores c s cached).1 :=
  snoopStores_related (Frame.refl s) (Frame.trans s) Frame.of_onlyResults c cached

theorem doLoad_frame (S : Surroundings) (c : CoreImpl) (s : Nat) (cached : SnoopState) :
    Related (Frame s) c (doLoad S c s cached).1 := by
  refine doLoad_related (Frame.refl s) (Frame.trans s) ?_ Frame.of_onlyResults ?_ ?_ c cached
  · intro e e' h
    exact ⟨h.onlyResults.sameAccess.seq, fun _ => h.onlyResults, fun _ => h⟩
  · intro c
    exact (S.squash_reaction s c).imp fun e e' h =>
      ⟨h.seq, fun heq => (h.older heq.le).onlyResults, fun hlt => h.older hlt.le⟩
  · intro c
    exact (S.satisfy_reaction s c).imp fun e e' h =>
      ⟨h.seq, fun heq => (h.older heq.le).onlyResults, fun hlt => h.older hlt.le⟩

end nuArchARM
