import Flexus.MemQueue.ByteExact

/-!
# Executing memory instructions

What instructions ask of the memory unit when their address or value becomes known, changes or
is taken back, and what the instructions that depend on a load ask in turn.
-/

namespace nuArchARM

theorem unresolved_sameKey (e : MemQueueEntry) :
    e.SameKey { e with thePaddr := kUnresolved, thePaddr_aligned := kUnresolved } :=
  ⟨rfl, rfl, .inr ⟨rfl, rfl⟩⟩

namespace CoreImpl

/-- `updateVaddr`: the translation of the old address is forgotten. -/
def updateVaddr (c : CoreImpl) (s : Nat) : CoreImpl :=
  c.update s (fun e => { e with thePaddr := kUnresolved, thePaddr_aligned := kUnresolved })
    unresolved_sameKey

def updatePaddr (c : CoreImpl) (s : Nat) (anAddr : PhysicalMemoryAddress) : CoreImpl :=
  { c with theMemQueue := c.theMemQueue.updatePaddr s anAddr }

/-- The entry is still in the load-store queue: its instruction has not retired. -/
def inLSQ (c : CoreImpl) (s : Nat) : Bool :=
  (c.theMemQueue.find s).any (·.theQueue == .kLSQ)

end CoreImpl

/-- The value a load found is taken back. -/
def MemQueueEntry.takeBack (e : MemQueueEntry) (S : Surroundings) (c : CoreImpl) : CoreImpl :=
  let s := e.theSequenceNum
  if e.isLoad && e.loadValue.isSome then
    (S.squash s c).update s (fun e => e.setLoadValue none) unloaded_sameKey
  else c

def MemQueueEntry.abandonRequest (e : MemQueueEntry) (S : Surroundings) (c : CoreImpl) : CoreImpl :=
  if e.theMSHR then breakMSHRLink S c e else c

/-- The loads behind a store with a value search again without it. -/
def MemQueueEntry.releaseLoads (e : MemQueueEntry) (S : Surroundings) (c : CoreImpl) : CoreImpl :=
  if e.isStore && e.theValue.isSome then resnoopDependantLoads S c e.theSequenceNum else c

/-- The part of `resolveVAddr` for `kUnresolved`. -/
def withdraw (S : Surroundings) (c : CoreImpl) (e : MemQueueEntry) : CoreImpl :=
  (e.abandonRequest S (e.takeBack S c)).setIssued e.theSequenceNum false

/-- `resolveVAddr` for an address other than the one the entry has. The address is `kUnresolved`
    unless it is `known`, and decides nothing else here. -/
def resolveVAddr (S : Surroundings) (c : CoreImpl) (s : Nat) (known : Bool) : CoreImpl :=
  match c.theMemQueue.find s with
  | none => c
  | some e =>
    let c := e.releaseLoads S c
    let c := if known then c else withdraw S c e
    c.updateVaddr s

/-- `doStore`: the loads behind the store search again. -/
def doStore (S : Surroundings) (c : CoreImpl) (s : Nat) : CoreImpl :=
  (updateDependantLoads S c s).1

/-- The switch of `resolvePAddr` over the status at the new address. -/
def executeAt (S : Surroundings) (c : CoreImpl) (e : MemQueueEntry) : CoreImpl :=
  let s := e.theSequenceNum
  match e.status with
  | .kComplete | .kAwaitingIssue | .kAwaitingPort | .kIssuedToMemory =>
    let c := if e.isLoad then (doLoad S c s none).1 else c
    if e.isStore then doStore S c s else c
  | .kAwaitingValue => if e.isAtomic && e.isLoad then (doLoad S c s none).1 else c
  | .kAnnulled | .kAwaitingAddress => c

def resolvePAddr (S : Surroundings) (c : CoreImpl) (s : Nat) (anAddr : PhysicalMemoryAddress) :
    CoreImpl :=
  match c.theMemQueue.find s with
  | none => c
  | some e =>
    if e.thePaddr = anAddr then c
    else
      let c := c.updatePaddr s anAddr
      if anAddr = kUnresolved then c else executeAt S c (e.setPaddr anAddr)

/-- A store gets its value, and its dependants search again when that is another one. -/
def CoreImpl.storeValue (S : Surroundings) (c : CoreImpl) (e : MemQueueEntry)
    (f : MemQueueEntry → MemQueueEntry) (hf : ∀ e : MemQueueEntry, e.SameKey (f e)) : CoreImpl :=
  let c := c.update e.theSequenceNum f hf
  if e.theValue = (f e).theValue then c else doStore S c e.theSequenceNum

def updateStoreValue (S : Surroundings) (c : CoreImpl) (s : Nat) (aValue : bits)
    (anExtendedValue : Option bits) : CoreImpl :=
  match c.theMemQueue.find s with
  | none => c
  | some e =>
    c.storeValue S e (fun e => { e with
      theAnnulled := false
      theValue := some aValue
      theExtendedValue := anExtendedValue.or e.theExtendedValue }) (fun _ => .of_eq rfl rfl rfl rfl)

/-- The value a compare-and-swap writes: what it read when the comparison fails. Before the
    load half is done the comparison is taken to succeed. -/
def swapped (e : MemQueueEntry) (aValue aCompareValue : bits) : bits :=
  match e.theExtendedValue with
  | some read => if read = aCompareValue then aValue else read
  | none => aValue

def updateCASValue (S : Surroundings) (c : CoreImpl) (s : Nat) (aValue aCompareValue : bits) :
    CoreImpl :=
  match c.theMemQueue.find s with
  | none => c
  | some e =>
    c.storeValue S e (fun e => { e with
      theAnnulled := false
      theCompareValue := some aCompareValue
      theValue := some (swapped e aValue aCompareValue) }) (fun _ => .of_eq rfl rfl rfl rfl)

def annulStoreValue (S : Surroundings) (c : CoreImpl) (s : Nat) : CoreImpl :=
  match c.theMemQueue.find s with
  | none => c
  | some e =>
    if e.theAnnulled then c
    else
      resnoopDependantLoads S (c.update s (fun e => { e with theAnnulled := true, theIssued := false })
        (fun _ => .of_eq rfl rfl rfl rfl)) s

/-! ## Dependants -/

/-- How the instructions around the memory queue answer: which take their address back when a
    load's value is withdrawn, which compute another one when it is given, and which operations
    blocked on a miss register still wait for a port when it is released. -/
structure Dependants where
  squashed : Nat → CoreImpl → List Nat
  satisfied : Nat → CoreImpl → List Nat
  woken : Nat → CoreImpl → List Nat

/-- Nothing depends on anything. -/
def Dependants.none : Dependants where
  squashed _ _ := []
  satisfied _ _ := []
  woken _ _ := []

/-- An instruction that depends on the load `s` gets another address, or none. It is younger
    than the load, and once it has retired its address is final. -/
def readdress (S : Surroundings) (known : Bool) (s : Nat) (c : CoreImpl) (s' : Nat) : CoreImpl :=
  if s < s' ∧ c.inLSQ s' = true then resolveVAddr S c s' known else c

/-- `requestPort` of a blocked operation. -/
def requestAgain (c : CoreImpl) (s : Nat) : CoreImpl :=
  match c.theMemQueue.find s with
  | none => c
  | some e => requestPort c e

theorem Related.and {R R' : MemQueueEntry → MemQueueEntry → Prop} {c c' : CoreImpl}
    (h : Related R c c') (h' : Related R' c c') : Related (fun e e' => R e e' ∧ R' e e') c c' := by
  refine ⟨?_, h.order⟩
  obtain ⟨hlength, hget⟩ := List.forall₂_iff_get.mp h.entries
  obtain ⟨-, hget'⟩ := List.forall₂_iff_get.mp h'.entries
  exact List.forall₂_iff_get.mpr ⟨hlength, fun i hi hi' => ⟨hget i hi hi', hget' i hi hi'⟩⟩

/-- Related entries may be taken from the two queues. -/
theorem Related.imp_mem {R R' : MemQueueEntry → MemQueueEntry → Prop} {c c' : CoreImpl}
    (himp : ∀ e ∈ c.theMemQueue.entries, ∀ e' ∈ c'.theMemQueue.entries, R e e' → R' e e')
    (h : Related R c c') : Related R' c c' := by
  refine ⟨?_, h.order⟩
  obtain ⟨hlength, hget⟩ := List.forall₂_iff_get.mp h.entries
  refine List.forall₂_iff_get.mpr ⟨hlength, fun i hi hi' => ?_⟩
  exact himp _ (List.get_mem _ ⟨i, hi⟩) _ (List.get_mem _ ⟨i, hi'⟩) (hget i hi hi')

theorem Related.foldl {R : MemQueueEntry → MemQueueEntry → Prop} {f : CoreImpl → Nat → CoreImpl}
    (hrefl : ∀ e, R e e) (htrans : ∀ x y z, R x y → R y z → R x z)
    (hstep : ∀ c s, Related R c (f c s)) (ss : List Nat) (c : CoreImpl) :
    Related R c (ss.foldl f c) := by
  induction ss generalizing c with
  | nil => exact .refl hrefl c
  | cons s ss ih => exact (hstep c s).trans htrans (ih (f c s))

/-- The same access, except that the entry `u` may be annulled or not. -/
structure Away (u : Nat) (e e' : MemQueueEntry) : Prop extends MemQueueEntry.SameKey e e' where
  op : e'.theOperation = e.theOperation
  size : e'.theSize = e.theSize
  annulled : e.theSequenceNum ≠ u → e'.theAnnulled = e.theAnnulled

theorem SameAccess.away {e e' : MemQueueEntry} (h : SameAccess e e') (u : Nat) : Away u e e' :=
  ⟨h.toSameKey, h.op, h.size, fun _ => h.annulled⟩

theorem Away.trans (u : Nat) (x y z : MemQueueEntry) (hxy : Away u x y) (hyz : Away u y z) :
    Away u x z :=
  ⟨hxy.toSameKey.trans hyz.toSameKey, hyz.op.trans hxy.op, hyz.size.trans hxy.size,
    fun hne => (hyz.annulled (hxy.seq ▸ hne)).trans (hxy.annulled hne)⟩

theorem annul_away (u : Nat) (b : Bool) (c : CoreImpl) :
    Related (Away u) c (c.update u (fun e => { e with theAnnulled := b })
      (fun _ => .of_eq rfl rfl rfl rfl)) := by
  refine .update (f := fun e => { e with theAnnulled := b }) (fun x => (SameAccess.refl x).away u) ?_ c
  intro x hx
  exact ⟨.of_eq rfl rfl rfl rfl, rfl, rfl, fun hne => absurd hx hne⟩

theorem updateDependantLoads_sameAccess (S : Surroundings) (c : CoreImpl) (u : Nat) :
    Related SameAccess c (updateDependantLoads S c u).1 := by
  unfold updateDependantLoads
  split
  case h_1 => exact .refl SameAccess.refl c
  case h_2 =>
    split
    case isTrue => exact .refl SameAccess.refl c
    case isFalse => exact scanDependants_sameAccess _ c none _

/-- The store counts as annulled only while its dependants search. -/
theorem resnoopDependantLoads_sameAccess (S : Surroundings) (c : CoreImpl) (u : Nat) :
    Related SameAccess c (resnoopDependantLoads S c u) := by
  unfold resnoopDependantLoads
  split
  case h_1 => exact .refl SameAccess.refl c
  case h_2 e hfind =>
    split
    case isFalse => exact .refl SameAccess.refl c
    case isTrue =>
      obtain ⟨he, hseq⟩ := memq_t.find_eq_some.mp hfind
      have hscan := (updateDependantLoads_sameAccess S (c.update u
        (fun e => { e with theAnnulled := true }) (fun _ => .of_eq rfl rfl rfl rfl)) u).imp
          fun _ _ h => h.away u
      refine (((annul_away u true c).trans (Away.trans u) hscan).trans (Away.trans u)
        (annul_away u e.theAnnulled _)).imp_mem ?_
      intro x hx x' hx' h
      refine ⟨h.toSameKey, h.op, h.size, ?_⟩
      by_cases hxu : x.theSequenceNum = u
      · -- Only the store itself was annulled, and what it was before is put back.
        obtain rfl := memq_t.eq_of_seq hx he (hxu.trans hseq.symm)
        obtain ⟨y, -, rfl⟩ := List.mem_map.mp hx'
        have hyu := h.seq.trans hxu
        split
        case isTrue => rfl
        case isFalse hne =>
          rw [if_neg hne] at hyu
          exact absurd hyu hne
      · exact h.annulled hxu

theorem NotYounger.mono {s s' : Nat} (hle : s ≤ s') {e e' : MemQueueEntry} (h : NotYounger s' e e') :
    NotYounger s e e' :=
  ⟨h.1, fun hs => h.2 (hs.trans hle)⟩

/-- A change of an entry younger than `s`. -/
theorem update_notYounger {s s' : Nat} (hlt : s < s') (f : MemQueueEntry → MemQueueEntry)
    (hf : ∀ e : MemQueueEntry, e.SameKey (f e)) (c : CoreImpl) :
    Related (NotYounger s) c (c.update s' f hf) := by
  refine .update (NotYounger.refl s) ?_ c
  intro e he
  exact ⟨(hf e).seq, fun hle => absurd he (by omega)⟩

theorem Reaction.refl (s : Nat) (e : MemQueueEntry) : Reaction s e e :=
  ⟨.refl e, fun _ => rfl⟩

theorem Reaction.trans (s : Nat) (x y z : MemQueueEntry) (hxy : Reaction s x y) (hyz : Reaction s y z) :
    Reaction s x z :=
  ⟨hxy.toSameAccess.trans hyz.toSameAccess,
    (NotYounger.trans s x y z ⟨hxy.seq, hxy.older⟩ ⟨hyz.seq, hyz.older⟩).2⟩

theorem Reaction.mono {s s' : Nat} (hle : s ≤ s') {e e' : MemQueueEntry} (h : Reaction s' e e') :
    Reaction s e e' :=
  ⟨h.toSameAccess, fun hs => h.older (hs.trans hle)⟩

theorem setIssued_onlyIssued (s : Nat) (b : Bool) (c : CoreImpl) :
    Related OnlyIssued c (c.setIssued s b) :=
  setIssued_related (R := OnlyIssued) (fun _ => rfl) (fun _ _ h => h) c b

theorem OnlyIssued.reaction (s : Nat) {e e' : MemQueueEntry} (h : OnlyIssued e e') : Reaction s e e' :=
  ⟨h.onlyResults.sameAccess, fun _ => h⟩

section Reactions

variable {S : Surroundings} {s u : Nat} (hlt : s < u)

include hlt

/-- An entry younger than `s` keeps its access. -/
theorem update_reaction (f : MemQueueEntry → MemQueueEntry) (hf : ∀ e : MemQueueEntry, e.SameKey (f e))
    (hsame : ∀ e, SameAccess e (f e)) (c : CoreImpl) : Related (Reaction s) c (c.update u f hf) := by
  refine .update (Reaction.refl s) ?_ c
  intro e he
  exact ⟨hsame e, fun hle => absurd he (by omega)⟩

theorem resnoopDependantLoads_reaction (c : CoreImpl) :
    Related (Reaction s) c (resnoopDependantLoads S c u) := by
  suffices hyounger : Related (NotYounger s) c (resnoopDependantLoads S c u) from
    ((resnoopDependantLoads_sameAccess S c u).and hyounger).imp fun _ _ h => ⟨h.1, h.2.2⟩
  unfold resnoopDependantLoads
  split
  case h_1 => exact .refl (NotYounger.refl s) c
  case h_2 =>
    split
    case isFalse => exact .refl (NotYounger.refl s) c
    case isTrue =>
      have hscan := fun d => (updateDependantLoads_notYounger S d u).imp
        fun _ _ h => h.mono hlt.le
      exact ((update_notYounger hlt _ _ c).trans (NotYounger.trans s) (hscan _)).trans
        (NotYounger.trans s) (update_notYounger hlt _ _ _)

theorem breakMSHRLink_reaction (c : CoreImpl) {e : MemQueueEntry} (he : e.theSequenceNum = u) :
    Related (Reaction s) c (breakMSHRLink S c e) := by
  subst he
  have hclear := (setIssued_onlyIssued e.theSequenceNum false c).imp fun _ _ h => h.reaction s
  unfold breakMSHRLink
  dsimp only
  split
  case isFalse => exact hclear
  case isTrue =>
    have hwake := (S.wakeBlocked_issued e.theSequenceNum (c.setIssued e.theSequenceNum false)).imp
      fun _ _ h => OnlyIssued.reaction s h
    refine (hclear.trans (Reaction.trans s) hwake).trans (Reaction.trans s) ?_
    exact update_reaction hlt _ _ (fun x => ⟨unlinked_sameKey x, rfl, rfl, rfl⟩) _

theorem withdraw_reaction (c : CoreImpl) {e : MemQueueEntry} (he : e.theSequenceNum = u) :
    Related (Reaction s) c (withdraw S c e) := by
  subst he
  have hclear := fun d => (setIssued_onlyIssued e.theSequenceNum false d).imp
    fun _ _ h => OnlyIssued.reaction s h
  have hlink : ∀ d : CoreImpl, Related (Reaction s) d (e.abandonRequest S d) := by
    intro d
    unfold MemQueueEntry.abandonRequest
    split
    · exact breakMSHRLink_reaction hlt d rfl
    · exact .refl (Reaction.refl s) d
  have hvalue : Related (Reaction s) c (e.takeBack S c) := by
    unfold MemQueueEntry.takeBack
    split
    · refine ((S.squash_reaction _ c).imp fun _ _ h => h.mono hlt.le).trans (Reaction.trans s) ?_
      exact update_reaction hlt _ _ (fun x => (onlyResults_setLoadValue x none).sameAccess) _
    · exact .refl (Reaction.refl s) c
  exact (hvalue.trans (Reaction.trans s) (hlink _)).trans (Reaction.trans s) (hclear _)

/-- Giving an entry another address is a reaction to every older load. -/
theorem resolveVAddr_reaction (c : CoreImpl) (known : Bool) :
    Related (Reaction s) c (resolveVAddr S c u known) := by
  unfold resolveVAddr
  split
  case h_1 => exact .refl (Reaction.refl s) c
  case h_2 e hfind =>
    obtain rfl := (memq_t.find_eq_some.mp hfind).2
    have hrelease : Related (Reaction s) c (e.releaseLoads S c) := by
      unfold MemQueueEntry.releaseLoads
      split
      · exact resnoopDependantLoads_reaction hlt c
      · exact .refl (Reaction.refl s) c
    have hback : ∀ d : CoreImpl, Related (Reaction s) d (if known then d else withdraw S d e) := by
      intro d
      split
      · exact .refl (Reaction.refl s) d
      · exact withdraw_reaction hlt d rfl
    refine (hrelease.trans (Reaction.trans s) (hback _)).trans (Reaction.trans s) ?_
    exact update_reaction hlt _ _ (fun x => ⟨unresolved_sameKey x, rfl, rfl, rfl⟩) _

end Reactions

theorem readdress_reaction (S : Surroundings) (known : Bool) (s : Nat) (c : CoreImpl) (s' : Nat) :
    Related (Reaction s) c (readdress S known s c s') := by
  unfold readdress
  split
  case isTrue h => exact resolveVAddr_reaction h.1 c known
  case isFalse => exact .refl (Reaction.refl s) c

theorem requestAgain_onlyIssued (c : CoreImpl) (s : Nat) : Related OnlyIssued c (requestAgain c s) := by
  unfold requestAgain requestPort
  repeat' split
  all_goals first
    | exact .refl (R := OnlyIssued) (fun _ => rfl) c
    | exact setIssued_onlyIssued _ true c

theorem OnlyIssued.trans (x y z : MemQueueEntry) (hxy : OnlyIssued x y) (hyz : OnlyIssued y z) :
    OnlyIssued x z := by
  rw [OnlyIssued] at *
  rw [hyz, hxy]

/-- The dependants as surroundings of the memory unit. Their own calls are answered again, to
    the given depth. -/
def Dependants.surroundings (D : Dependants) : Nat → Surroundings
  | 0 => .still
  | depth + 1 =>
    let S := D.surroundings depth
    { squash := fun s c => (D.squashed s c).foldl (readdress S false s) c
      satisfy := fun s c => (D.satisfied s c).foldl (readdress S true s) c
      wakeBlocked := fun s c => (D.woken s c).foldl requestAgain c
      squash_reaction := fun s c =>
        .foldl (Reaction.refl s) (Reaction.trans s) (readdress_reaction S false s) _ c
      satisfy_reaction := fun s c =>
        .foldl (Reaction.refl s) (Reaction.trans s) (readdress_reaction S true s) _ c
      wakeBlocked_issued := fun _ c =>
        .foldl (R := OnlyIssued) (fun _ => rfl) OnlyIssued.trans requestAgain_onlyIssued _ c }

end nuArchARM
