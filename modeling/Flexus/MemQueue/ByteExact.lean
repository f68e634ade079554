import Flexus.MemQueue.CachedSnoop

open Lanes

namespace nuArchARM

/-- The replies of the memory system that carry a load value. -/
inductive LoadReply where
  | kLoadReply (theValue theExtendedValue : bits)
  | kAtomicPreloadReply (theValue : bits)

def LoadReply.theValue : LoadReply → bits
  | .kLoadReply v _ => v
  | .kAtomicPreloadReply v => v

/-- The load gets its final value and is no partial snoop any more. -/
def CoreImpl.settlePartial (c : CoreImpl) (s : Nat) (v : Option bits) : CoreImpl :=
  c.update s (fun e => { e.setLoadValue v with thePartialSnoop := false })
    (fun e => (setLoadValue_sameKey e v).trans (.of_eq rfl rfl rfl rfl))

/-- The partial snoop part of `completeLSQ`: the older stores are applied to the
    value that came from memory. -/
def finishPartialSnoop (c : CoreImpl) (s : Nat) : CoreImpl :=
  match c.theMemQueue.find s with
  | none => c
  | some aLoad =>
    if aLoad.thePartialSnoop then
      let c := c.settlePartial s (aLoad.loadValue.map (applyAllStores c.theMemQueue aLoad))
      { c with thePartialSnoopersOutstanding := c.thePartialSnoopersOutstanding - 1 }
    else c

theorem valued_sameKey (v : bits) (e : MemQueueEntry) : e.SameKey { e with theValue := some v } :=
  .of_eq rfl rfl rfl rfl

theorem extended_sameKey (v : bits) (e : MemQueueEntry) :
    e.SameKey { e with theExtendedValue := some v } :=
  .of_eq rfl rfl rfl rfl

/-- The branches of `completeLSQ` for a load and for the load half of an atomic
    whose value was not predicted. A compare-and-swap that fails forwards the
    value it read to the loads behind it. -/
def storeReply (S : Surroundings) (c : CoreImpl) (lsq_entry : MemQueueEntry) : LoadReply → CoreImpl
  | .kLoadReply v x =>
    c.update lsq_entry.theSequenceNum
      (fun e => { e with theValue := some v, theExtendedValue := some x })
      (fun _ => .of_eq rfl rfl rfl rfl)
  | .kAtomicPreloadReply v =>
    let s := lsq_entry.theSequenceNum
    let changed := lsq_entry.theExtendedValue.isSome && lsq_entry.theExtendedValue != some v
    let c := if changed && lsq_entry.theDependance then S.squash s c else c
    let c := c.update s (fun e => { e with theExtendedValue := some v }) (extended_sameKey v)
    if lsq_entry.theOperation = .kCAS && lsq_entry.theCompareValue.isSome &&
        lsq_entry.theCompareValue != some v then
      (updateDependantLoads S (c.update s (fun e => { e with theValue := some v })
        (valued_sameKey v)) s).1
    else c

def completeLSQ (S : Surroundings) (c : CoreImpl) (s : Nat) (anOperation : LoadReply) : CoreImpl :=
  match c.theMemQueue.find s with
  | none => c
  | some lsq_entry =>
    let c := finishPartialSnoop (storeReply S c lsq_entry anOperation) s
    let c := c.update s (fun e => { e with theMSHR := false }) unlinked_sameKey
    if lsq_entry.theDependance then S.satisfy s c else c

/-- The value a load ends with: what it snoops, or what `completeLSQ` makes of
    the reply from memory. -/
def loadedValue (S : Surroundings) (c : CoreImpl) (s : Nat) (anOperation : LoadReply) :
    Option bits :=
  let snooped := (snoopStores c s none).1
  match (snooped.theMemQueue.find s).bind (·.loadValue) with
  | some v => some v
  | none => ((completeLSQ S snooped s anOperation).theMemQueue.find s).bind (·.loadValue)

/-- The youngest older store of the load's bucket, not annulled, that writes this byte. -/
def youngestWriter (q : memq_t) (L : MemQueueEntry) (a : PhysicalMemoryAddress) :
    Option MemQueueEntry :=
  q.youngestOlder L.thePaddr_aligned L.theSequenceNum fun e => e.isLiveStore && decide (e.touches a)

/-- The byte a load has to read at its offset `k`: from the youngest store that
    writes the address, or from memory. -/
def expectedByte (q : memq_t) (L : MemQueueEntry) (memory : bits) (k : Nat) : BitVec 8 :=
  let a := L.thePaddr + BitVec.ofNat 64 k
  (youngestWriter q L a).elim (lane memory k) fun W =>
    lane (W.theValue.getD 0) (a - W.thePaddr).toNat

/-- Applying the stores gives each byte of the load to the youngest store, with a
    value and not annulled, that has it in its lanes. -/
theorem lane_applyStores {stores : List MemQueueEntry} {L : MemQueueEntry} (hL : L.InWindow)
    (hstores : ∀ e ∈ stores, e.InWindow) (v : bits) {k : Nat} (hk : k < L.theSize.bytes) :
    lane (applyStores stores L v) k =
      (stores.reverse.find? (fun e => e.theValue.isSome && (e.isLiveStore && intersects e L) &&
        decide (e.lead ≤ L.lead + k ∧ L.lead + k < e.lead + e.theSize.bytes))).elim (lane v k)
          fun e => lane (e.theValue.getD 0) (L.lead + k - e.lead) := by
  rw [← foldl_overwrite, applyStores]
  induction stores generalizing v with
  | nil => rfl
  | cons e rest ih =>
    rw [List.foldl_cons, List.foldl_cons, ih (fun x hx => hstores x (List.mem_cons_of_mem e hx))]
    congr 1
    have he := hstores e List.mem_cons_self
    cases hvalue : e.theValue with
    | none => simp
    | some sv =>
      cases e.isLiveStore && intersects e L with
      | false => simp
      | true =>
        simp only [if_true, lane_overlay_entry he hL sv v hk, Option.isSome_some,
          Bool.true_and, decide_eq_true_eq, Option.getD_some]

theorem SameStore.trans {a b c : MemQueueEntry} (hab : SameStore a b) (hbc : SameStore b c) :
    SameStore a c :=
  ⟨⟨hbc.size.trans hab.size, hbc.paddr.trans hab.paddr, hbc.aligned.trans hab.aligned⟩,
    hbc.seq.trans hab.seq, hbc.live.trans hab.live, hbc.value.trans hab.value⟩

/-- Of an entry that is not younger than `s` at most the port request has changed. -/
def NotYounger (s : Nat) (e e' : MemQueueEntry) : Prop :=
  e'.theSequenceNum = e.theSequenceNum ∧ (e.theSequenceNum ≤ s → OnlyIssued e e')

theorem NotYounger.refl (s : Nat) (e : MemQueueEntry) : NotYounger s e e :=
  ⟨rfl, fun _ => rfl⟩

theorem NotYounger.trans (s : Nat) (x y z : MemQueueEntry) (hxy : NotYounger s x y)
    (hyz : NotYounger s y z) : NotYounger s x z := by
  refine ⟨hyz.1.trans hxy.1, fun hle => ?_⟩
  have hy := hxy.2 hle
  have hz := hyz.2 (hxy.1 ▸ hle)
  rw [OnlyIssued] at *
  rw [hz, hy]

theorem squash_notYounger (S : Surroundings) (s : Nat) (c : CoreImpl) :
    Related (NotYounger s) c (S.squash s c) :=
  (S.squash_reaction s c).imp fun _ _ h => ⟨h.seq, h.older⟩

theorem satisfy_notYounger (S : Surroundings) (s : Nat) (c : CoreImpl) :
    Related (NotYounger s) c (S.satisfy s c) :=
  (S.satisfy_reaction s c).imp fun _ _ h => ⟨h.seq, h.older⟩

/-- Entries that are not younger than the updated store only ever request a port. -/
theorem updateDependantLoads_notYounger (S : Surroundings) (c : CoreImpl) (u : Nat) :
    Related (NotYounger u) c (updateDependantLoads S c u).1 := by
  unfold updateDependantLoads
  split
  case h_1 => exact .refl (NotYounger.refl u) c
  case h_2 U hfind =>
    split
    case isTrue => exact .refl (NotYounger.refl u) c
    case isFalse =>
      refine scanDependants_related (n := u + 1) (NotYounger.refl u) (NotYounger.trans u) ?_ _ c
        none ?_
      · intro c s cached hs
        refine (doLoad_frame S c s cached).imp ?_
        intro e e' h
        exact ⟨h.seq, fun hle => h.older (by omega)⟩
      · intro entry hentry
        exact (lowerBound_eq_some hentry).2.2.1

/-- The load `s` in a later state: it touches the same bytes, and the stores
    older than it are the same. -/
structure Waiting (s : Nat) (c : CoreImpl) (L : MemQueueEntry) (c' : CoreImpl) (L' : MemQueueEntry) :
    Prop where
  find : c'.theMemQueue.find s = some L'
  bytes : SameBytes L L'
  seq : L'.theSequenceNum = L.theSequenceNum
  atomic : L'.isAtomic = L.isAtomic
  stores : Related (fun e e' => e'.theSequenceNum = e.theSequenceNum ∧
    (e.theSequenceNum < s → SameStore e e')) c c'

namespace Waiting

variable {s : Nat} {c c' : CoreImpl} {L L' : MemQueueEntry}

theorem refl (hfind : c.theMemQueue.find s = some L) : Waiting s c L c L :=
  ⟨hfind, ⟨rfl, rfl, rfl⟩, rfl, rfl, .refl (fun e => ⟨rfl, fun _ => .refl e⟩) c⟩

theorem trans {c'' : CoreImpl} {L'' : MemQueueEntry} (h : Waiting s c L c' L')
    (h' : Waiting s c' L' c'' L'') : Waiting s c L c'' L'' := by
  refine ⟨h'.find, ⟨h'.bytes.size.trans h.bytes.size, h'.bytes.paddr.trans h.bytes.paddr,
    h'.bytes.aligned.trans h.bytes.aligned⟩, h'.seq.trans h.seq, h'.atomic.trans h.atomic,
    h.stores.trans ?_ h'.stores⟩
  rintro x y z ⟨hseq, hxy⟩ ⟨hseq', hyz⟩
  exact ⟨hseq'.trans hseq, fun hlt => (hxy hlt).trans (hyz (hseq ▸ hlt))⟩

/-- Only results of the load and port requests of older entries have changed. -/
theorem of_frame (hfind : c.theMemQueue.find s = some L) (h : Related (Frame s) c c') :
    ∃ L', Waiting s c L c' L' := by
  obtain ⟨L', hfind', hLL⟩ := h.find_eq_some (fun _ _ h => h.seq) hfind
  have hresults := hLL.own (memq_t.find_eq_some.mp hfind).2
  refine ⟨L', hfind', hresults.sameBytes, hLL.seq, ?_, ?_⟩
  · rw [MemQueueEntry.isAtomic, MemQueueEntry.isAtomic, hresults.sameAccess.op]
  · exact h.imp fun e e' hee => ⟨hee.seq, fun hlt => (hee.older hlt).sameStore⟩

/-- The results of the load are changed. -/
theorem update (hfind : c.theMemQueue.find s = some L) (f : MemQueueEntry → MemQueueEntry)
    (hf : ∀ e : MemQueueEntry, e.SameKey (f e)) (hresults : OnlyResults L (f L)) :
    Waiting s c L (c.update s f hf) (f L) := by
  refine ⟨by rw [find_update_self, hfind, Option.map_some], hresults.sameBytes,
    hresults.sameAccess.seq, ?_, ?_⟩
  · rw [MemQueueEntry.isAtomic, MemQueueEntry.isAtomic, hresults.sameAccess.op]
  · refine .update (fun e => ⟨rfl, fun _ => .refl e⟩) ?_ c
    intro e he
    exact ⟨(hf e).seq, fun hlt => absurd he hlt.ne⟩

/-- Whatever happens to younger entries. -/
theorem notYounger (hfind : c.theMemQueue.find s = some L) (h : Related (NotYounger s) c c') :
    ∃ L', Waiting s c L c' L' ∧ L'.thePartialSnoop = L.thePartialSnoop ∧
      L'.loadValue = L.loadValue := by
  obtain ⟨L', hwait⟩ := of_frame hfind (h.imp fun e e' hee =>
    ⟨hee.1, fun heq => (hee.2 heq.le).onlyResults, fun hlt => hee.2 hlt.le⟩)
  obtain ⟨L'', hfind'', hseq, hissued⟩ := h.find_eq_some (fun _ _ h => h.1) hfind
  rw [hwait.find] at hfind''
  cases hfind''
  have hL := hissued (memq_t.find_eq_some.mp hfind).2.le
  rw [OnlyIssued] at hL
  refine ⟨L', hwait, ?_, ?_⟩
  · rw [hL]
  · rw [hL]
    rfl

end Waiting

/-- The reply fits the kind of the load it answers. -/
def LoadReply.Answers (r : LoadReply) (L : MemQueueEntry) : Prop :=
  match r with
  | .kLoadReply _ _ => L.isAtomic = false
  | .kAtomicPreloadReply _ => L.isAtomic = true

/-- Storing a reply puts its value in the load and leaves the older stores alone. -/
theorem storeReply_spec (S : Surroundings) {c : CoreImpl} {s : Nat} {L : MemQueueEntry}
    (hfind : c.theMemQueue.find s = some L) {r : LoadReply} (hr : r.Answers L) :
    ∃ L', Waiting s c L (storeReply S c L r) L' ∧ L'.thePartialSnoop = L.thePartialSnoop ∧
      L'.loadValue = some r.theValue := by
  have hs : L.theSequenceNum = s := (memq_t.find_eq_some.mp hfind).2
  cases r with
  | kLoadReply v x =>
    have hplain : L.isAtomic = false := hr
    rw [storeReply, hs]
    refine ⟨{ L with theValue := some v, theExtendedValue := some x }, .update hfind _ _ rfl, rfl, ?_⟩
    rw [MemQueueEntry.loadValue, if_neg]
    · rfl
    · simpa [MemQueueEntry.isAtomic] using hplain
  | kAtomicPreloadReply v =>
    have hatomic : L.isAtomic = true := hr
    rw [storeReply, hs]
    -- The dependants of an old value are squashed first.
    obtain ⟨L₁, hL₁, hflag, -⟩ : ∃ L₁, Waiting s c L
        (if (L.theExtendedValue.isSome && L.theExtendedValue != some v && L.theDependance) = true
          then S.squash s c else c) L₁ ∧ L₁.thePartialSnoop = L.thePartialSnoop ∧
          L₁.loadValue = L.loadValue := by
      split
      · exact Waiting.notYounger hfind (squash_notYounger S s c)
      · exact ⟨L, .refl hfind, rfl, rfl⟩
    generalize (if (L.theExtendedValue.isSome && L.theExtendedValue != some v && L.theDependance) = true
      then S.squash s c else c) = c₁ at hL₁ ⊢
    have hvalue : ∀ e : MemQueueEntry, e.isAtomic = true →
        ({ e with theExtendedValue := some v } : MemQueueEntry).loadValue = some v := by
      intro e he
      rw [MemQueueEntry.loadValue, if_pos]
      simpa [MemQueueEntry.isAtomic] using he
    have hL₂ : Waiting s c₁ L₁ (c₁.update s (fun e => { e with theExtendedValue := some v })
        (fun _ => .of_eq rfl rfl rfl rfl)) { L₁ with theExtendedValue := some v } :=
      .update hL₁.find _ _ rfl
    split
    case isFalse =>
      exact ⟨_, hL₁.trans hL₂, hflag, hvalue L₁ (hL₁.atomic.trans hatomic)⟩
    case isTrue =>
      have hL₃ := Waiting.update hL₂.find (fun e => { e with theValue := some v })
        (fun _ => .of_eq rfl rfl rfl rfl) rfl
      obtain ⟨L₄, hL₄, hflag₄, hval⟩ :=
        Waiting.notYounger hL₃.find (updateDependantLoads_notYounger S _ s)
      refine ⟨L₄, ((hL₁.trans hL₂).trans hL₃).trans hL₄, hflag₄.trans hflag, ?_⟩
      rw [hval]
      have hkeep := hvalue { L₁ with theValue := some v } (by
        simpa [MemQueueEntry.isAtomic] using hL₁.atomic.trans hatomic)
      exact hkeep

/-- `completeLSQ` leaves the reply's value in the load, with the older stores
    applied to it when the load was a partial snoop. -/
theorem completeLSQ_value (S : Surroundings) {c : CoreImpl} {s : Nat} {L : MemQueueEntry}
    (hfind : c.theMemQueue.find s = some L) {r : LoadReply} (hr : r.Answers L) :
    ∃ c' L', Waiting s c L c' L' ∧
      ((completeLSQ S c s r).theMemQueue.find s).bind (·.loadValue) =
        some (if L.thePartialSnoop then applyAllStores c'.theMemQueue L' r.theValue
          else r.theValue) := by
  obtain ⟨L', hL', hflag, hvalue⟩ := storeReply_spec S hfind hr
  refine ⟨_, L', hL', ?_⟩
  -- The partial snoop part settles the value ...
  obtain ⟨L₁, hfind₁, hvalue₁⟩ : ∃ L₁,
      (finishPartialSnoop (storeReply S c L r) s).theMemQueue.find s = some L₁ ∧
      L₁.loadValue = some (if L.thePartialSnoop then
        applyAllStores (storeReply S c L r).theMemQueue L' r.theValue else r.theValue) := by
    rw [finishPartialSnoop, hL'.find]
    dsimp only
    rw [hflag]
    split
    · refine ⟨{ L'.setLoadValue (L'.loadValue.map
        (applyAllStores (storeReply S c L r).theMemQueue L')) with thePartialSnoop := false }, ?_, ?_⟩
      · change ((storeReply S c L r).settlePartial s _).theMemQueue.find s = _
        rw [CoreImpl.settlePartial, find_update_self, hL'.find, Option.map_some]
      · rw [hvalue, Option.map_some]
        exact MemQueueEntry.loadValue_setLoadValue L' _
    · exact ⟨L', hL'.find, hvalue⟩
  -- ... and what follows only tells the dependants.
  rw [completeLSQ, hfind]
  dsimp only
  have hL₂ := Waiting.update hfind₁ (fun e => { e with theMSHR := false }) unlinked_sameKey rfl
  have hvalue₂ : ({ L₁ with theMSHR := false } : MemQueueEntry).loadValue = L₁.loadValue := rfl
  split
  · obtain ⟨L₃, hL₃, -, hvalue₃⟩ := Waiting.notYounger hL₂.find (satisfy_notYounger S s _)
    rw [hL₃.find, Option.bind_some, hvalue₃, hvalue₂, hvalue₁]
  · rw [hL₂.find, Option.bind_some, hvalue₂, hvalue₁]

section Bytes

variable {q : memq_t} {L : MemQueueEntry}
  (hwin : ∀ e ∈ q.entries, e.thePaddr_aligned = L.thePaddr_aligned →
    e.theSequenceNum < L.theSequenceNum → e.InWindow)
  (hL : L.InWindow)

include hwin hL in
/-- With all overlapping stores valued, applying the stores gives the expected bytes. -/
theorem lane_applyAllStores
    (hvalues : ∀ e ∈ q.entries, e.thePaddr_aligned = L.thePaddr_aligned →
      e.theSequenceNum < L.theSequenceNum → e.isLiveStore = true → intersects e L = true →
      e.theValue.isSome = true) (v : bits) {k : Nat} (hk : k < L.theSize.bytes) :
    lane (applyAllStores q L v) k = expectedByte q L v k := by
  have hmem : ∀ e ∈ (q.olderInBucket L.thePaddr_aligned L.theSequenceNum).reverse,
      e ∈ q.entries ∧ e.thePaddr_aligned = L.thePaddr_aligned ∧
        e.theSequenceNum < L.theSequenceNum := by
    intro e he
    exact memq_t.mem_olderInBucket.mp (List.mem_reverse.mp he)
  have hin : ∀ e ∈ q.olderInBucket L.thePaddr_aligned L.theSequenceNum, e.InWindow := by
    intro e he
    have he' := memq_t.mem_olderInBucket.mp he
    exact hwin e he'.1 he'.2.1 he'.2.2
  have hfind : (q.olderInBucket L.thePaddr_aligned L.theSequenceNum).reverse.find? (fun e =>
      e.theValue.isSome && (e.isLiveStore && intersects e L) &&
        decide (e.lead ≤ L.lead + k ∧ L.lead + k < e.lead + e.theSize.bytes)) =
      youngestWriter q L (L.thePaddr + BitVec.ofNat 64 k) := by
    refine List.find?_congr ?_
    intro e he
    obtain ⟨hentry, hbucket, holder⟩ := hmem e he
    have hlanes := touches_byte_iff hbucket (hwin e hentry hbucket holder) hL hk
    rw [Bool.eq_iff_iff]
    simp only [Bool.and_eq_true, decide_eq_true_eq, hlanes]
    constructor
    · rintro ⟨⟨-, hlive, -⟩, hlane⟩
      exact ⟨hlive, hlane⟩
    · rintro ⟨hlive, hlane⟩
      have hinter : intersects e L = true := by
        refine (intersects_iff (hwin e hentry hbucket holder) hL).mpr ⟨L.lead + k, ?_, hlane⟩
        omega
      exact ⟨⟨hvalues e hentry hbucket holder hlive hinter, hlive, hinter⟩, hlane⟩
  rw [applyAllStores, lane_applyStores hL hin v hk, hfind, expectedByte]
  cases hwriter : youngestWriter q L (L.thePaddr + BitVec.ofNat 64 k) with
  | none => rfl
  | some W =>
    have hW := memq_t.youngestOlder_eq_some_iff.mp hwriter
    have hsel := hW.selected
    simp only [Bool.and_eq_true, decide_eq_true_eq,
      touches_byte_iff hW.bucket (hwin W hW.mem hW.bucket hW.older) hL hk] at hsel
    rw [Option.elim_some, Option.elim_some, byte_distance hW.bucket hL hk hsel.2.1]

include hwin hL in
/-- A store that covers the load, the youngest one to overlap it, forwards the
    expected bytes. -/
theorem lane_forwarded {m : MemQueueEntry} (hmatch : snoopMatch q L = some m)
    (hcovers : covers m L = true) {sv : bits} (hvalue : m.theValue = some sv) (v : bits) :
    ∃ fv, forwarded m L = some fv ∧
      ∀ k, k < L.theSize.bytes → lane fv k = expectedByte q L v k := by
  have hm := memq_t.youngestOlder_eq_some_iff.mp hmatch
  have hsel := hm.selected
  simp only [Bool.and_eq_true] at hsel
  have hmwin := hwin m hm.mem hm.bucket hm.older
  obtain ⟨hlo, hhi⟩ := (covers_iff hmwin hL).mp hcovers
  have hwriter : ∀ k, k < L.theSize.bytes →
      youngestWriter q L (L.thePaddr + BitVec.ofNat 64 k) = some m := by
    intro k hk
    refine memq_t.youngestOlder_eq_some_iff.mpr ⟨hm.mem, hm.bucket, hm.older, ?_, ?_⟩
    · simp only [Bool.and_eq_true, decide_eq_true_eq, touches_byte_iff hm.bucket hmwin hL hk]
      exact ⟨hsel.1, by omega, by omega⟩
    · intro x hx hbucket holder hxsel
      simp only [Bool.and_eq_true, decide_eq_true_eq,
        touches_byte_iff hbucket (hwin x hx hbucket holder) hL hk] at hxsel
      refine hm.youngest x hx hbucket holder ?_
      have hinter : intersects x L = true :=
        (intersects_iff (hwin x hx hbucket holder) hL).mpr ⟨L.lead + k, by omega, hxsel.2⟩
      simp [hxsel.1, hinter]
  have hexpected : ∀ k, k < L.theSize.bytes →
      expectedByte q L v k = lane sv (L.lead + k - m.lead) := by
    intro k hk
    rw [expectedByte, hwriter k hk, Option.elim_some, hvalue, Option.getD_some,
      byte_distance hm.bucket hL hk (by omega)]
  rw [forwarded, hvalue]
  split
  case isTrue hsize =>
    refine ⟨sv, rfl, ?_⟩
    intro k hk
    rw [hexpected k hk]
    congr 1
    rw [hsize] at hhi
    omega
  case isFalse =>
    refine ⟨_, rfl, ?_⟩
    intro k hk
    have hlane : L.lead + k = m.lead + (L.lead + k - m.lead) := by omega
    rw [hexpected k hk, lane_writeAligned hL _ hk, hlane, lane_align hmwin sv (by omega)]
    congr 1
    omega

end Bytes

theorem SameBytes.touches_iff {e e' : MemQueueEntry} (h : SameBytes e e')
    (a : PhysicalMemoryAddress) : e'.touches a ↔ e.touches a := by
  rw [MemQueueEntry.touches, MemQueueEntry.touches, h.size, h.paddr]

/-- The expected bytes depend only on the load's place and the older stores. -/
theorem Waiting.expectedByte_eq {s : Nat} {c c' : CoreImpl} {L L' : MemQueueEntry}
    (h : Waiting s c L c' L') (hs : L.theSequenceNum = s) (v : bits) (k : Nat) :
    expectedByte c'.theMemQueue L' v k = expectedByte c.theMemQueue L v k := by
  have hrel : Option.Rel SameStore
      (youngestWriter c.theMemQueue L (L.thePaddr + BitVec.ofNat 64 k))
      (youngestWriter c'.theMemQueue L' (L'.thePaddr + BitVec.ofNat 64 k)) := by
    rw [youngestWriter, youngestWriter, h.bytes.aligned, h.seq, h.bytes.paddr, hs]
    refine youngestOlder_related h.stores (fun _ _ hee => hee.1) (fun _ _ hee => hee.2) ?_
    intro e e' hee
    rw [Bool.eq_iff_iff]
    simp only [Bool.and_eq_true, decide_eq_true_eq, hee.live, hee.touches_iff]
  rw [expectedByte, expectedByte]
  revert hrel
  generalize youngestWriter c.theMemQueue L (L.thePaddr + BitVec.ofNat 64 k) = W
  generalize youngestWriter c'.theMemQueue L' (L'.thePaddr + BitVec.ofNat 64 k) = W'
  intro hrel
  cases hrel with
  | none => rfl
  | some hsame =>
    rw [Option.elim_some, Option.elim_some, hsame.value, hsame.paddr, h.bytes.paddr]

theorem SameBytes.inWindow_iff {e e' : MemQueueEntry} (h : SameBytes e e') :
    e'.InWindow ↔ e.InWindow := by
  rw [MemQueueEntry.InWindow, MemQueueEntry.InWindow, MemQueueEntry.lead, MemQueueEntry.lead, h.paddr,
    h.aligned, h.size]

/-- In a later state of the queue the older stores still give the expected bytes. -/
theorem Waiting.lane_applyAllStores {s : Nat} {c c' : CoreImpl} {L L' : MemQueueEntry}
    (h : Waiting s c L c' L') (hs : L.theSequenceNum = s)
    (hwin : ∀ e ∈ c.theMemQueue.entries, e.thePaddr_aligned = L.thePaddr_aligned →
      e.theSequenceNum < L.theSequenceNum → e.InWindow) (hL : L.InWindow)
    (hvalues : ∀ e ∈ c.theMemQueue.entries, e.thePaddr_aligned = L.thePaddr_aligned →
      e.theSequenceNum < L.theSequenceNum → e.isLiveStore = true → intersects e L = true →
      e.theValue.isSome = true) (v : bits) {k : Nat} (hk : k < L.theSize.bytes) :
    lane (applyAllStores c'.theMemQueue L' v) k = expectedByte c.theMemQueue L v k := by
  have hback : ∀ e' ∈ c'.theMemQueue.entries, e'.thePaddr_aligned = L'.thePaddr_aligned →
      e'.theSequenceNum < L'.theSequenceNum → ∃ e ∈ c.theMemQueue.entries, SameStore e e' ∧
        e.thePaddr_aligned = L.thePaddr_aligned ∧ e.theSequenceNum < L.theSequenceNum := by
    intro e' he' hbucket holder
    obtain ⟨e, he, hseq, hsame⟩ := h.stores.exists_of_mem_right he'
    have hlt : e.theSequenceNum < L.theSequenceNum := by
      rw [← hseq, ← h.seq]
      exact holder
    have hee := hsame (hs ▸ hlt)
    refine ⟨e, he, hee, ?_, hlt⟩
    rw [← hee.aligned, hbucket, h.bytes.aligned]
  rw [← h.expectedByte_eq hs]
  refine nuArchARM.lane_applyAllStores ?_ (h.bytes.inWindow_iff.mpr hL) ?_ v (h.bytes.size ▸ hk)
  · intro e' he' hbucket holder
    obtain ⟨e, he, hee, hb, ho⟩ := hback e' he' hbucket holder
    exact hee.inWindow_iff.mpr (hwin e he hb ho)
  · intro e' he' hbucket holder hlive hinter
    obtain ⟨e, he, hee, hb, ho⟩ := hback e' he' hbucket holder
    rw [hee.value]
    exact hvalues e he hb ho (hee.live ▸ hlive) (hee.intersects_eq h.bytes ▸ hinter)

/-- Store forwarding is byte-exact. A load of a bucket whose entries lie in their
    windows, with a value in every older overlapping store, ends with a value,
    by forwarding or from memory, and each of its bytes comes from the youngest
    older store that writes the address, or from memory where there is none. -/
theorem loadedValue_byteExact (S : Surroundings) (c : CoreImpl) (s : Nat) (L : MemQueueEntry)
    (hfind : c.theMemQueue.find s = some L) (hresolved : L.thePaddr ≠ kUnresolved)
    (hwin : ∀ e ∈ c.theMemQueue.entries, e.thePaddr_aligned = L.thePaddr_aligned → e.InWindow)
    (hvalues : ∀ e ∈ c.theMemQueue.entries, e.thePaddr_aligned = L.thePaddr_aligned →
      e.theSequenceNum < L.theSequenceNum → e.isLiveStore = true →
      (∃ a, e.touches a ∧ L.touches a) → e.theValue.isSome = true)
    (r : LoadReply) (hr : r.Answers L) :
    ∃ v, loadedValue S c s r = some v ∧
      ∀ k, k < L.theSize.bytes → lane v k = expectedByte c.theMemQueue L r.theValue k := by
  have hs : L.theSequenceNum = s := (memq_t.find_eq_some.mp hfind).2
  have hL : L.InWindow := hwin L (memq_t.find_eq_some.mp hfind).1 rfl
  have holderwin : ∀ e ∈ c.theMemQueue.entries, e.thePaddr_aligned = L.thePaddr_aligned →
      e.theSequenceNum < L.theSequenceNum → e.InWindow := fun e he hb _ => hwin e he hb
  have hvalued : ∀ e ∈ c.theMemQueue.entries, e.thePaddr_aligned = L.thePaddr_aligned →
      e.theSequenceNum < L.theSequenceNum → e.isLiveStore = true → intersects e L = true →
      e.theValue.isSome = true := by
    intro e he hbucket holder hlive hinter
    exact hvalues e he hbucket holder hlive
      ((intersects_iff_touches hbucket (hwin e he hbucket) hL).mp hinter)
  obtain ⟨L₁, hwait⟩ := Waiting.of_frame hfind (snoopStores_frame c s none)
  have hsnooped : outcome (snoopStores c s none).1 s = _ :=
    snoopStores_outcome hfind hresolved (by simp)
  rw [resolve, outcome, hwait.find, Option.map_some, Option.some_inj] at hsnooped
  -- A load without a value is completed by the reply, over the same stores.
  have hr₁ : r.Answers L₁ := by cases r <;> exact hwait.atomic.trans hr
  obtain ⟨c', L', hwait', hvalue⟩ := completeLSQ_value S hwait.find hr₁
  have happlied := fun k (hk : k < L.theSize.bytes) =>
    (hwait.trans hwait').lane_applyAllStores hs holderwin hL hvalued r.theValue hk
  have hmemory : L₁.loadValue = none → loadedValue S c s r = some (if L₁.thePartialSnoop then
      applyAllStores c'.theMemQueue L' r.theValue else r.theValue) := by
    intro hnone
    rw [loadedValue, hwait.find, Option.bind_some, hnone]
    exact hvalue
  cases hmatch : snoopMatch c.theMemQueue L with
  | none =>
    rw [hmatch, forwardedOutcome, Prod.mk.injEq] at hsnooped
    refine ⟨_, hmemory hsnooped.1, ?_⟩
    intro k hk
    split
    case isTrue => exact happlied k hk
    case isFalse =>
      -- Nothing overlaps the load, so nothing writes its bytes.
      have hnone := memq_t.youngestOlder_eq_none_iff.mp hmatch
      have hwriter : youngestWriter c.theMemQueue L (L.thePaddr + BitVec.ofNat 64 k) = none := by
        refine memq_t.youngestOlder_eq_none_iff.mpr ?_
        intro x hx hbucket holder
        have hfree := hnone x hx hbucket holder
        rw [Bool.and_eq_false_iff] at hfree ⊢
        refine hfree.imp_right ?_
        intro hinter
        rw [decide_eq_false_iff_not]
        intro htouch
        have hover := (intersects_iff_touches hbucket (hwin x hx hbucket) hL).mpr
          ⟨_, htouch, k, hk, rfl⟩
        simp [hinter] at hover
      rw [expectedByte, hwriter, Option.elim_none]
  | some m =>
    rw [hmatch, forwardedOutcome] at hsnooped
    have hm := memq_t.youngestOlder_eq_some_iff.mp hmatch
    have hsel := hm.selected
    simp only [Bool.and_eq_true] at hsel
    obtain ⟨sv, hsv⟩ := Option.isSome_iff_exists.mp
      (hvalued m hm.mem hm.bucket hm.older hsel.1 hsel.2)
    by_cases hcovers : covers m L = true
    · rw [if_pos hcovers, Prod.mk.injEq] at hsnooped
      obtain ⟨fv, hfv, hlanes⟩ := lane_forwarded holderwin hL hmatch hcovers hsv r.theValue
      refine ⟨fv, ?_, hlanes⟩
      rw [loadedValue, hwait.find, Option.bind_some, hsnooped.1, hfv]
    · rw [if_neg hcovers, Prod.mk.injEq] at hsnooped
      refine ⟨_, hmemory hsnooped.1, ?_⟩
      intro k hk
      rw [if_pos hsnooped.2]
      exact happlied k hk

/-- The double word load behind two word stores is put together from both. -/
theorem loadedValue_wordsThenLoads :
    ∃ v, loadedValue .still wordsThenLoads 3 (.kLoadReply 5#128 0#128) = some v ∧
      ∀ k, k < 8 → lane v k = expectedByte wordsThenLoads.theMemQueue
        ((MemQueueEntry.create 3 .kLoad .kDoubleWord true).setPaddr 0x1000#64) 5#128 k := by
  refine loadedValue_byteExact .still wordsThenLoads 3
    ((MemQueueEntry.create 3 .kLoad .kDoubleWord true).setPaddr 0x1000#64) (by decide) (by decide)
    (by decide) ?_ (.kLoadReply 5#128 0#128) rfl
  intro e he _ holder _ _
  have hvalued : ∀ e ∈ wordsThenLoads.theMemQueue.entries, e.theSequenceNum < 3 →
      e.theValue.isSome = true := by decide
  exact hvalued e he holder

end nuArchARM
