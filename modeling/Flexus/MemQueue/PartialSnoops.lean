import Flexus.MemQueue.Settling

/-!
# Partial snoops

The counter of the loads that wait for a partial snoop, over the runs of the memory unit.
-/

namespace nuArchARM

namespace MemoryUnit

open Runs

/-- The counter is the number of entries that wait for a partial snoop. With it positive the
    load-store queue has a head to look at, and with it zero nobody waits. -/
structure PartialSnoopsCounted (m : MemoryUnit) : Prop where
  exact : m.thePartialSnoopersOutstanding.toNat = m.theMemQueue.snoopers
  head : 0 < m.thePartialSnoopersOutstanding → ∃ e ∈ m.theMemQueue.entries, e.theQueue = .kLSQ
  issues : ∃ m', m.issuePartialSnoop = .ok m'
  served : m.thePartialSnoopersOutstanding = 0 →
    ∀ e ∈ m.theMemQueue.entries, e.thePartialSnoop = false

/-- No atomic that has left the load-store queue gets the reply to its preload, unless its value
    was predicted. -/
def awaitsPreload (m : MemoryUnit) (call : Call) : Bool :=
  match call.event with
  | .complete s (.kAtomicPreloadReply _) =>
    (m.theMemQueue.find s).all fun e => e.theQueue == .kLSQ || m.theSpeculatedValue.contains s
  | _ => true

/-- The count is exact, and the load-store queue fits the reorder buffer. -/
def Kept (theROBSize : BitVec 32) (c : CoreImpl) : Prop :=
  ∃ Q, Orderly Q ∧ lsqCount Q ≤ theROBSize.toNat ∧ Counted Q none c

theorem snoopers_le_lsqCount {Q : List QueuePlace} {c : CoreImpl} (h : Counted Q none c) :
    c.theMemQueue.snoopers ≤ lsqCount Q := by
  rw [lsqCount, ← h.places, memq_t.places, List.countP_map]
  refine List.countP_mono_left ?_
  intro e he hsnoop
  simpa [MemQueueEntry.place] using (h.waiting e he hsnoop).1

/-- What holds of a memory unit whose count is kept. -/
theorem Kept.counted {theROBSize : BitVec 32} {m : MemoryUnit} (h : Kept theROBSize m.toCoreImpl) :
    PartialSnoopsCounted m := by
  obtain ⟨Q, hQ, hroom, h⟩ := h
  have hexact : m.thePartialSnoopersOutstanding.toNat = m.theMemQueue.snoopers := by
    have hle := snoopers_le_lsqCount h
    have hsize := theROBSize.isLt
    rw [h.count, BitVec.toNat_ofNat]
    exact Nat.mod_eq_of_lt (by omega)
  have hhead : 0 < m.thePartialSnoopersOutstanding →
      ∃ e ∈ m.theMemQueue.entries, e.theQueue = .kLSQ := by
    intro hpos
    have hsome : 0 < m.theMemQueue.snoopers := by
      rw [← hexact]
      exact BitVec.lt_def.mp hpos
    obtain ⟨e, he, hsnoop⟩ := List.countP_pos_iff.mp hsome
    exact ⟨e, he, (h.waiting e he hsnoop).1⟩
  refine ⟨hexact, hhead, ?_, ?_⟩
  · unfold issuePartialSnoop
    split
    case isFalse => exact ⟨m, rfl⟩
    case isTrue hpos =>
      obtain ⟨e, he, hlsq⟩ := hhead hpos
      have hfound : (m.theMemQueue.entries.find? fun e => e.theQueue == .kLSQ).isSome = true := by
        rw [List.find?_isSome]
        exact ⟨e, he, by simp [hlsq]⟩
      obtain ⟨lsq_head, hlsq_head⟩ := Option.isSome_iff_exists.mp hfound
      have hlookup : m.theMemQueue.lsqHead = some lsq_head := by
        rw [memq_t.lsqHead, hlsq_head, Option.some_or]
      rw [hlookup]
      dsimp only
      split
      case isFalse => exact ⟨m, rfl⟩
      case isTrue hwaits =>
        -- The head waits for a port, so requesting one cannot fail.
        have hmem := List.mem_of_find?_eq_some hlsq_head
        have hfind : m.theMemQueue.find lsq_head.theSequenceNum = some lsq_head :=
          memq_t.find_eq_some.mpr ⟨hmem, rfl⟩
        simp only [Bool.and_eq_true, Bool.or_eq_true, beq_iff_eq] at hwaits
        rw [requestPort, hfind]
        simp [hwaits.2]
  · intro hzero e he
    have hnone : m.theMemQueue.snoopers = 0 := by
      rw [← hexact, hzero]
      rfl
    simpa using List.countP_eq_zero.mp hnone e he

section Functions

variable {theROBSize n : BitVec 32} {S : Surroundings} {c : CoreImpl} {m m' : MemoryUnit}

/-- What leaves the queue leaves the rest in order, and the count is exact when it is that of
    the entries that stay. -/
theorem Kept.keep (h : Kept theROBSize c) (p : MemQueueEntry → Bool)
    (hcount : n = BitVec.ofNat 32 (c.theMemQueue.keep p).snoopers) :
    Kept theROBSize { c with
      theMemQueue := c.theMemQueue.keep p
      thePartialSnoopersOutstanding := n } := by
  obtain ⟨Q, hQ, hroom, h⟩ := h
  have hsub : (c.theMemQueue.keep p).places.Sublist Q := by
    rw [← h.places]
    exact List.filter_sublist.map _
  refine ⟨_, hQ.sublist hsub, (hsub.countP_le).trans hroom, rfl, hcount, ?_, ?_⟩
  · intro e he
    exact h.waiting e (List.mem_of_mem_filter he)
  · intro e he
    exact h.retired e (List.mem_of_mem_filter he)

theorem eraseLSQ_kept (hS : ∀ Q x, Orderly Q → S.Counts Q x) (h : Kept theROBSize m.toCoreImpl)
    (s : Nat) : Kept theROBSize (m.eraseLSQ S s).toCoreImpl := by
  unfold eraseLSQ
  split
  case h_1 => exact h
  case h_2 e hfind =>
    obtain ⟨hmem, rfl⟩ := memq_t.find_eq_some.mp hfind
    obtain ⟨Q, hQ, hroom, h⟩ := h
    have hbroken := breakMSHRLink_counted (hS Q none hQ) h e
    have hkept : Kept theROBSize (breakMSHRLink S m.toCoreImpl e) := ⟨Q, hQ, hroom, hbroken⟩
    obtain ⟨e', hmem', hseq, hflag⟩ := (breakMSHRLink_flag S m.toCoreImpl e).exists_of_mem hmem
    have hdrop := snoopers_drop hmem'
    rw [hseq, hflag] at hdrop
    have hcount := hbroken.count
    rw [← hdrop, BitVec.ofNat_add] at hcount
    dsimp only
    split
    case isTrue hsnoop =>
      rw [hsnoop] at hcount
      refine hkept.keep _ ?_
      rw [hcount]
      exact BitVec.add_sub_cancel _ _
    case isFalse hsnoop =>
      rw [Bool.not_eq_true] at hsnoop
      rw [hsnoop] at hcount
      exact hkept.keep _ (hcount.trans (BitVec.add_zero _))

/-- The count starts again from zero when the load-store queue is cleared, in which all that
    waited were. -/
theorem resetARM_kept (h : Kept theROBSize m.toCoreImpl) : Kept theROBSize m.resetARM.toCoreImpl := by
  refine h.keep _ ?_
  obtain ⟨Q, -, -, h⟩ := h
  have hnone : (m.theMemQueue.keep fun e => e.theQueue != .kLSQ).snoopers = 0 := by
    refine List.countP_eq_zero.mpr ?_
    intro e he hsnoop
    have hlsq := (h.waiting e (List.mem_of_mem_filter he) hsnoop).1
    simp [memq_t.keep, hlsq] at he
  rw [hnone]
  rfl

theorem clearSSBFrom_kept (h : Kept theROBSize m.toCoreImpl) (aLowestInsnSeq : Nat) :
    Kept theROBSize (m.clearSSBFrom aLowestInsnSeq).toCoreImpl := by
  refine h.keep (n := m.thePartialSnoopersOutstanding) _ ?_
  obtain ⟨Q, -, -, h⟩ := h
  rw [snoopers_keep, h.count]
  intro e he hsnoop
  simp [(h.waiting e he hsnoop).1]

theorem clearSSB_kept (h : Kept theROBSize m.toCoreImpl) : Kept theROBSize m.clearSSB.toCoreImpl := by
  refine h.keep (n := m.thePartialSnoopersOutstanding) _ ?_
  obtain ⟨Q, -, -, h⟩ := h
  rw [snoopers_keep, h.count]
  intro e he hsnoop
  simp [(h.waiting e he hsnoop).1]

theorem cleanMSHRS_kept (h : Kept theROBSize m.toCoreImpl) (woken : List Nat) :
    Kept theROBSize (m.cleanMSHRS woken).toCoreImpl := by
  obtain ⟨Q, hQ, hroom, h⟩ := h
  refine ⟨Q, hQ, hroom, ?_⟩
  change Counted Q none (woken.foldl requestAgain m.toCoreImpl)
  generalize m.toCoreImpl = c at h
  induction woken generalizing c with
  | nil => exact h
  | cons s woken ih =>
    refine ih _ ?_
    unfold requestAgain
    split
    · exact h
    · exact requestPort_counted h _

theorem insertLSQ_kept (h : Kept theROBSize m.toCoreImpl) {anOperation : eOperation} {aSize : eSize}
    {aDependance : Bool} (hok : m.insertLSQ theROBSize anOperation aSize aDependance = .ok m') :
    Kept theROBSize m'.toCoreImpl := by
  obtain ⟨Q, hQ, -, h⟩ := h
  unfold insertLSQ at hok
  dsimp only at hok
  split at hok
  case isTrue => cases hok
  case isFalse hroom =>
    split at hok
    case isFalse => cases hok
    case isTrue hs =>
      cases hok
      let aNew := MemQueueEntry.create (m.theMemorySequenceNum + 1) anOperation aSize aDependance
      have hcount : lsqCount Q = m.theMemQueue.entries.countP (·.theQueue == .kLSQ) := by
        rw [lsqCount, ← h.places, memq_t.places, List.countP_map]
        rfl
      refine ⟨Q ++ [aNew.place], ?_, ?_, ?_, ?_, ?_, ?_⟩
      · rw [Orderly, List.pairwise_append]
        refine ⟨hQ, List.pairwise_singleton _ _, ?_⟩
        intro p hp p' hp'
        obtain rfl := List.mem_singleton.mp hp'
        rw [← h.places] at hp
        obtain ⟨e, he, rfl⟩ := List.mem_map.mp hp
        exact ⟨hs e he, fun _ => rfl⟩
      · rw [lsqCount, List.countP_append, List.countP_singleton]
        rw [lsqCount] at hcount
        split <;> omega
      · rw [← h.places]
        exact List.map_append
      · rw [show BitVec.ofNat 32 _ = m.thePartialSnoopersOutstanding from ?_]
        rw [h.count, memq_t.snoopers, memq_t.insertLSQ, List.countP_append]
        rfl
      · intro e he hsnoop
        obtain he | he := List.mem_append.mp he
        · exact h.waiting e he hsnoop
        · rw [List.mem_singleton.mp he] at hsnoop
          cases hsnoop
      · intro e he hretired
        obtain he | he := List.mem_append.mp he
        · exact h.retired e he hretired
        · rw [List.mem_singleton.mp he] at hretired
          exact absurd rfl hretired

/-! ## Execution and issue -/

theorem entry_eq_ok {s : Nat} {e : MemQueueEntry} (hok : m.entry s = .ok e) :
    m.theMemQueue.find s = some e := by
  unfold entry at hok
  split at hok
  · cases hok
  · cases hok
    assumption

theorem executing_eq_ok {s : Nat} {e : MemQueueEntry} (hok : m.executing s = .ok e) :
    m.theMemQueue.find s = some e ∧ e.theQueue = .kLSQ := by
  obtain ⟨found, hfound, hok⟩ := Runs.bind_eq_ok.mp hok
  split at hok
  case isTrue => cases hok
  case isFalse hlsq =>
    cases hok
    exact ⟨entry_eq_ok hfound, not_not.mp hlsq⟩

/-- A load that is complete has its value. -/
theorem loadValue_of_complete {e : MemQueueEntry} (hload : e.isLoad = true)
    (hstatus : e.status = .kComplete) : e.loadValue ≠ none := by
  intro hnone
  revert hstatus
  unfold MemQueueEntry.status
  cases hop : e.theOperation <;>
    simp_all [MemQueueEntry.isLoad, MemQueueEntry.loadValue, MemQueueEntry.isAtomic]
  all_goals
    repeat' split
    all_goals simp

theorem execute_kept (D : Dependants) (depth : Nat) (h : Kept theROBSize m.toCoreImpl) (event : Event)
    (hok : m.execute (D.surroundings depth) event = .ok m') : Kept theROBSize m'.toCoreImpl := by
  obtain ⟨Q, hQ, hroom, h⟩ := h
  refine ⟨Q, hQ, hroom, ?_⟩
  have hS := D.counts hQ none depth
  cases event
  case resolveVAddr s known =>
    obtain ⟨e, he, hok⟩ := Runs.bind_eq_ok.mp hok
    obtain ⟨hfind, hlsq⟩ := executing_eq_ok he
    cases hok
    obtain ⟨hmem, rfl⟩ := memq_t.find_eq_some.mp hfind
    exact resolveVAddr_counted hQ hS h (h.waits hmem hlsq) known
  case resolvePAddr s anAddr =>
    obtain ⟨e, he, hok⟩ := Runs.bind_eq_ok.mp hok
    obtain ⟨hfind, hlsq⟩ := executing_eq_ok he
    split at hok <;> cases hok
    exact resolvePAddr_counted D depth hQ h hfind hlsq anAddr
  case pageFault s =>
    obtain ⟨e, he, hok⟩ := Runs.bind_eq_ok.mp hok
    obtain ⟨hfind, hlsq⟩ := executing_eq_ok he
    obtain ⟨hmem, rfl⟩ := memq_t.find_eq_some.mp hfind
    cases hok
    refine h.update (f := fun e => { e with theException := true })
      (fun _ => .of_eq rfl rfl rfl rfl) fun y hy hs => ?_
    rw [memq_t.eq_of_seq hy hmem hs]
    have habnormal : ({ e with theException := true } : MemQueueEntry).isAbnormalAccess = true :=
      Bool.or_true _
    exact ⟨rfl, rfl, rfl, fun hretired => absurd hlsq hretired, fun _ _ _ _ => .inr habnormal⟩
  case updateStoreValue s aValue =>
    obtain ⟨e, he, hok⟩ := Runs.bind_eq_ok.mp hok
    obtain ⟨hfind, hlsq⟩ := executing_eq_ok he
    split at hok
    case isTrue => cases hok
    case isFalse hop =>
      cases hok
      exact updateStoreValue_counted D depth hQ h hfind hlsq hop aValue
  case updateCASValue s aValue aCompareValue =>
    obtain ⟨e, he, hok⟩ := Runs.bind_eq_ok.mp hok
    obtain ⟨hfind, hlsq⟩ := executing_eq_ok he
    split at hok
    case isTrue => cases hok
    case isFalse hop =>
      cases hok
      exact updateCASValue_counted D depth hQ h hfind hlsq (not_not.mp hop) aValue aCompareValue
  case annulStoreValue s =>
    obtain ⟨e, he, hok⟩ := Runs.bind_eq_ok.mp hok
    obtain ⟨hfind, hlsq⟩ := executing_eq_ok he
    split at hok <;> cases hok
    exact annulStoreValue_counted D depth hQ h hfind hlsq
  case setLoadValue s aValue =>
    obtain ⟨e, he, hok⟩ := Runs.bind_eq_ok.mp hok
    obtain ⟨hfind, -⟩ := executing_eq_ok he
    obtain ⟨hmem, rfl⟩ := memq_t.find_eq_some.mp hfind
    split at hok
    case isTrue => cases hok
    case isFalse hstatus =>
      cases hok
      refine h.update (f := fun e => { e with theValue := some aValue })
        (fun _ => .of_eq rfl rfl rfl rfl) fun y hy hs => ?_
      rw [memq_t.eq_of_seq hy hmem hs]
      refine ⟨rfl, rfl, rfl, fun _ => rfl, fun _ hload _ hwaiting => .inr ?_⟩
      -- The entry has a value already, so if it waits its access is abnormal.
      exact hwaiting.resolve_left (loadValue_of_complete hload (not_not.mp hstatus))
  all_goals
    cases hok
    exact h

theorem requestPort_kept (h : Kept theROBSize m.toCoreImpl) {s : Nat}
    (hok : m.requestPort s = .ok m') : Kept theROBSize m'.toCoreImpl := by
  obtain ⟨Q, hQ, hroom, h⟩ := h
  refine ⟨Q, hQ, hroom, ?_⟩
  unfold requestPort at hok
  split at hok
  case h_1 =>
    cases hok
    exact h
  case h_2 e hfind =>
    dsimp only at hok
    split at hok
    · cases hok
      exact h
    · split at hok <;> cases hok
      exact requestPort_counted h e

theorem issue_kept (h : Kept theROBSize m.toCoreImpl) {s : Nat} (hok : m.issue s = .ok m') :
    Kept theROBSize m'.toCoreImpl := by
  obtain ⟨Q, hQ, hroom, h⟩ := h
  refine ⟨Q, hQ, hroom, ?_⟩
  unfold issue at hok
  split at hok
  case h_1 =>
    cases hok
    exact h
  case h_2 e hfind =>
    split at hok
    · cases hok
      exact h
    split at hok
    · cases hok
    split at hok <;> cases hok
    exact h.update (f := fun e => { e with theMSHR := true }) (fun _ => .of_eq rfl rfl rfl rfl)
      fun _ _ _ => .of_eq rfl rfl rfl rfl (.inr rfl)

theorem issuePartialSnoop_kept (h : Kept theROBSize m.toCoreImpl) (hok : m.issuePartialSnoop = .ok m') :
    Kept theROBSize m'.toCoreImpl := by
  unfold issuePartialSnoop at hok
  split at hok
  case isFalse =>
    cases hok
    exact h
  case isTrue =>
    split at hok
    · cases hok
    · split at hok
      · exact requestPort_kept h hok
      · cases hok
        exact h

theorem endSnoop_counted {Q : List QueuePlace} {e : MemQueueEntry} (h : Counted Q none c)
    (hmem : e ∈ c.theMemQueue.entries) : Counted Q none (endSnoop c e) := by
  unfold endSnoop
  split
  case isFalse => exact h
  case isTrue hsnoop =>
    refine h.mark (k := c.thePartialSnoopLoads) hmem rfl rfl rfl ?_ ?_
    · intro hflag
      cases hflag
    · rw [hsnoop]
      exact (BitVec.sub_add_cancel _ _).trans (BitVec.add_zero _).symm

theorem endSnoop_idle {e : MemQueueEntry} (hmem : e ∈ c.theMemQueue.entries) :
    ∀ y ∈ (endSnoop c e).theMemQueue.entries, y.theSequenceNum = e.theSequenceNum →
      y.thePartialSnoop = false := by
  intro y hy hs
  unfold endSnoop at hy
  split at hy
  case isTrue =>
    obtain ⟨x, -, rfl⟩ := List.mem_map.mp hy
    split at hs
    case isTrue hx => rw [if_pos hx]
    case isFalse hx => exact absurd hs hx
  case isFalse hsnoop =>
    rw [memq_t.eq_of_seq hy hmem hs]
    exact Bool.not_eq_true _ ▸ hsnoop

theorem issueAtomic_kept (D : Dependants) (depth : Nat) (h : Kept theROBSize m.toCoreImpl)
    (hok : m.issueAtomic (D.surroundings depth) = .ok m') : Kept theROBSize m'.toCoreImpl := by
  obtain ⟨Q, hQ, hroom, h⟩ := h
  unfold issueAtomic at hok
  split at hok
  case h_1 =>
    cases hok
    exact ⟨Q, hQ, hroom, h⟩
  case h_2 e rest hentries =>
    split at hok
    case isFalse =>
      cases hok
      exact ⟨Q, hQ, hroom, h⟩
    case isTrue =>
      have hmem : e ∈ m.theMemQueue.entries := hentries ▸ List.mem_cons_self
      have hended := endSnoop_counted h hmem
      dsimp only at hok
      split at hok
      case isTrue =>
        cases hok
        refine ⟨Q, hQ, hroom, (D.counts hQ none depth).satisfy _ _ ?_⟩
        refine hended.update (f := fun e => { e with theIssued := true, theExtendedValue := some 0#128 })
          (fun _ => .of_eq rfl rfl rfl rfl) fun y hy hs => ⟨rfl, rfl, rfl, fun _ => rfl, fun hsnoop => ?_⟩
        rw [endSnoop_idle hmem y hy hs] at hsnoop
        cases hsnoop
      case isFalse => exact requestPort_kept ⟨Q, hQ, hroom, hended⟩ hok

theorem valuePredictAtomic_kept (D : Dependants) (depth : Nat) (h : Kept theROBSize m.toCoreImpl)
    (aValue : bits) : Kept theROBSize (m.valuePredictAtomic (D.surroundings depth) aValue).toCoreImpl := by
  unfold valuePredictAtomic
  split
  case h_1 => exact h
  case h_2 e hhead =>
    dsimp only
    split
    case isFalse => exact h
    case isTrue hpredict =>
      obtain ⟨Q, hQ, hroom, h⟩ := h
      refine ⟨Q, hQ, hroom, ?_⟩
      have hvalued := h.update (s := e.theSequenceNum)
        (f := fun e => { e with theExtendedValue := some aValue }) (fun _ => .of_eq rfl rfl rfl rfl) ?_
      · change Counted Q none (ite _ _ _)
        split
        · exact (D.counts hQ none depth).satisfy _ _ hvalued
        · exact hvalued
      · intro y hy hs
        refine ⟨rfl, rfl, rfl, fun _ => rfl, fun hsnoop => ?_⟩
        rw [memq_t.eq_of_seq hy (List.mem_of_find?_eq_some hhead) hs, hpredict.2.2.2.1] at hsnoop
        cases hsnoop

theorem checkExtraLatencyTimeout_kept (D : Dependants) (depth : Nat)
    (h : Kept theROBSize m.toCoreImpl) :
    Kept theROBSize (m.checkExtraLatencyTimeout (D.surroundings depth)).toCoreImpl := by
  unfold checkExtraLatencyTimeout
  split
  case h_1 => exact h
  case h_2 e hhead =>
    dsimp only
    split
    case isFalse => exact h
    case isTrue habnormal =>
      obtain ⟨Q, hQ, hroom, h⟩ := h
      refine ⟨Q, hQ, hroom, ?_⟩
      have hvalued := h.update (s := e.theSequenceNum)
        (f := fun e => { e with
          theIssued := true
          theValue := some 0#128
          theExtendedValue := some 0#128 }) (fun _ => .of_eq rfl rfl rfl rfl) ?_
      · change Counted Q none (ite _ _ _)
        split
        · exact (D.counts hQ none depth).satisfy _ _ hvalued
        · exact hvalued
      · intro y hy hs
        rw [memq_t.eq_of_seq hy (List.mem_of_find?_eq_some hhead) hs]
        exact ⟨rfl, rfl, rfl, fun _ => rfl, fun _ _ _ _ => .inr habnormal.1⟩

/-! ## Completion -/

/-- An atomic that is completed without speculation has not retired. -/
theorem lsq_of_nonSpeculative {Q : List QueuePlace} {e : MemQueueEntry} (h : Counted Q none m.toCoreImpl)
    (hmem : e ∈ m.theMemQueue.entries) (hatomic : e.isAtomic = true)
    (hissued : ¬ (m.theSpeculativeOrder = true ∧ e.isAbnormalAccess = false)) : e.theQueue = .kLSQ := by
  by_contra hretired
  exact hissued (h.retired e hmem hretired hatomic)

theorem completePreload_kept (D : Dependants) (depth : Nat) {Q : List QueuePlace} (hQ : Orderly Q)
    (hroom : lsqCount Q ≤ theROBSize.toNat) (h : Counted Q none m.toCoreImpl) {s : Nat}
    {e : MemQueueEntry} (hfind : m.theMemQueue.find s = some e) {v : bits}
    (hmeets : e.theQueue = .kLSQ ∨ s ∈ m.theSpeculatedValue)
    (hok : m.completePreload (D.surroundings depth) e v = .ok m') : Kept theROBSize m'.toCoreImpl := by
  obtain ⟨-, rfl⟩ := memq_t.find_eq_some.mp hfind
  refine ⟨Q, hQ, hroom, ?_⟩
  unfold completePreload at hok
  dsimp only at hok
  split at hok
  · cases hok
  split at hok
  · cases hok
  split at hok
  case isTrue =>
    split at hok
    · cases hok
    · cases hok
      have hfinished := finishPartialSnoop_counted (h.weaken (some e.theSequenceNum))
      split
      · exact settleReply_counted D depth hQ hfinished e
      · exact settleReply_counted D depth hQ hfinished e
  case isFalse hunpredicted =>
    cases hok
    refine completeLSQ_counted D depth hQ h hfind _ fun _ => ?_
    by_contra hretired
    exact hunpredicted ⟨hmeets.resolve_left hretired, hretired⟩

theorem completeCAS_kept (D : Dependants) (depth : Nat) {Q : List QueuePlace} (hQ : Orderly Q)
    (hroom : lsqCount Q ≤ theROBSize.toNat) (h : Counted Q none m.toCoreImpl)
    {e : MemQueueEntry} (hmem : e ∈ m.theMemQueue.entries) {x : bits}
    (hok : m.completeCAS (D.surroundings depth) e x = .ok m') : Kept theROBSize m'.toCoreImpl := by
  refine ⟨Q, hQ, hroom, ?_⟩
  unfold completeCAS at hok
  dsimp only at hok
  split at hok
  case isTrue => cases hok
  case isFalse hcas =>
    rw [not_or, not_not] at hcas
    split at hok
    case isTrue => cases hok
    case isFalse hsnoop =>
      split at hok
      case isTrue => cases hok
      case isFalse =>
        cases hok
        have hatomic : e.isAtomic = true := by simp [MemQueueEntry.isAtomic, hcas.1]
        have hlsq := lsq_of_nonSpeculative h hmem hatomic hcas.2
        refine settleReply_counted D depth hQ ?_ e
        have hread := h.update (s := e.theSequenceNum)
          (f := fun y => { y with theExtendedValue := some (readByCAS e x) })
          (fun _ => .of_eq rfl rfl rfl rfl) ?_
        · split
          case isTrue =>
            -- The comparison failed, and the loads behind search again for the value read.
            refine updateDependantLoads_counted hQ (D.counts hQ none depth) ?_ (h.waits hmem hlsq)
            refine hread.update (f := fun y => { y with theValue := some x })
              (fun _ => .of_eq rfl rfl rfl rfl) fun y hy hs => ?_
            refine ⟨rfl, rfl, rfl, fun _ => rfl, fun hflag => ?_⟩
            obtain ⟨z, hz, rfl⟩ := List.mem_map.mp hy
            split at hs
            case isTrue hseq =>
              rw [if_pos hseq, memq_t.eq_of_seq hz hmem hseq] at hflag
              exact absurd hflag hsnoop
            case isFalse hne => exact absurd hs hne
          case isFalse => exact hread
        · intro y hy hs
          refine ⟨rfl, rfl, rfl, fun _ => rfl, fun hflag => ?_⟩
          rw [memq_t.eq_of_seq hy hmem hs] at hflag
          exact absurd hflag hsnoop

theorem completeRMW_kept (D : Dependants) (depth : Nat) {Q : List QueuePlace} (hQ : Orderly Q)
    (hroom : lsqCount Q ≤ theROBSize.toNat) (h : Counted Q none m.toCoreImpl)
    {e : MemQueueEntry} (hmem : e ∈ m.theMemQueue.entries) {x : bits}
    (hok : m.completeRMW (D.surroundings depth) e x = .ok m') : Kept theROBSize m'.toCoreImpl := by
  refine ⟨Q, hQ, hroom, ?_⟩
  unfold completeRMW at hok
  dsimp only at hok
  split at hok
  · cases hok
  split at hok
  case isTrue => cases hok
  case isFalse hsnoop =>
    cases hok
    refine settleReply_counted D depth hQ ?_ e
    refine h.update (f := fun y => { y with theExtendedValue := some x })
      (fun _ => .of_eq rfl rfl rfl rfl) fun y hy hs => ?_
    refine ⟨rfl, rfl, rfl, fun _ => rfl, fun hflag => ?_⟩
    rw [memq_t.eq_of_seq hy hmem hs] at hflag
    exact absurd hflag hsnoop

theorem completeStore_kept (D : Dependants) (depth : Nat) {Q : List QueuePlace} (hQ : Orderly Q)
    (hroom : lsqCount Q ≤ theROBSize.toNat) (h : Counted Q none m.toCoreImpl) {e : MemQueueEntry}
    (hok : m.completeStore (D.surroundings depth) e = .ok m') : Kept theROBSize m'.toCoreImpl := by
  have hsettled := settleReply_counted D depth hQ h e
  unfold completeStore at hok
  dsimp only at hok
  split at hok
  · cases hok
  split at hok
  · split at hok <;> cases hok
    exact ⟨Q, hQ, hroom, hsettled⟩
  · split at hok <;> cases hok
    exact eraseLSQ_kept (fun Q x hQ => D.counts hQ x depth) ⟨Q, hQ, hroom, hsettled⟩ _

theorem complete_kept (D : Dependants) (depth : Nat) (h : Kept theROBSize m.toCoreImpl) {s : Nat}
    {aReply : Reply} (hmeets : awaitsPreload m ⟨.complete s aReply, D, depth⟩ = true)
    (hok : m.complete (D.surroundings depth) s aReply = .ok m') : Kept theROBSize m'.toCoreImpl := by
  obtain ⟨Q, hQ, hroom, h⟩ := h
  obtain ⟨e, he, hok⟩ := Runs.bind_eq_ok.mp hok
  have hfind := entry_eq_ok he
  have hmem := (memq_t.find_eq_some.mp hfind).1
  split at hok
  case isTrue => cases hok
  case isFalse =>
    cases aReply with
    | kLoadReply v x =>
      dsimp only at hok
      split at hok <;> cases hok
      refine ⟨Q, hQ, hroom, completeLSQ_counted D depth hQ h hfind _ ?_⟩
      rintro ⟨v', hreply⟩
      cases hreply
    | kAtomicPreloadReply v =>
      refine completePreload_kept D depth hQ hroom h hfind ?_ hok
      simpa [awaitsPreload, hfind] using hmeets
    | kCASReply x => exact completeCAS_kept D depth hQ hroom h hmem hok
    | kRMWReply x => exact completeRMW_kept D depth hQ hroom h hmem hok
    | kStoreReply => exact completeStore_kept D depth hQ hroom h hok

/-! ## Retirement -/

/-- The head of the load-store queue is its oldest entry. -/
theorem front_of_lsqHead {Q : List QueuePlace} (h : Counted Q none m.toCoreImpl) {e : MemQueueEntry}
    (hhead : (m.theMemQueue.entries.find? fun e => e.theQueue == .kLSQ) = some e) :
    ∀ p ∈ Q, p.theSequenceNum < e.theSequenceNum → p.theQueue ≠ .kLSQ := by
  intro p hp hlt hlsq
  rw [← h.places] at hp
  obtain ⟨y, hy, rfl⟩ := List.mem_map.mp hp
  obtain ⟨-, before, after, hsplit, hfirst⟩ := List.find?_eq_some_iff_append.mp hhead
  have hordered := m.theMemQueue.ordered
  rw [hsplit] at hy hordered
  rw [List.pairwise_append] at hordered
  obtain hbefore | hafter := List.mem_append.mp hy
  · have hnot := hfirst y hbefore
    simp only [MemQueueEntry.place] at hlsq
    simp [hlsq] at hnot
  · simp only [MemQueueEntry.place] at hlt
    obtain rfl | hafter := List.mem_cons.mp hafter
    · omega
    · have hless := List.rel_of_pairwise_cons hordered.2.1 hafter
      omega

theorem moveTo_kept {Q : List QueuePlace} (hQ : Orderly Q) (hroom : lsqCount Q ≤ theROBSize.toNat)
    (h : Counted Q none m.toCoreImpl) {q : eQueue} (hq : q ≠ .kLSQ) {s : Nat}
    (hfront : ∀ p ∈ Q, p.theSequenceNum < s → p.theQueue ≠ .kLSQ)
    (hidle : ∀ e ∈ m.theMemQueue.entries, e.theSequenceNum = s → e.thePartialSnoop = false ∧
      (e.isAtomic = true → m.theSpeculativeOrder = true ∧ e.isAbnormalAccess = false)) :
    Kept theROBSize (m.moveTo s q).toCoreImpl := by
  obtain ⟨Q', hQ', hle, hmoved⟩ := h.move hQ hq hfront hidle (fun _ => .of_eq rfl rfl rfl rfl)
  exact ⟨Q', hQ', hle.trans hroom, hmoved⟩

/-- What waits for a partial snoop loads, and has no value unless its access is abnormal. -/
theorem idle_of_value {Q : List QueuePlace} (h : Counted Q none m.toCoreImpl) {e : MemQueueEntry}
    (hmem : e ∈ m.theMemQueue.entries)
    (hvalue : e.isLoad = true → e.loadValue ≠ none ∧ e.isAbnormalAccess = false) :
    e.thePartialSnoop = false := by
  by_contra hsnoop
  rw [Bool.not_eq_false] at hsnoop
  obtain ⟨-, hload, hwaiting⟩ := h.waiting e hmem hsnoop
  obtain ⟨hsome, hnormal⟩ := hvalue hload
  obtain hnone | habnormal := hwaiting (by simp)
  · exact hsome hnone
  · rw [hnormal] at habnormal
    cases habnormal

theorem retireAtomic_kept (D : Dependants) (depth : Nat) {Q : List QueuePlace} (hQ : Orderly Q)
    (hroom : lsqCount Q ≤ theROBSize.toNat) (h : Counted Q none m.toCoreImpl) {e : MemQueueEntry}
    (hhead : (m.theMemQueue.entries.find? fun e => e.theQueue == .kLSQ) = some e)
    (hatomic : e.isAtomic = true) (hok : m.retireAtomic (D.surroundings depth) e = .ok m') :
    Kept theROBSize m'.toCoreImpl := by
  have hmem := List.mem_of_find?_eq_some hhead
  unfold retireAtomic at hok
  dsimp only at hok
  split at hok
  case isTrue => cases hok
  case isFalse hvalue =>
    split at hok
    case isTrue =>
      cases hok
      exact eraseLSQ_kept (fun Q x hQ => D.counts hQ x depth) ⟨Q, hQ, hroom, h⟩ _
    case isFalse =>
      split at hok
      case isTrue => cases hok
      case isFalse horder =>
        split at hok
        case isTrue => cases hok
        case isFalse =>
          split at hok
          case isTrue => cases hok
          case isFalse hnormal =>
            cases hok
            rw [Bool.not_eq_false] at horder
            rw [Bool.not_eq_true] at hnormal
            have hidle : e.thePartialSnoop = false := by
              refine idle_of_value h hmem fun _ => ⟨fun hnone => hvalue (.inl ?_), hnormal⟩
              rwa [MemQueueEntry.loadValue, if_pos hatomic] at hnone
            refine moveTo_kept hQ hroom (h.setIssued _ false) (by decide)
              (front_of_lsqHead h hhead) ?_
            intro y hy hs
            obtain ⟨x, hx, rfl⟩ := List.mem_map.mp hy
            split at hs
            case isTrue hseq =>
              obtain rfl := memq_t.eq_of_seq hx hmem hseq
              rw [if_pos rfl]
              exact ⟨hidle, fun _ => ⟨horder, hnormal⟩⟩
            case isFalse hne => exact absurd hs hne

theorem retireMem_kept (D : Dependants) (depth : Nat) (h : Kept theROBSize m.toCoreImpl)
    {speculate : Bool} (hok : m.retireMem (D.surroundings depth) speculate = .ok m') :
    Kept theROBSize m'.toCoreImpl := by
  have herase := fun s => eraseLSQ_kept (fun Q x hQ => D.counts hQ x depth) h s
  obtain ⟨Q, hQ, hroom, h⟩ := h
  unfold retireMem at hok
  split at hok
  case h_1 => cases hok
  case h_2 e hhead =>
    have hmem := List.mem_of_find?_eq_some hhead
    have hmove : e.isAtomic = false →
        (e.isLoad = true → e.loadValue ≠ none ∧ e.isAbnormalAccess = false) →
          Kept theROBSize (m.moveTo e.theSequenceNum .kSSB).toCoreImpl := by
      intro hplain hvalue
      refine moveTo_kept hQ hroom h (by decide) (front_of_lsqHead h hhead) fun y hy hs => ?_
      rw [memq_t.eq_of_seq hy hmem hs]
      exact ⟨idle_of_value h hmem hvalue, fun hatomic => by rw [hplain] at hatomic; cases hatomic⟩
    dsimp only at hok
    split at hok
    case h_1 | h_2 =>
      refine retireAtomic_kept D depth hQ hroom h hhead ?_ hok
      simp [MemQueueEntry.isAtomic, *]
    case h_3 hop =>
      have hplain : e.isAtomic = false := by simp [MemQueueEntry.isAtomic, hop]
      unfold retireLoad at hok
      dsimp only at hok
      split at hok
      case isTrue hspeculate =>
        split at hok
        case isTrue => cases hok
        case isFalse hvalue =>
          cases hok
          rw [Bool.and_eq_true, Bool.not_eq_true'] at hspeculate
          refine hmove hplain fun _ => ⟨?_, hspeculate.2⟩
          rwa [MemQueueEntry.loadValue, hplain]
      case isFalse =>
        cases hok
        exact herase _
    case h_4 hop =>
      cases hok
      split
      · exact herase _
      · exact hmove (by simp [MemQueueEntry.isAtomic, hop]) (by simp [MemQueueEntry.isLoad, hop])
    case h_5 hop =>
      cases hok
      split
      · exact hmove (by simp [MemQueueEntry.isAtomic, hop]) (by simp [MemQueueEntry.isLoad, hop])
      · exact herase _
    case h_6 => cases hok

/-- What is older than a retired entry has retired. -/
theorem front_of_retired {Q : List QueuePlace} (hQ : Orderly Q) (h : Counted Q none m.toCoreImpl)
    {e : MemQueueEntry} (hmem : e ∈ m.theMemQueue.entries) (hretired : e.theQueue ≠ .kLSQ) :
    ∀ p ∈ Q, p.theSequenceNum < e.theSequenceNum → p.theQueue ≠ .kLSQ :=
  fun p hp hlt hlsq => hretired (hQ.younger ⟨p, hp, rfl, hlsq⟩ (h.place_mem hmem) hlt)

theorem commitStore_kept (h : Kept theROBSize m.toCoreImpl) {s : Nat}
    (hok : m.commitStore s = .ok m') : Kept theROBSize m'.toCoreImpl := by
  unfold commitStore at hok
  split at hok
  case h_1 =>
    cases hok
    exact h
  case h_2 e hfind =>
    obtain ⟨hmem, rfl⟩ := memq_t.find_eq_some.mp hfind
    obtain ⟨Q, hQ, hroom, h⟩ := h
    split at hok
    case isTrue => cases hok
    case isFalse hop =>
      split at hok
      case isTrue => cases hok
      case isFalse hssb =>
        repeat' split at hok
        all_goals cases hok
        rw [not_not] at hop hssb
        have hretired : e.theQueue ≠ .kLSQ := by simp [hssb]
        refine moveTo_kept hQ hroom h (by decide) (front_of_retired hQ h hmem hretired) ?_
        intro y hy hs
        rw [memq_t.eq_of_seq hy hmem hs]
        refine ⟨?_, by simp [MemQueueEntry.isAtomic, hop]⟩
        refine Bool.not_eq_true _ ▸ fun hsnoop => hretired (h.waiting e hmem hsnoop).1

theorem resolveCheckpoint_kept (D : Dependants) (depth : Nat) (h : Kept theROBSize m.toCoreImpl) :
    Kept theROBSize (m.resolveCheckpoint (D.surroundings depth)).toCoreImpl := by
  have herase := fun s => eraseLSQ_kept (fun Q x hQ => D.counts hQ x depth) h s
  unfold resolveCheckpoint
  split
  case h_1 => exact h
  case h_2 e rest hentries =>
    dsimp only
    split
    case isFalse => exact h
    case isTrue hssb =>
      split
      case isTrue =>
        obtain ⟨Q, hQ, hroom, h⟩ := h
        have hmem : e ∈ m.theMemQueue.entries := hentries ▸ List.mem_cons_self
        have hretired : e.theQueue ≠ .kLSQ := by simp [hssb.1]
        refine moveTo_kept hQ hroom h (by decide) (front_of_retired hQ h hmem hretired) ?_
        intro y hy hs
        rw [memq_t.eq_of_seq hy hmem hs]
        refine ⟨?_, h.retired e hmem hretired⟩
        refine Bool.not_eq_true _ ▸ fun hsnoop => hretired (h.waiting e hmem hsnoop).1
      case isFalse =>
        split
        · exact herase _
        · exact h

theorem step_kept (h : Kept theROBSize m.toCoreImpl) {call : Call}
    (hmeets : awaitsPreload m call = true) (hok : step theROBSize m call = .ok m') :
    Kept theROBSize m'.toCoreImpl := by
  obtain ⟨event, D, depth⟩ := call
  cases event
  case insertLSQ => exact insertLSQ_kept h hok
  case requestPort => exact requestPort_kept h hok
  case issue => exact issue_kept h hok
  case issuePartialSnoop => exact issuePartialSnoop_kept h hok
  case issueAtomic => exact issueAtomic_kept D depth h hok
  case valuePredictAtomic =>
    cases hok
    exact valuePredictAtomic_kept D depth h _
  case checkExtraLatencyTimeout =>
    cases hok
    exact checkExtraLatencyTimeout_kept D depth h
  case complete => exact complete_kept D depth h hmeets hok
  case retireMem => exact retireMem_kept D depth h hok
  case commitStore => exact commitStore_kept h hok
  case resolveCheckpoint =>
    cases hok
    exact resolveCheckpoint_kept D depth h
  case eraseLSQ =>
    cases hok
    exact eraseLSQ_kept (fun Q x hQ => D.counts hQ x depth) h _
  case reset =>
    cases hok
    exact clearSSB_kept (resetARM_kept (cleanMSHRS_kept h _))
  case doAbortSpeculation =>
    cases hok
    exact clearSSBFrom_kept (cleanMSHRS_kept (resetARM_kept h) _) _
  case resolveVAddr s known => exact execute_kept D depth h (.resolveVAddr s known) hok
  case resolvePAddr s anAddr => exact execute_kept D depth h (.resolvePAddr s anAddr) hok
  case pageFault s => exact execute_kept D depth h (.pageFault s) hok
  case updateStoreValue s aValue => exact execute_kept D depth h (.updateStoreValue s aValue) hok
  case updateCASValue s aValue aCompareValue =>
    exact execute_kept D depth h (.updateCASValue s aValue aCompareValue) hok
  case annulStoreValue s => exact execute_kept D depth h (.annulStoreValue s) hok
  case setLoadValue s aValue => exact execute_kept D depth h (.setLoadValue s aValue) hok

/-! ## Runs -/

theorem start_kept (theROBSize : BitVec 32) (theSpeculativeOrder : Bool) :
    Kept theROBSize (start theSpeculativeOrder).toCoreImpl := by
  refine ⟨[], .nil, Nat.zero_le _, rfl, rfl, ?_, ?_⟩
  · intro e he
    cases he
  · intro e he
    cases he

/-- The counter of partial snoops is exact in every run in which no atomic retires ahead of the
    reply to its preload, unless its value was predicted. -/
theorem partialSnoops_counted (theROBSize : BitVec 32) (theSpeculativeOrder : Bool) {m : MemoryUnit}
    (h : Reaches (step theROBSize) (fun m call => awaitsPreload m call = true)
      (start theSpeculativeOrder) m) : PartialSnoopsCounted m := by
  have hkept := h.invariant (I := fun m => Kept theROBSize m.toCoreImpl)
    (start_kept theROBSize theSpeculativeOrder) fun _ _ _ h => step_kept h
  exact hkept.counted

/-- A load that a store covers in part. -/
def partlyCovered : List Call :=
  [.insertLSQ .kStore .kDoubleWord false, .insertLSQ .kLoad .kDoubleWord true,
    .resolveVAddr 1 true, .resolvePAddr 1 0x1000#64, .updateStoreValue 1 7#128,
    .resolveVAddr 2 true, .resolvePAddr 2 0x1004#64].map fun event => ⟨event, .none, 0⟩

theorem partialSnoops_counted_partlyCovered :
    ∃ m, m.thePartialSnoopersOutstanding = 1#32 ∧ PartialSnoopsCounted m := by
  have hrun : (runWhile (step 64#32) awaitsPreload (start true) partlyCovered).any
      (fun m => m.thePartialSnoopersOutstanding == 1#32) = true := by decide +kernel
  obtain ⟨m, hrun, hone⟩ := exists_reaches (fun _ _ h => h) hrun
  exact ⟨m, eq_of_beq hone, partialSnoops_counted 64#32 true hrun⟩

/-- A compare-and-swap finds its value in an older store while its preload is still out, and
    retires. When the reply comes and the comparison fails, the load behind it, which has retired
    as well, has to search again. Speculation is then aborted behind that load. -/
def overtakenPreload : List Call :=
  [.insertLSQ .kStore .kDoubleWord false, .insertLSQ .kCAS .kDoubleWord true,
    .insertLSQ .kLoad .kDoubleWord true, .insertLSQ .kLoad .kDoubleWord true,
    .resolveVAddr 1 true, .resolvePAddr 1 0x1000#64, .updateStoreValue 1 7#128,
    .resolveVAddr 2 true, .resolvePAddr 2 0x1000#64, .issue 2, .updateCASValue 2 9#128 5#128,
    .resolveVAddr 3 true, .resolvePAddr 3 0x1004#64, .retireMem false, .retireMem false,
    .issuePartialSnoop, .issue 3, .complete 3 (.kLoadReply 0#128 0#128), .retireMem true,
    .resolveVAddr 4 true, .resolvePAddr 4 0x2000#64, .issue 4,
    .complete 4 (.kLoadReply 0#128 0#128), .retireMem true,
    .complete 2 (.kAtomicPreloadReply 7#128), .doAbortSpeculation 4 []].map
      fun event => ⟨event, .none, 0⟩

/-- The retired load waits for a partial snoop that is not counted. -/
theorem partialSnoops_miscounted_overtakenPreload :
    ¬ ∀ (theROBSize : BitVec 32) (theSpeculativeOrder : Bool) (m : MemoryUnit),
      Reachable theROBSize theSpeculativeOrder m → PartialSnoopsCounted m := by
  intro hcounted
  have hrun : (runWhile (step 64#32) (fun _ _ => true) (start true) overtakenPreload).any
      (fun m => m.thePartialSnoopersOutstanding == 0#32 && m.theMemQueue.snoopers == 1) = true := by
    decide +kernel
  obtain ⟨m, hrun, hend⟩ : ∃ m, Reachable 64#32 true m ∧ _ = true :=
    exists_reaches (fun _ _ _ => trivial) hrun
  simp only [Bool.and_eq_true, beq_iff_eq] at hend
  have hexact := (hcounted 64#32 true m hrun).exact
  rw [hend.1, hend.2] at hexact
  cases hexact

end Functions

end MemoryUnit

end nuArchARM
