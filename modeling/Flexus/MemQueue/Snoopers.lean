import Flexus.MemQueue.Updates

/-!
# Counting partial snoops

Every function of the memory unit keeps the count of the entries that wait for a partial snoop,
as long as it starts at an entry that is still in the load-store queue.
-/

namespace nuArchARM

/-- The entries that wait until older stores can be applied to a value from memory. -/
def memq_t.snoopers (q : memq_t) : Nat := q.entries.countP (·.thePartialSnoop)

/-- What never changes while an entry is executed: the queue it is in, and whether it loads. -/
structure QueuePlace where
  theSequenceNum : Nat
  theQueue : eQueue
  isLoad : Bool
  deriving DecidableEq, Repr

def MemQueueEntry.place (e : MemQueueEntry) : QueuePlace where
  theSequenceNum := e.theSequenceNum
  theQueue := e.theQueue
  isLoad := e.isLoad

def memq_t.places (q : memq_t) : List QueuePlace := q.entries.map MemQueueEntry.place

/-- Entries leave the load-store queue in program order. -/
def Orderly (Q : List QueuePlace) : Prop :=
  Q.Pairwise fun a b => a.theSequenceNum < b.theSequenceNum ∧ (a.theQueue = .kLSQ → b.theQueue = .kLSQ)

/-- The entry is in the load-store queue: its instruction has not retired. -/
def Waits (Q : List QueuePlace) (s : Nat) : Prop :=
  ∃ p ∈ Q, p.theSequenceNum = s ∧ p.theQueue = .kLSQ

/-- What is behind an entry of the load-store queue is in that queue as well. -/
theorem Orderly.younger {Q : List QueuePlace} (hQ : Orderly Q) {s : Nat} {r : QueuePlace} (hs : Waits Q s)
    (hr : r ∈ Q) (hlt : s < r.theSequenceNum) : r.theQueue = .kLSQ := by
  obtain ⟨p, hp, rfl, hlsq⟩ := hs
  obtain ⟨before, after, rfl⟩ := List.append_of_mem hp
  rw [Orderly, List.pairwise_append] at hQ
  obtain ⟨-, htail, hacross⟩ := hQ
  rw [List.mem_append, List.mem_cons] at hr
  obtain hbefore | rfl | hafter := hr
  · have hless := (hacross _ hbefore _ List.mem_cons_self).1
    omega
  · exact hlsq
  · exact (List.rel_of_pairwise_cons htail hafter).2 hlsq

/-- The count of partial snoops is exact. Only loads of the load-store queue wait for one and,
    unless the access is abnormal, they have no value; the entry `x` may just be getting one.
    Atomics retire speculatively. -/
structure Counted (Q : List QueuePlace) (x : Option Nat) (c : CoreImpl) : Prop where
  places : c.theMemQueue.places = Q
  count : c.thePartialSnoopersOutstanding = BitVec.ofNat 32 c.theMemQueue.snoopers
  waiting : ∀ e ∈ c.theMemQueue.entries, e.thePartialSnoop = true →
    e.theQueue = .kLSQ ∧ e.isLoad = true ∧
      (some e.theSequenceNum ≠ x → e.loadValue = none ∨ e.isAbnormalAccess = true)
  retired : ∀ e ∈ c.theMemQueue.entries, e.theQueue ≠ .kLSQ → e.isAtomic = true →
    c.theSpeculativeOrder = true ∧ e.isAbnormalAccess = false

/-- A change of an entry that leaves what is counted as it is. -/
structure Undisturbed (x : Option Nat) (e e' : MemQueueEntry) : Prop where
  snoop : e'.thePartialSnoop = e.thePartialSnoop
  queue : e'.theQueue = e.theQueue
  op : e'.theOperation = e.theOperation
  abnormal : e.theQueue ≠ .kLSQ → e'.isAbnormalAccess = e.isAbnormalAccess
  value : e.thePartialSnoop = true → e.isLoad = true → some e.theSequenceNum ≠ x →
    e.loadValue = none ∨ e.isAbnormalAccess = true →
      e'.loadValue = none ∨ e'.isAbnormalAccess = true

theorem Undisturbed.of_eq {x : Option Nat} {e e' : MemQueueEntry}
    (hsnoop : e'.thePartialSnoop = e.thePartialSnoop) (hqueue : e'.theQueue = e.theQueue)
    (hop : e'.theOperation = e.theOperation) (habnormal : e'.isAbnormalAccess = e.isAbnormalAccess)
    (hvalue : e'.loadValue = none ∨ e'.loadValue = e.loadValue) : Undisturbed x e e' := by
  refine ⟨hsnoop, hqueue, hop, fun _ => habnormal, fun _ _ _ hwaiting => ?_⟩
  obtain hnone | hsame := hvalue
  · exact .inl hnone
  · rwa [hsame, habnormal]

theorem isLoad_congr {e e' : MemQueueEntry} (hop : e'.theOperation = e.theOperation) :
    e'.isLoad = e.isLoad := by
  rw [MemQueueEntry.isLoad, MemQueueEntry.isLoad, hop]

theorem isAtomic_congr {e e' : MemQueueEntry} (hop : e'.theOperation = e.theOperation) :
    e'.isAtomic = e.isAtomic := by
  rw [MemQueueEntry.isAtomic, MemQueueEntry.isAtomic, hop]

/-- With one entry of a queue changed, the count changes by what changes there. -/
theorem countP_map_at {l : List MemQueueEntry}
    (hordered : l.Pairwise fun a b => a.theSequenceNum < b.theSequenceNum) {e : MemQueueEntry}
    (he : e ∈ l) (f : MemQueueEntry → MemQueueEntry) (p : MemQueueEntry → Bool) :
    (l.map fun x => if x.theSequenceNum = e.theSequenceNum then f x else x).countP p + (p e).toNat =
      l.countP p + (p (f e)).toNat := by
  obtain ⟨before, after, rfl⟩ := List.append_of_mem he
  rw [List.pairwise_append] at hordered
  obtain ⟨-, htail, hacross⟩ := hordered
  have hbefore : before.map (fun x => if x.theSequenceNum = e.theSequenceNum then f x else x) =
      before := by
    refine (List.map_congr_left ?_).trans (List.map_id before)
    intro x hx
    exact if_neg (hacross x hx e List.mem_cons_self).ne
  have hafter : after.map (fun x => if x.theSequenceNum = e.theSequenceNum then f x else x) =
      after := by
    refine (List.map_congr_left ?_).trans (List.map_id after)
    intro x hx
    exact if_neg (List.rel_of_pairwise_cons htail hx).ne'
  rw [List.map_append, List.map_cons, hbefore, hafter, if_pos rfl]
  simp only [List.countP_append, List.countP_cons]
  cases p e <;> cases p (f e) <;> simp <;> omega

namespace Counted

variable {Q : List QueuePlace} {x : Option Nat} {c : CoreImpl}

/-- The entries are changed in place without disturbing the count. -/
theorem map {c' : CoreImpl} (h : Counted Q x c) (g : MemQueueEntry → MemQueueEntry)
    (hentries : c'.theMemQueue.entries = c.theMemQueue.entries.map g)
    (hcount : c'.thePartialSnoopersOutstanding = c.thePartialSnoopersOutstanding)
    (horder : c'.theSpeculativeOrder = c.theSpeculativeOrder)
    (hseq : ∀ e, (g e).theSequenceNum = e.theSequenceNum)
    (hkeep : ∀ e ∈ c.theMemQueue.entries, Undisturbed x e (g e)) : Counted Q x c' := by
  refine ⟨?_, ?_, ?_, ?_⟩
  · rw [← h.places, memq_t.places, memq_t.places, hentries, List.map_map]
    refine List.map_congr_left ?_
    intro e he
    rw [Function.comp_apply, MemQueueEntry.place, MemQueueEntry.place, hseq e, (hkeep e he).queue,
      isLoad_congr (hkeep e he).op]
  · rw [hcount, h.count, memq_t.snoopers, memq_t.snoopers, hentries, List.countP_map]
    congr 1
    refine List.countP_congr ?_
    intro e he
    rw [Function.comp_apply, (hkeep e he).snoop]
  · intro e' he' hsnoop
    rw [hentries] at he'
    obtain ⟨e, he, rfl⟩ := List.mem_map.mp he'
    have hkept := hkeep e he
    rw [hkept.snoop] at hsnoop
    obtain ⟨hqueue, hload, hvalue⟩ := h.waiting e he hsnoop
    refine ⟨hkept.queue.trans hqueue, (isLoad_congr hkept.op).trans hload, ?_⟩
    intro hne
    rw [hseq e] at hne
    exact hkept.value hsnoop hload hne (hvalue hne)
  · intro e' he' hqueue hatomic
    rw [hentries] at he'
    obtain ⟨e, he, rfl⟩ := List.mem_map.mp he'
    have hkept := hkeep e he
    rw [hkept.queue] at hqueue
    rw [horder, hkept.abnormal hqueue]
    exact h.retired e he hqueue (isAtomic_congr hkept.op ▸ hatomic)

/-- One entry is changed in place without disturbing the count. -/
theorem update {s : Nat} {f : MemQueueEntry → MemQueueEntry} (h : Counted Q x c)
    (hf : ∀ e : MemQueueEntry, e.SameKey (f e))
    (hkeep : ∀ e ∈ c.theMemQueue.entries, e.theSequenceNum = s → Undisturbed x e (f e)) :
    Counted Q x (c.update s f hf) := by
  refine h.map (fun e => if e.theSequenceNum = s then f e else e) rfl rfl rfl ?_ ?_
  · intro e
    split
    · exact (hf e).seq
    · rfl
  · intro e he
    split
    case isTrue hs => exact hkeep e he hs
    case isFalse => exact .of_eq rfl rfl rfl rfl (.inr rfl)

/-- An entry starts or stops to wait for a partial snoop, and is counted for it. -/
theorem mark {e : MemQueueEntry} {f : MemQueueEntry → MemQueueEntry}
    {hf : ∀ e : MemQueueEntry, e.SameKey (f e)} {n : BitVec 32} {k : Nat} (h : Counted Q x c)
    (he : e ∈ c.theMemQueue.entries) (hqueue : (f e).theQueue = e.theQueue)
    (hop : (f e).theOperation = e.theOperation)
    (habnormal : (f e).isAbnormalAccess = e.isAbnormalAccess)
    (hwaiting : (f e).thePartialSnoop = true → e.theQueue = .kLSQ ∧ e.isLoad = true ∧
      (f e).loadValue = none)
    (hcount : n + BitVec.ofNat 32 e.thePartialSnoop.toNat =
      c.thePartialSnoopersOutstanding + BitVec.ofNat 32 (f e).thePartialSnoop.toNat) :
    Counted Q x { c.update e.theSequenceNum f hf with
      thePartialSnoopersOutstanding := n
      thePartialSnoopLoads := k } := by
  have hat : ∀ y ∈ c.theMemQueue.entries, y.theSequenceNum = e.theSequenceNum → y = e :=
    fun y hy hseq => memq_t.eq_of_seq hy he hseq
  refine ⟨?_, ?_, ?_, ?_⟩
  · rw [← h.places]
    change List.map _ (List.map _ _) = _
    rw [List.map_map]
    refine List.map_congr_left ?_
    intro y hy
    rw [Function.comp_apply]
    split
    case isTrue hs =>
      rw [hat y hy hs, MemQueueEntry.place, MemQueueEntry.place, (hf e).seq, hqueue, isLoad_congr hop]
    case isFalse => rfl
  · have hchange := countP_map_at c.theMemQueue.ordered he f (·.thePartialSnoop)
    have hold := h.count
    change n = BitVec.ofNat 32 (List.countP _ (List.map _ _))
    rw [memq_t.snoopers] at hold
    have hsum := congrArg (BitVec.ofNat 32) hchange
    rw [BitVec.ofNat_add, BitVec.ofNat_add, ← hold, ← hcount] at hsum
    exact ((BitVec.add_left_inj _).mp hsum).symm
  · intro e' he' hsnoop
    obtain ⟨y, hy, rfl⟩ := List.mem_map.mp he'
    by_cases hs : y.theSequenceNum = e.theSequenceNum
    · rw [if_pos hs, hat y hy hs] at hsnoop ⊢
      obtain ⟨hlsq, hload, hnone⟩ := hwaiting hsnoop
      exact ⟨hqueue.trans hlsq, (isLoad_congr hop).trans hload, fun _ => .inl hnone⟩
    · rw [if_neg hs] at hsnoop ⊢
      exact h.waiting y hy hsnoop
  · intro e' he' hretired hatomic
    obtain ⟨y, hy, rfl⟩ := List.mem_map.mp he'
    by_cases hs : y.theSequenceNum = e.theSequenceNum
    · rw [if_pos hs, hat y hy hs] at hretired hatomic ⊢
      rw [habnormal]
      exact h.retired e he (hqueue ▸ hretired) (isAtomic_congr hop ▸ hatomic)
    · rw [if_neg hs] at hretired hatomic ⊢
      exact h.retired y hy hretired hatomic

/-- An entry of the queue is in the place that is recorded for it. -/
theorem place_mem (h : Counted Q x c) {e : MemQueueEntry} (he : e ∈ c.theMemQueue.entries) :
    e.place ∈ Q := by
  rw [← h.places]
  exact List.mem_map_of_mem he

theorem place_eq (h : Counted Q x c) {e : MemQueueEntry} (he : e ∈ c.theMemQueue.entries) {p : QueuePlace}
    (hp : p ∈ Q) (hseq : p.theSequenceNum = e.theSequenceNum) : e.place = p := by
  rw [← h.places] at hp
  obtain ⟨y, hy, rfl⟩ := List.mem_map.mp hp
  rw [memq_t.eq_of_seq hy he hseq]

theorem setIssued (h : Counted Q x c) (s : Nat) (b : Bool) : Counted Q x (c.setIssued s b) :=
  h.update _ fun _ _ _ => .of_eq rfl rfl rfl rfl (.inr rfl)

end Counted

theorem setLoadValue_spec (e : MemQueueEntry) (v : Option bits) :
    (e.setLoadValue v).theQueue = e.theQueue ∧ (e.setLoadValue v).theOperation = e.theOperation ∧
      (e.setLoadValue v).isAbnormalAccess = e.isAbnormalAccess ∧
      (e.setLoadValue v).thePartialSnoop = e.thePartialSnoop := by
  unfold MemQueueEntry.setLoadValue
  split <;> exact ⟨rfl, rfl, rfl, rfl⟩

theorem undisturbed_dropped (x : Option Nat) (e : MemQueueEntry) :
    Undisturbed x e (e.setLoadValue none) := by
  obtain ⟨hqueue, hop, habnormal, hsnoop⟩ := setLoadValue_spec e none
  exact .of_eq hsnoop hqueue hop habnormal (.inl (e.loadValue_setLoadValue none))

section Functions

/-! The surroundings are only known to keep the count themselves. -/

/-- What the surroundings do keeps the count. -/
structure Surroundings.Counts (S : Surroundings) (Q : List QueuePlace) (x : Option Nat) : Prop where
  squash : ∀ s c, Counted Q x c → Counted Q x (S.squash s c)
  satisfy : ∀ s c, Counted Q x c → Counted Q x (S.satisfy s c)
  wakeBlocked : ∀ s c, Counted Q x c → Counted Q x (S.wakeBlocked s c)

variable {Q : List QueuePlace} {x : Option Nat} {S : Surroundings} {c : CoreImpl} {s : Nat}

/-- The load half of an atomic has a value slot of its own. -/
theorem loadValue_congr {e e' : MemQueueEntry} (hop : e'.theOperation = e.theOperation)
    (hextended : e'.theExtendedValue = e.theExtendedValue) (hatomic : e.isAtomic = true) :
    e'.loadValue = e.loadValue := by
  rw [MemQueueEntry.loadValue, MemQueueEntry.loadValue, isAtomic_congr hop, if_pos hatomic,
    if_pos hatomic, hextended]

/-- A load that is only partly covered is left without a value. -/
theorem forwardEntry_snoop (aStore aLoad : MemQueueEntry) :
    (forwardEntry aStore aLoad).thePartialSnoop = !covers aStore aLoad ∧
      ((forwardEntry aStore aLoad).thePartialSnoop = true →
        (forwardEntry aStore aLoad).loadValue = none) := by
  unfold forwardEntry
  split
  case isTrue hcovers => simp [hcovers]
  case isFalse hcovers =>
    refine ⟨by simp [hcovers], fun _ => ?_⟩
    exact aLoad.loadValue_setLoadValue none

/-- `forwardValue` changes the load and, by what it changes of its flag, the count. -/
theorem forwardValue_eq (c : CoreImpl) (aStore aLoad : MemQueueEntry) :
    ∃ n k, forwardValue c aStore aLoad = { c.update aLoad.theSequenceNum (forwardEntry aStore)
        (forwardEntry_sameKey aStore) with
        thePartialSnoopersOutstanding := n
        thePartialSnoopLoads := k } ∧
      n + BitVec.ofNat 32 aLoad.thePartialSnoop.toNat =
        c.thePartialSnoopersOutstanding +
          BitVec.ofNat 32 (forwardEntry aStore aLoad).thePartialSnoop.toNat := by
  rw [(forwardEntry_snoop aStore aLoad).1]
  unfold forwardValue
  cases covers aStore aLoad <;> cases aLoad.thePartialSnoop
  · exact ⟨c.thePartialSnoopersOutstanding + 1, c.thePartialSnoopLoads + 1, rfl, by simp⟩
  · exact ⟨c.thePartialSnoopersOutstanding, c.thePartialSnoopLoads, rfl, rfl⟩
  · exact ⟨c.thePartialSnoopersOutstanding, c.thePartialSnoopLoads, rfl, rfl⟩
  · exact ⟨c.thePartialSnoopersOutstanding - 1, c.thePartialSnoopLoads, rfl,
      by simp [BitVec.sub_add_cancel]⟩

theorem forwardValue_counted (h : Counted Q x c) (aStore : MemQueueEntry) {aLoad : MemQueueEntry}
    (hmem : aLoad ∈ c.theMemQueue.entries) (hload : ⟨aLoad.theSequenceNum, .kLSQ, true⟩ ∈ Q) :
    Counted Q x (forwardValue c aStore aLoad) := by
  obtain ⟨n, k, heq, hcount⟩ := forwardValue_eq c aStore aLoad
  have hkeep : (forwardEntry aStore aLoad).theQueue = aLoad.theQueue ∧
      (forwardEntry aStore aLoad).theOperation = aLoad.theOperation ∧
      (forwardEntry aStore aLoad).isAbnormalAccess = aLoad.isAbnormalAccess := by
    unfold forwardEntry
    split
    · obtain ⟨hqueue, hop, habnormal, -⟩ := setLoadValue_spec aLoad (forwarded aStore aLoad)
      exact ⟨hqueue, hop, habnormal⟩
    · obtain ⟨hqueue, hop, habnormal, -⟩ := setLoadValue_spec aLoad none
      exact ⟨hqueue, hop, habnormal⟩
  obtain ⟨-, hqueue, hisLoad⟩ := QueuePlace.mk.inj (h.place_eq hmem hload rfl)
  rw [heq]
  refine h.mark hmem hkeep.1 hkeep.2.1 hkeep.2.2 ?_ hcount
  intro hsnoop
  exact ⟨hqueue, hisLoad, (forwardEntry_snoop aStore aLoad).2 hsnoop⟩

theorem snoopStores_counted (h : Counted Q x c) (hload : ⟨s, .kLSQ, true⟩ ∈ Q) (cached : SnoopState) :
    Counted Q x (snoopStores c s cached).1 := by
  unfold snoopStores
  split
  case h_1 => exact h
  case h_2 aLoad hfind =>
    split
    case isTrue => exact h
    case isFalse =>
      have hdropped : Counted Q x (c.update s (fun e => e.setLoadValue none)
          unloaded_sameKey) := h.update _ fun e _ _ => undisturbed_dropped x e
      have hfound : (c.update s (fun e => e.setLoadValue none)
          unloaded_sameKey).theMemQueue.find s = some (aLoad.setLoadValue none) := by
        rw [find_update_self, hfind, Option.map_some]
      obtain ⟨hmem, hseq⟩ := memq_t.find_eq_some.mp hfound
      have hforward := fun aStore => forwardValue_counted hdropped aStore hmem (hseq ▸ hload)
      dsimp only
      unfold snoopQueue
      repeat' split
      all_goals first
        | exact hdropped
        | exact hforward _

theorem breakMSHRLink_counted (hS : S.Counts Q x) (h : Counted Q x c) (e : MemQueueEntry) :
    Counted Q x (breakMSHRLink S c e) := by
  have hclear := h.setIssued e.theSequenceNum false
  unfold breakMSHRLink
  dsimp only
  split
  case isFalse => exact hclear
  case isTrue =>
    exact (hS.wakeBlocked _ _ hclear).update _ fun _ _ _ => .of_eq rfl rfl rfl rfl (.inr rfl)

theorem requestPort_counted (h : Counted Q x c) (e : MemQueueEntry) : Counted Q x (requestPort c e) := by
  unfold requestPort
  split
  · exact h
  · exact h.setIssued _ true

theorem leaveStatus_counted (hS : S.Counts Q x) (h : Counted Q x c) (e : MemQueueEntry) :
    Counted Q x (leaveStatus S c e).1 := by
  have hclear := h.setIssued e.theSequenceNum false
  unfold leaveStatus
  repeat' split
  all_goals first
    | exact h
    | exact hclear
    | exact breakMSHRLink_counted hS h e

theorem settleLoad_counted (hS : S.Counts Q x) (h : Counted Q x c) (previous_value : Option bits) :
    Counted Q x (settleLoad S c s previous_value) := by
  have hmaybe : ∀ c, Counted Q x c →
      Counted Q x (if previous_value.isSome then S.squash s c else c) := by
    intro c hc
    split
    · exact hS.squash s c hc
    · exact hc
  have hclear := h.setIssued s false
  unfold settleLoad
  split
  case h_1 => exact h
  case h_2 e hfind =>
    split
    case isTrue => exact h
    case isFalse =>
      split
      case h_1 | h_2 =>
        split
        case isTrue => exact h
        case isFalse =>
          dsimp only
          split
          · exact hS.satisfy s _ (hmaybe _ hclear)
          · exact hmaybe _ hclear
      case h_3 => exact requestPort_counted (hmaybe c h) e
      case h_4 => exact hmaybe c h
      case h_5 => exact h

/-- A load of the load-store queue keeps the count, whatever it finds. -/
theorem doLoad_counted (hS : S.Counts Q x) (h : Counted Q x c) (hload : ⟨s, .kLSQ, true⟩ ∈ Q)
    (cached : SnoopState) : Counted Q x (doLoad S c s cached).1 := by
  have hmaybe : ∀ (b : Bool) c, Counted Q x c → Counted Q x (if b then S.squash s c else c) := by
    intro b c hc
    split
    · exact hS.squash s c hc
    · exact hc
  have hdrop : ∀ c, Counted Q x c → Counted Q x (c.dropValue s) := by
    intro c hc
    refine hc.update _ fun e _ _ => ?_
    have hdropped := undisturbed_dropped x e
    exact ⟨hdropped.snoop, hdropped.queue, hdropped.op, hdropped.abnormal, hdropped.value⟩
  unfold doLoad
  split
  case h_1 => exact h
  case h_2 e hfind =>
    have hleft := leaveStatus_counted hS h e
    split
    case isTrue => exact hdrop _ (hmaybe _ c h)
    split
    case isTrue => exact h.setIssued s false
    split
    case isTrue => exact h
    dsimp only
    split
    case isTrue => exact (hmaybe _ _ hleft).setIssued s false
    split
    case isTrue => exact hleft
    case isFalse => exact settleLoad_counted hS (snoopStores_counted hleft hload cached) _

theorem scanDependants_counted (hQ : Orderly Q) (hS : S.Counts Q x) {U : MemQueueEntry} {u : Nat}
    (hu : Waits Q u) (fuel : Nat) (h : Counted Q x c) (cached : SnoopState)
    {iter : Option MemQueueEntry}
    (hiter : ∀ entry, iter = some entry → u < entry.theSequenceNum ∧ entry.place ∈ Q) :
    Counted Q x (scanDependants S U fuel c cached iter).1 := by
  have hfound : ∀ {d : CoreImpl}, Counted Q x d → ∀ {a : PhysicalMemoryAddress} {n : Nat}, u < n →
      ∀ e, d.theMemQueue.lowerBound a n = some e → u < e.theSequenceNum ∧ e.place ∈ Q := by
    intro d hd a n hn e he
    obtain ⟨hmem, -, hle, -⟩ := lowerBound_eq_some he
    exact ⟨by omega, hd.place_mem hmem⟩
  induction fuel generalizing c cached iter with
  | zero => exact h
  | succ fuel ih =>
    cases iter with
    | none => exact h
    | some entry =>
      obtain ⟨hlt, hplace⟩ := hiter entry rfl
      rw [scanDependants]
      dsimp only
      split
      case isTrue hisLoad =>
        -- A load behind `u` is in the load-store queue, as `u` is.
        rw [Bool.and_eq_true] at hisLoad
        have hlsq : entry.theQueue = .kLSQ := hQ.younger hu hplace hlt
        rw [MemQueueEntry.place, hisLoad.1, hlsq] at hplace
        have hload := doLoad_counted hS h hplace cached
        refine ih hload _ ?_
        intro again hagain
        obtain ⟨next, hnext, hagain⟩ := Option.bind_eq_some_iff.mp hagain
        exact hfound hload (hfound h (by omega) next hnext).1 again hagain
      split
      case isTrue => exact h
      case isFalse => exact ih h _ (hfound h (by omega))

theorem updateDependantLoads_counted (hQ : Orderly Q) (hS : S.Counts Q x) (h : Counted Q x c)
    (hs : Waits Q s) : Counted Q x (updateDependantLoads S c s).1 := by
  unfold updateDependantLoads
  split
  case h_1 => exact h
  case h_2 =>
    split
    case isTrue => exact h
    case isFalse =>
      refine scanDependants_counted hQ hS hs _ h none ?_
      intro entry hentry
      obtain ⟨hmem, -, hle, -⟩ := lowerBound_eq_some hentry
      exact ⟨hle, h.place_mem hmem⟩

theorem resnoopDependantLoads_counted (hQ : Orderly Q) (hS : S.Counts Q x) (h : Counted Q x c)
    (hs : Waits Q s) : Counted Q x (resnoopDependantLoads S c s) := by
  unfold resnoopDependantLoads
  split
  case h_1 => exact h
  case h_2 =>
    split
    case isFalse => exact h
    case isTrue =>
      refine (updateDependantLoads_counted hQ hS ?_ hs).update _
        fun _ _ _ => .of_eq rfl rfl rfl rfl (.inr rfl)
      exact h.update _ fun _ _ _ => .of_eq rfl rfl rfl rfl (.inr rfl)

theorem withdraw_counted (hS : S.Counts Q x) (h : Counted Q x c) (e : MemQueueEntry) :
    Counted Q x (withdraw S c e) := by
  have hvalue : Counted Q x (e.takeBack S c) := by
    unfold MemQueueEntry.takeBack
    split
    · exact (hS.squash _ c h).update _ fun e _ _ => undisturbed_dropped x e
    · exact h
  refine Counted.setIssued ?_ _ false
  unfold MemQueueEntry.abandonRequest
  split
  · exact breakMSHRLink_counted hS hvalue e
  · exact hvalue

theorem resolveVAddr_counted (hQ : Orderly Q) (hS : S.Counts Q x) (h : Counted Q x c)
    (hs : Waits Q s) (known : Bool) : Counted Q x (resolveVAddr S c s known) := by
  unfold resolveVAddr
  split
  case h_1 => exact h
  case h_2 e hfind =>
    have hrelease : Counted Q x (e.releaseLoads S c) := by
      unfold MemQueueEntry.releaseLoads
      split
      · exact resnoopDependantLoads_counted hQ hS h ((memq_t.find_eq_some.mp hfind).2 ▸ hs)
      · exact h
    refine Counted.update ?_ _ fun _ _ _ => .of_eq rfl rfl rfl rfl (.inr rfl)
    split
    · exact hrelease
    · exact withdraw_counted hS hrelease e

/-- The dependants keep the count: they are younger than the load they depend on, so their
    entries are in the load-store queue with it. -/
theorem Dependants.counts (D : Dependants) (hQ : Orderly Q) (x : Option Nat) (depth : Nat) :
    (D.surroundings depth).Counts Q x := by
  induction depth with
  | zero => exact ⟨fun _ _ h => h, fun _ _ h => h, fun _ _ h => h⟩
  | succ depth ih =>
    have hreaddress : ∀ (known : Bool) (s : Nat) (ss : List Nat) (c : CoreImpl), Counted Q x c →
        Counted Q x (ss.foldl (readdress (D.surroundings depth) known s) c) := by
      intro known s ss
      induction ss with
      | nil => exact fun c h => h
      | cons s' ss ihs =>
        intro c h
        refine ihs _ ?_
        unfold readdress
        split
        case isFalse => exact h
        case isTrue hwaits =>
          refine resolveVAddr_counted hQ ih h ?_ known
          obtain ⟨e, hfind, hqueue⟩ := (Option.any_eq_true _ _).mp hwaits.2
          obtain ⟨hmem, hseq⟩ := memq_t.find_eq_some.mp hfind
          exact ⟨e.place, h.place_mem hmem, hseq, eq_of_beq hqueue⟩
    refine ⟨fun s c => hreaddress false s _ c, fun s c => hreaddress true s _ c, ?_⟩
    intro s c h
    change Counted Q x ((D.woken s c).foldl requestAgain c)
    generalize D.woken s c = ss
    induction ss generalizing c with
    | nil => exact h
    | cons s' ss ihs =>
      refine ihs _ ?_
      unfold requestAgain
      split
      · exact h
      · exact requestPort_counted h _

/-- An entry that is found in the load-store queue has its place there. -/
theorem Counted.waits (h : Counted Q x c) {e : MemQueueEntry} (hmem : e ∈ c.theMemQueue.entries)
    (hlsq : e.theQueue = .kLSQ) : Waits Q e.theSequenceNum :=
  ⟨e.place, h.place_mem hmem, rfl, hlsq⟩

theorem updatePaddr_counted (h : Counted Q x c) (s : Nat) (anAddr : PhysicalMemoryAddress) :
    Counted Q x (c.updatePaddr s anAddr) := by
  refine h.map (fun e => if e.theSequenceNum = s then e.setPaddr anAddr else e) rfl rfl rfl ?_ ?_
  · intro e
    split <;> rfl
  · intro e _
    split
    · exact .of_eq rfl rfl rfl rfl (.inr rfl)
    · exact .of_eq rfl rfl rfl rfl (.inr rfl)

section Calls

/-! From here on the dependants are what surrounds the memory unit. -/

variable (D : Dependants) (depth : Nat) (hQ : Orderly Q)

include hQ

theorem resolvePAddr_counted (h : Counted Q x c) {e : MemQueueEntry}
    (hfind : c.theMemQueue.find s = some e) (hlsq : e.theQueue = .kLSQ)
    (anAddr : PhysicalMemoryAddress) :
    Counted Q x (resolvePAddr (D.surroundings depth) c s anAddr) := by
  obtain ⟨hmem, rfl⟩ := memq_t.find_eq_some.mp hfind
  have hS := D.counts hQ x depth
  have hmoved := updatePaddr_counted h e.theSequenceNum anAddr
  have hload : e.isLoad = true → ⟨e.theSequenceNum, .kLSQ, true⟩ ∈ Q := by
    intro hisLoad
    have hplace := h.place_mem hmem
    rwa [MemQueueEntry.place, hlsq, hisLoad] at hplace
  have hstore : ∀ d, Counted Q x d →
      Counted Q x (doStore (D.surroundings depth) d e.theSequenceNum) :=
    fun d hd => updateDependantLoads_counted hQ hS hd (h.waits hmem hlsq)
  rw [resolvePAddr, hfind]
  dsimp only
  split
  · exact h
  split
  · exact hmoved
  unfold executeAt
  split
  case h_1 | h_2 | h_3 | h_4 =>
    have hloaded : Counted Q x (if (e.setPaddr anAddr).isLoad then
        (doLoad (D.surroundings depth) (c.updatePaddr e.theSequenceNum anAddr) e.theSequenceNum none).1
        else c.updatePaddr e.theSequenceNum anAddr) := by
      split
      case isTrue hisLoad => exact doLoad_counted hS hmoved (hload hisLoad) none
      case isFalse => exact hmoved
    dsimp only
    split
    · exact hstore _ hloaded
    · exact hloaded
  case h_5 =>
    split
    case isTrue hisLoad =>
      rw [Bool.and_eq_true] at hisLoad
      exact doLoad_counted hS hmoved (hload hisLoad.2) none
    case isFalse => exact hmoved
  case h_6 | h_7 => exact hmoved

theorem storeValue_counted (h : Counted Q x c) {e : MemQueueEntry} (hmem : e ∈ c.theMemQueue.entries)
    (hlsq : e.theQueue = .kLSQ) (f : MemQueueEntry → MemQueueEntry)
    (hf : ∀ e : MemQueueEntry, e.SameKey (f e)) (hkeep : Undisturbed x e (f e)) :
    Counted Q x (c.storeValue (D.surroundings depth) e f hf) := by
  have hstored : Counted Q x (c.update e.theSequenceNum f hf) := by
    refine h.update _ fun y hy hseq => ?_
    rwa [memq_t.eq_of_seq hy hmem hseq]
  unfold CoreImpl.storeValue
  dsimp only
  split
  · exact hstored
  · exact updateDependantLoads_counted hQ (D.counts hQ x depth) hstored (h.waits hmem hlsq)

/-- No caller passes a second value for the load half. -/
theorem updateStoreValue_counted (h : Counted Q x c) {e : MemQueueEntry}
    (hfind : c.theMemQueue.find s = some e) (hlsq : e.theQueue = .kLSQ)
    (hop : e.theOperation ≠ .kLoad) (aValue : bits) :
    Counted Q x (updateStoreValue (D.surroundings depth) c s aValue none) := by
  rw [updateStoreValue, hfind]
  refine storeValue_counted D depth hQ h (memq_t.find_eq_some.mp hfind).1 hlsq _ _ ?_
  refine ⟨rfl, rfl, rfl, fun _ => rfl, fun _ hload _ hwaiting => ?_⟩
  refine hwaiting.imp_left fun hnone => ?_
  -- The operation loads and is no plain load, so the load half has a slot of its own.
  have hatomic : e.isAtomic = true := by
    cases hoperation : e.theOperation <;>
      simp_all [MemQueueEntry.isLoad, MemQueueEntry.isAtomic]
  refine Eq.trans ?_ hnone
  exact loadValue_congr rfl rfl hatomic

theorem updateCASValue_counted (h : Counted Q x c) {e : MemQueueEntry}
    (hfind : c.theMemQueue.find s = some e) (hlsq : e.theQueue = .kLSQ)
    (hop : e.theOperation = .kCAS) (aValue aCompareValue : bits) :
    Counted Q x (updateCASValue (D.surroundings depth) c s aValue aCompareValue) := by
  have hatomic : e.isAtomic = true := by simp [MemQueueEntry.isAtomic, hop]
  rw [updateCASValue, hfind]
  refine storeValue_counted D depth hQ h (memq_t.find_eq_some.mp hfind).1 hlsq _ _ ?_
  refine .of_eq rfl rfl rfl rfl (.inr ?_)
  exact loadValue_congr rfl rfl hatomic

theorem annulStoreValue_counted (h : Counted Q x c) {e : MemQueueEntry}
    (hfind : c.theMemQueue.find s = some e) (hlsq : e.theQueue = .kLSQ) :
    Counted Q x (annulStoreValue (D.surroundings depth) c s) := by
  obtain ⟨hmem, rfl⟩ := memq_t.find_eq_some.mp hfind
  rw [annulStoreValue, hfind]
  dsimp only
  split
  · exact h
  · refine resnoopDependantLoads_counted hQ (D.counts hQ x depth) ?_ (h.waits hmem hlsq)
    exact h.update _ fun _ _ _ => .of_eq rfl rfl rfl rfl (.inr rfl)

end Calls

end Functions

end nuArchARM
