import Flexus.MemQueue.MemoryUnit

/-!
# Entries that settle

An entry that gets its value or leaves the load-store queue keeps the count of partial snoops.
-/

namespace nuArchARM

def lsqCount (Q : List QueuePlace) : Nat := Q.countP (·.theQueue == .kLSQ)

/-! ## Leaving the queue -/

theorem snoopers_keep {q : memq_t} {p : MemQueueEntry → Bool}
    (hkept : ∀ e ∈ q.entries, e.thePartialSnoop = true → p e = true) :
    (q.keep p).snoopers = q.snoopers := by
  rw [memq_t.snoopers, memq_t.snoopers, memq_t.keep, List.countP_filter]
  refine List.countP_congr ?_
  intro e he
  rw [Bool.and_eq_true]
  exact and_iff_left_of_imp (hkept e he)

theorem snoopers_drop {q : memq_t} {e : MemQueueEntry} (he : e ∈ q.entries) :
    (q.keep fun y => y.theSequenceNum != e.theSequenceNum).snoopers + e.thePartialSnoop.toNat =
      q.snoopers := by
  have hordered := q.ordered
  change List.countP _ (List.filter _ q.entries) + _ = List.countP _ q.entries
  obtain ⟨before, after, hsplit⟩ := List.append_of_mem he
  rw [hsplit] at hordered ⊢
  rw [List.pairwise_append] at hordered
  obtain ⟨-, htail, hacross⟩ := hordered
  have hbefore : before.filter (fun y => y.theSequenceNum != e.theSequenceNum) = before := by
    refine List.filter_eq_self.mpr ?_
    intro y hy
    have hlt := hacross y hy e List.mem_cons_self
    simpa using hlt.ne
  have hafter : after.filter (fun y => y.theSequenceNum != e.theSequenceNum) = after := by
    refine List.filter_eq_self.mpr ?_
    intro y hy
    have hlt := List.rel_of_pairwise_cons htail hy
    simpa using hlt.ne'
  rw [List.filter_append, List.filter_cons, hbefore, hafter]
  simp only [bne_self_eq_false, Bool.false_eq_true, if_false, List.countP_append, List.countP_cons]
  cases e.thePartialSnoop
  · simp
  · simp [Nat.add_assoc]

/-- The same entry, which waits for a partial snoop as before. -/
structure SameFlag (e e' : MemQueueEntry) : Prop where
  seq : e'.theSequenceNum = e.theSequenceNum
  flag : e'.thePartialSnoop = e.thePartialSnoop

theorem SameFlag.trans (x y z : MemQueueEntry) (hxy : SameFlag x y) (hyz : SameFlag y z) :
    SameFlag x z :=
  ⟨hyz.seq.trans hxy.seq, hyz.flag.trans hxy.flag⟩

theorem SameFlag.of_onlyIssued (e e' : MemQueueEntry) (h : OnlyIssued e e') : SameFlag e e' := by
  rw [h]
  exact ⟨rfl, rfl⟩

theorem breakMSHRLink_flag (S : Surroundings) (c : CoreImpl) (e : MemQueueEntry) :
    Related SameFlag c (breakMSHRLink S c e) := by
  have hclear := (setIssued_onlyIssued e.theSequenceNum false c).imp SameFlag.of_onlyIssued
  have hwake := (S.wakeBlocked_issued e.theSequenceNum (c.setIssued e.theSequenceNum false)).imp
    SameFlag.of_onlyIssued
  unfold breakMSHRLink
  dsimp only
  split
  case isFalse => exact hclear
  case isTrue =>
    refine (hclear.trans SameFlag.trans hwake).trans SameFlag.trans ?_
    exact .update (fun _ => ⟨rfl, rfl⟩) (fun _ _ => ⟨rfl, rfl⟩) _

section Settling

variable {Q : List QueuePlace} {c : CoreImpl} {s : Nat} {e : MemQueueEntry}

/-- An entry that waits for nothing leaves the load-store queue after all older ones. -/
theorem Counted.move (hQ : Orderly Q) (h : Counted Q none c) {q : eQueue} (hq : q ≠ .kLSQ)
    (hfront : ∀ p ∈ Q, p.theSequenceNum < s → p.theQueue ≠ .kLSQ)
    (hidle : ∀ e ∈ c.theMemQueue.entries, e.theSequenceNum = s → e.thePartialSnoop = false ∧
      (e.isAtomic = true → c.theSpeculativeOrder = true ∧ e.isAbnormalAccess = false))
    (hf : ∀ e : MemQueueEntry, e.SameKey { e with theQueue := q }) :
    ∃ Q', Orderly Q' ∧ lsqCount Q' ≤ lsqCount Q ∧
      Counted Q' none (c.update s (fun e => { e with theQueue := q }) hf) := by
  have hplaces : (c.update s (fun e => { e with theQueue := q }) hf).theMemQueue.places =
      Q.map fun p => if p.theSequenceNum = s then { p with theQueue := q } else p := by
    rw [← h.places]
    change List.map _ (List.map _ _) = List.map _ (List.map _ _)
    rw [List.map_map, List.map_map]
    refine List.map_congr_left ?_
    intro e _
    rw [Function.comp_apply, Function.comp_apply]
    by_cases hs : e.theSequenceNum = s
    · rw [if_pos hs, if_pos (show e.place.theSequenceNum = s from hs)]
      rfl
    · rw [if_neg hs, if_neg (show ¬ e.place.theSequenceNum = s from hs)]
  refine ⟨_, ?_, ?_, hplaces, ?_, ?_, ?_⟩
  · rw [Orderly, List.pairwise_map]
    refine List.Pairwise.imp_of_mem ?_ hQ
    intro a b ha _ hab
    by_cases has : a.theSequenceNum = s <;> by_cases hbs : b.theSequenceNum = s
    · omega
    · rw [if_pos has, if_neg hbs]
      exact ⟨hab.1, fun hlsq => absurd hlsq hq⟩
    · rw [if_neg has, if_pos hbs]
      exact ⟨hab.1, fun hlsq => absurd hlsq (hfront a ha (hbs ▸ hab.1))⟩
    · rw [if_neg has, if_neg hbs]
      exact hab
  · rw [lsqCount, lsqCount, List.countP_map]
    refine List.countP_mono_left ?_
    intro p _ hlsq
    rw [Function.comp_apply] at hlsq
    split at hlsq
    · exact absurd (eq_of_beq hlsq) hq
    · exact hlsq
  · rw [show (c.update s (fun e => { e with theQueue := q }) hf).thePartialSnoopersOutstanding =
      c.thePartialSnoopersOutstanding from rfl, h.count]
    congr 1
    change _ = List.countP _ (List.map _ _)
    rw [List.countP_map]
    refine List.countP_congr ?_
    intro e _
    rw [Function.comp_apply]
    split <;> rfl
  · intro e' he' hsnoop
    obtain ⟨e, he, rfl⟩ := List.mem_map.mp he'
    by_cases hs : e.theSequenceNum = s
    · rw [if_pos hs] at hsnoop
      rw [(hidle e he hs).1] at hsnoop
      cases hsnoop
    · rw [if_neg hs] at hsnoop ⊢
      exact h.waiting e he hsnoop
  · intro e' he' hretired hatomic
    obtain ⟨e, he, rfl⟩ := List.mem_map.mp he'
    by_cases hs : e.theSequenceNum = s
    · rw [if_pos hs] at hatomic ⊢
      exact (hidle e he hs).2 hatomic
    · rw [if_neg hs] at hretired hatomic ⊢
      exact h.retired e he hretired hatomic

/-! ## Replies -/

theorem Counted.weaken (h : Counted Q none c) (x : Option Nat) : Counted Q x c :=
  ⟨h.places, h.count, fun e he hsnoop => ⟨(h.waiting e he hsnoop).1, (h.waiting e he hsnoop).2.1,
    fun _ => (h.waiting e he hsnoop).2.2 (by simp)⟩, h.retired⟩

/-- The entry that was getting its value does not wait any more. -/
theorem Counted.settled (h : Counted Q (some s) c)
    (hidle : ∀ e ∈ c.theMemQueue.entries, e.theSequenceNum = s → e.thePartialSnoop = false) :
    Counted Q none c := by
  refine ⟨h.places, h.count, ?_, h.retired⟩
  intro e he hsnoop
  obtain ⟨hlsq, hload, hvalue⟩ := h.waiting e he hsnoop
  refine ⟨hlsq, hload, fun _ => hvalue ?_⟩
  intro hs
  rw [hidle e he (Option.some.inj hs)] at hsnoop
  cases hsnoop

theorem finishPartialSnoop_counted (h : Counted Q (some s) c) :
    Counted Q none (finishPartialSnoop c s) := by
  unfold finishPartialSnoop
  split
  case h_1 hfind =>
    refine h.settled ?_
    intro e he hs
    rw [memq_t.find_eq_some.mpr ⟨he, hs⟩] at hfind
    cases hfind
  case h_2 aLoad hfind =>
    obtain ⟨hmem, rfl⟩ := memq_t.find_eq_some.mp hfind
    split
    case isFalse hsnoop =>
      refine h.settled ?_
      intro e he hs
      rw [memq_t.eq_of_seq he hmem hs]
      exact Bool.not_eq_true _ ▸ hsnoop
    case isTrue hsnoop =>
      dsimp only
      unfold CoreImpl.settlePartial
      obtain ⟨hqueue, hop, habnormal, -⟩ := setLoadValue_spec aLoad
        (aLoad.loadValue.map (applyAllStores c.theMemQueue aLoad))
      refine Counted.settled (s := aLoad.theSequenceNum) ?_ ?_
      · refine h.mark (k := c.thePartialSnoopLoads) hmem hqueue hop habnormal ?_ ?_
        · intro hflag
          cases hflag
        · rw [hsnoop]
          exact (BitVec.sub_add_cancel _ _).trans (BitVec.add_zero _).symm
      · intro e he hs
        obtain ⟨y, -, rfl⟩ := List.mem_map.mp he
        split at hs
        case isTrue hy => rw [if_pos hy]
        case isFalse hy => exact absurd hs hy

section Calls

variable (D : Dependants) (depth : Nat) (hQ : Orderly Q)

include hQ

/-- A reply gives the load a value, for which the flag comes down right after. -/
theorem storeReply_counted (h : Counted Q none c) (hmem : e ∈ c.theMemQueue.entries)
    (r : LoadReply) (hlsq : (∃ v, r = .kAtomicPreloadReply v) → e.theQueue = .kLSQ) :
    Counted Q (some e.theSequenceNum) (storeReply (D.surroundings depth) c e r) := by
  have hS := D.counts hQ (some e.theSequenceNum) depth
  have hsettling := h.weaken (some e.theSequenceNum)
  have hvalue : ∀ (f : MemQueueEntry → MemQueueEntry) (hf : ∀ e : MemQueueEntry, e.SameKey (f e)) d,
      (∀ y, (f y).thePartialSnoop = y.thePartialSnoop ∧ (f y).theQueue = y.theQueue ∧
        (f y).theOperation = y.theOperation ∧ (f y).isAbnormalAccess = y.isAbnormalAccess) →
      Counted Q (some e.theSequenceNum) d →
        Counted Q (some e.theSequenceNum) (d.update e.theSequenceNum f hf) := by
    intro f hf d hfields hd
    refine hd.update _ fun y _ hy => ?_
    obtain ⟨hsnoop, hqueue, hop, habnormal⟩ := hfields y
    exact ⟨hsnoop, hqueue, hop, fun _ => habnormal, fun _ _ hne => absurd (congrArg some hy) hne⟩
  unfold storeReply
  split
  case h_1 => exact hvalue _ _ c (fun _ => ⟨rfl, rfl, rfl, rfl⟩) hsettling
  case h_2 v =>
    have hsquashed : Counted Q (some e.theSequenceNum)
        (if (e.theExtendedValue.isSome && e.theExtendedValue != some v) && e.theDependance then
          (D.surroundings depth).squash e.theSequenceNum c else c) := by
      split
      · exact hS.squash _ c hsettling
      · exact hsettling
    have hread := hvalue (fun e => { e with theExtendedValue := some v })
      (fun _ => .of_eq rfl rfl rfl rfl) _ (fun _ => ⟨rfl, rfl, rfl, rfl⟩) hsquashed
    dsimp only
    split
    case isTrue =>
      -- The comparison fails: the loads behind the atomic search again for what it read.
      refine updateDependantLoads_counted hQ hS ?_ (h.waits hmem (hlsq ⟨v, rfl⟩))
      exact hvalue (fun e => { e with theValue := some v }) (fun _ => .of_eq rfl rfl rfl rfl) _
        (fun _ => ⟨rfl, rfl, rfl, rfl⟩) hread
    case isFalse => exact hread

theorem settleReply_counted (h : Counted Q none c) (e : MemQueueEntry) :
    Counted Q none (MemoryUnit.settleReply (D.surroundings depth) c e) := by
  have hunlinked : Counted Q none (c.update e.theSequenceNum (fun e => { e with theMSHR := false })
      unlinked_sameKey) := h.update _ fun _ _ _ => .of_eq rfl rfl rfl rfl (.inr rfl)
  unfold MemoryUnit.settleReply
  dsimp only
  split
  · exact (D.counts hQ none depth).satisfy _ _ hunlinked
  · exact hunlinked

theorem completeLSQ_counted (h : Counted Q none c) (hfind : c.theMemQueue.find s = some e)
    (r : LoadReply) (hlsq : (∃ v, r = .kAtomicPreloadReply v) → e.theQueue = .kLSQ) :
    Counted Q none (completeLSQ (D.surroundings depth) c s r) := by
  rw [completeLSQ, hfind]
  obtain ⟨hmem, rfl⟩ := memq_t.find_eq_some.mp hfind
  have hstored := storeReply_counted D depth hQ h hmem r hlsq
  exact settleReply_counted D depth hQ (finishPartialSnoop_counted hstored) e

end Calls

end Settling

end nuArchARM
