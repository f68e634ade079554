import Flexus.Core.ClearSSB

/-!
# Aborting a speculation

A rollback trims five structures that hold instructions by position, by address and by
pointer. Each is cut at one sequence number, that of the youngest checkpoint which is not
younger than the violating instruction.
-/

namespace nuArchARM

open Runs LSQ

/-- The core with `theSLAT`, which lists the speculative loads by their lines. -/
structure SLATCore where
  core : Core
  theSLAT : List (PhysicalMemoryAddress × Nat)

/-- `doAbortSpeculation` with the loop that cleans up `theSLAT`. -/
def SLATCore.doAbortSpeculation (cfg : CoreConfig) (t : SLATCore) : Except CoreFault SLATCore := do
  let c ← t.core.doAbortSpeculation cfg
  match Core.rollbackTarget t.core.theSRB t.core.theViolatingInstruction with
  | none => .error .noViolator
  | some srb_ckpt =>
    pure ⟨c, t.theSLAT.filter fun slat_item => !decide (srb_ckpt.sequenceNo ≤ slat_item.2)⟩

/-- The loop that cleans up the checkpoints, in the order of the map, and what it leaves in
    `theOpenCheckpoint`. -/
def Core.cleanCheckpoints (ckpt_seq_num : Nat) (theOpenCheckpoint : Option Nat) :
    List Checkpoint → List Checkpoint × Option Nat
  | [] => ([], theOpenCheckpoint)
  | ck_item :: rest =>
    if ckpt_seq_num ≤ ck_item.theInstruction then
      cleanCheckpoints ckpt_seq_num theOpenCheckpoint rest
    else
      let opened := if theOpenCheckpoint.all (· < ck_item.theInstruction) then
        some ck_item.theInstruction else theOpenCheckpoint
      let (kept, last) := cleanCheckpoints ckpt_seq_num opened rest
      (ck_item :: kept, last)

variable {cfg : CoreConfig} {c c' : Core} {low s : Nat}

/-! ## The checkpoints that are left -/

theorem max?_cons_cons (x y : Nat) (l : List Nat) : (x :: y :: l).max? = (max x y :: l).max? := by
  rw [List.max?_cons', List.max?_cons', List.foldl_cons]

/-- The loop keeps the older checkpoints and opens the youngest of them, whatever the order
    of the map is. -/
theorem cleanCheckpoints_eq (ks : List Checkpoint) (opened : Option Nat) :
    Core.cleanCheckpoints low opened ks =
      (ks.filter fun k => decide (k.theInstruction < low),
        (opened.toList ++ (ks.filter fun k => decide (k.theInstruction < low)).map
          Checkpoint.theInstruction).max?) := by
  induction ks generalizing opened with
  | nil => cases opened <;> rfl
  | cons k ks ih =>
    rw [Core.cleanCheckpoints]
    by_cases hlow : low ≤ k.theInstruction
    · rw [if_pos hlow, ih, List.filter_cons_of_neg (by simpa using hlow)]
    · rw [if_neg hlow, List.filter_cons_of_pos (by simpa using hlow)]
      simp only [ih]
      congr 1
      cases opened with
      | none => rfl
      | some n =>
        simp only [Option.all_some, decide_eq_true_eq, Option.toList_some, List.singleton_append,
          List.map_cons, max?_cons_cons]
        by_cases hlt : n < k.theInstruction
        · rw [if_pos hlt, Nat.max_eq_right (Nat.le_of_lt hlt)]
          rfl
        · rw [if_neg hlt, Nat.max_eq_left (Nat.le_of_not_lt hlt)]
          rfl

/-! ## The target -/

section Target

variable {srb : List Instruction} {violator : Nat}

/-- In program order, the instructions up to one are those that are not younger. -/
theorem upTo_eq (hsorted : (srb.map Instruction.sequenceNo).Pairwise (· < ·))
    (hmem : ∃ i ∈ srb, i.sequenceNo = violator) :
    srb.takeWhile (fun i => i.sequenceNo != violator) ++
        ((srb.dropWhile fun i => i.sequenceNo != violator).head?).toList =
      srb.filter fun i => decide (i.sequenceNo ≤ violator) := by
  induction srb with
  | nil =>
    obtain ⟨i, hi, -⟩ := hmem
    cases hi
  | cons x rest ih =>
    obtain ⟨hhead, htail⟩ := List.pairwise_cons.mp hsorted
    have hyounger : ∀ j ∈ rest, x.sequenceNo < j.sequenceNo := fun j hj =>
      hhead _ (List.mem_map_of_mem hj)
    by_cases hx : x.sequenceNo = violator
    · have hnone : (rest.filter fun i => decide (i.sequenceNo ≤ violator)) = [] := by
        rw [List.filter_eq_nil_iff]
        intro j hj
        have hlt := hyounger j hj
        simp only [decide_eq_true_eq]
        omega
      rw [List.takeWhile_cons_of_neg (by simpa using hx), List.dropWhile_cons_of_neg (by simpa using hx),
        List.filter_cons_of_pos (by simpa using hx.le), hnone]
      rfl
    · have hrest : ∃ i ∈ rest, i.sequenceNo = violator := by
        obtain ⟨i, hi, hseq⟩ := hmem
        rcases List.mem_cons.mp hi with rfl | hi
        · exact absurd hseq hx
        · exact ⟨i, hi, hseq⟩
      obtain ⟨i, hi, hseq⟩ := hrest
      have hlt := hyounger i hi
      rw [List.takeWhile_cons_of_pos (by simpa using hx), List.dropWhile_cons_of_pos (by simpa using hx),
        List.filter_cons_of_pos (by simp only [decide_eq_true_eq]; omega), List.cons_append,
        ih htail ⟨i, hi, hseq⟩]

/-- The instructions before one are the older ones. -/
theorem before_eq (hsorted : (srb.map Instruction.sequenceNo).Pairwise (· < ·))
    (hmem : ∃ i ∈ srb, i.sequenceNo = s) :
    (srb.takeWhile fun i => i.sequenceNo != s) = srb.filter fun i => decide (i.sequenceNo < s) := by
  induction srb with
  | nil => rfl
  | cons x rest ih =>
    obtain ⟨hhead, htail⟩ := List.pairwise_cons.mp hsorted
    have hyounger : ∀ j ∈ rest, x.sequenceNo < j.sequenceNo := fun j hj =>
      hhead _ (List.mem_map_of_mem hj)
    by_cases hx : x.sequenceNo = s
    · symm
      rw [List.takeWhile_cons_of_neg (by simpa using hx), List.filter_eq_nil_iff]
      intro j hj
      simp only [decide_eq_true_eq]
      rcases List.mem_cons.mp hj with rfl | hj
      · omega
      · have hlt := hyounger j hj
        omega
    · obtain ⟨i, hi, hseq⟩ := hmem
      rcases List.mem_cons.mp hi with rfl | hi
      · exact absurd hseq hx
      · have hlt := hyounger i hi
        rw [List.takeWhile_cons_of_pos (by simpa using hx),
          List.filter_cons_of_pos (by simp only [decide_eq_true_eq]; omega), ih htail ⟨i, hi, hseq⟩]

/-- The search backwards finds the youngest one. -/
theorem youngest_of_find {is : List Instruction} {q : Instruction → Bool} {x : Instruction}
    (hsorted : (is.map Instruction.sequenceNo).Pairwise (· < ·)) (hfind : is.reverse.find? q = some x) :
    ∀ y ∈ is, q y = true → y.sequenceNo ≤ x.sequenceNo := by
  obtain ⟨-, before, after, hsplit, hbefore⟩ := List.find?_eq_some_iff_append.mp hfind
  have hreverse : is = after.reverse ++ x :: before.reverse := by
    rw [← List.reverse_reverse is, hsplit]
    simp
  intro y hy hq
  rw [hreverse, List.mem_append, List.mem_cons, List.mem_reverse, List.mem_reverse] at hy
  rw [hreverse, List.map_append, List.pairwise_append] at hsorted
  rcases hy with hy | rfl | hy
  · exact (hsorted.2.2 _ (List.mem_map_of_mem (List.mem_reverse.mpr hy)) _ List.mem_cons_self).le
  · exact le_rfl
  · have hno := hbefore y hy
    rw [hq] at hno
    cases hno

/-- The rollback restarts at the youngest checkpointed instruction that is not younger than
    the violating one. -/
theorem rollbackTarget_youngest (hsorted : (srb.map Instruction.sequenceNo).Pairwise (· < ·))
    (hmem : ∃ i ∈ srb, i.sequenceNo = violator)
    (hsome : ∃ i ∈ srb, i.hasCheckpoint = true ∧ i.sequenceNo ≤ violator) :
    ∃ target ∈ srb, Core.rollbackTarget srb violator = some target ∧ target.hasCheckpoint = true ∧
      target.sequenceNo ≤ violator ∧
      ∀ i ∈ srb, i.hasCheckpoint = true → i.sequenceNo ≤ violator → i.sequenceNo ≤ target.sequenceNo := by
  have hupTo := upTo_eq hsorted hmem
  have hold : ∀ {i : Instruction}, i ∈ (srb.filter fun i => decide (i.sequenceNo ≤ violator)) ↔
      i ∈ srb ∧ i.sequenceNo ≤ violator := by
    intro i
    rw [List.mem_filter, decide_eq_true_eq]
  obtain ⟨i, hi, hflag, hle⟩ := hsome
  cases hfind : (srb.filter fun i => decide (i.sequenceNo ≤ violator)).reverse.find? (·.hasCheckpoint) with
  | none =>
    have hno := List.find?_eq_none.mp hfind i (List.mem_reverse.mpr (hold.mpr ⟨hi, hle⟩))
    exact absurd hflag hno
  | some target =>
    have hkept : ((srb.filter fun i => decide (i.sequenceNo ≤ violator)).map
        Instruction.sequenceNo).Pairwise (· < ·) := hsorted.sublist (List.filter_sublist.map _)
    obtain ⟨htarget, holder⟩ := hold.mp (List.mem_reverse.mp (List.mem_of_find?_eq_some hfind))
    refine ⟨target, htarget, ?_, List.find?_some hfind, holder, ?_⟩
    · rw [Core.rollbackTarget]
      rw [hupTo, hfind]
      rfl
    · intro j hj hjflag hjle
      exact youngest_of_find hkept hfind j (hold.mpr ⟨hj, hjle⟩) hjflag

end Target

/-! ## The steps of a rollback -/

/-- An atomic. -/
def Place.isAtomic (p : Place) : Bool := p.op == .kRMW || p.op == .kCAS || p.op == .kCASP

theorem isAtomic_place (e : LSQEntry) : e.place.isAtomic = e.isAtomic := by
  simp only [Place.isAtomic, LSQEntry.place, MemQueueEntry.isAtomic]

section Cleaning

variable {q : List LSQEntry} {ms : List MSHR} {d : Nat}

/-- Only the store part of an atomic that does not speculate is refused a port. -/
theorem requestPort_ok (hatomic : ∀ p ∈ placesOf q, p.isAtomic = true → cfg.theSpeculativeOrder = true) :
    ∃ q', requestPort cfg q s = .ok q' := by
  rw [requestPort]
  cases hfind : findEntry q s with
  | none => exact ⟨_, rfl⟩
  | some e =>
    have hmem : e.place ∈ placesOf q := List.mem_map_of_mem (Keyed.mem_of_lookup hfind).1
    dsimp only
    split_ifs with hignored hrefused
    · exact ⟨_, rfl⟩
    · have hpart := (not_and_or.mp hignored).resolve_left (not_not.mpr hrefused.1)
      have hspeculative := hatomic _ hmem (isAtomic_place e ▸ (not_not.mp hpart).1)
      rw [hspeculative] at hrefused
      cases hrefused.2
    · exact ⟨_, rfl⟩
    · exact ⟨_, rfl⟩

theorem wake_ok (blocked : List Nat)
    (hatomic : ∀ p ∈ placesOf q, p.isAtomic = true → cfg.theSpeculativeOrder = true) :
    ∃ q', wake cfg blocked q = .ok q' := by
  induction blocked generalizing q with
  | nil => exact ⟨q, rfl⟩
  | cons s rest ih =>
    obtain ⟨q₁, hq₁⟩ := requestPort_ok (s := s) hatomic
    obtain ⟨q₂, hq₂⟩ := ih (q := q₁) (requestPort_places.1 q₁ hq₁ ▸ hatomic)
    exact ⟨q₂, bind_eq_ok.mpr ⟨q₁, hq₁, hq₂⟩⟩

theorem keptWaiters_ok {ws : List Nat} (hall : ∀ w ∈ ws, findEntry q w ≠ none) :
    ∃ kept, keptWaiters q d ws = .ok kept := by
  induction ws with
  | nil => exact ⟨[], rfl⟩
  | cons w ws ih =>
    obtain ⟨kept, hkept⟩ := ih fun x hx => hall x (List.mem_cons_of_mem _ hx)
    rw [keptWaiters]
    cases hfind : findEntry q w with
    | none => exact absurd hfind (hall w List.mem_cons_self)
    | some e => exact ⟨_, bind_eq_ok.mpr ⟨kept, hkept, rfl⟩⟩

/-- The registers can be cleaned when no waiter is gone. -/
theorem cleanMSHRS_ok
    (hatomic : ∀ p ∈ placesOf q, p.isAtomic = true → cfg.theSpeculativeOrder = true)
    (hno : ¬ Strays q ms) : ∃ r, cleanMSHRS cfg d q ms = .ok r := by
  induction ms generalizing q with
  | nil => exact ⟨(q, []), rfl⟩
  | cons m ms ih =>
    have hall : ∀ w ∈ m.theWaitingLSQs, findEntry q w ≠ none := fun w hw hnone =>
      hno ⟨m, List.mem_cons_self, w, hw, hnone⟩
    have hrest : ¬ Strays q ms := by
      rintro ⟨x, hx, hstray⟩
      exact hno ⟨x, List.mem_cons_of_mem _ hx, hstray⟩
    obtain ⟨kept, hkept⟩ := keptWaiters_ok (d := d) hall
    rw [cleanMSHRS]
    by_cases hempty : kept = []
    · obtain ⟨q₁, hq₁⟩ := wake_ok m.theBlockedOps hatomic
      have hplaces := wake_places.1 q₁ hq₁
      have hrest₁ : ¬ Strays q₁ ms := by
        rintro ⟨x, hx, w, hw, hnone⟩
        refine hrest ⟨x, hx, w, hw, ?_⟩
        have hlookup := lookup_placesOf (q := q₁) (s := w)
        rw [hplaces, lookup_placesOf, hnone] at hlookup
        exact Option.map_eq_none_iff.mp hlookup
      obtain ⟨r, hr⟩ := ih (hplaces ▸ hatomic) hrest₁
      refine ⟨r, bind_eq_ok.mpr ⟨kept, hkept, ?_⟩⟩
      rw [if_pos hempty]
      exact bind_eq_ok.mpr ⟨q₁, hq₁, hr⟩
    · obtain ⟨r, hr⟩ := ih hatomic hrest
      refine ⟨(r.1, { m with theWaitingLSQs := kept } :: r.2), bind_eq_ok.mpr ⟨kept, hkept, ?_⟩⟩
      rw [if_neg hempty]
      exact bind_eq_ok.mpr ⟨r, hr, rfl⟩

end Cleaning

theorem resetARM_ok (h : Balanced cfg c) : ∃ c₁, c.resetARM = .ok c₁ ∧ Balanced cfg c₁ ∧
    c₁.flow = { c.flow with theROB := [], theRedirectRequested := false, theRedirectPC := 0#64 } ∧
    c₁.theMemQueue = (c.theMemQueue.filter fun e => e.theQueue != .kLSQ) ∧
    c₁.theMSHRs = c.theMSHRs := by
  have hbalanced : Balanced cfg
      { c with theROB := [], theRedirectRequested := false, theRedirectPC := 0#64 } :=
    h.of_same rfl rfl rfl rfl rfl
  have hyields := clearLSQ_yields hbalanced
  have hqueue := resetARM_queue (c := c)
  rw [Core.resetARM] at hqueue ⊢
  cases hok : Core.clearLSQ { c with
      theROB := [], theRedirectRequested := false, theRedirectPC := 0#64 } with
  | error f =>
    have hno := hyields.2 f hok
    rw [Core.clearLSQ, Core.checkCounts] at hok
    split at hok
    · cases hok
    · cases hok
      exact absurd hno (by decide)
  | ok c₁ =>
    obtain ⟨hbalanced₁, -, hflow⟩ := hyields.1 c₁ hok
    obtain ⟨hq, hwires⟩ := hqueue.1 c₁ hok
    exact ⟨c₁, rfl, hbalanced₁, hflow, hq, congrArg Wires.theMSHRs hwires⟩

/-! ## What a rollback does -/

/-- The structures of a core that speculates agree: the flags of the retired instructions
    with the checkpoints, the queue with its counters and with the miss registers. Atomics
    only retire speculatively. -/
structure Speculating (cfg : CoreConfig) (c : Core) : Prop where
  stocked : Stocked cfg c
  linked : c.wires.Linked
  inOrder : (c.theSRB.map Instruction.sequenceNo).Pairwise (· < ·)
  flagged : ∀ i ∈ c.theSRB,
    (i.hasCheckpoint = true ↔ ∃ k ∈ c.theCheckpoints, k.theInstruction = i.sequenceNo)
  retired : ∀ k ∈ c.theCheckpoints, ∃ i ∈ c.theSRB, i.sequenceNo = k.theInstruction
  atomics : ∀ p ∈ c.places, p.queue ≠ .kLSQ → p.isAtomic = true → cfg.theSpeculativeOrder = true
  speculating : c.theCheckpoints ≠ [] → c.theIsSpeculating = true

/-- The youngest checkpoint that is not younger than the violating instruction. -/
def Core.Selects (c : Core) (ckpt : Checkpoint) : Prop :=
  ckpt ∈ c.theCheckpoints ∧ ckpt.theInstruction ≤ c.theViolatingInstruction ∧
    ∀ k ∈ c.theCheckpoints, k.theInstruction ≤ c.theViolatingInstruction →
      k.theInstruction ≤ ckpt.theInstruction

/-- The state before the checkpoint is restored: what is at least as young as it is gone,
    what is older stays. -/
structure RolledBackTo (ckpt : Checkpoint) (t t' : SLATCore) : Prop where
  srb : t'.core.theSRB =
    t.core.theSRB.filter fun i => decide (i.sequenceNo < ckpt.theInstruction)
  ssb : placesOf t'.core.ssb =
    (placesOf t.core.ssb).filter fun p => decide (p.seq < ckpt.theInstruction)
  slat : t'.theSLAT = t.theSLAT.filter fun l => decide (l.2 < ckpt.theInstruction)
  checkpoints : t'.core.theCheckpoints =
    t.core.theCheckpoints.filter fun k => decide (k.theInstruction < ckpt.theInstruction)
  opened : t'.core.theOpenCheckpoint = Core.youngest t'.core.theCheckpoints
  cleaned : (t'.core.theCheckpoints, t'.core.theOpenCheckpoint) =
    Core.cleanCheckpoints ckpt.theInstruction none t.core.theCheckpoints
  speculating : t'.core.theIsSpeculating = true ↔ t'.core.theCheckpoints ≠ []
  redirects : t'.core.theRedirectRequested = true ∧ t'.core.theRedirectPC = ckpt.thePC

theorem Core.Selects.unique {k k' : Checkpoint} (h : c.Selects k) (h' : c.Selects k') :
    k.theInstruction = k'.theInstruction :=
  le_antisymm (h'.2.2 k h.1 h.2.1) (h.2.2 k' h'.1 h'.2.1)

/-- The state in which a rollback clears the speculative store buffer. -/
def Core.rewind (c : Core) (q : List LSQEntry) (ms : List MSHR) (ckpt : Checkpoint)
    (target : Instruction) : Core :=
  { c with
    theMemQueue := q
    theMSHRs := ms
    thePC := ckpt.thePC
    theSRB := c.theSRB.takeWhile fun i => i.sequenceNo != target.sequenceNo }

/-- The state after a rollback that has cleared it. -/
def Core.restored (c : Core) (ckpt : Checkpoint) (target : Instruction) : Core :=
  let kept := c.theCheckpoints.filter fun k => decide (k.theInstruction < target.sequenceNo)
  { c with
    theRedirectRequested := true
    theRedirectPC := ckpt.thePC
    theCheckpoints := kept
    theOpenCheckpoint := youngest kept
    theRetiresSinceCheckpoint := 0
    theAbortSpeculation := false
    theIsSpeculating := !kept.isEmpty }

/-- The instruction and the checkpoint that are selected. -/
theorem Speculating.selected (h : Speculating cfg c)
    (hviolator : ∃ i ∈ c.theSRB, i.sequenceNo = c.theViolatingInstruction)
    (hbefore : ∃ k ∈ c.theCheckpoints, k.theInstruction ≤ c.theViolatingInstruction) :
    ∃ target ∈ c.theSRB, ∃ ckpt,
      Core.rollbackTarget c.theSRB c.theViolatingInstruction = some target ∧
      Keyed.lookup Checkpoint.theInstruction c.theCheckpoints target.sequenceNo = some ckpt ∧
      ckpt.theInstruction = target.sequenceNo ∧ c.Selects ckpt := by
  obtain ⟨k, hk, hle⟩ := hbefore
  obtain ⟨i, hi, hseq⟩ := h.retired k hk
  obtain ⟨target, htarget, hfound, hflag, holder, hyoungest⟩ :=
    rollbackTarget_youngest h.inOrder hviolator
      ⟨i, hi, (h.flagged i hi).mpr ⟨k, hk, hseq.symm⟩, hseq.symm ▸ hle⟩
  cases hlookup : Keyed.lookup Checkpoint.theInstruction c.theCheckpoints target.sequenceNo with
  | none =>
    obtain ⟨x, hx, hown⟩ := (h.flagged target htarget).mp hflag
    exact absurd (hown ▸ List.mem_map_of_mem hx) (Keyed.lookup_eq_none.mp hlookup)
  | some ckpt =>
    obtain ⟨hckpt, hown⟩ := Keyed.mem_of_lookup hlookup
    refine ⟨target, htarget, ckpt, hfound, hlookup, hown, hckpt, hown ▸ holder, ?_⟩
    intro x hx hxle
    obtain ⟨j, hj, hjseq⟩ := h.retired x hx
    have hjflag := (h.flagged j hj).mpr ⟨x, hx, hjseq.symm⟩
    rw [← hjseq, hown]
    exact hyoungest j hj hjflag (hjseq.symm ▸ hxle)

/-- A rollback resets the pipeline, cleans the miss registers and clears the buffer. -/
theorem Speculating.abort_eq (h : Speculating cfg c) {target : Instruction} {ckpt : Checkpoint}
    (hviolator : ∃ i ∈ c.theSRB, i.sequenceNo = c.theViolatingInstruction)
    (hfound : Core.rollbackTarget c.theSRB c.theViolatingInstruction = some target)
    (hlookup : Keyed.lookup Checkpoint.theInstruction c.theCheckpoints target.sequenceNo = some ckpt)
    {c₁ : Core} (hreset : c.resetARM = .ok c₁) :
    c.doAbortSpeculation cfg =
      (cleanMSHRS cfg target.sequenceNo c₁.theMemQueue c₁.theMSHRs >>= fun r =>
        (c₁.rewind r.1 r.2 ckpt target).clearSSBFrom cfg target.sequenceNo >>= fun c₂ =>
          pure (c₂.restored ckpt target)) := by
  have hspeculating : c.theIsSpeculating = true := by
    apply h.speculating
    intro hnone
    rw [hnone] at hlookup
    cases hlookup
  have hany : c.theSRB.any (·.sequenceNo == c.theViolatingInstruction) = true := by
    obtain ⟨i, hi, hseq⟩ := hviolator
    exact List.any_eq_true.mpr ⟨i, hi, by simpa using hseq⟩
  rw [Core.doAbortSpeculation, if_neg (by rw [hspeculating]; decide), if_neg (not_not.mpr hany), hfound]
  dsimp only
  rw [hlookup]
  dsimp only
  rw [hreset]
  rfl

/-! ## The queue in a rollback -/

theorem placesOf_ssb : placesOf c.ssb = c.places.filter fun p => p.queue == .kSSB :=
  placesOf_filter (P := fun p => p.queue == .kSSB)

/-- The buffer is the one of before the reset, cut at the sequence number. -/
theorem ssb_of_places (hplaces : c'.places =
      (c.places.filter fun p => p.queue != .kLSQ).filter fun p => !speculativeFrom low p) :
    placesOf c'.ssb = (placesOf c.ssb).filter fun p => decide (p.seq < low) := by
  rw [placesOf_ssb, placesOf_ssb, hplaces, List.filter_filter, List.filter_filter, List.filter_filter]
  refine List.filter_congr fun p _ => ?_
  cases hq : p.queue == .kSSB with
  | false => simp
  | true =>
    have hssb : p.queue = .kSSB := beq_iff_eq.mp hq
    have hother : (eQueue.kSSB != eQueue.kLSQ) = true := by decide
    have hlow : (!decide (low ≤ p.seq)) = decide (p.seq < low) := by
      rw [← decide_not, decide_eq_decide]
      exact Nat.not_le
    simp [speculativeFrom, hssb, hother, hlow]

/-- An entry of the buffer from `low` on, or no entry: what the buffer is cleared for. -/
theorem found_of_places (hplaces : c'.places = c.places.filter fun p => p.queue != .kLSQ)
    (hcond : c.ssb = [] ∨ ∃ e ∈ c.ssb, low ≤ e.theSequenceNum) :
    (∃ p ∈ c'.places, speculativeFrom low p = true) ∨ c'.ssb = [] := by
  rcases hcond with hempty | ⟨e, he, hle⟩
  · right
    have hnone : placesOf c'.ssb = placesOf c.ssb := by
      rw [placesOf_ssb, placesOf_ssb, hplaces, List.filter_filter]
      refine List.filter_congr fun p _ => ?_
      cases hq : p.queue == .kSSB with
      | false => rfl
      | true =>
        have hssb : p.queue = .kSSB := beq_iff_eq.mp hq
        simp [hssb]
    rw [hempty] at hnone
    exact List.map_eq_nil_iff.mp hnone
  · left
    obtain ⟨hmem, hqueue⟩ := mem_ssb.mp he
    refine ⟨e.place, ?_, speculativeFrom_place.mpr ⟨hqueue, hle⟩⟩
    rw [hplaces]
    refine List.mem_filter.mpr ⟨List.mem_map_of_mem hmem, ?_⟩
    have hssb : e.place.queue = .kSSB := hqueue
    simp [hssb]

/-- A waiting entry of the load-store queue is missed when the registers are cleaned. -/
theorem strays_iff_cuts (h : c.wires.Linked) :
    Strays (c.theMemQueue.filter fun e => e.theQueue != .kLSQ) c.theMSHRs ↔ c.Cuts := by
  refine ⟨cuts_of_strays h, ?_⟩
  rintro ⟨e, he, hlsq, hlink⟩
  obtain ⟨a, hlink⟩ := Option.ne_none_iff_exists'.mp hlink
  have hmem : e.tie ∈ c.wires.ties := List.mem_map_of_mem he
  obtain ⟨-, m, hm, -, hw⟩ := h.waits e.tie hmem a hlink
  refine ⟨m, hm, e.theSequenceNum, hw, Keyed.lookup_eq_none.mpr ?_⟩
  intro hin
  obtain ⟨x, hx, hseq⟩ := List.mem_map.mp hin
  obtain ⟨hx, hkept⟩ := List.mem_filter.mp hx
  have hunique : (c.theMemQueue.map seqOf).Nodup := by
    have hnodup := h.unique
    rw [Core.wires, List.map_map] at hnodup
    exact hnodup
  rw [List.inj_on_of_nodup_map hunique hx he hseq, hlsq] at hkept
  cases hkept

/-- What is left when the buffer could be cleared. -/
theorem rolledBackTo_restored {t : SLATCore} (h : Speculating cfg t.core) {target : Instruction}
    {ckpt : Checkpoint} (htarget : target ∈ t.core.theSRB) (hown : ckpt.theInstruction = target.sequenceNo)
    {c₁ c₂ : Core} {q : List LSQEntry} {ms : List MSHR}
    (hflow : c₁.flow = { t.core.flow with
      theROB := [], theRedirectRequested := false, theRedirectPC := 0#64 })
    (hplaces : placesOf q = t.core.places.filter fun p => p.queue != .kLSQ)
    (hcleared : ClearedFrom cfg target.sequenceNo (c₁.rewind q ms ckpt target) c₂ c₂.ssb.length) :
    RolledBackTo ckpt t ⟨c₂.restored ckpt target,
      t.theSLAT.filter fun l => !decide (target.sequenceNo ≤ l.2)⟩ := by
  have hks : c₂.theCheckpoints = t.core.theCheckpoints := by
    rw [hcleared.rest]
    exact congrArg Flow.theCheckpoints hflow
  have hsrb₁ : c₁.theSRB = t.core.theSRB := congrArg Flow.theSRB hflow
  have hkept : (c₂.restored ckpt target).theCheckpoints =
      t.core.theCheckpoints.filter fun k => decide (k.theInstruction < ckpt.theInstruction) := by
    rw [hown, ← hks]
    rfl
  refine ⟨?_, ?_, ?_, hkept, rfl, ?_, ?_, rfl, rfl⟩
  · have hsrb : (c₂.restored ckpt target).theSRB =
        c₁.theSRB.takeWhile fun i => i.sequenceNo != target.sequenceNo := by
      change c₂.theSRB = _
      rw [hcleared.rest]
      rfl
    rw [hsrb, hsrb₁, hown]
    exact before_eq h.inOrder ⟨target, htarget, rfl⟩
  · rw [hown]
    have hleft : (c₂.restored ckpt target).places = (t.core.places.filter fun p =>
        p.queue != .kLSQ).filter fun p => !speculativeFrom target.sequenceNo p := by
      change c₂.places = _
      rw [← hplaces, Core.places, hcleared.queue]
      exact placesOf_filter (P := fun p => !speculativeFrom target.sequenceNo p)
    exact ssb_of_places hleft
  · rw [hown]
    refine List.filter_congr fun l _ => ?_
    rw [← decide_not, decide_eq_decide]
    exact Nat.not_le
  · rw [cleanCheckpoints_eq, hkept]
    change (_, Core.youngest (c₂.restored ckpt target).theCheckpoints) = _
    rw [hkept]
    rfl
  · change (!(c₂.restored ckpt target).theCheckpoints.isEmpty) = true ↔ _
    cases (c₂.restored ckpt target).theCheckpoints with
    | nil => simp
    | cons k ks => simp

/-- A rollback to the checkpoint the violating instruction needs leaves exactly what is
    older than it, unless an entry of the load-store queue waits in a miss register, or the
    speculative store buffer holds only entries that are older than the checkpoint. -/
theorem abort_restores_checkpoint (t : SLATCore) (h : Speculating cfg t.core)
    (hviolator : ∃ i ∈ t.core.theSRB, i.sequenceNo = t.core.theViolatingInstruction)
    (hbefore : ∃ k ∈ t.core.theCheckpoints, k.theInstruction ≤ t.core.theViolatingInstruction) :
    (∃ t' ckpt, t.doAbortSpeculation cfg = .ok t' ∧ t.core.Selects ckpt ∧ RolledBackTo ckpt t t') ↔
      (∀ e ∈ t.core.theMemQueue, e.theQueue = .kLSQ → e.link = none) ∧
      (t.core.ssb = [] ∨ ∃ e ∈ t.core.ssb, ∀ k ∈ t.core.theCheckpoints,
        k.theInstruction ≤ t.core.theViolatingInstruction → k.theInstruction ≤ e.theSequenceNum) := by
  obtain ⟨target, htarget, ckpt, hfound, hlookup, hown, hselects⟩ := h.selected hviolator hbefore
  obtain ⟨c₁, hreset, hbalanced₁, hflow, hqueue₁, hms₁⟩ := resetARM_ok h.stocked.balanced
  have habort := h.abort_eq hviolator hfound hlookup hreset
  have hplaces₁ : placesOf c₁.theMemQueue = t.core.places.filter fun p => p.queue != .kLSQ := by
    rw [hqueue₁]
    exact placesOf_filter (P := fun p => p.queue != .kLSQ)
  have hstrays : Strays c₁.theMemQueue c₁.theMSHRs ↔ t.core.Cuts := by
    rw [hqueue₁, hms₁]
    exact strays_iff_cuts h.linked
  -- The checkpoint is the youngest of those before the violating instruction.
  have hbound : ∀ n : Nat, (∀ k ∈ t.core.theCheckpoints,
      k.theInstruction ≤ t.core.theViolatingInstruction → k.theInstruction ≤ n) ↔
      target.sequenceNo ≤ n := by
    intro n
    rw [← hown]
    exact ⟨fun hall => hall ckpt hselects.1 hselects.2.1,
      fun hle k hk hkle => (hselects.2.2 k hk hkle).trans hle⟩
  simp only [hbound]
  rw [← not_cuts_iff, ← hstrays]
  constructor
  · rintro ⟨t', k, hok, hselects', hrolled⟩
    obtain ⟨c', hc', hend⟩ := bind_eq_ok.mp hok
    rw [hfound] at hend
    cases hend
    rw [habort] at hc'
    obtain ⟨⟨q, ms⟩, hclean, hc'⟩ := bind_eq_ok.mp hc'
    obtain ⟨c₂, hclear, hc'⟩ := bind_eq_ok.mp hc'
    cases hc'
    refine ⟨(cleanMSHRS_eq.1 _ hclean).2.2, ?_⟩
    by_contra hcond
    push Not at hcond
    obtain ⟨hne, hnone⟩ := hcond
    have hq : placesOf q = t.core.places.filter fun p => p.queue != .kLSQ :=
      (cleanMSHRS_places.1 _ hclean).trans hplaces₁
    have hempty : c₂.ssb = [] := by
      refine clearSSBFrom_empties ?_ hclear
      intro e he
      obtain ⟨hmem, hqueue⟩ := mem_ssb.mp he
      have hplace : e.place ∈ placesOf q := List.mem_map_of_mem hmem
      rw [hq] at hplace
      have hin : e.place ∈ t.core.places := List.mem_of_mem_filter hplace
      obtain ⟨x, hx, hsame⟩ := List.mem_map.mp hin
      have hlt := hnone x (mem_ssb.mpr ⟨hx, (congrArg Place.queue hsame).trans hqueue⟩)
      have hseq : x.theSequenceNum = e.theSequenceNum := congrArg Place.seq hsame
      exact hseq ▸ hlt
    have hssb : placesOf c₂.ssb = _ := hrolled.ssb
    rw [hempty, hselects'.unique hselects, hown] at hssb
    obtain ⟨e, he⟩ := List.exists_mem_of_ne_nil _ hne
    have hkept : e.place ∈ (placesOf t.core.ssb).filter fun p => decide (p.seq < target.sequenceNo) :=
      List.mem_filter.mpr ⟨List.mem_map_of_mem he, decide_eq_true (hnone e he)⟩
    rw [← hssb] at hkept
    cases hkept
  · rintro ⟨hno, hcond⟩
    have hatomics : ∀ p ∈ placesOf c₁.theMemQueue, p.isAtomic = true → cfg.theSpeculativeOrder = true := by
      intro p hp
      rw [hplaces₁] at hp
      obtain ⟨hmem, hqueue⟩ := List.mem_filter.mp hp
      exact h.atomics p hmem (by simpa using hqueue)
    obtain ⟨⟨q, ms⟩, hclean⟩ := cleanMSHRS_ok (d := target.sequenceNo) hatomics hno
    have hq : placesOf q = placesOf c₁.theMemQueue := cleanMSHRS_places.1 _ hclean
    have hsorted : ((placesOf q).map Place.seq).Pairwise (· < ·) := by
      rw [hq, hplaces₁]
      exact h.stocked.sorted.sublist (List.filter_sublist.map _)
    obtain ⟨c₂, hclear, hcleared⟩ := clearSSBFrom_cleared (c := c₁.rewind q ms ckpt target)
      (hbalanced₁.of_same hq rfl rfl rfl rfl) hsorted (found_of_places (hq.trans hplaces₁) hcond)
    refine ⟨_, ckpt, bind_eq_ok.mpr ⟨c₂.restored ckpt target, ?_, ?_⟩, hselects,
      rolledBackTo_restored h htarget hown hflow (hq.trans hplaces₁) hcleared⟩
    · rw [habort]
      exact bind_eq_ok.mpr ⟨(q, ms), hclean, bind_eq_ok.mpr ⟨c₂, hclear, rfl⟩⟩
    · rw [hfound]
      rfl

/-- A load speculates past a store, both have retired, and the load is rolled back. -/
theorem abort_restores_checkpoint_load : ∃ c, Core.Reachable speculativeSC 0#64 c ∧
    c.theViolatingInstruction = 2 ∧ ∃ t' ckpt,
      SLATCore.doAbortSpeculation speculativeSC ⟨c, [(0x80#64, 1), (0x100#64, 2)]⟩ = .ok t' ∧
      c.Selects ckpt ∧ RolledBackTo ckpt ⟨c, [(0x80#64, 1), (0x100#64, 2)]⟩ t' := by
  have hrun : (runWhile (Core.step speculativeSC) (fun _ _ => true) (Core.start 0#64)
      [.dispatch 0#64 .commitStore true (some (.store .kDoubleWord false)),
        .dispatch 4#64 .keep true (some (.load .kDoubleWord)),
        .execute 1 (accessAt 0x80#64), .execute 2 (accessAt 0x100#64),
        .retire, .retire, .violate 2]).any
      (fun c => decide (c.theViolatingInstruction = 2 ∧
        (∀ i ∈ c.theSRB, (i.hasCheckpoint = true ↔
          ∃ k ∈ c.theCheckpoints, k.theInstruction = i.sequenceNo)) ∧
        (∀ k ∈ c.theCheckpoints, ∃ i ∈ c.theSRB, i.sequenceNo = k.theInstruction) ∧
        c.theIsSpeculating = true ∧ (∃ i ∈ c.theSRB, i.sequenceNo = c.theViolatingInstruction) ∧
        (∃ k ∈ c.theCheckpoints, k.theInstruction ≤ c.theViolatingInstruction) ∧
        (∀ e ∈ c.theMemQueue, e.theQueue = .kLSQ → e.link = none) ∧
        ∃ e ∈ c.ssb, ∀ k ∈ c.theCheckpoints, k.theInstruction ≤ c.theViolatingInstruction →
          k.theInstruction ≤ e.theSequenceNum)) = true := by
    decide +kernel
  obtain ⟨c, hc, hend⟩ : ∃ c, Core.Reachable speculativeSC 0#64 c ∧ _ :=
    exists_reaches (fun _ _ _ => trivial) hrun
  obtain ⟨htwo, hflagged, hretired, hspeculating, hviolator, hbefore, hlinks, hssb⟩ :=
    of_decide_eq_true hend
  have hsteady := hc.steady
  have horder : (c.theSRB.map Instruction.sequenceNo).Pairwise (· < ·) :=
    hsteady.piped.inOrder.sublist ((List.sublist_append_left _ _).map _)
  have hcore : Speculating speculativeSC c :=
    ⟨hsteady.stocked, hc.linked, horder, hflagged, hretired, fun _ _ _ _ => rfl, fun _ => hspeculating⟩
  exact ⟨c, hc, htwo, (abort_restores_checkpoint ⟨c, _⟩ hcore hviolator hbefore).mpr
    ⟨hlinks, .inr hssb⟩⟩

/-- A younger load waits in its miss register when the first one is rolled back: the core
    stops at the entry that the reset has erased. -/
theorem abort_meets_cleared_waiter : ∃ c, Core.Reachable speculativeSC 0#64 c ∧
    c.theAbortSpeculation = true ∧ c.theIsSpeculating = true ∧
    (∃ i ∈ c.theSRB, i.sequenceNo = c.theViolatingInstruction) ∧
    (∃ k ∈ c.theCheckpoints, k.theInstruction ≤ c.theViolatingInstruction) ∧
    ∀ slat, SLATCore.doAbortSpeculation speculativeSC ⟨c, slat⟩ = .error .danglingWaiter := by
  have hrun : (runWhile (Core.step speculativeSC) (fun _ _ => true) (Core.start 0#64)
      [.dispatch 0#64 .commitStore true (some (.store .kDoubleWord false)),
        .dispatch 4#64 .keep true (some (.load .kDoubleWord)),
        .dispatch 8#64 .keep true (some (.load .kDoubleWord)),
        .execute 1 (accessAt 0x80#64), .execute 2 (accessAt 0x100#64),
        .execute 3 (loadFrom 0x180#64), .retire, .retire, .requestPort 3, .issue 3, .violate 2]).any
      (fun c => decide (c.theAbortSpeculation = true ∧ c.theIsSpeculating = true ∧
        (∃ i ∈ c.theSRB, i.sequenceNo = c.theViolatingInstruction) ∧
        (∃ k ∈ c.theCheckpoints, k.theInstruction ≤ c.theViolatingInstruction) ∧
        c.doAbortSpeculation speculativeSC = .error .danglingWaiter)) = true := by
    decide +kernel
  obtain ⟨c, hc, hend⟩ : ∃ c, Core.Reachable speculativeSC 0#64 c ∧ _ :=
    exists_reaches (fun _ _ _ => trivial) hrun
  obtain ⟨habort, hspeculating, hviolator, hbefore, hfault⟩ := of_decide_eq_true hend
  refine ⟨c, hc, habort, hspeculating, hviolator, hbefore, fun slat => ?_⟩
  rw [SLATCore.doAbortSpeculation, hfault]
  rfl

end nuArchARM
