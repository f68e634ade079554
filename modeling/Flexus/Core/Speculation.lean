import Flexus.Core.StoreBuffer

/-!
# The invariant of a speculating core

The counters are exact and the checkpoints are anchored: the entry of a checkpointed
instruction is in the speculative store buffer, or it has left it as the oldest one
and nothing in the queue is older. A rollback therefore finds what it has to erase.
-/

namespace nuArchARM

open Runs LSQ

/-- The memory queue in program order, with exact counters. -/
structure Stocked (cfg : CoreConfig) (c : Core) : Prop where
  balanced : Balanced cfg c
  sorted : (c.places.map Place.seq).Pairwise (· < ·)
  bounded : ∀ p ∈ c.places, p.seq ≤ c.theMemorySequenceNum
  valid : ∀ p ∈ c.places, p.paddr ≠ kInvalid
  bypass : ∀ p ∈ c.places, p.queue = .kLSQ → p.bypass = true → p.op = .kStore

/-- A checkpointed operation is speculative, or nothing is older. -/
def Anchored (ps : List Place) (ks : List Checkpoint) : Prop :=
  ∀ k ∈ ks, (∃ p ∈ ps, p.seq = k.theInstruction ∧ p.queue = .kSSB) ∨
    ∀ p ∈ ps, k.theInstruction ≤ p.seq

/-- A checkpoint holds no permission it does not require. -/
def Holding (ks : List Checkpoint) : Prop :=
  ∀ k ∈ ks, ∀ a ∈ k.theHeldPermissions, a ∈ k.theRequiredPermissions.map Prod.fst

/-- The instructions are in program order, and the checkpoints are those of retired ones. -/
structure Piped (f : Flow) : Prop where
  inOrder : ((f.theSRB ++ f.theROB).map Instruction.sequenceNo).Pairwise (· < ·)
  numbered : ∀ i ∈ f.theSRB ++ f.theROB, i.sequenceNo ≤ f.theMemorySequenceNum
  flagged : ∀ k ∈ f.theCheckpoints,
    ∃ i ∈ f.theSRB, i.sequenceNo = k.theInstruction ∧ i.hasCheckpoint = true
  opened : ∀ n, f.theOpenCheckpoint = some n → ∃ k ∈ f.theCheckpoints, k.theInstruction = n

structure Steady (cfg : CoreConfig) (c : Core) : Prop where
  stocked : Stocked cfg c
  anchored : Anchored c.places c.theCheckpoints
  holding : Holding c.theCheckpoints
  piped : Piped c.flow

variable {cfg : CoreConfig} {c c' : Core} {s : Nat} {e : LSQEntry} {i : Instruction}

/-! ## Parts of the queue -/

theorem Stocked.unique (h : Stocked cfg c) : (c.places.map Place.seq).Nodup :=
  h.sorted.imp fun hlt => Nat.ne_of_lt hlt

/-- Entries may only be missing. -/
theorem Stocked.of_sublist (h : Stocked cfg c) (hbalanced : Balanced cfg c')
    (hsub : c'.places.Sublist c.places) (hnum : c'.theMemorySequenceNum = c.theMemorySequenceNum) :
    Stocked cfg c' where
  balanced := hbalanced
  sorted := h.sorted.sublist (hsub.map _)
  bounded := by
    intro p hp
    rw [hnum]
    exact h.bounded p (hsub.subset hp)
  valid := fun p hp => h.valid p (hsub.subset hp)
  bypass := fun p hp => h.bypass p (hsub.subset hp)

theorem Stocked.of_same (h : Stocked cfg c) (hplaces : c'.places = c.places)
    (hlsq : c'.theLSQCount = c.theLSQCount) (hsb : c'.theSBCount = c.theSBCount)
    (hnaw : c'.theSBNAWCount = c.theSBNAWCount) (hperm : c'.thePermissions = c.thePermissions)
    (hnum : c'.theMemorySequenceNum = c.theMemorySequenceNum) : Stocked cfg c' :=
  h.of_sublist (h.balanced.of_same hplaces hlsq hsb hnaw hperm) (hplaces ▸ List.Sublist.refl _) hnum

/-- One entry changes, and keeps its number. -/
theorem Stocked.of_alter (h : Stocked cfg c) (hbalanced : Balanced cfg c') {f : Place → Place}
    (hplaces : c'.places = Keyed.alter Place.seq s f c.places) (hseq : ∀ p, (f p).seq = p.seq)
    (hvalid : ∀ p ∈ c.places, (f p).paddr ≠ kInvalid)
    (hbypass : ∀ p ∈ c.places, (f p).queue = .kLSQ → (f p).bypass = true → (f p).op = .kStore)
    (hnum : c'.theMemorySequenceNum = c.theMemorySequenceNum) : Stocked cfg c' := by
  have hmem : ∀ p' ∈ c'.places, ∃ p ∈ c.places, p' = f p ∨ p' = p := by
    intro p' hp'
    rw [hplaces] at hp'
    obtain ⟨p, hp, rfl⟩ := List.mem_map.mp hp'
    refine ⟨p, hp, ?_⟩
    split
    · exact .inl rfl
    · exact .inr rfl
  refine ⟨hbalanced, ?_, ?_, ?_, ?_⟩
  · rw [hplaces, Keyed.map_alter hseq]
    exact h.sorted
  · intro p' hp'
    obtain ⟨p, hp, rfl | rfl⟩ := hmem p' hp'
    · rw [hnum, hseq]
      exact h.bounded p hp
    · rw [hnum]
      exact h.bounded _ hp
  · intro p' hp'
    obtain ⟨p, hp, rfl | rfl⟩ := hmem p' hp'
    · exact hvalid p hp
    · exact h.valid _ hp
  · intro p' hp'
    obtain ⟨p, hp, rfl | rfl⟩ := hmem p' hp'
    · exact hbypass p hp
    · exact h.bypass _ hp

/-! ## Anchors -/

/-- The entry `s` may leave the speculative store buffer: it has no checkpoint, is not in
    it, or is the oldest one. -/
def Spares (ps : List Place) (ks : List Checkpoint) (s : Nat) : Prop :=
  (∀ k ∈ ks, k.theInstruction ≠ s) ∨ (∀ p ∈ ps, p.seq = s → p.queue ≠ .kSSB) ∨
    ∀ p ∈ ps, s ≤ p.seq

theorem Anchored.leave {ps ps' : List Place} {ks : List Checkpoint} (h : Anchored ps ks)
    (hspares : Spares ps ks s) (hkept : ∀ p ∈ ps, p.seq ≠ s → p ∈ ps')
    (hold : ∀ p' ∈ ps', ∃ p ∈ ps, p'.seq = p.seq) : Anchored ps' ks := by
  have hafter : ∀ n, (∀ p ∈ ps, n ≤ p.seq) → ∀ p' ∈ ps', n ≤ p'.seq := by
    intro n hall p' hp'
    obtain ⟨p, hp, hseq⟩ := hold p' hp'
    exact hseq ▸ hall p hp
  intro k hk
  rcases h k hk with ⟨p, hp, hseq, hqueue⟩ | hall
  · by_cases hs : p.seq = s
    · rcases hspares with hno | hnot | hfirst
      · exact absurd (hseq.symm.trans hs) (hno k hk)
      · exact absurd hqueue (hnot p hp hs)
      · exact .inr (hafter _ (fun x hx => hseq ▸ hs ▸ hfirst x hx))
    · exact .inl ⟨p, hkept p hp hs, hseq, hqueue⟩
  · exact .inr (hafter _ hall)

theorem Anchored.erase {ps : List Place} {ks : List Checkpoint} (h : Anchored ps ks)
    (hspares : Spares ps ks s) : Anchored (Keyed.erase Place.seq s ps) ks := by
  refine h.leave hspares ?_ ?_
  · intro p hp hne
    exact List.mem_filter.mpr ⟨hp, by simpa using hne⟩
  · intro p hp
    exact ⟨p, List.mem_of_mem_filter hp, rfl⟩

theorem Anchored.alter {ps : List Place} {ks : List Checkpoint} {f : Place → Place}
    (h : Anchored ps ks) (hspares : Spares ps ks s) (hseq : ∀ p, (f p).seq = p.seq) :
    Anchored (Keyed.alter Place.seq s f ps) ks := by
  refine h.leave hspares ?_ ?_
  · intro p hp hne
    exact List.mem_map.mpr ⟨p, hp, if_neg hne⟩
  · intro p' hp'
    obtain ⟨p, hp, rfl⟩ := List.mem_map.mp hp'
    refine ⟨p, hp, ?_⟩
    split
    · exact hseq p
    · rfl

/-- Fewer checkpoints, or others of the same instructions. -/
theorem Anchored.fewer {ps : List Place} {ks ks' : List Checkpoint} (h : Anchored ps ks)
    (hks : ∀ k' ∈ ks', ∃ k ∈ ks, k'.theInstruction = k.theInstruction) : Anchored ps ks' := by
  intro k' hk'
  obtain ⟨k, hk, heq⟩ := hks k' hk'
  rw [heq]
  exact h k hk

/-! ## What a step does to the instructions -/

/-- An instruction apart from its flags. -/
def Instruction.ident (i : Instruction) : Nat × VirtualMemoryAddress := (i.sequenceNo, i.pc)

/-- A checkpoint apart from its permissions. -/
def Checkpoint.saved (k : Checkpoint) : Nat × VirtualMemoryAddress := (k.theInstruction, k.thePC)

/-- No instruction retires, and no checkpoint is made. -/
structure Stays (f f' : Flow) : Prop where
  pc : f'.thePC = f.thePC
  srb : (f'.theSRB.map Instruction.ident).Sublist (f.theSRB.map Instruction.ident)
  checkpoints : (f'.theCheckpoints.map Checkpoint.saved).Sublist
    (f.theCheckpoints.map Checkpoint.saved)

/-- The oldest instruction retires, perhaps with a checkpoint. -/
structure Retires (f f' : Flow) (i : Instruction) : Prop where
  rob : f.theROB = i :: f'.theROB
  pc : f'.thePC = i.pc + 4#64
  srb : f'.theSRB.map Instruction.ident = f.theSRB.map Instruction.ident ++ [i.ident]
  checkpoints : f'.theCheckpoints.map Checkpoint.saved = f.theCheckpoints.map Checkpoint.saved ∨
    f'.theCheckpoints.map Checkpoint.saved =
      f.theCheckpoints.map Checkpoint.saved ++ [(i.sequenceNo, f.thePC)]

/-- The retired instructions from a checkpointed one on are discarded, and the core goes
    back to the state that was saved. -/
structure RollsBack (f f' : Flow) (target : Instruction) (ckpt : Checkpoint) : Prop where
  target_mem : target ∈ f.theSRB
  ckpt_mem : ckpt ∈ f.theCheckpoints
  own : ckpt.theInstruction = target.sequenceNo
  srb : f'.theSRB = f.theSRB.takeWhile fun i => i.sequenceNo != target.sequenceNo
  pc : f'.thePC = ckpt.thePC
  redirects : f'.theRedirectRequested = true ∧ f'.theRedirectPC = ckpt.thePC
  checkpoints : (f'.theCheckpoints.map Checkpoint.saved).Sublist
    (f.theCheckpoints.map Checkpoint.saved)

def Turn (f f' : Flow) : Core.Event → Prop
  | .retire => f.theROB = [] ∧ f' = f ∨ ∃ i, Retires f f' i
  | .commit => f.theAbortSpeculation = false ∧ Stays f f' ∨
      f.theAbortSpeculation = true ∧ ∃ target ckpt, RollsBack f f' target ckpt
  | .redirect =>
      f' = if f.theRedirectRequested then
        { f with thePC := f.theRedirectPC, theRedirectRequested := false } else f
  | .resynchronize aPC => f'.thePC = aPC ∧ f'.theSRB = [] ∧ f'.theCheckpoints = []
  | _ => Stays f f'

theorem Stays.refl (f : Flow) : Stays f f := ⟨rfl, List.Sublist.refl _, List.Sublist.refl _⟩

theorem Stays.of_eq {f f' : Flow} (h : f' = f) : Stays f f' := h ▸ .refl f

theorem Stays.trans {f f' f'' : Flow} (h : Stays f f') (h' : Stays f' f'') : Stays f f'' :=
  ⟨h'.pc.trans h.pc, h'.srb.trans h.srb, h'.checkpoints.trans h.checkpoints⟩

/-- Checkpoints of the same instructions. -/
theorem exists_of_saved {ks ks' : List Checkpoint}
    (h : (ks'.map Checkpoint.saved).Sublist (ks.map Checkpoint.saved)) :
    ∀ k' ∈ ks', ∃ k ∈ ks, k'.theInstruction = k.theInstruction := by
  intro k' hk'
  have hmem := h.subset (List.mem_map_of_mem hk')
  obtain ⟨k, hk, heq⟩ := List.mem_map.mp hmem
  exact ⟨k, hk, (congrArg Prod.fst heq).symm⟩

/-! ## Steps that move no entry -/

theorem Steady.of_same (h : Steady cfg c) (hplaces : c'.places = c.places)
    (hlsq : c'.theLSQCount = c.theLSQCount) (hsb : c'.theSBCount = c.theSBCount)
    (hnaw : c'.theSBNAWCount = c.theSBNAWCount) (hperm : c'.thePermissions = c.thePermissions)
    (hflow : c'.flow = c.flow) : Steady cfg c' := by
  have hks : c'.theCheckpoints = c.theCheckpoints := congrArg Flow.theCheckpoints hflow
  refine ⟨h.stocked.of_same hplaces hlsq hsb hnaw hperm
    (congrArg Flow.theMemorySequenceNum hflow), ?_, hks ▸ h.holding, hflow ▸ h.piped⟩
  rw [hplaces, hks]
  exact h.anchored

/-- The queue changes without a place changing. -/
theorem Steady.requeue (h : Steady cfg c) {q : List LSQEntry} {ms : List MSHR}
    (hq : placesOf q = c.places) : Steady cfg { c with theMemQueue := q, theMSHRs := ms } :=
  h.of_same hq rfl rfl rfl rfl rfl

theorem Steady.erase (h : Steady cfg c) (hspares : Spares c.places c.theCheckpoints s) :
    Yields NoCounter (c.eraseLSQ cfg s) fun c' => Steady cfg c' ∧ c'.flow = c.flow := by
  refine (eraseLSQ_yields h.stocked.balanced h.stocked.unique).weaken ?_
  rintro c' ⟨hbalanced, hplaces, hflow⟩
  have hks : c'.theCheckpoints = c.theCheckpoints := congrArg Flow.theCheckpoints hflow
  refine ⟨⟨h.stocked.of_sublist hbalanced (hplaces ▸ List.filter_sublist)
    (congrArg Flow.theMemorySequenceNum hflow), ?_, hks ▸ h.holding, hflow ▸ h.piped⟩, hflow⟩
  rw [hplaces, hks]
  exact h.anchored.erase hspares

/-- Only the flags and the permissions of what is there change. -/
theorem Steady.of_stays (h : Steady cfg c) (hstocked : Stocked cfg c')
    (hplaces : c'.places = c.places) (hpiped : Piped c'.flow) (hholding : Holding c'.theCheckpoints)
    (hks : (c'.theCheckpoints.map Checkpoint.saved).Sublist (c.theCheckpoints.map Checkpoint.saved)) :
    Steady cfg c' :=
  ⟨hstocked, hplaces ▸ h.anchored.fewer (exists_of_saved hks), hholding, hpiped⟩

theorem requestPort_steady (h : Steady cfg c) :
    Yields NoCounter (LSQ.requestPort cfg c.theMemQueue s) fun q =>
      Steady cfg { c with theMemQueue := q } :=
  requestPort_places.weaken fun _ hq => h.requeue hq

theorem reissue_steady (h : Steady cfg c) :
    Yields NoCounter (c.reissue cfg s) fun c' => Steady cfg c' ∧ c'.flow = c.flow := by
  rw [Core.reissue]
  cases findEntry c.theMemQueue s with
  | none => exact .ok ⟨h, rfl⟩
  | some e =>
    refine .ite (fun _ => .ok ⟨h, rfl⟩) fun _ => ?_
    refine .bind breakMSHRLink_places fun r hr => ?_
    exact .pure ⟨h.requeue hr, rfl⟩

theorem scan_steady {r : Except CoreFault (Option Core)} (h : Steady cfg c)
    (hscan : Yields NoCounter r fun found => ∀ c' ∈ found,
      c'.places = c.places ∧ c' = { c with theMemQueue := c'.theMemQueue, theMSHRs := c'.theMSHRs }) :
    Yields NoCounter r fun found => ∀ c' ∈ found, Steady cfg c' ∧ c'.flow = c.flow := by
  refine hscan.weaken fun found hfound c' hc' => ?_
  obtain ⟨hplaces, hsame⟩ := hfound c' hc'
  rw [hsame]
  exact ⟨h.requeue hplaces, rfl⟩

theorem scanAndAttachMSHR_steady (h : Steady cfg c) :
    Yields NoCounter (c.scanAndAttachMSHR e) fun found => ∀ c' ∈ found,
      Steady cfg c' ∧ c'.flow = c.flow := by
  apply scan_steady h
  rw [Core.scanAndAttachMSHR]
  cases findMSHR c.theMSHRs e.thePaddr with
  | none => exact .ok (by simp)
  | some existing =>
    refine .ite (fun _ => .error (by decide)) fun _ => ?_
    refine .ite (fun _ => ?_) fun _ => .ok (by simp)
    refine .ite (fun _ => .error (by decide)) fun _ => ?_
    refine .ok fun c' hc' => ?_
    obtain rfl := Option.some.inj hc'
    exact ⟨placesOf_update fun _ => rfl, rfl⟩

theorem scanAndBlockMSHR_steady (h : Steady cfg c) :
    Yields NoCounter (c.scanAndBlockMSHR e) fun found => ∀ c' ∈ found,
      Steady cfg c' ∧ c'.flow = c.flow := by
  apply scan_steady h
  rw [Core.scanAndBlockMSHR]
  cases findMSHR c.theMSHRs e.thePaddr with
  | none => exact .ok (by simp)
  | some existing =>
    refine .ite (fun _ => .error (by decide)) fun _ => .ok fun c' hc' => ?_
    obtain rfl := Option.some.inj hc'
    exact ⟨rfl, rfl⟩

theorem scanAndBlockPrefetch_steady (h : Steady cfg c) :
    Yields NoCounter (c.scanAndBlockPrefetch e) fun found => ∀ c' ∈ found,
      Steady cfg c' ∧ c'.flow = c.flow := by
  apply scan_steady h
  rw [Core.scanAndBlockPrefetch]
  cases findMSHR c.theMSHRs e.thePaddr with
  | none => exact .ok (by simp)
  | some existing =>
    refine .ite (fun _ => .error (by decide)) fun _ => .ok fun c' hc' => ?_
    obtain rfl := Option.some.inj hc'
    exact ⟨rfl, rfl⟩

theorem issueOperation_yields : Yields NoCounter (Core.issueOperation cfg e) fun _ => True := by
  simp only [Core.issueOperation]
  cases e.theOperation with
  | kLoad | kStore | kCASP | kMEMBARMarker => exact .ok trivial
  | kRMW | kCAS =>
    refine .ite (fun _ => ?_) fun _ => ?_
    · exact .ite (fun _ => .ok trivial) fun _ => .error (by decide)
    · exact .ite (fun _ => .ok trivial) fun _ => .ok trivial

theorem issue_steady (h : Steady cfg c) :
    Yields NoCounter (c.issue cfg s) fun c' => Steady cfg c' ∧ c'.flow = c.flow := by
  rw [Core.issue]
  cases findEntry c.theMemQueue s with
  | none => exact .ok ⟨h, rfl⟩
  | some e =>
    refine .ite (fun _ => .ok ⟨h, rfl⟩) fun _ => ?_
    refine .ite (fun _ => .error (by decide)) fun _ => ?_
    refine .bind issueOperation_yields fun op _ => ?_
    cases op with
    | none => exact .pure ⟨h, rfl⟩
    | some op =>
      have hload : Yields NoCounter
          (if op = .kLoad then c.scanAndAttachMSHR e else pure none) fun found => ∀ c' ∈ found,
            Steady cfg c' ∧ c'.flow = c.flow :=
        .ite (fun _ => scanAndAttachMSHR_steady h) fun _ => .pure (by simp)
      refine .bind hload fun found hfound => ?_
      cases found with
      | some c' => exact .pure (hfound c' rfl)
      | none =>
        refine .bind (scanAndBlockMSHR_steady h) fun found hfound => ?_
        cases found with
        | some c' => exact .pure (hfound c' rfl)
        | none =>
          refine .pure ⟨h.of_same ?_ rfl rfl rfl rfl rfl, rfl⟩
          exact placesOf_update fun _ => rfl

theorem issueStorePrefetch_steady (h : Steady cfg c) :
    Yields NoCounter (c.issueStorePrefetch cfg s) fun c' => Steady cfg c' ∧ c'.flow = c.flow := by
  rw [Core.issueStorePrefetch]
  cases findEntry c.theMemQueue s with
  | none => exact .ok ⟨h, rfl⟩
  | some e =>
    refine .ite (fun _ => .ok ⟨h, rfl⟩) fun _ => ?_
    refine .ite (fun _ => .error (by decide)) fun _ => ?_
    refine .ite (fun _ => .ok ⟨h, rfl⟩) fun _ => ?_
    refine .bind (scanAndBlockPrefetch_steady h) fun found hfound => ?_
    cases found with
    | some c' => exact .pure (hfound c' rfl)
    | none =>
      refine .ite (fun _ => .pure ⟨h, rfl⟩) fun _ => ?_
      exact .pure ⟨h.of_same rfl rfl rfl rfl rfl rfl, rfl⟩

theorem issueMMU_steady (h : Steady cfg c) {vaddr : VirtualMemoryAddress}
    {paddr : PhysicalMemoryAddress} {n : Nat} :
    Steady cfg (c.issueMMU vaddr paddr n) ∧ (c.issueMMU vaddr paddr n).flow = c.flow :=
  ⟨h.of_same rfl rfl rfl rfl rfl rfl, rfl⟩

end nuArchARM
