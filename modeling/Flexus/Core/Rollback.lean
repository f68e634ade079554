import Flexus.Core.Retirement

/-!
# Commit and rollback

A retired instruction commits or is discarded with everything that is younger. The
entries a rollback erases are found by the anchor of the checkpoint it goes back to.
-/

namespace nuArchARM

open Runs LSQ

variable {cfg : CoreConfig} {c c' : Core} {s : Nat} {e : LSQEntry} {i : Instruction} {p : Place}

/-! ## Retirement -/

/-- The instruction is the youngest retired one. -/
theorem Leaves.retired (h : Piped c.flow) {rest : List Instruction} (hrob : c.theROB = i :: rest)
    {c₁ : Core} {i' : Instruction} (hl : Leaves cfg c i (c₁, i'))
    (hsrb : c'.theSRB = c₁.theSRB ++ [i']) (hrest : c'.theROB = rest)
    (hks : c'.theCheckpoints = c₁.theCheckpoints)
    (hopen : c'.theOpenCheckpoint = c₁.theOpenCheckpoint)
    (hnum : c'.theMemorySequenceNum = c₁.theMemorySequenceNum) : Piped c'.flow := by
  have hseq : i'.sequenceNo = i.sequenceNo := congrArg Prod.fst hl.ident
  have hnumbers : (c'.theSRB ++ c'.theROB).map Instruction.sequenceNo =
      (c.theSRB ++ c.theROB).map Instruction.sequenceNo := by
    have hbefore : c₁.theSRB = c.theSRB := hl.srb
    rw [hsrb, hrest, hrob, hbefore]
    simp [hseq]
  refine ⟨?_, ?_, ?_, ?_⟩
  · change ((c'.theSRB ++ c'.theROB).map Instruction.sequenceNo).Pairwise _
    rw [hnumbers]
    exact h.inOrder
  · intro j hj
    have hmem : j.sequenceNo ∈ (c.theSRB ++ c.theROB).map Instruction.sequenceNo := by
      rw [← hnumbers]
      exact List.mem_map_of_mem hj
    obtain ⟨j', hj', heq⟩ := List.mem_map.mp hmem
    have hkept : c'.theMemorySequenceNum = c.theMemorySequenceNum := hnum.trans hl.number
    change j.sequenceNo ≤ c'.theMemorySequenceNum
    rw [← heq, hkept]
    exact h.numbered j' hj'
  · intro k hk
    change k ∈ c'.theCheckpoints at hk
    change ∃ j ∈ c'.theSRB, _
    rw [hks] at hk
    have hsaved := List.mem_map_of_mem (f := Checkpoint.saved) hk
    have hold : k.saved ∈ c.theCheckpoints.map Checkpoint.saved →
        ∃ j ∈ c'.theSRB, j.sequenceNo = k.theInstruction ∧ j.hasCheckpoint = true := by
      intro hmem
      obtain ⟨k', hk', heq⟩ := List.mem_map.mp hmem
      have hown : k'.theInstruction = k.theInstruction := congrArg Prod.fst heq
      obtain ⟨j, hj, hjs, hflag⟩ := h.flagged k' hk'
      have hbefore : c₁.theSRB = c.theSRB := hl.srb
      refine ⟨j, ?_, hjs.trans hown, hflag⟩
      rw [hsrb, hbefore]
      exact List.mem_append_left _ hj
    rcases hl.checkpoints with hsame | ⟨hmore, hflag, -⟩
    · exact hold (hsame ▸ hsaved)
    · dsimp only at hmore hflag
      rw [hmore] at hsaved
      rcases List.mem_append.mp hsaved with hsaved | hsaved
      · exact hold hsaved
      · have hown : k.theInstruction = i.sequenceNo :=
          congrArg Prod.fst (List.mem_singleton.mp hsaved)
        refine ⟨i', ?_, hseq.trans hown.symm, hflag⟩
        rw [hsrb]
        exact List.mem_append_right _ (List.mem_singleton.mpr rfl)
  · intro n hn
    change c'.theOpenCheckpoint = some n at hn
    change ∃ k ∈ c'.theCheckpoints, _
    rw [hks]
    exact hl.opened n (hopen ▸ hn)

theorem retire_steady (h : Steady cfg c) {memory : Bool} :
    Yields NoCounter (c.retire cfg memory) fun c' =>
      Steady cfg c' ∧ (c.theROB = [] ∧ c'.flow = c.flow ∨ ∃ i, Retires c.flow c'.flow i ∧
        (c'.theCheckpoints.map Checkpoint.saved = c.theCheckpoints.map Checkpoint.saved ∨
          c.takesCheckpoint cfg i = true)) := by
  rw [Core.retire]
  cases hrob : c.theROB with
  | nil => exact .ok ⟨h, .inl ⟨rfl, rfl⟩⟩
  | cons i rest =>
    have hleaves : Yields NoCounter (if memory then c.retireMem cfg i else pure (c, i))
        (Leaves cfg c i) :=
      .ite (fun _ => retireMem_leaves h) fun _ => .pure (.of_steady h rfl rfl)
    refine .bind hleaves ?_
    rintro ⟨c₁, i'⟩ hl
    refine .pure ⟨⟨hl.stocked.of_same rfl rfl rfl rfl rfl rfl, hl.anchored, hl.holding,
      hl.retired h.piped hrob rfl rfl rfl rfl rfl⟩, .inr ⟨i, ⟨hrob, ?_, ?_, ?_⟩, ?_⟩⟩
    · have hpc : i'.pc = i.pc := congrArg Prod.snd hl.ident
      change i'.pc + 4#64 = i.pc + 4#64
      rw [hpc]
    · have hsrb : c₁.theSRB = c.theSRB := hl.srb
      change (c₁.theSRB ++ [i']).map Instruction.ident = c.theSRB.map Instruction.ident ++ [i.ident]
      rw [hsrb, List.map_append, List.map_singleton]
      exact congrArg (_ ++ [·]) hl.ident
    · rcases hl.checkpoints with hsame | ⟨hmore, -, -⟩
      · exact .inl hsame
      · exact .inr hmore
    · rcases hl.checkpoints with hsame | ⟨-, -, htakes⟩
      · exact .inl hsame
      · exact .inr htakes

/-! ## Commit -/

/-- An entry of the speculative store buffer is no longer speculative. -/
theorem Steady.settle (h : Steady cfg c) (hp : Keyed.lookup Place.seq c.places s = some p)
    (hqueue : p.queue = .kSSB) (hspares : Spares c.places c.theCheckpoints s) :
    Steady cfg { c with
      theMemQueue := updateEntry c.theMemQueue s fun e => { e with theQueue := .kSB } } := by
  have hplaces : placesOf (updateEntry c.theMemQueue s fun e => { e with theQueue := .kSB }) =
      Keyed.alter Place.seq s (fun p => { p with queue := .kSB }) c.places :=
    Keyed.map_alter_image (fun _ => rfl) fun _ => rfl
  have hbalanced : Balanced cfg { c with
      theMemQueue := updateEntry c.theMemQueue s fun e => { e with theQueue := .kSB } } := by
    refine h.stocked.balanced.alter h.stocked.unique hp hplaces ?_ ?_ ?_ h.stocked.balanced.sane ?_
    · simp [Place.inLSQ, hqueue]
    · simp [Place.inSB, hqueue]
    · simp [Place.inNAW, hqueue]
    · intro a
      have hsame : ({ p with queue := .kSB } : Place).needsLine cfg a = p.needsLine cfg a := by
        simp [Place.needsLine, Place.writes, hqueue]
      rw [hsame, sub_self, add_zero]
  refine ⟨h.stocked.of_alter hbalanced hplaces (fun _ => rfl) (fun p hp => h.stocked.valid p hp)
    (fun _ _ hq => by cases hq) rfl, ?_, h.holding, h.piped⟩
  rw [Core.places, hplaces]
  exact h.anchored.alter hspares fun _ => rfl

/-- The checkpoint of the instruction is gone. -/
theorem freeCheckpoint_steady (h : Steady cfg c) :
    Yields NoCounter (c.freeCheckpoint s) fun c' => Steady cfg c' ∧ Stays c.flow c'.flow ∧
      c'.theSRB = c.theSRB ∧ ∀ k ∈ c'.theCheckpoints, k.theInstruction ≠ s := by
  rw [Core.freeCheckpoint]
  cases Keyed.lookup Checkpoint.theInstruction c.theCheckpoints s with
  | none => exact .error (by decide)
  | some ckpt =>
    have hsub : (Keyed.erase Checkpoint.theInstruction s c.theCheckpoints).Sublist
        c.theCheckpoints := List.filter_sublist
    refine .ok ⟨⟨h.stocked.of_same rfl rfl rfl rfl rfl rfl, ?_, ?_, ?_⟩, ?_, rfl, ?_⟩
    · exact h.anchored.fewer (exists_of_saved (hsub.map _))
    · intro k hk
      exact h.holding k (hsub.subset hk)
    · refine ⟨h.piped.inOrder, h.piped.numbered, fun k hk => h.piped.flagged k (hsub.subset hk), ?_⟩
      intro n hn
      change (if c.theOpenCheckpoint = some s then none else c.theOpenCheckpoint) = some n at hn
      split at hn
      · cases hn
      · next hne =>
        obtain ⟨k, hk, heq⟩ := h.piped.opened n hn
        refine ⟨k, List.mem_filter.mpr ⟨hk, ?_⟩, heq⟩
        have hns : n ≠ s := by
          rintro rfl
          exact hne hn
        simpa [heq] using hns
    · exact ⟨rfl, List.Sublist.refl _, hsub.map _⟩
    · intro k hk
      simpa using (List.mem_filter.mp hk).2

theorem commitStore_steady (h : Steady cfg c) (hno : ∀ k ∈ c.theCheckpoints, k.theInstruction ≠ s) :
    Yields NoCounter (c.commitStore s) fun c' => Steady cfg c' ∧ c'.flow = c.flow := by
  rw [Core.commitStore]
  cases hfind : findEntry c.theMemQueue s with
  | none => exact .ok ⟨h, rfl⟩
  | some e =>
    refine .ite (fun _ => .error (by decide)) fun _ => ?_
    refine .ite (fun _ => .error (by decide)) fun hqueue => ?_
    refine .ite (fun _ => .error (by decide)) fun _ => ?_
    refine .ite (fun _ => .error (by decide)) fun _ => ?_
    refine .ite (fun _ => .error (by decide)) fun _ => ?_
    exact .ok ⟨h.settle (lookup_place hfind) (not_not.mp hqueue) (spares_of_none hno), rfl⟩

theorem commitEffects_steady (h : Steady cfg c)
    (hno : ∀ k ∈ c.theCheckpoints, k.theInstruction ≠ i.sequenceNo) :
    Yields NoCounter (c.commitEffects cfg i) fun c' => Steady cfg c' ∧ c'.flow = c.flow := by
  rw [Core.commitEffects]
  cases i.theCommitEffect with
  | keep => exact .ok ⟨h, rfl⟩
  | commitStore => exact commitStore_steady h hno
  | eraseLSQ => exact h.erase (spares_of_none hno)

/-- An instruction without the flag has no checkpoint. -/
theorem Piped.no_checkpoint_of_flag {f : Flow} (h : Piped f) (hi : i ∈ f.theSRB)
    (hflag : i.hasCheckpoint ≠ true) : ∀ k ∈ f.theCheckpoints, k.theInstruction ≠ i.sequenceNo := by
  intro k hk heq
  obtain ⟨j, hj, hseq, hjflag⟩ := h.flagged k hk
  have hunique : ((f.theSRB ++ f.theROB).map Instruction.sequenceNo).Nodup :=
    h.inOrder.imp fun hlt => Nat.ne_of_lt hlt
  have hsame : j = i := List.inj_on_of_nodup_map hunique (List.mem_append_left _ hj)
    (List.mem_append_left _ hi) (hseq.trans heq)
  exact hflag (hsame ▸ hjflag)

/-- The oldest retired instruction is done. -/
theorem Steady.committed (h : Steady cfg c) {rest : List Instruction} (hsrb : c.theSRB = i :: rest)
    (hno : ∀ k ∈ c.theCheckpoints, k.theInstruction ≠ i.sequenceNo) :
    Steady cfg { c with theSRB := rest } := by
  have hsub : (rest ++ c.theROB).Sublist (c.theSRB ++ c.theROB) := by
    rw [hsrb]
    exact (List.sublist_cons_self i rest).append (List.Sublist.refl _)
  refine ⟨h.stocked.of_same rfl rfl rfl rfl rfl rfl, h.anchored, h.holding,
    h.piped.inOrder.sublist (hsub.map _), fun j hj => h.piped.numbered j (hsub.subset hj), ?_,
    h.piped.opened⟩
  intro k hk
  obtain ⟨j, hj, hseq, hflag⟩ := h.piped.flagged k hk
  change j ∈ c.theSRB at hj
  rw [hsrb] at hj
  rcases List.mem_cons.mp hj with rfl | hj
  · exact absurd hseq.symm (hno k hk)
  · exact ⟨j, hj, hseq, hflag⟩

/-! ## Rollback -/

theorem rollbackTarget_mem {srb : List Instruction} {violator : Nat} {target : Instruction}
    (h : Core.rollbackTarget srb violator = some target) : target ∈ srb := by
  rw [Core.rollbackTarget, Option.or_eq_some_iff] at h
  rcases h with hfound | ⟨-, hhead⟩
  · have hmem := List.mem_of_find?_eq_some hfound
    rw [List.mem_reverse, List.mem_append] at hmem
    rcases hmem with hmem | hmem
    · exact (List.takeWhile_sublist _).subset hmem
    · rw [Option.mem_toList] at hmem
      exact (List.dropWhile_sublist _).subset (List.mem_of_head? hmem)
  · exact List.mem_of_head? hhead

/-- In program order, what is older than an instruction is before it. -/
theorem mem_takeWhile_of_lt {is : List Instruction} {j target : Instruction}
    (horder : (is.map Instruction.sequenceNo).Pairwise (· < ·)) (hj : j ∈ is)
    (hlt : j.sequenceNo < target.sequenceNo) :
    j ∈ is.takeWhile fun i => i.sequenceNo != target.sequenceNo := by
  induction is with
  | nil => cases hj
  | cons x is ih =>
    obtain ⟨hhead, htail⟩ := List.pairwise_cons.mp horder
    have hx : x.sequenceNo < target.sequenceNo := by
      rcases List.mem_cons.mp hj with rfl | hj
      · exact hlt
      · exact (hhead _ (List.mem_map_of_mem hj)).trans hlt
    rw [List.takeWhile_cons_of_pos (by simpa using Nat.ne_of_lt hx)]
    rcases List.mem_cons.mp hj with rfl | hj
    · exact List.mem_cons_self
    · exact List.mem_cons_of_mem _ (ih htail hj)

/-- The anchor of a checkpoint shows the rollback what to erase. -/
theorem Anchored.found {q : List LSQEntry} {ks : List Checkpoint} (h : Anchored (placesOf q) ks)
    {ckpt : Checkpoint} (hk : ckpt ∈ ks) (hown : ckpt.theInstruction = s) :
    (∃ p ∈ placesOf q, speculativeFrom s p = true) ∨ (q.filter fun e => e.theQueue == .kSSB) = [] := by
  rcases h ckpt hk with ⟨p, hp, hseq, hqueue⟩ | hall
  · exact .inl ⟨p, hp, by simp [speculativeFrom, hqueue, hseq, hown]⟩
  · by_cases hany : ∃ e ∈ q, e.theQueue = .kSSB
    · obtain ⟨e, he, hqueue⟩ := hany
      have hp : e.place ∈ placesOf q := List.mem_map_of_mem he
      have hle : s ≤ e.place.seq := hown ▸ hall _ hp
      have hssb : e.place.queue = .kSSB := hqueue
      exact .inl ⟨e.place, hp, by simp [speculativeFrom, hssb, hle]⟩
    · refine .inr (List.filter_eq_nil_iff.mpr fun e he => ?_)
      intro hqueue
      exact hany ⟨e, he, by simpa using hqueue⟩

/-- The load-store queue anchors nothing. -/
theorem Anchored.clearLSQ {ps : List Place} {ks : List Checkpoint} (h : Anchored ps ks) :
    Anchored (ps.filter fun p => p.queue != .kLSQ) ks := by
  intro k hk
  rcases h k hk with ⟨p, hp, hseq, hqueue⟩ | hall
  · exact .inl ⟨p, List.mem_filter.mpr ⟨hp, by simp [hqueue]⟩, hseq, hqueue⟩
  · exact .inr fun p hp => hall p (List.mem_of_mem_filter hp)

/-- Older checkpoints keep their anchors. -/
theorem Anchored.rollback {ps : List Place} {ks : List Checkpoint} (h : Anchored ps ks) :
    Anchored (ps.filter fun p => !speculativeFrom s p)
      (ks.filter fun k => decide (k.theInstruction < s)) := by
  intro k hk
  obtain ⟨hk, hlt⟩ := List.mem_filter.mp hk
  have hlt : k.theInstruction < s := by simpa using hlt
  rcases h k hk with ⟨p, hp, hseq, hqueue⟩ | hall
  · refine .inl ⟨p, List.mem_filter.mpr ⟨hp, ?_⟩, hseq, hqueue⟩
    rw [speculativeFrom, hqueue, hseq]
    simpa using hlt
  · exact .inr fun p hp => hall p (List.mem_of_mem_filter hp)

theorem resetARM_steady (h : Steady cfg c) :
    Yields NoCounter c.resetARM fun c' => Steady cfg c' ∧
      c'.flow = { c.flow with theROB := [], theRedirectRequested := false, theRedirectPC := 0#64 } := by
  have hbalanced : Balanced cfg
      { c with theROB := [], theRedirectRequested := false, theRedirectPC := 0#64 } :=
    h.stocked.balanced.of_same rfl rfl rfl rfl rfl
  refine (clearLSQ_yields hbalanced).weaken ?_
  rintro c' ⟨hb, hplaces, hflow⟩
  have hks : c'.theCheckpoints = c.theCheckpoints := congrArg Flow.theCheckpoints hflow
  refine ⟨⟨h.stocked.of_sublist hb (hplaces ▸ List.filter_sublist)
    (congrArg Flow.theMemorySequenceNum hflow), ?_, hks ▸ h.holding, ?_⟩, hflow⟩
  · rw [hplaces, hks]
    exact h.anchored.clearLSQ
  · rw [hflow]
    have hsub : (c.theSRB ++ []).Sublist (c.theSRB ++ c.theROB) :=
      (List.Sublist.refl _).append (List.nil_sublist _)
    exact ⟨h.piped.inOrder.sublist (hsub.map _), fun j hj => h.piped.numbered j (hsub.subset hj),
      h.piped.flagged, h.piped.opened⟩

/-- What is left of the instructions after a rollback. -/
theorem Piped.rollback {f f' : Flow} (h : Piped f) {target : Instruction} (hrob : f'.theROB = [])
    (hsrb : f'.theSRB = f.theSRB.takeWhile fun i => i.sequenceNo != target.sequenceNo)
    (hks : f'.theCheckpoints =
      f.theCheckpoints.filter fun k => decide (k.theInstruction < target.sequenceNo))
    (hopen : f'.theOpenCheckpoint = Core.youngest f'.theCheckpoints)
    (hnum : f'.theMemorySequenceNum = f.theMemorySequenceNum) : Piped f' := by
  have hsub : (f'.theSRB ++ f'.theROB).Sublist (f.theSRB ++ f.theROB) := by
    rw [hrob, hsrb]
    exact (List.takeWhile_sublist _).append (List.nil_sublist _)
  refine ⟨h.inOrder.sublist (hsub.map _), ?_, ?_, ?_⟩
  · intro j hj
    rw [hnum]
    exact h.numbered j (hsub.subset hj)
  · intro k hk
    rw [hks] at hk
    obtain ⟨hk, hlt⟩ := List.mem_filter.mp hk
    obtain ⟨j, hj, hseq, hflag⟩ := h.flagged k hk
    refine ⟨j, ?_, hseq, hflag⟩
    rw [hsrb]
    have horder := h.inOrder
    rw [List.map_append, List.pairwise_append] at horder
    refine mem_takeWhile_of_lt horder.1 hj ?_
    rw [hseq]
    simpa using hlt
  · intro n hn
    rw [hopen, Core.youngest] at hn
    obtain ⟨k, hk, heq⟩ := List.mem_map.mp (List.max?_mem hn)
    exact ⟨k, hk, heq⟩

theorem doAbortSpeculation_steady (h : Steady cfg c) :
    Yields NoCounter (c.doAbortSpeculation cfg) fun c' =>
      Steady cfg c' ∧ ∃ target ckpt, RollsBack c.flow c'.flow target ckpt := by
  rw [Core.doAbortSpeculation]
  refine .ite (fun _ => .error (by decide)) fun _ => ?_
  refine .ite (fun _ => .error (by decide)) fun _ => ?_
  cases htarget : Core.rollbackTarget c.theSRB c.theViolatingInstruction with
  | none => exact .error (by decide)
  | some target =>
    dsimp only
    cases hlookup : Keyed.lookup Checkpoint.theInstruction c.theCheckpoints target.sequenceNo with
    | none => exact .error (by decide)
    | some ckpt =>
      obtain ⟨hckpt, hown⟩ := Keyed.mem_of_lookup hlookup
      refine .bind (resetARM_steady h) ?_
      rintro c₁ ⟨h₁, hflow⟩
      refine .bind cleanMSHRS_places ?_
      rintro ⟨q, ms⟩ hq
      have hplaces : placesOf q = c₁.places := hq
      have hks : c₁.theCheckpoints = c.theCheckpoints := congrArg Flow.theCheckpoints hflow
      have hsrb : c₁.theSRB = c.theSRB := congrArg Flow.theSRB hflow
      have hanchored : Anchored (placesOf q) c₁.theCheckpoints := hplaces ▸ h₁.anchored
      have hsorted : ((placesOf q).map Place.seq).Pairwise (· < ·) := hplaces ▸ h₁.stocked.sorted
      refine .bind (clearSSBFrom_yields (h₁.stocked.balanced.of_same hplaces rfl rfl rfl rfl) hsorted
        (hanchored.found (hks ▸ hckpt) hown)) ?_
      rintro c₂ ⟨hbalanced, hleft, hflow₂⟩
      have hks₂ : c₂.theCheckpoints = c₁.theCheckpoints := congrArg Flow.theCheckpoints hflow₂
      have hnum : c₂.theMemorySequenceNum = c.theMemorySequenceNum :=
        (congrArg Flow.theMemorySequenceNum hflow₂).trans (congrArg Flow.theMemorySequenceNum hflow)
      have hleft' : c₂.places = c₁.places.filter fun p => !speculativeFrom target.sequenceNo p :=
        hleft.trans (by rw [Core.places, hplaces])
      have hstocked : Stocked cfg c₂ :=
        h₁.stocked.of_sublist hbalanced (hleft' ▸ List.filter_sublist)
          (congrArg Flow.theMemorySequenceNum hflow₂)
      have hkept : (c₂.theCheckpoints.filter fun k =>
          decide (k.theInstruction < target.sequenceNo)).Sublist c.theCheckpoints := by
        rw [hks₂, hks]
        exact List.filter_sublist
      have hsrb₂ : c₂.theSRB = c.theSRB.takeWhile fun i => i.sequenceNo != target.sequenceNo :=
        (congrArg Flow.theSRB hflow₂).trans (congrArg (List.takeWhile _) hsrb)
      refine .pure ⟨⟨hstocked.of_same rfl rfl rfl rfl rfl rfl, ?_, ?_, ?_⟩, target, ckpt,
        rollbackTarget_mem htarget, hckpt, hown, hsrb₂, congrArg Flow.thePC hflow₂, ⟨rfl, rfl⟩,
        hkept.map _⟩
      · change Anchored c₂.places (c₂.theCheckpoints.filter _)
        rw [hleft', hks₂]
        exact h₁.anchored.rollback
      · intro k hk
        exact h.holding k (hkept.subset hk)
      · have hrob : c₂.theROB = [] :=
          (congrArg Flow.theROB hflow₂).trans (congrArg Flow.theROB hflow)
        have hfewer : c₂.theCheckpoints = c.theCheckpoints := hks₂.trans hks
        exact h.piped.rollback hrob hsrb₂ (congrArg (List.filter _) hfewer) rfl hnum

theorem commit_steady (h : Steady cfg c) :
    Yields NoCounter (c.commit cfg) fun c' => Steady cfg c' ∧
      (c.theAbortSpeculation = false ∧ Stays c.flow c'.flow ∨
        c.theAbortSpeculation = true ∧ ∃ target ckpt, RollsBack c.flow c'.flow target ckpt) := by
  rw [Core.commit]
  refine .ite (fun habort => ?_) fun hgoes => ?_
  · exact (doAbortSpeculation_steady h).weaken fun c' hc' => ⟨hc'.1, .inr ⟨habort, hc'.2⟩⟩
  have hgoes : c.theAbortSpeculation = false := by simpa using hgoes
  cases hsrb : c.theSRB with
  | nil => exact .ok ⟨h, .inl ⟨hgoes, .refl _⟩⟩
  | cons i rest =>
    refine .ite (fun _ => .ok ⟨h, .inl ⟨hgoes, .refl _⟩⟩) fun _ => ?_
    have hfree : Yields NoCounter
        (if i.hasCheckpoint then c.freeCheckpoint i.sequenceNo else pure c) fun c' =>
          Steady cfg c' ∧ Stays c.flow c'.flow ∧ c'.theSRB = c.theSRB ∧
            ∀ k ∈ c'.theCheckpoints, k.theInstruction ≠ i.sequenceNo := by
      refine .ite (fun _ => freeCheckpoint_steady h) fun hflag => ?_
      refine .pure ⟨h, .refl _, rfl, h.piped.no_checkpoint_of_flag ?_ hflag⟩
      change i ∈ c.theSRB
      rw [hsrb]
      exact List.mem_cons_self
    refine .bind hfree ?_
    rintro c₁ ⟨h₁, hstays, hsame, hno⟩
    refine .bind (commitEffects_steady h₁ hno) ?_
    rintro c₂ ⟨h₂, hflow⟩
    have hsrb₂ : c₂.theSRB = i :: rest := (congrArg Flow.theSRB hflow).trans (hsame.trans hsrb)
    have hno₂ : ∀ k ∈ c₂.theCheckpoints, k.theInstruction ≠ i.sequenceNo := by
      have hks : c₂.theCheckpoints = c₁.theCheckpoints := congrArg Flow.theCheckpoints hflow
      rw [hks]
      exact hno
    refine .pure ⟨h₂.committed hsrb₂ hno₂,
      .inl ⟨hgoes, (hstays.trans (.of_eq hflow)).trans ⟨rfl, ?_, ?_⟩⟩⟩
    · change (rest.map Instruction.ident).Sublist (c₂.theSRB.map Instruction.ident)
      rw [hsrb₂]
      exact (List.sublist_cons_self i rest).map _
    · exact List.Sublist.refl _

/-! ## Resolution and resynchronisation -/

theorem allowCommit_ident {is : List Instruction} :
    (Core.allowCommit s is).map Instruction.ident = is.map Instruction.ident := by
  rw [Core.allowCommit, List.map_map]
  refine List.map_congr_left fun i _ => ?_
  rw [Function.comp_apply]
  split <;> rfl

theorem mem_allowCommit {is : List Instruction} {j : Instruction} (hj : j ∈ is) :
    ∃ j' ∈ Core.allowCommit s is, j'.sequenceNo = j.sequenceNo ∧ j'.hasCheckpoint = j.hasCheckpoint := by
  refine ⟨_, List.mem_map_of_mem hj, ?_⟩
  split <;> exact ⟨rfl, rfl⟩

/-- Whether an instruction may commit is no part of the invariant. -/
theorem resolveSpeculation_steady (h : Steady cfg c) :
    Steady cfg (c.resolveSpeculation s) ∧ Stays c.flow (c.resolveSpeculation s).flow := by
  have hidents : (Core.allowCommit s c.theSRB ++ Core.allowCommit s c.theROB).map Instruction.ident =
      (c.theSRB ++ c.theROB).map Instruction.ident := by
    rw [List.map_append, List.map_append, allowCommit_ident, allowCommit_ident]
  have hnumbers : (Core.allowCommit s c.theSRB ++ Core.allowCommit s c.theROB).map
      Instruction.sequenceNo = (c.theSRB ++ c.theROB).map Instruction.sequenceNo := by
    have hfst := congrArg (List.map Prod.fst) hidents
    rw [List.map_map, List.map_map] at hfst
    exact hfst
  refine ⟨⟨h.stocked.of_same rfl rfl rfl rfl rfl rfl, h.anchored, h.holding, ?_, ?_, ?_,
    h.piped.opened⟩, rfl, ?_, List.Sublist.refl _⟩
  · change ((Core.allowCommit s c.theSRB ++ Core.allowCommit s c.theROB).map _).Pairwise _
    rw [hnumbers]
    exact h.piped.inOrder
  · intro j hj
    have hmem : j.sequenceNo ∈ (c.theSRB ++ c.theROB).map Instruction.sequenceNo := by
      rw [← hnumbers]
      exact List.mem_map_of_mem hj
    obtain ⟨j', hj', heq⟩ := List.mem_map.mp hmem
    rw [← heq]
    exact h.piped.numbered j' hj'
  · intro k hk
    obtain ⟨j, hj, hseq, hflag⟩ := h.piped.flagged k hk
    obtain ⟨j', hj', hseq', hflag'⟩ := mem_allowCommit (s := s) hj
    exact ⟨j', hj', hseq'.trans hseq, hflag'.trans hflag⟩
  · change ((Core.allowCommit s c.theSRB).map Instruction.ident).Sublist _
    rw [allowCommit_ident]
    exact List.Sublist.refl _

/-- The oldest operation anchors nothing that is younger. -/
theorem spares_head {rest : List LSQEntry} {ks : List Checkpoint} (hq : c.theMemQueue = e :: rest)
    (h : Stocked cfg c) : Spares c.places ks e.theSequenceNum := by
  refine .inr (.inr fun p hp => ?_)
  have hsorted := h.sorted
  rw [Core.places, hq, placesOf, List.map_cons] at hsorted hp
  rcases List.mem_cons.mp hp with rfl | hp
  · exact le_rfl
  · exact ((List.pairwise_cons.mp hsorted).1 _ (List.mem_map_of_mem hp)).le

theorem findEntry_head {rest : List LSQEntry} (hq : c.theMemQueue = e :: rest) :
    findEntry c.theMemQueue e.theSequenceNum = some e := by
  rw [hq]
  simp [Keyed.lookup]

theorem resolveCheckpoint_steady (h : Steady cfg c) :
    Yields NoCounter (c.resolveCheckpoint cfg) fun c' => Steady cfg c' ∧ Stays c.flow c'.flow := by
  rw [Core.resolveCheckpoint]
  cases hq : c.theMemQueue with
  | nil => exact .ok ⟨h, .refl _⟩
  | cons e rest =>
    refine .ite (fun hhead => ?_) fun _ => .ok ⟨h, .refl _⟩
    refine .ite (fun _ => .error (by decide)) fun _ => ?_
    cases Keyed.lookup Checkpoint.theInstruction c.theCheckpoints e.theSequenceNum with
    | none => exact .error (by decide)
    | some ckpt =>
      refine .ite (fun _ => ?_) fun _ => .ok ⟨h, .refl _⟩
      obtain ⟨h₁, hstays⟩ := resolveSpeculation_steady (s := e.theSequenceNum) h
      have hq₁ : (c.resolveSpeculation e.theSequenceNum).theMemQueue = e :: rest := hq
      refine .ite (fun _ => ?_) fun _ => .ite (fun _ => ?_) fun _ => ?_
      · refine .ok ⟨h₁.settle (lookup_place (findEntry_head hq₁)) hhead.1
          (spares_head hq₁ h₁.stocked), hstays⟩
      · refine (h₁.erase (spares_head hq₁ h₁.stocked)).weaken ?_
        rintro c' ⟨hsteady, hflow⟩
        exact ⟨hsteady, hstays.trans (.of_eq hflow)⟩
      · exact .ok ⟨h₁, hstays⟩

theorem resynchronize_steady (h : Steady cfg c) {aPC : VirtualMemoryAddress} :
    Yields NoCounter (c.resynchronize cfg aPC) fun c' => Steady cfg c' ∧
      c'.flow.thePC = aPC ∧ c'.flow.theSRB = [] ∧ c'.flow.theCheckpoints = [] := by
  rw [Core.resynchronize]
  refine .bind cleanMSHRS_places ?_
  rintro ⟨q, ms⟩ hq
  refine .bind (resetARM_steady (h.requeue hq)) ?_
  rintro c₁ ⟨h₁, hflow⟩
  have hrob : c₁.theROB = [] := congrArg Flow.theROB hflow
  refine .bind (clearSSB_yields (h₁.stocked.balanced.of_same rfl rfl rfl rfl rfl) h₁.stocked.unique) ?_
  rintro c₂ ⟨hbalanced, hplaces, hflow₂⟩
  have hsrb₂ : c₂.theSRB = [] := congrArg Flow.theSRB hflow₂
  have hrob₂ : c₂.theROB = [] := (congrArg Flow.theROB hflow₂).trans hrob
  have hstocked : Stocked cfg c₂ := h₁.stocked.of_sublist hbalanced (hplaces ▸ List.filter_sublist)
    (congrArg Flow.theMemorySequenceNum hflow₂)
  refine .pure ⟨⟨hstocked.of_same rfl rfl rfl rfl rfl rfl, ?_, ?_, ?_, ?_, ?_, ?_⟩, rfl, hsrb₂, rfl⟩
  · intro k hk
    cases hk
  · intro k hk
    cases hk
  · change ((c₂.theSRB ++ c₂.theROB).map _).Pairwise _
    rw [hsrb₂, hrob₂]
    exact List.Pairwise.nil
  · intro j hj
    change j ∈ c₂.theSRB ++ c₂.theROB at hj
    rw [hsrb₂, hrob₂] at hj
    cases hj
  · intro k hk
    cases hk
  · intro n hn
    cases hn

end nuArchARM
