import Flexus.Core.Speculation

/-!
# Retirement and rollback keep the invariant

One lemma for each way an entry enters, moves in or leaves the memory queue.
-/

namespace nuArchARM

open Runs LSQ

variable {cfg : CoreConfig} {c c' : Core} {s : Nat} {e : LSQEntry} {i : Instruction} {p : Place}

/-! ## One entry changes -/

theorem Balanced.alter (h : Balanced cfg c) (hunique : (c.places.map Place.seq).Nodup)
    (hp : Keyed.lookup Place.seq c.places s = some p) {f : Place → Place}
    (hplaces : c'.places = Keyed.alter Place.seq s f c.places)
    (hlsq : c'.theLSQCount = c.theLSQCount + ((f p).inLSQ - p.inLSQ))
    (hsb : c'.theSBCount = c.theSBCount + ((f p).inSB - p.inSB))
    (hnaw : c'.theSBNAWCount = c.theSBNAWCount + ((f p).inNAW - p.inNAW))
    (hsane : c'.thePermissions.Sane)
    (hlines : ∀ a, c'.thePermissions.countAt a =
      c.thePermissions.countAt a + ((f p).needsLine cfg a - p.needsLine cfg a)) :
    Balanced cfg c' where
  lsq := by rw [hplaces, tally_alter hunique hp, ← h.lsq, hlsq]
  sb := by rw [hplaces, tally_alter hunique hp, ← h.sb, hsb]
  naw := by rw [hplaces, tally_alter hunique hp, ← h.naw, hnaw]
  sane := hsane
  lines := by
    intro a
    rw [hplaces, tally_alter hunique hp, ← h.lines, hlines]

theorem lookup_place (hfind : findEntry c.theMemQueue s = some e) :
    Keyed.lookup Place.seq c.places s = some e.place := by
  rw [lookup_placesOf, hfind]
  rfl

/-- The only entry of a number. -/
theorem eq_of_lookup (hunique : (c.places.map Place.seq).Nodup)
    (hp : Keyed.lookup Place.seq c.places s = some p) {x : Place} (hx : x ∈ c.places)
    (hseq : x.seq = s) : x = p := by
  obtain ⟨hmem, hkey⟩ := Keyed.mem_of_lookup hp
  exact List.inj_on_of_nodup_map hunique hx hmem (hseq.trans hkey.symm)

/-- An entry outside the speculative store buffer anchors nothing. -/
theorem spares_of_queue {ks : List Checkpoint} (hunique : (c.places.map Place.seq).Nodup)
    (hp : Keyed.lookup Place.seq c.places s = some p) (hqueue : p.queue ≠ .kSSB) :
    Spares c.places ks s := by
  refine .inr (.inl fun x hx hseq => ?_)
  rw [eq_of_lookup hunique hp hx hseq]
  exact hqueue

theorem spares_of_none {ps : List Place} {ks : List Checkpoint}
    (hno : ∀ k ∈ ks, k.theInstruction ≠ s) : Spares ps ks s := .inl hno

theorem execute_steady (h : Steady cfg c) {x : Core.Executed} :
    Yields NoCounter (c.execute cfg s x) fun c' => Steady cfg c' ∧ c'.flow = c.flow := by
  rw [Core.execute]
  cases hfind : findEntry c.theMemQueue s with
  | none => exact .ok ⟨h, rfl⟩
  | some e =>
    have hp := lookup_place hfind
    refine .ite (fun _ => .ok ⟨h, rfl⟩) fun hqueue => ?_
    refine .ite (fun _ => .error (by decide)) fun hvalid => ?_
    have hlsq : e.place.queue = .kLSQ := not_not.mp hqueue
    have hbroken : Yields NoCounter
        (if x.thePaddr = e.thePaddr then pure (c.theMemQueue, c.theMSHRs)
          else breakMSHRLink cfg c.theMemQueue c.theMSHRs e) fun r => placesOf r.1 = c.places :=
      .ite (fun _ => .pure rfl) fun _ => breakMSHRLink_places
    refine .bind hbroken ?_
    rintro ⟨q, ms⟩ hq
    dsimp only at hq ⊢
    have hplaces : placesOf (updateEntry q s x.apply) =
        Keyed.alter Place.seq s (fun p => { p with paddr := x.thePaddr }) c.places := by
      rw [← hq]
      exact Keyed.map_alter_image (fun _ => rfl) fun _ => rfl
    have hbalanced : Balanced cfg
        { c with theMemQueue := updateEntry q s x.apply, theMSHRs := ms } := by
      refine h.stocked.balanced.alter h.stocked.unique hp hplaces ?_ ?_ ?_ h.stocked.balanced.sane ?_
      · simp [Place.inLSQ]
      · simp [Place.inSB]
      · simp [Place.inNAW]
      · intro a
        simp [Place.needsLine, hlsq]
    have hstocked : Stocked cfg
        { c with theMemQueue := updateEntry q s x.apply, theMSHRs := ms } :=
      h.stocked.of_alter hbalanced hplaces (fun _ => rfl) (fun _ _ => hvalid)
        (fun p hp => h.stocked.bypass p hp) rfl
    refine .pure ⟨⟨hstocked, ?_, h.holding, h.piped⟩, rfl⟩
    rw [Core.places, hplaces]
    refine h.anchored.alter (spares_of_queue h.stocked.unique hp ?_) fun _ => rfl
    rw [hlsq]
    decide

/-! ## Dispatch and squash -/

theorem Steady.insert (h : Steady cfg c) {op : eOperation} {size : eSize} {bypass dependance : Bool}
    (hfresh : ∀ p ∈ c.places, p.seq < s) (hnum : s ≤ c.theMemorySequenceNum)
    (hbypass : bypass = true → op = .kStore) (hnone : ∀ k ∈ c.theCheckpoints, k.theInstruction ≤ s) :
    Steady cfg (c.insertLSQ cfg s op size bypass dependance) := by
  obtain ⟨new, hnew⟩ : ∃ new : Place,
      new = (LSQEntry.create s op size (bypass && cfg.theNAWBypassSB) dependance).place := ⟨_, rfl⟩
  have hplaces : (c.insertLSQ cfg s op size bypass dependance).places = c.places ++ [new] := by
    rw [hnew, Core.places, Core.insertLSQ, placesOf, List.map_append]
    rfl
  have hqueue : new.queue = .kLSQ := by rw [hnew]; rfl
  have hseq : new.seq = s := by rw [hnew]; rfl
  have htally : ∀ g, tally g (c.places ++ [new]) = tally g c.places + g new := by
    intro g
    rw [tally, List.map_append, List.sum_append, List.map_singleton, List.sum_singleton]
  refine ⟨⟨⟨?_, ?_, ?_, h.stocked.balanced.sane, ?_⟩, ?_, ?_, ?_, ?_⟩, ?_, h.holding, h.piped⟩
  · rw [hplaces, htally, ← h.stocked.balanced.lsq, Place.inLSQ, if_pos hqueue]
    rfl
  · rw [hplaces, htally, ← h.stocked.balanced.sb, Place.inSB, if_neg (by simp [hqueue]), add_zero]
    rfl
  · rw [hplaces, htally, ← h.stocked.balanced.naw, Place.inNAW, if_neg (by simp [hqueue]), add_zero]
    rfl
  · intro a
    rw [hplaces, htally, ← h.stocked.balanced.lines, Place.needsLine, if_neg (by simp [hqueue]),
      add_zero]
    rfl
  · rw [hplaces, List.map_append, List.pairwise_append]
    refine ⟨h.stocked.sorted, List.pairwise_singleton _ _, ?_⟩
    intro x hx y hy
    obtain ⟨p, hp, rfl⟩ := List.mem_map.mp hx
    rw [List.map_singleton, List.mem_singleton] at hy
    rw [hy, hseq]
    exact hfresh p hp
  · intro p hp
    rw [hplaces] at hp
    rcases List.mem_append.mp hp with hp | hp
    · exact h.stocked.bounded p hp
    · rw [List.mem_singleton.mp hp, hseq]
      exact hnum
  · intro p hp
    rw [hplaces] at hp
    rcases List.mem_append.mp hp with hp | hp
    · exact h.stocked.valid p hp
    · rw [List.mem_singleton.mp hp, hnew]
      change kUnresolved ≠ kInvalid
      decide
  · intro p hp
    rw [hplaces] at hp
    rcases List.mem_append.mp hp with hp | hp
    · exact h.stocked.bypass p hp
    · rw [List.mem_singleton.mp hp, hnew]
      intro _ hboth
      exact hbypass (Bool.and_eq_true_iff.mp hboth).1
  · intro k hk
    rw [hplaces]
    rcases h.anchored k hk with ⟨p, hp, hown⟩ | hall
    · exact .inl ⟨p, List.mem_append_left _ hp, hown⟩
    · refine .inr fun p hp => ?_
      rcases List.mem_append.mp hp with hp | hp
      · exact hall p hp
      · rw [List.mem_singleton.mp hp, hseq]
        exact hnone k hk

/-- A checkpointed instruction has retired. -/
theorem Piped.checkpoint_le {f : Flow} (h : Piped f) {k : Checkpoint} (hk : k ∈ f.theCheckpoints) :
    k.theInstruction ≤ f.theMemorySequenceNum := by
  obtain ⟨i, hi, hseq, -⟩ := h.flagged k hk
  rw [← hseq]
  exact h.numbered i (List.mem_append_left _ hi)

theorem dispatch_steady (h : Steady cfg c) {pc : VirtualMemoryAddress} {effect : CommitEffect}
    {may : Bool} {allocation : Option Core.Allocate} :
    Steady cfg (c.dispatch cfg pc effect may allocation) ∧
      Stays c.flow (c.dispatch cfg pc effect may allocation).flow := by
  obtain ⟨c₁, hc₁⟩ : ∃ c₁ : Core, c₁ = { c with
    theMemorySequenceNum := c.theMemorySequenceNum + 1
    theROB := c.theROB ++ [⟨c.theMemorySequenceNum + 1, pc, effect, may, false⟩] } := ⟨_, rfl⟩
  have hpiped : Piped c₁.flow := by
    rw [hc₁]
    refine ⟨?_, ?_, h.piped.flagged, h.piped.opened⟩
    · change ((c.theSRB ++ (c.theROB ++ [_])).map Instruction.sequenceNo).Pairwise _
      rw [← List.append_assoc, List.map_append, List.pairwise_append]
      refine ⟨h.piped.inOrder, List.pairwise_singleton _ _, ?_⟩
      intro x hx y hy
      obtain ⟨j, hj, rfl⟩ := List.mem_map.mp hx
      rw [List.map_singleton, List.mem_singleton] at hy
      rw [hy]
      exact Nat.lt_succ_of_le (h.piped.numbered j hj)
    · intro j hj
      change j ∈ c.theSRB ++ (c.theROB ++ [_]) at hj
      rw [← List.append_assoc] at hj
      rcases List.mem_append.mp hj with hj | hj
      · exact (h.piped.numbered j hj).trans (Nat.le_succ _)
      · rw [List.mem_singleton.mp hj]
        exact le_rfl
  have hsteady : Steady cfg c₁ := by
    rw [hc₁] at hpiped ⊢
    refine ⟨⟨h.stocked.balanced.of_same rfl rfl rfl rfl rfl, h.stocked.sorted, ?_,
      h.stocked.valid, h.stocked.bypass⟩, h.anchored, h.holding, hpiped⟩
    intro p hp
    exact (h.stocked.bounded p hp).trans (Nat.le_succ _)
  have hfresh : ∀ p ∈ c₁.places, p.seq < c.theMemorySequenceNum + 1 := by
    rw [hc₁]
    exact fun p hp => Nat.lt_succ_of_le (h.stocked.bounded p hp)
  have hnum : c.theMemorySequenceNum + 1 ≤ c₁.theMemorySequenceNum := by rw [hc₁]
  have hnone : ∀ k ∈ c₁.theCheckpoints, k.theInstruction ≤ c.theMemorySequenceNum + 1 := by
    rw [hc₁]
    exact fun k hk => (h.piped.checkpoint_le hk).trans (Nat.le_succ _)
  have hstays : Stays c.flow c₁.flow := by
    rw [hc₁]
    exact ⟨rfl, List.Sublist.refl _, List.Sublist.refl _⟩
  cases allocation with
  | none =>
    simp only [Core.dispatch, ← hc₁]
    exact ⟨hsteady, hstays⟩
  | some a =>
    simp only [Core.dispatch, ← hc₁]
    cases a with
    | store size bypass =>
      exact ⟨hsteady.insert hfresh hnum (fun _ => rfl) hnone, hstays⟩
    | membar | load size | cas size | rmw size =>
      exact ⟨hsteady.insert hfresh hnum (fun hb => by cases hb) hnone, hstays⟩

/-- An instruction that has not retired has no checkpoint. -/
theorem Piped.no_checkpoint_of_rob {f : Flow} (h : Piped f) (hi : i ∈ f.theROB) :
    ∀ k ∈ f.theCheckpoints, k.theInstruction ≠ i.sequenceNo := by
  intro k hk heq
  obtain ⟨j, hj, hseq, -⟩ := h.flagged k hk
  have horder := h.inOrder
  rw [List.map_append, List.pairwise_append] at horder
  have hlt := horder.2.2 j.sequenceNo (List.mem_map_of_mem hj) i.sequenceNo (List.mem_map_of_mem hi)
  omega

theorem squash_steady (h : Steady cfg c) :
    Yields NoCounter (c.squash cfg) fun c' => Steady cfg c' ∧ Stays c.flow c'.flow := by
  rw [Core.squash]
  cases hlast : c.theROB.getLast? with
  | none => exact .ok ⟨h, .refl _⟩
  | some i =>
    have hi : i ∈ c.theROB := List.mem_of_getLast? hlast
    refine .bind (h.erase (spares_of_none (h.piped.no_checkpoint_of_rob hi))) ?_
    rintro c₁ ⟨hsteady, hflow⟩
    have hrob : c₁.theROB.dropLast.Sublist c.theROB := by
      have hsame : c₁.theROB = c.theROB := congrArg Flow.theROB hflow
      rw [hsame]
      exact List.dropLast_sublist _
    have hsrb : c₁.theSRB = c.theSRB := congrArg Flow.theSRB hflow
    have hks : c₁.theCheckpoints = c.theCheckpoints := congrArg Flow.theCheckpoints hflow
    have hall : (c₁.theSRB ++ c₁.theROB.dropLast).Sublist (c.theSRB ++ c.theROB) := by
      rw [hsrb]
      exact (List.Sublist.refl _).append hrob
    refine .pure ⟨⟨hsteady.stocked.of_same rfl rfl rfl rfl rfl rfl, hsteady.anchored,
      hsteady.holding, ?_⟩, ?_⟩
    · refine ⟨h.piped.inOrder.sublist (hall.map _), ?_, hsteady.piped.flagged,
        hsteady.piped.opened⟩
      intro j hj
      have hnum : c₁.theMemorySequenceNum = c.theMemorySequenceNum :=
        congrArg Flow.theMemorySequenceNum hflow
      change j.sequenceNo ≤ c₁.theMemorySequenceNum
      rw [hnum]
      exact h.piped.numbered j (hall.subset hj)
    · have hpc : c₁.thePC = c.thePC := congrArg Flow.thePC hflow
      refine ⟨hpc, ?_, ?_⟩
      · change (c₁.theSRB.map _).Sublist _
        rw [hsrb]
        exact List.Sublist.refl _
      · change (c₁.theCheckpoints.map _).Sublist _
        rw [hks]
        exact List.Sublist.refl _

/-! ## Permissions of checkpoints -/

theorem holding_map {ks : List Checkpoint} {f : Checkpoint → Checkpoint} (h : Holding ks)
    (hf : ∀ k, (∀ a ∈ k.theHeldPermissions, a ∈ k.theRequiredPermissions.map Prod.fst) →
      ∀ a ∈ (f k).theHeldPermissions, a ∈ (f k).theRequiredPermissions.map Prod.fst) :
    Holding (ks.map f) := by
  intro k' hk'
  obtain ⟨k, hk, rfl⟩ := List.mem_map.mp hk'
  exact hf k (h k hk)

theorem held_require {k : Checkpoint} {addr : PhysicalMemoryAddress} {n : Nat} {permission : Bool}
    (h : ∀ a ∈ k.theHeldPermissions, a ∈ k.theRequiredPermissions.map Prod.fst) :
    ∀ a ∈ (k.require addr n permission).theHeldPermissions,
      a ∈ (k.require addr n permission).theRequiredPermissions.map Prod.fst := by
  have hrequired : ∀ a, a = addr ∨ a ∈ k.theRequiredPermissions.map Prod.fst →
      a ∈ (k.require addr n permission).theRequiredPermissions.map Prod.fst := by
    intro a ha
    simp only [Checkpoint.require]
    split
    · next hin =>
      rcases ha with rfl | ha
      · simpa using hin
      · exact ha
    · rw [List.map_append, List.mem_append]
      rcases ha with rfl | ha
      · exact .inr (by simp)
      · exact .inl ha
  intro a ha
  apply hrequired
  simp only [Checkpoint.require] at ha
  split at ha
  · rcases List.mem_append.mp ha with ha | ha
    · exact .inr (h a ha)
    · exact .inl (List.mem_singleton.mp ha)
  · exact .inr (h a ha)

theorem held_acquire {k : Checkpoint} {addr : PhysicalMemoryAddress}
    (h : ∀ a ∈ k.theHeldPermissions, a ∈ k.theRequiredPermissions.map Prod.fst) :
    ∀ a ∈ (k.acquire addr).theHeldPermissions,
      a ∈ (k.acquire addr).theRequiredPermissions.map Prod.fst := by
  simp only [Checkpoint.acquire]
  split
  · next hin =>
    intro a ha
    rcases List.mem_append.mp ha with ha | ha
    · exact h a ha
    · rw [List.mem_singleton.mp ha]
      simpa using (Bool.and_eq_true_iff.mp hin).1
  · exact h

theorem held_lose {k : Checkpoint} {addr : PhysicalMemoryAddress}
    (h : ∀ a ∈ k.theHeldPermissions, a ∈ k.theRequiredPermissions.map Prod.fst) :
    ∀ a ∈ (k.lose addr).theHeldPermissions,
      a ∈ (k.lose addr).theRequiredPermissions.map Prod.fst := by
  simp only [Checkpoint.lose]
  split
  · intro a ha
    exact h a (List.mem_of_mem_filter ha)
  · exact h

theorem saved_map {ks : List Checkpoint} {f : Checkpoint → Checkpoint}
    (hf : ∀ k, (f k).saved = k.saved) :
    (ks.map f).map Checkpoint.saved = ks.map Checkpoint.saved := by
  rw [List.map_map]
  exact List.map_congr_left fun k _ => hf k

theorem saved_acquire (addr : PhysicalMemoryAddress) (k : Checkpoint) :
    (k.acquire addr).saved = k.saved := by
  simp only [Checkpoint.acquire]
  split <;> rfl

theorem saved_lose (addr : PhysicalMemoryAddress) (k : Checkpoint) :
    (k.lose addr).saved = k.saved := by
  simp only [Checkpoint.lose]
  split <;> rfl

/-- The checkpoints keep their instructions. -/
theorem Piped.of_saved {f f' : Flow} (h : Piped f) (hnum : f'.theMemorySequenceNum = f.theMemorySequenceNum)
    (hrob : f'.theROB = f.theROB) (hsrb : f'.theSRB = f.theSRB)
    (hopen : f'.theOpenCheckpoint = f.theOpenCheckpoint)
    (hks : f'.theCheckpoints.map Checkpoint.saved = f.theCheckpoints.map Checkpoint.saved) :
    Piped f' := by
  have hsub : (f'.theCheckpoints.map Checkpoint.saved).Sublist
      (f.theCheckpoints.map Checkpoint.saved) := by rw [hks]
  have hsup : (f.theCheckpoints.map Checkpoint.saved).Sublist
      (f'.theCheckpoints.map Checkpoint.saved) := by rw [hks]
  refine ⟨by rw [hrob, hsrb]; exact h.inOrder, by rw [hrob, hsrb, hnum]; exact h.numbered, ?_, ?_⟩
  · intro k' hk'
    obtain ⟨k, hk, heq⟩ := exists_of_saved hsub k' hk'
    rw [hsrb, heq]
    exact h.flagged k hk
  · intro n hn
    obtain ⟨k, hk, heq⟩ := h.opened n (hopen ▸ hn)
    obtain ⟨k', hk', heq'⟩ := exists_of_saved hsup k hk
    exact ⟨k', hk', heq'.symm.trans heq⟩

theorem acquireWritePermission_steady (h : Steady cfg c) {addr : PhysicalMemoryAddress} :
    Yields NoCounter (c.acquireWritePermission cfg addr) fun c' =>
      Steady cfg c' ∧ c'.theMemQueue = c.theMemQueue ∧ c'.theMSHRs = c.theMSHRs ∧
        Stays c.flow c'.flow := by
  rw [Core.acquireWritePermission]
  refine .bind (Permissions.acquire_yields h.stocked.balanced.sane) ?_
  rintro p ⟨hsane, hcount⟩
  have hsaved : (if (c.thePermissions.find (cfg.line addr)).isSome then
      c.theCheckpoints.map (Checkpoint.acquire (cfg.line addr)) else c.theCheckpoints).map
        Checkpoint.saved = c.theCheckpoints.map Checkpoint.saved := by
    split
    · exact saved_map (saved_acquire _)
    · rfl
  refine .pure ⟨h.of_stays ⟨⟨h.stocked.balanced.lsq, h.stocked.balanced.sb, h.stocked.balanced.naw,
    hsane, ?_⟩, h.stocked.sorted, h.stocked.bounded, h.stocked.valid, h.stocked.bypass⟩ rfl
    (h.piped.of_saved rfl rfl rfl rfl hsaved) ?_ (hsaved ▸ List.Sublist.refl _), rfl, rfl,
    ⟨rfl, List.Sublist.refl _, hsaved ▸ List.Sublist.refl _⟩⟩
  · intro a
    rw [hcount a]
    exact h.stocked.balanced.lines a
  · dsimp only
    split
    · exact holding_map h.holding fun k hk => held_acquire hk
    · exact h.holding

/-- Only whether the speculation is to be aborted changes. -/
theorem abortOnLoss_same (addr : PhysicalMemoryAddress) (ks : List Checkpoint) (c : Core) :
    ∃ abort violator, ks.foldl (Core.abortOnLoss addr) c =
      { c with theAbortSpeculation := abort, theViolatingInstruction := violator } := by
  induction ks generalizing c with
  | nil => exact ⟨_, _, rfl⟩
  | cons k ks ih =>
    have hone : ∃ abort violator, Core.abortOnLoss addr c k =
        { c with theAbortSpeculation := abort, theViolatingInstruction := violator } := by
      simp only [Core.abortOnLoss]
      split
      · split
        · exact ⟨_, _, rfl⟩
        · split <;> exact ⟨_, _, rfl⟩
      · exact ⟨_, _, rfl⟩
    obtain ⟨abort, violator, heq⟩ := hone
    rw [List.foldl_cons, heq]
    obtain ⟨abort', violator', heq'⟩ :=
      ih { c with theAbortSpeculation := abort, theViolatingInstruction := violator }
    exact ⟨abort', violator', heq'⟩

theorem loseWritePermission_steady (h : Steady cfg c) {addr : PhysicalMemoryAddress} :
    Yields NoCounter (c.loseWritePermission cfg addr) fun c' =>
      Steady cfg c' ∧ Stays c.flow c'.flow := by
  rw [Core.loseWritePermission]
  refine .bind (Permissions.lose_yields h.stocked.balanced.sane) ?_
  rintro p ⟨hsane, hcount⟩
  have hlines : ∀ a, p.countAt a = tally (Place.needsLine cfg a) c.places := by
    intro a
    rw [hcount a]
    exact h.stocked.balanced.lines a
  refine .ite (fun _ => ?_) fun _ => ?_
  · obtain ⟨abort, violator, heq⟩ := abortOnLoss_same (cfg.line addr) c.theCheckpoints c
    rw [heq]
    have hsaved := @saved_map c.theCheckpoints _ (saved_lose (cfg.line addr))
    refine .pure ⟨h.of_stays ⟨⟨h.stocked.balanced.lsq, h.stocked.balanced.sb,
      h.stocked.balanced.naw, hsane, hlines⟩, h.stocked.sorted, h.stocked.bounded, h.stocked.valid,
      h.stocked.bypass⟩ rfl (h.piped.of_saved rfl rfl rfl rfl hsaved)
      (holding_map h.holding fun k hk => held_lose hk) (hsaved ▸ List.Sublist.refl _),
      ⟨rfl, List.Sublist.refl _, hsaved ▸ List.Sublist.refl _⟩⟩
  · exact .pure ⟨h.of_stays ⟨⟨h.stocked.balanced.lsq, h.stocked.balanced.sb,
      h.stocked.balanced.naw, hsane, hlines⟩, h.stocked.sorted, h.stocked.bounded, h.stocked.valid,
      h.stocked.bypass⟩ rfl h.piped h.holding (List.Sublist.refl _), .of_eq rfl⟩

/-! ## Retirement -/

/-- Whether an instruction retires with a checkpoint: an atomic that is not complete, a
    load that starts a speculation, or a barrier that does not wait for the store buffer. -/
def Core.takesCheckpoint (cfg : CoreConfig) (c : Core) (i : Instruction) : Bool :=
  match findEntry c.theMemQueue i.sequenceNo with
  | none => false
  | some e =>
    match e.theOperation with
    | .kCAS | .kRMW => !e.theStoreComplete
    | .kLoad => c.speculates cfg e
    | .kMEMBARMarker =>
      !c.sbEmpty && !(decide (cfg.theConsistencyModel = .kSC) && c.theIsSpeculating)
    | .kStore | .kCASP => false

/-- The instruction `i` as it leaves the reorder buffer, with the core at that point. -/
structure Leaves (cfg : CoreConfig) (c : Core) (i : Instruction) (r : Core × Instruction) : Prop where
  stocked : Stocked cfg r.1
  anchored : Anchored r.1.places r.1.theCheckpoints
  holding : Holding r.1.theCheckpoints
  opened : ∀ n, r.1.theOpenCheckpoint = some n → ∃ k ∈ r.1.theCheckpoints, k.theInstruction = n
  number : r.1.theMemorySequenceNum = c.theMemorySequenceNum
  rob : r.1.theROB = c.theROB
  srb : r.1.theSRB = c.theSRB
  ident : r.2.ident = i.ident
  checkpoints : r.1.theCheckpoints.map Checkpoint.saved = c.theCheckpoints.map Checkpoint.saved ∨
    (r.1.theCheckpoints.map Checkpoint.saved =
      c.theCheckpoints.map Checkpoint.saved ++ [(i.sequenceNo, c.thePC)] ∧
        r.2.hasCheckpoint = true ∧ c.takesCheckpoint cfg i = true)

/-- The entry is gone or there was none. -/
theorem Leaves.of_steady (h : Steady cfg c') (hflow : c'.flow = c.flow) {i' : Instruction}
    (hident : i'.ident = i.ident) : Leaves cfg c i (c', i') where
  stocked := h.stocked
  anchored := h.anchored
  holding := h.holding
  opened := h.piped.opened
  number := congrArg Flow.theMemorySequenceNum hflow
  rob := congrArg Flow.theROB hflow
  srb := congrArg Flow.theSRB hflow
  ident := hident
  checkpoints := .inl (congrArg (fun f => f.theCheckpoints.map Checkpoint.saved) hflow)

theorem erase_leaves (h : Steady cfg c) (hp : Keyed.lookup Place.seq c.places i.sequenceNo = some p)
    (hqueue : p.queue = .kLSQ) {i' : Instruction} (hident : i'.ident = i.ident) :
    Yields NoCounter (do let c ← c.eraseLSQ cfg i.sequenceNo; pure (c, i')) (Leaves cfg c i) := by
  refine .bind (h.erase (spares_of_queue h.stocked.unique hp (by rw [hqueue]; decide))) ?_
  rintro c' ⟨hsteady, hflow⟩
  exact .pure (.of_steady hsteady hflow hident)

theorem Anchored.enter {ps : List Place} {ks ks' : List Checkpoint} {f : Place → Place}
    (h : Anchored ps ks) (hp : Keyed.lookup Place.seq ps s = some p)
    (hseq : ∀ p, (f p).seq = p.seq) (hqueue : ∀ p, (f p).queue = .kSSB)
    (hks : ∀ k' ∈ ks', (∃ k ∈ ks, k'.theInstruction = k.theInstruction) ∨ k'.theInstruction = s) :
    Anchored (Keyed.alter Place.seq s f ps) ks' := by
  intro k' hk'
  obtain ⟨hmem, hown⟩ := Keyed.mem_of_lookup hp
  rcases hks k' hk' with ⟨k, hk, heq⟩ | heq
  · rw [heq]
    rcases h k hk with ⟨x, hx, hxs, hxq⟩ | hall
    · by_cases hxe : x.seq = s
      · exact .inl ⟨f x, List.mem_map.mpr ⟨x, hx, if_pos hxe⟩, (hseq x).trans hxs, hqueue x⟩
      · exact .inl ⟨x, List.mem_map.mpr ⟨x, hx, if_neg hxe⟩, hxs, hxq⟩
    · refine .inr fun x' hx' => ?_
      obtain ⟨x, hx, rfl⟩ := List.mem_map.mp hx'
      split
      · exact (hall x hx).trans_eq (hseq x).symm
      · exact hall x hx
  · refine .inl ⟨f p, List.mem_map.mpr ⟨p, hmem, if_pos hown⟩, ?_, hqueue p⟩
    rw [hseq, hown, heq]

/-- An entry that retires speculatively, and the state it leaves. -/
theorem Steady.enter {f : Place → Place} {i' : Instruction} (h : Steady cfg c)
    (hp : Keyed.lookup Place.seq c.places i.sequenceNo = some p) (hqueue : p.queue = .kLSQ)
    (hplaces : c'.places = Keyed.alter Place.seq i.sequenceNo f c.places)
    (hf : ∀ p, (f p).seq = p.seq ∧ (f p).queue = .kSSB ∧ (f p).paddr = p.paddr)
    (hlsq : c'.theLSQCount = c.theLSQCount - 1)
    (hsb : c'.theSBCount = c.theSBCount + (f p).inSB)
    (hnaw : c'.theSBNAWCount = c.theSBNAWCount + (f p).inNAW)
    (hsane : c'.thePermissions.Sane)
    (hlines : ∀ a, c'.thePermissions.countAt a =
      c.thePermissions.countAt a + (f p).needsLine cfg a)
    (hholding : Holding c'.theCheckpoints)
    (hopened : ∀ n, c'.theOpenCheckpoint = some n → ∃ k ∈ c'.theCheckpoints, k.theInstruction = n)
    (hnum : c'.theMemorySequenceNum = c.theMemorySequenceNum) (hrob : c'.theROB = c.theROB)
    (hsrb : c'.theSRB = c.theSRB) (hident : i'.ident = i.ident)
    (hks : c'.theCheckpoints.map Checkpoint.saved = c.theCheckpoints.map Checkpoint.saved ∨
      (c'.theCheckpoints.map Checkpoint.saved =
        c.theCheckpoints.map Checkpoint.saved ++ [(i.sequenceNo, c.thePC)] ∧
          i'.hasCheckpoint = true ∧ c.takesCheckpoint cfg i = true)) :
    Leaves cfg c i (c', i') := by
  have hnone : p.inSB = 0 ∧ p.inNAW = 0 ∧ p.inLSQ = 1 := by
    simp [Place.inSB, Place.inNAW, Place.inLSQ, hqueue]
  have hnoline : ∀ a, p.needsLine cfg a = 0 := by
    intro a
    simp [Place.needsLine, hqueue]
  have hout : (f p).inLSQ = 0 := by simp [Place.inLSQ, (hf p).2.1]
  have hbalanced : Balanced cfg c' := by
    refine h.stocked.balanced.alter h.stocked.unique hp hplaces ?_ ?_ ?_ hsane ?_
    · omega
    · omega
    · omega
    · intro a
      rw [hlines, hnoline, sub_zero]
  refine ⟨?_, ?_, hholding, hopened, hnum, hrob, hsrb, hident, hks⟩
  · refine h.stocked.of_alter hbalanced hplaces (fun p => (hf p).1) ?_ ?_ hnum
    · intro x hx
      rw [(hf x).2.2]
      exact h.stocked.valid x hx
    · intro x _ hxq
      rw [(hf x).2.1] at hxq
      cases hxq
  · rw [hplaces]
    refine h.anchored.enter hp (fun p => (hf p).1) (fun p => (hf p).2.1) ?_
    intro k' hk'
    have hmem := List.mem_map_of_mem (f := Checkpoint.saved) hk'
    rcases hks with hsame | ⟨hmore, -⟩
    · rw [hsame] at hmem
      obtain ⟨k, hk, heq⟩ := List.mem_map.mp hmem
      exact .inl ⟨k, hk, (congrArg Prod.fst heq).symm⟩
    · rw [hmore] at hmem
      rcases List.mem_append.mp hmem with hmem | hmem
      · obtain ⟨k, hk, heq⟩ := List.mem_map.mp hmem
        exact .inl ⟨k, hk, (congrArg Prod.fst heq).symm⟩
      · exact .inr (congrArg Prod.fst (List.mem_singleton.mp hmem))

/-- The counter of the load-store queue does not run out while an entry is in it. -/
theorem enterSSB_eq (h : Steady cfg c) (hp : Keyed.lookup Place.seq c.places s = some p)
    (hqueue : p.queue = .kLSQ) {f : LSQEntry → LSQEntry} :
    c.enterSSB s f = .ok { c with
      theMemQueue := updateEntry c.theMemQueue s fun e => { f e with theQueue := .kSSB }
      theLSQCount := c.theLSQCount - 1 } := by
  have hle := le_tally Place.inLSQ_nonneg (Keyed.mem_of_lookup hp).1
  rw [← h.stocked.balanced.lsq, Place.inLSQ, if_pos hqueue] at hle
  rw [Core.enterSSB, Core.leaveLSQ, if_neg (by dsimp only; omega)]

theorem createCheckpoint_yields : Yields NoCounter (c.createCheckpoint cfg s) fun c' =>
    c' = { c with
      theCheckpoints := c.theCheckpoints ++ [⟨s, c.thePC, 0, [], []⟩]
      theOpenCheckpoint := some s
      theRetiresSinceCheckpoint := 0
      theIsSpeculating := true
      theAbortSpeculation := c.theIsSpeculating && c.theAbortSpeculation } := by
  rw [Core.createCheckpoint]
  refine .ite (fun _ => .error (by decide)) fun _ => ?_
  refine .ite (fun _ => .error (by decide)) fun _ => ?_
  exact .ite (fun _ => .error (by decide)) fun _ => .ok rfl

theorem requireWritePermission_yields (hsane : c.thePermissions.Sane)
    (hvalid : e.thePaddr ≠ kInvalid) (hholding : Holding c.theCheckpoints)
    (hopened : ∀ n, c.theOpenCheckpoint = some n → ∃ k ∈ c.theCheckpoints, k.theInstruction = n) :
    Yields NoCounter (c.requireWritePermission cfg e) fun c' =>
      c' = { c with thePermissions := c'.thePermissions, theCheckpoints := c'.theCheckpoints } ∧
      c'.thePermissions.Sane ∧
      (∀ a, c'.thePermissions.countAt a =
        c.thePermissions.countAt a + if a = cfg.line e.thePaddr then 1 else 0) ∧
      c'.theCheckpoints.map Checkpoint.saved = c.theCheckpoints.map Checkpoint.saved ∧
      Holding c'.theCheckpoints := by
  rw [Core.requireWritePermission, if_neg hvalid]
  refine .bind (Permissions.require_yields hsane) ?_
  rintro ⟨p, permission⟩ ⟨hp, hcount⟩
  dsimp only at hp hcount ⊢
  cases hopen : c.theOpenCheckpoint with
  | none => exact .pure ⟨rfl, hp, hcount, rfl, hholding⟩
  | some n =>
    dsimp only
    refine .ite (fun _ => ?_) fun _ => .pure ⟨rfl, hp, hcount, rfl, hholding⟩
    have hfound : (Keyed.lookup Checkpoint.theInstruction c.theCheckpoints n).isSome := by
      obtain ⟨k, hk, heq⟩ := hopened n hopen
      rw [Option.isSome_iff_ne_none, Ne, Keyed.lookup_eq_none, not_not]
      exact heq ▸ List.mem_map_of_mem hk
    rw [Core.alterCheckpoint, if_pos hfound]
    refine .pure ⟨rfl, hp, hcount, ?_, ?_⟩
    · exact Keyed.map_alter_of_same fun _ => rfl
    · refine holding_map hholding ?_
      intro k hk
      split
      · exact held_require hk
      · exact hk

section RetireMem

variable (h : Steady cfg c) (hfind : findEntry c.theMemQueue i.sequenceNo = some e)
  (hqueue : e.theQueue = .kLSQ)

include h hfind hqueue

omit h hqueue in
theorem mem_places : e.place ∈ c.places := (Keyed.mem_of_lookup (lookup_place hfind)).1

omit hqueue in
theorem paddr_valid : e.thePaddr ≠ kInvalid := h.stocked.valid e.place (mem_places hfind)

/-- Only a store in the load-store queue bypasses the store buffer. -/
theorem no_bypass (hop : e.theOperation ≠ .kStore) : e.theBypassSB = false := by
  cases hb : e.theBypassSB with
  | false => rfl
  | true => exact absurd (h.stocked.bypass e.place (mem_places hfind) hqueue hb) hop

omit h hfind hqueue in
theorem needsLine_entered {op : eOperation} {bypass : Bool} {a : PhysicalMemoryAddress}
    (hwrites : (Place.mk s op .kSSB e.thePaddr bypass).writes = true) :
    (Place.mk s op .kSSB e.thePaddr bypass).needsLine cfg a =
      if a = cfg.line e.thePaddr then 1 else 0 := by
  simp only [Place.needsLine, hwrites, ne_eq, reduceCtorEq, not_false_eq_true, true_and]
  by_cases ha : a = cfg.line e.thePaddr
  · rw [if_pos ha.symm, if_pos ha]
  · rw [if_neg (fun heq => ha heq.symm), if_neg ha]

theorem retireAtomic_leaves (hop : e.theOperation = .kCAS ∨ e.theOperation = .kRMW) :
    Yields NoCounter (c.retireAtomic cfg i e) (Leaves cfg c i) := by
  have hp := lookup_place hfind
  have hwrites : (Place.mk e.theSequenceNum e.theOperation .kSSB e.thePaddr e.theBypassSB).writes = true := by
    rcases hop with hop | hop <;> simp [Place.writes, hop]
  have hbypass : e.theBypassSB = false := by
    apply no_bypass h hfind hqueue
    rcases hop with hop | hop <;> rw [hop] <;> decide
  rw [Core.retireAtomic]
  refine .ite (fun _ => .error (by decide)) fun _ => ?_
  refine .ite (fun _ => .error (by decide)) fun _ => ?_
  refine .ite (fun _ => erase_leaves h hp hqueue rfl) fun hincomplete => ?_
  have htakes : c.takesCheckpoint cfg i = true := by
    rw [Core.takesCheckpoint, hfind]
    rcases hop with hop | hop <;> simp [hop, hincomplete]
  refine .ite (fun _ => .error (by decide)) fun _ => ?_
  refine .ite (fun _ => .error (by decide)) fun _ => ?_
  refine .ite (fun _ => .error (by decide)) fun _ => ?_
  refine .bind (.of_eq_ok (enterSSB_eq h hp hqueue) rfl) ?_
  rintro c₀ rfl
  refine .bind createCheckpoint_yields ?_
  rintro c₁ rfl
  refine .bind (requireWritePermission_yields h.stocked.balanced.sane (paddr_valid h hfind) ?_ ?_) ?_
  · intro k hk
    rcases List.mem_append.mp hk with hk | hk
    · exact h.holding k hk
    · rw [List.mem_singleton.mp hk]
      simp
  · rintro n hn
    obtain rfl := Option.some.inj hn
    exact ⟨_, List.mem_append_right _ (List.mem_singleton.mpr rfl), rfl⟩
  · rintro c₂ ⟨hsame, hsane, hcount, hsaved, hholding⟩
    have hplaces : placesOf (updateEntry c.theMemQueue i.sequenceNo fun e =>
        { setIssued false e with theQueue := .kSSB }) =
        Keyed.alter Place.seq i.sequenceNo (fun p => { p with queue := .kSSB }) c.places :=
      Keyed.map_alter_image (fun _ => rfl) fun _ => rfl
    have hmore : c₂.theCheckpoints.map Checkpoint.saved =
        c.theCheckpoints.map Checkpoint.saved ++ [(i.sequenceNo, c.thePC)] := by
      rw [hsaved, List.map_append]
      rfl
    have hopened : ∃ k ∈ c₂.theCheckpoints, k.theInstruction = i.sequenceNo := by
      have hmem : (i.sequenceNo, c.thePC) ∈ c₂.theCheckpoints.map Checkpoint.saved := by
        rw [hmore]
        exact List.mem_append_right _ (List.mem_singleton.mpr rfl)
      obtain ⟨k, hk, heq⟩ := List.mem_map.mp hmem
      exact ⟨k, hk, congrArg Prod.fst heq⟩
    rw [hsame]
    refine .pure ?_
    refine h.enter hp hqueue hplaces (fun _ => ⟨rfl, rfl, rfl⟩) rfl ?_ ?_ hsane ?_ hholding
      ?_ rfl rfl rfl rfl (.inr ⟨hmore, rfl, htakes⟩)
    · simp [Place.inSB, LSQEntry.place, hbypass]
    · simp [Place.inNAW, LSQEntry.place, hbypass]
    · intro a
      refine (hcount a).trans ?_
      congr 1
      exact (needsLine_entered hwrites).symm
    · rintro n hn
      obtain rfl := Option.some.inj hn
      exact hopened

theorem retireLoad_leaves (hop : e.theOperation = .kLoad) :
    Yields NoCounter (c.retireLoad cfg i e) (Leaves cfg c i) := by
  have hp := lookup_place hfind
  rw [Core.retireLoad]
  refine .ite (fun hspeculates => ?_) fun _ => erase_leaves h hp hqueue rfl
  have htakes : c.takesCheckpoint cfg i = true := by
    rw [Core.takesCheckpoint, hfind]
    simp [hop, hspeculates]
  refine .bind (.of_eq_ok (enterSSB_eq h hp hqueue) rfl) ?_
  rintro c₀ rfl
  refine .bind createCheckpoint_yields ?_
  rintro c₁ rfl
  have hplaces : placesOf (updateEntry c.theMemQueue i.sequenceNo fun e =>
      { ({ e with theBypassSB := true } : LSQEntry) with theQueue := .kSSB }) =
      Keyed.alter Place.seq i.sequenceNo (fun p => { p with queue := .kSSB, bypass := true })
        c.places :=
    Keyed.map_alter_image (fun _ => rfl) fun _ => rfl
  refine .pure ?_
  refine h.enter hp hqueue hplaces (fun _ => ⟨rfl, rfl, rfl⟩) rfl ?_ ?_
    h.stocked.balanced.sane ?_ ?_ ?_ rfl rfl rfl rfl (.inr ⟨by simp [Checkpoint.saved], rfl, htakes⟩)
  · simp [Place.inSB]
  · simp [Place.inNAW]
  · intro a
    simp [Place.needsLine, Place.writes, LSQEntry.place, hop]
  · intro k hk
    rcases List.mem_append.mp hk with hk | hk
    · exact h.holding k hk
    · rw [List.mem_singleton.mp hk]
      simp
  · rintro n hn
    obtain rfl := Option.some.inj hn
    exact ⟨_, List.mem_append_right _ (List.mem_singleton.mpr rfl), rfl⟩

theorem retireStore_leaves (hop : e.theOperation = .kStore) :
    Yields NoCounter (c.retireStore cfg i e) (Leaves cfg c i) := by
  have hp := lookup_place hfind
  have hwrites : (Place.mk e.theSequenceNum e.theOperation .kSSB e.thePaddr e.theBypassSB).writes = true := by
    simp [Place.writes, hop]
  have hplaces : placesOf (updateEntry c.theMemQueue i.sequenceNo fun e =>
      { id e with theQueue := .kSSB }) =
      Keyed.alter Place.seq i.sequenceNo (fun p => { p with queue := .kSSB }) c.places :=
    Keyed.map_alter_image (fun _ => rfl) fun _ => rfl
  rw [Core.retireStore]
  refine .ite (fun _ => erase_leaves h hp hqueue rfl) fun _ => ?_
  refine .ite (fun _ => .error (by decide)) fun _ => ?_
  refine .bind (.of_eq_ok (enterSSB_eq h hp hqueue) rfl) ?_
  rintro c₀ hc₀
  obtain ⟨sb, naw, hcount, hsb, hnaw⟩ : ∃ sb naw,
      (if e.theBypassSB then { c₀ with theSBNAWCount := c₀.theSBNAWCount + 1 }
        else { c₀ with theSBCount := c₀.theSBCount + 1 }) =
        { c₀ with theSBCount := sb, theSBNAWCount := naw } ∧
      sb = c.theSBCount + ({ e.place with queue := .kSSB } : Place).inSB ∧
      naw = c.theSBNAWCount + ({ e.place with queue := .kSSB } : Place).inNAW := by
    rw [← hc₀]
    cases hb : e.theBypassSB with
    | true => exact ⟨_, _, rfl, by simp [Place.inSB, LSQEntry.place, hb],
        by simp [Place.inNAW, LSQEntry.place, hb]⟩
    | false => exact ⟨_, _, rfl, by simp [Place.inSB, LSQEntry.place, hb],
        by simp [Place.inNAW, LSQEntry.place, hb]⟩
  dsimp only
  rw [hcount, ← hc₀]
  refine .bind (requireWritePermission_yields h.stocked.balanced.sane (paddr_valid h hfind)
    h.holding h.piped.opened) ?_
  rintro c₂ ⟨hsame, hsane, hlines, hsaved, hholding⟩
  rw [hsame]
  refine .pure ?_
  refine h.enter hp hqueue hplaces (fun _ => ⟨rfl, rfl, rfl⟩) rfl hsb hnaw hsane ?_ hholding ?_
    rfl rfl rfl rfl (.inl hsaved)
  · intro a
    refine (hlines a).trans ?_
    congr 1
    exact (needsLine_entered hwrites).symm
  · intro n hn
    obtain ⟨k, hk, heq⟩ := h.piped.opened n hn
    have hmem : k.saved ∈ c₂.theCheckpoints.map Checkpoint.saved := by
      rw [hsaved]
      exact List.mem_map_of_mem hk
    obtain ⟨k', hk', heq'⟩ := List.mem_map.mp hmem
    exact ⟨k', hk', (congrArg Prod.fst heq').trans heq⟩

theorem retireMEMBAR_leaves (hop : e.theOperation = .kMEMBARMarker) :
    Yields NoCounter (c.retireMEMBAR cfg i) (Leaves cfg c i) := by
  have hp := lookup_place hfind
  have hbypass : e.theBypassSB = false := by
    apply no_bypass h hfind hqueue
    rw [hop]
    decide
  have hplaces : placesOf (updateEntry c.theMemQueue i.sequenceNo fun e =>
      { id e with theQueue := .kSSB }) =
      Keyed.alter Place.seq i.sequenceNo (fun p => { p with queue := .kSSB }) c.places :=
    Keyed.map_alter_image (fun _ => rfl) fun _ => rfl
  have hsb : c.theSBCount + 1 =
      c.theSBCount + ({ e.place with queue := .kSSB } : Place).inSB := by
    simp [Place.inSB, LSQEntry.place, hbypass]
  have hnaw : c.theSBNAWCount =
      c.theSBNAWCount + ({ e.place with queue := .kSSB } : Place).inNAW := by
    simp [Place.inNAW, LSQEntry.place, hbypass]
  have hlines : ∀ a, c.thePermissions.countAt a = c.thePermissions.countAt a +
      ({ e.place with queue := .kSSB } : Place).needsLine cfg a := by
    intro a
    simp [Place.needsLine, Place.writes, LSQEntry.place, hop]
  rw [Core.retireMEMBAR]
  refine .ite (fun _ => erase_leaves h hp hqueue rfl) fun hbusy => ?_
  refine .ite (fun _ => .error (by decide)) fun _ => ?_
  refine .bind (.of_eq_ok (enterSSB_eq h hp hqueue) rfl) ?_
  rintro c₀ rfl
  refine .ite (fun _ => ?_) fun _ => ?_
  · refine .pure ?_
    exact h.enter hp hqueue hplaces (fun _ => ⟨rfl, rfl, rfl⟩) rfl hsb hnaw
      h.stocked.balanced.sane hlines h.holding h.piped.opened rfl rfl rfl rfl (.inl rfl)
  · have htakes : c.takesCheckpoint cfg i = true := by
      have hwait : ¬ (cfg.theConsistencyModel = .kSC ∧ c.theIsSpeculating = true) := by assumption
      rw [Core.takesCheckpoint, hfind]
      simp only [hop, hbusy, Bool.not_eq_true', Bool.not_false, Bool.true_and, Bool.and_eq_false_iff,
        decide_eq_false_iff_not]
      by_cases hsc : cfg.theConsistencyModel = .kSC
      · exact .inr (by simpa using fun hs => hwait ⟨hsc, hs⟩)
      · exact .inl hsc
    refine .bind createCheckpoint_yields ?_
    rintro c₁ rfl
    refine .pure ?_
    refine h.enter hp hqueue hplaces (fun _ => ⟨rfl, rfl, rfl⟩) rfl hsb hnaw
      h.stocked.balanced.sane hlines ?_ ?_ rfl rfl rfl rfl (.inr ⟨by simp [Checkpoint.saved], rfl, htakes⟩)
    · intro k hk
      rcases List.mem_append.mp hk with hk | hk
      · exact h.holding k hk
      · rw [List.mem_singleton.mp hk]
        simp
    · rintro n hn
      obtain rfl := Option.some.inj hn
      exact ⟨_, List.mem_append_right _ (List.mem_singleton.mpr rfl), rfl⟩

end RetireMem

theorem retireMem_leaves (h : Steady cfg c) : Yields NoCounter (c.retireMem cfg i) (Leaves cfg c i) := by
  rw [Core.retireMem]
  cases hfind : findEntry c.theMemQueue i.sequenceNo with
  | none => exact .error (by decide)
  | some e =>
    refine .ite (fun _ => .error (by decide)) fun hqueue => ?_
    have hlsq : e.theQueue = .kLSQ := not_not.mp hqueue
    cases hop : e.theOperation with
    | kCAS => exact retireAtomic_leaves h hfind hlsq (.inl hop)
    | kRMW => exact retireAtomic_leaves h hfind hlsq (.inr hop)
    | kLoad => exact retireLoad_leaves h hfind hlsq hop
    | kStore => exact retireStore_leaves h hfind hlsq hop
    | kMEMBARMarker => exact retireMEMBAR_leaves h hfind hlsq hop
    | kCASP => exact .error (by decide)

end nuArchARM
