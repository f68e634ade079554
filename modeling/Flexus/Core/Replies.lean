import Flexus.Core.Rollback

/-!
# Replies, and the invariant of a run

The counters of the memory queue and of the tracked lines are exact in every state a
core reaches, and no assertion on them fails.
-/

namespace nuArchARM

open Runs LSQ

variable {cfg : CoreConfig} {c c' : Core} {s : Nat} {e : LSQEntry} {p : Place}
  {aPC : VirtualMemoryAddress} {event : Core.Event}

/-! ## Replies -/

/-- Whether a speculation is to be aborted is no part of the invariant. -/
theorem Steady.doomed (h : Steady cfg c) {abort : Bool} {violator : Nat} :
    Steady cfg { c with theAbortSpeculation := abort, theViolatingInstruction := violator } :=
  ⟨h.stocked.of_same rfl rfl rfl rfl rfl rfl, h.anchored, h.holding, h.piped.inOrder,
    h.piped.numbered, h.piped.flagged, h.piped.opened⟩

theorem acceptable_yields {aReply : eReply} :
    Yields NoCounter (Core.acceptable cfg c e aReply) fun _ => True := by
  have hone : ∀ {b : Prop} [Decidable b] {f : CoreFault} {x : Except CoreFault Unit}, NoCounter f →
      (Yields NoCounter x fun _ => True) → Yields NoCounter (if b then .error f else x) fun _ => True :=
    fun hf hx => .ite (fun _ => .error hf) fun _ => hx
  cases aReply with
  | kAtomicPreloadReply =>
    exact hone (by decide) (hone (by decide) (hone (by decide) (.ok trivial)))
  | kLoadReply => exact hone (by decide) (.ok trivial)
  | kCASReply => exact hone (by decide) (hone (by decide) (hone (by decide) (.ok trivial)))
  | kRMWReply => exact hone (by decide) (hone (by decide) (.ok trivial))
  | kStoreReply =>
    refine hone (by decide) ?_
    refine .ite (fun _ => ?_) fun _ => ?_
    · exact .ite (fun _ => .ok trivial) fun _ => .error (by decide)
    · exact .ite (fun _ => .ok trivial) fun _ => .error (by decide)
  | kStorePrefetchReply => exact .ok trivial

theorem received_place {aReply : eReply} {value : bits} (e : LSQEntry) :
    (unlink (Core.received aReply value e)).place = e.place := by
  cases aReply with
  | kAtomicPreloadReply =>
    simp only [Core.received]
    split <;> rfl
  | kLoadReply | kCASReply | kRMWReply | kStoreReply | kStorePrefetchReply => rfl

theorem completeLSQ_steady (h : Steady cfg c) {aReply : eReply} {value : bits} :
    Yields NoCounter (Core.completeLSQ cfg aReply value c s) fun c' =>
      Steady cfg c' ∧ Stays c.flow c'.flow := by
  rw [Core.completeLSQ]
  cases hfind : findEntry c.theMemQueue s with
  | none => exact .error (by decide)
  | some e =>
    refine .ite (fun _ => .error (by decide)) fun _ => ?_
    refine .bind acceptable_yields fun _ _ => ?_
    -- the counters, the queue and the instructions are those of `c` up to flags
    obtain ⟨c₁, hc₁, h₁, hstays₁, hqueue₁⟩ : ∃ c₁, (if aReply == .kAtomicPreloadReply &&
        e.theSpeculatedValue && e.theQueue != .kLSQ && e.theExtendedValue != some value then
          { c with theAbortSpeculation := true, theViolatingInstruction := s } else c) = c₁ ∧
        Steady cfg c₁ ∧ Stays c.flow c₁.flow ∧ c₁.theMemQueue = c.theMemQueue := by
      refine ⟨_, rfl, ?_⟩
      split
      · exact ⟨h.doomed, ⟨rfl, List.Sublist.refl _, List.Sublist.refl _⟩, rfl⟩
      · exact ⟨h, .refl _, rfl⟩
    obtain ⟨c₂, hc₂, h₂, hstays₂, hqueue₂⟩ : ∃ c₂, (if aReply = .kCASReply ∨ aReply = .kRMWReply then
          c₁.resolveSpeculation s else c₁) = c₂ ∧
        Steady cfg c₂ ∧ Stays c₁.flow c₂.flow ∧ c₂.theMemQueue = c₁.theMemQueue := by
      refine ⟨_, rfl, ?_⟩
      split
      · exact ⟨(resolveSpeculation_steady h₁).1, (resolveSpeculation_steady h₁).2, rfl⟩
      · exact ⟨h₁, .refl _, rfl⟩
    dsimp only
    rw [hc₁, hc₂]
    have hplaces : placesOf (updateEntry c₂.theMemQueue s fun e =>
        unlink (Core.received aReply value e)) = c₂.places := placesOf_update received_place
    have h₃ : Steady cfg { c₂ with
        theMemQueue := updateEntry c₂.theMemQueue s fun e => unlink (Core.received aReply value e) } :=
      h₂.of_same hplaces rfl rfl rfl rfl rfl
    refine .ite (fun hstore => ?_) fun _ => .pure ⟨h₃, hstays₁.trans hstays₂⟩
    have hp : Keyed.lookup Place.seq (placesOf (updateEntry c₂.theMemQueue s fun e =>
        unlink (Core.received aReply value e))) s = some e.place := by
      rw [hplaces, Core.places, hqueue₂, hqueue₁]
      exact lookup_place hfind
    refine (h₃.erase (spares_of_queue h₃.stocked.unique hp ?_)).weaken ?_
    · have hqueue : e.place.queue = .kSB := hstore.2
      rw [hqueue]
      decide
    · rintro c' ⟨hsteady, hflow⟩
      exact ⟨hsteady, (hstays₁.trans hstays₂).trans (.of_eq hflow)⟩

theorem completeAll_steady (h : Steady cfg c) {aReply : eReply} {value : bits} {ws : List Nat} :
    Yields NoCounter (Core.completeAll cfg aReply value ws c) fun c' =>
      Steady cfg c' ∧ Stays c.flow c'.flow := by
  induction ws generalizing c with
  | nil => exact .ok ⟨h, .refl _⟩
  | cons w ws ih =>
    refine .bind (completeLSQ_steady h) ?_
    rintro c₁ ⟨h₁, hstays⟩
    refine (ih h₁).weaken ?_
    rintro c' ⟨hsteady, hstays'⟩
    exact ⟨hsteady, hstays.trans hstays'⟩

theorem completePageWalk_steady (h : Steady cfg c) {vaddr : VirtualMemoryAddress} :
    Yields NoCounter (c.completePageWalk vaddr) fun c' => Steady cfg c' ∧ Stays c.flow c'.flow := by
  rw [Core.completePageWalk]
  cases Keyed.lookup Prod.fst c.thePageWalkRequests vaddr with
  | none => exact .error (by decide)
  | some w => exact .ok ⟨h.of_same rfl rfl rfl rfl rfl rfl, .of_eq rfl⟩

theorem complete_steady (h : Steady cfg c) {op : MemOp} {value : bits} :
    Yields NoCounter (c.complete cfg op value) fun c' => Steady cfg c' ∧ Stays c.flow c'.flow := by
  rw [Core.complete]
  cases findMSHR c.theMSHRs op.thePAddr with
  | none => exact .ok ⟨h, .refl _⟩
  | some mshr =>
    refine .ite (fun _ => ?_) fun _ => .ok ⟨h, .refl _⟩
    have hwalk : Yields NoCounter (if mshr.theOperation = .kPageWalkRequest then
        c.completePageWalk op.theVAddr else pure c) fun c' =>
          Steady cfg c' ∧ Stays c.flow c'.flow :=
      .ite (fun _ => completePageWalk_steady h) fun _ => .pure ⟨h, .refl _⟩
    refine .bind hwalk ?_
    rintro c₁ ⟨h₁, hstays⟩
    have hreleased : Steady cfg
        { c₁ with theMSHRs := Keyed.erase MSHR.thePaddr op.thePAddr c₁.theMSHRs } :=
      h₁.of_same rfl rfl rfl rfl rfl rfl
    refine .bind (completeAll_steady hreleased) ?_
    rintro c₂ ⟨h₂, hstays₂⟩
    refine .bind wake_places ?_
    rintro q hq
    exact .pure ⟨h₂.requeue hq, hstays.trans hstays₂⟩

theorem processReply_steady (h : Steady cfg c) {k : Nat} {value : bits} :
    Yields NoCounter (c.processReply cfg k value) fun c' => Steady cfg c' ∧ Stays c.flow c'.flow := by
  rw [Core.processReply]
  cases c.theMemoryPorts[k]? with
  | none => exact .ok ⟨h, .refl _⟩
  | some op =>
    have hsent : Steady cfg { c with theMemoryPorts := c.theMemoryPorts.eraseIdx k } :=
      h.of_same rfl rfl rfl rfl rfl rfl
    dsimp only
    cases op.theOperation with
    | kRMW | kCAS | kStore =>
      refine .bind (acquireWritePermission_steady hsent) ?_
      rintro c₁ ⟨h₁, -, -, hstays⟩
      refine (complete_steady h₁).weaken ?_
      rintro c' ⟨hsteady, hstays'⟩
      exact ⟨hsteady, hstays.trans hstays'⟩
    | kLoad | kAtomicPreload | kPageWalkRequest => exact complete_steady hsent
    | kStorePrefetch =>
      refine .bind (acquireWritePermission_steady hsent) ?_
      rintro c₁ ⟨h₁, -, -, hstays⟩
      exact .pure ⟨h₁.of_same rfl rfl rfl rfl rfl rfl, hstays⟩

theorem issueStore_steady (h : Steady cfg c) {theNonCacheable : Bool} :
    Yields NoCounter (c.issueStore cfg theNonCacheable) fun c' =>
      Steady cfg c' ∧ Stays c.flow c'.flow := by
  rw [Core.issueStore]
  split
  · exact .ok ⟨h, .refl _⟩
  · next e rest hq =>
    have hissued : Steady cfg
        { c with theMemQueue := updateEntry c.theMemQueue e.theSequenceNum (setIssued true) } :=
      h.of_same (placesOf_update fun _ => rfl) rfl rfl rfl rfl rfl
    refine .ite (fun _ => ?_) fun _ => .ok ⟨h, .refl _⟩
    refine .ite (fun _ => completeLSQ_steady hissued) fun _ => ?_
    refine .ite (fun _ => .error (by decide)) fun _ => ?_
    refine .bind (requestPort_steady h) ?_
    rintro q hq
    exact .pure ⟨hq, .of_eq rfl⟩

/-! ## Runs -/

theorem start_steady : Steady cfg (Core.start aPC) where
  stocked := ⟨⟨rfl, rfl, rfl, Permissions.sane_empty, fun _ => rfl⟩, List.Pairwise.nil,
    by simp [Core.places, placesOf, Core.start], by simp [Core.places, placesOf, Core.start],
    by simp [Core.places, placesOf, Core.start]⟩
  anchored := by simp [Anchored, Core.start]
  holding := by simp [Holding, Core.start]
  piped := ⟨List.Pairwise.nil, by simp [Core.flow, Core.start], by simp [Core.flow, Core.start],
    by simp [Core.flow, Core.start]⟩

/-- No counter assertion of a step fails, and the invariant is kept. -/
theorem step_yields (h : Steady cfg c) :
    Yields NoCounter (Core.step cfg c event) fun c' =>
      Steady cfg c' ∧ Turn c.flow c'.flow event := by
  have hsame : ∀ {x : Except CoreFault Core},
      (Yields NoCounter x fun c' => Steady cfg c' ∧ c'.flow = c.flow) →
      Yields NoCounter x fun c' => Steady cfg c' ∧ Stays c.flow c'.flow :=
    fun hx => hx.weaken fun c' hc' => ⟨hc'.1, .of_eq hc'.2⟩
  cases event with
  | dispatch pc effect may allocation => exact .ok (dispatch_steady h)
  | execute insn x => exact hsame (execute_steady h)
  | reissue insn => exact hsame (reissue_steady h)
  | squash => exact squash_steady h
  | retire =>
    refine (retire_steady h).weaken ?_
    rintro c' ⟨hsteady, hnone | ⟨i, hretires, -⟩⟩
    · exact ⟨hsteady, .inl hnone⟩
    · exact ⟨hsteady, .inr ⟨i, hretires⟩⟩
  | commit => exact commit_steady h
  | resolveCheckpoint => exact resolveCheckpoint_steady h
  | violate insn =>
    refine .ok ?_
    split
    · exact ⟨h.doomed, ⟨rfl, List.Sublist.refl _, List.Sublist.refl _⟩⟩
    · exact ⟨h, .refl _⟩
  | requestPort insn =>
    refine .bind (requestPort_steady h) ?_
    rintro q hq
    exact .pure ⟨hq, .of_eq rfl⟩
  | issueStore nonCacheable => exact issueStore_steady h
  | issue insn => exact hsame (issue_steady h)
  | issueStorePrefetch insn => exact hsame (issueStorePrefetch_steady h)
  | issueMMU vaddr paddr n => exact .ok ⟨(issueMMU_steady h).1, .of_eq (issueMMU_steady h).2⟩
  | reply k value => exact processReply_steady h
  | snoop addr => exact loseWritePermission_steady h
  | redirectFetch addr =>
    exact .ok ⟨⟨h.stocked.of_same rfl rfl rfl rfl rfl rfl, h.anchored, h.holding, h.piped.inOrder,
      h.piped.numbered, h.piped.flagged, h.piped.opened⟩,
      ⟨rfl, List.Sublist.refl _, List.Sublist.refl _⟩⟩
  | redirect =>
    refine .ok ?_
    by_cases hrequested : c.theRedirectRequested = true
    · rw [if_pos hrequested]
      exact ⟨⟨h.stocked.of_same rfl rfl rfl rfl rfl rfl, h.anchored, h.holding, h.piped.inOrder,
        h.piped.numbered, h.piped.flagged, h.piped.opened⟩, (if_pos hrequested).symm⟩
    · rw [if_neg hrequested]
      exact ⟨h, (if_neg hrequested).symm⟩
  | resynchronize pc => exact resynchronize_steady h

theorem Core.Reachable.steady (h : Core.Reachable cfg aPC c) : Steady cfg c :=
  h.invariant start_steady fun _ _ _ hs _ hok => ((step_yields hs).1 _ hok).1

/-- A sum of ones is a count. -/
theorem tally_eq_countP {g : Place → ℤ} {test : LSQEntry → Bool} {q : List LSQEntry}
    (h : ∀ e, g e.place = if test e then 1 else 0) :
    tally g (placesOf q) = (q.countP test : ℤ) := by
  induction q with
  | nil => rfl
  | cons e q ih =>
    simp only [tally, placesOf, List.map_cons, List.sum_cons] at ih ⊢
    rw [ih, h, List.countP_cons]
    push_cast
    ring

/-- A store or an atomic in the store buffer that writes to a line. -/
def Core.writesLine (cfg : CoreConfig) (a : PhysicalMemoryAddress) (e : LSQEntry) : Bool :=
  (e.theQueue == .kSSB || e.theQueue == .kSB) && (e.isStore || e.isAtomic) && cfg.line e.thePaddr == a

theorem queue_place (e : LSQEntry) : e.place.queue = e.theQueue := rfl

theorem bypass_place (e : LSQEntry) : e.place.bypass = e.theBypassSB := rfl

theorem needsLine_eq (a : PhysicalMemoryAddress) (e : LSQEntry) :
    e.place.needsLine cfg a = if Core.writesLine cfg a e then 1 else 0 := by
  have hpaddr : e.place.paddr = e.thePaddr := rfl
  rw [Place.needsLine, writes_place, Core.writesLine, queue_place, hpaddr]
  cases e.theQueue <;> simp

/-- In every run the counters of the memory queue count the entries of the load-store
    queue and, apart from those that bypass it, of the store buffer. Together they are the
    size of the queue, and no assertion on them fails. -/
theorem queue_counters_exact (h : Core.Reachable cfg aPC c) :
    c.theLSQCount = (c.theMemQueue.countP fun e => e.theQueue == .kLSQ) ∧
    c.theSBCount = (c.theMemQueue.countP fun e =>
      (e.theQueue == .kSSB || e.theQueue == .kSB) && !e.theBypassSB) ∧
    c.theSBNAWCount = (c.theMemQueue.countP fun e =>
      (e.theQueue == .kSSB || e.theQueue == .kSB) && e.theBypassSB) ∧
    c.theLSQCount + c.theSBCount + c.theSBNAWCount = c.theMemQueue.length ∧
    ∀ event f, Core.step cfg c event = .error f → f ≠ .negativeCount ∧ f ≠ .countMismatch := by
  have hb := h.steady.stocked.balanced
  refine ⟨?_, ?_, ?_, ?_, ?_⟩
  · rw [hb.lsq]
    apply tally_eq_countP
    intro e
    rw [Place.inLSQ, queue_place]
    cases e.theQueue <;> rfl
  · rw [hb.sb]
    apply tally_eq_countP
    intro e
    rw [Place.inSB, queue_place, bypass_place]
    cases e.theQueue <;> cases e.theBypassSB <;> rfl
  · rw [hb.naw]
    apply tally_eq_countP
    intro e
    rw [Place.inNAW, queue_place, bypass_place]
    cases e.theQueue <;> cases e.theBypassSB <;> rfl
  · have htotal := tally_total c.places
    rw [← hb.lsq, ← hb.sb, ← hb.naw, List.length_map] at htotal
    exact htotal
  · intro event f hfault
    obtain ⟨hneg, hmismatch, -⟩ := (step_yields h.steady).2 f hfault
    exact ⟨hneg, hmismatch⟩

/-- A speculating core under sequential consistency. -/
def speculativeSC : CoreConfig where
  theCoherenceUnit := 64#64
  theConsistencyModel := .kSC
  theSpeculativeOrder := true
  theNAWBypassSB := false
  thePrefetchEarly := false
  theSBSize := 16
  theAllowedSpeculativeCheckpoints := 4
  theCheckpointThreshold := 0

/-- An access to a memory address with a value to write. -/
def accessAt (thePaddr : PhysicalMemoryAddress) : Core.Executed :=
  ⟨thePaddr, thePaddr, false, false, false, false, false, none, some 7#128, none⟩

/-- A store that has retired, with a load behind it. -/
theorem queue_counters_exact_store : ∃ c, Core.Reachable speculativeSC 0#64 c ∧
    c.theSBCount = 1 ∧ (c.theMemQueue.countP fun e => e.theQueue == .kLSQ) = 1 ∧
    c.theLSQCount + c.theSBCount + c.theSBNAWCount = c.theMemQueue.length := by
  have hrun : (runWhile (Core.step speculativeSC) (fun _ _ => true) (Core.start 0#64)
      [.dispatch 0#64 .commitStore true (some (.store .kDoubleWord false)),
        .dispatch 4#64 .keep true (some (.load .kDoubleWord)),
        .execute 1 (accessAt 0x80#64), .retire]).any
      (fun c => c.theSBCount == 1 && c.theLSQCount == 1) = true := by
    decide +kernel
  obtain ⟨c, hc, hend⟩ : ∃ c, Core.Reachable speculativeSC 0#64 c ∧
      (c.theSBCount == 1 && c.theLSQCount == 1) = true :=
    exists_reaches (fun _ _ _ => trivial) hrun
  obtain ⟨hsb, hlsq⟩ : c.theSBCount = 1 ∧ c.theLSQCount = 1 := by simpa using hend
  obtain ⟨hcount, -, -, htotal, -⟩ := queue_counters_exact hc
  refine ⟨c, hc, hsb, ?_, htotal⟩
  rw [hlsq] at hcount
  exact_mod_cast hcount.symm

/-- In every run a line is tracked exactly when stores or atomics of the store buffer
    write to it, and with their number. The lines without permission are counted, and a
    checkpoint holds no permission it does not require. No assertion on these fails. -/
theorem write_permissions_tracked (h : Core.Reachable cfg aPC c) :
    (∀ a k, (∃ permission, ⟨a, k, permission⟩ ∈ c.thePermissions.theSBLines_Permission) ↔
      0 < k ∧ (c.theMemQueue.countP (Core.writesLine cfg a) : ℤ) = k) ∧
    (c.thePermissions.theSBLines_Permission.map SBLine.theAddress).Nodup ∧
    c.thePermissions.theSBLines_Permission_falsecount =
      (c.thePermissions.theSBLines_Permission.countP fun l => !l.thePermission) ∧
    (∀ ckpt ∈ c.theCheckpoints,
      ckpt.theHeldPermissions ⊆ ckpt.theRequiredPermissions.map Prod.fst) ∧
    ∀ event f, Core.step cfg c event = .error f → f ≠ .lineCount ∧ f ≠ .falseCount := by
  have hb := h.steady.stocked.balanced
  have hcount : ∀ a, c.thePermissions.countAt a =
      (c.theMemQueue.countP (Core.writesLine cfg a) : ℤ) := by
    intro a
    rw [hb.lines]
    exact tally_eq_countP (needsLine_eq a)
  refine ⟨?_, hb.sane.unique, ?_, h.steady.holding, ?_⟩
  · intro a k
    rw [← hcount a]
    constructor
    · rintro ⟨permission, hmem⟩
      have hfind := Keyed.lookup_of_mem hb.sane.unique hmem
      exact ⟨hb.sane.positive _ hmem, Permissions.countAt_of_find hfind⟩
    · rintro ⟨hpos, hk⟩
      obtain ⟨l, hfind, hmem, -⟩ := hb.sane.find_of_countAt_pos (hk ▸ hpos)
      have hl : l = ⟨a, k, l.thePermission⟩ := by
        rw [SBLine.mk.injEq]
        exact ⟨(Keyed.mem_of_lookup hfind).2, (Permissions.countAt_of_find hfind).symm.trans hk, rfl⟩
      exact ⟨l.thePermission, hl ▸ hmem⟩
  · rw [hb.sane.falsecount, Permissions.sum_missing]
  · intro event f hfault
    obtain ⟨-, -, hline, hfalse⟩ := (step_yields h.steady).2 f hfault
    exact ⟨hline, hfalse⟩

/-- A store that has retired writes to a line without permission. -/
theorem write_permissions_tracked_store : ∃ c, Core.Reachable speculativeSC 0#64 c ∧
    c.thePermissions.theSBLines_Permission_falsecount = 1 ∧
    (∃ permission, ⟨0x80#64, 1, permission⟩ ∈ c.thePermissions.theSBLines_Permission) ∧
    c.theMemQueue.countP (Core.writesLine speculativeSC 0x80#64) = 1 := by
  have hrun : (runWhile (Core.step speculativeSC) (fun _ _ => true) (Core.start 0#64)
      [.dispatch 0#64 .commitStore true (some (.store .kDoubleWord false)),
        .execute 1 (accessAt 0x88#64), .retire]).any
      (fun c => c.thePermissions == ⟨[⟨0x80#64, 1, false⟩], 1⟩) = true := by
    decide +kernel
  obtain ⟨c, hc, hend⟩ : ∃ c, Core.Reachable speculativeSC 0#64 c ∧
      (c.thePermissions == ⟨[⟨0x80#64, 1, false⟩], 1⟩) = true :=
    exists_reaches (fun _ _ _ => trivial) hrun
  have hlines : c.thePermissions = ⟨[⟨0x80#64, 1, false⟩], 1⟩ := beq_iff_eq.mp hend
  have htracked : ∃ permission, ⟨0x80#64, 1, permission⟩ ∈ c.thePermissions.theSBLines_Permission := by
    rw [hlines]
    exact ⟨false, List.mem_singleton.mpr rfl⟩
  have hcount := (((write_permissions_tracked hc).1 0x80#64 1).mp htracked).2
  exact ⟨c, hc, by rw [hlines], htracked, by exact_mod_cast hcount⟩

end nuArchARM
