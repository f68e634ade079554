import Flexus.Core.Links

/-!
# Waiters of the miss registers in a run

The links agree in every state a core reaches. Only a rollback clears the load-store
queue before it cleans the miss registers, and reads waiters that are gone when an entry
of that queue was waiting.
-/

namespace nuArchARM

open Runs LSQ

variable {cfg : CoreConfig} {c c' : Core} {q : List LSQEntry} {ts : List Tie} {ms : List MSHR}
  {s d : Nat} {e : LSQEntry} {t : Tie} {a : PhysicalMemoryAddress} {aPC : VirtualMemoryAddress}
  {event : Core.Event}

/-! ## Execution -/

theorem findEntry_of_tie (hunique : ((tiesOf q).map Tie.seq).Nodup) (ht : t ∈ tiesOf q) :
    ∃ e, findEntry q t.seq = some e ∧ e.tie = t := by
  obtain ⟨e, he, rfl⟩ := List.mem_map.mp ht
  rw [List.map_map] at hunique
  exact ⟨e, Keyed.lookup_of_mem hunique he, rfl⟩

theorem execute_loosens (h : c.wires.Linked) {x : Core.Executed} :
    Yields Tame (c.execute cfg s x) fun c' => Loosens c.wires c'.wires := by
  rw [Core.execute]
  cases hfind : findEntry c.theMemQueue s with
  | none => exact .ok (.refl h)
  | some e =>
    obtain ⟨hmem, hseq⟩ := mem_ties hfind
    refine .ite (fun _ => .ok (.refl h)) fun _ => ?_
    refine .ite (fun _ => .error (by decide)) fun _ => ?_
    have happly : ∀ q, tiesOf (updateEntry q s x.apply) =
        Keyed.alter Tie.seq s (fun t => { t with paddr := x.thePaddr }) (tiesOf q) :=
      fun q => Keyed.map_alter_image (fun _ => rfl) fun _ => rfl
    by_cases hsame : x.thePaddr = e.thePaddr
    · rw [if_pos hsame]
      refine .bind (.pure rfl) ?_
      rintro r rfl
      refine .pure (.of_eq h ?_)
      have hties : tiesOf (updateEntry c.theMemQueue s x.apply) = tiesOf c.theMemQueue := by
        rw [happly]
        refine Keyed.alter_eq_self fun t ht hts => ?_
        rw [h.eq_of_seq ht hmem (hts.trans hseq.symm), hsame]
        rfl
      rw [Core.wires, Core.wires, hties]
    · rw [if_neg hsame]
      refine .bind (breakMSHRLink_linked h hfind) ?_
      rintro ⟨q, ms⟩ ⟨hlinked, hsheds, hties⟩
      dsimp only at hlinked hsheds hties ⊢
      refine .pure ⟨?_, hsheds, rfl, rfl, rfl⟩
      change Linked (tiesOf (updateEntry q s x.apply)) ms
      rw [happly]
      refine hlinked.retarget (fun _ => rfl) (fun _ => rfl) ?_
      rw [hties]
      exact unlinked_alter

theorem reissue_loosens (h : c.wires.Linked) :
    Yields Tame (c.reissue cfg s) fun c' => Loosens c.wires c'.wires := by
  rw [Core.reissue]
  cases hfind : findEntry c.theMemQueue s with
  | none => exact .ok (.refl h)
  | some e =>
    refine .ite (fun _ => .ok (.refl h)) fun _ => ?_
    refine .bind (breakMSHRLink_linked h hfind) ?_
    rintro ⟨q, ms⟩ ⟨hlinked, hsheds, -⟩
    exact .pure ⟨hlinked, hsheds, rfl, rfl, rfl⟩

theorem insert_loosens (h : c.wires.Linked) (hfresh : ∀ p ∈ c.places, p.seq < s) {op : eOperation}
    {size : eSize} {bypass dependance : Bool} :
    Loosens c.wires (c.insertLSQ cfg s op size bypass dependance).wires := by
  have hties : (c.insertLSQ cfg s op size bypass dependance).wires.ties =
      c.wires.ties ++ [⟨s, kUnresolved, none⟩] := by
    rw [Core.wires, Core.insertLSQ, tiesOf, List.map_append]
    rfl
  refine ⟨?_, .refl _, rfl, rfl, rfl⟩
  change Linked (c.insertLSQ cfg s op size bypass dependance).wires.ties c.theMSHRs
  rw [hties]
  refine h.insert ?_ rfl
  intro x hx
  obtain ⟨e, he, rfl⟩ := List.mem_map.mp hx
  exact Nat.ne_of_lt (hfresh e.place (List.mem_map_of_mem he))

theorem dispatch_loosens (hsteady : Steady cfg c) (h : c.wires.Linked) {pc : VirtualMemoryAddress}
    {effect : CommitEffect} {may : Bool} {allocation : Option Core.Allocate} :
    Loosens c.wires (c.dispatch cfg pc effect may allocation).wires := by
  have hfresh : ∀ p ∈ c.places, p.seq < c.theMemorySequenceNum + 1 :=
    fun p hp => Nat.lt_succ_of_le (hsteady.stocked.bounded p hp)
  cases allocation with
  | none => exact .refl h
  | some a =>
    cases a with
    | store size bypass => exact insert_loosens h hfresh
    | membar => exact insert_loosens h hfresh
    | load size | cas size | rmw size => exact insert_loosens h hfresh

theorem squash_loosens (h : c.wires.Linked) :
    Yields Tame (c.squash cfg) fun c' => Loosens c.wires c'.wires := by
  rw [Core.squash]
  cases c.theROB.getLast? with
  | none => exact .ok (.refl h)
  | some i => exact .bind (eraseLSQ_loosens h) fun _ hc' => .pure hc'

/-! ## Replies -/

theorem acceptable_tame {aReply : eReply} :
    Yields Tame (Core.acceptable cfg c e aReply) fun _ => True := by
  have hone : ∀ {b : Prop} [Decidable b] {f : CoreFault} {x : Except CoreFault Unit}, Tame f →
      (Yields Tame x fun _ => True) → Yields Tame (if b then .error f else x) fun _ => True :=
    fun hf hx => .ite (fun _ => .error hf) fun _ => hx
  cases aReply with
  | kAtomicPreloadReply =>
    exact hone (by decide) (hone (by decide) (hone (by decide) (.ok trivial)))
  | kLoadReply => exact hone (by decide) (.ok trivial)
  | kCASReply => exact hone (by decide) (hone (by decide) (hone (by decide) (.ok trivial)))
  | kRMWReply => exact hone (by decide) (hone (by decide) (.ok trivial))
  | kStoreReply =>
    refine hone (by decide) ?_
    refine .ite (fun _ => ?_) fun _ => ?_
    · exact .ite (fun _ => .ok trivial) fun _ => .error (by decide)
    · exact .ite (fun _ => .ok trivial) fun _ => .error (by decide)
  | kStorePrefetchReply => exact .ok trivial

theorem received_tie {aReply : eReply} {value : bits} (e : LSQEntry) :
    (unlink (Core.received aReply value e)).tie = e.tie.unlink := by
  cases aReply with
  | kAtomicPreloadReply =>
    simp only [Core.received]
    split <;> rfl
  | kLoadReply | kCASReply | kRMWReply | kStoreReply | kStorePrefetchReply => rfl

/-- The entry no longer waits, and may be gone. -/
theorem completeLSQ_wires (hfind : findEntry c.theMemQueue s = some e) {aReply : eReply}
    {value : bits} :
    Yields Tame (Core.completeLSQ cfg aReply value c s) fun c' =>
      c'.wires = { c.wires with ties := Keyed.alter Tie.seq s Tie.unlink c.wires.ties } ∨
      c'.wires = { c.wires with
        ties := Keyed.erase Tie.seq s (Keyed.alter Tie.seq s Tie.unlink c.wires.ties) } := by
  rw [Core.completeLSQ, hfind]
  refine .ite (fun _ => .error (by decide)) fun _ => ?_
  refine .bind acceptable_tame fun _ _ => ?_
  obtain ⟨c₁, hc₁, hwires₁, hqueue₁⟩ : ∃ c₁, (if aReply == .kAtomicPreloadReply &&
      e.theSpeculatedValue && e.theQueue != .kLSQ && e.theExtendedValue != some value then
        { c with theAbortSpeculation := true, theViolatingInstruction := s } else c) = c₁ ∧
      c₁.wires = c.wires ∧ c₁.theMemQueue = c.theMemQueue := by
    refine ⟨_, rfl, ?_⟩
    split <;> exact ⟨rfl, rfl⟩
  obtain ⟨c₂, hc₂, hwires₂, hqueue₂⟩ : ∃ c₂, (if aReply = .kCASReply ∨ aReply = .kRMWReply then
        c₁.resolveSpeculation s else c₁) = c₂ ∧
      c₂.wires = c₁.wires ∧ c₂.theMemQueue = c₁.theMemQueue := by
    refine ⟨_, rfl, ?_⟩
    split <;> exact ⟨rfl, rfl⟩
  dsimp only
  rw [hc₁, hc₂]
  obtain ⟨c₃, hc₃⟩ : ∃ c₃ : Core, c₃ = { c₂ with
    theMemQueue := updateEntry c₂.theMemQueue s fun e => unlink (Core.received aReply value e) } :=
    ⟨_, rfl⟩
  have hwires₃ : c₃.wires = { c.wires with ties := Keyed.alter Tie.seq s Tie.unlink c.wires.ties } := by
    have hties : tiesOf (updateEntry c₂.theMemQueue s fun e =>
        unlink (Core.received aReply value e)) = Keyed.alter Tie.seq s Tie.unlink c.wires.ties := by
      rw [tiesOf_unlink received_tie, hqueue₂, hqueue₁]
      rfl
    have hrest := hwires₂.trans hwires₁
    rw [hc₃, ← hties, ← hrest]
    rfl
  rw [← hc₃]
  refine .ite (fun _ => ?_) fun _ => .pure (.inl hwires₃)
  have hfind₃ : findEntry c₃.theMemQueue s = some (unlink (Core.received aReply value e)) := by
    rw [hc₃]
    refine findEntry_update (fun e => congrArg Tie.seq (received_tie e)) ?_
    rw [hqueue₂, hqueue₁]
    exact hfind
  refine (eraseLSQ_unlinked hfind₃ rfl).weaken ?_
  intro c' hc'
  rw [hc', hwires₃]
  exact .inr rfl

/-- The entries that have completed are no longer waited for. -/
theorem completeAll_linked {ws : List Nat} (h : Linked c.wires.ties ms)
    (hm : ∃ m ∈ ms, m.thePaddr = a ∧ m.theWaitingLSQs = ws) {aReply : eReply} {value : bits} :
    Yields Tame (Core.completeAll cfg aReply value ws c) fun c' =>
      Linked c'.wires.ties (Keyed.erase MSHR.thePaddr a ms) ∧
      c'.wires = { c.wires with ties := c'.wires.ties } ∧
      ∀ t' ∈ c'.wires.ties, ∃ t ∈ c.wires.ties, t'.seq = t.seq ∧ t'.paddr = t.paddr := by
  induction ws generalizing c ms with
  | nil =>
    obtain ⟨m, hm, hkey, hempty⟩ := hm
    refine .ok ⟨h.release ?_, rfl, fun t ht => ⟨t, ht, rfl, rfl⟩⟩
    intro x hx hxa
    rw [h.eq_of_key hx hm (hxa.trans hkey.symm)]
    exact hempty
  | cons w ws ih =>
    obtain ⟨m, hm, hkey, hwaiting⟩ := hm
    obtain ⟨t, ht, hseq, hback⟩ := h.present m hm w (hwaiting ▸ List.mem_cons_self)
    obtain ⟨e, hfind, -⟩ := findEntry_of_tie h.unique ht
    have hdetached := h.detach ht (hback.trans (congrArg some hkey))
    rw [hseq] at hfind hdetached
    have hnext : ∃ x ∈ Keyed.alter MSHR.thePaddr a
        (fun m => { m with theWaitingLSQs := m.theWaitingLSQs.erase w }) ms,
        x.thePaddr = a ∧ x.theWaitingLSQs = ws := by
      refine ⟨_, List.mem_map.mpr ⟨m, hm, if_pos hkey⟩, hkey, ?_⟩
      change m.theWaitingLSQs.erase w = ws
      rw [hwaiting, List.erase_cons_head]
    have hsame : ∀ t' ∈ Keyed.alter Tie.seq w Tie.unlink c.wires.ties,
        ∃ t ∈ c.wires.ties, t'.seq = t.seq ∧ t'.paddr = t.paddr := by
      intro t' ht'
      obtain ⟨x, hx, rfl⟩ := List.mem_map.mp ht'
      refine ⟨x, hx, ?_⟩
      split <;> exact ⟨rfl, rfl⟩
    have herased : Keyed.erase MSHR.thePaddr a (Keyed.alter MSHR.thePaddr a
        (fun m => { m with theWaitingLSQs := m.theWaitingLSQs.erase w }) ms) =
        Keyed.erase MSHR.thePaddr a ms := Keyed.erase_alter (by intro _; rfl)
    refine .bind (completeLSQ_wires hfind) ?_
    intro c₁ hc₁
    obtain ⟨hlinked₁, hrest₁, horigin₁⟩ : Linked c₁.wires.ties (Keyed.alter MSHR.thePaddr a
        (fun m => { m with theWaitingLSQs := m.theWaitingLSQs.erase w }) ms) ∧
        c₁.wires = { c.wires with ties := c₁.wires.ties } ∧
        ∀ t' ∈ c₁.wires.ties, ∃ t ∈ c.wires.ties, t'.seq = t.seq ∧ t'.paddr = t.paddr := by
      rcases hc₁ with hc₁ | hc₁
      · rw [hc₁]
        exact ⟨hdetached, rfl, hsame⟩
      · rw [hc₁]
        exact ⟨hdetached.remove unlinked_alter, rfl,
          fun t' ht' => hsame t' (List.mem_of_mem_filter ht')⟩
    refine (ih hlinked₁ hnext).weaken ?_
    rintro c' ⟨hlinked, hrest, horigin⟩
    refine ⟨herased ▸ hlinked, ?_, ?_⟩
    · rw [hrest, hrest₁]
    · intro t' ht'
      obtain ⟨t₁, ht₁, hs₁, hp₁⟩ := horigin t' ht'
      obtain ⟨t, ht, hs, hp⟩ := horigin₁ t₁ ht₁
      exact ⟨t, ht, hs₁.trans hs, hp₁.trans hp⟩

/-- The register of a reply is released, and what waited in it has been told. -/
structure Served (op : MemOp) (mshr : MSHR) (w w' : Wires) : Prop where
  linked : w'.Linked
  mshrs : w'.theMSHRs = Keyed.erase MSHR.thePaddr op.thePAddr w.theMSHRs
  ports : w'.theMemoryPorts = w.theMemoryPorts
  walks : if mshr.theOperation = .kPageWalkRequest then
      ∃ walk, Keyed.lookup Prod.fst w.thePageWalkRequests op.theVAddr = some walk ∧
        w'.thePageWalkRequests = Keyed.erase Prod.fst op.theVAddr w.thePageWalkRequests ∧
        w'.theReadyTranslations = w.theReadyTranslations ++ [walk.2]
    else w'.thePageWalkRequests = w.thePageWalkRequests ∧
      w'.theReadyTranslations = w.theReadyTranslations
  origin : ∀ t' ∈ w'.ties, ∃ t ∈ w.ties, t'.seq = t.seq ∧ t'.paddr = t.paddr

/-- A reply is ignored, or it releases the register of its address. -/
theorem complete_linked (h : c.wires.Linked) {op : MemOp} {value : bits} :
    Yields (fun f => Tame f ∨ f = .noPageWalk ∧ (∃ mshr, findMSHR c.theMSHRs op.thePAddr = some mshr ∧
        mshr.theOperation = .kPageWalkRequest ∧
        satisfies cfg op.theOperation.reply mshr.theOperation ∧ mshr.theSize = op.theSize) ∧
        Keyed.lookup Prod.fst c.thePageWalkRequests op.theVAddr = none)
      (c.complete cfg op value) fun c' =>
      (∀ mshr, findMSHR c.theMSHRs op.thePAddr = some mshr →
        ¬ (satisfies cfg op.theOperation.reply mshr.theOperation ∧ mshr.theSize = op.theSize)) ∧
        c' = c ∨
      ∃ mshr, findMSHR c.theMSHRs op.thePAddr = some mshr ∧
        (satisfies cfg op.theOperation.reply mshr.theOperation ∧ mshr.theSize = op.theSize) ∧
        Served op mshr c.wires c'.wires := by
  rw [Core.complete]
  cases hfind : findMSHR c.theMSHRs op.thePAddr with
  | none => exact .ok (.inl ⟨by simp, rfl⟩)
  | some mshr =>
    obtain ⟨hmem, hkey⟩ := Keyed.mem_of_lookup hfind
    refine .ite (fun hsat => ?_) fun hno => .ok (.inl ⟨?_, rfl⟩)
    · have hwalk : Yields (fun f => Tame f ∨ f = .noPageWalk ∧
          mshr.theOperation = .kPageWalkRequest ∧
          Keyed.lookup Prod.fst c.thePageWalkRequests op.theVAddr = none)
          (if mshr.theOperation = .kPageWalkRequest then c.completePageWalk op.theVAddr else pure c)
          fun c' => c'.wires.ties = c.wires.ties ∧ c'.theMSHRs = c.theMSHRs ∧
            c'.theMemoryPorts = c.theMemoryPorts ∧
            if mshr.theOperation = .kPageWalkRequest then
              ∃ walk, Keyed.lookup Prod.fst c.thePageWalkRequests op.theVAddr = some walk ∧
                c'.thePageWalkRequests = Keyed.erase Prod.fst op.theVAddr c.thePageWalkRequests ∧
                c'.theReadyTranslations = c.theReadyTranslations ++ [walk.2]
            else c'.thePageWalkRequests = c.thePageWalkRequests ∧
              c'.theReadyTranslations = c.theReadyTranslations := by
        by_cases hop : mshr.theOperation = .kPageWalkRequest
        · simp only [if_pos hop]
          rw [Core.completePageWalk]
          cases hlookup : Keyed.lookup Prod.fst c.thePageWalkRequests op.theVAddr with
          | none => exact .error (.inr ⟨rfl, hop, rfl⟩)
          | some walk => exact .ok ⟨rfl, rfl, rfl, walk, rfl, rfl, rfl⟩
        · simp only [if_neg hop]
          exact .pure ⟨rfl, rfl, rfl, rfl, rfl⟩
      refine .bind (hwalk.allow ?_) ?_
      · rintro f (htame | ⟨hf, hop, hnone⟩)
        · exact .inl htame
        · exact .inr ⟨hf, ⟨mshr, rfl, hop, hsat⟩, hnone⟩
      · rintro c₁ ⟨hties₁, hms₁, hports₁, hwalk₁⟩
        have hlinked₁ : Linked c₁.wires.ties c.theMSHRs := hties₁ ▸ h
        have hstart : Linked
            ({ c₁ with theMSHRs := Keyed.erase MSHR.thePaddr op.thePAddr c₁.theMSHRs } : Core).wires.ties
            c.theMSHRs := hlinked₁
        refine .bind ((completeAll_linked hstart ⟨mshr, hmem, hkey, rfl⟩).allow fun f hf => .inl hf) ?_
        rintro c₂ ⟨hlinked₂, hrest₂, horigin₂⟩
        refine .bind (wake_ties.allow fun f hf => .inl hf) ?_
        intro q hq
        refine .pure (.inr ⟨mshr, rfl, hsat, ?_, ?_, ?_, ?_, ?_⟩)
        · change Linked (tiesOf q) c₂.theMSHRs
          have hms₂ : c₂.theMSHRs = Keyed.erase MSHR.thePaddr op.thePAddr c.theMSHRs :=
            (congrArg Wires.theMSHRs hrest₂).trans (hms₁ ▸ rfl)
          rw [hq, hms₂]
          exact hlinked₂
        · exact (congrArg Wires.theMSHRs hrest₂).trans (hms₁ ▸ rfl)
        · exact (congrArg Wires.theMemoryPorts hrest₂).trans hports₁
        · have hwalks₂ : c₂.thePageWalkRequests = c₁.thePageWalkRequests :=
            congrArg Wires.thePageWalkRequests hrest₂
          have hready₂ : c₂.theReadyTranslations = c₁.theReadyTranslations :=
            congrArg Wires.theReadyTranslations hrest₂
          change if _ then ∃ walk, _ ∧ c₂.thePageWalkRequests = _ ∧ c₂.theReadyTranslations = _ else
            c₂.thePageWalkRequests = _ ∧ c₂.theReadyTranslations = _
          rw [hwalks₂, hready₂]
          exact hwalk₁
        · intro t' ht'
          have ht₂ : t' ∈ c₂.wires.ties := by
            have hq' : tiesOf q = c₂.wires.ties := hq
            exact hq' ▸ ht'
          obtain ⟨t, ht, hs, hp⟩ := horigin₂ t' ht₂
          exact ⟨t, hties₁ ▸ ht, hs, hp⟩
    · intro x hx
      rw [Option.some.inj hx.symm]
      exact hno

/-! ## Cleaning the registers -/

/-- A waiter that a rollback leaves. -/
def keptAt (ps : List Place) (d w : Nat) : Bool :=
  !(Keyed.lookup Place.seq ps w).any fun p =>
    p.queue == .kLSQ || p.queue == .kSSB && decide (d ≤ p.seq)

/-- What is left of a register. -/
def cleaned (ps : List Place) (d : Nat) (m : MSHR) : Option MSHR :=
  if m.theWaitingLSQs.filter (keptAt ps d) = [] then none
  else some { m with theWaitingLSQs := m.theWaitingLSQs.filter (keptAt ps d) }

/-- A register has a waiter that is not in the queue. -/
def Strays (q : List LSQEntry) (ms : List MSHR) : Prop :=
  ∃ m ∈ ms, ∃ w ∈ m.theWaitingLSQs, findEntry q w = none

theorem keptAt_of_find {w : Nat} (hfind : findEntry q w = some e) :
    keptAt (placesOf q) d w = !discards d e := by
  rw [keptAt, lookup_placesOf, hfind]
  rfl

theorem keptWaiters_eq {ws : List Nat} :
    Yields (fun f => Tame f ∨ f = .danglingWaiter ∧ ∃ w ∈ ws, findEntry q w = none) (keptWaiters q d ws) fun r =>
      r = ws.filter (keptAt (placesOf q) d) ∧ ∀ w ∈ ws, findEntry q w ≠ none := by
  induction ws with
  | nil => exact .ok ⟨rfl, by simp⟩
  | cons w ws ih =>
    rw [keptWaiters]
    cases hfind : findEntry q w with
    | none => exact .error (.inr ⟨rfl, w, List.mem_cons_self, hfind⟩)
    | some e =>
      refine .bind (ih.allow ?_) ?_
      · rintro f (htame | ⟨hf, x, hx, hnone⟩)
        · exact .inl htame
        · exact .inr ⟨hf, x, List.mem_cons_of_mem _ hx, hnone⟩
      · rintro rest ⟨rfl, hall⟩
        refine .pure ⟨?_, ?_⟩
        · rw [List.filter_cons, keptAt_of_find hfind]
          cases discards d e <;> rfl
        · intro x hx
          rcases List.mem_cons.mp hx with rfl | hx
          · rw [hfind]
            simp
          · exact hall x hx

/-- The queue keeps its entries, apart from the ports they request. -/
def Kept (q q' : List LSQEntry) : Prop := placesOf q' = placesOf q ∧ tiesOf q' = tiesOf q

theorem wake_kept {blocked : List Nat} : Yields Tame (wake cfg blocked q) (Kept q) :=
  (wake_places.also wake_ties).weaken fun _ hq => hq

theorem cleanMSHRS_eq :
    Yields (fun f => Tame f ∨ f = .danglingWaiter ∧ Strays q ms) (cleanMSHRS cfg d q ms) fun r =>
      Kept q r.1 ∧ r.2 = ms.filterMap (cleaned (placesOf q) d) ∧ ¬ Strays q ms := by
  induction ms generalizing q with
  | nil => exact .ok ⟨⟨rfl, rfl⟩, rfl, by simp [Strays]⟩
  | cons m ms ih =>
    have hstray : ∀ {q' : List LSQEntry}, Kept q q' → (Strays q' ms ↔ Strays q ms) := by
      intro q' hq'
      have hnone : ∀ w, findEntry q' w = none ↔ findEntry q w = none := by
        intro w
        have hlookup := @lookup_placesOf q' w
        rw [hq'.1, lookup_placesOf] at hlookup
        rw [← Option.map_eq_none_iff (f := LSQEntry.place), ← hlookup, Option.map_eq_none_iff]
      simp only [Strays, hnone]
    have hcons : (∀ w ∈ m.theWaitingLSQs, findEntry q w ≠ none) → ¬ Strays q ms →
        ¬ Strays q (m :: ms) := by
      rintro hall hrest ⟨x, hx, w, hw, hnone⟩
      rcases List.mem_cons.mp hx with rfl | hx
      · exact hall w hw hnone
      · exact hrest ⟨x, hx, w, hw, hnone⟩
    have hmore : Strays q ms → Strays q (m :: ms) := by
      rintro ⟨x, hx, hw⟩
      exact ⟨x, List.mem_cons_of_mem _ hx, hw⟩
    rw [cleanMSHRS]
    refine .bind (keptWaiters_eq.allow ?_) ?_
    · rintro f (htame | ⟨hf, w, hw, hnone⟩)
      · exact .inl htame
      · exact .inr ⟨hf, m, List.mem_cons_self, w, hw, hnone⟩
    · rintro waiting ⟨rfl, hall⟩
      refine .ite (fun hempty => ?_) fun hkeep => ?_
      · refine .bind (wake_kept.allow fun f hf => .inl hf) fun q' hq' => ?_
        refine (ih.allow ?_).weaken ?_
        · rintro f (htame | ⟨hf, hstrays⟩)
          · exact .inl htame
          · exact .inr ⟨hf, hmore ((hstray hq').mp hstrays)⟩
        · rintro r ⟨hkept, hr, hrest⟩
          refine ⟨⟨hkept.1.trans hq'.1, hkept.2.trans hq'.2⟩, ?_, hcons hall fun hs =>
            hrest ((hstray hq').mpr hs)⟩
          rw [hr, hq'.1, List.filterMap_cons_none (by rw [cleaned, if_pos hempty])]
      · refine .bind (ih.allow ?_) ?_
        · rintro f (htame | ⟨hf, hstrays⟩)
          · exact .inl htame
          · exact .inr ⟨hf, hmore hstrays⟩
        · rintro ⟨q', rest⟩ ⟨hkept, hr, hrest⟩
          refine .pure ⟨hkept, ?_, hcons hall hrest⟩
          rw [List.filterMap_cons_some (by rw [cleaned, if_neg hkeep])]
          exact congrArg _ hr

theorem mem_cleaned {m' : MSHR} {ps : List Place} (hm' : m' ∈ ms.filterMap (cleaned ps d)) :
    ∃ m ∈ ms, m' = { m with theWaitingLSQs := m.theWaitingLSQs.filter (keptAt ps d) } ∧
      m'.theWaitingLSQs ≠ [] := by
  obtain ⟨m, hm, hclean⟩ := List.mem_filterMap.mp hm'
  rw [cleaned] at hclean
  split at hclean
  · cases hclean
  · next hkeep =>
    obtain rfl := Option.some.inj hclean
    exact ⟨m, hm, rfl, hkeep⟩

/-- The entries that stay, and the registers after a rollback. -/
theorem Linked.cleaned (h : Linked (tiesOf q) ms) :
    Linked (tiesOf (q.filter fun e => !discards d e))
      (ms.filterMap (nuArchARM.cleaned (placesOf q) d)) := by
  have hunique : (q.map seqOf).Nodup := by
    have hnodup := h.unique
    rw [List.map_map] at hnodup
    exact hnodup
  have hkeep : ∀ e ∈ q, keptAt (placesOf q) d e.theSequenceNum = !discards d e := by
    intro e he
    exact keptAt_of_find (Keyed.lookup_of_mem hunique he)
  have hties : tiesOf (q.filter fun e => !discards d e) =
      (tiesOf q).filter fun t => keptAt (placesOf q) d t.seq := by
    rw [tiesOf, tiesOf, List.filter_map]
    congr 1
    refine List.filter_congr fun e he => ?_
    exact (hkeep e he).symm
  rw [hties]
  refine h.discard ?_ ?_ ?_
  · intro m' hm'
    obtain ⟨m, hm, rfl, hne⟩ := mem_cleaned hm'
    refine ⟨hne, m, hm, rfl, List.filter_sublist, ?_⟩
    intro w hw t _ hseq
    rw [hseq]
    exact (List.mem_filter.mp hw).2
  · intro m hm w hw hall
    obtain ⟨t, ht, hseq, -⟩ := h.present m hm w hw
    have hmem : w ∈ m.theWaitingLSQs.filter (keptAt (placesOf q) d) :=
      List.mem_filter.mpr ⟨hw, hseq ▸ hall t ht hseq⟩
    have hne : m.theWaitingLSQs.filter (keptAt (placesOf q) d) ≠ [] := List.ne_nil_of_mem hmem
    have hclean : nuArchARM.cleaned (placesOf q) d m =
        some { m with theWaitingLSQs := m.theWaitingLSQs.filter (keptAt (placesOf q) d) } := by
      rw [nuArchARM.cleaned, if_neg hne]
    exact ⟨_, List.mem_filterMap.mpr ⟨m, hm, hclean⟩, rfl, hmem⟩
  · have hsub : ∀ l : List MSHR,
        ((l.filterMap (nuArchARM.cleaned (placesOf q) d)).map MSHR.thePaddr).Sublist
          (l.map MSHR.thePaddr) := by
      intro l
      induction l with
      | nil => exact List.Sublist.refl _
      | cons m l ih =>
        rw [List.filterMap_cons, List.map_cons, nuArchARM.cleaned]
        split
        · next hnone => exact ih.cons _
        · next x hsome =>
          split at hsome
          · cases hsome
          · obtain rfl := Option.some.inj hsome
            exact ih.cons_cons _
    exact h.keys.sublist (hsub ms)

/-- The waiters are all still there. -/
theorem Linked.of_filter (h : Linked (tiesOf q) ms) {keep : LSQEntry → Bool}
    (hstray : ¬ Strays (q.filter keep) ms) : Linked (tiesOf (q.filter keep)) ms where
  unique := h.unique.sublist ((List.filter_sublist.map _).map _)
  keys := h.keys
  present := by
    intro m hm w hw
    obtain ⟨t, ht, hseq, hback⟩ := h.present m hm w hw
    have hfound : findEntry (q.filter keep) w ≠ none := fun hnone => hstray ⟨m, hm, w, hw, hnone⟩
    obtain ⟨e, hfind⟩ := Option.ne_none_iff_exists'.mp hfound
    obtain ⟨hmem, hkey⟩ := Keyed.mem_of_lookup hfind
    have hsame : e.tie = t :=
      h.eq_of_seq (List.mem_map_of_mem (List.mem_of_mem_filter hmem)) ht (hkey.trans hseq.symm)
    exact ⟨t, hsame ▸ List.mem_map_of_mem hmem, hseq, hback⟩
  waits := fun t ht => h.waits t ((List.filter_sublist.map _).subset ht)
  once := h.once

theorem unrequireAll_wires {es : List LSQEntry} :
    Yields Tame (Core.unrequireAll cfg es c) fun c' =>
      c'.wires = c.wires ∧ c'.theMemQueue = c.theMemQueue := by
  induction es generalizing c with
  | nil => exact .ok ⟨rfl, rfl⟩
  | cons e es ih =>
    have hone : Yields Tame (if e.isStore || e.isAtomic then
        c.unrequireWritePermission cfg e.thePaddr else pure c) fun c' =>
          c'.wires = c.wires ∧ c'.theMemQueue = c.theMemQueue :=
      .ite (fun _ => unrequireWritePermission_wires) fun _ => .pure ⟨rfl, rfl⟩
    refine .bind hone ?_
    rintro c₁ ⟨hwires, hqueue⟩
    refine ih.weaken ?_
    rintro c' ⟨hwires', hqueue'⟩
    exact ⟨hwires'.trans hwires, hqueue'.trans hqueue⟩

theorem dropSSB_queue {counted erased : List LSQEntry} :
    Yields Tame (c.dropSSB cfg counted erased) fun c' =>
      c'.theMemQueue = (c.theMemQueue.filter fun e =>
        !erased.any fun x => x.theSequenceNum == e.theSequenceNum) ∧
      c'.wires = { c.wires with ties := tiesOf c'.theMemQueue } := by
  rw [Core.dropSSB]
  refine .bind unrequireAll_wires ?_
  rintro c₁ ⟨hwires, hqueue⟩
  refine .ite (fun _ => .error (by decide)) fun _ => ?_
  refine checkCounts_wires.weaken ?_
  rintro c' rfl
  refine ⟨congrArg (List.filter _) hqueue, ?_⟩
  rw [← hwires]
  rfl

theorem clearSSBFrom_queue (hsorted : (c.places.map Place.seq).Pairwise (· < ·))
    (hfound : (∃ p ∈ c.places, speculativeFrom d p = true) ∨ c.ssb = []) :
    Yields Tame (c.clearSSBFrom cfg d) fun c' =>
      c'.theMemQueue = (c.theMemQueue.filter fun e => !speculativeFrom d e.place) ∧
      c'.wires = { c.wires with ties := tiesOf c'.theMemQueue } := by
  rw [clearSSBFrom_eq hsorted hfound]
  refine dropSSB_queue.weaken ?_
  rintro c' ⟨hqueue, hwires⟩
  refine ⟨hqueue.trans ?_, hwires⟩
  exact filter_not_any_seq (hsorted.imp fun hlt => Nat.ne_of_lt hlt)

theorem resetARM_queue : Yields Tame c.resetARM fun c' =>
    c'.theMemQueue = (c.theMemQueue.filter fun e => e.theQueue != .kLSQ) ∧
    c'.wires = { c.wires with ties := tiesOf c'.theMemQueue } := by
  rw [Core.resetARM, Core.clearLSQ]
  refine checkCounts_wires.weaken ?_
  rintro c' rfl
  exact ⟨rfl, rfl⟩

/-- What happens to the registers in a rollback or a resynchronisation. -/
structure Cleans (c c' : Core) : Prop where
  linked : c'.wires.Linked
  mshrs : ∀ m' ∈ c'.theMSHRs, m'.theWaitingLSQs ≠ [] ∧ ∃ m ∈ c.theMSHRs,
    m'.thePaddr = m.thePaddr ∧ m'.theOperation = m.theOperation ∧ m'.theSize = m.theSize
  ports : c'.theMemoryPorts = c.theMemoryPorts
  walks : c'.thePageWalkRequests = c.thePageWalkRequests
  ready : c'.theReadyTranslations = c.theReadyTranslations

theorem Cleans.of_cleaned {ps : List Place} (hlinked : c'.wires.Linked)
    (hms : c'.theMSHRs = c.theMSHRs.filterMap (cleaned ps d))
    (hports : c'.theMemoryPorts = c.theMemoryPorts)
    (hwalks : c'.thePageWalkRequests = c.thePageWalkRequests)
    (hready : c'.theReadyTranslations = c.theReadyTranslations) : Cleans c c' where
  linked := hlinked
  mshrs := by
    intro m' hm'
    rw [hms] at hm'
    obtain ⟨m, hm, rfl, hne⟩ := mem_cleaned hm'
    exact ⟨hne, m, hm, rfl, rfl, rfl⟩
  ports := hports
  walks := hwalks
  ready := hready

/-- Entries that wait and are cleared before the registers are cleaned. -/
def Core.Cuts (c : Core) : Prop := ∃ e ∈ c.theMemQueue, e.theQueue = .kLSQ ∧ e.link ≠ none

theorem cuts_of_strays (h : c.wires.Linked)
    (hstray : Strays (c.theMemQueue.filter fun e => e.theQueue != .kLSQ) c.theMSHRs) : c.Cuts := by
  obtain ⟨m, hm, w, hw, hnone⟩ := hstray
  obtain ⟨t, ht, hseq, hback⟩ := h.present m hm w hw
  obtain ⟨e, he, rfl⟩ := List.mem_map.mp ht
  refine ⟨e, he, ?_, ?_⟩
  · by_contra hqueue
    refine Keyed.lookup_eq_none.mp hnone (List.mem_map.mpr ⟨e, ?_, hseq⟩)
    exact List.mem_filter.mpr ⟨he, by simpa using hqueue⟩
  · have hlink : e.link = some m.thePaddr := hback
    rw [hlink]
    simp

theorem discards_of_ne (hqueue : (e.theQueue != .kLSQ) = true) :
    discards d e = speculativeFrom d e.place := by
  have hne : (e.theQueue == .kLSQ) = false := by simpa using hqueue
  rw [discards, hne, Bool.false_or]
  rfl

theorem not_discards_zero (e : LSQEntry) :
    (!speculativeFrom 0 e.place && e.theQueue != .kLSQ) = !discards 0 e := by
  cases hqueue : e.theQueue != .kLSQ with
  | true => rw [discards_of_ne hqueue, Bool.and_true]
  | false =>
    have hlsq : (e.theQueue == .kLSQ) = true := by simpa using hqueue
    rw [discards, hlsq, Bool.and_false]
    rfl

theorem doAbortSpeculation_cleans (hsteady : Steady cfg c) (h : c.wires.Linked) :
    Yields (fun f => Tame f ∨ f = .danglingWaiter ∧ c.Cuts) (c.doAbortSpeculation cfg)
      (Cleans c) := by
  rw [Core.doAbortSpeculation]
  refine .ite (fun _ => .error (.inl (by decide))) fun _ => ?_
  refine .ite (fun _ => .error (.inl (by decide))) fun _ => ?_
  cases Core.rollbackTarget c.theSRB c.theViolatingInstruction with
  | none => exact .error (.inl (by decide))
  | some target =>
    dsimp only
    cases hlookup : Keyed.lookup Checkpoint.theInstruction c.theCheckpoints target.sequenceNo with
    | none => exact .error (.inl (by decide))
    | some ckpt =>
      obtain ⟨hckpt, hown⟩ := Keyed.mem_of_lookup hlookup
      refine .bind (((resetARM_steady hsteady).also resetARM_queue).allow fun f hf => .inl hf) ?_
      rintro c₁ ⟨⟨hsteady₁, hflow⟩, hqueue₁, hwires₁⟩
      have hms₁ : c₁.theMSHRs = c.theMSHRs := congrArg Wires.theMSHRs hwires₁
      refine .bind (cleanMSHRS_eq.allow ?_) ?_
      · rintro f (htame | ⟨hf, hstray⟩)
        · exact .inl htame
        · rw [hqueue₁, hms₁] at hstray
          exact .inr ⟨hf, cuts_of_strays h hstray⟩
      · rintro ⟨q, ms⟩ ⟨⟨hplaces, hties⟩, hms, hstray⟩
        dsimp only at hplaces hties hms ⊢
        have hlinked₁ : Linked (tiesOf c₁.theMemQueue) c₁.theMSHRs := by
          rw [hqueue₁, hms₁] at hstray ⊢
          exact h.of_filter hstray
        have hks : c₁.theCheckpoints = c.theCheckpoints := congrArg Flow.theCheckpoints hflow
        have hanchored : Anchored (placesOf q) c₁.theCheckpoints := hplaces ▸ hsteady₁.anchored
        have hsorted : ((placesOf q).map Place.seq).Pairwise (· < ·) :=
          hplaces ▸ hsteady₁.stocked.sorted
        have hkept : (q.filter fun e => !speculativeFrom target.sequenceNo e.place) =
            q.filter fun e => !discards target.sequenceNo e := by
          refine List.filter_congr fun e he => ?_
          have hmem : e.place ∈ placesOf c₁.theMemQueue := hplaces ▸ List.mem_map_of_mem he
          obtain ⟨x, hx, hsame⟩ := List.mem_map.mp hmem
          rw [hqueue₁] at hx
          have hqueue : x.theQueue = e.theQueue := congrArg Place.queue hsame
          rw [discards_of_ne (hqueue ▸ (List.mem_filter.mp hx).2)]
        refine .bind ((clearSSBFrom_queue hsorted
          (hanchored.found (hks ▸ hckpt) hown)).allow fun f hf => .inl hf) ?_
        rintro c₂ ⟨hqueue₂, hwires₂⟩
        have hcleaned : Linked (tiesOf c₂.theMemQueue)
            (c.theMSHRs.filterMap (cleaned (placesOf c₁.theMemQueue) target.sequenceNo)) := by
          rw [hqueue₂, ← hplaces, ← hms₁]
          change Linked (tiesOf (q.filter fun e => !speculativeFrom target.sequenceNo e.place)) _
          rw [hkept]
          exact Linked.cleaned (hties ▸ hlinked₁)
        have hms₂ : c₂.theMSHRs =
            c.theMSHRs.filterMap (cleaned (placesOf c₁.theMemQueue) target.sequenceNo) :=
          (congrArg Wires.theMSHRs hwires₂).trans (hms.trans (by rw [hms₁]))
        have hports₂ : c₂.theMemoryPorts = c.theMemoryPorts :=
          (congrArg Wires.theMemoryPorts hwires₂).trans (congrArg Wires.theMemoryPorts hwires₁)
        have hwalks₂ : c₂.thePageWalkRequests = c.thePageWalkRequests :=
          (congrArg Wires.thePageWalkRequests hwires₂).trans
            (congrArg Wires.thePageWalkRequests hwires₁)
        have hready₂ : c₂.theReadyTranslations = c.theReadyTranslations :=
          (congrArg Wires.theReadyTranslations hwires₂).trans
            (congrArg Wires.theReadyTranslations hwires₁)
        refine .pure (.of_cleaned ?_ hms₂ hports₂ hwalks₂ hready₂)
        change Linked (tiesOf c₂.theMemQueue) c₂.theMSHRs
        rw [hms₂]
        exact hcleaned

theorem resynchronize_cleans (hsteady : Steady cfg c) (h : c.wires.Linked)
    {pc : VirtualMemoryAddress} : Yields Tame (c.resynchronize cfg pc) (Cleans c) := by
  have hpresent : ¬ Strays c.theMemQueue c.theMSHRs := by
    rintro ⟨m, hm, w, hw, hnone⟩
    obtain ⟨t, ht, hseq, -⟩ := h.present m hm w hw
    obtain ⟨e, hfind, -⟩ := findEntry_of_tie h.unique ht
    rw [hseq, hnone] at hfind
    cases hfind
  rw [Core.resynchronize]
  refine .bind (cleanMSHRS_eq.allow fun f hf => hf.resolve_right fun hstray => hpresent hstray.2) ?_
  rintro ⟨q, ms⟩ ⟨⟨hplaces, hties⟩, hms, -⟩
  dsimp only at hplaces hties hms ⊢
  refine .bind resetARM_queue ?_
  rintro c₁ ⟨hqueue₁, hwires₁⟩
  refine .bind dropSSB_queue ?_
  rintro c₂ ⟨hqueue₂, hwires₂⟩
  have hunique : ((placesOf c₁.theMemQueue).map Place.seq).Nodup := by
    have hsub : (placesOf c₁.theMemQueue).Sublist (placesOf q) := by
      rw [hqueue₁]
      exact List.filter_sublist.map _
    rw [hplaces] at hsub
    exact hsteady.stocked.unique.sublist (hsub.map _)
  have hleft : c₂.theMemQueue = q.filter fun e => !discards 0 e := by
    have hssb : ({ c₁ with theSRB := [] } : Core).ssb =
        c₁.theMemQueue.filter fun e => speculativeFrom 0 e.place := ssb_eq_filter
    rw [hqueue₂, hssb]
    change (c₁.theMemQueue.filter fun e => !(c₁.theMemQueue.filter fun e =>
      speculativeFrom 0 e.place).any fun x => x.theSequenceNum == e.theSequenceNum) = _
    rw [filter_not_any_seq hunique, hqueue₁, List.filter_filter]
    exact List.filter_congr fun e _ => not_discards_zero e
  have hcleaned : Linked (tiesOf c₂.theMemQueue) ms := by
    rw [hleft, hms, ← hplaces]
    exact Linked.cleaned (hties ▸ h)
  have hms₂ : c₂.theMSHRs = c.theMSHRs.filterMap (cleaned (placesOf c.theMemQueue) 0) :=
    (congrArg Wires.theMSHRs hwires₂).trans ((congrArg Wires.theMSHRs hwires₁).trans hms)
  refine .pure (.of_cleaned ?_ hms₂ ?_ ?_ ?_)
  · change Linked (tiesOf c₂.theMemQueue) c₂.theMSHRs
    rw [hms₂, ← hms]
    exact hcleaned
  · exact (congrArg Wires.theMemoryPorts hwires₂).trans (congrArg Wires.theMemoryPorts hwires₁)
  · exact (congrArg Wires.thePageWalkRequests hwires₂).trans
      (congrArg Wires.thePageWalkRequests hwires₁)
  · exact (congrArg Wires.theReadyTranslations hwires₂).trans
      (congrArg Wires.theReadyTranslations hwires₁)

/-! ## Issue -/

/-- An operation for the address `a` waits in its register, is blocked on it or makes it. -/
structure Issues (a : PhysicalMemoryAddress) (w w' : Wires) : Prop where
  linked : w'.Linked
  origin : ∀ m' ∈ w'.theMSHRs, (∃ m ∈ w.theMSHRs, m'.thePaddr = m.thePaddr ∧
      m'.theOperation = m.theOperation ∧ m'.theSize = m.theSize ∧
      (m'.theWaitingLSQs = [] → m' = m)) ∨
    m'.theWaitingLSQs ≠ [] ∧ m'.thePaddr = a ∧ m'.theOperation ≠ .kPageWalkRequest ∧
      m'.theOperation ≠ .kStorePrefetch ∧ ∃ op ∈ w'.theMemoryPorts,
        op.theOperation = m'.theOperation ∧ op.thePAddr = a ∧ op.theSize = m'.theSize
  idle : ∀ m ∈ w.theMSHRs, m.theWaitingLSQs = [] → m ∈ w'.theMSHRs
  ports : w'.theMemoryPorts = w.theMemoryPorts ∨ ∃ op, op.thePAddr = a ∧
    op.theOperation ≠ .kPageWalkRequest ∧ w'.theMemoryPorts = w.theMemoryPorts ++ [op]
  walks : w'.thePageWalkRequests = w.thePageWalkRequests
  ready : w'.theReadyTranslations = w.theReadyTranslations

/-- A register that something waits in changes. -/
theorem Issues.of_alter {w : Wires} {ts' : List Tie} {m : MSHR} {f : MSHR → MSHR} (h : w.Linked)
    (hm : m ∈ w.theMSHRs) (hkey : m.thePaddr = a) (hbusy : m.theWaitingLSQs ≠ [])
    (hf : ∀ m, (f m).thePaddr = m.thePaddr ∧ (f m).theOperation = m.theOperation ∧
      (f m).theSize = m.theSize)
    (hmore : ∀ m, m.theWaitingLSQs ≠ [] → (f m).theWaitingLSQs ≠ [])
    (hlinked : Linked ts' (Keyed.alter MSHR.thePaddr a f w.theMSHRs)) :
    Issues a w { w with ties := ts', theMSHRs := Keyed.alter MSHR.thePaddr a f w.theMSHRs } where
  linked := hlinked
  origin := by
    intro m' hm'
    obtain ⟨x, hx, rfl⟩ := List.mem_map.mp hm'
    refine .inl ⟨x, hx, ?_⟩
    by_cases hxa : x.thePaddr = a
    · rw [if_pos hxa]
      refine ⟨(hf x).1, (hf x).2.1, (hf x).2.2, fun hempty => ?_⟩
      rw [h.eq_of_key hx hm (hxa.trans hkey.symm)] at hempty
      exact absurd hempty (hmore m hbusy)
    · rw [if_neg hxa]
      exact ⟨rfl, rfl, rfl, fun _ => rfl⟩
  idle := by
    intro x hx hempty
    refine List.mem_map.mpr ⟨x, hx, if_neg fun hxa => ?_⟩
    rw [h.eq_of_key hx hm (hxa.trans hkey.symm)] at hempty
    exact hbusy hempty
  ports := .inl rfl
  walks := rfl
  ready := rfl

/-- The registers for `a` are empty of waiters. -/
def Idle (ms : List MSHR) (a : PhysicalMemoryAddress) : Prop :=
  ∃ m, findMSHR ms a = some m ∧ m.theWaitingLSQs = []

theorem scanAndAttachMSHR_issues (h : c.wires.Linked) (hfind : findEntry c.theMemQueue s = some e) :
    Yields (fun f => Tame f ∨ f = .emptyMSHR ∧ Idle c.theMSHRs e.thePaddr) (c.scanAndAttachMSHR e)
      fun r => ∀ c' ∈ r, Issues e.thePaddr c.wires c'.wires := by
  obtain ⟨hmem, hseq⟩ := mem_ties hfind
  rw [Core.scanAndAttachMSHR]
  cases hfound : findMSHR c.theMSHRs e.thePaddr with
  | none => exact .ok (by simp)
  | some m =>
    obtain ⟨hm, hkey⟩ := Keyed.mem_of_lookup hfound
    refine .ite (fun hempty => .error (.inr ⟨rfl, m, hfound, hempty⟩)) fun hbusy => ?_
    refine .ite (fun _ => ?_) fun _ => .ok (by simp)
    refine .ite (fun _ => .error (.inl (by decide))) fun hfree => .ok ?_
    intro c' hc'
    obtain rfl := Option.some.inj hc'
    have hlink : e.link = none := by simpa using hfree
    have hnone : e.tie.link = none := hlink
    have hties : tiesOf (updateEntry c.theMemQueue e.theSequenceNum (attach e.thePaddr)) =
        Keyed.alter Tie.seq e.tie.seq (fun x => { x with link := some e.tie.paddr })
          (tiesOf c.theMemQueue) :=
      Keyed.map_alter_image (fun _ => rfl) fun _ => rfl
    have hlinked := h.attach hmem hnone ⟨m, hm, hkey⟩
    refine Issues.of_alter h hm hkey hbusy (by intro _; exact ⟨rfl, rfl, rfl⟩) (by simp) ?_
    rw [hties]
    exact hlinked

/-- What is blocked does not wait. -/
theorem Issues.of_block (h : c.wires.Linked) {m : MSHR} (hfound : findMSHR c.theMSHRs a = some m)
    (hbusy : m.theWaitingLSQs ≠ []) {f : MSHR → MSHR}
    (hf : ∀ m, (f m).thePaddr = m.thePaddr ∧ (f m).theOperation = m.theOperation ∧
      (f m).theSize = m.theSize ∧ (f m).theWaitingLSQs = m.theWaitingLSQs) :
    Issues a c.wires
      ({ c with theMSHRs := Keyed.alter MSHR.thePaddr a f c.theMSHRs } : Core).wires := by
  obtain ⟨hm, hkey⟩ := Keyed.mem_of_lookup hfound
  refine Issues.of_alter h hm hkey hbusy (fun m => ⟨(hf m).1, (hf m).2.1, (hf m).2.2.1⟩) ?_ ?_
  · intro x hx
    rw [(hf x).2.2.2]
    exact hx
  · exact h.block (fun m => (hf m).1) fun m => (hf m).2.2.2

theorem scanAndBlockMSHR_issues (h : c.wires.Linked) :
    Yields (fun f => Tame f ∨ f = .emptyMSHR ∧ Idle c.theMSHRs e.thePaddr) (c.scanAndBlockMSHR e)
      fun r => (r = none → findMSHR c.theMSHRs e.thePaddr = none) ∧
        ∀ c' ∈ r, Issues e.thePaddr c.wires c'.wires := by
  rw [Core.scanAndBlockMSHR]
  cases hfound : findMSHR c.theMSHRs e.thePaddr with
  | none => exact .ok ⟨fun _ => rfl, by simp⟩
  | some m =>
    refine .ite (fun hempty => .error (.inr ⟨rfl, m, hfound, hempty⟩)) fun hbusy => .ok ⟨by simp, ?_⟩
    intro c' hc'
    obtain rfl := Option.some.inj hc'
    exact .of_block h hfound hbusy (by intro _; exact ⟨rfl, rfl, rfl, rfl⟩)

theorem scanAndBlockPrefetch_issues (h : c.wires.Linked) :
    Yields (fun f => Tame f ∨ f = .emptyMSHR ∧ Idle c.theMSHRs e.thePaddr) (c.scanAndBlockPrefetch e)
      fun r => ∀ c' ∈ r, Issues e.thePaddr c.wires c'.wires := by
  rw [Core.scanAndBlockPrefetch]
  cases hfound : findMSHR c.theMSHRs e.thePaddr with
  | none => exact .ok (by simp)
  | some m =>
    refine .ite (fun hempty => .error (.inr ⟨rfl, m, hfound, hempty⟩)) fun hbusy => .ok ?_
    intro c' hc'
    obtain rfl := Option.some.inj hc'
    exact .of_block h hfound hbusy (by intro _; exact ⟨rfl, rfl, rfl, rfl⟩)

theorem sendMiss_issues (h : c.wires.Linked) (hfind : findEntry c.theMemQueue s = some e)
    (hfree : findMSHR c.theMSHRs e.thePaddr = none) {op : eRequest}
    (hop : op ≠ .kPageWalkRequest ∧ op ≠ .kStorePrefetch) :
    Issues e.thePaddr c.wires (c.sendMiss e op).wires := by
  obtain ⟨hmem, hseq⟩ := mem_ties hfind
  have hnokey : ∀ m ∈ c.theMSHRs, m.thePaddr ≠ e.thePaddr := by
    intro m hm heq
    exact Keyed.lookup_eq_none.mp hfree (List.mem_map.mpr ⟨m, hm, heq⟩)
  have hnone : e.tie.link = none := by
    cases hlink : e.tie.link with
    | none => rfl
    | some b =>
      obtain ⟨hown, m, hm, hkey, -⟩ := h.waits e.tie hmem b hlink
      exact absurd (hkey.trans hown) (hnokey m hm)
  have hties : tiesOf (updateEntry c.theMemQueue e.theSequenceNum (attach e.thePaddr)) =
      Keyed.alter Tie.seq e.tie.seq (fun x => { x with link := some e.tie.paddr })
        (tiesOf c.theMemQueue) :=
    Keyed.map_alter_image (fun _ => rfl) fun _ => rfl
  have hreserved := h.reserve (m := ⟨e.thePaddr, op, e.theSize, [], [], []⟩) hnokey rfl
  have hattached := hreserved.attach hmem hnone ⟨_, List.mem_append_right _ (List.mem_singleton.mpr rfl), rfl⟩
  have hms : Keyed.alter MSHR.thePaddr e.tie.paddr
      (fun m => { m with theWaitingLSQs := m.theWaitingLSQs ++ [e.tie.seq] })
      (c.theMSHRs ++ [⟨e.thePaddr, op, e.theSize, [], [], []⟩]) =
      c.theMSHRs ++ [⟨e.thePaddr, op, e.theSize, [e.theSequenceNum], [], []⟩] := by
    rw [Keyed.alter, List.map_append]
    congr 1
    · exact Keyed.alter_eq_self fun m hm hkey => absurd hkey (hnokey m hm)
    · simp [LSQEntry.tie]
  refine ⟨?_, ?_, ?_, .inr ⟨⟨op, e.thePaddr, e.theVaddr, e.theSize⟩, rfl, hop.1, rfl⟩, rfl, rfl⟩
  · change Linked (tiesOf (updateEntry c.theMemQueue e.theSequenceNum (attach e.thePaddr)))
      (c.theMSHRs ++ [⟨e.thePaddr, op, e.theSize, [e.theSequenceNum], [], []⟩])
    rw [hties, ← hms]
    exact hattached
  · intro m' hm'
    rcases List.mem_append.mp hm' with hm' | hm'
    · exact .inl ⟨m', hm', rfl, rfl, rfl, fun _ => rfl⟩
    · refine .inr ?_
      rw [List.mem_singleton.mp hm']
      exact ⟨by simp, rfl, hop.1, hop.2, _, List.mem_append_right _ (List.mem_singleton.mpr rfl),
        rfl, rfl, rfl⟩
  · intro m hm _
    exact List.mem_append_left _ hm

/-- The address whose register a step looks for. -/
def Core.scans (cfg : CoreConfig) (c : Core) : Core.Event → Option PhysicalMemoryAddress
  | .issue insn => (findEntry c.theMemQueue insn).bind fun e =>
    if e.linkedStatus = .kAwaitingPort ∨
        (e.isAtomic ∧ e.linkedStatus = .kComplete ∧ e.theStoreComplete = false) then
      some e.thePaddr
    else none
  | .issueStorePrefetch insn => (findEntry c.theMemQueue insn).bind fun e =>
    if (e.isAbnormalAccess ∨ e.theBypassSB ∨ e.thePaddr = kInvalid ∨ e.thePaddr = kUnresolved) ∨
        (c.thePermissions.find (cfg.line e.thePaddr)).any (·.thePermission) then none
    else some e.thePaddr
  | _ => none

theorem issueOperation_kind :
    Yields Tame (Core.issueOperation cfg e) fun r => ∀ op ∈ r,
      op ≠ .kPageWalkRequest ∧ op ≠ .kStorePrefetch := by
  have hatomic : ∀ op : eRequest, op ≠ .kPageWalkRequest ∧ op ≠ .kStorePrefetch →
      Yields Tame (if cfg.theSpeculativeOrder = false ∨ e.isAbnormalAccess then
          if e.theQueue = .kLSQ then .ok (some op) else .error CoreFault.wrongQueue
        else if e.theQueue = .kLSQ then .ok (some .kAtomicPreload)
        else .ok (some .kStore)) fun r => ∀ op ∈ r,
          op ≠ .kPageWalkRequest ∧ op ≠ .kStorePrefetch := by
    intro op hop
    refine .ite (fun _ => ?_) fun _ => ?_
    · exact .ite (fun _ => .ok (by simpa using hop)) fun _ => .error (by decide)
    · exact .ite (fun _ => .ok (by simp)) fun _ => .ok (by simp)
  rw [Core.issueOperation]
  cases e.theOperation with
  | kLoad => exact .ok (by simp)
  | kStore => exact .ok (by simp)
  | kRMW => exact hatomic _ (by decide)
  | kCAS => exact hatomic _ (by decide)
  | kMEMBARMarker | kCASP => exact .ok (by simp)

theorem issue_issues (h : c.wires.Linked) :
    Yields (fun f => Tame f ∨ f = .emptyMSHR ∧
        ∃ a, c.scans cfg (.issue s) = some a ∧ Idle c.theMSHRs a)
      (c.issue cfg s) fun c' => c'.wires = c.wires ∨
        ∃ a, c.scans cfg (.issue s) = some a ∧ Issues a c.wires c'.wires := by
  rw [Core.issue]
  cases hfind : findEntry c.theMemQueue s with
  | none => exact .ok (.inl rfl)
  | some e =>
    refine .ite (fun _ => .ok (.inl rfl)) fun hready => ?_
    have hscans : c.scans cfg (.issue s) = some e.thePaddr := by
      rw [Core.scans, hfind, Option.bind_some, if_pos]
      by_contra hno
      rw [not_or] at hno
      exact hready ⟨hno.1, hno.2⟩
    refine .ite (fun _ => .error (.inl (by decide))) fun _ => ?_
    refine .bind (issueOperation_kind.allow fun f hf => .inl hf) fun op hkind => ?_
    have hidle : ∀ f, (Tame f ∨ f = .emptyMSHR ∧ Idle c.theMSHRs e.thePaddr) →
        Tame f ∨ f = .emptyMSHR ∧ ∃ a, c.scans cfg (.issue s) = some a ∧ Idle c.theMSHRs a :=
      fun f hf => hf.imp_right fun hf => ⟨hf.1, _, hscans, hf.2⟩
    cases op with
    | none => exact .pure (.inl rfl)
    | some op =>
      have hload : Yields (fun f => Tame f ∨ f = .emptyMSHR ∧ Idle c.theMSHRs e.thePaddr)
          (if op = .kLoad then c.scanAndAttachMSHR e else pure none) fun found =>
            ∀ c' ∈ found, Issues e.thePaddr c.wires c'.wires :=
        .ite (fun _ => scanAndAttachMSHR_issues h hfind) fun _ => .pure (by simp)
      refine .bind (hload.allow hidle) fun found hfound => ?_
      cases found with
      | some c' => exact .pure (.inr ⟨_, hscans, hfound c' rfl⟩)
      | none =>
        refine .bind ((scanAndBlockMSHR_issues h).allow hidle) ?_
        rintro found ⟨hfree, hfound⟩
        cases found with
        | some c' => exact .pure (.inr ⟨_, hscans, hfound c' rfl⟩)
        | none =>
          exact .pure (.inr ⟨_, hscans, sendMiss_issues h hfind (hfree rfl) (hkind op rfl)⟩)

theorem issueStorePrefetch_issues (h : c.wires.Linked) :
    Yields (fun f => Tame f ∨ f = .emptyMSHR ∧
        ∃ a, c.scans cfg (.issueStorePrefetch s) = some a ∧ Idle c.theMSHRs a)
      (c.issueStorePrefetch cfg s) fun c' => c'.wires = c.wires ∨
        ∃ a, c.scans cfg (.issueStorePrefetch s) = some a ∧ Issues a c.wires c'.wires := by
  rw [Core.issueStorePrefetch]
  cases hfind : findEntry c.theMemQueue s with
  | none => exact .ok (.inl rfl)
  | some e =>
    refine .ite (fun _ => .ok (.inl rfl)) fun hsound => ?_
    refine .ite (fun _ => .error (.inl (by decide))) fun _ => ?_
    refine .ite (fun _ => .ok (.inl rfl)) fun hneeded => ?_
    have hscans : c.scans cfg (.issueStorePrefetch s) = some e.thePaddr := by
      rw [Core.scans, hfind, Option.bind_some, if_neg]
      exact not_or.mpr ⟨hsound, hneeded⟩
    refine .bind ((scanAndBlockPrefetch_issues h).allow fun f hf =>
      hf.imp_right fun hf => ⟨hf.1, _, hscans, hf.2⟩) fun found hfound => ?_
    cases found with
    | some c' => exact .pure (.inr ⟨_, hscans, hfound c' rfl⟩)
    | none =>
      refine .ite (fun _ => .pure (.inl rfl)) fun _ => .pure (.inr ⟨_, hscans, h, ?_, ?_, ?_, rfl, rfl⟩)
      · intro m hm
        exact .inl ⟨m, hm, rfl, rfl, rfl, fun _ => rfl⟩
      · exact fun m hm _ => hm
      · exact .inr ⟨⟨.kStorePrefetch, e.thePaddr, e.theVaddr, e.theSize⟩, rfl, by simp, rfl⟩

theorem issueMMU_linked (h : c.wires.Linked) {vaddr : VirtualMemoryAddress} {n : Nat} :
    (c.issueMMU vaddr a n).wires.Linked := by
  change Linked (tiesOf c.theMemQueue) (if (findMSHR c.theMSHRs a).isSome then c.theMSHRs
    else c.theMSHRs ++ [⟨a, .kPageWalkRequest, .kDoubleWord, [], [], []⟩])
  split
  · exact h
  · next hnone =>
    refine h.reserve ?_ rfl
    intro m hm heq
    have hfree : findMSHR c.theMSHRs a = none := by simpa using hnone
    exact Keyed.lookup_eq_none.mp hfree (List.mem_map.mpr ⟨m, hm, heq⟩)

theorem acquireWritePermission_wires :
    Yields Tame (c.acquireWritePermission cfg a) fun c' => c'.wires = c.wires := by
  have hacquire : Yields Tame (c.thePermissions.acquire (cfg.line a)) fun _ => True := by
    rw [Permissions.acquire]
    cases c.thePermissions.find (cfg.line a) with
    | none => exact .ok trivial
    | some l => exact .ite (fun _ => .error (by decide)) fun _ => .ok trivial
  exact .bind hacquire fun p _ => .pure rfl

theorem loseWritePermission_wires :
    Yields Tame (c.loseWritePermission cfg a) fun c' => c'.wires = c.wires := by
  have hlose : Yields Tame (c.thePermissions.lose (cfg.line a)) fun _ => True := by
    rw [Permissions.lose]
    cases c.thePermissions.find (cfg.line a) with
    | none => exact .ok trivial
    | some l => exact .ite (fun _ => .error (by decide)) fun _ => .ok trivial
  rw [Core.loseWritePermission]
  refine .bind hlose fun p _ => .ite (fun _ => ?_) fun _ => .pure rfl
  obtain ⟨abort, violator, heq⟩ := abortOnLoss_same (cfg.line a) c.theCheckpoints c
  rw [heq]
  exact .pure rfl

theorem linkedStatus_unlinked (hwaits : e.linkedStatus = .kAwaitingIssue) :
    e.link = none := by
  cases hlink : e.link with
  | none => rfl
  | some a =>
    exfalso
    revert hwaits
    rw [LSQEntry.linkedStatus, hlink]
    simp only [MemQueueEntry.status, Option.isSome_some]
    repeat' split
    all_goals simp_all

theorem issueStore_loosens (h : c.wires.Linked) {theNonCacheable : Bool} :
    Yields Tame (c.issueStore cfg theNonCacheable) fun c' => Loosens c.wires c'.wires := by
  rw [Core.issueStore]
  split
  · exact .ok (.refl h)
  · next e rest hq =>
    refine .ite (fun hwaits => ?_) fun _ => .ok (.refl h)
    refine .ite (fun _ => ?_) fun _ => .ite (fun _ => .error (by decide)) fun _ => ?_
    · have hfind := findEntry_update (f := setIssued true) (by intro _; rfl) (findEntry_head hq)
      have hunlinked : ∀ t ∈ c.wires.ties, t.seq = e.theSequenceNum → t.link = none := by
        obtain ⟨hmem, hseq⟩ := mem_ties (findEntry_head hq)
        intro t ht hts
        rw [h.eq_of_seq ht hmem (hts.trans hseq.symm)]
        exact linkedStatus_unlinked hwaits.2.1
      have hissued : ({ c with
          theMemQueue := updateEntry c.theMemQueue e.theSequenceNum (setIssued true) } : Core).wires =
          c.wires := wires_update (by intro _; rfl)
      refine (completeLSQ_wires hfind).weaken ?_
      intro c' hc'
      rw [hissued, alter_unlink_of_none hunlinked] at hc'
      rcases hc' with hc' | hc'
      · exact .of_eq h hc'
      · rw [hc']
        exact .of_ties (h.remove hunlinked)
    · refine .bind requestPort_ties fun q hq => ?_
      refine .pure (.of_eq h ?_)
      rw [Core.wires, Core.wires, hq]

/-! ## Steps -/

theorem commit_cleans (hsteady : Steady cfg c) (h : c.wires.Linked) :
    Yields (fun f => Tame f ∨ f = .danglingWaiter ∧ c.theAbortSpeculation = true ∧ c.Cuts)
      (c.commit cfg) fun c' =>
      c.theAbortSpeculation = false ∧ Loosens c.wires c'.wires ∨
      c.theAbortSpeculation = true ∧ Cleans c c' := by
  rw [Core.commit]
  refine .ite (fun habort => ?_) fun hgoes => ?_
  · refine ((doAbortSpeculation_cleans hsteady h).allow fun f hf => ?_).weaken fun c' hc' => ?_
    · exact hf.imp_right fun hcuts => ⟨hcuts.1, habort, hcuts.2⟩
    · exact .inr ⟨habort, hc'⟩
  · have hgoes : c.theAbortSpeculation = false := by simpa using hgoes
    cases c.theSRB with
    | nil => exact .ok (.inl ⟨hgoes, .refl h⟩)
    | cons i rest =>
      refine .ite (fun _ => .ok (.inl ⟨hgoes, .refl h⟩)) fun _ => ?_
      have hfree : Yields Tame (if i.hasCheckpoint then c.freeCheckpoint i.sequenceNo else pure c)
          fun c' => c'.wires = c.wires := by
        refine .ite (fun _ => ?_) fun _ => .pure rfl
        rw [Core.freeCheckpoint]
        cases Keyed.lookup Checkpoint.theInstruction c.theCheckpoints i.sequenceNo with
        | none => exact .error (by decide)
        | some ckpt => exact .ok rfl
      refine .bind (hfree.allow fun f hf => .inl hf) fun c₁ hc₁ => ?_
      refine .bind ((commitEffects_loosens (hc₁ ▸ h)).allow fun f hf => .inl hf) fun c₂ hc₂ => ?_
      exact .pure (.inl ⟨hgoes, (Loosens.of_eq h hc₁).trans hc₂⟩)

/-- A reply is answered by the register of its address, or it is dropped. -/
def Replied (cfg : CoreConfig) (c c' : Core) (k : Nat) : Prop :=
  c.theMemoryPorts[k]? = none ∧ c'.wires = c.wires ∨
  ∃ op, c.theMemoryPorts[k]? = some op ∧
    ((op.theOperation = .kStorePrefetch ∨ ∀ mshr, findMSHR c.theMSHRs op.thePAddr = some mshr →
        ¬ (satisfies cfg op.theOperation.reply mshr.theOperation ∧ mshr.theSize = op.theSize)) ∧
      c'.wires = { c.wires with theMemoryPorts := c.theMemoryPorts.eraseIdx k } ∨
    op.theOperation ≠ .kStorePrefetch ∧ ∃ mshr, findMSHR c.theMSHRs op.thePAddr = some mshr ∧
      (satisfies cfg op.theOperation.reply mshr.theOperation ∧ mshr.theSize = op.theSize) ∧
      Served op mshr { c.wires with theMemoryPorts := c.theMemoryPorts.eraseIdx k } c'.wires)

/-- A page walk's register is found by a reply that no page walk waits for. -/
def Misdirected (cfg : CoreConfig) (c : Core) (k : Nat) : Prop :=
  ∃ op, c.theMemoryPorts[k]? = some op ∧ op.theOperation ≠ .kStorePrefetch ∧
    (∃ mshr, findMSHR c.theMSHRs op.thePAddr = some mshr ∧
      mshr.theOperation = .kPageWalkRequest ∧
      satisfies cfg op.theOperation.reply mshr.theOperation ∧ mshr.theSize = op.theSize) ∧
    Keyed.lookup Prod.fst c.thePageWalkRequests op.theVAddr = none

theorem processReply_replied (h : c.wires.Linked) {k : Nat} {value : bits} :
    Yields (fun f => Tame f ∨ f = .noPageWalk ∧ Misdirected cfg c k) (c.processReply cfg k value)
      fun c' => Replied cfg c c' k := by
  rw [Core.processReply]
  cases hop : c.theMemoryPorts[k]? with
  | none => exact .ok (.inl ⟨hop, rfl⟩)
  | some op =>
    obtain ⟨c₀, hc₀⟩ : ∃ c₀ : Core, c₀ = { c with theMemoryPorts := c.theMemoryPorts.eraseIdx k } :=
      ⟨_, rfl⟩
    have hwires₀ : c₀.wires = { c.wires with theMemoryPorts := c.theMemoryPorts.eraseIdx k } := by
      rw [hc₀]
      rfl
    -- the permission that a reply brings does not change the registers
    have hcomplete : ∀ c₁ : Core, c₁.wires = c₀.wires → op.theOperation ≠ .kStorePrefetch →
        Yields (fun f => Tame f ∨ f = .noPageWalk ∧ Misdirected cfg c k) (c₁.complete cfg op value)
          fun c' => Replied cfg c c' k := by
      intro c₁ hc₁ hkind
      have hwires := hc₁.trans hwires₀
      have hms : c₁.theMSHRs = c.theMSHRs := congrArg Wires.theMSHRs hwires
      have hwalks : c₁.thePageWalkRequests = c.thePageWalkRequests :=
        congrArg Wires.thePageWalkRequests hwires
      have hlinked : c₁.wires.Linked := by
        rw [hwires]
        exact h
      refine ((complete_linked hlinked).allow ?_).weaken ?_
      · rintro f (htame | ⟨hf, hfound, hnone⟩)
        · exact .inl htame
        · rw [hms] at hfound
          rw [hwalks] at hnone
          exact .inr ⟨hf, op, hop, hkind, hfound, hnone⟩
      · rintro c' (⟨hno, rfl⟩ | ⟨mshr, hfound, hsat, hserved⟩)
        · rw [hms] at hno
          exact .inr ⟨op, hop, .inl ⟨.inr hno, hwires⟩⟩
        · rw [hms] at hfound
          rw [hwires] at hserved
          exact .inr ⟨op, hop, .inr ⟨hkind, mshr, hfound, hsat, hserved⟩⟩
    dsimp only
    rw [← hc₀]
    cases hkind : op.theOperation with
    | kRMW | kCAS | kStore =>
      refine .bind (acquireWritePermission_wires.allow fun f hf => .inl hf) fun c₁ hc₁ => ?_
      exact hcomplete c₁ hc₁ (by rw [hkind]; decide)
    | kLoad | kAtomicPreload | kPageWalkRequest => exact hcomplete c₀ rfl (by rw [hkind]; decide)
    | kStorePrefetch =>
      refine .bind (acquireWritePermission_wires.allow fun f hf => .inl hf) fun c₁ hc₁ => ?_
      exact .pure (.inr ⟨op, hop, .inl ⟨.inl hkind, hc₁.trans hwires₀⟩⟩)

/-- What a step does to the links and to what is in flight. -/
def Rewires (cfg : CoreConfig) (c c' : Core) : Core.Event → Prop
  | .commit => c.theAbortSpeculation = false ∧ Loosens c.wires c'.wires ∨
      c.theAbortSpeculation = true ∧ Cleans c c'
  | .resynchronize _ => Cleans c c'
  | .issue insn => c'.wires = c.wires ∨
      ∃ a, c.scans cfg (.issue insn) = some a ∧ Issues a c.wires c'.wires
  | .issueStorePrefetch insn => c'.wires = c.wires ∨
      ∃ a, c.scans cfg (.issueStorePrefetch insn) = some a ∧ Issues a c.wires c'.wires
  | .issueMMU vaddr paddr theID => c' = c.issueMMU vaddr paddr theID
  | .reply k _ => Replied cfg c c' k
  | _ => Loosens c.wires c'.wires

/-- The faults that a step meets on a link or a register. -/
def Meets (cfg : CoreConfig) (c : Core) (event : Core.Event) (f : CoreFault) : Prop :=
  Tame f ∨ f = .danglingWaiter ∧ event = .commit ∧ c.theAbortSpeculation = true ∧ c.Cuts ∨
  f = .emptyMSHR ∧ (∃ a, c.scans cfg event = some a ∧ Idle c.theMSHRs a) ∨
  f = .noPageWalk ∧ ∃ k value, event = .reply k value ∧ Misdirected cfg c k

theorem step_rewires (hsteady : Steady cfg c) (h : c.wires.Linked) :
    Yields (Meets cfg c event) (Core.step cfg c event) fun c' => Rewires cfg c c' event := by
  have htame : ∀ {x : Except CoreFault Core} {P : Core → Prop}, Yields Tame x P →
      Yields (Meets cfg c event) x P := fun hx => hx.allow fun f hf => .inl hf
  cases event with
  | dispatch pc effect may allocation => exact .ok (dispatch_loosens hsteady h)
  | execute insn x => exact htame (execute_loosens h)
  | reissue insn => exact htame (reissue_loosens h)
  | squash => exact htame (squash_loosens h)
  | retire => exact htame (retire_loosens h)
  | commit =>
    refine (commit_cleans hsteady h).allow fun f hf => ?_
    exact hf.imp_right fun hcuts => .inl ⟨hcuts.1, rfl, hcuts.2⟩
  | resolveCheckpoint => exact htame (resolveCheckpoint_loosens h)
  | violate insn =>
    refine .ok (.of_eq h ?_)
    split <;> rfl
  | requestPort insn =>
    refine .bind (requestPort_ties.allow fun f hf => .inl hf) fun q hq => ?_
    refine .pure (.of_eq h ?_)
    rw [Core.wires, Core.wires, hq]
  | issueStore nonCacheable => exact htame (issueStore_loosens h)
  | issue insn => exact (issue_issues h).allow fun f hf => hf.imp_right fun hf => .inr (.inl hf)
  | issueStorePrefetch insn =>
    exact (issueStorePrefetch_issues h).allow fun f hf => hf.imp_right fun hf => .inr (.inl hf)
  | issueMMU vaddr paddr n => exact .ok rfl
  | reply k value =>
    refine (processReply_replied h).allow fun f hf => ?_
    exact hf.imp_right fun hf => .inr (.inr ⟨hf.1, k, value, rfl, hf.2⟩)
  | snoop addr => exact htame (loseWritePermission_wires.weaken fun c' hc' => .of_eq h hc')
  | redirectFetch addr => exact .ok (.of_eq h rfl)
  | redirect =>
    refine .ok (.of_eq h ?_)
    split <;> rfl
  | resynchronize pc => exact htame (resynchronize_cleans hsteady h)

theorem Rewires.linked (h : c.wires.Linked) (hrewires : Rewires cfg c c' event) : c'.wires.Linked := by
  have hissues : ∀ {a : Option PhysicalMemoryAddress}, (c'.wires = c.wires ∨
      ∃ b, a = some b ∧ Issues b c.wires c'.wires) → c'.wires.Linked := by
    rintro a (hsame | ⟨b, -, hissues⟩)
    · exact hsame ▸ h
    · exact hissues.linked
  cases event with
  | commit =>
    rcases hrewires with ⟨-, hloosens⟩ | ⟨-, hcleans⟩
    · exact hloosens.linked
    · exact hcleans.linked
  | resynchronize pc => exact Cleans.linked hrewires
  | issue insn => exact hissues hrewires
  | issueStorePrefetch insn => exact hissues hrewires
  | issueMMU vaddr paddr n =>
    rw [show c' = c.issueMMU vaddr paddr n from hrewires]
    exact issueMMU_linked h
  | reply k value =>
    rcases hrewires with ⟨-, hsame⟩ | ⟨op, -, ⟨-, hsame⟩ | ⟨-, mshr, -, -, hserved⟩⟩
    · exact hsame ▸ h
    · rw [hsame]
      exact h
    · exact hserved.linked
  | dispatch | execute | reissue | squash | retire | resolveCheckpoint | violate | requestPort
  | issueStore | snoop | redirectFetch | redirect => exact Loosens.linked hrewires

theorem Core.Reachable.linked (h : Core.Reachable cfg aPC c) : c.wires.Linked := by
  refine Reaches.invariant_given (I := Steady cfg) (J := fun c => c.wires.Linked)
    (fun s hs => Core.Reachable.steady hs) ?_ ?_ h
  · exact ⟨List.nodup_nil, List.nodup_nil, by simp [Core.wires, Core.start],
      by simp [Core.wires, Core.start], by simp [Core.wires, Core.start]⟩
  · intro s e s' hsteady hlinked _ hok
    exact Rewires.linked hlinked ((step_rewires hsteady hlinked).1 s' hok)

/-- Every waiter of a miss register is in the queue and refers back to the register. -/
def Core.WaitersPresent (c : Core) : Prop :=
  ∀ m ∈ c.theMSHRs, ∀ w ∈ m.theWaitingLSQs,
    ∃ e ∈ c.theMemQueue, e.theSequenceNum = w ∧ e.link = some m.thePaddr

theorem waitersPresent_iff : c.WaitersPresent ↔ ∀ m ∈ c.theMSHRs, ∀ w ∈ m.theWaitingLSQs,
    ∃ t ∈ c.wires.ties, t.seq = w ∧ t.link = some m.thePaddr := by
  constructor
  · intro h m hm w hw
    obtain ⟨e, he, hseq, hlink⟩ := h m hm w hw
    exact ⟨e.tie, List.mem_map_of_mem he, hseq, hlink⟩
  · intro h m hm w hw
    obtain ⟨t, ht, hseq, hlink⟩ := h m hm w hw
    obtain ⟨e, he, rfl⟩ := List.mem_map.mp ht
    exact ⟨e, he, hseq, hlink⟩

/-- Clearing the load-store queue leaves a waiter behind when an entry of it was waiting. -/
theorem not_present_of_cuts (h : c.wires.Linked) (hok : c.resetARM = .ok c') (hcuts : c.Cuts) :
    ¬ c'.WaitersPresent := by
  obtain ⟨hqueue, hwires⟩ := resetARM_queue.1 c' hok
  have hms : c'.theMSHRs = c.theMSHRs := congrArg Wires.theMSHRs hwires
  obtain ⟨e, he, hlsq, hlink⟩ := hcuts
  obtain ⟨a, hlink⟩ := Option.ne_none_iff_exists'.mp hlink
  have hmem : e.tie ∈ c.wires.ties := List.mem_map_of_mem he
  obtain ⟨-, m, hm, -, hw⟩ := h.waits e.tie hmem a hlink
  intro hall
  obtain ⟨x, hx, hseq, -⟩ := hall m (hms ▸ hm) e.theSequenceNum hw
  rw [hqueue] at hx
  obtain ⟨hx, hkept⟩ := List.mem_filter.mp hx
  have hunique : (c.theMemQueue.map seqOf).Nodup := by
    have hnodup := h.unique
    rw [Core.wires, List.map_map] at hnodup
    exact hnodup
  rw [List.inj_on_of_nodup_map hunique hx he hseq, hlsq] at hkept
  cases hkept

theorem present_of_not_cuts (h : c.wires.Linked) (hok : c.resetARM = .ok c') (hno : ¬ c.Cuts) :
    c'.WaitersPresent := by
  obtain ⟨hqueue, hwires⟩ := resetARM_queue.1 c' hok
  have hms : c'.theMSHRs = c.theMSHRs := congrArg Wires.theMSHRs hwires
  have hlinked : Linked (tiesOf (c.theMemQueue.filter fun e => e.theQueue != .kLSQ)) c.theMSHRs :=
    h.of_filter fun hstray => hno (cuts_of_strays h hstray)
  rw [waitersPresent_iff, hms]
  change ∀ m ∈ c.theMSHRs, ∀ w ∈ m.theWaitingLSQs, ∃ t ∈ tiesOf c'.theMemQueue, _
  rw [hqueue]
  exact hlinked.present

theorem not_cuts_iff : ¬ c.Cuts ↔ ∀ e ∈ c.theMemQueue, e.theQueue = .kLSQ → e.link = none := by
  constructor
  · intro h e he hlsq
    by_contra hlink
    exact h ⟨e, he, hlsq, hlink⟩
  · rintro h ⟨e, he, hlsq, hlink⟩
    exact hlink (h e he hlsq)

/-- In every run the waiters of the miss registers are in the queue and refer back. When a
    speculation is aborted this survives the clearing of the load-store queue exactly when
    no entry of that queue waits, and then no step reads a waiter or a register that is
    gone. -/
theorem waiters_present_at_reads (h : Core.Reachable cfg aPC c) :
    c.WaitersPresent ∧
    (∀ c₁, c.theAbortSpeculation = true → c.resetARM = .ok c₁ →
      (c₁.WaitersPresent ↔ ∀ e ∈ c.theMemQueue, e.theQueue = .kLSQ → e.link = none)) ∧
    ∀ event f, (event = .commit → c.theAbortSpeculation = true →
        ∀ e ∈ c.theMemQueue, e.theQueue = .kLSQ → e.link = none) →
      Core.step cfg c event = .error f →
      f ≠ .danglingWaiter ∧ f ≠ .danglingMSHR ∧ f ≠ .notWaiting := by
  have hlinked := h.linked
  refine ⟨waitersPresent_iff.mpr hlinked.present, ?_, ?_⟩
  · intro c₁ _ hok
    rw [← not_cuts_iff]
    constructor
    · exact fun hall hcuts => not_present_of_cuts hlinked hok hcuts hall
    · exact present_of_not_cuts hlinked hok
  · intro event f hsettled hfault
    have htame : ¬ Unhooked f := by
      rcases (step_rewires h.steady hlinked).2 f hfault with
        htame | ⟨-, hcommit, habort, hcuts⟩ | ⟨rfl, -⟩ | ⟨rfl, -⟩
      · exact htame.1
      · exact absurd hcuts (not_cuts_iff.mpr (hsettled hcommit habort))
      · decide
      · decide
    rw [Unhooked, not_or, not_or] at htame
    exact htame

/-- An access to a memory address that waits for its value. -/
def loadFrom (thePaddr : PhysicalMemoryAddress) : Core.Executed :=
  ⟨thePaddr, thePaddr, false, false, false, false, false, none, none, none⟩

/-- A load that waits in its miss register. -/
theorem waiters_present_at_reads_load : ∃ c, Core.Reachable speculativeSC 0#64 c ∧
    c.theMSHRs.map MSHR.theWaitingLSQs = [[1]] ∧ c.WaitersPresent := by
  have hrun : (runWhile (Core.step speculativeSC) (fun _ _ => true) (Core.start 0#64)
      [.dispatch 0#64 .keep true (some (.load .kDoubleWord)), .execute 1 (loadFrom 0x80#64),
        .requestPort 1, .issue 1]).any
      (fun c => c.theMSHRs.map MSHR.theWaitingLSQs == [[1]]) = true := by
    decide +kernel
  obtain ⟨c, hc, hend⟩ := exists_reaches (fun _ _ _ => trivial) hrun
  exact ⟨c, hc, beq_iff_eq.mp hend, (waiters_present_at_reads hc).1⟩

/-- A load speculates past a store, and a younger load is sent to memory. When the first
    load is rolled back, the second one leaves the queue while it waits, and the cleaning
    of the miss registers reads it. -/
theorem rollback_reads_cleared_waiter : ∃ c c₁, Core.Reachable speculativeSC 0#64 c ∧
    c.theAbortSpeculation = true ∧ c.resetARM = .ok c₁ ∧ ¬ c₁.WaitersPresent ∧
    Core.step speculativeSC c .commit = .error .danglingWaiter := by
  have hrun : (runWhile (Core.step speculativeSC) (fun _ _ => true) (Core.start 0#64)
      [.dispatch 0#64 .commitStore true (some (.store .kDoubleWord false)),
        .dispatch 4#64 .keep true (some (.load .kDoubleWord)),
        .dispatch 8#64 .keep true (some (.load .kDoubleWord)),
        .execute 1 (accessAt 0x80#64), .execute 2 (accessAt 0x100#64),
        .execute 3 (loadFrom 0x180#64), .retire, .retire, .requestPort 3, .issue 3, .violate 2]).any
      (fun c => c.theAbortSpeculation && (c.resetARM).toOption.isSome &&
        c.theMemQueue.any (fun e => decide (e.theQueue = .kLSQ ∧ e.link ≠ none)) &&
        decide (Core.step speculativeSC c .commit = .error .danglingWaiter)) = true := by
    decide +kernel
  obtain ⟨c, hc, hend⟩ : ∃ c, Core.Reachable speculativeSC 0#64 c ∧ _ :=
    exists_reaches (fun _ _ _ => trivial) hrun
  simp only [Bool.and_eq_true, List.any_eq_true, decide_eq_true_eq] at hend
  obtain ⟨⟨⟨habort, hsome⟩, e, he, hlsq, hlink⟩, hfault⟩ := hend
  cases hok : c.resetARM with
  | error f =>
    rw [hok] at hsome
    cases hsome
  | ok c₁ =>
    exact ⟨c, c₁, hc, habort, hok, not_present_of_cuts hc.linked hok ⟨e, he, hlsq, hlink⟩, hfault⟩

end nuArchARM
