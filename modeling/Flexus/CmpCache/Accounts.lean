import Flexus.CmpCache.Ledger

/-!
# Processes pay what they owe

The handler of a process keeps the places for the messages that the process will send and
gives the others back, so the books stay in order through every pipeline.
-/

namespace nCMPCache

open Runs

namespace Controller

variable {cfg : CMPCacheInfo} {c c' : Controller cfg} {s s' : Policy cfg} {p q : ProcessEntry}
  {rest : List ProcessEntry} {n : Nat} {reserve : Int} {i : Nat}

/-! ## The end of the first pipeline -/

theorem Queued.enqueueLookup (h : Queued c) (hbalanced : Balanced c' (p :: live c))
    (hsame : c'.theMAFPipeline = c.theMAFPipeline ∧ c'.theDirTagPipeline = c.theDirTagPipeline ∧
      c'.theDataPipeline = c.theDataPipeline) (hp : Ready p) : Books (Controller.enqueueLookup (c', p)) := by
  obtain ⟨hmaf, hdir, hdata⟩ := hsame
  refine ⟨⟨fun x hx => h.waiting x (hmaf ▸ hx), fun x hx => ?_, fun x hx => h.data x (hdata ▸ hx)⟩, ?_⟩
  · rcases List.mem_append.mp hx with hx | hx
    · exact h.ready x (hdir ▸ hx)
    · obtain rfl := List.mem_singleton.mp hx
      exact hp
  · refine Balanced.elsewhere (c := c') (hbalanced.perm ?_)
    show (p :: (c.theMAFPipeline ++ c.theDirTagPipeline ++ c.theDataPipeline)).Perm
      (c'.theMAFPipeline ++ (c'.theDirTagPipeline ++ [p]) ++ c'.theDataPipeline)
    rw [hmaf, hdir, hdata, List.append_assoc, List.append_assoc, List.append_assoc, List.singleton_append,
      ← List.append_assoc, ← List.append_assoc]
    exact List.perm_middle.symm

theorem slots_eq {type : ProcessType} {m : Option Nat} {t : MemoryTransport} (hslots : q.slots = p.slots)
    (hp : p = started type m t) : q.type = type ∧ q.slots = (started type m t).slots := by
  rw [hp] at hslots
  refine ⟨?_, hslots⟩
  have htype := congrArg Prod.fst hslots
  cases type <;> exact htype

theorem recalls_of_type (h : q.type ≠ .eProcDirEvict) (h' : q.type ≠ .eProcIdleWork) : recalls q = false := by
  simp [recalls, h, h']

theorem yields_runRequestProcess {t : MemoryTransport} {m : Option Nat} (hqueued : Queued c)
    (hb : Balanced c (p :: live c)) (hp : p = started .eProcRequest m t) :
    Yields allowed (c.runRequestProcess p) Books := by
  unfold runRequestProcess
  refine Yields.bind (P := fun r => Policy.handleRequest c.cacheEBReserve c.thePolicy p = .ok r)
    (.of_ok Policy.unaccounted_doRequest.2 fun _ h => h) ?_
  rintro ⟨s, q⟩ hok
  obtain ⟨hsettles, hfit⟩ := Policy.doRequest_settles hb.thrifty (by rw [hp]; exact zero_lt_one) (by simp)
    (by rw [hp]; rfl) hok
  obtain ⟨htype, hslots⟩ := slots_eq hsettles.slots hp
  have hown : recalls q = false := recalls_of_type (by simp [htype]) (by simp [htype])
  have hb' := hb.settled hsettles (by rw [hp]; rfl) hown
  dsimp only
  unfold releaseRequest
  dsimp only
  split
  · exact .error rfl
  · next reply request hreleases =>
    obtain ⟨hreply, hrequest⟩ := requestReleases_sends hreleases
    obtain ⟨c', r, hrelease, hb', hmaf, hready, hpolicy, hsame⟩ := hb'.release (m := true)
      (by rw [hslots, htype]; rfl) hown hfit hreply hrequest
    obtain ⟨hgive, hb'⟩ := hb'.unreserveMAF hmaf
    simp only [← bind_assoc] at hrelease ⊢
    rw [hrelease]
    simp only [bind, Except.bind, hgive]
    exact .pure (hqueued.enqueueLookup hb' hsame hready)

/-- A request that turns out to be redundant changes nothing. -/
theorem doRequest_redundant {hasMaf : Bool} (hreserved : 0 < p.cacheEBReserved)
    (hok : Policy.doRequest reserve s p hasMaf = .ok (s', q)) (haction : q.action = .eRemoveMAF) :
    hasMaf = true ∧ s' = s ∧ q.maf = p.maf := by
  have hstalled : ∀ {s₁ : Policy cfg} {a st}, s₁.stall p hasMaf a st ≠ .ok (s', q) := by
    intro s₁ a st hstall
    rw [(Policy.stall_spec hstall).2.1] at haction
    cases haction
  cases hevict : p.transport.msg.type.isEvictType with
  | false =>
    cases Policy.doRequest_requested hevict hok with
    | redundant _ _ =>
      refine ⟨?_, rfl, rfl⟩
      cases hasMaf with
      | true => rfl
      | false => cases haction
    | queued _ hstall => exact absurd hstall hstalled
    | noEntry _ _ hstall => exact absurd hstall hstalled
    | writtenBack _ _ _ hstall => exact absurd hstall hstalled
    | served _ _ _ hserve =>
      obtain ⟨dir, hserved⟩ := Policy.served_serveRequest hserve
      rcases hserved.recorded with ⟨_, hother, _⟩ | ⟨_, hother | hother | hother, _⟩ <;>
        rw [hother] at haction <;> cases haction
  | true =>
    rcases Policy.doRequest_evict hevict hok with ⟨_, _, hstall⟩ | ⟨_, hdo⟩
    · exact absurd hstall hstalled
    · cases hwaits : s.evictWaits p with
      | true => exact absurd (Policy.doEvict_waits hwaits hdo) hstalled
      | false =>
        rcases (Policy.doEvict_evicted hwaits hreserved hdo).action with
          ⟨hother | hother, _⟩ | ⟨hother | hother, _⟩ <;> rw [hother] at haction <;> cases haction

/-- Dropping a redundant request gives nothing back: its entry holds no place. -/
theorem yields_dropRedundant (hsettles : Policy.Settles s p s' q) (hfit : Policy.snoopsFit q)
    (hempty : q.action = .eRemoveMAF → ∀ i, q.maf = some i → s'.theMAF.reservedBy i = 0) :
    Yields allowed (dropRedundant s' q) fun r => Policy.Settles s p r.1 r.2 ∧ Policy.snoopsFit r.2 := by
  unfold dropRedundant
  refine .ite (fun haction => ?_) fun _ => .pure ⟨hsettles, hfit⟩
  refine Yields.bind (P := fun e => mafOf s' q = .ok e) (.of_ok (fun _ => mafOf_error) fun _ h => h) ?_
  intro e hof
  obtain ⟨hthrifty, hheld⟩ :=
    Policy.thrifty_remove hsettles.thrifty (hempty haction e.stamp (Policy.mafOf_spec hof).1)
  refine .pure ⟨⟨hsettles.slots, ?_, hsettles.nonneg, hthrifty⟩, ?_⟩
  · rw [hheld]
    exact hsettles.balance
  · rw [Policy.snoopsFit, haction] at hfit
    exact hfit

theorem yields_runWakeMAFProcess {t : MemoryTransport} {m : Option Nat} (hqueued : Queued c)
    (hb : Balanced c (p :: live c)) (hp : p = started .eProcWakeMAF m t)
    (hempty : ∀ i, p.maf = some i → c.thePolicy.theMAF.reservedBy i = 0) :
    Yields allowed (c.runWakeMAFProcess p) Books := by
  have hreserved : p.cacheEBReserved = 1 := by rw [hp]; rfl
  have hsame := withEntryTransport_same c.thePolicy p
  have hstart : Policy.Settles c.thePolicy p c.thePolicy (withEntryTransport c.thePolicy p) := by
    rw [hsame]
    exact ⟨rfl, rfl, hreserved.symm ▸ zero_le_one, hb.thrifty⟩
  unfold runWakeMAFProcess
  refine Yields.bind (P := fun r =>
      Policy.handleWakeMAF c.cacheEBReserve c.thePolicy (withEntryTransport c.thePolicy p) = .ok r)
    (.of_ok Policy.unaccounted_doRequest.2 fun _ h => h) ?_
  rintro ⟨s, q⟩ hok
  have hpositive : 0 < (withEntryTransport c.thePolicy p).cacheEBReserved := by
    rw [hsame]
    exact hreserved.symm ▸ zero_lt_one
  have hslot : (withEntryTransport c.thePolicy p).maf = p.maf := by rw [hsame]
  obtain ⟨hsettles, hfit⟩ := Policy.doRequest_settles hb.thrifty hpositive (fun _ i hi => hempty i (hslot ▸ hi))
    (by rw [hsame, hp]; rfl) hok
  refine (yields_dropRedundant (hstart.trans hsettles) hfit ?_).bind ?_
  · intro haction i hi
    obtain ⟨_, rfl, hmaf⟩ := doRequest_redundant hpositive hok haction
    exact hempty i (hslot ▸ hmaf ▸ hi)
  · rintro ⟨s, q⟩ ⟨hsettles, hfit⟩
    dsimp only at hsettles hfit
    obtain ⟨htype, hslots⟩ := slots_eq hsettles.slots hp
    have hown : recalls q = false := recalls_of_type (by simp [htype]) (by simp [htype])
    have hb' := hb.settled hsettles (by rw [hp]; rfl) hown
    dsimp only
    unfold releaseWakeMAF
    dsimp only
    split
    · exact .error rfl
    · next reply request hreleases =>
      obtain ⟨hreply, hrequest⟩ := wakeMAFReleases_sends hreleases
      obtain ⟨c', r, hrelease, hb', hmaf, hready, hpolicy, hsame⟩ := hb'.release (m := false)
        (by rw [hslots, htype]; rfl) hown hfit hreply hrequest
      rw [hrelease]
      refine .pure (hqueued.enqueueLookup hb' hsame ?_)
      rw [← hmaf] at hready
      exact hready

theorem replyReleases_sends {action : ProcessAction} {snoop reply eb : Bool}
    (h : replyReleases action = some (snoop, reply, eb)) (hnot : action ≠ .eFwdAndWakeEvictMAF) :
    reply = !sendsReply action ∧ (snoop = false ↔ action = .eForward) ∧ (eb = false → action = .eForward) ∧
      action ≠ .eFwdRequest := by
  cases action <;> cases h <;> simp [sendsReply] at hnot ⊢

theorem Balanced.onlyEB (h : Balanced c (p :: rest)) (hown : recalls p = false) (hdirEB : p.dirEBReserved = 0)
    (b : Bool) (hzero : b = false → p.cacheEBReserved = 0) :
    ∃ d k, onlyIf b Controller.unreserveEB (c, p) = .ok ({ c with dirEBReserve := d, cacheEBReserve := k },
        { p with dirEBReserved := 0, cacheEBReserved := 0 }) ∧
      Balanced { c with dirEBReserve := d, cacheEBReserve := k }
        ({ p with dirEBReserved := 0, cacheEBReserved := 0 } :: rest) := by
  cases b with
  | true => exact h.unreserveEB (counted_of_recalls hown)
  | false =>
    have hp : { p with dirEBReserved := 0, cacheEBReserved := 0 } = p := by
      cases p
      simp only at hdirEB hzero
      rw [hdirEB, hzero trivial]
    exact ⟨c.dirEBReserve, c.cacheEBReserve, by rw [hp]; rfl, by rw [hp]; exact h⟩

theorem yields_runReplyProcess {t : MemoryTransport} {m : Option Nat} (hqueued : Queued c)
    (hb : Balanced c (p :: live c)) (hp : p = started .eProcReply m t)
    (hstore : p.transport.msg.type = .NonAllocatingStoreReply →
      ∀ maf, c.thePolicy.matchingMAF p.transport = .ok maf → maf.type.isReadType = false) :
    Yields allowed (c.runReplyProcess p) Books := by
  unfold runReplyProcess
  refine Yields.bind (P := fun r => c.thePolicy.handleReply p = .ok r)
    (.of_ok Policy.unaccounted_handleReply.2 fun _ h => h) ?_
  rintro ⟨s, q⟩ hok
  have hreturns := Policy.handleReply_returns hb.thrifty (by rw [hp]; rfl) (by rw [hp]; rfl) hstore hok
  have hnot : q.action ≠ .eFwdAndWakeEvictMAF := by
    cases (Policy.handleReply_replied hok).answers with
    | removes haction _ _ _ => rcases haction with h | h <;> rw [h] <;> simp
    | wakes haction _ _ _ => rw [haction]; simp
    | nothing haction => rcases haction with h | h | h <;> rw [h] <;> simp
  obtain ⟨htype, hslots⟩ := slots_eq hreturns.slots hp
  have hown : recalls q = false := recalls_of_type (by simp [htype]) (by simp [htype])
  have hb' := hb.settled hreturns.toSettles (by rw [hp]; rfl) hown
  simp only [ProcessEntry.slots, started, Prod.mk.injEq] at hslots
  obtain ⟨_, hsnoop, hreq, hrep, hmaf, hdirEB⟩ := hslots
  dsimp only
  unfold releaseReply
  dsimp only
  split
  · exact .error rfl
  · next snoop reply eb hreleases =>
    obtain ⟨hreply, hforwards, heb, hrequest⟩ := replyReleases_sends hreleases hnot
    obtain ⟨_, h₁, hb'⟩ := hb'.onlySnoop hsnoop snoop
    obtain ⟨_, h₂, hb'⟩ := hb'.onlyReply hrep reply
    obtain ⟨_, _, h₃, hb'⟩ := hb'.onlyEB hown hdirEB eb fun h => hreturns.forwarded (heb h)
    simp only [h₁, h₂, h₃, bind, Except.bind]
    refine .pure (hqueued.enqueueLookup hb' ⟨rfl, rfl, rfl⟩ ⟨?_, rfl, ?_⟩)
    · dsimp only [ProcessEntry.slots]
      rw [hreturns.snoops, hreply, hreq, hmaf, if_neg hrequest]
      have hsnoopNow : (if snoop then 0 else 1) = if q.action = .eForward then 1 else 0 := by
        cases snoop with
        | true => rw [if_pos rfl, if_neg fun h => by simpa using hforwards.mpr h]
        | false => rw [if_neg Bool.false_ne_true, if_pos (hforwards.mp rfl)]
      rw [hsnoopNow]
      cases sendsReply q.action <;> rfl
    · show q.snoopTransports.length ≤ if q.action.sendsSnoops then 2 else 0
      rw [hreturns.snoops]
      split
      · next h => rw [h]; decide
      · exact Nat.zero_le _

/-- No snoop arrives at this cache. -/
theorem yields_runSnoopProcess : Yields allowed (c.runSnoopProcess p) Books := .error rfl

theorem Queued.books (h : Queued c) (hbalanced : Balanced c' (live c))
    (hsame : c'.theMAFPipeline = c.theMAFPipeline ∧ c'.theDirTagPipeline = c.theDirTagPipeline ∧
      c'.theDataPipeline = c.theDataPipeline) : Books c' := by
  obtain ⟨hmaf, hdir, hdata⟩ := hsame
  refine ⟨⟨fun x hx => h.waiting x (hmaf ▸ hx), fun x hx => h.ready x (hdir ▸ hx), fun x hx => h.data x (hdata ▸ hx)⟩,
    ?_⟩
  rw [show live c' = live c by rw [live, live, hmaf, hdir, hdata]]
  exact hbalanced

/-- A process that forwards one message is finalized at once. -/
theorem yields_forward (hqueued : Queued c) (hb : Balanced c (p :: live c)) (hslots : q.slots = p.slots)
    (hp : p.slots = (p.type, 1, 0, 0, false, 0)) (hcounted : counted p = 0) (hcacheEB : q.cacheEBReserved = 0)
    (haction : q.action = .eForward) (hone : q.snoopTransports.length = 1) :
    Yields allowed (Prod.fst <$> Controller.finalizeProcess (c.withPolicy c.thePolicy, q)) Books := by
  have hnow : counted q = 0 := by rw [counted, hcacheEB, ite_self]
  have htype : q.type = p.type := congrArg Prod.fst hslots
  have hb' : Balanced (c.withPolicy c.thePolicy) (q :: live c) :=
    hb.replace hslots (by rw [hnow, hcounted]) hcacheEB.ge hb.thrifty
  have hready : Ready q := by
    refine ⟨?_, hcacheEB, ?_⟩
    · rw [hslots, hp, hone, haction, htype]
      rfl
    · rw [Policy.snoopsFit, hone, haction]
      decide
  refine (hb'.finalizeProcess hready ?_).map fun r hr => hqueued.books hr.1 hr.2.2.2
  intro s hs
  rw [finalizeMAF, haction] at hs
  obtain rfl := pure_eq_ok.mp hs
  exact ⟨hb.thrifty, rfl⟩

theorem yields_runCacheEvictProcess {t : MemoryTransport} {m : Option Nat} (hqueued : Queued c)
    (hb : Balanced c (p :: live c)) (hp : p = started .eProcCacheEvict m t) :
    Yields allowed (c.runCacheEvictProcess p) Books := by
  refine yields_forward hqueued hb ?_ ?_ ?_ ?_ rfl ?_ <;> rw [hp] <;> rfl

theorem yields_runDirEvictProcess {t : MemoryTransport} {m : Option Nat} (hqueued : Queued c)
    (hb : Balanced c (p :: live c)) (hp : p = started .eProcDirEvict m t) :
    Yields allowed (c.runDirEvictProcess p) Books := by
  unfold runDirEvictProcess Policy.handleDirEvict
  by_cases hrecall : p.transport.msg.type = .BackInvalidate
  · rw [if_neg (not_not.mpr hrecall)]
    have hcounted : counted p = 0 := by
      rw [counted, if_pos]
      rw [recalls, hrecall, hp]
      rfl
    refine yields_forward hqueued hb ?_ ?_ hcounted rfl rfl ?_ <;> rw [hp] <;> rfl
  · rw [if_pos hrecall]
    exact .error rfl

/-- Idle work sends a block of the evict buffer to memory, the invalidates of a directory
    eviction, or nothing. -/
theorem yields_runIdleWorkProcess {t : MemoryTransport} {m : Option Nat} (hsound : c.thePolicy.Sound)
    (hqueued : Queued c) (hb : Balanced c (p :: live c)) (hp : p = started .eProcIdleWork m t)
    (hidle : p.transport.msg.type = .BackInvalidate ∨ p.transport.msg.type = .NumMemoryMessageTypes) :
    Yields allowed (c.runIdleWorkProcess p) Books := by
  have hpays : ∀ {s q}, c.thePolicy.handleIdleWork p = .ok (s, q) →
      Balanced (c.withPolicy s) (q :: live c) ∧ q.slots = p.slots ∧ counted q = q.cacheEBReserved ∧
        q.snoopTransports.length = (if q.action = .eNoAction then 0 else 1) ∧
        (q.action = .eNoAction ∨ q.action = .eForward) := by
    have hown : ∀ {q : ProcessEntry}, q.transport.msg.type ≠ .BackInvalidate → counted q = q.cacheEBReserved :=
      fun hnot => counted_of_recalls (by simp [recalls, hnot])
    intro s q hok
    unfold Policy.handleIdleWork at hok
    split at hok
    · next hnone =>
      have hcounted : counted p = 1 := by
        rw [counted, if_neg]
        · rw [hp]
          rfl
        · simp [recalls, hnone]
      split at hok
      · obtain ⟨⟨s₁, t₁⟩, hevict, hpure⟩ := bind_eq_ok.mp hok
        cases pure_eq_ok.mp hpure
        obtain ⟨b, x, hfirst, rfl, htype, _⟩ := Policy.getCacheEvictTransport_spec hevict
        obtain ⟨hfind, _⟩ := CacheEvictBuffer.find_firstNonPending hfirst
        have hwriteBack : t₁.msg.type ≠ .BackInvalidate := by
          obtain ⟨_, _, _, hevictType, _⟩ := hsound.copies.kept hfind
          rw [← htype] at hevictType
          intro hrecall
          rw [hrecall] at hevictType
          cases hevictType
        refine ⟨hb.replace rfl ?_ (hb.nonneg p List.mem_cons_self).2
          ⟨hb.thrifty.nonneg, hb.thrifty.active, hb.thrifty.dir⟩, rfl, hown ?_, ?_, .inr rfl⟩
        · rw [hcounted, hown hwriteBack, hp]
          rfl
        · exact hwriteBack
        · rw [hp]
          rfl
      · cases hok
        refine ⟨hb.replace rfl rfl (hb.nonneg p List.mem_cons_self).2 hb.thrifty, rfl, hown ?_, ?_, .inl rfl⟩
        · exact fun hrecall => by simp [hnone] at hrecall
        · rw [hp]
          rfl
    · next hsome =>
      cases hok
      have hcounted : counted p = 0 := by
        rw [counted, if_pos]
        rw [recalls, hidle.resolve_right hsome, hp]
        rfl
      have hnow : ∀ r : ProcessEntry, counted { r with cacheEBReserved := 0 } = 0 := fun r => ite_self _
      refine ⟨hb.replace rfl ?_ le_rfl hb.thrifty, rfl, ite_self _, ?_, .inr rfl⟩
      · rw [hcounted]
        exact congrArg (· + c.thePolicy.held)
          (hnow { p.addSnoopTransport p.transport with action := .eForward })
      · rw [hp]
        rfl
  unfold runIdleWorkProcess
  refine Yields.bind (P := fun r => c.thePolicy.handleIdleWork p = .ok r)
    (.of_ok Policy.unaccounted_handleIdleWork.2 fun _ h => h) ?_
  rintro ⟨s, q⟩ hok
  obtain ⟨hb', hslots, hown, hsnoops, haction⟩ := hpays hok
  obtain ⟨htype, hslots⟩ := slots_eq hslots hp
  simp only [ProcessEntry.slots, started, Prod.mk.injEq] at hslots
  obtain ⟨_, hsnoop, hreq, hrep, hmaf, hdirEB⟩ := hslots
  obtain ⟨_, _, h₁, hb'⟩ := hb'.unreserveEB hown
  obtain ⟨_, h₂, hb'⟩ := hb'.onlySnoop hsnoop (q.action == .eNoAction)
  simp only [h₁, h₂, bind, Except.bind]
  refine .pure (Books.flag (hqueued.enqueueLookup hb' ⟨rfl, rfl, rfl⟩ ⟨?_, rfl, ?_⟩))
  · dsimp only [ProcessEntry.slots]
    rw [hsnoops, hreq, hrep, hmaf]
    rcases haction with h | h <;> simp [h, sendsReply]
  · show q.snoopTransports.length ≤ if q.action.sendsSnoops then 2 else 0
    rw [hsnoops]
    rcases haction with h | h <;> simp [h, ProcessAction.sendsSnoops]

theorem yields_advanceMAFPipeline (hsound : c.thePolicy.Sound) (h : Books c)
    (hempty : ∀ p ∈ c.theMAFPipeline.head?, p.type = .eProcWakeMAF →
      ∀ i, p.maf = some i → c.thePolicy.theMAF.reservedBy i = 0)
    (hstore : ∀ p ∈ c.theMAFPipeline.head?, p.type = .eProcReply → p.transport.msg.type = .NonAllocatingStoreReply →
      ∀ maf, c.thePolicy.matchingMAF p.transport = .ok maf → maf.type.isReadType = false) :
    Yields allowed c.advanceMAFPipeline Books := by
  unfold advanceMAFPipeline
  split
  · exact .pure h
  · next p rest hpipeline =>
    have hmem : p ∈ c.theMAFPipeline := hpipeline ▸ List.mem_cons_self
    have hhead : p ∈ c.theMAFPipeline.head? := by rw [hpipeline]; rfl
    obtain ⟨hp, hidle⟩ := h.waiting p hmem
    have hqueued : Queued { c with theMAFPipeline := rest } :=
      ⟨fun x hx => h.waiting x (hpipeline ▸ List.mem_cons_of_mem p hx), h.ready, h.data⟩
    have hb : Balanced { c with theMAFPipeline := rest } (p :: live { c with theMAFPipeline := rest }) := by
      have hbalanced := h.balanced
      rw [live, hpipeline] at hbalanced
      exact hbalanced.elsewhere
    dsimp only
    split <;> rename_i htype <;> rw [htype] at hp
    · exact yields_runWakeMAFProcess hqueued hb hp (hempty p hhead htype)
    · exact yields_runCacheEvictProcess hqueued hb hp
    · exact yields_runDirEvictProcess hqueued hb hp
    · exact yields_runReplyProcess hqueued hb hp (hstore p hhead htype)
    · exact yields_runSnoopProcess
    · exact yields_runRequestProcess hqueued hb hp
    · exact yields_runIdleWorkProcess hsound hqueued hb hp (hidle htype)

/-! ## The other pipelines -/

theorem Queued.enqueueData (h : Queued c) (hbalanced : Balanced c' (p :: live c))
    (hsame : c'.theMAFPipeline = c.theMAFPipeline ∧ c'.theDirTagPipeline = c.theDirTagPipeline ∧
      c'.theDataPipeline = c.theDataPipeline) (hp : if p.transmitAfterTag then Empty p else Ready p) :
    Books { c' with theDataPipeline := c'.theDataPipeline ++ [p] } := by
  obtain ⟨hmaf, hdir, hdata⟩ := hsame
  refine ⟨⟨fun x hx => h.waiting x (hmaf ▸ hx), fun x hx => h.ready x (hdir ▸ hx), fun x hx => ?_⟩, ?_⟩
  · rcases List.mem_append.mp hx with hx | hx
    · exact h.data x (hdata ▸ hx)
    · obtain rfl := List.mem_singleton.mp hx
      exact hp
  · refine Balanced.elsewhere (c := c') (hbalanced.perm ?_)
    show (p :: (c.theMAFPipeline ++ c.theDirTagPipeline ++ c.theDataPipeline)).Perm
      (c'.theMAFPipeline ++ c'.theDirTagPipeline ++ (c'.theDataPipeline ++ [p]))
    rw [hmaf, hdir, hdata, ← List.append_assoc]
    exact (List.perm_append_singleton p _).symm

theorem yields_advanceDirTagPipeline (h : Books c)
    (hmaf : ∀ p ∈ c.theDirTagPipeline.head?, (!p.requiresData || p.transmitAfterTag) = true →
      ∀ s, finalizeMAF c.thePolicy p = .ok s → s.Thrifty ∧ s.held = c.thePolicy.held) :
    Yields allowed c.advanceDirTagPipeline Books := by
  unfold advanceDirTagPipeline
  split
  · exact .pure h
  · next p rest hpipeline =>
    have hready : Ready p := h.ready p (hpipeline ▸ List.mem_cons_self)
    have hqueued : Queued { c with theDirTagPipeline := rest } :=
      ⟨h.waiting, fun x hx => h.ready x (hpipeline ▸ List.mem_cons_of_mem p hx), h.data⟩
    have hb : Balanced { c with theDirTagPipeline := rest } (p :: live { c with theDirTagPipeline := rest }) := by
      have hbalanced := h.balanced
      rw [live, hpipeline] at hbalanced
      refine Balanced.elsewhere (c := c) (hbalanced.perm ?_)
      rw [live, List.append_assoc, List.cons_append, List.append_assoc]
      exact List.perm_middle
    have hfinal := fun hends => hb.finalizeProcess hready (hmaf p (by rw [hpipeline]; rfl) hends)
    dsimp only
    refine .ite (fun _ => ?_) fun hdata => ?_
    · cases htag : p.transmitAfterTag with
      | true =>
        refine Yields.bind (hfinal (by simp [htag])) ?_
        rintro ⟨c', q⟩ ⟨hb', hempty, hsame, hpipelines⟩
        refine .pure (hqueued.enqueueData ((balanced_cons_empty hempty).mpr hb') hpipelines ?_)
        dsimp only at hempty hsame ⊢
        rw [hsame, htag]
        exact hempty
      | false =>
        refine .pure (hqueued.enqueueData hb ⟨rfl, rfl, rfl⟩ ?_)
        rw [htag]
        exact hready
    · exact (hfinal (by simp [hdata])).map fun r hr => hqueued.books hr.1 hr.2.2.2

theorem yields_advanceDataPipeline (h : Books c)
    (hmaf : ∀ p ∈ c.theDataPipeline.head?, p.transmitAfterTag = false →
      ∀ s, finalizeMAF c.thePolicy p = .ok s → s.Thrifty ∧ s.held = c.thePolicy.held) :
    Yields allowed c.advanceDataPipeline Books := by
  unfold advanceDataPipeline
  split
  · exact .pure h
  · next p rest hpipeline =>
    have hp := h.data p (hpipeline ▸ List.mem_cons_self)
    have hqueued : Queued { c with theDataPipeline := rest } :=
      ⟨h.waiting, h.ready, fun x hx => h.data x (hpipeline ▸ List.mem_cons_of_mem p hx)⟩
    have hb : Balanced { c with theDataPipeline := rest } (p :: live { c with theDataPipeline := rest }) := by
      have hbalanced := h.balanced
      rw [live, hpipeline] at hbalanced
      exact Balanced.elsewhere (c := c) (hbalanced.perm List.perm_middle)
    cases htag : p.transmitAfterTag with
    | true =>
      rw [htag] at hp
      exact .ok (hqueued.books ((balanced_cons_empty hp).mp hb) ⟨rfl, rfl, rfl⟩)
    | false =>
      rw [htag] at hp
      have hfinal := hb.finalizeProcess hp (hmaf p (by rw [hpipeline]; rfl) htag)
      exact hfinal.map fun r hr => hqueued.books hr.1 hr.2.2.2

end Controller

end nCMPCache
