import Flexus.CmpCache.Grants

/-!
# Write-backs

A block that the bank writes back stays in the evict buffer until memory acknowledges it.
-/

namespace nCMPCache

open Runs Relation

namespace Policy

variable {cfg : CMPCacheInfo} {s s' s₁ : Policy cfg} {p q : ProcessEntry} {a x : MemoryAddress}
  {e : EvictEntry} {w : Causes}

/-- The write-back of the block is under way. -/
def writingBack (s : Policy cfg) (a : MemoryAddress) : Bool :=
  (s.theCacheEvictBuffer.find a).any EvictEntry.pending

theorem writingBack_iff :
    s.writingBack a = true ↔ ∃ e, s.theCacheEvictBuffer.find a = some e ∧ e.pending = true := by
  unfold writingBack
  cases s.theCacheEvictBuffer.find a with
  | none => simp
  | some e => simp

/-! ## Pending entries -/

/-- A pending entry changes only when the block is stored, owned or acknowledged. -/
theorem Effect.pending_kept (hcopies : Copies s) (h : Effect w s s')
    (he : s.theCacheEvictBuffer.find x = some e) (hpending : e.pending = true) (hstores : ¬ w.stores x)
    (howns : ¬ w.owns x) (hacks : ¬ w.acks x) : s'.theCacheEvictBuffer.find x = some e := by
  cases h with
  | directory _ hbuffer _ => rw [hbuffer, he]
  | copies _ _ hmove =>
    cases hmove with
    | same _ hbuffer => rw [hbuffer, he]
    | changed _ _ _ hbuffer => rw [hbuffer, he]
    | @filled b vtag _ vstate hfilled _ hold _ =>
      rw [hfilled.buffer, if_neg, if_neg, he]
      · rintro rfl
        rcases hold e he with hfree | hstored
        · rw [hpending] at hfree
          cases hfree
        · exact hstores hstored
      · -- a victim comes from the array, so it has no entry yet
        rintro ⟨hkeeps, rfl⟩
        obtain ⟨hstate, haligned, _⟩ := hfilled.victim hkeeps.1
        have hnone := hcopies.apart (x := x) (by rw [hstate]; exact hkeeps.1)
        rw [haligned, he] at hnone
        cases hnone
    | yielded _ howned _ hbuffer =>
      rw [hbuffer, if_neg, he]
      rintro rfl
      exact howns howned
    | @marked e' he' hfree _ _ hbuffer =>
      rw [hbuffer, if_neg, he]
      rintro rfl
      rw [he] at he'
      cases he'
      rw [hpending] at hfree
      cases hfree
    | acknowledged _ _ hacked _ hbuffer =>
      rw [hbuffer, if_neg, he]
      rintro rfl
      exact hacks hacked

/-- An entry becomes pending only when its write-back is handed out. -/
theorem Effect.pending_before (h : Effect w s s') (hafter : s'.writingBack x = true) (hmarks : ¬ w.marks x) :
    s.writingBack x = true := by
  rw [writingBack_iff] at hafter ⊢
  obtain ⟨e, he, hpending⟩ := hafter
  cases h with
  | directory _ hbuffer _ =>
    rw [hbuffer] at he
    exact ⟨e, he, hpending⟩
  | copies _ _ hmove =>
    cases hmove with
    | same _ hbuffer =>
      rw [hbuffer] at he
      exact ⟨e, he, hpending⟩
    | changed _ _ _ hbuffer =>
      rw [hbuffer] at he
      exact ⟨e, he, hpending⟩
    | filled hfilled _ _ _ =>
      rw [hfilled.buffer] at he
      split at he
      · cases he
        cases hpending
      · split at he
        · cases he
        · exact ⟨e, he, hpending⟩
    | @yielded b e' he' _ _ hbuffer =>
      rw [hbuffer] at he
      split at he
      · next hxb =>
        split at he
        · cases he
          exact ⟨e', hxb ▸ he', hpending⟩
        · cases he
      · exact ⟨e, he, hpending⟩
    | @marked e' _ _ hmarked _ hbuffer =>
      rw [hbuffer] at he
      split at he
      · next hxe => exact absurd (hxe ▸ hmarked) hmarks
      · exact ⟨e, he, hpending⟩
    | acknowledged _ _ _ _ hbuffer =>
      rw [hbuffer] at he
      split at he
      · cases he
      · exact ⟨e, he, hpending⟩

theorem Effects.pending_kept (hsound : Sound s) (h : Effects w s s')
    (he : s.theCacheEvictBuffer.find x = some e) (hpending : e.pending = true) (hstores : ¬ w.stores x)
    (howns : ¬ w.owns x) (hacks : ¬ w.acks x) : s'.theCacheEvictBuffer.find x = some e := by
  induction h with
  | refl => exact he
  | tail hbefore hlast ih =>
    have hcopies := (Effects.sound hsound hbefore).copies
    exact hlast.pending_kept hcopies ih hpending hstores howns hacks

theorem Effects.pending_before (h : Effects w s s') (hafter : s'.writingBack x = true)
    (hmarks : ¬ w.marks x) : s.writingBack x = true := by
  induction h with
  | refl => exact hafter
  | tail _ hlast ih => exact ih (hlast.pending_before hafter hmarks)

/-- Write-backs go on as before unless one of the causes is there. -/
theorem Effects.writingBack_eq (hsound : Sound s) (h : Effects w s s')
    (hstores : s.writingBack x = true → ¬ w.stores x) (howns : s.writingBack x = true → ¬ w.owns x)
    (hacks : ¬ w.acks x) (hmarks : ¬ w.marks x) : s'.writingBack x = s.writingBack x := by
  rw [Bool.eq_iff_iff]
  constructor
  · intro hafter
    exact h.pending_before hafter hmarks
  · intro hbefore
    obtain ⟨e, he, hpending⟩ := writingBack_iff.mp hbefore
    exact writingBack_iff.mpr
      ⟨e, h.pending_kept hsound he hpending (hstores hbefore) (howns hbefore) hacks, hpending⟩

/-- Handing out a write-back concerns one block, whose write-back was not under way. -/
theorem writingBack_getCacheEvictTransport {t : MemoryTransport}
    (h : s.getCacheEvictTransport = .ok (s', t)) :
    s.writingBack t.msg.address = false ∧
      ∀ x, s'.writingBack x = (s.writingBack x || decide (x = t.msg.address)) := by
  obtain ⟨b, e, hfirst, rfl, _, haddress, _⟩ := getCacheEvictTransport_spec h
  obtain ⟨he, hpending, hfind⟩ := CacheEvictBuffer.find_firstNonPending hfirst
  rw [haddress]
  constructor
  · rw [writingBack, he, Option.any_some, hpending]
  · intro x
    simp only [writingBack, hfind]
    split
    · next hx => simp [hx]
    · next hx => simp [hx]

/-- An acknowledgement ends the write-back of its block. -/
theorem writingBack_handleEvictAck (hok : s.handleEvictAck p = .ok (s', q)) :
    s.writingBack p.transport.msg.address = true ∧
      ∀ x, s'.writingBack x = (s.writingBack x && decide (x ≠ p.transport.msg.address)) := by
  unfold handleEvictAck at hok
  dsimp only at hok
  split at hok
  · cases hok
  · next e he =>
    split at hok
    · cases hok
    · next hpending =>
      simp only [Except.ok.injEq] at hok
      have hs : _ = s' := congrArg Prod.fst hok
      rw [(wakeWaitEvict_spec _ _ _).1] at hs
      rw [← hs]
      refine ⟨writingBack_iff.mpr ⟨e, he, by simpa using hpending⟩, fun x => ?_⟩
      simp only [writingBack, CacheEvictBuffer.find_remove]
      split
      · next hx => simp [hx]
      · next hx => simp [hx]

/-! ## Steps that take a pending entry away -/

/-- A core's eviction fills the array with a block whose write-back is under way. -/
def storesOver (s : Policy cfg) (p : ProcessEntry) : Bool :=
  p.transport.msg.type.isEvictType && !s.evictHeldUp p && carriesData p.transport.msg &&
    s.validSharer p && s.theCache.state p.transport.msg.address == .Invalid &&
    s.writingBack (cfg.blockAddress p.transport.msg.address)

theorem storesOver_iff : s.storesOver p = true ↔
    s.storing p (cfg.blockAddress p.transport.msg.address) ∧
      s.writingBack (cfg.blockAddress p.transport.msg.address) = true := by
  simp only [storesOver, storing, Bool.and_eq_true, Bool.not_eq_true', beq_iff_eq, and_true]
  tauto

/-- A core becomes the owner of a block whose write-back is under way. -/
def ownsOver (s : Policy cfg) (p : ProcessEntry) : Bool :=
  (p.transport.msg.type == .WriteAck || p.transport.msg.type == .UpgradeAck) &&
    s.writingBack p.transport.msg.address

/-! ## Messages to memory -/

/-- The message is a write-back of the block. -/
def isWriteBackOf (a : MemoryAddress) (t : MemoryTransport) : Bool :=
  t.msg.type.isEvictType && t.dest.type == .Memory && t.msg.address == a

theorem countP_isWriteBackOf {ts : List MemoryTransport} (h : ∀ t ∈ ts, t.msg.type.isEvictType = false) :
    ts.countP (isWriteBackOf a) = 0 := by
  refine List.countP_eq_zero.mpr fun t ht => ?_
  simp [isWriteBackOf, h t ht]

theorem isWriteBackOf_getCacheEvictTransport {t : MemoryTransport} (hcopies : Copies s)
    (h : s.getCacheEvictTransport = .ok (s', t)) : isWriteBackOf a t = decide (a = t.msg.address) := by
  obtain ⟨b, e, hfirst, _, htype, _, hmemory⟩ := getCacheEvictTransport_spec h
  obtain ⟨he, _⟩ := CacheEvictBuffer.find_firstNonPending hfirst
  have hevict := (hcopies.kept he).2.2.2.1
  rw [isWriteBackOf, htype, hevict, hmemory]
  by_cases ha : a = t.msg.address
  · simp [ha]
  · simp [ha, Ne.symm ha]

/-- A request is answered and forwarded, but sends no write-back. -/
theorem requested_snoops {hasMaf : Bool} (hempty : p.snoopTransports = [])
    (h : Requested s p hasMaf a s' q) : ∀ t ∈ q.snoopTransports, t.msg.type.isEvictType = false := by
  have hstalled : ∀ {s₁ : Policy cfg} {st}, s₁.stall p hasMaf a st = .ok (s', q) → q.snoopTransports = [] := by
    intro s₁ st hstall
    rw [(stall_spec hstall).2.1]
    exact hempty
  cases h with
  | redundant _ _ => simp [hempty]
  | queued _ hstall => simp [hstalled hstall]
  | noEntry _ _ hstall => simp [hstalled hstall]
  | writtenBack _ _ _ hstall => simp [hstalled hstall]
  | served _ _ _ hserve =>
    obtain ⟨dir, hserved⟩ := served_serveRequest hserve
    obtain ⟨ts, hts, hnot⟩ := hserved.snoops
    have hsame : (convertUpgrade p dir).snoopTransports = [] := by
      rcases convertUpgrade_spec p dir with hsame | ⟨_, hsame⟩ <;> rw [hsame] <;> exact hempty
    rw [hts, hsame]
    exact hnot

theorem doRequest_snoops {reserve : Int} {hasMaf : Bool} (hempty : p.snoopTransports = [])
    (hreserved : 0 < p.cacheEBReserved) (hok : doRequest reserve s p hasMaf = .ok (s', q)) :
    ∀ t ∈ q.snoopTransports, t.msg.type.isEvictType = false := by
  cases hevict : p.transport.msg.type.isEvictType with
  | false => exact requested_snoops hempty (doRequest_requested hevict hok)
  | true =>
    rcases doRequest_evict hevict hok with ⟨_, _, hstall⟩ | ⟨_, hdo⟩
    · rw [(stall_spec hstall).2.1]
      simp [hempty]
    · cases hwaits : s.evictWaits p with
      | true =>
        rw [(stall_spec (doEvict_waits hwaits hdo)).2.1]
        simp [hempty]
      | false =>
        rw [(doEvict_evicted hwaits hreserved hdo).snoops]
        unfold withEvictAck
        split
        · simp [ProcessEntry.addSnoopTransport, hempty, ProcessEntry.derive, MemoryMessageType.isEvictType]
        · simp [hempty]

end Policy

namespace Controller

variable {cfg : CMPCacheInfo} {c c' : Controller cfg} {s s' : Policy cfg} {p q : ProcessEntry}
  {reserve : Int} {e : Event} {k k' : Core cfg} {final : Option ProcessEntry} {a : MemoryAddress}
  {owed owed' : List MemoryAddress}

theorem Fresh.snoops (h : Fresh p) : p.snoopTransports = [] :=
  by simpa using congrArg ProcessEntry.snoopTransports h.job

/-- A handler takes the entry of a write-back away that is under way: a core's eviction
    fills the array with the block, or a core becomes its owner. -/
def interferes (s : Policy cfg) (p : ProcessEntry) : Bool :=
  match p.type with
  | .eProcRequest => s.storesOver p
  | .eProcWakeMAF => s.storesOver (withEntryTransport s p)
  | .eProcReply => s.ownsOver p
  | _ => false

/-- What a waiting process owes for the write-back of a block: the message to memory, or
    handling its acknowledgement. -/
def owes (a : MemoryAddress) (p : ProcessEntry) : Nat :=
  match p.type with
  | .eProcCacheEvict => if Policy.isWriteBackOf a p.transport then 1 else 0
  | .eProcReply => if p.transport.msg.type = .EvictAck ∧ p.transport.msg.address = a then 1 else 0
  | _ => 0

/-- The write-backs of a block that are under way: with the bank's processes, on their way
    to memory, and those that memory owes an acknowledgement for. -/
def underWay (k : Core cfg) (owed : List MemoryAddress) (a : MemoryAddress) : Nat :=
  (k.waiting.map (owes a)).sum +
    (k.pending.map fun q => q.snoopTransports.countP (Policy.isWriteBackOf a)).sum +
    k.snoops.countP (Policy.isWriteBackOf a) + owed.count a

/-- One write-back of a block is under way if its entry is pending, and none otherwise. -/
def Ledger (k : Core cfg) (owed : List MemoryAddress) : Prop :=
  ∀ a, underWay k owed a = (k.policy.writingBack a).toNat

/-- The bank's evictions from the directory are no write-backs. -/
def Quiet (p : ProcessEntry) : Prop :=
  p.type = .eProcDirEvict ∨ p.type = .eProcIdleWork → p.transport.msg.type.isEvictType = false

theorem getIdleWorkTransport_not_evict (s : Policy cfg) :
    s.getIdleWorkTransport.2.msg.type.isEvictType = false := by
  unfold Policy.getIdleWorkTransport
  split <;> rfl

theorem Starts.quiet (h : Starts s e s' p) : Quiet p := by
  have htype : ∀ {type i t}, p.job = { type := type, maf := i, transport := t } →
      p.type = type ∧ p.transport = t := by
    intro type i t hjob
    exact ⟨congrArg ProcessEntry.type hjob, by simpa using congrArg ProcessEntry.transport hjob⟩
  intro hevicts
  cases h with
  | wakeMAF _ hjob _ => simp [(htype hjob).1] at hevicts
  | cacheEvict _ hjob => simp [(htype hjob).1] at hevicts
  | dirEvict hjob =>
    rw [(htype hjob).2]
    exact getIdleWorkTransport_not_evict s
  | reply hjob => simp [(htype hjob).1] at hevicts
  | snoop hjob => simp [(htype hjob).1] at hevicts
  | request hjob _ => simp [(htype hjob).1] at hevicts
  | idleWork hjob =>
    rw [(htype hjob).2]
    exact getIdleWorkTransport_not_evict s

theorem moves_quiet (hquiet : ∀ p ∈ k.waiting, Quiet p) (hmoves : Moves reserve final k e k') :
    ∀ p ∈ k'.waiting, Quiet p := by
  cases hmoves with
  | idle => exact hquiet
  | start hstarts =>
    intro p hp
    rcases List.mem_append.mp hp with hp | hp
    · exact hquiet p hp
    · obtain rfl := List.mem_singleton.mp hp
      exact hstarts.quiet
  | handled hwaiting _ => exact fun p hp => hquiet p (hwaiting ▸ List.mem_cons_of_mem _ hp)
  | evicted hwaiting _ => exact fun p hp => hquiet p (hwaiting ▸ List.mem_cons_of_mem _ hp)
  | finalized _ _ _ => exact hquiet
  | taken => exact hquiet

theorem quiet_of_reachable (hreach : Reachable c) : ∀ p ∈ c.theMAFPipeline, Quiet p :=
  hreach.invariant (I := fun k => ∀ p ∈ k.waiting, Quiet p) (by simp [core, create])
    fun _ hquiet hmoves => moves_quiet hquiet hmoves

/-! ## The ledger is kept -/

/-- A core's eviction stores its data for its own block only. -/
theorem not_storing_of_writingBack (hfree : s.storesOver p = false) {x : MemoryAddress}
    (hback : s.writingBack x = true) : ¬ s.storing p x := by
  intro hstoring
  have hx : x = cfg.blockAddress p.transport.msg.address := hstoring.2.2.2.2.2
  rw [hx] at hback hstoring
  rw [Policy.storesOver_iff.mpr ⟨hstoring, hback⟩] at hfree
  cases hfree

/-- A handler that does not interfere keeps the ledger: what the process owed becomes a
    message it sends, or the end of a write-back. -/
theorem handle_ledger (hfresh : Fresh p) (hquiet : Quiet p) (hsound : s.Sound)
    (horderly : Orderly cfg s.theMAF.ticket) (hfree : interferes s p = false)
    (hok : handle reserve s p = .ok (s', q)) (a : MemoryAddress) :
    (s'.writingBack a).toNat + owes a p =
      (s.writingBack a).toNat + q.snoopTransports.countP (Policy.isWriteBackOf a) := by
  have heffects := handle_effects hfresh hsound horderly hok
  unfold interferes at hfree
  unfold causes at heffects
  unfold owes
  cases htype : p.type with
  | eProcRequest =>
    simp only [htype] at hfree heffects ⊢
    rw [heffects.writingBack_eq hsound (not_storing_of_writingBack hfree) (fun _ => id) id id]
    have hsnoops : ∀ t ∈ q.snoopTransports, t.msg.type.isEvictType = false := by
      simp only [handle, htype] at hok
      exact Policy.doRequest_snoops hfresh.snoops (by simp [hfresh.reserved (.inr htype)]) hok
    rw [Policy.countP_isWriteBackOf hsnoops]
  | eProcWakeMAF =>
    simp only [htype] at hfree heffects ⊢
    rw [heffects.writingBack_eq hsound (not_storing_of_writingBack hfree) (fun _ => id) id id]
    have hsnoops : ∀ t ∈ q.snoopTransports, t.msg.type.isEvictType = false := by
      simp only [handle, htype] at hok
      obtain ⟨⟨s₁, q₁⟩, hwake, hdrop⟩ := bind_eq_ok.mp hok
      have hempty : (withEntryTransport s p).snoopTransports = [] := by
        rw [withEntryTransport_same]
        exact hfresh.snoops
      have hreserved : 0 < (withEntryTransport s p).cacheEBReserved := by
        rw [withEntryTransport_same]
        exact (hfresh.reserved (.inl htype)).symm ▸ Int.one_pos
      have hafter := Policy.doRequest_snoops hempty hreserved hwake
      rcases dropRedundant_spec hdrop with ⟨_, _, rfl⟩ | ⟨_, i, _, _, rfl⟩
      · exact hafter
      · exact hafter
    rw [Policy.countP_isWriteBackOf hsnoops]
  | eProcReply =>
    simp only [htype] at hfree heffects ⊢
    simp only [handle, htype] at hok
    have hsnoops : ∀ t ∈ q.snoopTransports, t.msg.type.isEvictType = false := by
      obtain ⟨ts, hts, hnot⟩ := (Policy.handleReply_replied hok).snoops fun hu hst => by
        rcases horderly.typed hu hst with hread | hwrite
        · exact Policy.isEvictType_of_isReadType hread
        · exact Policy.isEvictType_of_isWriteType hwrite
      rw [hts, hfresh.snoops]
      exact hnot
    rw [Policy.countP_isWriteBackOf hsnoops]
    by_cases hack : p.transport.msg.type = .EvictAck
    · simp only [Policy.handleReply, hack] at hok
      obtain ⟨hback, hafter⟩ := Policy.writingBack_handleEvictAck hok
      rw [hafter]
      by_cases ha : p.transport.msg.address = a
      · simp [hack, ← ha, hback]
      · simp [ha, Ne.symm ha]
    · have howns : s.writingBack a = true → ¬ (s.replyCauses p).owns a := by
        rintro hback ⟨hacked, rfl⟩
        simp only [Policy.ownsOver, hback, Bool.and_true, Bool.or_eq_false_iff, beq_eq_false_iff_ne] at hfree
        rcases hacked with hacked | hacked
        · exact hfree.1 hacked
        · exact hfree.2 hacked
      rw [heffects.writingBack_eq hsound (fun _ => id) howns (fun h => hack h.1) id]
      simp [hack]
  | eProcIdleWork =>
    simp only [handle, htype] at hok
    rcases Policy.handleIdleWork_spec hok with ⟨rfl, _, hsame⟩ | ⟨t, hevict, _, _, hsnoops⟩
    · have hnone : ∀ t ∈ q.snoopTransports, t.msg.type.isEvictType = false := by
        rcases hsame with ⟨_, hsame⟩ | ⟨_, _, hsame⟩
        · simp [hsame, hfresh.snoops]
        · simpa [hsame, hfresh.snoops] using hquiet (.inr htype)
      rw [Policy.countP_isWriteBackOf hnone]
    · obtain ⟨hbefore, hafter⟩ := Policy.writingBack_getCacheEvictTransport hevict
      rw [hafter, hsnoops, hfresh.snoops, List.nil_append, List.countP_singleton,
        Policy.isWriteBackOf_getCacheEvictTransport hsound.copies hevict]
      by_cases ha : a = t.msg.address
      · simp [ha, hbefore]
      · simp [ha]
  | eProcCacheEvict => simp [handle, htype] at hok
  | eProcDirEvict => simp [handle, htype] at hok
  | eProcSnoop => simp [handle, htype] at hok

/-- The event is an acknowledgement for the block. -/
def acknowledging (a : MemoryAddress) : Event → Nat
  | .reply t => if t.msg.type = .EvictAck ∧ t.msg.address = a then 1 else 0
  | _ => 0

/-- What a new process owes is what changed when it was started: a write-back was handed
    out, or an acknowledgement came in. -/
theorem Starts.ledger (hsound : s.Sound) (h : Starts s e s' p) (a : MemoryAddress) :
    (s'.writingBack a).toNat + acknowledging a e = (s.writingBack a).toNat + owes a p := by
  have htype : ∀ {type i t}, p.job = { type := type, maf := i, transport := t } →
      p.type = type ∧ p.transport = t := by
    intro type i t hjob
    exact ⟨congrArg ProcessEntry.type hjob, by simpa using congrArg ProcessEntry.transport hjob⟩
  unfold owes acknowledging
  cases h with
  | wakeMAF _ hjob _ =>
    simp only [(htype hjob).1]
    rfl
  | @cacheEvict s' t _ hevict hjob =>
    simp only [(htype hjob).1, (htype hjob).2]
    obtain ⟨hbefore, hafter⟩ := Policy.writingBack_getCacheEvictTransport hevict
    rw [hafter, Policy.isWriteBackOf_getCacheEvictTransport hsound.copies hevict]
    by_cases ha : a = t.msg.address
    · simp [ha, hbefore]
    · simp [ha]
  | dirEvict hjob =>
    simp only [(htype hjob).1]
    rw [Policy.getIdleWorkTransport_frame]
    rfl
  | reply hjob => simp only [(htype hjob).1, (htype hjob).2]
  | snoop hjob => simp only [(htype hjob).1]
  | request hjob _ => simp only [(htype hjob).1]
  | idleWork hjob =>
    simp only [(htype hjob).1]
    rw [Policy.getIdleWorkTransport_frame]
    rfl

theorem ledger_finalized {rest : Multiset ProcessEntry} (hsound : k.policy.Sound)
    (hpending : k.pending = q ::ₘ rest) (hfinal : Policy.Finalized k.policy q s') (hledger : Ledger k owed) :
    Ledger { k with policy := s', pending := rest, snoops := k.snoops ++ q.snoopTransports } owed := by
  intro a
  have hbefore := hledger a
  have hsame : s'.writingBack a = k.policy.writingBack a :=
    hfinal.effects.writingBack_eq hsound (fun _ => id) (fun _ => id) id id
  simp only [underWay, hpending, Multiset.map_cons, Multiset.sum_cons] at hbefore
  simp only [underWay, List.countP_append, hsame]
  omega

theorem ledger_handled {rest : List ProcessEntry} (hwaiting : k.waiting = p :: rest) (hfresh : Fresh p)
    (hquiet : Quiet p) (hsound : k.policy.Sound) (horderly : Orderly cfg k.policy.theMAF.ticket)
    (hfree : interferes k.policy p = false) (hok : handle reserve k.policy p = .ok (s', q))
    (hledger : Ledger k owed) :
    Ledger { k with policy := s', waiting := rest, pending := q.job ::ₘ k.pending } owed := by
  intro a
  have hbefore := hledger a
  have hstep := handle_ledger hfresh hquiet hsound horderly hfree hok a
  simp only [underWay, hwaiting, List.map_cons, List.sum_cons] at hbefore
  simp only [underWay, Multiset.map_cons, Multiset.sum_cons, ProcessEntry.job_snoopTransports]
  omega

theorem ledger_evicted {rest : List ProcessEntry} (hwaiting : k.waiting = p :: rest) (hfresh : Fresh p)
    (hquiet : Quiet p) (htype : p.type = .eProcCacheEvict ∨ p.type = .eProcDirEvict)
    (hledger : Ledger k owed) :
    Ledger { k with waiting := rest, snoops := k.snoops ++ (p.snoopTransports ++ [p.transport]) } owed := by
  intro a
  have hbefore := hledger a
  have hsent : [p.transport].countP (Policy.isWriteBackOf a) = owes a p := by
    unfold owes
    rcases htype with htype | htype
    · rw [htype, List.countP_singleton]
    · rw [htype]
      exact Policy.countP_isWriteBackOf (by simpa using hquiet (.inl htype))
  simp only [underWay, hwaiting, List.map_cons, List.sum_cons] at hbefore
  simp only [underWay, hfresh.snoops, List.nil_append, List.countP_append, hsent]
  omega

theorem ledger_started (hsound : k.policy.Sound) (hstarts : Starts k.policy e s' p)
    (howed : ∀ a, owed'.count a + acknowledging a e = owed.count a)
    (hledger : Ledger k owed) : Ledger { k with policy := s', waiting := k.waiting ++ [p] } owed' := by
  intro a
  have hbefore := hledger a
  have hstep := hstarts.ledger hsound a
  have hcount := howed a
  simp only [underWay] at hbefore
  simp only [underWay, List.map_append, List.map_cons, List.map_nil, List.sum_append, List.sum_singleton]
  omega

theorem ledger_taken (hledger : Ledger k owed) :
    Ledger { k with snoops := k.snoops.tail }
      ((k.snoops.take 1 |>.filter fun t => t.msg.type.isEvictType && t.dest.type == .Memory).map
        (fun t => t.msg.address) ++ owed) := by
  intro a
  have hbefore := hledger a
  simp only [underWay] at hbefore ⊢
  cases hsnoops : k.snoops with
  | nil =>
    rw [hsnoops] at hbefore
    simpa using hbefore
  | cons t rest =>
    rw [hsnoops, List.countP_cons] at hbefore
    have hhead : (((t :: rest).take 1 |>.filter fun t => t.msg.type.isEvictType && t.dest.type == .Memory).map
        (fun t => t.msg.address)).count a = if Policy.isWriteBackOf a t then 1 else 0 := by
      simp only [List.take_succ_cons, List.take_zero, List.filter_cons, List.filter_nil, Policy.isWriteBackOf]
      by_cases hwrite : (t.msg.type.isEvictType && t.dest.type == .Memory) = true
      · simp [hwrite, List.count_singleton]
      · simp [hwrite]
    rw [List.count_append, hhead, List.tail_cons]
    omega

/-! ## The bank and memory -/

/-- The bank together with memory, which has received write-backs that it has not
    acknowledged yet. -/
structure WithMemory (cfg : CMPCacheInfo) where
  bank : Controller cfg
  owed : List MemoryAddress

namespace WithMemory

def create (cfg : CMPCacheInfo) : WithMemory cfg := ⟨.create cfg, []⟩

/-- Memory receives the write-backs that the network takes, and owes an acknowledgement no
    longer once the bank has taken it in. -/
def owedAfter (m : WithMemory cfg) (bank : Controller cfg) : Event → List MemoryAddress
  | .takeSnoop =>
    (m.bank.SnoopOut.theQueue.take 1 |>.filter fun t =>
      t.msg.type.isEvictType && t.dest.type == .Memory).map (fun t => t.msg.address) ++ m.owed
  | .reply t =>
    if t.msg.type = .EvictAck ∧ bank.theMAFPipeline.length ≠ m.bank.theMAFPipeline.length then
      m.owed.erase t.msg.address
    else m.owed
  | _ => m.owed

def step (m : WithMemory cfg) (e : Event) : Except Fault (WithMemory cfg) := do
  let bank ← m.bank.step e
  pure ⟨bank, m.owedAfter bank e⟩

/-- Memory acknowledges only what it has received and not acknowledged yet. -/
def Acknowledges (m : WithMemory cfg) (e : Event) : Prop :=
  ∀ t, e = .reply t → t.msg.type = .EvictAck → t.msg.address ∈ m.owed

/-- The next process does not take away the entry of a write-back that is under way. -/
def LeavesWriteBacks (m : WithMemory cfg) (e : Event) : Prop :=
  e = .advanceMAF → ∀ p ∈ m.bank.theMAFPipeline.head?, interferes m.bank.thePolicy p = false

/-- The states of the bank and memory that are reached through such steps. -/
def Reachable (m : WithMemory cfg) : Prop :=
  Runs.Reaches step (fun m e => Acknowledges m e ∧ LeavesWriteBacks m e) (create cfg) m

variable {m m' : WithMemory cfg}

theorem bank_of_reachable (hreach : Reachable m) : m.bank.Reachable := by
  refine Reaches.invariant (I := fun m => m.bank.Reachable) .start ?_ hreach
  intro m e m' hbank _ hok
  obtain ⟨bank, hstep, hpure⟩ := bind_eq_ok.mp hok
  obtain rfl := pure_eq_ok.mp hpure
  exact .next hbank trivial hstep

theorem step_ledger (hbank : m.bank.Reachable) (hledger : Ledger m.bank.core m.owed)
    (hacks : Acknowledges m e) (hleaves : LeavesWriteBacks m e) (hok : m.step e = .ok m') :
    Ledger m'.bank.core m'.owed := by
  obtain ⟨bank, hstep, hpure⟩ := bind_eq_ok.mp hok
  obtain rfl := pure_eq_ok.mp hpure
  have hsound := sound_of_reachable hbank
  have hmoves := step_moves hstep
  by_cases htake : e = .takeSnoop
  · subst htake
    obtain rfl := pure_eq_ok.mp hstep
    have hcore : ({ m.bank with SnoopOut := m.bank.SnoopOut.dequeue } : Controller cfg).core =
        { m.bank.core with snoops := m.bank.core.snoops.tail } := by
      simp only [core, unfinalized, MessageQueue.dequeue_theQueue]
    rw [hcore]
    exact ledger_taken hledger
  · have hother : (∀ t, e ≠ .reply t) → m.owedAfter bank e = m.owed := by
      intro hnot
      unfold owedAfter
      split
      · exact absurd rfl htake
      · exact absurd rfl (hnot _)
      · rfl
    have hlength : bank.theMAFPipeline.length = bank.core.waiting.length := rfl
    change Ledger bank.core (m.owedAfter bank e)
    generalize bank.core = k' at hmoves hlength
    cases hmoves with
    | idle =>
      have howed : m.owedAfter bank e = m.owed := by
        cases e with
        | reply t =>
          have hsame : bank.theMAFPipeline.length = m.bank.theMAFPipeline.length := hlength
          simp [owedAfter, hsame]
        | _ => exact hother (by simp)
      rw [howed]
      exact hledger
    | start hstarts =>
      refine ledger_started hsound hstarts (fun a => ?_) hledger
      cases e with
      | reply t =>
        have hlonger : bank.theMAFPipeline.length ≠ m.bank.theMAFPipeline.length := by
          rw [hlength]
          simp [core]
        simp only [owedAfter, acknowledging, hlonger, ne_eq, not_false_eq_true, and_true]
        by_cases hack : t.msg.type = .EvictAck
        · have hmem := hacks t rfl hack
          simp only [hack, if_true, true_and]
          rw [List.count_erase]
          by_cases ha : t.msg.address = a
          · have hpos := List.count_pos_iff.mpr (ha ▸ hmem)
            simp [ha]
            omega
          · simp [ha]
        · simp [hack]
      | _ =>
        rw [hother (by simp)]
        rfl
    | @handled p q rest s hwaiting hhandle =>
      rw [hother (by simp)]
      have hp : p ∈ m.bank.core.waiting := hwaiting ▸ List.mem_cons_self
      have hfree := hleaves rfl p (by rw [show m.bank.theMAFPipeline = p :: rest from hwaiting]; rfl)
      exact ledger_handled hwaiting (fresh_of_reachable hbank p hp) (quiet_of_reachable hbank p hp) hsound
        (orderly_of_reachable hbank) hfree hhandle hledger
    | @evicted p rest hwaiting htype =>
      rw [hother (by simp)]
      have hp : p ∈ m.bank.core.waiting := hwaiting ▸ List.mem_cons_self
      exact ledger_evicted hwaiting (fresh_of_reachable hbank p hp) (quiet_of_reachable hbank p hp) htype hledger
    | finalized hfinal hpending hmaf =>
      have hnot : ∀ t, e ≠ .reply t := by
        rintro t rfl
        simp [finalizing] at hfinal
      rw [hother hnot]
      exact ledger_finalized hsound hpending (Policy.finalizeMAF_finalized hmaf) hledger
    | taken => exact absurd rfl htake

theorem ledger_of_reachable (hreach : Reachable m) : Ledger m.bank.core m.owed := by
  refine Reaches.invariant_given (I := fun m : WithMemory cfg => m.bank.Reachable)
    (J := fun m => Ledger m.bank.core m.owed) (fun m h => bank_of_reachable h) ?_ ?_ hreach
  · intro a
    rfl
  · intro m e m' hbank hledger hmeets hok
    exact step_ledger hbank hledger hmeets.1 hmeets.2 hok

/-- The process handles an acknowledgement for the block. -/
def isAckFor (a : MemoryAddress) (p : ProcessEntry) : Prop :=
  p.type = .eProcReply ∧ p.transport.msg.type = .EvictAck ∧ p.transport.msg.address = a

instance : Decidable (isAckFor a p) := inferInstanceAs (Decidable (_ ∧ _))

/-- An acknowledgement that waits in the pipeline is due: its block is being written back. -/
theorem writingBack_of_isAckFor (hledger : Ledger k owed) (hp : p ∈ k.waiting) (hack : isAckFor a p) :
    k.policy.writingBack a = true := by
  have howes : owes a p = 1 := by
    obtain ⟨htype, hevictAck, haddress⟩ := hack
    simp [owes, htype, hevictAck, haddress]
  have hsum : 1 ≤ (k.waiting.map (owes a)).sum :=
    howes ▸ List.single_le_sum (fun _ _ => Nat.zero_le _) _ (List.mem_map_of_mem hp)
  have hcount := hledger a
  unfold underWay at hcount
  cases hback : k.policy.writingBack a with
  | true => rfl
  | false =>
    rw [hback] at hcount
    simp only [Bool.toNat_false] at hcount
    omega

/-- The acknowledgement of a write-back that is under way is handled without a fault. -/
theorem handleReply_ok_of_isAckFor (hack : isAckFor a p) (hback : s.writingBack a = true) :
    ∃ s' q, s.handleReply p = .ok (s', q) := by
  obtain ⟨_, htype, rfl⟩ := hack
  obtain ⟨entry, hentry, hpending⟩ := Policy.writingBack_iff.mp hback
  simp only [Policy.handleReply, htype, Policy.handleEvictAck, hentry, hpending]
  exact ⟨_, _, rfl⟩

/-- A handler that does not interfere keeps a pending entry, unless it acknowledges it. -/
theorem handle_keeps_pending {entry : EvictEntry} (hfresh : Fresh p) (hsound : s.Sound)
    (horderly : Orderly cfg s.theMAF.ticket) (hfree : interferes s p = false) (hnot : ¬ isAckFor a p)
    (hok : handle reserve s p = .ok (s', q)) (hentry : s.theCacheEvictBuffer.find a = some entry)
    (hpending : entry.pending = true) : s'.theCacheEvictBuffer.find a = some entry := by
  have heffects := handle_effects hfresh hsound horderly hok
  have hback : s.writingBack a = true := Policy.writingBack_iff.mpr ⟨entry, hentry, hpending⟩
  unfold interferes at hfree
  unfold causes at heffects
  refine heffects.pending_kept hsound hentry hpending ?_ ?_ ?_
  · cases htype : p.type with
    | eProcRequest =>
      simp only [htype] at hfree ⊢
      exact not_storing_of_writingBack hfree hback
    | eProcWakeMAF =>
      simp only [htype] at hfree ⊢
      exact not_storing_of_writingBack hfree hback
    | _ => exact id
  · cases htype : p.type with
    | eProcReply =>
      simp only [htype, Policy.ownsOver, Bool.and_eq_false_iff, Bool.or_eq_false_iff,
        beq_eq_false_iff_ne] at hfree ⊢
      rintro ⟨hacked, rfl⟩
      rcases hfree with hfree | hfree
      · rcases hacked with hacked | hacked
        · exact hfree.1 hacked
        · exact hfree.2 hacked
      · rw [hback] at hfree
        cases hfree
    | _ => exact id
  · cases htype : p.type with
    | eProcReply =>
      rintro ⟨hevictAck, rfl⟩
      exact hnot ⟨htype, hevictAck, rfl⟩
    | _ => exact id

/-- In every run of the bank in which no eviction by a core fills the array with a block that
    is being written back, and no core becomes the owner of such a block, every
    acknowledgement finds the pending entry of its block, and no step changes or removes a
    pending entry except the handler of its acknowledgement. -/
theorem writeBack_kept_until_acknowledged (hreach : Reachable m) :
    (∀ p ∈ m.bank.theMAFPipeline, ∀ a, isAckFor a p →
      (∃ entry, m.bank.thePolicy.theCacheEvictBuffer.find a = some entry ∧ entry.pending = true) ∧
        ∃ s' q, m.bank.thePolicy.handleReply p = .ok (s', q)) ∧
    ∀ e m' a entry, Acknowledges m e → LeavesWriteBacks m e → m.step e = .ok m' →
      m.bank.thePolicy.theCacheEvictBuffer.find a = some entry → entry.pending = true →
      m'.bank.thePolicy.theCacheEvictBuffer.find a = some entry ∨
        (e = .advanceMAF ∧ ∃ p ∈ m.bank.theMAFPipeline.head?, isAckFor a p) := by
  have hbank := bank_of_reachable hreach
  have hledger := ledger_of_reachable hreach
  have hsound := sound_of_reachable hbank
  constructor
  · intro p hp a hack
    have hback := writingBack_of_isAckFor hledger hp hack
    exact ⟨Policy.writingBack_iff.mp hback, handleReply_ok_of_isAckFor hack hback⟩
  · intro e m' a entry _ hleaves hok hentry hpending
    obtain ⟨bank, hstep, hpure⟩ := bind_eq_ok.mp hok
    obtain rfl := pure_eq_ok.mp hpure
    have hmoves := step_moves hstep
    have hpolicy : bank.thePolicy = bank.core.policy := rfl
    rw [show (WithMemory.mk bank (m.owedAfter bank e)).bank.thePolicy = bank.core.policy from hpolicy]
    generalize bank.core = k' at hmoves
    cases hmoves with
    | idle => exact .inl hentry
    | start hstarts =>
      have heffects := hstarts.effects (w := { marks := fun _ => True, recalls := fun _ => True })
        (fun _ _ => trivial) fun _ _ _ => trivial
      exact .inl (heffects.pending_kept hsound hentry hpending id id id)
    | @handled p q rest s hwaiting hhandle =>
      have hhead : m.bank.theMAFPipeline.head? = some p := by
        rw [show m.bank.theMAFPipeline = p :: rest from hwaiting]
        rfl
      by_cases hack : isAckFor a p
      · exact .inr ⟨rfl, p, hhead, hack⟩
      · have hp : p ∈ m.bank.core.waiting := hwaiting ▸ List.mem_cons_self
        exact .inl (handle_keeps_pending (fresh_of_reachable hbank p hp) hsound (orderly_of_reachable hbank)
          (hleaves rfl p hhead) hack hhandle hentry hpending)
    | evicted _ _ => exact .inl hentry
    | finalized _ _ hmaf =>
      have heffects := (Policy.finalizeMAF_finalized hmaf).effects
      exact .inl (heffects.pending_kept hsound hentry hpending id id id)
    | taken => exact .inl hentry

/-- Whether a step is one of those: the acknowledgement is due, and the next process does
    not interfere. -/
def admits (checked : Bool) (m : WithMemory cfg) (e : Event) : Bool :=
  (match e with
    | .reply t => t.msg.type != .EvictAck || m.owed.contains t.msg.address
    | .advanceMAF => !checked || m.bank.theMAFPipeline.head?.all fun p => !interferes m.bank.thePolicy p
    | _ => true)

theorem acknowledges_of_admits {checked : Bool} (h : admits checked m e = true) : Acknowledges m e := by
  rintro t rfl hack
  simpa [admits, hack] using h

theorem leavesWriteBacks_of_admits (h : admits true m e = true) : LeavesWriteBacks m e := by
  rintro rfl p hp
  rw [Option.mem_def] at hp
  simpa [admits, hp] using h

/-- Running a list of events, each of which passes a test, shows a state to be reachable
    through steps that meet the tested condition. -/
theorem exists_reaches {Meets : WithMemory cfg → Event → Prop} (test : WithMemory cfg → Event → Bool)
    (htest : ∀ m e, test m e = true → Meets m e) (es : List Event) (P : WithMemory cfg → Bool)
    (h : (Runs.runWhile step test (create cfg) es).any P = true) :
    ∃ m : WithMemory cfg, Runs.Reaches step Meets (create cfg) m ∧ P m = true :=
  Runs.exists_reaches htest h

/-- A core reads a block, which leaves the array for another one; the bank writes it back
    and memory receives it. -/
def writeBackOfExclusive : List Event :=
  readThrough 64 0 ++ readThrough 128 1 ++ [.idleWork, .advanceMAF, .advanceDirTag, .takeSnoop, .takeSnoop,
    .takeSnoop]

/-- Memory acknowledges the write-back, and the acknowledgement finds its entry. -/
theorem writeBack_kept_until_acknowledged_exclusive :
    ∃ (m : WithMemory (smallBank true)) (p : ProcessEntry), Reachable m ∧ p ∈ m.bank.theMAFPipeline ∧
      isAckFor 64 p ∧ ∃ s' q, m.bank.thePolicy.handleReply p = .ok (s', q) := by
  obtain ⟨m, hreach, hrun⟩ := exists_reaches (admits true)
    (fun m e h => And.intro (acknowledges_of_admits h) (leavesWriteBacks_of_admits h))
    (writeBackOfExclusive ++ [.reply (message .EvictAck 64 0)])
    (fun m : WithMemory (smallBank true) => m.bank.theMAFPipeline.any fun p => decide (isAckFor 64 p))
    (by decide +kernel)
  obtain ⟨p, hp, hack⟩ := List.any_eq_true.mp hrun
  rw [decide_eq_true_eq] at hack
  exact ⟨m, p, hreach, hp, hack, ((writeBack_kept_until_acknowledged hreach).1 p hp 64 hack).2⟩

/-- The core has changed the block meanwhile and gives it up: its data fills the array, the
    pending entry is gone, and the acknowledgement runs into an assertion. -/
theorem writeBack_entry_lost_to_eviction :
    ¬ ∀ m : WithMemory (smallBank true), Runs.Reaches step Acknowledges (create (smallBank true)) m →
      ∀ p ∈ m.bank.theMAFPipeline, isAckFor 64 p → ∃ s' q, m.bank.thePolicy.handleReply p = .ok (s', q) := by
  intro hall
  obtain ⟨m, hreach, hrun⟩ := exists_reaches (admits false) (fun m e h => acknowledges_of_admits h)
    (writeBackOfExclusive ++ through (.request (message .EvictDirty 64 0)) ++
      [.reply (message .EvictAck 64 0)])
    (fun m : WithMemory (smallBank true) => m.bank.theMAFPipeline.any fun p => decide (isAckFor 64 p) &&
      match m.bank.thePolicy.handleReply p with
      | .ok _ => false
      | .error f => f == .evictAckWithoutEntry) (by decide +kernel)
  obtain ⟨p, hp, hfault⟩ := List.any_eq_true.mp hrun
  rw [Bool.and_eq_true, decide_eq_true_eq] at hfault
  obtain ⟨s', q, hok⟩ := hall m hreach p hp hfault.1
  rw [hok] at hfault
  cases hfault.2

end WithMemory

end Controller

end nCMPCache
