import Flexus.CmpCache.Active
import Flexus.CmpCache.Grants

/-!
# Data that arrives for the array

When data for a block arrives and the array has no copy of it, the program asserts that the block is
not in the evict buffer.
-/

namespace nCMPCache

open Runs

namespace Policy

variable {cfg : CMPCacheInfo} {s s' : Policy cfg} {p q : ProcessEntry} {a x : MemoryAddress} {w : Causes}
  {f : Fault}

/-- Data may arrive for the block: a request is active, or cores have been told to
    invalidate it for the directory. -/
def awaited (s : Policy cfg) (a : MemoryAddress) : Prop :=
  (∃ i u, s.theMAF.ticket i = some u ∧ u.At a .eWaitAck) ∨
    ∃ d, s.theDirEvictBuffer.find a = some d ∧ 0 < d.invalidatesPending

/-- No block that data may arrive for is in the evict buffer. -/
def Unhindered (s : Policy cfg) : Prop := ∀ a, s.awaited a → s.theCacheEvictBuffer.find a = none

/-! ## What the handlers do to these blocks -/

/-- Only a block that leaves the array gets an entry in the evict buffer. -/
theorem Effect.absent (h : Effect w s s') (hnone : s.theCacheEvictBuffer.find x = none) (hstays : ¬ w.evicts x) :
    s'.theCacheEvictBuffer.find x = none := by
  cases h with
  | directory _ hbuffer _ => rw [hbuffer, hnone]
  | copies _ _ hmove =>
    cases hmove with
    | same _ hbuffer => rw [hbuffer, hnone]
    | changed _ _ _ hbuffer => rw [hbuffer, hnone]
    | filled hfilled _ _ hevicts =>
      rw [hfilled.buffer, if_neg, hnone]
      · simp
      · rintro ⟨hkeeps, rfl⟩
        exact hstays (hevicts hkeeps)
    | @yielded b e he _ _ hbuffer =>
      rw [hbuffer, if_neg, hnone]
      rintro rfl
      rw [he] at hnone
      cases hnone
    | @marked e he _ _ _ hbuffer =>
      rw [hbuffer, if_neg, hnone]
      rintro rfl
      rw [he] at hnone
      cases hnone
    | acknowledged _ _ _ _ hbuffer =>
      rw [hbuffer, hnone]
      simp

theorem Effects.absent (h : Effects w s s') (hnone : s.theCacheEvictBuffer.find x = none)
    (hstays : ¬ w.evicts x) : s'.theCacheEvictBuffer.find x = none := by
  induction h with
  | refl => exact hnone
  | tail _ hlast ih => exact hlast.absent ih hstays

/-- A victim of the directory has no invalidates pending yet. -/
theorem pending_of_insertVictim {b : DirEvictBuffer} {victim : Option (MemoryAddress × SimpleDirectoryState)}
    {d : DirEBEntry} (h : (insertVictim b victim).find x = some d) (hpending : 0 < d.invalidatesPending) :
    b.find x = some d := by
  cases victim with
  | none => exact h
  | some v =>
    rw [insertVictim, DirEvictBuffer.find_insert] at h
    cases hfind : b.find x with
    | some d' =>
      rw [hfind] at h
      exact h
    | none =>
      rw [hfind, Option.none_or] at h
      split at h
      · cases h
        cases hpending
      · cases h

/-- Cores are told to invalidate a block only when it is called back. -/
theorem Effect.recalled (h : Effect w s s') {d' : DirEBEntry} (hd' : s'.theDirEvictBuffer.find x = some d')
    (hpending : 0 < d'.invalidatesPending) (hnot : ¬ w.recalls x) :
    ∃ d, s.theDirEvictBuffer.find x = some d ∧ 0 < d.invalidatesPending := by
  cases h with
  | copies _ hbuffer _ =>
    rw [hbuffer] at hd'
    exact ⟨d', hd', hpending⟩
  | directory _ _ hmove =>
    cases hmove with
    | entry _ hbuffer =>
      rw [hbuffer] at hd'
      exact ⟨d', hd', hpending⟩
    | protect _ hbuffer =>
      rw [hbuffer] at hd'
      exact ⟨d', hd', hpending⟩
    | unprotect _ _ hbuffer =>
      rw [hbuffer] at hd'
      exact ⟨d', hd', hpending⟩
    | claimed _ hclaimed _ =>
      cases hclaimed with
      | kept hsame _ =>
        rw [hsame] at hd'
        exact ⟨d', hd', hpending⟩
      | allocated _ _ hbuffer =>
        rw [hbuffer] at hd'
        split at hd'
        · cases hd'
        · exact ⟨d', pending_of_insertVictim hd' hpending, hpending⟩
    | buffer _ _ _ hrecalled => exact (hrecalled hd' hpending).resolve_right hnot

theorem Effects.recalled (h : Effects w s s') {d' : DirEBEntry} (hd' : s'.theDirEvictBuffer.find x = some d')
    (hpending : 0 < d'.invalidatesPending) (hnot : ¬ w.recalls x) :
    ∃ d, s.theDirEvictBuffer.find x = some d ∧ 0 < d.invalidatesPending := by
  induction h generalizing d' with
  | refl => exact ⟨d', hd', hpending⟩
  | tail _ hlast ih =>
    obtain ⟨d, hd, hbefore⟩ := hlast.recalled hd' hpending hnot
    exact ih hd hbefore

/-- The blocks that data may arrive for stay out of the evict buffer. -/
theorem Effects.unhindered (h : Effects w s s') (hbefore : Unhindered s)
    (hactive : ∀ {i u}, s'.theMAF.ticket i = some u → u.state = .eWaitAck →
      s.theMAF.ticket i = some u ∨ s'.theCacheEvictBuffer.find u.address = none)
    (hrecalls : ∀ {x}, w.recalls x → s'.theCacheEvictBuffer.find x = none)
    (hevicts : ∀ {x}, w.evicts x → ¬ s.awaited x) : Unhindered s' := by
  have hkept : ∀ {x}, s.awaited x → s'.theCacheEvictBuffer.find x = none := by
    intro x hawaited
    exact h.absent (hbefore x hawaited) fun hevicted => hevicts hevicted hawaited
  intro x hafter
  rcases hafter with ⟨i, u, hu, rfl, hst⟩ | ⟨d', hd', hpending⟩
  · rcases hactive hu hst with hticket | hnone
    · exact hkept (.inl ⟨i, u, hticket, rfl, hst⟩)
    · exact hnone
  · by_cases hrecalled : w.recalls x
    · exact hrecalls hrecalled
    · exact hkept (.inr (h.recalled hd' hpending hrecalled))

/-! ## Faults -/

/-- The message brings data that the bank waits for: the acknowledgement of a request that
    is active, memory's answer to a read, or dirty data for the directory. -/
def awaitsData (s : Policy cfg) (p : ProcessEntry) : Prop :=
  match p.transport.msg.type with
  | .InvUpdateAck => ∃ d, s.theDirEvictBuffer.find p.transport.msg.address = some d ∧ 0 < d.invalidatesPending
  | .FetchAckDirty | .ReadAckDirty | .FetchAck | .ReadAck =>
    p.transport.msg.ackRequiresData = true ∧ ∃ maf, s.matchingMAF p.transport = .ok maf
  | .FetchReply | .MissReply | .MissReplyWritable =>
    ∃ maf, s.matchingMAF p.transport = .ok maf ∧ maf.type.isReadType = true
  | _ => False

theorem awaited_of_matchingMAF {t : MemoryTransport} {maf : MAFEntry} (h : s.matchingMAF t = .ok maf) :
    s.awaited t.msg.address := by
  obtain ⟨hticket, hat, _⟩ := matchingMAF_spec h
  exact .inl ⟨_, _, hticket, hat⟩

theorem awaited_of_awaitsData (h : s.awaitsData p) : s.awaited p.transport.msg.address := by
  unfold awaitsData at h
  split at h
  · exact .inr h
  case h_2 | h_3 | h_4 | h_5 =>
    obtain ⟨_, maf, hmatch⟩ := h
    exact awaited_of_matchingMAF hmatch
  case h_6 | h_7 | h_8 =>
    obtain ⟨maf, hmatch, _⟩ := h
    exact awaited_of_matchingMAF hmatch
  case h_9 => exact h.elim

theorem allocate_error {arr : StdArray cfg} (h : arr.allocate a = .error f) : f = .noVictim := by
  unfold StdArray.allocate at h
  split at h
  · cases h
  · split at h
    · cases h
    · cases h
      rfl

/-- Room is made without the assertion when the block is not in the evict buffer. -/
theorem makeRoom_error (hnone : s.theCacheEvictBuffer.find a = none) (h : s.makeRoom a = .error f) :
    f ≠ .blockInEvictBuffer := by
  unfold makeRoom at h
  split at h
  · rw [hnone] at h
    rcases bind_eq_error.mp h with hallocate | ⟨_, _, hpure⟩
    · simp [allocate_error hallocate]
    · cases hpure
  · cases h

theorem keepDirtyData_error (hnone : s.theCacheEvictBuffer.find a = none) (h : s.keepDirtyData a = .error f) :
    f ≠ .blockInEvictBuffer := by
  rcases bind_eq_error.mp h with hroom | ⟨_, _, hpure⟩
  · exact makeRoom_error hnone hroom
  · cases hpure

theorem keepAckData_error {req : MemoryMessage} (hnone : s.theCacheEvictBuffer.find req.address = none)
    (h : s.keepAckData req = .error f) : f ≠ .blockInEvictBuffer := by
  rcases bind_eq_error.mp h with hroom | ⟨_, _, hpure⟩
  · exact makeRoom_error hnone hroom
  · cases hpure

theorem keepMemoryData_error {req : MemoryMessage} {maf : MAFEntry}
    (hnone : s.theCacheEvictBuffer.find req.address = none) (h : s.keepMemoryData req maf = .error f) :
    f ≠ .blockInEvictBuffer := by
  rcases bind_eq_error.mp h with hroom | ⟨_, _, hpure⟩
  · exact makeRoom_error hnone hroom
  · cases hpure

theorem set_error {dir : SimpleDirectoryState} {n : Int} {b : Bool} (h : dir.set n b = .error f) :
    f = .sharerOutOfRange := by
  unfold SimpleDirectoryState.set at h
  split at h
  · cases h
  · cases h
    rfl

theorem handleInvalidateAck_error (hnone : s.theCacheEvictBuffer.find p.transport.msg.address = none)
    (h : s.handleInvalidateAck p = .error f) : f ≠ .blockInEvictBuffer := by
  have hcomplete : ∀ {s₁ : Policy cfg} {p₁ d sharers n}, s₁.completeInvalidate p₁ d sharers n = .error f →
      f ≠ .blockInEvictBuffer := by
    intro s₁ p₁ d sharers n hcomplete
    unfold completeInvalidate at hcomplete
    dsimp only at hcomplete
    split at hcomplete
    · split at hcomplete
      · cases hcomplete
        simp
      · cases hcomplete
    · cases hcomplete
  unfold handleInvalidateAck at h
  dsimp only at h
  split at h
  · cases h
    simp
  · rcases bind_eq_error.mp h with hdrop | ⟨sharers, _, h⟩
    · unfold SimpleDirectoryState.dropSharer at hdrop
      split at hdrop
      · simp [set_error hdrop]
      · cases hdrop
    · split at h
      · rcases bind_eq_error.mp h with hkeep | ⟨_, _, h⟩
        · exact keepDirtyData_error hnone hkeep
        · exact hcomplete h
      · exact hcomplete h

theorem matchingMAF_error {t : MemoryTransport} (h : s.matchingMAF t = .error f) : f = .noMatchingMAF := by
  unfold matchingMAF at h
  split at h
  · cases h
  · cases h
    rfl

theorem joinSharer_error {dir : SimpleDirectoryState} {n : Int} (h : dir.joinSharer n = .error f) :
    f = .sharerOutOfRange := by
  unfold SimpleDirectoryState.joinSharer at h
  split at h
  · cases h
  · exact set_error h

theorem handleReadAck_error (hnone : s.theCacheEvictBuffer.find p.transport.msg.address = none)
    (h : s.handleReadAck p = .error f) : f ≠ .blockInEvictBuffer := by
  rcases bind_eq_error.mp h with hmatch | ⟨maf, _, h⟩
  · simp [matchingMAF_error hmatch]
  · obtain ⟨_, hs, _⟩ := returnReservation_spec s p maf
    dsimp only at h
    split at h
    · cases h
      simp
    · rcases bind_eq_error.mp h with hjoin | ⟨sharers, _, h⟩
      · simp [joinSharer_error hjoin]
      · split at h
        · rcases bind_eq_error.mp h with hkeep | ⟨_, _, hpure⟩
          · refine keepAckData_error ?_ hkeep
            rw [hs]
            exact hnone
          · cases hpure
        · cases h

theorem handleMemoryReply_error (hnone : s.theCacheEvictBuffer.find p.transport.msg.address = none)
    (h : s.handleMemoryReply p = .error f) : f ≠ .blockInEvictBuffer := by
  rcases bind_eq_error.mp h with hmatch | ⟨maf, _, h⟩
  · simp [matchingMAF_error hmatch]
  · obtain ⟨_, hs, _⟩ := returnReservation_spec s p maf
    dsimp only at h
    split at h
    · rcases bind_eq_error.mp h with hkeep | ⟨_, _, hpure⟩
      · refine keepMemoryData_error ?_ hkeep
        rw [hs]
        exact hnone
      · cases hpure
    · cases h

/-- Data that is waited for does not run into the assertion when the block is not in the
    evict buffer. -/
theorem handleReply_awaitsData (hawaits : s.awaitsData p)
    (hnone : s.theCacheEvictBuffer.find p.transport.msg.address = none) :
    s.handleReply p ≠ .error .blockInEvictBuffer := by
  intro h
  unfold awaitsData at hawaits
  unfold handleReply at h
  split at hawaits
  case h_1 => next htype => exact handleInvalidateAck_error hnone (by simpa only [htype] using h) rfl
  case h_2 | h_3 | h_4 | h_5 =>
    next htype => exact handleReadAck_error hnone (by simpa only [htype] using h) rfl
  case h_6 | h_7 | h_8 =>
    next htype => exact handleMemoryReply_error hnone (by simpa only [htype] using h) rfl
  case h_9 => exact hawaits

end Policy

namespace Controller

variable {cfg : CMPCacheInfo} {c c' : Controller cfg} {p : ProcessEntry} {e : Event}

/-- Whether the event starts to invalidate a block for the directory. -/
def startsRecall (c : Controller cfg) : Event → Bool
  | .dirEvict =>
    !c.theIdleWorkScheduled && !c.thePolicy.theDirEvictBuffer.freeSlotsPending c.dirEBReserve &&
      c.thePolicy.theDirEvictBuffer.idleWorkReady && c.CacheEBHasSpace && c.SnoopOut.hasSpace 1
  | .idleWork =>
    c.CacheEBHasSpace && c.thePolicy.hasIdleWorkAvailable && c.SnoopOut.hasSpace 1 &&
      !c.theIdleWorkScheduled
  | _ => false

/-- No block that data may arrive for leaves the array for the evict buffer, and no block of
    the evict buffer is called back from the cores. -/
structure LeavesAwaited (c : Controller cfg) (e : Event) : Prop where
  handled : e = .advanceMAF → ∀ p ∈ c.theMAFPipeline.head?,
    ∀ x, (causes c.thePolicy p).evicts x → ¬ c.thePolicy.awaited x
  recalled : startsRecall c e = true → ∀ d,
    c.thePolicy.theDirEvictBuffer.oldestRequiringInvalidates = some d →
      c.thePolicy.theCacheEvictBuffer.find d.address = none

theorem step_of_not_startsRecall (hevent : e = .dirEvict ∨ e = .idleWork) (hnot : startsRecall c e = false)
    (hok : step c e = .ok c') : c' = c := by
  rcases hevent with rfl | rfl
  · rw [show step c .dirEvict = c.scheduleDirEvict from rfl, scheduleDirEvict, if_neg] at hok
    · exact (pure_eq_ok.mp hok).symm
    · rw [startsRecall] at hnot
      simp [hnot]
  · rw [show step c .idleWork = c.scheduleIdleWork from rfl, scheduleIdleWork, if_neg] at hok
    · exact (pure_eq_ok.mp hok).symm
    · rw [startsRecall] at hnot
      simp [hnot]

/-- The handlers call no block back by themselves. -/
theorem causes_recalls {s : Policy cfg} {x : MemoryAddress} : ¬ (causes s p).recalls x := by
  unfold causes
  split <;> exact id

theorem step_unhindered (hreach : Reachable c) (hbefore : c.thePolicy.Unhindered) (hmeets : LeavesAwaited c e)
    (hok : step c e = .ok c') : c'.thePolicy.Unhindered := by
  have hsound := sound_of_reachable hreach
  have horderly := orderly_of_reachable hreach
  by_cases hidle : (e = .dirEvict ∨ e = .idleWork) ∧ startsRecall c e = false
  · rw [step_of_not_startsRecall hidle.1 hidle.2 hok]
    exact hbefore
  · have hmoves := step_moves hok
    change c'.core.policy.Unhindered
    generalize c'.core = k' at hmoves
    cases hmoves with
    | idle => exact hbefore
    | @start _ s p hstarts =>
      have hrecalls : e = .dirEvict ∨ e = .idleWork → ∀ d,
          c.thePolicy.theDirEvictBuffer.oldestRequiringInvalidates = some d →
          c.thePolicy.theCacheEvictBuffer.find d.address = none := by
        intro hevent
        refine hmeets.recalled ?_
        by_contra hnot
        exact hidle ⟨hevent, by simpa using hnot⟩
      have heffects : Policy.Effects
          { marks := fun _ => True, recalls := fun x => c.thePolicy.theCacheEvictBuffer.find x = none }
          c.thePolicy s := hstarts.effects (fun _ _ => trivial) hrecalls
      refine heffects.unhindered hbefore ?_ ?_ ?_
      · exact fun hu hactive => .inl (starts_active hstarts hu hactive)
      · exact fun hnone => heffects.absent hnone id
      · exact fun hfalse => hfalse.elim
    | @handled p q rest s hwaiting hhandle =>
      have hp : p ∈ c.core.waiting := hwaiting ▸ List.mem_cons_self
      have hhead : p ∈ c.theMAFPipeline.head? := by
        rw [show c.theMAFPipeline = p :: rest from hwaiting]
        rfl
      have hfresh := fresh_of_reachable hreach p hp
      have heffects := handle_effects hfresh hsound horderly hhandle
      refine heffects.unhindered hbefore (fun hu hactive => ?_) ?_ ?_
      · exact (handle_active hfresh hsound horderly hhandle hu hactive).imp id Policy.Entered.absent
      · exact fun hrecalled => absurd hrecalled causes_recalls
      · exact fun hevicted => hmeets.handled rfl p hhead _ hevicted
    | evicted _ _ => exact hbefore
    | finalized _ _ hmaf =>
      have hfinal := Policy.finalizeMAF_finalized hmaf
      refine hfinal.effects.unhindered hbefore ?_ ?_ ?_
      · exact fun hu hactive => .inl (finalized_active hfinal hu hactive)
      · exact fun hfalse => hfalse.elim
      · exact fun hfalse => hfalse.elim
    | taken => exact hbefore

theorem reachable_of_reachableWhile {Meets : Controller cfg → Event → Prop} (h : ReachableWhile Meets c) :
    Reachable c :=
  h.weaken fun _ _ _ => trivial

theorem unhindered_of_reachableWhile (hreach : ReachableWhile LeavesAwaited c) : c.thePolicy.Unhindered := by
  refine Reaches.invariant_given (I := Reachable) (J := fun c => c.thePolicy.Unhindered)
    (fun c h => reachable_of_reachableWhile h) ?_ ?_ hreach
  · intro a _
    rfl
  · exact fun c e c' hreach hbefore hmeets hok => step_unhindered hreach hbefore hmeets hok

/-- In every run in which no block with an active request or with invalidates on their way
    leaves the array for the evict buffer, and no block of the evict buffer is called back
    from the cores, data that the bank waits for never finds its block in the evict
    buffer. -/
theorem dataAck_finds_no_writeBack (hreach : ReachableWhile LeavesAwaited c)
    (hawaits : c.thePolicy.awaitsData p) :
    c.thePolicy.theCacheEvictBuffer.find p.transport.msg.address = none ∧
      c.thePolicy.handleReply p ≠ .error .blockInEvictBuffer := by
  have hnone := unhindered_of_reachableWhile hreach _ (Policy.awaited_of_awaitsData hawaits)
  exact ⟨hnone, Policy.handleReply_awaitsData hawaits hnone⟩

/-- Nothing is under way for any block but the one of the next process, and the directory
    evicts nothing. -/
def onlyOwnBlock (c : Controller cfg) (e : Event) : Bool :=
  !startsRecall c e && c.thePolicy.theDirEvictBuffer.entries.isEmpty &&
    c.theMAFPipeline.all fun p => p.type != .eProcWakeMAF &&
      c.thePolicy.theMAF.entries.all fun x => x.address == cfg.blockAddress p.transport.msg.address

/-- The block that makes room for another one is not that block. -/
theorem ne_of_displaces {s : Policy cfg} {a x : MemoryAddress} (h : s.Displaces a x) :
    x ≠ cfg.blockAddress a := by
  obtain ⟨hinvalid, cache, vstate, hallocate, hkeeps⟩ := h
  exact ((StdArray.allocate_spec hinvalid hallocate).2.2.1 hkeeps.1).2.2.1

theorem leavesAwaited_of_onlyOwnBlock (c : Controller cfg) (e : Event) (h : onlyOwnBlock c e = true) :
    LeavesAwaited c e := by
  simp only [onlyOwnBlock, Bool.and_eq_true, Bool.not_eq_true', List.isEmpty_iff, List.all_eq_true, bne_iff_ne,
    beq_iff_eq] at h
  obtain ⟨⟨hnot, hempty⟩, hown⟩ := h
  refine ⟨fun _ p hp x hevicts => ?_, fun hstarts => by rw [hnot] at hstarts; cases hstarts⟩
  obtain ⟨htype, haddress⟩ := hown p (List.mem_of_mem_head? hp)
  have hother : x ≠ cfg.blockAddress p.transport.msg.address := by
    unfold causes at hevicts
    split at hevicts
    · next hwake => exact absurd hwake htype
    · rcases hevicts with ⟨_, hdisplaces⟩ | ⟨_, hdisplaces⟩
      · exact ne_of_displaces hdisplaces
      · have hne := ne_of_displaces hdisplaces
        rwa [CMPCacheInfo.blockAddress_blockAddress] at hne
    · exact ne_of_displaces hevicts.2
    · exact hevicts.elim
    · exact hevicts.elim
  rintro (⟨i, u, hu, rfl, _⟩ | ⟨d, hd, _⟩)
  · obtain ⟨entry, hentry, _, rfl⟩ := MissAddressFile.ticket_eq_some.mp hu
    exact hother (haddress entry hentry)
  · have hmem := (Keyed.mem_of_lookup hd).1
    rw [hempty] at hmem
    cases hmem

/-- The acknowledgement of a read, with the data. -/
def readAckWithData (a : MemoryAddress) (core : Int) : MemoryTransport :=
  { message .ReadAck a core with msg := { type := .ReadAck, address := a, ackRequiresData := true } }

/-- A core reads a block that another one has changed, and acknowledges it with the data. -/
theorem dataAck_finds_no_writeBack_sharedRead :
    ∃ (c : Controller (smallBank true)) (p : ProcessEntry), ReachableWhile LeavesAwaited c ∧
      c.thePolicy.awaitsData p ∧ c.thePolicy.theCache.state p.transport.msg.address = .Invalid ∧
      c.thePolicy.handleReply p ≠ .error .blockInEvictBuffer := by
  obtain ⟨c, hreach, hrun⟩ := exists_reachableWhile onlyOwnBlock leavesAwaited_of_onlyOwnBlock
    (through (.request (message .WriteReq 64 0)) ++ through (.reply (message .MissReplyWritable 64 0)) ++
      through (.reply (message .WriteAck 64 0)) ++ through (.request (message .ReadReq 64 1)))
    (fun c : Controller (smallBank true) => c.thePolicy.theCache.state 64 == .Invalid &&
      (c.thePolicy.matchingMAF (readAckWithData 64 1)).isOk) (by decide +kernel)
  simp only [Bool.and_eq_true, beq_iff_eq] at hrun
  have hawaits : c.thePolicy.awaitsData { type := .eProcReply, transport := readAckWithData 64 1 } := by
    refine ⟨rfl, ?_⟩
    cases hmatch : c.thePolicy.matchingMAF (readAckWithData 64 1) with
    | ok maf => exact ⟨maf, rfl⟩
    | error f => simp [hmatch, Except.isOk, Except.toBool] at hrun
  exact ⟨c, _, hreach, hawaits, hrun.1, (dataAck_finds_no_writeBack hreach hawaits).2⟩

/-- The owner writes the block back to the bank while the read is on its way, another block
    takes its place in the array, and the acknowledgement of the read finds it in the evict
    buffer. -/
theorem dataAck_finds_displaced_block :
    ¬ ∀ (c : Controller (smallBank false)) (p : ProcessEntry), Reachable c → c.thePolicy.awaitsData p →
      c.thePolicy.theCache.state p.transport.msg.address = .Invalid →
      c.thePolicy.theCacheEvictBuffer.find p.transport.msg.address = none := by
  intro hall
  obtain ⟨c, hreach, hrun⟩ := exists_reachable (writeBackDuringRead ++ readThrough 128 2)
    (fun c : Controller (smallBank false) => c.thePolicy.theCache.state 64 == .Invalid &&
      (c.thePolicy.theCacheEvictBuffer.find 64).isSome &&
      (c.thePolicy.matchingMAF (readAckWithData 64 1)).isOk) (by decide +kernel)
  simp only [Bool.and_eq_true, beq_iff_eq] at hrun
  have hawaits : c.thePolicy.awaitsData { type := .eProcReply, transport := readAckWithData 64 1 } := by
    refine ⟨rfl, ?_⟩
    cases hmatch : c.thePolicy.matchingMAF (readAckWithData 64 1) with
    | ok maf => exact ⟨maf, rfl⟩
    | error f => simp [hmatch, Except.isOk, Except.toBool] at hrun
  have hnone := hall c _ hreach hawaits hrun.1.1
  have hsome := hrun.1.2
  rw [show c.thePolicy.theCacheEvictBuffer.find 64 = none from hnone] at hsome
  cases hsome

end Controller

end nCMPCache
