import Flexus.CmpCache.Stalls
import Flexus.CmpCache.AckCounts

/-!
# Granting permission to write

A core that may write a block makes the bank's own copy out of date without telling it.
-/

namespace nCMPCache

open Runs

/-- The answers that give a core permission to write. -/
def MemoryMessageType.grantsWritable : MemoryMessageType → Bool
  | .MissReplyWritable | .MissReplyDirty | .UpgradeReply | .MissNotify | .MissNotifyData => true
  | _ => false

namespace Policy

variable {cfg : CMPCacheInfo} {s s' s₁ : Policy cfg} {p q : ProcessEntry} {hasMaf mafWaiting : Bool}
  {a : MemoryAddress} {reserve : Int} {dir : SimpleDirectoryState} {t : MemoryTransport}

/-- The array has no copy of the block that it would answer from while a core is the only
    sharer. -/
def Retired (s : Policy cfg) (a : MemoryAddress) : Prop :=
  s.theCache.state a = .Invalid ∨ s.theCache.state a = .Exclusive

instance : Decidable (Retired s a) := inferInstanceAs (Decidable (_ ∨ _))

/-- Whether a process that grants permission to write retires the copy: a forward that came
    back must not find the bank's copy dirty; memory's answer must not be for a fetch, nor
    for a write while the array has a copy to answer from. -/
def retires (s : Policy cfg) (p : ProcessEntry) : Bool :=
  p.type != .eProcReply ||
    match p.transport.msg.type with
    | .FwdNAck => s.l2State p.transport.msg.address != .Modified
    | .MissReplyWritable =>
      match s.matchingMAF p.transport with
      | .ok maf =>
        if maf.type.isReadType then maf.type != .FetchReq
        else decide (s.Retired p.transport.msg.address)
      | .error _ => true
    | _ => true

/-! ## Requests -/

/-- A request was answered with permission to write: the answer is about its block, the
    array's copy is retired. -/
structure Granted (s' : Policy cfg) (a : MemoryAddress) (t : MemoryTransport) : Prop where
  address : t.msg.address = a
  retired : s'.Retired a

/-- A branch that ends with an active request leaves the array and the answer as they are. -/
theorem activate_answer {p₁ : ProcessEntry} (hok : s₁.activate p₁ hasMaf a = .ok (s', q)) :
    s'.theCache = s₁.theCache ∧ q.replyTransport = p₁.replyTransport := by
  obtain ⟨hs, i, rfl, _⟩ := activate_spec hok
  exact ⟨by rw [hs], rfl⟩

theorem stall_reply {st : MAFState} (hok : s.stall p hasMaf a st = .ok (s', q)) :
    q.replyTransport = p.replyTransport := by
  rw [(stall_spec hok).2.1]

theorem granted_serveUntrackedStore (hnone : p.replyTransport = none)
    (hok : s.serveUntrackedStore p hasMaf a = .ok (s', q)) (ht : q.replyTransport = some t)
    (hgrant : t.msg.type.grantsWritable = true) : Granted s' a t := by
  unfold serveUntrackedStore at hok
  split at hok
  · rw [(activate_answer hok).2] at ht
    cases ht
    cases hgrant
  · rw [(activate_answer hok).2] at ht
    exact absurd (hnone.symm.trans ht) (by simp)

theorem granted_serveStore (hnone : p.replyTransport = none)
    (hok : s.serveStore p hasMaf a = .ok (s', q)) (ht : q.replyTransport = some t)
    (hgrant : t.msg.type.grantsWritable = true) : Granted s' a t := by
  unfold serveStore at hok
  split at hok
  · rw [(activate_answer hok).2] at ht
    exact absurd (hnone.symm.trans ht) (by simp)
  · rw [(activate_answer hok).2] at ht
    cases ht
    cases hgrant

theorem granted_serveFromMemory (hinvalid : s.theCache.state a = .Invalid) (hnone : p.replyTransport = none)
    (hok : s.serveFromMemory p hasMaf mafWaiting a = .ok (s', q)) (ht : q.replyTransport = some t) :
    Granted s' a t := by
  unfold serveFromMemory at hok
  split at hok
  · rw [stall_reply hok] at ht
    exact absurd (hnone.symm.trans ht) (by simp)
  · split at hok
    · obtain ⟨hcache, hreply⟩ := activate_answer hok
      rw [hreply] at ht
      cases ht
      exact ⟨rfl, .inl (by rw [hcache]; exact hinvalid)⟩
    case h_2 | h_3 =>
      obtain ⟨⟨s₁, p₁⟩, hactivate, hpure⟩ := bind_eq_ok.mp hok
      obtain ⟨rfl, rfl⟩ := Prod.mk.inj (pure_eq_ok.mp hpure)
      have hreply : p₁.replyTransport = none := (activate_answer hactivate).2.trans hnone
      exact absurd (hreply.symm.trans ht) (by simp)
    · rw [(activate_answer hok).2] at ht
      exact absurd (hnone.symm.trans ht) (by simp)
    · cases hok

/-- The copy that a read is answered from with permission to write was dirty and is gone,
    or it is exclusive. -/
theorem retired_passDirty (hcopies : Copies s) (hanswer : needsForward (s.theCache.state a) dir = false)
    {type : MemoryMessageType} (hgrants : grantsWrite (s.theCache.state a) dir type = true) :
    (s.passDirty a true).Retired a := by
  have hplain := hcopies.plain a
  simp only [grantsWrite, Bool.and_eq_true, bne_iff_ne] at hgrants
  unfold passDirty
  split
  · next hdirty =>
    simp only [Bool.true_and, beq_iff_eq] at hdirty
    have hvalid : s.theCache.state a ≠ .Invalid := by simp [hdirty]
    left
    rw [StdArray.state_invalidateBlock, StdArray.state_setState (StdArray.way_isSome_of_state hvalid),
      if_pos rfl]
  · next hclean =>
    simp only [Bool.true_and, beq_iff_eq] at hclean
    right
    cases hstate : s.theCache.state a <;>
      simp_all [CacheState.plain, needsForward]

theorem granted_serveRead (hcopies : Copies s) (hnone : p.replyTransport = none)
    (hok : s.serveRead p hasMaf mafWaiting a dir = .ok (s', q)) (ht : q.replyTransport = some t)
    (hgrant : t.msg.type.grantsWritable = true) : Granted s' a t := by
  unfold serveRead at hok
  split at hok
  · split at hok
    · rw [stall_reply hok] at ht
      exact absurd (hnone.symm.trans ht) (by simp)
    · obtain ⟨⟨s₁, p₁⟩, hactivate, hpure⟩ := bind_eq_ok.mp hok
      obtain ⟨rfl, rfl⟩ := Prod.mk.inj (pure_eq_ok.mp hpure)
      have hreply : p₁.replyTransport = none := (activate_answer hactivate).2.trans hnone
      exact absurd (hreply.symm.trans ht) (by simp)
  · next hanswer =>
    split at hok
    · rw [stall_reply hok] at ht
      exact absurd (hnone.symm.trans ht) (by simp)
    · obtain ⟨sharers, _, hok⟩ := bind_eq_ok.mp hok
      obtain ⟨hcache, hreply⟩ := activate_answer hok
      rw [hreply] at ht
      cases ht
      have hgrants : grantsWrite (s.theCache.state a) dir p.transport.msg.type = true := by
        by_contra hno
        simp only [ProcessEntry.derive, readReplyType, hno] at hgrant
        split at hgrant <;> cases hgrant
      have hretired := retired_passDirty hcopies (by simpa using hanswer) hgrants
      refine ⟨rfl, ?_⟩
      simp only [Retired, hcache, StdArray.state_recordAccess, hgrants]
      exact hretired

/-- A copy that is dropped is gone. -/
theorem state_dropCopy : (s.dropCopy a).theCache.state a = .Invalid := by
  unfold dropCopy
  split
  · next hvalid =>
    rw [StdArray.state_setState (StdArray.way_isSome_of_state hvalid), if_pos rfl]
  · next hinvalid => exact not_not.mp hinvalid

theorem granted_serveWrite (hok : s.serveWrite p hasMaf a dir = .ok (s', q))
    (ht : q.replyTransport = some t) : Granted s' a t := by
  unfold serveWrite at hok
  split at hok
  · obtain ⟨sharers, _, hok⟩ := bind_eq_ok.mp hok
    obtain ⟨hcache, hreply⟩ := activate_answer hok
    rw [hreply] at ht
    cases ht
    refine ⟨rfl, .inl ?_⟩
    rw [hcache, StdArray.state_recordAccess]
    split
    · next hvalid =>
      rw [StdArray.state_invalidateBlock, StdArray.state_setState (StdArray.way_isSome_of_state hvalid),
        if_pos rfl]
    · next hinvalid => exact not_not.mp hinvalid
  · unfold invalidateSharers at hok
    dsimp only at hok
    split at hok
    · cases hok
    · obtain ⟨hcache, hreply⟩ := activate_answer hok
      rw [hreply] at ht
      cases ht
      exact ⟨rfl, .inl (by rw [hcache]; exact state_dropCopy)⟩

theorem granted_serveUpgrade (hok : s.serveUpgrade p hasMaf a dir = .ok (s', q))
    (ht : q.replyTransport = some t) : Granted s' a t := by
  unfold serveUpgrade at hok
  split at hok
  · split at hok
    · cases hok
    · obtain ⟨hcache, hreply⟩ := activate_answer hok
      rw [hreply] at ht
      cases ht
      exact ⟨rfl, .inl (by rw [hcache]; exact state_dropCopy)⟩
  · obtain ⟨hcache, hreply⟩ := activate_answer hok
    rw [hreply] at ht
    cases ht
    exact ⟨rfl, .inl (by rw [hcache]; exact state_dropCopy)⟩

theorem granted_serveRequest (hcopies : Copies s) (hnone : p.replyTransport = none)
    (hok : s.serveRequest p hasMaf mafWaiting a = .ok (s', q)) (ht : q.replyTransport = some t)
    (hgrant : t.msg.type.grantsWritable = true) : Granted s' a t := by
  unfold serveRequest at hok
  split at hok
  · split at hok
    · exact granted_serveUntrackedStore hnone hok ht hgrant
    · cases hok
  · next block _ =>
    have hprotected : Copies (s.protectEntry p.transport.msg.type a) := by
      unfold protectEntry
      split
      · exact hcopies
      · exact ⟨hcopies.apart, hcopies.plain, hcopies.kept⟩
    have hreply : (convertUpgrade p block.state).replyTransport = none := by
      unfold convertUpgrade
      split <;> exact hnone
    dsimp only at hok
    split at hok
    · next hmemory => exact granted_serveFromMemory hmemory.2 hreply hok ht
    · split at hok
      case h_1 | h_2 => exact granted_serveRead hprotected hreply hok ht hgrant
      · exact granted_serveWrite hok ht
      · exact granted_serveUpgrade hok ht
      · exact granted_serveStore hreply hok ht hgrant
      · cases hok

/-- A request or woken request that is answered with permission to write leaves a retired
    copy. -/
theorem doRequest_granted (hsound : Sound s) (hreserved : 0 < p.cacheEBReserved)
    (hnone : p.replyTransport = none) (hok : doRequest reserve s p hasMaf = .ok (s', q))
    (ht : q.replyTransport = some t) (hgrant : t.msg.type.grantsWritable = true) :
    s'.Retired t.msg.address := by
  have hunanswered : q.replyTransport ≠ p.replyTransport := by
    rw [ht, hnone]
    simp
  cases hevict : p.transport.msg.type.isEvictType with
  | false =>
    have hgranted : Granted s' (cfg.blockAddress p.transport.msg.address) t := by
      cases doRequest_requested hevict hok with
      | redundant _ _ => exact absurd rfl hunanswered
      | queued _ hstall => exact absurd (stall_reply hstall) hunanswered
      | noEntry _ _ hstall => exact absurd (stall_reply hstall) hunanswered
      | writtenBack _ _ _ hstall => exact absurd (stall_reply hstall) hunanswered
      | served _ hclaim hcache hserve =>
        have haligned := cfg.blockAddress_blockAddress p.transport.msg.address
        have hclaimed : Effects {} s _ := effects_claimDirEntry haligned hclaim
        have hsound₁ := hclaimed.sound hsound
        have hrecovered : Effects { evicts := fun _ => True } _ _ :=
          effects_claimCacheBlock hsound₁.copies (fun _ _ _ _ _ => trivial) hcache
        exact granted_serveRequest (hrecovered.sound hsound₁).copies hnone hserve ht hgrant
    rw [hgranted.address]
    exact hgranted.retired
  | true =>
    rcases doRequest_evict hevict hok with ⟨_, _, hstall⟩ | ⟨_, hdo⟩
    · exact absurd (stall_reply hstall) hunanswered
    · cases hwaits : s.evictWaits p with
      | true => exact absurd (stall_reply (doEvict_waits hwaits hdo)) hunanswered
      | false => exact absurd (doEvict_evicted hwaits hreserved hdo).reply hunanswered

/-! ## Replies -/

theorem reply_wakeWaitEvict : (s.wakeWaitEvict p a).2.replyTransport = p.replyTransport :=
  (wakeWaitEvict_spec s p a).2.2.2.1

theorem reply_completeInvalidate {d : DirEBEntry} {sharers : SimpleDirectoryState} {n : Int}
    (hok : s.completeInvalidate p d sharers n = .ok (s', q)) : q.replyTransport = p.replyTransport := by
  unfold completeInvalidate at hok
  dsimp only at hok
  split at hok
  · split at hok
    · cases hok
    · simp only [Except.ok.injEq] at hok
      have hq : _ = q := congrArg Prod.snd hok
      rw [← hq, reply_wakeWaitEvict]
      split <;> rfl
  · cases hok
    rfl

theorem reply_handleInvalidateAck (hok : s.handleInvalidateAck p = .ok (s', q)) :
    q.replyTransport = p.replyTransport := by
  unfold handleInvalidateAck at hok
  dsimp only at hok
  split at hok
  · cases hok
  · obtain ⟨sharers, _, hok⟩ := bind_eq_ok.mp hok
    split at hok
    · obtain ⟨s₁, _, hok⟩ := bind_eq_ok.mp hok
      have hreply := reply_completeInvalidate hok
      exact hreply
    · exact reply_completeInvalidate hok

theorem reply_returnReservation {maf : MAFEntry} :
    (s.returnReservation p maf).2.replyTransport = p.replyTransport := by
  rw [(returnReservation_spec s p maf).2.2]

theorem reply_handleReadAck (hok : s.handleReadAck p = .ok (s', q)) :
    q.replyTransport = p.replyTransport := by
  obtain ⟨maf, _, hok⟩ := bind_eq_ok.mp hok
  dsimp only at hok
  split at hok
  · cases hok
  · obtain ⟨sharers, _, hok⟩ := bind_eq_ok.mp hok
    split at hok
    · obtain ⟨s₁, _, hpure⟩ := bind_eq_ok.mp hok
      obtain ⟨rfl, rfl⟩ := Prod.mk.inj (pure_eq_ok.mp hpure)
      exact reply_returnReservation
    · obtain ⟨rfl, rfl⟩ := Prod.mk.inj (pure_eq_ok.mp hok)
      exact reply_returnReservation

theorem reply_handleNASAck (hok : s.handleNASAck p = .ok (s', q)) :
    q.replyTransport = p.replyTransport := by
  obtain ⟨maf, _, hok⟩ := bind_eq_ok.mp hok
  dsimp only at hok
  obtain ⟨rfl, rfl⟩ := Prod.mk.inj (pure_eq_ok.mp hok)
  exact reply_returnReservation

theorem reply_handleOwnershipAck {type : MemoryMessageType}
    (hok : handleOwnershipAck type s p = .ok (s', q)) : q.replyTransport = p.replyTransport := by
  obtain ⟨maf, _, hok⟩ := bind_eq_ok.mp hok
  dsimp only at hok
  split at hok
  · cases hok
  · obtain ⟨sharers, _, hok⟩ := bind_eq_ok.mp hok
    obtain ⟨rfl, rfl⟩ := Prod.mk.inj (pure_eq_ok.mp hok)
    exact reply_returnReservation

theorem reply_handleEvictAck (hok : s.handleEvictAck p = .ok (s', q)) :
    q.replyTransport = p.replyTransport := by
  unfold handleEvictAck at hok
  dsimp only at hok
  split at hok
  · cases hok
  · split at hok
    · cases hok
    · simp only [Except.ok.injEq] at hok
      have hq : _ = q := congrArg Prod.snd hok
      rw [← hq, reply_wakeWaitEvict]

theorem reply_handleIdleWork (hok : s.handleIdleWork p = .ok (s', q)) :
    q.replyTransport = p.replyTransport := by
  unfold handleIdleWork at hok
  split at hok
  · split at hok
    · obtain ⟨⟨s₁, t⟩, _, hpure⟩ := bind_eq_ok.mp hok
      obtain ⟨rfl, rfl⟩ := Prod.mk.inj (pure_eq_ok.mp hpure)
      rfl
    · cases hok
      rfl
  · cases hok
    rfl

/-- The block that data of memory was put into the array for has the state it was given. -/
theorem state_keepMemoryData {req : MemoryMessage} {maf : MAFEntry} (hok : s.keepMemoryData req maf = .ok s') :
    s'.theCache.state req.address =
      if maf.type ≠ .FetchReq ∧ req.type = .MissReplyWritable then .Exclusive else .Shared := by
  obtain ⟨s₁, hroom, hpure⟩ := bind_eq_ok.mp hok
  obtain rfl := pure_eq_ok.mp hpure
  have hway : (s₁.theCache.way req.address).isSome := by
    unfold makeRoom at hroom
    split at hroom
    · next hinvalid =>
      split at hroom
      · cases hroom
      · obtain ⟨⟨cache, vtag, vstate⟩, hallocate, hpure⟩ := bind_eq_ok.mp hroom
        obtain rfl := pure_eq_ok.mp hpure
        rw [evictCacheBlock_frame]
        exact (StdArray.allocate_spec hinvalid hallocate).1
    · next hvalid =>
      cases hroom
      exact StdArray.way_isSome_of_state hvalid
  exact (StdArray.state_setState hway).trans (if_pos rfl)

/-- Memory's answer for a read is kept as an exclusive copy, for a fetch as a shared one,
    and for a write the array stays as it is. -/
theorem handleMemoryReply_retired_iff (hok : s.handleMemoryReply p = .ok (s', q))
    (ht : q.replyTransport = some t) (hgrant : t.msg.type.grantsWritable = true) :
    t.msg.address = p.transport.msg.address ∧ p.transport.msg.type.grantsWritable = true ∧
      ∃ maf, s.matchingMAF p.transport = .ok maf ∧
        (p.transport.msg.type = .MissReplyWritable → (s'.Retired p.transport.msg.address ↔
          (if maf.type.isReadType then maf.type != .FetchReq
            else decide (s.Retired p.transport.msg.address)) = true)) := by
  obtain ⟨maf, hmatch, hok⟩ := bind_eq_ok.mp hok
  obtain ⟨_, hs, hp⟩ := returnReservation_spec s p maf
  dsimp only at hok
  split at hok
  · next hread =>
    obtain ⟨s₁, hkeep, hpure⟩ := bind_eq_ok.mp hok
    obtain ⟨rfl, rfl⟩ := Prod.mk.inj (pure_eq_ok.mp hpure)
    cases ht
    refine ⟨rfl, hgrant, maf, hmatch, fun htype => ?_⟩
    rw [Retired, state_keepMemoryData hkeep, htype, if_pos hread]
    by_cases hfetch : maf.type = .FetchReq
    · simp [hfetch]
    · simp [hfetch]
  · next hread =>
    obtain ⟨rfl, rfl⟩ := Prod.mk.inj (pure_eq_ok.mp hok)
    cases ht
    refine ⟨rfl, hgrant, maf, hmatch, fun _ => ?_⟩
    rw [if_neg hread, decide_eq_true_iff, Retired, Retired, hs]

/-- A copy that waits in the evict buffer comes back to the array in its state. -/
theorem state_recoverCopy (hcopies : Copies s) (haligned : cfg.blockAddress a = a)
    (hok : s.recoverCopy a = .ok s') (hvalid : s'.theCache.state a ≠ .Invalid) :
    s'.theCache.state a = s.l2State a := by
  unfold recoverCopy at hok
  unfold l2State
  split at hok
  · next hinvalid =>
    split at hok
    · next e he =>
      split at hok
      · cases hok
        exact absurd hinvalid hvalid
      · obtain ⟨_, vtag, vstate, _, hfilled⟩ := filled_recoverBlock hcopies hinvalid he hok
        rw [hfilled.array, if_pos rfl, hinvalid, if_pos rfl, haligned, he]
        rfl
    · cases hok
      exact absurd hinvalid hvalid
  · next hkeep =>
    cases hok
    rw [if_neg hkeep]

/-- A forward that came back is answered from the bank's copy as it is: with permission to
    write, even when it is dirty. -/
theorem handleFwdNAck_retired_iff (hsound : Sound s) (horderly : Orderly cfg s.theMAF.ticket)
    (hnone : p.replyTransport = none) (hok : s.handleFwdNAck p = .ok (s', q))
    (ht : q.replyTransport = some t) (hgrant : t.msg.type.grantsWritable = true) :
    t.msg.address = p.transport.msg.address ∧
      (s'.Retired p.transport.msg.address ↔ s.l2State p.transport.msg.address ≠ .Modified) := by
  unfold handleFwdNAck at hok
  split at hok
  · cases hok
  · next block _ =>
    obtain ⟨maf, hmatch, hok⟩ := bind_eq_ok.mp hok
    obtain ⟨s₁, hrecover, hok⟩ := bind_eq_ok.mp hok
    have haligned := aligned_of_matchingMAF horderly hmatch
    have hsound₁ := (effects_recoverCopy (w := { evicts := fun _ => True }) hsound.copies
      (fun _ _ _ _ _ => trivial) hrecover).sound hsound
    unfold retryForward at hok
    dsimp only at hok
    split at hok
    · next hvalid =>
      split at hok
      · cases hok
      · cases hok
        cases ht
        refine ⟨rfl, ?_⟩
        have hplain := hsound₁.copies.plain p.transport.msg.address
        have hshared : s₁.theCache.state p.transport.msg.address ≠ .Shared := by
          intro hshared
          simp [ProcessEntry.derive, hshared, MemoryMessageType.grantsWritable] at hgrant
        rw [Retired, StdArray.state_recordAccess, ← state_recoverCopy hsound.copies haligned hrecover hvalid]
        cases hstate : s₁.theCache.state p.transport.msg.address <;> simp_all [CacheState.plain]
    · split at hok
      · cases hok
        exact absurd (hnone.symm.trans ht) (by simp)
      · cases hok
        exact absurd (hnone.symm.trans ht) (by simp)

theorem handleReply_retired_iff (hsound : Sound s) (horderly : Orderly cfg s.theMAF.ticket)
    (hreply : p.type = .eProcReply) (hnone : p.replyTransport = none)
    (hok : s.handleReply p = .ok (s', q)) (ht : q.replyTransport = some t)
    (hgrant : t.msg.type.grantsWritable = true) :
    s'.Retired t.msg.address ↔ s.retires p = true := by
  have hunanswered : q.replyTransport ≠ p.replyTransport := by
    rw [ht, hnone]
    simp
  have hretires : s.retires p = true ↔ (match p.transport.msg.type with
      | .FwdNAck => s.l2State p.transport.msg.address != .Modified
      | .MissReplyWritable =>
        match s.matchingMAF p.transport with
        | .ok maf =>
          if maf.type.isReadType then maf.type != .FetchReq
          else decide (s.Retired p.transport.msg.address)
        | .error _ => true
      | _ => true) = true := by
    rw [retires, hreply]
    simp
  rw [hretires]
  unfold handleReply at hok
  split at hok
  case h_1 | h_2 => exact absurd (reply_handleInvalidateAck hok) hunanswered
  case h_3 | h_4 | h_5 | h_6 => exact absurd (reply_handleReadAck hok) hunanswered
  case h_7 => exact absurd (reply_handleNASAck hok) hunanswered
  case h_8 | h_9 => exact absurd (reply_handleOwnershipAck hok) hunanswered
  case h_10 =>
    next htype =>
    obtain ⟨maf, _, hok⟩ := bind_eq_ok.mp hok
    dsimp only at hok
    obtain ⟨rfl, rfl⟩ := Prod.mk.inj (pure_eq_ok.mp hok)
    cases ht
    simp [ProcessEntry.derive, htype, MemoryMessageType.grantsWritable] at hgrant
  case h_11 | h_12 =>
    next htype =>
    have hgrants := (handleMemoryReply_retired_iff hok ht hgrant).2.1
    rw [htype] at hgrants
    cases hgrants
  case h_13 =>
    next htype =>
    obtain ⟨haddress, _, maf, hmatch, hiff⟩ := handleMemoryReply_retired_iff hok ht hgrant
    simp only [htype, hmatch, haddress]
    exact hiff htype
  case h_14 =>
    next htype =>
    obtain ⟨haddress, hiff⟩ := handleFwdNAck_retired_iff hsound horderly hnone hok ht hgrant
    simp only [htype, haddress, bne_iff_ne]
    exact hiff
  case h_15 => exact absurd (reply_handleEvictAck hok) hunanswered
  case h_16 => cases hok

/-! ## Later requests -/

/-- The block is asked of a core: a forward to it is sent, and the bank itself sends no
    data. -/
structure AskedOf (n : Int) (a : MemoryAddress) (q : ProcessEntry) : Prop where
  forward : ∃ t ∈ q.snoopTransports, t.dest.type = .Source ∧ t.dest.source = n ∧ t.msg.address = a ∧
    (t.msg.type = .ReadFwd ∨ t.msg.type = .WriteFwd)
  noData : ∀ t, q.replyTransport = some t → t.msg.type = .MissNotify

theorem eq_of_oneSharer {m n : Int} (hone : dir.oneSharer = true) (hm : dir.isSharer m = true)
    (hn : dir.isSharer n = true) : m = n := by
  have hlength : dir.getSharerList.length = 1 := by
    rw [SimpleDirectoryState.length_getSharerList]
    simpa [SimpleDirectoryState.oneSharer] using hone
  obtain ⟨x, hx⟩ := List.length_eq_one_iff.mp hlength
  have hm' := SimpleDirectoryState.mem_getSharerList.mpr hm
  have hn' := SimpleDirectoryState.mem_getSharerList.mpr hn
  rw [hx, List.mem_singleton] at hm' hn'
  rw [hm', hn']

/-- A forward to the only sharer. -/
theorem pickSharer_of_oneSharer {m n : Int} (hone : dir.oneSharer = true) (hn : dir.isSharer n = true) :
    pickSharer dir m = n := by
  have hshared : dir.noSharers = false := by
    simp only [SimpleDirectoryState.oneSharer, beq_iff_eq] at hone
    simp [SimpleDirectoryState.noSharers, hone]
  exact eq_of_oneSharer hone (isSharer_pickSharer hshared) hn

theorem askedOf_forwardRead {n : Int} (hone : dir.oneSharer = true) (hn : dir.isSharer n = true)
    (htype : p.transport.msg.type = .ReadReq) (hnone : p.replyTransport = none)
    (hok : s.forwardRead p hasMaf a dir = .ok (s', q)) : AskedOf n a q := by
  obtain ⟨⟨s₁, p₁⟩, hactivate, hpure⟩ := bind_eq_ok.mp hok
  obtain ⟨rfl, rfl⟩ := Prod.mk.inj (pure_eq_ok.mp hpure)
  obtain ⟨_, i, rfl, _⟩ := activate_spec hactivate
  refine ⟨⟨_, List.mem_append_right _ (List.mem_singleton.mpr rfl), rfl, ?_, rfl, .inl ?_⟩, ?_⟩
  · exact pickSharer_of_oneSharer hone hn
  · simp [ProcessEntry.derive, htype]
  · intro t ht
    exact absurd (hnone.symm.trans ht) (by simp)

theorem askedOf_serveWrite {n : Int} (hforward : needsForward (s.theCache.state a) dir = true)
    (hone : dir.oneSharer = true) (hn : dir.isSharer n = true)
    (hok : s.serveWrite p hasMaf a dir = .ok (s', q)) : AskedOf n a q := by
  have hshared : dir.noSharers = false := by
    simp only [SimpleDirectoryState.oneSharer, beq_iff_eq] at hone
    simp [SimpleDirectoryState.noSharers, hone]
  simp only [serveWrite, hshared, Bool.false_eq_true, if_false, invalidateSharers, hforward, hone,
    Bool.and_self, Bool.not_true, Bool.false_and] at hok
  obtain ⟨_, i, rfl, _⟩ := activate_spec hok
  constructor
  · refine ⟨_, List.mem_append_right _ (List.mem_append_left _ (List.mem_singleton.mpr rfl)), rfl, ?_, rfl,
      .inr rfl⟩
    exact pickSharer_of_oneSharer hone hn
  · intro t ht
    cases ht
    rfl

/-- A read or write of a block with one sharer waits, or the sharer is asked for the block,
    unless the bank has a copy that is shared or dirty. -/
theorem doRequest_askedOf {n : Int} (hsound : Sound s)
    (htype : p.transport.msg.type = .ReadReq ∨ p.transport.msg.type = .WriteReq)
    (hnone : p.replyTransport = none) (ha : a = cfg.blockAddress p.transport.msg.address)
    (hcopy : s.l2State a = .Invalid ∨ s.l2State a = .Exclusive)
    (hone : (s.knownSharers a).oneSharer = true) (hn : (s.knownSharers a).isSharer n = true)
    (hok : doRequest reserve s p hasMaf = .ok (s', q)) : q.action = .eStall ∨ AskedOf n a q := by
  have hevict : p.transport.msg.type.isEvictType = false := by
    rcases htype with htype | htype <;> rw [htype] <;> rfl
  have haligned : cfg.blockAddress a = a := by rw [ha, CMPCacheInfo.blockAddress_blockAddress]
  rcases ha ▸ doRequest_requested hevict hok with
    ⟨_, hfetch⟩ | ⟨_, hstall⟩ | ⟨_, _, hstall⟩ | ⟨_, _, _, hstall⟩ | ⟨hclear, hclaim, hcache, hserve⟩
  · rcases htype with htype | htype <;> rw [htype] at hfetch <;> cases hfetch
  case queued | noEntry | writtenBack =>
    left
    rw [(stall_spec hstall).2.1]
  case served w s₁ s₂ =>
    have hclaimed : Effects {} s s₁ := effects_claimDirEntry haligned hclaim
    have hframe := claimDirEntry_frame hclaim
    have hstate : s₂.theCache.state a = .Invalid ∨ s₂.theCache.state a = .Exclusive := by
      have hsame : s₁.l2State a = s.l2State a := by
        refine l2State_of_same (fun x => ?_) (fun x => ?_) a
        · rw [hframe]
        · rw [hframe]
      rw [← hsame, l2State] at hcopy
      rcases claimCacheBlock_ok hcache with ⟨rfl, hfree⟩ | ⟨e, hinvalid, he, _, hrecover⟩
      · split at hcopy
        · next hinvalid => exact .inl hinvalid
        · exact hcopy
      · obtain ⟨_, vtag, vstate, _, hfilled⟩ :=
          filled_recoverBlock (hclaimed.sound hsound).copies hinvalid he hrecover
        rw [if_pos hinvalid, haligned, he] at hcopy
        rw [hfilled.array, if_pos rfl]
        exact hcopy
    have hnas : p.transport.msg.type ≠ .NonAllocatingStoreReq := by
      rcases htype with htype | htype <;> rw [htype] <;> simp
    obtain ⟨block, hblock, hknown⟩ := (claimDirEntry_ok haligned hclaim).1.lookup haligned hnas
    have hfound : s₂.theDirectory.lookup cfg a = some block := by
      rw [claimCacheBlock_frame hcache]
      exact hblock
    have hsame : convertUpgrade p block.state = p := by
      rcases htype with htype | htype <;> simp [convertUpgrade, htype]
    have hprotect : (s₂.protectEntry p.transport.msg.type a).theCache = s₂.theCache := by
      unfold protectEntry
      split <;> rfl
    have hshared : block.state.noSharers = false := by
      rw [← hknown] at hone
      simp only [SimpleDirectoryState.oneSharer, beq_iff_eq] at hone
      simp [SimpleDirectoryState.noSharers, hone]
    have hforward : needsForward (s₂.theCache.state a) block.state = true := by
      rcases hstate with hst | hst <;> simp [needsForward, hst, hknown, hone]
    rw [← hknown] at hone hn
    rw [serveRequest, hfound] at hserve
    simp only [hsame, hshared, Bool.false_eq_true, false_and, if_false] at hserve
    rcases htype with htype | htype <;> simp only [htype] at hserve hprotect
    · unfold serveRead at hserve
      rw [hprotect, if_pos hforward] at hserve
      split at hserve
      · left
        rw [(stall_spec hserve).2.1]
      · exact .inr (askedOf_forwardRead hone hn htype hnone hserve)
    · exact .inr (askedOf_serveWrite (by rw [hprotect]; exact hforward) hone hn hserve)

end Policy

namespace Controller

variable {cfg : CMPCacheInfo} {c c' : Controller cfg} {s' : Policy cfg} {p q : ProcessEntry} {reserve : Int}
  {t : MemoryTransport}

theorem fresh_of_reachable (hreach : Reachable c) : ∀ p ∈ c.theMAFPipeline, Fresh p :=
  hreach.invariant (I := fun k => ∀ p ∈ k.waiting, Fresh p) (by simp [core, create])
    fun _ hfresh hmoves => moves_fresh hfresh hmoves

theorem Fresh.reply (h : Fresh p) : p.replyTransport = none := congrArg ProcessEntry.replyTransport h.job

/-- A woken request sees its own transport and drops its ticket when it is redundant; the
    array and the answer are those of the request. -/
theorem handle_wakeMAF (htype : p.type = .eProcWakeMAF) {s : Policy cfg}
    (hok : handle reserve s p = .ok (s', q)) :
    ∃ s₁ q₁, Policy.doRequest reserve s (withEntryTransport s p) true = .ok (s₁, q₁) ∧
      s'.theCache = s₁.theCache ∧ q.replyTransport = q₁.replyTransport := by
  simp only [handle, htype] at hok
  obtain ⟨⟨s₁, q₁⟩, hwake, hdrop⟩ := bind_eq_ok.mp hok
  refine ⟨s₁, q₁, hwake, ?_⟩
  rcases dropRedundant_spec hdrop with ⟨_, rfl, rfl⟩ | ⟨_, i, _, rfl, rfl⟩
  · exact ⟨rfl, rfl⟩
  · exact ⟨rfl, rfl⟩

/-- In every reachable state, a handler that answers with permission to write leaves the
    array's copy of the block invalid or exclusive if and only if it is not a forward that
    came back while the bank's copy is dirty, nor an answer of memory for a fetch or for a
    write of a block that the array has a shared or dirty copy of. And while the bank has
    no such copy, every read or write of a block with one sharer waits or is forwarded to
    that sharer. -/
theorem writableGrant_retires_copy_iff (hreach : Reachable c) (hp : p ∈ c.theMAFPipeline)
    (hok : handle reserve c.thePolicy p = .ok (s', q)) (ht : q.replyTransport = some t)
    (hgrant : t.msg.type.grantsWritable = true) :
    (s'.Retired t.msg.address ↔ c.thePolicy.retires p = true) ∧
    ∀ (c' : Controller cfg) (p' q' : ProcessEntry) (s'' : Policy cfg) (hasMaf : Bool) (n : Int),
      Reachable c' → p'.replyTransport = none →
      p'.transport.msg.type = .ReadReq ∨ p'.transport.msg.type = .WriteReq →
      cfg.blockAddress p'.transport.msg.address = cfg.blockAddress t.msg.address →
      c'.thePolicy.l2State (cfg.blockAddress t.msg.address) = .Invalid ∨
        c'.thePolicy.l2State (cfg.blockAddress t.msg.address) = .Exclusive →
      (c'.thePolicy.knownSharers (cfg.blockAddress t.msg.address)).oneSharer = true →
      (c'.thePolicy.knownSharers (cfg.blockAddress t.msg.address)).isSharer n = true →
      Policy.doRequest c'.cacheEBReserve c'.thePolicy p' hasMaf = .ok (s'', q') →
      q'.action = .eStall ∨ Policy.AskedOf n (cfg.blockAddress t.msg.address) q' := by
  have hfresh := fresh_of_reachable hreach p hp
  have hsound := sound_of_reachable hreach
  have hnotReply : p.type ≠ .eProcReply → c.thePolicy.retires p = true := by
    intro htype
    simp [Policy.retires, htype]
  constructor
  · have hok' := hok
    unfold handle at hok'
    split at hok'
    · next htype =>
      obtain ⟨s₁, q₁, hwake, hcache, hreply⟩ := handle_wakeMAF htype hok
      have hreserved : 0 < (withEntryTransport c.thePolicy p).cacheEBReserved := by
        rw [withEntryTransport_same]
        exact (hfresh.reserved (.inl htype)).symm ▸ Int.one_pos
      have hnone : (withEntryTransport c.thePolicy p).replyTransport = none := by
        rw [withEntryTransport_same]
        exact hfresh.reply
      have hretired := Policy.doRequest_granted hsound hreserved hnone hwake (hreply ▸ ht) hgrant
      simp only [Policy.Retired, hcache, hnotReply (by simp [htype]), iff_true]
      exact hretired
    · next htype =>
      have hreserved : 0 < p.cacheEBReserved := (hfresh.reserved (.inr htype)).symm ▸ Int.one_pos
      have hretired := Policy.doRequest_granted hsound hreserved hfresh.reply hok' ht hgrant
      simp only [hnotReply (by simp [htype]), iff_true]
      exact hretired
    · next htype =>
      exact Policy.handleReply_retired_iff hsound (orderly_of_reachable hreach) htype hfresh.reply hok' ht
        hgrant
    · -- the bank's own evictions answer nobody
      rw [Policy.reply_handleIdleWork hok', hfresh.reply] at ht
      cases ht
    · cases hok'
  · intro c' p' q' s'' hasMaf n hreach' hnone htype haddress hcopy hone hn hrequest
    exact Policy.doRequest_askedOf (sound_of_reachable hreach') htype hnone haddress.symm hcopy hone hn hrequest

/-- The handler of the oldest waiting process answers with permission to write, and the
    state it leaves passes a test. -/
def grantsAnd (test : Policy cfg → MemoryTransport → Bool) (c : Controller cfg) : Bool :=
  c.theMAFPipeline.head?.any fun p =>
    match handle 0 c.thePolicy p with
    | .ok (s', q) => q.replyTransport.any fun t => t.msg.type.grantsWritable && test s' t
    | .error _ => false

theorem exists_of_grantsAnd {test : Policy cfg → MemoryTransport → Bool} (h : grantsAnd test c = true) :
    ∃ p ∈ c.theMAFPipeline, ∃ s' q t, handle 0 c.thePolicy p = .ok (s', q) ∧ q.replyTransport = some t ∧
      t.msg.type.grantsWritable = true ∧ test s' t = true := by
  unfold grantsAnd at h
  cases hhead : c.theMAFPipeline.head? with
  | none => simp [hhead] at h
  | some p =>
    rw [hhead, Option.any_some] at h
    refine ⟨p, List.mem_of_mem_head? hhead, ?_⟩
    split at h
    · next s' q hok =>
      cases hreply : q.replyTransport with
      | none => simp [hreply] at h
      | some t =>
        simp only [hreply, Option.any_some, Bool.and_eq_true] at h
        exact ⟨s', q, t, hok, hreply, h.1, h.2⟩
    · cases h

/-- Memory answers a read, and the array keeps an exclusive copy. -/
theorem writableGrant_retires_copy_memoryAnswer :
    ∃ (c : Controller (smallBank true)) (p : ProcessEntry) (s' : Policy (smallBank true)) (q : ProcessEntry)
      (t : MemoryTransport), Reachable c ∧ p ∈ c.theMAFPipeline ∧ handle 0 c.thePolicy p = .ok (s', q) ∧
      q.replyTransport = some t ∧ t.msg.type.grantsWritable = true ∧ s'.Retired t.msg.address := by
  obtain ⟨c, hreach, hrun⟩ := exists_reachable
    (through (.request (message .ReadReq 64 0)) ++ [.reply (message .MissReplyWritable 64 0)])
    (fun c : Controller (smallBank true) =>
      grantsAnd (fun _ _ => true) c && c.theMAFPipeline.all fun p => c.thePolicy.retires p) (by decide +kernel)
  rw [Bool.and_eq_true, List.all_eq_true] at hrun
  obtain ⟨p, hp, s', q, t, hok, ht, hgrant, _⟩ := exists_of_grantsAnd hrun.1
  exact ⟨c, p, s', q, t, hreach, hp, hok, ht, hgrant,
    (writableGrant_retires_copy_iff hreach hp hok ht hgrant).1.mpr (hrun.2 p hp)⟩

/-- The owner of a block wrote it back before a read was forwarded to it. The forward comes
    back, the read is answered with permission to write, and the bank keeps its dirty
    copy. -/
theorem writableGrant_keeps_dirty_copy :
    ¬ ∀ (c : Controller (smallBank true)) (p : ProcessEntry) (s' : Policy (smallBank true)) (q : ProcessEntry)
      (t : MemoryTransport) (reserve : Int), Reachable c → p ∈ c.theMAFPipeline →
      handle reserve c.thePolicy p = .ok (s', q) → q.replyTransport = some t →
      t.msg.type.grantsWritable = true → s'.Retired t.msg.address := by
  intro hall
  obtain ⟨c, hreach, hrun⟩ := exists_reachable (writeBackDuringRead ++ [.reply (message .FwdNAck 64 1)])
    (@grantsAnd (smallBank true) fun s' t => !decide (s'.Retired t.msg.address)) (by decide +kernel)
  obtain ⟨p, hp, s', q, t, hok, ht, hgrant, hkept⟩ := exists_of_grantsAnd hrun
  simp only [Bool.not_eq_true', decide_eq_false_iff_not] at hkept
  exact hkept (hall c p s' q t 0 hreach hp hok ht hgrant)

end Controller

end nCMPCache
