import Flexus.CmpCache.Exclusion

/-!
# The answers a writer waits for

A write to a block that others hold is answered with a notification that says how many answers
to expect.
-/

namespace nCMPCache

open Runs

/-- Who answers a snoop. -/
inductive Responder where
  | memory
  | core (n : Int)
  deriving DecidableEq, Repr

/-- Those a snoop is delivered to. -/
def MemoryTransport.responders (t : MemoryTransport) : List Responder :=
  match t.dest.type with
  | .Memory => [.memory]
  | .Source => [.core t.dest.source]
  | .Multicast => t.dest.multicastList.map .core
  | .Requester => [.core t.dest.requester]
  | .Other => [.core t.dest.other]
  | .Directory | .RemoteDirectory => []

namespace Policy

variable {cfg : CMPCacheInfo} {s s' : Policy cfg} {p q : ProcessEntry} {hasMaf mafWaiting : Bool}
  {a : MemoryAddress} {st : MAFState} {dir : SimpleDirectoryState} {reserve : Int} {t : MemoryTransport}
  {f : Fault}

/-- The snoops reach every sharer that is not spared, nobody twice, and as many as the
    notification says; no invalidate is sent to nobody. -/
structure Counted (snoops : List MemoryTransport) (dir : SimpleDirectoryState) (spared : Int → Prop)
    (t : MemoryTransport) : Prop where
  count : t.msg.outstandingMsgs = (snoops.flatMap MemoryTransport.responders).length
  once : (snoops.flatMap MemoryTransport.responders).Nodup
  sharers : ∀ n, dir.isSharer n = true → ¬ spared n →
    .core n ∈ snoops.flatMap MemoryTransport.responders
  invalidates : ∀ x ∈ snoops, x.msg.type = .Invalidate → x.dest.multicastList ≠ []

theorem core_injective : Function.Injective Responder.core := fun _ _ h => Responder.core.inj h

/-! ## The snoops of a write -/

theorem isSharer_pickSharer {n : Int} (hshared : dir.noSharers = false) :
    dir.isSharer (pickSharer dir n) = true := by
  unfold pickSharer
  split
  · assumption
  · exact SimpleDirectoryState.isSharer_getFirstSharer hshared

/-- Some core other than the one the write is forwarded to has to be invalidated. -/
theorem getOtherSharers_ne_nil {forward : Bool} (hshared : dir.noSharers = false)
    (hneeded : (forward && dir.oneSharer) = false) :
    dir.getOtherSharers (writeSource p dir forward) ≠ [] := by
  have hpos : dir.countSharers ≠ 0 := by simpa [SimpleDirectoryState.noSharers] using hshared
  rw [← List.length_pos_iff]
  cases forward with
  | true =>
    have hlength := SimpleDirectoryState.length_getOtherSharers
      (isSharer_pickSharer (n := p.transport.dest.directory) hshared)
    have hmany : dir.countSharers ≠ 1 := by
      simpa [SimpleDirectoryState.oneSharer] using hneeded
    simp only [writeSource, if_true]
    omega
  | false =>
    have hall : dir.getOtherSharers (-1) = dir.getSharerList :=
      SimpleDirectoryState.getOtherSharers_eq (by simp [SimpleDirectoryState.isSharer])
    simp only [writeSource, Bool.false_eq_true, if_false, hall,
      SimpleDirectoryState.length_getSharerList]
    omega

/-- Forwarding to one sharer and invalidating the others reaches each of them once. -/
theorem responders_writeSnoops {forward : Bool} (hshared : dir.noSharers = false)
    (hlist : p.transport.dest.multicastList = []) :
    (writeSnoops p a dir (writeSource p dir forward) forward).flatMap MemoryTransport.responders =
      (if forward then [Responder.core (pickSharer dir p.transport.dest.directory)] else []) ++
        (dir.getOtherSharers (writeSource p dir forward)).map .core := by
  unfold writeSnoops
  cases forward with
  | false => simp [MemoryTransport.responders, ProcessEntry.derive, hlist]
  | true =>
    by_cases hone : dir.oneSharer = true
    · have hlength := SimpleDirectoryState.length_getOtherSharers
        (isSharer_pickSharer (n := p.transport.dest.directory) hshared)
      have hcount : dir.countSharers = 1 := by simpa [SimpleDirectoryState.oneSharer] using hone
      have hnil : dir.getOtherSharers (pickSharer dir p.transport.dest.directory) = [] :=
        List.length_eq_zero_iff.mp (by omega)
      simp [hone, writeSource, hnil, MemoryTransport.responders, ProcessEntry.derive]
    · simp [hone, writeSource, MemoryTransport.responders, ProcessEntry.derive, hlist]

theorem counted_writeSnoops {forward : Bool} (hshared : dir.noSharers = false)
    (hlist : p.transport.dest.multicastList = []) (hcount : t.msg.outstandingMsgs = dir.countSharers) :
    Counted (writeSnoops p a dir (writeSource p dir forward) forward) dir (fun _ => False) t := by
  have hreach : (writeSnoops p a dir (writeSource p dir forward) forward).flatMap
      MemoryTransport.responders = _ := responders_writeSnoops hshared hlist
  have hothers : ∀ n, n ∈ dir.getOtherSharers (writeSource p dir forward) ↔
      dir.isSharer n = true ∧ n ≠ writeSource p dir forward :=
    fun n => SimpleDirectoryState.mem_getOtherSharers
  have hpick := isSharer_pickSharer (n := p.transport.dest.directory) hshared
  refine ⟨?_, ?_, fun n hn _ => ?_, fun x hx htype => ?_⟩
  · rw [hcount, hreach, List.length_append, List.length_map]
    cases forward with
    | true =>
      have hlength := SimpleDirectoryState.length_getOtherSharers hpick
      simp only [writeSource, if_true, List.length_singleton]
      omega
    | false =>
      have hall : dir.getOtherSharers (-1) = dir.getSharerList :=
        SimpleDirectoryState.getOtherSharers_eq (by simp [SimpleDirectoryState.isSharer])
      simp only [writeSource, Bool.false_eq_true, if_false, List.length_nil, hall,
        SimpleDirectoryState.length_getSharerList, zero_add]
  · rw [hreach]
    refine List.Nodup.append ?_ (SimpleDirectoryState.nodup_getOtherSharers.map core_injective) ?_
    · split
      · exact List.nodup_singleton _
      · exact List.nodup_nil
    · cases forward with
      | true =>
        simp only [if_true, List.singleton_disjoint, List.mem_map, not_exists, not_and]
        intro n hn hcore
        exact ((hothers n).mp hn).2 (core_injective hcore)
      | false => simp
  · rw [hreach]
    by_cases hsource : n = writeSource p dir forward
    · cases forward with
      | true =>
        refine List.mem_append_left _ ?_
        rw [if_pos rfl, hsource]
        exact List.mem_singleton_self _
      | false =>
        rw [hsource] at hn
        simp [writeSource, SimpleDirectoryState.isSharer] at hn
    · exact List.mem_append_right _ (List.mem_map_of_mem ((hothers n).mpr ⟨hn, hsource⟩))
  · unfold writeSnoops at hx
    rcases List.mem_append.mp hx with hx | hx
    · split at hx
      · obtain rfl := List.mem_singleton.mp hx
        cases htype
      · cases hx
    · split at hx
      · cases hx
      · next hneeded =>
        obtain rfl := List.mem_singleton.mp hx
        have hsome := getOtherSharers_ne_nil (p := p) hshared (by simpa using hneeded)
        simpa [ProcessEntry.derive, hlist] using hsome

/-! ## Assertions -/

theorem place_error (h : s.place p hasMaf a st = .error f) : f = .danglingMAF := by
  unfold place at h
  split at h
  · split at h
    · cases h
    · cases h
      rfl
  · cases h

theorem stall_error (h : s.stall p hasMaf a st = .error f) : f = .danglingMAF := by
  rcases bind_eq_error.mp h with hplace | ⟨_, _, hpure⟩
  · exact place_error hplace
  · cases hpure

theorem activate_error (h : s.activate p hasMaf a = .error f) : f = .danglingMAF := by
  rcases bind_eq_error.mp h with hplace | ⟨_, _, hpure⟩
  · exact place_error hplace
  · cases hpure

theorem addSharer_error {n : Int} (h : dir.addSharer n = .error f) : f = .sharerOutOfRange := by
  unfold SimpleDirectoryState.addSharer SimpleDirectoryState.set at h
  split at h
  · cases h
  · cases h
    rfl

theorem claimCacheBlock_fault (h : s.claimCacheBlock a = .error f) : f = .noVictim := by
  unfold claimCacheBlock at h
  split at h
  · split at h
    · split at h
      · cases h
      · next e _ _ =>
        unfold recoverBlock StdArray.allocate at h
        split at h
        · cases h
        · split at h
          · cases h
          · cases h
            rfl
    · cases h
  · cases h

/-- The assertion that some core has to be invalidated never fails. -/
theorem invalidateSharers_error (hshared : dir.noSharers = false)
    (h : s.invalidateSharers p hasMaf a dir = .error f) : f = .danglingMAF := by
  unfold invalidateSharers at h
  dsimp only at h
  split at h
  · next hnobody =>
    simp only [Bool.and_eq_true, Bool.not_eq_true', List.isEmpty_iff, List.append_eq_nil_iff] at hnobody
    exact absurd hnobody.2.2 (getOtherSharers_ne_nil hshared hnobody.1)
  · exact activate_error h

theorem serveFromMemory_error (h : s.serveFromMemory p hasMaf mafWaiting a = .error f) :
    f ≠ .noInvalidatesNeeded := by
  unfold serveFromMemory at h
  split at h
  · simp [stall_error h]
  · split at h
    · simp [activate_error h]
    case h_2 | h_3 =>
      rcases bind_eq_error.mp h with hactivate | ⟨_, _, hpure⟩
      · simp [activate_error hactivate]
      · cases hpure
    · simp [activate_error h]
    · cases h
      simp

theorem serveWrite_error (h : s.serveWrite p hasMaf a dir = .error f) : f ≠ .noInvalidatesNeeded := by
  unfold serveWrite at h
  split at h
  · rcases bind_eq_error.mp h with hadd | ⟨_, _, hactivate⟩
    · simp [addSharer_error hadd]
    · simp [activate_error hactivate]
  · next hshared => simp [invalidateSharers_error (by simpa using hshared) h]

theorem serveUpgrade_error (h : s.serveUpgrade p hasMaf a dir = .error f) : f ≠ .noInvalidatesNeeded := by
  unfold serveUpgrade at h
  split at h
  · split at h
    · cases h
      simp
    · simp [activate_error h]
  · simp [activate_error h]

/-- The requests for permission to write that are answered with a count. -/
def asksToWrite (type : MemoryMessageType) : Prop := type = .WriteReq ∨ type = .UpgradeReq

theorem asksToWrite_convertUpgrade (htype : asksToWrite p.transport.msg.type) :
    asksToWrite (convertUpgrade p dir).transport.msg.type := by
  rcases convertUpgrade_spec p dir with hsame | ⟨_, hwrite⟩
  · rwa [hsame]
  · rw [hwrite]
    exact .inl rfl

theorem serveRequest_error (htype : asksToWrite p.transport.msg.type)
    (h : s.serveRequest p hasMaf mafWaiting a = .error f) : f ≠ .noInvalidatesNeeded := by
  unfold serveRequest at h
  split at h
  · split at h
    · next hstore => rcases htype with hw | hw <;> simp [hw] at hstore
    · cases h
      simp
  · next block _ =>
    have hconverted : asksToWrite (convertUpgrade p block.state).transport.msg.type :=
      asksToWrite_convertUpgrade htype
    dsimp only at h
    split at h
    · exact serveFromMemory_error h
    · split at h
      case h_1 | h_2 | h_5 =>
        next hread => rcases hconverted with hw | hw <;> simp [hw] at hread
      · exact serveWrite_error h
      · exact serveUpgrade_error h
      · cases h
        simp

theorem startRequest_error (htype : asksToWrite p.transport.msg.type)
    (h : startRequest reserve s p hasMaf mafWaiting = .error f) : f ≠ .noInvalidatesNeeded := by
  unfold startRequest at h
  dsimp only at h
  split at h
  · next hevict => rcases htype with hw | hw <;> simp [hw, MemoryMessageType.isEvictType] at hevict
  · split at h
    · cases h
    · split at h
      · simp [stall_error h]
      · split at h
        · next hfault =>
          cases h
          simp [claimCacheBlock_fault hfault]
        · simp [stall_error h]
        · exact serveRequest_error htype h

theorem doRequest_error (htype : asksToWrite p.transport.msg.type)
    (h : doRequest reserve s p hasMaf = .error f) : f ≠ .noInvalidatesNeeded := by
  have hevict : p.transport.msg.type.isEvictType = false := by
    rcases htype with hw | hw <;> simp [hw, MemoryMessageType.isEvictType]
  unfold doRequest at h
  dsimp only at h
  split at h
  · exact startRequest_error htype h
  · split at h
    case h_1 | h_2 =>
      rw [if_neg (by simp [hevict])] at h
      simp [stall_error h]
    · simp [stall_error h]
    · split at h
      · simp [stall_error h]
      · exact startRequest_error htype h
    case h_5 | h_6 | h_7 => exact startRequest_error htype h
    · cases h
      simp

/-! ## The count of a notification -/

/-- The reply is a notification. -/
def notifies (t : MemoryTransport) : Prop := t.msg.type = .MissNotify ∨ t.msg.type = .MissNotifyData

/-- A write that goes to memory waits for one answer, the one of memory. -/
theorem counted_serveFromMemory (hnone : dir.noSharers = true) (hsnoops : p.snoopTransports = [])
    (hreply : p.replyTransport = none) (hok : s.serveFromMemory p hasMaf mafWaiting a = .ok (s', q))
    (ht : q.replyTransport = some t) : Counted q.snoopTransports dir (fun _ => False) t := by
  have hnobody : ∀ n, dir.isSharer n ≠ true := by
    intro n hn
    have hmem := SimpleDirectoryState.mem_getSharerList.mpr hn
    have hlength := SimpleDirectoryState.length_getSharerList (s := dir)
    have hzero : dir.countSharers = 0 := by simpa [SimpleDirectoryState.noSharers] using hnone
    rw [hzero, List.length_eq_zero_iff] at hlength
    rw [hlength] at hmem
    cases hmem
  unfold serveFromMemory at hok
  split at hok
  · obtain ⟨_, rfl, _⟩ := stall_spec hok
    rw [hreply] at ht
    cases ht
  · split at hok
    · next htype =>
      obtain ⟨_, i, rfl, _⟩ := activate_spec hok
      cases ht
      refine ⟨?_, ?_, fun n hn => absurd hn (hnobody n), ?_⟩
      all_goals simp [replyWith, toMemory, ProcessEntry.addSnoopTransport, hsnoops,
        MemoryTransport.responders, ProcessEntry.derive, htype]
    case h_2 | h_3 =>
      obtain ⟨⟨s₁, p₁⟩, hactivate, hpure⟩ := bind_eq_ok.mp hok
      obtain ⟨rfl, rfl⟩ := Prod.mk.inj (pure_eq_ok.mp hpure)
      obtain ⟨_, i, rfl, _⟩ := activate_spec hactivate
      simp [toMemory, ProcessEntry.addSnoopTransport, hreply] at ht
    · obtain ⟨_, i, rfl, _⟩ := activate_spec hok
      simp [toMemory, ProcessEntry.addSnoopTransport, hreply] at ht
    · cases hok

theorem counted_serveWrite (hsnoops : p.snoopTransports = [])
    (hlist : p.transport.dest.multicastList = []) (hok : s.serveWrite p hasMaf a dir = .ok (s', q))
    (ht : q.replyTransport = some t) (hnotify : notifies t) :
    Counted q.snoopTransports dir (fun _ => False) t := by
  unfold serveWrite at hok
  split at hok
  · obtain ⟨sharers, _, hok⟩ := bind_eq_ok.mp hok
    obtain ⟨_, i, rfl, _⟩ := activate_spec hok
    cases ht
    simp only [notifies, ProcessEntry.derive] at hnotify
    split at hnotify <;> simp at hnotify
  · next hshared =>
    unfold invalidateSharers at hok
    dsimp only at hok
    split at hok
    · cases hok
    · obtain ⟨_, i, rfl, _⟩ := activate_spec hok
      cases ht
      have hsent : (notifyWrite p a dir (needsForward (s.theCache.state a) dir)
          cfg.theBlockSize).snoopTransports = writeSnoops p a dir
            (writeSource p dir (needsForward (s.theCache.state a) dir))
            (needsForward (s.theCache.state a) dir) := by
        simp [notifyWrite, replyWith, hsnoops]
      simp only [hsent]
      exact counted_writeSnoops (by simpa using hshared) hlist rfl

/-- An upgrade of a block that others share spares the requester. -/
theorem counted_serveUpgrade (hsnoops : p.snoopTransports = [])
    (hlist : p.transport.dest.multicastList = [])
    (hsharer : dir.isSharer p.transport.dest.requester = true)
    (hok : s.serveUpgrade p hasMaf a dir = .ok (s', q)) (ht : q.replyTransport = some t)
    (hnotify : notifies t) :
    Counted q.snoopTransports dir (fun n => n = p.transport.dest.requester) t := by
  unfold serveUpgrade at hok
  split at hok
  · split at hok
    · cases hok
    · obtain ⟨_, i, rfl, _⟩ := activate_spec hok
      cases ht
      simp [notifies, ProcessEntry.derive] at hnotify
  · next hmany =>
    obtain ⟨_, i, rfl, _⟩ := activate_spec hok
    cases ht
    have hlength := SimpleDirectoryState.length_getOtherSharers hsharer
    have htwo : dir.countSharers ≠ 1 ∧ dir.countSharers ≠ 0 := by
      simpa [SimpleDirectoryState.oneSharer, SimpleDirectoryState.noSharers] using hmany
    have hreach : (notifyUpgrade p a dir).snoopTransports.flatMap MemoryTransport.responders =
        (dir.getOtherSharers p.transport.dest.requester).map .core := by
      simp [notifyUpgrade, replyWith, ProcessEntry.addSnoopTransport, hsnoops,
        MemoryTransport.responders, ProcessEntry.derive, hlist]
    refine ⟨?_, ?_, fun n hn hother => ?_, fun x hx _ => ?_⟩
    · rw [hreach, List.length_map]
      change (dir.countSharers : Int) - 1 = _
      omega
    · rw [hreach]
      exact SimpleDirectoryState.nodup_getOtherSharers.map core_injective
    · rw [hreach]
      exact List.mem_map_of_mem (SimpleDirectoryState.mem_getOtherSharers.mpr ⟨hn, hother⟩)
    · have hthis : x.dest.multicastList = dir.getOtherSharers p.transport.dest.requester := by
        simp only [notifyUpgrade, replyWith, ProcessEntry.addSnoopTransport, hsnoops,
          List.nil_append, List.mem_singleton] at hx
        rw [hx]
        simp [ProcessEntry.derive, hlist]
      rw [hthis, ← List.length_pos_iff]
      omega

/-- The requests that are served with a notification. -/
theorem counted_serveRequest {block : DirBlock} (hlookup : s.theDirectory.lookup cfg a = some block)
    (htype : asksToWrite p.transport.msg.type) (hsnoops : p.snoopTransports = [])
    (hreply : p.replyTransport = none) (hlist : p.transport.dest.multicastList = [])
    (hok : s.serveRequest p hasMaf mafWaiting a = .ok (s', q)) (ht : q.replyTransport = some t)
    (hnotify : notifies t) :
    Counted q.snoopTransports block.state
      (fun n => p.transport.msg.type = .UpgradeReq ∧ n = p.transport.dest.requester) t := by
  have hspare : ∀ {snoops}, Counted snoops block.state (fun _ => False) t →
      Counted snoops block.state
        (fun n => p.transport.msg.type = .UpgradeReq ∧ n = p.transport.dest.requester) t :=
    fun h => ⟨h.count, h.once, fun n hn _ => h.sharers n hn id, h.invalidates⟩
  have hconverted : asksToWrite (convertUpgrade p block.state).transport.msg.type :=
    asksToWrite_convertUpgrade htype
  have hsame : (convertUpgrade p block.state).snoopTransports = [] ∧
      (convertUpgrade p block.state).replyTransport = none ∧
      (convertUpgrade p block.state).transport.dest = p.transport.dest := by
    rcases convertUpgrade_spec p block.state with hc | ⟨_, hc⟩
    · rw [hc]
      exact ⟨hsnoops, hreply, rfl⟩
    · rw [hc]
      exact ⟨hsnoops, hreply, rfl⟩
  obtain ⟨hsnoops', hreply', hdest⟩ := hsame
  have hlist' : (convertUpgrade p block.state).transport.dest.multicastList = [] := by rw [hdest, hlist]
  unfold serveRequest at hok
  rw [hlookup] at hok
  dsimp only at hok
  split at hok
  · next hmemory => exact hspare (counted_serveFromMemory hmemory.1 hsnoops' hreply' hok ht)
  · split at hok
    case h_1 | h_2 | h_5 =>
      next hread => rcases hconverted with hw | hw <;> simp [hw] at hread
    · exact hspare (counted_serveWrite hsnoops' hlist' hok ht hnotify)
    · next hupgrade =>
      have hsharer : block.state.isSharer p.transport.dest.requester = true := by
        by_contra hno
        have hwrite : (convertUpgrade p block.state).transport.msg.type ≠ .UpgradeReq := by
          unfold convertUpgrade
          split
          · simp
          · next hkept => exact fun hup => hkept ⟨hup, by simpa using hno⟩
        exact hwrite hupgrade
      have hthis : p.transport.msg.type = .UpgradeReq := by
        rcases convertUpgrade_spec p block.state with hc | ⟨hup, _⟩
        · rwa [hc] at hupgrade
        · exact hup
      have hcounted := counted_serveUpgrade hsnoops' hlist' (by rwa [hdest]) hok ht hnotify
      rw [hdest] at hcounted
      exact ⟨hcounted.count, hcounted.once, fun n hn hother =>
        hcounted.sharers n hn fun hn' => hother ⟨hthis, hn'⟩, hcounted.invalidates⟩
    · cases hok

/-- For every write and upgrade, whatever the state of the bank: some core is there to be
    invalidated whenever an invalidate is sent, and a notification announces as many answers
    as the snoops of the process call for, each core is snooped at most once, and every
    sharer is snooped but for a core that upgrades its own copy. -/
theorem missNotify_counts_responses (htype : asksToWrite p.transport.msg.type)
    (hsnoops : p.snoopTransports = []) (hreply : p.replyTransport = none)
    (hlist : p.transport.dest.multicastList = []) :
    doRequest reserve s p hasMaf ≠ .error .noInvalidatesNeeded ∧
    ∀ s' q t, doRequest reserve s p hasMaf = .ok (s', q) → q.replyTransport = some t → notifies t →
      Counted q.snoopTransports (s.knownSharers (cfg.blockAddress p.transport.msg.address))
        (fun n => p.transport.msg.type = .UpgradeReq ∧ n = p.transport.dest.requester) t := by
  refine ⟨fun herror => doRequest_error htype herror rfl, fun s' q t hok ht hnotify => ?_⟩
  have hevict : p.transport.msg.type.isEvictType = false := by
    rcases htype with hw | hw <;> simp [hw, MemoryMessageType.isEvictType]
  have hstalled : ∀ {s₁ : Policy cfg} {st : MAFState},
      s₁.stall p hasMaf (cfg.blockAddress p.transport.msg.address) st = .ok (s', q) → False := by
    intro s₁ st hstall
    obtain ⟨_, rfl, _⟩ := stall_spec hstall
    rw [hreply] at ht
    cases ht
  cases doRequest_requested hevict hok with
  | redundant _ hfetch => rcases htype with hw | hw <;> simp [hw] at hfetch
  | queued _ hstall => exact (hstalled hstall).elim
  | noEntry _ _ hstall => exact (hstalled hstall).elim
  | writtenBack _ _ _ hstall => exact (hstalled hstall).elim
  | served _ hclaim hcache hserve =>
    have haligned := cfg.blockAddress_blockAddress p.transport.msg.address
    have hnas : p.transport.msg.type ≠ .NonAllocatingStoreReq := by
      rcases htype with hw | hw <;> simp [hw]
    obtain ⟨block, hblock, hknown⟩ := (claimDirEntry_ok haligned hclaim).1.lookup haligned hnas
    rw [← hknown]
    refine counted_serveRequest ?_ htype hsnoops hreply hlist hserve ht hnotify
    rw [claimCacheBlock_frame hcache]
    exact hblock

/-- A bank whose directory knows one block, shared by the first two cores. -/
def sharedByTwo : Policy (Controller.smallBank true) :=
  { create (Controller.smallBank true) with
    theDirectory := (StdDirectory.create (Controller.smallBank true)).set 0 0
      { tag := 64, isProtected := false, state := ⟨[true, true, false, false]⟩ } }

/-- The third core writes the block: the first core forwards it, the second one is
    invalidated, and two answers are announced. -/
theorem missNotify_counts_responses_twoSharers :
    ∃ s' q t, doRequest 0 sharedByTwo
        { type := .eProcRequest, transport := Controller.message .WriteReq 64 2 } false = .ok (s', q) ∧
      q.replyTransport = some t ∧ t.msg.outstandingMsgs = 2 ∧
      Counted q.snoopTransports (sharedByTwo.knownSharers 64) (fun _ => False) t := by
  have hrun : (match doRequest 0 sharedByTwo
      { type := .eProcRequest, transport := Controller.message .WriteReq 64 2 } false with
    | .ok (_, q) => q.replyTransport.any fun t =>
      t.msg.type == .MissNotify && t.msg.outstandingMsgs == 2
    | .error _ => false) = true := by decide +kernel
  split at hrun
  · next s' q hok =>
    obtain ⟨t, ht, htest⟩ := (Option.any_eq_true _ _).mp hrun
    simp only [Bool.and_eq_true, beq_iff_eq] at htest
    refine ⟨s', q, t, hok, ht, htest.2, ?_⟩
    have hcounted := (missNotify_counts_responses (.inl rfl) rfl rfl rfl).2 s' q t hok ht (.inl htest.1)
    have hnobody : ∀ n, ¬ (MemoryMessageType.WriteReq = .UpgradeReq ∧ n = (2 : Int)) := by simp
    exact ⟨hcounted.count, hcounted.once, fun n hn _ => hcounted.sharers n hn (hnobody n),
      hcounted.invalidates⟩
  · cases hrun

end Policy

end nCMPCache
