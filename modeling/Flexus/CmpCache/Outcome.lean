import Flexus.CmpCache.Steps
import Flexus.CmpCache.Tickets

/-!
# What becomes of a request

A request that was handled is recorded in the miss address file, in the state of its own wait or
as active, or it was redundant.
-/

namespace nCMPCache

open Runs

namespace Policy

variable {cfg : CMPCacheInfo} {s s' : Policy cfg} {p q : ProcessEntry} {hasMaf mafWaiting : Bool}
  {a : MemoryAddress} {st : MAFState} {i : Nat} {dir : SimpleDirectoryState} {reserve : Int}

/-- The file `m'` is `m` with one more record of a request: a woken request changes the
    ticket it has, a new one gets the next stamp. -/
inductive Recorded (m m' : MissAddressFile) (slot : Option Nat) (a : MemoryAddress) (st : MAFState)
    (t : MemoryTransport) : Bool → Nat → Prop
  | kept {i : Nat} {u : Ticket} : slot = some i → m.ticket i = some u → m'.nextStamp = m.nextStamp →
      m'.ticket = Function.update m.ticket i (some (.of u.address st t)) →
      Recorded m m' slot a st t true i
  | fresh : m'.nextStamp = m.nextStamp + 1 →
      m'.ticket = Function.update m.ticket m.nextStamp (some (.of a st t)) →
      Recorded m m' slot a st t false m.nextStamp

theorem place_spec (hok : s.place p hasMaf a st = .ok (s', i)) :
    s' = { s with theMAF := s'.theMAF } ∧
      Recorded s.theMAF s'.theMAF p.maf a st p.transport hasMaf i := by
  unfold place at hok
  cases hasMaf with
  | true =>
    simp only [if_true] at hok
    split at hok
    · next e he =>
      cases hok
      obtain ⟨j, hj, hget⟩ := Option.bind_eq_some_iff.mp he
      obtain ⟨hmem, rfl⟩ := MissAddressFile.get?_eq_some.mp hget
      have hticket := MissAddressFile.ticket_of_mem hmem
      refine ⟨rfl, .kept hj hticket rfl ?_⟩
      funext k
      rw [MissAddressFile.ticket_setState, Function.update_apply, hticket]
      rfl
    · cases hok
  | false =>
    simp only [Bool.false_eq_true, if_false] at hok
    cases hok
    refine ⟨rfl, .fresh rfl ?_⟩
    funext k
    rw [MissAddressFile.ticket_insert, Function.update_apply]

/-- A request that is put off is recorded and nothing else changes. -/
theorem stall_spec (hok : s.stall p hasMaf a st = .ok (s', q)) :
    s' = { s with theMAF := s'.theMAF } ∧ q = { p with action := .eStall } ∧
      ∃ i, Recorded s.theMAF s'.theMAF p.maf a st p.transport hasMaf i := by
  obtain ⟨⟨s₁, i⟩, hplace, hpure⟩ := bind_eq_ok.mp hok
  cases pure_eq_ok.mp hpure
  obtain ⟨hsame, hrecorded⟩ := place_spec hplace
  exact ⟨hsame, rfl, i, hrecorded⟩

/-- A request that is on its way is recorded as active and nothing else changes. -/
theorem activate_spec (hok : s.activate p hasMaf a = .ok (s', q)) :
    s' = { s with theMAF := s'.theMAF } ∧
      ∃ i, q = { p with maf := some i } ∧
        Recorded s.theMAF s'.theMAF p.maf a .eWaitAck p.transport hasMaf i := by
  obtain ⟨⟨s₁, i⟩, hplace, hpure⟩ := bind_eq_ok.mp hok
  cases pure_eq_ok.mp hpure
  obtain ⟨hsame, hrecorded⟩ := place_spec hplace
  exact ⟨hsame, i, rfl, hrecorded⟩

@[simp]
theorem keepReservation_ticket :
    (s.keepReservation p).1.theMAF.ticket = s.theMAF.ticket := by
  funext j
  unfold keepReservation
  cases p.maf with
  | none => rfl
  | some i => exact MissAddressFile.ticket_setCacheEBReserved

@[simp]
theorem keepReservation_nextStamp :
    (s.keepReservation p).1.theMAF.nextStamp = s.theMAF.nextStamp := by
  unfold keepReservation
  cases p.maf with
  | none => rfl
  | some i => rfl

/-! ## Serving a request -/

/-- The directory is as before, but for the sharers of one block. -/
inductive OneEntry (cfg : CMPCacheInfo) (a : MemoryAddress) (d : StdDirectory) : StdDirectory → Prop
  | same : OneEntry cfg a d d
  | sharers (dir : SimpleDirectoryState) : OneEntry cfg a d (d.setState cfg a dir)

/-- The array keeps its copies, except that it may give up its copy of one block or
    mark it as modified. -/
def OneCopy (a : MemoryAddress) (arr arr' : StdArray cfg) : Prop :=
  ∀ x, arr'.state x = arr.state x ∨
    cfg.blockAddress x = cfg.blockAddress a ∧ arr.state x ≠ .Invalid ∧
      (arr'.state x = .Invalid ∨ arr'.state x = .Modified)

theorem oneCopy_setState {arr arr' : StdArray cfg} {cst : CacheState} (hvalid : arr.state a ≠ .Invalid)
    (hcst : cst = .Invalid ∨ cst = .Modified) (hsame : ∀ x, arr'.state x = (arr.setState a cst).state x) :
    OneCopy a arr arr' := by
  intro x
  rw [hsame, StdArray.state_setState (StdArray.way_isSome_of_state hvalid)]
  by_cases hx : cfg.blockAddress x = cfg.blockAddress a
  · refine .inr ⟨hx, ?_, by rw [if_pos hx]; exact hcst⟩
    rw [StdArray.state_eq_of_blockAddress_eq hx]
    exact hvalid
  · exact .inl (if_neg hx)

theorem oneCopy_of_same {arr arr' : StdArray cfg} (hsame : ∀ x, arr'.state x = arr.state x) :
    OneCopy a arr arr' := fun x => .inl (hsame x)

/-- A request that has its directory entry was served: it is active now, or, while
    reads of the block are on their way, it waits for them. -/
structure Served (s : Policy cfg) (p : ProcessEntry) (hasMaf mafWaiting : Bool) (a : MemoryAddress)
    (s' : Policy cfg) (q : ProcessEntry) : Prop where
  dirEB : s'.theDirEvictBuffer = s.theDirEvictBuffer
  cacheEB : s'.theCacheEvictBuffer = s.theCacheEvictBuffer
  entry : OneEntry cfg a s.theDirectory s'.theDirectory
  copies : OneCopy a s.theCache s'.theCache
  transport : q.transport.msg = p.transport.msg ∧
    q.transport.dest.requester = p.transport.dest.requester
  snoops : ∃ ts, q.snoopTransports = p.snoopTransports ++ ts ∧
    ∀ t ∈ ts, t.msg.type.isEvictType = false
  recorded :
    (mafWaiting = true ∧ q.action = .eStall ∧
      ∃ i, Recorded s.theMAF s'.theMAF p.maf a .eWaitRequest q.transport hasMaf i) ∨
    ((p.transport.msg.type.isReadType = true ∨ p.transport.msg.type.isWriteType = true) ∧
      (q.action = .eFwdAndWaitAck ∨ q.action = .eNotifyAndWaitAck ∨ q.action = .eReply) ∧
      ∃ i, q.maf = some i ∧
        Recorded s.theMAF s'.theMAF p.maf a .eWaitAck q.transport hasMaf i)

/-- A branch that ends with an active request: what it did before, to the policy and to
    the process. -/
theorem Served.of_activate {s₁ : Policy cfg} {p₁ : ProcessEntry} {l : List MemoryTransport}
    (hok : s₁.activate p₁ hasMaf a = .ok (s', q)) (hmaf : s₁.theMAF = s.theMAF)
    (hdirEB : s₁.theDirEvictBuffer = s.theDirEvictBuffer)
    (hcacheEB : s₁.theCacheEvictBuffer = s.theCacheEvictBuffer)
    (hentry : OneEntry cfg a s.theDirectory s₁.theDirectory) (hcopies : OneCopy a s.theCache s₁.theCache)
    (hslot : p₁.maf = p.maf) (hmsg : p₁.transport.msg = p.transport.msg)
    (hrequester : p₁.transport.dest.requester = p.transport.dest.requester)
    (hsnoops : p₁.snoopTransports = p.snoopTransports ++ l)
    (hts : ∀ t ∈ l, t.msg.type.isEvictType = false)
    (htype : p.transport.msg.type.isReadType = true ∨ p.transport.msg.type.isWriteType = true)
    (haction : p₁.action = .eFwdAndWaitAck ∨ p₁.action = .eNotifyAndWaitAck ∨ p₁.action = .eReply) :
    Served s p hasMaf mafWaiting a s' q := by
  obtain ⟨hsame, i, rfl, hrecorded⟩ := activate_spec hok
  rw [hmaf, hslot] at hrecorded
  rw [hsame]
  exact ⟨hdirEB, hcacheEB, hentry, hcopies, ⟨hmsg, hrequester⟩, ⟨l, hsnoops, hts⟩,
    .inr ⟨htype, haction, i, rfl, hrecorded⟩⟩

theorem Served.keepReservation (h : Served s p hasMaf mafWaiting a s' q)
    (hactive : q.action ≠ .eStall) :
    Served s p hasMaf mafWaiting a (s'.keepReservation q).1 (s'.keepReservation q).2 := by
  refine ⟨h.dirEB, h.cacheEB, h.entry, h.copies, h.transport, h.snoops, ?_⟩
  rcases h.recorded with ⟨_, hstall, _⟩ | ⟨htype, haction, i, hmaf, hrecorded⟩
  · exact absurd hstall hactive
  · refine .inr ⟨htype, haction, i, hmaf, ?_⟩
    cases hrecorded with
    | kept hslot hticket hnext hupdate =>
      exact .kept hslot hticket (keepReservation_nextStamp.trans hnext)
        (keepReservation_ticket.trans hupdate)
    | fresh hnext hupdate =>
      exact .fresh (keepReservation_nextStamp.trans hnext) (keepReservation_ticket.trans hupdate)

theorem Served.of_stall {s₁ : Policy cfg} (hok : s₁.stall p hasMaf a .eWaitRequest = .ok (s', q))
    (hmaf : s₁.theMAF = s.theMAF) (hdirEB : s₁.theDirEvictBuffer = s.theDirEvictBuffer)
    (hcacheEB : s₁.theCacheEvictBuffer = s.theCacheEvictBuffer)
    (hdir : s₁.theDirectory = s.theDirectory) (hcopies : OneCopy a s.theCache s₁.theCache)
    (hwaiting : mafWaiting = true) : Served s p hasMaf mafWaiting a s' q := by
  obtain ⟨hsame, rfl, i, hrecorded⟩ := stall_spec hok
  rw [hmaf] at hrecorded
  rw [hsame]
  exact ⟨hdirEB, hcacheEB, hdir ▸ .same, hcopies, ⟨rfl, rfl⟩,
    ⟨[], (List.append_nil _).symm, by simp⟩, .inl ⟨hwaiting, rfl, i, hrecorded⟩⟩

/-- A request that is sent on to memory is no eviction. -/
theorem toMemory_snoops (htype : p.transport.msg.type.isEvictType = false) :
    ∃ ts, (toMemory p).snoopTransports = p.snoopTransports ++ ts ∧
      ∀ t ∈ ts, t.msg.type.isEvictType = false := by
  refine ⟨_, rfl, ?_⟩
  simpa using htype

theorem isEvictType_of_isReadType {type : MemoryMessageType} (h : type.isReadType = true) :
    type.isEvictType = false := by
  cases type <;> simp_all [MemoryMessageType.isReadType, MemoryMessageType.isEvictType]

theorem isWriteType_of_isReadType {type : MemoryMessageType} (h : type.isReadType = true) :
    type.isWriteType = false := by
  cases type <;> simp_all [MemoryMessageType.isReadType, MemoryMessageType.isWriteType]

theorem isEvictType_of_isWriteType {type : MemoryMessageType} (h : type.isWriteType = true) :
    type.isEvictType = false := by
  cases type <;> simp_all [MemoryMessageType.isWriteType, MemoryMessageType.isEvictType]

theorem served_serveUntrackedStore (htype : p.transport.msg.type = .NonAllocatingStoreReq)
    (hok : s.serveUntrackedStore p hasMaf a = .ok (s', q)) :
    Served s p hasMaf mafWaiting a s' q := by
  have hwrite : p.transport.msg.type.isWriteType = true := by rw [htype]; rfl
  unfold serveUntrackedStore at hok
  split at hok
  · next hvalid =>
    refine .of_activate (l := []) hok rfl rfl rfl .same ?_ rfl rfl rfl (List.append_nil _).symm
      (by simp) (.inr hwrite) (.inr (.inr rfl))
    exact oneCopy_setState hvalid (.inr rfl) fun x => StdArray.state_recordAccess
  · obtain ⟨ts, hsnoops, hts⟩ := toMemory_snoops (isEvictType_of_isWriteType hwrite)
    exact .of_activate hok rfl rfl rfl .same (oneCopy_of_same fun _ => rfl) rfl rfl rfl hsnoops hts
      (.inr hwrite) (.inl rfl)

theorem served_serveFromMemory (hok : s.serveFromMemory p hasMaf mafWaiting a = .ok (s', q)) :
    Served s p hasMaf mafWaiting a s' q := by
  unfold serveFromMemory at hok
  split at hok
  · next hwaiting => exact .of_stall hok rfl rfl rfl rfl (oneCopy_of_same fun _ => rfl) hwaiting
  · split at hok
    · next htype =>
      obtain ⟨ts, hsnoops, hts⟩ := toMemory_snoops (p := p) (by rw [htype]; rfl)
      exact .of_activate hok rfl rfl rfl .same (oneCopy_of_same fun _ => rfl) rfl rfl rfl hsnoops
        hts (.inr (by rw [htype]; rfl)) (.inr (.inl rfl))
    case h_2 | h_3 =>
      next htype =>
      obtain ⟨⟨s₁, p₁⟩, hactivate, hpure⟩ := bind_eq_ok.mp hok
      cases pure_eq_ok.mp hpure
      obtain ⟨ts, hsnoops, hts⟩ := toMemory_snoops (p := p) (by rw [htype]; rfl)
      have hserved : Served s p hasMaf mafWaiting a s₁ p₁ :=
        .of_activate hactivate rfl rfl rfl .same (oneCopy_of_same fun _ => rfl) rfl rfl rfl hsnoops
          hts (.inl (by rw [htype]; rfl)) (.inl rfl)
      obtain ⟨_, i, rfl, _⟩ := activate_spec hactivate
      exact hserved.keepReservation (by simp [toMemory])
    · next htype =>
      obtain ⟨ts, hsnoops, hts⟩ := toMemory_snoops (p := p) (by rw [htype]; rfl)
      exact .of_activate hok rfl rfl rfl .same (oneCopy_of_same fun _ => rfl) rfl rfl rfl hsnoops
        hts (.inr (by rw [htype]; rfl)) (.inl rfl)
    · cases hok

theorem served_forwardRead (hread : p.transport.msg.type.isReadType = true)
    (hok : s.forwardRead p hasMaf a dir = .ok (s', q)) :
    Served s p hasMaf mafWaiting a s' q := by
  obtain ⟨⟨s₁, p₁⟩, hactivate, hpure⟩ := bind_eq_ok.mp hok
  cases pure_eq_ok.mp hpure
  have hserved : Served s p hasMaf mafWaiting a s₁ p₁ := by
    refine .of_activate hactivate rfl rfl rfl .same (oneCopy_of_same fun _ => rfl) rfl rfl rfl rfl ?_
      (.inl hread) (.inl rfl)
    simp only [List.mem_singleton, forall_eq, ProcessEntry.derive]
    split <;> rfl
  obtain ⟨_, i, rfl, _⟩ := activate_spec hactivate
  exact hserved.keepReservation (by simp)

theorem passDirty_spec (grants : Bool) :
    s.passDirty a grants = { s with theCache := (s.passDirty a grants).theCache } ∧
      OneCopy a s.theCache (s.passDirty a grants).theCache := by
  unfold passDirty
  split
  · next hdirty =>
    have hvalid : s.theCache.state a ≠ .Invalid := by
      simp only [Bool.and_eq_true, beq_iff_eq] at hdirty
      simp [hdirty.2]
    exact ⟨rfl, oneCopy_setState hvalid (.inl rfl) fun _ => StdArray.state_invalidateBlock⟩
  · exact ⟨rfl, oneCopy_of_same fun _ => rfl⟩

theorem served_serveRead (hread : p.transport.msg.type.isReadType = true)
    (hok : s.serveRead p hasMaf mafWaiting a dir = .ok (s', q)) :
    Served s p hasMaf mafWaiting a s' q := by
  unfold serveRead at hok
  split at hok
  · split at hok
    · next hwait =>
      exact .of_stall hok rfl rfl rfl rfl (oneCopy_of_same fun _ => rfl) (Bool.and_eq_true_iff.mp hwait).2
    · exact served_forwardRead hread hok
  · split at hok
    · next hwait =>
      obtain ⟨hs, hcopies⟩ := passDirty_spec (s := s) (a := a) true
      rw [hs] at hok
      exact .of_stall hok rfl rfl rfl rfl hcopies (Bool.and_eq_true_iff.mp hwait).2
    · obtain ⟨hs, hcopies⟩ := passDirty_spec (s := s) (a := a)
        (grantsWrite (s.theCache.state a) dir p.transport.msg.type)
      obtain ⟨sharers, _, hok⟩ := bind_eq_ok.mp hok
      rw [hs] at hok
      refine .of_activate (l := []) hok rfl rfl rfl (.sharers _) ?_ rfl rfl rfl
        (List.append_nil _).symm (by simp) (.inl hread) (.inr (.inr rfl))
      exact fun x => by simpa using hcopies x

theorem dropCopy_spec :
    s.dropCopy a = { s with theCache := (s.dropCopy a).theCache } ∧
      OneCopy a s.theCache (s.dropCopy a).theCache := by
  unfold dropCopy
  split
  · next hvalid => exact ⟨rfl, oneCopy_setState hvalid (.inl rfl) fun _ => rfl⟩
  · exact ⟨rfl, oneCopy_of_same fun _ => rfl⟩

theorem writeSnoops_not_evict {sharer : Int} {forward : Bool} {t : MemoryTransport}
    (ht : t ∈ writeSnoops p a dir sharer forward) : t.msg.type.isEvictType = false := by
  unfold writeSnoops at ht
  rcases List.mem_append.mp ht with ht | ht
  · split at ht
    · obtain rfl := List.mem_singleton.mp ht
      rfl
    · cases ht
  · split at ht
    · cases ht
    · obtain rfl := List.mem_singleton.mp ht
      rfl

theorem served_invalidateSharers (hwrite : p.transport.msg.type.isWriteType = true)
    (hok : s.invalidateSharers p hasMaf a dir = .ok (s', q)) :
    Served s p hasMaf mafWaiting a s' q := by
  unfold invalidateSharers at hok
  dsimp only at hok
  split at hok
  · cases hok
  · generalize hcache : (if needsForward (s.theCache.state a) dir = true then s.theCache
      else s.theCache.recordAccess a) = cache at hok
    have hstates : ∀ x, cache.state x = s.theCache.state x := by
      intro x
      rw [← hcache]
      split
      · rfl
      · exact StdArray.state_recordAccess
    obtain ⟨hdrop, hcopies⟩ := dropCopy_spec (s := { s with theCache := cache }) (a := a)
    rw [hdrop] at hok
    refine .of_activate hok rfl rfl rfl .same ?_ rfl rfl rfl rfl
      (fun t ht => writeSnoops_not_evict ht) (.inr hwrite) (.inr (.inl rfl))
    intro x
    rw [← hstates x]
    exact hcopies x

theorem served_serveWrite (hwrite : p.transport.msg.type.isWriteType = true)
    (hok : s.serveWrite p hasMaf a dir = .ok (s', q)) :
    Served s p hasMaf mafWaiting a s' q := by
  unfold serveWrite at hok
  split at hok
  · obtain ⟨sharers, _, hok⟩ := bind_eq_ok.mp hok
    refine .of_activate (l := []) hok rfl rfl rfl (.sharers _) ?_ rfl rfl rfl
      (List.append_nil _).symm (by simp) (.inr hwrite) (.inr (.inr rfl))
    split
    · next hvalid => exact oneCopy_setState hvalid (.inl rfl) fun x => by simp
    · exact oneCopy_of_same fun x => StdArray.state_recordAccess
  · exact served_invalidateSharers hwrite hok

theorem served_serveUpgrade (hwrite : p.transport.msg.type.isWriteType = true)
    (hok : s.serveUpgrade p hasMaf a dir = .ok (s', q)) :
    Served s p hasMaf mafWaiting a s' q := by
  obtain ⟨hdrop, hcopies⟩ := dropCopy_spec (s := s) (a := a)
  unfold serveUpgrade at hok
  rw [hdrop] at hok
  split at hok
  · split at hok
    · cases hok
    · exact .of_activate (l := []) hok rfl rfl rfl .same hcopies rfl rfl rfl
        (List.append_nil _).symm (by simp) (.inr hwrite) (.inr (.inr rfl))
  · refine .of_activate hok rfl rfl rfl .same hcopies rfl rfl rfl rfl ?_ (.inr hwrite) (.inr (.inl rfl))
    simp only [List.mem_singleton, forall_eq]
    rfl

theorem served_serveStore (hwrite : p.transport.msg.type.isWriteType = true)
    (hok : s.serveStore p hasMaf a = .ok (s', q)) :
    Served s p hasMaf mafWaiting a s' q := by
  unfold serveStore at hok
  split at hok
  · obtain ⟨ts, hsnoops, hts⟩ := toMemory_snoops (isEvictType_of_isWriteType hwrite)
    exact .of_activate hok rfl rfl rfl .same (oneCopy_of_same fun _ => rfl) rfl rfl rfl hsnoops hts
      (.inr hwrite) (.inl rfl)
  · exact .of_activate (l := []) hok rfl rfl rfl .same
      (oneCopy_of_same fun _ => StdArray.state_recordAccess) rfl rfl rfl (List.append_nil _).symm
      (by simp) (.inr hwrite) (.inr (.inr rfl))

/-- Converting an upgrade changes the type of the message only, from one request to
    write to another. -/
theorem convertUpgrade_spec (p : ProcessEntry) (dir : SimpleDirectoryState) :
    convertUpgrade p dir = p ∨
      p.transport.msg.type = .UpgradeReq ∧
        convertUpgrade p dir = { p with transport := { p.transport with
          msg := { p.transport.msg with type := .WriteReq } } } := by
  unfold convertUpgrade
  split
  · next hconvert => exact .inr ⟨hconvert.1, rfl⟩
  · exact .inl rfl

/-- The request was served, after its directory entry was protected and an upgrade was
    possibly converted. -/
theorem served_serveRequest (hok : s.serveRequest p hasMaf mafWaiting a = .ok (s', q)) :
    ∃ dir, Served (s.protectEntry p.transport.msg.type a) (convertUpgrade p dir) hasMaf mafWaiting a
      s' q := by
  unfold serveRequest at hok
  split at hok
  · split at hok
    · next htype =>
      have hentry : s.protectEntry p.transport.msg.type a = s := by simp [protectEntry, htype]
      have hsame : convertUpgrade p (theDefaultState cfg) = p := by simp [convertUpgrade, htype]
      refine ⟨theDefaultState cfg, ?_⟩
      rw [hentry, hsame]
      exact served_serveUntrackedStore htype hok
    · cases hok
  · next block _ =>
    refine ⟨block.state, ?_⟩
    dsimp only at hok
    split at hok
    · exact served_serveFromMemory hok
    · split at hok
      case h_1 | h_2 =>
        next htype => exact served_serveRead (by rw [htype]; rfl) hok
      · next htype => exact served_serveWrite (by rw [htype]; rfl) hok
      · next htype => exact served_serveUpgrade (by rw [htype]; rfl) hok
      · next htype => exact served_serveStore (by rw [htype]; rfl) hok
      · cases hok

/-! ## Claiming a directory entry and the cached copy -/

theorem claimDirEntry_error {type : MemoryMessageType} (h : s.claimDirEntry type a = .error st) :
    (st = .eWaitEvict ∧ ∃ d, s.theDirEvictBuffer.find a = some d ∧ d.invalidatesPending ≠ 0) ∨
    (st = .eWaitSet ∧ s.theDirectory.lookup cfg a = none ∧ s.theDirectory.pickVictim cfg a = none) := by
  have hallocate : ∀ {sharers}, s.theDirectory.allocate cfg a sharers = none →
      s.theDirectory.pickVictim cfg a = none := by
    intro sharers hnone
    unfold StdDirectory.allocate at hnone
    split at hnone
    · assumption
    · cases hnone
  unfold claimDirEntry at h
  split at h
  · next d hd =>
    split at h
    · next hpending =>
      cases h
      exact .inl ⟨rfl, d, hd, hpending⟩
    · split at h
      · cases h
      · next hlookup =>
        split at h
        · next hnone =>
          cases h
          exact .inr ⟨rfl, by simpa using hlookup, hallocate hnone⟩
        · cases h
  · split at h
    · cases h
    · next hlookup =>
      split at h
      · next hnone =>
        cases h
        simp only [Bool.or_eq_true, not_or, Bool.not_eq_true, Option.isSome_eq_false_iff,
          Option.isNone_iff_eq_none] at hlookup
        exact .inr ⟨rfl, hlookup.1, hallocate hnone⟩
      · cases h

/-- The sharers the bank knows of a block: those of its directory entry, else those of
    its entry in the directory evict buffer. -/
def knownSharers (s : Policy cfg) (a : MemoryAddress) : SimpleDirectoryState :=
  match s.theDirectory.lookup cfg a with
  | some block => block.state
  | none => ((s.theDirEvictBuffer.find a).map DirEBEntry.state).getD (theDefaultState cfg)

/-- How a block comes by its directory entry: it has one already, or it takes the way of a
    victim, which goes to the evict buffer when cores share it. -/
inductive Claimed (s : Policy cfg) (type : MemoryMessageType) (a : MemoryAddress) (s' : Policy cfg) : Prop
  | kept : s' = s → (s.theDirectory.lookup cfg a).isSome = true ∨
      type = .NonAllocatingStoreReq ∧ s.theDirEvictBuffer.find a = none → Claimed s type a s'
  | allocated {victim : Option (MemoryAddress × SimpleDirectoryState)} :
      s.theDirectory.lookup cfg a = none →
      s.theDirectory.allocate cfg a (s.knownSharers a) = some (s'.theDirectory, victim) →
      (∀ x, s'.theDirEvictBuffer.find x =
        if x = a then none else (insertVictim s.theDirEvictBuffer victim).find x) →
      Claimed s type a s'

/-- Claiming a directory entry succeeds only when no invalidates of the block are under
    way. -/
theorem claimDirEntry_ok {type : MemoryMessageType} (haligned : cfg.blockAddress a = a)
    (h : s.claimDirEntry type a = .ok s') :
    Claimed s type a s' ∧ ∀ d, s.theDirEvictBuffer.find a = some d → d.invalidatesPending = 0 := by
  unfold claimDirEntry at h
  split at h
  · next d hd =>
    split at h
    · cases h
    · next hpending =>
      have hnone : ∀ d', s.theDirEvictBuffer.find a = some d' → d'.invalidatesPending = 0 := by
        intro d' hd'
        rw [hd] at hd'
        cases hd'
        simpa using hpending
      refine ⟨?_, hnone⟩
      split at h
      · next hlookup =>
        cases h
        exact .kept rfl (.inl hlookup)
      · next hlookup =>
        rw [Bool.not_eq_true, Option.isSome_eq_false_iff, Option.isNone_iff_eq_none] at hlookup
        split at h
        · cases h
        · next dir victim hallocate =>
          cases h
          have hknown : s.knownSharers a = d.state := by
            rw [knownSharers, hlookup, hd]
            rfl
          rw [← hknown] at hallocate
          exact .allocated hlookup hallocate fun x => DirEvictBuffer.find_remove
  · next hd =>
    refine ⟨?_, fun d' hd' => by rw [hd] at hd'; cases hd'⟩
    split at h
    · next hfound =>
      cases h
      rw [Bool.or_eq_true, beq_iff_eq] at hfound
      exact .kept rfl (hfound.imp_right fun htype => ⟨htype, hd⟩)
    · next hfound =>
      simp only [Bool.or_eq_true, not_or, Bool.not_eq_true, Option.isSome_eq_false_iff,
        Option.isNone_iff_eq_none] at hfound
      split at h
      · cases h
      · next dir victim hallocate =>
        cases h
        obtain ⟨w, hw, _, _, hvictim, _⟩ := StdDirectory.allocate_spec hfound.1 haligned hallocate
        have hknown : s.knownSharers a = theDefaultState cfg := by
          rw [knownSharers, hfound.1, hd]
          rfl
        rw [← hknown] at hallocate
        refine .allocated hfound.1 hallocate fun x => ?_
        split
        · next hx =>
          -- the victim is another block, so the block itself stays out of the buffer
          have htag := StdDirectory.way_eq_none (StdDirectory.lookup_eq_none.mp hfound.1)
            (StdDirectory.pickVictim_spec hw).1
          rw [haligned] at htag
          rw [hvictim, hx]
          split
          · exact hd
          · rw [insertVictim, DirEvictBuffer.find_insert, hd, if_neg htag]
            rfl
        · rfl

/-- A claimed entry has the sharers the bank knew of. -/
theorem Claimed.lookup {type : MemoryMessageType} (haligned : cfg.blockAddress a = a)
    (h : Claimed s type a s') (htype : type ≠ .NonAllocatingStoreReq) :
    ∃ block, s'.theDirectory.lookup cfg a = some block ∧ block.state = s.knownSharers a := by
  cases h with
  | kept hsame hfound =>
    rcases hfound with hsome | ⟨hstore, _⟩
    · obtain ⟨block, hblock⟩ := Option.isSome_iff_exists.mp hsome
      exact ⟨block, hsame ▸ hblock, by rw [knownSharers, hblock]⟩
    · exact absurd hstore htype
  | allocated hlookup hallocate _ =>
    obtain ⟨w, _, _, hnew, _⟩ := StdDirectory.allocate_spec hlookup haligned hallocate
    exact ⟨_, hnew, rfl⟩

/-- Claiming a directory entry changes the directory and its evict buffer only. -/
theorem claimDirEntry_frame {type : MemoryMessageType} (h : s.claimDirEntry type a = .ok s') :
    s' = { s with theDirectory := s'.theDirectory, theDirEvictBuffer := s'.theDirEvictBuffer } := by
  unfold claimDirEntry at h
  split at h
  · split at h
    · cases h
    · split at h
      · cases h
        rfl
      · split at h <;> cases h
        rfl
  · split at h
    · cases h
      rfl
    · split at h <;> cases h
      rfl

theorem claimDirEntry_theMAF {type : MemoryMessageType} (h : s.claimDirEntry type a = .ok s') :
    s'.theMAF = s.theMAF := by
  rw [claimDirEntry_frame h]

theorem claimCacheBlock_error (h : s.claimCacheBlock a = .ok (.error st)) :
    st = .eWaitEvict ∧ s.theCache.state a = .Invalid ∧
      ∃ e, s.theCacheEvictBuffer.find a = some e ∧ e.pending = true := by
  unfold claimCacheBlock at h
  split at h
  · next hinvalid =>
    split at h
    · next e he =>
      split at h
      · next hpending =>
        cases h
        exact ⟨rfl, hinvalid, e, he, hpending⟩
      · obtain ⟨_, _, hne⟩ := map_eq_ok.mp h
        cases hne
    · cases h
  · cases h

/-- The array has a copy, or neither it nor the evict buffer has one, or the block came
    back from the evict buffer. -/
theorem claimCacheBlock_ok (h : s.claimCacheBlock a = .ok (.ok s')) :
    (s' = s ∧ (s.theCache.state a ≠ .Invalid ∨ s.theCacheEvictBuffer.find a = none)) ∨
    ∃ e, s.theCache.state a = .Invalid ∧ s.theCacheEvictBuffer.find a = some e ∧
      e.pending = false ∧ s.recoverBlock a e = .ok s' := by
  unfold claimCacheBlock at h
  split at h
  · next hinvalid =>
    split at h
    · next e he =>
      split at h
      · cases h
      · next hpending =>
        obtain ⟨s₁, hrecover, hsome⟩ := map_eq_ok.mp h
        cases hsome
        exact .inr ⟨e, hinvalid, he, by simpa using hpending, hrecover⟩
    · next hnone =>
      cases h
      exact .inl ⟨rfl, .inr hnone⟩
  · next hvalid =>
    cases h
    exact .inl ⟨rfl, .inl hvalid⟩

/-- Bringing a block back changes the array and its evict buffer only. -/
theorem recoverBlock_frame {e : EvictEntry} (h : s.recoverBlock a e = .ok s') :
    s' = { s with theCache := s'.theCache, theCacheEvictBuffer := s'.theCacheEvictBuffer } := by
  obtain ⟨⟨cache, vtag, vstate⟩, _, hpure⟩ := bind_eq_ok.mp h
  obtain rfl := pure_eq_ok.mp hpure
  unfold evictCacheBlock
  split
  · rfl
  · split <;> rfl

theorem claimCacheBlock_frame (h : s.claimCacheBlock a = .ok (.ok s')) :
    s' = { s with theCache := s'.theCache, theCacheEvictBuffer := s'.theCacheEvictBuffer } := by
  rcases claimCacheBlock_ok h with ⟨rfl, _⟩ | ⟨e, _, _, _, hrecover⟩
  · rfl
  · exact recoverBlock_frame hrecover

theorem claimCacheBlock_theMAF (h : s.claimCacheBlock a = .ok (.ok s')) : s'.theMAF = s.theMAF := by
  rw [claimCacheBlock_frame h]

theorem protectEntry_theMAF (s : Policy cfg) (type : MemoryMessageType) (a : MemoryAddress) :
    (s.protectEntry type a).theMAF = s.theMAF := by
  unfold protectEntry
  split <;> rfl

/-! ## Requests -/

/-- Other requests for the block hold this one up, in the given state. -/
def Behind (s : Policy cfg) (type : MemoryMessageType) (a : MemoryAddress) (st : MAFState) : Prop :=
  ∃ e, s.theMAF.find a = some e ∧
    (st = .eWaitSet ∧ e.state = .eWaitSet ∨
      st = .eWaitRequest ∧ (e.state = .eWaitRequest ∨ e.state = .eWaitEvict ∨
        e.state = .eWaitAck ∧ (type.isWriteType = true ∨ e.type.isWriteType = true)))

/-- No other request for the block holds this one up; reads of the block may be on
    their way when it is no write. -/
def Clear (s : Policy cfg) (type : MemoryMessageType) (a : MemoryAddress) (mafWaiting : Bool) : Prop :=
  if mafWaiting then
    type.isWriteType = false ∧
      ∃ e, s.theMAF.find a = some e ∧ e.state = .eWaitAck ∧ e.type.isWriteType = false
  else ∀ e, s.theMAF.find a = some e → 3 < e.state.toNat

/-- What can become of a request other than an eviction. -/
inductive Requested (s : Policy cfg) (p : ProcessEntry) (hasMaf : Bool) (a : MemoryAddress) :
    Policy cfg → ProcessEntry → Prop
  | redundant : Clear s p.transport.msg.type a true → p.transport.msg.type = .FetchReq →
      Requested s p hasMaf a s { p with action := if hasMaf then .eRemoveMAF else .eNoAction }
  | queued {st : MAFState} {s' : Policy cfg} {q : ProcessEntry} :
      Behind s p.transport.msg.type a st → s.stall p hasMaf a st = .ok (s', q) →
      Requested s p hasMaf a s' q
  | noEntry {st : MAFState} {w : Bool} {s' : Policy cfg} {q : ProcessEntry} :
      Clear s p.transport.msg.type a w → s.claimDirEntry p.transport.msg.type a = .error st →
      s.stall p hasMaf a st = .ok (s', q) → Requested s p hasMaf a s' q
  | writtenBack {st : MAFState} {w : Bool} {s₁ s' : Policy cfg} {q : ProcessEntry} :
      Clear s p.transport.msg.type a w → s.claimDirEntry p.transport.msg.type a = .ok s₁ →
      s₁.claimCacheBlock a = .ok (.error st) → s₁.stall p hasMaf a st = .ok (s', q) →
      Requested s p hasMaf a s' q
  | served {w : Bool} {s₁ s₂ s' : Policy cfg} {q : ProcessEntry} :
      Clear s p.transport.msg.type a w → s.claimDirEntry p.transport.msg.type a = .ok s₁ →
      s₁.claimCacheBlock a = .ok (.ok s₂) → s₂.serveRequest p hasMaf w a = .ok (s', q) →
      Requested s p hasMaf a s' q

theorem startRequest_requested (hevict : p.transport.msg.type.isEvictType = false)
    (hclear : Clear s p.transport.msg.type (cfg.blockAddress p.transport.msg.address) mafWaiting)
    (hok : startRequest reserve s p hasMaf mafWaiting = .ok (s', q)) :
    Requested s p hasMaf (cfg.blockAddress p.transport.msg.address) s' q := by
  unfold startRequest at hok
  dsimp only at hok
  rw [if_neg (by simp [hevict])] at hok
  split at hok
  · next hredundant =>
    simp only [Bool.and_eq_true, beq_iff_eq] at hredundant
    cases hok
    exact .redundant (hredundant.1.1 ▸ hclear) hredundant.1.2
  · split at hok
    · next hclaim => exact .noEntry hclear hclaim hok
    · next s₁ hclaim =>
      split at hok
      · cases hok
      · next hcache => exact .writtenBack hclear hclaim hcache hok
      · next hcache => exact .served hclear hclaim hcache hok

/-- The ways a request can end. -/
theorem doRequest_requested (hevict : p.transport.msg.type.isEvictType = false)
    (hok : doRequest reserve s p hasMaf = .ok (s', q)) :
    Requested s p hasMaf (cfg.blockAddress p.transport.msg.address) s' q := by
  unfold doRequest at hok
  dsimp only at hok
  split at hok
  · next hfind =>
    refine startRequest_requested hevict ?_ hok
    intro e he
    rw [hfind] at he
    cases he
  · next e hfind =>
    have hstart : 3 < e.state.toNat → startRequest reserve s p hasMaf false = .ok (s', q) →
        Requested s p hasMaf (cfg.blockAddress p.transport.msg.address) s' q := by
      intro hstate hok
      refine startRequest_requested hevict ?_ hok
      intro e' he'
      rw [hfind] at he'
      cases he'
      exact hstate
    split at hok
    · next hstate =>
      rw [if_neg (by simp [hevict])] at hok
      exact .queued ⟨e, hfind, .inl ⟨rfl, hstate⟩⟩ hok
    · next hstate =>
      rw [if_neg (by simp [hevict])] at hok
      exact .queued ⟨e, hfind, .inr ⟨rfl, .inr (.inl hstate)⟩⟩ hok
    · next hstate => exact .queued ⟨e, hfind, .inr ⟨rfl, .inl hstate⟩⟩ hok
    · next hstate =>
      split at hok
      · next hconflict =>
        rw [Bool.or_eq_true] at hconflict
        exact .queued ⟨e, hfind, .inr ⟨rfl, .inr (.inr ⟨hstate, hconflict⟩)⟩⟩ hok
      · next hconflict =>
        simp only [Bool.or_eq_true, not_or, Bool.not_eq_true] at hconflict
        have hclear : Clear s p.transport.msg.type (cfg.blockAddress p.transport.msg.address) true :=
          ⟨hconflict.1, e, hfind, hstate, hconflict.2⟩
        exact startRequest_requested hevict hclear hok
    case h_5 | h_6 | h_7 =>
      next hstate => exact hstart (by rw [hstate]; decide) hok
    · cases hok

/-! ## Evictions by a core -/

/-- Blocks of the directory evict buffer that have invalidates pending stay there, and
    neither blocks nor invalidates are added. -/
structure KeepsPending (b b' : DirEvictBuffer) : Prop where
  pending : ∀ {x d}, b.find x = some d → d.invalidatesPending ≠ 0 →
    ∃ d', b'.find x = some d' ∧ d'.invalidatesPending ≠ 0
  found : ∀ {x d'}, b'.find x = some d' →
    ∃ d, b.find x = some d ∧ d'.invalidatesPending = d.invalidatesPending

theorem KeepsPending.refl (b : DirEvictBuffer) : KeepsPending b b :=
  ⟨fun h hp => ⟨_, h, hp⟩, fun h => ⟨_, h, rfl⟩⟩

theorem KeepsPending.trans {b₁ b₂ b₃ : DirEvictBuffer} (h₁₂ : KeepsPending b₁ b₂)
    (h₂₃ : KeepsPending b₂ b₃) : KeepsPending b₁ b₃ := by
  refine ⟨fun h hp => ?_, fun h => ?_⟩
  · obtain ⟨d, hd, hdp⟩ := h₁₂.pending h hp
    exact h₂₃.pending hd hdp
  · obtain ⟨d, hd, hd'⟩ := h₂₃.found h
    obtain ⟨d₁, hd₁, hd₁'⟩ := h₁₂.found hd
    exact ⟨d₁, hd₁, hd'.trans hd₁'⟩

theorem keepsPending_modify {b : DirEvictBuffer} {f : DirEBEntry → DirEBEntry}
    (hf : ∀ e, (f e).address = e.address) (hpending : ∀ e, (f e).invalidatesPending = e.invalidatesPending) :
    KeepsPending b (b.modify a f hf) := by
  refine ⟨?_, ?_⟩
  · intro x d hd hp
    by_cases hx : x = a
    · subst hx
      refine ⟨f d, ?_, by rwa [hpending]⟩
      rw [DirEvictBuffer.find_modify hf, if_pos rfl, hd]
      rfl
    · refine ⟨d, ?_, hp⟩
      rw [DirEvictBuffer.find_modify hf, if_neg hx]
      exact hd
  · intro x d' hd'
    rw [DirEvictBuffer.find_modify hf] at hd'
    split at hd'
    · next hx =>
      obtain ⟨d, hd, rfl⟩ := Option.map_eq_some_iff.mp hd'
      exact ⟨d, hx ▸ hd, hpending d⟩
    · exact ⟨d', hd', rfl⟩

theorem keepsPending_setState {b : DirEvictBuffer} {sharers : SimpleDirectoryState} :
    KeepsPending b (b.setState a sharers) :=
  keepsPending_modify _ fun _ => rfl

theorem keepsPending_setCacheEBReserved {b : DirEvictBuffer} {n : Int} :
    KeepsPending b (b.setCacheEBReserved a n) :=
  keepsPending_modify _ fun _ => rfl

theorem keepsPending_remove {b : DirEvictBuffer}
    (hnone : ∀ d, b.find a = some d → d.invalidatesPending = 0) : KeepsPending b (b.remove a) := by
  refine ⟨?_, ?_⟩
  · intro x d hd hp
    have hx : x ≠ a := by
      rintro rfl
      exact hp (hnone d hd)
    exact ⟨d, by rw [DirEvictBuffer.find_remove, if_neg hx]; exact hd, hp⟩
  · intro x d' hd'
    rw [DirEvictBuffer.find_remove] at hd'
    split at hd'
    · cases hd'
    · exact ⟨d', hd', rfl⟩

/-- How an eviction by a core ends that does not have to wait. -/
structure Left (s : Policy cfg) (p : ProcessEntry) (s' : Policy cfg) (q : ProcessEntry) : Prop where
  maf : s'.theMAF = s.theMAF
  entry : OneEntry cfg p.transport.msg.address s.theDirectory s'.theDirectory
  dirEB : KeepsPending s.theDirEvictBuffer s'.theDirEvictBuffer
  cache : s'.theCache = s.theCache
  cacheEB : s'.theCacheEvictBuffer = s.theCacheEvictBuffer
  transport : q.transport = p.transport
  snoops : q.snoopTransports = p.snoopTransports
  reply : q.replyTransport = p.replyTransport
  action :
    ((q.action = .eForward ∨ q.action = .eNoAction) ∧ q.maf = p.maf) ∨
    ((q.action = .eFwdAndWakeEvictMAF ∨ q.action = .eWakeEvictMAF) ∧
      ∃ i u, q.maf = some i ∧ s.theMAF.ticket i = some u ∧ u.At p.transport.msg.address .eWaitEvict)

theorem finishEvict_left {active fwd : Bool} (hok : s.finishEvict p active fwd = .ok (s', q)) :
    Left s p s' q := by
  have hdone : ∀ b : Bool, (if b then ProcessAction.eForward else .eNoAction) = .eForward ∨
      (if b then ProcessAction.eForward else .eNoAction) = .eNoAction := by
    intro b
    cases b with
    | true => exact .inl rfl
    | false => exact .inr rfl
  have hwake : ∀ b : Bool, (if b then ProcessAction.eFwdAndWakeEvictMAF else .eWakeEvictMAF) =
      .eFwdAndWakeEvictMAF ∨
      (if b then ProcessAction.eFwdAndWakeEvictMAF else .eWakeEvictMAF) = .eWakeEvictMAF := by
    intro b
    cases b with
    | true => exact .inl rfl
    | false => exact .inr rfl
  unfold finishEvict at hok
  dsimp only at hok
  split at hok
  · next d hd =>
    split at hok
    · cases hok
    · obtain ⟨sharers, _, hok⟩ := bind_eq_ok.mp hok
      split at hok
      · next hlast =>
        have hremove : KeepsPending s.theDirEvictBuffer
            ((s.theDirEvictBuffer.setState p.transport.msg.address sharers).remove
              p.transport.msg.address) := by
          refine keepsPending_setState.trans (keepsPending_remove fun d' hd' => ?_)
          rw [DirEvictBuffer.find_setState, if_pos rfl, hd] at hd'
          cases hd'
          exact hlast.1
        split at hok
        · next w hw =>
          split at hok
          · cases hok
          · cases hok
            obtain ⟨hticket, hat⟩ := MissAddressFile.ticket_of_findFirst hw
            exact ⟨rfl, .same, hremove, rfl, rfl, rfl, rfl, rfl,
              .inr ⟨hwake fwd, w.stamp, w.ticket, rfl, hticket, hat⟩⟩
        · cases hok
          exact ⟨rfl, .same, hremove, rfl, rfl, rfl, rfl, rfl, .inl ⟨hdone fwd, rfl⟩⟩
      · cases hok
        exact ⟨rfl, .same, keepsPending_setState, rfl, rfl, rfl, rfl, rfl, .inl ⟨hdone fwd, rfl⟩⟩
  · split at hok
    · obtain ⟨sharers, _, hpure⟩ := bind_eq_ok.mp hok
      cases pure_eq_ok.mp hpure
      exact ⟨rfl, .sharers _, .refl _, rfl, rfl, rfl, rfl, rfl, .inl ⟨hdone fwd, rfl⟩⟩
    · cases hok
      exact ⟨rfl, .same, .refl _, rfl, rfl, rfl, rfl, rfl, .inl ⟨hdone fwd, rfl⟩⟩

/-- What the data of an eviction does to the array and its evict buffer. -/
inductive Stored (s : Policy cfg) (p : ProcessEntry) (s' : Policy cfg) : Prop
  | nothing : s'.theCache = s.theCache → s'.theCacheEvictBuffer = s.theCacheEvictBuffer → Stored s p s'
  | updated : s.theCache.state p.transport.msg.address ≠ .Invalid →
      s'.theCache = (s.theCache.recordAccess p.transport.msg.address).setState
        p.transport.msg.address .Modified →
      s'.theCacheEvictBuffer = s.theCacheEvictBuffer → Stored s p s'
  | filled {s₁ : Policy cfg} : carriesData p.transport.msg = true → s.validSharer p = true →
      s.theCache.state p.transport.msg.address = .Invalid →
      s.fillFromEvict p.transport.msg = .ok s₁ → s'.theCache = s₁.theCache →
      s'.theCacheEvictBuffer = s₁.theCacheEvictBuffer → Stored s p s'

/-- What can become of an eviction by a core: it waits for a request of the same core,
    or it is done and leaves the tickets alone. -/
structure Evicted (s : Policy cfg) (p : ProcessEntry) (s' : Policy cfg) (q : ProcessEntry) : Prop where
  maf : s'.theMAF = s.theMAF
  entry : OneEntry cfg p.transport.msg.address s.theDirectory s'.theDirectory
  dirEB : KeepsPending s.theDirEvictBuffer s'.theDirEvictBuffer
  stored : Stored s p s'
  transport : q.transport = p.transport
  snoops : q.snoopTransports = (withEvictAck p).snoopTransports
  reply : q.replyTransport = p.replyTransport
  action :
    ((q.action = .eForward ∨ q.action = .eNoAction) ∧ q.maf = p.maf) ∨
    ((q.action = .eFwdAndWakeEvictMAF ∨ q.action = .eWakeEvictMAF) ∧
      ∃ i u, q.maf = some i ∧ s.theMAF.ticket i = some u ∧ u.At p.transport.msg.address .eWaitEvict)

theorem withEvictAck_same (p : ProcessEntry) :
    withEvictAck p = { p with snoopTransports := (withEvictAck p).snoopTransports } := by
  unfold withEvictAck
  split <;> rfl

@[simp]
theorem withEvictAck_transport (p : ProcessEntry) : (withEvictAck p).transport = p.transport := by
  rw [withEvictAck_same]

@[simp]
theorem withEvictAck_maf (p : ProcessEntry) : (withEvictAck p).maf = p.maf := by
  rw [withEvictAck_same]

@[simp]
theorem withEvictAck_replyTransport (p : ProcessEntry) :
    (withEvictAck p).replyTransport = p.replyTransport := by
  rw [withEvictAck_same]

@[simp]
theorem withEvictAck_cacheEBReserved (p : ProcessEntry) :
    (withEvictAck p).cacheEBReserved = p.cacheEBReserved := by
  rw [withEvictAck_same]

theorem stealReservation_spec (s : Policy cfg) (p : ProcessEntry) :
    (s.stealReservation p).1 = { s with theDirEvictBuffer := (s.stealReservation p).1.theDirEvictBuffer } ∧
    KeepsPending s.theDirEvictBuffer (s.stealReservation p).1.theDirEvictBuffer ∧
    (s.stealReservation p).2 = { p with cacheEBReserved := (s.stealReservation p).2.cacheEBReserved } ∧
    p.cacheEBReserved ≤ (s.stealReservation p).2.cacheEBReserved := by
  unfold stealReservation
  split
  · split
    · next hreserved =>
      refine ⟨rfl, keepsPending_setCacheEBReserved, rfl, ?_⟩
      exact le_add_of_nonneg_right hreserved.le
    · exact ⟨rfl, .refl _, rfl, le_refl _⟩
  · exact ⟨rfl, .refl _, rfl, le_refl _⟩

theorem fillFromEvict_frame {req : MemoryMessage} (h : s.fillFromEvict req = .ok s') :
    s' = { s with theCache := s'.theCache, theCacheEvictBuffer := s'.theCacheEvictBuffer } := by
  obtain ⟨⟨cache, vtag, vstate⟩, _, hpure⟩ := bind_eq_ok.mp h
  obtain rfl := pure_eq_ok.mp hpure
  unfold evictCacheBlock
  split
  · rfl
  · split <;> rfl

/-- Filling the array from an eviction does not look at the directory evict buffer. -/
theorem fillFromEvict_dirEB {req : MemoryMessage} {b : DirEvictBuffer} :
    { s with theDirEvictBuffer := b }.fillFromEvict req =
      (fun s => { s with theDirEvictBuffer := b }) <$> s.fillFromEvict req := by
  unfold fillFromEvict
  cases s.theCache.allocate req.address with
  | error _ => rfl
  | ok r =>
    obtain ⟨cache, vtag, vstate⟩ := r
    refine congrArg Except.ok ?_
    unfold evictCacheBlock
    split
    · rfl
    · split <;> rfl

/-- With a reservation of its own the process never has to send the data to memory. -/
theorem writeEvictData_spec {t : Policy cfg × ProcessEntry × Bool} {fwd : Bool}
    (hdata : carriesData p.transport.msg = true) (hvalid : s.validSharer p = true)
    (hreserved : 0 < p.cacheEBReserved)
    (hok : writeEvictData reserve s (withEvictAck p) hasMaf fwd = .ok t) :
    t.1.theMAF = s.theMAF ∧ t.1.theDirectory = s.theDirectory ∧
      KeepsPending s.theDirEvictBuffer t.1.theDirEvictBuffer ∧ Stored s p t.1 ∧
      t.2.1 = { withEvictAck p with cacheEBReserved := t.2.1.cacheEBReserved } := by
  unfold writeEvictData at hok
  simp only [withEvictAck_transport] at hok
  split at hok
  · next hinvalid =>
    obtain ⟨hsteal, hkeeps, hproc, hle⟩ := stealReservation_spec s (withEvictAck p)
    rw [withEvictAck_cacheEBReserved] at hle
    rw [if_pos (by simp [hreserved.trans_le hle])] at hok
    obtain ⟨s₂, hfill, hpure⟩ := bind_eq_ok.mp hok
    obtain rfl := pure_eq_ok.mp hpure
    rw [hsteal, fillFromEvict_dirEB] at hfill
    obtain ⟨s₁, hfrom, rfl⟩ := map_eq_ok.mp hfill
    have hframe := fillFromEvict_frame hfrom
    refine ⟨?_, ?_, hkeeps, .filled hdata hvalid hinvalid hfrom rfl rfl, hproc⟩
    · rw [hframe]
    · rw [hframe]
  · next hinvalid =>
    cases hok
    exact ⟨rfl, rfl, .refl _, .updated hinvalid rfl rfl, rfl⟩

/-- An eviction that does not wait, by a process with a reservation of its own. -/
theorem doEvict_evicted (hwaits : s.evictWaits p = false) (hreserved : 0 < p.cacheEBReserved)
    (hok : doEvict reserve s p hasMaf = .ok (s', q)) : Evicted s p s' q := by
  unfold doEvict at hok
  rw [if_neg (by simp [hwaits])] at hok
  split at hok
  · next hdata =>
    rw [Bool.and_eq_true] at hdata
    obtain ⟨t, hwrite, hfinish⟩ := bind_eq_ok.mp hok
    obtain ⟨hmaf, hdir, hkeeps, hstored, hproc⟩ :=
      writeEvictData_spec hdata.1 hdata.2 hreserved hwrite
    obtain ⟨hmaf', hentry, hkeeps', hcache, hcacheEB, htransport, hsnoops, hreply, haction⟩ :=
      finishEvict_left hfinish
    have hsame : t.2.1.transport = p.transport ∧ t.2.1.maf = p.maf ∧
        t.2.1.replyTransport = p.replyTransport ∧
        t.2.1.snoopTransports = (withEvictAck p).snoopTransports := by
      rw [hproc]
      simp
    rw [hmaf, hsame.1, hsame.2.1] at haction
    rw [hdir, hsame.1] at hentry
    refine ⟨hmaf'.trans hmaf, hentry, hkeeps.trans hkeeps', ?_, htransport.trans hsame.1,
      hsnoops.trans hsame.2.2.2, hreply.trans hsame.2.2.1, haction⟩
    cases hstored with
    | nothing h₁ h₂ => exact .nothing (hcache.trans h₁) (hcacheEB.trans h₂)
    | updated hv h₁ h₂ => exact .updated hv (hcache.trans h₁) (hcacheEB.trans h₂)
    | filled hd hv hi hf h₁ h₂ => exact .filled hd hv hi hf (hcache.trans h₁) (hcacheEB.trans h₂)
  · obtain ⟨hmaf, hentry, hkeeps, hcache, hcacheEB, htransport, hsnoops, hreply, haction⟩ :=
      finishEvict_left hok
    rw [withEvictAck_transport, withEvictAck_maf] at haction
    rw [withEvictAck_transport] at hentry
    exact ⟨hmaf, hentry, hkeeps, .nothing hcache hcacheEB, htransport.trans (withEvictAck_transport p),
      hsnoops, hreply.trans (withEvictAck_replyTransport p), haction⟩

/-- An eviction that waits is recorded and nothing else changes. -/
theorem doEvict_waits (hwaits : s.evictWaits p = true)
    (hok : doEvict reserve s p hasMaf = .ok (s', q)) :
    s.stall p hasMaf p.transport.msg.address .eWaitRequest = .ok (s', q) := by
  unfold doEvict at hok
  rwa [if_pos hwaits] at hok

/-- Requests for the block that hold up an eviction too: one that waits behind another,
    or an active write. -/
def evictBehind (s : Policy cfg) (p : ProcessEntry) : Bool :=
  (s.theMAF.find (cfg.blockAddress p.transport.msg.address)).any fun e =>
    e.state == .eWaitRequest || e.state == .eWaitAck && e.type.isWriteType

/-- An eviction has to wait: behind the other requests for its block, or for a request of
    the same core. -/
def evictHeldUp (s : Policy cfg) (p : ProcessEntry) : Bool := s.evictBehind p || s.evictWaits p

/-- What an eviction does: it queues behind the other requests for its block, or it
    goes ahead. -/
theorem doRequest_evict (hevict : p.transport.msg.type.isEvictType = true)
    (hok : doRequest reserve s p hasMaf = .ok (s', q)) :
    (s.evictBehind p = true ∧
      Behind s p.transport.msg.type (cfg.blockAddress p.transport.msg.address) .eWaitRequest ∧
      s.stall p hasMaf (cfg.blockAddress p.transport.msg.address) .eWaitRequest = .ok (s', q)) ∨
    (s.evictBehind p = false ∧ doEvict reserve s p hasMaf = .ok (s', q)) := by
  have hstart : ∀ w, startRequest reserve s p hasMaf w = .ok (s', q) →
      doEvict reserve s p hasMaf = .ok (s', q) := by
    intro w hok
    unfold startRequest at hok
    dsimp only at hok
    rwa [if_pos hevict] at hok
  have hread : p.transport.msg.type.isWriteType = false := by
    generalize p.transport.msg.type = type at hevict
    cases type <;> simp_all [MemoryMessageType.isEvictType, MemoryMessageType.isWriteType]
  unfold doRequest at hok
  dsimp only at hok
  unfold evictBehind
  split at hok
  · next hfind =>
    rw [hfind]
    exact .inr ⟨rfl, hstart _ hok⟩
  · next e hfind =>
    rw [hfind]
    split at hok
    · next hstate =>
      rw [if_pos hevict] at hok
      exact .inr ⟨by simp [hstate], hok⟩
    · next hstate =>
      rw [if_pos hevict] at hok
      exact .inr ⟨by simp [hstate], hok⟩
    · next hstate =>
      exact .inl ⟨by simp [hstate], ⟨e, hfind, .inr ⟨rfl, .inl hstate⟩⟩, hok⟩
    · next hstate =>
      split at hok
      · next hconflict =>
        rw [hread, Bool.false_or] at hconflict
        exact .inl ⟨by simp [hstate, hconflict],
          ⟨e, hfind, .inr ⟨rfl, .inr (.inr ⟨hstate, .inr hconflict⟩)⟩⟩, hok⟩
      · next hconflict =>
        rw [hread, Bool.false_or, Bool.not_eq_true] at hconflict
        exact .inr ⟨by simp [hstate, hconflict], hstart _ hok⟩
    case h_5 | h_6 | h_7 =>
      next hstate => exact .inr ⟨by simp [hstate], hstart _ hok⟩
    · cases hok

end Policy

end nCMPCache
