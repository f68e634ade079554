import Flexus.FastCMPCache.Coherence

/-!
# Every request is served

What the rows of the protocol have in common is said first, for each kind of request.
-/

namespace nFastCMPCache

open nCMPCache (MemoryMessageType)
open nFastCache
open CoherenceState_t
open InfiniteDirectory (findOrCreateEntry Responded)

/-! ## The rows of the protocol -/

/-- A block that is not in the cache is only given a valid state by an allocation. -/
def PrimaryAction.Places (a : PrimaryAction) (c_state : CoherenceState_t) : Prop :=
  a.allocate = true ∨ c_state ≠ kInvalid ∨ a.next_state = (kInvalid, kInvalid)

/-- The snoops of an action invalidate the sharers. -/
def PrimaryAction.Invalidates (a : PrimaryAction) (d_state : SharingState) : Prop :=
  a.snoop_type = .Invalidate ∧
    (a.terminal_response = (.InvalidateAck, .InvUpdateAck) ∨ a.terminal_response = (NoRequest, NoRequest)) ∧
    (d_state = .ManySharers → a.multicast = true)

/-- The snoops of an action ask the sharers for the block. -/
def PrimaryAction.Asks (a : PrimaryAction) : Prop :=
  a.snoop_type = .ReturnReq ∧ a.terminal_response = (.ReturnReply, .ReturnReplyDirty)

section Rows

open SingleCMPProtocol

variable {L : CoherenceState_t} {d : SharingState}

/-- Reads and fetches of a block that no cache has. Only a reply without permission to write
    leaves the block in the cache modified or shared. -/
theorem share_row_zero (hL : IsMESI L) {type : MemoryMessageType} (htype : type = .ReadReq ∨ type = .FetchReq) :
    ∃ a, getAction type L .ZeroSharers = some a ∧ a.snoop_type = NoRequest ∧ a.Places L ∧
      (a.response.1 = .MissReply ∧ IsMESI a.next_state.1 ∨
        type = .ReadReq ∧ (a.response.1 = .MissReplyWritable ∨ a.response.1 = .MissReplyDirty) ∧
          (a.next_state.1 = kExclusive ∨ a.next_state.1 = kInvalid)) := by
  rcases htype with rfl | rfl <;> cases L <;>
    first
    | exact absurd rfl hL.1
    | exact absurd rfl hL.2
    | exact ⟨_, rfl, rfl, by simp [PrimaryAction.Places], by simp [IsMESI]⟩

/-- Reads and fetches of a block that some cache has. The sharers are asked unless they
    have the block shared for certain. -/
theorem share_row (hL : IsMESI L) (hd : d ≠ .ZeroSharers) {type : MemoryMessageType}
    (htype : type = .ReadReq ∨ type = .FetchReq) :
    ∃ a, getAction type L d = some a ∧ a.Places L ∧ a.response.1 = .MissReply ∧
      IsMESI a.next_state.1 ∧ IsMESI a.next_state.2 ∧
      (a.snoop_type = NoRequest ∧ (d = .ManySharers ∨ L = kModified ∨ L = kShared) ∨
        a.Asks ∧ (d = .OneSharer → a.response.2 = .MissReply)) := by
  rcases htype with rfl | rfl <;> cases L <;> cases d <;>
    first
    | exact absurd rfl hL.1
    | exact absurd rfl hL.2
    | exact absurd rfl hd
    | exact ⟨_, rfl, by simp [PrimaryAction.Places], rfl, by simp [IsMESI], by simp [IsMESI],
        by simp [PrimaryAction.Asks]⟩

/-- The replies with which a miss is filled. -/
def IsFill (reply : MemoryMessageType) : Prop :=
  reply = .MissReply ∨ reply = .MissReplyWritable ∨ reply = .MissReplyDirty

/-- A write takes the block out of the cache and away from all sharers. -/
theorem write_row (hL : IsMESI L) (d : SharingState) :
    ∃ a, getAction .WriteReq L d = some a ∧ a.next_state = (kInvalid, kInvalid) ∧ IsFill a.response.1 ∧
      (d = .OneSharer → IsFill a.response.2) ∧
      (d = .ZeroSharers ∧ a.snoop_type = NoRequest ∨ d ≠ .ZeroSharers ∧ a.Invalidates d) := by
  cases L <;> cases d <;>
    first
    | exact absurd rfl hL.1
    | exact absurd rfl hL.2
    | exact ⟨_, rfl, rfl, by simp [IsFill], by simp [IsFill], by simp [PrimaryAction.Invalidates]⟩

theorem nonAllocatingStore_row (hL : IsMESI L) (d : SharingState) :
    ∃ a, getAction .NonAllocatingStoreReq L d = some a ∧ a.Places L ∧ IsMESI a.next_state.1 ∧
      a.next_state.2 = a.next_state.1 ∧ a.response.1 = .NonAllocatingStoreReply ∧
      (d = .OneSharer → a.response.2 = .NonAllocatingStoreReply) ∧
      (d = .ZeroSharers ∧ a.snoop_type = NoRequest ∨ d ≠ .ZeroSharers ∧ a.Invalidates d) := by
  cases L <;> cases d <;>
    first
    | exact absurd rfl hL.1
    | exact absurd rfl hL.2
    | exact ⟨_, rfl, by simp [PrimaryAction.Places], by simp [IsMESI], rfl, rfl, by simp,
        by simp [PrimaryAction.Invalidates]⟩

/-- An upgrade comes from a sharer; the other sharers are invalidated. -/
theorem upgrade_row (hL : IsMESI L) (hd : d ≠ .ZeroSharers) :
    ∃ a, getAction .UpgradeReq L d = some a ∧ a.next_state = (kInvalid, kInvalid) ∧
      a.response.1 = .UpgradeReply ∧ a.forward_request = false ∧
      (d = .OneSharer ∧ a.snoop_type = NoRequest ∨ d = .ManySharers ∧ a.Invalidates d) := by
  cases L <;> cases d <;>
    first
    | exact absurd rfl hL.1
    | exact absurd rfl hL.2
    | exact absurd rfl hd
    | exact ⟨_, rfl, rfl, rfl, rfl, by simp [PrimaryAction.Invalidates]⟩

/-- An eviction comes from a sharer; from the one that may write the block only when the cache
    has it at most exclusive. -/
theorem evict_row (hL : IsMESI L) {t : CoherenceState_t}
    (hcase : t = kShared ∧ d ≠ .ZeroSharers ∨ Owns t ∧ d = .OneSharer ∧ (L = kExclusive ∨ L = kInvalid)) :
    ∃ a, getAction (InclusiveMESI.evict false t) L d = some a ∧ a.snoop_type = NoRequest ∧ a.Places L ∧
      a.forward_request = false ∧ IsMESI a.next_state.1 := by
  rcases hcase with ⟨rfl, hd⟩ | ⟨rfl | rfl, rfl, rfl | rfl⟩
  · cases L <;> cases d <;>
      first
      | exact absurd rfl hL.1
      | exact absurd rfl hL.2
      | exact absurd rfl hd
      | exact ⟨_, rfl, rfl, by simp [PrimaryAction.Places], rfl, by simp [IsMESI]⟩
  all_goals exact ⟨_, rfl, rfl, by simp [PrimaryAction.Places], rfl, by simp [IsMESI]⟩

end Rows

/-! ## Requests -/

section Requests

variable {n size : Nat} {A₁ A₂ : AbstractCache size} (cfg : Config) (pcfg : PrivateConfig)
  {address blk : Nat} {i : Fin n} {t st left : CoherenceState_t} {type : MemoryMessageType}
  {action : PrimaryAction} {s s₁ : System A₁ A₂ (InfiniteDirectory n)}

/-- What a request for a block has done: the requesting cache is as it was, the block is
    coherent when that cache is counted with a new state, and other blocks still are. -/
structure Served (i : Fin n) (blk : Nat) (st : CoherenceState_t)
    (s s' : System A₁ A₂ (InfiniteDirectory n)) : Prop where
  requester : s'.above i = s.above i
  block : CoherentWith s' i st blk
  others : ∀ b t, b ≠ blk → CoherentWith s i t b → CoherentWith s' i t b

/-- The states that the others are left in fit the new state of the requesting cache and that
    of the shared cache. -/
def Fits (st nstate : CoherenceState_t) (s₁ : System A₁ A₂ (InfiniteDirectory n)) (i : Fin n) (blk : Nat) :
    Prop :=
  (st = kShared ∨ st = kInvalid) ∧ IsMESI nstate ∧
      (∀ j, j ≠ i → stateAt s₁ j blk = kShared ∨ stateAt s₁ j blk = kInvalid) ∨
    Owns st ∧ (nstate = kExclusive ∨ nstate = kInvalid) ∧ ∀ j, j ≠ i → stateAt s₁ j blk = kInvalid

/-- A request is served if its snoops leave the other caches in a state that fits, and the
    directory records the new state of the requesting cache. -/
theorem serve (st nstate : CoherenceState_t) {result : SnoopResult} {success : Bool}
    {dir : inf_directory_t n} (h : CoherentWith s i t blk) (hblk : blk = blockOf size address)
    (haction : SingleCMPProtocol.getAction type (A₂.stateOf s.theCache blk)
      (findOrCreateEntry blk s.theDirectory).theState = some action)
    (hsnoop : snoopSharers cfg (snoopPorts cfg pcfg) action i address blk
      (findOrCreateEntry blk s.theDirectory).theSharers (s.theDirectory blk).isSome (looked s blk) =
      some (result, success, s₁))
    (hphase : SnoopPhase i blk left (looked s blk) s₁)
    (hrespond : InfiniteDirectory.processRequestResponse i type result.our_response
      (s.theDirectory blk).isSome blk s₁.theDirectory = some dir)
    (hresponded : Responded i (isValid st) blk s₁.theDirectory dir)
    (hnstate : (if result.use_ns1 then action.next_state.2 else action.next_state.1) = nstate)
    (hok : action.allocate = true ∨ A₂.stateOf s.theCache blk ≠ kInvalid ∨ nstate = kInvalid)
    (hclass : isClassified type (!success && action.forward_request) success = true)
    (hfits : Fits st nstate s₁ i blk) :
    ∃ s', processRequest cfg (snoopPorts cfg pcfg) i type address s = some (result.our_response, s') ∧
      Served i blk st s s' := by
  obtain ⟨s', hrun, habove, hdir, hnext, hcache⟩ :=
    processRequest_of cfg pcfg hblk haction hsnoop hphase hrespond hnstate hok hclass
  have hstates : ∀ j b, stateAt s' j b = stateAt s₁ j b := fun j b => by rw [stateAt, habove]; rfl
  have hexact : ∀ j, (findOrCreateEntry blk s'.theDirectory).theSharers.isSharer j =
      isValid (statesWith s' i st blk j) := by
    intro j
    rw [hdir, hresponded.sharers]
    by_cases hj : j = i
    · rw [if_pos hj, hj, statesWith_self]
    · have hold := h.exact j
      rw [statesWith_of_ne hj] at hold
      rw [if_neg hj, hphase.sharers, statesWith_of_ne hj, hstates, hphase.block j hj]
      change (_ && _) = isValid (if stateAt s j blk = kInvalid then kInvalid else left)
      have hsharer : (findOrCreateEntry blk (looked s blk).theDirectory).theSharers.isSharer j =
          isValid (stateAt s j blk) := hold
      rw [hsharer]
      by_cases hvalid : stateAt s j blk = kInvalid
      · simp [hvalid, isValid]
      · simp [hvalid, hj, isValid_iff.mpr hvalid]
  refine ⟨s', hrun, ⟨by rw [habove, hphase.requester]; rfl, ?_, ?_⟩⟩
  · have hconsistent : (findOrCreateEntry blk s'.theDirectory).Consistent := by
      rw [hdir]
      exact hresponded.consistent
    rcases hfits with ⟨hst, hmesi, hrest⟩ | ⟨howns, hmesi, hrest⟩
    · apply Coherent.of_shared hexact hconsistent
      · rw [hnext]
        exact hmesi
      · intro j
        by_cases hj : j = i
        · rw [hj, statesWith_self]
          exact hst
        · rw [statesWith_of_ne hj, hstates]
          exact hrest j hj
    · apply Coherent.of_owned (i := i) hexact hconsistent
      · rw [hnext]
        exact hmesi
      · rw [statesWith_self]
        exact howns
      · intro j hj
        rw [statesWith_of_ne hj, hstates]
        exact hrest j hj
  · intro b t' hb hcoherent
    have hentry : findOrCreateEntry b s'.theDirectory = findOrCreateEntry b s.theDirectory := by
      rw [hdir, findOrCreateEntry, hresponded.entries b hb, hphase.entries b hb]
      rfl
    have hview : statesWith s' i t' b = statesWith s i t' b := by
      funext j
      by_cases hj : j = i
      · rw [hj, statesWith_self, statesWith_self]
      · rw [statesWith_of_ne hj, statesWith_of_ne hj, hstates, hphase.states j b hb]
        rfl
    unfold CoherentWith
    rw [hentry, hview]
    rcases hcache b hb with hsame | hlost
    · rw [hsame]
      exact hcoherent
    · rw [hlost]
      exact hcoherent.lose

theorem snoopSharers_quiet (hsnoop : action.snoop_type = NoRequest) {sharers : SharingVector n}
    {found : Bool} : snoopSharers cfg (snoopPorts cfg pcfg) action i address blk sharers found s =
      some ({ response := NoRequest, our_response := action.response.1, use_ns1 := false }, false, s) := by
  unfold snoopSharers
  rw [if_pos hsnoop]

theorem isClassified_request (a b : Bool) (h : type = .ReadReq ∨ type = .FetchReq ∨ type = .WriteReq ∨
    type = .NonAllocatingStoreReq) : isClassified type a b = true := by
  rcases h with rfl | rfl | rfl | rfl <;> cases a <;> cases b <;> rfl

/-- The snoops of an action for a block that some other cache has. Only a single sharer can
    give the second answer. -/
theorem snoop_sharers {L : CoherenceState_t} (h : Coherent (statesWith s i t blk) L
      (findOrCreateEntry blk s.theDirectory))
    (hblk : blk = blockOf size address) (htype : IsSnoop action.snoop_type)
    (hfirst : (firstResult action (snooped action.snoop_type kShared).1).use_ns1 = false)
    (hcase : (findOrCreateEntry blk s.theDirectory).theState = .OneSharer ∧ t = kInvalid ∨
      (findOrCreateEntry blk s.theDirectory).theState = .ManySharers ∧
        (action.snoop_type = .Invalidate → action.multicast = true)) :
    ∃ result success s₁, snoopSharers cfg (snoopPorts cfg pcfg) action i address blk
        (findOrCreateEntry blk s.theDirectory).theSharers (s.theDirectory blk).isSome s =
        some (result, success, s₁) ∧
      SnoopPhase i blk (leftBy action.snoop_type) s s₁ ∧
      (result.our_response = action.response.1 ∧ result.use_ns1 = false ∨
        (findOrCreateEntry blk s.theDirectory).theState = .OneSharer ∧
          result.our_response = action.response.2 ∧ result.use_ns1 = true) := by
  rcases hcase with ⟨hone, rfl⟩ | ⟨hmany, hmulticast⟩
  · obtain ⟨result, success, s₁, hrun, hphase, hresult⟩ :=
      snoop_one cfg pcfg h hone hblk htype
    exact ⟨result, success, s₁, hrun, hphase, hresult.imp_right fun hsecond => ⟨hone, hsecond⟩⟩
  · obtain ⟨result, success, s₁, hrun, hphase, hresult⟩ :=
      snoop_many cfg pcfg h hmany hblk htype hfirst hmulticast
    exact ⟨result, success, s₁, hrun, hphase, .inl hresult⟩

/-- The state of the sharers is one of three. -/
theorem state_cases {e : BlockDirectoryEntry n} (h : e.theState ≠ .ZeroSharers) :
    e.theState = .OneSharer ∨ e.theState = .ManySharers := by
  cases hstate : e.theState with
  | ZeroSharers => exact absurd hstate h
  | OneSharer => exact .inl rfl
  | ManySharers => exact .inr rfl

theorem SnoopPhase.left_cases (hphase : SnoopPhase i blk left s s₁) {j : Fin n} (hj : j ≠ i) :
    stateAt s₁ j blk = left ∨ stateAt s₁ j blk = kInvalid := by
  rw [hphase.block j hj]
  split
  · exact .inr rfl
  · exact .inl rfl

/-- A read or a fetch of a private cache that does not have the block. -/
theorem serve_share (h : CoherentWith s i kInvalid blk) (hblk : blk = blockOf size address)
    (htype : type = .ReadReq ∨ type = .FetchReq) :
    ∃ reply st s', processRequest cfg (snoopPorts cfg pcfg) i type address s = some (reply, s') ∧
      Served i blk st s s' ∧ (reply = .MissReply ∧ st = kShared ∨ type = .ReadReq ∧
        (reply = .MissReplyWritable ∧ st = kExclusive ∨ reply = .MissReplyDirty ∧ st = kModified)) := by
  have h' : Coherent (statesWith (looked s blk) i kInvalid blk) (A₂.stateOf s.theCache blk)
    (findOrCreateEntry blk (looked s blk).theDirectory) := h
  have hmiss : type = .ReadReq ∨ type = .FetchReq ∨ type = .WriteReq := by tauto
  have hclass : ∀ a b, isClassified type a b = true := fun a b => isClassified_request a b (by tauto)
  by_cases hzero : (findOrCreateEntry blk s.theDirectory).theState = .ZeroSharers
  · obtain ⟨action, haction, hquiet, hplaces, hrow⟩ := share_row_zero h.shared_mesi htype
    rw [← hzero] at haction
    have hnone : ∀ j, j ≠ i → stateAt s j blk = kInvalid := by
      intro j hj
      rw [← statesWith_of_ne (t := kInvalid) hj]
      exact h.of_zero hzero
    have hphase : SnoopPhase i blk kShared (looked s blk) (looked s blk) := .alone h' hnone
    have hunshared : ∀ j, j ≠ i →
        (findOrCreateEntry blk (looked s blk).theDirectory).theSharers.isSharer j = false := by
      intro j hj
      rw [h'.exact, isValid_eq_false, statesWith_of_ne hj]
      exact hnone j hj
    have hplaces : action.allocate = true ∨ A₂.stateOf s.theCache blk ≠ kInvalid ∨
        action.next_state.1 = kInvalid :=
      hplaces.imp_right fun h => h.imp_right fun hnext => by rw [hnext]
    rcases hrow with ⟨hreply, hnext⟩ | ⟨hread, hreply, hnext⟩
    · obtain ⟨s', hrun, hserved⟩ := serve cfg pcfg kShared _ h hblk haction (snoopSharers_quiet cfg pcfg hquiet) hphase
        (InfiniteDirectory.respond_miss hmiss (.inl hreply)) InfiniteDirectory.responded_addSharer rfl
        hplaces (hclass _ _) (.inl ⟨.inl rfl, hnext, fun j hj => .inr (hnone j hj)⟩)
      exact ⟨_, _, s', hrun, hserved, .inl ⟨hreply, rfl⟩⟩
    · obtain ⟨st, howns, hvalid, hst⟩ : ∃ st, Owns st ∧ isValid st = true ∧
          (action.response.1 = .MissReplyWritable ∧ st = kExclusive ∨
            action.response.1 = .MissReplyDirty ∧ st = kModified) := by
        rcases hreply with hreply | hreply
        · exact ⟨kExclusive, .inr rfl, rfl, .inl ⟨hreply, rfl⟩⟩
        · exact ⟨kModified, .inl rfl, rfl, .inr ⟨hreply, rfl⟩⟩
      obtain ⟨s', hrun, hserved⟩ := serve cfg pcfg st _ h hblk haction (snoopSharers_quiet cfg pcfg hquiet) hphase
        (InfiniteDirectory.respond_miss hmiss (.inr ⟨hreply, hunshared⟩))
        (by rw [hvalid]; exact InfiniteDirectory.responded_addSharer) rfl
        hplaces (hclass _ _) (.inr ⟨howns, hnext, hnone⟩)
      exact ⟨_, _, s', hrun, hserved, .inr ⟨hread, hst⟩⟩
  · obtain ⟨action, haction, hplaces, hreply, hnext₁, hnext₂, hrow⟩ := share_row h.shared_mesi hzero htype
    obtain ⟨result, success, s₁, hsnoop, hphase, hour, hnext⟩ : ∃ result success s₁,
        snoopSharers cfg (snoopPorts cfg pcfg) action i address blk
          (findOrCreateEntry blk s.theDirectory).theSharers (s.theDirectory blk).isSome (looked s blk) =
          some (result, success, s₁) ∧
        SnoopPhase i blk kShared (looked s blk) s₁ ∧ result.our_response = .MissReply ∧
        IsMESI (if result.use_ns1 then action.next_state.2 else action.next_state.1) := by
      rcases hrow with ⟨hquiet, hshared⟩ | ⟨⟨hask, hterminal⟩, hsecond⟩
      · refine ⟨_, _, _, snoopSharers_quiet cfg pcfg hquiet, .quiet h' rfl fun j hj hvalid => ?_, hreply, hnext₁⟩
        rw [← statesWith_of_ne (t := kInvalid) hj] at hvalid ⊢
        exact h'.shared_of hshared hvalid
      · obtain ⟨result, success, s₁, hrun, hphase, hresult⟩ := snoop_sharers cfg pcfg h' hblk (.inl hask) (by simp [hask, firstResult, hterminal, snooped])
          ((state_cases hzero).imp (fun hone => ⟨hone, rfl⟩) fun hmany =>
            ⟨hmany, fun hinvalidate => by rw [hask] at hinvalidate; cases hinvalidate⟩)
        refine ⟨result, success, s₁, hrun, by rw [hask] at hphase; exact hphase, ?_⟩
        rcases hresult with ⟨hour, hns1⟩ | ⟨hone, hour, hns1⟩
        · rw [hour, hns1]
          exact ⟨hreply, hnext₁⟩
        · rw [hour, hns1]
          exact ⟨hsecond hone, hnext₂⟩
    obtain ⟨s', hrun, hserved⟩ := serve cfg pcfg kShared _ h hblk haction hsnoop hphase
      (InfiniteDirectory.respond_miss hmiss (.inl hour)) InfiniteDirectory.responded_addSharer rfl
      (hplaces.imp_right fun h => h.imp_right fun hnext => by rw [hnext]; split <;> rfl) (hclass _ _)
      (.inl ⟨.inl rfl, hnext, fun j hj => hphase.left_cases hj⟩)
    exact ⟨_, _, s', hrun, hserved, .inl ⟨hour, rfl⟩⟩

/-- Snoops that invalidate, for a block that some other cache has. -/
theorem snoop_invalidates {L : CoherenceState_t} (h : Coherent (statesWith s i t blk) L
      (findOrCreateEntry blk s.theDirectory))
    (hblk : blk = blockOf size address)
    (hinvalidates : action.Invalidates (findOrCreateEntry blk s.theDirectory).theState)
    (hcase : (findOrCreateEntry blk s.theDirectory).theState = .OneSharer ∧ t = kInvalid ∨
      (findOrCreateEntry blk s.theDirectory).theState = .ManySharers) :
    ∃ result success s₁, snoopSharers cfg (snoopPorts cfg pcfg) action i address blk
        (findOrCreateEntry blk s.theDirectory).theSharers (s.theDirectory blk).isSome s =
        some (result, success, s₁) ∧
      SnoopPhase i blk kInvalid s s₁ ∧
      (result.our_response = action.response.1 ∧ result.use_ns1 = false ∨
        (findOrCreateEntry blk s.theDirectory).theState = .OneSharer ∧
          result.our_response = action.response.2 ∧ result.use_ns1 = true) := by
  obtain ⟨hsnoop, hterminal, hmulticast⟩ := hinvalidates
  obtain ⟨result, success, s₁, hrun, hphase, hresult⟩ := snoop_sharers cfg pcfg h hblk (.inr hsnoop)
    (by rcases hterminal with hterminal | hterminal <;> simp [hsnoop, firstResult, hterminal, snooped])
    (hcase.imp_right fun hmany => ⟨hmany, fun _ => hmulticast hmany⟩)
  refine ⟨result, success, s₁, hrun, ?_, hresult⟩
  rw [hsnoop] at hphase
  exact hphase

theorem SnoopPhase.invalidated (hphase : SnoopPhase i blk kInvalid s s₁) {j : Fin n} (hj : j ≠ i) :
    stateAt s₁ j blk = kInvalid :=
  (hphase.left_cases hj).elim id id

theorem SnoopPhase.unshared (hphase : SnoopPhase i blk kInvalid s s₁) {j : Fin n} (hj : j ≠ i) :
    (findOrCreateEntry blk s₁.theDirectory).theSharers.isSharer j = false := by
  rw [hphase.sharers]
  simp [hj, isValid]

/-- The snoops of a request that takes the block from all others: there are none if no cache
    has it. -/
theorem snoop_taking (h : CoherentWith s i kInvalid blk) (hblk : blk = blockOf size address)
    (hrow : (findOrCreateEntry blk s.theDirectory).theState = .ZeroSharers ∧
        action.snoop_type = NoRequest ∨
      (findOrCreateEntry blk s.theDirectory).theState ≠ .ZeroSharers ∧
        action.Invalidates (findOrCreateEntry blk s.theDirectory).theState) :
    ∃ result success s₁, snoopSharers cfg (snoopPorts cfg pcfg) action i address blk
        (findOrCreateEntry blk s.theDirectory).theSharers (s.theDirectory blk).isSome (looked s blk) =
        some (result, success, s₁) ∧
      SnoopPhase i blk kInvalid (looked s blk) s₁ ∧
      (result.our_response = action.response.1 ∧ result.use_ns1 = false ∨
        (findOrCreateEntry blk s.theDirectory).theState = .OneSharer ∧
          result.our_response = action.response.2 ∧ result.use_ns1 = true) := by
  have h' : Coherent (statesWith (looked s blk) i kInvalid blk) (A₂.stateOf s.theCache blk)
    (findOrCreateEntry blk (looked s blk).theDirectory) := h
  rcases hrow with ⟨hzero, hquiet⟩ | ⟨hzero, hinvalidates⟩
  · refine ⟨_, _, _, snoopSharers_quiet cfg pcfg hquiet, .alone h' fun j hj => ?_, .inl ⟨rfl, rfl⟩⟩
    rw [← statesWith_of_ne (t := kInvalid) hj]
    exact h'.of_zero hzero
  · exact snoop_invalidates cfg pcfg h' hblk hinvalidates ((state_cases hzero).imp_left fun hone => ⟨hone, rfl⟩)

/-- A write of a private cache that does not have the block. -/
theorem serve_write (h : CoherentWith s i kInvalid blk) (hblk : blk = blockOf size address) :
    ∃ reply s', processRequest cfg (snoopPorts cfg pcfg) i .WriteReq address s = some (reply, s') ∧
      Served i blk kModified s s' := by
  obtain ⟨action, haction, hnext, hfill₁, hfill₂, hrow⟩ :=
    write_row h.shared_mesi (findOrCreateEntry blk s.theDirectory).theState
  obtain ⟨result, success, s₁, hsnoop, hphase, hresult⟩ :=
    snoop_taking cfg pcfg h hblk hrow
  have hfill : IsFill result.our_response := by
    rcases hresult with ⟨hour, -⟩ | ⟨hone, hour, -⟩
    · rw [hour]
      exact hfill₁
    · rw [hour]
      exact hfill₂ hone
  have hnstate : (if result.use_ns1 then action.next_state.2 else action.next_state.1) = kInvalid := by
    rw [hnext]
    split <;> rfl
  obtain ⟨s', hrun, hserved⟩ := serve cfg pcfg kModified kInvalid h hblk haction hsnoop hphase
    (InfiniteDirectory.respond_miss (.inr (.inr rfl)) (hfill.imp_right fun hwritable =>
      ⟨hwritable, fun j hj => hphase.unshared hj⟩))
    InfiniteDirectory.responded_addSharer hnstate (.inr (.inr rfl))
    (isClassified_request _ _ (.inr (.inr (.inl rfl))))
    (.inr ⟨.inl rfl, .inr rfl, fun j hj => hphase.invalidated hj⟩)
  exact ⟨_, s', hrun, hserved⟩

/-- A non-allocating store of a private cache that does not have the block. -/
theorem serve_nonAllocatingStore (h : CoherentWith s i kInvalid blk) (hblk : blk = blockOf size address) :
    ∃ reply s', processRequest cfg (snoopPorts cfg pcfg) i .NonAllocatingStoreReq address s =
        some (reply, s') ∧
      Served i blk kInvalid s s' := by
  obtain ⟨action, haction, hplaces, hmesi, hnext, hreply₁, hreply₂, hrow⟩ :=
    nonAllocatingStore_row h.shared_mesi (findOrCreateEntry blk s.theDirectory).theState
  obtain ⟨result, success, s₁, hsnoop, hphase, hresult⟩ :=
    snoop_taking cfg pcfg h hblk hrow
  have hreply : result.our_response = .NonAllocatingStoreReply := by
    rcases hresult with ⟨hour, -⟩ | ⟨hone, hour, -⟩
    · rw [hour, hreply₁]
    · rw [hour, hreply₂ hone]
  have hnstate : (if result.use_ns1 then action.next_state.2 else action.next_state.1) =
      action.next_state.1 := by
    rw [hnext]
    split <;> rfl
  have hsharer : (findOrCreateEntry blk s₁.theDirectory).theSharers.isSharer i = false := by
    have hi : (findOrCreateEntry blk (looked s blk).theDirectory).theSharers.isSharer i = false := by
      have hexact := h.exact i
      rwa [statesWith_self] at hexact
    rw [hphase.sharers, hi, Bool.false_and]
  have hrespond : InfiniteDirectory.processRequestResponse i .NonAllocatingStoreReq result.our_response
      (s.theDirectory blk).isSome blk s₁.theDirectory = some s₁.theDirectory := by
    rw [hreply]
    exact InfiniteDirectory.respond_of rfl rfl
  obtain ⟨s', hrun, hserved⟩ := serve cfg pcfg kInvalid action.next_state.1 h hblk haction hsnoop hphase hrespond
    ⟨fun _ _ => rfl, hphase.consistent, fun j => by
      split
      · next hj => rw [hj, hsharer]; rfl
      · rfl⟩
    hnstate (hplaces.imp_right fun h => h.imp_right fun hnext => by rw [hnext])
    (isClassified_request _ _ (.inr (.inr (.inr rfl))))
    (.inl ⟨.inr rfl, hmesi, fun j hj => .inr (hphase.invalidated hj)⟩)
  exact ⟨_, s', hrun, hserved⟩

/-- A block that a private cache has is found in the directory. -/
theorem found_of_valid (h : CoherentWith s i t blk) (ht : t ≠ kInvalid) :
    (s.theDirectory blk).isSome = true ∧
      (findOrCreateEntry blk s.theDirectory).theState ≠ .ZeroSharers := by
  have hstate : (findOrCreateEntry blk s.theDirectory).theState ≠ .ZeroSharers := by
    intro hzero
    have hi := h.of_zero (j := i) hzero
    rw [statesWith_self] at hi
    exact ht hi
  refine ⟨?_, hstate⟩
  cases hentry : s.theDirectory blk with
  | some e => rfl
  | none =>
    rw [findOrCreateEntry, hentry] at hstate
    exact absurd rfl hstate

/-- An upgrade of a private cache that has the block shared. -/
theorem serve_upgrade (h : CoherentWith s i kShared blk) (hblk : blk = blockOf size address) :
    ∃ reply s', processRequest cfg (snoopPorts cfg pcfg) i .UpgradeReq address s = some (reply, s') ∧
      Served i blk kModified s s' := by
  have h' : Coherent (statesWith (looked s blk) i kShared blk) (A₂.stateOf s.theCache blk)
    (findOrCreateEntry blk (looked s blk).theDirectory) := h
  obtain ⟨hfound, hzero⟩ := found_of_valid h (by decide)
  obtain ⟨action, haction, hnext, hreply, hforward, hrow⟩ := upgrade_row h.shared_mesi hzero
  obtain ⟨result, success, s₁, hsnoop, hphase, hour, hns1⟩ : ∃ result success s₁,
      snoopSharers cfg (snoopPorts cfg pcfg) action i address blk
        (findOrCreateEntry blk s.theDirectory).theSharers (s.theDirectory blk).isSome (looked s blk) =
        some (result, success, s₁) ∧
      SnoopPhase i blk kInvalid (looked s blk) s₁ ∧ result.our_response = action.response.1 ∧
        result.use_ns1 = false := by
    rcases hrow with ⟨hone, hquiet⟩ | ⟨hmany, hinvalidates⟩
    · refine ⟨_, _, _, snoopSharers_quiet cfg pcfg hquiet, .alone h' fun j hj => ?_, rfl, rfl⟩
      obtain ⟨k, hk, -, hothers⟩ := h'.of_one hone
      obtain rfl : i = k := by
        by_contra hne
        have hi := hothers i hne
        rw [statesWith_self] at hi
        cases hi
      rw [← statesWith_of_ne (t := kShared) hj]
      exact hothers j hj
    · obtain ⟨result, success, s₁, hrun, hphase, hresult⟩ :=
        snoop_invalidates cfg pcfg h' hblk hinvalidates (.inr hmany)
      refine ⟨result, success, s₁, hrun, hphase, ?_⟩
      rcases hresult with hfirst | ⟨hone, -⟩
      · exact hfirst
      · exact absurd (hone.symm.trans hmany) (by decide)
  have hsharer : (findOrCreateEntry blk s₁.theDirectory).theSharers.isSharer i = true := by
    have hi : (findOrCreateEntry blk (looked s blk).theDirectory).theSharers.isSharer i = true := by
      have hexact := h.exact i
      rwa [statesWith_self] at hexact
    rw [hphase.sharers, hi]
    simp
  have hunique : ∀ j, (findOrCreateEntry blk s₁.theDirectory).theSharers.isSharer j = true ↔ j = i := by
    intro j
    by_cases hj : j = i
    · rw [hj, hsharer]
      simp
    · rw [hphase.unshared hj]
      simp [hj]
  obtain ⟨dir, hrespond, hresponded⟩ := InfiniteDirectory.respond_upgrade hfound hunique
  obtain ⟨s', hrun, hserved⟩ := serve cfg pcfg kModified kInvalid h hblk haction hsnoop hphase
    (by rw [hour, hreply]; exact hrespond) hresponded
    (by rw [hns1, hnext]; rfl) (.inr (.inr rfl))
    (by rw [hforward]; cases success <;> rfl)
    (.inr ⟨.inl rfl, .inr rfl, fun j hj => hphase.invalidated hj⟩)
  exact ⟨_, s', hrun, hserved⟩

/-- The eviction of a block that a private cache has. -/
theorem serve_evict (h : CoherentWith s i t blk) (hblk : blk = blockOf size address) (ht : t ≠ kInvalid) :
    ∃ reply s', processRequest cfg (snoopPorts cfg pcfg) i (InclusiveMESI.evict false t) address s =
        some (reply, s') ∧
      Served i blk kInvalid s s' := by
  have h' : Coherent (statesWith (looked s blk) i t blk) (A₂.stateOf s.theCache blk)
    (findOrCreateEntry blk (looked s blk).theDirectory) := h
  obtain ⟨hfound, hzero⟩ := found_of_valid h ht
  have hself : statesWith s i t blk i = t := statesWith_self
  have hothers : ∀ j, j ≠ i → stateAt s j blk ≠ kInvalid → stateAt s j blk = kShared := by
    intro j hj hvalid
    have hmesi := h.mesi j
    have halone := h.alone j
    rw [statesWith_of_ne hj] at hmesi halone
    rcases hmesi.cases with hstate | hstate | howns
    · exact absurd hstate hvalid
    · exact hstate
    · have hi := halone howns i (Ne.symm hj)
      rw [hself] at hi
      exact absurd hi ht
  have hevict : (InclusiveMESI.evict false t).isEvictType = true := by
    unfold InclusiveMESI.evict
    split
    · rfl
    · split <;> rfl
  have hcase : t = kShared ∧ (findOrCreateEntry blk s.theDirectory).theState ≠ .ZeroSharers ∨
      Owns t ∧ (findOrCreateEntry blk s.theDirectory).theState = .OneSharer ∧
        (A₂.stateOf s.theCache blk = kExclusive ∨ A₂.stateOf s.theCache blk = kInvalid) := by
    have hmesi := h.mesi i
    rw [hself] at hmesi
    rcases hmesi.cases with hstate | hstate | howns
    · exact absurd hstate ht
    · exact .inl ⟨hstate, hzero⟩
    · have howns' : Owns (statesWith s i t blk i) := by rw [hself]; exact howns
      exact .inr ⟨howns, h.one_of_owns howns', h.above i howns'⟩
  obtain ⟨action, haction, hquiet, hplaces, hforward, hmesi⟩ := evict_row h.shared_mesi hcase
  obtain ⟨dir, hrespond, hresponded⟩ := InfiniteDirectory.respond_evict (i := i)
    action.response.1 hevict hfound h.consistent
  have hphase : SnoopPhase i blk kShared (looked s blk) (looked s blk) := .quiet h' rfl hothers
  obtain ⟨s', hrun, hserved⟩ := serve cfg pcfg kInvalid action.next_state.1 h hblk haction (snoopSharers_quiet cfg pcfg hquiet) hphase
    hrespond hresponded rfl
    (hplaces.imp_right fun h => h.imp_right fun hnext => by rw [hnext])
    (by
      rw [hforward]
      unfold isClassified
      rw [hevict]
      cases InclusiveMESI.evict false t <;> rfl)
    (.inl ⟨.inr rfl, hmesi, fun j hj => hphase.left_cases hj⟩)
  exact ⟨_, s', hrun, hserved⟩

end Requests

end nFastCMPCache
