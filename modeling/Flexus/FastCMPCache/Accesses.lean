import Flexus.FastCMPCache.Serving

/-!
# The accesses of the cores

An access is served by the private cache of the core.
-/

namespace nFastCMPCache

open nCMPCache (MemoryMessageType)
open nFastCache
open CoherenceState_t
open InfiniteDirectory (findOrCreateEntry)

section Systems

variable {n size : Nat} {A₁ A₂ : AbstractCache size} (cfg : Config) (pcfg : PrivateConfig)
  {i : Fin n} {blk address : Nat} {t : CoherenceState_t} {f : Nat → CoherenceState_t}
  {s s' : System A₁ A₂ (InfiniteDirectory n)} {lookup : A₁.LookupResult}

/-- Every block is coherent. -/
def SystemCoherent (s : System A₁ A₂ (InfiniteDirectory n)) : Prop :=
  ∀ b, Coherent (fun j => stateAt s j b) (A₂.stateOf s.theCache b) (findOrCreateEntry b s.theDirectory)

/-- Every block is coherent if one cache is counted with the states it is about to have. -/
def Pending (s : System A₁ A₂ (InfiniteDirectory n)) (i : Fin n) (f : Nat → CoherenceState_t) : Prop :=
  ∀ b, CoherentWith s i (f b) b

theorem statesWith_stateAt {b : Nat} : statesWith s i (stateAt s i b) b = fun j => stateAt s j b :=
  Function.update_eq_self i _

theorem SystemCoherent.pending (h : SystemCoherent s) (i : Fin n) : Pending s i (stateAt s i) := by
  intro b
  unfold CoherentWith
  rw [statesWith_stateAt]
  exact h b

/-- The caches are coherent once the one that was counted apart has its states. -/
theorem Pending.settle (h : Pending s i f) {c : A₁.Cache} (hc : ∀ b, A₁.stateOf c b = f b) :
    SystemCoherent (s.putCache i c) := by
  intro b
  have hstates : (fun j => stateAt (s.putCache i c) j b) = statesWith s i (f b) b := by
    funext j
    by_cases hj : j = i
    · subst hj
      rw [statesWith_self, ← hc b]
      simp [stateAt, System.putCache]
    · rw [statesWith_of_ne hj]
      simp [stateAt, System.putCache, hj]
  rw [hstates]
  exact h b

/-- Nothing is pending if the states that are counted are those of the cache. -/
theorem Pending.coherent (h : Pending s i f) (hf : ∀ b, f b = stateAt s i b) : SystemCoherent s := by
  intro b
  have hb := h b
  rw [hf] at hb
  unfold CoherentWith at hb
  rwa [statesWith_stateAt] at hb

theorem Served.pending (h : Pending s i f) (hserved : Served i blk t s s') :
    Pending s' i (Function.update f blk t) := by
  intro b
  by_cases hb : b = blk
  · subst hb
    rw [Function.update_self]
    exact hserved.block
  · rw [Function.update_of_ne hb]
    exact hserved.others b _ hb (h b)

/-- The blocks that an allocation displaces are evicted, one after the other. -/
theorem evict_all (hclean : pcfg.CleanEvictions = true) (vs : List (Nat × CoherenceState_t))
    (hnodup : (vs.map Prod.fst).Nodup) (hvs : ∀ v ∈ vs, blockOf size v.1 = v.1 ∧ isValid v.2 = true ∧ f v.1 = v.2)
    (h : Pending s i f) :
    ∃ s', vs.foldlM (evict cfg pcfg i) s = some s' ∧ s'.above i = s.above i ∧
      Pending s' i fun b => if b ∈ vs.map Prod.fst then kInvalid else f b := by
  induction vs generalizing s f with
  | nil => exact ⟨s, rfl, rfl, by simpa using h⟩
  | cons v vs ih =>
    obtain ⟨hv, hnodup⟩ := List.nodup_cons.mp hnodup
    obtain ⟨haligned, hvalid, hstate⟩ := hvs v List.mem_cons_self
    have hne : v.2 ≠ kInvalid := isValid_iff.mp hvalid
    have hcoherent : CoherentWith s i v.2 v.1 := hstate ▸ h v.1
    obtain ⟨reply, s₁, hrun, hserved⟩ := serve_evict cfg pcfg hcoherent haligned.symm hne
    have hevict : evict cfg pcfg i s v = some s₁ := by
      unfold evict forwardMessage
      rw [if_pos (.inr hclean), hrun]
      rfl
    have hrest : ∀ w ∈ vs, blockOf size w.1 = w.1 ∧ isValid w.2 = true ∧
        Function.update f v.1 kInvalid w.1 = w.2 := by
      intro w hw
      obtain ⟨hwaligned, hwvalid, hwstate⟩ := hvs w (List.mem_cons_of_mem v hw)
      have hwv : w.1 ≠ v.1 := fun heq => hv (heq ▸ List.mem_map_of_mem hw)
      rw [Function.update_of_ne hwv]
      exact ⟨hwaligned, hwvalid, hwstate⟩
    obtain ⟨s₂, hfold, habove, hpending⟩ := ih hnodup hrest (hserved.pending h)
    refine ⟨s₂, ?_, habove.trans hserved.requester, fun b => ?_⟩
    · rw [List.foldlM_cons, hevict]
      exact hfold
    · have hcount : (if b ∈ (v :: vs).map Prod.fst then kInvalid else f b) =
          if b ∈ vs.map Prod.fst then kInvalid else Function.update f v.1 kInvalid b := by
        rw [List.map_cons, Function.update_apply]
        by_cases hbv : b = v.1
        · rw [if_pos (List.mem_cons.mpr (.inl hbv)), if_pos hbv, ite_self]
        · by_cases hmem : b ∈ vs.map Prod.fst
          · rw [if_pos (List.mem_cons_of_mem _ hmem), if_pos hmem]
          · rw [if_neg fun h => (List.mem_cons.mp h).elim hbv hmem, if_neg hmem, if_neg hbv]
      change CoherentWith s₂ i (if b ∈ (v :: vs).map Prod.fst then kInvalid else f b) b
      rw [hcount]
      exact hpending b

/-- An allocation: the states that were counted are those that the cache then has. -/
theorem allocate_spec (hclean : pcfg.CleanEvictions = true) (hfinds : A₁.Finds (s.above i) lookup blk)
    (h : Pending s i (Function.update (stateAt s i) blk t)) :
    ∃ s', allocate cfg pcfg i lookup t s = some s' ∧ SystemCoherent s' := by
  obtain ⟨hnodup, hevicted⟩ := A₁.evicted_allocate _ _ _ t hfinds
  obtain ⟨s₁, hfold, habove, hpending⟩ := evict_all cfg pcfg hclean _ hnodup
    (fun v hv => by
      obtain ⟨hne, haligned, hvalid, hstate⟩ := hevicted v hv
      rw [Function.update_of_ne hne]
      exact ⟨haligned, hvalid, hstate⟩) h
  refine ⟨s₁.putCache i (A₁.allocate (s₁.above i) lookup t).2, ?_, hpending.settle fun b => ?_⟩
  · unfold allocate
    rw [hfold]
    rfl
  · rw [habove, A₁.stateOf_allocate _ _ _ t hfinds]
    by_cases hb : b = blk
    · subst hb
      have hmem : b ∉ (A₁.allocate (s.above i) lookup t).1.map Prod.fst := by
        intro hmem
        obtain ⟨v, hv, heq⟩ := List.mem_map.mp hmem
        exact (hevicted v hv).1 heq
      simp only [if_true, Function.update_self]
      rw [if_neg hmem]
    · rw [if_neg hb, Function.update_of_ne hb]
      rfl

/-- An access that only changes the order of use. -/
theorem updateLRU_coherent (hfinds : A₁.Finds (s.above i) lookup blk) (h : SystemCoherent s) :
    SystemCoherent (updateLRU i lookup s) :=
  (h.pending i).settle fun b => A₁.stateOf_updateLRU _ _ _ hfinds b

/-- An access that changes the state of a valid block. -/
theorem makeMRU_coherent (hfinds : A₁.Finds (s.above i) lookup blk) (hvalid : stateAt s i blk ≠ kInvalid)
    (h : Pending s i (Function.update (stateAt s i) blk t)) : SystemCoherent (makeMRU i lookup t s) := by
  refine h.settle fun b => ?_
  rw [A₁.stateOf_changeState _ _ _ _ _ _ hfinds hvalid, Function.update_apply]
  rfl

/-- The cache that has a block exclusive may modify it without a word. -/
theorem SystemCoherent.modify (h : SystemCoherent s) (hstate : stateAt s i blk = kExclusive) :
    Pending s i (Function.update (stateAt s i) blk kModified) := by
  intro b
  by_cases hb : b = blk
  · subst hb
    rw [Function.update_self]
    have hb := h b
    refine .of_owned (i := i) (fun j => ?_) hb.consistent (hb.above i (.inr hstate)) ?_ fun j hj => ?_
    · by_cases hj : j = i
      · rw [hb.exact, hj, hstate, statesWith_self]
        rfl
      · rw [hb.exact, statesWith_of_ne hj]
    · rw [statesWith_self]
      exact .inl rfl
    · rw [statesWith_of_ne hj]
      exact hb.alone i (.inr hstate) j hj
  · rw [Function.update_of_ne hb]
    exact h.pending i b

/-- A request of a core is served, and every block is coherent again. -/
theorem requestIn_spec (hclean : pcfg.CleanEvictions = true) (h : SystemCoherent s) (i : Fin n)
    (r : CoreRequest) (address : Nat) :
    ∃ reply s', requestIn cfg pcfg i r.type address s = some (reply, s') ∧ SystemCoherent s' := by
  -- the lookup changes no state
  obtain ⟨blk, hblk⟩ : ∃ blk, blk = blockOf size address := ⟨_, rfl⟩
  have haligned : blockOf size blk = blk := by rw [hblk, blockOf_blockOf]
  obtain ⟨s₁, hs₁⟩ : ∃ s₁, s₁ = s.putCache i (A₁.lookup (s.above i) blk).1 := ⟨_, rfl⟩
  have habove : s₁.above i = (A₁.lookup (s.above i) blk).1 := by simp [hs₁, System.putCache]
  have hfinds : A₁.Finds (s₁.above i) (A₁.lookup (s.above i) blk).2 blk := by
    rw [habove]
    have h := A₁.finds_lookup (s.above i) blk
    rwa [haligned] at h
  have hcoherent : SystemCoherent s₁ := by
    rw [hs₁]
    exact (h.pending i).settle fun b => A₁.stateOf_lookup _ _ _
  have hstate : A₁.getState (A₁.lookup (s.above i) blk).1 (A₁.lookup (s.above i) blk).2 =
      stateAt s₁ i blk := by
    rw [stateAt, habove, A₁.getState_eq _ _ _ (by rwa [habove] at hfinds)]
  have hserved : ∀ {t s₂}, Served i blk t s₁ s₂ →
      A₁.Finds (s₂.above i) (A₁.lookup (s.above i) blk).2 blk ∧ stateAt s₂ i = stateAt s₁ i ∧
        Pending s₂ i (Function.update (stateAt s₂ i) blk t) := by
    intro t s₂ hserved
    have hsame : stateAt s₂ i = stateAt s₁ i := by
      funext b
      rw [stateAt, hserved.requester]
      rfl
    exact ⟨by rw [hserved.requester]; exact hfinds, hsame, by
      rw [hsame]; exact hserved.pending (hcoherent.pending i)⟩
  have hpending := hcoherent.pending i blk
  have hmesi := (hcoherent blk).mesi i
  have hrun : requestIn cfg pcfg i r.type address s = (message2access r.type).bind fun access =>
      (InclusiveMESI.getCoherenceAction pcfg.UsingTraces (stateAt s₁ i blk) access).bind fun action =>
        doCoherenceAction cfg pcfg action i (A₁.lookup (s.above i) blk).2 r.type address s₁ := by
    rw [← hstate, hs₁, hblk]
    rfl
  rw [hrun]
  have hvalid : ∀ {t}, stateAt s₁ i blk = t → t ≠ kInvalid → ∀ {t' s₂}, Served i blk t' s₁ s₂ →
      SystemCoherent (makeMRU i (A₁.lookup (s.above i) blk).2 t' s₂) := by
    intro t ht hne t' s₂ h
    obtain ⟨hfinds₂, hsame, hpending₂⟩ := hserved h
    exact makeMRU_coherent hfinds₂ (by rw [hsame, ht]; exact hne) hpending₂
  have hhit := updateLRU_coherent hfinds hcoherent
  unfold CoherentWith at hpending
  cases hst : stateAt s₁ i blk with
  | kMigratory => exact absurd hst hmesi.2
  | kOwned => exact absurd hst hmesi.1
  | kModified =>
    cases r with
    | LoadReq => exact ⟨_, _, rfl, hhit⟩
    | StoreReq => exact ⟨_, _, rfl, hhit⟩
    | FetchReq => exact ⟨_, _, rfl, hhit⟩
    | RMWReq => exact ⟨_, _, rfl, hhit⟩
    | CmpxReq => exact ⟨_, _, rfl, hhit⟩
    | NonAllocatingStoreReq => exact ⟨_, _, rfl, hhit⟩
  | kExclusive =>
    have hmodify := makeMRU_coherent hfinds (by rw [hst]; decide) (hcoherent.modify hst)
    cases r with
    | LoadReq => exact ⟨_, _, rfl, hhit⟩
    | StoreReq => exact ⟨_, _, rfl, hmodify⟩
    | FetchReq => exact ⟨_, _, rfl, hhit⟩
    | RMWReq => exact ⟨_, _, rfl, hmodify⟩
    | CmpxReq => exact ⟨_, _, rfl, hmodify⟩
    | NonAllocatingStoreReq => exact ⟨_, _, rfl, hmodify⟩
  | kShared =>
    rw [hst] at hpending
    obtain ⟨reply, s₂, hforward, hupgraded⟩ := serve_upgrade cfg pcfg hpending hblk
    have hmodify := hvalid hst (by decide) hupgraded
    have hstore : ∀ type, doCoherenceAction cfg pcfg ⟨.SendUpgrade, false, .M_State, true, .FillWritable⟩ i
        (A₁.lookup (s.above i) blk).2 type address s₁ =
        some (.MissReplyWritable, makeMRU i (A₁.lookup (s.above i) blk).2 kModified s₂) := by
      intro type
      simp only [doCoherenceAction, forwardMessage, hforward]
      rfl
    cases r with
    | LoadReq => exact ⟨_, _, rfl, hhit⟩
    | StoreReq => exact ⟨_, _, hstore .StoreReq, hmodify⟩
    | FetchReq => exact ⟨_, _, rfl, hhit⟩
    | RMWReq => exact ⟨_, _, hstore .RMWReq, hmodify⟩
    | CmpxReq => exact ⟨_, _, hstore .CmpxReq, hmodify⟩
    | NonAllocatingStoreReq => exact ⟨_, _, hstore .NonAllocatingStoreReq, hmodify⟩
  | kInvalid =>
    rw [hst] at hpending
    obtain ⟨reply, s₂, hforward, hwritten⟩ := serve_write cfg pcfg hpending hblk
    obtain ⟨hfinds₂, -, hpending₂⟩ := hserved hwritten
    obtain ⟨s₃, hallocate, hcoherent₃⟩ := allocate_spec cfg pcfg hclean hfinds₂ hpending₂
    have hstore : ∀ type, doCoherenceAction cfg pcfg ⟨.SendWrite, true, .M_State, true, .FillDepend⟩ i
        (A₁.lookup (s.above i) blk).2 type address s₁ = some (reply, s₃) := by
      intro type
      simp only [doCoherenceAction, forwardMessage, hforward, Option.bind_eq_bind, Option.bind_some, hallocate]
    cases r with
    | LoadReq =>
      obtain ⟨reply, st, s₂, hforward, hread, hreply⟩ := serve_share cfg pcfg hpending hblk (.inl rfl)
      obtain ⟨hfinds₂, -, hpending₂⟩ := hserved hread
      obtain ⟨s₃, hallocate, hcoherent₃⟩ := allocate_spec cfg pcfg hclean hfinds₂ hpending₂
      have hst : readState true reply = some (st, reply) := by
        rcases hreply with ⟨rfl, rfl⟩ | ⟨-, ⟨rfl, rfl⟩ | ⟨rfl, rfl⟩⟩ <;> rfl
      refine ⟨reply, s₃, ?_, hcoherent₃⟩
      change doCoherenceAction cfg pcfg ⟨.SendRead, true, .DependState, true, .FillDepend⟩ i _ .LoadReq _ _ = _
      simp only [doCoherenceAction, forwardMessage, hforward, Option.bind_eq_bind, Option.bind_some,
        decide_true, hst, hallocate]
    | FetchReq =>
      obtain ⟨reply, st, s₂, hforward, hfetched, hreply⟩ := serve_share cfg pcfg hpending hblk (.inr rfl)
      obtain ⟨rfl, rfl⟩ : reply = .MissReply ∧ st = kShared := by
        rcases hreply with h | ⟨hread, -⟩
        · exact h
        · cases hread
      obtain ⟨hfinds₂, -, hpending₂⟩ := hserved hfetched
      obtain ⟨s₃, hallocate, hcoherent₃⟩ := allocate_spec cfg pcfg hclean hfinds₂ hpending₂
      refine ⟨.MissReply, s₃, ?_, hcoherent₃⟩
      change doCoherenceAction cfg pcfg ⟨.SendFetch, true, .DependState, true, .FillValid⟩ i _ .FetchReq _ _ = _
      simp only [doCoherenceAction, forwardMessage, hforward, Option.bind_eq_bind, Option.bind_some,
        reduceCtorEq, if_false, hallocate]
    | NonAllocatingStoreReq =>
      obtain ⟨reply, s₂, hforward, hstored⟩ := serve_nonAllocatingStore cfg pcfg hpending hblk
      obtain ⟨-, hsame, hpending₂⟩ := hserved hstored
      refine ⟨reply, s₂, hforward, hpending₂.coherent fun b => ?_⟩
      by_cases hb : b = blk
      · rw [hb, Function.update_self, hsame, hst]
      · rw [Function.update_of_ne hb]
    | StoreReq => exact ⟨_, _, hstore .StoreReq, hcoherent₃⟩
    | RMWReq => exact ⟨_, _, hstore .RMWReq, hcoherent₃⟩
    | CmpxReq => exact ⟨_, _, hstore .CmpxReq, hcoherent₃⟩

/-- In the beginning no cache has a block. -/
theorem start_coherent : SystemCoherent (System.start A₁ A₂ : System A₁ A₂ (InfiniteDirectory n)) := by
  intro b
  refine .of_shared (fun j => ?_) (BlockDirectoryEntry.consistent_new b) ?_ fun j => ?_
  · change false = isValid (A₁.stateOf A₁.empty b)
    rw [A₁.stateOf_empty]
    rfl
  · change IsMESI (A₂.stateOf A₂.empty b)
    rw [A₂.stateOf_empty]
    exact ⟨by decide, by decide⟩
  · exact .inr (A₁.stateOf_empty b)

/-- Along any accesses every request is served and every block stays coherent. -/
theorem run_coherent (hclean : pcfg.CleanEvictions = true) (requests : List (Fin n × CoreRequest × Nat))
    (h : SystemCoherent s) : ∃ s', run cfg pcfg requests s = some s' ∧ SystemCoherent s' := by
  induction requests generalizing s with
  | nil => exact ⟨s, rfl, h⟩
  | cons r requests ih =>
    obtain ⟨reply, s₁, hrequest, hcoherent⟩ := requestIn_spec cfg pcfg hclean h r.1 r.2.1 r.2.2
    obtain ⟨s₂, hrun, hcoherent₂⟩ := ih hcoherent
    refine ⟨s₂, ?_, hcoherent₂⟩
    unfold run
    rw [List.foldlM_cons, hrequest]
    exact hrun

/-- The functional hierarchy is coherent: with clean evictions no sequence of accesses
    fails, and after it the directory has exactly the private caches that hold a block,
    with the sharing state of their number; a cache that may write the block is the only one
    that has it, and the shared cache does not have it modified as well. -/
theorem functional_hierarchy_coherent (A₁ A₂ : AbstractCache size) (hclean : pcfg.CleanEvictions = true)
    (requests : List (Fin n × CoreRequest × Nat)) :
    ∃ s, run cfg pcfg requests (System.start A₁ A₂) = some s ∧ ∀ b,
      (∀ j, (findOrCreateEntry b s.theDirectory).theSharers.isSharer j = true ↔ stateAt s j b ≠ kInvalid) ∧
      (findOrCreateEntry b s.theDirectory).theState = (findOrCreateEntry b s.theDirectory).theSharers.state ∧
      (∀ i, stateAt s i b = kModified ∨ stateAt s i b = kExclusive → ∀ j, j ≠ i → stateAt s j b = kInvalid) ∧
      (A₂.stateOf s.theCache b = kModified → ∀ j, stateAt s j b ≠ kModified ∧ stateAt s j b ≠ kExclusive) := by
  obtain ⟨s, hrun, hcoherent⟩ := run_coherent cfg pcfg hclean requests (start_coherent)
  refine ⟨s, hrun, fun b => ⟨fun j => (hcoherent b).isSharer_iff, (hcoherent b).consistent,
    (hcoherent b).alone, fun hmodified j => ?_⟩⟩
  have habove := (hcoherent b).above j
  rw [hmodified] at habove
  exact ⟨fun h => by simpa using habove (.inl h), fun h => by simpa using habove (.inr h)⟩

end Systems

/-- Sixteen blocks of 64 bytes in sets of two. -/
def smallArray : AbstractCache 64 :=
  StdCache.array { theNumSets := 8, theAssoc := 2, theBlockSize := 64, assoc_pos := Nat.two_pos }

/-- Two caches write one block in turn, and one of them reads blocks that displace it. -/
theorem functional_hierarchy_coherent_small :
    ∃ s, run { SeparateID := true, AlwaysMulticast := false }
        { CleanEvictions := true, UsingTraces := false, SnoopLRU := false }
        [((0 : Fin 4), .StoreReq, 64), (2, .RMWReq, 72), (2, .LoadReq, 576), (2, .LoadReq, 1088),
          (1, .FetchReq, 64)] (System.start smallArray smallArray) = some s ∧ ∀ b,
      (∀ j, (findOrCreateEntry b s.theDirectory).theSharers.isSharer j = true ↔ stateAt s j b ≠ kInvalid) ∧
      (findOrCreateEntry b s.theDirectory).theState = (findOrCreateEntry b s.theDirectory).theSharers.state ∧
      (∀ i, stateAt s i b = kModified ∨ stateAt s i b = kExclusive → ∀ j, j ≠ i → stateAt s j b = kInvalid) ∧
      (smallArray.stateOf s.theCache b = kModified →
        ∀ j, stateAt s j b ≠ kModified ∧ stateAt s j b ≠ kExclusive) :=
  functional_hierarchy_coherent _ _ smallArray smallArray rfl _

end nFastCMPCache
