import Flexus.FastCMPCache.Snoops

/-!
# The functional hierarchy is coherent

A block is coherent if the directory has exactly the caches that hold it, a private cache that
may write it is the only one that has it, and the shared cache then has it at most exclusive.
-/

namespace nFastCMPCache

open nCMPCache (MemoryMessageType)
open nFastCache
open CoherenceState_t
open InfiniteDirectory (findOrCreateEntry)

/-- A private cache in this state may write the block without asking. -/
def Owns (s : CoherenceState_t) : Prop := s = kModified ∨ s = kExclusive

/-- The states of one block in the private caches and in the shared cache, and its entry in
    the directory, agree. -/
structure Coherent {n : Nat} (c : Fin n → CoherenceState_t) (shared : CoherenceState_t)
    (e : BlockDirectoryEntry n) : Prop where
  exact : ∀ j, e.theSharers.isSharer j = isValid (c j)
  consistent : e.Consistent
  mesi : ∀ j, IsMESI (c j)
  shared_mesi : IsMESI shared
  alone : ∀ i, Owns (c i) → ∀ j, j ≠ i → c j = kInvalid
  above : ∀ i, Owns (c i) → shared = kExclusive ∨ shared = kInvalid

section Blocks

variable {n : Nat} {c : Fin n → CoherenceState_t} {shared : CoherenceState_t}
  {e : BlockDirectoryEntry n} {i j : Fin n}

theorem isValid_iff {s : CoherenceState_t} : isValid s = true ↔ s ≠ kInvalid := by
  simp [isValid]

theorem isValid_eq_false {s : CoherenceState_t} : isValid s = false ↔ s = kInvalid := by
  simp [isValid]

/-- A state of the protocol is invalid, shared or one that may be written. -/
theorem IsMESI.cases {s : CoherenceState_t} (h : IsMESI s) : s = kInvalid ∨ s = kShared ∨ Owns s := by
  unfold Owns
  cases s with
  | kMigratory => exact absurd rfl h.2
  | kOwned => exact absurd rfl h.1
  | kModified => exact .inr (.inr (.inl rfl))
  | kExclusive => exact .inr (.inr (.inr rfl))
  | kShared => exact .inr (.inl rfl)
  | kInvalid => exact .inl rfl

namespace Coherent

/-- The shared cache may lose a block at any time. -/
theorem lose (h : Coherent c shared e) : Coherent c kInvalid e :=
  { h with shared_mesi := ⟨by decide, by decide⟩, above := fun _ _ => .inr rfl }

/-- A block that no private cache may write. -/
theorem of_shared (hexact : ∀ j, e.theSharers.isSharer j = isValid (c j)) (he : e.Consistent)
    (hmesi : IsMESI shared) (hc : ∀ j, c j = kShared ∨ c j = kInvalid) : Coherent c shared e where
  exact := hexact
  consistent := he
  mesi := fun j => by rcases hc j with h | h <;> rw [h] <;> exact ⟨by decide, by decide⟩
  shared_mesi := hmesi
  alone := fun i hi => by rcases hc i with h | h <;> simp [Owns, h] at hi
  above := fun i hi => by rcases hc i with h | h <;> simp [Owns, h] at hi

/-- A block that one private cache may write and no other has. -/
theorem of_owned (hexact : ∀ j, e.theSharers.isSharer j = isValid (c j)) (he : e.Consistent)
    (hshared : shared = kExclusive ∨ shared = kInvalid) (hi : Owns (c i))
    (hc : ∀ j, j ≠ i → c j = kInvalid) : Coherent c shared e where
  exact := hexact
  consistent := he
  mesi := by
    intro j
    by_cases hj : j = i
    · rw [hj]
      rcases hi with h | h <;> rw [h] <;> exact ⟨by decide, by decide⟩
    · rw [hc j hj]
      exact ⟨by decide, by decide⟩
  shared_mesi := by rcases hshared with h | h <;> rw [h] <;> exact ⟨by decide, by decide⟩
  alone := by
    intro k hk j hj
    obtain rfl : k = i := by
      by_contra hne
      rw [hc k hne] at hk
      simp [Owns] at hk
    exact hc j hj
  above := fun _ _ => hshared

theorem isSharer_iff (h : Coherent c shared e) : e.theSharers.isSharer j = true ↔ c j ≠ kInvalid := by
  rw [h.exact, isValid_iff]

theorem of_zero (h : Coherent c shared e) (hstate : e.theState = .ZeroSharers) : c j = kInvalid := by
  have hnone := SharingVector.state_eq_zero.mp (h.consistent.symm.trans hstate) j
  rwa [h.exact, isValid_eq_false] at hnone

theorem of_one (h : Coherent c shared e) (hstate : e.theState = .OneSharer) :
    ∃ j, c j ≠ kInvalid ∧ e.theSharers.toList = [j] ∧ ∀ k, k ≠ j → c k = kInvalid := by
  obtain ⟨j, hj⟩ := SharingVector.state_eq_one.mp (h.consistent.symm.trans hstate)
  refine ⟨j, h.isSharer_iff.mp ((hj j).mpr rfl), SharingVector.toList_of_unique hj, fun k hk => ?_⟩
  by_contra hvalid
  exact hk ((hj k).mp (h.isSharer_iff.mpr hvalid))

/-- If a cache may write the block, it is its one sharer. -/
theorem one_of_owns (h : Coherent c shared e) (hi : Owns (c i)) : e.theState = .OneSharer := by
  rw [h.consistent, SharingVector.state_eq_one]
  refine ⟨i, fun j => ⟨fun hj => ?_, ?_⟩⟩
  · by_contra hne
    exact h.isSharer_iff.mp hj (h.alone i hi j hne)
  · rintro rfl
    rw [h.isSharer_iff]
    rcases hi with hi | hi <;> rw [hi] <;> decide

/-- With several sharers, or when the shared cache has the block modified or shared, every
    sharer has the block shared. -/
theorem shared_of (h : Coherent c shared e)
    (hcase : e.theState = .ManySharers ∨ shared = kModified ∨ shared = kShared) (hj : c j ≠ kInvalid) :
    c j = kShared := by
  rcases (h.mesi j).cases with hstate | hstate | howns
  · exact absurd hstate hj
  · exact hstate
  · have hone := h.one_of_owns howns
    have habove := h.above j howns
    rcases hcase with hmany | hcache | hcache
    · rw [hmany] at hone
      cases hone
    · rcases habove with h | h <;> rw [h] at hcache <;> cases hcache
    · rcases habove with h | h <;> rw [h] at hcache <;> cases hcache

end Coherent

end Blocks

section Phases

variable {n size : Nat} {A₁ A₂ : AbstractCache size} (cfg : Config) (pcfg : PrivateConfig)
  {action : PrimaryAction} {address blk : Nat} {i : Fin n} {t left shared : CoherenceState_t}
  {s s₁ : System A₁ A₂ (InfiniteDirectory n)}

/-- The states of a block in the private caches, with that of one cache given. -/
def statesWith (s : System A₁ A₂ (InfiniteDirectory n)) (i : Fin n) (t : CoherenceState_t) (b : Nat) :
    Fin n → CoherenceState_t :=
  Function.update (fun j => stateAt s j b) i t

@[simp]
theorem statesWith_self : statesWith s i t blk i = t := Function.update_self ..

theorem statesWith_of_ne {j : Fin n} (h : j ≠ i) : statesWith s i t blk j = stateAt s j blk :=
  Function.update_of_ne h ..

/-- What the snoops of a request have done: every other cache that had the block has it in
    the state that is left, and the directory has the sharers that are left. -/
structure SnoopPhase (i : Fin n) (blk : Nat) (left : CoherenceState_t)
    (s s₁ : System A₁ A₂ (InfiniteDirectory n)) : Prop where
  cache : s₁.theCache = s.theCache
  requester : s₁.above i = s.above i
  states : ∀ j b, b ≠ blk → stateAt s₁ j b = stateAt s j b
  block : ∀ j, j ≠ i → stateAt s₁ j blk = if stateAt s j blk = kInvalid then kInvalid else left
  entries : ∀ b, b ≠ blk → s₁.theDirectory b = s.theDirectory b
  found : (s₁.theDirectory blk).isSome = (s.theDirectory blk).isSome
  sharers : ∀ j, (findOrCreateEntry blk s₁.theDirectory).theSharers.isSharer j =
    ((findOrCreateEntry blk s.theDirectory).theSharers.isSharer j && (decide (j = i) || isValid left))
  consistent : (findOrCreateEntry blk s₁.theDirectory).Consistent

/-- The coherent states of a block while one cache is counted with a state of its own. -/
abbrev CoherentWith (s : System A₁ A₂ (InfiniteDirectory n)) (i : Fin n) (t : CoherenceState_t)
    (b : Nat) : Prop :=
  Coherent (statesWith s i t b) (A₂.stateOf s.theCache b) (findOrCreateEntry b s.theDirectory)

/-- Without snoops nothing changes, and that is as good as leaving the others shared if they
    have the block shared already. -/
theorem SnoopPhase.quiet (h : Coherent (statesWith s i t blk) shared (findOrCreateEntry blk s.theDirectory))
    (hleft : isValid left = true) (hshared : ∀ j, j ≠ i → stateAt s j blk ≠ kInvalid → stateAt s j blk = left) :
    SnoopPhase i blk left s s where
  cache := rfl
  requester := rfl
  states := fun _ _ _ => rfl
  block := by
    intro j hj
    split
    · next hinvalid => exact hinvalid
    · next hvalid => exact hshared j hj hvalid
  entries := fun _ _ => rfl
  found := rfl
  sharers := fun j => by simp [hleft]
  consistent := h.consistent

/-- Without snoops nothing changes, and that is as good as invalidating the others if there
    are none. -/
theorem SnoopPhase.alone (h : Coherent (statesWith s i t blk) shared (findOrCreateEntry blk s.theDirectory))
    (hnone : ∀ j, j ≠ i → stateAt s j blk = kInvalid) : SnoopPhase i blk left s s where
  cache := rfl
  requester := rfl
  states := fun _ _ _ => rfl
  block := fun j hj => by rw [if_pos (hnone j hj), hnone j hj]
  entries := fun _ _ => rfl
  found := rfl
  sharers := by
    intro j
    by_cases hj : j = i
    · simp [hj]
    · have hsharer : (findOrCreateEntry blk s.theDirectory).theSharers.isSharer j = false := by
        rw [h.exact, isValid_eq_false, statesWith_of_ne hj, hnone j hj]
      simp [hsharer]
  consistent := h.consistent

/-- The state in which a snoop leaves a block. -/
def leftBy (type : MemoryMessageType) : CoherenceState_t :=
  if type = .Invalidate then kInvalid else kShared

theorem snooped_snd {type : MemoryMessageType} (htype : IsSnoop type) {st : CoherenceState_t}
    (hmesi : IsMESI st) (hvalid : st ≠ kInvalid) : (snooped type st).2 = leftBy type := by
  rcases htype with rfl | rfl
  · cases st with
    | kMigratory => exact absurd rfl hmesi.2
    | kOwned => exact absurd rfl hmesi.1
    | kInvalid => exact absurd rfl hvalid
    | kModified | kExclusive | kShared => rfl
  · cases st with
    | kMigratory => exact absurd rfl hmesi.2
    | kOwned => exact absurd rfl hmesi.1
    | kInvalid => exact absurd rfl hvalid
    | kModified | kExclusive | kShared => rfl

/-- The snoops of some sharers, if those left out have the block in the state that the
    snoops leave. -/
theorem SnoopPhase.of_snooped {ks : List (Fin n)}
    (h : Coherent (statesWith s i t blk) shared (findOrCreateEntry blk s.theDirectory))
    (htype : IsSnoop action.snoop_type) (hsnooped : Snooped action.snoop_type ks blk s s₁)
    (hks : ∀ j ∈ ks, j ≠ i ∧ stateAt s j blk ≠ kInvalid)
    (hrest : ∀ j, j ≠ i → stateAt s j blk ≠ kInvalid → j ∉ ks →
      stateAt s j blk = leftBy action.snoop_type) :
    SnoopPhase i blk (leftBy action.snoop_type) s s₁ where
  cache := hsnooped.cache
  requester := hsnooped.above i fun hi => (hks i hi).1 rfl
  states := fun j b hb => by rw [hsnooped.states, if_neg fun h => hb h.1]
  block := by
    intro j hj
    rw [hsnooped.states]
    by_cases hmem : j ∈ ks
    · have hmesi : IsMESI (stateAt s j blk) := by
        rw [← statesWith_of_ne (t := t) hj]
        exact h.mesi j
      rw [if_pos ⟨rfl, hmem⟩, if_neg (hks j hmem).2, snooped_snd htype hmesi (hks j hmem).2]
    · rw [if_neg fun h => hmem h.2]
      split
      · next hinvalid => exact hinvalid
      · next hvalid => exact hrest j hj hvalid hmem
  entries := hsnooped.entries
  found := hsnooped.found
  sharers := by
    intro j
    rw [hsnooped.sharers]
    cases hsharer : (findOrCreateEntry blk s.theDirectory).theSharers.isSharer j with
    | false => rfl
    | true =>
      rcases htype with htype | htype
      · simp [htype, leftBy, isValid]
      · by_cases hj : j = i
        · have hmem : j ∉ ks := fun hmem => (hks j hmem).1 hj
          simp [hj, hj ▸ hmem]
        · have hvalid : stateAt s j blk ≠ kInvalid := by
            rw [← statesWith_of_ne (t := t) hj]
            exact h.isSharer_iff.mp hsharer
          have hmem : j ∈ ks := by
            by_contra hmem
            have hleft := hrest j hj hvalid hmem
            rw [htype] at hleft
            exact hvalid hleft
          simp [htype, hmem, hj, leftBy, isValid]
  consistent := hsnooped.consistent h.consistent

/-- The snoop of a block with one sharer, which is not the cache that asks. -/
theorem snoop_one (h : Coherent (statesWith s i kInvalid blk) shared (findOrCreateEntry blk s.theDirectory))
    (hstate : (findOrCreateEntry blk s.theDirectory).theState = .OneSharer)
    (hblk : blk = blockOf size address) (htype : IsSnoop action.snoop_type) :
    ∃ result success s₁, snoopSharers cfg (snoopPorts cfg pcfg) action i address blk
        (findOrCreateEntry blk s.theDirectory).theSharers (s.theDirectory blk).isSome s =
        some (result, success, s₁) ∧
      SnoopPhase i blk (leftBy action.snoop_type) s s₁ ∧
      (result.our_response = action.response.1 ∧ result.use_ns1 = false ∨
        result.our_response = action.response.2 ∧ result.use_ns1 = true) := by
  obtain ⟨j, hvalid, hlist, hothers⟩ := h.of_one hstate
  have hj : j ≠ i := by
    rintro rfl
    exact hvalid statesWith_self
  have hmesi := h.mesi j
  rw [statesWith_of_ne hj] at hvalid hmesi
  have hfound : (s.theDirectory blk).isSome = true := by
    cases hentry : s.theDirectory blk with
    | some e => rfl
    | none =>
      rw [findOrCreateEntry, hentry] at hstate
      cases hstate
  obtain ⟨s₁, hrun, hsnooped⟩ := sendSnoops_one cfg pcfg (i := i)
    (action.multicast || (cfg.AlwaysMulticast && multipleSnoops i [j])) htype hblk hmesi (isValid_iff.mpr hvalid) hfound hj
  have hne : action.snoop_type ≠ NoRequest := by
    rcases htype with h | h <;> rw [h] <;> decide
  refine ⟨firstResult action (snooped action.snoop_type (stateAt s j blk)).1,
    action.isTerminal (snooped action.snoop_type (stateAt s j blk)).1, s₁, ?_,
    SnoopPhase.of_snooped h htype hsnooped ?_ ?_, ?_⟩
  · unfold snoopSharers
    rw [if_neg hne, hlist, hfound]
    simp only [hrun, Option.bind_eq_bind, Option.bind_some]
    rfl
  · intro k hk
    obtain rfl := List.mem_singleton.mp hk
    exact ⟨hj, hvalid⟩
  · intro k hk hkvalid hmem
    have hkj : k ≠ j := fun heq => hmem (List.mem_singleton.mpr heq)
    rw [← statesWith_of_ne (t := kInvalid) hk] at hkvalid
    exact absurd (hothers k hkj) hkvalid
  · unfold firstResult
    dsimp only
    split
    · next hsecond => exact .inr ⟨rfl, hsecond⟩
    · next hsecond => exact .inl ⟨rfl, by simpa using hsecond⟩

/-- The snoops of a block with several sharers, which all have it shared. -/
theorem snoop_many (h : Coherent (statesWith s i t blk) shared (findOrCreateEntry blk s.theDirectory))
    (hstate : (findOrCreateEntry blk s.theDirectory).theState = .ManySharers)
    (hblk : blk = blockOf size address) (htype : IsSnoop action.snoop_type)
    (hfirst : (firstResult action (snooped action.snoop_type kShared).1).use_ns1 = false)
    (hmulticast : action.snoop_type = .Invalidate → action.multicast = true) :
    ∃ result success s₁, snoopSharers cfg (snoopPorts cfg pcfg) action i address blk
        (findOrCreateEntry blk s.theDirectory).theSharers (s.theDirectory blk).isSome s =
        some (result, success, s₁) ∧
      SnoopPhase i blk (leftBy action.snoop_type) s s₁ ∧
      result.our_response = action.response.1 ∧ result.use_ns1 = false := by
  have hshared : ∀ j, j ≠ i → stateAt s j blk ≠ kInvalid → stateAt s j blk = kShared := by
    intro j hj hvalid
    rw [← statesWith_of_ne (t := t) hj] at hvalid ⊢
    exact h.shared_of (.inl hstate) hvalid
  have hfound : (s.theDirectory blk).isSome = true := by
    cases hentry : s.theDirectory blk with
    | some e => rfl
    | none =>
      rw [findOrCreateEntry, hentry] at hstate
      cases hstate
  have hlist : ∀ j ∈ (findOrCreateEntry blk s.theDirectory).theSharers.toList, j ≠ i →
      stateAt s j blk ≠ kInvalid := by
    intro j hmem hj
    rw [← statesWith_of_ne (t := t) hj]
    exact h.isSharer_iff.mp (SharingVector.mem_toList.mp hmem)
  obtain ⟨result, ks, s₁, hour, hns1, hrun, hsnooped, hks, hall⟩ := sendSnoops_shared cfg pcfg (i := i)
    (action.multicast || (cfg.AlwaysMulticast &&
      multipleSnoops i (findOrCreateEntry blk s.theDirectory).theSharers.toList))
    { response := NoRequest, our_response := action.response.1, use_ns1 := false } htype hblk hfirst (fun hinvalidate => by rw [hmulticast hinvalidate]; rfl)
    SharingVector.nodup_toList (fun j hmem hj => hshared j hj (hlist j hmem hj)) hfound (.inl rfl)
  have hne : action.snoop_type ≠ NoRequest := by
    rcases htype with h | h <;> rw [h] <;> decide
  refine ⟨result, action.isTerminal result.response, s₁, ?_, SnoopPhase.of_snooped h htype hsnooped ?_ ?_, hour, hns1⟩
  · unfold snoopSharers
    rw [if_neg hne, hfound]
    simp only [hrun, Option.bind_eq_bind, Option.bind_some]
  · intro k hk
    exact ⟨(hks k hk).2, hlist k (hks k hk).1 (hks k hk).2⟩
  · intro k hk hvalid hmem
    rcases htype with htype | htype
    · rw [htype]
      exact hshared k hk hvalid
    · have hsharer : k ∈ (findOrCreateEntry blk s.theDirectory).theSharers.toList := by
        rw [SharingVector.mem_toList, h.isSharer_iff, statesWith_of_ne hk]
        exact hvalid
      exact absurd (hall htype k hsharer hk) hmem

/-! ## The answer to a request -/

/-- What the end of a request does to the array. -/
theorem updateCache_spec {lookup : A₂.LookupResult} (nstate : CoherenceState_t)
    (hfinds : A₂.Finds s.theCache lookup blk)
    (hok : action.allocate = true ∨ A₂.stateOf s.theCache blk ≠ kInvalid ∨ nstate = kInvalid) :
    ∃ s', updateCache action nstate lookup s = some s' ∧ s'.above = s.above ∧
      s'.theDirectory = s.theDirectory ∧ A₂.stateOf s'.theCache blk = nstate ∧
      ∀ b, b ≠ blk → A₂.stateOf s'.theCache b = A₂.stateOf s.theCache b ∨
        A₂.stateOf s'.theCache b = kInvalid := by
  unfold updateCache
  rw [A₂.getState_eq _ _ _ hfinds]
  dsimp only
  split
  · refine ⟨_, rfl, rfl, rfl, ?_, fun b hb => ?_⟩
    · rw [A₂.stateOf_allocate _ _ _ _ hfinds, if_pos rfl]
    · rw [A₂.stateOf_allocate _ _ _ _ hfinds, if_neg hb]
      split
      · exact .inr rfl
      · exact .inl rfl
  · next hallocate =>
    split
    · next hchange =>
      have hvalid : A₂.stateOf s.theCache blk ≠ kInvalid := by
        rcases hok with h | h | h
        · exact absurd h hallocate
        · exact h
        · exact fun hinvalid => hchange (h.trans hinvalid.symm)
      rw [if_neg hvalid]
      refine ⟨_, rfl, rfl, rfl, ?_, fun b hb => ?_⟩
      · rw [A₂.stateOf_changeState _ _ _ _ _ _ hfinds hvalid, if_pos rfl]
      · rw [A₂.stateOf_changeState _ _ _ _ _ _ hfinds hvalid, if_neg hb]
        exact .inl rfl
    · next hsame =>
      have hsame : A₂.stateOf s.theCache blk = nstate := by
        rw [not_not] at hsame
        exact hsame.symm
      split
      · refine ⟨_, rfl, rfl, rfl, ?_, fun b _ => .inl ?_⟩
        · rw [A₂.stateOf_updateLRU _ _ _ hfinds, hsame]
        · rw [A₂.stateOf_updateLRU _ _ _ hfinds]
      · exact ⟨_, rfl, rfl, rfl, hsame, fun _ _ => .inl rfl⟩

/-- A system after the lookup of a block in the shared cache. -/
def looked (s : System A₁ A₂ (InfiniteDirectory n)) (blk : Nat) : System A₁ A₂ (InfiniteDirectory n) :=
  { s with theCache := (A₂.lookup s.theCache blk).1 }

/-- A request whose snoops and whose answer from the directory are known. -/
theorem processRequest_of {type : MemoryMessageType} {result : SnoopResult} {success : Bool}
    {dir : inf_directory_t n} {nstate : CoherenceState_t} (hblk : blk = blockOf size address)
    (haction : SingleCMPProtocol.getAction type (A₂.stateOf s.theCache blk)
      (findOrCreateEntry blk s.theDirectory).theState = some action)
    (hsnoop : snoopSharers cfg (snoopPorts cfg pcfg) action i address blk
      (findOrCreateEntry blk s.theDirectory).theSharers (s.theDirectory blk).isSome (looked s blk) =
      some (result, success, s₁))
    (hphase : SnoopPhase i blk left (looked s blk) s₁)
    (hrespond : InfiniteDirectory.processRequestResponse i type result.our_response
      (s.theDirectory blk).isSome blk s₁.theDirectory = some dir)
    (hnstate : (if result.use_ns1 then action.next_state.2 else action.next_state.1) = nstate)
    (hok : action.allocate = true ∨ A₂.stateOf s.theCache blk ≠ kInvalid ∨ nstate = kInvalid)
    (hclass : isClassified type (!success && action.forward_request) success = true) :
    ∃ s', processRequest cfg (snoopPorts cfg pcfg) i type address s = some (result.our_response, s') ∧
      s'.above = s₁.above ∧ s'.theDirectory = dir ∧ A₂.stateOf s'.theCache blk = nstate ∧
      ∀ b, b ≠ blk → A₂.stateOf s'.theCache b = A₂.stateOf s.theCache b ∨
        A₂.stateOf s'.theCache b = kInvalid := by
  subst hblk
  have haligned := blockOf_blockOf size address
  have hlooked : ∀ b, A₂.stateOf s₁.theCache b = A₂.stateOf s.theCache b := by
    intro b
    rw [hphase.cache]
    exact A₂.stateOf_lookup _ _ _
  have hfinds : A₂.Finds s₁.theCache (A₂.lookup s.theCache (blockOf size address)).2
      (blockOf size address) := by
    rw [hphase.cache, ← haligned]
    have h := A₂.finds_lookup s.theCache (blockOf size address)
    rwa [haligned] at h ⊢
  have hstate : A₂.getState (A₂.lookup s.theCache (blockOf size address)).1
      (A₂.lookup s.theCache (blockOf size address)).2 = A₂.stateOf s.theCache (blockOf size address) := by
    rw [lookup_state, haligned]
  -- a request that goes to memory is only recorded
  obtain ⟨s₂, hs₂, hcache₂, habove₂, hdir₂⟩ : ∃ s₂ : System A₁ A₂ (InfiniteDirectory n),
      s₂ = (if (!success && action.forward_request) = true then
        { s₁ with requests := s₁.requests ++ [(type, address)] } else s₁) ∧
      s₂.theCache = s₁.theCache ∧ s₂.above = s₁.above ∧ s₂.theDirectory = s₁.theDirectory := by
    refine ⟨_, rfl, ?_⟩
    split
    · exact ⟨rfl, rfl, rfl⟩
    · exact ⟨rfl, rfl, rfl⟩
  obtain ⟨s', hupdate, habove, hdir, hnext, hothers⟩ :=
    updateCache_spec (s := { s₂ with theDirectory := dir }) nstate (by rwa [hcache₂])
      (by rwa [hcache₂, hlooked])
  refine ⟨s', ?_, habove.trans habove₂, hdir, hnext, fun b hb => ?_⟩
  · unfold processRequest
    simp only [looked] at hsnoop
    simp only [hstate, haction, hsnoop, Option.bind_eq_bind, Option.bind_some, runActions, List.foldlM_nil,
      Option.pure_def, ← hs₂, hdir₂, hrespond, hnstate, hclass, if_true]
    rw [hupdate]
    rfl
  · have h := hothers b hb
    rwa [hcache₂, hlooked] at h

end Phases

end nFastCMPCache
