import Flexus.FastCMPCache.Hierarchy

/-!
# What the snoops of a request do

A snoop changes the state of one block in one private cache, and the directory follows
the answer.
-/

namespace nFastCMPCache

open nCMPCache (MemoryMessageType)
open nFastCache
open CoherenceState_t
open InfiniteDirectory (findOrCreateEntry)

/-- The states of the protocol. -/
def IsMESI (s : CoherenceState_t) : Prop := s ≠ kOwned ∧ s ≠ kMigratory

/-- The snoops that the protocol sends. -/
def IsSnoop (type : MemoryMessageType) : Prop := type = .ReturnReq ∨ type = .Invalidate

/-- The answer of a cache to a snoop and the state the block is left in. -/
def snooped (type : MemoryMessageType) (s : CoherenceState_t) : MemoryMessageType × CoherenceState_t :=
  match type, s with
  | .ReturnReq, kModified => (.ReturnReplyDirty, kShared)
  | .ReturnReq, kExclusive => (.ReturnReply, kShared)
  | .ReturnReq, kShared => (.ReturnReply, kShared)
  | .ReturnReq, s => (.ReturnNAck, s)
  | _, kModified => (.InvUpdateAck, kInvalid)
  | _, kInvalid => (.Invalidate, kInvalid)
  | _, _ => (.InvalidateAck, kInvalid)

section Arrays

variable {size : Nat} {A : AbstractCache size} {c : A.Cache} (pcfg : PrivateConfig)
  {type : MemoryMessageType} {address : Nat}

theorem lookup_state (A : AbstractCache size) (c : A.Cache) (a : Nat) :
    A.getState (A.lookup c a).1 (A.lookup c a).2 = A.stateOf c (blockOf size a) := by
  rw [A.getState_eq _ _ _ (A.finds_lookup c a), A.stateOf_lookup]

/-- A change of the state of a valid block that a lookup found. -/
theorem change_state (s : CoherenceState_t) (mru lru : Bool) {a : Nat}
    (hvalid : A.stateOf c (blockOf size a) ≠ kInvalid) (b : Nat) :
    A.stateOf (A.changeState (A.lookup c a).1 (A.lookup c a).2 s mru lru) b =
      if b = blockOf size a then s else A.stateOf c b := by
  rw [A.stateOf_changeState _ _ (blockOf size a) _ _ _ (A.finds_lookup c a)
    (by rwa [A.stateOf_lookup]), A.stateOf_lookup]

/-- A private cache answers a snoop by the state of the block, and no other block changes. -/
theorem snoopIn_spec (htype : IsSnoop type) (hmesi : IsMESI (A.stateOf c (blockOf size address))) :
    ∃ c', snoopIn pcfg type address c =
        some ((snooped type (A.stateOf c (blockOf size address))).1, c') ∧
      ∀ b, A.stateOf c' b = if b = blockOf size address then
        (snooped type (A.stateOf c (blockOf size address))).2 else A.stateOf c b := by
  unfold snoopIn
  dsimp only
  rw [lookup_state, blockOf_blockOf]
  have hchange : ∀ s mru lru, A.stateOf c (blockOf size address) ≠ kInvalid → ∀ b,
      A.stateOf (A.changeState (A.lookup c (blockOf size address)).1
        (A.lookup c (blockOf size address)).2 s mru lru) b =
        if b = blockOf size address then s else A.stateOf c b := by
    intro s mru lru hvalid b
    rw [change_state s mru lru (by rwa [blockOf_blockOf]), blockOf_blockOf]
  cases hstate : A.stateOf c (blockOf size address) with
  | kMigratory => exact absurd hstate hmesi.2
  | kOwned => exact absurd hstate hmesi.1
  | kModified =>
    have hvalid : A.stateOf c (blockOf size address) ≠ kInvalid := by simp [hstate]
    obtain rfl | rfl := htype
    · exact ⟨_, rfl, fun b => by rw [A.stateOf_lookup, hchange _ _ _ hvalid]; rfl⟩
    · exact ⟨_, rfl, fun b => by rw [A.stateOf_lookup, hchange _ _ _ hvalid]; rfl⟩
  | kExclusive =>
    have hvalid : A.stateOf c (blockOf size address) ≠ kInvalid := by simp [hstate]
    obtain rfl | rfl := htype
    · exact ⟨_, rfl, fun b => by rw [A.stateOf_lookup, hchange _ _ _ hvalid]; rfl⟩
    · exact ⟨_, rfl, fun b => by rw [A.stateOf_lookup, hchange _ _ _ hvalid]; rfl⟩
  | kShared =>
    have hvalid : A.stateOf c (blockOf size address) ≠ kInvalid := by simp [hstate]
    obtain rfl | rfl := htype
    · refine ⟨_, rfl, fun b => ?_⟩
      rw [A.stateOf_lookup, A.stateOf_lookup]
      split
      · next h => rw [h, hstate]; rfl
      · rfl
    · exact ⟨_, rfl, fun b => by rw [A.stateOf_lookup, hchange _ _ _ hvalid]; rfl⟩
  | kInvalid =>
    obtain rfl | rfl := htype
    · refine ⟨_, rfl, fun b => ?_⟩
      rw [A.stateOf_lookup, A.stateOf_lookup]
      split
      · next h => rw [h, hstate]; rfl
      · rfl
    · refine ⟨_, rfl, fun b => ?_⟩
      rw [A.stateOf_lookup, A.stateOf_lookup]
      split
      · next h => rw [h, hstate]; rfl
      · rfl

end Arrays

theorem cacheAt_snoopPort {n : Nat} (cfg : Config) (j : Fin n) :
    cacheAt n cfg (snoopPort cfg j) = some j := by
  unfold snoopPort
  cases hsep : cfg.SeparateID with
  | false => simp [cacheAt, hsep]
  | true =>
    by_cases hodd : j.val % 2 = 1
    · have hindex : 2 * (j.val / 2) + 1 = j.val := by omega
      simp [cacheAt, hsep, hodd, hindex]
    · have hindex : 2 * (j.val / 2) = j.val := by omega
      simp [cacheAt, hsep, hodd, hindex]

section Phase

variable {n size : Nat} {A₁ A₂ : AbstractCache size} (cfg : Config) (pcfg : PrivateConfig)
  {type : MemoryMessageType} {address blk : Nat} {i j : Fin n} {js ks : List (Fin n)}
  {s s₁ s₂ : System A₁ A₂ (InfiniteDirectory n)}

/-- The state of a block in a private cache. -/
def stateAt (s : System A₁ A₂ (InfiniteDirectory n)) (j : Fin n) (b : Nat) : CoherenceState_t :=
  A₁.stateOf (s.above j) b

/-- What is different after some caches have been snooped for a block: in these the block
    has the state that the snoop leaves, and the directory has lost the sharers that were
    invalidated. -/
structure Snooped (type : MemoryMessageType) (js : List (Fin n)) (blk : Nat)
    (s s' : System A₁ A₂ (InfiniteDirectory n)) : Prop where
  cache : s'.theCache = s.theCache
  above : ∀ j, j ∉ js → s'.above j = s.above j
  states : ∀ j b, stateAt s' j b =
    if b = blk ∧ j ∈ js then (snooped type (stateAt s j blk)).2 else stateAt s j b
  entries : ∀ b, b ≠ blk → s'.theDirectory b = s.theDirectory b
  found : (s'.theDirectory blk).isSome = (s.theDirectory blk).isSome
  sharers : ∀ j, (findOrCreateEntry blk s'.theDirectory).theSharers.isSharer j =
    ((findOrCreateEntry blk s.theDirectory).theSharers.isSharer j && !(decide (type = .Invalidate) && decide (j ∈ js)))
  consistent : (findOrCreateEntry blk s.theDirectory).Consistent → (findOrCreateEntry blk s'.theDirectory).Consistent

namespace Snooped

theorem refl (type : MemoryMessageType) (blk : Nat) (s : System A₁ A₂ (InfiniteDirectory n)) :
    Snooped type [] blk s s where
  cache := rfl
  above := fun _ _ => rfl
  states := fun _ _ => by simp
  entries := fun _ _ => rfl
  found := rfl
  sharers := fun _ => by simp
  consistent := id

theorem cons (hfirst : Snooped type [j] blk s s₁) (hrest : Snooped type js blk s₁ s₂) (hj : j ∉ js) :
    Snooped type (j :: js) blk s s₂ where
  cache := hrest.cache.trans hfirst.cache
  above := by
    intro k hk
    rw [List.mem_cons, not_or] at hk
    rw [hrest.above k hk.2, hfirst.above k (by simpa using hk.1)]
  states := by
    intro k b
    rw [hrest.states, hfirst.states k b, hfirst.states k blk]
    by_cases hkj : k = j
    · subst hkj
      simp [hj]
    · simp [hkj]
  entries := fun b hb => (hrest.entries b hb).trans (hfirst.entries b hb)
  found := hrest.found.trans hfirst.found
  sharers := by
    intro k
    rw [hrest.sharers, hfirst.sharers]
    rw [Bool.and_assoc]
    congr 1
    simp [Bool.or_and_distrib_left]
  consistent := hrest.consistent ∘ hfirst.consistent

end Snooped

/-- One snoop of a sharer: its answer, and what has changed once the directory knows it. -/
theorem sendSnoop_spec (htype : IsSnoop type) (hblk : blk = blockOf size address)
    (hmesi : IsMESI (stateAt s j blk)) (hvalid : isValid (stateAt s j blk) = true)
    (hfound : (s.theDirectory blk).isSome = true) :
    ∃ s₁ dir, sendSnoop (snoopPorts cfg pcfg) (snoopPort cfg j) type address s =
        some ((snooped type (stateAt s j blk)).1, s₁) ∧
      (InfiniteDirectory n).processSnoopResponse j (snooped type (stateAt s j blk)).1 true blk
        s₁.theDirectory = some dir ∧
      Snooped type [j] blk s { s₁ with theDirectory := dir } := by
  subst hblk
  obtain ⟨c', hsnoop, hstates⟩ := snoopIn_spec pcfg htype hmesi
  have hsend : sendSnoop (snoopPorts cfg pcfg) (snoopPort cfg j) type address s =
      some ((snooped type (stateAt s j (blockOf size address))).1,
        { s with above := Function.update s.above j c'
                 snoops := s.snoops ++ [⟨snoopPort cfg j, type, address⟩] }) := by
    unfold sendSnoop snoopPorts
    rw [cacheAt_snoopPort]
    simp only
    rw [hsnoop]
    rfl
  have habove : ∀ k, k ∉ [j] → Function.update s.above j c' k = s.above k := fun k hk =>
    Function.update_of_ne (by simpa using hk) _ _
  have hafter : ∀ k b, A₁.stateOf (Function.update s.above j c' k) b =
      if b = blockOf size address ∧ k ∈ [j] then
        (snooped type (stateAt s k (blockOf size address))).2 else stateAt s k b := by
    intro k b
    by_cases hk : k = j
    · subst hk
      simp [hstates, stateAt]
    · simp [hk, stateAt]
  obtain rfl | rfl := htype
  · refine ⟨_, s.theDirectory, hsend, ?_, rfl, habove, hafter, fun _ _ => rfl, rfl, ?_, id⟩
    · cases hstate : stateAt s j (blockOf size address) with
      | kMigratory => exact absurd hstate hmesi.2
      | kOwned => exact absurd hstate hmesi.1
      | kModified => rfl
      | kExclusive => rfl
      | kShared => rfl
      | kInvalid => simp [hstate, isValid] at hvalid
    · intro k
      simp
  · refine ⟨_, InfiniteDirectory.removeSharer j true (blockOf size address) s.theDirectory, hsend, ?_,
      rfl, habove, hafter, ?_, ?_, ?_, ?_⟩
    · cases hstate : stateAt s j (blockOf size address) with
      | kMigratory => exact absurd hstate hmesi.2
      | kOwned => exact absurd hstate hmesi.1
      | kModified => rfl
      | kExclusive => rfl
      | kShared => rfl
      | kInvalid => simp [hstate, isValid] at hvalid
    · exact fun b hb => InfiniteDirectory.put_of_ne hb
    · rw [hfound]
      exact congrArg Option.isSome InfiniteDirectory.put_self
    · intro k
      simp only [InfiniteDirectory.removeSharer, if_true, InfiniteDirectory.findOrCreateEntry_put]
      simp [BlockDirectoryEntry.removeSharer, Bool.and_comm]
    · intro hconsistent
      simp only [InfiniteDirectory.removeSharer, if_true, InfiniteDirectory.findOrCreateEntry_put]
      exact hconsistent.removeSharer j

variable {action : PrimaryAction} (multicast : Bool)

/-- What a first snoop that is answered makes of the result. -/
def firstResult (action : PrimaryAction) (answer : MemoryMessageType) : SnoopResult :=
  let second := answer != action.terminal_response.1 && answer == action.terminal_response.2
  { response := answer, our_response := if second then action.response.2 else action.response.1,
    use_ns1 := second }

/-- The snoop of a single sharer. -/
theorem sendSnoops_one (htype : IsSnoop action.snoop_type) (hblk : blk = blockOf size address)
    (hmesi : IsMESI (stateAt s j blk)) (hvalid : isValid (stateAt s j blk) = true)
    (hfound : (s.theDirectory blk).isSome = true) (hne : j ≠ i) :
    ∃ s₁, sendSnoops cfg (snoopPorts cfg pcfg) action i address blk multicast true [j]
        { response := NoRequest, our_response := action.response.1, use_ns1 := false } s =
        some (firstResult action (snooped action.snoop_type (stateAt s j blk)).1, s₁) ∧
      Snooped action.snoop_type [j] blk s s₁ := by
  obtain ⟨s₁, dir, hsend, hdir, hsnooped⟩ :=
    sendSnoop_spec cfg pcfg htype hblk hmesi hvalid hfound
  refine ⟨_, ?_, hsnooped⟩
  simp only [sendSnoops, hne, if_false, hsend, hdir, combineSnoopResponse, if_true, Option.bind_eq_bind,
    Option.bind_some]
  split <;> rfl

/-- Sharers that all have the block shared answer alike, so their answers together are the one
    answer. -/
theorem sendSnoops_shared (result : SnoopResult) (htype : IsSnoop action.snoop_type) (hblk : blk = blockOf size address)
    (hfirst : (firstResult action (snooped action.snoop_type kShared).1).use_ns1 = false)
    (hmulticast : action.snoop_type = .Invalidate → multicast = true)
    (hnodup : js.Nodup) (hshared : ∀ j ∈ js, j ≠ i → stateAt s j blk = kShared)
    (hfound : (s.theDirectory blk).isSome = true)
    (hresult : result.response = NoRequest ∨ result.response = (snooped action.snoop_type kShared).1) :
    ∃ after ks s₁, after.our_response = result.our_response ∧ after.use_ns1 = result.use_ns1 ∧
      sendSnoops cfg (snoopPorts cfg pcfg) action i address blk multicast true js result s =
        some (after, s₁) ∧
      Snooped action.snoop_type ks blk s s₁ ∧ (∀ k ∈ ks, k ∈ js ∧ k ≠ i) ∧
      (action.snoop_type = .Invalidate → ∀ k ∈ js, k ≠ i → k ∈ ks) := by
  induction js generalizing result s with
  | nil => exact ⟨result, [], s, rfl, rfl, rfl, .refl _ _ _, by simp, by simp⟩
  | cons j js ih =>
    obtain ⟨hj, hnodup⟩ := List.nodup_cons.mp hnodup
    have hrest : ∀ k ∈ js, k ≠ i → stateAt s k blk = kShared := fun k hk =>
      hshared k (List.mem_cons_of_mem j hk)
    by_cases hji : j = i
    · obtain ⟨after, ks, s₁, hour, hns1, hrun, hsnooped, hks, hall⟩ := ih result hnodup hrest hfound hresult
      refine ⟨after, ks, s₁, hour, hns1, ?_, hsnooped,
        fun k hk => ⟨List.mem_cons_of_mem j (hks k hk).1, (hks k hk).2⟩, ?_⟩
      · simp only [sendSnoops, hji, if_true, hrun]
      · intro hinvalidate k hk hne
        rcases List.mem_cons.mp hk with rfl | hk
        · exact absurd hji hne
        · exact hall hinvalidate k hk hne
    · have hstate := hshared j List.mem_cons_self hji
      obtain ⟨s₁, dir, hsend, hdir, hsnooped⟩ := sendSnoop_spec cfg pcfg htype hblk
        (by rw [hstate]; exact ⟨by decide, by decide⟩) (by rw [hstate]; rfl) hfound
      rw [hstate] at hsend hdir
      have hcombine : combineSnoopResponse result.response (snooped action.snoop_type kShared).1 =
          some (snooped action.snoop_type kShared).1 := by
        rcases hresult with h | h
        · rw [h]
          rfl
        · rw [h]
          rcases htype with htype | htype <;> rw [htype] <;> rfl
      have hsecond : ((snooped action.snoop_type kShared).1 != action.terminal_response.1 &&
          (snooped action.snoop_type kShared).1 == action.terminal_response.2) = false := hfirst
      simp only [sendSnoops, hji, if_false, hsend, hcombine, hsecond, hdir, Option.bind_eq_bind,
        Option.bind_some, Bool.or_false, Bool.false_eq_true]
      split
      · next hstop =>
        refine ⟨{ result with response := (snooped action.snoop_type kShared).1 }, [j], _, rfl, rfl, rfl,
          hsnooped, by simpa using hji, fun hinvalidate => ?_⟩
        rw [hmulticast hinvalidate] at hstop
        cases hstop
      · have hne : ∀ k ∈ js, k ∉ [j] := fun k hk hkj => hj (by simpa using List.mem_singleton.mp hkj ▸ hk)
        obtain ⟨after, ks, s₂, hour, hns1, hrun, hsnooped₂, hks, hall⟩ := ih (s := { s₁ with theDirectory := dir })
          { result with response := (snooped action.snoop_type kShared).1 } hnodup
          (fun k hk hki => by rw [hsnooped.states, if_neg fun h => hne k hk h.2]; exact hrest k hk hki)
          (hsnooped.found.trans hfound) (.inr rfl)
        refine ⟨after, j :: ks, s₂, hour, hns1, hrun,
          hsnooped.cons hsnooped₂ fun hmem => hj (hks j hmem).1, ?_, ?_⟩
        · intro k hk
          rcases List.mem_cons.mp hk with rfl | hk
          · exact ⟨List.mem_cons_self, hji⟩
          · exact ⟨List.mem_cons_of_mem j (hks k hk).1, (hks k hk).2⟩
        · intro hinvalidate k hk hki
          rcases List.mem_cons.mp hk with rfl | hk
          · exact List.mem_cons_self
          · exact List.mem_cons_of_mem j (hall hinvalidate k hk hki)

end Phase

end nFastCMPCache
