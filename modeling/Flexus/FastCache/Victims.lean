import Flexus.FastCache.Replacement
import Flexus.FastCMPCache.Sources

/-!
# What an allocation gives up

A set keeps its invalid blocks at the least recently used end as long as its blocks are only
invalidated towards that end, and a missing block is then put in the place of an invalid one.
-/

namespace nFastCache

namespace Component

open CoherenceState_t block_set_t Runs

variable {g : Geometry} {k k' : Component g} {call : Call} {i : Nat}

/-- The way that the current request gives up for a block that is missing in the set of an
    address. -/
def standsFor (k : Component g) (tagset : Nat) : Option Nat :=
  match k.lookup with
  | none => none
  | some l =>
    if k.theAllocateInProgress = false ∧ g.get_set l.theAddress = g.get_set tagset ∧
        ∀ x ∈ setOf k.theCache l, x.tag ≠ l.theAddress then some l.theBlock
    else none

/-- A change keeps the invalid blocks first, and a snoop puts no block before the one that
    stands for a missing block. -/
def Meets (k : Component g) : Call → Prop
  | .snoop tagset (some (new_state, make_LRU)) =>
    ∀ e ∈ k.theCache.theBlocks (g.get_set tagset), e.tag = g.get_tag tagset →
      e.state ≠ kInvalid →
        Orderly (k.theCache.theBlocks (g.get_set tagset)) e.way new_state false make_LRU ∧
        (make_LRU = true → k.standsFor tagset = none ∨ k.standsFor tagset = some e.way)
  | .changeState new_state make_MRU make_LRU =>
    ∀ l ∈ k.lookup, Orderly (setOf k.theCache l) l.theBlock new_state make_MRU make_LRU
  | _ => True

instance : Decidable (Meets k call) := by
  unfold Meets
  split
  · infer_instance
  · infer_instance
  · infer_instance

/-- The invalid blocks of every set are its least recently used ones, and so is the block
    that the current request gives up. -/
structure Ordered (k : Component g) : Prop where
  sound : Sound k
  first : ∀ i, InvalidOldest (k.theCache.theBlocks i)
  held : ∀ l, k.lookup = some l → k.theAllocateInProgress = false →
    HoldsFirst l.theAddress l.theBlock (setOf k.theCache l)

theorem start_ordered : Ordered (start g) :=
  ⟨start_sound, fun _ => List.Pairwise.nil, fun l hl => by cases hl⟩

theorem ordered_of_idle (hsound : Sound k) (hidle : k.lookup = none)
    (hfirst : ∀ i, InvalidOldest (k.theCache.theBlocks i)) : Ordered k :=
  ⟨hsound, hfirst, by simp [hidle]⟩

/-- The way of a block that is in the set holds no other one. -/
theorem holdsFirst_of_own {assoc tag w : Nat} {l : block_set_t} {e : BlockEntry}
    (hwell : WellFormed assoc l) (he : e ∈ l) (hway : e.way = w) (htag : e.tag = tag) :
    HoldsFirst tag w l := by
  intro x hx hxw hne
  rw [hwell.way_inj hx he (hxw.trans hway.symm)] at hne
  exact absurd htag hne

/-- A lookup reads the state of the block in its way, if it is the block looked up. -/
theorem getState_of_way {l : StdLookupResult} {e : BlockEntry} (he : e ∈ setOf k.theCache l)
    (hway : e.way = l.theBlock) :
    k.theCache.getState l = if e.tag = l.theAddress then e.state else l.theState := by
  rw [StdCache.getState, ← hway, find?_way (k.theCache.wellFormed _) he]

/-! ## One call -/

theorem lookup_ordered (h : Ordered k) (hassoc : g.theAssoc ≤ 65536) {t : Nat}
    (hok : step k (.lookup t) = .ok k') : Ordered k' := by
  have hsound := step_sound h.sound hok
  simp only [step] at hok
  split_ifs at hok
  cases hok
  refine ⟨hsound, fun i => ?_, fun l hl _ => ?_⟩
  · rw [StdCache.theBlocks_lookup]
    split
    · exact (h.first _).lookup
    · exact h.first i
  · cases hl
    have haddr : (k.theCache.lookup t).2.theAddress = g.get_tag t := rfl
    rw [setOf, haddr, g.get_set_get_tag, StdCache.theBlocks_lookup, if_pos rfl]
    exact holdsFirst_lookup (k.theCache.wellFormed _) (h.sound.dense hassoc _) hassoc

theorem snoop_ordered (h : Ordered k) {t : Nat} {change : Option (CoherenceState_t × Bool)}
    (hmeets : Meets k (.snoop t change)) (hok : step k (.snoop t change) = .ok k') : Ordered k' := by
  have hsound := step_sound h.sound hok
  simp only [step, Except.ok.injEq] at hok
  subst hok
  have hwell := k.theCache.wellFormed (g.get_set t)
  have hwell' := (snoop k.theCache t change).wellFormed (g.get_set t)
  have hsnoop := snoop_set k.theCache t change
  refine ⟨hsound, fun i => ?_, fun l hl hfree => ?_⟩
  · by_cases hset : i = g.get_set t
    · rw [hset]
      have hfirst := h.first (g.get_set t)
      generalize (snoop k.theCache t change).theBlocks (g.get_set t) = after at hsnoop
      cases hsnoop with
      | looked => exact hfirst.lookup.lookup
      | changed he htag hvalid hchange =>
        subst hchange
        exact hfirst.updateState hwell he (.inl hvalid) (hmeets _ he htag hvalid).1
    · rw [snoop_other hset]
      exact h.first i
  · have hheld := h.held l hl hfree
    have hholds := h.sound.holds l hl
    by_cases hset : g.get_set l.theAddress = g.get_set t
    · rw [setOf, hset] at hheld hholds ⊢
      have hafter := hsnoop.holds hwell hholds
      generalize (snoop k.theCache t change).theBlocks (g.get_set t) = after at hsnoop hafter hwell'
      cases hsnoop with
      | looked => exact (hheld.lookup hholds hwell).lookup hholds.lookup (lookup_wellFormed hwell)
      | changed he htag hvalid hchange =>
        subst hchange
        obtain ⟨x, hx, hway, hown | ⟨hnone, -⟩⟩ := hholds
        · obtain ⟨y, hy, hyway, hyown | ⟨hynone, -⟩⟩ := hafter
          · exact holdsFirst_of_own hwell' hy hyway hyown
          · obtain ⟨z, hz, hsame⟩ := List.mem_map.mp
              ((updateState_ident hwell he).mem_iff.mpr (List.mem_map_of_mem hx))
            exact absurd ((congrArg Prod.fst hsame).trans hown) (hynone z hz)
        · have habsent : ∀ x ∈ setOf k.theCache l, x.tag ≠ l.theAddress := by
            rw [setOf, hset]
            exact hnone
          have hstands : k.standsFor t = some l.theBlock := by
            rw [standsFor, hl]
            exact if_pos ⟨hfree, hset, habsent⟩
          refine hheld.updateState hwell he fun hlru => ?_
          have hsame := (hmeets _ he htag hvalid).2 hlru
          rw [hstands] at hsame
          rcases hsame with hno | hsame
          · cases hno
          · exact (Option.some.inj hsame).symm
    · rw [setOf, snoop_other hset]
      exact hheld

theorem updateLRU_ordered (h : Ordered k) (hok : step k .updateLRU = .ok k') : Ordered k' := by
  have hsound := step_sound h.sound hok
  simp only [step] at hok
  split at hok
  · cases hok
  · next l hl =>
    split_ifs at hok with _ hvalid
    cases hok
    refine ordered_of_idle hsound rfl fun i => ?_
    rw [StdCache.theBlocks_updateLRU]
    split
    · obtain ⟨e, he, hway, hfound⟩ := h.sound.holds l hl
      rw [getState_of_way he hway] at hvalid
      have hown : e.tag = l.theAddress := by
        rcases hfound with hown | ⟨hnone, hstate, -⟩
        · exact hown
        · rw [if_neg (hnone e he)] at hvalid
          exact absurd hstate hvalid
      rw [if_pos hown] at hvalid
      rw [← hway]
      exact (h.first _).touch (k.theCache.wellFormed _) he hvalid
    · exact h.first i

theorem changeState_ordered (h : Ordered k) {s : CoherenceState_t} {mru lru : Bool}
    (hmeets : Meets k (.changeState s mru lru)) (hok : step k (.changeState s mru lru) = .ok k') :
    Ordered k' := by
  have hsound := step_sound h.sound hok
  simp only [step] at hok
  split at hok
  · cases hok
  · next l hl =>
    split_ifs at hok with _ hguard
    cases hok
    refine ordered_of_idle hsound rfl fun i => ?_
    rw [StdCache.theBlocks_changeState]
    split
    · obtain ⟨e, he, hway, hfound⟩ := h.sound.holds l hl
      push Not at hguard
      obtain ⟨hfoundState, hnow⟩ := hguard
      have hown : e.tag = l.theAddress :=
        hfound.resolve_right fun hmissed => hfoundState hmissed.2.1
      rw [getState_of_way he hway, if_pos hown] at hnow
      have hvalid : e.state ≠ kInvalid ∨ mru = true := by
        by_cases hinvalid : e.state = kInvalid
        · exact .inr (by simpa using hnow hinvalid)
        · exact .inl hinvalid
      have horder := hmeets l hl
      rw [← hway] at horder ⊢
      exact (h.first _).updateState (k.theCache.wellFormed _) he hvalid horder
    · exact h.first i

theorem evict_ordered (h : Ordered k) (hok : step k .evict = .ok k') : Ordered k' := by
  have hsound := step_sound h.sound hok
  simp only [step] at hok
  split_ifs at hok
  cases hok
  exact ⟨hsound, h.first, fun l _ hfree => by cases hfree⟩

theorem allocate_ordered (h : Ordered k) {s : CoherenceState_t}
    (hok : step k (.allocate s) = .ok k') : Ordered k' := by
  have hsound := step_sound h.sound hok
  simp only [step] at hok
  split at hok
  · cases hok
  · next l hl =>
    split_ifs at hok with _ hvalid
    cases hok
    refine ordered_of_idle hsound rfl fun i => ?_
    rw [allocate_set h.sound hl]
    split
    · exact ((h.first _).sublist List.filter_sublist).tail fun hinvalid => absurd hinvalid hvalid
    · exact h.first i

theorem step_ordered (hassoc : g.theAssoc ≤ 65536) (h : Ordered k) (hmeets : Meets k call)
    (hok : step k call = .ok k') : Ordered k' := by
  cases call with
  | lookup t => exact lookup_ordered h hassoc hok
  | snoop t change => exact snoop_ordered h hmeets hok
  | updateLRU => exact updateLRU_ordered h hok
  | changeState s mru lru => exact changeState_ordered h hmeets hok
  | evict => exact evict_ordered h hok
  | allocate s => exact allocate_ordered h hok

/-! ## The replacement -/

theorem reaches_sound {Meets : Component g → Call → Prop} (hrun : Reaches step Meets (start g) k) :
    Sound k :=
  hrun.invariant start_sound fun _ _ _ h _ hok => step_sound h hok

theorem reaches_ordered (hassoc : g.theAssoc ≤ 65536) (hrun : Reaches step Meets (start g) k) :
    Ordered k :=
  hrun.invariant start_ordered fun _ _ _ h hmeets hok => step_ordered hassoc h hmeets hok

/-- What an allocation keeps: the other sets, the ways of the set, the blocks in the other
    ways and the allocated block. -/
structure Allocated (l : StdLookupResult) (s : CoherenceState_t) (c c' : StdCache g) : Prop where
  others : ∀ i, i ≠ g.get_set l.theAddress → c'.theBlocks i = c.theBlocks i
  ways : ((setOf c' l).map BlockEntry.way).Perm ((setOf c l).map BlockEntry.way)
  kept : ∀ e ∈ setOf c l, e.way ≠ l.theBlock → e ∈ setOf c' l
  block : BlockEntry.mk l.theAddress s l.theBlock ∈ setOf c' l

theorem allocate_kept (h : Sound k) {s : CoherenceState_t} (hok : step k (.allocate s) = .ok k') :
    ∃ l, k.lookup = some l ∧ Allocated l s k.theCache k'.theCache := by
  simp only [step] at hok
  split at hok
  · cases hok
  · next l hl =>
    split_ifs at hok
    cases hok
    obtain ⟨e, he, hway, -⟩ := h.holds l hl
    have hset := allocate_set (i := g.get_set l.theAddress) h hl (s := s)
    rw [if_pos rfl] at hset
    refine ⟨l, hl, fun i hi => ?_, ?_, fun x hx hne => ?_, ?_⟩
    · rw [allocate_set h hl, if_neg hi]
    · rw [setOf, hset]
      exact ways_allocated (k.theCache.wellFormed _) ⟨e, he, hway⟩
    · rw [setOf, hset]
      exact List.mem_append_left _ (List.mem_filter.mpr ⟨hx, by simpa using hne⟩)
    · rw [setOf, hset]
      exact List.mem_append_right _ (List.mem_singleton_self _)

/-- A block that the current request evicts is the least recently used one of its set, and
    no block of the set is invalid. -/
def EvictsLast (k : Component g) : Prop :=
  ∀ v ∈ k.evicted, ∀ l ∈ k.lookup, (∀ x ∈ setOf k.theCache l, x.state ≠ kInvalid) ∧
    ∃ e, (setOf k.theCache l).head? = some e ∧ v = (e.tag, e.state)

theorem Ordered.evictsLast (h : Ordered k) (hfree : k.theAllocateInProgress = false) :
    EvictsLast k := by
  intro v hv l hl
  have hl : k.lookup = some l := hl
  obtain ⟨e, he, hway, -⟩ := h.sound.holds l hl
  simp only [evicted, hl, StdCache.allocate, h.sound.aligned l hl, ← hway] at hv
  obtain ⟨hv, htag, hvalid⟩ := mem_evicted (k.theCache.wellFormed _) he hv
  have hhead := h.held l hl hfree e he hway htag
  exact ⟨(h.first _).all_valid hhead hvalid, e, hhead, hv⟩

/-- In every run the sets keep their form and an allocation loses no block. When invalid
    blocks are kept at the least recently used end and nothing gets before the block that
    stands for a missing one, a valid block is evicted only as the least recently used one
    of a set without invalid blocks. -/
theorem replacement_kept (hrun : Reaches step Anything (start g) k) :
    (∀ i, (k.theCache.theBlocks i).WellFormed g.theAssoc ∧
      ∀ e ∈ k.theCache.theBlocks i, g.get_set e.tag = i) ∧
    (∀ s k', step k (.allocate s) = .ok k' →
      ∃ l, k.lookup = some l ∧ Allocated l s k.theCache k'.theCache) ∧
    (g.theAssoc ≤ 65536 → Reaches step Meets (start g) k →
      ∀ k', step k .evict = .ok k' → EvictsLast k) := by
  refine ⟨fun i => ⟨k.theCache.wellFormed i, fun e he => (k.theCache.placed i e he).1⟩, ?_, ?_⟩
  · intro s k' hok
    exact allocate_kept (reaches_sound hrun) hok
  · intro hassoc hmeets k' hok
    refine (reaches_ordered hassoc hmeets).evictsLast ?_
    simp only [step] at hok
    split_ifs at hok with _ hbusy
    exact Bool.eq_false_of_not_eq_true hbusy

/-- One set of two blocks. -/
def oneSet : Geometry := { theNumSets := 1, theAssoc := 2, theBlockSize := 64, assoc_pos := Nat.two_pos }

/-- Two misses fill the set and a third one finds it full. -/
def thirdMiss : List Call :=
  [.lookup 0, .evict, .allocate kShared, .lookup 64, .evict, .allocate kModified, .lookup 128]

theorem replacement_kept_thirdMiss : ∃ k : Component oneSet,
    k.evicted = [(0, kShared)] ∧ EvictsLast k ∧
    ∀ s k', step k (.allocate s) = .ok k' →
      ∃ l, k.lookup = some l ∧ Allocated l s k.theCache k'.theCache := by
  have hrun : (runWhile step (fun k call => decide (Meets k call)) (start oneSet) thirdMiss).any
      (fun k => decide (k.evicted = [(0, kShared)] ∧ k.lookup ≠ none ∧
        k.theAllocateInProgress = false)) = true := by
    decide +kernel
  obtain ⟨k, hreach, hend⟩ := Runs.exists_reaches (fun _ _ h => of_decide_eq_true h) hrun
  obtain ⟨hevicted, hlookup, hfree⟩ := of_decide_eq_true hend
  have hok : step k .evict = .ok { k with theAllocateInProgress := true } := by
    simp [step, hlookup, hfree]
  have hkept := replacement_kept (hreach.weaken fun _ _ _ => trivial)
  exact ⟨k, hevicted, hkept.2.2 (by decide) hreach _ hok, hkept.2.1⟩

/-- A write of another cache invalidates a block and makes it the most recently used one, so
    the next miss evicts the valid block beside it. -/
theorem evicts_valid_beside_invalid : ∃ k : Component oneSet,
    Reaches step Anything (start oneSet) k ∧ (∃ k', step k .evict = .ok k') ∧
    k.evicted = [(64, kShared)] ∧
    k.theCache.theBlocks 0 = [⟨64, kShared, 1⟩, ⟨0, kInvalid, 0⟩] := by
  have hrun : (runWhile step (fun _ _ => true) (start oneSet)
      [.lookup 0, .evict, .allocate kShared, .lookup 64, .evict, .allocate kShared,
        .lookup 0, .changeState kInvalid true false, .lookup 128]).any
      (fun k => decide (k.lookup ≠ none ∧ k.theAllocateInProgress = false ∧
        k.evicted = [(64, kShared)] ∧
        k.theCache.theBlocks 0 = [⟨64, kShared, 1⟩, ⟨0, kInvalid, 0⟩])) = true := by
    decide +kernel
  obtain ⟨k, hreach, hend⟩ := Runs.exists_reaches (fun _ _ _ => trivial) hrun
  obtain ⟨hlookup, hfree, hevicted, hset⟩ := of_decide_eq_true hend
  have hok : step k .evict = .ok { k with theAllocateInProgress := true } := by
    simp [step, hlookup, hfree]
  exact ⟨k, hreach, ⟨_, hok⟩, hevicted, hset⟩

end Component

end nFastCache

namespace nFastCMPCache

open nCMPCache (MemoryMessageType)
open nFastCache
open CoherenceState_t Runs

/-! ## The calls of the shared cache -/

/-- A row that allocates a block leaves it valid. -/
theorem allocate_row {type : MemoryMessageType} {c_state : CoherenceState_t} {d_state : SharingState}
    {action : PrimaryAction} (haction : SingleCMPProtocol.getAction type c_state d_state = some action)
    (hallocate : action.allocate = true) :
    action.next_state.1 ≠ kInvalid ∧ action.next_state.2 ≠ kInvalid := by
  have hrow : (SingleCMPProtocol.getAction type c_state d_state).all
      (fun a => !a.allocate || decide (a.next_state.1 ≠ kInvalid ∧ a.next_state.2 ≠ kInvalid)) = true := by
    cases type <;> cases c_state <;> cases d_state <;> rfl
  rw [haction, Option.all_some, hallocate] at hrow
  exact of_decide_eq_true hrow

variable {n : Nat} {D : AbstractDirectory n} {g : Geometry} {Above : Type} {cfg : Config}
  {ports : SnoopPorts Above} {i : Fin n} {type reply : MemoryMessageType} {address : Nat}
  {s s' : Node D (StdCache.array g) Above} {k : Component g}

theorem lookup_theState (c : StdCache g) (a : Nat) :
    (c.lookup a).2.theState = c.stateOf (g.get_tag a) := by
  unfold StdCache.lookup StdCache.stateOf block_set_t.lookup block_set_t.stateOf
  rw [g.get_set_get_tag]
  dsimp only
  cases (c.theBlocks (g.get_set a)).find? fun x => x.tag == g.get_tag a with
  | some e => rfl
  | none =>
    dsimp only
    split
    · rfl
    · split <;> rfl

theorem getState_lookup (c : StdCache g) (a : Nat) :
    (c.lookup a).1.getState (c.lookup a).2 = (c.lookup a).2.theState := by
  rw [lookup_theState, StdCache.getState_eq (StdCache.finds_lookup c a), StdCache.stateOf_lookup]
  rfl

/-- What the shared cache does to its array while it brings it up to date is one change
    through the lookup. -/
theorem updateCache_calls {action : PrimaryAction} {nstate : CoherenceState_t} {l : StdLookupResult}
    (hallocate : action.allocate = true → nstate ≠ kInvalid)
    (hfound : k.theCache.getState l = l.theState) (hlookup : k.lookup = some l)
    (hfree : k.theAllocateInProgress = false) (hcache : k.theCache = s.theCache)
    (hok : updateCache action nstate l s = some s') {init : Component g}
    (hrun : Reaches Component.step Anything init k) :
    ∃ k', Reaches Component.step Anything init k' ∧ k'.theCache = s'.theCache ∧
      k'.theAllocateInProgress = false := by
  have hstate : (StdCache.array g).getState s.theCache l = l.theState := by
    rw [← hfound, hcache]
    rfl
  unfold updateCache at hok
  dsimp only at hok
  rw [hstate] at hok
  split at hok
  · next hrow =>
    cases hok
    have hevict : Component.step k .evict = .ok { k with theAllocateInProgress := true } := by
      simp [Component.step, hlookup, hfree]
    refine ⟨⟨(k.theCache.allocate l nstate).2, none, false⟩,
      .next (.next hrun trivial hevict) (e := .allocate nstate) trivial ?_, ?_, rfl⟩
    · simp [Component.step, hlookup, hallocate hrow]
    · rw [hcache]
      rfl
  · split_ifs at hok with hdiffers hinvalid htouch
    · cases hok
      refine ⟨{ k with
          theCache := k.theCache.changeState l nstate action.update false
          lookup := none },
        .next hrun (e := .changeState nstate action.update false) trivial ?_, ?_, hfree⟩
      · simp [Component.step, hlookup, hfree, hfound, hinvalid]
      · rw [hcache]
        rfl
    · cases hok
      refine ⟨{ k with theCache := k.theCache.updateLRU l, lookup := none },
        .next hrun (e := .updateLRU) trivial ?_, ?_, hfree⟩
      · simp [Component.step, hlookup, hfree, hfound, htouch.2]
      · rw [hcache]
        rfl
    · cases hok
      exact ⟨k, hrun, hcache, hfree⟩

/-- A request of the shared cache is a run of calls of its array. -/
theorem processRequest_calls {init : Component g} (hrun : Reaches Component.step Anything init k)
    (hfree : k.theAllocateInProgress = false) (hcache : k.theCache = s.theCache)
    (hok : processRequest cfg ports i type address s = some (reply, s')) :
    ∃ k', Reaches Component.step Anything init k' ∧ k'.theCache = s'.theCache ∧
      k'.theAllocateInProgress = false := by
  unfold processRequest at hok
  dsimp only at hok
  obtain ⟨action, haction, hok⟩ := Option.bind_eq_some_iff.mp hok
  obtain ⟨⟨result, success, s₁⟩, hsnoop, hok⟩ := Option.bind_eq_some_iff.mp hok
  obtain ⟨s₂, hextra, hok⟩ := Option.bind_eq_some_iff.mp hok
  obtain ⟨dir, -, hok⟩ := Option.bind_eq_some_iff.mp hok
  obtain ⟨s₃, hupdate, hok⟩ := Option.bind_eq_some_iff.mp hok
  split at hok
  · cases hok
    have hsnoops := (snoopSharers_untouched cfg ports hsnoop).cache
    have hactions := (runActions_untouched cfg ports hextra).cache
    obtain ⟨found, hfound⟩ :
        ∃ found, StdCache.lookup s.theCache (blockOf g.theBlockSize address) = found := ⟨_, rfl⟩
    have hlooked : Component.step k (.lookup (blockOf g.theBlockSize address)) =
        .ok { k with theCache := found.1, lookup := some found.2 } := by
      simp [Component.step, hfree, hcache, hfound]
    have hfreed : (Component.mk found.1 (some found.2) k.theAllocateInProgress).theAllocateInProgress =
        false := hfree
    refine updateCache_calls ?_ ?_ ?_ hfreed ?_ hupdate (.next hrun trivial hlooked)
    · intro hallocate
      have hrow := allocate_row haction hallocate
      split
      · exact hrow.2
      · exact hrow.1
    · rw [← hfound]
      exact getState_lookup _ _
    · rw [← hfound]
      rfl
    · have hsame : s₂.theCache = (StdCache.lookup s.theCache (blockOf g.theBlockSize address)).1 := by
        refine hactions.trans ?_
        dsimp only
        split
        · exact hsnoops
        · exact hsnoops
      rw [← hfound]
      exact hsame.symm
  · cases hok

/-- What any requests leave in the array of the shared cache, calls of the array leave there too. -/
theorem requests_calls (requests : List (Fin n × MemoryMessageType × Nat)) (hempty : s.theCache = .empty g)
    (hok : requests.foldlM (fun s r => (processRequest cfg ports r.1 r.2.1 r.2.2 s).map Prod.snd) s = some s') :
    (∃ k, Reaches Component.step Anything (Component.start g) k ∧ k.theCache = s'.theCache) ∧
      (g.theAssoc ≤ 65536 → ∀ i, block_set_t.Dense (StdCache.theBlocks s'.theCache i)) := by
  have hcalls : ∀ k s, Reaches Component.step Anything (Component.start g) k → k.theAllocateInProgress = false →
      k.theCache = s.theCache →
      requests.foldlM (fun s r => (processRequest cfg ports r.1 r.2.1 r.2.2 s).map Prod.snd) s = some s' →
      ∃ k', Reaches Component.step Anything (Component.start g) k' ∧ k'.theCache = s'.theCache := by
    clear hok
    induction requests with
    | nil =>
      intro k s hrun _ hcache hok
      cases hok
      exact ⟨k, hrun, hcache⟩
    | cons r rest ih =>
      intro k s hrun hfree hcache hok
      rw [List.foldlM_cons] at hok
      obtain ⟨s₁, hfirst, hrest⟩ := Option.bind_eq_some_iff.mp hok
      obtain ⟨⟨reply, s₂⟩, hrequest, rfl⟩ := Option.map_eq_some_iff.mp hfirst
      obtain ⟨k₁, hrun₁, hcache₁, hfree₁⟩ := processRequest_calls hrun hfree hcache hrequest
      exact ih k₁ _ hrun₁ hfree₁ hcache₁ hrest
  obtain ⟨k, hrun, hcache⟩ := hcalls _ s .start rfl hempty.symm hok
  refine ⟨⟨k, hrun, hcache⟩, ?_⟩
  rw [← hcache]
  exact (Component.reaches_sound hrun).dense

/-- Two caches ask for two blocks. -/
theorem requests_calls_two : ∃ s' : System oneBlock oneBlock (InfiniteDirectory 2),
    [(0, .ReadReq, 0), (1, .ReadReq, 64)].foldlM (fun s r =>
      (processRequest perCore (snoopPorts perCore (evictions true)) r.1 r.2.1 r.2.2 s).map Prod.snd)
      (System.start oneBlock oneBlock) = some s' ∧
    ∃ k : Component ⟨1, 1, 64, by decide⟩, Reaches Component.step Anything (Component.start _) k ∧
      k.theCache = s'.theCache := by
  have hsome : ([(0, .ReadReq, 0), (1, .ReadReq, 64)].foldlM (fun s r =>
      (processRequest perCore (snoopPorts perCore (evictions true)) r.1 r.2.1 r.2.2 s).map Prod.snd)
      (System.start oneBlock oneBlock : System oneBlock oneBlock (InfiniteDirectory 2))).isSome = true := by
    decide +kernel
  obtain ⟨s', hs⟩ := Option.isSome_iff_exists.mp hsome
  exact ⟨s', hs, (requests_calls _ rfl hs).1⟩

end nFastCMPCache
