import Flexus.Cache.Flexpoint
import Flexus.CmpCache.Flexpoint

/-!
# Handing warm caches over

A timing cache that starts from the saved state of a functional cache should hold the same
blocks, in the same states and with the same order of their last uses, and should not replace a
block while it has room.
-/

namespace nFastCache

open SetArray CoherenceState_t

variable {β σ : Type*}

/-- A timing set continues a functional one: its blocks, their order, and that none of them
    is replaced, however the set is used, while some way holds no block. -/
structure HandedOver (K : LineKind Nat β σ) (name : CoherenceState_t → σ) (n : Nat) (Allowed : Nat → Prop)
    (l : block_set_t) (t : SetLRU β) : Prop where
  blocks : ∀ tag st, K.valid st = true →
    ((∃ w < n, K.tag (t.theBlocks w) = tag ∧ K.state (t.theBlocks w) = st) ↔
      ∃ e ∈ l, e.tag = tag ∧ name e.state = st)
  recency : (t.recency.filter fun b => K.valid (K.state b)).map K.tag =
    ((l.filter fun e => isValid e.state).map BlockEntry.tag).reverse
  spares : t.SparesValid K n Allowed

namespace block_set_t

/-- No block was used before an invalid entry, and a set that holds a block has an entry for
    every way. -/
def InvalidFirst (n : Nat) (l : block_set_t) : Prop :=
  l.Pairwise (fun older newer => isValid older.state = true → isValid newer.state = true) ∧
    ((∃ e ∈ l, isValid e.state = true) → l.length = n)

/-- No entry but the least recently used one is a block. -/
def FirstOnly (l : block_set_t) : Prop := ∀ e ∈ l.tail, e.state = kInvalid

variable {l : block_set_t} {n : Nat} {K : LineKind Nat β σ} {name : CoherenceState_t → σ}

theorem filter_entries : ((l.entries n).filter fun e => isValid e.2).map Prod.fst =
    (l.filter fun e => isValid e.state).map BlockEntry.tag := by
  have hpad : (List.replicate (n - l.length) (0, kInvalid)).filter (fun e => isValid e.2) =
      ([] : List (Nat × CoherenceState_t)) := by
    apply List.filter_eq_nil_iff.mpr
    intro e he
    rw [List.eq_of_mem_replicate he]
    simp [isValid]
  rw [entries, List.filter_append, hpad, List.append_nil, List.filter_map, List.map_map]
  rfl

theorem invalidFirst_iff (hlength : l.length ≤ n) :
    (l.entries n).Pairwise (fun older newer => isValid older.2 = true → isValid newer.2 = true) ↔
      l.InvalidFirst n := by
  have hpad : (List.replicate (n - l.length) ((0, kInvalid) : Nat × CoherenceState_t)).Pairwise
      fun older newer => isValid older.2 = true → isValid newer.2 = true := by
    rw [List.pairwise_replicate]
    exact .inr id
  rw [entries, List.pairwise_append, List.pairwise_map, InvalidFirst]
  refine and_congr_right fun _ => ⟨fun h hvalid => ?_, fun h => ⟨hpad, fun x hx y hy hxv => ?_⟩⟩
  · obtain ⟨e, he, hev⟩ := hvalid
    by_contra hne
    have hroom : (0, kInvalid) ∈ List.replicate (n - l.length) ((0, kInvalid) : Nat × CoherenceState_t) :=
      List.mem_replicate.mpr ⟨by omega, rfl⟩
    exact absurd (h.2 _ (List.mem_map_of_mem he) _ hroom hev) (by simp [isValid])
  · obtain ⟨e, he, rfl⟩ := List.mem_map.mp hx
    have hfull := h ⟨e, he, hxv⟩
    rw [hfull, Nat.sub_self] at hy
    exact absurd hy List.not_mem_nil

theorem eq_reverse_iff {L : List Nat} (hnodup : L.Nodup) : L = L.reverse ↔ L.length ≤ 1 := by
  constructor
  · intro h
    cases L with
    | nil => simp
    | cons x M =>
      rw [List.reverse_cons] at h
      cases hM : M.reverse with
      | nil => simp [List.reverse_eq_nil_iff.mp hM]
      | cons y N =>
        rw [hM, List.cons_append, List.cons.injEq] at h
        have hmem : x ∈ M := by
          rw [← List.mem_reverse, hM, h.1]
          exact List.mem_cons_self
        exact absurd hmem (List.nodup_cons.mp hnodup).1
  · intro h
    match L, h with
    | [], _ => rfl
    | [x], _ => rfl

/-- The entries are in the order of their uses both ways, and leave the free ways to be used
    first, when the first of them is the only block. -/
theorem firstOnly_iff (htags : (l.map BlockEntry.tag).Nodup) :
    ((l.filter fun e => isValid e.state).map BlockEntry.tag =
        ((l.filter fun e => isValid e.state).map BlockEntry.tag).reverse ∧
      (l.entries n).Pairwise fun newer older => isValid older.2 = true → isValid newer.2 = true) ↔
      l.FirstOnly := by
  have hnodup : ((l.filter fun e => isValid e.state).map BlockEntry.tag).Nodup :=
    htags.sublist (List.filter_sublist.map _)
  rw [eq_reverse_iff hnodup, List.length_map, FirstOnly]
  cases l with
  | nil =>
    refine iff_of_true ⟨by simp, ?_⟩ (by simp)
    apply List.pairwise_of_forall_mem_list
    intro x _ y hy hvalid
    rcases mem_entries hy with ⟨e, he, -⟩ | rfl
    · exact absurd he List.not_mem_nil
    · exact absurd hvalid (by simp [isValid])
  | cons x l =>
    rw [List.tail_cons]
    constructor
    · rintro ⟨hone, hpairs⟩ e he
      by_contra hvalid
      have hev : isValid e.state = true := by simpa [isValid] using hvalid
      have hrest : (e.tag, e.state) ∈ (l.map fun e => (e.tag, e.state)) ++
          List.replicate (n - (x :: l).length) (0, kInvalid) :=
        List.mem_append_left _ (List.mem_map_of_mem he)
      have hxv : isValid x.state = true := (List.pairwise_cons.mp hpairs).1 _ hrest hev
      have hmem : e ∈ l.filter fun e => isValid e.state := List.mem_filter.mpr ⟨he, hev⟩
      have hpos := List.length_pos_of_mem hmem
      rw [List.filter_cons, if_pos hxv, List.length_cons] at hone
      omega
    · intro hfirst
      have hnone : (l.filter fun e => isValid e.state) = [] := by
        apply List.filter_eq_nil_iff.mpr
        intro e he
        simp [isValid, hfirst e he]
      have hrest : ∀ y ∈ (l.map fun e => (e.tag, e.state)) ++
          List.replicate (n - (x :: l).length) (0, kInvalid), ¬ isValid y.2 = true := by
        intro y hy
        rcases List.mem_append.mp hy with hmem | hmem
        · obtain ⟨e, he, rfl⟩ := List.mem_map.mp hmem
          simp [isValid, hfirst e he]
        · rw [List.eq_of_mem_replicate hmem]
          simp [isValid]
      refine ⟨?_, List.pairwise_cons.mpr ⟨fun y hy hyv => absurd hyv (hrest y hy), ?_⟩⟩
      · rw [List.filter_cons, hnone]
        split <;> simp
      · apply List.pairwise_of_forall_mem_list
        exact fun y _ z hz hzv => absurd hzv (hrest z hz)

/-- What it takes to hand a set over, for a set that was filled with its entries in some
    order. -/
theorem handedOver_iff {Allowed : Nat → Prop} {t : SetLRU β} {es : List (Nat × CoherenceState_t)}
    {line : Nat × CoherenceState_t → β} {st : σ} (hfresh : ∀ l : List Nat, ∃ a, Allowed a ∧ a ∉ l)
    (hst : K.valid st = true) (hsaved : ∀ e ∈ l, e.state ≠ kMigratory)
    (hname : ∀ s, s ≠ kMigratory → K.valid (name s) = isValid s) (horder : t.theMRUOrder = List.range n)
    (hperm : es.Perm (l.entries n)) (hrecency : t.recency = es.map line)
    (hplain : ∀ e ∈ es, K.Plain (line e)) (hstate : ∀ e ∈ es, K.state (line e) = name e.2)
    (htag : ∀ e ∈ es, isValid e.2 = true → K.tag (line e) = e.1) :
    HandedOver K name n Allowed l t ↔
      (es.filter fun e => isValid e.2).map Prod.fst =
          ((l.filter fun e => isValid e.state).map BlockEntry.tag).reverse ∧
        es.Pairwise fun newer older => isValid older.2 = true → isValid newer.2 = true := by
  have hsavedEs : ∀ e ∈ es, e.2 ≠ kMigratory := fun e he => entries_ne hsaved e (hperm.mem_iff.mp he)
  have hvalid : ∀ e ∈ es, K.valid (K.state (line e)) = isValid e.2 := by
    intro e he
    rw [hstate e he, hname _ (hsavedEs e he)]
  have hline : ∀ w < n, ∃ e ∈ es, t.theBlocks w = line e := by
    intro w hw
    have hmem : t.theBlocks w ∈ t.recency :=
      List.mem_map_of_mem (horder ▸ List.mem_range.mpr hw)
    rw [hrecency] at hmem
    obtain ⟨e, he, heq⟩ := List.mem_map.mp hmem
    exact ⟨e, he, heq.symm⟩
  have hway : ∀ e ∈ es, ∃ w < n, t.theBlocks w = line e := by
    intro e he
    have hmem : line e ∈ t.recency := hrecency ▸ List.mem_map_of_mem he
    obtain ⟨w, hw, heq⟩ := List.mem_map.mp hmem
    exact ⟨w, List.mem_range.mp (horder ▸ hw), heq⟩
  have hordered : t.Orderly K n := by
    refine ⟨horder ▸ .refl _, fun w hw => ?_⟩
    obtain ⟨e, he, heq⟩ := hline w hw
    rw [heq]
    exact hplain e he
  have hspares : t.SparesValid K n Allowed ↔
      es.Pairwise fun newer older => isValid older.2 = true → isValid newer.2 = true := by
    rw [SetLRU.sparesValid_iff hfresh hst hordered, SetLRU.InvalidLast, hrecency, List.pairwise_map]
    apply List.Pairwise.iff_of_mem
    intro x y hx hy
    rw [hvalid x hx, hvalid y hy]
  have hfilter : (t.recency.filter fun b => K.valid (K.state b)).map K.tag =
      (es.filter fun e => isValid e.2).map Prod.fst := by
    have hcongr : es.filter ((fun b => K.valid (K.state b)) ∘ line) = es.filter fun e => isValid e.2 :=
      List.filter_congr hvalid
    rw [hrecency, List.filter_map, List.map_map, hcongr]
    refine List.map_congr_left fun e he => ?_
    obtain ⟨he, hev⟩ := List.mem_filter.mp he
    exact htag e he hev
  constructor
  · intro h
    exact ⟨hfilter ▸ h.recency, hspares.mp h.spares⟩
  · rintro ⟨htags, hpairs⟩
    refine ⟨fun tag s hs => ?_, hfilter.trans htags, hspares.mpr hpairs⟩
    constructor
    · rintro ⟨w, hw, rfl, rfl⟩
      obtain ⟨e, he, heq⟩ := hline w hw
      rw [heq] at hs ⊢
      have hev : isValid e.2 = true := (hvalid e he).symm.trans hs
      rcases mem_entries (hperm.mem_iff.mp he) with ⟨x, hx, rfl⟩ | rfl
      · exact ⟨x, hx, (htag _ he hev).symm, (hstate _ he).symm⟩
      · exact absurd hev (by simp [isValid])
    · rintro ⟨x, hx, rfl, rfl⟩
      have he : (x.tag, x.state) ∈ es :=
        hperm.mem_iff.mpr (List.mem_append_left _ (List.mem_map_of_mem hx))
      obtain ⟨w, hw, heq⟩ := hway _ he
      refine ⟨w, hw, ?_, heq ▸ hstate _ he⟩
      rw [heq]
      exact htag _ he ((hname _ (hsaved x hx)).symm.trans hs)

/-- A set filled from the last way to the first is handed over when the free entries were the
    least recently used ones. -/
theorem handedOver_down_iff {Allowed : Nat → Prop} {t : SetLRU β} {b : β} {st : σ}
    (hfresh : ∀ l : List Nat, ∃ a, Allowed a ∧ a ∉ l) (hst : K.valid st = true)
    (hsaved : ∀ e ∈ l, e.state ≠ kMigratory)
    (hname : ∀ s, s ≠ kMigratory → K.valid (name s) = isValid s) (hlength : l.length ≤ n) (hb : K.Plain b)
    (horder : t.theMRUOrder = List.range n)
    (hrecency : t.recency = (l.entries n).reverse.map fun e => K.assign b e.1 (name e.2)) :
    HandedOver K name n Allowed l t ↔ l.InvalidFirst n := by
  rw [handedOver_iff hfresh hst hsaved hname horder (List.reverse_perm _) hrecency
    (fun _ _ => K.plain_assign _ _ _ hb) (fun _ _ => K.state_assign _ _ _) fun _ _ _ => K.tag_assign _ _ _,
    List.filter_reverse, List.map_reverse, filter_entries, List.pairwise_reverse, invalidFirst_iff hlength]
  exact and_iff_right rfl

/-- A set filled from the first way to the last is handed over when its first entry is its
    only block. -/
theorem handedOver_up_iff (tagOf : Nat → Nat) {Allowed : Nat → Prop} {t : SetLRU β} {b : β} {st : σ}
    (hfresh : ∀ l : List Nat, ∃ a, Allowed a ∧ a ∉ l) (hst : K.valid st = true)
    (hsaved : ∀ e ∈ l, e.state ≠ kMigratory)
    (hname : ∀ s, s ≠ kMigratory → K.valid (name s) = isValid s) (hb : K.Plain b)
    (htags : (l.map BlockEntry.tag).Nodup) (hround : ∀ e ∈ l, tagOf e.tag = e.tag)
    (horder : t.theMRUOrder = List.range n)
    (hrecency : t.recency = (l.entries n).map fun e => K.assign b (tagOf e.1) (name e.2)) :
    HandedOver K name n Allowed l t ↔ l.FirstOnly := by
  have htag : ∀ e ∈ l.entries n, isValid e.2 = true →
      K.tag (K.assign b (tagOf e.1) (name e.2)) = e.1 := by
    intro e he hvalid
    rw [K.tag_assign]
    rcases mem_entries he with ⟨x, hx, rfl⟩ | rfl
    · exact hround x hx
    · exact absurd hvalid (by simp [isValid])
  rw [handedOver_iff hfresh hst hsaved hname horder (.refl _) hrecency
    (fun _ _ => K.plain_assign _ _ _ hb) (fun _ _ => K.state_assign _ _ _) htag, filter_entries,
    firstOnly_iff htags]

end block_set_t

namespace Geometry

variable {g : Geometry}

/-- The constructor of the cache wants both sizes to be powers of two. -/
structure Accepted (g : Geometry) : Prop where
  blockSize : ∃ i, g.theBlockSize = 2 ^ i
  numSets : ∃ i, g.theNumSets = 2 ^ i

/-- The blocks of the set of an address. -/
def InSet (g : Geometry) (a b : Nat) : Prop := g.get_tag b = b ∧ g.get_set b = g.get_set a

theorem Accepted.blockSize_pos (h : g.Accepted) : 0 < g.theBlockSize := by
  obtain ⟨i, hi⟩ := h.blockSize
  exact hi ▸ Nat.two_pow_pos i

theorem Accepted.numSets_pos (h : g.Accepted) : 0 < g.theNumSets := by
  obtain ⟨i, hi⟩ := h.numSets
  exact hi ▸ Nat.two_pow_pos i

theorem Accepted.get_set_mul (h : g.Accepted) {i : Nat} (hi : i < g.theNumSets) :
    g.get_set (i * g.theBlockSize) = i := by
  rw [get_set, Nat.mul_div_cancel _ h.blockSize_pos, Nat.mod_eq_of_lt hi]

/-- A set never runs out of other blocks. -/
theorem Accepted.exists_fresh (h : g.Accepted) (a : Nat) (l : List Nat) : ∃ b, g.InSet a b ∧ b ∉ l := by
  have hpos := h.blockSize_pos
  have hsets := h.numSets_pos
  refine ⟨(g.get_set a + (l.sum + 1) * g.theNumSets) * g.theBlockSize, ⟨?_, ?_⟩, fun hmem => ?_⟩
  · rw [get_tag, blockOf, Nat.mul_div_cancel _ hpos]
  · rw [get_set, Nat.mul_div_cancel _ hpos, Nat.add_mul_mod_self_right, get_set, Nat.mod_mod]
  · have hle := List.single_le_sum (fun _ _ => Nat.zero_le _) _ hmem
    have hgrow : l.sum + 1 ≤ (l.sum + 1) * g.theNumSets := Nat.le_mul_of_pos_right _ hsets
    have hgrow' := Nat.le_mul_of_pos_right (g.get_set a + (l.sum + 1) * g.theNumSets) hpos
    omega

theorem forall_get_set (h : g.Accepted) {P : Nat → Prop} :
    (∀ a, P (g.get_set a)) ↔ ∀ i < g.theNumSets, P i := by
  constructor
  · intro hall i hi
    have := hall (i * g.theBlockSize)
    rwa [h.get_set_mul hi] at this
  · exact fun hall a => hall _ (Nat.mod_lt _ h.numSets_pos)

end Geometry

end nFastCache

namespace nCache

open SetArray nFastCache nFastCache.CoherenceState_t

variable {g : Geometry} {c : StdCache g} {info : StdArrayInfo}

theorem valid_stateOf (s : CoherenceState_t) (hs : s ≠ kMigratory) :
    Block.kind.valid (stateOf s) = isValid s := by
  cases s <;> first | rfl | exact absurd rfl hs

namespace StdArrayInfo

/-- The array has the sizes of a functional cache. -/
structure SameGeometry (info : StdArrayInfo) (g : Geometry) : Prop where
  blockSize : info.theBlockSize = g.theBlockSize
  associativity : info.theAssociativity = g.theAssoc
  cacheSize : info.theCacheSize = g.theNumSets * g.theAssoc * g.theBlockSize

/-- Every set of the array continues the set of the functional cache. -/
def Continues (info : StdArrayInfo) (c : StdCache g) (theSets : Nat → SetLRU Block) : Prop :=
  ∀ a, HandedOver Block.kind stateOf g.theAssoc (g.InSet a) (c.theBlocks (g.get_set a))
    (theSets (info.makeSet a))

namespace SameGeometry

theorem setCount_eq (h : info.SameGeometry g) (hg : g.Accepted) : info.setCount = g.theNumSets := by
  rw [setCount, h.cacheSize, h.associativity, h.blockSize, Nat.mul_assoc, Nat.mul_comm g.theAssoc,
    ← Nat.mul_assoc, Nat.mul_div_cancel _ g.assoc_pos, Nat.mul_div_cancel _ hg.blockSize_pos]

theorem makeSet_eq (h : info.SameGeometry g) (hg : g.Accepted) (a : Nat) : info.makeSet a = g.get_set a := by
  obtain ⟨off, hoff⟩ := hg.blockSize
  obtain ⟨n, hn⟩ := hg.numSets
  rw [makeSet, setIndexShift, setIndexMask, indexBits, h.setCount_eq hg, h.blockSize, hoff, hn,
    Nat.log2_two_pow, Nat.log2_two_pow, Nat.one_shiftLeft, Nat.and_two_pow_sub_one_eq_mod,
    Nat.shiftRight_eq_div_pow, Geometry.get_set, hoff, hn]

end SameGeometry

end StdArrayInfo

/-- The tag of a block is put together again from what the text has of it and its set. -/
theorem tag_round_trip {off n tag set : Nat} (hset : tag / 2 ^ off % 2 ^ n = set)
    (htag : tag / 2 ^ off * 2 ^ off = tag) :
    (tag >>> (off + n)) <<< (off + n) ||| set <<< off = tag := by
  have hlt : set <<< off < 2 ^ (off + n) := by
    rw [Nat.shiftLeft_eq, Nat.pow_add, Nat.mul_comm (2 ^ off), ← hset]
    exact Nat.mul_lt_mul_of_pos_right (Nat.mod_lt _ (Nat.two_pow_pos n)) (Nat.two_pow_pos off)
  rw [← Nat.shiftLeft_add_eq_or_of_lt hlt, Nat.shiftLeft_eq, Nat.shiftLeft_eq, Nat.shiftRight_eq_div_pow,
    Nat.pow_add, ← Nat.div_div_eq_div_mul, Nat.mul_comm (2 ^ off), ← Nat.mul_assoc, ← Nat.add_mul, ← hset,
    Nat.mul_comm (_ / _), Nat.div_add_mod, htag]

theorem valid_shared : Block.kind.valid .Shared = true := rfl

theorem plain_fresh : Block.kind.Plain Block.fresh := rfl

namespace StdArrayInfo

/-- The binary reader hands every set over in which no block was used before a free entry. -/
theorem loadState_continues_iff (h : info.SameGeometry g) (hg : g.Accepted) (hc : c.Reachable) :
    ∃ sets, c.saveState.bind info.loadState = some sets ∧
      (info.Continues c sets ↔ ∀ i < g.theNumSets, (c.theBlocks i).InvalidFirst g.theAssoc) := by
  have hsaved := hc.saved
  choose done hread horder hrecency using fun i => loadState_items (c.wellFormed i).length_le
  obtain ⟨sets, hfill, -, hdone⟩ := SetLRU.fillSets_spec (fun _ => nCache.loadState g.theAssoc)
    (fun i => (c.theBlocks i).items g.theAssoc) done info.init g.theNumSets 0 (by
      intro j rest _ _
      rw [init, h.associativity]
      exact hread j rest)
  refine ⟨sets, ?_, ?_⟩
  · rw [StdCache.saveState_eq hsaved, Option.bind_some, loadState, if_pos ⟨(h.setCount_eq hg).symm,
      h.associativity.symm⟩, h.setCount_eq hg, h.associativity, List.range_eq_range', hfill]
    rfl
  · rw [← Geometry.forall_get_set hg]
    refine forall_congr' fun a => ?_
    have hset : sets (info.makeSet a) = done (g.get_set a) := by
      rw [h.makeSet_eq hg]
      exact hdone _ (Nat.zero_le _) (by rw [Nat.zero_add]; exact Nat.mod_lt _ hg.numSets_pos)
    rw [hset]
    exact block_set_t.handedOver_down_iff (hg.exists_fresh a) valid_shared (hsaved _) valid_stateOf
      (c.wellFormed _).length_le plain_fresh (horder _) (hrecency _)

/-- The text reader hands every set over whose first entry is its only block. -/
theorem loadText_continues_iff (h : info.SameGeometry g) (hg : g.Accepted) (hc : c.Reachable) :
    ∃ sets, c.saveText.bind info.loadText = some sets ∧
      (info.Continues c sets ↔ ∀ i < g.theNumSets, (c.theBlocks i).FirstOnly) := by
  have hsaved := hc.saved
  have hshift : info.theTagShift = g.theBlockSize.log2 + g.theNumSets.log2 := by
    rw [theTagShift, indexBits, h.setCount_eq hg, h.blockSize]
  choose done hread horder hrecency using fun i => loadTextState_text (c.wellFormed i).length_le
    info.theTagShift info.setIndexShift (g.theBlockSize.log2 + g.theNumSets.log2) i
  obtain ⟨sets, hfill, -, hdone⟩ := SetLRU.fillSets_spec
    (loadTextState g.theAssoc info.theTagShift info.setIndexShift)
    (fun i => (c.theBlocks i).text g.theAssoc (g.theBlockSize.log2 + g.theNumSets.log2)) done info.init
    g.theNumSets 0 (by
      intro j rest _ _
      rw [init, h.associativity]
      exact hread j rest)
  refine ⟨sets, ?_, ?_⟩
  · rw [StdCache.saveText_eq hsaved, Option.bind_some, loadText, h.setCount_eq hg, h.associativity,
      List.range_eq_range', hfill]
    rfl
  · rw [← Geometry.forall_get_set hg]
    refine forall_congr' fun a => ?_
    have hset : sets (info.makeSet a) = done (g.get_set a) := by
      rw [h.makeSet_eq hg]
      exact hdone _ (Nat.zero_le _) (by rw [Nat.zero_add]; exact Nat.mod_lt _ hg.numSets_pos)
    have hround : ∀ e ∈ c.theBlocks (g.get_set a), (e.tag >>> (g.theBlockSize.log2 + g.theNumSets.log2)) <<<
        info.theTagShift ||| g.get_set a <<< info.setIndexShift = e.tag := by
      intro e he
      obtain ⟨hplace, htag⟩ := c.placed _ e he
      obtain ⟨off, hoff⟩ := hg.blockSize
      obtain ⟨n, hn⟩ := hg.numSets
      rw [hshift, setIndexShift, h.blockSize, hoff, hn, Nat.log2_two_pow, Nat.log2_two_pow]
      apply tag_round_trip
      · rwa [Geometry.get_set, hoff, hn] at hplace
      · rwa [Geometry.get_tag, blockOf, hoff] at htag
    rw [hset]
    exact block_set_t.handedOver_up_iff
      (fun tag => (tag >>> (g.theBlockSize.log2 + g.theNumSets.log2)) <<< info.theTagShift |||
        g.get_set a <<< info.setIndexShift) (hg.exists_fresh a) valid_shared (hsaved _) valid_stateOf plain_fresh
      (c.wellFormed _).tags hround (horder _) (hrecency _)

end StdArrayInfo

end nCache

namespace nCMPCache

open SetArray nFastCache nFastCache.CoherenceState_t

variable {g : Geometry} {c : StdCache g} {info : StdArrayInfo}

theorem valid_stateOf (s : CoherenceState_t) (hs : s ≠ kMigratory) :
    Block.kind.valid (stateOf s) = isValid s := by
  cases s <;> first | rfl | exact absurd rfl hs

theorem valid_shared : Block.kind.valid .Shared = true := rfl

theorem plain_fresh : Block.kind.Plain Block.fresh := ⟨rfl, rfl⟩

namespace StdArrayInfo

/-- Every set of every bank continues the set of the functional cache that its addresses
    belong to. -/
def Continues (info : StdArrayInfo) (c : StdCache g) (theSets : Nat → Nat → SetLRU Block) : Prop :=
  ∀ a, HandedOver Block.kind stateOf g.theAssoc (g.InSet a) (c.theBlocks (g.get_set a))
    (theSets (info.nodeOf a) (info.makeSet a))

theorem Layout.nodeOf_lt {off low bank mid group high : Nat} (h : info.Layout off low bank mid group high)
    (a : MemoryAddress) : info.nodeOf a < info.theBanks * info.theGroups ∧
      info.nodeOf a % info.theBanks = info.getBank a ∧ info.nodeOf a / info.theBanks = info.getGroup a := by
  have hbank : info.getBank a < info.theBanks := by
    rw [h.getBank_eq, h.banks]
    exact Nat.mod_lt _ (Nat.two_pow_pos bank)
  have hgroup : info.getGroup a < info.theGroups := by
    rw [h.getGroup_eq, h.groups]
    exact Nat.mod_lt _ (Nat.two_pow_pos group)
  have hpos := Nat.zero_lt_of_lt hbank
  refine ⟨?_, ?_, ?_⟩
  · have hle := Nat.mul_le_mul_right info.theBanks (Nat.succ_le_of_lt hgroup)
    rw [Nat.succ_mul, Nat.mul_comm info.theGroups] at hle
    exact Nat.lt_of_lt_of_le (Nat.add_lt_add_left hbank _) hle
  · rw [nodeOf, Nat.add_comm, Nat.add_mul_mod_self_right, Nat.mod_eq_of_lt hbank]
  · rw [nodeOf, Nat.add_comm, Nat.add_mul_div_right _ _ hpos, Nat.div_eq_of_lt hbank, Nat.zero_add]

/-- The banks together hand every set over in which no block was used before a free entry. -/
theorem loadArchive_continues_iff (h : info.SameGeometry g) (hg : g.Accepted) (hc : c.Reachable) :
    ∃ sets, (∀ node < info.theBanks * info.theGroups,
        c.saveState.bind (info.loadArchive node) = some (sets node)) ∧
      (info.Continues c sets ↔ ∀ i < g.theNumSets, (c.theBlocks i).InvalidFirst g.theAssoc) := by
  have hsaved := hc.saved
  obtain ⟨off, low, bank, mid, group, high, hlay⟩ := h.layout hg.blockSize hg.numSets
  choose done hread horder hrecency using fun i => loadState_items (c.wellFormed i).length_le
  have hload : ∀ node, ∃ filled, node < info.theBanks * info.theGroups →
      c.saveState.bind (info.loadArchive node) = some filled ∧
        ∀ j < info.theTotalSets, info.isLocal node j = true →
          filled (info.makeSet (j * info.theBlockSize)) = done j := by
    intro node
    by_cases hnode : node < info.theBanks * info.theGroups
    · obtain ⟨filled, hfill, -, hdone⟩ := hlay.loadSets_spec hnode
        (fun i => (c.theBlocks i).items g.theAssoc) done
        (fun j => by
          rw [block_set_t.items, List.length_map, block_set_t.length_entries (c.wellFormed j).length_le,
            h.associativity])
        (fun j rest => by
          rw [h.associativity]
          exact hread j rest)
        info.theTotalSets 0 info.init (Nat.zero_add _) fun _ _ => rfl
      refine ⟨filled, fun _ => ⟨?_, fun j hj => hdone j (Nat.zero_le j) hj⟩⟩
      have hzero : hlay.localIndex node 0 = 0 := by
        rw [Layout.localIndex, Interleave.rank_zero, Interleave.rank_zero]
      rw [hzero, ← List.range_eq_range'] at hfill
      rw [StdCache.saveState_eq hsaved, Option.bind_some, loadArchive,
        if_pos ⟨h.sets.symm, h.associativity.symm⟩, ← h.sets, hfill]
    · exact ⟨info.init, fun hlt => absurd hlt hnode⟩
  choose sets hsets using hload
  refine ⟨sets, fun node hnode => (hsets node hnode).1, ?_⟩
  rw [← Geometry.forall_get_set hg]
  refine forall_congr' fun a => ?_
  have hset : sets (info.nodeOf a) (info.makeSet a) = done (g.get_set a) := by
    have hsame : a / info.theBlockSize % info.theTotalSets = g.get_set a := by
      rw [Geometry.get_set, h.blockSize, h.sets]
    have hlt : g.get_set a < info.theTotalSets := by
      rw [h.sets]
      exact Nat.mod_lt _ hg.numSets_pos
    obtain ⟨hnode, hmod, hdiv⟩ := hlay.nodeOf_lt a
    have hlocal : info.isLocal (info.nodeOf a) (g.get_set a) = true := by
      rw [hlay.isLocal_iff hlt, hmod, hdiv, hlay.getBank_eq, hlay.getGroup_eq, hsame]
      exact ⟨rfl, rfl⟩
    have hplace : info.makeSet a = info.makeSet (g.get_set a * info.theBlockSize) := by
      rw [hlay.makeSet_eq, hlay.makeSet_eq, hlay.set_address hlt, hsame]
    rw [hplace]
    exact (hsets _ hnode).2 _ hlt hlocal
  rw [hset]
  exact block_set_t.handedOver_down_iff (hg.exists_fresh a) valid_shared (hsaved _)
    valid_stateOf (c.wellFormed _).length_le plain_fresh (horder _) (hrecency _)

end StdArrayInfo

end nCMPCache

namespace nFastCache

open CoherenceState_t

namespace StdCache

/-- When a timing cache continues the saved state of a functional one: read from an archive,
    exactly if in every set the free entries were used before the blocks and a set with blocks
    has no way without an entry; read from a text, exactly if no set has a block but in its
    least recently used entry. -/
theorem handed_over_iff {g : Geometry} (hg : g.Accepted) {c : StdCache g} (hc : c.Reachable)
    {l1 : nCache.StdArrayInfo} (h1 : l1.SameGeometry g) {l2 : nCMPCache.StdArrayInfo}
    (h2 : l2.SameGeometry g) :
    (∃ sets, c.saveState.bind l1.loadState = some sets ∧
      (l1.Continues c sets ↔ ∀ i < g.theNumSets, (c.theBlocks i).InvalidFirst g.theAssoc)) ∧
    (∃ sets, c.saveText.bind l1.loadText = some sets ∧
      (l1.Continues c sets ↔ ∀ i < g.theNumSets, (c.theBlocks i).FirstOnly)) ∧
    ∃ sets, (∀ node < l2.theBanks * l2.theGroups,
        c.saveState.bind (l2.loadArchive node) = some (sets node)) ∧
      (l2.Continues c sets ↔ ∀ i < g.theNumSets, (c.theBlocks i).InvalidFirst g.theAssoc) := by
  refine ⟨?_, ?_, ?_⟩
  · exact nCache.StdArrayInfo.loadState_continues_iff h1 hg hc
  · exact nCache.StdArrayInfo.loadText_continues_iff h1 hg hc
  · exact nCMPCache.StdArrayInfo.loadArchive_continues_iff h2 hg hc

/-- One set of two ways. -/
abbrev pairGeometry : Geometry := { theNumSets := 1, theAssoc := 2, theBlockSize := 64, assoc_pos := by decide }

/-- The set after one block was brought in. -/
abbrev oneBlock : StdCache pairGeometry := (((empty pairGeometry).lookup 0).1.allocate
  ((empty pairGeometry).lookup 0).2 kShared).2

/-- The set after another block was brought in. -/
abbrev twoBlocks : StdCache pairGeometry := ((oneBlock.lookup 64).1.allocate (oneBlock.lookup 64).2 kShared).2

abbrev pairL1 : nCache.StdArrayInfo := { theCacheSize := 128, theAssociativity := 2, theBlockSize := 64 }

abbrev pairL2 : nCMPCache.StdArrayInfo where
  theNumSets := 1
  theAssociativity := 2
  theBlockSize := 64
  theBanks := 1
  theBankInterleaving := 64
  theGroups := 1
  theGroupInterleaving := 4096

theorem pairGeometry_accepted : pairGeometry.Accepted := ⟨⟨6, rfl⟩, ⟨0, rfl⟩⟩

theorem reachable_oneBlock : oneBlock.Reachable :=
  .allocate (.lookup 0 .start) (finds_lookup _ _) (by decide)

theorem reachable_twoBlocks : twoBlocks.Reachable :=
  .allocate (.lookup 64 reachable_oneBlock) (finds_lookup _ _) (by decide)

theorem pairL1_sameGeometry : pairL1.SameGeometry pairGeometry := ⟨rfl, rfl, rfl⟩

theorem pairL2_sameGeometry : pairL2.SameGeometry pairGeometry where
  blockSize := rfl
  associativity := rfl
  sets := rfl
  bankInterleaving := ⟨6, rfl⟩
  groupInterleaving := ⟨12, rfl⟩
  interleaving := by decide
  block_le := by decide
  bank_le := by decide
  group_le := .inl rfl

theorem handed_over_iff_pair :
    (∃ sets, oneBlock.saveState.bind pairL1.loadState = some sets ∧
      (pairL1.Continues oneBlock sets ↔ ∀ i < 1, (oneBlock.theBlocks i).InvalidFirst 2)) ∧
    (∃ sets, oneBlock.saveText.bind pairL1.loadText = some sets ∧
      (pairL1.Continues oneBlock sets ↔ ∀ i < 1, (oneBlock.theBlocks i).FirstOnly)) ∧
    ∃ sets, (∀ node < 1 * 1, oneBlock.saveState.bind (pairL2.loadArchive node) = some (sets node)) ∧
      (pairL2.Continues oneBlock sets ↔ ∀ i < 1, (oneBlock.theBlocks i).InvalidFirst 2) :=
  handed_over_iff pairGeometry_accepted reachable_oneBlock pairL1_sameGeometry pairL2_sameGeometry

/-- A block that is alone in its set is the first victim in a timing cache that read it from
    an archive, and two blocks change places in one that read them from a text. -/
theorem saved_state_not_handed_over :
    oneBlock.Reachable ∧ twoBlocks.Reachable ∧
    (∃ sets, oneBlock.saveState.bind pairL1.loadState = some sets ∧ ¬ pairL1.Continues oneBlock sets) ∧
    (∃ sets, twoBlocks.saveText.bind pairL1.loadText = some sets ∧ ¬ pairL1.Continues twoBlocks sets) ∧
    ∃ sets, (∀ node < 1, oneBlock.saveState.bind (pairL2.loadArchive node) = some (sets node)) ∧
      ¬ pairL2.Continues oneBlock sets := by
  have hone : oneBlock.theBlocks 0 = [⟨0, kShared, 0⟩] := rfl
  have hcold : ¬ ∀ i < 1, (oneBlock.theBlocks i).InvalidFirst 2 := by
    intro h
    have hfull := (h 0 (by decide)).2
    rw [hone] at hfull
    exact absurd (hfull ⟨_, List.mem_singleton_self _, rfl⟩) (by decide)
  have htwo : ¬ ∀ i < 1, (twoBlocks.theBlocks i).FirstOnly := by
    intro h
    exact absurd (h 0 (by decide) ⟨64, kShared, 1⟩ (by decide)) (by decide)
  refine ⟨reachable_oneBlock, reachable_twoBlocks, ?_, ?_, ?_⟩
  · obtain ⟨sets, hload, hiff⟩ := nCache.StdArrayInfo.loadState_continues_iff pairL1_sameGeometry
      pairGeometry_accepted reachable_oneBlock
    exact ⟨sets, hload, fun h => hcold (hiff.mp h)⟩
  · obtain ⟨sets, hload, hiff⟩ := nCache.StdArrayInfo.loadText_continues_iff pairL1_sameGeometry
      pairGeometry_accepted reachable_twoBlocks
    exact ⟨sets, hload, fun h => htwo (hiff.mp h)⟩
  · obtain ⟨sets, hload, hiff⟩ := nCMPCache.StdArrayInfo.loadArchive_continues_iff pairL2_sameGeometry
      pairGeometry_accepted reachable_oneBlock
    exact ⟨sets, fun node hnode => hload node hnode, fun h => hcold (hiff.mp h)⟩

end StdCache

end nFastCache
