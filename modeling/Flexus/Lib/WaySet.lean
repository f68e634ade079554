import Mathlib.Tactic

/-!
# One set under true LRU replacement

What each way of a set holds, and the order in which the ways were last used. The replacement
takes the least recently used way that is not kept from it, whether or not the way is in use.
-/

namespace SetArray

structure Line (α σ : Type*) where
  tag : α
  state : σ
  isProtected : Bool := false
  deriving DecidableEq, Repr

def moveToHead (w : Nat) (l : List Nat) : List Nat := if w ∈ l then w :: l.erase w else l

theorem moveToHead_perm (w : Nat) (l : List Nat) : (moveToHead w l).Perm l := by
  unfold moveToHead
  split
  · next h => exact (List.perm_cons_erase h).symm
  · exact List.Perm.refl _

/-- What the replacement looks at in a line: the block it is kept for, its state, and
    whether something keeps it from being replaced. -/
structure LineKind (α β σ : Type*) where
  tag : β → α
  state : β → σ
  valid : σ → Bool
  replaceable : β → Bool
  Plain : β → Prop
  assign : β → α → σ → β
  tag_assign : ∀ b a s, tag (assign b a s) = a
  state_assign : ∀ b a s, state (assign b a s) = s
  plain_assign : ∀ b a s, Plain b → Plain (assign b a s)
  replaceable_of_plain : ∀ b, Plain b → replaceable b = true

structure SetLRU (β : Type*) where
  theBlocks : Nat → β
  theMRUOrder : List Nat

namespace SetLRU

variable {α β σ ε : Type*}

/-- A set whose ways were used in the order of their numbers. -/
def create (n : Nat) (b : β) : SetLRU β where
  theBlocks := fun _ => b
  theMRUOrder := List.range n

/-- The lines from the most to the least recently used one. -/
def recency (s : SetLRU β) : List β := s.theMRUOrder.map s.theBlocks

def put (s : SetLRU β) (w : Nat) (b : β) : SetLRU β :=
  { s with theBlocks := Function.update s.theBlocks w b }

def recordAccess (s : SetLRU β) (w : Nat) : SetLRU β :=
  { s with theMRUOrder := moveToHead w s.theMRUOrder }

/-- Write a line in a way, which becomes the most recently used one. -/
def refill (s : SetLRU β) (w : Nat) (b : β) : SetLRU β := (s.put w b).recordAccess w

section Order

variable {s : SetLRU β} {pre post : List Nat} {w n : Nat} {b : β}

theorem moveToHead_append (hpre : w ∉ pre) : moveToHead w (pre ++ w :: post) = w :: (pre ++ post) := by
  unfold moveToHead
  rw [if_pos (by simp), List.erase_append_right _ hpre, List.erase_cons_head]

theorem recency_refill (horder : s.theMRUOrder = pre ++ w :: post) (hnodup : s.theMRUOrder.Nodup) :
    (s.refill w b).recency = b :: (pre ++ post).map s.theBlocks := by
  rw [horder, List.nodup_middle, List.nodup_cons] at hnodup
  have hout : ∀ v ∈ pre ++ post, Function.update s.theBlocks w b v = s.theBlocks v := by
    intro v hv
    refine Function.update_of_ne (fun heq => hnodup.1 ?_) _ _
    rwa [← heq]
  have hpre : w ∉ pre := fun h => hnodup.1 (List.mem_append_left _ h)
  have hself : Function.update s.theBlocks w b w = b := Function.update_self _ _ _
  change (moveToHead w s.theMRUOrder).map (Function.update s.theBlocks w b) = _
  rw [horder, moveToHead_append hpre, List.map_cons, hself, List.map_congr_left hout]

theorem put_self : s.put w (s.theBlocks w) = s := by
  simp [put]

theorem refill_self : s.refill w (s.theBlocks w) = s.recordAccess w := by
  rw [refill, put_self]

end Order

section Access

variable [DecidableEq α] (K : LineKind α β σ) (n : Nat)

/-- The way that holds the block. -/
def hitWay (s : SetLRU β) (a : α) : Option Nat :=
  (List.range n).find? fun w =>
    decide (K.tag (s.theBlocks w) = a) && K.valid (K.state (s.theBlocks w))

/-- The last way that was kept for the block. -/
def staleWay (s : SetLRU β) (a : α) : Option Nat :=
  (List.range n).reverse.find? fun w => decide (K.tag (s.theBlocks w) = a)

/-- The least recently used way that may be replaced. -/
def pickVictim (s : SetLRU β) : Option Nat :=
  s.theMRUOrder.reverse.find? fun w => K.replaceable (s.theBlocks w)

/-- Use a block, which is brought into the set if it is not there. -/
def access (s : SetLRU β) (a : α) (st : σ) : SetLRU β :=
  match s.hitWay K n a with
  | some w => s.recordAccess w
  | none =>
    match (s.staleWay K n a).or (s.pickVictim K) with
    | some w => s.refill w (K.assign (s.theBlocks w) a st)
    | none => s

def accessAll (s : SetLRU β) (accesses : List (α × σ)) : SetLRU β :=
  accesses.foldl (fun s x => s.access K n x.1 x.2) s

/-- However the set is used, no block is replaced while some way does not hold one. -/
def SparesValid (Allowed : α → Prop) (s : SetLRU β) : Prop :=
  ∀ accesses : List (α × σ), (∀ x ∈ accesses, Allowed x.1 ∧ K.valid x.2 = true) →
    ∀ w, (s.accessAll K n accesses).pickVictim K = some w →
      K.valid (K.state ((s.accessAll K n accesses).theBlocks w)) = true →
        ∀ v < n, K.valid (K.state ((s.accessAll K n accesses).theBlocks v)) = true

/-- No line that holds a block was used before one that does not. -/
def InvalidLast (r : List β) : Prop :=
  r.Pairwise fun newer older => K.valid (K.state older) = true → K.valid (K.state newer) = true

/-- All ways are in the order once, and nothing keeps them from being replaced. -/
structure Orderly (s : SetLRU β) : Prop where
  perm : s.theMRUOrder.Perm (List.range n)
  plain : ∀ w < n, K.Plain (s.theBlocks w)

variable {K n} {s : SetLRU β} {a : α} {st : σ} {w : Nat} {b : β} {r : List β}

namespace Orderly

omit [DecidableEq α] in
theorem nodup (h : s.Orderly K n) : s.theMRUOrder.Nodup := h.perm.nodup_iff.mpr List.nodup_range

omit [DecidableEq α] in
theorem mem (h : s.Orderly K n) : w ∈ s.theMRUOrder ↔ w < n := by
  rw [h.perm.mem_iff, List.mem_range]

omit [DecidableEq α] in
theorem split (h : s.Orderly K n) (hw : w < n) : ∃ pre post, s.theMRUOrder = pre ++ w :: post :=
  List.append_of_mem (h.mem.mpr hw)

omit [DecidableEq α] in
theorem refill (h : s.Orderly K n) (hb : K.Plain b) : (s.refill w b).Orderly K n where
  perm := (moveToHead_perm w _).trans h.perm
  plain := by
    intro v hv
    change K.Plain (Function.update s.theBlocks w b v)
    rcases eq_or_ne v w with rfl | hne
    · rwa [Function.update_self]
    · rw [Function.update_of_ne hne]
      exact h.plain v hv

omit [DecidableEq α] in
/-- Nothing is kept from the replacement, so it takes the last way of the order. -/
theorem pickVictim (h : s.Orderly K n) : s.pickVictim K = s.theMRUOrder.getLast? := by
  unfold SetLRU.pickVictim
  rw [← List.head?_reverse]
  cases horder : s.theMRUOrder.reverse with
  | nil => rfl
  | cons w ws =>
    have hmem : w ∈ s.theMRUOrder := by
      rw [← List.mem_reverse, horder]
      exact List.mem_cons_self
    have hplain := K.replaceable_of_plain _ (h.plain w (h.mem.mp hmem))
    rw [List.head?_cons]
    exact List.find?_cons_of_pos hplain

end Orderly

theorem hitWay_spec (h : s.hitWay K n a = some w) :
    w < n ∧ K.tag (s.theBlocks w) = a ∧ K.valid (K.state (s.theBlocks w)) = true := by
  have htest := List.find?_some h
  rw [Bool.and_eq_true, decide_eq_true_iff] at htest
  exact ⟨List.mem_range.mp (List.mem_of_find?_eq_some h), htest.1, htest.2⟩

theorem staleWay_lt (h : s.staleWay K n a = some w) : w < n := by
  simpa using List.mem_of_find?_eq_some h

/-- The step of the runs: an access writes a plain line that holds a block and makes it the
    most recently used one, or finds no way at all. -/
theorem access_cases (h : s.Orderly K n) (hst : K.valid st = true) :
    s.access K n a st = s ∨
      ∃ w b, w < n ∧ K.Plain b ∧ K.valid (K.state b) = true ∧ s.access K n a st = s.refill w b := by
  unfold access
  split
  · next w hhit =>
    obtain ⟨hw, -, hvalid⟩ := hitWay_spec hhit
    exact .inr ⟨w, s.theBlocks w, hw, h.plain w hw, hvalid, refill_self.symm⟩
  · split
    · next w hway =>
      have hw : w < n := by
        rcases Option.or_eq_some_iff.mp hway with hstale | ⟨-, hvictim⟩
        · exact staleWay_lt hstale
        · exact h.mem.mp (List.mem_reverse.mp (List.mem_of_find?_eq_some hvictim))
      exact .inr ⟨w, _, hw, K.plain_assign _ _ _ (h.plain w hw), by rwa [K.state_assign], rfl⟩
    · exact .inl rfl

omit [DecidableEq α] in
theorem invalidLast_refill (h : s.Orderly K n) (hw : w < n) (hb : K.valid (K.state b) = true)
    (hlast : InvalidLast K s.recency) : InvalidLast K (s.refill w b).recency := by
  obtain ⟨pre, post, horder⟩ := h.split hw
  rw [recency_refill horder h.nodup]
  refine List.pairwise_cons.mpr ⟨fun _ _ _ => hb, ?_⟩
  unfold InvalidLast recency at hlast
  rw [horder] at hlast
  exact hlast.sublist (((List.sublist_cons_self w post).append_left pre).map _)

theorem access_keeps (h : s.Orderly K n) (hlast : InvalidLast K s.recency) (hst : K.valid st = true) :
    (s.access K n a st).Orderly K n ∧ InvalidLast K (s.access K n a st).recency := by
  rcases access_cases (a := a) h hst with heq | ⟨w, b, hw, hplain, hvalid, heq⟩
  · rw [heq]
    exact ⟨h, hlast⟩
  · rw [heq]
    exact ⟨h.refill hplain, invalidLast_refill h hw hvalid hlast⟩

theorem accessAll_keeps (accesses : List (α × σ)) (hvalid : ∀ x ∈ accesses, K.valid x.2 = true)
    (h : s.Orderly K n) (hlast : InvalidLast K s.recency) :
    (s.accessAll K n accesses).Orderly K n ∧ InvalidLast K (s.accessAll K n accesses).recency := by
  induction accesses generalizing s with
  | nil => exact ⟨h, hlast⟩
  | cons x accesses ih =>
    obtain ⟨hone, hlastOne⟩ := access_keeps (a := x.1) h hlast (hvalid x List.mem_cons_self)
    exact ih (fun y hy => hvalid y (List.mem_cons_of_mem _ hy)) hone hlastOne

omit [DecidableEq α] in
/-- If the least recently used line holds a block, all do. -/
theorem valid_of_victim (h : s.Orderly K n) (hlast : InvalidLast K s.recency)
    (hvictim : s.pickVictim K = some w) (hvalid : K.valid (K.state (s.theBlocks w)) = true) :
    ∀ v < n, K.valid (K.state (s.theBlocks v)) = true := by
  rw [h.pickVictim] at hvictim
  obtain ⟨pre, horder⟩ := List.getLast?_eq_some_iff.mp hvictim
  intro v hv
  have hmem := h.mem.mpr hv
  unfold InvalidLast recency at hlast
  rw [horder, List.map_append, List.pairwise_append] at hlast
  rw [horder, List.mem_append] at hmem
  rcases hmem with hpre | hw
  · exact hlast.2.2 _ (List.mem_map_of_mem hpre) _ (List.mem_map_of_mem (List.mem_singleton_self w)) hvalid
  · rw [List.mem_singleton.mp hw]
    exact hvalid

end Access

section Fresh

variable [DecidableEq α] {K : LineKind α β σ} {n : Nat} {s : SetLRU β} {a : α} {st : σ}
  {Allowed : α → Prop}

/-- A block that no way is kept for takes the way of the victim. -/
theorem access_fresh (st : σ) (h : s.Orderly K n) {pre : List Nat} {w : Nat}
    (horder : s.theMRUOrder = pre ++ [w]) (hfresh : ∀ v < n, K.tag (s.theBlocks v) ≠ a) :
    s.access K n a st = s.refill w (K.assign (s.theBlocks w) a st) := by
  have hhit : s.hitWay K n a = none := by
    apply List.find?_eq_none.mpr
    intro v hv
    simp [hfresh v (List.mem_range.mp hv)]
  have hstale : s.staleWay K n a = none := by
    apply List.find?_eq_none.mpr
    intro v hv
    simp [hfresh v (by simpa using hv)]
  have hvictim : s.pickVictim K = some w := by
    rw [h.pickVictim, horder, List.getLast?_concat]
  unfold access
  rw [hhit, hstale, hvictim]
  rfl

/-- The blocks that come in push a block at the end of the order out before a free way that
    was used after it. -/
theorem not_sparesValid (hfresh : ∀ l : List α, ∃ a, Allowed a ∧ a ∉ l) (hst : K.valid st = true)
    {pre post : List Nat} {w v : Nat} (h : s.Orderly K n) (horder : s.theMRUOrder = pre ++ w :: post)
    (hw : K.valid (K.state (s.theBlocks w)) = true) (hv : v ∈ pre)
    (hinvalid : K.valid (K.state (s.theBlocks v)) = false) : ¬ SparesValid K n Allowed s := by
  intro hspares
  induction post using List.reverseRecOn generalizing s pre with
  | nil =>
    have hvictim : s.pickVictim K = some w := by rw [h.pickVictim, horder, List.getLast?_concat]
    have hmem : v ∈ s.theMRUOrder := by
      rw [horder]
      exact List.mem_append_left _ hv
    have hvalid := hspares [] (by simp) w hvictim hw v (h.mem.mp hmem)
    exact Bool.false_ne_true (hinvalid.symm.trans hvalid)
  | append_singleton post x ih =>
    obtain ⟨a, hallowed, hnew⟩ := hfresh ((List.range n).map fun v => K.tag (s.theBlocks v))
    have hnew' : ∀ v < n, K.tag (s.theBlocks v) ≠ a := by
      intro v hv heq
      exact hnew (List.mem_map.mpr ⟨v, List.mem_range.mpr hv, heq⟩)
    have hsplit : s.theMRUOrder = (pre ++ w :: post) ++ [x] := by simp [horder]
    have hx : x < n := h.mem.mp (by simp [hsplit])
    have hne : ∀ u ∈ pre ++ w :: post, u ≠ x := by
      have hnodup := h.nodup
      rw [hsplit, List.nodup_append] at hnodup
      exact fun u hu => hnodup.2.2 u hu x (List.mem_singleton_self x)
    have hkept : ∀ u ∈ pre ++ w :: post,
        (s.refill x (K.assign (s.theBlocks x) a st)).theBlocks u = s.theBlocks u :=
      fun u hu => Function.update_of_ne (hne u hu) _ _
    have hstep := access_fresh st h hsplit hnew'
    have horder' : (s.refill x (K.assign (s.theBlocks x) a st)).theMRUOrder =
        (x :: pre) ++ w :: post := by
      change moveToHead x s.theMRUOrder = _
      rw [hsplit, moveToHead_append fun hmem => hne x hmem rfl]
      simp
    refine ih (h.refill (K.plain_assign _ a st (h.plain x hx))) horder' ?_
      (List.mem_cons_of_mem _ hv) ?_ ?_
    · rwa [hkept w (by simp)]
    · rwa [hkept v (List.mem_append_left _ hv)]
    · intro accesses hall
      have h := hspares ((a, st) :: accesses) fun y hy => by
        rcases List.mem_cons.mp hy with rfl | hmem
        · exact ⟨hallowed, hst⟩
        · exact hall y hmem
      rw [show s.accessAll K n ((a, st) :: accesses) =
        (s.access K n a st).accessAll K n accesses from rfl, hstep] at h
      exact h

/-- If some block was used before a way that is free, there is such a block that was used
    before all others. -/
theorem exists_block_before {p : Nat → Bool} {l : List Nat}
    (h : ¬ l.Pairwise fun newer older => p older = true → p newer = true) :
    ∃ pre w post, l = pre ++ w :: post ∧ p w = true ∧ ∃ v ∈ pre, p v = false := by
  induction l with
  | nil => exact absurd List.Pairwise.nil h
  | cons x l ih =>
    by_cases hrest : l.Pairwise fun newer older => p older = true → p newer = true
    · have hx : ∃ w ∈ l, p w = true ∧ p x = false := by
        by_contra hnone
        push Not at hnone
        refine h (List.pairwise_cons.mpr ⟨fun w hw hpw => ?_, hrest⟩)
        simpa using hnone w hw hpw
      obtain ⟨w, hw, hpw, hpx⟩ := hx
      obtain ⟨pre, post, rfl⟩ := List.append_of_mem hw
      exact ⟨x :: pre, w, post, rfl, hpw, x, List.mem_cons_self, hpx⟩
    · obtain ⟨pre, w, post, rfl, hpw, v, hv, hpv⟩ := ih hrest
      exact ⟨x :: pre, w, post, rfl, hpw, v, List.mem_cons_of_mem _ hv, hpv⟩

/-- A set spares its blocks while it has room exactly when the free ways come last. -/
theorem sparesValid_iff (hfresh : ∀ l : List α, ∃ a, Allowed a ∧ a ∉ l)
    (hst : K.valid st = true) (h : s.Orderly K n) :
    SparesValid K n Allowed s ↔ InvalidLast K s.recency := by
  constructor
  · intro hspares
    by_contra hlast
    unfold InvalidLast recency at hlast
    rw [List.pairwise_map] at hlast
    obtain ⟨pre, w, post, horder, hw, v, hv, hinvalid⟩ :=
      exists_block_before (p := fun w => K.valid (K.state (s.theBlocks w))) hlast
    exact not_sparesValid hfresh hst h horder hw hv hinvalid hspares
  · intro hlast accesses hall w hvictim hvalid
    obtain ⟨hrun, hlastRun⟩ := accessAll_keeps accesses (fun x hx => (hall x hx).2) h hlast
    exact valid_of_victim hrun hlastRun hvictim hvalid

end Fresh

/-! ## Filling sets -/

section Fill

variable (f : β → ε → Option β)

def write (s : SetLRU β) (i : Nat) (b : β) : SetLRU β where
  theBlocks := Function.update s.theBlocks i b
  theMRUOrder := s.theMRUOrder.set i i

/-- Fill the ways from the last to the first with the items of a stream, and put them in
    the order of their numbers. A stream that ends early fails. -/
def fillDown : Nat → List ε → SetLRU β → Option (SetLRU β × List ε)
  | 0, items, s => some (s, items)
  | _ + 1, [], _ => none
  | i + 1, item :: items, s =>
    match f (s.theBlocks i) item with
    | some b => fillDown i items (s.write i b)
    | none => none

variable {f} {h : β → ε → β}

theorem set_range {n i : Nat} : (List.range n).set i i = List.range n := by
  apply List.ext_getElem (by simp)
  intro j hj hj'
  rw [List.getElem_set]
  split
  · next h => simp [h]
  · rfl

theorem fillDown_spec (items : List ε) {n : Nat} {s : SetLRU β}
    (horder : s.theMRUOrder = List.range n) (hf : ∀ b, ∀ x ∈ items, f b x = some (h b x)) :
    ∃ t, (∀ rest, fillDown f items.length (items ++ rest) s = some (t, rest)) ∧
      t.theMRUOrder = List.range n ∧
      (∀ i, items.length ≤ i → t.theBlocks i = s.theBlocks i) ∧
      ∀ i x, items.reverse[i]? = some x → t.theBlocks i = h (s.theBlocks i) x := by
  induction items generalizing s with
  | nil => exact ⟨s, fun _ => rfl, horder, fun _ _ => rfl, fun i x hx => by cases hx⟩
  | cons item items ih =>
    obtain ⟨t, hfill, hrange, habove, hbelow⟩ := ih
      (s := s.write items.length (h (s.theBlocks items.length) item))
      (by rw [write, horder, set_range]) fun b x hx => hf b x (List.mem_cons_of_mem _ hx)
    simp only [write] at habove hbelow
    refine ⟨t, fun rest => ?_, hrange, fun i hi => ?_, fun i x hx => ?_⟩
    · rw [← hfill, List.cons_append, List.length_cons, fillDown, hf _ item List.mem_cons_self]
    · rw [List.length_cons] at hi
      rw [habove i (by omega), Function.update_of_ne (by omega)]
    · rw [List.reverse_cons] at hx
      rcases Nat.lt_or_ge i items.length with hlt | hge
      · rw [List.getElem?_append_left (by simpa using hlt)] at hx
        rw [hbelow i x hx, Function.update_of_ne (by omega)]
      · rw [List.getElem?_append_right (by simpa using hge), List.length_reverse] at hx
        obtain ⟨hi, rfl⟩ := List.getElem?_eq_some_iff.mp hx
        have hend : i = items.length := by
          rw [List.length_singleton] at hi
          omega
        subst hend
        rw [habove _ le_rfl, Function.update_self, List.getElem_singleton]

/-- A set that is filled downwards has the items of the stream from the least to the most
    recently used one. -/
theorem fillDown_create (items : List ε) (b : β) {n : Nat} (hn : items.length = n)
    (hf : ∀ b, ∀ x ∈ items, f b x = some (h b x)) :
    ∃ t, (∀ rest, fillDown f n (items ++ rest) (create n b) = some (t, rest)) ∧
      t.theMRUOrder = List.range n ∧ t.recency = items.reverse.map (h b) := by
  subst hn
  obtain ⟨t, hfill, hrange, -, hblocks⟩ :=
    fillDown_spec items (s := create items.length b) rfl hf
  refine ⟨t, hfill, hrange, ?_⟩
  unfold recency
  rw [hrange]
  apply List.ext_getElem (by simp)
  intro i hi hi'
  simp only [List.length_map, List.length_range] at hi
  rw [List.getElem_map, List.getElem_map, List.getElem_range,
    hblocks i _ (List.getElem?_eq_getElem (by simpa using hi))]
  rfl

/-- Fill sets one after the other, each by reading what it needs of a stream. -/
def fillSets (read : Nat → List ε → SetLRU β → Option (SetLRU β × List ε)) :
    Nat → Nat → List ε → (Nat → SetLRU β) → Option ((Nat → SetLRU β) × List ε)
  | 0, _, items, sets => some (sets, items)
  | k + 1, i, items, sets =>
    match read i items (sets i) with
    | some (s, rest) => fillSets read k (i + 1) rest (Function.update sets i s)
    | none => none

/-- Every set is filled from its own part of the stream. -/
theorem fillSets_spec (read : Nat → List ε → SetLRU β → Option (SetLRU β × List ε))
    (chunks : Nat → List ε) (done sets : Nat → SetLRU β) (k i : Nat)
    (hread : ∀ j rest, i ≤ j → j < i + k → read j (chunks j ++ rest) (sets j) = some (done j, rest)) :
    ∃ filled, fillSets read k i ((List.range' i k).flatMap chunks) sets = some (filled, []) ∧
      (∀ j, j < i → filled j = sets j) ∧ ∀ j, i ≤ j → j < i + k → filled j = done j := by
  induction k generalizing i sets with
  | zero => exact ⟨sets, rfl, fun _ _ => rfl, fun j hle hlt => by omega⟩
  | succ k ih =>
    have hrest : ∀ j rest, i + 1 ≤ j → j < i + 1 + k →
        read j (chunks j ++ rest) (Function.update sets i (done i) j) = some (done j, rest) := by
      intro j rest hle hlt
      rw [Function.update_of_ne (by omega)]
      exact hread j rest (by omega) (by omega)
    obtain ⟨filled, hfill, hbelow, hdone⟩ := ih (Function.update sets i (done i)) (i + 1) hrest
    refine ⟨filled, ?_, fun j hj => ?_, fun j hle hlt => ?_⟩
    · rw [List.range'_succ, List.flatMap_cons, fillSets, hread i _ le_rfl (by omega)]
      exact hfill
    · rw [hbelow j (by omega), Function.update_of_ne (by omega)]
    · rcases Nat.eq_or_lt_of_le hle with rfl | hlt'
      · rw [hbelow i (by omega), Function.update_self]
      · exact hdone j hlt' (by omega)

end Fill

end SetLRU

end SetArray
