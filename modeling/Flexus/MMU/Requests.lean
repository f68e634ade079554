import Flexus.MMU.Component

/-!
# No request is lost

Every translation request is in one of the queues, answered once on the channel of its type, or
dropped as annulled; a request parked behind a walk is released by it.
-/

namespace nMMU

open Runs

/-! ## What does not change about a request -/

/-- The same request, possibly further on. -/
structure Translation.Same (t t' : Translation) : Prop where
  theVaddr : t'.theVaddr = t.theVaddr
  theTLBtype : t'.theTLBtype = t.theTLBtype
  theAnnul : t'.theAnnul = t.theAnnul
  theDone : t.theDone = true → t'.theDone = true

theorem Translation.Same.refl (t : Translation) : t.Same t := ⟨rfl, rfl, rfl, id⟩

theorem Translation.Same.trans {t t' t'' : Translation} (h : t.Same t') (h' : t'.Same t'') : t.Same t'' :=
  ⟨h'.theVaddr.trans h.theVaddr, h'.theTLBtype.trans h.theTLBtype, h'.theAnnul.trans h.theAnnul,
    fun hdone => h'.theDone (h.theDone hdone)⟩

theorem Translation.same_setDone {t t' : Translation} (h : t.setDone = .ok t') : t.Same t' := by
  rw [setDone] at h
  split at h
  · cases h
  · rw [← Except.ok.inj h]
    exact ⟨rfl, rfl, rfl, fun _ => rfl⟩

theorem Translation.same_setPagefault {t t' : Translation} (h : t.setPagefault = .ok t') : t.Same t' := by
  rw [setPagefault] at h
  split at h
  · cases h
  · rw [← Except.ok.inj h]
    exact ⟨rfl, rfl, rfl, fun hdone => hdone⟩

theorem Translation.same_raise {t t' : Translation} (h : t.raise = .ok t') : t.Same t' := by
  rw [raise] at h
  split at h
  · rw [← Except.ok.inj h]
    exact ⟨rfl, rfl, rfl, fun hdone => hdone⟩
  · exact same_setPagefault h

theorem same_walk {m : mmu_t} {w w' : Walk} (h : m.walk w = .ok w') : w.basic.Same w'.basic := by
  rw [mmu_t.walk] at h
  split at h
  · obtain ⟨t, ht, hrest⟩ := bind_eq_ok.mp h
    obtain ⟨t', ht', hrest⟩ := bind_eq_ok.mp hrest
    rw [← pure_eq_ok.mp hrest]
    exact (Translation.same_raise ht).trans (Translation.same_setDone ht')
  · split at h
    · obtain ⟨t', ht', hrest⟩ := bind_eq_ok.mp h
      rw [← pure_eq_ok.mp hrest]
      obtain ⟨hva, htype, hannul, hdone⟩ := Translation.same_setDone ht'
      exact ⟨hva, htype, hannul, hdone⟩
    · split at h
      · obtain ⟨r, -, hrest⟩ := bind_eq_ok.mp h
        rw [← pure_eq_ok.mp hrest]
        exact Translation.Same.refl _
      · obtain ⟨size, -, hrest⟩ := bind_eq_ok.mp h
        obtain ⟨t', ht', hrest⟩ := bind_eq_ok.mp hrest
        rw [← pure_eq_ok.mp hrest]
        obtain ⟨hva, htype, hannul, hdone⟩ := Translation.same_setDone ht'
        exact ⟨hva, htype, hannul, hdone⟩

theorem same_preTranslate {w : Walk} : w.basic.Same (mmu_t.preTranslate w).basic := by
  rw [mmu_t.preTranslate]
  split
  · exact ⟨rfl, rfl, rfl, id⟩
  · exact .refl _

/-! ## The places of the requests -/

/-- Where the requests are. -/
structure Queues where
  pushed : Nat
  lookUp : List Nat
  walks : List Nat
  alreadyPW : List (BitVec 64)
  standing : List Nat
  transports : List Nat
  iReply : List Nat
  dReply : List Nat
  dropped : List Nat

def MMU.queues (c : MMU) : Queues where
  pushed := c.pushed
  lookUp := c.theLookUpEntries
  walks := c.thePageWalkEntries
  alreadyPW := c.alreadyPW
  standing := c.standingEntries
  transports := c.thePageWalker.theTranslationTransports.map Prod.fst
  iReply := c.iTranslationReply
  dReply := c.dTranslationReply
  dropped := c.dropped

/-- The page of a request. -/
def Translation.page (t : Translation) : BitVec 64 := nMMU.page t.theVaddr

/-- The requests and their places: `held` are those taken out of a queue and not yet put
    anywhere. A page is marked exactly while one walk of it is queued, and no walk is
    annulled. -/
structure Placed (item : Nat → Translation) (q : Queues) (held : List Nat) : Prop where
  places : (held ++ (q.lookUp ++ (q.walks ++ (q.standing ++ (q.iReply ++ (q.dReply ++ q.dropped)))))).Perm
    (List.range q.pushed)
  instr : ∀ id ∈ q.iReply, (item id).isInstr = true
  data : ∀ id ∈ q.dReply, (item id).isData = true
  annulled : ∀ id ∈ q.dropped, (item id).theAnnul = true
  parked : ∀ s ∈ q.standing, ∃ w ∈ q.walks, (item w).page = (item s).page ∧ (item w).isInstr = (item s).isInstr
  marked : ∀ p, p ∈ q.alreadyPW ↔ ∃ w ∈ q.walks, (item w).page = p
  single : (q.walks.map fun w => (item w).page).Nodup
  going : ∀ w ∈ q.walks, (item w).theAnnul = false ∧ ((item w).theDone = true ∨ w ∈ q.transports)

namespace Placed

variable {item item' : Nat → Translation} {q : Queues} {held : List Nat} {id : Nat}

/-- The places depend on the addresses, the types and the annulments of the requests, and on
    which of them are done. -/
theorem congr (h : Placed item q held) (hva : ∀ x, (item' x).theVaddr = (item x).theVaddr)
    (htype : ∀ x, (item' x).theTLBtype = (item x).theTLBtype)
    (hannul : ∀ x, (item x).theAnnul = true → (item' x).theAnnul = true)
    (hwalk : ∀ w ∈ q.walks, (item' w).theAnnul = (item w).theAnnul)
    (hdone : ∀ x, (item x).theDone = true → (item' x).theDone = true) : Placed item' q held := by
  have hpage : ∀ x, (item' x).page = (item x).page := fun x => by rw [Translation.page, Translation.page, hva]
  have hinstr : ∀ x, (item' x).isInstr = (item x).isInstr := fun x => by
    rw [Translation.isInstr, Translation.isInstr, htype]
  have hdata : ∀ x, (item' x).isData = (item x).isData := fun x => by
    rw [Translation.isData, Translation.isData, htype]
  refine ⟨h.places, fun x hx => ?_, fun x hx => ?_, fun x hx => hannul x (h.annulled x hx), fun s hs => ?_,
    fun p => ?_, ?_, fun w hw => ?_⟩
  · rw [hinstr]
    exact h.instr x hx
  · rw [hdata]
    exact h.data x hx
  · obtain ⟨w, hw, hsamePage, hsameType⟩ := h.parked s hs
    refine ⟨w, hw, ?_, ?_⟩
    · rw [hpage, hpage, hsamePage]
    · rw [hinstr, hinstr, hsameType]
  · simp only [hpage]
    exact h.marked p
  · simp only [hpage]
    exact h.single
  · obtain ⟨halive, hgoing⟩ := h.going w hw
    exact ⟨(hwalk w hw).trans halive, hgoing.imp_left (hdone w)⟩

theorem same (h : Placed item q held) (hsame : ∀ x, (item x).Same (item' x)) : Placed item' q held :=
  h.congr (fun x => (hsame x).theVaddr) (fun x => (hsame x).theTLBtype)
    (fun x hannul => (hsame x).theAnnul.trans hannul) (fun w _ => (hsame w).theAnnul) fun x => (hsame x).theDone

/-- Permutations of the places are compared by counting. -/
theorem perm_of_count {l l' : List Nat} {n : Nat} (h : l.Perm (List.range n)) (hcount : ∀ a, l'.count a = l.count a) :
    l'.Perm (List.range n) :=
  (List.perm_iff_count.mpr hcount).trans h

/-- A held request is answered on the channel of its type. -/
theorem answer (h : Placed item q (id :: held)) (htype : (item id).isInstr ≠ (item id).isData) :
    Placed item (if (item id).isInstr then { q with iReply := q.iReply ++ [id] }
      else { q with dReply := q.dReply ++ [id] }) held := by
  cases hinstr : (item id).isInstr with
  | true =>
    refine ⟨perm_of_count h.places fun a => ?_, fun x hx => ?_, h.data, h.annulled, h.parked, h.marked, h.single,
      h.going⟩
    · simp only [if_true, List.count_append, List.count_cons, List.count_nil]
      omega
    · obtain hold | hnew := List.mem_append.mp hx
      · exact h.instr x hold
      · rw [List.mem_singleton.mp hnew, hinstr]
  | false =>
    refine ⟨perm_of_count h.places fun a => ?_, h.instr, fun x hx => ?_, h.annulled, h.parked, h.marked, h.single,
      h.going⟩
    · simp only [Bool.false_eq_true, if_false, List.count_append, List.count_cons, List.count_nil]
      omega
    · obtain hold | hnew := List.mem_append.mp hx
      · exact h.data x hold
      · rw [List.mem_singleton.mp hnew]
        rw [hinstr] at htype
        simpa using htype.symm

/-- A held request is parked behind the walk of its page, which is of its type. -/
theorem park (h : Placed item q (id :: held)) (hmarked : (item id).page ∈ q.alreadyPW)
    (hsound : ∀ w ∈ q.walks, (item w).page = (item id).page → (item w).isInstr = (item id).isInstr) :
    Placed item { q with standing := q.standing ++ [id] } held := by
  refine ⟨perm_of_count h.places fun a => ?_, h.instr, h.data, h.annulled, fun s hs => ?_, h.marked, h.single,
    h.going⟩
  · simp only [List.count_append, List.count_cons, List.count_nil]
    omega
  · obtain hold | hnew := List.mem_append.mp hs
    · exact h.parked s hold
    · rw [List.mem_singleton.mp hnew]
      obtain ⟨w, hw, hpage⟩ := (h.marked _).mp hmarked
      exact ⟨w, hw, hpage, hsound w hw hpage⟩

/-- A held request starts the walk of a page that is not marked. -/
theorem start (h : Placed item q (id :: held)) (hfree : (item id).page ∉ q.alreadyPW)
    (hannul : (item id).theAnnul = false) :
    Placed item { q with
      walks := q.walks ++ [id]
      alreadyPW := q.alreadyPW ++ [(item id).page]
      transports := q.transports ++ [id] } held := by
  refine ⟨perm_of_count h.places fun a => ?_, h.instr, h.data, h.annulled, fun s hs => ?_, fun p => ?_, ?_,
    fun w hw => ?_⟩
  · simp only [List.count_append, List.count_cons, List.count_nil]
    omega
  · obtain ⟨w, hw, hsame⟩ := h.parked s hs
    exact ⟨w, List.mem_append_left _ hw, hsame⟩
  · simp only [List.mem_append, List.mem_singleton, h.marked]
    constructor
    · rintro (⟨w, hw, hpage⟩ | rfl)
      · exact ⟨w, .inl hw, hpage⟩
      · exact ⟨id, .inr rfl, rfl⟩
    · rintro ⟨w, hw | rfl, hpage⟩
      · exact .inl ⟨w, hw, hpage⟩
      · exact .inr hpage.symm
  · rw [List.map_append, List.map_singleton, ← List.concat_eq_append]
    refine h.single.concat fun hmem => ?_
    obtain ⟨w, hw, hpage⟩ := List.mem_map.mp hmem
    exact hfree ((h.marked _).mpr ⟨w, hw, hpage⟩)
  · obtain hold | hnew := List.mem_append.mp hw
    · obtain ⟨halive, hgoing⟩ := h.going w hold
      exact ⟨halive, hgoing.imp_right (List.mem_append_left _)⟩
    · rw [List.mem_singleton.mp hnew]
      exact ⟨hannul, .inr (List.mem_append_right _ List.mem_cons_self)⟩

/-- A finished walk at the front releases the requests parked on its page and is held. -/
theorem finish {rest : List Nat} (h : Placed item q held) (hfront : q.walks = id :: rest) :
    Placed item { q with
      walks := rest
      alreadyPW := q.alreadyPW.filter (· ≠ (item id).page)
      lookUp := q.lookUp ++ q.standing.filter fun s =>
        (item s).theVaddr &&& (item id).page == (item id).page && (item id).isInstr == (item s).isInstr
      standing := q.standing.filter fun s =>
        !((item s).theVaddr &&& (item id).page == (item id).page && (item id).isInstr == (item s).isInstr) }
      (id :: held) := by
  have hsingle := h.single
  rw [hfront, List.map_cons, List.nodup_cons] at hsingle
  have hother : ∀ w ∈ rest, (item w).page ≠ (item id).page := fun w hw heq =>
    hsingle.1 (List.mem_map.mpr ⟨w, hw, heq⟩)
  refine ⟨?_, h.instr, h.data, h.annulled, fun s hs => ?_, fun p => ?_, hsingle.2, fun w hw => ?_⟩
  · refine perm_of_count h.places fun a => ?_
    have hsplit := List.perm_iff_count.mp (List.filter_append_perm (fun s =>
      (item s).theVaddr &&& (item id).page == (item id).page && (item id).isInstr == (item s).isInstr) q.standing) a
    simp only [hfront, List.count_append, List.count_cons] at hsplit ⊢
    omega
  · obtain ⟨hstanding, hkept⟩ := List.mem_filter.mp hs
    obtain ⟨w, hw, hpage, htype⟩ := h.parked s hstanding
    rw [hfront] at hw
    obtain rfl | hw := List.mem_cons.mp hw
    · -- a request of the walk's own page and type is released
      have hmask : (item s).theVaddr &&& (item w).page = (item w).page := by
        rw [hpage, Translation.page, page, ← BitVec.and_assoc, BitVec.and_self]
      simp [hmask, htype] at hkept
    · exact ⟨w, hw, hpage, htype⟩
  · simp only [List.mem_filter, h.marked, hfront, List.mem_cons, decide_eq_true_eq]
    constructor
    · rintro ⟨⟨w, rfl | hw, hpage⟩, hne⟩
      · exact absurd hpage.symm hne
      · exact ⟨w, hw, hpage⟩
    · rintro ⟨w, hw, rfl⟩
      exact ⟨⟨w, .inr hw, rfl⟩, hother w hw⟩
  · exact h.going w (hfront ▸ List.mem_cons_of_mem _ hw)

/-- A finished walk leaves the walker. -/
theorem leave {rest : List Nat} (h : Placed item q held) (hfront : q.transports = id :: rest)
    (hdone : (item id).theDone = true) : Placed item { q with transports := rest } held := by
  refine ⟨h.places, h.instr, h.data, h.annulled, h.parked, h.marked, h.single, fun w hw => ?_⟩
  obtain ⟨halive, hgoing⟩ := h.going w hw
  refine ⟨halive, ?_⟩
  obtain hd | hmem := hgoing
  · exact .inl hd
  · rw [hfront] at hmem
    obtain rfl | hrest := List.mem_cons.mp hmem
    · exact .inl hdone
    · exact .inr hrest

/-- A new request is queued for a lookup. -/
theorem push {t : Translation} (h : Placed item q held) :
    Placed (Function.update item q.pushed t) { q with pushed := q.pushed + 1, lookUp := q.lookUp ++ [q.pushed] }
      held := by
  have hknown : ∀ id ∈ held ++ (q.lookUp ++ (q.walks ++ (q.standing ++ (q.iReply ++ (q.dReply ++ q.dropped))))),
      Function.update item q.pushed t id = item id := fun id hid => by
    have hlt := List.mem_range.mp (h.places.mem_iff.mp hid)
    exact Function.update_of_ne (Nat.ne_of_lt hlt) _ _
  have hwalk : ∀ w ∈ q.walks, Function.update item q.pushed t w = item w := fun w hw =>
    hknown w (by simp [hw])
  refine ⟨?_, fun id hid => ?_, fun id hid => ?_, fun id hid => ?_, fun s hs => ?_, fun p => ?_, ?_, fun w hw => ?_⟩
  · have hgrow : (q.pushed :: (held ++ (q.lookUp ++ (q.walks ++ (q.standing ++ (q.iReply ++ (q.dReply ++
        q.dropped))))))).Perm (List.range (q.pushed + 1)) := by
      rw [List.range_succ]
      exact (List.Perm.cons _ h.places).trans (List.perm_append_singleton _ _).symm
    refine perm_of_count hgrow fun a => ?_
    simp only [List.count_append, List.count_cons, List.count_nil]
    omega
  · rw [hknown id (by simp [hid])]
    exact h.instr id hid
  · rw [hknown id (by simp [hid])]
    exact h.data id hid
  · rw [hknown id (by simp [hid])]
    exact h.annulled id hid
  · obtain ⟨w, hw, hsame⟩ := h.parked s hs
    refine ⟨w, hw, ?_⟩
    rw [hwalk w hw, hknown s (by simp [hs])]
    exact hsame
  · rw [h.marked]
    exact exists_congr fun w => and_congr_right fun hw => by rw [hwalk w hw]
  · rw [List.map_congr_left fun w hw => by rw [hwalk w hw]]
    exact h.single
  · rw [hwalk w hw]
    exact h.going w hw

/-- A request that is not being walked is annulled. -/
theorem annul (h : Placed item q held) (hid : id ∉ q.walks) :
    Placed (Function.update item id { item id with theAnnul := true }) q held := by
  have hself : ∀ x, Function.update item id { item id with theAnnul := true } x =
      if x = id then { item x with theAnnul := true } else item x := by
    intro x
    by_cases hx : x = id
    · subst hx
      rw [Function.update_self, if_pos rfl]
    · rw [Function.update_of_ne hx, if_neg hx]
  apply h.congr
  · intro x
    rw [hself]
    split <;> rfl
  · intro x
    rw [hself]
    split <;> rfl
  · intro x hannul
    rw [hself]
    split
    · rfl
    · exact hannul
  · intro w hw
    have hne : w ≠ id := fun heq => hid (heq ▸ hw)
    rw [hself, if_neg hne]
  · intro x hdone
    rw [hself]
    split <;> exact hdone

end Placed

/-! ## The steps of the component -/

namespace MMU

variable {cfg : Config} {c c' : MMU} {id : Nat} {t : Translation} {held : List Nat}

/-- The requests of a component and their places. -/
def Holds (c : MMU) (held : List Nat) : Prop := Placed c.item c.queues held

@[simp] theorem setTLB_item (b : TLB) : (c.setTLB t b).item = c.item := by
  rw [setTLB]
  split <;> rfl

@[simp] theorem setTLB_queues (b : TLB) : (c.setTLB t b).queues = c.queues := by
  rw [setTLB]
  split <;> rfl

theorem setTLB_alreadyPW (b : TLB) : (c.setTLB t b).alreadyPW = c.alreadyPW :=
  congrArg Queues.alreadyPW (setTLB_queues b)

theorem setTLB_thePageWalkEntries (b : TLB) : (c.setTLB t b).thePageWalkEntries = c.thePageWalkEntries :=
  congrArg Queues.walks (setTLB_queues b)

theorem setTLB_theLookUpEntries (b : TLB) : (c.setTLB t b).theLookUpEntries = c.theLookUpEntries :=
  congrArg Queues.lookUp (setTLB_queues b)

theorem Holds.setTLB (h : c.Holds held) (b : TLB) : (c.setTLB t b).Holds held := by
  rw [Holds, setTLB_item, setTLB_queues]
  exact h

/-- A request may move on at its place. -/
theorem Holds.setItem (h : c.Holds held) (id : Nat) (hsame : (c.item id).Same t) : (c.setItem id t).Holds held := by
  apply Placed.same h
  intro x
  show (c.item x).Same (Function.update c.item id t x)
  by_cases hx : x = id
  · subst hx
    rw [Function.update_self]
    exact hsame
  · rw [Function.update_of_ne hx]
    exact .refl _

theorem Holds.answer (h : c.Holds (id :: held)) (htype : (c.item id).isInstr ≠ (c.item id).isData) :
    (c.answer id).Holds held := by
  have hplaced := Placed.answer h htype
  rw [MMU.answer]
  split at hplaced <;> rename_i hinstr
  · rw [if_pos hinstr]
    exact hplaced
  · rw [if_neg hinstr]
    exact hplaced

theorem Holds.hit {a : BitVec 64} (h : c.Holds (id :: held)) (hsame : (c.item id).Same t)
    (htype : t.isInstr ≠ t.isData) : (c.hit id t a).Holds held := by
  rw [MMU.hit]
  apply Holds.answer
  · apply h.setItem id
    exact ⟨hsame.theVaddr, hsame.theTLBtype, hsame.theAnnul, hsame.theDone⟩
  · simpa [MMU.setItem, Translation.isInstr, Translation.isData] using htype

/-! ### The first loop of a bus cycle -/

/-- A request misses the TLB. -/
def Misses (cfg : Config) (c : MMU) (id : Nat) : Prop :=
  cfg.PerfectTLB = false ∧ ((c.tlb (c.item id)).lookUp (page (c.item id).theVaddr)).1 = none

instance : Decidable (c.Misses cfg id) := inferInstanceAs (Decidable (_ ∧ _))

/-- A request that misses finds its page unmarked and is not annulled, or finds it marked by
    a walk of its own type. -/
def EntrySound (cfg : Config) (c : MMU) (id : Nat) : Prop :=
  c.Misses cfg id →
    if page (c.item id).theVaddr ∈ c.alreadyPW then
      ∀ w ∈ c.thePageWalkEntries, page (c.item w).theVaddr = page (c.item id).theVaddr →
        (c.item w).isInstr = (c.item id).isInstr
    else (c.item id).theAnnul = false

instance : Decidable (c.EntrySound cfg id) :=
  inferInstanceAs (Decidable (_ → ite _ _ _))

/-- Every round of the first loop finds a request of which this is true. -/
def LookupsSound (cfg : Config) : List Nat → MMU → Prop
  | [], _ => True
  | id :: rest, c =>
    let c := { c with theLookUpEntries := rest }
    c.EntrySound cfg id ∧
      match c.lookupEntry cfg id with
      | .ok c' => LookupsSound cfg rest c'
      | .error _ => True

instance LookupsSound.decidable : ∀ (ids : List Nat) (c : MMU), Decidable (LookupsSound cfg ids c)
  | [], _ => .isTrue trivial
  | id :: rest, c =>
    have : Decidable (match ({ c with theLookUpEntries := rest } : MMU).lookupEntry cfg id with
        | .ok c' => LookupsSound cfg rest c'
        | .error _ => True) :=
      match ({ c with theLookUpEntries := rest } : MMU).lookupEntry cfg id with
      | .ok c' => LookupsSound.decidable rest c'
      | .error _ => .isTrue trivial
    inferInstanceAs (Decidable (_ ∧ _))

/-- The component after the TLB was asked for the page of a request. -/
def looked (c : MMU) (id : Nat) : MMU :=
  c.setTLB (c.item id) ((c.tlb (c.item id)).lookUp (page (c.item id).theVaddr)).2

/-- The component with a request parked. -/
def stand (c : MMU) (id : Nat) : MMU := { c with standingEntries := c.standingEntries ++ [id] }

/-- The component with a use of the register object `m` recorded. -/
def note (c : MMU) (m : mmu_t) : MMU := { c with used := c.used ++ [(c.resynced, m)] }

/-- The component after a walk has started with the register object `m`. -/
def started (c : MMU) (id : Nat) (m : mmu_t) (w : Walk) : MMU :=
  { c.setItem id { c.item id with theTLBstatus := .kTLBmiss } with
    thePageWalker := { c.thePageWalker with
      theTranslationTransports := c.thePageWalker.theTranslationTransports ++ [(id, w.stateful)] }
    alreadyPW := c.alreadyPW ++ [page (c.item id).theVaddr]
    thePageWalkEntries := c.thePageWalkEntries ++ [id]
    used := c.used ++ [(c.resynced, m)] }

/-- A walk either starts or its request is answered with the address of the simulator. -/
theorem startWalk_cases (hok : c.startWalk cfg id (c.item id) = .ok c') :
    ∃ m, c.thePageWalker.theMMU = some m ∧
      ((∃ a, c' = (c.note m).hit id { c.item id with theTLBstatus := .kTLBmiss } a) ∨
        ∃ w, c' = c.started id m w) := by
  rw [startWalk] at hok
  split at hok
  · cases hok
  · rename_i m hm
    obtain ⟨setup, -, hrest⟩ := bind_eq_ok.mp hok
    cases setup with
    | none => exact ⟨m, hm, .inl ⟨_, (pure_eq_ok.mp hrest).symm⟩⟩
    | some w => exact ⟨m, hm, .inr ⟨w, (pure_eq_ok.mp hrest).symm⟩⟩

/-- A round of the first loop answers its request, parks it, or starts its walk. -/
theorem lookupEntry_cases (hok : c.lookupEntry cfg id = .ok c') :
    (c.item id).isInstr ≠ (c.item id).isData ∧
      ((∃ t a, (c.item id).Same t ∧ c' = (c.looked id).hit id t a) ∨
        (c.Misses cfg id ∧ page (c.item id).theVaddr ∈ c.alreadyPW ∧
          c' = (c.looked id).stand id) ∨
        (c.Misses cfg id ∧ page (c.item id).theVaddr ∉ c.alreadyPW ∧
          (c.looked id).startWalk cfg id (c.item id) = .ok c')) := by
  rw [lookupEntry] at hok
  split at hok
  · cases hok
  · rename_i htype
    refine ⟨fun heq => htype (by rw [heq, beq_self_eq_true]), ?_⟩
    dsimp only at hok
    split at hok
    · split at hok
      · obtain ⟨t, ht, hrest⟩ := bind_eq_ok.mp hok
        exact .inl ⟨t, _, Translation.same_setPagefault ht, (pure_eq_ok.mp hrest).symm⟩
      · obtain ⟨t, ht, hrest⟩ := bind_eq_ok.mp hok
        rw [← Except.ok.inj ht] at hrest
        exact .inl ⟨_, _, .refl _, (pure_eq_ok.mp hrest).symm⟩
    · rename_i hperfect
      split at hok
      · exact .inl ⟨_, _, .refl _, (pure_eq_ok.mp hok).symm⟩
      · rename_i hnone
        have hmiss : c.Misses cfg id := ⟨Bool.not_eq_true _ ▸ hperfect, hnone⟩
        split at hok
        · rename_i hmarked
          rw [setTLB_alreadyPW] at hmarked
          exact .inr (.inl ⟨hmiss, hmarked, (pure_eq_ok.mp hok).symm⟩)
        · rename_i hfree
          rw [setTLB_alreadyPW] at hfree
          exact .inr (.inr ⟨hmiss, hfree, hok⟩)

@[simp] theorem looked_item (c : MMU) (id : Nat) : (c.looked id).item = c.item := setTLB_item _

theorem hit_theLookUpEntries (a : BitVec 64) : (c.hit id t a).theLookUpEntries = c.theLookUpEntries := by
  rw [hit, MMU.answer]
  split <;> rfl

/-- A round of the first loop queues nothing for a further round. -/
theorem theLookUpEntries_of_lookupEntry (hok : c.lookupEntry cfg id = .ok c') :
    c'.theLookUpEntries = c.theLookUpEntries := by
  have hlooked : (c.looked id).theLookUpEntries = c.theLookUpEntries := setTLB_theLookUpEntries _
  obtain ⟨-, ⟨t, a, -, rfl⟩ | ⟨-, -, rfl⟩ | ⟨-, -, hstart⟩⟩ := lookupEntry_cases hok
  · rw [hit_theLookUpEntries, hlooked]
  · exact hlooked
  · rw [← looked_item c id] at hstart
    obtain ⟨m, -, ⟨a, rfl⟩ | ⟨w, rfl⟩⟩ := startWalk_cases hstart
    · rw [hit_theLookUpEntries, note, hlooked]
    · exact hlooked

theorem Holds.park (h : c.Holds (id :: held)) (hmarked : page (c.item id).theVaddr ∈ c.alreadyPW)
    (hsound : ∀ w ∈ c.thePageWalkEntries, page (c.item w).theVaddr = page (c.item id).theVaddr →
      (c.item w).isInstr = (c.item id).isInstr) :
    (c.stand id).Holds held :=
  Placed.park h hmarked hsound

theorem Holds.started {m : mmu_t} {w : Walk} (h : c.Holds (id :: held))
    (hfree : page (c.item id).theVaddr ∉ c.alreadyPW) (hannul : (c.item id).theAnnul = false) :
    (c.started id m w).Holds held := by
  have hplaced : Holds { c with
      thePageWalker := { c.thePageWalker with
        theTranslationTransports := c.thePageWalker.theTranslationTransports ++ [(id, w.stateful)] }
      alreadyPW := c.alreadyPW ++ [page (c.item id).theVaddr]
      thePageWalkEntries := c.thePageWalkEntries ++ [id]
      used := c.used ++ [(c.resynced, m)] } held := by
    have hstart := Placed.start h hfree hannul
    simpa [Holds, queues, Translation.page] using hstart
  exact hplaced.setItem id (t := { c.item id with theTLBstatus := .kTLBmiss }) ⟨rfl, rfl, rfl, fun hdone => hdone⟩

/-- A round of the first loop puts its request somewhere. -/
theorem Holds.lookupEntry (h : c.Holds (id :: held)) (hsound : c.EntrySound cfg id)
    (hok : c.lookupEntry cfg id = .ok c') : c'.Holds held := by
  have hlooked : (c.looked id).Holds (id :: held) := h.setTLB _
  have hpages : (c.looked id).alreadyPW = c.alreadyPW := setTLB_alreadyPW _
  have hwalks : (c.looked id).thePageWalkEntries = c.thePageWalkEntries := setTLB_thePageWalkEntries _
  obtain ⟨htype, ⟨t, a, hsame, rfl⟩ | ⟨hmiss, hmarked, rfl⟩ | ⟨hmiss, hfree, hstart⟩⟩ := lookupEntry_cases hok
  · apply hlooked.hit
    · rw [looked_item]
      exact hsame
    · rw [Translation.isInstr, Translation.isData, hsame.theTLBtype]
      exact htype
  · have hsound := hsound hmiss
    rw [if_pos hmarked] at hsound
    apply hlooked.park
    · rw [looked_item, hpages]
      exact hmarked
    · rw [looked_item, hwalks]
      exact hsound
  · have hannul := hsound hmiss
    rw [if_neg hfree] at hannul
    rw [← looked_item c id] at hstart
    obtain ⟨m, -, ⟨a, rfl⟩ | ⟨w, rfl⟩⟩ := startWalk_cases hstart
    · have hnoted : ((c.looked id).note m).Holds (id :: held) := hlooked
      apply hnoted.hit
      · exact ⟨rfl, rfl, rfl, fun hdone => hdone⟩
      · rw [Translation.isInstr, Translation.isData, looked_item]
        exact htype
    · apply hlooked.started
      · rw [looked_item, hpages]
        exact hfree
      · rw [looked_item]
        exact hannul

/-- The first loop empties its queue: every request taken is put somewhere before the next
    one is taken. -/
theorem Holds.lookups {ids : List Nat} (hqueue : c.theLookUpEntries = ids) (h : c.Holds [])
    (hsound : LookupsSound cfg ids c) (hok : MMU.lookups cfg ids c = .ok c') : c'.Holds [] := by
  induction ids generalizing c with
  | nil =>
    rw [← Except.ok.inj hok]
    exact h
  | cons id rest ih =>
    obtain ⟨hone, hrest⟩ := hsound
    rw [MMU.lookups] at hok
    obtain ⟨mid, hmid, hok⟩ := bind_eq_ok.mp hok
    rw [hmid] at hrest
    have htaken : Holds { c with theLookUpEntries := rest } [id] := by
      refine ⟨Placed.perm_of_count h.places fun a => ?_, h.instr, h.data, h.annulled, h.parked, h.marked, h.single,
        h.going⟩
      simp only [queues, hqueue, List.count_append, List.count_cons, List.count_nil]
      omega
    have hkept := theLookUpEntries_of_lookupEntry hmid
    exact ih hkept (htaken.lookupEntry hone hmid) hrest hok

/-! ### The second loop of a bus cycle -/

/-- What completes a walk: the walk has left its queue, the mark of its page is gone, and the
    requests parked on it are queued for a lookup. -/
def released (c : MMU) (id : Nat) (rest : List Nat) : MMU :=
  { c with
    thePageWalkEntries := rest
    alreadyPW := c.alreadyPW.filter (· ≠ page (c.item id).theVaddr)
    theLookUpEntries := c.theLookUpEntries ++
      c.standingEntries.filter (c.releases (c.item id) (page (c.item id).theVaddr))
    standingEntries := c.standingEntries.filter fun s =>
      !c.releases (c.item id) (page (c.item id).theVaddr) s }

/-- The TLB gets the page of a finished walk, and the walk is answered. -/
def fillTLB (cfg : Config) (c : MMU) (id : Nat) : MMU :=
  let t := c.item id
  ({ c.setTLB t ((c.tlb t).assign cfg.order (page t.theVaddr) (page t.thePaddr)) with
    filled := c.filled ++ [⟨page t.theVaddr, page t.thePaddr, t⟩] } : MMU).answer id

/-- A marked walk that completes releases its page, fills its TLB and is answered. -/
theorem complete_eq {rest : List Nat} (hmarked : page (c.item id).theVaddr ∈ c.alreadyPW)
    (hok : MMU.complete cfg { c with thePageWalkEntries := rest } id = .ok c') :
    (c.item id).isInstr ≠ (c.item id).isData ∧ c' = (c.released id rest).fillTLB cfg id := by
  simp only [complete, if_pos hmarked] at hok
  split at hok
  · cases hok
  · rename_i htype
    exact ⟨fun heq => htype (by rw [heq, beq_self_eq_true]), (Except.ok.inj hok).symm⟩

theorem Holds.fillTLB (h : c.Holds (id :: held)) (htype : (c.item id).isInstr ≠ (c.item id).isData) :
    (c.fillTLB cfg id).Holds held := by
  rw [MMU.fillTLB]
  apply Holds.answer
  · exact h.setTLB _
  · rw [setTLB_item]
    exact htype

/-- The second loop completes the finished walks at the front of their queue. -/
theorem Holds.completions {ids : List Nat} (hqueue : c.thePageWalkEntries = ids) (h : c.Holds [])
    (hok : MMU.completions cfg ids c = .ok c') : c'.Holds [] := by
  induction ids generalizing c with
  | nil =>
    rw [← Except.ok.inj hok]
    exact h
  | cons id rest ih =>
    have hfront : id ∈ c.thePageWalkEntries := by
      rw [hqueue]
      exact List.mem_cons_self
    have halive : (c.item id).theAnnul = false := (h.going id hfront).1
    rw [MMU.completions, if_neg (by rw [halive]; exact Bool.false_ne_true)] at hok
    split at hok
    · obtain ⟨mid, hmid, hrest⟩ := bind_eq_ok.mp hok
      have hmarked : page (c.item id).theVaddr ∈ c.alreadyPW := (h.marked _).mpr ⟨id, hfront, rfl⟩
      obtain ⟨htype, rfl⟩ := complete_eq hmarked hmid
      have hreleased : (c.released id rest).Holds [id] := Placed.finish h hqueue
      apply ih _ (hreleased.fillTLB htype) hrest
      rw [MMU.fillTLB, MMU.answer]
      split
      · exact setTLB_thePageWalkEntries _
      · exact setTLB_thePageWalkEntries _
    · rw [← Except.ok.inj hok]
      exact h

/-! ### The walker and the ports -/

theorem Holds.cycle (h : c.Holds []) (hok : c.cycle = .ok c') : c'.Holds [] := by
  rw [MMU.cycle] at hok
  split at hok
  · rw [← Except.ok.inj hok]
    exact h
  · rename_i id st rest hfront
    have hfirst : c.queues.transports = id :: rest.map Prod.fst := by
      simp [queues, hfront]
    dsimp only at hok
    split at hok
    · cases hok
    · split at hok
      · rename_i hdone
        rw [← Except.ok.inj hok]
        have hleft : Holds { c with thePageWalker := { c.thePageWalker with theTranslationTransports := rest } } [] :=
          Placed.leave h hfirst hdone
        exact hleft.setItem id ⟨rfl, rfl, rfl, fun hd => hd⟩
      · split at hok
        · split at hok
          · split at hok
            · cases hok
            · rename_i m hm
              obtain ⟨w, hw, hrest⟩ := bind_eq_ok.mp hok
              rw [← pure_eq_ok.mp hrest]
              have hsame := same_walk hw
              have hkept : Holds { c with
                  thePageWalker := { c.thePageWalker with theTranslationTransports := (id, w.stateful) :: rest }
                  used := c.used ++ [(c.resynced, m)] } [] := by
                simpa [Holds, queues, hfront] using h
              exact hkept.setItem id ⟨hsame.theVaddr, hsame.theTLBtype, hsame.theAnnul, hsame.theDone⟩
          · rw [← Except.ok.inj hok]
            have hkept : Holds { c with thePageWalker := { c.thePageWalker with
                trace_address := _, theMemoryTranslations := _ } } [] := h
            have hsame := same_preTranslate
              (w := ⟨{ c.item id with theTimeoutCounter := (c.item id).theTimeoutCounter + 1 }, st,
                c.thePageWalker.trace_address⟩)
            exact hkept.setItem id ⟨hsame.theVaddr, hsame.theTLBtype, hsame.theAnnul, hsame.theDone⟩
        · rw [← Except.ok.inj hok]
          exact h.setItem id ⟨rfl, rfl, rfl, fun hd => hd⟩

theorem Holds.drive (h : c.Holds []) (hsound : LookupsSound cfg c.theLookUpEntries c) (hok : c.drive cfg = .ok c') :
    c'.Holds [] := by
  rw [MMU.drive] at hok
  obtain ⟨bus, hbus, hok⟩ := bind_eq_ok.mp hok
  obtain ⟨walker, hwalker, hok⟩ := bind_eq_ok.mp hok
  obtain ⟨looked, hlooked, hcompleted⟩ := bind_eq_ok.mp (hbus : (do
    let c ← MMU.lookups cfg c.theLookUpEntries c
    MMU.completions cfg c.thePageWalkEntries c) = .ok bus)
  have hfirst := h.lookups rfl hsound hlooked
  have hbusHolds := hfirst.completions rfl hcompleted
  rw [← pure_eq_ok.mp hok]
  have hwalkerHolds : walker.Holds [] := hbusHolds.cycle hwalker
  exact hwalkerHolds

theorem Holds.TLBReqIn {regs : mmu_regs_t} {mem : BitVec 64 → BitVec 64} (h : c.Holds [])
    (hok : c.TLBReqIn cfg t regs mem = .ok c') : c'.Holds [] := by
  rw [MMU.TLBReqIn] at hok
  split at hok
  · rw [← pure_eq_ok.mp hok]
    exact h
  · have hlooked := h.setTLB (t := t) ((c.tlb t).lookUp t.theVaddr).2
    dsimp only at hok
    split at hok
    · rw [← pure_eq_ok.mp hok]
      exact hlooked
    · obtain ⟨mid, hmid, hok⟩ := bind_eq_ok.mp hok
      have hinitialized : mid.Holds [] := by
        rw [initializeMMU] at hmid
        split at hmid
        · rw [← Except.ok.inj hmid]
          exact hlooked
        · obtain ⟨m, -, hrest⟩ := bind_eq_ok.mp hmid
          rw [← pure_eq_ok.mp hrest]
          exact hlooked
      split at hok
      · cases hok
      · obtain ⟨walked, -, hrest⟩ := bind_eq_ok.mp hok
        rw [← pure_eq_ok.mp hrest]
        exact hinitialized.setTLB _

/-! ## Runs -/

/-- The walk of a request is under way: it is not annulled, and done or still in the walker. -/
def InProgress (c : MMU) (w : Nat) : Prop :=
  w ∈ c.thePageWalkEntries ∧ (c.item w).theAnnul = false ∧
    ((c.item w).theDone = true ∨ w ∈ c.thePageWalker.theTranslationTransports.map Prod.fst)

/-- Every request pushed is at one place, on the reply channel of its type once it is answered,
    and dropped only when annulled. The page of a parked request is marked, with a walk of it
    under way whose completion releases the request; every marked page has a walk under way. -/
structure Accounted (c : MMU) : Prop where
  places : (c.theLookUpEntries ++ (c.thePageWalkEntries ++ (c.standingEntries ++ (c.iTranslationReply ++
    (c.dTranslationReply ++ c.dropped))))).Perm (List.range c.pushed)
  instr : ∀ id ∈ c.iTranslationReply, (c.item id).isInstr = true
  data : ∀ id ∈ c.dTranslationReply, (c.item id).isData = true
  annulled : ∀ id ∈ c.dropped, (c.item id).theAnnul = true
  parked : ∀ s ∈ c.standingEntries, page (c.item s).theVaddr ∈ c.alreadyPW ∧
    ∃ w, c.InProgress w ∧ page (c.item w).theVaddr = page (c.item s).theVaddr ∧
      c.releases (c.item w) (page (c.item w).theVaddr) s = true
  marked : ∀ p ∈ c.alreadyPW, ∃ w, c.InProgress w ∧ page (c.item w).theVaddr = p

/-- A component before its first request. -/
structure Idle (c : MMU) : Prop where
  pushed : c.pushed = 0
  theLookUpEntries : c.theLookUpEntries = []
  thePageWalkEntries : c.thePageWalkEntries = []
  alreadyPW : c.alreadyPW = []
  standingEntries : c.standingEntries = []
  theTranslationTransports : c.thePageWalker.theTranslationTransports = []
  iTranslationReply : c.iTranslationReply = []
  dTranslationReply : c.dTranslationReply = []
  dropped : c.dropped = []

/-- Any event but a resynchronization. -/
def NoResync : MMUEvent → Bool
  | .resync _ => false
  | _ => true

/-- No walk is annulled, and no request that misses meets a walk of the other type or starts
    a walk annulled. -/
def Sound (cfg : Config) (c : MMU) : MMUEvent → Prop
  | .annul id => id ∉ c.thePageWalkEntries
  | .drive => LookupsSound cfg c.theLookUpEntries c
  | _ => True

instance Sound.decidable : ∀ e, Decidable (c.Sound cfg e)
  | .request _ _ _ => .isTrue trivial
  | .annul _ => inferInstanceAs (Decidable (¬ _))
  | .memoryReply _ _ => .isTrue trivial
  | .drive => LookupsSound.decidable _ _
  | .resync _ => .isTrue trivial
  | .TLBReqIn _ _ _ _ => .isTrue trivial

theorem Idle.holds (h : c.Idle) : c.Holds [] := by
  obtain ⟨hpushed, hlook, hwalks, hpages, hstanding, htransports, hinstr, hdata, hdropped⟩ := h
  constructor <;> simp [queues, hpushed, hlook, hwalks, hpages, hstanding, hinstr, hdata, hdropped]

theorem Holds.step {e : MMUEvent} (h : c.Holds []) (hresync : NoResync e = true) (hsound : c.Sound cfg e)
    (hok : MMU.step cfg c e = .ok c') : c'.Holds [] := by
  cases e with
  | request theVaddr aType hasInstruction =>
    rw [← Except.ok.inj hok]
    exact Placed.push h
  | annul id =>
    rw [← Except.ok.inj hok]
    exact Placed.annul h hsound
  | memoryReply id value =>
    rw [← Except.ok.inj hok]
    exact h.setItem id ⟨rfl, rfl, rfl, fun hdone => hdone⟩
  | drive => exact h.drive hsound hok
  | resync regs => cases hresync
  | TLBReqIn theVaddr aType regs mem => exact h.TLBReqIn hok

theorem Holds.inProgress {w : Nat} (h : c.Holds []) (hw : w ∈ c.thePageWalkEntries) : c.InProgress w :=
  ⟨hw, h.going w hw⟩

theorem Holds.accounted (h : c.Holds []) : c.Accounted := by
  refine ⟨h.places, h.instr, h.data, h.annulled, fun s hs => ?_, fun p hp => ?_⟩
  · obtain ⟨w, hw, hpage, htype⟩ := h.parked s hs
    refine ⟨(h.marked _).mpr ⟨w, hw, hpage⟩, w, h.inProgress hw, hpage, ?_⟩
    have hmask : (c.item s).theVaddr &&& page (c.item w).theVaddr = page (c.item w).theVaddr := by
      rw [show page (c.item w).theVaddr = page (c.item s).theVaddr from hpage, page, ← BitVec.and_assoc,
        BitVec.and_self]
    simp [releases, hmask, htype]
  · obtain ⟨w, hw, hpage⟩ := (h.marked p).mp hp
    exact ⟨w, h.inProgress hw, hpage⟩

/-- A component as it is made, with nothing in its TLBs. -/
def fresh : MMU where
  item := fun _ => .create 0 .kNONE false
  pushed := 0
  theLookUpEntries := []
  thePageWalkEntries := []
  alreadyPW := []
  standingEntries := []
  thePageWalker := ⟨none, [], [], 0⟩
  theMMU := none
  theMMUInitialized := false
  theInstrTLB := ⟨64, []⟩
  theDataTLB := ⟨64, []⟩
  iTranslationReply := []
  dTranslationReply := []
  MemoryRequestOut := []
  dropped := []
  filled := []
  used := []
  resynced := none

/-- Hash tables that keep their entries in the order of insertion, and no perfect TLB. -/
def plain : Config where
  PerfectTLB := false
  order := ⟨fun l e => l ++ [e], fun l e => List.perm_append_singleton e l⟩
  outOfRange := fun _ => 0
  QEMU_logical_to_physical := fun _ a => a

theorem fresh_idle : fresh.Idle := ⟨rfl, rfl, rfl, rfl, rfl, rfl, rfl, rfl, rfl⟩

/-- The register object comes with a request of the trace mode; then an instruction request
    and a request of its page are made, and the walk of the first one runs to its end. -/
def pairRun (aType : eTLBtype) : List MMUEvent :=
  [.TLBReqIn 0x200000 .kDATA ⟨0x80100022, 0x1000, 0, 0⟩ (fun _ => 0x1), .request 0x3000 .kINST false,
    .request 0x3008 aType false, .drive, .drive, .memoryReply 0 0x40000001, .drive, .drive, .drive]

end MMU

end nMMU
