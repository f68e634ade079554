import Flexus.MMU.Component

/-!
# Replacement in the TLBs

A TLB holds each page at most once and never more pages than its size.
-/

namespace nMMU

/-! ## The entry that goes -/

namespace TLB

variable {b : TLB} {v : TLBentry}

theorem foldl_highest (l : List TLBentry) (e : TLBentry) :
    (l.foldl (fun res iter => if res.theRate < iter.theRate then iter else res) e ∈ e :: l) ∧
      ∀ x ∈ e :: l, x.theRate ≤
        (l.foldl (fun res iter => if res.theRate < iter.theRate then iter else res) e).theRate := by
  induction l generalizing e with
  | nil => simp
  | cons y l ih =>
    rw [List.foldl_cons]
    obtain ⟨hmem, hmost⟩ := ih (if e.theRate < y.theRate then y else e)
    have hbest : e.theRate ≤ (if e.theRate < y.theRate then y else e).theRate ∧
        y.theRate ≤ (if e.theRate < y.theRate then y else e).theRate := by
      split <;> omega
    have hfirst := hmost _ List.mem_cons_self
    constructor
    · obtain hsame | hlater := List.mem_cons.mp hmem
      · rw [hsame]
        split <;> simp
      · simp [hlater]
    · intro x hx
      obtain rfl | hx := List.mem_cons.mp hx
      · omega
      obtain rfl | hx := List.mem_cons.mp hx
      · omega
      · exact hmost x (List.mem_cons_of_mem _ hx)

/-- The victim is an entry, and no entry has a higher rate. -/
theorem victim_highest {l : List TLBentry} (h : victim l = some v) : v ∈ l ∧ ∀ e ∈ l, e.theRate ≤ v.theRate := by
  cases l with
  | nil => cases h
  | cons e l =>
    obtain rfl := Option.some.inj h
    exact foldl_highest l e

theorem exists_victim {l : List TLBentry} (h : l ≠ []) : ∃ v, victim l = some v := by
  cases l with
  | nil => exact absurd rfl h
  | cons e l => exact ⟨_, rfl⟩

/-- The pages of a TLB. -/
def pages (b : TLB) : List (BitVec 64) := b.theTLB.map TLBentry.theVaddr

theorem lookUp_isSome {a : BitVec 64} : (b.lookUp a).1.isSome = true ↔ a ∈ b.pages := by
  rw [lookUp, Option.isSome_map, ← not_iff_not, Bool.not_eq_true, Option.isSome_eq_false_iff,
    Option.isNone_iff_eq_none, Keyed.lookup_eq_none, pages]

theorem lookUp_pages {a : BitVec 64} : (b.lookUp a).2.pages = b.pages := by
  rw [lookUp, pages, pages, List.map_map]
  rfl

theorem evict_theSize : b.evict.theSize = b.theSize := by
  rw [evict]
  split <;> rfl

/-- An eviction takes out one entry of the highest rate. -/
theorem evict_spec (hunique : b.pages.Nodup) (hne : b.theTLB ≠ []) :
    ∃ v ∈ b.theTLB, (∀ e ∈ b.theTLB, e.theRate ≤ v.theRate) ∧ b.theTLB.Perm (v :: b.evict.theTLB) := by
  obtain ⟨v, hv⟩ := exists_victim hne
  obtain ⟨hmem, hmost⟩ := victim_highest hv
  refine ⟨v, hmem, hmost, ?_⟩
  rw [evict, hv]
  have herase : Keyed.erase TLBentry.theVaddr v.theVaddr b.theTLB = b.theTLB.erase v := by
    rw [(hunique.of_map _).erase_eq_filter]
    apply List.filter_congr
    intro e he
    have hkey : e.theVaddr = v.theVaddr ↔ e = v :=
      ⟨fun hsame => List.inj_on_of_nodup_map hunique he hmem hsame, congrArg _⟩
    simp only [bne, beq_eq_decide, hkey]
  show b.theTLB.Perm (v :: Keyed.erase TLBentry.theVaddr v.theVaddr b.theTLB)
  rw [herase]
  exact List.perm_cons_erase hmem

/-- The address of a page that is present is replaced. -/
theorem assign_of_mem (order : HashOrder) {a : BitVec 64} (p : BitVec 64) (h : a ∈ b.pages) :
    b.assign order a p = { b with
      theTLB := Keyed.alter TLBentry.theVaddr a (fun e => { e with thePaddr := p }) b.theTLB } := by
  obtain ⟨e, he⟩ : ∃ e, Keyed.lookup TLBentry.theVaddr b.theTLB a = some e := by
    rw [← Option.ne_none_iff_exists']
    intro hnone
    exact Keyed.lookup_eq_none.mp hnone h
  rw [assign, he]

/-- A new page comes into the TLB after one entry of a full TLB has gone. -/
theorem assign_of_not_mem (order : HashOrder) {a : BitVec 64} (p : BitVec 64) (h : a ∉ b.pages) :
    b.assign order a p = { b with
      theTLB := order.insert (if b.theTLB.length = b.theSize then b.evict else b).theTLB ⟨0, a, p⟩ } := by
  have hnone : Keyed.lookup TLBentry.theVaddr b.theTLB a = none := Keyed.lookup_eq_none.mpr h
  simp only [assign, hnone]
  split
  · rw [evict_theSize]
  · rfl

end TLB

/-! ## Runs -/

inductive TLBEvent where
  | lookUp (anAddress : BitVec 64)
  | assign (order : HashOrder) (anAddress aPaddr : BitVec 64)

/-- A TLB with its history: the number of lookups, what it was when the entry of a page was last
    hit or made, and the address last assigned to a page. -/
structure TLBHistory where
  tlb : TLB
  lookUps : Nat
  touched : BitVec 64 → Nat
  assigned : BitVec 64 → Option (BitVec 64)

namespace TLBHistory

def empty (aSize : Nat) : TLBHistory := ⟨⟨aSize, []⟩, 0, fun _ => 0, fun _ => none⟩

def step (s : TLBHistory) : TLBEvent → TLBHistory
  | .lookUp a =>
    { s with
      tlb := (s.tlb.lookUp a).2
      lookUps := s.lookUps + 1
      touched := if (s.tlb.lookUp a).1.isSome then Function.update s.touched a (s.lookUps + 1) else s.touched }
  | .assign order a p =>
    { s with
      tlb := s.tlb.assign order a p
      touched := if (s.tlb.lookUp a).1.isSome then s.touched else Function.update s.touched a s.lookUps
      assigned := Function.update s.assigned a (some p) }

/-- The events on an empty TLB of the given size. -/
def run (aSize : Nat) (es : List TLBEvent) : TLBHistory := es.foldl step (empty aSize)

variable (s : TLBHistory)

/-- The lookups since the entry of a page was last hit or made. -/
def age (a : BitVec 64) : Nat := s.lookUps - s.touched a

/-- The TLB agrees with its history. -/
structure Sound : Prop where
  bounded : s.tlb.theTLB.length ≤ s.tlb.theSize
  unique : s.tlb.pages.Nodup
  rate : ∀ e ∈ s.tlb.theTLB, e.theRate + s.touched e.theVaddr = s.lookUps
  address : ∀ e ∈ s.tlb.theTLB, s.assigned e.theVaddr = some e.thePaddr

/-- What assigning an address to a page does: a page that is present keeps its entry, and one that
    is not comes in, for an entry that is at least as old as every other if the TLB is full. -/
structure Replaces (order : HashOrder) (a p : BitVec 64) : Prop where
  present : a ∈ s.tlb.pages → (s.tlb.assign order a p).pages = s.tlb.pages
  room : a ∉ s.tlb.pages → s.tlb.theTLB.length < s.tlb.theSize →
    (s.tlb.assign order a p).theTLB.Perm (⟨0, a, p⟩ :: s.tlb.theTLB)
  full : a ∉ s.tlb.pages → s.tlb.theTLB.length = s.tlb.theSize →
    ∃ v ∈ s.tlb.theTLB, v.theVaddr ≠ a ∧ (∀ e ∈ s.tlb.theTLB, s.age e.theVaddr ≤ s.age v.theVaddr) ∧
      (⟨0, a, p⟩ :: s.tlb.theTLB).Perm (v :: (s.tlb.assign order a p).theTLB)

variable {s}

theorem Sound.age (h : s.Sound) {e : TLBentry} (he : e ∈ s.tlb.theTLB) : e.theRate = s.age e.theVaddr := by
  have hrate := h.rate e he
  rw [TLBHistory.age]
  omega

theorem Sound.find (h : s.Sound) (a : BitVec 64) :
    (s.tlb.lookUp a).1 = if a ∈ s.tlb.pages then s.assigned a else none := by
  rw [TLB.lookUp]
  cases hfound : Keyed.lookup TLBentry.theVaddr s.tlb.theTLB a with
  | none =>
    have hmiss : a ∉ s.tlb.pages := Keyed.lookup_eq_none.mp hfound
    rw [if_neg hmiss]
    rfl
  | some e =>
    obtain ⟨he, rfl⟩ := Keyed.mem_of_lookup hfound
    have hhit : e.theVaddr ∈ s.tlb.pages := List.mem_map_of_mem he
    rw [if_pos hhit, h.address e he]
    rfl

theorem Sound.replaces (h : s.Sound) (hsize : 1 ≤ s.tlb.theSize) (order : HashOrder) (a p : BitVec 64) :
    s.Replaces order a p where
  present := by
    intro hin
    rw [TLB.assign_of_mem order p hin]
    exact Keyed.map_alter fun e => rfl
  room := by
    intro hout hroom
    rw [TLB.assign_of_not_mem order p hout, if_neg (by omega)]
    exact order.perm _ _
  full := by
    intro hout hfull
    have hne : s.tlb.theTLB ≠ [] := List.ne_nil_of_length_pos (by omega)
    obtain ⟨v, hv, hmost, hperm⟩ := TLB.evict_spec h.unique hne
    refine ⟨v, hv, fun hpage => hout (hpage ▸ List.mem_map_of_mem hv), fun e he => ?_, ?_⟩
    · rw [← h.age he, ← h.age hv]
      exact hmost e he
    · rw [TLB.assign_of_not_mem order p hout, if_pos hfull]
      calc (⟨0, a, p⟩ :: s.tlb.theTLB).Perm (⟨0, a, p⟩ :: v :: s.tlb.evict.theTLB) := hperm.cons _
        _ |>.Perm (v :: ⟨0, a, p⟩ :: s.tlb.evict.theTLB) := .swap _ _ _
        _ |>.Perm _ := (order.perm _ _).symm.cons _

theorem Sound.lookUp (h : s.Sound) (a : BitVec 64) : (s.step (.lookUp a)).Sound where
  bounded := by
    simpa only [step, TLB.lookUp, List.length_map] using h.bounded
  unique := by
    simpa only [step, TLB.lookUp_pages] using h.unique
  rate := by
    intro e he
    obtain ⟨x, hx, rfl⟩ := List.mem_map.mp he
    have hrate := h.rate x hx
    simp only [step]
    by_cases hpage : x.theVaddr = a
    · have hhit : a ∈ s.tlb.pages := hpage ▸ List.mem_map_of_mem hx
      rw [if_pos hpage, if_pos (TLB.lookUp_isSome.mpr hhit), hpage, Function.update_self]
      omega
    · rw [if_neg hpage]
      split
      · rw [Function.update_of_ne hpage]
        omega
      · omega
  address := by
    intro e he
    obtain ⟨x, hx, rfl⟩ := List.mem_map.mp he
    exact h.address x hx

/-- A TLB into which a page came, whatever went. -/
theorem Sound.insert (h : s.Sound) {order : HashOrder} {a p : BitVec 64} {kept : List TLBentry}
    (hout : a ∉ s.tlb.pages) (hkept : ∀ e ∈ kept, e ∈ s.tlb.theTLB) (hunique : (kept.map TLBentry.theVaddr).Nodup)
    (hroom : kept.length < s.tlb.theSize)
    (hassign : s.tlb.assign order a p = { s.tlb with theTLB := order.insert kept ⟨0, a, p⟩ }) :
    (s.step (.assign order a p)).Sound := by
  have hmiss : ¬ (s.tlb.lookUp a).1.isSome = true := fun hhit => hout (TLB.lookUp_isSome.mp hhit)
  have hperm := order.perm kept ⟨0, a, p⟩
  have hother : ∀ e ∈ kept, e.theVaddr ≠ a := by
    rintro e he rfl
    exact hout (List.mem_map_of_mem (hkept e he))
  constructor
  · simp only [step, hassign, hperm.length_eq, List.length_cons]
    omega
  · simp only [step, hassign, TLB.pages]
    rw [(hperm.map _).nodup_iff, List.map_cons, List.nodup_cons]
    refine ⟨fun hin => ?_, hunique⟩
    obtain ⟨e, he, hpage⟩ := List.mem_map.mp hin
    exact hother e he hpage
  · intro e he
    simp only [step, hassign] at he
    simp only [step, if_neg hmiss]
    obtain rfl | he := List.mem_cons.mp (hperm.mem_iff.mp he)
    · rw [Function.update_self, Nat.zero_add]
    · rw [Function.update_of_ne (hother e he)]
      exact h.rate e (hkept e he)
  · intro e he
    simp only [step, hassign] at he
    simp only [step]
    obtain rfl | he := List.mem_cons.mp (hperm.mem_iff.mp he)
    · rw [Function.update_self]
    · rw [Function.update_of_ne (hother e he)]
      exact h.address e (hkept e he)

theorem Sound.assign (h : s.Sound) (hsize : 1 ≤ s.tlb.theSize) (order : HashOrder) (a p : BitVec 64) :
    (s.step (.assign order a p)).Sound := by
  by_cases hin : a ∈ s.tlb.pages
  · have hhit := TLB.lookUp_isSome.mpr hin
    have hassign := TLB.assign_of_mem order p hin
    constructor
    · simp only [step, hassign, Keyed.length_alter]
      exact h.bounded
    · have hpages := (h.replaces hsize order a p).present hin
      simp only [step, hpages]
      exact h.unique
    · intro e he
      simp only [step, hassign] at he
      simp only [step, if_pos hhit]
      obtain ⟨x, hx, rfl⟩ := List.mem_map.mp he
      split <;> exact h.rate x hx
    · intro e he
      simp only [step, hassign] at he
      simp only [step]
      obtain ⟨x, hx, rfl⟩ := List.mem_map.mp he
      by_cases hpage : x.theVaddr = a
      · rw [if_pos hpage, hpage, Function.update_self]
      · rw [if_neg hpage, Function.update_of_ne hpage]
        exact h.address x hx
  · have hassign := TLB.assign_of_not_mem order p hin
    have hbounded := h.bounded
    by_cases hfull : s.tlb.theTLB.length = s.tlb.theSize
    · have hne : s.tlb.theTLB ≠ [] := List.ne_nil_of_length_pos (by omega)
      obtain ⟨v, -, -, hperm⟩ := TLB.evict_spec h.unique hne
      rw [if_pos hfull] at hassign
      apply h.insert hin _ _ _ hassign
      · intro e he
        exact hperm.mem_iff.mpr (List.mem_cons_of_mem _ he)
      · have hpages := (hperm.map TLBentry.theVaddr).nodup_iff.mp h.unique
        exact (List.nodup_cons.mp hpages).2
      · have hlength := hperm.length_eq
        rw [List.length_cons] at hlength
        omega
    · rw [if_neg hfull] at hassign
      exact h.insert hin (fun e he => he) h.unique (by omega) hassign

theorem step_theSize (e : TLBEvent) : (s.step e).tlb.theSize = s.tlb.theSize := by
  cases e with
  | lookUp a => rfl
  | assign order a p =>
    by_cases hin : a ∈ s.tlb.pages
    · rw [step, TLB.assign_of_mem _ _ hin]
    · rw [step, TLB.assign_of_not_mem _ _ hin]

theorem sound_empty (aSize : Nat) : (empty aSize).Sound :=
  ⟨Nat.zero_le _, List.nodup_nil, by simp [empty], by simp [empty]⟩

/-- The TLB agrees with its history in every run. -/
theorem run_sound {aSize : Nat} (hsize : 1 ≤ aSize) (es : List TLBEvent) :
    (run aSize es).Sound ∧ (run aSize es).tlb.theSize = aSize := by
  induction es using List.reverseRecOn with
  | nil => exact ⟨sound_empty aSize, rfl⟩
  | append_singleton es e ih =>
    obtain ⟨hsound, hsame⟩ := ih
    rw [run, List.foldl_append, List.foldl_cons, List.foldl_nil, ← run]
    refine ⟨?_, (step_theSize e).trans hsame⟩
    cases e with
    | lookUp a => exact hsound.lookUp a
    | assign order a p => exact hsound.assign (hsize.trans hsame.ge) order a p

end TLBHistory

/-- After every sequence of lookups and assignments a TLB of at least one entry holds no more
    entries than its size and no page twice, a lookup finds the address last assigned to a page
    that is present, the rate of an entry is the number of lookups since it was last hit or made,
    and a page that comes into a full TLB takes the place of an entry for which that number is
    highest. -/
theorem TLBHistory.run_least_recently_used {aSize : Nat} (hsize : 1 ≤ aSize) (es : List TLBEvent) :
    (run aSize es).tlb.theTLB.length ≤ aSize ∧ (run aSize es).tlb.pages.Nodup ∧
      (∀ a, ((run aSize es).tlb.lookUp a).1 =
        if a ∈ (run aSize es).tlb.pages then (run aSize es).assigned a else none) ∧
      (∀ a ∈ (run aSize es).tlb.pages, ((run aSize es).assigned a).isSome) ∧
      (∀ e ∈ (run aSize es).tlb.theTLB, e.theRate = (run aSize es).age e.theVaddr) ∧
      (run aSize es).tlb.theSize = aSize ∧
      ∀ order a p, (run aSize es).Replaces order a p := by
  obtain ⟨hsound, hsame⟩ := run_sound hsize es
  refine ⟨hsound.bounded.trans hsame.le, hsound.unique, hsound.find, ?_, fun e he => hsound.age he, hsame,
    hsound.replaces (hsize.trans hsame.ge)⟩
  intro a ha
  obtain ⟨e, he, rfl⟩ := List.mem_map.mp ha
  rw [hsound.address e he]
  rfl

/-- New entries come first. -/
def frontOrder : HashOrder where
  insert l e := e :: l
  perm _ _ := .refl _

/-- Two pages come into a TLB of two entries, and the first of them is used again. -/
def twoPages : List TLBEvent :=
  [.assign frontOrder 0x1000 0x8000, .assign frontOrder 0x2000 0x9000, .lookUp 0x1000]

/-- The other one is older, and the next page takes its place. -/
theorem TLBHistory.run_least_recently_used_two :
    (run 2 twoPages).tlb.theTLB = [⟨1, 0x2000, 0x9000⟩, ⟨0, 0x1000, 0x8000⟩] ∧
      (run 2 twoPages).Replaces frontOrder 0x3000 0xA000 := by
  obtain ⟨-, -, -, -, -, -, hreplaces⟩ := run_least_recently_used (Nat.le_succ 1) twoPages
  exact ⟨by decide, hreplaces frontOrder 0x3000 0xA000⟩

end nMMU
