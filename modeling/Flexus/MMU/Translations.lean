import Flexus.MMU.Requests

/-!
# What the TLBs hold

Every entry of a TLB is one that was written to it, and what is written is the page-aligned
output of a walk of that page that ended without a fault, as long as no walk that ends faults
and the walker's register object is the one of the latest resynchronization when it is used.
-/

namespace nMMU

open Runs

/-! ## Walks that end -/

/-- The walk did not fault, neither as a page fault nor as a resynchronization of its
    instruction. -/
def Translation.Faultless (t : Translation) : Prop := t.thePageFault = false ∧ t.resync = false

instance (t : Translation) : Decidable t.Faultless := inferInstanceAs (Decidable (_ ∧ _))

/-- The same address, and the same outcome of a walk. -/
structure Translation.Outcome (t t' : Translation) : Prop where
  theVaddr : t'.theVaddr = t.theVaddr
  thePaddr : t'.thePaddr = t.thePaddr
  theDone : t'.theDone = t.theDone
  thePageFault : t'.thePageFault = t.thePageFault
  resync : t'.resync = t.resync

/-- The request is as a last lookup of a walk left it. -/
def Translation.Walked (t : Translation) : Prop :=
  ∃ (m : mmu_t) (w w' : Walk), w.basic.theDone = false ∧ m.walk w = .ok w' ∧ w'.basic.theDone = true ∧
    w'.basic.Outcome t

theorem Translation.Outcome.trans {t t' t'' : Translation} (h : t.Outcome t') (h' : t'.Outcome t'') :
    t.Outcome t'' :=
  ⟨h'.theVaddr.trans h.theVaddr, h'.thePaddr.trans h.thePaddr, h'.theDone.trans h.theDone,
    h'.thePageFault.trans h.thePageFault, h'.resync.trans h.resync⟩

theorem Translation.Walked.outcome {t t' : Translation} (h : t.Walked) (hsame : t.Outcome t') : t'.Walked := by
  obtain ⟨m, w, w', hgoing, hwalk, hdone, hend⟩ := h
  exact ⟨m, w, w', hgoing, hwalk, hdone, hend.trans hsame⟩

/-- A walk whose next descriptor was read. -/
def loaded (mem : BitVec 64 → BitVec 64) (w : Walk) : Walk :=
  let w := mmu_t.preTranslate w
  { w with basic := { w.basic with
      rawTTEValue := mem w.trace_address
      trace_addresses := w.basic.trace_addresses ++ [w.trace_address] } }

theorem loaded_same {mem : BitVec 64 → BitVec 64} {w : Walk} : w.basic.Same (loaded mem w).basic :=
  (same_preTranslate (w := w)).trans ⟨rfl, rfl, rfl, fun hdone => hdone⟩

theorem loaded_theDone {mem : BitVec 64 → BitVec 64} {w : Walk} : (loaded mem w).basic.theDone = w.basic.theDone := by
  rw [loaded, mmu_t.preTranslate]
  split <;> rfl

/-- The walk of the trace mode ends with a last lookup. -/
theorem walked_of_lookups {m : mmu_t} {mem : BitVec 64 → BitVec 64} {fuel : Nat} {w w' : Walk}
    (hgoing : w.basic.theDone = false) (h : m.lookups mem fuel w = .ok w') :
    w'.basic.Walked ∧ w'.basic.theDone = true ∧ w'.basic.theVaddr = w.basic.theVaddr ∧
      w'.basic.theTLBtype = w.basic.theTLBtype := by
  induction fuel generalizing w with
  | zero => cases h
  | succ fuel ih =>
    rw [mmu_t.lookups] at h
    obtain ⟨mid, hmid, hrest⟩ := bind_eq_ok.mp h
    have hwalk : m.walk (loaded mem w) = .ok mid := hmid
    have hsame := loaded_same.trans (same_walk hwalk)
    split at hrest
    · rename_i hdone
      rw [← pure_eq_ok.mp hrest]
      exact ⟨⟨m, loaded mem w, mid, loaded_theDone.trans hgoing, hwalk, hdone, ⟨rfl, rfl, rfl, rfl, rfl⟩⟩, hdone,
        hsame.theVaddr, hsame.theTLBtype⟩
    · rename_i hdone
      obtain ⟨hwalked, hend, hva, htype⟩ := ih (Bool.not_eq_true _ ▸ hdone) hrest
      exact ⟨hwalked, hend, hva.trans hsame.theVaddr, htype.trans hsame.theTLBtype⟩

theorem setDone_eq {t t' : Translation} (h : t.setDone = .ok t') : t' = { t with theDone := true } := by
  rw [Translation.setDone] at h
  split at h
  · cases h
  · exact (Except.ok.inj h).symm

theorem getInitialLookupLevel_le (g : TranslationGranule) : g.getInitialLookupLevel ≤ 3 := by
  rw [TranslationGranule.getInitialLookupLevel]
  split
  · split
    · decide
    · split <;> decide
  · split
    · split
      · decide
      · split
        · decide
        · split <;> decide
    · split
      · split
        · decide
        · split <;> decide
      · decide

/-- What a new walk is. -/
theorem InitialTranslationSetup_cases {m : mmu_t} {outOfRange : Nat → BitVec 64} {t : Translation} {w : Walk}
    (h : m.InitialTranslationSetup outOfRange t = .ok (some w)) :
    w.basic = t ∧ w.stateful.currentLookupLevel ≤ 3 := by
  rw [mmu_t.InitialTranslationSetup] at h
  dsimp only at h
  split at h
  · cases h
  · obtain ⟨size, -, hrest⟩ := bind_eq_ok.mp h
    obtain ⟨r, -, hrest⟩ := bind_eq_ok.mp hrest
    rw [← Option.some.inj (pure_eq_ok.mp hrest)]
    exact ⟨rfl, getInitialLookupLevel_le _⟩

/-- The offset in its page. -/
theorem page_eq_self_iff {a : BitVec 64} : page a = a ↔ a &&& 0xFFF#64 = 0#64 := by
  rw [page, PAGEMASK]
  constructor
  · intro h
    rw [← h, BitVec.and_assoc]
    simp
  · intro h
    have hsplit : a = (a &&& ~~~0xFFF#64) ||| (a &&& 0xFFF#64) := by
      rw [← BitVec.and_or_distrib_left, show ~~~0xFFF#64 ||| 0xFFF#64 = BitVec.allOnes 64 from by decide,
        BitVec.and_allOnes]
    rw [h, BitVec.or_zero] at hsplit
    exact hsplit.symm

/-- The output bits of a descriptor are aligned to a page. -/
theorem getBlockOutputBits_aligned (r : TTResolver) (raw : BitVec 64) : r.getBlockOutputBits raw &&& 0xFFF#64 = 0#64 := by
  have hshift : ∀ (v : BitVec 64) (n : Nat), 12 ≤ n → v <<< n &&& 0xFFF#64 = 0#64 := by
    intro v n hn
    apply BitVec.eq_of_getLsbD_eq
    intro i hi
    rw [BitVec.getLsbD_and, BitVec.getLsbD_shiftLeft, BitVec.getLsbD_zero]
    by_cases hlow : i < n
    · simp [hlow]
    · have hmask : (0xFFF#64).getLsbD i = false := by
        have hlarge : 2 ^ 12 ≤ 2 ^ i := Nat.pow_le_pow_right (by decide) (by omega)
        apply Nat.testBit_lt_two_pow
        exact Nat.lt_of_lt_of_le (by decide) hlarge
      rw [hmask, Bool.and_false]
  unfold TTResolver.getBlockOutputBits
  split
  · exact hshift _ _ (by omega)
  · exact hshift _ _ (by omega)
  · exact hshift _ _ (by omega)
  · rfl

theorem not_faultless_of_raise {t t' t'' : Translation} (hraise : t.raise = .ok t') (hdone : t'.setDone = .ok t'') :
    ¬ t''.Faultless := by
  rw [setDone_eq hdone]
  rintro ⟨hfault, hresync⟩
  rw [Translation.raise, Translation.setPagefault] at hraise
  split at hraise
  · rw [← Except.ok.inj hraise] at hresync
    cases hresync
  · split at hraise
    · cases hraise
    · rw [← Except.ok.inj hraise] at hfault
      cases hfault

/-- A walk that ends without a fault gives an output at the same offset of a page as its
    address. -/
theorem walk_aligned {m : mmu_t} {w w' : Walk} (hgoing : w.basic.theDone = false) (h : m.walk w = .ok w')
    (hdone : w'.basic.theDone = true) (hfaultless : w'.basic.Faultless) (hva : page w.basic.theVaddr = w.basic.theVaddr) :
    page w'.basic.thePaddr = w'.basic.thePaddr := by
  have hor : ∀ bits mask : BitVec 64, bits &&& 0xFFF#64 = 0#64 →
      page (bits ||| (w.basic.theVaddr &&& mask)) = bits ||| (w.basic.theVaddr &&& mask) := by
    intro bits mask hbits
    rw [page_eq_self_iff] at hva ⊢
    rw [BitVec.and_or_distrib_right, hbits, BitVec.and_assoc, BitVec.and_comm mask, ← BitVec.and_assoc, hva,
      BitVec.zero_and, BitVec.zero_or]
  rw [mmu_t.walk] at h
  split at h
  · obtain ⟨t, ht, hrest⟩ := bind_eq_ok.mp h
    obtain ⟨t', ht', hrest⟩ := bind_eq_ok.mp hrest
    rw [← pure_eq_ok.mp hrest] at hfaultless
    exact absurd hfaultless (not_faultless_of_raise ht ht')
  · split at h
    · obtain ⟨t', ht', hrest⟩ := bind_eq_ok.mp h
      rw [← pure_eq_ok.mp hrest, setDone_eq ht']
      exact hor _ _ (getBlockOutputBits_aligned _ _)
    · split at h
      · obtain ⟨r, -, hrest⟩ := bind_eq_ok.mp h
        rw [← pure_eq_ok.mp hrest] at hdone
        rw [hgoing] at hdone
        cases hdone
      · obtain ⟨size, -, hrest⟩ := bind_eq_ok.mp h
        obtain ⟨t', ht', hrest⟩ := bind_eq_ok.mp hrest
        rw [← pure_eq_ok.mp hrest, setDone_eq ht']
        exact hor _ _ (getBlockOutputBits_aligned _ _)

/-! ## What is written to a TLB -/

/-- An entry maps a page to the page-aligned output of a walk of that page, which ended without
    a fault. -/
structure Fill.Valid (f : Fill) : Prop where
  key : f.key = page f.source.theVaddr
  value : f.value = page f.source.thePaddr
  done : f.source.theDone = true
  walked : f.source.Walked
  faultless : f.source.Faultless

/-- The entries of a TLB were written to it. -/
def TLB.Written (b : TLB) (fills : List Fill) (isInstr : Bool) : Prop :=
  ∀ e ∈ b.theTLB, ∃ f ∈ fills, f.source.isInstr = isInstr ∧ f.key = e.theVaddr ∧ f.value = e.thePaddr

namespace TLB

variable {b : TLB} {fills : List Fill} {isInstr : Bool}

theorem Written.mono {fills' : List Fill} (h : b.Written fills isInstr) (hmore : ∀ f ∈ fills, f ∈ fills') :
    b.Written fills' isInstr := by
  intro e he
  obtain ⟨f, hf, hsame⟩ := h e he
  exact ⟨f, hmore f hf, hsame⟩

/-- A lookup changes the rates. -/
theorem Written.lookUp (h : b.Written fills isInstr) (a : BitVec 64) : (b.lookUp a).2.Written fills isInstr := by
  intro e he
  obtain ⟨e', he', rfl⟩ := List.mem_map.mp he
  exact h e' he'

theorem evict_subset : ∀ e ∈ b.evict.theTLB, e ∈ b.theTLB := by
  intro e he
  rw [evict] at he
  split at he
  · exact he
  · exact (List.mem_filter.mp he).1

/-- An assignment writes one entry. -/
theorem Written.assign {f : Fill} (order : HashOrder) (h : b.Written fills isInstr) (hf : f.source.isInstr = isInstr) :
    (b.assign order f.key f.value).Written (fills ++ [f]) isInstr := by
  have hold := h.mono fun x hx => List.mem_append_left [f] hx
  have hnew : f ∈ fills ++ [f] := List.mem_append_right _ List.mem_cons_self
  intro e he
  rw [TLB.assign] at he
  split at he
  · obtain ⟨e', he', rfl⟩ := List.mem_map.mp he
    split
    · rename_i hkey
      exact ⟨f, hnew, hf, hkey.symm, rfl⟩
    · exact hold e' he'
  · obtain rfl | hkept := List.mem_cons.mp ((order.perm _ _).mem_iff.mp he)
    · exact ⟨f, hnew, hf, rfl, rfl⟩
    · apply hold
      split at hkept
      · exact evict_subset e hkept
      · exact hkept

/-- A lookup leaves the addresses that are found. -/
theorem lookUp_lookUp (b : TLB) (a x : BitVec 64) : ((b.lookUp a).2.lookUp x).1 = (b.lookUp x).1 := by
  have hfind : Keyed.lookup TLBentry.theVaddr
      (b.theTLB.map fun e => { e with theRate := if e.theVaddr = a then 0 else e.theRate + 1 }) x = _ :=
    Keyed.lookup_map fun e => rfl
  rw [TLB.lookUp, TLB.lookUp, TLB.lookUp, hfind, Option.map_map]
  rfl

end TLB

/-- What the TLBs hold was written to them, what was written is valid, and the register objects
    that were consulted are those of the latest resynchronization at the time. -/
structure Trusted (instr data : TLB) (fills : List Fill) (used : List (Option mmu_regs_t × mmu_t)) : Prop where
  instr : instr.Written fills true
  data : data.Written fills false
  valid : ∀ f ∈ fills, f.Valid
  current : ∀ r m, (some r, m) ∈ used → r.setupAddressSpaceSizesAndGranules = .ok m

namespace MMU

variable {cfg : Config} {c c' : MMU} {id : Nat} {t : Translation} {held : List Nat}

def Trusted (c : MMU) : Prop := nMMU.Trusted c.theInstrTLB c.theDataTLB c.filled c.used

theorem Trusted.tlb (h : c.Trusted) (t : Translation) : (c.tlb t).Written c.filled t.isInstr := by
  rw [MMU.tlb]
  split
  · rename_i hinstr
    rw [hinstr]
    exact h.instr
  · rename_i hinstr
    rw [Bool.not_eq_true] at hinstr
    rw [hinstr]
    exact h.data

theorem Trusted.setTLB {b : TLB} (h : c.Trusted) (hb : b.Written c.filled t.isInstr) : (c.setTLB t b).Trusted := by
  rw [MMU.setTLB]
  split
  · rename_i hinstr
    rw [hinstr] at hb
    exact ⟨hb, h.data, h.valid, h.current⟩
  · rename_i hinstr
    rw [Bool.not_eq_true] at hinstr
    rw [hinstr] at hb
    exact ⟨h.instr, hb, h.valid, h.current⟩

/-- A valid translation is written to the TLB of its type. -/
theorem Trusted.fill {f : Fill} (order : HashOrder) (h : c.Trusted) (htype : f.source.isInstr = t.isInstr)
    (hf : f.Valid) :
    Trusted { c.setTLB t ((c.tlb t).assign order f.key f.value) with filled := c.filled ++ [f] } := by
  have hwritten := (h.tlb t).assign order htype
  have hall : ∀ x ∈ c.filled ++ [f], x.Valid := by
    intro x hx
    obtain hold | hnew := List.mem_append.mp hx
    · exact h.valid x hold
    · rw [List.mem_singleton.mp hnew]
      exact hf
  have hmore : ∀ x ∈ c.filled, x ∈ c.filled ++ [f] := fun x hx => List.mem_append_left _ hx
  rw [MMU.setTLB]
  split
  · rename_i hinstr
    rw [hinstr] at hwritten
    exact ⟨hwritten, h.data.mono hmore, hall, h.current⟩
  · rename_i hinstr
    rw [Bool.not_eq_true] at hinstr
    rw [hinstr] at hwritten
    exact ⟨h.instr.mono hmore, hwritten, hall, h.current⟩

end MMU

/-! ## The requests -/

/-- The requests that wait for a lookup or behind a walk, those `held` among them, are new
    ones; those being walked are others, and end with the last lookup of a walk. -/
structure Apart (item : Nat → Translation) (q : Queues) (held : List Nat) : Prop where
  nodup : (held ++ (q.lookUp ++ q.standing)).Nodup
  idle : ∀ id ∈ held ++ (q.lookUp ++ q.standing),
    id < q.pushed ∧ (item id).theDone = false ∧ (item id).theWaiting = false
  apart : ∀ id ∈ q.walks ++ q.transports, id < q.pushed ∧ id ∉ held ++ (q.lookUp ++ q.standing)
  walked : ∀ id ∈ q.walks, (item id).theDone = true → (item id).Walked

namespace Apart

variable {item item' : Nat → Translation} {q : Queues} {held : List Nat} {id : Nat}

theorem congr (h : Apart item q held)
    (hidle : ∀ x ∈ held ++ (q.lookUp ++ q.standing),
      (item' x).theDone = (item x).theDone ∧ (item' x).theWaiting = (item x).theWaiting)
    (hwalks : ∀ x ∈ q.walks, (item' x).theDone = true → (item' x).Walked) : Apart item' q held := by
  refine ⟨h.nodup, fun x hx => ?_, h.apart, hwalks⟩
  obtain ⟨hlt, hdone, hwaiting⟩ := h.idle x hx
  obtain ⟨hdone', hwaiting'⟩ := hidle x hx
  exact ⟨hlt, hdone'.trans hdone, hwaiting'.trans hwaiting⟩

/-- Requests that wait may be regrouped, and some of them forgotten. -/
theorem regroup {q' : Queues} {held' : List Nat} (h : Apart item q held)
    (hsub : ∃ l, List.Perm (l ++ (held' ++ (q'.lookUp ++ q'.standing))) (held ++ (q.lookUp ++ q.standing)))
    (hpushed : q'.pushed = q.pushed) (hwalks : ∀ x ∈ q'.walks, x ∈ q.walks)
    (htransports : ∀ x ∈ q'.transports, x ∈ q.transports) : Apart item q' held' := by
  obtain ⟨l, hperm⟩ := hsub
  have hmem : ∀ x ∈ held' ++ (q'.lookUp ++ q'.standing), x ∈ held ++ (q.lookUp ++ q.standing) := fun x hx =>
    hperm.mem_iff.mp (List.mem_append_right _ hx)
  refine ⟨?_, fun x hx => ?_, fun x hx => ?_, fun x hx => h.walked x (hwalks x hx)⟩
  · exact (List.nodup_append.mp (hperm.nodup_iff.mpr h.nodup)).2.1
  · rw [hpushed]
    exact h.idle x (hmem x hx)
  · have hbefore : x ∈ q.walks ++ q.transports := by
      obtain hw | ht := List.mem_append.mp hx
      · exact List.mem_append_left _ (hwalks x hw)
      · exact List.mem_append_right _ (htransports x ht)
    obtain ⟨hlt, hout⟩ := h.apart x hbefore
    exact ⟨hlt.trans_eq hpushed.symm, fun hin => hout (hmem x hin)⟩

/-- A held request starts a walk. -/
theorem start {p : BitVec 64} (h : Apart item q (id :: held)) : Apart item { q with
    walks := q.walks ++ [id]
    alreadyPW := q.alreadyPW ++ [p]
    transports := q.transports ++ [id] } held := by
  have hself := h.idle id List.mem_cons_self
  obtain ⟨hout, hnodup⟩ := List.nodup_cons.mp h.nodup
  refine ⟨hnodup, fun x hx => h.idle x (List.mem_cons_of_mem _ hx), fun x hx => ?_, fun x hx hdone => ?_⟩
  · have hcase : x ∈ q.walks ++ q.transports ∨ x = id := by
      simp only [List.mem_append, List.mem_singleton] at hx ⊢
      tauto
    obtain hold | rfl := hcase
    · obtain ⟨hlt, hnot⟩ := h.apart x hold
      exact ⟨hlt, fun hin => hnot (List.mem_cons_of_mem _ hin)⟩
    · exact ⟨hself.1, hout⟩
  · obtain hold | hnew := List.mem_append.mp hx
    · exact h.walked x hold hdone
    · rw [List.mem_singleton.mp hnew, hself.2.1] at hdone
      cases hdone

/-- A new request is queued. -/
theorem push {t : Translation} (h : Apart item q held) (hdone : t.theDone = false) (hwaiting : t.theWaiting = false) :
    Apart (Function.update item q.pushed t) { q with pushed := q.pushed + 1, lookUp := q.lookUp ++ [q.pushed] }
      held := by
  have hperm : (q.pushed :: (held ++ (q.lookUp ++ q.standing))).Perm
      (held ++ ((q.lookUp ++ [q.pushed]) ++ q.standing)) := by
    apply List.perm_iff_count.mpr
    intro a
    simp only [List.count_append, List.count_cons, List.count_nil]
    omega
  have hnew : q.pushed ∉ held ++ (q.lookUp ++ q.standing) := fun hin => Nat.lt_irrefl _ (h.idle _ hin).1
  refine ⟨hperm.nodup_iff.mp (List.nodup_cons.mpr ⟨hnew, h.nodup⟩), fun x hx => ?_, fun x hx => ?_, fun x hx => ?_⟩
  · obtain rfl | hold := List.mem_cons.mp (hperm.mem_iff.mpr hx)
    · rw [Function.update_self]
      exact ⟨Nat.lt_succ_self _, hdone, hwaiting⟩
    · obtain ⟨hlt, hrest⟩ := h.idle x hold
      rw [Function.update_of_ne (Nat.ne_of_lt hlt)]
      exact ⟨Nat.lt_succ_of_lt hlt, hrest⟩
  · obtain ⟨hlt, hout⟩ := h.apart x hx
    refine ⟨Nat.lt_succ_of_lt hlt, fun hin => ?_⟩
    obtain rfl | hold := List.mem_cons.mp (hperm.mem_iff.mpr hin)
    · exact Nat.lt_irrefl _ hlt
    · exact hout hold
  · obtain ⟨hlt, -⟩ := h.apart x (List.mem_append_left _ hx)
    rw [Function.update_of_ne (Nat.ne_of_lt hlt)]
    exact h.walked x hx

/-- A request that does not wait moves on. -/
theorem move {t : Translation} (h : Apart item q held) (hid : id ∉ held ++ (q.lookUp ++ q.standing))
    (hend : id ∈ q.walks → t.theDone = true → t.Walked) : Apart (Function.update item id t) q held := by
  apply h.congr
  · intro x hx
    have hne : x ≠ id := fun heq => hid (heq ▸ hx)
    rw [Function.update_of_ne hne]
    exact ⟨rfl, rfl⟩
  · intro x hx hdone
    by_cases heq : x = id
    · subst heq
      rw [Function.update_self] at hdone ⊢
      exact hend hx hdone
    · rw [Function.update_of_ne heq] at hdone ⊢
      exact h.walked x hx hdone

/-- A held request leaves, whatever becomes of it. -/
theorem settle {t : Translation} (h : Apart item q (id :: held)) : Apart (Function.update item id t) q held := by
  have hleft : Apart item q held := h.regroup ⟨[id], .refl _⟩ rfl (fun _ hx => hx) fun _ hx => hx
  apply hleft.move
  · exact (List.nodup_cons.mp h.nodup).1
  · intro hw
    exact absurd List.mem_cons_self (h.apart id (List.mem_append_left _ hw)).2

end Apart

namespace MMU

variable {cfg : Config} {c c' : MMU} {id : Nat} {t : Translation} {held : List Nat}

/-- What is true of a component between the steps, with `held` taken out of a queue. -/
structure Kept (c : MMU) (held : List Nat) : Prop where
  trusted : c.Trusted
  apart : Apart c.item c.queues held
  initialized : c.theMMUInitialized = false → c.resynced = none

/-- The walker's register object is the one of the latest resynchronization. -/
def Current (c : MMU) : Prop :=
  ∀ r ∈ c.resynced, ∀ m ∈ c.thePageWalker.theMMU, r.setupAddressSpaceSizesAndGranules = .ok m

instance : Decidable c.Current := inferInstanceAs (Decidable (∀ r ∈ c.resynced, ∀ m ∈ c.thePageWalker.theMMU, _))

theorem Trusted.note {m : mmu_t} (h : c.Trusted) (hcurrent : c.Current) (hm : c.thePageWalker.theMMU = some m) :
    (c.note m).Trusted := by
  refine ⟨h.instr, h.data, h.valid, fun r m' hmem => ?_⟩
  obtain hold | hnew := List.mem_append.mp hmem
  · exact h.current r m' hold
  · obtain ⟨hr, rfl⟩ := Prod.mk.inj (List.mem_singleton.mp hnew)
    exact hcurrent r hr.symm m' hm

theorem setTLB_eq (c : MMU) (t : Translation) (b : TLB) :
    ∃ i d, c.setTLB t b = { c with theInstrTLB := i, theDataTLB := d } := by
  rw [setTLB]
  split
  · exact ⟨_, _, rfl⟩
  · exact ⟨_, _, rfl⟩

theorem answer_eq (c : MMU) (id : Nat) :
    ∃ i d, c.answer id = { c with iTranslationReply := i, dTranslationReply := d } := by
  rw [MMU.answer]
  split
  · exact ⟨_, _, rfl⟩
  · exact ⟨_, _, rfl⟩

theorem Kept.setTLB {b : TLB} (h : c.Kept held) (hb : b.Written c.filled t.isInstr) : (c.setTLB t b).Kept held := by
  have htrusted := h.trusted.setTLB hb
  obtain ⟨i, d, heq⟩ := setTLB_eq c t b
  rw [heq] at htrusted ⊢
  exact ⟨htrusted, h.apart, h.initialized⟩

theorem Kept.answer (h : c.Kept held) (id : Nat) : (c.answer id).Kept held := by
  obtain ⟨i, d, heq⟩ := answer_eq c id
  rw [heq]
  exact ⟨h.trusted, h.apart.regroup ⟨[], .refl _⟩ rfl (fun _ hx => hx) fun _ hx => hx, h.initialized⟩

theorem Kept.hit {a : BitVec 64} (h : c.Kept (id :: held)) : (c.hit id t a).Kept held := by
  rw [MMU.hit]
  apply Kept.answer
  exact ⟨h.trusted, h.apart.settle, h.initialized⟩

theorem Kept.stand (h : c.Kept (id :: held)) : (c.stand id).Kept held := by
  refine ⟨h.trusted, h.apart.regroup ⟨[], ?_⟩ rfl (fun _ hx => hx) (fun _ hx => hx), h.initialized⟩
  apply List.perm_iff_count.mpr
  intro a
  simp only [MMU.stand, queues, List.nil_append, List.count_append, List.count_cons, List.count_nil]
  omega

theorem Kept.started {m : mmu_t} {w : Walk} (h : c.Kept (id :: held)) (hcurrent : c.Current)
    (hm : c.thePageWalker.theMMU = some m) : (c.started id m w).Kept held := by
  have hstart : Apart c.item (MMU.queues (c.started id m w)) held := by
    have hqueues := h.apart.start (p := page (c.item id).theVaddr)
    simpa [MMU.started, queues, MMU.setItem] using hqueues
  have hidle := h.apart.idle id List.mem_cons_self
  refine ⟨h.trusted.note hcurrent hm, hstart.move (List.nodup_cons.mp h.apart.nodup).1 fun _ hdone => ?_,
    h.initialized⟩
  rw [hidle.2.1] at hdone
  cases hdone

/-- A round of the first loop keeps what the component holds, if the register object is
    current when a walk would start. -/
theorem Kept.lookupEntry (h : c.Kept (id :: held))
    (hcurrent : c.Misses cfg id → page (c.item id).theVaddr ∉ c.alreadyPW → c.Current)
    (hok : c.lookupEntry cfg id = .ok c') : c'.Kept held := by
  have hlooked : (c.looked id).Kept (id :: held) := h.setTLB ((h.trusted.tlb _).lookUp _)
  obtain ⟨-, ⟨t, a, -, rfl⟩ | ⟨-, -, rfl⟩ | ⟨hmiss, hfree, hstart⟩⟩ := lookupEntry_cases hok
  · exact hlooked.hit
  · exact hlooked.stand
  · have hlookedCurrent : (c.looked id).Current := by
      obtain ⟨i, d, heq⟩ := setTLB_eq c (c.item id) ((c.tlb (c.item id)).lookUp (page (c.item id).theVaddr)).2
      rw [looked, heq]
      exact hcurrent hmiss hfree
    rw [← looked_item c id] at hstart
    obtain ⟨m, hm, ⟨a, rfl⟩ | ⟨w, rfl⟩⟩ := startWalk_cases hstart
    · have hnoted : ((c.looked id).note m).Kept (id :: held) :=
        ⟨hlooked.trusted.note hlookedCurrent hm, hlooked.apart, hlooked.initialized⟩
      exact hnoted.hit
    · exact hlooked.started hlookedCurrent hm

/-- What a round of the first loop leaves to the next ones: the registers, the marks, and what
    the other requests will find. -/
structure Leaves (c c' : MMU) (id : Nat) : Prop where
  resynced : c'.resynced = c.resynced
  theMMU : c'.thePageWalker.theMMU = c.thePageWalker.theMMU
  marks : ∀ p ∈ c.alreadyPW, p ∈ c'.alreadyPW
  item : ∀ x, x ≠ id → c'.item x = c.item x
  found : ∀ t a, ((c'.tlb t).lookUp a).1 = ((c.tlb t).lookUp a).1
  walks : c'.thePageWalkEntries = c.thePageWalkEntries ∨
    c'.thePageWalkEntries = c.thePageWalkEntries ++ [id] ∧ (c'.item id).theDone = (c.item id).theDone
  transports : c'.thePageWalker.theTranslationTransports = c.thePageWalker.theTranslationTransports ∨
    ∃ st, c'.thePageWalker.theTranslationTransports = c.thePageWalker.theTranslationTransports ++ [(id, st)] ∧
      (c'.item id).theWaiting = (c.item id).theWaiting

theorem found_looked (c : MMU) (id : Nat) (t : Translation) (a : BitVec 64) :
    (((c.looked id).tlb t).lookUp a).1 = ((c.tlb t).lookUp a).1 := by
  rw [looked, MMU.setTLB, MMU.tlb, MMU.tlb, MMU.tlb]
  cases hid : (c.item id).isInstr <;> cases ht : t.isInstr <;> simp [TLB.lookUp_lookUp]

theorem leaves_looked (c : MMU) (id : Nat) : Leaves c (c.looked id) id := by
  have hfound := found_looked c id
  obtain ⟨i, d, heq⟩ := setTLB_eq c (c.item id) ((c.tlb (c.item id)).lookUp (page (c.item id).theVaddr)).2
  rw [looked, heq] at hfound ⊢
  exact ⟨rfl, rfl, fun _ hp => hp, fun _ _ => rfl, hfound, .inl rfl, .inl rfl⟩

theorem lookupEntry_leaves (hok : c.lookupEntry cfg id = .ok c') : Leaves c c' id := by
  have hlooked := leaves_looked c id
  have hwalks : (c.looked id).thePageWalkEntries = c.thePageWalkEntries := setTLB_thePageWalkEntries _
  have hwalker : (c.looked id).thePageWalker = c.thePageWalker := by
    obtain ⟨i, d, heq⟩ := setTLB_eq c (c.item id) ((c.tlb (c.item id)).lookUp (page (c.item id).theVaddr)).2
    rw [looked, heq]
  have hanswered : ∀ (l : MMU) (t : Translation) (a : BitVec 64), l.thePageWalkEntries = c.thePageWalkEntries →
      l.thePageWalker = c.thePageWalker → Leaves c l id → Leaves c (l.hit id t a) id := by
    intro l t a hlwalks hlwalker hl
    rw [MMU.hit]
    obtain ⟨i, d, heq⟩ := answer_eq (l.setItem id { t with theTLBstatus := .kTLBhit, thePaddr := a }) id
    rw [heq]
    exact ⟨hl.resynced, hl.theMMU, hl.marks, fun x hx => (Function.update_of_ne hx _ _).trans (hl.item x hx), hl.found,
      .inl hlwalks, .inl (congrArg PageWalk.theTranslationTransports hlwalker)⟩
  obtain ⟨-, ⟨t, a, -, rfl⟩ | ⟨-, -, rfl⟩ | ⟨-, -, hstart⟩⟩ := lookupEntry_cases hok
  · exact hanswered _ t a hwalks hwalker hlooked
  · exact ⟨hlooked.resynced, hlooked.theMMU, hlooked.marks, hlooked.item, hlooked.found, hlooked.walks,
      hlooked.transports⟩
  · rw [← looked_item c id] at hstart
    obtain ⟨m, hm, ⟨a, rfl⟩ | ⟨w, rfl⟩⟩ := startWalk_cases hstart
    · apply hanswered ((c.looked id).note m) _ a hwalks hwalker
      exact ⟨hlooked.resynced, hlooked.theMMU, hlooked.marks, hlooked.item, hlooked.found, hlooked.walks,
        hlooked.transports⟩
    · have hself : ((c.looked id).started id m w).item id =
          { (c.looked id).item id with theTLBstatus := .kTLBmiss } := Function.update_self ..
      refine ⟨hlooked.resynced, hlooked.theMMU, fun p hp => List.mem_append_left _ (hlooked.marks p hp),
        fun x hx => (Function.update_of_ne hx _ _).trans (hlooked.item x hx), hlooked.found, .inr ⟨?_, ?_⟩,
        .inr ⟨w.stateful, ?_, ?_⟩⟩
      · exact congrArg (· ++ [id]) hwalks
      · rw [hself, looked_item]
      · exact congrArg (fun p => p.theTranslationTransports ++ [(id, w.stateful)]) hwalker
      · rw [hself, looked_item]

/-- The walk at the front of the walker is about to look at a descriptor. -/
def Descends (c : MMU) : Prop :=
  ∃ e ∈ c.thePageWalker.theTranslationTransports.head?,
    (c.item e.1).theDone = false ∧ (c.item e.1).theReady = true ∧ (c.item e.1).theWaiting = true

instance : Decidable c.Descends :=
  match h : c.thePageWalker.theTranslationTransports.head? with
  | none => .isFalse fun ⟨e, he, _⟩ => by rw [h] at he; cases he
  | some e => decidable_of_iff ((c.item e.1).theDone = false ∧ (c.item e.1).theReady = true ∧
      (c.item e.1).theWaiting = true) (by simp [Descends, h])

/-- The walks that the second loop completes did not fault. -/
def EndsSound (item : Nat → Translation) : List Nat → Prop
  | [] => True
  | id :: rest =>
    if (item id).theAnnul then EndsSound item rest
    else if (item id).theDone then (item id).Faultless ∧ EndsSound item rest
    else True

instance EndsSound.decidable {item : Nat → Translation} : ∀ ids, Decidable (EndsSound item ids)
  | [] => .isTrue trivial
  | _ :: rest =>
    have : Decidable (EndsSound item rest) := EndsSound.decidable rest
    inferInstanceAs (Decidable (ite _ _ _))

theorem EndsSound.congr {item item' : Nat → Translation} {ids : List Nat} (h : EndsSound item ids)
    (hsame : ∀ x ∈ ids, item' x = item x) : EndsSound item' ids := by
  induction ids with
  | nil => trivial
  | cons id rest ih =>
    have hrest : EndsSound item rest → EndsSound item' rest := fun h =>
      ih h fun x hx => hsame x (List.mem_cons_of_mem _ hx)
    rw [EndsSound] at h ⊢
    rw [hsame id List.mem_cons_self]
    by_cases hannul : (item id).theAnnul = true
    · rw [if_pos hannul] at h ⊢
      exact hrest h
    · rw [if_neg hannul] at h ⊢
      by_cases hdone : (item id).theDone = true
      · rw [if_pos hdone] at h ⊢
        exact ⟨h.1, hrest h.2⟩
      · rw [if_neg hdone]
        trivial

/-- A walk that goes on may be queued at the end. -/
theorem EndsSound.concat {item : Nat → Translation} {ids : List Nat} (h : EndsSound item ids)
    (hgoing : (item id).theDone = false) : EndsSound item (ids ++ [id]) := by
  induction ids with
  | nil =>
    rw [List.nil_append, EndsSound, hgoing]
    split <;> trivial
  | cons x rest ih =>
    rw [EndsSound] at h
    rw [List.cons_append, EndsSound]
    by_cases hannul : (item x).theAnnul = true
    · rw [if_pos hannul] at h ⊢
      exact ih h
    · rw [if_neg hannul] at h ⊢
      by_cases hdone : (item x).theDone = true
      · rw [if_pos hdone] at h ⊢
        exact ⟨h.1, ih h.2⟩
      · rw [if_neg hdone]
        trivial

/-- The register object is current when it is consulted, and the walks that complete did not
    fault: a condition on the state before a cycle, of which `ids` are still to be looked up. -/
structure Careful (cfg : Config) (c : MMU) (ids : List Nat) : Prop where
  starts : ∀ id ∈ ids, c.Misses cfg id → page (c.item id).theVaddr ∉ c.alreadyPW → c.Current
  descends : c.Descends → c.Current
  ends : EndsSound c.item c.thePageWalkEntries

instance {ids : List Nat} : Decidable (c.Careful cfg ids) :=
  decidable_of_iff ((∀ id ∈ ids, c.Misses cfg id → page (c.item id).theVaddr ∉ c.alreadyPW → c.Current) ∧
    (c.Descends → c.Current) ∧ EndsSound c.item c.thePageWalkEntries)
    ⟨fun ⟨hstarts, hdescends, hends⟩ => ⟨hstarts, hdescends, hends⟩,
      fun ⟨hstarts, hdescends, hends⟩ => ⟨hstarts, hdescends, hends⟩⟩

theorem Leaves.current (h : Leaves c c' id) (hcurrent : c.Current) : c'.Current := by
  rw [Current, h.resynced, h.theMMU]
  exact hcurrent

/-- The next rounds of the first loop find no more reasons to start a walk. -/
theorem Careful.round {rest : List Nat} (h : c.Careful cfg (id :: rest)) (hkept : c.Kept (id :: held))
    (hrest : ∀ x ∈ rest, x ≠ id) (hleaves : Leaves c c' id) : c'.Careful cfg rest := by
  have hidle := hkept.apart.idle id List.mem_cons_self
  have hother : ∀ x ∈ c.queues.walks ++ c.queues.transports, c'.item x = c.item x := by
    intro x hx
    apply hleaves.item
    rintro rfl
    exact (hkept.apart.apart x hx).2 List.mem_cons_self
  refine ⟨fun x hx hmiss hfree => ?_, fun hdescends => ?_, ?_⟩
  · obtain ⟨hperfect, hnone⟩ := hmiss
    rw [hleaves.item x (hrest x hx)] at hnone hfree
    rw [hleaves.found] at hnone
    have hbefore : page (c.item x).theVaddr ∉ c.alreadyPW := fun hmark => hfree (hleaves.marks _ hmark)
    exact hleaves.current (h.starts x (List.mem_cons_of_mem _ hx) ⟨hperfect, hnone⟩ hbefore)
  · apply hleaves.current
    obtain ⟨e, he, hgoing⟩ := hdescends
    have hfront : ∀ e ∈ c.thePageWalker.theTranslationTransports.head?, c'.item e.1 = c.item e.1 := by
      intro e he
      apply hother
      exact List.mem_append_right _ (List.mem_map_of_mem (List.mem_of_mem_head? he))
    obtain hsame | ⟨st, hmore, hwaiting⟩ := hleaves.transports
    · rw [hsame] at he
      rw [hfront e he] at hgoing
      exact h.descends ⟨e, he, hgoing⟩
    · rw [hmore] at he
      cases hlist : c.thePageWalker.theTranslationTransports with
      | nil =>
        -- the walk that just started does not wait for a descriptor
        rw [hlist, List.nil_append] at he
        obtain rfl := Option.some.inj he
        rw [hwaiting, hidle.2.2] at hgoing
        cases hgoing.2.2
      | cons first more =>
        rw [hlist, List.cons_append] at he
        have hbefore : e ∈ c.thePageWalker.theTranslationTransports.head? := by
          rw [hlist]
          exact he
        rw [hfront e hbefore] at hgoing
        exact h.descends ⟨e, hbefore, hgoing⟩
  · have hbefore : EndsSound c'.item c.thePageWalkEntries :=
      h.ends.congr fun x hx => hother x (List.mem_append_left _ hx)
    obtain hsame | ⟨hmore, hdone⟩ := hleaves.walks
    · rw [hsame]
      exact hbefore
    · rw [hmore]
      apply hbefore.concat
      rw [hdone]
      exact hidle.2.1

/-- The first loop keeps what the component holds. -/
theorem Kept.lookups {ids : List Nat} (hqueue : c.theLookUpEntries = ids) (h : c.Kept [])
    (hcareful : c.Careful cfg ids) (hok : MMU.lookups cfg ids c = .ok c') :
    c'.Kept [] ∧ c'.Careful cfg [] := by
  induction ids generalizing c with
  | nil =>
    rw [← Except.ok.inj hok]
    exact ⟨h, hcareful⟩
  | cons id rest ih =>
    rw [MMU.lookups] at hok
    obtain ⟨mid, hmid, hok⟩ := bind_eq_ok.mp hok
    have htaken : Kept { c with theLookUpEntries := rest } [id] := by
      refine ⟨h.trusted, h.apart.regroup ⟨[], ?_⟩ rfl (fun _ hx => hx) (fun _ hx => hx), h.initialized⟩
      simp [queues, hqueue]
    have hcareful : Careful cfg { c with theLookUpEntries := rest } (id :: rest) :=
      ⟨hcareful.starts, hcareful.descends, hcareful.ends⟩
    have hleaves := lookupEntry_leaves hmid
    have hkept := htaken.lookupEntry (hcareful.starts id List.mem_cons_self) hmid
    have hrest : ∀ x ∈ rest, x ≠ id := by
      rintro x hx rfl
      exact (List.nodup_cons.mp htaken.apart.nodup).1 (List.mem_append_right [] (List.mem_append_left _ hx))
    exact ih (theLookUpEntries_of_lookupEntry hmid) hkept (hcareful.round htaken hrest hleaves) hok

/-- A completed walk, which may have lost its mark, fills its TLB and is answered. -/
theorem complete_cases {rest : List Nat} (hok : MMU.complete cfg { c with thePageWalkEntries := rest } id = .ok c') :
    c' = (c.released id rest).fillTLB cfg id ∨ c' = fillTLB cfg { c with thePageWalkEntries := rest } id := by
  by_cases hmarked : page (c.item id).theVaddr ∈ c.alreadyPW
  · exact .inl (complete_eq hmarked hok).2
  · simp only [complete, if_neg hmarked] at hok
    split at hok
    · cases hok
    · exact .inr (Except.ok.inj hok).symm

theorem Kept.fillTLB (h : c.Kept []) (hdone : (c.item id).theDone = true) (hwalked : (c.item id).Walked)
    (hfaultless : (c.item id).Faultless) : (c.fillTLB cfg id).Kept [] := by
  have hvalid : Fill.Valid ⟨page (c.item id).theVaddr, page (c.item id).thePaddr, c.item id⟩ :=
    ⟨rfl, rfl, hdone, hwalked, hfaultless⟩
  have htrusted := h.trusted.fill (t := c.item id) cfg.order rfl hvalid
  rw [MMU.fillTLB]
  apply Kept.answer
  obtain ⟨i, d, heq⟩ := setTLB_eq c (c.item id)
    ((c.tlb (c.item id)).assign cfg.order (page (c.item id).theVaddr) (page (c.item id).thePaddr))
  dsimp only at htrusted ⊢
  rw [heq] at htrusted ⊢
  exact ⟨htrusted, h.apart, h.initialized⟩

theorem Kept.released {rest : List Nat} (h : c.Kept []) (hfront : c.thePageWalkEntries = id :: rest) :
    (c.released id rest).Kept [] := by
  refine ⟨h.trusted, h.apart.regroup ⟨[], ?_⟩ rfl (fun x hx => ?_) (fun _ hx => hx), h.initialized⟩
  · have hsplit := List.filter_append_perm (c.releases (c.item id) (page (c.item id).theVaddr)) c.standingEntries
    apply List.perm_iff_count.mpr
    intro a
    have hcount := List.perm_iff_count.mp hsplit a
    simp only [MMU.released, queues, List.nil_append, List.count_append] at hcount ⊢
    omega
  · show x ∈ c.thePageWalkEntries
    rw [hfront]
    exact List.mem_cons_of_mem _ hx

theorem Kept.popped {rest dropped : List Nat} (h : c.Kept []) (hfront : c.thePageWalkEntries = id :: rest) :
    Kept { c with thePageWalkEntries := rest, dropped := dropped } [] := by
  refine ⟨h.trusted, h.apart.regroup ⟨[], .refl _⟩ rfl (fun x hx => ?_) (fun _ hx => hx), h.initialized⟩
  show x ∈ c.thePageWalkEntries
  rw [hfront]
  exact List.mem_cons_of_mem _ hx

theorem fillTLB_eq (cfg : Config) (c : MMU) (id : Nat) : ∃ i d fills ir dr, c.fillTLB cfg id =
    { c with theInstrTLB := i, theDataTLB := d, filled := fills, iTranslationReply := ir, dTranslationReply := dr } := by
  rw [MMU.fillTLB]
  obtain ⟨i, d, heq⟩ := setTLB_eq c (c.item id)
    ((c.tlb (c.item id)).assign cfg.order (page (c.item id).theVaddr) (page (c.item id).thePaddr))
  dsimp only
  rw [heq]
  obtain ⟨ir, dr, hanswer⟩ := answer_eq { c with
    theInstrTLB := i, theDataTLB := d,
    filled := c.filled ++ [⟨page (c.item id).theVaddr, page (c.item id).thePaddr, c.item id⟩] } id
  exact ⟨i, d, _, ir, dr, hanswer⟩

/-- The second loop keeps what the component holds, and leaves the requests and the walker. -/
theorem Kept.completions {ids : List Nat} (hqueue : c.thePageWalkEntries = ids) (h : c.Kept [])
    (hends : EndsSound c.item ids) (hok : MMU.completions cfg ids c = .ok c') :
    c'.Kept [] ∧ c'.item = c.item ∧ c'.thePageWalker = c.thePageWalker ∧ c'.resynced = c.resynced := by
  induction ids generalizing c with
  | nil =>
    rw [← Except.ok.inj hok]
    exact ⟨h, rfl, rfl, rfl⟩
  | cons id rest ih =>
    rw [MMU.completions] at hok
    rw [EndsSound] at hends
    by_cases hannul : (c.item id).theAnnul = true
    · rw [if_pos hannul] at hok hends
      have hpopped : Kept { c with thePageWalkEntries := rest, dropped := c.dropped ++ [id] } [] := h.popped hqueue
      have hrest := ih rfl hpopped hends hok
      exact hrest
    · rw [if_neg hannul] at hok hends
      by_cases hdone : (c.item id).theDone = true
      · rw [if_pos hdone] at hok hends
        obtain ⟨mid, hmid, hok⟩ := bind_eq_ok.mp hok
        have hfront : id ∈ c.thePageWalkEntries := by
          rw [hqueue]
          exact List.mem_cons_self
        have hwalked := h.apart.walked id hfront hdone
        have hnext : ∀ b : MMU, b.Kept [] → b.thePageWalkEntries = rest → b.item = c.item →
            b.thePageWalker = c.thePageWalker → b.resynced = c.resynced → mid = b.fillTLB cfg id →
            c'.Kept [] ∧ c'.item = c.item ∧ c'.thePageWalker = c.thePageWalker ∧ c'.resynced = c.resynced := by
          intro b hb hwalks hitem hwalker hresynced heq
          have hfilled : mid.Kept [] := by
            rw [heq]
            apply hb.fillTLB
            · rw [hitem]
              exact hdone
            · rw [hitem]
              exact hwalked
            · rw [hitem]
              exact hends.1
          obtain ⟨i, d, fills, ir, dr, hfields⟩ := fillTLB_eq cfg b id
          rw [hfields] at heq
          have hmidWalks : mid.thePageWalkEntries = rest := by rw [heq]; exact hwalks
          have hmidItem : mid.item = c.item := by rw [heq]; exact hitem
          have hmidWalker : mid.thePageWalker = c.thePageWalker := by rw [heq]; exact hwalker
          have hmidResynced : mid.resynced = c.resynced := by rw [heq]; exact hresynced
          obtain ⟨hkept, hitem', hwalker', hresynced'⟩ := ih hmidWalks hfilled (hmidItem ▸ hends.2) hok
          exact ⟨hkept, hitem'.trans hmidItem, hwalker'.trans hmidWalker, hresynced'.trans hmidResynced⟩
        obtain heq | heq := complete_cases hmid
        · exact hnext _ (h.released hqueue) rfl rfl rfl rfl heq
        · exact hnext _ (h.popped hqueue) rfl rfl rfl rfl heq
      · rw [if_neg hdone] at hok
        rw [← Except.ok.inj hok]
        exact ⟨h, rfl, rfl, rfl⟩

/-! ### The walker and the ports -/

theorem Kept.move (h : c.Kept []) (hid : id ∉ c.theLookUpEntries ++ c.standingEntries)
    (hend : id ∈ c.thePageWalkEntries → t.theDone = true → t.Walked) : (c.setItem id t).Kept [] :=
  ⟨h.trusted, h.apart.move hid hend, h.initialized⟩

theorem preTranslate_theDone {w : Walk} : (mmu_t.preTranslate w).basic.theDone = w.basic.theDone := by
  rw [mmu_t.preTranslate]
  split <;> rfl

/-- A cycle of the walker keeps what the component holds, if the register object is current
    when a descriptor is looked at. -/
theorem Kept.cycle (h : c.Kept []) (hcurrent : c.Descends → c.Current) (hok : c.cycle = .ok c') : c'.Kept [] := by
  rw [MMU.cycle] at hok
  split at hok
  · rw [← Except.ok.inj hok]
    exact h
  · rename_i id st rest hfront
    have hfirst : id ∈ c.queues.transports := by
      simp [queues, hfront]
    have hout := (h.apart.apart id (List.mem_append_right _ hfirst)).2
    have hbefore := h.apart.walked id
    dsimp only at hok
    split at hok
    · cases hok
    · split at hok
      · rw [← Except.ok.inj hok]
        have hleft : Kept { c with thePageWalker := { c.thePageWalker with theTranslationTransports := rest } } [] := by
          refine ⟨h.trusted, h.apart.regroup ⟨[], .refl _⟩ rfl (fun _ hx => hx) (fun x hx => ?_), h.initialized⟩
          simp only [queues, hfront, List.map_cons]
          exact List.mem_cons_of_mem _ hx
        exact hleft.move hout fun hw hdone => (hbefore hw hdone).outcome ⟨rfl, rfl, rfl, rfl, rfl⟩
      · rename_i hgoing
        rw [Bool.not_eq_true] at hgoing
        split at hok
        · rename_i hready
          split at hok
          · rename_i hwaiting
            split at hok
            · cases hok
            · rename_i m hm
              obtain ⟨w, hw, hrest⟩ := bind_eq_ok.mp hok
              rw [← pure_eq_ok.mp hrest]
              have hnow : c.Current := hcurrent ⟨(id, st), by rw [hfront]; rfl, hgoing, hready, hwaiting⟩
              have hnoted : Kept { c.note m with
                  thePageWalker := { c.thePageWalker with theTranslationTransports := (id, w.stateful) :: rest } } [] := by
                refine ⟨h.trusted.note hnow hm, h.apart.regroup ⟨[], .refl _⟩ rfl (fun _ hx => hx) (fun x hx => ?_),
                  h.initialized⟩
                simp only [queues, hfront, List.map_cons] at hx ⊢
                exact hx
              exact hnoted.move hout fun _ hdone => ⟨m, _, w, hgoing, hw, hdone, ⟨rfl, rfl, rfl, rfl, rfl⟩⟩
          · rw [← Except.ok.inj hok]
            refine ⟨h.trusted, h.apart.move hout fun _ hdone => ?_, h.initialized⟩
            have hsame := preTranslate_theDone
              (w := ⟨{ c.item id with theTimeoutCounter := (c.item id).theTimeoutCounter + 1 }, st,
                c.thePageWalker.trace_address⟩)
            exact absurd (hsame.symm.trans hdone) (Bool.eq_false_iff.mp hgoing)
        · rw [← Except.ok.inj hok]
          exact h.move hout fun hw hdone => (hbefore hw hdone).outcome ⟨rfl, rfl, rfl, rfl, rfl⟩

theorem Kept.drive (h : c.Kept []) (hcareful : c.Careful cfg c.theLookUpEntries) (hok : c.drive cfg = .ok c') :
    c'.Kept [] := by
  rw [MMU.drive] at hok
  obtain ⟨bus, hbus, hok⟩ := bind_eq_ok.mp hok
  obtain ⟨walker, hwalker, hok⟩ := bind_eq_ok.mp hok
  obtain ⟨looked, hlooked, hcompleted⟩ := bind_eq_ok.mp (hbus : (do
    let c ← MMU.lookups cfg c.theLookUpEntries c
    MMU.completions cfg c.thePageWalkEntries c) = .ok bus)
  obtain ⟨hfirst, hcareful⟩ := h.lookups rfl hcareful hlooked
  obtain ⟨hsecond, hitem, hsame, hresynced⟩ := hfirst.completions rfl hcareful.ends hcompleted
  have hcycled : walker.Kept [] := by
    apply hsecond.cycle _ hwalker
    rw [Descends, Current, hitem, hsame, hresynced]
    exact hcareful.descends
  rw [← pure_eq_ok.mp hok]
  exact ⟨hcycled.trusted, hcycled.apart, hcycled.initialized⟩

/-- The register object that a request of the trace mode is walked with. -/
def traceMMU (c : MMU) (regs : mmu_regs_t) : Option mmu_t :=
  if c.theMMUInitialized then c.thePageWalker.theMMU else regs.setupAddressSpaceSizesAndGranules.toOption

/-- A request of the trace mode that misses asks for a page, its walk ends without a fault, and
    the register object is current. -/
def TraceSound (cfg : Config) (c : MMU) (t : Translation) (regs : mmu_regs_t) (mem : BitVec 64 → BitVec 64) : Prop :=
  cfg.PerfectTLB = false → ((c.tlb t).lookUp t.theVaddr).1 = none →
    (c.theMMUInitialized = true → c.Current) ∧ page t.theVaddr = t.theVaddr ∧
      ∀ m ∈ c.traceMMU regs, ∀ walked ∈ (m.push_back_trace cfg.outOfRange mem 4 t).toOption,
        ∃ w ∈ walked, w.basic.Faultless

instance {regs : mmu_regs_t} {mem : BitVec 64 → BitVec 64} : Decidable (c.TraceSound cfg t regs mem) :=
  inferInstanceAs (Decidable (_ → _ → _ ∧ _ ∧ ∀ m ∈ c.traceMMU regs,
    ∀ walked ∈ (m.push_back_trace cfg.outOfRange mem 4 t).toOption, ∃ w ∈ walked, w.basic.Faultless))

/-- A walk of the trace mode that ends without a fault is a valid translation of its page. -/
theorem valid_of_push_back_trace {m : mmu_t} {outOfRange : Nat → BitVec 64} {mem : BitVec 64 → BitVec 64} {w : Walk}
    (hnew : t.theDone = false) (hva : page t.theVaddr = t.theVaddr)
    (h : m.push_back_trace outOfRange mem 4 t = .ok (some w)) (hfaultless : w.basic.Faultless) :
    Fill.Valid ⟨t.theVaddr, w.basic.thePaddr, w.basic⟩ ∧ w.basic.theTLBtype = t.theTLBtype := by
  rw [mmu_t.push_back_trace] at h
  obtain ⟨setup, hsetup, hrest⟩ := bind_eq_ok.mp h
  cases setup with
  | none => cases hrest
  | some w₀ =>
    obtain ⟨hbasic, -⟩ := InitialTranslationSetup_cases hsetup
    obtain ⟨w', hlookups, hrest⟩ := bind_eq_ok.mp hrest
    obtain rfl := Option.some.inj (pure_eq_ok.mp hrest)
    obtain ⟨hwalked, hdone, hsameVa, hsameType⟩ := walked_of_lookups (by rw [hbasic]; exact hnew) hlookups
    rw [hbasic] at hsameVa hsameType
    have hvalue : page w'.basic.thePaddr = w'.basic.thePaddr := by
      obtain ⟨m', before, last, hgoing, hwalk, hend, hout⟩ := hwalked
      have hlastVa : page before.basic.theVaddr = before.basic.theVaddr := by
        rw [← (same_walk hwalk).theVaddr, ← hout.theVaddr, hsameVa]
        exact hva
      rw [hout.thePaddr]
      apply walk_aligned hgoing hwalk hend _ hlastVa
      rw [Translation.Faultless, ← hout.thePageFault, ← hout.resync]
      exact hfaultless
    refine ⟨⟨?_, hvalue.symm, hdone, hwalked, hfaultless⟩, hsameType⟩
    rw [hsameVa]
    exact hva.symm

/-- The register object of the trace mode is made before its first use. -/
theorem Kept.initializeMMU {regs : mmu_regs_t} (h : c.Kept held) (hcurrent : c.theMMUInitialized = true → c.Current)
    (hok : c.initializeMMU regs = .ok c') : c'.Kept held ∧ c'.Current ∧ c'.thePageWalker.theMMU = c.traceMMU regs := by
  rw [MMU.initializeMMU] at hok
  by_cases hinit : c.theMMUInitialized = true
  · rw [if_pos hinit] at hok
    rw [← Except.ok.inj hok, traceMMU, if_pos hinit]
    exact ⟨h, hcurrent hinit, rfl⟩
  · rw [if_neg hinit] at hok
    obtain ⟨m, hm, hrest⟩ := bind_eq_ok.mp hok
    have hnone := h.initialized (Bool.not_eq_true _ ▸ hinit)
    rw [← pure_eq_ok.mp hrest, traceMMU, if_neg hinit, hm]
    refine ⟨⟨h.trusted, h.apart, fun h => by cases h⟩, ?_, rfl⟩
    intro r hr
    rw [show c.resynced = none from hnone] at hr
    cases hr

/-- A request of the trace mode keeps what the component holds. -/
theorem Kept.TLBReqIn {regs : mmu_regs_t} {mem : BitVec 64 → BitVec 64} (h : c.Kept []) (hnew : t.theDone = false)
    (hsound : c.TraceSound cfg t regs mem) (hok : c.TLBReqIn cfg t regs mem = .ok c') : c'.Kept [] := by
  rw [MMU.TLBReqIn] at hok
  split at hok
  · rw [← pure_eq_ok.mp hok]
    exact h
  · rename_i hperfect
    have hlooked := h.setTLB ((h.trusted.tlb t).lookUp t.theVaddr)
    dsimp only at hok
    split at hok
    · rw [← pure_eq_ok.mp hok]
      exact hlooked
    · rename_i hmiss
      rw [Option.not_isSome_iff_eq_none] at hmiss
      obtain ⟨hcurrent, hva, hfaultless⟩ := hsound (Bool.not_eq_true _ ▸ hperfect) hmiss
      obtain ⟨mid, hmid, hok⟩ := bind_eq_ok.mp hok
      have hsame : (c.setTLB t ((c.tlb t).lookUp t.theVaddr).2).traceMMU regs = c.traceMMU regs ∧
          ((c.setTLB t ((c.tlb t).lookUp t.theVaddr).2).theMMUInitialized = true →
            (c.setTLB t ((c.tlb t).lookUp t.theVaddr).2).Current) := by
        obtain ⟨i, d, heq⟩ := setTLB_eq c t ((c.tlb t).lookUp t.theVaddr).2
        rw [heq]
        exact ⟨rfl, hcurrent⟩
      obtain ⟨hmidKept, hmidCurrent, hmidMMU⟩ := hlooked.initializeMMU hsame.2 hmid
      rw [hsame.1] at hmidMMU
      split at hok
      · cases hok
      · rename_i m hm
        obtain ⟨walked, hwalked, hrest⟩ := bind_eq_ok.mp hok
        rw [← pure_eq_ok.mp hrest]
        obtain ⟨w, hw, hfaultless⟩ := hfaultless m (hmidMMU.symm.trans hm) walked (by rw [hwalked]; rfl)
        obtain rfl : walked = some w := hw
        obtain ⟨hvalid, htype⟩ := valid_of_push_back_trace hnew hva hwalked hfaultless
        have hfilled := hmidKept.trusted.fill (t := t) cfg.order
          (by rw [Translation.isInstr, Translation.isInstr, htype]) hvalid
        obtain ⟨i, d, heq⟩ := setTLB_eq mid t ((mid.tlb t).assign cfg.order t.theVaddr w.basic.thePaddr)
        dsimp only [Option.map_some, Option.getD_some] at hfilled ⊢
        rw [heq] at hfilled ⊢
        exact ⟨Trusted.note hfilled hmidCurrent hm, hmidKept.apart, hmidKept.initialized⟩

/-- A resynchronization forgets every request. -/
theorem Kept.resyncMMU {regs : mmu_regs_t} (h : c.Kept []) (hok : c.resyncMMU regs = .ok c') : c'.Kept [] := by
  rw [MMU.resyncMMU] at hok
  obtain ⟨m, -, hrest⟩ := bind_eq_ok.mp hok
  rw [← pure_eq_ok.mp hrest]
  refine ⟨h.trusted, h.apart.regroup ⟨[] ++ (c.queues.lookUp ++ c.queues.standing), ?_⟩ rfl nofun nofun, nofun⟩
  simp [queues]

/-! ## Runs -/

/-- The register object is current when it is consulted, the walks that complete did not fault,
    and the trace mode asks for pages and walks them without a fault. -/
def Secure (cfg : Config) (c : MMU) : MMUEvent → Prop
  | .drive => c.Careful cfg c.theLookUpEntries
  | .TLBReqIn theVaddr aType regs mem => c.TraceSound cfg (.create theVaddr aType false) regs mem
  | _ => True

instance Secure.decidable : ∀ e, Decidable (c.Secure cfg e)
  | .request _ _ _ => .isTrue trivial
  | .annul _ => .isTrue trivial
  | .memoryReply _ _ => .isTrue trivial
  | .drive => inferInstanceAs (Decidable (c.Careful cfg c.theLookUpEntries))
  | .resync _ => .isTrue trivial
  | .TLBReqIn _ _ _ _ => inferInstanceAs (Decidable (c.TraceSound cfg _ _ _))

/-- A component before its first request, with nothing in its TLBs. -/
structure Empty (c : MMU) : Prop extends c.Idle where
  theInstrTLB : c.theInstrTLB.theTLB = []
  theDataTLB : c.theDataTLB.theTLB = []
  filled : c.filled = []
  used : c.used = []
  resynced : c.resynced = none

theorem Empty.kept (h : c.Empty) : c.Kept [] := by
  refine ⟨⟨?_, ?_, ?_, ?_⟩, ⟨?_, ?_, ?_, ?_⟩, fun _ => h.resynced⟩
  · rw [TLB.Written, h.theInstrTLB]
    exact fun _ hmem => absurd hmem List.not_mem_nil
  · rw [TLB.Written, h.theDataTLB]
    exact fun _ hmem => absurd hmem List.not_mem_nil
  · rw [h.filled]
    exact fun _ hmem => absurd hmem List.not_mem_nil
  · rw [h.used]
    exact fun _ _ hmem => absurd hmem List.not_mem_nil
  · simp [queues, h.theLookUpEntries, h.standingEntries]
  · simp [queues, h.theLookUpEntries, h.standingEntries]
  · simp [queues, h.thePageWalkEntries, h.theTranslationTransports]
  · simp [queues, h.thePageWalkEntries]

theorem Kept.setItem_outcome (h : c.Kept []) (id : Nat) (hout : (c.item id).Outcome t)
    (hwaiting : t.theWaiting = (c.item id).theWaiting) : (c.setItem id t).Kept [] := by
  refine ⟨h.trusted, h.apart.congr (fun x hx => ?_) (fun x hx hdone => ?_), h.initialized⟩
  · show (Function.update c.item id t x).theDone = _ ∧ (Function.update c.item id t x).theWaiting = _
    by_cases heq : x = id
    · subst heq
      rw [Function.update_self]
      exact ⟨hout.theDone, hwaiting⟩
    · rw [Function.update_of_ne heq]
      exact ⟨rfl, rfl⟩
  · by_cases heq : x = id
    · subst heq
      have hself : (c.setItem x t).item x = t := Function.update_self ..
      rw [hself] at hdone ⊢
      exact (h.apart.walked x hx (hout.theDone.symm.trans hdone)).outcome hout
    · have hother : (c.setItem id t).item x = c.item x := Function.update_of_ne heq ..
      rw [hother] at hdone ⊢
      exact h.apart.walked x hx hdone

theorem Kept.step {e : MMUEvent} (h : c.Kept []) (hsecure : c.Secure cfg e) (hok : MMU.step cfg c e = .ok c') :
    c'.Kept [] := by
  cases e with
  | request theVaddr aType hasInstruction =>
    rw [← Except.ok.inj hok]
    exact ⟨h.trusted, h.apart.push rfl rfl, h.initialized⟩
  | annul id =>
    rw [← Except.ok.inj hok]
    exact h.setItem_outcome id ⟨rfl, rfl, rfl, rfl, rfl⟩ rfl
  | memoryReply id value =>
    rw [← Except.ok.inj hok]
    exact h.setItem_outcome id ⟨rfl, rfl, rfl, rfl, rfl⟩ rfl
  | drive => exact h.drive hsecure hok
  | resync regs => exact h.resyncMMU hok
  | TLBReqIn theVaddr aType regs mem => exact h.TLBReqIn rfl hsecure hok

theorem fresh_empty : fresh.Empty := ⟨fresh_idle, rfl, rfl, rfl, rfl, rfl⟩

/-- A page is walked by the trace mode, the component resynchronizes to the same registers,
    and an instruction request is walked, to the descriptor `value`. -/
def resyncRun (value : BitVec 64) : List MMUEvent :=
  [.TLBReqIn 0x200000 .kDATA ⟨0x80100022, 0x1000, 0, 0⟩ (fun _ => 0x1), .resync ⟨0x80100022, 0x1000, 0, 0⟩,
    .request 0x3000 .kINST false, .drive, .drive, .memoryReply 0 value, .drive, .drive]

end MMU

end nMMU
