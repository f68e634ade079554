import Flexus.Core.Replies

/-!
# Links between the memory queue and the miss registers

An entry refers to the miss register it waits in, and a miss register to the entries
that wait in it. Both directions agree in every state a core reaches.
-/

namespace nuArchARM

open Runs LSQ

/-- The part of an entry that its miss register concerns. -/
structure Tie where
  seq : Nat
  paddr : PhysicalMemoryAddress
  link : Option PhysicalMemoryAddress
  deriving DecidableEq

def LSQEntry.tie (e : LSQEntry) : Tie := ⟨e.theSequenceNum, e.thePaddr, e.link⟩

abbrev tiesOf (q : List LSQEntry) : List Tie := q.map LSQEntry.tie

/-- Waiters are entries that refer back, and linked entries wait. An entry only waits for
    its own address, and once. -/
structure Linked (ts : List Tie) (ms : List MSHR) : Prop where
  unique : (ts.map Tie.seq).Nodup
  keys : (ms.map MSHR.thePaddr).Nodup
  present : ∀ m ∈ ms, ∀ w ∈ m.theWaitingLSQs, ∃ t ∈ ts, t.seq = w ∧ t.link = some m.thePaddr
  waits : ∀ t ∈ ts, ∀ a, t.link = some a →
    a = t.paddr ∧ ∃ m ∈ ms, m.thePaddr = a ∧ t.seq ∈ m.theWaitingLSQs
  once : ∀ m ∈ ms, m.theWaitingLSQs.Nodup

def Tie.unlink (t : Tie) : Tie := { t with link := none }

variable {ts : List Tie} {ms ms' : List MSHR} {t : Tie} {s : Nat} {a : PhysicalMemoryAddress}

namespace Linked

theorem eq_of_seq (h : Linked ts ms) {x y : Tie} (hx : x ∈ ts) (hy : y ∈ ts) (hseq : x.seq = y.seq) :
    x = y :=
  List.inj_on_of_nodup_map h.unique hx hy hseq

theorem eq_of_key (h : Linked ts ms) {x y : MSHR} (hx : x ∈ ms) (hy : y ∈ ms)
    (hkey : x.thePaddr = y.thePaddr) : x = y :=
  List.inj_on_of_nodup_map h.keys hx hy hkey

/-- A waiter is taken from its register. -/
theorem detach (h : Linked ts ms) (ht : t ∈ ts) (hlink : t.link = some a) :
    Linked (Keyed.alter Tie.seq t.seq Tie.unlink ts) (Keyed.alter MSHR.thePaddr a
      (fun m => { m with theWaitingLSQs := m.theWaitingLSQs.erase t.seq }) ms) where
  unique := by
    rw [Keyed.map_alter (by intro _; rfl)]
    exact h.unique
  keys := by
    rw [Keyed.map_alter (by intro _; rfl)]
    exact h.keys
  present := by
    intro m' hm' w hw
    obtain ⟨m, hm, rfl⟩ := List.mem_map.mp hm'
    have hold : w ∈ m.theWaitingLSQs := by
      split at hw
      · exact List.mem_of_mem_erase hw
      · exact hw
    obtain ⟨x, hx, hseq, hback⟩ := h.present m hm w hold
    have hne : x.seq ≠ t.seq := by
      intro heq
      have hxt := h.eq_of_seq hx ht heq
      have hkey : m.thePaddr = a := by
        rw [hxt, hlink] at hback
        exact (Option.some.inj hback).symm
      rw [if_pos hkey, ← hseq, heq] at hw
      exact (h.once m hm).not_mem_erase hw
    refine ⟨x, List.mem_map.mpr ⟨x, hx, if_neg hne⟩, hseq, ?_⟩
    rw [hback]
    split <;> rfl
  waits := by
    intro t' ht' b hb
    obtain ⟨x, hx, rfl⟩ := List.mem_map.mp ht'
    by_cases heq : x.seq = t.seq
    · rw [if_pos heq] at hb
      cases hb
    · rw [if_neg heq] at hb ⊢
      obtain ⟨hown, m, hm, hkey, hw⟩ := h.waits x hx b hb
      refine ⟨hown, _, List.mem_map_of_mem hm, ?_, ?_⟩
      · rw [← hkey]
        split <;> rfl
      · split
        · exact (List.mem_erase_of_ne heq).mpr hw
        · exact hw
  once := by
    intro m' hm'
    obtain ⟨m, hm, rfl⟩ := List.mem_map.mp hm'
    split
    · exact (h.once m hm).erase _
    · exact h.once m hm

/-- A register nothing waits in is released. -/
theorem release (h : Linked ts ms) (hempty : ∀ m ∈ ms, m.thePaddr = a → m.theWaitingLSQs = []) :
    Linked ts (Keyed.erase MSHR.thePaddr a ms) where
  unique := h.unique
  keys := Keyed.nodup_erase h.keys
  present := fun m hm => h.present m (List.mem_of_mem_filter hm)
  waits := by
    intro t ht b hb
    obtain ⟨hown, m, hm, hkey, hw⟩ := h.waits t ht b hb
    refine ⟨hown, m, List.mem_filter.mpr ⟨hm, ?_⟩, hkey, hw⟩
    have hne : m.thePaddr ≠ a := by
      intro heq
      rw [hempty m hm heq] at hw
      cases hw
    simpa using hne
  once := fun m hm => h.once m (List.mem_of_mem_filter hm)

/-- An entry that does not wait may go. -/
theorem remove (h : Linked ts ms) (hnone : ∀ t ∈ ts, t.seq = s → t.link = none) :
    Linked (Keyed.erase Tie.seq s ts) ms where
  unique := Keyed.nodup_erase h.unique
  keys := h.keys
  present := by
    intro m hm w hw
    obtain ⟨t, ht, hseq, hback⟩ := h.present m hm w hw
    refine ⟨t, List.mem_filter.mpr ⟨ht, ?_⟩, hseq, hback⟩
    have hne : t.seq ≠ s := by
      intro heq
      rw [hnone t ht heq] at hback
      cases hback
    simpa using hne
  waits := fun t ht => h.waits t (List.mem_of_mem_filter ht)
  once := h.once

/-- A register that nothing waits in yet. -/
theorem reserve (h : Linked ts ms) {m : MSHR} (hfree : ∀ x ∈ ms, x.thePaddr ≠ m.thePaddr)
    (hempty : m.theWaitingLSQs = []) : Linked ts (ms ++ [m]) where
  unique := h.unique
  keys := by
    refine Keyed.nodup_append_singleton h.keys fun hmem => ?_
    obtain ⟨x, hx, heq⟩ := List.mem_map.mp hmem
    exact hfree x hx heq
  present := by
    intro x hx w hw
    rcases List.mem_append.mp hx with hx | hx
    · exact h.present x hx w hw
    · rw [List.mem_singleton.mp hx, hempty] at hw
      cases hw
  waits := by
    intro t ht b hb
    obtain ⟨hown, x, hx, hkey, hw⟩ := h.waits t ht b hb
    exact ⟨hown, x, List.mem_append_left _ hx, hkey, hw⟩
  once := by
    intro x hx
    rcases List.mem_append.mp hx with hx | hx
    · exact h.once x hx
    · rw [List.mem_singleton.mp hx, hempty]
      exact List.nodup_nil

/-- An entry that does not wait joins the register of its address. -/
theorem attach (h : Linked ts ms) (ht : t ∈ ts) (hfree : t.link = none)
    (hm : ∃ m ∈ ms, m.thePaddr = t.paddr) :
    Linked (Keyed.alter Tie.seq t.seq (fun x => { x with link := some t.paddr }) ts)
      (Keyed.alter MSHR.thePaddr t.paddr
        (fun m => { m with theWaitingLSQs := m.theWaitingLSQs ++ [t.seq] }) ms) where
  unique := by
    rw [Keyed.map_alter (by intro _; rfl)]
    exact h.unique
  keys := by
    rw [Keyed.map_alter (by intro _; rfl)]
    exact h.keys
  present := by
    intro m' hm' w hw
    obtain ⟨m, hm, rfl⟩ := List.mem_map.mp hm'
    have hold : w ∈ m.theWaitingLSQs → ∃ x ∈ Keyed.alter Tie.seq t.seq
        (fun x => { x with link := some t.paddr }) ts, x.seq = w ∧ x.link = some m.thePaddr := by
      intro hw
      obtain ⟨x, hx, hseq, hback⟩ := h.present m hm w hw
      refine ⟨x, List.mem_map.mpr ⟨x, hx, if_neg ?_⟩, hseq, hback⟩
      intro heq
      rw [h.eq_of_seq hx ht heq, hfree] at hback
      cases hback
    by_cases hkey : m.thePaddr = t.paddr
    · rw [if_pos hkey] at hw ⊢
      rcases List.mem_append.mp hw with hw | hw
      · exact hold hw
      · refine ⟨_, List.mem_map.mpr ⟨t, ht, if_pos rfl⟩, (List.mem_singleton.mp hw).symm, ?_⟩
        exact congrArg some hkey.symm
    · rw [if_neg hkey] at hw ⊢
      exact hold hw
  waits := by
    intro t' ht' b hb
    obtain ⟨x, hx, rfl⟩ := List.mem_map.mp ht'
    by_cases heq : x.seq = t.seq
    · rw [if_pos heq] at hb ⊢
      obtain rfl := Option.some.inj hb
      obtain ⟨m, hm, hkey⟩ := hm
      refine ⟨by rw [h.eq_of_seq hx ht heq], _, List.mem_map.mpr ⟨m, hm, if_pos hkey⟩, hkey, ?_⟩
      exact List.mem_append_right _ (List.mem_singleton.mpr heq)
    · rw [if_neg heq] at hb ⊢
      obtain ⟨hown, m, hm, hkey, hw⟩ := h.waits x hx b hb
      refine ⟨hown, _, List.mem_map_of_mem hm, ?_, ?_⟩
      · rw [← hkey]
        split <;> rfl
      · split
        · exact List.mem_append_left _ hw
        · exact hw
  once := by
    intro m' hm'
    obtain ⟨m, hm, rfl⟩ := List.mem_map.mp hm'
    split
    · change (m.theWaitingLSQs ++ [t.seq]).Nodup
      rw [← List.concat_eq_append]
      refine (h.once m hm).concat fun hw => ?_
      obtain ⟨x, hx, hseq, hback⟩ := h.present m hm t.seq hw
      rw [h.eq_of_seq hx ht hseq, hfree] at hback
      cases hback
    · exact h.once m hm

/-- An entry that does not wait may change its address. -/
theorem retarget (h : Linked ts ms) {f : Tie → Tie} (hseq : ∀ t, (f t).seq = t.seq)
    (hlink : ∀ t, (f t).link = t.link) (hnone : ∀ t ∈ ts, t.seq = s → t.link = none) :
    Linked (Keyed.alter Tie.seq s f ts) ms where
  unique := by
    rw [Keyed.map_alter hseq]
    exact h.unique
  keys := h.keys
  present := by
    intro m hm w hw
    obtain ⟨t, ht, heq, hback⟩ := h.present m hm w hw
    refine ⟨t, List.mem_map.mpr ⟨t, ht, if_neg ?_⟩, heq, hback⟩
    intro hs
    rw [hnone t ht hs] at hback
    cases hback
  waits := by
    intro t' ht' b hb
    obtain ⟨t, ht, rfl⟩ := List.mem_map.mp ht'
    by_cases hs : t.seq = s
    · rw [if_pos hs, hlink, hnone t ht hs] at hb
      cases hb
    · rw [if_neg hs] at hb ⊢
      exact h.waits t ht b hb
  once := h.once

/-- A new entry does not wait. -/
theorem insert (h : Linked ts ms) (hfresh : ∀ x ∈ ts, x.seq ≠ t.seq) (hnone : t.link = none) :
    Linked (ts ++ [t]) ms where
  unique := by
    refine Keyed.nodup_append_singleton h.unique fun hmem => ?_
    obtain ⟨x, hx, heq⟩ := List.mem_map.mp hmem
    exact hfresh x hx heq
  keys := h.keys
  present := by
    intro m hm w hw
    obtain ⟨x, hx, heq, hback⟩ := h.present m hm w hw
    exact ⟨x, List.mem_append_left _ hx, heq, hback⟩
  waits := by
    intro x hx b hb
    rcases List.mem_append.mp hx with hx | hx
    · exact h.waits x hx b hb
    · rw [List.mem_singleton.mp hx, hnone] at hb
      cases hb
  once := h.once

/-- Operations that are blocked on a register do not wait in it. -/
theorem block (h : Linked ts ms) {f : MSHR → MSHR} (hkey : ∀ m, (f m).thePaddr = m.thePaddr)
    (hw : ∀ m, (f m).theWaitingLSQs = m.theWaitingLSQs) :
    Linked ts (Keyed.alter MSHR.thePaddr a f ms) := by
  have hmem : ∀ m' ∈ Keyed.alter MSHR.thePaddr a f ms, ∃ m ∈ ms, m'.thePaddr = m.thePaddr ∧
      m'.theWaitingLSQs = m.theWaitingLSQs := by
    intro m' hm'
    obtain ⟨m, hm, rfl⟩ := List.mem_map.mp hm'
    refine ⟨m, hm, ?_⟩
    split
    · exact ⟨hkey m, hw m⟩
    · exact ⟨rfl, rfl⟩
  refine ⟨h.unique, ?_, ?_, ?_, ?_⟩
  · rw [Keyed.map_alter hkey]
    exact h.keys
  · intro m' hm' w hw'
    obtain ⟨m, hm, hk, heq⟩ := hmem m' hm'
    rw [hk]
    exact h.present m hm w (heq ▸ hw')
  · intro t ht b hb
    obtain ⟨hown, m, hm, hk, hmw⟩ := h.waits t ht b hb
    refine ⟨hown, _, List.mem_map_of_mem hm, ?_, ?_⟩
    · split
      · exact (hkey m).trans hk
      · exact hk
    · split
      · exact (hw m).symm ▸ hmw
      · exact hmw
  · intro m' hm'
    obtain ⟨m, hm, -, heq⟩ := hmem m' hm'
    exact heq ▸ h.once m hm

/-- Discarded entries are taken from all registers. -/
theorem discard (h : Linked ts ms) {keep : Tie → Bool}
    (hkept : ∀ m' ∈ ms', m'.theWaitingLSQs ≠ [] ∧ ∃ m ∈ ms, m'.thePaddr = m.thePaddr ∧
      m'.theWaitingLSQs.Sublist m.theWaitingLSQs ∧
      ∀ w ∈ m'.theWaitingLSQs, ∀ t ∈ ts, t.seq = w → keep t = true)
    (hall : ∀ m ∈ ms, ∀ w ∈ m.theWaitingLSQs, (∀ t ∈ ts, t.seq = w → keep t = true) →
      ∃ m' ∈ ms', m'.thePaddr = m.thePaddr ∧ w ∈ m'.theWaitingLSQs)
    (hkeys : (ms'.map MSHR.thePaddr).Nodup) : Linked (ts.filter keep) ms' where
  unique := h.unique.sublist (List.filter_sublist.map _)
  keys := hkeys
  present := by
    intro m' hm' w hw
    obtain ⟨-, m, hm, hkey, hsub, hkeep⟩ := hkept m' hm'
    obtain ⟨t, ht, hseq, hback⟩ := h.present m hm w (hsub.subset hw)
    exact ⟨t, List.mem_filter.mpr ⟨ht, hkeep w hw t ht hseq⟩, hseq, hkey ▸ hback⟩
  waits := by
    intro t ht b hb
    obtain ⟨ht, hkeep⟩ := List.mem_filter.mp ht
    obtain ⟨hown, m, hm, hkey, hw⟩ := h.waits t ht b hb
    obtain ⟨m', hm', hkey', hw'⟩ := hall m hm t.seq hw fun x hx hseq => by
      rwa [h.eq_of_seq hx ht hseq]
    exact ⟨hown, m', hm', hkey'.trans hkey, hw'⟩
  once := by
    intro m' hm'
    obtain ⟨-, m, hm, -, hsub, -⟩ := hkept m' hm'
    exact (h.once m hm).sublist hsub

end Linked

/-! ## What the functions do to the links -/

/-- A reference to a waiter or to a register that is gone. -/
def Unhooked (f : CoreFault) : Prop := f = .danglingWaiter ∨ f = .danglingMSHR ∨ f = .notWaiting

/-- A reply or a request that meets a register of the wrong kind. -/
def Astray (f : CoreFault) : Prop := f = .emptyMSHR ∨ f = .noPageWalk

abbrev Tame (f : CoreFault) : Prop := ¬ Unhooked f ∧ ¬ Astray f

instance (f : CoreFault) : Decidable (Unhooked f) := inferInstanceAs (Decidable (_ ∨ _))

instance (f : CoreFault) : Decidable (Astray f) := inferInstanceAs (Decidable (_ ∨ _))

/-- Registers lose waiters and are released with the last one. Those without waiters stay. -/
structure Sheds (ms ms' : List MSHR) : Prop where
  origin : ∀ m' ∈ ms', ∃ m ∈ ms, m'.thePaddr = m.thePaddr ∧ m'.theOperation = m.theOperation ∧
    m'.theSize = m.theSize ∧ (m'.theWaitingLSQs = [] → m' = m)
  idle : ∀ m ∈ ms, m.theWaitingLSQs = [] → m ∈ ms'

theorem Sheds.refl (ms : List MSHR) : Sheds ms ms :=
  ⟨fun m hm => ⟨m, hm, rfl, rfl, rfl, fun _ => rfl⟩, fun _ hm _ => hm⟩

theorem Sheds.trans {ms'' : List MSHR} (h : Sheds ms ms') (h' : Sheds ms' ms'') : Sheds ms ms'' where
  origin := by
    intro m'' hm''
    obtain ⟨m', hm', hkey', hop', hsize', hsame'⟩ := h'.origin m'' hm''
    obtain ⟨m, hm, hkey, hop, hsize, hsame⟩ := h.origin m' hm'
    refine ⟨m, hm, hkey'.trans hkey, hop'.trans hop, hsize'.trans hsize, fun hempty => ?_⟩
    have heq := hsame' hempty
    rw [heq]
    exact hsame (heq ▸ hempty)
  idle := fun m hm hempty => h'.idle m (h.idle m hm hempty) hempty

/-- The links, and what is in flight. -/
structure Wires where
  ties : List Tie
  theMSHRs : List MSHR
  theMemoryPorts : List MemOp
  thePageWalkRequests : List (VirtualMemoryAddress × Nat)
  theReadyTranslations : List Nat

def Core.wires (c : Core) : Wires where
  ties := tiesOf c.theMemQueue
  theMSHRs := c.theMSHRs
  theMemoryPorts := c.theMemoryPorts
  thePageWalkRequests := c.thePageWalkRequests
  theReadyTranslations := c.theReadyTranslations

abbrev Wires.Linked (w : Wires) : Prop := nuArchARM.Linked w.ties w.theMSHRs

/-- Links are cut or unaffected, and nothing is sent. -/
structure Loosens (w w' : Wires) : Prop where
  linked : w'.Linked
  sheds : Sheds w.theMSHRs w'.theMSHRs
  ports : w'.theMemoryPorts = w.theMemoryPorts
  walks : w'.thePageWalkRequests = w.thePageWalkRequests
  ready : w'.theReadyTranslations = w.theReadyTranslations

variable {w w' w'' : Wires}

theorem Loosens.refl (h : w.Linked) : Loosens w w := ⟨h, .refl _, rfl, rfl, rfl⟩

theorem Loosens.of_eq (h : w.Linked) (heq : w' = w) : Loosens w w' := by
  rw [heq]
  exact .refl h

theorem Loosens.trans (h : Loosens w w') (h' : Loosens w' w'') : Loosens w w'' :=
  ⟨h'.linked, h.sheds.trans h'.sheds, h'.ports.trans h.ports, h'.walks.trans h.walks,
    h'.ready.trans h.ready⟩

/-- Only the entries change. -/
theorem Loosens.of_ties {ts' : List Tie} (h : nuArchARM.Linked ts' w.theMSHRs) :
    Loosens w { w with ties := ts' } := ⟨h, .refl _, rfl, rfl, rfl⟩

variable {cfg : CoreConfig} {c c' : Core} {q q' : List LSQEntry} {e : LSQEntry} {i : Instruction}

theorem tiesOf_update {f : LSQEntry → LSQEntry} (hf : ∀ e, (f e).tie = e.tie) :
    tiesOf (updateEntry q s f) = tiesOf q := Keyed.map_alter_of_same hf

theorem tiesOf_erase : tiesOf (Keyed.erase seqOf s q) = Keyed.erase Tie.seq s (tiesOf q) :=
  Keyed.map_erase fun _ => rfl

theorem tiesOf_unlink {f : LSQEntry → LSQEntry} (hf : ∀ e, (f e).tie = e.tie.unlink) :
    tiesOf (updateEntry q s f) = Keyed.alter Tie.seq s Tie.unlink (tiesOf q) :=
  Keyed.map_alter_image (fun _ => rfl) hf

theorem findEntry_update {f : LSQEntry → LSQEntry} (hf : ∀ e, seqOf (f e) = seqOf e)
    (hfind : findEntry q s = some e) : findEntry (updateEntry q s f) s = some (f e) := by
  have hlookup : Keyed.lookup seqOf q s = some e := hfind
  refine (Keyed.lookup_alter hf).trans ?_
  rw [if_pos rfl, hlookup]
  rfl

theorem mem_ties (hfind : findEntry q s = some e) : e.tie ∈ tiesOf q ∧ e.tie.seq = s := by
  obtain ⟨hmem, hseq⟩ := Keyed.mem_of_lookup hfind
  exact ⟨List.mem_map_of_mem hmem, hseq⟩

/-- Unlinking an entry that is not linked. -/
theorem alter_unlink_of_none (hnone : ∀ t ∈ ts, t.seq = s → t.link = none) :
    Keyed.alter Tie.seq s Tie.unlink ts = ts := by
  refine Keyed.alter_eq_self fun t ht hseq => ?_
  rw [Tie.unlink, ← hnone t ht hseq]

theorem unlinked_alter : ∀ t ∈ Keyed.alter Tie.seq s Tie.unlink ts, t.seq = s → t.link = none := by
  intro t' ht' hseq
  obtain ⟨t, ht, rfl⟩ := List.mem_map.mp ht'
  by_cases heq : t.seq = s
  · rw [if_pos heq]
    rfl
  · rw [if_neg heq] at hseq
    exact absurd hseq heq

theorem requestPort_ties : Yields Tame (requestPort cfg q s) (tiesOf · = tiesOf q) := by
  rw [requestPort]
  cases findEntry q s with
  | none => exact .ok rfl
  | some e =>
    refine .ite (fun _ => .ok rfl) fun _ => ?_
    refine .ite (fun _ => .error (by decide)) fun _ => ?_
    refine .ite (fun _ => .ok rfl) fun _ => ?_
    exact .ok (tiesOf_update fun _ => rfl)

theorem wake_ties {blocked : List Nat} : Yields Tame (wake cfg blocked q) (tiesOf · = tiesOf q) := by
  induction blocked generalizing q with
  | nil => exact .ok rfl
  | cons w ws ih =>
    rw [wake]
    refine .bind requestPort_ties fun q' hq' => ?_
    exact ih.weaken fun _ hr => hr.trans hq'

theorem breakMSHRLink_linked (h : Linked (tiesOf q) ms) (hfind : findEntry q s = some e) :
    Yields Tame (breakMSHRLink cfg q ms e) fun r => Linked (tiesOf r.1) r.2 ∧ Sheds ms r.2 ∧
      tiesOf r.1 = Keyed.alter Tie.seq s Tie.unlink (tiesOf q) := by
  obtain ⟨hmem, hseq⟩ := mem_ties hfind
  have hissued : tiesOf (updateEntry q e.theSequenceNum (setIssued false)) = tiesOf q :=
    tiesOf_update fun _ => rfl
  rw [breakMSHRLink]
  cases hlink : e.link with
  | none =>
    have hnone : ∀ t ∈ tiesOf q, t.seq = s → t.link = none := by
      intro t ht hts
      rw [h.eq_of_seq ht hmem (hts.trans hseq.symm)]
      exact hlink
    refine .ok ⟨hissued ▸ h, .refl _, ?_⟩
    rw [hissued, alter_unlink_of_none hnone]
  | some a =>
    obtain ⟨-, m, hm, hkey, hw⟩ := h.waits e.tie hmem a hlink
    have hfound : findMSHR ms a = some m := hkey ▸ Keyed.lookup_of_mem h.keys hm
    have hdetached := h.detach hmem hlink
    have hties : ∀ q', tiesOf q' = tiesOf q → tiesOf (updateEntry q' e.theSequenceNum unlink) =
        Keyed.alter Tie.seq s Tie.unlink (tiesOf q) := by
      intro q' hq'
      rw [← hq', ← hseq]
      exact tiesOf_unlink fun _ => rfl
    have hown : ∀ x ∈ ms, x.thePaddr = a → x = m := by
      intro x hx hxa
      exact h.eq_of_key hx hm (hxa.trans hkey.symm)
    dsimp only
    rw [hfound]
    dsimp only
    have hin : e.theSequenceNum ∈ m.theWaitingLSQs := hw
    rw [if_neg (not_not.mpr hin)]
    refine .ite (fun hlast => ?_) fun hmore => ?_
    · refine .bind wake_ties ?_
      rintro q' hq'
      refine .pure ⟨?_, ?_, hties q' (hq'.trans hissued)⟩
      · rw [hties q' (hq'.trans hissued), ← hseq]
        have hreleased := hdetached.release (a := a) ?_
        · rwa [Keyed.erase_alter (by intro _; rfl)] at hreleased
        · intro x' hx' hxa
          obtain ⟨x, hx, rfl⟩ := List.mem_map.mp hx'
          split at hxa
          · next hxa' =>
            rw [if_pos hxa', hown x hx hxa']
            exact hlast
          · next hne => exact absurd hxa hne
      · refine ⟨fun x hx => ⟨x, List.mem_of_mem_filter hx, rfl, rfl, rfl, fun _ => rfl⟩, ?_⟩
        intro x hx hempty
        refine List.mem_filter.mpr ⟨hx, ?_⟩
        have hne : x.thePaddr ≠ a := by
          intro hxa
          rw [hown x hx hxa] at hempty
          rw [hempty] at hin
          cases hin
        simpa using hne
    · refine .ok ⟨?_, ?_, hties _ hissued⟩
      · rw [hties _ hissued, ← hseq]
        exact hdetached
      · refine ⟨?_, ?_⟩
        · intro x' hx'
          obtain ⟨x, hx, rfl⟩ := List.mem_map.mp hx'
          refine ⟨x, hx, ?_⟩
          by_cases hxa : x.thePaddr = a
          · rw [if_pos hxa]
            refine ⟨rfl, rfl, rfl, fun hempty => ?_⟩
            rw [hown x hx hxa] at hempty
            exact absurd hempty hmore
          · rw [if_neg hxa]
            exact ⟨rfl, rfl, rfl, fun _ => rfl⟩
        · intro x hx hempty
          refine List.mem_map.mpr ⟨x, hx, if_neg ?_⟩
          intro hxa
          rw [hown x hx hxa] at hempty
          rw [hempty] at hin
          cases hin

theorem uncount_wires : Yields Tame (c.uncount e) fun c' =>
    c'.wires = c.wires ∧ c'.theMemQueue = c.theMemQueue := by
  rw [Core.uncount]
  cases e.theQueue with
  | kLSQ => exact .ite (fun _ => .error (by decide)) fun _ => .ok ⟨rfl, rfl⟩
  | kSSB | kSB =>
    refine .ite (fun _ => ?_) fun _ => ?_
    · exact .ite (fun _ => .error (by decide)) fun _ => .ok ⟨rfl, rfl⟩
    · exact .ite (fun _ => .error (by decide)) fun _ => .ok ⟨rfl, rfl⟩

theorem unrequireWritePermission_wires :
    Yields Tame (c.unrequireWritePermission cfg a) fun c' =>
      c'.wires = c.wires ∧ c'.theMemQueue = c.theMemQueue := by
  have hunrequire : Yields Tame (c.thePermissions.unrequire (cfg.line a)) fun _ => True := by
    rw [Permissions.unrequire]
    cases c.thePermissions.find (cfg.line a) with
    | none => exact .ok trivial
    | some l =>
      refine .ite (fun _ => .error (by decide)) fun _ => .ite (fun _ => ?_) fun _ => .ok trivial
      exact .ite (fun _ => .error (by decide)) fun _ => .ok trivial
  exact .bind hunrequire fun p _ => .pure ⟨rfl, rfl⟩

theorem checkCounts_wires : Yields Tame c.checkCounts fun c' => c' = c :=
  .ite (fun _ => .ok rfl) fun _ => .error (by decide)

/-- The entry is taken from its register, uncounted and erased. -/
theorem eraseLSQ_wires {P : List LSQEntry × List MSHR → Prop}
    (hfind : findEntry c.theMemQueue s = some e)
    (hcut : Yields Tame (breakMSHRLink cfg c.theMemQueue c.theMSHRs e) P) :
    Yields Tame (c.eraseLSQ cfg s) fun c' => ∃ r, P r ∧
      c'.wires = { c.wires with ties := Keyed.erase Tie.seq s (tiesOf r.1), theMSHRs := r.2 } := by
  rw [Core.eraseLSQ, hfind]
  refine .bind hcut ?_
  rintro ⟨q, ms⟩ hP
  refine .bind uncount_wires ?_
  rintro c₁ ⟨hwires, hqueue⟩
  have hperm : Yields Tame (if Core.needsPermission e then
      c₁.unrequireWritePermission cfg e.thePaddr else pure c₁) fun c' =>
        c'.wires = c₁.wires ∧ c'.theMemQueue = c₁.theMemQueue :=
    .ite (fun _ => unrequireWritePermission_wires) fun _ => .pure ⟨rfl, rfl⟩
  refine .bind hperm ?_
  rintro c₂ ⟨hwires₂, hqueue₂⟩
  refine checkCounts_wires.weaken ?_
  rintro c' rfl
  have hrest := hwires₂.trans hwires
  have hties : tiesOf (Keyed.erase seqOf s c₂.theMemQueue) = Keyed.erase Tie.seq s (tiesOf q) := by
    rw [hqueue₂, hqueue]
    exact tiesOf_erase
  refine ⟨(q, ms), hP, ?_⟩
  change { c₂.wires with ties := tiesOf (Keyed.erase seqOf s c₂.theMemQueue) } = _
  rw [hrest, hties]
  rfl

theorem eraseLSQ_loosens (h : c.wires.Linked) :
    Yields Tame (c.eraseLSQ cfg s) fun c' => Loosens c.wires c'.wires := by
  cases hfind : findEntry c.theMemQueue s with
  | none =>
    rw [Core.eraseLSQ, hfind]
    exact .ok (.refl h)
  | some e =>
    refine (eraseLSQ_wires hfind (breakMSHRLink_linked h hfind)).weaken ?_
    rintro c' ⟨r, ⟨hlinked, hsheds, hties⟩, hwires⟩
    rw [hwires]
    refine ⟨hlinked.remove ?_, hsheds, rfl, rfl, rfl⟩
    rw [hties]
    exact unlinked_alter

/-- An entry that is not linked leaves the registers as they are. -/
theorem eraseLSQ_unlinked (hfind : findEntry c.theMemQueue s = some e) (hlink : e.link = none) :
    Yields Tame (c.eraseLSQ cfg s) fun c' =>
      c'.wires = { c.wires with ties := Keyed.erase Tie.seq s c.wires.ties } := by
  have hcut : Yields Tame (breakMSHRLink cfg c.theMemQueue c.theMSHRs e) fun r =>
      tiesOf r.1 = tiesOf c.theMemQueue ∧ r.2 = c.theMSHRs := by
    rw [breakMSHRLink, hlink]
    exact .ok ⟨tiesOf_update fun _ => rfl, rfl⟩
  refine (eraseLSQ_wires hfind hcut).weaken ?_
  rintro c' ⟨r, ⟨hties, hms⟩, hwires⟩
  rw [hwires, hties, hms]
  rfl

/-! ## Retirement and commit -/

theorem wires_update {f : LSQEntry → LSQEntry} (hf : ∀ e, (f e).tie = e.tie) :
    { c with theMemQueue := updateEntry c.theMemQueue s f }.wires = c.wires := by
  rw [Core.wires, Core.wires, tiesOf_update hf]

theorem enterSSB_wires {f : LSQEntry → LSQEntry} (hf : ∀ e, (f e).tie = e.tie) :
    Yields Tame (c.enterSSB s f) fun c' => c'.wires = c.wires := by
  rw [Core.enterSSB, Core.leaveLSQ]
  exact .ite (fun _ => .error (by decide)) fun _ => .ok (wires_update hf)

theorem createCheckpoint_wires : Yields Tame (c.createCheckpoint cfg s) fun c' => c'.wires = c.wires := by
  rw [Core.createCheckpoint]
  refine .ite (fun _ => .error (by decide)) fun _ => ?_
  refine .ite (fun _ => .error (by decide)) fun _ => ?_
  exact .ite (fun _ => .error (by decide)) fun _ => .ok rfl

theorem requireWritePermission_wires :
    Yields Tame (c.requireWritePermission cfg e) fun c' => c'.wires = c.wires := by
  have hrequire : Yields Tame (c.thePermissions.require (cfg.line e.thePaddr)) fun _ => True := by
    rw [Permissions.require]
    cases c.thePermissions.find (cfg.line e.thePaddr) with
    | none => exact .ite (fun _ => .error (by decide)) fun _ => .ok trivial
    | some l => exact .ok trivial
  rw [Core.requireWritePermission]
  refine .ite (fun _ => .ok rfl) fun _ => .bind hrequire ?_
  rintro ⟨p, permission⟩ -
  dsimp only
  cases c.theOpenCheckpoint with
  | none => exact .pure rfl
  | some n => exact .ite (fun _ => .pure rfl) fun _ => .pure rfl

/-- The entry is gone. -/
theorem erase_then (h : c.wires.Linked) {i' : Instruction} :
    Yields Tame (do let c ← c.eraseLSQ cfg s; pure (c, i')) fun r => Loosens c.wires r.1.wires :=
  .bind (eraseLSQ_loosens h) fun _ hc' => .pure hc'

theorem retireAtomic_loosens (h : c.wires.Linked) :
    Yields Tame (c.retireAtomic cfg i e) fun r => Loosens c.wires r.1.wires := by
  rw [Core.retireAtomic]
  refine .ite (fun _ => .error (by decide)) fun _ => ?_
  refine .ite (fun _ => .error (by decide)) fun _ => ?_
  refine .ite (fun _ => erase_then h) fun _ => ?_
  refine .ite (fun _ => .error (by decide)) fun _ => ?_
  refine .ite (fun _ => .error (by decide)) fun _ => ?_
  refine .ite (fun _ => .error (by decide)) fun _ => ?_
  refine .bind (enterSSB_wires (by intro _; rfl)) fun c₁ h₁ => ?_
  refine .bind createCheckpoint_wires fun c₂ h₂ => ?_
  refine .bind requireWritePermission_wires fun c₃ h₃ => ?_
  exact .pure (.of_eq h (h₃.trans (h₂.trans h₁)))

theorem retireLoad_loosens (h : c.wires.Linked) :
    Yields Tame (c.retireLoad cfg i e) fun r => Loosens c.wires r.1.wires := by
  rw [Core.retireLoad]
  refine .ite (fun _ => ?_) fun _ => erase_then h
  refine .bind (enterSSB_wires (by intro _; rfl)) fun c₁ h₁ => ?_
  refine .bind createCheckpoint_wires fun c₂ h₂ => ?_
  exact .pure (.of_eq h (h₂.trans h₁))

theorem retireStore_loosens (h : c.wires.Linked) :
    Yields Tame (c.retireStore cfg i e) fun r => Loosens c.wires r.1.wires := by
  rw [Core.retireStore]
  refine .ite (fun _ => erase_then h) fun _ => ?_
  refine .ite (fun _ => .error (by decide)) fun _ => ?_
  refine .bind (enterSSB_wires (by intro _; rfl)) fun c₁ h₁ => ?_
  have hcount : (if e.theBypassSB then { c₁ with theSBNAWCount := c₁.theSBNAWCount + 1 }
      else { c₁ with theSBCount := c₁.theSBCount + 1 }).wires = c₁.wires := by
    split <;> rfl
  refine .bind requireWritePermission_wires fun c₂ h₂ => ?_
  exact .pure (.of_eq h (h₂.trans (hcount.trans h₁)))

theorem retireMEMBAR_loosens (h : c.wires.Linked) :
    Yields Tame (c.retireMEMBAR cfg i) fun r => Loosens c.wires r.1.wires := by
  rw [Core.retireMEMBAR]
  refine .ite (fun _ => erase_then h) fun _ => ?_
  refine .ite (fun _ => .error (by decide)) fun _ => ?_
  refine .bind (enterSSB_wires (by intro _; rfl)) fun c₁ h₁ => ?_
  refine .ite (fun _ => .pure (.of_eq h h₁)) fun _ => ?_
  refine .bind createCheckpoint_wires fun c₂ h₂ => ?_
  exact .pure (.of_eq h (h₂.trans h₁))

theorem retireMem_loosens (h : c.wires.Linked) :
    Yields Tame (c.retireMem cfg i) fun r => Loosens c.wires r.1.wires := by
  rw [Core.retireMem]
  cases findEntry c.theMemQueue i.sequenceNo with
  | none => exact .error (by decide)
  | some e =>
    refine .ite (fun _ => .error (by decide)) fun _ => ?_
    cases e.theOperation with
    | kCAS | kRMW => exact retireAtomic_loosens h
    | kLoad => exact retireLoad_loosens h
    | kStore => exact retireStore_loosens h
    | kMEMBARMarker => exact retireMEMBAR_loosens h
    | kCASP => exact .error (by decide)

theorem retire_loosens (h : c.wires.Linked) {memory : Bool} :
    Yields Tame (c.retire cfg memory) fun c' => Loosens c.wires c'.wires := by
  rw [Core.retire]
  cases c.theROB with
  | nil => exact .ok (.refl h)
  | cons i rest =>
    have hleaves : Yields Tame (if memory then c.retireMem cfg i else pure (c, i)) fun r =>
        Loosens c.wires r.1.wires :=
      .ite (fun _ => retireMem_loosens h) fun _ => .pure (.refl h)
    refine .bind hleaves fun r hr => ?_
    exact .pure hr

theorem commitEffects_loosens (h : c.wires.Linked) :
    Yields Tame (c.commitEffects cfg i) fun c' => Loosens c.wires c'.wires := by
  rw [Core.commitEffects]
  cases i.theCommitEffect with
  | keep => exact .ok (.refl h)
  | eraseLSQ => exact eraseLSQ_loosens h
  | commitStore =>
    dsimp only
    rw [Core.commitStore]
    cases findEntry c.theMemQueue i.sequenceNo with
    | none => exact .ok (.refl h)
    | some e =>
      refine .ite (fun _ => .error (by decide)) fun _ => ?_
      refine .ite (fun _ => .error (by decide)) fun _ => ?_
      refine .ite (fun _ => .error (by decide)) fun _ => ?_
      refine .ite (fun _ => .error (by decide)) fun _ => ?_
      refine .ite (fun _ => .error (by decide)) fun _ => .ok (.of_eq h ?_)
      exact wires_update (by intro _; rfl)

theorem resolveCheckpoint_loosens (h : c.wires.Linked) :
    Yields Tame (c.resolveCheckpoint cfg) fun c' => Loosens c.wires c'.wires := by
  rw [Core.resolveCheckpoint]
  split
  · exact .ok (.refl h)
  · refine .ite (fun _ => ?_) fun _ => .ok (.refl h)
    refine .ite (fun _ => .error (by decide)) fun _ => ?_
    split
    · exact .error (by decide)
    · refine .ite (fun _ => ?_) fun _ => .ok (.refl h)
      refine .ite (fun _ => .ok (.of_eq h ?_)) fun _ => ?_
      · exact wires_update (by intro _; rfl)
      · exact .ite (fun _ => eraseLSQ_loosens h) fun _ => .ok (.refl h)

end nuArchARM
