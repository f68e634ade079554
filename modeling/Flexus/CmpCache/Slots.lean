import Flexus.CmpCache.Accounts

/-!
# The entries of processes

A woken process has an entry of its own in the pipeline, and a process that completes a request
has the entry of an active request that holds no place.
-/

namespace nCMPCache

open Runs

/-- The actions that take the entry of the process out. -/
def ProcessAction.completes : ProcessAction → Bool
  | .eRemoveAndWakeMAF | .eReplyAndRemoveMAF | .eRemoveMAF => true
  | _ => false

/-- The actions that wake the entry of the process after an eviction. -/
def ProcessAction.wakesEvict : ProcessAction → Bool
  | .eWakeEvictMAF | .eFwdAndWakeEvictMAF => true
  | _ => false

namespace Policy

variable {cfg : CMPCacheInfo} {s s' : Policy cfg} {p q : ProcessEntry} {a : MemoryAddress} {i j : Nat} {u : Ticket}

/-- Waiting entries wake up, and one entry may be taken out. -/
structure Wakes (m m' : MissAddressFile) (gone : Option Nat) : Prop where
  stamps : m'.nextStamp = m.nextStamp
  reserved : ∀ j, m'.reservedBy j = if gone = some j then 0 else m.reservedBy j
  ticket : ∀ {j u'}, m'.ticket j = some u' → gone ≠ some j ∧
    ∃ u, m.ticket j = some u ∧ (u' = u ∨ u' = { u with state := .eWaking })
  busy : ∀ {j u}, gone ≠ some j → m.ticket j = some u → u.state = .eInPipeline ∨ u.state = .eWaitAck →
    m'.ticket j = some u

theorem Wakes.of_woken {W : Nat → Ticket → Prop} [∀ j u, Decidable (W j u)] {m m' : MissAddressFile}
    {gone : Option Nat} (hstamps : m'.nextStamp = m.nextStamp)
    (hreserved : ∀ j, m'.reservedBy j = if gone = some j then 0 else m.reservedBy j)
    (hticket : ∀ j, m'.ticket j = if gone = some j then none else
      (m.ticket j).map fun u => if W j u then { u with state := .eWaking } else u)
    (hidle : ∀ {j u}, gone ≠ some j → m.ticket j = some u → W j u →
      u.state ≠ .eInPipeline ∧ u.state ≠ .eWaitAck) : Wakes m m' gone := by
  refine ⟨hstamps, hreserved, fun {j u'} hu' => ?_, fun {j u} hgone hu hbusy => ?_⟩
  · rw [hticket] at hu'
    split at hu'
    · cases hu'
    · next hgone =>
      obtain ⟨u, hu, rfl⟩ := Option.map_eq_some_iff.mp hu'
      refine ⟨hgone, u, hu, ?_⟩
      split
      · exact .inr rfl
      · exact .inl rfl
  · rw [hticket, if_neg hgone, hu, Option.map_some, if_neg]
    intro hw
    obtain ⟨hpipeline, hactive⟩ := hidle hgone hu hw
    exact hbusy.elim hpipeline hactive

theorem wakes_remove : Wakes s.theMAF (s.theMAF.remove i) (some i) := by
  refine .of_woken (W := fun _ _ => False) rfl (fun j => ?_) (fun j => ?_) fun _ _ h => h.elim
  · rw [MissAddressFile.reservedBy_remove]
    simp only [Option.some.injEq, eq_comm]
  · rw [MissAddressFile.ticket_remove]
    simp only [Option.some.injEq, if_false, Option.map_id', eq_comm]

theorem Wakes.refl (m : MissAddressFile) : Wakes m m none :=
  ⟨rfl, fun _ => (if_neg (by simp)).symm, fun {_ u} hu => ⟨by simp, u, hu, .inl rfl⟩, fun _ hu _ => hu⟩

theorem wakes_wakeMAFs (s : Policy cfg) (a : MemoryAddress) : Wakes s.theMAF (s.wakeMAFs a).theMAF none := by
  rcases wakeMAFs_spec s a with ⟨_, hsame⟩ | ⟨_, _, hstamps, hwoken⟩
  · rw [hsame]
    exact .refl _
  · refine .of_woken (W := fun _ u => WokenWith cfg a u) hstamps (fun j => ?_) (fun j => ?_) fun {j u} _ _ hw => ?_
    · rw [if_neg (by simp)]
      unfold wakeMAFs
      split
      · rfl
      · exact MissAddressFile.reservedBy_wakeAll
    · rw [if_neg (by simp)]
      exact hwoken j
    · rcases hw with ⟨_, hstate⟩ | ⟨hstate, _⟩ <;> simp [hstate]

theorem Wakes.trans {m m₁ m' : MissAddressFile} {gone : Option Nat} (h₁ : Wakes m m₁ gone)
    (h₂ : Wakes m₁ m' none) : Wakes m m' gone := by
  refine ⟨h₂.stamps.trans h₁.stamps, fun j => ?_, fun {j u'} hu' => ?_, fun hgone hu hbusy => ?_⟩
  · rw [h₂.reserved, if_neg (by simp), h₁.reserved]
  · obtain ⟨_, u₁, hu₁, hwoken⟩ := h₂.ticket hu'
    obtain ⟨hgone, u, hu, hwoken'⟩ := h₁.ticket hu₁
    refine ⟨hgone, u, hu, ?_⟩
    rcases hwoken with rfl | rfl <;> rcases hwoken' with rfl | rfl
    · exact .inl rfl
    · exact .inr rfl
    · exact .inr rfl
    · exact .inr rfl
  · exact h₂.busy (by simp) (h₁.busy hgone hu hbusy) hbusy

/-- Finalizing a process takes its entry out or wakes waiting entries. -/
theorem finalizeMAF_wakes (hok : Controller.finalizeMAF s q = .ok s')
    (hwoke : q.action.wakesEvict = true → ∀ i u, q.maf = some i → s.theMAF.ticket i = some u →
      u.state = .eWaitEvict) :
    Wakes s.theMAF s'.theMAF (if q.action.completes then q.maf else none) := by
  unfold Controller.finalizeMAF at hok
  split at hok
  case h_1 | h_2 =>
    next haction =>
    rw [haction] at hwoke ⊢
    obtain ⟨e, hof, hpure⟩ := bind_eq_ok.mp hok
    obtain rfl := pure_eq_ok.mp hpure
    obtain ⟨hslot, hticket⟩ := mafOf_spec hof
    have hstate := hwoke rfl _ _ hslot hticket
    refine .of_woken MissAddressFile.nextStamp_wakeAfterEvict (fun j => ?_)
      (fun j => MissAddressFile.ticket_wakeAfterEvict) fun {j u} _ hu hw => ?_
    · exact MissAddressFile.reservedBy_wakeAfterEvict
    · rcases hw with rfl | ⟨_, hwaits⟩
      · rw [hticket] at hu
        cases hu
        simp [hstate]
      · simp [hwaits]
  case h_3 | h_4 =>
    next haction =>
    obtain ⟨e, hof, hpure⟩ := bind_eq_ok.mp hok
    obtain rfl := pure_eq_ok.mp hpure
    rw [haction, (mafOf_spec hof).1]
    exact wakes_remove.trans (wakes_wakeMAFs { s with theMAF := s.theMAF.remove e.stamp } _)
  case h_5 =>
    next haction =>
    obtain ⟨e, hof, hpure⟩ := bind_eq_ok.mp hok
    obtain rfl := pure_eq_ok.mp hpure
    rw [haction, (mafOf_spec hof).1]
    exact wakes_remove
  case h_6 =>
    obtain rfl := pure_eq_ok.mp hok
    have hnone : q.action.completes = false := by
      cases haction : q.action <;> simp_all [ProcessAction.completes]
    rw [hnone]
    exact .refl _

theorem finalizeMAF_dirEB (hok : Controller.finalizeMAF s q = .ok s') :
    s'.theDirEvictBuffer = s.theDirEvictBuffer := by
  cases finalizeMAF_finalized hok with
  | woke _ _ _ hs' _ _ => rw [hs']
  | removed _ _ _ hs' =>
    rw [hs']
    unfold wakeMAFs
    split <;> rfl
  | dropped _ _ hs' => rw [hs']
  | nothing hs' => rw [hs']

/-- Waking entries, and taking one out that holds nothing, keeps every place. -/
theorem Wakes.thrifty {gone : Option Nat} (h : Wakes s.theMAF s'.theMAF gone) (hthrifty : s.Thrifty)
    (hdir : s'.theDirEvictBuffer = s.theDirEvictBuffer)
    (hempty : ∀ i, gone = some i → s.theMAF.reservedBy i = 0) : s'.Thrifty ∧ s'.held = s.held := by
  have hby : ∀ j, s'.theMAF.reservedBy j = s.theMAF.reservedBy j := by
    intro j
    rw [h.reserved]
    split
    · next hgone => rw [hempty j hgone]
    · rfl
  refine ⟨⟨fun j => hby j ▸ hthrifty.nonneg j, fun {j u'} hu' hne => ?_, hdir ▸ hthrifty.dir⟩, ?_⟩
  · obtain ⟨hgone, u, hu, _⟩ := h.ticket hu'
    rw [hby] at hne
    have hactive := hthrifty.active hu hne
    rw [h.busy hgone hu (.inr hactive.1)] at hu'
    cases hu'
    exact hactive
  · rw [held, held, MissAddressFile.reserved_of_same hby, hdir]

/-- The entry of an active request that holds no place any more, or one that is gone. -/
structure Done (m : MissAddressFile) (i : Nat) : Prop where
  stamped : i < m.nextStamp
  empty : m.reservedBy i = 0
  active : ∀ {u}, m.ticket i = some u → u.state = .eWaitAck

theorem Done.of_spares {m m' : MissAddressFile} {slot : Option Nat} (h : Done m i) (hspares : Spares m m' slot)
    (hslot : slot ≠ some i) : Done m' i := by
  obtain ⟨hticket, hempty⟩ := hspares.others i hslot
  refine ⟨h.stamped.trans_le hspares.stamps, hempty h.empty, fun hu => ?_⟩
  rw [hticket] at hu
  exact h.active hu

theorem Done.of_wakes {m m' : MissAddressFile} {gone : Option Nat} (h : Done m i) (hwakes : Wakes m m' gone) :
    Done m' i := by
  refine ⟨hwakes.stamps ▸ h.stamped, ?_, fun {u'} hu' => ?_⟩
  · rw [hwakes.reserved]
    split
    · rfl
    · exact h.empty
  · obtain ⟨hgone, u, hu, _⟩ := hwakes.ticket hu'
    rw [hwakes.busy hgone hu (.inr (h.active hu))] at hu'
    cases hu'
    exact h.active hu

end Policy

namespace Controller

variable {cfg : CMPCacheInfo} {c c' : Controller cfg} {s s' : Policy cfg} {p q : ProcessEntry}
  {rest : List ProcessEntry} {reserve : Int} {i : Nat} {e : Event} {k k' : Core cfg} {final : Option ProcessEntry}

/-- Woken processes have entries of their own in the pipeline, and processes that complete
    requests have entries of active requests without a place. -/
structure Slots (k : Core cfg) : Prop where
  woken : ∀ p ∈ k.waiting, p.type = .eProcWakeMAF →
    ∃ i u, p.maf = some i ∧ k.policy.theMAF.ticket i = some u ∧ u.state = .eInPipeline
  apart : k.waiting.Pairwise fun p q => p.type = .eProcWakeMAF → q.type = .eProcWakeMAF → p.maf ≠ q.maf
  completing : ∀ q ∈ k.pending, q.action.completes = true → ∀ i, q.maf = some i →
    Policy.Done k.policy.theMAF i

/-- The entry that the handler of a process may change. -/
def slotOf (s : Policy cfg) (p : ProcessEntry) : Option Nat :=
  match p.type with
  | .eProcWakeMAF => p.maf
  | .eProcRequest => some s.theMAF.nextStamp
  | _ => none

/-- A non-allocating store is answered for a request that is none to read. -/
def AnswersStore (s : Policy cfg) (p : ProcessEntry) : Prop :=
  p.type = .eProcReply → p.transport.msg.type = .NonAllocatingStoreReply →
    ∀ maf, s.matchingMAF p.transport = .ok maf → maf.type.isReadType = false

theorem Waiting.reserved (hp : Waiting p) (htype : p.type = .eProcWakeMAF ∨ p.type = .eProcRequest) :
    p.cacheEBReserved = 1 := by
  rw [hp.started]
  rcases htype with h | h <;> rw [h] <;> rfl

theorem Waiting.reply (hp : Waiting p) (htype : p.type = .eProcReply) :
    p.cacheEBReserved = 0 ∧ p.snoopTransports = [] := by
  rw [hp.started, htype]
  exact ⟨rfl, rfl⟩

theorem handle_spares (hp : Waiting p) (hthrifty : s.Thrifty) (hstore : AnswersStore s p)
    (hok : handle reserve s p = .ok (s', q)) : Policy.Spares s.theMAF s'.theMAF (slotOf s p) := by
  unfold handle at hok
  unfold slotOf
  split at hok <;> rename_i htype
  · rw [htype]
    obtain ⟨⟨s₁, p₁⟩, hwake, hdrop⟩ := bind_eq_ok.mp hok
    have hsame := withEntryTransport_same s p
    have hpositive : 0 < (withEntryTransport s p).cacheEBReserved := by
      rw [hsame]
      exact (hp.reserved (.inl htype)).symm ▸ Int.one_pos
    have hslot : (withEntryTransport s p).maf = p.maf := by rw [hsame]
    have hspares := Policy.doRequest_spares hpositive hwake
    rw [if_pos rfl, hslot] at hspares
    rcases dropRedundant_spec hdrop with ⟨_, rfl, _⟩ | ⟨hremove, i, hi, rfl, _⟩
    · exact hspares
    · obtain ⟨_, rfl, hmaf⟩ := doRequest_redundant hpositive hwake hremove
      have hgone : p.maf = some i := by rw [← hslot, ← hmaf, hi]
      refine ⟨le_rfl, fun j hj => ?_⟩
      have hji : j ≠ i := fun h => hj (by rw [hgone, h])
      dsimp only
      rw [MissAddressFile.ticket_remove, MissAddressFile.reservedBy_remove, if_neg hji, if_neg hji]
      exact ⟨rfl, id⟩
  · rw [htype]
    exact Policy.doRequest_spares ((hp.reserved (.inr htype)).symm ▸ Int.one_pos) hok
  · rw [htype]
    obtain ⟨hzero, hnone⟩ := hp.reply htype
    have hsame := (Policy.handleReply_replied hok).tickets
    have hreturns := Policy.handleReply_returns hthrifty hzero hnone (hstore htype) hok
    exact ⟨hsame.nextStamp.ge, fun j _ => ⟨by rw [hsame.ticket], hreturns.drained j⟩⟩
  · rw [Policy.handleIdleWork_theMAF hok]
    exact .refl _ _
  · cases hok

/-- A process that completes a request answers a reply, and has taken the place of the
    request's entry back. -/
theorem handle_done (hp : Waiting p) (hthrifty : s.Thrifty) (hstore : AnswersStore s p)
    (hok : handle reserve s p = .ok (s', q)) (haction : q.action.completes = true) (hi : q.maf = some i) :
    Policy.Done s'.theMAF i := by
  unfold handle at hok
  split at hok <;> rename_i htype
  · obtain ⟨⟨s₁, p₁⟩, hwake, hdrop⟩ := bind_eq_ok.mp hok
    have hpositive : 0 < (withEntryTransport s p).cacheEBReserved := by
      rw [withEntryTransport_same]
      exact (hp.reserved (.inl htype)).symm ▸ Int.one_pos
    obtain ⟨hnot, hnot'⟩ := doRequest_action hpositive hwake
    rcases dropRedundant_spec hdrop with ⟨hne, _, rfl⟩ | ⟨_, _, _, _, rfl⟩
    · cases hq : q.action <;> simp_all [ProcessAction.completes]
    · cases haction
  · have hpositive : 0 < p.cacheEBReserved := (hp.reserved (.inr htype)).symm ▸ Int.one_pos
    obtain ⟨hnot, hnot'⟩ := doRequest_action hpositive hok
    have hne : q.action ≠ .eRemoveMAF := fun h => by cases (doRequest_redundant hpositive hok h).1
    cases hq : q.action <;> simp_all [ProcessAction.completes]
  · obtain ⟨hzero, hnone⟩ := hp.reply htype
    have hreplied := Policy.handleReply_replied hok
    have hreturns := Policy.handleReply_returns hthrifty hzero hnone (hstore htype) hok
    cases hreplied.answers with
    | removes hcompletes hslot hticket hat =>
      obtain rfl := Option.some.inj (hslot.symm.trans hi)
      refine ⟨?_, hreturns.completed hcompletes _ hslot, fun hu => ?_⟩
      · rw [hreplied.tickets.nextStamp]
        exact MissAddressFile.lt_nextStamp_of_ticket hticket
      · rw [hreplied.tickets.ticket, hticket] at hu
        cases hu
        exact hat.2
    | wakes hother _ _ _ =>
      rw [hother] at haction
      cases haction
    | nothing hother => rcases hother with h | h | h <;> rw [h] at haction <;> cases haction
  · rcases Policy.handleIdleWork_spec hok with ⟨_, _, ⟨hother, _⟩ | ⟨hother, _⟩⟩ | ⟨_, _, hother, _⟩ <;>
      rw [hother] at haction <;> cases haction
  · cases hok

/-- Changing an entry that belongs neither to another woken process nor to one that completes
    a request. -/
theorem Slots.of_spares {waiting : List ProcessEntry} {slot : Option Nat} {snoops : List MemoryTransport}
    (hslots : Slots k) (hspares : Policy.Spares k.policy.theMAF s'.theMAF slot) (hfewer : waiting.Sublist k.waiting)
    (hother : ∀ p ∈ waiting, p.type = .eProcWakeMAF → p.maf ≠ slot)
    (hdone : ∀ i, Policy.Done k.policy.theMAF i → slot ≠ some i) :
    Slots { k with policy := s', waiting := waiting, snoops := snoops } := by
  refine ⟨fun p hp htype => ?_, hslots.apart.sublist hfewer, fun q hq haction i hi => ?_⟩
  · obtain ⟨i, u, hi, hu, hstate⟩ := hslots.woken p (hfewer.subset hp) htype
    have hne : slot ≠ some i := fun h => hother p hp htype (hi.trans h.symm)
    exact ⟨i, u, hi, ((hspares.others i hne).1).trans hu, hstate⟩
  · have hbefore := hslots.completing q hq haction i hi
    exact hbefore.of_spares hspares (hdone i hbefore)

theorem starts_slot (h : Starts s e s' p) :
    (p.type ≠ .eProcWakeMAF ∧ s'.theMAF = s.theMAF) ∨
    (p.type = .eProcWakeMAF ∧ ∃ i u u', p.maf = some i ∧ s.theMAF.ticket i = some u ∧ u.state = .eWaking ∧
      s'.theMAF.ticket i = some u' ∧ u'.state = .eInPipeline ∧
      Policy.Spares s.theMAF s'.theMAF (some i)) := by
  have hothers : ∀ {type : ProcessType} {t : MemoryTransport}, p.job = { type := type, transport := t } →
      type ≠ .eProcWakeMAF → p.type ≠ .eProcWakeMAF :=
    fun hjob hne h => hne ((congrArg ProcessEntry.type hjob).symm.trans h)
  cases h with
  | @wakeMAF m x _ hwaking hjob _ =>
    obtain ⟨hstamps, hbefore, hafter⟩ := MissAddressFile.ticket_getWakingMAF hwaking
    refine .inr ⟨congrArg ProcessEntry.type hjob, x.stamp, _, _, congrArg ProcessEntry.maf hjob, hbefore, rfl,
      (hafter x.stamp).trans (if_pos rfl), rfl, hstamps.ge, fun j hj => ⟨?_, fun h => ?_⟩⟩
    · exact (hafter j).trans (if_neg fun h => hj (congrArg some h.symm))
    · exact (MissAddressFile.reservedBy_getWakingMAF hwaking).trans h
  | cacheEvict hevict hjob =>
    obtain ⟨b, x, _, rfl, _⟩ := Policy.getCacheEvictTransport_spec hevict
    exact .inl ⟨hothers hjob (by simp), rfl⟩
  | dirEvict hjob => exact .inl ⟨hothers hjob (by simp), by rw [Policy.getIdleWorkTransport_frame]⟩
  | reply hjob => exact .inl ⟨hothers hjob (by simp), rfl⟩
  | snoop hjob => exact .inl ⟨hothers hjob (by simp), rfl⟩
  | request hjob _ => exact .inl ⟨hothers hjob (by simp), rfl⟩
  | idleWork hjob => exact .inl ⟨hothers hjob (by simp), by rw [Policy.getIdleWorkTransport_frame]⟩

/-- A process starts; one that is woken takes an entry that has been waiting to be woken. -/
theorem slots_started (hslots : Slots k) (hstarts : Starts k.policy e s' p) :
    Slots { k with policy := s', waiting := k.waiting ++ [p] } := by
  have happended : ∀ {R : ProcessEntry → ProcessEntry → Prop}, k.waiting.Pairwise R →
      (∀ x ∈ k.waiting, R x p) → (k.waiting ++ [p]).Pairwise R := by
    intro R hpairs hlast
    refine List.pairwise_append.mpr ⟨hpairs, List.pairwise_singleton R p, fun x hx y hy => ?_⟩
    obtain rfl := List.mem_singleton.mp hy
    exact hlast x hx
  rcases starts_slot hstarts with ⟨htype, hmaf⟩ | ⟨htype, i, u, u', hi, hu, hwaking, hu', hpipeline, hspares⟩
  · have hspares : Policy.Spares k.policy.theMAF s'.theMAF none := hmaf ▸ .refl _ _
    have hkept : Slots { k with policy := s' } := by
      refine hslots.of_spares hspares (List.Sublist.refl _) (fun x hx hwoken h => ?_) (by simp)
      obtain ⟨i, _, hi, _⟩ := hslots.woken x hx hwoken
      rw [hi] at h
      cases h
    refine ⟨fun x hx hwoken => ?_, happended hkept.apart fun _ _ _ h => absurd h htype, hkept.completing⟩
    rcases List.mem_append.mp hx with hx | hx
    · exact hkept.woken x hx hwoken
    · obtain rfl := List.mem_singleton.mp hx
      exact absurd hwoken htype
  · -- the entry was waking up, so it belongs to no other process
    have hother : ∀ x ∈ k.waiting, x.type = .eProcWakeMAF → x.maf ≠ some i := by
      intro x hx hwoken h
      obtain ⟨j, v, hj, hv, hstate⟩ := hslots.woken x hx hwoken
      obtain rfl := Option.some.inj (hj.symm.trans h)
      rw [hu] at hv
      cases hv
      rw [hwaking] at hstate
      cases hstate
    have hkept : Slots { k with policy := s' } := by
      refine hslots.of_spares hspares (List.Sublist.refl _) hother fun j hdone h => ?_
      obtain rfl := Option.some.inj h
      have hactive := hdone.active hu
      rw [hwaking] at hactive
      cases hactive
    refine ⟨fun x hx hwoken => ?_, happended hkept.apart fun x hx hwoken _ => hi ▸ hother x hx hwoken,
      hkept.completing⟩
    rcases List.mem_append.mp hx with hx | hx
    · exact hkept.woken x hx hwoken
    · obtain rfl := List.mem_singleton.mp hx
      exact ⟨i, u', hi, hu', hpipeline⟩

/-- A handler changes the entry of its own process only. -/
theorem slots_handled (hwaiting : k.waiting = p :: rest) (hp : Waiting p) (hthrifty : k.policy.Thrifty)
    (hslots : Slots k) (hstore : AnswersStore k.policy p) (hok : handle reserve k.policy p = .ok (s', q)) :
    Slots { k with policy := s', waiting := rest, pending := q.job ::ₘ k.pending } := by
  have happart := hslots.apart
  rw [hwaiting] at happart
  have hkept : Slots { k with policy := s', waiting := rest } := by
    refine hslots.of_spares (handle_spares hp hthrifty hstore hok) (hwaiting ▸ List.sublist_cons_self p rest) ?_ ?_
    · intro x hx hwoken h
      obtain ⟨i, u, hi, hu, _⟩ := hslots.woken x (hwaiting ▸ List.mem_cons_of_mem p hx) hwoken
      unfold slotOf at h
      split at h
      · next htype => exact List.rel_of_pairwise_cons happart hx htype hwoken h.symm
      · rw [hi] at h
        have hbelow := MissAddressFile.lt_nextStamp_of_ticket hu
        rw [← Option.some.inj h] at hbelow
        exact Nat.lt_irrefl _ hbelow
      · rw [hi] at h
        cases h
    · intro i hdone h
      unfold slotOf at h
      split at h
      · next htype =>
        obtain ⟨j, u, hj, hu, hstate⟩ := hslots.woken p (hwaiting ▸ List.mem_cons_self) htype
        obtain rfl := Option.some.inj (hj.symm.trans h)
        rw [hdone.active hu] at hstate
        cases hstate
      · have hbelow := hdone.stamped
        rw [← Option.some.inj h] at hbelow
        exact Nat.lt_irrefl _ hbelow
      · cases h
  refine ⟨hkept.woken, hkept.apart, fun r hr haction i hi => ?_⟩
  rcases Multiset.mem_cons.mp hr with rfl | hr
  · exact handle_done hp hthrifty hstore hok haction hi
  · exact hkept.completing r hr haction i hi

/-- The entry that a process wakes after an eviction is still waiting for it. -/
def StillWaits (s : Policy cfg) (q : ProcessEntry) : Prop :=
  q.action.wakesEvict = true → ∀ i u, q.maf = some i → s.theMAF.ticket i = some u → u.state = .eWaitEvict

theorem slots_finalized {pending : Multiset ProcessEntry} {snoops : List MemoryTransport}
    (hpending : k.pending = q ::ₘ pending) (hslots : Slots k) (hstill : StillWaits k.policy q)
    (hok : finalizeMAF k.policy q = .ok s') :
    Slots { k with policy := s', pending := pending, snoops := snoops } := by
  have hwakes := Policy.finalizeMAF_wakes hok hstill
  refine ⟨fun p hp htype => ?_, hslots.apart, fun r hr haction i hi => ?_⟩
  · obtain ⟨i, u, hi, hu, hstate⟩ := hslots.woken p hp htype
    refine ⟨i, u, hi, hwakes.busy (fun hgone => ?_) hu (.inl hstate), hstate⟩
    split at hgone
    · next haction =>
      have hdone := hslots.completing q (hpending ▸ Multiset.mem_cons_self q pending) haction i hgone
      rw [hdone.active hu] at hstate
      cases hstate
    · cases hgone
  · exact (hslots.completing r (hpending ▸ Multiset.mem_cons_of_mem hr) haction i hi).of_wakes hwakes

theorem moves_slots (hwaiting : ∀ p ∈ k.waiting, Waiting p) (hthrifty : k.policy.Thrifty) (hslots : Slots k)
    (hstore : e = .advanceMAF → ∀ p ∈ k.waiting.head?, AnswersStore k.policy p)
    (hstill : ∀ q, final = some q → StillWaits k.policy q) (hmoves : Moves reserve final k e k') : Slots k' := by
  cases hmoves with
  | idle => exact hslots
  | start hstarts => exact slots_started hslots hstarts
  | handled hhead hhandle =>
    exact slots_handled hhead (hwaiting _ (hhead ▸ List.mem_cons_self)) hthrifty hslots
      (hstore rfl _ (by rw [hhead]; rfl)) hhandle
  | @evicted p rest hhead _ =>
    have hfewer : rest.Sublist k.waiting := hhead ▸ List.sublist_cons_self p rest
    exact ⟨fun p hp => hslots.woken p (hfewer.subset hp), hslots.apart.sublist hfewer, hslots.completing⟩
  | finalized hfinal hpending hmaf => exact slots_finalized hpending hslots (hstill _ hfinal) hmaf
  | taken => exact ⟨hslots.woken, hslots.apart, hslots.completing⟩

/-! ## Runs -/

/-- A step for which the books stay in order: a non-allocating store is answered for a
    request that is none to read, and an entry that is woken after an eviction is still
    waiting for it. -/
structure Accountable (c : Controller cfg) (e : Event) : Prop where
  stores : e = .advanceMAF → ∀ p ∈ c.theMAFPipeline.head?, AnswersStore c.thePolicy p
  still : ∀ q, finalizing c e = some q → StillWaits c.thePolicy q

/-- The books, and the entries of the processes. -/
structure Accounted (c : Controller cfg) : Prop where
  books : Books c
  slots : Slots c.core

theorem accounted_create (hsize : cfg.theQueueSize < 2 ^ 32) : Accounted (create cfg) := by
  have hQ := MessageQueue.holds_create hsize
  have hbalanced : Balanced (create cfg) [] :=
    ⟨hQ, hQ, hQ, rfl, rfl, rfl, by simp, fun _ => le_rfl, fun hu => (by cases hu), fun _ _ h => (by cases h)⟩
  refine ⟨⟨⟨?_, ?_, ?_⟩, hbalanced⟩, ?_, ?_, ?_⟩
  · exact fun p hp => absurd hp List.not_mem_nil
  · exact fun p hp => absurd hp List.not_mem_nil
  · exact fun p hp => absurd hp List.not_mem_nil
  · exact fun p hp => absurd hp List.not_mem_nil
  · exact List.Pairwise.nil
  · exact fun q hq => absurd hq (Multiset.notMem_zero q)

/-- Finalizing keeps every place. -/
theorem finalizeMAF_held (h : Accounted c) (hmem : q.job ∈ c.core.pending) (hstill : StillWaits c.thePolicy q.job)
    (hok : finalizeMAF c.thePolicy q = .ok s') : s'.Thrifty ∧ s'.held = c.thePolicy.held := by
  have hwakes := Policy.finalizeMAF_wakes hok hstill
  refine hwakes.thrifty h.books.balanced.thrifty (Policy.finalizeMAF_dirEB hok) fun i hi => ?_
  split at hi
  · next haction => exact (h.slots.completing _ hmem haction i hi).empty
  · cases hi

/-- No step stops with a fault of the ledger, and the books are in order after it. -/
theorem step_yields (hsound : c.thePolicy.Sound) (h : Accounted c) (hmeets : Accountable c e) :
    Yields allowed (step c e) Books := by
  have hdequeue : ∀ {Q : MessageQueue} {n : Nat}, Q.Holds n → Q.dequeue.Holds n := fun hQ => hQ.dequeue
  have hbooks := h.books
  have hb := hbooks.balanced
  cases e with
  | wakeMAF => exact yields_scheduleWakeMAF hbooks
  | cacheEvict => exact yields_scheduleCacheEvict hbooks
  | dirEvict => exact yields_scheduleDirEvict hbooks
  | reply t => exact yields_scheduleReply hbooks
  | snoop t => exact yields_scheduleSnoop hbooks
  | request t => exact yields_scheduleRequest hbooks
  | idleWork => exact yields_scheduleIdleWork hbooks
  | advanceMAF =>
    refine yields_advanceMAFPipeline hsound hbooks ?_ fun p hp => hmeets.stores rfl p hp
    intro p hp htype i hi
    obtain ⟨j, u, hj, hu, hstate⟩ := h.slots.woken p (List.mem_of_mem_head? hp) htype
    obtain rfl := Option.some.inj (hj.symm.trans hi)
    by_contra hne
    rw [(hb.thrifty.active hu hne).1] at hstate
    cases hstate
  | advanceDirTag =>
    refine yields_advanceDirTagPipeline hbooks fun p hp hends s hs => ?_
    refine finalizeMAF_held h ?_ (hmeets.still p.job ?_) hs
    · exact List.mem_map_of_mem (List.mem_append_left _ (List.mem_of_mem_head? hp))
    · simp only [finalizing, Option.mem_def.mp hp, Option.filter_some, hends, if_true, Option.map_some]
  | advanceData =>
    refine yields_advanceDataPipeline hbooks fun p hp htag s hs => ?_
    refine finalizeMAF_held h ?_ (hmeets.still p.job ?_) hs
    · refine List.mem_map_of_mem (List.mem_append_right _ (List.mem_filter.mpr ⟨List.mem_of_mem_head? hp, ?_⟩))
      simp [htag]
    · simp only [finalizing, Option.mem_def.mp hp, Option.filter_some, htag, Bool.not_false, if_true, Option.map_some]
  | takeSnoop => exact .pure ⟨⟨hbooks.waiting, hbooks.ready, hbooks.data⟩, ⟨hdequeue hb.snoops, hb.replies, hb.requests,
      hb.mafs, hb.dirEB, hb.cacheEB, hb.nonneg, hb.thrifty⟩⟩
  | takeReply => exact .pure ⟨⟨hbooks.waiting, hbooks.ready, hbooks.data⟩, ⟨hb.snoops, hdequeue hb.replies, hb.requests,
      hb.mafs, hb.dirEB, hb.cacheEB, hb.nonneg, hb.thrifty⟩⟩
  | takeRequest => exact .pure ⟨⟨hbooks.waiting, hbooks.ready, hbooks.data⟩, ⟨hb.snoops, hb.replies,
      hdequeue hb.requests, hb.mafs, hb.dirEB, hb.cacheEB, hb.nonneg, hb.thrifty⟩⟩

theorem accounted_of_reachableWhile (hsize : cfg.theQueueSize < 2 ^ 32) (hreach : ReachableWhile Accountable c) :
    Accounted c := by
  refine Reaches.invariant_given (I := fun c => c.thePolicy.Sound)
    (fun c hc => sound_of_reachable (reachable_of_reachableWhile hc)) (accounted_create hsize) ?_ hreach
  intro c e c' hsound hbefore hmeets hok
  refine ⟨(step_yields hsound hbefore hmeets).1 c' hok, ?_⟩
  exact moves_slots hbefore.books.waiting hbefore.books.balanced.thrifty hbefore.slots
    (fun he => hmeets.stores he) hmeets.still (step_moves hok)

/-- In every state that such steps reach, each counter of reservations is the sum of what
    the live processes hold, and for the cache evict buffer of what the miss address file and
    the directory evict buffer hold too. A process that calls a block back shares the place
    that the block holds. No such step fails an assertion on reservations, so a process that
    is finalized holds none. -/
theorem reservations_balance (hsize : cfg.theQueueSize < 2 ^ 32) (hreach : ReachableWhile Accountable c) :
    c.cacheEBReserve = ((live c).map counted).sum +
        (c.thePolicy.theMAF.entries.map MAFEntry.cacheEBReserved).sum +
        (c.thePolicy.theDirEvictBuffer.entries.map DirEBEntry.cacheEBReserved).sum ∧
      c.dirEBReserve = ((live c).map ProcessEntry.dirEBReserved).sum ∧
      c.mafReserve = (live c).countP ProcessEntry.mafReserved ∧
      c.SnoopOut.theCurrentReserve =
        c.SnoopOut.theQueue.length + ((live c).map ProcessEntry.snoopOutReserved).sum ∧
      c.ReplyOut.theCurrentReserve =
        c.ReplyOut.theQueue.length + ((live c).map ProcessEntry.replyOutReserved).sum ∧
      c.RequestOut.theCurrentReserve =
        c.RequestOut.theQueue.length + ((live c).map ProcessEntry.reqOutReserved).sum ∧
      (∀ p ∈ live c, p ∉ c.theMAFPipeline → p ∉ unfinalized c → p.noReservations = true) ∧
      ∀ e f, Accountable c e → step c e = .error f → f.ofReservation = false := by
  have hbefore := accounted_of_reachableWhile hsize hreach
  have hb := hbefore.books.balanced
  have hqueue : ∀ {Q : MessageQueue} {n : Nat}, Q.Holds n → Q.theCurrentReserve = Q.theQueue.length + n :=
    fun hQ => by rw [hQ.reserve, hQ.usage]
  refine ⟨?_, hb.dirEB, hb.mafs, hqueue hb.snoops, hqueue hb.replies, hqueue hb.requests, ?_, ?_⟩
  · rw [hb.cacheEB, Policy.held, add_assoc]
    rfl
  · intro p hp hmaf hnot
    have hdata : p ∈ c.theDataPipeline := by
      rcases List.mem_append.mp hp with hp | hp
      · rcases List.mem_append.mp hp with hp | hp
        · exact absurd hp hmaf
        · exact absurd (List.mem_append_left _ hp) hnot
      · exact hp
    have hempty := hbefore.books.data p hdata
    cases htag : p.transmitAfterTag with
    | false => exact absurd (List.mem_append_right _ (List.mem_filter.mpr ⟨hdata, by simp [htag]⟩)) hnot
    | true =>
      rw [htag] at hempty
      obtain ⟨h₁, h₂, h₃, h₄, h₅, _⟩ := Empty.fields hempty
      simp [ProcessEntry.noReservations, h₁, h₂, h₃, h₄, h₅, Empty.cacheEB hempty]
  · intro e f hmeets herror
    exact (step_yields (sound_of_reachable (reachable_of_reachableWhile hreach)) hbefore hmeets).2 f herror

/-- A test for the steps of such a run. -/
def accountable (c : Controller cfg) (e : Event) : Bool :=
  (e != .advanceMAF || c.theMAFPipeline.head?.all fun p =>
    p.type != .eProcReply || p.transport.msg.type != .NonAllocatingStoreReply ||
      match c.thePolicy.matchingMAF p.transport with
      | .ok maf => !maf.type.isReadType
      | .error _ => true) &&
  (finalizing c e).all fun q => !q.action.wakesEvict ||
    (q.maf.bind c.thePolicy.theMAF.ticket).all fun u => u.state == .eWaitEvict

theorem accountable_of_test (c : Controller cfg) (e : Event) (h : accountable c e = true) : Accountable c e := by
  obtain ⟨hstores, hstill⟩ := Bool.and_eq_true_iff.mp h
  constructor
  · rintro rfl p hp htype hstore maf hmatch
    rw [Option.mem_def.mp hp] at hstores
    simpa [htype, hstore, hmatch] using hstores
  · intro q hq haction i u hi hu
    rw [hq] at hstill
    simpa [haction, hi, hu] using hstill

/-- A read that was forwarded to another core leaves its place with its entry. -/
theorem reservations_balance_forwardedRead :
    ∃ c : Controller (smallBank true), (smallBank true).theQueueSize < 2 ^ 32 ∧ ReachableWhile Accountable c ∧
      c.cacheEBReserve = 1 ∧
      c.cacheEBReserve = ((live c).map counted).sum +
        (c.thePolicy.theMAF.entries.map MAFEntry.cacheEBReserved).sum +
        (c.thePolicy.theDirEvictBuffer.entries.map DirEBEntry.cacheEBReserved).sum ∧
      ∀ e f, Accountable c e → step c e = .error f → f.ofReservation = false := by
  obtain ⟨c, hreach, hheld⟩ := exists_reachableWhile accountable accountable_of_test
    (readThrough 64 0 ++ through (.request (message .ReadReq 64 1)))
    (fun c : Controller (smallBank true) => c.cacheEBReserve == 1) (by decide +kernel)
  have hsize : (smallBank true).theQueueSize < 2 ^ 32 := by decide
  have hbalance := reservations_balance hsize hreach
  exact ⟨c, hsize, hreach, by simpa using hheld, hbalance.1, hbalance.2.2.2.2.2.2.2⟩

/-- A live process calls the block back, so that its place is among those of the process. -/
def calledBack (c : Controller cfg) (d : DirEBEntry) : Bool :=
  (live c).any fun p => recalls p && p.transport.msg.address == d.address

/-- The place of a block that is called back goes to an eviction of that block while the
    process that calls it back is still live: the process holds a place that the buffer
    does not count any more. -/
theorem recalledPlace_taken_by_eviction :
    ∃ c : Controller (smallBank true), Reachable c ∧
      c.cacheEBReserve ≠ ((live c).map ProcessEntry.cacheEBReserved).sum +
        (c.thePolicy.theMAF.entries.map MAFEntry.cacheEBReserved).sum +
        ((c.thePolicy.theDirEvictBuffer.entries.filter fun d => !calledBack c d).map
          DirEBEntry.cacheEBReserved).sum := by
  obtain ⟨c, hreach, htwice⟩ := exists_reachable
    (readThrough 64 0 ++ readThrough 128 1 ++ readThrough 192 2 ++
      [.request { message .EvictDirty 64 0 with msg := { (message .EvictDirty 64 0).msg with evictHasData := true } },
        .idleWork, .advanceMAF])
    (fun c : Controller (smallBank true) =>
      c.cacheEBReserve != ((live c).map ProcessEntry.cacheEBReserved).sum +
        (c.thePolicy.theMAF.entries.map MAFEntry.cacheEBReserved).sum +
        ((c.thePolicy.theDirEvictBuffer.entries.filter fun d => !calledBack c d).map
          DirEBEntry.cacheEBReserved).sum) (by decide +kernel)
  exact ⟨c, hreach, by simpa using htwice⟩

end Controller

end nCMPCache
