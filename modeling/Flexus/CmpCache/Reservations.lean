import Flexus.CmpCache.Protection
import Flexus.Lib.Outcomes

/-!
# Reservations of the cache evict buffer

A process reserves its place in the cache evict buffer when it is scheduled.
-/

namespace nCMPCache

open Runs

namespace MissAddressFile

variable {m m' : MissAddressFile} {i j : Nat} {e : MAFEntry} {a : MemoryAddress} {st : MAFState}
  {t : MemoryTransport}

/-- What the entries hold together. -/
def reserved (m : MissAddressFile) : Int := (m.entries.map MAFEntry.cacheEBReserved).sum

def reservedBy (m : MissAddressFile) (i : Nat) : Int := ((m.get? i).map MAFEntry.cacheEBReserved).getD 0

theorem reservedBy_of_mem (he : e ∈ m.entries) : m.reservedBy e.stamp = e.cacheEBReserved := by
  rw [reservedBy, get?_eq_some.mpr ⟨he, rfl⟩]
  rfl

theorem reservedBy_of_ticket_none (h : m.ticket i = none) : m.reservedBy i = 0 := by
  rw [ticket, Option.map_eq_none_iff] at h
  rw [reservedBy, h]
  rfl

theorem reserved_eq_sum {n : Nat} (hn : m.nextStamp ≤ n) :
    m.reserved = ∑ i ∈ Finset.range n, m.reservedBy i := by
  have hstamps : (m.entries.map MAFEntry.stamp).toFinset ⊆ Finset.range n := by
    intro i hi
    obtain ⟨e, he, rfl⟩ := List.mem_map.mp (List.mem_toFinset.mp hi)
    exact Finset.mem_range.mpr ((m.stamp_lt e he).trans_le hn)
  rw [← Finset.sum_subset hstamps, List.sum_toFinset _ m.stamps, List.map_map]
  · refine congrArg List.sum (List.map_congr_left fun e he => ?_)
    exact (reservedBy_of_mem he).symm
  · intro i _ hi
    refine reservedBy_of_ticket_none ?_
    cases hticket : m.ticket i with
    | none => rfl
    | some u =>
      obtain ⟨e, he, rfl, _⟩ := ticket_eq_some.mp hticket
      exact absurd (List.mem_toFinset.mpr (List.mem_map_of_mem he)) hi

/-- Two files that differ in one entry. -/
theorem reserved_of_differ (h : ∀ j, j ≠ i → m'.reservedBy j = m.reservedBy j) :
    m'.reserved - m'.reservedBy i = m.reserved - m.reservedBy i := by
  have hsum : ∀ x : MissAddressFile, x.nextStamp ≤ max m.nextStamp m'.nextStamp + (i + 1) →
      x.reserved - x.reservedBy i =
        ∑ j ∈ (Finset.range (max m.nextStamp m'.nextStamp + (i + 1))).erase i, x.reservedBy j := by
    intro x hx
    have hi : i ∈ Finset.range (max m.nextStamp m'.nextStamp + (i + 1)) := by
      rw [Finset.mem_range]
      omega
    rw [reserved_eq_sum hx, ← Finset.add_sum_erase _ _ hi]
    ring
  rw [hsum m' (by omega), hsum m (by omega)]
  refine Finset.sum_congr rfl fun j hj => ?_
  exact h j (Finset.mem_erase.mp hj).1

theorem reserved_of_same (h : ∀ j, m'.reservedBy j = m.reservedBy j) : m'.reserved = m.reserved := by
  have hsame := reserved_of_differ (i := 0) fun j _ => h j
  rw [h 0] at hsame
  omega

theorem reservedBy_modify {f : MAFEntry → MAFEntry} (hf : ∀ e, (f e).stamp = e.stamp)
    (hkeeps : ∀ e, (f e).cacheEBReserved = e.cacheEBReserved) :
    (m.modify i f hf).reservedBy j = m.reservedBy j := by
  rw [reservedBy, get?_modify]
  split
  · next hji =>
    subst hji
    rw [Option.map_map, reservedBy]
    exact congrArg (fun g => (Option.map g (m.get? j)).getD 0) (funext hkeeps)
  · rfl

theorem reservedBy_setState : (m.setState i st t).reservedBy j = m.reservedBy j :=
  reservedBy_modify (f := fun e => { e with state := st, transport := t }) (fun _ => rfl) fun _ => rfl

theorem reservedBy_setTransport : (m.setTransport i t).reservedBy j = m.reservedBy j :=
  reservedBy_modify (f := fun e => { e with transport := t }) (fun _ => rfl) fun _ => rfl

theorem reservedBy_wake : (m.wake i).reservedBy j = m.reservedBy j :=
  reservedBy_modify (f := fun e => { e with state := .eWaking }) (fun _ => rfl) fun _ => rfl

theorem reservedBy_setCacheEBReserved {n : Int} (hi : m.ticket i ≠ none) :
    (m.setCacheEBReserved i n).reservedBy j = if j = i then n else m.reservedBy j := by
  have hget : (m.setCacheEBReserved i n).get? j = _ :=
    get?_modify (f := fun e => { e with cacheEBReserved := n }) fun _ => rfl
  rw [reservedBy, hget]
  split
  · cases hentry : m.get? i with
    | none => exact absurd (by rw [ticket, hentry]; rfl) hi
    | some x => rfl
  · rfl

theorem reservedBy_insert : (m.insert t a st).reservedBy j = m.reservedBy j := by
  have hget : (m.insert t a st).get? j = if j = m.nextStamp then
      some { stamp := m.nextStamp, address := a, state := st, transport := t } else m.get? j := by
    refine Option.ext fun x => ?_
    rw [get?_eq_some, mem_insert]
    split
    · next hj =>
      constructor
      · rintro ⟨rfl | hx, hstamp⟩
        · rfl
        · exact absurd (m.stamp_lt x hx) (by omega)
      · rintro ⟨⟩
        exact ⟨.inl rfl, hj.symm⟩
    · next hj =>
      rw [get?_eq_some]
      constructor
      · rintro ⟨rfl | hx, hstamp⟩
        · exact absurd hstamp.symm hj
        · exact ⟨hx, hstamp⟩
      · exact fun h => ⟨.inr h.1, h.2⟩
  rw [reservedBy, hget]
  split
  · next hj =>
    subst hj
    rw [reservedBy_of_ticket_none ticket_nextStamp]
    rfl
  · rfl

theorem reservedBy_remove : (m.remove i).reservedBy j = if j = i then 0 else m.reservedBy j := by
  by_cases hji : j = i
  · rw [if_pos hji]
    refine reservedBy_of_ticket_none ?_
    rw [ticket_remove, if_pos hji]
  · rw [if_neg hji, reservedBy, reservedBy]
    have hget : (m.remove i).get? j = m.get? j := by
      refine Option.ext fun x => ?_
      rw [get?_eq_some, get?_eq_some, mem_remove]
      constructor
      · exact fun h => ⟨h.1.1, h.2⟩
      · exact fun h => ⟨⟨h.1, h.2 ▸ hji⟩, h.2⟩
    rw [hget]

theorem reservedBy_wakeAll {is : List Nat} : (m.wakeAll is).reservedBy j = m.reservedBy j := by
  induction is generalizing m with
  | nil => rfl
  | cons i is ih =>
    have hstep : (m.wakeAll (i :: is)).reservedBy j = ((m.wake i).wakeAll is).reservedBy j := rfl
    rw [hstep, ih, reservedBy_wake]

theorem reservedBy_wakeAfterEvict : (m.wakeAfterEvict e).reservedBy j = m.reservedBy j := by
  rw [wakeAfterEvict, reservedBy_wakeAll, reservedBy_wake]

theorem reservedBy_getWakingMAF (h : m.getWakingMAF = .ok (m', e)) : m'.reservedBy j = m.reservedBy j := by
  unfold getWakingMAF at h
  split at h
  · cases h
    exact reservedBy_modify (f := fun e => { e with state := .eInPipeline }) (fun _ => rfl) fun _ => rfl
  · cases h

end MissAddressFile

namespace DirEvictBuffer

variable {b : DirEvictBuffer} {a x : MemoryAddress} {d : DirEBEntry}

/-- What the blocks on their way out of the directory hold together. -/
def reserved (b : DirEvictBuffer) : Int := (b.entries.map DirEBEntry.cacheEBReserved).sum

/-- A block that has not been called back from the cores holds nothing and is shared. -/
def Thrifty (b : DirEvictBuffer) : Prop :=
  ∀ x d, b.find x = some d → 0 ≤ d.cacheEBReserved ∧
    (d.invalidatesPending = 0 → d.cacheEBReserved = 0 ∧ d.state.noSharers = false)

theorem reserved_insert {dir : SimpleDirectoryState} : (b.insert a dir).reserved = b.reserved := by
  unfold insert
  split
  · rfl
  · simp [reserved]

theorem reserved_modify {f : DirEBEntry → DirEBEntry} (hf : ∀ e, (f e).address = e.address) :
    (b.modify a f hf).reserved =
      b.reserved + ((b.find a).map fun e => (f e).cacheEBReserved - e.cacheEBReserved).getD 0 :=
  Keyed.sum_alter b.unique

theorem reserved_modify_of_same {f : DirEBEntry → DirEBEntry} (hf : ∀ e, (f e).address = e.address)
    (hkeeps : ∀ e, (f e).cacheEBReserved = e.cacheEBReserved) : (b.modify a f hf).reserved = b.reserved := by
  rw [reserved_modify]
  cases b.find a with
  | none => simp
  | some e => simp [hkeeps]

theorem reserved_remove :
    (b.remove a).reserved = b.reserved - ((b.find a).map DirEBEntry.cacheEBReserved).getD 0 :=
  Keyed.sum_erase b.unique

theorem reserved_setState {dir : SimpleDirectoryState} : (b.setState a dir).reserved = b.reserved :=
  reserved_modify_of_same (f := fun e => { e with state := dir }) (fun _ => rfl) fun _ => rfl

theorem reserved_completeInvalidate : (b.completeInvalidate a).reserved = b.reserved :=
  reserved_modify_of_same (f := fun e => { e with invalidatesPending := e.invalidatesPending - 1 })
    (fun _ => rfl) fun _ => rfl

theorem reserved_setInvalidatesPending {n : Int} : (b.setInvalidatesPending a n).reserved = b.reserved :=
  reserved_modify_of_same (f := fun e => { e with invalidatesPending := n }) (fun _ => rfl) fun _ => rfl

theorem reserved_setCacheEBReserved {n : Int} (hd : b.find a = some d) :
    (b.setCacheEBReserved a n).reserved = b.reserved + (n - d.cacheEBReserved) := by
  have hsum := reserved_modify (b := b) (a := a) (f := fun e => { e with cacheEBReserved := n }) fun _ => rfl
  rw [hd] at hsum
  exact hsum

theorem Thrifty.remove (h : b.Thrifty) : (b.remove a).Thrifty := by
  intro x d hd
  rw [find_remove] at hd
  split at hd
  · cases hd
  · exact h x d hd

theorem Thrifty.insert {dir : SimpleDirectoryState} (h : b.Thrifty) (hshared : dir.noSharers = false) :
    (b.insert a dir).Thrifty := by
  intro x d hd
  rw [find_insert] at hd
  cases hx : b.find x with
  | some d₁ =>
    rw [hx, Option.some_or] at hd
    cases hd
    exact h x d hx
  | none =>
    rw [hx, Option.none_or] at hd
    split at hd
    · cases hd
      exact ⟨le_rfl, fun _ => ⟨rfl, hshared⟩⟩
    · cases hd

/-- One entry changes to a thrifty one. -/
theorem Thrifty.modify {f : DirEBEntry → DirEBEntry} (hf : ∀ e, (f e).address = e.address) (h : b.Thrifty)
    (hd : b.find a = some d) (hnew : 0 ≤ (f d).cacheEBReserved ∧
      ((f d).invalidatesPending = 0 → (f d).cacheEBReserved = 0 ∧ (f d).state.noSharers = false)) :
    (b.modify a f hf).Thrifty := by
  intro x d' hd'
  rw [find_modify] at hd'
  split at hd'
  · rw [hd] at hd'
    cases hd'
    exact hnew
  · exact h x d' hd'

end DirEvictBuffer

/-- What kind of process it is and what it holds besides its places in the cache evict
    buffer. -/
def ProcessEntry.slots (p : ProcessEntry) : ProcessType × Nat × Nat × Nat × Bool × Int :=
  (p.type, p.snoopOutReserved, p.reqOutReserved, p.replyOutReserved, p.mafReserved, p.dirEBReserved)

/-- The actions that send the snoops of the process. -/
def ProcessAction.sendsSnoops : ProcessAction → Bool
  | .eFwdAndWaitAck | .eForward | .eFwdAndWakeEvictMAF | .eNotifyAndWaitAck | .eFwdAndReply => true
  | _ => false

namespace Policy

variable {cfg : CMPCacheInfo} {s s' s₁ : Policy cfg} {p q p₁ : ProcessEntry} {hasMaf mafWaiting : Bool}
  {a : MemoryAddress} {st : MAFState} {dir : SimpleDirectoryState} {i : Nat} {reserve : Int}

/-- The reservations that no process holds. -/
def held (s : Policy cfg) : Int := s.theMAF.reserved + s.theDirEvictBuffer.reserved

/-- Only active reads hold reservations, and blocks that were called back. -/
structure Thrifty (s : Policy cfg) : Prop where
  nonneg : ∀ i, 0 ≤ s.theMAF.reservedBy i
  active : ∀ {i u}, s.theMAF.ticket i = some u → s.theMAF.reservedBy i ≠ 0 →
    u.state = .eWaitAck ∧ u.type.isReadType = true
  dir : s.theDirEvictBuffer.Thrifty

/-! ## Requests -/

/-- What becomes of the place of a request in the cache evict buffer: the process keeps it,
    or its entry takes it. -/
inductive Pays (m m' : MissAddressFile) (p q : ProcessEntry) : Prop
  | keeps : (∀ j, m'.reservedBy j = m.reservedBy j) → q.cacheEBReserved = p.cacheEBReserved → Pays m m' p q
  | hands {i : Nat} : q.maf = some i → m'.reservedBy i = p.cacheEBReserved →
      (∀ j, j ≠ i → m'.reservedBy j = m.reservedBy j) → q.cacheEBReserved = 0 →
      p.transport.msg.type.isReadType = true → q.action = .eFwdAndWaitAck → Pays m m' p q

/-- What serving a request does to its reservations. -/
structure Costs (s : Policy cfg) (p : ProcessEntry) (s' : Policy cfg) (q : ProcessEntry) : Prop where
  slots : q.slots = p.slots
  dirEB : s'.theDirEvictBuffer = s.theDirEvictBuffer
  snoops : q.snoopTransports.length ≤ p.snoopTransports.length + (if q.action.sendsSnoops then 2 else 0)
  pays : Pays s.theMAF s'.theMAF p q

theorem place_reservedBy (hok : s.place p hasMaf a st = .ok (s', i)) (j : Nat) :
    s'.theMAF.reservedBy j = s.theMAF.reservedBy j := by
  unfold place at hok
  cases hasMaf with
  | true =>
    simp only [if_true] at hok
    split at hok
    · cases hok
      exact MissAddressFile.reservedBy_setState
    · cases hok
  | false =>
    cases hok
    exact MissAddressFile.reservedBy_insert

theorem stall_reservedBy (hok : s.stall p hasMaf a st = .ok (s', q)) (j : Nat) :
    s'.theMAF.reservedBy j = s.theMAF.reservedBy j := by
  obtain ⟨⟨s₁, i⟩, hplace, hpure⟩ := bind_eq_ok.mp hok
  cases pure_eq_ok.mp hpure
  exact place_reservedBy hplace j

theorem activate_reservedBy (hok : s.activate p hasMaf a = .ok (s', q)) (j : Nat) :
    s'.theMAF.reservedBy j = s.theMAF.reservedBy j := by
  obtain ⟨⟨s₁, i⟩, hplace, hpure⟩ := bind_eq_ok.mp hok
  cases pure_eq_ok.mp hpure
  exact place_reservedBy hplace j

theorem Costs.of_stall (hok : s₁.stall p hasMaf a st = .ok (s', q)) (hmaf : s₁.theMAF = s.theMAF)
    (hdirEB : s₁.theDirEvictBuffer = s.theDirEvictBuffer) : Costs s p s' q := by
  have hkeeps := stall_reservedBy hok
  obtain ⟨hsame, rfl, _⟩ := stall_spec hok
  rw [hmaf] at hkeeps
  refine ⟨rfl, ?_, Nat.le_add_right _ _, .keeps hkeeps rfl⟩
  rw [hsame]
  exact hdirEB

theorem Costs.of_activate (hok : s₁.activate p₁ hasMaf a = .ok (s', q)) (hmaf : s₁.theMAF = s.theMAF)
    (hdirEB : s₁.theDirEvictBuffer = s.theDirEvictBuffer) (hslots : p₁.slots = p.slots)
    (hreserved : p₁.cacheEBReserved = p.cacheEBReserved)
    (hsnoops : p₁.snoopTransports.length ≤
      p.snoopTransports.length + (if p₁.action.sendsSnoops then 2 else 0)) :
    Costs s p s' q := by
  have hkeeps := activate_reservedBy hok
  obtain ⟨hsame, i, rfl, _⟩ := activate_spec hok
  rw [hmaf] at hkeeps
  refine ⟨hslots, ?_, hsnoops, .keeps hkeeps hreserved⟩
  rw [hsame]
  exact hdirEB

/-- The entry of an active read takes the place of the process. -/
theorem Costs.of_keepReservation (hok : s.activate p₁ hasMaf a = .ok (s', q)) (hslots : p₁.slots = p.slots)
    (hreserved : p₁.cacheEBReserved = p.cacheEBReserved)
    (hsnoops : p₁.snoopTransports.length ≤ p.snoopTransports.length + 2)
    (haction : p₁.action = .eFwdAndWaitAck) (hread : p.transport.msg.type.isReadType = true) :
    Costs s p (s'.keepReservation q).1 (s'.keepReservation q).2 := by
  have hkeeps := activate_reservedBy hok
  obtain ⟨hsame, i, rfl, hrecorded⟩ := activate_spec hok
  have hticket : s'.theMAF.ticket i ≠ none := by
    cases hrecorded with
    | kept _ _ _ hupdate =>
      rw [hupdate, Function.update_self]
      simp
    | fresh _ hupdate =>
      rw [hupdate, Function.update_self]
      simp
  have hset : ∀ j, (s'.keepReservation { p₁ with maf := some i }).1.theMAF.reservedBy j =
      if j = i then p₁.cacheEBReserved else s'.theMAF.reservedBy j :=
    fun j => MissAddressFile.reservedBy_setCacheEBReserved hticket
  refine ⟨hslots, ?_, ?_, .hands rfl ?_ (fun j hj => ?_) rfl hread haction⟩
  · show s'.theDirEvictBuffer = s.theDirEvictBuffer
    rw [hsame]
  · show p₁.snoopTransports.length ≤ p.snoopTransports.length + (if p₁.action.sendsSnoops then 2 else 0)
    rw [haction]
    exact hsnoops
  · rw [hset, if_pos rfl]
    exact hreserved
  · rw [hset, if_neg hj]
    exact hkeeps j

theorem toMemory_costs : (toMemory p).snoopTransports.length = p.snoopTransports.length + 1 := by
  simp [toMemory, ProcessEntry.addSnoopTransport]

theorem costs_serveUntrackedStore (hok : s.serveUntrackedStore p hasMaf a = .ok (s', q)) : Costs s p s' q := by
  unfold serveUntrackedStore at hok
  split at hok
  · exact .of_activate hok rfl rfl rfl rfl (Nat.le_add_right _ _)
  · exact .of_activate hok rfl rfl rfl rfl (toMemory_costs.trans_le (Nat.add_le_add_left one_le_two _))

theorem costs_serveFromMemory (hok : s.serveFromMemory p hasMaf mafWaiting a = .ok (s', q)) :
    Costs s p s' q := by
  have hone : (toMemory p).snoopTransports.length ≤ p.snoopTransports.length + 2 :=
    toMemory_costs.trans_le (Nat.add_le_add_left one_le_two _)
  unfold serveFromMemory at hok
  split at hok
  · exact .of_stall hok rfl rfl
  · split at hok
    · exact .of_activate hok rfl rfl rfl rfl hone
    case h_2 | h_3 =>
      next htype =>
      obtain ⟨⟨s₁, p₁⟩, hactivate, hpure⟩ := bind_eq_ok.mp hok
      cases pure_eq_ok.mp hpure
      exact .of_keepReservation hactivate rfl rfl hone rfl (by rw [htype]; rfl)
    · exact .of_activate hok rfl rfl rfl rfl hone
    · cases hok

theorem costs_serveRead (hread : p.transport.msg.type.isReadType = true)
    (hok : s.serveRead p hasMaf mafWaiting a dir = .ok (s', q)) : Costs s p s' q := by
  unfold serveRead at hok
  split at hok
  · split at hok
    · exact .of_stall hok rfl rfl
    · obtain ⟨⟨s₁, p₁⟩, hactivate, hpure⟩ := bind_eq_ok.mp hok
      cases pure_eq_ok.mp hpure
      refine .of_keepReservation hactivate rfl rfl ?_ rfl hread
      simp [ProcessEntry.addSnoopTransport]
  · split at hok
    · obtain ⟨hs, _⟩ := passDirty_spec (s := s) (a := a) true
      rw [hs] at hok
      exact .of_stall hok rfl rfl
    · obtain ⟨hs, _⟩ := passDirty_spec (s := s) (a := a)
        (grantsWrite (s.theCache.state a) dir p.transport.msg.type)
      obtain ⟨sharers, _, hok⟩ := bind_eq_ok.mp hok
      rw [hs] at hok
      exact .of_activate hok rfl rfl rfl rfl (Nat.le_add_right _ _)

theorem writeSnoops_length {sharer : Int} {forward : Bool} :
    (writeSnoops p a dir sharer forward).length ≤ 2 := by
  unfold writeSnoops
  rw [List.length_append]
  split <;> split <;> simp

theorem costs_serveWrite (hok : s.serveWrite p hasMaf a dir = .ok (s', q)) : Costs s p s' q := by
  unfold serveWrite at hok
  split at hok
  · obtain ⟨sharers, _, hok⟩ := bind_eq_ok.mp hok
    exact .of_activate hok rfl rfl rfl rfl (Nat.le_add_right _ _)
  · unfold invalidateSharers at hok
    dsimp only at hok
    split at hok
    · cases hok
    · generalize (if needsForward (s.theCache.state a) dir = true then s.theCache
        else s.theCache.recordAccess a) = cache at hok
      obtain ⟨hdrop, _⟩ := dropCopy_spec (s := { s with theCache := cache }) (a := a)
      rw [hdrop] at hok
      refine .of_activate hok rfl rfl rfl rfl ?_
      rw [show (notifyWrite p a dir _ _).snoopTransports = p.snoopTransports ++ writeSnoops _ _ _ _ _ from rfl,
        List.length_append]
      exact Nat.add_le_add_left writeSnoops_length _

theorem costs_serveUpgrade (hok : s.serveUpgrade p hasMaf a dir = .ok (s', q)) : Costs s p s' q := by
  obtain ⟨hdrop, _⟩ := dropCopy_spec (s := s) (a := a)
  unfold serveUpgrade at hok
  rw [hdrop] at hok
  split at hok
  · split at hok
    · cases hok
    · exact .of_activate hok rfl rfl rfl rfl (Nat.le_add_right _ _)
  · refine .of_activate hok rfl rfl rfl rfl ?_
    simp [notifyUpgrade, replyWith, ProcessEntry.addSnoopTransport, ProcessAction.sendsSnoops]

theorem costs_serveStore (hok : s.serveStore p hasMaf a = .ok (s', q)) : Costs s p s' q := by
  unfold serveStore at hok
  split at hok
  · exact .of_activate hok rfl rfl rfl rfl (toMemory_costs.trans_le (Nat.add_le_add_left one_le_two _))
  · exact .of_activate hok rfl rfl rfl rfl (Nat.le_add_right _ _)

theorem Costs.of_convertUpgrade (h : Costs s (convertUpgrade p dir) s' q) : Costs s p s' q := by
  obtain ⟨hslots, hdirEB, hsnoops, hpays⟩ := h
  rcases convertUpgrade_spec p dir with hsame | ⟨htype, hconverted⟩
  · rw [hsame] at hslots hsnoops hpays
    exact ⟨hslots, hdirEB, hsnoops, hpays⟩
  · rw [hconverted] at hslots hsnoops hpays
    refine ⟨hslots, hdirEB, hsnoops, ?_⟩
    cases hpays with
    | keeps hkeeps hsame => exact .keeps hkeeps hsame
    | hands _ _ _ _ hread _ => cases hread

theorem costs_serveRequest (hok : s.serveRequest p hasMaf mafWaiting a = .ok (s', q)) : Costs s p s' q := by
  unfold serveRequest at hok
  split at hok
  · split at hok
    · exact costs_serveUntrackedStore hok
    · cases hok
  · next block _ =>
    have hprotect : (s.protectEntry p.transport.msg.type a).theMAF = s.theMAF ∧
        (s.protectEntry p.transport.msg.type a).theDirEvictBuffer = s.theDirEvictBuffer := by
      unfold protectEntry
      split <;> exact ⟨rfl, rfl⟩
    have hserved : Costs (s.protectEntry p.transport.msg.type a) (convertUpgrade p block.state) s' q := by
      dsimp only at hok
      split at hok
      · exact costs_serveFromMemory hok
      · split at hok
        case h_1 | h_2 =>
          next htype => exact costs_serveRead (by rw [htype]; rfl) hok
        · exact costs_serveWrite hok
        · exact costs_serveUpgrade hok
        · exact costs_serveStore hok
        · cases hok
    obtain ⟨hslots, hdirEB, hsnoops, hpays⟩ := hserved.of_convertUpgrade
    rw [hprotect.1] at hpays
    exact ⟨hslots, hdirEB.trans hprotect.2, hsnoops, hpays⟩

theorem reserved_insertVictim {b : DirEvictBuffer} {victim : Option (MemoryAddress × SimpleDirectoryState)} :
    (insertVictim b victim).reserved = b.reserved := by
  cases victim with
  | none => rfl
  | some v => exact DirEvictBuffer.reserved_insert

/-- Claiming a directory entry creates and drops no reservation. -/
theorem claimDirEntry_reserved {type : MemoryMessageType} (haligned : cfg.blockAddress a = a)
    (hthrifty : s.theDirEvictBuffer.Thrifty) (h : s.claimDirEntry type a = .ok s') :
    s'.theDirEvictBuffer.reserved = s.theDirEvictBuffer.reserved ∧ s'.theDirEvictBuffer.Thrifty := by
  have hvictim : ∀ {d' victim dir}, (s.theDirectory.lookup cfg a).isSome = false →
      s.theDirectory.allocate cfg a dir = some (d', victim) →
      (insertVictim s.theDirEvictBuffer victim).Thrifty := by
    intro d' victim dir hnone hallocate
    obtain ⟨w, _, _, _, hv, _⟩ := StdDirectory.allocate_spec (by simpa using hnone) haligned hallocate
    rw [hv]
    split
    · exact hthrifty
    · next hshared => exact hthrifty.insert (by simpa using hshared)
  unfold claimDirEntry at h
  split at h
  · next d hd =>
    split at h
    · cases h
    · next hpending =>
      split at h
      · cases h
        exact ⟨rfl, hthrifty⟩
      · next hnone =>
        split at h
        · cases h
        · next d' victim hallocate =>
          cases h
          refine ⟨?_, (hvictim (by simpa using hnone) hallocate).remove⟩
          have hfound : (insertVictim s.theDirEvictBuffer victim).find a = some d := by
            cases victim with
            | none => exact hd
            | some v =>
              rw [insertVictim, DirEvictBuffer.find_insert, hd]
              rfl
          have hzero := ((hthrifty a d hd).2 (by simpa using hpending)).1
          show ((insertVictim s.theDirEvictBuffer victim).remove a).reserved = _
          rw [DirEvictBuffer.reserved_remove, hfound, reserved_insertVictim]
          simp [hzero]
  · split at h
    · cases h
      exact ⟨rfl, hthrifty⟩
    · next hnone =>
      rw [Bool.or_eq_true, not_or] at hnone
      split at h
      · cases h
      · next d' victim hallocate =>
        cases h
        exact ⟨reserved_insertVictim, hvictim (by simpa using hnone.1) hallocate⟩

/-- What a handler does to the reservations: the process keeps its slots, and what the
    process and the policy hold of the cache evict buffer stays the same. -/
structure Settles (s : Policy cfg) (p : ProcessEntry) (s' : Policy cfg) (q : ProcessEntry) : Prop where
  slots : q.slots = p.slots
  balance : q.cacheEBReserved + s'.held = p.cacheEBReserved + s.held
  nonneg : 0 ≤ q.cacheEBReserved
  thrifty : s'.Thrifty

/-- An entry that is put back waiting or becomes active was empty before, so the file stays
    thrifty. -/
theorem settles_of_pays {t : MemoryTransport} (hthrifty : s.Thrifty) (hpositive : 0 < p.cacheEBReserved)
    (hempty : hasMaf = true → ∀ i, p.maf = some i → s.theMAF.reservedBy i = 0)
    (hslots : q.slots = p.slots) (hpays : Pays s.theMAF s'.theMAF p q)
    (hrecorded : Recorded s.theMAF s'.theMAF p.maf a st t hasMaf i)
    (hhands : q.action = .eFwdAndWaitAck → p.transport.msg.type.isReadType = true →
      q.maf = some i ∧ st = .eWaitAck ∧ t.msg.type = p.transport.msg.type)
    (hdir : s'.theDirEvictBuffer.reserved = s.theDirEvictBuffer.reserved)
    (hdirThrifty : s'.theDirEvictBuffer.Thrifty) : Settles s p s' q := by
  have hbefore : s.theMAF.reservedBy i = 0 := by
    cases hrecorded with
    | kept hslot _ _ _ => exact hempty rfl i hslot
    | fresh _ _ => exact MissAddressFile.reservedBy_of_ticket_none MissAddressFile.ticket_nextStamp
  have hothers : ∀ {j u}, j ≠ i → s'.theMAF.ticket j = some u → s.theMAF.ticket j = some u := by
    intro j u hj hu
    cases hrecorded with
    | kept _ _ _ hupdate => rwa [hupdate, Function.update_of_ne hj] at hu
    | fresh _ hupdate => rwa [hupdate, Function.update_of_ne hj] at hu
  have hthis : ∀ {u}, s'.theMAF.ticket i = some u → u.state = st ∧ u.type = t.msg.type := by
    intro u hu
    cases hrecorded with
    | kept _ _ _ hupdate =>
      rw [hupdate, Function.update_self] at hu
      cases hu
      exact ⟨rfl, rfl⟩
    | fresh _ hupdate =>
      rw [hupdate, Function.update_self] at hu
      cases hu
      exact ⟨rfl, rfl⟩
  cases hpays with
  | keeps hkeeps hsame =>
    refine ⟨hslots, ?_, hsame ▸ hpositive.le, fun j => hkeeps j ▸ hthrifty.nonneg j, ?_, hdirThrifty⟩
    · rw [held, held, MissAddressFile.reserved_of_same hkeeps, hdir, hsame]
    · intro j u hu hne
      rw [hkeeps] at hne
      by_cases hj : j = i
      · subst hj
        exact absurd hbefore hne
      · exact hthrifty.active (hothers hj hu) hne
  | @hands j hmaf hnow hkeeps hzero hread haction =>
    obtain ⟨hmaf', rfl, htype⟩ := hhands haction hread
    obtain rfl : j = i := Option.some.inj (hmaf.symm.trans hmaf')
    have hsum := MissAddressFile.reserved_of_differ hkeeps
    rw [hnow, hbefore] at hsum
    refine ⟨hslots, ?_, hzero.ge, fun k => ?_, ?_, hdirThrifty⟩
    · rw [held, held, hzero, hdir]
      omega
    · by_cases hk : k = j
      · rw [hk, hnow]
        exact hpositive.le
      · rw [hkeeps k hk]
        exact hthrifty.nonneg k
    · intro k u hu hne
      by_cases hk : k = j
      · subst hk
        obtain ⟨hstate, htype'⟩ := hthis hu
        exact ⟨hstate, by rw [htype', htype, hread]⟩
      · rw [hkeeps k hk] at hne
        exact hthrifty.active (hothers hk hu) hne

/-- The snoops that a process may have for its action. -/
def snoopsFit (q : ProcessEntry) : Prop := q.snoopTransports.length ≤ if q.action.sendsSnoops then 2 else 0

theorem requested_settles (hthrifty : s.Thrifty) (hpositive : 0 < p.cacheEBReserved)
    (hempty : hasMaf = true → ∀ i, p.maf = some i → s.theMAF.reservedBy i = 0)
    (hnone : p.snoopTransports = []) (haligned : cfg.blockAddress a = a) (h : Requested s p hasMaf a s' q) :
    Settles s p s' q ∧ snoopsFit q := by
  have hstalled : ∀ {s₁ : Policy cfg} {st}, s₁.stall p hasMaf a st = .ok (s', q) → s₁.theMAF = s.theMAF →
      s₁.theDirEvictBuffer.reserved = s.theDirEvictBuffer.reserved → s₁.theDirEvictBuffer.Thrifty →
      Settles s p s' q ∧ snoopsFit q := by
    intro s₁ st hstall hmaf hdir hdirThrifty
    have hcosts := Costs.of_stall (s := s₁) hstall rfl rfl
    obtain ⟨hsame, hq, i, hrecorded⟩ := stall_spec hstall
    have hpays := hcosts.pays
    rw [hmaf] at hpays hrecorded
    refine ⟨settles_of_pays hthrifty hpositive hempty hcosts.slots hpays hrecorded ?_ ?_ ?_, ?_⟩
    · intro haction
      rw [hq] at haction
      cases haction
    · rw [hcosts.dirEB]
      exact hdir
    · rw [hcosts.dirEB]
      exact hdirThrifty
    · rw [hq, snoopsFit, hnone]
      exact Nat.zero_le _
  cases h with
  | redundant _ _ =>
    refine ⟨⟨rfl, rfl, hpositive.le, hthrifty⟩, ?_⟩
    simp [snoopsFit, hnone]
  | queued _ hstall => exact hstalled hstall rfl rfl hthrifty.dir
  | noEntry _ _ hstall => exact hstalled hstall rfl rfl hthrifty.dir
  | writtenBack _ hclaim _ hstall =>
    obtain ⟨hdir, hdirThrifty⟩ := claimDirEntry_reserved haligned hthrifty.dir hclaim
    exact hstalled hstall (claimDirEntry_theMAF hclaim) hdir hdirThrifty
  | @served w s₁ s₂ _ _ _ hclaim hcache hserve =>
    obtain ⟨hdir, hdirThrifty⟩ := claimDirEntry_reserved haligned hthrifty.dir hclaim
    have hcosts := costs_serveRequest hserve
    have hpays := hcosts.pays
    have hdirEB : s'.theDirEvictBuffer = s₁.theDirEvictBuffer := by
      rw [hcosts.dirEB, claimCacheBlock_frame hcache]
    rw [claimCacheBlock_theMAF hcache, claimDirEntry_theMAF hclaim] at hpays
    obtain ⟨dir, hserved⟩ := served_serveRequest hserve
    have hrec := hserved.recorded
    rw [protectEntry_theMAF, claimCacheBlock_theMAF hcache, claimDirEntry_theMAF hclaim,
      (convertUpgrade_type p dir).2.2.2] at hrec
    have hsettled : ∀ {i st}, Recorded s.theMAF s'.theMAF p.maf a st q.transport hasMaf i →
        (q.action = .eFwdAndWaitAck → q.maf = some i ∧ st = .eWaitAck) → Settles s p s' q := by
      intro i st hrecorded hactive
      refine settles_of_pays hthrifty hpositive hempty hcosts.slots hpays hrecorded ?_ (hdirEB ▸ hdir)
        (hdirEB ▸ hdirThrifty)
      intro haction hread
      have htype : q.transport.msg.type = p.transport.msg.type := by
        rw [hserved.transport.1]
        rcases convertUpgrade_spec p dir with hsame | ⟨hupgrade, _⟩
        · rw [hsame]
        · rw [hupgrade] at hread
          cases hread
      exact ⟨(hactive haction).1, (hactive haction).2, htype⟩
    refine ⟨?_, ?_⟩
    · rcases hrec with ⟨_, hstall, i, hrecorded⟩ | ⟨_, _, i, hmaf, hrecorded⟩
      · exact hsettled hrecorded fun haction => by simp [hstall] at haction
      · exact hsettled hrecorded fun _ => ⟨hmaf, rfl⟩
    · have hsnoops := hcosts.snoops
      rw [hnone, List.length_nil, Nat.zero_add] at hsnoops
      exact hsnoops

/-! ## Evictions by a core -/

/-- A process takes the reservation of a block in the directory evict buffer over. -/
theorem Thrifty.takes {d : DirEBEntry} (hthrifty : s.Thrifty) (hnonneg : 0 ≤ p.cacheEBReserved)
    (hd : s.theDirEvictBuffer.find a = some d) :
    Settles s p { s with theDirEvictBuffer := s.theDirEvictBuffer.setCacheEBReserved a 0 }
      { p with cacheEBReserved := p.cacheEBReserved + d.cacheEBReserved } := by
  have hsum := DirEvictBuffer.reserved_setCacheEBReserved (n := 0) hd
  refine ⟨rfl, ?_, add_nonneg hnonneg (hthrifty.dir _ d hd).1, hthrifty.nonneg, hthrifty.active, ?_⟩
  · dsimp only [held]
    rw [hsum]
    omega
  · refine hthrifty.dir.modify (f := fun e => { e with cacheEBReserved := 0 }) (fun _ => rfl) hd
      ⟨le_rfl, fun hpending => ⟨rfl, ?_⟩⟩
    exact ((hthrifty.dir _ d hd).2 hpending).2

/-- An eviction may take a reservation over from the directory evict buffer. -/
theorem stealReservation_settles (hthrifty : s.Thrifty) (hpositive : 0 < p.cacheEBReserved) :
    Settles s p (s.stealReservation p).1 (s.stealReservation p).2 := by
  unfold stealReservation
  split
  · next d hd =>
    split
    · exact hthrifty.takes hpositive.le hd
    · exact ⟨rfl, rfl, hpositive.le, hthrifty⟩
  · exact ⟨rfl, rfl, hpositive.le, hthrifty⟩

theorem Settles.of_frame (h : Settles s p s' q) (hmaf : s₁.theMAF = s'.theMAF)
    (hdir : s₁.theDirEvictBuffer = s'.theDirEvictBuffer) (hslots : p₁.slots = q.slots)
    (hreserved : p₁.cacheEBReserved = q.cacheEBReserved) : Settles s p s₁ p₁ := by
  obtain ⟨hslots', hbalance, hnonneg, hthrifty⟩ := h
  refine ⟨hslots.trans hslots', ?_, hreserved ▸ hnonneg, ?_, ?_, hdir ▸ hthrifty.dir⟩
  · rw [hreserved, held, hmaf, hdir]
    exact hbalance
  · rw [hmaf]
    exact hthrifty.nonneg
  · rw [hmaf]
    exact hthrifty.active

theorem Settles.trans {s₂ : Policy cfg} {p₂ : ProcessEntry} (h₁ : Settles s p s₁ p₁)
    (h₂ : Settles s₁ p₁ s₂ p₂) : Settles s p s₂ p₂ :=
  ⟨h₂.slots.trans h₁.slots, h₂.balance.trans h₁.balance, h₂.nonneg, h₂.thrifty⟩

theorem Settles.refl (hthrifty : s.Thrifty) (hnonneg : 0 ≤ p.cacheEBReserved) : Settles s p s p :=
  ⟨rfl, rfl, hnonneg, hthrifty⟩

theorem writeEvictData_settles {t : Policy cfg × ProcessEntry × Bool} {fwd : Bool} (hthrifty : s.Thrifty)
    (hpositive : 0 < p.cacheEBReserved) (hok : writeEvictData reserve s p hasMaf fwd = .ok t) :
    Settles s p t.1 t.2.1 ∧ t.2.1.snoopTransports = p.snoopTransports ∧ t.2.2 = fwd := by
  have hsteal := stealReservation_settles hthrifty hpositive
  obtain ⟨_, _, hproc, hle⟩ := stealReservation_spec s p
  unfold writeEvictData at hok
  dsimp only at hok
  split at hok
  · rw [if_pos (by simp [hpositive.trans_le hle])] at hok
    obtain ⟨s₂, hfill, hpure⟩ := bind_eq_ok.mp hok
    obtain rfl := pure_eq_ok.mp hpure
    have hframe := fillFromEvict_frame hfill
    refine ⟨hsteal.of_frame ?_ ?_ rfl rfl, ?_, rfl⟩
    · rw [hframe]
    · rw [hframe]
    · dsimp only
      rw [hproc]
  · cases hok
    exact ⟨⟨rfl, rfl, hpositive.le, hthrifty.nonneg, hthrifty.active, hthrifty.dir⟩, rfl, rfl⟩

theorem finishEvict_settles {active fwd : Bool} (hthrifty : s.Thrifty) (hnonneg : 0 ≤ p.cacheEBReserved)
    (hok : s.finishEvict p active fwd = .ok (s', q)) :
    Settles s p s' q ∧ q.snoopTransports = p.snoopTransports ∧ q.action.sendsSnoops = fwd := by
  have hdone : (if fwd then ProcessAction.eForward else .eNoAction).sendsSnoops = fwd := by
    cases fwd <;> rfl
  have hwake : (if fwd then ProcessAction.eFwdAndWakeEvictMAF else .eWakeEvictMAF).sendsSnoops = fwd := by
    cases fwd <;> rfl
  unfold finishEvict at hok
  dsimp only at hok
  split at hok
  · next d hd =>
    split at hok
    · cases hok
    · obtain ⟨sharers, _, hok⟩ := bind_eq_ok.mp hok
      split at hok
      · next hlast =>
        have hremoved : ((s.theDirEvictBuffer.setState p.transport.msg.address sharers).remove
            p.transport.msg.address).reserved = s.theDirEvictBuffer.reserved := by
          rw [DirEvictBuffer.reserved_remove, DirEvictBuffer.find_setState, if_pos rfl, hd,
            DirEvictBuffer.reserved_setState]
          simp [((hthrifty.dir _ d hd).2 hlast.1).1]
        have hkept : ((s.theDirEvictBuffer.setState p.transport.msg.address sharers).remove
            p.transport.msg.address).Thrifty := by
          intro x d' hd'
          rw [DirEvictBuffer.find_remove] at hd'
          split at hd'
          · cases hd'
          · next hx =>
            rw [DirEvictBuffer.find_setState, if_neg hx] at hd'
            exact hthrifty.dir x d' hd'
        split at hok
        · split at hok
          · cases hok
          · cases hok
            refine ⟨⟨rfl, ?_, hnonneg, hthrifty.nonneg, hthrifty.active, hkept⟩, rfl, hwake⟩
            dsimp only [held]
            rw [hremoved]
        · cases hok
          refine ⟨⟨rfl, ?_, hnonneg, hthrifty.nonneg, hthrifty.active, hkept⟩, rfl, hdone⟩
          dsimp only [held]
          rw [hremoved]
      · next hmore =>
        cases hok
        refine ⟨⟨rfl, ?_, hnonneg, hthrifty.nonneg, hthrifty.active, ?_⟩, rfl, hdone⟩
        · dsimp only [held]
          rw [DirEvictBuffer.reserved_setState]
        · refine hthrifty.dir.modify (f := fun e => { e with state := sharers }) (fun _ => rfl) hd
            ⟨(hthrifty.dir _ d hd).1, fun hpending => ⟨((hthrifty.dir _ d hd).2 hpending).1, ?_⟩⟩
          simpa [show d.invalidatesPending = 0 from hpending] using hmore
  · split at hok
    · obtain ⟨sharers, _, hok⟩ := bind_eq_ok.mp hok
      obtain ⟨rfl, rfl⟩ := Prod.mk.inj (pure_eq_ok.mp hok)
      exact ⟨⟨rfl, rfl, hnonneg, hthrifty.nonneg, hthrifty.active, hthrifty.dir⟩, rfl, hdone⟩
    · cases hok
      exact ⟨⟨rfl, rfl, hnonneg, hthrifty⟩, rfl, hdone⟩

theorem doRequest_settles (hthrifty : s.Thrifty) (hpositive : 0 < p.cacheEBReserved)
    (hempty : hasMaf = true → ∀ i, p.maf = some i → s.theMAF.reservedBy i = 0)
    (hnone : p.snoopTransports = []) (hok : doRequest reserve s p hasMaf = .ok (s', q)) :
    Settles s p s' q ∧ snoopsFit q := by
  have hstalled : ∀ {a st}, s.stall p hasMaf a st = .ok (s', q) → Settles s p s' q ∧ snoopsFit q := by
    intro a st hstall
    have hcosts := Costs.of_stall (s := s) hstall rfl rfl
    obtain ⟨_, hq, i, hrecorded⟩ := stall_spec hstall
    refine ⟨settles_of_pays hthrifty hpositive hempty hcosts.slots hcosts.pays hrecorded ?_
      (by rw [hcosts.dirEB]) (hcosts.dirEB ▸ hthrifty.dir), ?_⟩
    · intro haction
      rw [hq] at haction
      cases haction
    · rw [hq, snoopsFit, hnone]
      exact Nat.zero_le _
  cases hevict : p.transport.msg.type.isEvictType with
  | false =>
    exact requested_settles hthrifty hpositive hempty hnone (CMPCacheInfo.blockAddress_blockAddress _ _)
      (doRequest_requested hevict hok)
  | true =>
    rcases doRequest_evict hevict hok with ⟨_, _, hstall⟩ | ⟨_, hdo⟩
    · exact hstalled hstall
    · cases hwaits : s.evictWaits p with
      | true => exact hstalled (doEvict_waits hwaits hdo)
      | false =>
        have hack : Settles s p s (withEvictAck p) := by
          rw [withEvictAck_same]
          exact ⟨rfl, rfl, hpositive.le, hthrifty⟩
        have hfits : ∀ {r : ProcessEntry}, r.snoopTransports = (withEvictAck p).snoopTransports →
            r.action.sendsSnoops = p.transport.msg.ackRequired → snoopsFit r := by
          intro r hr hsends
          rw [snoopsFit, hr, hsends, withEvictAck]
          split
          · simp [ProcessEntry.addSnoopTransport, hnone]
          · simp [hnone]
        unfold doEvict at hdo
        rw [if_neg (by simp [hwaits])] at hdo
        split at hdo
        · obtain ⟨t, hwrite, hfinish⟩ := bind_eq_ok.mp hdo
          obtain ⟨hwritten, hsnoops, hfwd⟩ := writeEvictData_settles hthrifty
            (by rwa [withEvictAck_cacheEBReserved]) hwrite
          obtain ⟨hfinished, hsnoops', hsends⟩ := finishEvict_settles hwritten.thrifty hwritten.nonneg hfinish
          exact ⟨(hack.trans hwritten).trans hfinished, hfits (hsnoops'.trans hsnoops) (hsends.trans hfwd)⟩
        · obtain ⟨hfinished, hsnoops, hsends⟩ := finishEvict_settles hthrifty hack.nonneg hdo
          exact ⟨hack.trans hfinished, hfits hsnoops hsends⟩

/-- Only one entry of the file changes, and no other is given a place. -/
structure Spares (m m' : MissAddressFile) (slot : Option Nat) : Prop where
  stamps : m.nextStamp ≤ m'.nextStamp
  others : ∀ j, slot ≠ some j → m'.ticket j = m.ticket j ∧ (m.reservedBy j = 0 → m'.reservedBy j = 0)

theorem Spares.refl (m : MissAddressFile) (slot : Option Nat) : Spares m m slot :=
  ⟨le_rfl, fun _ _ => ⟨rfl, id⟩⟩

theorem Spares.of_recorded {m m' : MissAddressFile} {t : MemoryTransport} {slot : Option Nat}
    (h : Recorded m m' slot a st t hasMaf i)
    (hby : ∀ j, j ≠ i → m.reservedBy j = 0 → m'.reservedBy j = 0) :
    Spares m m' (if hasMaf then slot else some m.nextStamp) := by
  cases h with
  | kept hslot _ hstamp hupdate =>
    refine ⟨hstamp.ge, fun j hj => ?_⟩
    have hji : j ≠ i := fun h => hj (by rw [if_pos rfl, hslot, h])
    exact ⟨by rw [hupdate, Function.update_of_ne hji], hby j hji⟩
  | fresh hstamp hupdate =>
    refine ⟨by omega, fun j hj => ?_⟩
    have hji : j ≠ m.nextStamp := fun h => hj (by rw [h]; rfl)
    exact ⟨by rw [hupdate, Function.update_of_ne hji], hby j hji⟩

/-- A request changes its own entry only. -/
theorem doRequest_spares (hpositive : 0 < p.cacheEBReserved)
    (hok : doRequest reserve s p hasMaf = .ok (s', q)) :
    Spares s.theMAF s'.theMAF (if hasMaf then p.maf else some s.theMAF.nextStamp) := by
  have hstalled : ∀ {s₁ : Policy cfg} {a st}, s₁.theMAF = s.theMAF → s₁.stall p hasMaf a st = .ok (s', q) →
      Spares s.theMAF s'.theMAF (if hasMaf then p.maf else some s.theMAF.nextStamp) := by
    intro s₁ a st hmaf hstall
    obtain ⟨_, _, i, hrecorded⟩ := stall_spec hstall
    rw [hmaf] at hrecorded
    refine .of_recorded hrecorded fun j _ hj => ?_
    rw [stall_reservedBy hstall, hmaf, hj]
  cases hevict : p.transport.msg.type.isEvictType with
  | false =>
    cases doRequest_requested hevict hok with
    | redundant _ _ => exact .refl _ _
    | queued _ hstall => exact hstalled rfl hstall
    | noEntry _ _ hstall => exact hstalled rfl hstall
    | writtenBack _ hclaim _ hstall => exact hstalled (claimDirEntry_theMAF hclaim) hstall
    | served _ hclaim hcache hserve =>
      have hpays := (costs_serveRequest hserve).pays
      rw [claimCacheBlock_theMAF hcache, claimDirEntry_theMAF hclaim] at hpays
      obtain ⟨dir, hserved⟩ := served_serveRequest hserve
      have hrec := hserved.recorded
      rw [protectEntry_theMAF, claimCacheBlock_theMAF hcache, claimDirEntry_theMAF hclaim,
        (convertUpgrade_type p dir).2.2.2] at hrec
      cases hpays with
      | keeps hkeeps _ =>
        rcases hrec with ⟨_, _, i, hrecorded⟩ | ⟨_, _, i, _, hrecorded⟩
        · exact .of_recorded hrecorded fun j _ hj => hkeeps j ▸ hj
        · exact .of_recorded hrecorded fun j _ hj => hkeeps j ▸ hj
      | hands hmaf _ hkeeps _ _ haction =>
        rcases hrec with ⟨_, hstall, _⟩ | ⟨_, _, i, hmaf', hrecorded⟩
        · rw [hstall] at haction
          cases haction
        · obtain rfl := Option.some.inj (hmaf.symm.trans hmaf')
          exact .of_recorded hrecorded fun j hji hj => hkeeps j hji ▸ hj
  | true =>
    rcases doRequest_evict hevict hok with ⟨_, _, hstall⟩ | ⟨_, hdo⟩
    · exact hstalled rfl hstall
    · cases hwaits : s.evictWaits p with
      | true => exact hstalled rfl (doEvict_waits hwaits hdo)
      | false =>
        rw [(doEvict_evicted hwaits hpositive hdo).maf]
        exact .refl _ _

/-! ## Replies -/

/-- What a reply does to the reservations. A request that is complete holds nothing any
    more, and a reply that is forwarded holds no place in the evict buffer. -/
structure Returns (s : Policy cfg) (p : ProcessEntry) (s' : Policy cfg) (q : ProcessEntry) : Prop
    extends Settles s p s' q where
  snoops : q.snoopTransports.length = if q.action = .eForward then 1 else 0
  completed : q.action = .eRemoveAndWakeMAF ∨ q.action = .eReplyAndRemoveMAF →
    ∀ i, q.maf = some i → s'.theMAF.reservedBy i = 0
  forwarded : q.action = .eForward → q.cacheEBReserved = 0
  drained : ∀ j, s.theMAF.reservedBy j = 0 → s'.theMAF.reservedBy j = 0

theorem Returns.after (h₁ : Settles s p s₁ p₁) (hmaf : s₁.theMAF = s.theMAF) (h₂ : Returns s₁ p₁ s' q) :
    Returns s p s' q :=
  ⟨h₁.trans h₂.toSettles, h₂.snoops, h₂.completed, h₂.forwarded, hmaf ▸ h₂.drained⟩

theorem mem_of_firstMAF {type : MemoryMessageType} {maf : MAFEntry} (h : s.firstMAF a type = .ok maf) :
    maf ∈ s.theMAF.entries := by
  unfold firstMAF at h
  split at h
  · next e he =>
    split at h
    · cases h
      exact (MissAddressFile.mem_of_findFirst he).1
    · cases h
  · cases h

theorem returnReservation_dirEB {maf : MAFEntry} :
    (s.returnReservation p maf).1.theDirEvictBuffer = s.theDirEvictBuffer := by
  rw [(returnReservation_spec s p maf).2.1]

/-- The entry of the request gives its place back. -/
theorem returnReservation_settles {maf : MAFEntry} (hthrifty : s.Thrifty) (hzero : p.cacheEBReserved = 0)
    (hmem : maf ∈ s.theMAF.entries) :
    Settles s p (s.returnReservation p maf).1 (s.returnReservation p maf).2 ∧
      (s.returnReservation p maf).1.theMAF.reservedBy maf.stamp = 0 := by
  have hby := MissAddressFile.reservedBy_of_mem hmem
  unfold returnReservation
  split
  · next hholds =>
    have hticket : s.theMAF.ticket maf.stamp ≠ none := by
      rw [MissAddressFile.ticket_of_mem hmem]
      simp
    have hset : ∀ j, (s.theMAF.setCacheEBReserved maf.stamp 0).reservedBy j =
        if j = maf.stamp then 0 else s.theMAF.reservedBy j :=
      fun j => MissAddressFile.reservedBy_setCacheEBReserved hticket
    have hothers : ∀ j, j ≠ maf.stamp →
        (s.theMAF.setCacheEBReserved maf.stamp 0).reservedBy j = s.theMAF.reservedBy j :=
      fun j hj => (hset j).trans (if_neg hj)
    have hsum := MissAddressFile.reserved_of_differ hothers
    rw [hset, if_pos rfl, hby] at hsum
    refine ⟨⟨rfl, ?_, hholds.le, fun j => ?_, fun {j u} hu hne => ?_, hthrifty.dir⟩, ?_⟩
    · dsimp only [held]
      omega
    · dsimp only
      rw [hset]
      split
      · exact le_rfl
      · exact hthrifty.nonneg j
    · dsimp only at hu hne
      rw [MissAddressFile.ticket_setCacheEBReserved] at hu
      rw [hset] at hne
      split at hne
      · exact absurd rfl hne
      · exact hthrifty.active hu hne
    · exact (hset _).trans (if_pos rfl)
  · next hholds =>
    refine ⟨⟨rfl, rfl, hzero.ge, hthrifty⟩, le_antisymm ?_ (hthrifty.nonneg _)⟩
    rw [hby]
    omega

theorem returnReservation_drained {maf : MAFEntry} {j : Nat} (hmem : maf ∈ s.theMAF.entries)
    (hj : s.theMAF.reservedBy j = 0) : (s.returnReservation p maf).1.theMAF.reservedBy j = 0 := by
  unfold returnReservation
  split
  · dsimp only
    rw [MissAddressFile.reservedBy_setCacheEBReserved (by rw [MissAddressFile.ticket_of_mem hmem]; simp)]
    split
    · rfl
    · exact hj
  · exact hj

/-- A reply that gives its entry's place back, does nothing else to reservations and sends
    no snoops. -/
theorem Returns.of_returnReservation {maf : MAFEntry} (hthrifty : s.Thrifty) (hzero : p.cacheEBReserved = 0)
    (hnone : p.snoopTransports = []) (hmem : maf ∈ s.theMAF.entries)
    (hmaf : s'.theMAF = (s.returnReservation p maf).1.theMAF)
    (hdir : s'.theDirEvictBuffer = s.theDirEvictBuffer)
    (hslots : q.slots = (s.returnReservation p maf).2.slots)
    (hreserved : q.cacheEBReserved = (s.returnReservation p maf).2.cacheEBReserved)
    (hsnoops : q.snoopTransports = (s.returnReservation p maf).2.snoopTransports)
    (hslot : q.maf = (s.returnReservation p maf).2.maf) (haction : q.action ≠ .eForward) :
    Returns s p s' q := by
  obtain ⟨hsettles, hgone⟩ := returnReservation_settles hthrifty hzero hmem
  obtain ⟨_, _, hp⟩ := returnReservation_spec s p maf
  refine ⟨hsettles.of_frame hmaf (hdir.trans returnReservation_dirEB.symm) hslots hreserved, ?_, fun _ i hi => ?_,
    fun h => absurd h haction, fun j hj => hmaf ▸ returnReservation_drained hmem hj⟩
  · rw [hsnoops, hp, hnone, if_neg haction]
    rfl
  · rw [hslot, hp] at hi
    rw [← Option.some.inj hi, hmaf]
    exact hgone

theorem returns_handleReadAck (hthrifty : s.Thrifty) (hzero : p.cacheEBReserved = 0)
    (hnone : p.snoopTransports = []) (hok : s.handleReadAck p = .ok (s', q)) : Returns s p s' q := by
  obtain ⟨maf, hmatch, hok⟩ := bind_eq_ok.mp hok
  obtain ⟨_, _, _, hmem⟩ := matchingMAF_spec hmatch
  dsimp only at hok
  split at hok
  · cases hok
  · obtain ⟨sharers, _, hok⟩ := bind_eq_ok.mp hok
    split at hok
    · obtain ⟨s₁, hkeep, hok⟩ := bind_eq_ok.mp hok
      obtain ⟨rfl, rfl⟩ := Prod.mk.inj (pure_eq_ok.mp hok)
      obtain ⟨s₂, hroom, hkeep⟩ := bind_eq_ok.mp hkeep
      obtain rfl := pure_eq_ok.mp hkeep
      have hframe := makeRoom_frame hroom
      refine .of_returnReservation hthrifty hzero hnone hmem ?_ ?_ rfl rfl rfl rfl (by simp)
      · dsimp only
        rw [hframe]
      · dsimp only
        rw [hframe]
        exact returnReservation_dirEB
    · obtain ⟨rfl, rfl⟩ := Prod.mk.inj (pure_eq_ok.mp hok)
      refine .of_returnReservation hthrifty hzero hnone hmem rfl ?_ rfl rfl rfl rfl (by simp)
      exact returnReservation_dirEB

theorem returns_handleNASAck (hthrifty : s.Thrifty) (hzero : p.cacheEBReserved = 0)
    (hnone : p.snoopTransports = []) (hok : s.handleNASAck p = .ok (s', q)) : Returns s p s' q := by
  obtain ⟨maf, hfirst, hok⟩ := bind_eq_ok.mp hok
  obtain ⟨rfl, rfl⟩ := Prod.mk.inj (pure_eq_ok.mp hok)
  exact .of_returnReservation hthrifty hzero hnone (mem_of_firstMAF hfirst) rfl returnReservation_dirEB rfl rfl
    rfl rfl (by simp)

theorem yieldCopy_kept :
    (s.yieldCopy a).theMAF = s.theMAF ∧ (s.yieldCopy a).theDirEvictBuffer = s.theDirEvictBuffer := by
  unfold yieldCopy
  split
  · split
    · split <;> exact ⟨rfl, rfl⟩
    · exact ⟨rfl, rfl⟩
  · exact ⟨rfl, rfl⟩

theorem returns_handleOwnershipAck {type : MemoryMessageType} (hthrifty : s.Thrifty)
    (hzero : p.cacheEBReserved = 0) (hnone : p.snoopTransports = [])
    (hok : handleOwnershipAck type s p = .ok (s', q)) : Returns s p s' q := by
  obtain ⟨maf, hfirst, hok⟩ := bind_eq_ok.mp hok
  dsimp only at hok
  split at hok
  · cases hok
  · obtain ⟨sharers, _, hok⟩ := bind_eq_ok.mp hok
    obtain ⟨rfl, rfl⟩ := Prod.mk.inj (pure_eq_ok.mp hok)
    generalize hfreed : ({ s with theDirectory := _ } : Policy cfg) = s₁
    obtain ⟨hmaf, hdir⟩ := yieldCopy_kept (s := s₁) (a := p.transport.msg.address)
    generalize s₁.yieldCopy p.transport.msg.address = s₀ at hmaf hdir
    subst hfreed
    replace hmaf : s₀.theMAF = s.theMAF := hmaf
    have hsame : (s₀.returnReservation p maf).1.theMAF = (s.returnReservation p maf).1.theMAF ∧
        (s₀.returnReservation p maf).2 = (s.returnReservation p maf).2 := by
      unfold returnReservation
      rw [hmaf]
      split
      · exact ⟨rfl, rfl⟩
      · exact ⟨hmaf, rfl⟩
    refine .of_returnReservation hthrifty hzero hnone (mem_of_firstMAF hfirst) hsame.1
      (returnReservation_dirEB.trans hdir) ?_ (by rw [← hsame.2]) (by rw [← hsame.2]) (by rw [← hsame.2]) (by simp)
    rw [← hsame.2]
    rfl

theorem returns_handleMemoryReply (hthrifty : s.Thrifty) (hzero : p.cacheEBReserved = 0)
    (hnone : p.snoopTransports = []) (hok : s.handleMemoryReply p = .ok (s', q)) : Returns s p s' q := by
  obtain ⟨maf, hmatch, hok⟩ := bind_eq_ok.mp hok
  obtain ⟨_, _, _, hmem⟩ := matchingMAF_spec hmatch
  dsimp only at hok
  split at hok
  · obtain ⟨s₁, hkeep, hok⟩ := bind_eq_ok.mp hok
    obtain ⟨rfl, rfl⟩ := Prod.mk.inj (pure_eq_ok.mp hok)
    obtain ⟨s₂, hroom, hkeep⟩ := bind_eq_ok.mp hkeep
    obtain rfl := pure_eq_ok.mp hkeep
    have hframe := makeRoom_frame hroom
    refine .of_returnReservation hthrifty hzero hnone hmem ?_ ?_ rfl rfl rfl rfl (by simp)
    · dsimp only
      rw [hframe]
    · dsimp only
      rw [hframe]
      exact returnReservation_dirEB
  · obtain ⟨rfl, rfl⟩ := Prod.mk.inj (pure_eq_ok.mp hok)
    refine .of_returnReservation hthrifty hzero hnone hmem rfl ?_ rfl rfl rfl rfl (by simp)
    exact returnReservation_dirEB

/-- A non-allocating store is complete. Its entry never held a place; only the entry of a
    read does. -/
theorem returns_handleNASReply (hthrifty : s.Thrifty) (hzero : p.cacheEBReserved = 0)
    (hnone : p.snoopTransports = [])
    (hstore : ∀ maf, s.matchingMAF p.transport = .ok maf → maf.type.isReadType = false)
    (hok : s.handleNASReply p = .ok (s', q)) : Returns s p s' q := by
  obtain ⟨maf, hmatch, hok⟩ := bind_eq_ok.mp hok
  obtain ⟨rfl, rfl⟩ := Prod.mk.inj (pure_eq_ok.mp hok)
  obtain ⟨hticket, _⟩ := matchingMAF_spec hmatch
  refine ⟨⟨rfl, rfl, hzero.ge, hthrifty⟩, ?_, fun _ i hi => ?_, fun h => (by cases h), fun _ hj => hj⟩
  · simp [hnone]
  · rw [← Option.some.inj hi]
    by_contra hne
    have hread := (hthrifty.active hticket hne).2
    rw [show maf.ticket.type = maf.type from rfl, hstore maf hmatch] at hread
    cases hread

theorem returns_handleFwdNAck (hthrifty : s.Thrifty) (hzero : p.cacheEBReserved = 0)
    (hnone : p.snoopTransports = []) (hok : s.handleFwdNAck p = .ok (s', q)) : Returns s p s' q := by
  unfold handleFwdNAck at hok
  split at hok
  · cases hok
  · obtain ⟨maf, hmatch, hok⟩ := bind_eq_ok.mp hok
    obtain ⟨s₁, hrecover, hok⟩ := bind_eq_ok.mp hok
    obtain ⟨hticket, hat, _⟩ := matchingMAF_spec hmatch
    have hrecovered : s₁.theMAF = s.theMAF ∧ s₁.theDirEvictBuffer = s.theDirEvictBuffer := by
      unfold recoverCopy at hrecover
      split at hrecover
      · split at hrecover
        · split at hrecover
          · cases hrecover
            exact ⟨rfl, rfl⟩
          · rw [recoverBlock_frame hrecover]
            exact ⟨rfl, rfl⟩
        · cases hrecover
          exact ⟨rfl, rfl⟩
      · cases hrecover
        exact ⟨rfl, rfl⟩
    have hsame : Settles s p s₁ p := (Settles.refl hthrifty hzero.ge).of_frame hrecovered.1 hrecovered.2 rfl rfl
    -- the entry keeps its state and its type, so the file stays thrifty
    have hkept : ∀ {m : MissAddressFile}, (∀ j, m.reservedBy j = s₁.theMAF.reservedBy j) →
        (∀ j u, m.ticket j = some u →
          ∃ v, s₁.theMAF.ticket j = some v ∧ v.state = u.state ∧ v.type = u.type) →
        ∀ {s₂ : Policy cfg} {p₂ : ProcessEntry}, s₂.theMAF = m →
        s₂.theDirEvictBuffer = s₁.theDirEvictBuffer → p₂.slots = p.slots → p₂.cacheEBReserved = p.cacheEBReserved →
        Settles s p s₂ p₂ := by
      rintro m hby htickets s₂ p₂ rfl hdir hslots hreserved
      obtain ⟨_, hbalance, _, hthrifty₁⟩ := hsame
      refine ⟨hslots, ?_, hreserved ▸ hzero.ge, fun j => ?_, fun {j u} hu hne => ?_, ?_⟩
      · rw [hreserved, held, MissAddressFile.reserved_of_same hby, hdir]
        exact hbalance
      · rw [hby]
        exact hthrifty₁.nonneg j
      · rw [hby] at hne
        obtain ⟨v, hv, hstate, htype⟩ := htickets j u hu
        rw [← hstate, ← htype]
        exact hthrifty₁.active hv hne
      · rw [hdir]
        exact hthrifty₁.dir
    unfold retryForward at hok
    dsimp only at hok
    rw [← hrecovered.1] at hticket
    split at hok
    · split at hok
      · cases hok
      · cases hok
        refine ⟨hkept (fun j => MissAddressFile.reservedBy_setState) ?_ rfl rfl rfl rfl, ?_, ?_, fun h => (by cases h),
          fun j hj => MissAddressFile.reservedBy_setState.trans (hrecovered.1 ▸ hj)⟩
        · intro j u hu
          rw [MissAddressFile.ticket_setState] at hu
          split at hu
          · next hj =>
            subst hj
            rw [hticket] at hu
            cases hu
            exact ⟨_, hticket, hat.2, rfl⟩
          · exact ⟨u, hu, rfl, rfl⟩
        · simp [replyWith, hnone]
        · rintro (h | h) <;> cases h
    · split at hok
      · cases hok
        refine ⟨hkept (fun j => MissAddressFile.reservedBy_setTransport) ?_ rfl rfl rfl rfl, ?_, ?_, fun _ => hzero,
          fun j hj => MissAddressFile.reservedBy_setTransport.trans (hrecovered.1 ▸ hj)⟩
        · intro j u hu
          rw [MissAddressFile.ticket_setTransport] at hu
          split at hu
          · next hj =>
            subst hj
            rw [hticket] at hu
            cases hu
            exact ⟨_, hticket, rfl, rfl⟩
          · exact ⟨u, hu, rfl, rfl⟩
        · simp [ProcessEntry.addSnoopTransport, hnone]
        · rintro (h | h) <;> cases h
      · cases hok
        refine ⟨hsame.of_frame rfl rfl rfl rfl, ?_, ?_, fun _ => hzero, fun j hj => hrecovered.1 ▸ hj⟩
        · simp [ProcessEntry.addSnoopTransport, hnone]
        · rintro (h | h) <;> cases h

/-- A reply that wakes a request waiting for the block to be gone, or nothing. -/
theorem Returns.of_wakeWaitEvict (hok : s₁.wakeWaitEvict p₁ a = (s', q)) (h : Settles s p s₁ p₁)
    (hmaf : s₁.theMAF = s.theMAF) (hnone : p₁.snoopTransports = []) : Returns s p s' q := by
  unfold wakeWaitEvict at hok
  split at hok <;> cases hok
  · refine ⟨h.of_frame rfl rfl rfl rfl, ?_, ?_, fun h => (by cases h), fun j hj => hmaf ▸ hj⟩
    · simp [hnone]
    · rintro (h | h) <;> cases h
  · refine ⟨h.of_frame rfl rfl rfl rfl, ?_, ?_, fun h => (by cases h), fun j hj => hmaf ▸ hj⟩
    · simp [hnone]
    · rintro (h | h) <;> cases h

theorem returns_handleEvictAck (hthrifty : s.Thrifty) (hzero : p.cacheEBReserved = 0)
    (hnone : p.snoopTransports = []) (hok : s.handleEvictAck p = .ok (s', q)) : Returns s p s' q := by
  unfold handleEvictAck at hok
  dsimp only at hok
  split at hok
  · cases hok
  · split at hok
    · cases hok
    · refine .of_wakeWaitEvict (Except.ok.inj hok) ((Settles.refl hthrifty hzero.ge).of_frame ?_ ?_ rfl rfl) rfl
        hnone
      · rfl
      · rfl

/-- One invalidate of a directory eviction is done; the last one takes the entry out and
    passes its reservation on to the process. -/
theorem returns_completeInvalidate {dEB d : DirEBEntry} {sharers : SimpleDirectoryState} {n : Int}
    (hok : s.completeInvalidate p dEB sharers n = .ok (s', q)) (hthrifty : s.Thrifty)
    (hd : s.theDirEvictBuffer.find p.transport.msg.address = some d)
    (hpending : d.invalidatesPending = dEB.invalidatesPending) (hn : d.cacheEBReserved = n)
    (hone : n = 0 ∨ p.cacheEBReserved = 0) (hnonneg : 0 ≤ p.cacheEBReserved) (hnone : p.snoopTransports = []) :
    Returns s p s' q := by
  have hentry : ((s.theDirEvictBuffer.setState p.transport.msg.address sharers).completeInvalidate
      p.transport.msg.address).find p.transport.msg.address =
      some { d with state := sharers, invalidatesPending := d.invalidatesPending - 1 } := by
    rw [DirEvictBuffer.find_completeInvalidate, if_pos rfl, DirEvictBuffer.find_setState, if_pos rfl, hd]
    rfl
  have hothers : ∀ {x d'}, x ≠ p.transport.msg.address →
      ((s.theDirEvictBuffer.setState p.transport.msg.address sharers).completeInvalidate
        p.transport.msg.address).find x = some d' → s.theDirEvictBuffer.find x = some d' := by
    intro x d' hx hd'
    rwa [DirEvictBuffer.find_completeInvalidate, if_neg hx, DirEvictBuffer.find_setState, if_neg hx] at hd'
  have hsum : ((s.theDirEvictBuffer.setState p.transport.msg.address sharers).completeInvalidate
      p.transport.msg.address).reserved = s.theDirEvictBuffer.reserved := by
    rw [DirEvictBuffer.reserved_completeInvalidate, DirEvictBuffer.reserved_setState]
  have hholds := (hthrifty.dir _ d hd).1
  generalize hb : (s.theDirEvictBuffer.setState p.transport.msg.address sharers).completeInvalidate
    p.transport.msg.address = b at hentry hothers hsum
  unfold completeInvalidate at hok
  dsimp only at hok
  rw [hb] at hok
  split at hok
  · split at hok
    · cases hok
    · have hremoved : (b.remove p.transport.msg.address).reserved = s.theDirEvictBuffer.reserved - n := by
        rw [DirEvictBuffer.reserved_remove, hentry, hsum, Option.map_some, Option.getD_some, hn]
      have hkept : (b.remove p.transport.msg.address).Thrifty := by
        intro x d' hd'
        rw [DirEvictBuffer.find_remove] at hd'
        split at hd'
        · cases hd'
        · next hx => exact hthrifty.dir x d' (hothers hx hd')
      refine .of_wakeWaitEvict (Except.ok.inj hok) ?_ rfl ?_
      · refine ⟨?_, ?_, ?_, hthrifty.nonneg, hthrifty.active, hkept⟩
        · split <;> rfl
        · dsimp only [held]
          rw [hremoved]
          split
          · dsimp only
            omega
          · omega
        · split
          · dsimp only
            omega
          · exact hnonneg
      · split <;> exact hnone
  · next hmore =>
    cases hok
    refine ⟨⟨rfl, ?_, hnonneg, hthrifty.nonneg, hthrifty.active, ?_⟩, ?_, ?_, fun h => (by cases h), fun _ hj => hj⟩
    · dsimp only [held]
      rw [hsum]
    · intro x d' hd'
      by_cases hx : x = p.transport.msg.address
      · subst hx
        rw [show b.find p.transport.msg.address = _ from hentry] at hd'
        cases hd'
        refine ⟨hholds, fun hzero => absurd ?_ hmore⟩
        rw [← hpending]
        exact hzero
      · exact hthrifty.dir x d' (hothers hx hd')
    · simp [hnone]
    · rintro (h | h) <;> cases h

theorem returns_handleInvalidateAck (hthrifty : s.Thrifty) (hzero : p.cacheEBReserved = 0)
    (hnone : p.snoopTransports = []) (hok : s.handleInvalidateAck p = .ok (s', q)) : Returns s p s' q := by
  unfold handleInvalidateAck at hok
  dsimp only at hok
  split at hok
  · cases hok
  · next d hd =>
    obtain ⟨sharers, _, hok⟩ := bind_eq_ok.mp hok
    split at hok
    · obtain ⟨s₁, hkeep, hok⟩ := bind_eq_ok.mp hok
      obtain ⟨s₂, hroom, hkeep⟩ := bind_eq_ok.mp hkeep
      obtain rfl := pure_eq_ok.mp hkeep
      have hframe := makeRoom_frame hroom
      -- the reservation of the entry moves to the process before the invalidate is counted
      have hmoved := hthrifty.takes hzero.ge hd
      have hkept : ∀ {s₃ : Policy cfg} {p₁ : ProcessEntry}, s₃.theMAF = s.theMAF →
          s₃.theDirEvictBuffer = s.theDirEvictBuffer.setCacheEBReserved p.transport.msg.address 0 →
          p₁.slots = p.slots → p₁.cacheEBReserved = p.cacheEBReserved + d.cacheEBReserved → Settles s p s₃ p₁ :=
        fun hmaf hdir hslots hreserved => hmoved.of_frame hmaf hdir hslots hreserved
      have hmaf : s₂.theMAF = s.theMAF := by rw [hframe]
      have hdir : s₂.theDirEvictBuffer.setCacheEBReserved p.transport.msg.address 0 =
          s.theDirEvictBuffer.setCacheEBReserved p.transport.msg.address 0 := by rw [hframe]
      refine .after (hkept ?_ ?_ ?_ ?_) ?_ (returns_completeInvalidate (d := { d with cacheEBReserved := 0 }) hok ?_ ?_
        rfl rfl (.inl rfl) hmoved.nonneg hnone)
      · exact hmaf
      · exact hdir
      · rfl
      · rfl
      · exact hmaf
      · refine ⟨fun j => ?_, fun hu hne => ?_, ?_⟩
        · exact hmaf ▸ hthrifty.nonneg j
        · exact hthrifty.active (hmaf ▸ hu) (hmaf ▸ hne)
        · exact hdir ▸ hmoved.thrifty.dir
      show (s₂.theDirEvictBuffer.setCacheEBReserved p.transport.msg.address 0).find p.transport.msg.address = _
      rw [hdir, DirEvictBuffer.find_setCacheEBReserved, if_pos rfl, hd]
      rfl
    · exact returns_completeInvalidate hok hthrifty hd rfl rfl (.inr hzero) hzero.ge hnone

theorem handleReply_returns (hthrifty : s.Thrifty) (hzero : p.cacheEBReserved = 0)
    (hnone : p.snoopTransports = [])
    (hstore : p.transport.msg.type = .NonAllocatingStoreReply →
      ∀ maf, s.matchingMAF p.transport = .ok maf → maf.type.isReadType = false)
    (hok : s.handleReply p = .ok (s', q)) : Returns s p s' q := by
  unfold handleReply at hok
  split at hok
  case h_1 | h_2 => exact returns_handleInvalidateAck hthrifty hzero hnone hok
  case h_3 | h_4 | h_5 | h_6 => exact returns_handleReadAck hthrifty hzero hnone hok
  case h_7 => exact returns_handleNASAck hthrifty hzero hnone hok
  case h_8 | h_9 => exact returns_handleOwnershipAck hthrifty hzero hnone hok
  case h_10 => next htype => exact returns_handleNASReply hthrifty hzero hnone (hstore htype) hok
  case h_11 | h_12 | h_13 => exact returns_handleMemoryReply hthrifty hzero hnone hok
  case h_14 => exact returns_handleFwdNAck hthrifty hzero hnone hok
  case h_15 => exact returns_handleEvictAck hthrifty hzero hnone hok
  case h_16 => cases hok

/-! ## The bank's own evictions, and finalizing -/

theorem Thrifty.held_nonneg (hthrifty : s.Thrifty) : 0 ≤ s.held := by
  refine add_nonneg ?_ (List.sum_nonneg ?_)
  · rw [MissAddressFile.reserved_eq_sum le_rfl]
    exact Finset.sum_nonneg fun i _ => hthrifty.nonneg i
  · intro n hn
    obtain ⟨d, hd, rfl⟩ := List.mem_map.mp hn
    exact (hthrifty.dir _ d (Keyed.lookup_of_mem s.theDirEvictBuffer.unique hd)).1

/-- The oldest block that has not been called back yet is given a reservation, with the
    invalidates for its sharers. -/
theorem getIdleWorkTransport_held (hthrifty : s.Thrifty) :
    s.getIdleWorkTransport.1.Thrifty ∧ s.getIdleWorkTransport.1.held =
      s.held + if s.getIdleWorkTransport.2.msg.type = .BackInvalidate then 1 else 0 := by
  unfold getIdleWorkTransport
  split
  · exact ⟨hthrifty, by simp⟩
  · next d holdest =>
    have hd : s.theDirEvictBuffer.find d.address = some d :=
      Keyed.lookup_of_mem s.theDirEvictBuffer.unique (List.mem_of_find?_eq_some holdest)
    have hpending : d.invalidatesPending = 0 := by
      simpa [DirEBEntry.invalidatesRequired] using List.find?_some holdest
    obtain ⟨hzero, hshared⟩ := (hthrifty.dir _ d hd).2 hpending
    have hmarked : (s.theDirEvictBuffer.setInvalidatesPending d.address d.state.countSharers).find d.address =
        some { d with invalidatesPending := d.state.countSharers } := by
      rw [DirEvictBuffer.find_setInvalidatesPending, if_pos rfl, hd]
      rfl
    have hsharers : (d.state.countSharers : Int) ≠ 0 := by
      simpa [SimpleDirectoryState.noSharers] using hshared
    refine ⟨⟨hthrifty.nonneg, hthrifty.active, ?_⟩, ?_⟩
    · intro x d' hd'
      rw [DirEvictBuffer.find_setCacheEBReserved] at hd'
      split at hd'
      · rw [hmarked] at hd'
        cases hd'
        exact ⟨zero_le_one, fun h => absurd h hsharers⟩
      · next hx =>
        rw [DirEvictBuffer.find_setInvalidatesPending, if_neg hx] at hd'
        exact hthrifty.dir x d' hd'
    · have hsum := DirEvictBuffer.reserved_setCacheEBReserved (n := 1) hmarked
      rw [DirEvictBuffer.reserved_setInvalidatesPending] at hsum
      dsimp only [held] at hsum ⊢
      rw [if_pos rfl, hsum]
      omega

/-- Taking an entry out that holds nothing. -/
theorem thrifty_remove (hthrifty : s.Thrifty) (hempty : s.theMAF.reservedBy i = 0) :
    ({ s with theMAF := s.theMAF.remove i } : Policy cfg).Thrifty ∧
      ({ s with theMAF := s.theMAF.remove i } : Policy cfg).held = s.held := by
  have hby : ∀ j, (s.theMAF.remove i).reservedBy j = s.theMAF.reservedBy j := by
    intro j
    rw [MissAddressFile.reservedBy_remove]
    split
    · next hj => rw [hj, hempty]
    · rfl
  refine ⟨⟨fun j => (hby j).symm ▸ hthrifty.nonneg j, fun {j u} hu hne => ?_, hthrifty.dir⟩, ?_⟩
  · rw [show (s.theMAF.remove i).reservedBy j = _ from hby j] at hne
    dsimp only at hu
    rw [MissAddressFile.ticket_remove] at hu
    split at hu
    · cases hu
    · exact hthrifty.active hu hne
  · rw [held, held]
    exact congrArg (· + _) (MissAddressFile.reserved_of_same hby)

end Policy

end nCMPCache
