import Flexus.CmpCache.MissAddressFile

/-!
# The miss address file as a finite map

An iterator of the program is a stamp here, and what an invariant needs to know of the entry it
points to is its ticket: block, state, message and requester.
-/

namespace nCMPCache

/-- What an entry of the miss address file is about. -/
@[ext]
structure Ticket where
  address : MemoryAddress
  state : MAFState
  msg : MemoryMessage
  requester : Int

namespace Ticket

def type (t : Ticket) : MemoryMessageType := t.msg.type

/-- The ticket belongs to the given block and is in the given state. -/
def At (t : Ticket) (a : MemoryAddress) (st : MAFState) : Prop := t.address = a ∧ t.state = st

instance (t : Ticket) (a : MemoryAddress) (st : MAFState) : Decidable (t.At a st) :=
  inferInstanceAs (Decidable (_ ∧ _))

/-- The ticket of a request that is recorded in the given state. -/
def of (a : MemoryAddress) (st : MAFState) (t : MemoryTransport) : Ticket :=
  ⟨a, st, t.msg, t.dest.requester⟩

end Ticket

def MAFEntry.ticket (e : MAFEntry) : Ticket := .of e.address e.state e.transport

namespace MissAddressFile

/-- The ticket at a stamp. -/
def ticket (m : MissAddressFile) (i : Nat) : Option Ticket := (m.get? i).map MAFEntry.ticket

variable {m m' : MissAddressFile} {e x : MAFEntry} {a : MemoryAddress} {st : MAFState} {i j : Nat}
  {t : MemoryTransport} {u : Ticket} {is : List Nat}

theorem ticket_eq_some : m.ticket i = some u ↔ ∃ e ∈ m.entries, e.stamp = i ∧ e.ticket = u := by
  simp only [ticket, Option.map_eq_some_iff, get?_eq_some, and_assoc]

theorem ticket_of_mem (he : e ∈ m.entries) : m.ticket e.stamp = some e.ticket :=
  ticket_eq_some.mpr ⟨e, he, rfl, rfl⟩

/-- Stamps in use are below the next one. -/
theorem lt_nextStamp_of_ticket (h : m.ticket i = some u) : i < m.nextStamp := by
  obtain ⟨e, he, rfl, _⟩ := ticket_eq_some.mp h
  exact m.stamp_lt e he

theorem ticket_nextStamp : m.ticket m.nextStamp = none := by
  cases h : m.ticket m.nextStamp with
  | none => rfl
  | some u => exact absurd (lt_nextStamp_of_ticket h) (lt_irrefl _)

/-! ## Lookups -/

theorem ticket_of_findFirst (h : m.findFirst a st = some e) :
    m.ticket e.stamp = some e.ticket ∧ e.ticket.At a st :=
  ⟨ticket_of_mem (mem_of_findFirst h).1, (mem_of_findFirst h).2⟩

theorem not_at_of_findFirst (h : m.findFirst a st = none) (hi : m.ticket i = some u) :
    ¬ u.At a st := by
  obtain ⟨e, he, _, rfl⟩ := ticket_eq_some.mp hi
  exact findFirst_eq_none.mp h e he

theorem ticket_of_mem_findAll (h : e ∈ m.findAll a st) :
    m.ticket e.stamp = some e.ticket ∧ e.ticket.At a st :=
  ⟨ticket_of_mem (mem_findAll.mp h).1, (mem_findAll.mp h).2⟩

theorem address_ne_of_find (h : m.find a = none) (hi : m.ticket i = some u) : u.address ≠ a := by
  obtain ⟨e, he, _, rfl⟩ := ticket_eq_some.mp hi
  exact find_eq_none.mp h e he

/-- The entry `find` returns is in the lowest state of the block's entries. -/
theorem ticket_of_find (h : m.find a = some e) :
    m.ticket e.stamp = some e.ticket ∧ e.address = a ∧
      ∀ {i u}, m.ticket i = some u → u.address = a → e.state.toNat ≤ u.state.toNat := by
  obtain ⟨hmem, haddr, hlow⟩ := find_lowest h
  refine ⟨ticket_of_mem hmem, haddr, ?_⟩
  intro i u hi hu
  obtain ⟨x, hx, _, rfl⟩ := ticket_eq_some.mp hi
  exact hlow x hx hu

/-! ## Changes -/

theorem get?_modify {f : MAFEntry → MAFEntry} (hf : ∀ e, (f e).stamp = e.stamp) :
    (m.modify i f hf).get? j = if j = i then (m.get? i).map f else m.get? j := by
  refine Option.ext fun y => ?_
  rw [get?_eq_some, mem_modify]
  by_cases hji : j = i
  · subst hji
    rw [if_pos rfl, Option.map_eq_some_iff]
    constructor
    · rintro ⟨⟨z, hz, rfl⟩, hstamp⟩
      by_cases hzj : z.stamp = j
      · exact ⟨z, get?_eq_some.mpr ⟨hz, hzj⟩, (if_pos hzj).symm⟩
      · rw [if_neg hzj] at hstamp
        exact absurd hstamp hzj
    · rintro ⟨z, hz, rfl⟩
      obtain ⟨hmem, hstamp⟩ := get?_eq_some.mp hz
      exact ⟨⟨z, hmem, (if_pos hstamp).symm⟩, (hf z).trans hstamp⟩
  · rw [if_neg hji, get?_eq_some]
    constructor
    · rintro ⟨⟨z, hz, rfl⟩, hstamp⟩
      by_cases hzi : z.stamp = i
      · rw [if_pos hzi, hf, hzi] at hstamp
        exact absurd hstamp.symm hji
      · rw [if_neg hzi] at hstamp ⊢
        exact ⟨hz, hstamp⟩
    · rintro ⟨hy, hstamp⟩
      refine ⟨⟨y, hy, ?_⟩, hstamp⟩
      rw [if_neg (hstamp ▸ hji)]

theorem ticket_setState :
    (m.setState i st t).ticket j =
      if j = i then (m.ticket i).map fun u => .of u.address st t else m.ticket j := by
  have hget : (m.setState i st t).get? j = _ := get?_modify (f := fun e => { e with state := st, transport := t })
    fun _ => rfl
  unfold ticket
  rw [hget]
  split
  · rw [Option.map_map, Option.map_map]
    rfl
  · rfl

@[simp]
theorem ticket_setCacheEBReserved {n : Int} : (m.setCacheEBReserved i n).ticket j = m.ticket j := by
  have hget : (m.setCacheEBReserved i n).get? j = _ :=
    get?_modify (f := fun e => { e with cacheEBReserved := n }) fun _ => rfl
  unfold ticket
  rw [hget]
  split
  · next hji =>
    rw [Option.map_map, hji]
    rfl
  · rfl

theorem ticket_setTransport :
    (m.setTransport i t).ticket j =
      if j = i then (m.ticket i).map fun u => .of u.address u.state t else m.ticket j := by
  have hget : (m.setTransport i t).get? j = _ :=
    get?_modify (f := fun e => { e with transport := t }) fun _ => rfl
  unfold ticket
  rw [hget]
  split
  · rw [Option.map_map, Option.map_map]
    rfl
  · rfl

theorem ticket_insert :
    (m.insert t a st).ticket j = if j = m.nextStamp then some (.of a st t) else m.ticket j := by
  refine Option.ext fun u => ?_
  rw [ticket_eq_some]
  simp only [mem_insert]
  constructor
  · rintro ⟨e, rfl | he, rfl, rfl⟩
    · rw [if_pos rfl]
      rfl
    · rw [if_neg (m.stamp_lt e he).ne]
      exact ticket_of_mem he
  · intro hu
    by_cases hj : j = m.nextStamp
    · rw [if_pos hj] at hu
      refine ⟨_, .inl rfl, hj.symm, ?_⟩
      exact Option.some.inj hu
    · rw [if_neg hj] at hu
      obtain ⟨e, he, hstamp, hticket⟩ := ticket_eq_some.mp hu
      exact ⟨e, .inr he, hstamp, hticket⟩

theorem ticket_remove : (m.remove i).ticket j = if j = i then none else m.ticket j := by
  refine Option.ext fun u => ?_
  rw [ticket_eq_some]
  simp only [mem_remove]
  constructor
  · rintro ⟨e, ⟨he, hne⟩, rfl, rfl⟩
    rw [if_neg hne]
    exact ticket_of_mem he
  · intro hu
    by_cases hj : j = i
    · rw [if_pos hj] at hu
      cases hu
    · rw [if_neg hj] at hu
      obtain ⟨e, he, rfl, hticket⟩ := ticket_eq_some.mp hu
      exact ⟨e, ⟨he, hj⟩, rfl, hticket⟩

/-- The tickets after some entries were woken. -/
theorem ticket_of_woken {W : MAFEntry → Prop} [DecidablePred W]
    (hmem : ∀ x, x ∈ m'.entries ↔
      ∃ y ∈ m.entries, x = if W y then { y with state := .eWaking } else y) :
    m'.ticket j = (m.get? j).map fun e =>
      if W e then { e.ticket with state := .eWaking } else e.ticket := by
  refine Option.ext fun u => ?_
  rw [ticket_eq_some, Option.map_eq_some_iff]
  simp only [hmem, get?_eq_some]
  constructor
  · rintro ⟨_, ⟨y, hy, rfl⟩, hstamp, rfl⟩
    by_cases hW : W y
    · rw [if_pos hW] at hstamp ⊢
      exact ⟨y, ⟨hy, hstamp⟩, if_pos hW⟩
    · rw [if_neg hW] at hstamp ⊢
      exact ⟨y, ⟨hy, hstamp⟩, if_neg hW⟩
  · rintro ⟨y, ⟨hy, hstamp⟩, rfl⟩
    refine ⟨_, ⟨y, hy, rfl⟩, ?_⟩
    by_cases hW : W y
    · rw [if_pos hW, if_pos hW]
      exact ⟨hstamp, rfl⟩
    · rw [if_neg hW, if_neg hW]
      exact ⟨hstamp, rfl⟩

/-- Waking a list of stamps wakes the tickets at these stamps. -/
theorem ticket_wakeAll :
    (m.wakeAll is).ticket j =
      (m.ticket j).map fun u => if j ∈ is then { u with state := .eWaking } else u := by
  rw [ticket_of_woken (W := fun e => e.stamp ∈ is) fun _ => mem_wakeAll]
  cases hget : m.get? j with
  | none => simp [ticket, hget]
  | some e =>
    obtain ⟨_, rfl⟩ := get?_eq_some.mp hget
    simp only [ticket, hget, Option.map_some]

@[simp]
theorem nextStamp_wakeAll : (m.wakeAll is).nextStamp = m.nextStamp := by
  induction is generalizing m with
  | nil => rfl
  | cons i is ih => exact ih (m := m.wake i)

@[simp]
theorem nextStamp_wakeAfterEvict : (m.wakeAfterEvict e).nextStamp = m.nextStamp :=
  nextStamp_wakeAll

/-- Waking after an eviction wakes one ticket, and those of its block that wait behind
    another request. -/
theorem ticket_wakeAfterEvict :
    (m.wakeAfterEvict e).ticket j = (m.ticket j).map fun u =>
      if j = e.stamp ∨ u.At e.address .eWaitRequest then { u with state := .eWaking } else u := by
  rw [ticket_of_woken (W := fun y => y.stamp = e.stamp ∨ y.At e.address .eWaitRequest)
    fun _ => mem_wakeAfterEvict]
  cases hget : m.get? j with
  | none => simp [ticket, hget]
  | some y =>
    obtain ⟨_, rfl⟩ := get?_eq_some.mp hget
    simp only [ticket, hget, Option.map_some]
    rfl

/-- An entry that goes into the pipeline was waking. -/
theorem ticket_getWakingMAF (h : m.getWakingMAF = .ok (m', e)) :
    m'.nextStamp = m.nextStamp ∧
      m.ticket e.stamp = some (.of e.address .eWaking e.transport) ∧
      ∀ j, m'.ticket j =
        if j = e.stamp then some (.of e.address .eInPipeline e.transport) else m.ticket j := by
  unfold getWakingMAF at h
  split at h
  · next w hw =>
    cases h
    obtain ⟨hmem, hstate⟩ := peekWakingMAF_spec hw
    have hticket : m.ticket w.stamp = some (.of w.address .eWaking w.transport) := by
      rw [ticket_of_mem hmem, MAFEntry.ticket, hstate]
    refine ⟨rfl, hticket, fun j => ?_⟩
    have hget := get?_modify (m := m) (i := w.stamp) (j := j)
      (f := fun e => { e with state := .eInPipeline }) fun _ => rfl
    have hw' : m.get? w.stamp = some w := get?_eq_some.mpr ⟨hmem, rfl⟩
    unfold ticket
    rw [hget, hw']
    split <;> rfl
  · cases h

end MissAddressFile

end nCMPCache
