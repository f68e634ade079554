import Flexus.CmpCache.Array
import Flexus.Lib.Keyed

/-!
# The cache evict buffer

Blocks that left the array. An entry is pending once its write-back was handed
out; it stays in the buffer until memory acknowledges it.
-/

namespace nCMPCache

structure EvictEntry where
  address : MemoryAddress
  type : MemoryMessageType
  state : CacheState
  evictable : Bool := true
  pending : Bool := false
  deriving DecidableEq, Repr

/-- An entry that may still be written back. -/
def EvictEntry.ready (e : EvictEntry) : Bool := e.evictable && !e.pending

/-- The buffer, oldest entry first; addresses are unique. -/
structure CacheEvictBuffer where
  entries : List EvictEntry
  theSize : Nat
  theCurSize : Int
  thePendingEvicts : Int
  unique : (entries.map EvictEntry.address).Nodup

namespace CacheEvictBuffer

def create (aSize : Nat) : CacheEvictBuffer where
  entries := []
  theSize := aSize
  theCurSize := 0
  thePendingEvicts := 0
  unique := List.nodup_nil

def find (b : CacheEvictBuffer) (a : MemoryAddress) : Option EvictEntry :=
  Keyed.lookup EvictEntry.address b.entries a

def empty (b : CacheEvictBuffer) : Bool := b.theCurSize == 0

/-- With so many places reserved, no further one can be. -/
def full (b : CacheEvictBuffer) (reserve : Int) : Bool := b.theSize ≤ b.theCurSize + reserve

def freeSlotsPending (b : CacheEvictBuffer) (reserve : Int) : Bool :=
  0 < b.thePendingEvicts || b.theCurSize + reserve < b.theSize

/-- Change an entry in place. -/
def modify (b : CacheEvictBuffer) (a : MemoryAddress) (f : EvictEntry → EvictEntry)
    (hf : ∀ e, (f e).address = e.address) : CacheEvictBuffer :=
  { b with
    entries := Keyed.alter EvictEntry.address a f b.entries
    unique := (Keyed.map_alter hf).symm ▸ b.unique }

/-- An entry that is there already is given the new type and state and keeps
    everything else, its pending flag included. -/
def allocEntry (b : CacheEvictBuffer) (a : MemoryAddress) (type : MemoryMessageType)
    (state : CacheState) (evictable : Bool := true) : CacheEvictBuffer :=
  if h : a ∈ b.entries.map EvictEntry.address then
    b.modify a (fun e => { e with type := type, state := state }) fun _ => rfl
  else
    { b with
      entries := b.entries ++ [{ address := a, type := type, state := state, evictable := evictable }]
      theCurSize := b.theCurSize + 1
      unique := Keyed.nodup_append_singleton b.unique h }

/-- Whether some entry may still be written back. -/
def evictableReady (b : CacheEvictBuffer) : Bool := b.entries.any EvictEntry.ready

theorem pending_address (e : EvictEntry) : { e with pending := true }.address = e.address := rfl

/-- The oldest entry that may still be written back becomes pending. -/
def firstNonPending (b : CacheEvictBuffer) : Except Fault (CacheEvictBuffer × EvictEntry) :=
  match b.entries.find? EvictEntry.ready with
  | some e =>
    .ok ({ b.modify e.address (fun e => { e with pending := true }) pending_address with
      thePendingEvicts := b.thePendingEvicts + 1 }, e)
  | none => .error .nothingToEvict

def remove (b : CacheEvictBuffer) (a : MemoryAddress) : CacheEvictBuffer :=
  match b.find a with
  | some e =>
    { b with
      entries := Keyed.erase EvictEntry.address a b.entries
      theCurSize := b.theCurSize - 1
      thePendingEvicts := if e.pending then b.thePendingEvicts - 1 else b.thePendingEvicts
      unique := Keyed.nodup_erase b.unique }
  | none => b

section Lookups

variable {b b' : CacheEvictBuffer} {a x : MemoryAddress} {e : EvictEntry}

theorem find_modify {f : EvictEntry → EvictEntry} (hf : ∀ e, (f e).address = e.address) :
    (b.modify a f hf).find x = if x = a then (b.find a).map f else b.find x :=
  Keyed.lookup_alter hf

theorem find_allocEntry {type : MemoryMessageType} {state : CacheState} :
    (b.allocEntry a type state).find x =
      if x = a then
        some (((b.find a).map fun e => { e with type := type, state := state }).getD
          { address := a, type := type, state := state })
      else b.find x := by
  unfold allocEntry
  split
  · next hmem =>
    rw [find_modify _]
    cases hfind : b.find a with
    | none => exact absurd hmem (Keyed.lookup_eq_none.mp hfind)
    | some e => rfl
  · next hfresh =>
    have hnone : b.find a = none := Keyed.lookup_eq_none.mpr hfresh
    refine Keyed.lookup_append_singleton.trans ?_
    by_cases hxa : x = a
    · subst hxa
      have hl : Keyed.lookup EvictEntry.address b.entries x = none := hnone
      simp [hl, hnone]
    · simp only [hxa, if_false, Ne.symm hxa, Option.or_none]
      rfl

theorem find_remove : (b.remove a).find x = if x = a then none else b.find x := by
  unfold remove
  split
  · exact Keyed.lookup_erase
  · next hnone =>
    by_cases hxa : x = a
    · rw [hxa, hnone, if_pos rfl]
    · rw [if_neg hxa]

/-- `firstNonPending` returns an entry that was not pending, and marks it. -/
theorem find_firstNonPending (h : b.firstNonPending = .ok (b', e)) :
    b.find e.address = some e ∧ e.pending = false ∧
      ∀ x, b'.find x = if x = e.address then some { e with pending := true } else b.find x := by
  unfold firstNonPending at h
  split at h
  · next y hy =>
    simp only [Except.ok.injEq, Prod.mk.injEq] at h
    obtain ⟨rfl, rfl⟩ := h
    have hmem := List.mem_of_find?_eq_some hy
    have hready := List.find?_some hy
    simp only [EvictEntry.ready, Bool.and_eq_true, Bool.not_eq_true'] at hready
    have hfind : b.find y.address = some y := Keyed.lookup_of_mem b.unique hmem
    refine ⟨hfind, hready.2, fun x => ?_⟩
    have hmarked := find_modify (b := b) (a := y.address) (x := x)
      (f := fun e => { e with pending := true }) fun _ => rfl
    rw [hfind] at hmarked
    exact hmarked
  · cases h

end Lookups

end CacheEvictBuffer

end nCMPCache
