import Mathlib.Tactic

/-!
# The instruction cache of the fetch unit

A set-associative array of block numbers. Each set is a sequence from the least to the most
recently used block.
-/

namespace nuFetch

/-- The parameters of the fetch unit. A line has a power of two of bytes. -/
structure FetchConfig where
  MaxFetchLines : Nat
  MaxFetchInstructions : Nat
  theIndexShift : Nat
  PerfectICache : Bool
  PrefetchEnabled : Bool
  CleanEvict : Bool
  Size : Nat
  Associativity : Nat
  MissQueueSize : Nat
  Threads : Nat
  SendAcks : Bool
  UseReplyChannel : Bool
  EvictOnSnoop : Bool
  associativity_pos : 0 < Associativity

namespace FetchConfig

variable (c : FetchConfig)

def theSets : Nat := c.Size / 2 ^ c.theIndexShift / c.Associativity

def makeIndex (key : Nat) : Nat := key &&& (c.theSets - 1)

/-- The number of the block that an address is in. -/
def keyOf (addr : Nat) : Nat := addr >>> c.theIndexShift

/-- The address of a block. -/
def addrOf (key : Nat) : Nat := key <<< c.theIndexShift

/-- Mask the offset within the block. -/
def blockAddr (addr : Nat) : Nat := c.addrOf (c.keyOf addr)

variable {c}

@[simp]
theorem keyOf_addrOf (key : Nat) : c.keyOf (c.addrOf key) = key := Nat.shiftLeft_shiftRight key _

theorem addrOf_injective {key key' : Nat} (h : c.addrOf key = c.addrOf key') : key = key' := by
  rw [← keyOf_addrOf (c := c) key, h, keyOf_addrOf]

@[simp]
theorem keyOf_blockAddr (addr : Nat) : c.keyOf (c.blockAddr addr) = c.keyOf addr := keyOf_addrOf _

end FetchConfig

/-- No block is in a set twice, or in a set that is not its own. -/
structure SimCache (c : FetchConfig) where
  theCache : Nat → List Nat
  nodup : ∀ i, (theCache i).Nodup
  placed : ∀ i, ∀ key ∈ theCache i, c.makeIndex key = i

namespace SimCache

variable {c : FetchConfig}

def empty : SimCache c where
  theCache := fun _ => []
  nodup := fun _ => List.nodup_nil
  placed := fun _ _ h => absurd h List.not_mem_nil

/-- The set that a block belongs to. -/
def setOf (t : SimCache c) (key : Nat) : List Nat := t.theCache (c.makeIndex key)

/-- Whether a block is in the cache. -/
def has (t : SimCache c) (key : Nat) : Bool := decide (key ∈ t.setOf key)

/-- Change the set of a block. -/
def setSet (t : SimCache c) (key : Nat) (l : List Nat) (hnodup : l.Nodup)
    (hplaced : ∀ k ∈ l, c.makeIndex k = c.makeIndex key) : SimCache c where
  theCache := Function.update t.theCache (c.makeIndex key) l
  nodup := by
    intro i
    by_cases h : i = c.makeIndex key
    · rw [h, Function.update_self]
      exact hnodup
    · rw [Function.update_of_ne h]
      exact t.nodup i
  placed := by
    intro i k hk
    by_cases h : i = c.makeIndex key
    · rw [h, Function.update_self] at hk
      rw [h]
      exact hplaced k hk
    · rw [Function.update_of_ne h] at hk
      exact t.placed i k hk

theorem nodup_setOf (t : SimCache c) (key : Nat) : (t.setOf key).Nodup := t.nodup _

theorem makeIndex_of_mem {t : SimCache c} {key k : Nat} (h : k ∈ t.setOf key) :
    c.makeIndex k = c.makeIndex key := t.placed _ k h

theorem nodup_moved (l : List Nat) (key : Nat) (h : l.Nodup) : (l.erase key ++ [key]).Nodup := by
  rw [List.nodup_append]
  refine ⟨h.erase _, List.nodup_singleton _, fun a ha b hb => ?_⟩
  rw [List.mem_singleton.mp hb]
  rintro rfl
  exact h.not_mem_erase ha

/-- The block becomes the most recently used one of its set. -/
def moveBack (t : SimCache c) (key : Nat) : SimCache c :=
  t.setSet key ((t.setOf key).erase key ++ [key]) (nodup_moved _ _ (t.nodup_setOf key)) <| by
    intro k hk
    rcases List.mem_append.mp hk with hmem | hself
    · exact makeIndex_of_mem (List.mem_of_mem_erase hmem)
    · rw [List.mem_singleton.mp hself]

def lookup (t : SimCache c) (addr : Nat) : Bool × SimCache c :=
  if t.has (c.keyOf addr) then (true, t.moveBack (c.keyOf addr)) else (false, t)

def inval (t : SimCache c) (addr : Nat) : Bool × SimCache c :=
  if t.has (c.keyOf addr) then
    (true, t.setSet (c.keyOf addr) ((t.setOf (c.keyOf addr)).erase (c.keyOf addr))
      ((t.nodup_setOf _).erase _) fun _ hk => makeIndex_of_mem (List.mem_of_mem_erase hk))
  else (false, t)

/-- The block that leaves a full set for another one. -/
def victim (t : SimCache c) (key : Nat) : Option Nat :=
  if c.Associativity ≤ (t.setOf key).length then (t.setOf key).head? else none

/-- The blocks of a set that stay when another one comes. -/
def kept (t : SimCache c) (key : Nat) : List Nat :=
  if c.Associativity ≤ (t.setOf key).length then (t.setOf key).tail else t.setOf key

theorem kept_sublist (t : SimCache c) (key : Nat) : (t.kept key).Sublist (t.setOf key) := by
  unfold kept
  split
  · exact List.tail_sublist _
  · exact .refl _

theorem nodup_inserted {t : SimCache c} {key : Nat} (h : ¬ t.has key) : (t.kept key ++ [key]).Nodup := by
  rw [List.nodup_append]
  refine ⟨(t.nodup_setOf key).sublist (t.kept_sublist key), List.nodup_singleton _, fun a ha b hb => ?_⟩
  rw [List.mem_singleton.mp hb]
  rintro rfl
  exact h (decide_eq_true ((t.kept_sublist _).subset ha))

/-- The address of the block that leaves, or zero. -/
def insert (t : SimCache c) (addr : Nat) : Nat × SimCache c :=
  if h : t.has (c.keyOf addr) then (0, t.moveBack (c.keyOf addr))
  else
    (((t.victim (c.keyOf addr)).map c.addrOf).getD 0,
      t.setSet (c.keyOf addr) (t.kept (c.keyOf addr) ++ [c.keyOf addr]) (nodup_inserted h) <| by
        intro k hk
        rcases List.mem_append.mp hk with hmem | hself
        · exact makeIndex_of_mem ((t.kept_sublist _).subset hmem)
        · rw [List.mem_singleton.mp hself])

/-! ## What is in the cache -/

variable {t : SimCache c} {key k addr : Nat}

theorem setOf_setSet {l : List Nat} (hnodup : l.Nodup)
    (hplaced : ∀ k ∈ l, c.makeIndex k = c.makeIndex key) :
    (t.setSet key l hnodup hplaced).setOf k =
      if c.makeIndex k = c.makeIndex key then l else t.setOf k := Function.update_apply ..

theorem has_setSet {l : List Nat} (hnodup : l.Nodup)
    (hplaced : ∀ k ∈ l, c.makeIndex k = c.makeIndex key) :
    (t.setSet key l hnodup hplaced).has k =
      if c.makeIndex k = c.makeIndex key then decide (k ∈ l) else t.has k := by
  unfold has
  simp only [setOf_setSet]
  split <;> rfl

theorem has_eq (h : c.makeIndex k = c.makeIndex key) : t.has k = decide (k ∈ t.setOf key) := by
  unfold has
  rw [decide_eq_decide, setOf, h, setOf]

theorem has_iff : t.has k = true ↔ k ∈ t.setOf k := decide_eq_true_iff

theorem has_of_mem_setOf (h : k ∈ t.setOf key) : t.has k = true := by
  rw [has_iff, setOf, makeIndex_of_mem h]
  exact h

@[simp]
theorem has_moveBack (hkey : t.has key = true) : (t.moveBack key).has k = t.has k := by
  unfold moveBack
  rw [has_setSet]
  split
  · next h =>
    rw [has_eq h]
    by_cases heq : k = key
    · have hmem : key ∈ t.setOf key := has_iff.mp hkey
      simp [heq, hmem]
    · simp [heq, List.mem_erase_of_ne]
  · rfl

@[simp]
theorem lookup_fst : (t.lookup addr).1 = t.has (c.keyOf addr) := by
  unfold lookup
  split
  · next h => exact h.symm
  · next h => exact (Bool.eq_false_iff.mpr h).symm

/-- A lookup changes the order of a set only. -/
@[simp]
theorem has_lookup : (t.lookup addr).2.has k = t.has k := by
  unfold lookup
  split
  · next h => exact has_moveBack h
  · rfl

theorem has_inval : (t.inval addr).2.has k = (t.has k && !decide (k = c.keyOf addr)) := by
  unfold inval
  split
  · next hin =>
    rw [has_setSet]
    split
    · next h =>
      rw [has_eq h]
      by_cases heq : k = c.keyOf addr
      · have hgone : c.keyOf addr ∉ (t.setOf (c.keyOf addr)).erase (c.keyOf addr) :=
          (t.nodup_setOf _).not_mem_erase
        simp [heq, hgone]
      · simp [heq, List.mem_erase_of_ne]
    · next h =>
      have hne : k ≠ c.keyOf addr := fun heq => h (by rw [heq])
      simp [hne]
  · next hout =>
    by_cases heq : k = c.keyOf addr
    · rw [heq, Bool.eq_false_iff.mpr hout]
      rfl
    · simp [heq]

theorem has_of_victim (h : t.victim key = some k) : t.has k = true := by
  unfold victim at h
  split at h
  · exact has_of_mem_setOf (List.mem_of_head? h)
  · cases h

theorem mem_kept : k ∈ t.kept key ↔ k ∈ t.setOf key ∧ t.victim key ≠ some k := by
  have hnodup := t.nodup_setOf key
  unfold kept victim
  split
  · cases hset : t.setOf key with
    | nil => simp
    | cons first rest =>
      rw [hset] at hnodup
      have hfirst := (List.nodup_cons.mp hnodup).1
      simp only [List.tail_cons, List.mem_cons, List.head?_cons, ne_eq, Option.some.injEq]
      constructor
      · intro hmem
        exact ⟨.inr hmem, fun heq => hfirst (heq ▸ hmem)⟩
      · rintro ⟨rfl | hmem, hne⟩
        · exact absurd rfl hne
        · exact hmem
  · simp

/-- An inserted block is in the cache, and its victim no longer is. -/
theorem has_insert (hout : t.has (c.keyOf addr) = false) :
    (t.insert addr).2.has k = true ↔
      k = c.keyOf addr ∨ t.has k = true ∧ t.victim (c.keyOf addr) ≠ some k := by
  unfold insert
  rw [dif_neg (by rw [hout]; exact Bool.false_ne_true), has_setSet]
  split
  · next h =>
    rw [has_eq h, decide_eq_true_iff, decide_eq_true_iff, List.mem_append, List.mem_singleton, mem_kept,
      or_comm]
  · next h =>
    have hne : k ≠ c.keyOf addr := fun heq => h (by rw [heq])
    have hvictim : t.victim (c.keyOf addr) ≠ some k := by
      intro heq
      unfold victim at heq
      split at heq
      · exact h (makeIndex_of_mem (List.mem_of_head? heq))
      · cases heq
    simp [hne, hvictim]

theorem insert_fst (hout : t.has (c.keyOf addr) = false) :
    (t.insert addr).1 = ((t.victim (c.keyOf addr)).map c.addrOf).getD 0 := by
  unfold insert
  rw [dif_neg (by rw [hout]; exact Bool.false_ne_true)]

theorem victim_lookup (hout : t.has (c.keyOf addr) = false) : (t.lookup addr).2 = t := by
  unfold lookup
  rw [if_neg (by rw [hout]; exact Bool.false_ne_true)]

end SimCache

end nuFetch
