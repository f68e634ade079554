import Mathlib.Tactic
import Flexus.Lib.Keyed

/-!
# Set-associative maps with an order of use

A map holds its entries in a sequence and finds them by their unique keys. A set-associative map
is a table of such maps. All its accesses go through the set that was accessed last.
-/

/-! ## Maps with an order -/

/-- The entries in the order of their sequence. -/
structure flexus_boost_seq_map (T_val : Type) where
  theMap : List (Nat × T_val)
  unique : (theMap.map Prod.fst).Nodup

namespace flexus_boost_seq_map

variable {T_val : Type} (m : flexus_boost_seq_map T_val)

def empty : flexus_boost_seq_map T_val := ⟨[], List.nodup_nil⟩

def keys : List Nat := m.theMap.map Prod.fst

/-- The keys in the order of the index. -/
def indexed : List Nat := m.keys.mergeSort

def size : Nat := m.theMap.length

/-- The least recent key of a map that is not empty. -/
def front_key : Option Nat := m.keys.head?

/-- The key of the entry that is found, if there is one. -/
def find (key : Nat) : Option Nat := if key ∈ m.keys then some key else none

/-- An entry whose key is not there yet comes to the back. -/
def insert (apair : Nat × T_val) : Bool × flexus_boost_seq_map T_val :=
  if h : apair.1 ∈ m.keys then (false, m)
  else (true, ⟨m.theMap ++ [apair], Keyed.nodup_append_singleton m.unique h⟩)

def erase (key : Nat) : flexus_boost_seq_map T_val :=
  ⟨Keyed.erase Prod.fst key m.theMap, Keyed.nodup_erase m.unique⟩

def pop_front : flexus_boost_seq_map T_val :=
  ⟨m.theMap.tail, m.unique.sublist ((List.tail_sublist _).map _)⟩

/-- The entry of a key comes to the back. -/
def move_back (key : Nat) : flexus_boost_seq_map T_val where
  theMap := Keyed.erase Prod.fst key m.theMap ++ m.theMap.filter fun e => e.1 == key
  unique := by
    have hparts : (Keyed.erase Prod.fst key m.theMap ++ m.theMap.filter fun e => e.1 == key).Perm m.theMap := by
      have hsplit := List.filter_append_perm (fun e : Nat × T_val => e.1 != key) m.theMap
      simpa only [Keyed.erase, bne, Bool.not_not] using hsplit
    exact (hparts.map _).nodup_iff.mpr m.unique

variable {m} {key : Nat}

theorem nodup_keys : m.keys.Nodup := m.unique

theorem length_keys : m.keys.length = m.size := List.length_map _

theorem keys_insert {v : T_val} (h : key ∉ m.keys) : (m.insert (key, v)).2.keys = m.keys ++ [key] := by
  rw [insert, dif_neg h, keys, List.map_append]
  rfl

theorem insert_of_mem {v : T_val} (h : key ∈ m.keys) : m.insert (key, v) = (false, m) := dif_pos h

theorem keys_erase : (m.erase key).keys = m.keys.erase key := by
  rw [nodup_keys.erase_eq_filter, keys, keys, List.filter_map]
  rfl

theorem keys_pop_front : m.pop_front.keys = m.keys.tail := by
  rw [keys, keys, pop_front, List.map_tail]

theorem keys_move_back (h : key ∈ m.keys) : (m.move_back key).keys = m.keys.erase key ++ [key] := by
  have hself : (m.theMap.filter fun e => e.1 == key).map Prod.fst = [key] := by
    have hfilter : (m.keys.filter fun k => k == key) = [key] := by
      rw [List.filter_beq, List.count_eq_one_of_mem nodup_keys h]
      rfl
    rw [keys, List.filter_map] at hfilter
    exact hfilter
  have herase : (m.erase key).keys = m.keys.erase key := keys_erase
  rw [keys, erase] at herase
  rw [keys, move_back, List.map_append, herase, hself]

theorem indexed_perm : m.indexed.Perm m.keys := List.mergeSort_perm _ _

end flexus_boost_seq_map

/-! ## Tables of maps -/

structure flexus_boost_set_assoc (T_val : Type) where
  theTable : Nat → flexus_boost_seq_map T_val
  theCurrIndex : Nat
  theIndexMask : Nat
  theSets : Nat
  theAssoc : Nat

namespace flexus_boost_set_assoc

/-- An iterator of the map of a set, at the entry of a key or at the end. -/
structure Iter where
  set : Nat
  entry : Option Nat
  deriving DecidableEq, Repr

variable {T_val : Type}

/-- An empty table. -/
def init (size assoc : Nat) : flexus_boost_set_assoc T_val where
  theTable := fun _ => .empty
  theCurrIndex := 0
  theIndexMask := size / assoc - 1
  theSets := size / assoc
  theAssoc := assoc

variable (t : flexus_boost_set_assoc T_val)

def makeIndex (key : Nat) : Nat := key &&& t.theIndexMask

def current : flexus_boost_seq_map T_val := t.theTable t.theCurrIndex

def setCurrent (m : flexus_boost_seq_map T_val) : flexus_boost_set_assoc T_val :=
  { t with theTable := Function.update t.theTable t.theCurrIndex m }

def «end» : Iter := ⟨t.theCurrIndex, none⟩

def size : Nat := t.current.size

def front_key : Option Nat := t.current.front_key

def insert (apair : Nat × T_val) : Bool × flexus_boost_set_assoc T_val :=
  let t := { t with theCurrIndex := t.makeIndex apair.1 }
  ((t.current.insert apair).1, t.setCurrent (t.current.insert apair).2)

def find (key : Nat) : Iter × flexus_boost_set_assoc T_val :=
  let t := { t with theCurrIndex := t.makeIndex key }
  (⟨t.theCurrIndex, t.current.find key⟩, t)

/-- The entry of the iterator, which the set accessed last holds, is taken out. -/
def erase (iter : Iter) : flexus_boost_set_assoc T_val :=
  match iter.entry with
  | none => t
  | some key => t.setCurrent (t.current.erase key)

def pop_front : flexus_boost_set_assoc T_val := t.setCurrent t.current.pop_front

def move_back (iter : Iter) : flexus_boost_set_assoc T_val :=
  match iter.entry with
  | none => t
  | some key => t.setCurrent (t.current.move_back key)

theorem makeIndex_le (key : Nat) : t.makeIndex key ≤ t.theIndexMask := Nat.and_le_right

/-! ## Iteration -/

variable (order : flexus_boost_seq_map T_val → List Nat)

/-- The key behind a key. -/
def after (l : List Nat) (key : Nat) : Option Nat := (l.dropWhile fun k => k != key).tail.head?

/-- An iterator at the end of a set goes on to the next set that has an entry. -/
def adv (t : flexus_boost_set_assoc T_val) (iter : Iter) : flexus_boost_set_assoc T_val × Iter :=
  if iter = t.end then
    if h : t.theCurrIndex + 1 = t.makeIndex (t.theCurrIndex + 1) then
      adv { t with theCurrIndex := t.theCurrIndex + 1 }
        ⟨t.theCurrIndex + 1, (order (t.theTable (t.theCurrIndex + 1))).head?⟩
    else (t, iter)
  else (t, iter)
termination_by t.theIndexMask - t.theCurrIndex
decreasing_by
  have hle := t.makeIndex_le (t.theCurrIndex + 1)
  omega

def first : flexus_boost_set_assoc T_val × Iter :=
  adv order { t with theCurrIndex := 0 } ⟨0, (order (t.theTable 0)).head?⟩

def next (iter : Iter) : flexus_boost_set_assoc T_val × Iter :=
  adv order t { iter with entry := iter.entry.bind (after (order (t.theTable iter.set))) }

def index_begin : flexus_boost_set_assoc T_val × Iter := t.first flexus_boost_seq_map.indexed

def index_next (iter : Iter) : flexus_boost_set_assoc T_val × Iter := t.next flexus_boost_seq_map.indexed iter

def index_end : Iter := t.end

def seq_begin : flexus_boost_set_assoc T_val × Iter := t.first flexus_boost_seq_map.keys

def seq_next (iter : Iter) : flexus_boost_set_assoc T_val × Iter := t.next flexus_boost_seq_map.keys iter

def seq_end : Iter := t.end

/-- The entries of the table, set by set. -/
def entries : List (Nat × Nat) :=
  (List.range (t.theIndexMask + 1)).flatMap fun i => (order (t.theTable i)).map (i, ·)

/-- What is left from some of the entries of the set accessed last. -/
def rest (l : List Nat) : List (Nat × Nat) :=
  l.map (t.theCurrIndex, ·) ++
    (List.range' (t.theCurrIndex + 1) (t.theIndexMask - t.theCurrIndex)).flatMap fun i =>
      (order (t.theTable i)).map (i, ·)

/-- An iterator before the entries of the set accessed last that are left, none of them only if
    no set follows. -/
structure Stands (iter : Iter) (l : List Nat) : Prop where
  suffix : l <:+ order t.current
  here : iter = ⟨t.theCurrIndex, l.head?⟩
  bounded : t.theCurrIndex ≤ t.theIndexMask
  settled : l = [] → t.theCurrIndex = t.theIndexMask

variable {t order} {iter : Iter} {l : List Nat}

theorem eq_end_iff (hhere : iter = ⟨t.theCurrIndex, l.head?⟩) : iter = t.end ↔ l = [] := by
  rw [hhere, flexus_boost_set_assoc.end, Iter.mk.injEq, List.head?_eq_none_iff]
  exact and_iff_right rfl

/-- With a power of two of sets the index of a set is its own. -/
theorem makeIndex_self {n : Nat} (hmask : t.theIndexMask + 1 = 2 ^ n) {i : Nat} :
    i = t.makeIndex i ↔ i ≤ t.theIndexMask := by
  have hpred : t.theIndexMask = 2 ^ n - 1 := by omega
  rw [makeIndex, hpred, Nat.and_two_pow_sub_one_eq_mod, eq_comm, Nat.mod_eq_iff_lt (by positivity)]
  omega

theorem rest_nil_of_lt (hlt : t.theCurrIndex < t.theIndexMask) :
    t.rest order [] = rest { t with theCurrIndex := t.theCurrIndex + 1 } order
      (order (t.theTable (t.theCurrIndex + 1))) := by
  have hsteps : t.theIndexMask - t.theCurrIndex = t.theIndexMask - (t.theCurrIndex + 1) + 1 := by omega
  rw [rest, rest, hsteps, List.range'_succ, List.flatMap_cons]
  rfl

/-- Where an iterator stands after it has gone on, nothing left out. -/
theorem adv_spec {n : Nat} (hmask : t.theIndexMask + 1 = 2 ^ n) (hsuffix : l <:+ order t.current)
    (hhere : iter = ⟨t.theCurrIndex, l.head?⟩) (hbounded : t.theCurrIndex ≤ t.theIndexMask) :
    (adv order t iter).1.theTable = t.theTable ∧ (adv order t iter).1.theIndexMask = t.theIndexMask ∧
      ∃ l', (adv order t iter).1.Stands order (adv order t iter).2 l' ∧
        (adv order t iter).1.rest order l' = t.rest order l := by
  fun_induction adv order t iter generalizing l with
  | case1 t hindex ih =>
    obtain rfl := (eq_end_iff hhere).mp rfl
    have hle := (makeIndex_self hmask).mp hindex
    rw [rest_nil_of_lt (by omega)]
    exact ih hmask (List.suffix_refl _) rfl hle
  | case2 t hindex =>
    have hlast : ¬ t.theCurrIndex + 1 ≤ t.theIndexMask := fun hle => hindex ((makeIndex_self hmask).mpr hle)
    have hsame : t.theCurrIndex = t.theIndexMask := by omega
    exact ⟨rfl, rfl, l, ⟨hsuffix, hhere, hbounded, fun _ => hsame⟩, rfl⟩
  | case3 t iter hnot =>
    exact ⟨rfl, rfl, l, ⟨hsuffix, hhere, hbounded, fun hl => absurd ((eq_end_iff hhere).mpr hl) hnot⟩, rfl⟩

theorem after_eq {all : List Nat} (hnodup : all.Nodup) {key : Nat} (hsuffix : key :: l <:+ all) :
    after all key = l.head? := by
  obtain ⟨before, rfl⟩ := hsuffix
  have hne : ∀ k ∈ before, (k != key) = true := by
    intro k hk
    have hdisjoint := (List.nodup_append.mp hnodup).2.2 k hk key List.mem_cons_self
    simpa using hdisjoint
  rw [after, List.dropWhile_append_of_pos hne, List.dropWhile_cons_of_neg (by simp)]
  rfl

/-- The next position of an iterator. -/
theorem next_spec {n : Nat} (hmask : t.theIndexMask + 1 = 2 ^ n) (hnodup : (order t.current).Nodup) {key : Nat}
    (h : t.Stands order iter (key :: l)) :
    (t.next order iter).1.theTable = t.theTable ∧ (t.next order iter).1.theIndexMask = t.theIndexMask ∧
      ∃ l', (t.next order iter).1.Stands order (t.next order iter).2 l' ∧
        (t.next order iter).1.rest order l' = t.rest order l := by
  obtain ⟨hsuffix, rfl, hbounded, -⟩ := h
  apply adv_spec hmask ((List.suffix_cons key l).trans hsuffix) _ hbounded
  simp only [List.head?_cons, Option.bind_some, Iter.mk.injEq, true_and]
  exact after_eq hnodup hsuffix

variable (t order) in
/-- An iterator after a number of steps. -/
def visited : Nat → flexus_boost_set_assoc T_val × Iter
  | 0 => t.first order
  | k + 1 => (visited k).1.next order (visited k).2

/-- An iterator has the entries before it that it has not visited. -/
theorem visited_stands {n : Nat} (hmask : t.theIndexMask + 1 = 2 ^ n) (hnodup : ∀ i, (order (t.theTable i)).Nodup)
    {k : Nat} (hk : k ≤ (t.entries order).length) :
    (t.visited order k).1.theTable = t.theTable ∧ (t.visited order k).1.theIndexMask = t.theIndexMask ∧
      ∃ l, (t.visited order k).1.Stands order (t.visited order k).2 l ∧
        (t.visited order k).1.rest order l = (t.entries order).drop k := by
  induction k with
  | zero =>
    have hall : rest { t with theCurrIndex := 0 } order (order (t.theTable 0)) = t.entries order := by
      rw [entries, List.range_eq_range', List.range'_succ, List.flatMap_cons]
      rfl
    rw [List.drop_zero, ← hall]
    exact adv_spec (t := { t with theCurrIndex := 0 }) hmask (List.suffix_refl _) rfl (Nat.zero_le _)
  | succ k ih =>
    obtain ⟨htable, hsame, l, hstands, hrest⟩ := ih (by omega)
    cases l with
    | nil =>
      have hnone : (t.entries order).drop k = [] := by
        rw [← hrest, rest, hstands.settled rfl, Nat.sub_self]
        rfl
      have hlength := congrArg List.length hnone
      rw [List.length_drop, List.length_nil] at hlength
      omega
    | cons key l =>
      have hunique : (order (t.visited order k).1.current).Nodup := by
        rw [current, htable]
        exact hnodup _
      obtain ⟨htable', hsame', l', hstands', hrest'⟩ := next_spec (hsame ▸ hmask) hunique hstands
      refine ⟨htable'.trans htable, hsame'.trans hsame, l', hstands', ?_⟩
      rw [← List.tail_drop, ← hrest]
      exact hrest'

/-- From the first position on an iterator is at one entry after the other, at each of them once,
    and then at the end. -/
theorem visited_spec {n : Nat} (hmask : t.theIndexMask + 1 = 2 ^ n) (hnodup : ∀ i, (order (t.theTable i)).Nodup)
    {k : Nat} (hk : k ≤ (t.entries order).length) :
    ((t.visited order k).2.entry.map ((t.visited order k).2.set, ·)) = (t.entries order)[k]? ∧
      ((t.visited order k).2 = (t.visited order k).1.end ↔ k = (t.entries order).length) := by
  obtain ⟨-, -, l, hstands, hrest⟩ := visited_stands hmask hnodup hk
  have hleft : ((t.entries order).drop k).head? = (t.entries order)[k]? := List.head?_drop ..
  rw [eq_end_iff hstands.here, hstands.here, ← hleft, ← hrest]
  cases l with
  | nil =>
    have hnone : (t.visited order k).1.rest order [] = [] := by
      rw [rest, hstands.settled rfl, Nat.sub_self]
      rfl
    rw [hnone] at hrest ⊢
    have hlength := congrArg List.length hrest
    rw [List.length_drop, List.length_nil] at hlength
    exact ⟨rfl, iff_of_true rfl (by omega)⟩
  | cons key l =>
    refine ⟨rfl, iff_of_false (List.cons_ne_nil _ _) ?_⟩
    rintro rfl
    rw [List.drop_length] at hrest
    cases hrest

theorem nodup_entries (hnodup : ∀ i, (order (t.theTable i)).Nodup) : (t.entries order).Nodup := by
  rw [entries, List.nodup_flatMap]
  refine ⟨fun i _ => (hnodup i).map (Prod.mk_right_injective i), ?_⟩
  apply (List.nodup_range (n := t.theIndexMask + 1)).imp
  intro i j hne x hi hj
  obtain ⟨_, -, rfl⟩ := List.mem_map.mp hi
  obtain ⟨_, -, hsame⟩ := List.mem_map.mp hj
  exact hne (Prod.mk.inj hsame).1.symm

variable (t order) in
/-- An iterator that starts at the first position visits every entry of the table once, and is
    then at the end. -/
structure Iterates : Prop where
  once : (t.entries order).Nodup
  every : ∀ i key, (i, key) ∈ t.entries order ↔ i ≤ t.theIndexMask ∧ key ∈ (t.theTable i).keys
  visits : ∀ k ≤ (t.entries order).length,
    ((t.visited order k).2.entry.map ((t.visited order k).2.set, ·)) = (t.entries order)[k]?
  ends : ∀ k ≤ (t.entries order).length,
    (t.visited order k).2 = (t.visited order k).1.end ↔ k = (t.entries order).length

theorem mem_entries {i key : Nat} : (i, key) ∈ t.entries order ↔ i ≤ t.theIndexMask ∧ key ∈ order (t.theTable i) := by
  simp [entries]

/-- With a power of two of sets an iterator visits all entries, in any order of those of a set. -/
theorem iterates {n : Nat} (hmask : t.theIndexMask + 1 = 2 ^ n)
    (horder : ∀ i, (order (t.theTable i)).Perm (t.theTable i).keys) : t.Iterates order := by
  have hnodup : ∀ i, (order (t.theTable i)).Nodup := fun i =>
    (horder i).nodup_iff.mpr flexus_boost_seq_map.nodup_keys
  refine ⟨nodup_entries hnodup, fun i key => ?_, fun k hk => (visited_spec hmask hnodup hk).1,
    fun k hk => (visited_spec hmask hnodup hk).2⟩
  rw [mem_entries, (horder i).mem_iff]

end flexus_boost_set_assoc
