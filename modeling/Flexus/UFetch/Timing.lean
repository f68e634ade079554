import Flexus.CommonQEMU.SeqMap
import Flexus.Lib.InputStream
import Flexus.Lib.Outcomes
import Flexus.Lib.Transducer
import Flexus.UFetch.SimCache

/-!
# The array of the instruction cache

The cache as the fetch unit has it: a set-associative map whose accesses go through the set that
was accessed last, filled from a checkpoint. It does what the sets of block numbers do that stand
for it.
-/

namespace nuFetch

/-- The exponent of a power of two that the macro lists. -/
def LOG2 (x : Nat) : Int :=
  match (List.range 27).find? fun k => x = 2 ^ k with
  | some k => k
  | none => -0xffff

theorem LOG2_two_pow {n : Nat} (h : n ≤ 26) : LOG2 (2 ^ n) = n := by
  have hfind : (List.range 27).find? (fun k => decide (2 ^ n = 2 ^ k)) = some n := by
    interval_cases n <;> rfl
  rw [LOG2, hfind]

namespace Timing

open InputStream Runs

abbrev SimCacheArray := flexus_boost_set_assoc Int

/-- A shift by a negative count, for a block size that is not listed, is undefined. -/
structure SimCache where
  theCache : SimCacheArray
  theCacheSize : Nat
  theCacheAssoc : Nat
  theCacheBlockShift : Int
  theBlockSize : Nat

namespace SimCache

def init (aCacheSize aCacheAssoc aBlockSize : Nat) : SimCache where
  theCache := .init (aCacheSize / aBlockSize) aCacheAssoc
  theCacheSize := aCacheSize
  theCacheAssoc := aCacheAssoc
  theCacheBlockShift := LOG2 aBlockSize
  theBlockSize := aBlockSize

variable (c : SimCache)

def insert (addr : Nat) : Nat × SimCache :=
  let addr := addr >>> c.theCacheBlockShift.toNat
  let (iter, theCache) := c.theCache.find addr
  if iter ≠ theCache.end then (0, { c with theCache := theCache.move_back iter })
  else if c.theCacheAssoc ≤ theCache.size then
    ((theCache.front_key.getD 0 <<< c.theCacheBlockShift.toNat) % 2 ^ 64,
      { c with theCache := (theCache.pop_front.insert (addr, 0)).2 })
  else (0, { c with theCache := (theCache.insert (addr, 0)).2 })

def lookup (addr : Nat) : Bool × SimCache :=
  let addr := addr >>> c.theCacheBlockShift.toNat
  let (iter, theCache) := c.theCache.find addr
  if iter ≠ theCache.end then (true, { c with theCache := theCache.move_back iter })
  else (false, { c with theCache })

def inval (addr : Nat) : Bool × SimCache :=
  let addr := addr >>> c.theCacheBlockShift.toNat
  let (iter, theCache) := c.theCache.find addr
  if iter ≠ theCache.end then (true, { c with theCache := theCache.erase iter })
  else (false, { c with theCache })

end SimCache

/-! ## Checkpoints -/

/-- The next character behind whitespace. -/
def readChar (s : InputStream.Stream) (old : Char) : Char × InputStream.Stream :=
  match s.ws.get with
  | some (c, s) => (c, s)
  | none => (old, { s.ws with failbit := true })

/-- The next integer of 32 bits. -/
def readInt (s : InputStream.Stream) (old : Int) : Int × InputStream.Stream :=
  if s.ws.good then s.ws.getInt else (old, { s.ws with failbit := true })

/-- The next integer of 64 bits without a sign. A minus sign takes it from 2^64. -/
def readUInt64 (s : InputStream.Stream) (old : Nat) : Nat × InputStream.Stream :=
  if s.ws.good then
    let (negative, text) := InputStream.Stream.sign s.ws.rest
    let number := text.takeWhile InputStream.Stream.isdigit
    let rest := text.dropWhile InputStream.Stream.isdigit
    let value := InputStream.Stream.digits number
    (if 2 ^ 64 ≤ value then 2 ^ 64 - 1 else if negative then (2 ^ 64 - value) % 2 ^ 64 else value,
      { rest, eofbit := rest.isEmpty, failbit := number.isEmpty || decide (2 ^ 64 ≤ value) })
  else (old, { s.ws with failbit := true })

inductive LoadFault where
  | expected
  | assertion
  deriving DecidableEq, Repr

/-- The variables of `loadArray`, and the ways that were read: the set, the state and the tag. -/
structure Loading where
  s : InputStream.Stream
  paren : Char
  dummy : Int
  load_state : Int
  load_tag : Nat
  theCache : SimCacheArray
  read : List (Nat × Int × Nat)

namespace Loading

def kSave_ValidBit : Int := 1

/-- The key of a way that was read. -/
def keyOf (tagShift : Nat) (way : Nat × Int × Nat) : Nat := (way.2.2 <<< tagShift) % 2 ^ 64 ||| way.1

/-- Whether a way that was read holds a block. -/
def valid (way : Nat × Int × Nat) : Bool := way.2.1 % 2 == kSave_ValidBit

variable (l : Loading)

def expect (c : Char) : Except LoadFault Loading :=
  let (paren, s) := readChar l.s l.paren
  if paren ≠ c then .error .expected else .ok { l with s, paren }

def loadWay (tagShift i : Nat) : Except LoadFault Loading :=
  let (paren, s) := readChar l.s l.paren
  let (load_state, s) := readInt s l.load_state
  let (load_tag, s) := readUInt64 s l.load_tag
  let (paren, s) := readChar s paren
  let way := (i, load_state, load_tag)
  let l := { l with s, paren, load_state, load_tag, read := l.read ++ [way] }
  if valid way then
    let theCache := (l.theCache.insert (keyOf tagShift way, 0)).2
    if theCache.size ≤ theCache.theAssoc then .ok { l with theCache } else .error .assertion
  else .ok l

/-- The stored order of the ways, which is not used. -/
def readOrder : Loading :=
  let (dummy, s) := readInt l.s l.dummy
  { l with s, dummy }

def loadSet (tagShift i : Nat) : Except LoadFault Loading := do
  let l ← l.expect '{'
  let l ← (List.range l.theCache.theAssoc).foldlM (fun l _ => l.loadWay tagShift i) l
  let l ← l.expect '}'
  let l ← l.expect '<'
  let l := (List.range l.theCache.theAssoc).foldl (fun l _ => l.readOrder) l
  l.expect '>'

def loadArray : Except LoadFault Loading :=
  let tagShift := (LOG2 l.theCache.theSets).toNat
  (List.range l.theCache.theSets).foldlM (fun l i => l.loadSet tagShift i) l

end Loading

/-- The checkpoint is read into the array unless there is no file. The variables of `loadArray`
    have no values at first. -/
def SimCache.loadState (c : SimCache) (file : Option (List Char)) (paren : Char) (dummy load_state : Int)
    (load_tag : Nat) : Except LoadFault Loading :=
  match file with
  | none => .ok ⟨.ofText [], paren, dummy, load_state, load_tag, c.theCache, []⟩
  | some text => Loading.loadArray ⟨.ofText text, paren, dummy, load_state, load_tag, c.theCache, []⟩

/-! ## What an array shows -/

/-- The sets of an array are those of a cache of block numbers. -/
structure Shows (t : SimCacheArray) {c : FetchConfig} (r : nuFetch.SimCache c) : Prop where
  mask : t.theIndexMask = c.theSets - 1
  sets : t.theSets = c.theSets
  assoc : t.theAssoc = c.Associativity
  keys : ∀ i, (t.theTable i).keys = r.theCache i

variable {c : FetchConfig} {t : SimCacheArray} {r : nuFetch.SimCache c} {key : Nat}

theorem Shows.makeIndex (h : Shows t r) (key : Nat) : t.makeIndex key = c.makeIndex key := by
  rw [flexus_boost_set_assoc.makeIndex, h.mask, FetchConfig.makeIndex]

/-- The array with the set of a block as the one accessed last. -/
def turned (t : SimCacheArray) (c : FetchConfig) (key : Nat) : SimCacheArray :=
  { t with theCurrIndex := c.makeIndex key }

theorem Shows.turned (h : Shows t r) (key : Nat) : Shows (turned t c key) r := ⟨h.mask, h.sets, h.assoc, h.keys⟩

theorem Shows.current_keys (h : Shows t r) (key : Nat) : (Timing.turned t c key).current.keys = r.setOf key := h.keys _

theorem Shows.find (h : Shows t r) (key : Nat) :
    t.find key = (⟨c.makeIndex key, if key ∈ r.setOf key then some key else none⟩, Timing.turned t c key) := by
  have hkeys := h.keys (c.makeIndex key)
  simp only [flexus_boost_set_assoc.find, h.makeIndex, flexus_boost_set_assoc.current, flexus_boost_seq_map.find,
    Timing.turned, nuFetch.SimCache.setOf, ← hkeys]

/-- A set of the array is replaced as that of the cache is. -/
theorem Shows.set (h : Shows t r) {m : flexus_boost_seq_map Int} {l : List Nat} (hm : m.keys = l)
    (hnodup : l.Nodup) (hplaced : ∀ k ∈ l, c.makeIndex k = c.makeIndex key) :
    Shows ((Timing.turned t c key).setCurrent m) (r.setSet key l hnodup hplaced) where
  mask := h.mask
  sets := h.sets
  assoc := h.assoc
  keys := by
    intro i
    simp only [flexus_boost_set_assoc.setCurrent, Timing.turned, nuFetch.SimCache.setSet, Function.update_apply]
    split
    · exact hm
    · exact h.keys i

theorem Shows.moveBack (h : Shows t r) (hin : r.has key = true) :
    Shows ((Timing.turned t c key).setCurrent ((Timing.turned t c key).current.move_back key)) (r.moveBack key) := by
  have hmem : key ∈ (Timing.turned t c key).current.keys := by
    rw [h.current_keys]
    exact nuFetch.SimCache.has_iff.mp hin
  apply h.set
  rw [flexus_boost_seq_map.keys_move_back hmem, h.current_keys]

/-- A set without the block, short of its least recent one if it is full, takes it in. -/
theorem Shows.insert (h : Shows t r) (hout : ¬ r.has key = true) {m : flexus_boost_seq_map Int}
    (hm : m.keys = r.kept key) (v : Int) (hnodup : (r.kept key ++ [key]).Nodup)
    (hplaced : ∀ k ∈ r.kept key ++ [key], c.makeIndex k = c.makeIndex key) :
    Shows ((Timing.turned t c key).setCurrent (m.insert (key, v)).2)
      (r.setSet key (r.kept key ++ [key]) hnodup hplaced) := by
  have hnew : key ∉ m.keys := by
    rw [hm]
    intro hmem
    exact hout (nuFetch.SimCache.has_iff.mpr ((r.kept_sublist key).subset hmem))
  apply h.set
  rw [flexus_boost_seq_map.keys_insert hnew, hm]

/-- A block that the cache has is found. -/
theorem Shows.find_of_has (h : Shows t r) (hin : r.has key = true) :
    t.find key = (⟨c.makeIndex key, some key⟩, Timing.turned t c key) := by
  rw [h.find, if_pos (nuFetch.SimCache.has_iff.mp hin)]

theorem Shows.find_of_not_has (h : Shows t r) (hout : ¬ r.has key = true) :
    t.find key = ((Timing.turned t c key).end, Timing.turned t c key) := by
  rw [h.find, if_neg fun hmem => hout (nuFetch.SimCache.has_iff.mpr hmem)]
  rfl

/-! ## Runs -/

inductive CacheOp where
  | insert (addr : Nat)
  | lookup (addr : Nat)
  | inval (addr : Nat)
  deriving DecidableEq, Repr

/-- What an operation answers: the block that an insertion displaced, or whether a block was found. -/
inductive Answer (α : Type) where
  | displaced (block : α)
  | found (present : Bool)
  deriving DecidableEq, Repr

def Answer.map {α β : Type} (f : α → β) : Answer α → Answer β
  | .displaced block => .displaced (f block)
  | .found present => .found present

def SimCache.step (s : SimCache) : CacheOp → Answer Nat × SimCache
  | .insert addr => (.displaced (s.insert addr).1, (s.insert addr).2)
  | .lookup addr => (.found (s.lookup addr).1, (s.lookup addr).2)
  | .inval addr => (.found (s.inval addr).1, (s.inval addr).2)

/-- The reference: sets that are lists of blocks from the least to the most recently used one. -/
def reference (r : nuFetch.SimCache c) : CacheOp → Answer (Option Nat) × nuFetch.SimCache c
  | .insert addr =>
    (.displaced (if r.has (c.keyOf addr) then none else r.victim (c.keyOf addr)), (r.insert addr).2)
  | .lookup addr => (.found (r.has (c.keyOf addr)), (r.lookup addr).2)
  | .inval addr => (.found (r.has (c.keyOf addr)), (r.inval addr).2)

/-- How an insertion tells the displaced block: its address in 64 bits, or zero. -/
def told (c : FetchConfig) (block : Option Nat) : Nat := (block.map fun key => c.addrOf key % 2 ^ 64).getD 0

/-- The cache of the fetch unit for a cache of block numbers none of whose sets is too large. -/
structure Stands (s : SimCache) (r : nuFetch.SimCache c) : Prop where
  shows : Shows s.theCache r
  assoc : s.theCacheAssoc = c.Associativity
  shift : s.theCacheBlockShift = c.theIndexShift
  bounded : ∀ i, (r.theCache i).length ≤ c.Associativity

variable {s : SimCache}

theorem Stands.keyOf (h : Stands s r) (addr : Nat) : addr >>> s.theCacheBlockShift.toNat = c.keyOf addr := by
  rw [h.shift, FetchConfig.keyOf, Int.toNat_natCast]

/-- The blocks of a set that is replaced. -/
theorem bounded_setSet {l : List Nat} (hbounded : ∀ i, (r.theCache i).length ≤ c.Associativity)
    (hl : l.length ≤ c.Associativity) (hnodup : l.Nodup) (hplaced : ∀ k ∈ l, c.makeIndex k = c.makeIndex key) (i : Nat) :
    ((r.setSet key l hnodup hplaced).theCache i).length ≤ c.Associativity := by
  simp only [nuFetch.SimCache.setSet, Function.update_apply]
  split
  · exact hl
  · exact hbounded i

theorem length_moved (hin : r.has key = true) : ((r.setOf key).erase key ++ [key]).length = (r.setOf key).length := by
  have hmem := nuFetch.SimCache.has_iff.mp hin
  have hpos := List.length_pos_of_mem hmem
  rw [List.length_append, List.length_erase_of_mem hmem, List.length_singleton]
  omega

theorem Stands.moveBack (h : Stands s r) (hin : r.has key = true) :
    Stands { s with theCache := (turned s.theCache c key).move_back ⟨c.makeIndex key, some key⟩ } (r.moveBack key) where
  shows := h.shows.moveBack hin
  assoc := h.assoc
  shift := h.shift
  bounded := bounded_setSet h.bounded ((length_moved hin).le.trans (h.bounded _)) _ _

theorem Stands.turned (h : Stands s r) (key : Nat) : Stands { s with theCache := Timing.turned s.theCache c key } r :=
  ⟨h.shows.turned key, h.assoc, h.shift, h.bounded⟩

theorem some_ne_end (t : SimCacheArray) (key k : Nat) : (⟨c.makeIndex key, some k⟩ : flexus_boost_set_assoc.Iter) ≠
    (Timing.turned t c key).end := by
  simp [flexus_boost_set_assoc.end]

theorem Stands.lookup (h : Stands s r) (addr : Nat) :
    (s.lookup addr).1 = r.has (c.keyOf addr) ∧ Stands (s.lookup addr).2 (r.lookup addr).2 := by
  rw [nuFetch.SimCache.lookup]
  by_cases hin : r.has (c.keyOf addr) = true
  · have hlookup : s.lookup addr = (true, { s with
        theCache := (Timing.turned s.theCache c (c.keyOf addr)).move_back
          ⟨c.makeIndex (c.keyOf addr), some (c.keyOf addr)⟩ }) := by
      simp only [SimCache.lookup, h.keyOf, h.shows.find_of_has hin, if_pos (some_ne_end _ _ _)]
    rw [hlookup, if_pos hin, hin]
    exact ⟨rfl, h.moveBack hin⟩
  · have hlookup : s.lookup addr = (false, { s with theCache := Timing.turned s.theCache c (c.keyOf addr) }) := by
      simp only [SimCache.lookup, h.keyOf, h.shows.find_of_not_has hin, if_neg (not_not_intro rfl)]
    rw [hlookup, if_neg hin, Bool.eq_false_iff.mpr hin]
    exact ⟨rfl, h.turned _⟩

theorem Stands.inval (h : Stands s r) (addr : Nat) :
    (s.inval addr).1 = r.has (c.keyOf addr) ∧ Stands (s.inval addr).2 (r.inval addr).2 := by
  rw [nuFetch.SimCache.inval]
  by_cases hin : r.has (c.keyOf addr) = true
  · have hinval : s.inval addr = (true, { s with
        theCache := (Timing.turned s.theCache c (c.keyOf addr)).erase
          ⟨c.makeIndex (c.keyOf addr), some (c.keyOf addr)⟩ }) := by
      simp only [SimCache.inval, h.keyOf, h.shows.find_of_has hin, if_pos (some_ne_end _ _ _)]
    have hplaced : ∀ k ∈ (r.setOf (c.keyOf addr)).erase (c.keyOf addr), c.makeIndex k = c.makeIndex (c.keyOf addr) :=
      fun k hk => nuFetch.SimCache.makeIndex_of_mem (List.mem_of_mem_erase hk)
    have hnodup := (r.nodup_setOf (c.keyOf addr)).erase (c.keyOf addr)
    rw [hinval, if_pos hin, hin]
    refine ⟨rfl, h.shows.set ?_ hnodup hplaced, h.assoc, h.shift, bounded_setSet h.bounded ?_ hnodup hplaced⟩
    · rw [flexus_boost_seq_map.keys_erase, h.shows.current_keys]
    · exact (List.length_erase_le ..).trans (h.bounded _)
  · have hinval : s.inval addr = (false, { s with theCache := Timing.turned s.theCache c (c.keyOf addr) }) := by
      simp only [SimCache.inval, h.keyOf, h.shows.find_of_not_has hin, if_neg (not_not_intro rfl)]
    rw [hinval, if_neg hin, Bool.eq_false_iff.mpr hin]
    exact ⟨rfl, h.turned _⟩

theorem Shows.insert_setCurrent (h : Shows t r) (key : Nat) (m : flexus_boost_seq_map Int) (v : Int) :
    (((Timing.turned t c key).setCurrent m).insert (key, v)).2 =
      (Timing.turned t c key).setCurrent (m.insert (key, v)).2 := by
  have hindex : ((Timing.turned t c key).setCurrent m).makeIndex key = c.makeIndex key := h.makeIndex key
  simp only [flexus_boost_set_assoc.insert, hindex]
  simp only [flexus_boost_set_assoc.setCurrent, flexus_boost_set_assoc.current, Timing.turned, Function.update_self,
    Function.update_idem]

theorem setCurrent_current (t : SimCacheArray) : t.setCurrent t.current = t := by
  rw [flexus_boost_set_assoc.setCurrent, flexus_boost_set_assoc.current, Function.update_eq_self]

theorem length_inserted (hbounded : ∀ i, (r.theCache i).length ≤ c.Associativity) :
    (r.kept key ++ [key]).length ≤ c.Associativity := by
  have hset : (r.setOf key).length ≤ c.Associativity := hbounded _
  have hpos := c.associativity_pos
  rw [List.length_append, List.length_singleton, nuFetch.SimCache.kept]
  split
  · rw [List.length_tail]
    omega
  · omega

theorem placed_inserted : ∀ k ∈ r.kept key ++ [key], c.makeIndex k = c.makeIndex key := by
  intro k hk
  obtain hmem | hself := List.mem_append.mp hk
  · exact nuFetch.SimCache.makeIndex_of_mem ((r.kept_sublist key).subset hmem)
  · rw [List.mem_singleton.mp hself]

theorem Stands.inserted (h : Stands s r) (hout : ¬ r.has key = true) {m : flexus_boost_seq_map Int}
    (hm : m.keys = r.kept key) :
    Stands { s with theCache := (Timing.turned s.theCache c key).setCurrent (m.insert (key, 0)).2 }
      (r.setSet key (r.kept key ++ [key]) (nuFetch.SimCache.nodup_inserted hout) placed_inserted) :=
  ⟨h.shows.insert hout hm 0 _ _, h.assoc, h.shift, bounded_setSet h.bounded (length_inserted h.bounded) _ _⟩

theorem Stands.insert (h : Stands s r) (addr : Nat) :
    (s.insert addr).1 =
        told c (if r.has (c.keyOf addr) then none else r.victim (c.keyOf addr)) ∧
      Stands (s.insert addr).2 (r.insert addr).2 := by
  rw [nuFetch.SimCache.insert]
  by_cases hin : r.has (c.keyOf addr) = true
  · have hinsert : s.insert addr = (0, { s with
        theCache := (Timing.turned s.theCache c (c.keyOf addr)).move_back
          ⟨c.makeIndex (c.keyOf addr), some (c.keyOf addr)⟩ }) := by
      simp only [SimCache.insert, h.keyOf, h.shows.find_of_has hin, if_pos (some_ne_end _ _ _)]
    rw [hinsert, if_pos hin, dif_pos hin]
    exact ⟨rfl, h.moveBack hin⟩
  rw [if_neg hin, dif_neg hin]
  have hkeys := h.shows.current_keys (c.keyOf addr)
  have hsize : (Timing.turned s.theCache c (c.keyOf addr)).size = (r.setOf (c.keyOf addr)).length := by
    rw [← hkeys, flexus_boost_seq_map.length_keys, flexus_boost_set_assoc.size]
  by_cases hfull : c.Associativity ≤ (r.setOf (c.keyOf addr)).length
  · -- the least recent block goes
    have hfront : (Timing.turned s.theCache c (c.keyOf addr)).front_key = r.victim (c.keyOf addr) := by
      rw [flexus_boost_set_assoc.front_key, flexus_boost_seq_map.front_key, hkeys, nuFetch.SimCache.victim,
        if_pos hfull]
    have hkept : (Timing.turned s.theCache c (c.keyOf addr)).current.pop_front.keys = r.kept (c.keyOf addr) := by
      rw [flexus_boost_seq_map.keys_pop_front, hkeys, nuFetch.SimCache.kept, if_pos hfull]
    have hinsert : s.insert addr =
        (((r.victim (c.keyOf addr)).getD 0 <<< s.theCacheBlockShift.toNat) % 2 ^ 64, { s with
          theCache := ((Timing.turned s.theCache c (c.keyOf addr)).pop_front.insert (c.keyOf addr, 0)).2 }) := by
      simp only [SimCache.insert, h.keyOf, h.shows.find_of_not_has hin, if_neg (not_not_intro rfl), h.assoc, hsize,
        if_pos hfull, hfront]
    rw [hinsert, flexus_boost_set_assoc.pop_front, h.shows.insert_setCurrent]
    refine ⟨?_, h.inserted hin hkept⟩
    rw [h.shift, Int.toNat_natCast]
    cases r.victim (c.keyOf addr) with
    | none => simp [told]
    | some key => rfl
  · have hkept : (Timing.turned s.theCache c (c.keyOf addr)).current.keys = r.kept (c.keyOf addr) := by
      rw [hkeys, nuFetch.SimCache.kept, if_neg hfull]
    have hinsert : s.insert addr = (0, { s with
        theCache := ((Timing.turned s.theCache c (c.keyOf addr)).insert (c.keyOf addr, 0)).2 }) := by
      simp only [SimCache.insert, h.keyOf, h.shows.find_of_not_has hin, if_neg (not_not_intro rfl), h.assoc, hsize,
        if_neg hfull]
    have hturned := h.shows.insert_setCurrent (c.keyOf addr) (Timing.turned s.theCache c (c.keyOf addr)).current 0
    rw [setCurrent_current] at hturned
    rw [hinsert, hturned, nuFetch.SimCache.victim, if_neg hfull]
    exact ⟨rfl, h.inserted hin hkept⟩

theorem Stands.step (h : Stands s r) (op : CacheOp) :
    (s.step op).1 = (reference r op).1.map (told c) ∧ Stands (s.step op).2 (reference r op).2 := by
  cases op with
  | insert addr =>
    obtain ⟨hsame, hnext⟩ := h.insert addr
    exact ⟨congrArg Answer.displaced hsame, hnext⟩
  | lookup addr =>
    obtain ⟨hsame, hnext⟩ := h.lookup addr
    exact ⟨congrArg Answer.found hsame, hnext⟩
  | inval addr =>
    obtain ⟨hsame, hnext⟩ := h.inval addr
    exact ⟨congrArg Answer.found hsame, hnext⟩

/-! ## Loaded caches -/

/-- The geometries with powers of two, where the macro lists the size of a line. -/
structure Accepted (c : FetchConfig) : Prop where
  line : c.theIndexShift ≤ 26
  sets : ∃ n, c.theSets = 2 ^ n

/-- The cache that a fetch unit with a configuration initializes. -/
def SimCache.ofConfig (c : FetchConfig) : SimCache := .init c.Size c.Associativity (2 ^ c.theIndexShift)

theorem nodup_behind (hout : ¬ r.has key = true) : (r.setOf key ++ [key]).Nodup := by
  rw [List.nodup_append]
  refine ⟨r.nodup_setOf key, List.nodup_singleton _, fun k hk x hx => ?_⟩
  rw [List.mem_singleton.mp hx]
  rintro rfl
  exact hout (nuFetch.SimCache.has_iff.mpr hk)

theorem placed_behind : ∀ k ∈ r.setOf key ++ [key], c.makeIndex k = c.makeIndex key := by
  intro k hk
  obtain hmem | hself := List.mem_append.mp hk
  · exact nuFetch.SimCache.makeIndex_of_mem hmem
  · rw [List.mem_singleton.mp hself]

/-- A block of a checkpoint comes behind those of its set, unless it is there. -/
def placedBehind (r : nuFetch.SimCache c) (key : Nat) : nuFetch.SimCache c :=
  if h : r.has key then r
  else
    r.setSet key (r.setOf key ++ [key])
      (nodup_behind h) placed_behind

/-- The blocks of the ways that were read and hold one, in their order. -/
def restored (c : FetchConfig) (read : List (Nat × Int × Nat)) : nuFetch.SimCache c :=
  (read.filter Loading.valid).foldl
    (fun r way => placedBehind r (Loading.keyOf (LOG2 c.theSets).toNat way)) .empty

/-- A cache as it is initialized, or as a checkpoint fills it, with the cache of block numbers that
    it starts from. The tags of a checkpoint are shifted by the exponent of a listed number of
    sets. -/
inductive Started (c : FetchConfig) : SimCache → nuFetch.SimCache c → Prop
  | empty : Started c (.ofConfig c) .empty
  | loaded {file : Option (List Char)} {paren : Char} {dummy load_state : Int} {load_tag : Nat} {l : Loading} :
      c.theSets ≤ 2 ^ 26 → (SimCache.ofConfig c).loadState file paren dummy load_state load_tag = .ok l →
      Started c { SimCache.ofConfig c with theCache := l.theCache } (restored c l.read)

theorem stands_ofConfig (hline : c.theIndexShift ≤ 26) : Stands (.ofConfig c) (.empty : nuFetch.SimCache c) where
  shows := ⟨rfl, rfl, rfl, fun _ => rfl⟩
  assoc := rfl
  shift := LOG2_two_pow hline
  bounded := fun _ => Nat.zero_le _

/-- A way of a set has a key of that set. -/
theorem makeIndex_keyOf {n : Nat} (hn : n ≤ 26) (hsets : c.theSets = 2 ^ n) (way : Nat × Int × Nat)
    (hway : way.1 < c.theSets) : c.makeIndex (Loading.keyOf n way) = way.1 := by
  have hdvd : 2 ^ n ∣ 2 ^ 64 := Nat.pow_dvd_pow 2 (by omega)
  have hzero : (way.2.2 <<< n) % 2 ^ 64 % 2 ^ n = 0 := by
    rw [Nat.mod_mod_of_dvd _ hdvd, Nat.shiftLeft_eq, Nat.mul_mod_left]
  rw [FetchConfig.makeIndex, hsets, Nat.and_two_pow_sub_one_eq_mod, Loading.keyOf, Nat.or_mod_two_pow, hzero,
    Nat.zero_or, Nat.mod_eq_of_lt (hsets ▸ hway)]

theorem restored_append (read : List (Nat × Int × Nat)) (way : Nat × Int × Nat) :
    restored c (read ++ [way]) =
      if Loading.valid way then placedBehind (restored c read) (Loading.keyOf (LOG2 c.theSets).toNat way)
      else restored c read := by
  rw [restored, List.filter_append, List.foldl_append, ← restored]
  split
  · next hvalid => simp [hvalid]
  · next hinvalid => simp [hinvalid]

/-- An insertion places a block behind those of its set. -/
theorem Shows.placedBehind (h : Shows t r) (key : Nat) : Shows (t.insert (key, 0)).2 (placedBehind r key) := by
  have hinsert : (t.insert (key, 0)).2 =
      (Timing.turned t c key).setCurrent ((Timing.turned t c key).current.insert (key, 0)).2 := by
    have hcurrent := h.insert_setCurrent key (Timing.turned t c key).current 0
    rw [setCurrent_current] at hcurrent
    rw [← hcurrent]
    simp only [flexus_boost_set_assoc.insert, Timing.turned, flexus_boost_set_assoc.makeIndex]
  have hkeys := h.current_keys key
  rw [Timing.placedBehind, hinsert]
  split
  · next hin =>
    have hmem : key ∈ (Timing.turned t c key).current.keys := hkeys ▸ nuFetch.SimCache.has_iff.mp hin
    rw [flexus_boost_seq_map.insert_of_mem hmem, setCurrent_current]
    exact h.turned key
  · next hout =>
    have hnew : key ∉ (Timing.turned t c key).current.keys := fun hmem =>
      hout (nuFetch.SimCache.has_iff.mpr (hkeys ▸ hmem))
    apply h.set
    rw [flexus_boost_seq_map.keys_insert hnew, hkeys]

/-- The first sets and ways are read, and the array holds the blocks of those that are valid. -/
structure Filled (c : FetchConfig) (sets ways : Nat) (l : Loading) : Prop where
  shows : Shows l.theCache (restored c l.read)
  counted : ∀ i, ((restored c l.read).theCache i).length ≤ l.read.countP fun way => way.1 == i
  ways : ∀ i, (l.read.countP fun way => way.1 == i) =
    if i < sets then c.Associativity else if i = sets then ways else 0

variable {l : Loading}

theorem length_placedBehind (r : nuFetch.SimCache c) (key i : Nat) :
    ((placedBehind r key).theCache i).length ≤ (r.theCache i).length + if i = c.makeIndex key then 1 else 0 := by
  rw [placedBehind]
  split
  · omega
  · simp only [nuFetch.SimCache.setSet, Function.update_apply]
    split
    · next hself => rw [hself, List.length_append, List.length_singleton, nuFetch.SimCache.setOf]
    · omega

/-- A way is read, whatever the stream gives, and comes into the array if it is valid. -/
theorem Loading.loadWay_eq (l : Loading) (n i : Nat) : ∃ s paren load_state load_tag,
    l.loadWay n i =
      if valid (i, load_state, load_tag) then
        if (l.theCache.insert (keyOf n (i, load_state, load_tag), 0)).2.size ≤
            (l.theCache.insert (keyOf n (i, load_state, load_tag), 0)).2.theAssoc then
          .ok { l with
            s, paren, load_state, load_tag
            read := l.read ++ [(i, load_state, load_tag)]
            theCache := (l.theCache.insert (keyOf n (i, load_state, load_tag), 0)).2 }
        else .error .assertion
      else .ok { l with s, paren, load_state, load_tag, read := l.read ++ [(i, load_state, load_tag)] } :=
  ⟨_, _, _, _, rfl⟩

/-- A way of a set is read. -/
theorem Filled.loadWay {n i j : Nat} (hn : n ≤ 26) (hsets : c.theSets = 2 ^ n) (hi : i < c.theSets)
    (hj : j < c.Associativity) (h : Filled c i j l) : Yields (· = .expected) (l.loadWay n i) (Filled c i (j + 1)) := by
  have hshift : (LOG2 c.theSets).toNat = n := by rw [hsets, LOG2_two_pow hn, Int.toNat_natCast]
  obtain ⟨s, paren, state, tag, hload⟩ := l.loadWay_eq n i
  rw [hload]
  have hways : ∀ k, ((l.read ++ [(i, state, tag)]).countP fun way => way.1 == k) =
      if k < i then c.Associativity else if k = i then j + 1 else 0 := by
    intro k
    have hbefore := h.ways k
    rw [List.countP_append, hbefore, List.countP_singleton]
    by_cases hk : i = k
    · simp [hk]
    · have hne : k ≠ i := fun hsame => hk hsame.symm
      simp [hk, hne]
  have hmore : ∀ k, (l.read.countP fun way => way.1 == k) + (if k = i then 1 else 0) =
      (l.read ++ [(i, state, tag)]).countP fun way => way.1 == k := by
    intro k
    rw [List.countP_append, List.countP_singleton]
    by_cases hk : i = k
    · simp [hk]
    · have hne : k ≠ i := fun hsame => hk hsame.symm
      simp [hk, hne]
  split
  · next hvalid =>
    have hread : restored c (l.read ++ [(i, state, tag)]) =
        Timing.placedBehind (restored c l.read) (Loading.keyOf n (i, state, tag)) := by
      rw [restored_append, if_pos hvalid, hshift]
    have hindex := makeIndex_keyOf hn hsets (i, state, tag) hi
    have hshows := h.shows.placedBehind (Loading.keyOf n (i, state, tag))
    have hcounted : ∀ k, ((restored c (l.read ++ [(i, state, tag)])).theCache k).length ≤
        (l.read ++ [(i, state, tag)]).countP fun way => way.1 == k := by
      intro k
      have hlength := length_placedBehind (restored c l.read) (Loading.keyOf n (i, state, tag)) k
      rw [hindex] at hlength
      rw [hread, ← hmore k]
      exact hlength.trans (Nat.add_le_add_right (h.counted k) _)
    have hsize : (l.theCache.insert (Loading.keyOf n (i, state, tag), 0)).2.size ≤
        (l.theCache.insert (Loading.keyOf n (i, state, tag), 0)).2.theAssoc := by
      have hset := hcounted i
      rw [hways i, if_neg (Nat.lt_irrefl i), if_pos rfl, hread, ← hshows.keys,
        flexus_boost_seq_map.length_keys] at hset
      have hcurrent : (l.theCache.insert (Loading.keyOf n (i, state, tag), 0)).2.theCurrIndex = i :=
        (h.shows.makeIndex _).trans hindex
      rw [flexus_boost_set_assoc.size, flexus_boost_set_assoc.current, hcurrent, hshows.assoc]
      exact hset.trans hj
    rw [if_pos hsize]
    refine .ok ⟨?_, hcounted, hways⟩
    rw [hread]
    exact hshows
  · next hinvalid =>
    have hread : restored c (l.read ++ [(i, state, tag)]) = restored c l.read := by
      rw [restored_append, if_neg hinvalid]
    refine .ok ⟨?_, fun k => ?_, hways⟩
    · rw [hread]
      exact h.shows
    · rw [hread, ← hmore k]
      exact (h.counted k).trans (Nat.le_add_right _ _)

theorem Filled.expect {i j : Nat} (h : Filled c i j l) (d : Char) :
    Yields (· = .expected) (l.expect d) (Filled c i j) := by
  rw [Loading.expect]
  generalize readChar l.s l.paren = read
  simp only
  split
  · exact .error rfl
  · exact .ok ⟨h.shows, h.counted, h.ways⟩

theorem Filled.readOrder {i j : Nat} (h : Filled c i j l) (n : Nat) :
    Filled c i j ((List.range n).foldl (fun l _ => l.readOrder) l) := by
  induction n with
  | zero => exact h
  | succ n ih =>
    rw [List.range_succ, List.foldl_append]
    exact ⟨ih.shows, ih.counted, ih.ways⟩

/-- A set whose ways have all been read. -/
theorem Filled.next {i : Nat} (h : Filled c i c.Associativity l) : Filled c (i + 1) 0 l := by
  refine ⟨h.shows, h.counted, fun k => ?_⟩
  rw [h.ways k]
  split
  · next hlt => rw [if_pos (by omega)]
  · split
    · next heq => rw [if_pos (by omega)]
    · rw [if_neg (by omega), ite_self]

theorem Filled.loadSet {n i : Nat} (hn : n ≤ 26) (hsets : c.theSets = 2 ^ n) (hi : i < c.theSets) (h : Filled c i 0 l) :
    Yields (· = .expected) (l.loadSet n i) (Filled c (i + 1) 0) := by
  rw [Loading.loadSet]
  refine (h.expect '{').bind fun l h => ?_
  have hways : Yields (· = .expected)
      ((List.range l.theCache.theAssoc).foldlM (fun l _ => l.loadWay n i) l) (Filled c i c.Associativity) := by
    rw [h.shows.assoc]
    exact .foldlM_range (I := Filled c i) h fun j hj l h => h.loadWay hn hsets hi hj
  refine hways.bind fun l h => (h.expect '}').bind fun l h => (h.expect '<').bind fun l h => ?_
  exact (h.readOrder _).next.expect '>'

/-- Reading a checkpoint fails only where it is not well-formed. -/
theorem Filled.loadArray (hgeometry : Accepted c) (hlisted : c.theSets ≤ 2 ^ 26) (h : Filled c 0 0 l) :
    Yields (· = .expected) l.loadArray (Filled c c.theSets 0) := by
  obtain ⟨n, hsets⟩ := hgeometry.sets
  have hn : n ≤ 26 := by
    rw [hsets] at hlisted
    exact (Nat.pow_le_pow_iff_right (Nat.le_refl 2)).mp hlisted
  have hshift : (LOG2 l.theCache.theSets).toNat = n := by rw [h.shows.sets, hsets, LOG2_two_pow hn, Int.toNat_natCast]
  rw [Loading.loadArray, hshift, h.shows.sets]
  exact .foldlM_range (I := fun i => Filled c i 0) h fun i hi l h => h.loadSet hn hsets hi

theorem filled_start (s : InputStream.Stream) (paren : Char) (dummy load_state : Int) (load_tag : Nat) :
    Filled c 0 0 ⟨s, paren, dummy, load_state, load_tag, (SimCache.ofConfig c).theCache, []⟩ :=
  ⟨⟨rfl, rfl, rfl, fun _ => rfl⟩, fun _ => Nat.zero_le _, fun i => by simp⟩

theorem Started.stands (hgeometry : Accepted c) (h : Started c s r) : Stands s r := by
  have hinit := stands_ofConfig hgeometry.line
  cases h with
  | empty => exact hinit
  | @loaded file paren dummy load_state load_tag l hlisted hload =>
    have hbounded : ∀ {sets}, Filled c sets 0 l → ∀ i, ((restored c l.read).theCache i).length ≤ c.Associativity := by
      intro sets hfilled i
      have hcount := hfilled.counted i
      rw [hfilled.ways i] at hcount
      split at hcount
      · exact hcount
      · rw [ite_self] at hcount
        exact hcount.trans (Nat.zero_le _)
    cases file with
    | none =>
      obtain rfl := Except.ok.inj hload
      exact hinit
    | some text =>
      have hfilled := ((filled_start _ _ _ _ _).loadArray hgeometry hlisted).1 l hload
      exact ⟨hfilled.shows, hinit.assoc, hinit.shift, hbounded hfilled⟩

/-- In every run, from an empty cache or from a checkpoint, the cache of the fetch unit answers as
    the reference does, where a displaced block is told by its address in 64 bits and none by zero,
    its sets hold the blocks of the reference in their order, and iterators visit every entry once
    and come to the end. -/
theorem run_reference (hgeometry : Accepted c) (hstart : Started c s r) (ops : List CacheOp) :
    (Transducer.run SimCache.step s ops).1 = (Transducer.run reference r ops).1.map (Answer.map (told c)) ∧
      (∀ i, ((Transducer.run SimCache.step s ops).2.theCache.theTable i).keys =
        (Transducer.run reference r ops).2.theCache i) ∧
      (∀ i, ((Transducer.run reference r ops).2.theCache i).length ≤ c.Associativity) ∧
      (Transducer.run SimCache.step s ops).2.theCache.Iterates flexus_boost_seq_map.indexed ∧
      (Transducer.run SimCache.step s ops).2.theCache.Iterates flexus_boost_seq_map.keys := by
  obtain ⟨hanswers, hend⟩ :=
    Transducer.run_simulation ops (fun s r op h => h.step op) (hstart.stands hgeometry)
  obtain ⟨n, hsets⟩ := hgeometry.sets
  have hmask : (Transducer.run SimCache.step s ops).2.theCache.theIndexMask + 1 = 2 ^ n := by
    have hpos := Nat.two_pow_pos n
    rw [hend.shows.mask, hsets]
    omega
  exact ⟨hanswers, hend.shows.keys, hend.bounded,
    flexus_boost_set_assoc.iterates hmask fun i => flexus_boost_seq_map.indexed_perm,
    flexus_boost_set_assoc.iterates hmask fun i => .refl _⟩

/-- A cache of one set with lines of 64 bytes. -/
def oneSet (ways : Nat) (hways : 0 < ways) : FetchConfig where
  MaxFetchLines := 1
  MaxFetchInstructions := 1
  theIndexShift := 6
  PerfectICache := false
  PrefetchEnabled := false
  CleanEvict := true
  Size := 64 * ways
  Associativity := ways
  MissQueueSize := 1
  Threads := 1
  SendAcks := false
  UseReplyChannel := false
  EvictOnSnoop := false
  associativity_pos := hways

theorem accepted_oneSet (ways : Nat) (hways : 0 < ways) : Accepted (oneSet ways hways) where
  line := by simp [oneSet]
  sets := by
    refine ⟨0, ?_⟩
    have hlines : 64 * ways / 2 ^ 6 = ways := by omega
    show 64 * ways / 2 ^ 6 / ways = 1
    rw [hlines, Nat.div_self hways]

/-- Two blocks fill a set of two ways, the first of them is used, and a third one displaces the
    second. -/
theorem run_reference_twoWays :
    (Transducer.run SimCache.step (.ofConfig (oneSet 2 (by decide)))
      [.insert 0x1000, .insert 0x2000, .lookup 0x1010, .insert 0x3000, .lookup 0x2000]).1 =
      [.displaced 0, .displaced 0, .found true, .displaced 0x2000, .found false] :=
  (run_reference (accepted_oneSet 2 (by decide)) .empty _).1.trans (by decide)

/-- The answer of an insertion does not tell whether a block was displaced: it is the same for the
    block at address zero as for none. -/
theorem not_reported :
    ¬ ∃ reported : FetchConfig → Nat → Option Nat, ∀ (c : FetchConfig), Accepted c →
      ∀ (s : SimCache) (r : nuFetch.SimCache c), Started c s r → ∀ (ops : List CacheOp) (addr : Nat),
        (reference (Transducer.run reference r ops).2 (.insert addr)).1 =
          .displaced (reported c ((Transducer.run SimCache.step s ops).2.insert addr).1) := by
  rintro ⟨reported, hall⟩
  have hone := hall (oneSet 1 (by decide)) (accepted_oneSet 1 (by decide)) _ _ .empty
  have hnone : Answer.displaced none = .displaced (reported (oneSet 1 (by decide)) 0) := hone [] 0
  have hsome : Answer.displaced (some 0) = .displaced (reported (oneSet 1 (by decide)) 0) := hone [.insert 0] 0x40
  rw [← hnone] at hsome
  cases hsome

end Timing

end nuFetch
