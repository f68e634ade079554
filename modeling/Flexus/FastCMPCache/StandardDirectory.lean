import Flexus.FastCMPCache.FastCMPCache

/-!
# The directory of fixed size

An entry for a new block takes the place of another one.
-/

namespace nFastCMPCache

open nCMPCache (MemoryMessageType)
open nFastCache (AbstractCache blockOf)

inductive ReplPolicy where
  | LRURepl | MinSharers
  deriving DecidableEq, Repr

/-- The options of the directory. -/
structure StandardConfig where
  theNumSets : Nat
  theAssociativity : Nat
  theSkewSet : Bool
  theSpecialInterleaving : Bool
  theSetShift : Nat
  theSkewShift : Nat
  theReplPolicy : ReplPolicy
  associativity_pos : 0 < theAssociativity

def StandardConfig.theSetMask (c : StandardConfig) : Nat := c.theNumSets - 1

def StandardConfig.get_set (c : StandardConfig) (addr : Nat) : Nat :=
  if c.theSpecialInterleaving then
    let index := addr >>> c.theSetShift
    let bank := (index &&& 3) ||| ((index &&& 4) <<< 1) ||| ((index &&& 64) >>> 4) |||
      ((index &&& 0x180) >>> 3)
    let set := ((index >>> 9) <<< 9) ||| ((index &&& 0x38) <<< 3)
    if c.theSkewSet then
      ((set ^^^ (((addr >>> c.theSkewShift) >>> 6) <<< 6)) ||| bank) &&& c.theSetMask
    else (set ||| bank) &&& c.theSetMask
  else if c.theSkewSet then
    ((addr >>> c.theSetShift) ^^^ (addr >>> c.theSkewShift)) &&& c.theSetMask
  else (addr >>> c.theSetShift) &&& c.theSetMask

/-- The entries by set and way. -/
abbrev std_directory_t (n : Nat) := Nat → Nat → BlockDirectoryEntry n

namespace StandardDirectory

variable {n : Nat} {c : StandardConfig}

/-- Move the entry in a way to the front of its set. -/
def rotate (w : Nat) (set : Nat → BlockDirectoryEntry n) : Nat → BlockDirectoryEntry n :=
  fun way => if way = 0 then set w else if way ≤ w then set (way - 1) else set way

/-- Look for a block in some ways. Otherwise the last way without sharers is given up, or
    the first with the fewest sharers. -/
def scan (policy : ReplPolicy) (addr : Nat) (set : Nat → BlockDirectoryEntry n) :
    List Nat → Option Nat → Nat → Nat ⊕ Option Nat
  | [], min_way, _ => .inr min_way
  | way :: ways, min_way, min_sharers =>
    if (set way).theAddress = addr then .inl way
    else if policy = .LRURepl ∧ (set way).theState = .ZeroSharers then
      scan policy addr set ways (some way) min_sharers
    else if policy = .MinSharers ∧ (set way).theSharers.countSharers < min_sharers then
      scan policy addr set ways (some way) (set way).theSharers.countSharers
    else scan policy addr set ways min_way min_sharers

/-- The way of a block in its set, or the way that is given up for it. -/
def chooseWay (c : StandardConfig) (addr : Nat) (dir : std_directory_t n) : Nat :=
  match scan c.theReplPolicy addr (dir (c.get_set addr)) (List.range c.theAssociativity) none
      2147483647 with
  | .inl way => way
  | .inr min_way => min_way.getD (c.theAssociativity - 1)

/-- The entry that a lookup of a block works on: the one of the block, or the displaced one. -/
def chosen (c : StandardConfig) (addr : Nat) (dir : std_directory_t n) : BlockDirectoryEntry n :=
  dir (c.get_set addr) (chooseWay c addr dir)

/-- Find the place of the entry for a block. The place becomes the front of its set. -/
def findOrCreateEntry (c : StandardConfig) (addr : Nat) (make_lru : Bool) (dir : std_directory_t n) :
    std_directory_t n × Nat × Nat :=
  let set := c.get_set addr
  let way := chooseWay c addr dir
  if make_lru then (Function.update dir set (rotate way (dir set)), set, 0) else (dir, set, way)

/-- The entry in a place. -/
def entryAt (dir : std_directory_t n) (place : Nat × Nat) : BlockDirectoryEntry n :=
  dir place.1 place.2

def write (place : Nat × Nat) (e : BlockDirectoryEntry n) (dir : std_directory_t n) : std_directory_t n :=
  Function.update dir place.1 (Function.update (dir place.1) place.2 e)

/-- Look a block up. If another entry has to go, the action that is to invalidate its
    sharers reads its place when it is run, but the entry in this place starts at once for
    the new block. (The action even refers to the pointer of the function that has
    returned; here the pointer still leads to the place.) -/
def lookup (c : StandardConfig) (_index : Fin n) (address : Nat) (req_type : MemoryMessageType)
    (dir : std_directory_t n) : std_directory_t n × SharingVector n × SharingState × (Nat × Nat) ×
      List (std_directory_t n → Nat × SharingVector n) :=
  let (dir, place) := findOrCreateEntry c address (!req_type.isEvictType) dir
  let entry := entryAt dir place
  if entry.theAddress ≠ address then
    let dir := write place (entry.reset address) dir
    (dir, (entryAt dir place).theSharers, (entryAt dir place).theState, place,
      [fun dir => ((entryAt dir place).theAddress, (entryAt dir place).theSharers)])
  else (dir, entry.theSharers, entry.theState, place, [])

abbrev operations (n : Nat) : SharerOperations n where
  Directory := std_directory_t n
  Entry := Nat × Nat
  addSharer := fun index place _ dir => some (write place ((entryAt dir place).addSharer index) dir)
  addExclusiveSharer := fun index place _ dir => do
    let e ← ((entryAt dir place).addSharer index).makeExclusive index
    some (write place e dir)
  removeSharer := fun index place _ dir => some (write place ((entryAt dir place).removeSharer index) dir)
  failedSnoop := fun index place _ dir => some (write place ((entryAt dir place).removeSharer index) dir)
  makeSharerExclusive := fun index place _ dir => do
    let e ← (entryAt dir place).makeExclusive index
    some (write place e dir)

end StandardDirectory

open StandardDirectory in
/-- The directory of fixed size as one of the directories of the cache. -/
abbrev StandardDirectory (n : Nat) (c : StandardConfig) : AbstractDirectory n where
  toSharerOperations := operations n
  lookup := lookup c
  respond := (operations n).processRequestResponse

namespace StandardDirectory

variable {n : Nat} {c : StandardConfig} {dir dir' : std_directory_t n} {addr : Nat}
  {place : Nat × Nat} {e : BlockDirectoryEntry n} {ways : List Nat}

theorem scan_of_absent {set : Nat → BlockDirectoryEntry n} (policy : ReplPolicy) (m : Option Nat) (k : Nat)
    (habsent : ∀ w ∈ ways, (set w).theAddress ≠ addr) :
    ∃ m', scan policy addr set ways m k = .inr m' ∧ (m' = m ∨ ∃ w ∈ ways, m' = some w) := by
  induction ways generalizing m k with
  | nil => exact ⟨m, rfl, .inl rfl⟩
  | cons w ways ih =>
    have hrest : ∀ v ∈ ways, (set v).theAddress ≠ addr := fun v hv => habsent v (List.mem_cons_of_mem w hv)
    have hkeep : ∀ m k, ∃ m', scan policy addr set ways m k = .inr m' ∧
        (m' = m ∨ ∃ v ∈ w :: ways, m' = some v) := by
      intro m k
      obtain ⟨m', hscan, hm'⟩ := ih m k hrest
      exact ⟨m', hscan, hm'.imp_right fun ⟨v, hv, heq⟩ => ⟨v, List.mem_cons_of_mem w hv, heq⟩⟩
    simp only [scan, habsent w List.mem_cons_self, if_false]
    split
    · obtain ⟨m', hscan, hm'⟩ := hkeep (some w) k
      exact ⟨m', hscan, .inr (hm'.elim (fun heq => ⟨w, List.mem_cons_self, heq⟩) id)⟩
    · split
      · obtain ⟨m', hscan, hm'⟩ := hkeep (some w) (set w).theSharers.countSharers
        exact ⟨m', hscan, .inr (hm'.elim (fun heq => ⟨w, List.mem_cons_self, heq⟩) id)⟩
      · exact hkeep m k

/-- No way of the set of a block has its entry. -/
def Absent (c : StandardConfig) (addr : Nat) (dir : std_directory_t n) : Prop :=
  ∀ w, w < c.theAssociativity → (dir (c.get_set addr) w).theAddress ≠ addr

theorem chooseWay_lt (h : Absent c addr dir) : chooseWay c addr dir < c.theAssociativity := by
  have habsent : ∀ w ∈ List.range c.theAssociativity, (dir (c.get_set addr) w).theAddress ≠ addr :=
    fun w hw => h w (List.mem_range.mp hw)
  obtain ⟨m, hscan, hm⟩ := scan_of_absent c.theReplPolicy none 2147483647 habsent
  have hpos := c.associativity_pos
  unfold chooseWay
  rw [hscan]
  rcases hm with rfl | ⟨w, hw, rfl⟩
  · change c.theAssociativity - 1 < c.theAssociativity
    omega
  · exact List.mem_range.mp hw

@[simp]
theorem entryAt_write : entryAt (write place e dir) place = e := by
  simp [entryAt, write]

theorem entryAt_write_of_ne {q : Nat × Nat} (h : q ≠ place) : entryAt (write place e dir) q = entryAt dir q := by
  unfold entryAt write
  by_cases hset : q.1 = place.1
  · have hway : q.2 ≠ place.2 := fun hway => h (Prod.ext hset hway)
    rw [hset, Function.update_self, Function.update_of_ne hway]
  · rw [Function.update_of_ne hset]

/-- The place that a lookup works on has the chosen entry, and every other entry is still in
    its set. -/
theorem findOrCreateEntry_spec (h : Absent c addr dir) (make_lru : Bool) :
    entryAt (findOrCreateEntry c addr make_lru dir).1 (findOrCreateEntry c addr make_lru dir).2 =
        chosen c addr dir ∧
      ∀ i w, w < c.theAssociativity → dir i w ≠ chosen c addr dir →
        ∃ v, v < c.theAssociativity ∧ (i, v) ≠ (findOrCreateEntry c addr make_lru dir).2 ∧
          (findOrCreateEntry c addr make_lru dir).1 i v = dir i w := by
  have hlt := chooseWay_lt h
  unfold findOrCreateEntry
  cases make_lru with
  | false =>
    refine ⟨rfl, fun i w hw hne => ⟨w, hw, fun heq => hne ?_, rfl⟩⟩
    obtain ⟨rfl, rfl⟩ := Prod.mk.inj heq
    rfl
  | true =>
    simp only [if_true]
    refine ⟨by simp [entryAt, rotate, chosen], fun i w hw hne => ?_⟩
    by_cases hi : i = c.get_set addr
    · subst hi
      have hway : w ≠ chooseWay c addr dir := fun heq => hne (by rw [heq, chosen])
      rw [Function.update_self]
      -- the ways before the chosen one move back by one
      by_cases hbefore : w < chooseWay c addr dir
      · refine ⟨w + 1, by omega, by simp, ?_⟩
        rw [rotate, if_neg (by omega), if_pos (by omega), Nat.add_sub_cancel]
      · refine ⟨w, hw, fun heq => ?_, ?_⟩
        · have hzero := (Prod.mk.inj heq).2
          omega
        · rw [rotate, if_neg (by omega), if_neg (by omega)]
    · refine ⟨w, hw, fun heq => hi (Prod.mk.inj heq).1, ?_⟩
      rw [Function.update_of_ne hi]

/-- What a lookup of a block without an entry gives. -/
theorem lookup_of_absent (h : Absent c addr dir) (i : Fin n) (type : MemoryMessageType) :
    ∃ dir₁ place, lookup c i addr type dir = (write place (.new addr) dir₁, .empty, .ZeroSharers, place,
        [fun dir => ((entryAt dir place).theAddress, (entryAt dir place).theSharers)]) ∧
      ∀ i w, w < c.theAssociativity → dir i w ≠ chosen c addr dir →
        ∃ v, v < c.theAssociativity ∧ (i, v) ≠ place ∧ dir₁ i v = dir i w := by
  obtain ⟨hentry, hothers⟩ := findOrCreateEntry_spec h (!type.isEvictType)
  refine ⟨_, (findOrCreateEntry c addr (!type.isEvictType) dir).2, ?_, hothers⟩
  unfold lookup
  dsimp only
  have hne : (chosen c addr dir).theAddress ≠ addr := h _ (chooseWay_lt h)
  rw [hentry, if_pos hne]
  simp only [entryAt_write]
  rfl

/-- The answer to a request changes the entry in one place. -/
theorem respond_frame {i : Fin n} {request response : MemoryMessageType} {a : Nat}
    (h : (operations n).processRequestResponse i request response place a dir = some dir')
    {q : Nat × Nat} (hq : q ≠ place) : entryAt dir' q = entryAt dir q := by
  have hexclusive : ∀ e : BlockDirectoryEntry n, ((e.makeExclusive i).bind fun e => some (write place e dir)) =
      some dir' → entryAt dir' q = entryAt dir q := by
    intro e he
    obtain ⟨e', -, hwrite⟩ := Option.bind_eq_some_iff.mp he
    obtain rfl := Option.some.inj hwrite
    exact entryAt_write_of_ne hq
  unfold SharerOperations.processRequestResponse at h
  split at h
  · obtain rfl := Option.some.inj h
    exact entryAt_write_of_ne hq
  · obtain rfl := Option.some.inj h
    exact entryAt_write_of_ne hq
  · obtain rfl := Option.some.inj h
    exact entryAt_write_of_ne hq
  · split at h
    · exact hexclusive _ h
    · cases h
  · split at h
    · obtain rfl := Option.some.inj h
      exact entryAt_write_of_ne hq
    · obtain rfl := Option.some.inj h
      exact entryAt_write_of_ne hq
    · exact hexclusive _ h
    · exact hexclusive _ h
    · obtain rfl := Option.some.inj h
      rfl
    · cases h

/-! ## A request that displaces an entry -/

section Requests

variable {size : Nat} {A : AbstractCache size} {Above : Type} (cfg : Config) {ports : SnoopPorts Above}
  {i : Fin n} {type reply : MemoryMessageType} {address : Nat}
  {s s' : Node (StandardDirectory n c) A Above}

/-- What is to happen to a displaced entry: its sharers, and no others, are sent an
    `Invalidate` for its block, and the entries of all other blocks are kept. -/
structure Invalidated (displaced : BlockDirectoryEntry n) (addr : Nat)
    (s s' : Node (StandardDirectory n c) A Above) (new : List Snoop) : Prop where
  sent : s'.snoops = s.snoops ++ new
  sharers : ∀ j, displaced.theSharers.isSharer j = true → ∃ m ∈ new,
    m.type = .Invalidate ∧ m.address = displaced.theAddress ∧ m.port ∈ invalidatePorts cfg j
  others : ∀ m ∈ new, m.type = .Invalidate → m.address = displaced.theAddress →
    ∃ j, displaced.theSharers.isSharer j = true ∧ m.port ∈ invalidatePorts cfg j
  kept : ∀ i w, w < c.theAssociativity → (s.theDirectory i w).theAddress ≠ displaced.theAddress →
    (s.theDirectory i w).theAddress ≠ addr →
    ∃ v, v < c.theAssociativity ∧ s'.theDirectory i v = s.theDirectory i w

/-- Without sharers there is nobody to snoop. -/
theorem snoopSharers_empty {action : PrimaryAction} {a b : Nat} {place : Nat × Nat} :
    snoopSharers cfg ports action i a b .empty place s = some
      ({ response := NoRequest, our_response := action.response.1, use_ns1 := false },
        decide (action.snoop_type ≠ NoRequest) && action.isTerminal NoRequest, s) := by
  have hempty : (SharingVector.empty : SharingVector n).toList = [] := by
    simp [SharingVector.toList, SharingVector.empty]
  unfold snoopSharers
  split
  · next h => simp [h]
  · next h => simp [h, hempty, sendSnoops]

theorem updateCache_snoops {action : PrimaryAction} {nstate : nFastCache.CoherenceState_t}
    {lookup : A.LookupResult} (h : updateCache action nstate lookup s = some s') :
    s'.snoops = s.snoops ∧ s'.theDirectory = s.theDirectory := by
  unfold updateCache at h
  dsimp only at h
  split at h
  · obtain rfl := Option.some.inj h
    exact ⟨rfl, rfl⟩
  · split at h
    · split at h
      · cases h
      · obtain rfl := Option.some.inj h
        exact ⟨rfl, rfl⟩
    · split at h
      · obtain rfl := Option.some.inj h
        exact ⟨rfl, rfl⟩
      · obtain rfl := Option.some.inj h
        exact ⟨rfl, rfl⟩

/-- An action that finds an entry without sharers in its place sends nothing. -/
theorem runActions_reset {place : Nat × Nat} (h : (entryAt s.theDirectory place).theSharers = .empty) :
    runActions cfg ports [fun dir => ((entryAt dir place).theAddress, (entryAt dir place).theSharers)] s =
      some s := by
  have hempty : (SharingVector.empty : SharingVector n).toList = [] := by
    simp [SharingVector.toList, SharingVector.empty]
  simp [runActions, invalidateBlock, h, hempty]

/-- A request for a block without an entry sends no snoop: its place has the entry of the new block.
    -/
theorem processRequest_displacing (h : Absent c (blockOf size address) s.theDirectory)
    (hrun : processRequest cfg ports i type address s = some (reply, s')) :
    s'.snoops = s.snoops ∧ ∀ i w, w < c.theAssociativity →
      s.theDirectory i w ≠ chosen c (blockOf size address) s.theDirectory →
      ∃ v, v < c.theAssociativity ∧ s'.theDirectory i v = s.theDirectory i w := by
  obtain ⟨dir₁, place, hlookup, hothers⟩ := lookup_of_absent h i type
  unfold processRequest at hrun
  simp only [hlookup, snoopSharers_empty, Option.bind_eq_bind, Option.bind_some] at hrun
  obtain ⟨action, -, hrun⟩ := Option.bind_eq_some_iff.mp hrun
  obtain ⟨s₂, hactions, hrun⟩ := Option.bind_eq_some_iff.mp hrun
  obtain ⟨dir, hrespond, hrun⟩ := Option.bind_eq_some_iff.mp hrun
  obtain ⟨s₃, hupdate, hrun⟩ := Option.bind_eq_some_iff.mp hrun
  obtain ⟨hsnoops, hdir⟩ := updateCache_snoops hupdate
  obtain rfl : s₃ = s' := by
    split at hrun
    · exact (Prod.mk.inj (Option.some.inj hrun)).2
    · cases hrun
  obtain ⟨hsnoops₂, hdir₂⟩ : s₂.snoops = s.snoops ∧
      s₂.theDirectory = write place (.new (blockOf size address)) dir₁ := by
    rw [runActions_reset] at hactions
    · obtain rfl := Option.some.inj hactions
      split <;> exact ⟨rfl, rfl⟩
    · split <;> exact congrArg BlockDirectoryEntry.theSharers entryAt_write
  refine ⟨hsnoops.trans hsnoops₂, fun j w hw hne => ?_⟩
  obtain ⟨v, hv, hplace, hentry⟩ := hothers j w hw hne
  refine ⟨v, hv, ?_⟩
  have hframe := respond_frame hrespond hplace
  rw [hdir₂, entryAt_write_of_ne hplace] at hframe
  rw [hdir]
  exact hframe.trans hentry

/-- If no snoop was sent although the displaced entry had a sharer, the sharer was missed. -/
theorem not_invalidated {displaced : BlockDirectoryEntry n} {addr : Nat} {j : Fin n}
    (hsnoops : s'.snoops = s.snoops) (hsharer : displaced.theSharers.isSharer j = true) :
    ¬∃ new, Invalidated cfg displaced addr s s' new := by
  rintro ⟨new, hinvalidated⟩
  have hnew : new = [] := by
    have hsent := hinvalidated.sent
    rw [hsnoops] at hsent
    exact List.self_eq_append_right.mp hsent
  obtain ⟨m, hm, -⟩ := hinvalidated.sharers j hsharer
  rw [hnew] at hm
  cases hm

end Requests

/-! ## A directory with room for one block -/

def oneEntry : StandardConfig where
  theNumSets := 1
  theAssociativity := 1
  theSkewSet := false
  theSpecialInterleaving := false
  theSetShift := 6
  theSkewShift := 34
  theReplPolicy := .LRURepl
  associativity_pos := by decide

/-- Sixteen blocks of 64 bytes in sets of two. -/
def sixteenBlocks : AbstractCache 64 :=
  nFastCache.StdCache.array { theNumSets := 8, theAssoc := 2, theBlockSize := 64, assoc_pos := Nat.two_pos }

/-- Two caches, with nothing in any of the arrays. -/
def oneEntryStart : Node (StandardDirectory 2 oneEntry) sixteenBlocks Unit where
  theDirectory := fun _ _ => .new 0
  theCache := sixteenBlocks.empty
  above := ()
  snoops := []
  requests := []

/-- A request of one of the two caches; the answers to snoops do not matter. -/
def oneEntryRead (i : Fin 2) (address : Nat) (s : Node (StandardDirectory 2 oneEntry) sixteenBlocks Unit) :
    Option (MemoryMessageType × Node (StandardDirectory 2 oneEntry) sixteenBlocks Unit) :=
  processRequest { SeparateID := false, AlwaysMulticast := false } (fun _ type _ above => some (type, above))
    i .ReadReq address s

end StandardDirectory

end nFastCMPCache
