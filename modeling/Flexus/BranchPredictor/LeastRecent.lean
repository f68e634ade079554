import Flexus.BranchPredictor.Tables
import Flexus.Lib.Recency

/-!
# The branch target buffer forgets the least recent branch

Every set of the buffer holds the branches that were updated last among those of the set, in
the order of their last updates. The buffer answers as a bounded map for each set does.
-/

namespace SharedTypes

/-! ## The maps -/

/-- The types and targets of the branches of a set. -/
abbrev RecentBranches (theBTBAssoc : Nat) := Recency (BitVec 64) (eBranchType × BitVec 64) theBTBAssoc

structure BTBUpdate where
  aPC : BitVec 64
  aType : eBranchType
  aTarget : BitVec 64
  deriving DecidableEq, Repr

/-- What an update means: an address of no branch is forgotten, another one becomes the most
    recent, and a target of zero stands for the one that is known. -/
def recordBranch {n : Nat} (m : RecentBranches n) (u : BTBUpdate) : RecentBranches n :=
  if u.aType = .kNonBranch then m.remove u.aPC
  else
    m.touch u.aPC
      (u.aType, if u.aTarget ≠ 0 then u.aTarget else ((m.find u.aPC).map Prod.snd).getD 0)

/-- The set of an address, whose instructions are four bytes long. -/
def setNumber (aBTBSets : Nat) (aPC : BitVec 64) : Nat := aPC.toNat / 4 % aBTBSets

/-- An update of the map of its set. -/
def recordIn {n : Nat} (aBTBSets : Nat) (m : Nat → RecentBranches n) (u : BTBUpdate) :
    Nat → RecentBranches n :=
  Function.update m (setNumber aBTBSets u.aPC) (recordBranch (m (setNumber aBTBSets u.aPC)) u)

/-- The maps after a sequence of updates. -/
def recorded (aBTBSets aBTBAssoc : Nat) (us : List BTBUpdate) : Nat → RecentBranches aBTBAssoc :=
  us.foldl (recordIn aBTBSets) fun _ => .empty

/-! ## Sets -/

def BTBEntry.item (e : BTBEntry) : BitVec 64 × eBranchType × BitVec 64 :=
  (e.thePC, e.theBranchType, e.theTarget)

namespace btb_set_t

variable {n : Nat} {s : btb_set_t} {m : RecentBranches n} {u : BTBUpdate}

/-- The entries of a set are the items of a map. -/
def Shows (s : btb_set_t) (m : RecentBranches n) : Prop := s.entries.map BTBEntry.item = m.items

theorem Shows.keys (h : s.Shows m) : m.items.map Prod.fst = s.entries.map BTBEntry.thePC := by
  rw [← h, List.map_map]
  rfl

theorem Shows.find (h : s.Shows m) (aPC : BitVec 64) :
    m.find aPC = (s.find aPC).map fun e => (e.theBranchType, e.theTarget) := by
  have himage : ∀ e : BTBEntry, e.item.1 = e.thePC := fun _ => rfl
  rw [Recency.find, ← h, Keyed.lookup_map himage, Option.map_map]
  rfl

theorem Shows.erase (h : s.Shows m) (aPC : BitVec 64) :
    ((s.erase aPC).entries.map BTBEntry.item) = Keyed.erase Prod.fst aPC m.items := by
  have himage : ∀ e : BTBEntry, e.item.1 = e.thePC := fun _ => rfl
  rw [← h]
  exact Keyed.map_erase himage

/-- An update of a set is an update of its map. -/
theorem Shows.update (hn : 0 < n) (h : s.Shows m) :
    (s.update n u.aPC u.aType u.aTarget).2.Shows (recordBranch m u) := by
  have hfind := h.find u.aPC
  have hkeys := h.keys
  unfold btb_set_t.update recordBranch Shows
  cases hin : s.find u.aPC with
  | none =>
    have hfresh : u.aPC ∉ s.entries.map BTBEntry.thePC := Keyed.lookup_eq_none.mp hin
    have hnot : u.aPC ∉ m.items.map Prod.fst := by rwa [hkeys]
    rw [hin, Option.map_none] at hfind
    dsimp only
    split
    · -- nothing is known of the address
      exact h.trans (Recency.erase_of_not_mem hnot).symm
    · have htarget : (if u.aTarget ≠ 0 then u.aTarget else
          ((m.find u.aPC).map Prod.snd).getD 0) = u.aTarget := by
        rw [hfind]
        split
        · rfl
        · next hzero => exact (not_not.mp hzero).symm
      have hlength : m.items.length = s.entries.length := by rw [← h, List.length_map]
      rw [htarget, Recency.touch_of_not_mem hn hnot, hlength, push_back_entries]
      by_cases hfull : n ≤ s.entries.length
      · rw [if_pos hfull, if_pos hfull]
        have htail : u.aPC ∉ s.pop_front.entries.map BTBEntry.thePC := fun hmem =>
          hfresh (((List.tail_sublist _).map _).subset hmem)
        have hmapped : s.pop_front.entries.map BTBEntry.item = (s.entries.map BTBEntry.item).tail :=
          List.map_tail
        rw [if_neg htail, List.map_append, ← h, hmapped]
        rfl
      · rw [if_neg hfull, if_neg hfull, if_neg hfresh, List.map_append, ← h]
        rfl
  | some iter =>
    obtain ⟨hmem, hpc⟩ := Keyed.mem_of_lookup hin
    have hthere : u.aPC ∈ m.items.map Prod.fst := by
      rw [hkeys, ← hpc]
      exact List.mem_map_of_mem hmem
    rw [hin, Option.map_some] at hfind
    dsimp only
    split
    · exact h.erase u.aPC
    · have hgone : iter.thePC ∉ (s.erase u.aPC).entries.map BTBEntry.thePC := by
        rw [hpc, ← Keyed.lookup_eq_none]
        exact Keyed.lookup_erase.trans (if_pos rfl)
      rw [Recency.touch_of_mem hthere, Recency.moved, push_back_entries, if_neg hgone, List.map_append,
        h.erase, hfind]
      simp only [List.map_cons, List.map_nil, BTBEntry.item, hpc, Option.map_some, Option.getD_some]

end btb_set_t

/-! ## The buffer -/

/-- A size that passes the constructor's assertion is a power of two. -/
theorem exists_two_pow {n : Nat} (hpos : 0 < n) (hsize : (n - 1) &&& n = 0) : ∃ k, n = 2 ^ k := by
  have hlow : 2 ^ n.log2 ≤ n := Nat.log2_self_le (by omega)
  have hhigh : n < 2 ^ (n.log2 + 1) := Nat.lt_log2_self
  refine ⟨n.log2, ?_⟩
  by_contra hne
  have hbit : n.testBit n.log2 = true := Nat.testBit_of_two_pow_le_and_two_pow_add_one_gt hlow hhigh
  have hbit' : (n - 1).testBit n.log2 = true :=
    Nat.testBit_of_two_pow_le_and_two_pow_add_one_gt (by omega) (by omega)
  have hand : ((n - 1) &&& n).testBit n.log2 = true := by rw [Nat.testBit_and, hbit, hbit', Bool.and_self]
  rw [hsize, Nat.zero_testBit] at hand
  cases hand

namespace BTB

def updates (t : BTB) (us : List BTBUpdate) : BTB :=
  us.foldl (fun t u => (t.update u.aPC u.aType u.aTarget).2) t

variable {t : BTB} {n aBTBSets : Nat} {m : Nat → RecentBranches n} {u : BTBUpdate}

/-- The sets of a buffer are the maps, each with addresses of its own set. -/
structure Shows (t : BTB) (aBTBSets : Nat) (m : Nat → RecentBranches n) : Prop where
  assoc : t.theBTBAssoc.toNat = n
  number : ∀ aPC, (t.index aPC).val = setNumber aBTBSets aPC
  sets : ∀ (i : Nat) (s : btb_set_t), t.theBTB[i]? = some s → s.Shows (m i)
  placed : ∀ i, ∀ e ∈ (m i).items, setNumber aBTBSets e.1 = i

theorem Shows.theSet (h : t.Shows aBTBSets m) (aPC : BitVec 64) :
    (t.theSet aPC).Shows (m (setNumber aBTBSets aPC)) := by
  rw [← h.number]
  exact h.sets _ _ (List.getElem?_eq_getElem _)

/-- The items of an updated map were there, or are of the address. -/
theorem mem_recordBranch {m : RecentBranches n} {e : BitVec 64 × eBranchType × BitVec 64}
    (h : e ∈ (recordBranch m u).items) : e ∈ m.items ∨ e.1 = u.aPC := by
  unfold recordBranch at h
  split at h
  · exact .inl (List.mem_of_mem_filter h)
  · rcases List.mem_append.mp (List.mem_of_mem_drop h) with hold | hnew
    · exact .inl (List.mem_of_mem_filter hold)
    · rw [List.mem_singleton.mp hnew]
      exact .inr rfl

theorem Shows.update (hn : 0 < n) (h : t.Shows aBTBSets m) :
    (t.update u.aPC u.aType u.aTarget).2.Shows aBTBSets (recordIn aBTBSets m u) where
  assoc := h.assoc
  number := h.number
  sets := by
    intro i s hs
    have hset := (h.theSet u.aPC).update (u := u) hn
    unfold BTB.update at hs
    dsimp only at hs
    rw [List.getElem?_set, h.number, h.assoc] at hs
    unfold recordIn
    by_cases hi : setNumber aBTBSets u.aPC = i
    · rw [if_pos hi] at hs
      subst hi
      rw [Function.update_self]
      split at hs
      · cases hs
        exact hset
      · cases hs
    · rw [if_neg hi] at hs
      rw [Function.update_of_ne (Ne.symm hi)]
      exact h.sets i s hs
  placed := by
    intro i e he
    unfold recordIn at he
    by_cases hi : i = setNumber aBTBSets u.aPC
    · subst hi
      rw [Function.update_self] at he
      rcases mem_recordBranch he with hold | hnew
      · exact h.placed _ e hold
      · rw [hnew]
    · rw [Function.update_of_ne hi] at he
      exact h.placed i e he

theorem Shows.updates (hn : 0 < n) (h : t.Shows aBTBSets m) (us : List BTBUpdate) :
    (t.updates us).Shows aBTBSets (us.foldl (recordIn aBTBSets) m) := by
  induction us generalizing t m with
  | nil => exact h
  | cons u us ih => exact ih (h.update hn)

/-- A new buffer shows empty maps. The sizes are of type `int32_t`. -/
theorem shows_create {aBTBAssoc : Nat} (hsize : 0 < aBTBSets ∧ (aBTBSets - 1) &&& aBTBSets = 0)
    (hint : aBTBSets < 2 ^ 31 ∧ aBTBAssoc < 2 ^ 31) :
    (create aBTBSets aBTBAssoc hsize).Shows aBTBSets fun _ => (.empty : RecentBranches aBTBAssoc) where
  assoc := Nat.mod_eq_of_lt (by omega)
  number := by
    intro aPC
    obtain ⟨k, rfl⟩ := exists_two_pow hsize.1 hsize.2
    have hmask : (BitVec.ofNat 64 (2 ^ k - 1)).toNat = 2 ^ k - 1 := Nat.mod_eq_of_lt (by omega)
    have hindex : ((create (2 ^ k) aBTBAssoc hsize).index aPC).val =
        ((aPC >>> 2) &&& BitVec.ofNat 64 (2 ^ k - 1)).toNat := rfl
    rw [hindex, BitVec.toNat_and, hmask, Nat.and_two_pow_sub_one_eq_mod, BitVec.toNat_ushiftRight,
      Nat.shiftRight_eq_div_pow]
    rfl
  sets := by
    intro i s hs
    rw [List.eq_of_mem_replicate (List.mem_of_getElem? hs)]
    rfl
  placed := fun _ _ he => absurd he List.not_mem_nil

/-- After any updates of a new buffer no set is larger than the associativity, every set has
    branches of its own addresses only and each of them once, its sequence is that of the
    bounded map, and the buffer answers for every address as the map of its set does. -/
theorem recent_branches {aBTBAssoc : Nat} (hsize : 0 < aBTBSets ∧ (aBTBSets - 1) &&& aBTBSets = 0)
    (hassoc : 0 < aBTBAssoc) (hint : aBTBSets < 2 ^ 31 ∧ aBTBAssoc < 2 ^ 31) (us : List BTBUpdate) :
    let t := (create aBTBSets aBTBAssoc hsize).updates us
    let m := recorded aBTBSets aBTBAssoc us
    (∀ i : Fin t.theBTB.length, (t.theBTB.get i).entries.length ≤ aBTBAssoc ∧
      ((t.theBTB.get i).entries.map BTBEntry.thePC).Nodup ∧
      (∀ e ∈ (t.theBTB.get i).entries, t.index e.thePC = i) ∧
      (t.theBTB.get i).entries.map BTBEntry.item = (m i).items) ∧
    ∀ aPC, t.contains aPC = ((m (setNumber aBTBSets aPC)).find aPC).isSome ∧
      t.type aPC = (((m (setNumber aBTBSets aPC)).find aPC).map Prod.fst).getD .kNonBranch ∧
      t.target aPC = ((m (setNumber aBTBSets aPC)).find aPC).map Prod.snd := by
  intro t m
  have hshows : t.Shows aBTBSets m := (shows_create hsize hint).updates hassoc us
  constructor
  · intro i
    have hset : (t.theBTB.get i).entries.map BTBEntry.item = (m i).items :=
      hshows.sets i _ (List.getElem?_eq_getElem _)
    refine ⟨?_, (t.theBTB.get i).unique, ?_, hset⟩
    · have hbounded := (m i).bounded
      rwa [← hset, List.length_map] at hbounded
    · intro e he
      apply Fin.ext
      rw [hshows.number]
      apply hshows.placed i e.item
      rw [← hset]
      exact List.mem_map_of_mem he
  · intro aPC
    have hfind := (hshows.theSet aPC).find aPC
    rw [hfind]
    unfold contains type target
    cases (t.theSet aPC).find aPC with
    | none => exact ⟨rfl, rfl, rfl⟩
    | some iter => exact ⟨rfl, rfl, rfl⟩

/-- Three branches of one set with room for two: the one updated first is gone. -/
theorem recent_branches_three :
    ((create 2 2 (by decide)).updates
        [⟨0x1000, .kCall, 0x2000⟩, ⟨0x1008, .kConditional, 0x3000⟩, ⟨0x1000, .kCall, 0⟩,
          ⟨0x1010, .kReturn, 0x4000⟩]).target 0x1000 = some 0x2000 ∧
      ((create 2 2 (by decide)).updates
        [⟨0x1000, .kCall, 0x2000⟩, ⟨0x1008, .kConditional, 0x3000⟩, ⟨0x1000, .kCall, 0⟩,
          ⟨0x1010, .kReturn, 0x4000⟩]).contains 0x1008 = false := by
  have hsize : 0 < 2 ∧ (2 - 1) &&& 2 = 0 := by decide
  have hassoc : 0 < 2 := by decide
  have hall := (recent_branches hsize hassoc (by decide)
    [⟨0x1000, .kCall, 0x2000⟩, ⟨0x1008, .kConditional, 0x3000⟩, ⟨0x1000, .kCall, 0⟩,
      ⟨0x1010, .kReturn, 0x4000⟩]).2
  exact ⟨(hall 0x1000).2.2.trans (by decide), (hall 0x1008).1.trans (by decide)⟩

end BTB

end SharedTypes
