import Flexus.CmpCache.Directory
import Flexus.Lib.Bitset

/-!
# The limited-pointer directory state

A directory entry that keeps up to so many sharers exactly, and turns into a vector of
whole groups of sharers when there are more. It runs next to the exact directory state,
of which it is meant to be an over-approximation.
-/

namespace nCMPCache

open Bitset

/-- The accesses past the end of a bitset, and the assertions and divisions that stop the
    simulator. -/
inductive SharerFault where
  | bitOutOfRange
  | sizesDiffer
  | divisionByZero
  | noPointers
  deriving DecidableEq, Repr

namespace SimpleDirectoryState

def reset (s : SimpleDirectoryState) : SimpleDirectoryState := create s.theSharers.length

/-- `reset(numSharers)`: the bitset gets a new size, and the number of sharers with it. -/
def resize (_s : SimpleDirectoryState) (numSharers : Nat) : SimpleDirectoryState := create numSharers

/-- `operator=(uint64_t)`. -/
def assignBits (s : SimpleDirectoryState) (v : BitVec 64) : Except SharerFault SimpleDirectoryState :=
  .mk <$> rewrite .bitOutOfRange s.theSharers s.theSharers.length fun i _ => v.getLsbD i

/-- `operator|=(uint64_t)`. -/
def orBits (s : SimpleDirectoryState) (v : BitVec 64) : Except SharerFault SimpleDirectoryState :=
  .mk <$> rewrite .bitOutOfRange s.theSharers s.theSharers.length fun i b => b || v.getLsbD i

/-- `operator&=(SimpleDirectoryState &)`. -/
def andState (s a : SimpleDirectoryState) : Except SharerFault SimpleDirectoryState :=
  if s.theSharers.length = a.theSharers.length then .ok ⟨List.zipWith (· && ·) s.theSharers a.theSharers⟩
  else .error .sizesDiffer

end SimpleDirectoryState

structure LimitedDirectoryState where
  theSharers : List Bool
  theNumSharers : Nat
  theNumPointers : Int
  theGranularity : Int
  coarse_vector : Bool
  deriving DecidableEq, Repr

namespace LimitedDirectoryState

def create (aNumSharers : Nat) (aNumPointers aGranularity : Int) : Except SharerFault LimitedDirectoryState :=
  if 0 < aNumPointers then
    .ok { theSharers := List.replicate aNumSharers false, theNumSharers := aNumSharers
          theNumPointers := aNumPointers, theGranularity := aGranularity, coarse_vector := false }
  else .error .noPointers

def isSharer (s : LimitedDirectoryState) (sharer : Int) : Bool :=
  0 ≤ sharer && test s.theSharers sharer.toNat

def countSharers (s : LimitedDirectoryState) : Nat := count s.theSharers

/-- Set the bits of the group a sharer belongs to. A granularity below zero runs the loop
    over the group no times. -/
def setGroup (s : LimitedDirectoryState) (b : List Bool) (n : Nat) : Except SharerFault (List Bool) :=
  if s.theGranularity = 0 then .error .divisionByZero
  else fillGroup .bitOutOfRange b s.theGranularity.toNat n

/-- The loop that rebuilds the vector out of the groups of the given sharers. -/
def expand (s : LimitedDirectoryState) (l : List Nat) : Except SharerFault (List Bool) :=
  l.foldlM (fun b n =>
    if n < b.length then if test b n then .ok b else s.setGroup b n
    else .error .bitOutOfRange) (List.replicate s.theSharers.length false)

/-- The sharers no longer fit into the pointers: go over to groups. -/
def coarsen (s : LimitedDirectoryState) (l : List Nat) : Except SharerFault LimitedDirectoryState := do
  return { s with theSharers := ← s.expand l, coarse_vector := true }

/-- The tail of the assignments: groups when there are more sharers than pointers. -/
def settle (s : LimitedDirectoryState) : Except SharerFault LimitedDirectoryState :=
  if s.theNumPointers < s.countSharers then s.coarsen (ones s.theSharers)
  else .ok { s with coarse_vector := false }

/-- `theSharers.set(sharer, v)`; the index is converted to an unsigned one. -/
def writeSharer (b : List Bool) (sharer : Int) (v : Bool) : Except SharerFault (List Bool) :=
  if 0 ≤ sharer then write .bitOutOfRange b sharer.toNat v else .error .bitOutOfRange

def removeSharer (s : LimitedDirectoryState) (sharer : Int) : Except SharerFault LimitedDirectoryState :=
  if ¬ sharer < s.theSharers.length then .error .bitOutOfRange
  else if !s.coarse_vector then do
    return { s with theSharers := ← writeSharer s.theSharers sharer false }
  else .ok s

def addSharer (s : LimitedDirectoryState) (sharer : Int) : Except SharerFault LimitedDirectoryState :=
  if ¬ sharer < s.theSharers.length then .error .bitOutOfRange
  else if !s.coarse_vector then do
    let s' := { s with theSharers := ← writeSharer s.theSharers sharer true }
    if s'.theNumPointers < s'.countSharers then s'.coarsen (ones s'.theSharers) else .ok s'
  else if sharer < 0 then .error .bitOutOfRange
  else if !test s.theSharers sharer.toNat then do
    return { s with theSharers := ← s.setGroup s.theSharers sharer.toNat }
  else .ok s

def setSharer (s : LimitedDirectoryState) (sharer : Int) : Except SharerFault LimitedDirectoryState := do
  let b ← writeSharer (List.replicate s.theSharers.length false) sharer true
  return { s with theSharers := b, coarse_vector := false }

def reset (s : LimitedDirectoryState) : LimitedDirectoryState :=
  { s with theSharers := List.replicate s.theSharers.length false, coarse_vector := false }

/-- `reset(numSharers)`: the bitset gets a new size; `theNumSharers` keeps the old one. -/
def resize (s : LimitedDirectoryState) (numSharers : Nat) : LimitedDirectoryState :=
  { s with theSharers := List.replicate numSharers false, coarse_vector := false }

/-- `operator=(uint64_t)`. -/
def assignBits (s : LimitedDirectoryState) (v : BitVec 64) : Except SharerFault LimitedDirectoryState := do
  let b ← rewrite .bitOutOfRange s.theSharers s.theNumSharers fun i _ => v.getLsbD i
  settle { s with theSharers := b }

/-- `operator|=(uint64_t)`. -/
def orBits (s : LimitedDirectoryState) (v : BitVec 64) : Except SharerFault LimitedDirectoryState := do
  let b ← rewrite .bitOutOfRange s.theSharers s.theNumSharers fun i old => old || v.getLsbD i
  settle { s with theSharers := b }

/-- `operator=(SimpleDirectoryState &)`. -/
def assignState (s : LimitedDirectoryState) (a : SimpleDirectoryState) :
    Except SharerFault LimitedDirectoryState :=
  if s.theNumPointers < count a.theSharers then s.coarsen (ones a.theSharers)
  else .ok { s with theSharers := a.theSharers, coarse_vector := false }

/-- `operator&=(LimitedDirectoryState &)`. -/
def andState (s a : LimitedDirectoryState) : Except SharerFault LimitedDirectoryState :=
  if s.theSharers.length = a.theSharers.length then
    settle { s with theSharers := List.zipWith (· && ·) s.theSharers a.theSharers }
  else .error .sizesDiffer

/-! ## What the operations do -/

/-- Whole groups can stand for the sharers `b` without leaving the vector. -/
def GroupsFit (s : LimitedDirectoryState) (b : List Bool) : Prop :=
  0 < s.theGranularity ∧ ∀ n ∈ ones b, GroupFits s.theSharers.length s.theGranularity.toNat n

/-- The sharers `b` can be kept: in the pointers, or as groups. -/
def CanKeep (s : LimitedDirectoryState) (b : List Bool) : Prop := s.theNumPointers < count b → s.GroupsFit b

instance (s : LimitedDirectoryState) (b : List Bool) : Decidable (s.GroupsFit b) :=
  inferInstanceAs (Decidable (_ ∧ _))

instance (s : LimitedDirectoryState) (b : List Bool) : Decidable (s.CanKeep b) :=
  inferInstanceAs (Decidable (_ → _))

/-- The state `s'` keeps the sharers `b` with the parameters of `s`: exactly if it is not
    coarse, and then within the pointers. -/
structure Keeps (s : LimitedDirectoryState) (b : List Bool) (s' : LimitedDirectoryState) : Prop where
  numPointers : s'.theNumPointers = s.theNumPointers
  size : s'.theSharers.length = b.length
  covers : ∀ i, test b i = true → test s'.theSharers i = true
  precise : s'.coarse_vector = false → s'.theSharers = b
  few : s'.coarse_vector = false → (count b : Int) ≤ s.theNumPointers
  many : s'.coarse_vector = true → s.theNumPointers < count s'.theSharers

section Operations

variable {s a : LimitedDirectoryState} {b : List Bool} {n : Nat}

theorem setGroup_spec (hG : 0 < s.theGranularity) (hfits : GroupFits b.length s.theGranularity.toNat n) :
    ∃ c, s.setGroup b n = .ok c ∧ c.length = b.length ∧
      (∀ i, test b i = true → test c i = true) ∧ test c n = true := by
  obtain ⟨c, hc, hlength, hbits⟩ := fillGroup_spec SharerFault.bitOutOfRange (by omega) hfits
  refine ⟨c, ?_, hlength, ?_, ?_⟩
  · rw [setGroup, if_neg (by omega), hc]
  · intro i hi
    rw [hbits, hi, Bool.true_or]
  · rw [hbits, decide_eq_true rfl, Bool.or_true]

/-- Rebuilding the vector out of groups that fit keeps every sharer. -/
theorem expand_spec {l : List Nat} (hG : 0 < s.theGranularity)
    (hfits : ∀ n ∈ l, GroupFits s.theSharers.length s.theGranularity.toNat n) :
    ∃ c, s.expand l = .ok c ∧ c.length = s.theSharers.length ∧ ∀ n ∈ l, test c n = true := by
  induction l using List.reverseRecOn with
  | nil => exact ⟨_, rfl, by simp, by simp⟩
  | append_singleton l n ih =>
    obtain ⟨c, hc, hlength, hbits⟩ := ih fun m hm => hfits m (by simp [hm])
    have hn : GroupFits c.length s.theGranularity.toNat n := by
      rw [hlength]
      exact hfits n (by simp)
    have hlt : n < c.length := by
      have hmod := Nat.div_add_mod' n s.theGranularity.toNat
      have := Nat.mod_lt n (show 0 < s.theGranularity.toNat by omega)
      have : n / s.theGranularity.toNat * s.theGranularity.toNat + s.theGranularity.toNat ≤ c.length := hn
      omega
    have hexpand : s.expand (l ++ [n]) =
        if test c n = true then .ok c else s.setGroup c n := by
      rw [expand] at hc ⊢
      rw [List.foldlM_append, hc]
      simp only [List.foldlM_cons, List.foldlM_nil, bind, Except.bind, if_pos hlt]
      split <;> split <;> simp_all [pure, Except.pure]
    by_cases hset : test c n = true
    · refine ⟨c, by rw [hexpand, if_pos hset], hlength, fun m hm => ?_⟩
      obtain hm | hm := List.mem_append.mp hm
      · exact hbits m hm
      · rw [List.mem_singleton.mp hm]
        exact hset
    · obtain ⟨d, hd, hd_length, hgrow, hself⟩ := setGroup_spec hG hn
      refine ⟨d, by rw [hexpand, if_neg hset, hd], hd_length.trans hlength, fun m hm => ?_⟩
      obtain hm | hm := List.mem_append.mp hm
      · exact hgrow m (hbits m hm)
      · rw [List.mem_singleton.mp hm]
        exact hself

/-- Going over to groups when the sharers `b` do not fit into the pointers. -/
theorem coarsen_keeps (hsize : b.length = s.theSharers.length) (hfits : s.GroupsFit b)
    (hmany : s.theNumPointers < count b) : ∃ s', s.coarsen (ones b) = .ok s' ∧ Keeps s b s' := by
  obtain ⟨c, hc, hlength, hbits⟩ := expand_spec hfits.1 hfits.2
  have hcovers : ∀ i, test b i = true → test c i = true := fun i hi => hbits i (mem_ones.mpr hi)
  refine ⟨{ s with theSharers := c, coarse_vector := true }, ?_, ?_⟩
  · rw [coarsen, hc]
    rfl
  · have hgrow := count_mono hcovers
    exact { numPointers := rfl, size := hlength.trans hsize.symm, covers := hcovers
            precise := nofun, few := nofun, many := fun _ => by simp only; omega }

theorem settle_keeps (hfits : s.CanKeep s.theSharers) : ∃ s', s.settle = .ok s' ∧ Keeps s s.theSharers s' := by
  by_cases hmany : s.theNumPointers < s.countSharers
  · rw [settle, if_pos hmany]
    exact coarsen_keeps rfl (hfits hmany) hmany
  · rw [settle, if_neg hmany]
    exact ⟨_, rfl, { numPointers := rfl, size := rfl, covers := fun _ hi => hi, precise := fun _ => rfl
                     few := fun _ => by simpa [countSharers] using hmany, many := nofun }⟩

end Operations

end LimitedDirectoryState

end nCMPCache
