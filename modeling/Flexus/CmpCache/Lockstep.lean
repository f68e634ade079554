import Flexus.CmpCache.LimitedDirectory

/-!
# Limited and exact sharers in lockstep

The same operations applied to a limited directory state and to an exact one.
-/

namespace nCMPCache

open Bitset LimitedDirectoryState

/-- The two states of one directory entry. -/
structure Lockstep where
  limited : LimitedDirectoryState
  exact : SimpleDirectoryState
  deriving DecidableEq, Repr

/-- The operations; the other operand of the last two is another entry. -/
inductive SharerOp where
  | addSharer (sharer : Int)
  | removeSharer (sharer : Int)
  | setSharer (sharer : Int)
  | reset
  | resize (numSharers : Nat)
  | assignBits (v : BitVec 64)
  | orBits (v : BitVec 64)
  | assignState (a : SimpleDirectoryState)
  | assign (other : Nat)
  | andState (other : Nat)
  deriving DecidableEq, Repr

/-- A new entry, or an operation on an entry there is. -/
inductive SharerEvent where
  | create (aNumSharers : Nat) (aNumPointers aGranularity : Int)
  | apply (entry : Nat) (op : SharerOp)
  deriving DecidableEq, Repr

namespace Lockstep

/-- The assertions of the exact state are about the index of the sharer. -/
def exactly (x : Except Fault SimpleDirectoryState) : Except SharerFault SimpleDirectoryState :=
  x.mapError fun _ => .bitOutOfRange

def apply (entries : List Lockstep) (p : Lockstep) : SharerOp → Except SharerFault Lockstep
  | .addSharer n => return { limited := ← p.limited.addSharer n, exact := ← exactly (p.exact.addSharer n) }
  | .removeSharer n =>
    return { limited := ← p.limited.removeSharer n, exact := ← exactly (p.exact.removeSharer n) }
  | .setSharer n => return { limited := ← p.limited.setSharer n, exact := ← exactly (p.exact.setSharer n) }
  | .reset => .ok { limited := p.limited.reset, exact := p.exact.reset }
  | .resize n => .ok { limited := p.limited.resize n, exact := p.exact.resize n }
  | .assignBits v => return { limited := ← p.limited.assignBits v, exact := ← p.exact.assignBits v }
  | .orBits v => return { limited := ← p.limited.orBits v, exact := ← p.exact.orBits v }
  | .assignState a => return { limited := ← p.limited.assignState a, exact := a }
  | .assign other =>
    match entries[other]? with
    | some q => .ok q
    | none => .ok p
  | .andState other =>
    match entries[other]? with
    | some q =>
      return { limited := ← p.limited.andState q.limited, exact := ← p.exact.andState q.exact }
    | none => .ok p

def step (entries : List Lockstep) : SharerEvent → Except SharerFault (List Lockstep)
  | .create n pointers granularity => do
    let l ← LimitedDirectoryState.create n pointers granularity
    return entries ++ [{ limited := l, exact := .create n }]
  | .apply k op =>
    match entries[k]? with
    | some p => return entries.set k (← apply entries p op)
    | none => .ok entries

/-! ## The inputs and the condition -/

/-- The sharer is one of the entry's, and operands have as many sharers as the entry. -/
def OpInRange (entries : List Lockstep) (p : Lockstep) : SharerOp → Prop
  | .addSharer n | .removeSharer n | .setSharer n => 0 ≤ n ∧ n < p.exact.theSharers.length
  | .assignState a => a.theSharers.length = p.exact.theSharers.length
  | .andState other => ∀ q, entries[other]? = some q → q.exact.theSharers.length = p.exact.theSharers.length
  | _ => True

/-- What the operations may be called with: pointer counts the constructor accepts, any
    granularity, and sharers in range. -/
def InRange (entries : List Lockstep) : SharerEvent → Prop
  | .create _ pointers _ => 0 < pointers
  | .apply k op => ∀ p, entries[k]? = some p → OpInRange entries p op

/-- The sharers left by an assignment from the bits `f`. -/
def rewritten (p : Lockstep) (f : Nat → Bool → Bool) : List Bool :=
  (List.range p.limited.theSharers.length).map fun i => f i (test p.limited.theSharers i)

/-- The condition on an operation. Groups that have to be filled lie within the vector; the
    bits of an integer are assigned to an entry whose size was not changed by
    `reset(numSharers)`; two entries are intersected only while neither is coarse, or when
    they have more common sharers than there are pointers. -/
def OpSound (entries : List Lockstep) (p : Lockstep) : SharerOp → Prop
  | .addSharer n =>
    if p.limited.coarse_vector then
      test p.limited.theSharers n.toNat = false →
        0 < p.limited.theGranularity ∧
          GroupFits p.limited.theSharers.length p.limited.theGranularity.toNat n.toNat
    else p.limited.CanKeep (p.limited.theSharers.set n.toNat true)
  | .assignBits v =>
    p.limited.theNumSharers = p.limited.theSharers.length ∧
      p.limited.CanKeep (p.rewritten fun i _ => v.getLsbD i)
  | .orBits v =>
    p.limited.theNumSharers = p.limited.theSharers.length ∧
      p.limited.CanKeep (p.rewritten fun i old => old || v.getLsbD i)
  | .assignState a => p.limited.CanKeep a.theSharers
  | .andState other => ∀ q, entries[other]? = some q →
    p.limited.CanKeep (List.zipWith (· && ·) p.limited.theSharers q.limited.theSharers) ∧
      (p.limited.coarse_vector = false ∧ q.limited.coarse_vector = false ∨
        p.limited.theNumPointers <
          count (List.zipWith (· && ·) p.limited.theSharers q.limited.theSharers))
  | _ => True

def Sound (entries : List Lockstep) : SharerEvent → Prop
  | .create .. => True
  | .apply k op => ∀ p, entries[k]? = some p → OpSound entries p op

instance (entries : List Lockstep) (p : Lockstep) (op : SharerOp) : Decidable (OpInRange entries p op) := by
  cases op with
  | addSharer _ | removeSharer _ | setSharer _ => exact inferInstanceAs (Decidable (_ ∧ _))
  | assignState _ => exact inferInstanceAs (Decidable (_ = _))
  | andState other => exact inferInstanceAs (Decidable (∀ q ∈ entries[other]?, _))
  | _ => exact .isTrue trivial

instance (entries : List Lockstep) (e : SharerEvent) : Decidable (InRange entries e) := by
  cases e with
  | create _ _ _ => exact inferInstanceAs (Decidable (_ < _))
  | apply k _ => exact inferInstanceAs (Decidable (∀ p ∈ entries[k]?, _))

instance (entries : List Lockstep) (p : Lockstep) (op : SharerOp) : Decidable (OpSound entries p op) := by
  cases op with
  | addSharer _ => exact inferInstanceAs (Decidable (ite _ _ _))
  | assignBits _ | orBits _ => exact inferInstanceAs (Decidable (_ ∧ _))
  | assignState _ => exact inferInstanceAs (Decidable (CanKeep _ _))
  | andState other => exact inferInstanceAs (Decidable (∀ q ∈ entries[other]?, _))
  | _ => exact .isTrue trivial

instance (entries : List Lockstep) (e : SharerEvent) : Decidable (Sound entries e) := by
  cases e with
  | create _ _ _ => exact .isTrue trivial
  | apply k _ => exact inferInstanceAs (Decidable (∀ p ∈ entries[k]?, _))

/-! ## The invariant -/

/-- What the limited state is of the exact one. -/
structure OverApproximates (p : Lockstep) : Prop where
  covers : ∀ n, p.exact.isSharer n = true → p.limited.isSharer n = true
  precise : p.limited.coarse_vector = false → ∀ n, p.limited.isSharer n = p.exact.isSharer n
  few : p.limited.coarse_vector = false → (p.limited.countSharers : Int) ≤ p.limited.theNumPointers

/-- The invariant: the two vectors have one size, a coarse state has more sharers than
    pointers, and there is at least one pointer. -/
structure Agree (p : Lockstep) : Prop where
  pointers : 0 < p.limited.theNumPointers
  size : p.limited.theSharers.length = p.exact.theSharers.length
  covers : ∀ i, test p.exact.theSharers i = true → test p.limited.theSharers i = true
  precise : p.limited.coarse_vector = false → p.limited.theSharers = p.exact.theSharers
  few : p.limited.coarse_vector = false → (count p.limited.theSharers : Int) ≤ p.limited.theNumPointers
  many : p.limited.coarse_vector = true → p.limited.theNumPointers < count p.limited.theSharers

variable {entries : List Lockstep} {p q : Lockstep} {l : LimitedDirectoryState} {b c : List Bool}

theorem Agree.overApproximates (h : Agree p) : OverApproximates p where
  covers n hn := by
    simp only [SimpleDirectoryState.isSharer, Bool.and_eq_true, decide_eq_true_eq] at hn
    rw [isSharer, h.covers n.toNat hn.2, decide_eq_true hn.1, Bool.and_self]
  precise hcoarse n := by rw [isSharer, SimpleDirectoryState.isSharer, test, h.precise hcoarse]
  few := h.few

/-- A limited state that keeps sharers `b` agrees with exact sharers `c` within `b`, if the
    two are the same or there are more of `b` than pointers. -/
theorem Agree.of_keeps (hpointers : 0 < p.limited.theNumPointers) (hkeeps : Keeps p.limited b l)
    (hsize : b.length = c.length) (hcovers : ∀ i, test c i = true → test b i = true)
    (hsame : b = c ∨ p.limited.theNumPointers < count b) : Agree { limited := l, exact := ⟨c⟩ } where
  pointers := by rwa [hkeeps.numPointers]
  size := hkeeps.size.trans hsize
  covers i hi := hkeeps.covers i (hcovers i hi)
  precise hcoarse := by
    rcases hsame with hsame | hmany
    · exact (hkeeps.precise hcoarse).trans hsame
    · have := hkeeps.few hcoarse
      omega
  few hcoarse := by
    rw [hkeeps.numPointers, hkeeps.precise hcoarse]
    exact hkeeps.few hcoarse
  many hcoarse := by
    rw [hkeeps.numPointers]
    exact hkeeps.many hcoarse

/-! ## One operation -/

theorem set_spec {e : SimpleDirectoryState} {n : Int} {v : Bool} (h0 : 0 ≤ n) (h : n < e.theSharers.length) :
    exactly (e.set n v) = .ok ⟨e.theSharers.set n.toNat v⟩ := by
  have hlt : n.toNat < e.theSharers.length := by omega
  rw [SimpleDirectoryState.set, if_pos ⟨h0, hlt⟩]
  rfl

theorem writeSharer_spec {n : Int} {v : Bool} (h0 : 0 ≤ n) (h : n < b.length) :
    writeSharer b n v = .ok (b.set n.toNat v) := by
  rw [writeSharer, if_pos h0, write_eq_ok (by omega)]

/-- A new sharer, for a state of either kind. -/
theorem addSharer_agrees {n : Int} (h : Agree p) (h0 : 0 ≤ n) (hn : n < p.exact.theSharers.length)
    (hsound : OpSound entries p (.addSharer n)) :
    ∃ p', apply entries p (.addSharer n) = .ok p' ∧ Agree p' := by
  have hlimited : n < p.limited.theSharers.length := by
    rw [h.size]
    exact hn
  have hexact : exactly (p.exact.addSharer n) = .ok ⟨p.exact.theSharers.set n.toNat true⟩ := set_spec h0 hn
  suffices hlimits : ∃ l, p.limited.addSharer n = .ok l ∧
      Agree { limited := l, exact := ⟨p.exact.theSharers.set n.toNat true⟩ } by
    obtain ⟨l, hl, hagree⟩ := hlimits
    refine ⟨_, ?_, hagree⟩
    rw [apply, hl, hexact]
    rfl
  rw [addSharer, if_neg (not_not.mpr hlimited)]
  cases hcoarse : p.limited.coarse_vector with
  | false =>
    have hsame := h.precise hcoarse
    simp only [OpSound, hcoarse, Bool.false_eq_true, if_false] at hsound
    simp only [Bool.not_false, if_true, writeSharer_spec h0 hlimited, bind, Except.bind]
    split
    case isTrue hmany =>
      obtain ⟨l, hl, hkeeps⟩ := coarsen_keeps (s := { p.limited with
        theSharers := p.limited.theSharers.set n.toNat true, coarse_vector := false }) rfl
        ⟨(hsound hmany).1, by simpa using (hsound hmany).2⟩ hmany
      refine ⟨l, hl, .of_keeps h.pointers ⟨hkeeps.1, hkeeps.2, hkeeps.3, hkeeps.4, hkeeps.5, hkeeps.6⟩
        (by simp [h.size]) ?_ (.inl (by rw [hsame]))⟩
      rw [hsame]
      exact fun _ hi => hi
    case isFalse hfew =>
      refine ⟨_, rfl, ?_⟩
      exact { pointers := h.pointers, size := by simp [h.size], covers := by simp [hsame]
              precise := fun _ => by simp [hsame], few := fun _ => by simpa [countSharers] using hfew
              many := nofun }
  | true =>
    simp only [OpSound, hcoarse, if_true] at hsound
    simp only [Bool.not_true, Bool.false_eq_true, if_false, if_neg (show ¬ n < 0 by omega)]
    have hcovers : ∀ {d : List Bool}, (∀ i, test p.limited.theSharers i = true → test d i = true) →
        test d n.toNat = true → ∀ i, test (p.exact.theSharers.set n.toNat true) i = true → test d i = true := by
      intro d hgrow hself i hi
      rw [test_set] at hi
      split at hi
      · next heq => rwa [← heq.1]
      · exact hgrow i (h.covers i hi)
    cases hbit : test p.limited.theSharers n.toNat with
    | true =>
      refine ⟨p.limited, by simp, ?_⟩
      exact { pointers := h.pointers, size := by simp [h.size], covers := hcovers (fun _ hi => hi) hbit
              precise := by simp [hcoarse], few := by simp [hcoarse], many := h.many }
    | false =>
      obtain ⟨hG, hfits⟩ := hsound hbit
      obtain ⟨d, hd, hlength, hgrow, hself⟩ := setGroup_spec hG hfits
      refine ⟨{ p.limited with theSharers := d }, by simp [hd, hcoarse, bind, Except.bind, pure, Except.pure], ?_⟩
      have hmore := count_mono hgrow
      have hmany := h.many hcoarse
      exact { pointers := h.pointers, size := by simp [h.size, hlength], covers := hcovers hgrow hself
              precise := by simp [hcoarse], few := by simp [hcoarse], many := fun _ => by simp only; omega }

/-- A sharer that leaves; a coarse state keeps it. -/
theorem removeSharer_agrees {n : Int} (h : Agree p) (h0 : 0 ≤ n) (hn : n < p.exact.theSharers.length) :
    ∃ p', apply entries p (.removeSharer n) = .ok p' ∧ Agree p' := by
  have hlimited : n < p.limited.theSharers.length := by
    rw [h.size]
    exact hn
  have hexact : exactly (p.exact.removeSharer n) = .ok ⟨p.exact.theSharers.set n.toNat false⟩ := set_spec h0 hn
  have hless : ∀ (d : List Bool) i, test (d.set n.toNat false) i = true → test d i = true := by
    intro d i hi
    rw [test_set] at hi
    split at hi
    · cases hi
    · exact hi
  cases hcoarse : p.limited.coarse_vector with
  | false =>
    have hsame := h.precise hcoarse
    have hfew := h.few hcoarse
    have hcount := count_mono (hless p.limited.theSharers)
    refine ⟨{ limited := { p.limited with theSharers := p.limited.theSharers.set n.toNat false }
              exact := ⟨p.exact.theSharers.set n.toNat false⟩ }, ?_, ?_⟩
    · simp [apply, hexact, removeSharer, hlimited, hcoarse, writeSharer_spec h0 hlimited, bind, Except.bind,
        pure, Except.pure]
    · exact { pointers := h.pointers, size := by simp [h.size], covers := by simp [hsame]
              precise := fun _ => by simp [hsame], few := fun _ => by simp only; omega
              many := by simp [hcoarse] }
  | true =>
    refine ⟨{ limited := p.limited, exact := ⟨p.exact.theSharers.set n.toNat false⟩ }, ?_, ?_⟩
    · rw [apply, hexact, removeSharer, if_neg (not_not.mpr hlimited), hcoarse]
      rfl
    · exact { pointers := h.pointers, size := by simp [h.size]
              covers := fun i hi => h.covers i (hless _ i hi)
              precise := by simp [hcoarse], few := by simp [hcoarse], many := h.many }

/-- An entry whose vector was cleared, or given another size. -/
theorem cleared_agrees (hpointers : 0 < l.theNumPointers) (n : Nat) :
    Agree { limited := { l with theSharers := List.replicate n false, coarse_vector := false }
            exact := .create n } where
  pointers := hpointers
  size := by simp [SimpleDirectoryState.create]
  covers := by simp [SimpleDirectoryState.create]
  precise _ := rfl
  few _ := by simpa [count, List.count_replicate] using hpointers.le
  many := nofun

/-- The one sharer an entry is set to fits into one pointer. -/
theorem setSharer_agrees {n : Int} (h : Agree p) (h0 : 0 ≤ n) (hn : n < p.exact.theSharers.length) :
    ∃ p', apply entries p (.setSharer n) = .ok p' ∧ Agree p' := by
  have hexact : exactly (p.exact.setSharer n) =
      .ok ⟨(List.replicate p.exact.theSharers.length false).set n.toNat true⟩ := by
    rw [SimpleDirectoryState.setSharer, set_spec h0 (by simpa [SimpleDirectoryState.create] using hn)]
    rfl
  have hlimited : p.limited.setSharer n = .ok { p.limited with
      theSharers := (List.replicate p.exact.theSharers.length false).set n.toNat true
      coarse_vector := false } := by
    rw [setSharer, h.size, writeSharer_spec h0 (by simpa using hn)]
    rfl
  refine ⟨_, by rw [apply, hlimited, hexact]; rfl, ?_⟩
  have hone : count ((List.replicate p.exact.theSharers.length false).set n.toNat true) ≤ 1 := by
    rw [← length_ones]
    have hsub : ones ((List.replicate p.exact.theSharers.length false).set n.toNat true) ⊆ [n.toNat] := by
      intro i hi
      have hi := mem_ones.mp hi
      rw [test_set] at hi
      split at hi
      · next heq => simp [heq.1]
      · simp at hi
    exact (nodup_ones.subperm hsub).length_le
  have := h.pointers
  exact { pointers := h.pointers, size := by simp, covers := fun _ hi => hi, precise := fun _ => rfl
          few := fun _ => by simp only; omega, many := nofun }

/-- Rewriting all the bits of a vector. -/
theorem rewrite_eq_ok {n : Nat} {f : Nat → Bool → Bool} (hn : n = b.length) :
    rewrite SharerFault.bitOutOfRange b n f = .ok ((List.range b.length).map fun i => f i (test b i)) := by
  subst hn
  obtain ⟨c, hc, hlength, hbits⟩ := rewrite_spec SharerFault.bitOutOfRange (f := f) (le_refl b.length)
  rw [hc]
  congr 1
  refine ext (by simp [hlength]) fun i => ?_
  rw [hbits]
  by_cases hi : i < b.length
  · simp [hi, test, List.getD_eq_getElem?_getD]
  · simp [hi, test, List.getD_eq_getElem?_getD]

/-- The bits of an integer, or its bits besides the sharers there are. -/
theorem rewritten_agrees {f : Nat → Bool → Bool} (h : Agree p)
    (hmono : ∀ i b c, (b = true → c = true) → f i b = true → f i c = true)
    (hkeep : p.limited.CanKeep (p.rewritten f))
    (hgrows : (∀ i b c, f i b = f i c) ∨ ∀ i b, b = true → f i b = true) :
    ∃ l, settle { p.limited with theSharers := p.rewritten f } = .ok l ∧
      Agree { limited := l, exact := ⟨(List.range p.exact.theSharers.length).map fun i =>
        f i (test p.exact.theSharers i)⟩ } := by
  have hlength : (p.rewritten f).length = p.limited.theSharers.length := by simp [rewritten]
  have hbit : ∀ (d : List Bool) i, test ((List.range d.length).map fun i => f i (test d i)) i =
      (decide (i < d.length) && f i (test d i)) := by
    intro d i
    by_cases hi : i < d.length <;> simp [test, List.getD_eq_getElem?_getD, hi]
  obtain ⟨l, hl, hkeeps⟩ := settle_keeps (s := { p.limited with theSharers := p.rewritten f }) (by
    intro hmany
    obtain ⟨hG, hfits⟩ := hkeep hmany
    exact ⟨hG, by simpa [hlength] using hfits⟩)
  refine ⟨l, hl, .of_keeps h.pointers ⟨hkeeps.1, hkeeps.2, hkeeps.3, hkeeps.4, hkeeps.5, hkeeps.6⟩
    (by simp [hlength, h.size]) ?_ ?_⟩
  · intro i hi
    rw [hbit, Bool.and_eq_true, decide_eq_true_eq] at hi
    rw [rewritten, hbit, Bool.and_eq_true, decide_eq_true_eq, h.size]
    exact ⟨hi.1, hmono i _ _ (h.covers i) hi.2⟩
  · cases hcoarse : p.limited.coarse_vector with
    | false =>
      left
      rw [rewritten, h.precise hcoarse]
    | true =>
      rcases hgrows with hconst | hgrows
      · left
        rw [rewritten, h.size]
        exact List.map_congr_left fun i _ => hconst i _ _
      · right
        have hmany := h.many hcoarse
        have hmore : count p.limited.theSharers ≤ count (p.rewritten f) := by
          refine count_mono fun i hi => ?_
          rw [rewritten, hbit, Bool.and_eq_true, decide_eq_true_eq]
          exact ⟨lt_of_test hi, hgrows i _ hi⟩
        simp only
        omega

theorem assignBits_agrees {v : BitVec 64} (h : Agree p) (hsound : OpSound entries p (.assignBits v)) :
    ∃ p', apply entries p (.assignBits v) = .ok p' ∧ Agree p' := by
  obtain ⟨l, hl, hagree⟩ := rewritten_agrees (f := fun i _ => v.getLsbD i) h (fun _ _ _ _ hi => hi) hsound.2
    (.inl fun _ _ _ => rfl)
  refine ⟨_, ?_, hagree⟩
  rw [apply, assignBits, SimpleDirectoryState.assignBits, rewrite_eq_ok hsound.1, rewrite_eq_ok rfl]
  simp only [bind, Except.bind]
  rw [rewritten] at hl
  rw [hl]
  rfl

theorem orBits_agrees {v : BitVec 64} (h : Agree p) (hsound : OpSound entries p (.orBits v)) :
    ∃ p', apply entries p (.orBits v) = .ok p' ∧ Agree p' := by
  obtain ⟨l, hl, hagree⟩ := rewritten_agrees h (fun i b c hbc hi => by
    rw [Bool.or_eq_true] at hi ⊢
    exact hi.imp hbc fun hv => hv) hsound.2 (.inr fun i b hb => by rw [hb, Bool.true_or])
  refine ⟨_, ?_, hagree⟩
  rw [apply, orBits, SimpleDirectoryState.orBits, rewrite_eq_ok hsound.1, rewrite_eq_ok rfl]
  simp only [bind, Except.bind]
  rw [rewritten] at hl
  rw [hl]
  rfl

theorem assignState_agrees {a : SimpleDirectoryState} (h : Agree p)
    (hsize : a.theSharers.length = p.exact.theSharers.length)
    (hsound : OpSound entries p (.assignState a)) :
    ∃ p', apply entries p (.assignState a) = .ok p' ∧ Agree p' := by
  suffices hlimits : ∃ l, p.limited.assignState a = .ok l ∧ Keeps p.limited a.theSharers l by
    obtain ⟨l, hl, hkeeps⟩ := hlimits
    refine ⟨{ limited := l, exact := a }, ?_,
      .of_keeps h.pointers hkeeps rfl (fun _ hi => hi) (.inl rfl)⟩
    rw [apply, hl]
    rfl
  rw [assignState]
  split
  case isTrue hmany => exact coarsen_keeps (hsize.trans h.size.symm) (hsound hmany) hmany
  case isFalse hfew =>
    exact ⟨_, rfl, { numPointers := rfl, size := rfl, covers := fun _ hi => hi, precise := fun _ => rfl
                     few := fun _ => by omega, many := nofun }⟩

/-- The common sharers of two entries. -/
theorem andState_agrees {other : Nat} (h : Agree p) (hq : Agree q) (hother : entries[other]? = some q)
    (hsize : q.exact.theSharers.length = p.exact.theSharers.length)
    (hsound : OpSound entries p (.andState other)) :
    ∃ p', apply entries p (.andState other) = .ok p' ∧ Agree p' := by
  obtain ⟨hkeep, hprecise⟩ := hsound q hother
  have hlength : p.limited.theSharers.length = q.limited.theSharers.length := by rw [h.size, hq.size, hsize]
  have hbit : ∀ (d e : List Bool), d.length = e.length →
      ∀ i, test (List.zipWith (· && ·) d e) i = (test d i && test e i) := by
    intro d e hde i
    by_cases hi : i < d.length
    · simp [test, List.getD_eq_getElem?_getD, hi, hde ▸ hi]
    · rw [test_of_le (by simp; omega), test_of_le (b := d) (by omega), Bool.false_and]
  obtain ⟨l, hl, hkeeps⟩ := settle_keeps (s := { p.limited with
      theSharers := List.zipWith (· && ·) p.limited.theSharers q.limited.theSharers }) (by
    intro hmany
    obtain ⟨hG, hfits⟩ := hkeep hmany
    exact ⟨hG, by simpa [hlength] using hfits⟩)
  refine ⟨{ limited := l, exact := ⟨List.zipWith (· && ·) p.exact.theSharers q.exact.theSharers⟩ }, ?_,
    .of_keeps h.pointers ⟨hkeeps.1, hkeeps.2, hkeeps.3, hkeeps.4, hkeeps.5, hkeeps.6⟩ ?_ ?_ ?_⟩
  · simp only [apply, hother, andState, if_pos hlength, hl, SimpleDirectoryState.andState, if_pos hsize.symm]
    rfl
  · simp [h.size, hq.size]
  · intro i hi
    rw [hbit _ _ hsize.symm, Bool.and_eq_true] at hi
    rw [hbit _ _ hlength, h.covers i hi.1, hq.covers i hi.2, Bool.and_self]
  · rcases hprecise with ⟨hp_precise, hq_precise⟩ | hmany
    · left
      rw [h.precise hp_precise, hq.precise hq_precise]
    · exact .inr hmany

/-- An operation in range that meets the condition is carried out, and the two states
    agree again. -/
theorem apply_agrees {op : SharerOp} (hall : ∀ q ∈ entries, Agree q) (h : Agree p)
    (hrange : OpInRange entries p op) (hsound : OpSound entries p op) :
    ∃ p', apply entries p op = .ok p' ∧ Agree p' := by
  cases op with
  | addSharer n => exact addSharer_agrees h hrange.1 hrange.2 hsound
  | removeSharer n => exact removeSharer_agrees h hrange.1 hrange.2
  | setSharer n => exact setSharer_agrees h hrange.1 hrange.2
  | reset =>
    refine ⟨_, rfl, ?_⟩
    rw [LimitedDirectoryState.reset, SimpleDirectoryState.reset, h.size]
    exact cleared_agrees h.pointers _
  | resize n => exact ⟨_, rfl, cleared_agrees h.pointers n⟩
  | assignBits v => exact assignBits_agrees h hsound
  | orBits v => exact orBits_agrees h hsound
  | assignState a => exact assignState_agrees h hrange hsound
  | assign other =>
    cases hother : entries[other]? with
    | none => exact ⟨p, by simp only [apply, hother], h⟩
    | some q => exact ⟨q, by simp only [apply, hother], hall q (List.mem_of_getElem? hother)⟩
  | andState other =>
    cases hother : entries[other]? with
    | none => exact ⟨p, by simp only [apply, hother], h⟩
    | some q => exact andState_agrees h (hall q (List.mem_of_getElem? hother)) hother (hrange q hother) hsound

/-! ## Runs -/

theorem step_agrees {e : SharerEvent} (hall : ∀ p ∈ entries, Agree p) (hrange : InRange entries e)
    (hsound : Sound entries e) : ∃ entries', step entries e = .ok entries' ∧ ∀ p ∈ entries', Agree p := by
  cases e with
  | create n pointers granularity =>
    refine ⟨_, by rw [step, LimitedDirectoryState.create, if_pos (show 0 < pointers from hrange)]; rfl, fun p hp => ?_⟩
    obtain hp | hp := List.mem_append.mp hp
    · exact hall p hp
    · rw [List.mem_singleton.mp hp]
      exact cleared_agrees (l := { theSharers := [], theNumSharers := n, theNumPointers := pointers
                                   theGranularity := granularity, coarse_vector := false }) hrange n
  | apply k op =>
    cases hk : entries[k]? with
    | none => exact ⟨entries, by simp only [step, hk], hall⟩
    | some p =>
      obtain ⟨p', hp', hagree⟩ := apply_agrees hall (hall p (List.mem_of_getElem? hk)) (hrange p hk) (hsound p hk)
      refine ⟨entries.set k p', by simp only [step, hk, hp']; rfl, fun q hq => ?_⟩
      obtain hq | rfl := List.mem_or_eq_of_mem_set hq
      · exact hall q hq
      · exact hagree

/-- In every run of operations in range that meet the condition, the limited state of every
    entry over-approximates the exact one, is the exact one within its pointers while it is
    not coarse, and the next such operation touches no bit outside the vector. -/
theorem limited_overApproximates
    (h : Runs.Reaches step (fun es e => InRange es e ∧ Sound es e) [] entries) :
    (∀ p ∈ entries, OverApproximates p) ∧
      ∀ e, InRange entries e → Sound entries e → ∃ entries', step entries e = .ok entries' := by
  have hall : ∀ p ∈ entries, Agree p := by
    refine h.invariant (I := fun es => ∀ p ∈ es, Agree p) (by simp) fun es e es' hes hmeets hok => ?_
    obtain ⟨es'', hstep, hagree⟩ := step_agrees hes hmeets.1 hmeets.2
    rw [hok] at hstep
    cases hstep
    exact hagree
  refine ⟨fun p hp => (hall p hp).overApproximates, fun e hrange hsound => ?_⟩
  obtain ⟨entries', hstep, -⟩ := step_agrees hall hrange hsound
  exact ⟨entries', hstep⟩

/-- Four sharers, one pointer and groups of two: the second sharer makes the state coarse. -/
theorem limited_overApproximates_twoGroups : ∃ entries,
    Runs.Reaches step (fun es e => InRange es e ∧ Sound es e) [] entries ∧
      (∀ p ∈ entries, OverApproximates p) ∧ ∃ p ∈ entries, p.limited.coarse_vector = true := by
  have hrun : (Runs.runWhile step (fun es e => decide (InRange es e ∧ Sound es e)) []
      [.create 4 1 2, .apply 0 (.addSharer 0), .apply 0 (.addSharer 2)]).any
      (fun es => es.any fun p => p.limited.coarse_vector) = true := by decide
  obtain ⟨entries, hreach, hcoarse⟩ := Runs.exists_reaches (fun _ _ h => of_decide_eq_true h) hrun
  exact ⟨entries, hreach, (limited_overApproximates hreach).1, by simpa using hcoarse⟩

/-- Three sharers in groups of two: the group of the last one sticks out of the vector. And
    an intersection with a coarse state leaves sharers that are not exact ones, in a state
    that is not coarse. -/
theorem limited_not_overApproximates :
    (∃ entries, Runs.Reaches step InRange [] entries ∧ InRange entries (.apply 0 (.addSharer 2)) ∧
      step entries (.apply 0 (.addSharer 2)) = .error .bitOutOfRange) ∧
    ∃ entries, Runs.Reaches step InRange [] entries ∧ ¬ ∀ p ∈ entries, OverApproximates p := by
  constructor
  · have hrun : (Runs.runWhile step (fun es e => decide (InRange es e)) []
        [.create 3 1 2, .apply 0 (.addSharer 0)]).any
        (fun es => decide (InRange es (.apply 0 (.addSharer 2))) &&
          decide (step es (.apply 0 (.addSharer 2)) = .error .bitOutOfRange)) = true := by decide
    obtain ⟨entries, hreach, hend⟩ := Runs.exists_reaches (fun _ _ h => of_decide_eq_true h) hrun
    simp only [Bool.and_eq_true, decide_eq_true_eq] at hend
    exact ⟨entries, hreach, hend⟩
  · have hrun : (Runs.runWhile step (fun es e => decide (InRange es e)) []
        [.create 4 1 2, .apply 0 (.addSharer 0), .apply 0 (.addSharer 2), .create 4 1 2,
          .apply 1 (.addSharer 1), .apply 0 (.andState 1)]).any
        (fun es => es.any fun p =>
          !p.limited.coarse_vector && p.limited.isSharer 1 && !p.exact.isSharer 1) = true := by decide
    obtain ⟨entries, hreach, hend⟩ := Runs.exists_reaches (fun _ _ h => of_decide_eq_true h) hrun
    refine ⟨entries, hreach, fun hall => ?_⟩
    simp only [List.any_eq_true, Bool.and_eq_true, Bool.not_eq_true'] at hend
    obtain ⟨p, hp, ⟨hcoarse, hlimited⟩, hexact⟩ := hend
    have hsame := (hall p hp).precise hcoarse 1
    rw [hlimited, hexact] at hsame
    cases hsame

end Lockstep

end nCMPCache
