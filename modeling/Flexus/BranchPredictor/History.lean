import Flexus.BranchPredictor.Predictors
import Flexus.Lib.Runs

/-!
# The branch history after a wrong prediction

Branches are predicted one after the other and resolved in program order, with others on their
way in between.
-/

namespace SharedTypes

open Runs

/-! ## Histories -/

namespace gShare

variable {g : gShare} {h : BitVec 32} {aDirection : eDirection} {anAddress : BitVec 64}

/-- A history with a direction shifted in. -/
def shifted (g : gShare) (h : BitVec 32) (aDirection : eDirection) : BitVec 32 :=
  if aDirection.notTaken then ((h <<< 1) &&& g.thePatternMask) ||| 1 else (h <<< 1) &&& g.thePatternMask

/-- The history has the bits of the pattern mask only. -/
def Masked (g : gShare) (h : BitVec 32) : Prop := h &&& g.thePatternMask = h

/-- The low bit is one of the history, unless it has none. -/
theorem masked_shifted (hbit : g.thePatternMask &&& 1 = 1) : g.Masked (g.shifted h aDirection) := by
  have hand : ∀ x y : BitVec 32, (x &&& y) &&& y = x &&& y := by
    intro x y
    rw [BitVec.and_assoc, BitVec.and_self]
  unfold Masked shifted
  split
  · have hdistrib : ∀ x y z : BitVec 32, (x ||| y) &&& z = (x &&& z) ||| (y &&& z) := by
      intro x y z
      ext i hi
      simp only [BitVec.getElem_and, BitVec.getElem_or]
      exact Bool.and_or_distrib_right _ _ _
    rw [hdistrib, hand, BitVec.and_comm 1, hbit]
  · exact hand _ _

end gShare

/-! ## Branches on their way -/

/-- A predicted branch, with the history it was predicted with. -/
structure Predicted where
  thePC : BitVec 64
  theBPState : BPredState
  history : BitVec 32

/-- The predictor with the branches that are not resolved yet, oldest first. -/
structure Pipeline where
  predictor : Predictor
  outstanding : List Predicted

/-- The oldest branch is resolved, or leaves without feedback. A squash keeps the oldest ones.
    Feedback may also come for an address that was not predicted. -/
inductive PipelineEvent where
  | predict (anAddress : BitVec 64)
  | feedback (theActualType : eBranchType) (theActualDirection : eDirection) (theActualTarget : BitVec 64)
  | retire
  | squash (kept : Nat)
  | unpredicted (thePC : BitVec 64) (theActualType : eBranchType) (theActualDirection : eDirection)
      (theActualTarget : BitVec 64)

inductive PipelineFault where
  | nothingOutstanding
  deriving DecidableEq, Repr

namespace Predicted

def feedback (r : Predicted) (theActualType : eBranchType) (theActualDirection : eDirection)
    (theActualTarget : BitVec 64) : BranchFeedback :=
  ⟨r.thePC, theActualType, theActualDirection, theActualTarget, some r.theBPState⟩

/-- The history of these branches is written down when they are predicted. -/
def Noted (r : Predicted) : Prop :=
  r.theBPState.thePredictedType = .kConditional ∨ r.theBPState.thePredictedType = .kUnconditional ∨
    r.theBPState.thePredictedType = .kCall

/-- Feedback reports another direction than gshare predicted. -/
def WrongDirection (r : Predicted) (theActualType : eBranchType) (theActualDirection : eDirection) : Prop :=
  theActualType = .kConditional ∧ r.theBPState.theGSharePrediction.notTaken ≠ theActualDirection.notTaken

/-- Feedback reports another target of an unconditional branch than was predicted. -/
def WrongTarget (r : Predicted) (theActualType : eBranchType) (theActualTarget : BitVec 64) : Prop :=
  theActualType ≠ .kConditional ∧ theActualType ≠ .kNonBranch ∧
    r.theBPState.thePredictedTarget ≠ theActualTarget

end Predicted

namespace Pipeline

def start : Pipeline where
  predictor := CombiningImpl.create
  outstanding := []

def predict (st : Pipeline) (anAddress : BitVec 64) : Pipeline where
  predictor := (CombiningImpl.predict st.predictor anAddress).2
  outstanding := st.outstanding ++
    [⟨anAddress, (CombiningImpl.predict st.predictor anAddress).1, st.predictor.theGShare.theShiftReg⟩]

def step (st : Pipeline) : PipelineEvent → Except PipelineFault Pipeline
  | .predict anAddress => .ok (st.predict anAddress)
  | .feedback theActualType theActualDirection theActualTarget =>
    match st.outstanding with
    | [] => .error .nothingOutstanding
    | r :: rest =>
      .ok { predictor := CombiningImpl.feedback st.predictor
              (r.feedback theActualType theActualDirection theActualTarget)
            outstanding := rest }
  | .retire =>
    match st.outstanding with
    | [] => .error .nothingOutstanding
    | _ :: rest => .ok { st with outstanding := rest }
  | .squash kept => .ok { st with outstanding := st.outstanding.take kept }
  | .unpredicted thePC theActualType theActualDirection theActualTarget =>
    .ok { st with
      predictor := CombiningImpl.feedback st.predictor
        ⟨thePC, theActualType, theActualDirection, theActualTarget, none⟩ }

end Pipeline

/-! ## What a step keeps of the history -/

namespace gShare

variable {g g' : gShare}

/-- The mask stays, and so does a history within it. -/
structure Keeps (g g' : gShare) : Prop where
  mask : g'.thePatternMask = g.thePatternMask
  masked : g.Masked g.theShiftReg → g'.Masked g'.theShiftReg

theorem keeps_refl (g : gShare) : g.Keeps g := ⟨rfl, id⟩

theorem keeps_shiftIn {aDirection : eDirection} (hbit : g.thePatternMask &&& 1 = 1) :
    g.Keeps (g.shiftIn aDirection) := ⟨rfl, fun _ => masked_shifted hbit⟩

theorem keeps_setShiftReg {h : BitVec 32} : g.Keeps (g.setShiftReg h) := by
  refine ⟨rfl, fun _ => ?_⟩
  change (h &&& g.thePatternMask) &&& g.thePatternMask = h &&& g.thePatternMask
  rw [BitVec.and_assoc, BitVec.and_self]

end gShare

theorem keeps_learn {t : Tables} {aPC : BitVec 64} {aDirection : eDirection} {s : BPredState}
    (hbit : t.theGShare.thePatternMask &&& 1 = 1) :
    t.theGShare.Keeps (t.learn aPC aDirection s).theGShare := by
  unfold Tables.learn
  dsimp only
  split
  · exact ⟨rfl, fun _ => gShare.masked_shifted hbit⟩
  · exact ⟨rfl, id⟩

theorem keeps_train {t : Tables} {aFeedback : BranchFeedback}
    (hbit : t.theGShare.thePatternMask &&& 1 = 1) :
    t.theGShare.Keeps (CombiningImpl.train t aFeedback).theGShare := by
  unfold CombiningImpl.train
  dsimp only
  split
  · split
    · exact gShare.keeps_shiftIn hbit
    · split
      · exact keeps_learn hbit
      · exact gShare.keeps_refl _
  · split
    · split
      · exact gShare.keeps_setShiftReg
      · exact gShare.keeps_refl _
    · exact gShare.keeps_refl _

theorem keeps_predict {p : Predictor} {anAddress : BitVec 64}
    (hbit : p.theGShare.thePatternMask &&& 1 = 1) :
    p.theGShare.Keeps (p.predict anAddress).2.theGShare := by
  unfold Predictor.predict
  dsimp only
  split
  · exact gShare.keeps_refl _
  · exact gShare.keeps_refl _
  · exact gShare.keeps_refl _
  · exact gShare.keeps_shiftIn hbit
  · exact gShare.keeps_refl _
  · exact gShare.keeps_refl _

/-- The history that a prediction writes down. -/
theorem predict_noted {p : Predictor} {anAddress : BitVec 64} {h : BitVec 32}
    (hnoted : Predicted.Noted ⟨anAddress, (p.predict anAddress).1, h⟩) :
    (p.predict anAddress).1.theGShareShiftReg = p.theGShare.theShiftReg := by
  unfold Predicted.Noted at hnoted
  unfold Predictor.predict at hnoted ⊢
  dsimp only at hnoted ⊢
  split at hnoted
  · next htype => simp [htype] at hnoted
  · next htype => simp [htype] at hnoted
  · next htype => simp [htype] at hnoted
  · rfl
  · rfl
  · rfl

namespace Pipeline

variable {st st' : Pipeline} {e : PipelineEvent} {r : Predicted} {rest : List Predicted}
  {theActualType : eBranchType} {theActualDirection : eDirection} {theActualTarget : BitVec 64}

/-- Histories are within the mask, and what was written down is the history. -/
structure Recorded (st : Pipeline) : Prop where
  bit : st.predictor.theGShare.thePatternMask &&& 1 = 1
  current : st.predictor.theGShare.Masked st.predictor.theGShare.theShiftReg
  masked : ∀ r ∈ st.outstanding, st.predictor.theGShare.Masked r.history
  noted : ∀ r ∈ st.outstanding, r.Noted → r.theBPState.theGShareShiftReg = r.history

theorem Recorded.keeps (hst : st.Recorded) {predictor : Predictor} {outstanding : List Predicted}
    (hkeeps : st.predictor.theGShare.Keeps predictor.theGShare)
    (hsub : ∀ r ∈ outstanding, r ∈ st.outstanding) : Recorded ⟨predictor, outstanding⟩ where
  bit := by
    rw [hkeeps.mask]
    exact hst.bit
  current := hkeeps.masked hst.current
  masked := by
    intro r hr
    have hbefore := hst.masked r (hsub r hr)
    unfold gShare.Masked at hbefore ⊢
    rwa [hkeeps.mask]
  noted := fun r hr => hst.noted r (hsub r hr)

theorem recorded_start : start.Recorded :=
  ⟨by decide, BitVec.zero_and, fun _ hr => absurd hr List.not_mem_nil, fun _ hr => absurd hr List.not_mem_nil⟩

theorem Recorded.predict (hst : st.Recorded) (anAddress : BitVec 64) : (st.predict anAddress).Recorded := by
  have hkeeps : st.predictor.theGShare.Keeps (st.predictor.predict anAddress).2.theGShare :=
    keeps_predict hst.bit
  have hold : Recorded ⟨(st.predictor.predict anAddress).2, st.outstanding⟩ :=
    hst.keeps hkeeps fun _ hr => hr
  refine ⟨hold.bit, hold.current, ?_, ?_⟩
  · intro r hr
    rcases List.mem_append.mp hr with hbefore | hnew
    · exact hold.masked r hbefore
    · rw [List.mem_singleton.mp hnew]
      have hcurrent := hst.current
      unfold gShare.Masked at hcurrent ⊢
      exact (congrArg _ hkeeps.mask).trans hcurrent
  · intro r hr
    rcases List.mem_append.mp hr with hbefore | hnew
    · exact hold.noted r hbefore
    · rw [List.mem_singleton.mp hnew]
      exact predict_noted

theorem Recorded.step (hst : st.Recorded) (h : st.step e = .ok st') : st'.Recorded := by
  cases e with
  | predict anAddress =>
    cases h
    exact hst.predict anAddress
  | feedback theActualType theActualDirection theActualTarget =>
    unfold Pipeline.step at h
    dsimp only at h
    split at h
    · cases h
    · next r rest hout =>
      cases h
      apply hst.keeps (keeps_train hst.bit)
      rw [hout]
      exact fun _ hr => List.mem_cons_of_mem _ hr
  | retire =>
    unfold Pipeline.step at h
    dsimp only at h
    split at h
    · cases h
    · next r rest hout =>
      cases h
      apply hst.keeps (gShare.keeps_refl _)
      rw [hout]
      exact fun _ hr => List.mem_cons_of_mem _ hr
  | squash kept =>
    cases h
    exact hst.keeps (gShare.keeps_refl _) fun _ hr => List.mem_of_mem_take hr
  | unpredicted thePC theActualType theActualDirection theActualTarget =>
    cases h
    exact hst.keeps (keeps_train hst.bit) fun _ hr => hr

theorem recorded_of_reaches (h : Reaches step Anything start st) : st.Recorded :=
  h.invariant recorded_start fun _ _ _ hbefore _ hok => hbefore.step hok

end Pipeline

/-! ## Feedback for a wrong prediction -/

namespace CombiningImpl

variable {t : Tables} {r : Predicted} {theActualType : eBranchType} {theActualDirection : eDirection}
  {theActualTarget : BitVec 64}

/-- The buffer makes no new entry for an address that it has. -/
theorem update_known (hknown : t.theBTB.type r.thePC ≠ .kNonBranch) :
    (t.theBTB.update r.thePC theActualType theActualTarget).1 = false := by
  rw [Bool.eq_false_iff]
  exact fun hnew => hknown (BTB.update_isNew.mp hnew).1

theorem update_new (hnew : t.theBTB.type r.thePC = .kNonBranch) (hbranch : theActualType ≠ .kNonBranch) :
    (t.theBTB.update r.thePC theActualType theActualTarget).1 = true := BTB.update_isNew.mpr ⟨hnew, hbranch⟩

/-- A wrong direction of a branch in the buffer: its history comes back with the direction, and
    the counter of that history is trained. -/
theorem train_wrongDirection (theActualTarget : BitVec 64) (hknown : t.theBTB.type r.thePC ≠ .kNonBranch)
    (hwrong : r.WrongDirection theActualType theActualDirection) :
    let g := (train t (r.feedback theActualType theActualDirection theActualTarget)).theGShare
    g.theShiftReg = t.theGShare.shifted
        (r.theBPState.theGShareShiftReg &&& t.theGShare.thePatternMask) theActualDirection ∧
      g.thePatternTable = t.theGShare.thePatternTable.set
        (t.theGShare.index r.thePC r.theBPState.theGShareShiftReg)
        (theActualDirection.apply (t.theGShare.direction r.thePC r.theBPState.theGShareShiftReg)) := by
  obtain ⟨hconditional, hdirection⟩ := hwrong
  intro g
  have hlearn : g = (t.learn r.thePC theActualDirection r.theBPState).theGShare := by
    simp only [g, train, Predicted.feedback, hconditional, if_pos, update_known hknown, Bool.false_eq_true,
      if_false]
    rfl
  have hrestored : (r.theBPState.theGSharePrediction.notTaken != theActualDirection.notTaken) = true :=
    bne_iff_ne.mpr hdirection
  rw [hlearn, Tables.learn]
  simp only [hrestored, if_true]
  exact ⟨rfl, rfl⟩

/-- A wrong target of a branch in the buffer: its history comes back. -/
theorem train_wrongTarget (hknown : t.theBTB.type r.thePC ≠ .kNonBranch)
    (hwrong : r.WrongTarget theActualType theActualTarget) :
    (train t (r.feedback theActualType theActualDirection theActualTarget)).theGShare =
      t.theGShare.setShiftReg r.theBPState.theGShareShiftReg := by
  obtain ⟨hconditional, -, htarget⟩ := hwrong
  simp only [train, Predicted.feedback, hconditional, if_false, update_known hknown, htarget, ne_eq,
    not_false_eq_true, Bool.not_false, and_self, if_true]
  rfl

/-- A conditional branch that is new in the buffer is taken into the history as it is. -/
theorem train_newConditional (hnew : t.theBTB.type r.thePC = .kNonBranch) :
    (train t (r.feedback .kConditional theActualDirection theActualTarget)).theGShare =
      t.theGShare.shiftIn theActualDirection := by
  have hupdate : (t.theBTB.update r.thePC .kConditional theActualTarget).1 = true := update_new hnew nofun
  simp only [train, Predicted.feedback, hupdate, if_true]
  rfl

/-- Another branch that is new in the buffer leaves the history as it is. -/
theorem train_newTarget (hnew : t.theBTB.type r.thePC = .kNonBranch)
    (hwrong : r.WrongTarget theActualType theActualTarget) :
    (train t (r.feedback theActualType theActualDirection theActualTarget)).theGShare = t.theGShare := by
  obtain ⟨hconditional, hbranch, htarget⟩ := hwrong
  simp only [train, Predicted.feedback, hconditional, if_false, update_new hnew hbranch, htarget, ne_eq,
    not_false_eq_true, Bool.not_true, Bool.false_eq_true, and_false]

end CombiningImpl

namespace Pipeline

variable {st st' : Pipeline} {r : Predicted} {rest : List Predicted}
  {theActualType : eBranchType} {theActualDirection : eDirection} {theActualTarget : BitVec 64}

/-- In every run, feedback for a wrong prediction of a branch that is in the buffer and whose
    history was written down restores the history it was predicted with, shifts the direction
    of a conditional branch in, and trains the counter of that history only. Feedback for a
    branch that is new in the buffer does not restore a history and trains no counter. -/
theorem history_restored (hreach : Reaches step Anything start st) (hout : st.outstanding = r :: rest)
    (hok : st.step (.feedback theActualType theActualDirection theActualTarget) = .ok st') :
    (st.predictor.theBTB.type r.thePC ≠ .kNonBranch → r.Noted →
      (r.WrongDirection theActualType theActualDirection →
        st'.predictor.theGShare.theShiftReg = st.predictor.theGShare.shifted r.history theActualDirection ∧
          st'.predictor.theGShare.thePatternTable =
            st.predictor.theGShare.thePatternTable.set (st.predictor.theGShare.index r.thePC r.history)
              (theActualDirection.apply (st.predictor.theGShare.direction r.thePC r.history))) ∧
      (r.WrongTarget theActualType theActualTarget →
        st'.predictor.theGShare.theShiftReg = r.history ∧
          st'.predictor.theGShare.thePatternTable = st.predictor.theGShare.thePatternTable)) ∧
    (st.predictor.theBTB.type r.thePC = .kNonBranch →
      (r.WrongDirection theActualType theActualDirection →
        st'.predictor.theGShare = st.predictor.theGShare.shiftIn theActualDirection) ∧
      (r.WrongTarget theActualType theActualTarget →
        st'.predictor.theGShare = st.predictor.theGShare)) := by
  have hst := recorded_of_reaches hreach
  have hmem : r ∈ st.outstanding := by
    rw [hout]
    exact List.mem_cons_self
  have hgshare : st'.predictor.theGShare = (CombiningImpl.train st.predictor.toTables
      (r.feedback theActualType theActualDirection theActualTarget)).theGShare := by
    unfold step at hok
    rw [hout] at hok
    cases hok
    rfl
  rw [hgshare]
  constructor
  · intro hknown hnoted
    have hhistory := hst.noted r hmem hnoted
    have hmasked : r.history &&& st.predictor.theGShare.thePatternMask = r.history := hst.masked r hmem
    constructor
    · intro hwrong
      have htrain := CombiningImpl.train_wrongDirection theActualTarget hknown hwrong
      rw [hhistory, hmasked] at htrain
      exact htrain
    · intro hwrong
      rw [CombiningImpl.train_wrongTarget hknown hwrong, hhistory]
      exact ⟨hmasked, rfl⟩
  · intro hnew
    constructor
    · intro hwrong
      obtain ⟨rfl, -⟩ := hwrong
      exact CombiningImpl.train_newConditional hnew
    · intro hwrong
      exact CombiningImpl.train_newTarget hnew hwrong

/-- A conditional branch is in the buffer and was predicted not to be taken. -/
theorem history_restored_taken :
    ∃ st st' : Pipeline, ∃ r : Predicted, Reaches step Anything start st ∧ st.outstanding = [r] ∧
      st.step (.feedback .kConditional .kTaken 0x2000) = .ok st' ∧
      st'.predictor.theGShare.theShiftReg = st.predictor.theGShare.shifted r.history .kTaken := by
  have hrun : (runWhile step (fun _ _ => true) start
      [.predict 0x1000, .feedback .kConditional .kTaken 0x2000, .predict 0x1000]).any
      (fun st => decide (st.outstanding.length = 1 ∧ ∀ r ∈ st.outstanding,
        st.predictor.theBTB.type r.thePC ≠ .kNonBranch ∧ r.theBPState.thePredictedType = .kConditional ∧
          r.theBPState.theGSharePrediction.notTaken = true)) = true := by decide +kernel
  obtain ⟨st, hreach, hend⟩ := exists_reaches (fun st e _ => (trivial : Anything st e)) hrun
  obtain ⟨hone, hall⟩ := of_decide_eq_true hend
  obtain ⟨r, hr⟩ := List.length_eq_one_iff.mp hone
  obtain ⟨hknown, htype, hpredicted⟩ := hall r (by rw [hr]; exact List.mem_cons_self)
  obtain ⟨st', hst'⟩ : ∃ st', st.step (.feedback .kConditional .kTaken 0x2000) = .ok st' := by
    unfold step
    rw [hr]
    exact ⟨_, rfl⟩
  have hwrong : r.WrongDirection .kConditional .kTaken := by
    refine ⟨rfl, ?_⟩
    rw [hpredicted]
    decide
  exact ⟨st, st', r, hreach, hr, hst', (((history_restored hreach hr hst').1 hknown (.inl htype)).1 hwrong).1⟩

/-- A branch is predicted with an empty history, a later one shifts its direction in, and then
    feedback makes the first one new in the buffer: the later direction stays. -/
theorem new_branch_keeps_later_history :
    ∃ st st' : Pipeline, ∃ r : Predicted, ∃ rest : List Predicted, Reaches step Anything start st ∧
      st.outstanding = r :: rest ∧ r.WrongDirection .kConditional .kNotTaken ∧
      st.step (.feedback .kConditional .kNotTaken 0x4000) = .ok st' ∧
      st'.predictor.theGShare.theShiftReg ≠ st.predictor.theGShare.shifted r.history .kNotTaken := by
  have hrun : (runWhile step (fun _ _ => true) start
      [.predict 0x1000, .feedback .kConditional .kTaken 0x2000, .predict 0x3000, .predict 0x1000]).any
      (fun st => match st.outstanding with
        | [] => false
        | r :: _ =>
          decide (r.theBPState.theGSharePrediction.notTaken = false ∧
            (CombiningImpl.feedback st.predictor
              (r.feedback .kConditional .kNotTaken 0x4000)).theGShare.theShiftReg ≠
                st.predictor.theGShare.shifted r.history .kNotTaken)) = true := by decide +kernel
  obtain ⟨st, hreach, hend⟩ := exists_reaches (fun st e _ => (trivial : Anything st e)) hrun
  split at hend
  · cases hend
  · next r rest hout =>
    obtain ⟨hpredicted, hother⟩ := of_decide_eq_true hend
    refine ⟨st, ⟨CombiningImpl.feedback st.predictor (r.feedback .kConditional .kNotTaken 0x4000), rest⟩, r,
      rest, hreach, hout, ⟨rfl, ?_⟩, ?_, hother⟩
    · rw [hpredicted]
      decide
    · unfold step
      rw [hout]

end Pipeline

end SharedTypes
