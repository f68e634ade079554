import Flexus.BranchPredictor.Predictors

/-!
# Where the two predictors agree

From equal tables the fast and the timing predictor make the same predictions, classify
every branch alike and keep their tables equal, until a branch goes to a target that
equals the stored one in its low half only, or an address without a branch reports a
target while there is history.
-/

namespace SharedTypes

open Transducer

namespace Tables

variable (t : Tables)

/-- The direction of the component that the meta predictor believes. -/
def choice (anAddress : BitVec 64) : eDirection :=
  if (t.theMeta.direction anAddress).notTaken then t.theGShare.direction anAddress t.theGShare.theShiftReg
  else t.theBimodal.direction anAddress

/-- The target a taken branch at the address is expected to go to. -/
def storedTarget (anAddress : BitVec 64) : BitVec 64 :=
  match t.theBTB.type anAddress with
  | .kConditional | .kUnconditional | .kCall => (t.theBTB.target anAddress).getD 0
  | .kNonBranch | .kReturn | .kLastBranchType => 0

/-- The branch is of the expected type, and if it has a direction it was rightly expected to
    be taken: its target decides how it is counted. -/
def TargetDecides (b : Branch) : Prop :=
  b.theActualType = t.theBTB.type b.thePC ∧
    (b.theActualType = .kConditional →
      (t.choice b.thePC).notTaken = false ∧ b.theActualDirection.notTaken = false)

instance (b : Branch) : Decidable (t.TargetDecides b) := inferInstanceAs (Decidable (_ ∧ _))

/-- The condition on a branch: where its target decides, a target that equals the expected
    one in the low 32 bits is the expected one, and an address that is no branch and was not
    taken for one reports no target while there is history. -/
def NoDrift (b : Branch) : Prop :=
  (t.TargetDecides b →
    b.theActualTarget.setWidth 32 = (t.storedTarget b.thePC).setWidth 32 →
      b.theActualTarget = t.storedTarget b.thePC) ∧
    (b.theActualType = .kNonBranch → t.theBTB.type b.thePC = .kNonBranch → b.theActualTarget ≠ 0 →
      t.theGShare.theShiftReg = 0)

instance (b : Branch) : Decidable (t.NoDrift b) := inferInstanceAs (Decidable (_ ∧ _))

end Tables

/-! ## Predictions -/

/-- The serial number is the predictor's own count. -/
def BPredState.unnumbered (s : BPredState) : BPredState := { s with theSerial := 0 }

namespace Predictor

variable {p q : Predictor} {anAddress : BitVec 64}

/-- The prediction and what it does to the tables depend on the tables only. -/
theorem predict_congr (anAddress : BitVec 64) (htables : p.toTables = q.toTables) :
    (p.predict anAddress).1.unnumbered = (q.predict anAddress).1.unnumbered ∧
      (p.predict anAddress).2.toTables = (q.predict anAddress).2.toTables := by
  obtain ⟨t, serial, counters⟩ := p
  obtain ⟨t', serial', counters'⟩ := q
  obtain rfl : t = t' := htables
  simp only [predict]
  split <;> exact ⟨rfl, rfl⟩

theorem predict_type : (p.predict anAddress).1.thePredictedType = p.theBTB.type anAddress := by
  simp only [predict]
  split <;> rfl

theorem predict_theBTB : (p.predict anAddress).2.theBTB = p.theBTB := by
  simp only [predict]
  split <;> rfl

theorem predict_direction (htype : p.theBTB.type anAddress = .kConditional) :
    (p.predict anAddress).1.thePrediction = p.choice anAddress := by
  simp only [predict, htype]
  rfl

theorem predict_taken (htype : p.theBTB.type anAddress ≠ .kConditional) :
    (p.predict anAddress).1.thePrediction.notTaken = false := by
  simp only [predict]
  split
  case h_4 hconditional => exact absurd hconditional htype
  all_goals rfl

theorem predict_target (htaken : (p.predict anAddress).1.thePrediction.notTaken = false) :
    (p.predict anAddress).1.thePredictedTarget = p.storedTarget anAddress := by
  simp only [predict, Tables.storedTarget] at htaken ⊢
  split
  case h_4 htype =>
    simp only [htype, predictConditional] at htaken ⊢
    rw [if_neg (ne_true_of_eq_false htaken)]
  all_goals simp_all

/-- Nothing is predicted of an address that is no branch. -/
theorem predict_nonBranch (htype : p.theBTB.type anAddress = .kNonBranch) :
    (p.predict anAddress).1.thePredictedTarget = 0 ∧ (p.predict anAddress).1.theGShareShiftReg = 0 ∧
      (p.predict anAddress).2.toTables = p.toTables := by
  simp only [predict, htype]
  exact ⟨trivial, trivial, trivial⟩

theorem predict_decides {b : Branch} (htype : b.theActualType = p.theBTB.type b.thePC) :
    (p.predict b.thePC).1.TargetDecides b.theActualType b.theActualDirection ↔ p.TargetDecides b := by
  rw [BPredState.TargetDecides, Tables.TargetDecides, and_iff_right htype]
  refine imp_congr_right fun hconditional => ?_
  rw [predict_direction (htype ▸ hconditional)]

theorem predict_storedTarget {b : Branch} (htype : b.theActualType = p.theBTB.type b.thePC)
    (hdecides : (p.predict b.thePC).1.TargetDecides b.theActualType b.theActualDirection) :
    (p.predict b.thePC).1.thePredictedTarget = p.storedTarget b.thePC := by
  apply predict_target
  by_cases hconditional : b.theActualType = .kConditional
  · exact (hdecides hconditional).1
  · exact predict_taken (htype ▸ hconditional)

end Predictor

/-! ## One branch -/

section Feedback

variable {s s' : BPredState} {b : Branch} {t : Tables}

/-- The serial number plays no part in the classification or in the training. -/
theorem classify_congr (hsame : s.unnumbered = s'.unnumbered) :
    FastCombiningImpl.classify b.theActualType b.theActualDirection (b.theActualTarget.setWidth 32) s =
        FastCombiningImpl.classify b.theActualType b.theActualDirection (b.theActualTarget.setWidth 32) s' ∧
      FastCombiningImpl.train t b.thePC b.theActualType b.theActualDirection b.theActualTarget s =
        FastCombiningImpl.train t b.thePC b.theActualType b.theActualDirection b.theActualTarget s' := by
  obtain ⟨type, target, prediction, bimodal, metaDirection, gshare, shiftReg, serial⟩ := s
  obtain ⟨type', target', prediction', bimodal', metaDirection', gshare', shiftReg', serial'⟩ := s'
  simp only [BPredState.unnumbered, BPredState.mk.injEq, and_true] at hsame
  obtain ⟨rfl, rfl, rfl, rfl, rfl, rfl, rfl⟩ := hsame
  exact ⟨rfl, rfl⟩

theorem classify_feedback :
    CombiningImpl.classify (b.feedback s) =
      if b.theActualType ≠ s.thePredictedType then .newBranch
      else s.outcome b.theActualType b.theActualDirection (b.theActualTarget == s.thePredictedTarget) := rfl

theorem train_feedback :
    CombiningImpl.train t (b.feedback s) =
      let r := t.theBTB.update b.thePC b.theActualType b.theActualTarget
      let t := { t with theBTB := r.2 }
      if b.theActualType = .kConditional then
        if r.1 then t.learnNew b.thePC b.theActualDirection else t.learn b.thePC b.theActualDirection s
      else if s.thePredictedTarget ≠ b.theActualTarget ∧ !r.1 then t.restoreHistory s
      else t := rfl

/-- The two classifications differ where the target decides and is right in its low half
    only. -/
theorem classify_eq_classify :
    FastCombiningImpl.classify b.theActualType b.theActualDirection (b.theActualTarget.setWidth 32) s =
        CombiningImpl.classify (b.feedback s) ↔
      (b.theActualType = s.thePredictedType → s.TargetDecides b.theActualType b.theActualDirection →
        b.theActualTarget.setWidth 32 = s.thePredictedTarget.setWidth 32 →
          b.theActualTarget = s.thePredictedTarget) := by
  rw [classify_feedback, FastCombiningImpl.classify]
  by_cases htype : b.theActualType = s.thePredictedType
  case neg => simp [htype]
  rw [if_neg (not_not.mpr htype), if_neg (not_not.mpr htype), BPredState.outcome_eq_outcome]
  refine ⟨fun h _ hdecides hlow => ?_, fun h hdecides => ?_⟩
  · simpa [hlow] using h hdecides
  · by_cases heq : b.theActualTarget = s.thePredictedTarget
    · simp [heq]
    · have hlow : b.theActualTarget.setWidth 32 ≠ s.thePredictedTarget.setWidth 32 := fun hlow =>
        heq (h htype hdecides hlow)
      simp [heq, hlow]

/-- The two trainings differ for an address that is no branch, was not taken for one, and
    still reports a target: the timing predictor sets the history to that of the prediction. -/
theorem train_eq_train (htype : s.thePredictedType = t.theBTB.type b.thePC)
    (hnone : s.thePredictedType = .kNonBranch → s.thePredictedTarget = 0 ∧ s.theGShareShiftReg = 0) :
    FastCombiningImpl.train t b.thePC b.theActualType b.theActualDirection b.theActualTarget s =
        CombiningImpl.train t (b.feedback s) ↔
      (b.theActualType = .kNonBranch → s.thePredictedType = .kNonBranch → b.theActualTarget ≠ 0 →
        t.theGShare.theShiftReg = 0) := by
  have hnew : (t.theBTB.update b.thePC b.theActualType b.theActualTarget).1 = true ↔ _ := BTB.update_isNew
  rw [← htype] at hnew
  rw [train_feedback, FastCombiningImpl.train]
  by_cases hpredicted : s.thePredictedType = .kNonBranch
  · obtain ⟨htarget, hreg⟩ := hnone hpredicted
    by_cases hactual : b.theActualType = .kNonBranch
    · have hold : (t.theBTB.update b.thePC .kNonBranch b.theActualTarget).1 = false := by
        simpa [hactual] using hnew
      have hrestore : t.theGShare = t.theGShare.setShiftReg 0#32 ↔ t.theGShare.theShiftReg = 0#32 := by
        simp [gShare.ext_iff, gShare.setShiftReg]
      by_cases hzero : b.theActualTarget = 0#64
      · simp [hactual, hzero, htarget, hpredicted]
      · have hdiff : 0#64 ≠ b.theActualTarget := fun h => hzero h.symm
        simp [hactual, hzero, hdiff, htarget, hpredicted, hold, Tables.restoreHistory, hreg, hrestore]
    · have hfresh : (t.theBTB.update b.thePC b.theActualType b.theActualTarget).1 = true :=
        hnew.mpr ⟨hpredicted, hactual⟩
      simp [hfresh, hactual]
  · have hold : (t.theBTB.update b.thePC b.theActualType b.theActualTarget).1 = false := by
      simpa [hpredicted] using hnew
    simp [hold, hpredicted]

end Feedback

/-- One branch is predicted and counted alike, and leaves the same tables, exactly when it
    shows none of the two differences. -/
theorem resolve_agrees {p q : Predictor} {b : Branch} (htables : p.toTables = q.toTables) :
    StepAgrees FastCombiningImpl.resolve CombiningImpl.resolve (fun o => (o.1.unnumbered, o.2))
        Predictor.toTables p q b ↔
      q.NoDrift b := by
  obtain ⟨hseen, hafter⟩ := Predictor.predict_congr b.thePC htables
  obtain ⟨hclassify, htrain⟩ := classify_congr (b := b) (t := (q.predict b.thePC).2.toTables) hseen
  have htype : (q.predict b.thePC).1.thePredictedType = (q.predict b.thePC).2.theBTB.type b.thePC := by
    rw [Predictor.predict_type, Predictor.predict_theBTB]
  have hnone : (q.predict b.thePC).1.thePredictedType = .kNonBranch →
      (q.predict b.thePC).1.thePredictedTarget = 0 ∧ (q.predict b.thePC).1.theGShareShiftReg = 0 := by
    intro hnb
    rw [Predictor.predict_type] at hnb
    exact ⟨(Predictor.predict_nonBranch hnb).1, (Predictor.predict_nonBranch hnb).2.1⟩
  have hlhs : StepAgrees FastCombiningImpl.resolve CombiningImpl.resolve (fun o => (o.1.unnumbered, o.2))
      Predictor.toTables p q b ↔
      FastCombiningImpl.classify b.theActualType b.theActualDirection (b.theActualTarget.setWidth 32)
          (q.predict b.thePC).1 = CombiningImpl.classify (b.feedback (q.predict b.thePC).1) ∧
        FastCombiningImpl.train (q.predict b.thePC).2.toTables b.thePC b.theActualType b.theActualDirection
            b.theActualTarget (q.predict b.thePC).1 =
          CombiningImpl.train (q.predict b.thePC).2.toTables (b.feedback (q.predict b.thePC).1) := by
    simp only [StepAgrees, FastCombiningImpl.resolve, CombiningImpl.resolve, FastCombiningImpl.predict,
      CombiningImpl.predict, FastCombiningImpl.feedback, CombiningImpl.feedback, hseen, hafter, hclassify,
      htrain, Prod.mk.injEq, true_and]
  rw [hlhs, classify_eq_classify, train_eq_train htype hnone, Tables.NoDrift, Predictor.predict_type]
  refine and_congr ?_ ?_
  · constructor
    · intro h hdecides hlow
      have hstate := (Predictor.predict_decides hdecides.1).mpr hdecides
      have htarget := Predictor.predict_storedTarget hdecides.1 hstate
      rw [htarget] at h
      exact h hdecides.1 hstate hlow
    · intro h htyped hstate hlow
      rw [Predictor.predict_storedTarget htyped hstate] at hlow ⊢
      exact h ((Predictor.predict_decides htyped).mp hstate) hlow
  · refine imp_congr_right fun _ => imp_congr_right fun hnb => ?_
    rw [(Predictor.predict_nonBranch hnb).2.2]

/-- From equal tables the fast and the timing predictor agree after every branch of a
    sequence, in the predictions, the classifications and the tables, exactly when no branch
    of the sequence shows one of the two differences. -/
theorem fast_agrees_with_timing_iff (p q : Predictor) (branches : List Branch)
    (htables : p.toTables = q.toTables) :
    AgreesThroughout FastCombiningImpl.resolve CombiningImpl.resolve (fun o => (o.1.unnumbered, o.2))
        Predictor.toTables p q branches ↔
      EachMeets CombiningImpl.resolve (fun s b => s.NoDrift b) q branches :=
  agreesThroughout_iff (fun _ _ _ hview => resolve_agrees hview) htables

/-- A conditional branch is met for the first time and then predicted twice, once wrongly. -/
theorem fast_agrees_with_timing_conditional :
    AgreesThroughout FastCombiningImpl.resolve CombiningImpl.resolve (fun o => (o.1.unnumbered, o.2))
      Predictor.toTables CombiningImpl.create CombiningImpl.create
      [⟨4, .kConditional, .kTaken, 0x40⟩, ⟨4, .kConditional, .kTaken, 0x40⟩,
        ⟨4, .kConditional, .kNotTaken, 0x8⟩] :=
  (fast_agrees_with_timing_iff CombiningImpl.create CombiningImpl.create _ rfl).mpr (by decide)

/-- An unconditional branch that goes to 0x100001000 first and to 0x200001000 then is counted
    as correct by the fast predictor and as a mispredicted target by the timing predictor. -/
theorem fast_not_agrees_with_timing :
    ¬ ∀ (p q : Predictor) (branches : List Branch), p.toTables = q.toTables →
      Agrees FastCombiningImpl.resolve CombiningImpl.resolve (fun o => (o.1.unnumbered, o.2))
        Predictor.toTables p q branches := by
  intro hall
  have hagrees := hall CombiningImpl.create CombiningImpl.create
    [⟨4, .kUnconditional, .kTaken, 0x100001000⟩, ⟨4, .kUnconditional, .kTaken, 0x200001000⟩] rfl
  exact absurd hagrees.1 (by decide)

end SharedTypes
