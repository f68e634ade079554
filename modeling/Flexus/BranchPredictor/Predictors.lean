import Flexus.BranchPredictor.Tables
import Flexus.Lib.Transducer

/-!
# The combining predictors

The predictor of the timing model and the one of the fast warm-up.
-/

namespace SharedTypes

structure BPredState where
  thePredictedType : eBranchType
  thePredictedTarget : BitVec 64
  thePrediction : eDirection
  theBimodalPrediction : eDirection
  theMetaPrediction : eDirection
  theGSharePrediction : eDirection
  theGShareShiftReg : BitVec 32
  theSerial : BitVec 32
  deriving DecidableEq, Repr

structure BranchFeedback where
  thePC : BitVec 64
  theActualType : eBranchType
  theActualDirection : eDirection
  theActualTarget : BitVec 64
  theBPState : Option BPredState
  deriving DecidableEq, Repr

/-- How a resolved branch is counted. -/
inductive Outcome where
  | correctGShare
  | correctBimodal
  | correctUnconditional
  | newBranch
  | direction
  | metaGShare
  | metaBimod
  | target
  deriving DecidableEq, Repr

structure Counters where
  theBranches : Nat
  theBranches_Unconditional : Nat
  theBranches_Conditional : Nat
  theBranches_Call : Nat
  theBranches_Return : Nat
  thePredictions : Nat
  thePredictions_Bimodal : Nat
  thePredictions_GShare : Nat
  thePredictions_Unconditional : Nat
  theCorrect : Nat
  theCorrect_Bimodal : Nat
  theCorrect_GShare : Nat
  theCorrect_Unconditional : Nat
  theMispredict : Nat
  theMispredict_NewBranch : Nat
  theMispredict_Direction : Nat
  theMispredict_Meta : Nat
  theMispredict_MetaGShare : Nat
  theMispredict_MetaBimod : Nat
  theMispredict_Target : Nat
  deriving DecidableEq, Repr

namespace Counters

def zero : Counters := ⟨0, 0, 0, 0, 0, 0, 0, 0, 0, 0, 0, 0, 0, 0, 0, 0, 0, 0, 0, 0⟩

def correct (c : Counters) : Counters := { c with theCorrect := c.theCorrect + 1 }

def mispredict (c : Counters) : Counters := { c with theMispredict := c.theMispredict + 1 }

def mispredictMeta (c : Counters) : Counters :=
  { c.mispredict with theMispredict_Meta := c.theMispredict_Meta + 1 }

def count (c : Counters) : Outcome → Counters
  | .correctGShare => { c.correct with theCorrect_GShare := c.theCorrect_GShare + 1 }
  | .correctBimodal => { c.correct with theCorrect_Bimodal := c.theCorrect_Bimodal + 1 }
  | .correctUnconditional => { c.correct with theCorrect_Unconditional := c.theCorrect_Unconditional + 1 }
  | .newBranch => { c.mispredict with theMispredict_NewBranch := c.theMispredict_NewBranch + 1 }
  | .direction => { c.mispredict with theMispredict_Direction := c.theMispredict_Direction + 1 }
  | .metaGShare => { c.mispredictMeta with theMispredict_MetaGShare := c.theMispredict_MetaGShare + 1 }
  | .metaBimod => { c.mispredictMeta with theMispredict_MetaBimod := c.theMispredict_MetaBimod + 1 }
  | .target => { c.mispredict with theMispredict_Target := c.theMispredict_Target + 1 }

def branch (c : Counters) : eBranchType → Counters
  | .kConditional =>
    { c with theBranches := c.theBranches + 1, theBranches_Conditional := c.theBranches_Conditional + 1 }
  | .kUnconditional =>
    { c with theBranches := c.theBranches + 1, theBranches_Unconditional := c.theBranches_Unconditional + 1 }
  | .kCall => { c with theBranches := c.theBranches + 1, theBranches_Call := c.theBranches_Call + 1 }
  | .kReturn => { c with theBranches := c.theBranches + 1, theBranches_Return := c.theBranches_Return + 1 }
  | .kNonBranch | .kLastBranchType => c

end Counters

/-- What both predictors look up and learn. -/
structure Tables where
  theBTB : BTB
  theBimodal : Bimodal
  theMeta : Bimodal
  theGShare : gShare
  deriving DecidableEq

/-- The fields of `CombiningImpl` and of `FastCombiningImpl`. -/
structure Predictor extends Tables where
  theSerial : BitVec 32
  counters : Counters
  deriving DecidableEq

namespace Predictor

/-- `predictConditional` of both classes, with the predicted target it returns stored where
    `predict` stores it. -/
def predictConditional (p : Predictor) (anAddress : BitVec 64) (aBPState : BPredState) :
    BPredState × Predictor :=
  let bimodal := p.theBimodal.direction anAddress
  let gshare := p.theGShare.direction anAddress p.theGShare.theShiftReg
  let metaDirection := p.theMeta.direction anAddress
  let prediction := if metaDirection.notTaken then gshare else bimodal
  let c := p.counters
  ({ aBPState with
      thePrediction := prediction
      theBimodalPrediction := bimodal
      theMetaPrediction := metaDirection
      theGSharePrediction := gshare
      theGShareShiftReg := p.theGShare.shiftReg
      thePredictedTarget := if prediction.notTaken then 0 else (p.theBTB.target anAddress).getD 0 },
    { p with
      -- the history is speculative: it takes in the direction gshare predicts
      theGShare := p.theGShare.shiftIn gshare
      counters :=
        if metaDirection.notTaken then
          { c with thePredictions := c.thePredictions + 1, thePredictions_GShare := c.thePredictions_GShare + 1 }
        else
          { c with thePredictions := c.thePredictions + 1, thePredictions_Bimodal := c.thePredictions_Bimodal + 1 } })

/-- `predict` of both classes. -/
def predict (p : Predictor) (anAddress : BitVec 64) : BPredState × Predictor :=
  let s : BPredState :=
    { thePredictedType := p.theBTB.type anAddress
      thePredictedTarget := 0
      thePrediction := .kStronglyTaken
      theBimodalPrediction := .kStronglyTaken
      theMetaPrediction := .kStronglyTaken
      theGSharePrediction := .kStronglyTaken
      theGShareShiftReg := 0
      theSerial := p.theSerial }
  let p := { p with theSerial := p.theSerial + 1 }
  let c := p.counters
  match p.theBTB.type anAddress with
  | .kNonBranch | .kReturn | .kLastBranchType => (s, p)
  | .kConditional => p.predictConditional anAddress s
  | .kUnconditional | .kCall =>
    ({ s with
        thePredictedTarget := (p.theBTB.target anAddress).getD 0
        theGShareShiftReg := p.theGShare.shiftReg },
      { p with
        counters :=
          { c with
            thePredictions := c.thePredictions + 1
            thePredictions_Unconditional := c.thePredictions_Unconditional + 1 } })

/-- The counting at the end of `stats`. -/
def counted (p : Predictor) (anActualType : eBranchType) (o : Outcome) : Predictor :=
  { p with counters := (p.counters.count o).branch anActualType }

end Predictor

namespace BPredState

def correct (s : BPredState) : Outcome :=
  if s.theMetaPrediction.notTaken then .correctGShare else .correctBimodal

/-- The classification of a branch of the predicted type; `hit` is the comparison of the two
    targets. -/
def outcome (s : BPredState) (anActualType : eBranchType) (anActualDirection : eDirection) (hit : Bool) :
    Outcome :=
  if anActualType = .kConditional then
    if s.thePrediction.notTaken && anActualDirection.notTaken then s.correct
    else if !s.thePrediction.notTaken && !anActualDirection.notTaken then
      if hit then s.correct else .target
    else if s.theBimodalPrediction.notTaken == s.theGSharePrediction.notTaken then .direction
    else if s.thePrediction.notTaken == s.theGSharePrediction.notTaken then .metaGShare
    else .metaBimod
  else if hit then .correctUnconditional
  else .target

/-- The targets decide about a branch whose direction, if it has one, was rightly predicted
    to be taken. -/
def TargetDecides (s : BPredState) (anActualType : eBranchType) (anActualDirection : eDirection) : Prop :=
  anActualType = .kConditional → s.thePrediction.notTaken = false ∧ anActualDirection.notTaken = false

theorem outcome_eq_outcome {s : BPredState} {anActualType : eBranchType} {anActualDirection : eDirection}
    {hit hit' : Bool} :
    s.outcome anActualType anActualDirection hit = s.outcome anActualType anActualDirection hit' ↔
      (s.TargetDecides anActualType anActualDirection → hit = hit') := by
  have hcorrect : s.correct ≠ .target := by
    rw [correct]
    split <;> simp
  unfold outcome TargetDecides
  by_cases htype : anActualType = .kConditional
  · cases s.thePrediction.notTaken <;> cases anActualDirection.notTaken <;>
      cases hit <;> cases hit' <;> simp [htype, hcorrect, hcorrect.symm]
  · cases hit <;> cases hit' <;> simp [htype]

end BPredState

namespace Tables

variable (t : Tables) (aPC : BitVec 64) (aDirection : eDirection) (s : BPredState)

/-- A conditional branch that is new in the buffer. -/
def learnNew : Tables :=
  { t with
    theBimodal := t.theBimodal.update aPC aDirection
    theGShare := t.theGShare.shiftIn aDirection }

/-- A conditional branch that was predicted: the history is restored if gshare was wrong, and
    the counters are those of the history the prediction was made with. -/
def learn : Tables :=
  let restored :=
    if s.theGSharePrediction.notTaken != aDirection.notTaken then
      (t.theGShare.setShiftReg s.theGShareShiftReg).shiftIn aDirection
    else t.theGShare
  let bimodal := t.theBimodal.direction aPC
  let gshare := restored.direction aPC s.theGShareShiftReg
  let metaDirection := t.theMeta.direction aPC
  { t with
    theBimodal := t.theBimodal.update aPC (aDirection.apply bimodal)
    theGShare := restored.update aPC s.theGShareShiftReg (aDirection.apply gshare)
    theMeta :=
      if gshare.notTaken != bimodal.notTaken then
        t.theMeta.update aPC
          (if aDirection.notTaken == gshare.notTaken then metaDirection.moreNotTaken
            else metaDirection.moreTaken)
      else t.theMeta }

/-- A branch without a direction whose target was not the predicted one. -/
def restoreHistory : Tables := { t with theGShare := t.theGShare.setShiftReg s.theGShareShiftReg }

end Tables

/-! ## The timing predictor -/

namespace CombiningImpl

def create : Predictor where
  theBTB := .create 2048 16 (by decide)
  theBimodal := .create 16384 (by decide)
  theMeta := .create 16384 (by decide)
  theGShare := .create 13
  theSerial := 0
  counters := .zero

def predict (p : Predictor) (anAddress : BitVec 64) : BPredState × Predictor := p.predict anAddress

def classify (aFeedback : BranchFeedback) : Outcome :=
  match aFeedback.theBPState with
  | none => .newBranch
  | some s =>
    if aFeedback.theActualType ≠ s.thePredictedType then .newBranch
    else
      s.outcome aFeedback.theActualType aFeedback.theActualDirection
        (aFeedback.theActualTarget == s.thePredictedTarget)

def stats (p : Predictor) (aFeedback : BranchFeedback) : Predictor :=
  p.counted aFeedback.theActualType (classify aFeedback)

/-- What `feedback` does to the tables. -/
def train (t : Tables) (aFeedback : BranchFeedback) : Tables :=
  let r := t.theBTB.update aFeedback.thePC aFeedback.theActualType aFeedback.theActualTarget
  let t := { t with theBTB := r.2 }
  if aFeedback.theActualType = .kConditional then
    if r.1 then t.learnNew aFeedback.thePC aFeedback.theActualDirection
    else
      match aFeedback.theBPState with
      | some s => t.learn aFeedback.thePC aFeedback.theActualDirection s
      | none => t
  else
    match aFeedback.theBPState with
    | some s => if s.thePredictedTarget ≠ aFeedback.theActualTarget ∧ !r.1 then t.restoreHistory s else t
    | none => t

def feedback (p : Predictor) (aFeedback : BranchFeedback) : Predictor :=
  { stats p aFeedback with toTables := train p.toTables aFeedback }

end CombiningImpl

/-! ## The fast predictor -/

namespace FastCombiningImpl

def create : Predictor where
  theBTB := .create 1024 16 (by decide)
  theBimodal := .create 32768 (by decide)
  theMeta := .create 8192 (by decide)
  theGShare := .create 13
  theSerial := 0
  counters := .zero

def predict (p : Predictor) (anAddress : BitVec 64) : BPredState × Predictor := p.predict anAddress

/-- The actual target arrives as a `uint32_t`. -/
def classify (anActualType : eBranchType) (anActualDirection : eDirection) (anActualTarget : BitVec 32)
    (aBPState : BPredState) : Outcome :=
  if anActualType ≠ aBPState.thePredictedType then .newBranch
  else
    aBPState.outcome anActualType anActualDirection
      (anActualTarget == aBPState.thePredictedTarget.setWidth 32)

def stats (p : Predictor) (anActualType : eBranchType) (anActualDirection : eDirection)
    (anActualTarget : BitVec 32) (aBPState : BPredState) : Predictor :=
  p.counted anActualType (classify anActualType anActualDirection anActualTarget aBPState)

/-- What `feedback` does to the tables. -/
def train (t : Tables) (anAddress : BitVec 64) (anActualType : eBranchType) (anActualDirection : eDirection)
    (anActualTarget : BitVec 64) (aBPState : BPredState) : Tables :=
  let r := t.theBTB.update anAddress anActualType anActualTarget
  let t := { t with theBTB := r.2 }
  if anActualType = .kConditional then
    if r.1 then t.learnNew anAddress anActualDirection
    else if aBPState.thePredictedType ≠ .kNonBranch then t.learn anAddress anActualDirection aBPState
    else t
  else if aBPState.thePredictedType ≠ .kNonBranch ∧ aBPState.thePredictedTarget ≠ anActualTarget ∧ !r.1 then
    t.restoreHistory aBPState
  else t

def feedback (p : Predictor) (anAddress : BitVec 64) (anActualType : eBranchType)
    (anActualDirection : eDirection) (anActualTarget : BitVec 64) (aBPState : BPredState) : Predictor :=
  { stats p anActualType anActualDirection (anActualTarget.setWidth 32) aBPState with
    toTables := train p.toTables anAddress anActualType anActualDirection anActualTarget aBPState }

end FastCombiningImpl

/-! ## Branches resolved at once -/

/-- A branch that is predicted and then resolved. -/
structure Branch where
  thePC : BitVec 64
  theActualType : eBranchType
  theActualDirection : eDirection
  theActualTarget : BitVec 64
  deriving DecidableEq, Repr

def Branch.feedback (b : Branch) (s : BPredState) : BranchFeedback :=
  ⟨b.thePC, b.theActualType, b.theActualDirection, b.theActualTarget, some s⟩

def CombiningImpl.resolve (p : Predictor) (b : Branch) : (BPredState × Outcome) × Predictor :=
  let r := predict p b.thePC
  ((r.1, classify (b.feedback r.1)), feedback r.2 (b.feedback r.1))

def FastCombiningImpl.resolve (p : Predictor) (b : Branch) : (BPredState × Outcome) × Predictor :=
  let r := predict p b.thePC
  ((r.1, classify b.theActualType b.theActualDirection (b.theActualTarget.setWidth 32) r.1),
    feedback r.2 b.thePC b.theActualType b.theActualDirection b.theActualTarget r.1)

end SharedTypes
