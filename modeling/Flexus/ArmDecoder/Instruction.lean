import Flexus.ArmDecoder.Action
import Flexus.Lib.Dataflow

/-!
# Semantic instructions

An instruction as the decoder builds it: the operands set so far, its actions with the
dependances they satisfy, and what its dispatch does. Once dispatched, the actions are a
network in which each waits for its arguments.
-/

namespace narmDecoder

open Dataflow Runs

/-- An argument of an action, or a bit of the retirement when there is no action. -/
structure InternalDependance where
  theTarget : Option Nat
  theArg : Nat
  deriving DecidableEq, Repr

/-- An action of an instruction, with the dependances that it satisfies. -/
structure Component where
  theAction : Action
  theNumOperands : Nat
  theDependances : List InternalDependance

inductive Effect where
  | mapSource (theInputCode theOutputCode : eOperandCode)
  | mapDestination (theInputCode theOutputCode thePreviousMappingCode : eOperandCode)
  | satisfy (theDependance : InternalDependance)
  deriving DecidableEq, Repr

namespace Effect

/-- `invoke`. What a satisfied dependance leads to is left to the network. -/
def invoke (env : Env) (m : OperandMap) : Effect → Except Fault OperandMap
  | mapSource theInputCode theOutputCode => do
    let name ← (m.operand theInputCode).getReg
    return m.set theOutputCode (.mapped_reg (env.mapped name))
  | mapDestination theInputCode theOutputCode thePreviousMappingCode => do
    let name ← (m.operand theInputCode).getReg
    return (m.set theOutputCode (.mapped_reg (env.created name))).set thePreviousMappingCode
      (.mapped_reg (env.previous name))
  | satisfy _ => return m

/-- The slots that the effect sets. -/
def outputs : Effect → List eOperandCode
  | mapSource _ o => [o]
  | mapDestination _ o p => [o, p]
  | satisfy _ => []

end Effect

/-- The actions are named by their place in `components`. -/
structure SemanticInstruction where
  theOperands : List (eOperandCode × Operand)
  components : List Component
  dispatchActions : List Nat
  dispatchEffects : List Effect
  theRetireDepCount : Nat

/-- The decoder's steps on the instruction that it builds, whose assertions can fail. -/
abbrev Build := StateT SemanticInstruction (Except Fault)

namespace SemanticInstruction

/-- A new instruction. -/
def new : SemanticInstruction := ⟨[], [], [], [], 0⟩

/-! ## Building -/

def setOperand (code : eOperandCode) (value : Operand) : Build Unit :=
  modify fun inst => { inst with theOperands := (code, value) :: inst.theOperands }

def addDispatchEffect (effect : Effect) : Build Unit :=
  modify fun inst => { inst with dispatchEffects := inst.dispatchEffects ++ [effect] }

def addDispatchAction (act : Nat) : Build Unit :=
  modify fun inst => { inst with dispatchActions := inst.dispatchActions ++ [act] }

/-- The new action's place. -/
def addNewComponent (act : Action) (numOperands : Nat) : Build Nat := do
  let inst ← get
  modify fun inst => { inst with components := inst.components ++ [⟨act, numOperands, []⟩] }
  return inst.components.length

/-- `act->dependance(anArg)`. -/
def dependance (act anArg : Nat) : Build InternalDependance := do
  let inst ← get
  assert (anArg < (inst.components[act]?.elim 0 Component.theNumOperands))
  return ⟨some act, anArg⟩

def retirementDependance : Build InternalDependance := do
  let inst ← get
  assert (inst.theRetireDepCount < 5)
  modify fun inst => { inst with theRetireDepCount := inst.theRetireDepCount + 1 }
  return ⟨none, inst.theRetireDepCount⟩

/-- `aSource.action->addDependance(aDependant)`. -/
def connectDependance (aDependant : InternalDependance) (aSource : Nat) : Build Unit := do
  let inst ← get
  assert ((inst.components[aSource]?.elim 4 (·.theDependances.length)) < 4)
  modify fun inst => { inst with
    components := inst.components.modify aSource fun c =>
      { c with theDependances := c.theDependances ++ [aDependant] } }

def connect (dependances : List InternalDependance) (aSource : Nat) : Build Unit :=
  dependances.forM (connectDependance · aSource)

/-! ## Dispatch -/

variable (inst : SemanticInstruction)

/-- The operands that the decoder has set. -/
def decoded : OperandMap := fun code => inst.theOperands.lookup code

/-- The operands after the effects of the dispatch. -/
def dispatch (env : Env) : Except Fault OperandMap :=
  inst.dispatchEffects.foldlM (Effect.invoke env) inst.decoded

/-! ## Evaluation -/

/-- The actions that can be evaluated: those scheduled at dispatch, and those that wait for
    their arguments with their predicate on. -/
def runs (i : Nat) : Bool :=
  inst.components[i]?.elim false fun c =>
    c.theAction.predicate && (!c.theAction.isRead || inst.dispatchActions.contains i)

/-- How many arguments an action waits for. -/
def arity (i : Nat) : Nat :=
  inst.components[i]?.elim 0 fun c => if c.theAction.isRead then 0 else c.theNumOperands

/-- Whether the evaluation of action `j` satisfies argument `k` of action `i`. -/
def signals (j i k : Nat) : Bool :=
  inst.components[j]?.elim false fun c =>
    c.theAction.satisfiesDependants && c.theDependances.contains ⟨some i, k⟩

/-- The actions of a dispatched instruction. -/
def network (env : Env) : Network Nat Store Fault where
  nodes := (List.range inst.components.length).filter inst.runs
  arity := inst.arity
  given i k := inst.dispatchEffects.contains (.satisfy ⟨some i, k⟩)
  signals := inst.signals
  run i s := inst.components[i]?.elim (.ok s) fun c => c.theAction.doEvaluate env s

/-- What the dispatch leaves. -/
def dispatched (m : OperandMap) : Dataflow.State Nat Store := start ⟨m, fun _ => none⟩

/-- An instruction whose actions never fail, and which, whatever order they are evaluated in,
    has evaluated all of them when each has had its turn often enough. -/
structure Completes (env : Env) : Prop where
  dispatches : ∃ m, inst.dispatch env = .ok m
  neverFails : ∀ m, inst.dispatch env = .ok m → ∀ s, Reaches (step (inst.network env)) Anything (dispatched m) s →
    ∀ i f, step (inst.network env) s i ≠ .error f
  finishes : ∀ m, inst.dispatch env = .ok m → ∃ n, ∀ s, Reaches (step (inst.network env)) Anything (dispatched m) s →
    ∀ rounds : List (List Nat), (∀ r ∈ rounds, Round (inst.network env) r) → n ≤ rounds.length →
      ∃ s', Dataflow.evaluate (inst.network env) s rounds.flatten = .ok s' ∧ Finished (inst.network env) s'

end SemanticInstruction

/-- What decoding yields: an instruction, or none for an encoding that is not allocated, whose
    black box executes nothing. -/
abbrev Decoded := Except Fault (Option SemanticInstruction)

def unallocated_encoding : Decoded := .ok none

/-- The instruction that a decoder function builds. -/
def build (m : Build Unit) : Decoded := do
  let (_, inst) ← m.run SemanticInstruction.new
  return some inst

end narmDecoder
