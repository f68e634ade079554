import Mathlib.Tactic

/-!
# The generator of torus and mesh networks

The generator writes a file with a switch for each node, in two dimensions whose sizes are
powers of two. The lines of the file connect the ports of the switches and give each switch
a route to each node. Only these lines are kept here.
-/

namespace nNetShim

namespace Torus

abbrev DIMS : Nat := 2

scoped instance neZero_DIMS : NeZero DIMS := ⟨two_ne_zero⟩

inductive Direction where
  | NORTH | SOUTH | EAST | WEST | LOCAL
  deriving DecidableEq, Repr

/-- The port that a direction is written as. -/
def Direction.port : Direction → Nat
  | NORTH => 2
  | SOUTH => 4
  | EAST => 3
  | WEST => 1
  | LOCAL => 0

/-- What a line of the file says. -/
inductive Line where
  | TopNode (node sw port : Nat)
  | TopSwitch (node1 port1 node2 port2 : Nat)
  | Route (currNode destNode outPort outVC : Nat)
  deriving DecidableEq, Repr

/-- The largest power of two that is not above a number. -/
def getToPow2 : Nat → Nat
  | 0 => 0
  | n + 1 => if (n + 1) &&& n ≠ 0 then getToPow2 n else n + 1

/-- The checked arguments. Each dimension of an accepted network has a power of two of nodes. -/
structure Generator where
  numNodes : Nat
  nodesPerDim : Fin DIMS → Nat
  isTorus : Bool
  pow2 : ∀ i, ∃ k, nodesPerDim i = 2 ^ k
  area : nodesPerDim 0 * nodesPerDim 1 = numNodes

theorem and_sub_one_eq_zero {n : Nat} (hn : n ≠ 0) : n &&& (n - 1) = 0 ↔ ∃ k, n = 2 ^ k :=
  Nat.and_sub_one_eq_zero_iff_isPowerOfTwo hn

theorem getToPow2_eq {k n : Nat} (hle : 2 ^ k ≤ n) (hlt : n < 2 ^ (k + 1)) : getToPow2 n = 2 ^ k := by
  have hpos : 0 < 2 ^ k := by positivity
  induction n with
  | zero => omega
  | succ n ih =>
    unfold getToPow2
    by_cases hpow : (n + 1) &&& n = 0
    · rw [if_neg (not_not_intro hpow)]
      obtain ⟨j, (hj : n + 1 = 2 ^ j)⟩ := (and_sub_one_eq_zero (Nat.succ_ne_zero n)).mp hpow
      rw [hj] at hle hlt ⊢
      have hkj : k ≤ j := (Nat.pow_le_pow_iff_right (by decide)).mp hle
      have hjk : j < k + 1 := (Nat.pow_lt_pow_iff_right (by decide)).mp hlt
      rw [Nat.le_antisymm hkj (Nat.le_of_lt_succ hjk)]
    · rw [if_pos hpow]
      have hne : n + 1 ≠ 2 ^ k := fun heq => hpow ((and_sub_one_eq_zero (Nat.succ_ne_zero n)).mpr ⟨k, heq⟩)
      exact ih (by omega) (by omega)

/-- The number of nodes in the first dimension. -/
def firstDim (numNodes : Nat) : Nat := getToPow2 numNodes.sqrt

theorem firstDim_two_pow (k : Nat) : firstDim (2 ^ k) = 2 ^ (k / 2) := by
  apply getToPow2_eq
  · rw [Nat.le_sqrt', ← pow_mul]
    exact Nat.pow_le_pow_right (by decide) (by omega)
  · rw [Nat.sqrt_lt', ← pow_mul]
    exact Nat.pow_lt_pow_right (by decide) (by omega)

theorem div_firstDim_two_pow (k : Nat) : 2 ^ k / firstDim (2 ^ k) = 2 ^ (k - k / 2) := by
  rw [firstDim_two_pow]
  exact Nat.pow_div (Nat.div_le_self k 2) (by decide)

/-- Check the number of nodes and the options of the shape and the routing. -/
def processArguments (numNodes : Int) (shape routing : String) : Option Generator :=
  if h : numNodes ≤ 0 ∨ numNodes.toNat &&& (numNodes.toNat - 1) ≠ 0 then none
  else
    have hpow : ∃ k, numNodes.toNat = 2 ^ k := by
      rw [not_or, not_not] at h
      exact (and_sub_one_eq_zero (by omega)).mp h.2
    let accept (isTorus : Bool) : Generator :=
      { numNodes := numNodes.toNat
        nodesPerDim := ![firstDim numNodes.toNat, numNodes.toNat / firstDim numNodes.toNat]
        isTorus := isTorus
        pow2 := by
          obtain ⟨k, hk⟩ := hpow
          rw [hk]
          intro i
          fin_cases i
          · exact ⟨_, firstDim_two_pow k⟩
          · exact ⟨_, div_firstDim_two_pow k⟩
        area := by
          obtain ⟨k, hk⟩ := hpow
          rw [hk]
          refine Nat.mul_div_cancel' ?_
          rw [firstDim_two_pow]
          exact pow_dvd_pow 2 (Nat.div_le_self k 2) }
    if routing.toLower = "-d" then
      if shape.toLower = "-t" then some (accept true)
      else if shape.toLower = "-m" then some (accept false)
      else none
    else none

namespace Generator

variable (g : Generator)

/-- Each switch has its own node at port 0. -/
def generateSwitches : List Line := (List.range g.numNodes).map fun i => .TopNode i i 0

def getXCoord (nodeId : Nat) : Nat := nodeId % g.nodesPerDim 0

def getYCoord (nodeId : Nat) : Nat := nodeId / g.nodesPerDim 0

/-- The generator stops at coordinates that are out of bounds. -/
def getNodeIdCoord (x y : Nat) : Option Nat :=
  let id := x + y * g.nodesPerDim 0
  if g.numNodes ≤ id then none else some id

def writeS2S (node1 : Nat) (dir1 : Direction) (node2 : Nat) (dir2 : Direction) : Line :=
  .TopSwitch node1 dir1.port node2 dir2.port

/-- Connect two switches that are given by their coordinates. -/
def connect (x1 y1 : Nat) (dir1 : Direction) (x2 y2 : Nat) (dir2 : Direction) : Option Line := do
  return writeS2S (← g.getNodeIdCoord x1 y1) dir1 (← g.getNodeIdCoord x2 y2) dir2

/-- A line that is `none` is an error that stops the generator. -/
def generateMeshTopology (nodeId : Nat) : List (Option Line) :=
  let x := g.getXCoord nodeId
  let y := g.getYCoord nodeId
  (if x ≠ g.nodesPerDim 0 - 1 then [g.connect x y .EAST (x + 1) y .WEST] else []) ++
    (if y ≠ g.nodesPerDim 1 - 1 then [g.connect x y .SOUTH x (y + 1) .NORTH] else [])

def generateTorusTopology (nodeId : Nat) : List (Option Line) :=
  let x := g.getXCoord nodeId
  let y := g.getYCoord nodeId
  [g.connect x y .EAST ((x + 1) % g.nodesPerDim 0) y .WEST,
    g.connect x y .SOUTH x ((y + 1) % g.nodesPerDim 1) .NORTH]

def writeBasicRoute (currNode destNode : Nat) (outPort : Direction) (outVC : Nat) : Line :=
  .Route currNode destNode outPort.port outVC

/-- Whether the way in the positive direction is taken around a ring. -/
def positive (off : Int) (nodes : Nat) : Bool :=
  decide (0 < off ∧ off < (nodes : Int).tdiv 2 ∨ off < (-(nodes : Int)).tdiv 2)

def generateDeadlockFreeTorusRoute (currNode destNode : Nat) : Line :=
  if currNode = destNode then writeBasicRoute currNode destNode .LOCAL 0
  else
    let xoff : Int := g.getXCoord destNode - g.getXCoord currNode
    let yoff : Int := g.getYCoord destNode - g.getYCoord currNode
    let xVC := (decide (g.getXCoord currNode < g.getXCoord destNode)).toNat
    let yVC := (decide (g.getYCoord currNode < g.getYCoord destNode)).toNat
    if xoff ≠ 0 then
      if positive xoff (g.nodesPerDim 0) then writeBasicRoute currNode destNode .EAST xVC
      else writeBasicRoute currNode destNode .WEST xVC
    else if positive yoff (g.nodesPerDim 1) then writeBasicRoute currNode destNode .SOUTH yVC
    else writeBasicRoute currNode destNode .NORTH yVC

def generateDeadlockFreeMeshRoute (currNode destNode : Nat) : Option Line :=
  let xoff : Int := g.getXCoord destNode - g.getXCoord currNode
  let yoff : Int := g.getYCoord destNode - g.getYCoord currNode
  if currNode = destNode then some (writeBasicRoute currNode destNode .LOCAL 0)
  else if xoff < 0 then some (writeBasicRoute currNode destNode .WEST 0)
  else if 0 < xoff then some (writeBasicRoute currNode destNode .EAST 0)
  else if yoff < 0 then some (writeBasicRoute currNode destNode .NORTH 0)
  else if 0 < yoff then some (writeBasicRoute currNode destNode .SOUTH 0)
  else none

def topology (nodeId : Nat) : List (Option Line) :=
  if g.isTorus then g.generateTorusTopology nodeId else g.generateMeshTopology nodeId

def route (currNode destNode : Nat) : Option Line :=
  if g.isTorus then some (g.generateDeadlockFreeTorusRoute currNode destNode)
  else g.generateDeadlockFreeMeshRoute currNode destNode

/-- The switches, the topology and the routes, in the order of the file. -/
def written : List (Option Line) :=
  let nodes := List.range g.numNodes
  g.generateSwitches.map some ++ nodes.flatMap g.topology ++
    nodes.flatMap fun i => nodes.map fun j => g.route i j

/-- The lines of the file, unless the generator stops with an error. -/
def generate : Option (List Line) := g.written.mapM id

end Generator

/-- What the program writes for its arguments, unless it stops with an error. -/
def main (numNodes : Int) (shape routing : String) : Option (List Line) := do
  (← processArguments numNodes shape routing).generate

end Torus

end nNetShim
