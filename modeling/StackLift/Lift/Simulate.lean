import StackLift.Lift.Effect
import StackLift.Lift.Store

/-! Simulation of the nodes that are no labels: they change the frame of their one predecessor. -/

namespace StackLift

def Comparison.binaryOp : Comparison → BinaryOp
  | .eq => .eq
  | .ge => .ge
  | .gt => .gt
  | .le => .le
  | .lt => .lt
  | .ne => .neq

def Equality.binaryOp : Equality → BinaryOp
  | .eq => .eq
  | .ne => .neq

namespace LiftM

/-- Emits the code of an effect and gives the frame after it. -/
def perform (p : Plan) (node : Nat) : Effect → LiftM Frame
  | .move f => return f
  | .compute f e => do
    let register ← compute node e
    return f.push (.register register)
  | .emit f i => do
    emit node i
    return f
  | .store f slot value => store p node slot f value
  | .update f slot e => do
    let register ← compute node e
    store p node slot f (.register register)
  | .computeTwice f first second => do
    let register ← compute node first
    let register ← compute node (second (.register register))
    return f.push (.register register)

-- Branches

/-- The label of the next node, if that node is a label of the code. -/
def nextLabel? (p : Plan) (node : Nat) : LiftM (Option CodeLabel) := do
  match p.node? (node + 1) with
  | some (.label l) => return (← get).labels.lookup l
  | _ => return none

/-- A conditional jump. It goes on to the label of the next node, and to a fresh label after itself
if the next node is none.
-/
def branchOn (p : Plan) (node : Nat) (op : BinaryOp) (left right : Value) (target : Label) :
    LiftM Unit := do
  let onTrue ← labelOf target
  let condition : BinaryExpr := { op, type := .boolean, left, right }
  match ← nextLabel? p node with
  | some onFalse => emit node (.branch condition onTrue onFalse)
  | none =>
    let onFalse ← freshLabel
    emit node (.branch condition onTrue onFalse)
    emit node (.label onFalse)

/-- A switch on integer keys. -/
def switchOn (node : Nat) (key : Value) (targets : List (Int32 × Label)) (default : Label) :
    LiftM Unit := do
  let cases ← targets.mapM fun (number, target) => do
    return (Value.constant (.int number), ← labelOf target)
  emit node (.switch key cases (← labelOf default))

/-- Simulates a branch and gives the frame after it. -/
def simulateBranch (p : Plan) (node : Nat) (f : Frame) : Branch → LiftM Frame
  | .returnVoid => do
    emit node (.returns none)
    return f
  | .returnValue _ => do
    let (value, f) ← f.pop node
    emit node (.returns (some value))
    return f
  | .throw => do
    let (exception, f) ← f.pop node
    emit node (.throws exception)
    return f
  | .goto target => do
    emit node (.jump (← labelOf target))
    return f
  | .ifZero comparison target => do
    let (value, f) ← f.pop node
    branchOn p node comparison.binaryOp value (.constant (.zero value.type)) target
    return f
  | .ifInt comparison target => do
    let (right, f) ← f.pop node
    let (left, f) ← f.pop node
    branchOn p node comparison.binaryOp left right target
    return f
  | .ifReference comparison target => do
    let (right, f) ← f.pop node
    let (left, f) ← f.pop node
    branchOn p node comparison.binaryOp left right target
    return f
  | .ifNull comparison target => do
    let (value, f) ← f.pop node
    branchOn p node comparison.binaryOp value (.constant .null) target
    return f
  | .tableSwitch default low targets => do
    let (key, f) ← f.pop node
    let numbered := targets.zipIdx.map fun (target, offset) => (low + Int32.ofNat offset, target)
    switchOn node key numbered default
    return f
  | .lookupSwitch default targets => do
    let (key, f) ← f.pop node
    switchOn node key targets default
    return f

-- Nodes

/-- The frame after the only predecessor of a node. -/
def predecessorFrame (p : Plan) (node : Nat) : LiftM Frame := do
  let u ← p.graph.graph.singlePredecessor node
  match (← get).frameOf? u with
  | some f => return f
  | none => throw (.frameOutOfOrder node)

/-- Gives the registers of a frame the types that a stack map frame declares. -/
def refine (p : Plan) (node : Nat) (f : Frame) : LiftM Frame := do
  match p.declared.lookup node with
  | none => throw (.frameOutOfOrder node)
  | some d =>
    let s ← get
    let (f, refinements) := (d.refine f).run s.refinements
    set { s with refinements }
    return f

/-- Simulates a line mark, a stack map frame, an instruction or a branch. A label leaves the frame
as it is.
-/
def simulate (p : Plan) (number : Nat) (node : Node) (f : Frame) : LiftM Frame := do
  match node with
  | .label _ => return f
  | .line line start =>
    emit number (.line line (← labelOf start))
    return f
  | .frame _ => refine p number f
  | .plain instruction => perform p number (← instruction.effect number f)
  | .branch b => simulateBranch p number f b

end LiftM

end StackLift
