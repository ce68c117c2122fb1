import StackLift.Lift.State

/-! Jumps into joins: control never falls into a join, so a node before one jumps to it. -/

namespace StackLift

namespace LiftM

/-- The label of a join; a join that is no label gets a fresh one. -/
def joinLabel (p : Plan) (node : Nat) : LiftM CodeLabel := do
  match p.node? node with
  | some (.label l) => labelOf l
  | _ =>
    let l ← freshLabel
    editCode node (.label l :: ·)
    return l

/-- Is the node a join with code that is not the start of a handler? -/
def isJoin (p : Plan) (node : Nat) : LiftM Bool := do
  return !((← get).codeOf node).isEmpty
    && (p.graph.handlers.lookup node).isNone
    && p.graph.graph.hasSeveralPredecessors node

/-- Adds the jumps of the predecessors that do not branch to a join. -/
def insertJumpsTo (p : Plan) (node : Nat) : LiftM Unit := do
  if ← isJoin p node then
    match (p.graph.graph.predecessors node).filter fun u => !p.isBranching u with
    | [] => return
    | falling =>
      let l ← joinLabel p node
      falling.forM fun u => emit u (.jump l)

def insertJumps (p : Plan) : LiftM Unit :=
  p.graph.graph.nodes.forM (insertJumpsTo p)

end LiftM

end StackLift
