import StackLift.Flow.Dominator

/-!
Natural loops. An edge back to an instruction that dominates its source makes a loop: the head, and
all instructions from which the source can be reached without passing through the head. Edges back
to the same head make one loop.
-/

namespace StackLift

structure Loop where
  head : Nat
  /-- The head, and then the rest in the order of the code. -/
  body : List Nat
  /-- The last instruction that jumps back to the head. -/
  backJump : Nat
  /-- The instructions of the body with a successor outside. -/
  exits : List Nat

namespace FlowGraph

/-- The instructions with an edge back to a head. -/
def backJumps (g : FlowGraph) (d : Dominators) (head : Nat) : List Nat :=
  g.indices.filter fun i => head ∈ g.allSuccessors i && d.isDominatedBy i head

/-- The head and all instructions that lead to the source of an edge back to it without passing the
head.
-/
def bodyOf (g : FlowGraph) (head jump : Nat) : List Nat :=
  head :: visit g.allPredecessors [jump] ((NodeSet.full g.size).erase head)

/-- The loop of the edges from the given instructions back to a head, with the bodies of all. -/
def loopOf (g : FlowGraph) (head : Nat) (jumps : List Nat) : Loop :=
  let inside := NodeSet.ofList g.size (jumps.flatMap (g.bodyOf head))
  let body := head :: (g.indices.erase head).filter inside.contains
  { head
    body
    backJump := jumps.foldl max 0
    exits := body.filter fun i => (g.allSuccessors i).any fun j => !inside.contains j }

/-- The natural loops by the given dominators, in the order of their heads. -/
def loopsBy (g : FlowGraph) (d : Dominators) : List Loop :=
  g.indices.filterMap fun head =>
    match g.backJumps d head with
    | [] => none
    | jumps => some (g.loopOf head jumps)

def loops (g : FlowGraph) : List Loop :=
  g.loopsBy (.ofGraph g)

end FlowGraph

end StackLift
