import StackLift.Graph.NodeSet

/-! Reachability in a finite graph given by the successors of each node. -/

namespace StackLift

/-- Visits the nodes of the agenda and all that can be reached from them through unseen nodes. Each
node is visited once.
-/
def visit (next : Nat → List Nat) : (agenda : List Nat) → (unseen : NodeSet) → List Nat
  | [], _ => []
  | u :: agenda, unseen =>
    if unseen.contains u then u :: visit next (next u ++ agenda) (unseen.erase u)
    else visit next agenda unseen
termination_by agenda unseen => agenda.length + (unseen.nodes.flatMap next).length
decreasing_by
  · -- the successors of the node move from those of the unseen nodes to the agenda
    rename_i h
    have moved := ((List.perm_cons_erase (NodeSet.mem_nodes.mpr h)).flatMap_right next).length_eq
    simp only [List.flatMap_cons, List.length_append] at moved
    simp only [List.length_append, List.length_cons, NodeSet.nodes_erase]
    omega
  · simp

/-- The nodes below the bound that can be reached from a node, which is one of them. -/
def reachableFrom (next : Nat → List Nat) (bound start : Nat) : List Nat :=
  visit next [start] (.full bound)

end StackLift
