import StackLift.Graph.NodeGraph

/-!
The order in which the nodes of a method are simulated: each node follows all its predecessors
except those along back edges, which a depth-first walk finds.
-/

namespace StackLift

/-- The two moments of a depth-first walk at which a node is met. -/
inductive WalkEvent where
  | enter (node : Nat)
  | leave (node : Nat)
deriving DecidableEq

namespace WalkEvent

/-- Carries out the agenda. Entering an unseen node records it and puts its successors and the
leaving of the node before the rest of the agenda.
-/
def run (next : Nat → List Nat) : (agenda : List WalkEvent) → (unseen : List Nat) → List WalkEvent
  | [], _ => []
  | .leave u :: agenda, unseen => .leave u :: run next agenda unseen
  | .enter u :: agenda, unseen =>
    if u ∈ unseen then
      .enter u :: run next ((next u).map .enter ++ .leave u :: agenda) (unseen.erase u)
    else
      run next agenda unseen
termination_by agenda unseen => agenda.length + (unseen.flatMap fun u => u :: next u).length
decreasing_by
  · simp
  · rename_i h
    have moved := ((List.perm_cons_erase h).flatMap_right fun u => u :: next u).length_eq
    simp only [List.flatMap_cons, List.length_append, List.length_cons] at moved
    simp only [List.length_append, List.length_map, List.length_cons]
    omega
  · simp

end WalkEvent

namespace NodeGraph

/-- The depth-first walk from the entry, which takes the last successor first. -/
def walk (g : NodeGraph) : List WalkEvent :=
  WalkEvent.run (fun u => (g.successors u).reverse) [.enter entry] g.nodes

/-- The time of an event in a walk, and zero for one that does not happen. -/
def timeOf (walk : List WalkEvent) (event : WalkEvent) : Nat :=
  (walk.idxOf? event).getD 0

/-- Does the edge lead back to a node that the walk has not left? -/
def isBackEdge (walk : List WalkEvent) (source target : Nat) : Bool :=
  source = target
    || (timeOf walk (.enter target) < timeOf walk (.enter source)
      && timeOf walk (.leave source) < timeOf walk (.leave target))

/-- The predecessors that have to come before a node. -/
def forwardPredecessors (g : NodeGraph) (walk : List WalkEvent) (node : Nat) : List Nat :=
  (g.predecessors node).filter fun u => !isBackEdge walk u node

/-- Takes the first ready node and makes ready each forward successor that waits for no pending
node any more.
-/
def release (g : NodeGraph) (walk : List WalkEvent) : (ready pending : List Nat) → List Nat
  | [], _ => []
  | u :: ready, pending =>
    if u ∈ pending then
      let left := pending.erase u
      let opened := (g.successors u).filter fun v =>
        !isBackEdge walk u v && (g.forwardPredecessors walk v).all (· ∉ left)
      u :: release g walk (opened.reverse ++ ready) left
    else
      release g walk ready pending
termination_by ready pending => ready.length + (pending.flatMap g.successors).length
decreasing_by
  · rename_i h
    have moved := ((List.perm_cons_erase h).flatMap_right g.successors).length_eq
    simp only [List.flatMap_cons, List.length_append] at moved
    have few : opened.length ≤ (g.successors u).length := List.length_filter_le ..
    change (opened.reverse ++ ready).length + _ < _
    simp only [List.length_append, List.length_reverse, List.length_cons]
    omega
  · simp

/-- The nodes in the order of simulation. -/
def order (g : NodeGraph) : List Nat :=
  release g g.walk [entry] g.nodes

end NodeGraph

end StackLift
