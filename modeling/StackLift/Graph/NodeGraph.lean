import StackLift.Error
import StackLift.Graph.Reach

/-!
Predecessor graphs over numbered nodes. Node 0 is the entry, and a node that cannot be reached from
it is dead once the graph is pruned.
-/

namespace StackLift

/-- Inserts a number into an ascending list without repeats. -/
def insertAscending (n : Nat) : List Nat → List Nat
  | [] => [n]
  | m :: rest =>
    if n < m then n :: m :: rest
    else if n = m then m :: rest
    else m :: insertAscending n rest

/-- A graph with the predecessors of each node, in ascending order, and the nodes found dead. -/
structure NodeGraph where
  predecessorLists : Array (List Nat)
  dead : List Nat
deriving DecidableEq

namespace NodeGraph

/-- The node from which every live node can be reached. -/
def entry : Nat := 0

def empty (size : Nat) : NodeGraph :=
  { predecessorLists := Array.replicate size [], dead := [] }

def size (g : NodeGraph) : Nat :=
  g.predecessorLists.size

def nodes (g : NodeGraph) : List Nat :=
  List.range g.size

def predecessors (g : NodeGraph) (node : Nat) : List Nat :=
  g.predecessorLists.getD node []

/-- The nodes with the given node among their predecessors, in ascending order. -/
def successors (g : NodeGraph) (node : Nat) : List Nat :=
  g.nodes.filter fun v => node ∈ g.predecessors v

def addEdge (g : NodeGraph) (source target : Nat) : NodeGraph :=
  { g with predecessorLists := g.predecessorLists.modify target (insertAscending source) }

def addEdges (g : NodeGraph) (sources : List Nat) (target : Nat) : NodeGraph :=
  sources.foldl (fun g source => g.addEdge source target) g

def hasSeveralPredecessors (g : NodeGraph) (node : Nat) : Bool :=
  1 < (g.predecessors node).length

def singlePredecessor (g : NodeGraph) (node : Nat) : Except Error Nat :=
  match g.predecessors node with
  | [u] => .ok u
  | _ => .error (.noSinglePredecessor node)

def isDead (g : NodeGraph) (node : Nat) : Bool :=
  node ∈ g.dead

def reachable (g : NodeGraph) : List Nat :=
  reachableFrom g.successors g.size entry

/-- The nodes that cannot be reached from the entry, in ascending order. -/
def unreachable (g : NodeGraph) : List Nat :=
  let reachable := g.reachable
  g.nodes.filter (· ∉ reachable)

/-- Marks the given nodes dead and removes their edges. -/
def kill (g : NodeGraph) (nodes : List Nat) : NodeGraph :=
  let dead := nodes.foldl (fun dead n => insertAscending n dead) g.dead
  { predecessorLists :=
      g.predecessorLists.mapIdx fun node preds =>
        if node ∈ nodes then [] else preds.filter (· ∉ dead)
    dead }

/-- Marks the unreachable nodes dead and removes their edges. -/
def prune (g : NodeGraph) : NodeGraph :=
  let unreachable := g.unreachable
  if unreachable.isEmpty then g else g.kill unreachable

/-- The nodes of a set through which control enters it: those without predecessors and those with a
predecessor outside.
-/
def startNodes (g : NodeGraph) (set : List Nat) : List Nat :=
  set.filter fun node =>
    (g.predecessors node).isEmpty || (g.predecessors node).any (· ∉ set)

end NodeGraph

end StackLift
