import StackLift.Graph.Order
import StackLift.Method

/-!
The graph of a method. The nodes of the stream are numbered from one, and the entry comes before the
first of them.
-/

namespace StackLift

structure MethodGraph where
  graph : NodeGraph
  /-- The nodes of the labels that are placed on live nodes, in the order of the stream. -/
  labels : List (Label × Nat)
  /-- The nodes of the handlers, in ascending order, with the indices of the table entries each of
  them handles. -/
  handlers : List (Nat × List Nat)
deriving DecidableEq

namespace MethodGraph

/-- The node of a label: the last one, where it is placed repeatedly. -/
def lookUp (labels : List (Label × Nat)) (label : Label) : Except Error Nat :=
  match labels.reverse.lookup label with
  | some node => .ok node
  | none => .error (.unplacedLabel label)

def nodeOf (g : MethodGraph) (label : Label) : Except Error Nat :=
  lookUp g.labels label

/-- The nodes of all labels of a stream whose first node has the given number. -/
def placedLabels : (number : Nat) → List Node → List (Label × Nat)
  | _, [] => []
  | number, .label l :: rest => (l, number) :: placedLabels (number + 1) rest
  | number, _ :: rest => placedLabels (number + 1) rest

/-- The labels without a place on a dead node. -/
def liveLabels (g : NodeGraph) (labels : List (Label × Nat)) : List (Label × Nat) :=
  labels.filter fun l => labels.all fun k => k.1 ≠ l.1 || !g.isDead k.2

/-- The nodes to which control goes from a node without an exception; `next` is the following node,
if there is one.
-/
def flow (labels : List (Label × Nat)) (next : List Nat) : Node → Except Error (List Nat)
  | .branch b =>
    if b.isTerminal then .ok []
    else do
      let targets ← b.targets.mapM (lookUp labels)
      return targets ++ if b.fallsThrough then next else []
  | _ => .ok next

/-- Adds the edges of the nodes from the given number on. -/
def addFlow (labels : List (Label × Nat)) (g : NodeGraph) :
    (number : Nat) → List Node → Except Error NodeGraph
  | _, [] => .ok g
  | number, node :: rest => do
    let next := if rest.isEmpty then [] else [number + 1]
    let targets ← flow labels next node
    addFlow labels (targets.foldl (fun g v => g.addEdge number v) g) (number + 1) rest

/-- Inserts an index into the entries of a handler. -/
def addHandler (handler : Nat) (indices : List Nat) : List (Nat × List Nat) → List (Nat × List Nat)
  | [] => [(handler, indices)]
  | (node, old) :: rest =>
    if handler < node then (handler, indices) :: (node, old) :: rest
    else if handler = node then (node, old ++ indices) :: rest
    else (node, old) :: addHandler handler indices rest

/-- Adds the edges of an entry of the exception table: control reaches the handler from each
protected node and from the predecessors of the first one that lie outside. An entry that protects
its own handler adds none.
-/
def addRange (labels : List (Label × Nat)) (state : NodeGraph × List (Nat × List Nat))
    (entry : ProtectedRange × Nat) : Except Error (NodeGraph × List (Nat × List Nat)) := do
  let (g, handlers) := state
  let start ← lookUp labels entry.1.start
  let stop ← lookUp labels entry.1.stop
  let handler ← lookUp labels entry.1.handler
  if start = handler then
    return (g, addHandler handler [] handlers)
  else
    let g := g.addEdges (List.range' start (stop - start)) handler
    let outside := (g.predecessors start).filter fun u => u < start || stop < u
    return (g.addEdges outside handler, addHandler handler [entry.2] handlers)

/-- The pruned graph of a method. -/
def ofMethod (m : Method) : Except Error MethodGraph := do
  let labels := placedLabels 1 m.nodes
  let g := NodeGraph.empty (m.nodes.length + 1)
  let g := if m.nodes.isEmpty then g else g.addEdge NodeGraph.entry 1
  let g ← addFlow labels g 1 m.nodes
  let (g, handlers) ← m.ranges.zipIdx.foldlM (addRange labels) (g, [])
  let g := g.prune
  return { graph := g, labels := liveLabels g labels, handlers }

end MethodGraph

end StackLift
