import StackLift.Frame.DeclaredTypes

/-! What lifting a method knows before it simulates the first node. -/

namespace StackLift

structure Settings where
  /-- Name registers after the entries of the variable table. -/
  keepNames : Bool
  /-- Simplify the lifted code. -/
  simplify : Bool
  /-- Let the code start with a line mark if it has any. -/
  firstLine : Bool

/-- An entry of the variable table with the nodes of its range. -/
structure Variable where
  slot : Nat
  name : String
  type : TypeName
  start : Nat
  stop : Nat

structure Plan where
  method : Method
  settings : Settings
  graph : MethodGraph
  /-- The nodes of all labels, in the order of the stream. -/
  places : List (Label × Nat)
  variableTable : List Variable
  /-- The types that the stack map frames declare, by node. -/
  declared : List (Nat × DeclaredTypes)

namespace Plan

def resolveVariable (places : List (Label × Nat)) (entry : VariableEntry) :
    Except Error Variable := do
  let start ← MethodGraph.lookUp places entry.start
  let stop ← MethodGraph.lookUp places entry.stop
  return {
    slot := entry.slot
    name := entry.name.text
    type := .ofField entry.descriptor
    start
    stop }

def ofMethod (m : Method) (settings : Settings) : Except Error Plan := do
  let graph ← MethodGraph.ofMethod m
  let places := MethodGraph.placedLabels 1 m.nodes
  let variableTable ← m.variableTable.mapM (resolveVariable places)
  let declared ← DeclaredTypes.ofMethod m places
  return { method := m, settings, graph, places, variableTable, declared }

/-- The node with the given number; the entry is none. -/
def node? (p : Plan) : (number : Nat) → Option Node
  | 0 => none
  | n + 1 => p.method.nodes[n]?

def isBranching (p : Plan) (number : Nat) : Bool :=
  (p.node? number).any Node.isBranching

/-- The first variable of a slot whose range covers a node. -/
def variableAt? (p : Plan) (slot node : Nat) : Option Variable :=
  p.variableTable.find? fun v => v.slot = slot && v.start ≤ node && node ≤ v.stop

/-- The node of the first label of the method. -/
def firstLabel? (p : Plan) : Option Nat :=
  p.places.head?.map Prod.snd

/-- The node of the first label that does not come before a node. -/
def labelFrom? (p : Plan) (node : Nat) : Option Nat :=
  (p.places.find? fun place => node ≤ place.2).map Prod.snd

/-- The only variable of a slot whose range starts at the first label after a store. -/
def declaredVariable? (p : Plan) (slot node : Nat) : Option Variable :=
  match p.variableTable.filter fun v => v.slot = slot && some v.start = p.labelFrom? node with
  | [v] => some v
  | _ => none

/-- The types declared by the stack map frame after a node; line marks may stand between. -/
def typesAfter? (p : Plan) (node : Nat) : Option DeclaredTypes :=
  let isLine : Node → Bool
    | .line .. => true
    | _ => false
  let lines := ((p.method.nodes.drop node).takeWhile isLine).length
  p.declared.lookup (node + lines + 1)

/-- The names of the parameters: the variables in the order of their slots name them one after the
other, and a parameter without a variable has the name that the method gives it.
-/
def parameterName (p : Plan) (index : Nat) : Option String :=
  let bySlot := p.variableTable.mergeSort fun v w => v.slot ≤ w.slot
  let place := if p.method.isStatic then index else index + 1
  match bySlot[place]? with
  | some v => some v.name
  | none => (p.method.parameterNames[index]?).join.map MemberName.text

/-- Puts the parameters into their slots. -/
def putParameters (p : Plan) (f : Frame) :
    (slot index : Nat) → List FieldType → Frame
  | _, _, [] => f
  | slot, index, type :: rest =>
    let argument := Argument.make index (p.parameterName index) (.ofField type)
    putParameters p (f.putLocal slot (.argument argument)) (slot + type.width) (index + 1) rest

/-- The frame at the entry: the receiver and the parameters. -/
def entryFrame (p : Plan) : Frame :=
  if p.method.isStatic then
    p.putParameters .empty 0 0 p.method.descriptor.parameters
  else
    p.putParameters (Frame.empty.putLocal 0 (.this (.ofClass p.method.owner))) 1 0
      p.method.descriptor.parameters

end Plan

end StackLift
