import StackLift.Access
import StackLift.Bytecode.Node

/-! Methods: a stream of nodes with its exception table and variable table. -/

namespace StackLift

/-- An entry of the exception table. It protects the nodes from `start` to before `stop`, and
without a catch type it handles everything.
-/
structure ProtectedRange where
  start : Label
  stop : Label
  handler : Label
  catchType : Option ClassName

/-- An entry of the variable table: the name and type of a slot between two labels. -/
structure VariableEntry where
  name : MemberName
  descriptor : FieldType
  start : Label
  stop : Label
  slot : Nat

structure Method where
  owner : ClassName
  name : MemberName
  descriptor : MethodDescriptor
  flags : AccessFlags
  /-- One entry for each parameter of the descriptor. -/
  parameterNames : List (Option MemberName)
  nodes : List Node
  ranges : List ProtectedRange
  variableTable : List VariableEntry

namespace Method

def isStatic (m : Method) : Bool :=
  m.flags.isStatic

/-- The number of slots that the receiver and the parameters take. -/
def argumentSlots (m : Method) : Nat :=
  m.descriptor.parameterSlots !m.isStatic

/-- The place in the stream where a label stands. -/
def labelPosition? (m : Method) (label : Label) : Option Nat :=
  m.nodes.findIdx? (·.label? = some label)

/-- Owner, name and descriptor. -/
def signature (m : Method) : String :=
  m.owner.text ++ "." ++ m.name.text ++ String.ofList m.descriptor.render

end Method

end StackLift
