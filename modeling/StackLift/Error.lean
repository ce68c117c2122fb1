import StackLift.Bytecode.Label
import StackLift.Descriptor.Reader
import StackLift.Ir.CodeLabel
import StackLift.Ir.TypeName
import StackLift.Listing.Fault
import StackLift.Text.Layout

/-! Errors of reading, lifting and analysing a method. -/

namespace StackLift

inductive Error where
  /-- A label of a method that has no place, or only a place that cannot be reached. -/
  | unplacedLabel (label : Label)
  /-- A label of register code without an instruction to jump to. -/
  | unplacedTarget (label : CodeLabel)
  | noSinglePredecessor (node : Nat)
  /-- A node was visited before one of its forward predecessors. -/
  | frameOutOfOrder (node : Nat)
  | emptyStack (node : Nat)
  | missingLocal (node slot : Nat)
  | badDescriptor (text : String) (cause : DescriptorError)
  | malformedLine (line : Nat) (fault : Listing.Fault)
  /-- An uninitialized type whose label has no `new` after it. -/
  | uninitializedWithoutNew (label : Label)
  | dynamicBootstrapArgument (name : MemberName)
  | nestedDynamicConstant (name : MemberName)
  | incompatibleStackTypes (node : Nat) (types : List TypeName)
  | untypedNull (node slot : Nat)
  | classNotFound (name : TypeName)
  | methodNotFound (owner : TypeName) (name : String) (arguments : List TypeName)
  /-- The passes of the simplifier did not come to rest. -/
  | unsettled
deriving DecidableEq

/-- Classes of errors that callers treat alike. -/
inductive ErrorCategory where
  | malformed
  | typeInconsistency
  | notFound
deriving DecidableEq

namespace Error

def category : Error → ErrorCategory
  | .incompatibleStackTypes .. | .untypedNull .. => .typeInconsistency
  | .classNotFound _ | .methodNotFound .. => .notFound
  | _ => .malformed

def isNotFound (e : Error) : Bool :=
  e.category = .notFound

def invalidHere (what : String) : String :=
  "Instruction " ++ what ++ " is not valid here"

def message : Error → String
  | .unplacedLabel label => "Unresolvable label " ++ label.render
  | .unplacedTarget label => "Unresolvable label " ++ label.render
  | .noSinglePredecessor node => "No single predecessor for node " ++ toString node
  | .frameOutOfOrder node => "Incorrect frame processing order at node " ++ toString node
  | .emptyStack node => "Pop from empty stack at node " ++ toString node
  | .missingLocal node slot =>
    "Local variable " ++ toString slot ++ " is undefined at node " ++ toString node
  | .badDescriptor text cause => "Bad descriptor '" ++ text ++ "': " ++ cause.message
  | .malformedLine line fault => "Parse error on line " ++ toString line ++ ": " ++ fault.message
  | .uninitializedWithoutNew label => invalidHere ("uninitialized " ++ label.render)
  | .dynamicBootstrapArgument name =>
    invalidHere ("dynamic constant " ++ name.text ++ " as bootstrap argument")
  | .nestedDynamicConstant name => invalidHere ("nested dynamic constant " ++ name.text)
  | .incompatibleStackTypes node types =>
    "Incorrect stack types at node " ++ toString node ++ ": "
      ++ Text.bracketed (types.map TypeName.text)
  | .untypedNull node slot =>
    "Cannot determine type of null-typed local " ++ toString slot ++ " at node " ++ toString node
  | .classNotFound name => "Class not found: " ++ name.text
  | .methodNotFound owner name arguments =>
    "Method not found: "
      ++ Text.applied (owner.text ++ "." ++ name) (arguments.map TypeName.text)
  | .unsettled => "Simplification did not come to rest"

end Error

end StackLift
