import StackLift.Name

/-! Descriptors: the types of fields, variables and methods, and their written form. -/

namespace StackLift

/-- The primitive value types. -/
inductive BaseType where
  | byte
  | char
  | double
  | float
  | int
  | long
  | short
  | boolean
deriving DecidableEq

/-- Classes and arrays. An array has one dimension more than its extra dimensions. -/
inductive RefType where
  | object (name : ClassName)
  | objectArray (extraDimensions : Nat) (element : ClassName)
  | primitiveArray (extraDimensions : Nat) (element : BaseType)
deriving DecidableEq

inductive FieldType where
  | base (type : BaseType)
  | ref (type : RefType)
deriving DecidableEq

/-- Parameters and result of a method; a method without result returns `none`. -/
structure MethodDescriptor where
  parameters : List FieldType
  returnType : Option FieldType
deriving DecidableEq

-- Widths: a `long` or `double` takes two slots, everything else takes one

def BaseType.width : BaseType → Nat
  | .double | .long => 2
  | _ => 1

def FieldType.width : FieldType → Nat
  | .base type => type.width
  | .ref _ => 1

/-- The number of local slots that the parameters take, with one more for a receiver. -/
def MethodDescriptor.parameterSlots (d : MethodDescriptor) (hasReceiver : Bool) : Nat :=
  (d.parameters.map FieldType.width).foldl (· + ·) hasReceiver.toNat

-- Written form

/-- The keyword of a primitive type. -/
def BaseType.keyword : BaseType → String
  | .byte => "byte"
  | .char => "char"
  | .double => "double"
  | .float => "float"
  | .int => "int"
  | .long => "long"
  | .short => "short"
  | .boolean => "boolean"

def BaseType.letter : BaseType → Char
  | .byte => 'B'
  | .char => 'C'
  | .double => 'D'
  | .float => 'F'
  | .int => 'I'
  | .long => 'J'
  | .short => 'S'
  | .boolean => 'Z'

def BaseType.render (type : BaseType) : List Char :=
  [type.letter]

def ClassName.render (name : ClassName) : List Char :=
  'L' :: (name.text.toList ++ [';'])

def RefType.render : RefType → List Char
  | .object name => name.render
  | .objectArray extra element => List.replicate (extra + 1) '[' ++ element.render
  | .primitiveArray extra element => List.replicate (extra + 1) '[' ++ element.render

def FieldType.render : FieldType → List Char
  | .base type => type.render
  | .ref type => type.render

def MethodDescriptor.render (d : MethodDescriptor) : List Char :=
  '(' :: (d.parameters.flatMap FieldType.render
    ++ ')' :: (match d.returnType with
      | none => ['V']
      | some type => type.render))

end StackLift
