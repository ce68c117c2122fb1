import StackLift.Ir.TypeName
import StackLift.Number.Binary

/-!
Values of register code: the operands of its instructions.

Registers and arguments carry a display name, and registers the way they came about. Both may be
changed after a value was made, so two values that differ in nothing else are the same value.
-/

namespace StackLift

/-- How a register came about. -/
inductive RegisterKind where
  /-- A temporary, or the register of a control-flow join. -/
  | generated
  /-- The result of a simulated instruction. -/
  | result
  /-- A register named after an entry of the variable table. -/
  | named
deriving DecidableEq

structure Register where
  index : Nat
  type : TypeName
  name : String
  kind : RegisterKind
deriving DecidableEq

namespace Register

/-- A register named after its index. -/
def fresh (index : Nat) (type : TypeName) : Register :=
  { index, type, name := "%" ++ toString index, kind := .generated }

/-- Names of generated registers start with a percent sign, all others come from the method. -/
def isNamed (r : Register) : Bool :=
  r.name.toList.head? ≠ some '%'

def withType (r : Register) (type : TypeName) : Register :=
  { r with type }

end Register

/-- A parameter of the method, other than the receiver. -/
structure Argument where
  index : Nat
  type : TypeName
  name : String
deriving DecidableEq

/-- A parameter without a name is named after its index. -/
def Argument.make (index : Nat) (name : Option String) (type : TypeName) : Argument :=
  { index, type, name := name.getD ("arg$" ++ toString index) }

inductive Constant where
  | bool (value : Bool)
  | byte (value : Int8)
  | char (unit : UInt16)
  | short (value : Int16)
  | int (value : Int32)
  | long (value : Int64)
  | float (value : Binary32)
  | double (value : Binary64)
  | null
  | string (text : String)
  | classRef (type : TypeName)
  | method (owner : TypeName) (name : String) (arguments : List TypeName) (result : TypeName)
  | methodType (arguments : List TypeName) (result : TypeName)
deriving DecidableEq

namespace Constant

def type : Constant → TypeName
  | .bool _ => .boolean
  | .byte _ => .byte
  | .char _ => .char
  | .short _ => .short
  | .int _ => .int
  | .long _ => .long
  | .float _ => .float
  | .double _ => .double
  | .null => .null
  | .string _ => .string
  | .classRef _ => .classObject
  | .method .. => .methodHandle
  | .methodType .. => .methodType

/-- The zero of a primitive type, and `null` for every other type. -/
def zero (type : TypeName) : Constant :=
  if type = .boolean then .bool false
  else if type = .byte then .byte 0
  else if type = .char then .char 0
  else if type = .short then .short 0
  else if type = .int then .int 0
  else if type = .long then .long 0
  else if type = .float then .float .zero
  else if type = .double then .double .zero
  else .null

end Constant

/-- Operands of expressions and instructions. -/
inductive Value where
  | this (type : TypeName)
  | argument (argument : Argument)
  | register (register : Register)
  | constant (constant : Constant)
  | staticField (owner : TypeName) (name : String) (type : TypeName)
  | field (object : Value) (owner : TypeName) (name : String) (type : TypeName)
  | element (array index : Value) (type : TypeName)
deriving DecidableEq

namespace Value

def type : Value → TypeName
  | .this type => type
  | .argument a => a.type
  | .register r => r.type
  | .constant c => c.type
  | .staticField _ _ type | .field _ _ _ type | .element _ _ type => type

/-- Field and array accesses, which are no operands of other expressions. -/
def isComplex : Value → Bool
  | .staticField .. | .field .. | .element .. => true
  | _ => false

/-- The receiver, arguments, registers and constants. -/
def isSimple (v : Value) : Bool :=
  !v.isComplex

/-- The receiver, arguments and registers. -/
def isVariable : Value → Bool
  | .this _ | .argument _ | .register _ => true
  | _ => false

def isConstant : Value → Bool
  | .constant _ => true
  | _ => false

def register? : Value → Option Register
  | .register r => some r
  | _ => none

/-- The values directly inside a value. -/
def operands : Value → List Value
  | .field object _ _ _ => [object]
  | .element array index _ => [array, index]
  | _ => []

/-- A value and all values inside it, the outer ones first. -/
def subvalues : Value → List Value
  | .field object owner name type =>
    .field object owner name type :: object.subvalues
  | .element array index type =>
    .element array index type :: (array.subvalues ++ index.subvalues)
  | v => [v]

/-- Changes the values that hold no others. -/
def mapLeaves (f : Value → Value) : Value → Value
  | .staticField owner name type => .staticField owner name type
  | .field object owner name type => .field (object.mapLeaves f) owner name type
  | .element array index type => .element (array.mapLeaves f) (index.mapLeaves f) type
  | v => f v

/-- Drops the display name and origin of a register, and the display name of an argument. -/
def dropName : Value → Value
  | .argument a => .argument { a with name := "" }
  | .register r => .register { r with name := "", kind := .generated }
  | v => v

/-- The value without display names and origins. -/
def anonymous (v : Value) : Value :=
  v.mapLeaves dropName

/-- Values that differ at most in display names and origins. -/
def Same (v w : Value) : Prop :=
  v.anonymous = w.anonymous

instance (v w : Value) : Decidable (v.Same w) :=
  inferInstanceAs (Decidable (_ = _))

end Value

end StackLift
