import StackLift.Bytecode.Label
import StackLift.Descriptor.Basic
import StackLift.Number.Binary

/-!
Instructions of the stack machine. Operands are resolved: names, descriptors and handles stand in
the instruction itself. Instructions that differ only in the kind of value they work on share a
constructor.
-/

namespace StackLift

/-- Kinds of numbers with arithmetic of their own. -/
inductive NumberKind where
  | int
  | long
  | float
  | double
deriving DecidableEq

/-- Kinds of integers with bit operations of their own. -/
inductive IntegerKind where
  | int
  | long
deriving DecidableEq

/-- Kinds of values that loads, stores and returns tell apart. -/
inductive ValueKind where
  | int
  | long
  | float
  | double
  | reference
deriving DecidableEq

/-- Kinds of array elements that array loads and stores tell apart. -/
inductive ElementKind where
  | int
  | long
  | float
  | double
  | reference
  | byte
  | char
  | short
deriving DecidableEq

inductive ArithmeticOp where
  | add
  | sub
  | mul
  | div
  | rem
deriving DecidableEq

inductive BitOp where
  | and
  | or
  | xor
deriving DecidableEq

inductive ShiftOp where
  | left
  | logicalRight
  | arithmeticRight
deriving DecidableEq

/-- The outcome of a floating-point comparison with an operand that is no number. -/
inductive CompareMode where
  | less
  | greater
deriving DecidableEq

inductive Conversion where
  | intToLong
  | intToFloat
  | intToDouble
  | longToInt
  | longToFloat
  | longToDouble
  | floatToInt
  | floatToLong
  | floatToDouble
  | doubleToInt
  | doubleToLong
  | doubleToFloat
  | intToByte
  | intToChar
  | intToShort
deriving DecidableEq

/-- The type a conversion produces. -/
def Conversion.target : Conversion → BaseType
  | .intToLong | .floatToLong | .doubleToLong => .long
  | .intToFloat | .longToFloat | .doubleToFloat => .float
  | .intToDouble | .longToDouble | .floatToDouble => .double
  | .longToInt | .floatToInt | .doubleToInt => .int
  | .intToByte => .byte
  | .intToChar => .char
  | .intToShort => .short

/-- Instructions that move stack entries around without making new ones. -/
inductive Shuffle where
  | pop
  | pop2
  | dup
  | dupX1
  | dupX2
  | dup2
  | dup2X1
  | dup2X2
  | swap
deriving DecidableEq

/-- Order comparisons of branches on integers. -/
inductive Comparison where
  | eq
  | ge
  | gt
  | le
  | lt
  | ne
deriving DecidableEq

def Comparison.negate : Comparison → Comparison
  | .eq => .ne
  | .ge => .lt
  | .gt => .le
  | .le => .gt
  | .lt => .ge
  | .ne => .eq

/-- Comparisons of branches on references. -/
inductive Equality where
  | eq
  | ne
deriving DecidableEq

def Equality.negate : Equality → Equality
  | .eq => .ne
  | .ne => .eq

/-- How a call finds its method. -/
inductive InvokeKind where
  | virtualCall
  | specialCall
  | staticCall
  | interfaceCall
deriving DecidableEq

structure FieldRef where
  owner : ClassName
  name : MemberName
  descriptor : FieldType
deriving DecidableEq

/-- A method operand; an array is the owner of the methods it inherits. -/
structure MethodRef where
  owner : RefType
  name : MemberName
  descriptor : MethodDescriptor
  isInterface : Bool
deriving DecidableEq

inductive HandleKind where
  | getField
  | getStatic
  | putField
  | putStatic
  | invokeVirtual
  | invokeStatic
  | invokeSpecial
  | newInvokeSpecial
  | invokeInterface
deriving DecidableEq

def HandleKind.isField : HandleKind → Bool
  | .getField | .getStatic | .putField | .putStatic => true
  | _ => false

inductive HandleDescriptor where
  | field (type : FieldType)
  | method (descriptor : MethodDescriptor)
deriving DecidableEq

/-- A handle on a field or method. -/
structure Handle where
  kind : HandleKind
  owner : ClassName
  name : MemberName
  descriptor : HandleDescriptor
  isInterface : Bool
deriving DecidableEq

/-- Constants that can be loaded or passed to a bootstrap method. -/
inductive LoadableConstant where
  | int (value : Int32)
  | float (value : Binary32)
  | long (value : Int64)
  | double (value : Binary64)
  | string (text : String)
  | classRef (type : RefType)
  | methodType (descriptor : MethodDescriptor)
  | handle (handle : Handle)
  | dynamic (name : MemberName) (descriptor : FieldType) (bootstrap : Handle)
      (arguments : List LoadableConstant)

/-- A call site whose target a bootstrap method computes. -/
structure CallSite where
  name : MemberName
  descriptor : MethodDescriptor
  bootstrap : Handle
  arguments : List LoadableConstant

/-- Instructions after which control goes on to the next node. -/
inductive Instruction where
  | nop
  | pushNull
  /-- The numbers from minus one to five: `pushInt n` pushes `n - 1`. -/
  | pushInt (n : Fin 7)
  | pushLong (n : Fin 2)
  | pushFloat (n : Fin 3)
  | pushDouble (n : Fin 2)
  | pushByte (value : Int8)
  | pushShort (value : Int16)
  | pushConstant (constant : LoadableConstant)
  | load (kind : ValueKind) (slot : Nat)
  | store (kind : ValueKind) (slot : Nat)
  | arrayLoad (kind : ElementKind)
  | arrayStore (kind : ElementKind)
  | shuffle (shuffle : Shuffle)
  | arithmetic (op : ArithmeticOp) (kind : NumberKind)
  | negate (kind : NumberKind)
  | shift (op : ShiftOp) (kind : IntegerKind)
  | bitwise (op : BitOp) (kind : IntegerKind)
  | increment (slot : Nat) (amount : Int16)
  | convert (conversion : Conversion)
  | compareLong
  | compareFloat (mode : CompareMode)
  | compareDouble (mode : CompareMode)
  | getStatic (field : FieldRef)
  | putStatic (field : FieldRef)
  | getField (field : FieldRef)
  | putField (field : FieldRef)
  | invoke (kind : InvokeKind) (method : MethodRef)
  | invokeDynamic (site : CallSite)
  | new (name : ClassName)
  | newArray (element : BaseType)
  | newObjectArray (element : RefType)
  | newMultiArray (type : RefType) (dimensions : Nat)
  | arrayLength
  | checkCast (type : RefType)
  | instanceOf (type : RefType)
  | enterMonitor
  | exitMonitor

/-- Instructions that may jump, return or throw. A conditional jump goes on to the next node when
its condition fails.
-/
inductive Branch where
  | ifZero (comparison : Comparison) (target : Label)
  | ifInt (comparison : Comparison) (target : Label)
  | ifReference (comparison : Equality) (target : Label)
  | ifNull (comparison : Equality) (target : Label)
  | goto (target : Label)
  | tableSwitch (default : Label) (low : Int32) (targets : List Label)
  | lookupSwitch (default : Label) (targets : List (Int32 × Label))
  | returnValue (kind : ValueKind)
  | returnVoid
  | throw
deriving DecidableEq

namespace Branch

/-- Returns and throws. -/
def isTerminal : Branch → Bool
  | .returnValue _ | .returnVoid | .throw => true
  | _ => false

/-- Can control go on to the next node? -/
def fallsThrough : Branch → Bool
  | .ifZero .. | .ifInt .. | .ifReference .. | .ifNull .. => true
  | _ => false

/-- The labels it can jump to, the default of a switch first. -/
def targets : Branch → List Label
  | .ifZero _ target | .ifInt _ target | .ifReference _ target | .ifNull _ target
  | .goto target => [target]
  | .tableSwitch default _ targets => default :: targets
  | .lookupSwitch default targets => default :: targets.map Prod.snd
  | .returnValue _ | .returnVoid | .throw => []

end Branch

end StackLift
