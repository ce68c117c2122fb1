import StackLift.Bytecode.Instruction
import StackLift.Ir.Value

/-! Expressions of register code: the right-hand sides of assignments. -/

namespace StackLift

inductive BinaryOp where
  | add
  | and
  | cmp
  | cmpg
  | cmpl
  | div
  | mul
  | eq
  | neq
  | ge
  | gt
  | le
  | lt
  | or
  | rem
  | shl
  | shr
  | sub
  | ushr
  | xor
deriving DecidableEq

/-- Can the operator be the condition of a branch? -/
def BinaryOp.isCondition : BinaryOp → Bool
  | .eq | .neq | .ge | .gt | .le | .lt => true
  | _ => false

structure BinaryExpr where
  op : BinaryOp
  type : TypeName
  left : Value
  right : Value
deriving DecidableEq

/-- A call of a method known by name. It has a receiver unless the call is static. -/
structure MethodCall where
  kind : InvokeKind
  owner : TypeName
  name : String
  argumentTypes : List TypeName
  resultType : TypeName
  receiver : Option Value
  arguments : List Value
  isInterface : Bool
deriving DecidableEq

/-- A handle on a bootstrap method or on one of its static arguments. A field handle has no argument
types, and its result is the type of the field.
-/
structure BootstrapHandle where
  kind : HandleKind
  owner : TypeName
  name : String
  argumentTypes : List TypeName
  resultType : TypeName
  isInterface : Bool
deriving DecidableEq

/-- A static argument of a bootstrap method. -/
inductive BootstrapArgument where
  | constant (constant : Constant)
  | type (type : TypeName)
  | methodType (arguments : List TypeName) (result : TypeName)
  | handle (handle : BootstrapHandle)
deriving DecidableEq

/-- A call whose target a bootstrap method computes. -/
structure DynamicCall where
  bootstrap : BootstrapHandle
  bootstrapArguments : List BootstrapArgument
  name : String
  argumentTypes : List TypeName
  resultType : TypeName
  arguments : List Value
deriving DecidableEq

/-- Does the call make a function object? -/
def DynamicCall.isLambda (call : DynamicCall) : Bool :=
  call.bootstrap.owner = .lambdaMetafactory && call.bootstrap.name = "metafactory"

inductive Call where
  | method (call : MethodCall)
  | dynamic (call : DynamicCall)
deriving DecidableEq

namespace Call

def resultType : Call → TypeName
  | .method c => c.resultType
  | .dynamic c => c.resultType

def operands : Call → List Value
  | .method c => c.receiver.toList ++ c.arguments
  | .dynamic c => c.arguments

def mapValues (f : Value → Value) : Call → Call
  | .method c =>
    .method { c with receiver := c.receiver.map f, arguments := c.arguments.map f }
  | .dynamic c => .dynamic { c with arguments := c.arguments.map f }

end Call

def BinaryExpr.mapValues (f : Value → Value) (e : BinaryExpr) : BinaryExpr :=
  { e with left := f e.left, right := f e.right }

inductive Expr where
  | binary (expr : BinaryExpr)
  | negate (type : TypeName) (operand : Value)
  | length (array : Value)
  | cast (type : TypeName) (operand : Value)
  | instanceOf (operand : Value) (target : TypeName)
  | new (type : TypeName)
  | newArray (type : TypeName) (dimensions : List Value)
  | call (call : Call)
  | value (value : Value)
deriving DecidableEq

namespace Expr

def type : Expr → TypeName
  | .binary e => e.type
  | .negate type _ | .cast type _ | .new type | .newArray type _ => type
  | .length _ => .int
  | .instanceOf .. => .boolean
  | .call c => c.resultType
  | .value v => v.type

/-- The values directly inside an expression. -/
def operands : Expr → List Value
  | .binary e => [e.left, e.right]
  | .negate _ operand | .cast _ operand | .instanceOf operand _ => [operand]
  | .length array => [array]
  | .new _ => []
  | .newArray _ dimensions => dimensions
  | .call c => c.operands
  | .value v => v.operands

/-- All values of an expression, the outer ones first; a bare value is one of them. -/
def subvalues : Expr → List Value
  | .value v => v.subvalues
  | e => e.operands.flatMap Value.subvalues

def value? : Expr → Option Value
  | .value v => some v
  | _ => none

def register? (e : Expr) : Option Register :=
  e.value?.bind Value.register?

def mapValues (f : Value → Value) : Expr → Expr
  | .binary e => .binary (e.mapValues f)
  | .negate type operand => .negate type (f operand)
  | .length array => .length (f array)
  | .cast type operand => .cast type (f operand)
  | .instanceOf operand target => .instanceOf (f operand) target
  | .new type => .new type
  | .newArray type dimensions => .newArray type (dimensions.map f)
  | .call c => .call (c.mapValues f)
  | .value v => .value (f v)

def anonymous (e : Expr) : Expr :=
  e.mapValues Value.anonymous

/-- Expressions that differ at most in display names and origins. -/
def Same (e f : Expr) : Prop :=
  e.anonymous = f.anonymous

instance (e f : Expr) : Decidable (e.Same f) :=
  inferInstanceAs (Decidable (_ = _))

end Expr

end StackLift
