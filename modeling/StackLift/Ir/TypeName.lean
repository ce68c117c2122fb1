import StackLift.Descriptor.Basic

/-!
Names of types as they are written in source text (`int`, `java.lang.String`, `byte[][]`), and the
small lattice in which the types of a slot are joined.

Three names stand for no source type: `null` is the type of the null literal and counts as
primitive, `TOP` is the type of an unusable slot, and `UNINIT_THIS` is the type of the receiver of a
constructor before the call of another constructor.
-/

namespace StackLift

/-- The name of a type; any text is allowed. -/
structure TypeName where
  text : String
deriving DecidableEq

namespace TypeName

def boolean : TypeName := ⟨"boolean"⟩
def byte : TypeName := ⟨"byte"⟩
def char : TypeName := ⟨"char"⟩
def short : TypeName := ⟨"short"⟩
def int : TypeName := ⟨"int"⟩
def long : TypeName := ⟨"long"⟩
def float : TypeName := ⟨"float"⟩
def double : TypeName := ⟨"double"⟩
def void : TypeName := ⟨"void"⟩

def null : TypeName := ⟨"null"⟩
def top : TypeName := ⟨"TOP"⟩
def uninitializedThis : TypeName := ⟨"UNINIT_THIS"⟩

def object : TypeName := ⟨"java.lang.Object"⟩
def string : TypeName := ⟨"java.lang.String"⟩
def classObject : TypeName := ⟨"java.lang.Class"⟩
def methodHandle : TypeName := ⟨"java.lang.invoke.MethodHandle"⟩
def methodHandles : TypeName := ⟨"java.lang.invoke.MethodHandles"⟩
def methodHandlesLookup : TypeName := ⟨"java.lang.invoke.MethodHandles$Lookup"⟩
def methodType : TypeName := ⟨"java.lang.invoke.MethodType"⟩
def lambdaMetafactory : TypeName := ⟨"java.lang.invoke.LambdaMetafactory"⟩

def throwable : TypeName := ⟨"java.lang.Throwable"⟩
def exception : TypeName := ⟨"java.lang.Exception"⟩
def error : TypeName := ⟨"java.lang.Error"⟩
def runtimeException : TypeName := ⟨"java.lang.RuntimeException"⟩
def nullPointerException : TypeName := ⟨"java.lang.NullPointerException"⟩
def arithmeticException : TypeName := ⟨"java.lang.ArithmeticException"⟩
def classCastException : TypeName := ⟨"java.lang.ClassCastException"⟩
def negativeArraySizeException : TypeName := ⟨"java.lang.NegativeArraySizeException"⟩
def indexOutOfBoundsException : TypeName := ⟨"java.lang.IndexOutOfBoundsException"⟩

-- Kinds of types

/-- The primitive types, `void` and `null`. -/
def isPrimitive (t : TypeName) : Bool :=
  [boolean, byte, char, short, int, long, float, double, void, null].contains t

def isArray (t : TypeName) : Bool :=
  ['[', ']'].isSuffixOf t.text.toList

/-- Neither primitive nor an array. -/
def isClass (t : TypeName) : Bool :=
  !t.isPrimitive && !t.isArray

/-- Does a value of the type take two slots? -/
def isWide (t : TypeName) : Bool :=
  t = long || t = double

/-- Types that are kept as an `int` in slots and on the stack. -/
def isIntLike (t : TypeName) : Bool :=
  [boolean, byte, char, short, int].contains t

/-- The type of the elements of an array; `null` is its own element type. -/
def elementType? (t : TypeName) : Option TypeName :=
  if t = null then some null
  else if t.isArray then some ⟨String.ofList (t.text.toList.take (t.text.toList.length - 2))⟩
  else none

/-- The type of the elements of an array, and any other type itself. -/
def elementType (t : TypeName) : TypeName :=
  t.elementType?.getD t

/-- The type of arrays of the given number of dimensions. -/
def array (t : TypeName) (dimensions : Nat) : TypeName :=
  ⟨t.text ++ String.join (List.replicate dimensions "[]")⟩

/-- Can values of the two types share a register? Both are primitive and equally wide, or neither
is primitive.
-/
def compatible (t u : TypeName) : Bool :=
  match t.isPrimitive, u.isPrimitive with
  | true, true => t.isWide == u.isWide
  | false, false => true
  | _, _ => false

-- The join of types at a control-flow join

/-- The join of a primitive type with another type: `null` joins with every reference, and the
types kept as `int` join to `int`.
-/
def primitiveLub (t u : TypeName) : TypeName :=
  if t = null then
    if u.isPrimitive then top else u
  else if !u.isPrimitive then
    top
  else if t.isIntLike && u.isIntLike then
    int
  else
    top

/-- The least upper bound. Distinct references join to `java.lang.Object`, and a join that has no
name is `TOP`.
-/
def lub (t u : TypeName) : TypeName :=
  if t = u then t
  else if t = top || u = top then top
  else if t.isPrimitive then primitiveLub t u
  else if u.isPrimitive then primitiveLub u t
  else object

-- Numeric promotion

/-- The place of a type in the order of numeric promotion. -/
def promotionRank (t : TypeName) : Nat :=
  if t = byte || t = char then 1
  else if t = short then 2
  else if t = int then 3
  else if t = long then 4
  else if t = float then 5
  else if t = double then 6
  else 0

/-- The type of higher rank; a tie goes to the first. -/
def wider (t u : TypeName) : TypeName :=
  if u.promotionRank ≤ t.promotionRank then t else u

/-- The type of a binary operation: at least `int` for a primitive left operand, and the type of
the left operand otherwise.
-/
def binaryResult (t u : TypeName) : TypeName :=
  if t.isPrimitive then
    if (t.wider u).promotionRank ≤ int.promotionRank then int else t.wider u
  else
    t

-- Type names of descriptors

def ofClass (name : ClassName) : TypeName :=
  ⟨name.dotted⟩

def ofBase (type : BaseType) : TypeName :=
  ⟨type.keyword⟩

def ofRef : RefType → TypeName
  | .object name => ofClass name
  | .objectArray extra element => (ofClass element).array (extra + 1)
  | .primitiveArray extra element => (ofBase element).array (extra + 1)

def ofField : FieldType → TypeName
  | .base type => ofBase type
  | .ref type => ofRef type

end TypeName

def MethodDescriptor.parameterTypes (d : MethodDescriptor) : List TypeName :=
  d.parameters.map TypeName.ofField

/-- The type of the result, `void` if there is none. -/
def MethodDescriptor.resultType (d : MethodDescriptor) : TypeName :=
  (d.returnType.map TypeName.ofField).getD .void

end StackLift
