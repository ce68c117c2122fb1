import StackLift.Proofs.KindTyping
import StackLift.Proofs.RegisterMachine

/-!
What the constants and operators of register code mean to the stack machine. Each operator of the
machine has a symbol in the code, which lifting keeps. A constant of the code stands for a literal
of the machine if that can be told from all others by it: handles cannot, since those on the same
member differ in a kind that their constants do not have, and neither can classes with the name of
a primitive type.
-/

namespace StackLift

-- Names

/-- The name of the class is not read as that of a primitive type, `void` or `null`. -/
def ClassName.isDistinct (name : ClassName) : Bool :=
  name.text ∉ ["boolean", "byte", "char", "short", "int", "long", "float", "double", "void", "null"]

/-- The class of the type or of its elements, if any, has a distinct name. -/
def FieldType.isDistinct : FieldType → Bool
  | .ref (.object name) | .ref (.objectArray _ name) => name.isDistinct
  | _ => true

def MethodDescriptor.isDistinct (d : MethodDescriptor) : Bool :=
  d.parameters.all FieldType.isDistinct && d.returnType.all FieldType.isDistinct

open StackMachine

-- Constants

/-- Can the literal be told from all others by its constant? -/
def StackMachine.Literal.isDistinct : Literal → Bool
  | .classRef type => (FieldType.ref type).isDistinct
  | .methodType d => d.isDistinct
  | .handle _ => false
  | _ => true

def Instruction.pushesDistinct (i : Instruction) : Bool :=
  match operation? i with
  | some (.push k) => k.isDistinct
  | _ => true

def Node.pushesDistinct : Node → Bool
  | .plain i => i.pushesDistinct
  | _ => true

/-- The constant means the literal. Numbers narrower than an `int` are computed with as `int`s. -/
inductive Constant.StandsFor : Constant → Literal → Prop
  | null : StandsFor .null .null
  | bool (value : Bool) : StandsFor (.bool value) (.int (if value then 1 else 0))
  | byte (value : Int8) : StandsFor (.byte value) (.int value.toInt32)
  | char (unit : UInt16) : StandsFor (.char unit) (.int (.ofNat unit.toNat))
  | short (value : Int16) : StandsFor (.short value) (.int value.toInt32)
  | int (value : Int32) : StandsFor (.int value) (.int value)
  | long (value : Int64) : StandsFor (.long value) (.long value)
  | float (value : Binary32) : StandsFor (.float value) (.float value)
  | double (value : Binary64) : StandsFor (.double value) (.double value)
  | string (text : String) : StandsFor (.string text) (.string text)
  | classRef {type : RefType} : (FieldType.ref type).isDistinct = true →
    StandsFor (.classRef (.ofRef type)) (.classRef type)
  | methodType {d : MethodDescriptor} : d.isDistinct = true →
    StandsFor (.methodType d.parameterTypes d.resultType) (.methodType d)

namespace Constant.StandsFor

variable {c : Constant} {k : Literal}

theorem hasKind (h : c.StandsFor k)
    : c.type.HasKind k.kind := by
  cases h <;> exact ⟨rfl, rfl⟩

/-- Lifting loads a constant that stands for the literal. -/
theorem of_loadable {loaded : LoadableConstant} (hc : loaded.constant = .ok c)
    (hk : Literal.ofLoadable? loaded = some k) (hdistinct : k.isDistinct = true)
    : c.StandsFor k := by
  cases loaded <;> cases hc <;> cases hk
  case int | float | long | double | string => constructor
  case classRef => exact .classRef hdistinct
  case methodType => exact .methodType hdistinct
  case handle => cases hdistinct

/-- A branch compares a number narrower than an `int` with the zero of its type. -/
theorem zero {t : TypeName} (h : t.HasKind .int)
    : (Constant.zero t).StandsFor (.int 0) := by
  rcases TypeName.cases_of_kind_int h.eq with rfl | rfl | rfl | rfl | rfl
  · exact .bool false
  · exact .byte 0
  · exact .char 0
  · exact .short 0
  · exact .int 0

end Constant.StandsFor

-- Operators

def StackMachine.Operator.symbol : Operator → BinaryOp
  | .arithmetic .add => .add
  | .arithmetic .sub => .sub
  | .arithmetic .mul => .mul
  | .arithmetic .div => .div
  | .arithmetic .rem => .rem
  | .shift .left => .shl
  | .shift .arithmeticRight => .shr
  | .shift .logicalRight => .ushr
  | .bitwise .and => .and
  | .bitwise .or => .or
  | .bitwise .xor => .xor
  | .compareLong => .cmp
  | .compareReal .less => .cmpl
  | .compareReal .greater => .cmpg

def Comparison.symbol : Comparison → BinaryOp
  | .eq => .eq
  | .ge => .ge
  | .gt => .gt
  | .le => .le
  | .lt => .lt
  | .ne => .neq

/-- The type that a conversion names in the code. -/
def Conversion.name : Conversion → TypeName
  | .intToByte => .byte
  | .intToChar => .char
  | .intToShort => .short
  | .longToInt | .floatToInt | .doubleToInt => .int
  | .intToLong | .floatToLong | .doubleToLong => .long
  | .intToFloat | .longToFloat | .doubleToFloat => .float
  | .intToDouble | .longToDouble | .floatToDouble => .double

theorem ArithmeticOp.symbol_arithmetic (op : ArithmeticOp)
    : (Operator.arithmetic op).symbol = op.binaryOp := by
  cases op <;> rfl

theorem ShiftOp.symbol_shift (op : ShiftOp)
    : (Operator.shift op).symbol = op.binaryOp := by
  cases op <;> rfl

theorem BitOp.symbol_bitwise (op : BitOp)
    : (Operator.bitwise op).symbol = op.binaryOp := by
  cases op <;> rfl

theorem CompareMode.symbol_compareReal (mode : CompareMode)
    : (Operator.compareReal mode).symbol = mode.binaryOp := by
  cases mode <;> rfl

theorem Comparison.symbol_eq (comparison : Comparison)
    : comparison.symbol = comparison.binaryOp := by
  cases comparison <;> rfl

theorem Equality.symbol_comparison (comparison : Equality)
    : comparison.comparison.symbol = comparison.binaryOp := by
  cases comparison <;> rfl

theorem Conversion.name_eq (c : Conversion)
    : c.name = .ofBase c.target := by
  cases c <;> rfl

theorem Conversion.hasKind_name (c : Conversion)
    : c.name.HasKind c.result := by
  cases c <;> decide

/-- Register code means what the stack machine takes constants, operators and conditions to mean.
Every value carries its kind, which for a computed value is that of the type of the expression.
-/
structure RegisterMachine.Interpretation.Follows {D : Type} (I : Interpretation (Datum D))
    (M : Meaning D) : Prop where
  constant : ∀ {c : Constant} {k}, c.StandsFor k → I.constant c = M.datum k
  binary : ∀ (op : Operator) type d e,
    I.binary op.symbol type d e = ⟨type.kind, M.binary op d e⟩
  negate : ∀ type d, I.negate type d = ⟨type.kind, M.negate d⟩
  cast : ∀ (c : Conversion) d, d.kind = c.source → I.cast c.name d = ⟨c.result, M.convert c d⟩
  holds : ∀ (comparison : Comparison) type d e,
    I.holds comparison.symbol type d e = M.holds comparison d e
  equal : ∀ d e, I.equal d e = M.holds .eq d e

-- Numbers without bounds

/-- Sums and comparisons of numbers without bounds. -/
def StackMachine.integers : Meaning Int :=
  { constant := fun k => match k with
      | .int n => n.toInt
      | _ => 0
    binary := fun _ d e => d.content + e.content
    negate := fun d => -d.content
    convert := fun _ d => d.content
    holds := fun c d e => if c = .eq then d.content = e.content else d.content ≠ e.content }

/-- The number of a constant in code that adds and compares such numbers. -/
def Constant.number : Constant → Int
  | .bool value => if value then 1 else 0
  | .byte value | .short value => value.toInt32.toInt
  | .char unit => (Int32.ofNat unit.toNat).toInt
  | .int n => n.toInt
  | _ => 0

theorem Constant.StandsFor.number_eq {c : Constant} {k : Literal} (h : c.StandsFor k)
    : c.number = integers.constant k := by
  cases h with
  | bool value => cases value <;> rfl
  | _ => rfl

end StackLift
