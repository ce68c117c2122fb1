import StackLift.Frame.Shuffle
import StackLift.Ir.Inst

/-!
The effect of an instruction on a symbolic frame: the frame after its operands are taken, and what
has to be computed or stored.
-/

namespace StackLift

inductive Effect where
  /-- Values only move. -/
  | move (frame : Frame)
  /-- The result goes to a fresh register, which is pushed. -/
  | compute (frame : Frame) (result : Expr)
  /-- An instruction without result. -/
  | emit (frame : Frame) (inst : Inst)
  /-- A value goes to a slot. -/
  | store (frame : Frame) (slot : Nat) (value : Value)
  /-- The result goes to a fresh register and from there to a slot. -/
  | update (frame : Frame) (slot : Nat) (result : Expr)
  /-- The first result goes to a fresh register, from which the second one is made and pushed. -/
  | computeTwice (frame : Frame) (first : Expr) (second : Value → Expr)

-- Operators

def ArithmeticOp.binaryOp : ArithmeticOp → BinaryOp
  | .add => .add
  | .sub => .sub
  | .mul => .mul
  | .div => .div
  | .rem => .rem

def BitOp.binaryOp : BitOp → BinaryOp
  | .and => .and
  | .or => .or
  | .xor => .xor

def ShiftOp.binaryOp : ShiftOp → BinaryOp
  | .left => .shl
  | .arithmeticRight => .shr
  | .logicalRight => .ushr

def CompareMode.binaryOp : CompareMode → BinaryOp
  | .less => .cmpl
  | .greater => .cmpg

-- Constants and bootstrap methods

def HandleDescriptor.types : HandleDescriptor → List TypeName × TypeName
  | .field type => ([], .ofField type)
  | .method d => (d.parameterTypes, d.resultType)

def Handle.resolve (h : Handle) : BootstrapHandle :=
  { kind := h.kind
    owner := .ofClass h.owner
    name := h.name.text
    argumentTypes := h.descriptor.types.1
    resultType := h.descriptor.types.2
    isInterface := h.isInterface }

/-- The constant that is loaded. A dynamic constant is computed by calls and is none itself. -/
def LoadableConstant.constant : LoadableConstant → Except Error Constant
  | .int value => .ok (.int value)
  | .float value => .ok (.float value)
  | .long value => .ok (.long value)
  | .double value => .ok (.double value)
  | .string text => .ok (.string text)
  | .classRef type => .ok (.classRef (.ofRef type))
  | .methodType d => .ok (.methodType d.parameterTypes d.resultType)
  | .handle h => .ok (.method h.resolve.owner h.resolve.name h.resolve.argumentTypes
      h.resolve.resultType)
  | .dynamic name _ _ _ => .error (.nestedDynamicConstant name)

/-- The static argument of a bootstrap method. -/
def LoadableConstant.bootstrapArgument : LoadableConstant → Except Error BootstrapArgument
  | .int value => .ok (.constant (.int value))
  | .float value => .ok (.constant (.float value))
  | .long value => .ok (.constant (.long value))
  | .double value => .ok (.constant (.double value))
  | .string text => .ok (.constant (.string text))
  | .classRef type => .ok (.type (.ofRef type))
  | .methodType d => .ok (.methodType d.parameterTypes d.resultType)
  | .handle h => .ok (.handle h.resolve)
  | .dynamic name _ _ _ => .error (.dynamicBootstrapArgument name)

/-- The call that gives the lookup context of a bootstrap method. -/
def lookupCall : Call :=
  .method
    { kind := .staticCall
      owner := .methodHandles
      name := "lookup"
      argumentTypes := []
      resultType := .methodHandlesLookup
      receiver := none
      arguments := []
      isInterface := false }

/-- The call of the bootstrap method of a dynamic constant. -/
def bootstrapCall (name : MemberName) (type : TypeName) (bootstrap : BootstrapHandle)
    (arguments : List Constant) (lookup : Value) : Call :=
  .method
    { kind := .staticCall
      owner := bootstrap.owner
      name := bootstrap.name
      argumentTypes := bootstrap.argumentTypes
      resultType := type
      receiver := none
      arguments :=
        lookup :: .constant (.string name.text) :: .constant (.classRef type)
          :: arguments.map Value.constant
      isInterface := bootstrap.isInterface }

/-- Numbers and texts are operands as they are; every other constant takes a register. -/
def LoadableConstant.effect (f : Frame) : LoadableConstant → Except Error Effect
  | .dynamic name descriptor bootstrap arguments => do
    let arguments ← arguments.mapM LoadableConstant.constant
    let type := TypeName.ofField descriptor
    return .computeTwice f (.call lookupCall) fun lookup =>
      .call (bootstrapCall name type bootstrap.resolve arguments lookup)
  | constant@(.classRef _) | constant@(.methodType _) | constant@(.handle _) => do
    return .compute f (.value (.constant (← constant.constant)))
  | constant => do
    return .move (f.push (.constant (← constant.constant)))

-- Calls

/-- A call without result is an instruction of its own. -/
def Call.effect (f : Frame) (call : Call) : Effect :=
  if call.resultType = .void then .emit f (.call call) else .compute f (.call call)

/-- The class that owns a called method; the methods of arrays belong to `java.lang.Object`. -/
def RefType.calledOwner (owner : RefType) : TypeName :=
  if (TypeName.ofRef owner).isArray then .object else .ofRef owner

def MethodRef.call (method : MethodRef) (kind : InvokeKind) (receiver : Option Value)
    (arguments : List Value) : Call :=
  .method
    { kind
      owner := method.owner.calledOwner
      name := method.name.text
      argumentTypes := method.descriptor.parameterTypes
      resultType := method.descriptor.resultType
      receiver
      arguments
      isInterface := method.isInterface }

def MethodRef.effect (method : MethodRef) (kind : InvokeKind) (node : Nat) (f : Frame) :
    Except Error Effect := do
  let (arguments, f) ← f.popMany node method.descriptor.parameters.length
  if kind = .staticCall then
    return (method.call kind none arguments).effect f
  else
    let (receiver, f) ← f.pop node
    return (method.call kind (some receiver) arguments).effect f

/-- The static arguments are listed last to first. -/
def CallSite.effect (site : CallSite) (node : Nat) (f : Frame) : Except Error Effect := do
  let bootstrapArguments ← site.arguments.mapM LoadableConstant.bootstrapArgument
  let (arguments, f) ← f.popMany node site.descriptor.parameters.length
  return Call.effect f (.dynamic
    { bootstrap := site.bootstrap.resolve
      bootstrapArguments := bootstrapArguments.reverse
      name := site.name.text
      argumentTypes := site.descriptor.parameterTypes
      resultType := site.descriptor.resultType
      arguments })

-- Instructions

def FieldRef.ofObject (field : FieldRef) (object : Value) : Value :=
  .field object (.ofClass field.owner) field.name.text (.ofField field.descriptor)

def FieldRef.ofClass (field : FieldRef) : Value :=
  .staticField (.ofClass field.owner) field.name.text (.ofField field.descriptor)

namespace Instruction

/-- Pops one operand and computes a result. -/
def unary (node : Nat) (f : Frame) (result : Value → Expr) : Except Error Effect := do
  let (operand, f) ← f.pop node
  return .compute f (result operand)

/-- Pops the right and the left operand and computes a result. -/
def binary (node : Nat) (f : Frame) (result : Value → Value → Expr) : Except Error Effect := do
  let (right, f) ← f.pop node
  let (left, f) ← f.pop node
  return .compute f (result left right)

def operation (op : BinaryOp) (left right : Value) : Expr :=
  .binary { op, type := left.type.binaryResult right.type, left, right }

def comparison (op : BinaryOp) (left right : Value) : Expr :=
  .binary { op, type := .int, left, right }

def elementOf (array index : Value) : Value :=
  .element array index array.type.elementType

/-- Pushes a constant. -/
def constant (f : Frame) (c : Constant) : Except Error Effect :=
  .ok (.move (f.push (.constant c)))

def effect (node : Nat) (f : Frame) : Instruction → Except Error Effect
  | .nop => .ok (.move f)
  | .pushNull => constant f .null
  | .pushInt n => constant f (.int (Int32.ofInt (n.val - 1)))
  | .pushLong n => constant f (.long (Int64.ofNat n.val))
  | .pushFloat n => constant f (.float (if n = 0 then .zero else if n = 1 then .one else .two))
  | .pushDouble n => constant f (.double (if n = 0 then .zero else .one))
  | .pushByte value => constant f (.int value.toInt32)
  | .pushShort value => constant f (.int value.toInt32)
  | .pushConstant c => c.effect f
  | .load _ slot => do return .move (f.push (← f.getLocal node slot))
  | .store _ slot => do
    let (value, f) ← f.pop node
    return .store f slot value
  | .arrayLoad _ => binary node f fun array index => .value (elementOf array index)
  | .arrayStore _ => do
    let (value, f) ← f.pop node
    let (index, f) ← f.pop node
    let (array, f) ← f.pop node
    return .emit f (.assign (elementOf array index) (.value value))
  | .shuffle s => do return .move (← f.shuffle node s)
  | .arithmetic op _ => binary node f (operation op.binaryOp)
  | .shift op _ => binary node f (operation op.binaryOp)
  | .bitwise op _ => binary node f (operation op.binaryOp)
  | .negate _ => unary node f fun operand => .negate (operand.type.wider .int) operand
  | .increment slot amount => do
    let old ← f.getLocal node slot
    return .update f slot (operation .add old (.constant (.int amount.toInt32)))
  | .convert conversion => unary node f (.cast (.ofBase conversion.target))
  | .compareLong => binary node f (comparison .cmp)
  | .compareFloat mode => binary node f (comparison mode.binaryOp)
  | .compareDouble mode => binary node f (comparison mode.binaryOp)
  | .getStatic field => .ok (.compute f (.value field.ofClass))
  | .putStatic field => do
    let (value, f) ← f.pop node
    return .emit f (.assign field.ofClass (.value value))
  | .getField field => unary node f fun object => .value (field.ofObject object)
  | .putField field => do
    let (value, f) ← f.pop node
    let (object, f) ← f.pop node
    return .emit f (.assign (field.ofObject object) (.value value))
  | .invoke kind method => method.effect kind node f
  | .invokeDynamic site => site.effect node f
  | .new name => .ok (.compute f (.new (.ofClass name)))
  | .newArray element =>
    unary node f fun length => .newArray ((TypeName.ofBase element).array 1) [length]
  | .newObjectArray element =>
    unary node f fun length => .newArray ((TypeName.ofRef element).array 1) [length]
  | .newMultiArray type dimensions => do
    let (dimensions, f) ← f.popMany node dimensions
    return .compute f (.newArray (.ofRef type) dimensions)
  | .arrayLength => unary node f .length
  | .checkCast type => unary node f (.cast (.ofRef type))
  | .instanceOf type => unary node f fun operand => .instanceOf operand (.ofRef type)
  | .enterMonitor => do
    let (monitor, f) ← f.pop node
    return .emit f (.enterMonitor monitor)
  | .exitMonitor => do
    let (monitor, f) ← f.pop node
    return .emit f (.exitMonitor monitor)

end Instruction

end StackLift
