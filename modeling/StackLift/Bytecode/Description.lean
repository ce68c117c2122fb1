import StackLift.Bytecode.Node
import StackLift.Number.Decimal
import StackLift.Text.Layout
import StackLift.Text.Quoted

/-! Descriptions of nodes, for inspection of a method as it was read. -/

namespace StackLift

open Text (applied record bracketed optional)

def BaseType.describe : BaseType → String
  | .byte => "Byte"
  | .char => "Char"
  | .double => "Double"
  | .float => "Float"
  | .int => "Int"
  | .long => "Long"
  | .short => "Short"
  | .boolean => "Boolean"

def describeArray (extra : Nat) (element : String) : String :=
  record "ArrayType" [("additional_dimensions", toString extra), ("element_type", element)]

def RefType.describe : RefType → String
  | .object name => applied "Object" [name.text]
  | .objectArray extra element => applied "ObjectArray" [describeArray extra element.text]
  | .primitiveArray extra element =>
    applied "PrimitiveArray" [describeArray extra element.describe]

def FieldType.describe : FieldType → String
  | .base type => applied "Base" [type.describe]
  | .ref type => applied "Ref" [type.describe]

def MethodDescriptor.describe (d : MethodDescriptor) : String :=
  record "MethodDescriptor"
    [("parameters", bracketed (d.parameters.map FieldType.describe)),
     ("return_type", optional (d.returnType.map FieldType.describe))]

def FieldRef.describe (field : FieldRef) : String :=
  record "FieldRef"
    [("owner", field.owner.text), ("name", field.name.text),
     ("descriptor", field.descriptor.describe)]

def MethodRef.describe (method : MethodRef) : String :=
  record "MethodRef"
    [("owner", method.owner.describe), ("name", method.name.text),
     ("descriptor", method.descriptor.describe), ("is_interface", toString method.isInterface)]

def HandleKind.describe : HandleKind → String
  | .getField => "GetField"
  | .getStatic => "GetStatic"
  | .putField => "PutField"
  | .putStatic => "PutStatic"
  | .invokeVirtual => "InvokeVirtual"
  | .invokeStatic => "InvokeStatic"
  | .invokeSpecial => "InvokeSpecial"
  | .newInvokeSpecial => "NewInvokeSpecial"
  | .invokeInterface => "InvokeInterface"

def HandleDescriptor.describe : HandleDescriptor → String
  | .field type => applied "Field" [type.describe]
  | .method descriptor => applied "Method" [descriptor.describe]

def Handle.describe (handle : Handle) : String :=
  record "Handle"
    [("kind", handle.kind.describe), ("owner", handle.owner.text), ("name", handle.name.text),
     ("descriptor", handle.descriptor.describe), ("is_interface", toString handle.isInterface)]

mutual

def LoadableConstant.describe : LoadableConstant → String
  | .int value => applied "Integer" [toString value.toInt]
  | .float value => applied "Float" [value.render]
  | .long value => applied "Long" [toString value.toInt]
  | .double value => applied "Double" [value.render]
  | .string text => applied "String" [Text.quoted text]
  | .classRef type => applied "Class" [type.describe]
  | .methodType descriptor => applied "MethodType" [descriptor.describe]
  | .handle h => applied "MethodHandle" [h.describe]
  | .dynamic name descriptor bootstrap arguments =>
    applied "Dynamic"
      [record "ConstantDynamic"
        [("name", name.text), ("descriptor", descriptor.describe),
         ("bootstrap", bootstrap.describe),
         ("bootstrap_args", bracketed (LoadableConstant.describeAll arguments))]]

def LoadableConstant.describeAll : List LoadableConstant → List String
  | [] => []
  | constant :: rest => constant.describe :: LoadableConstant.describeAll rest

end

def CallSite.describe (site : CallSite) : String :=
  record "IndyCall"
    [("name", site.name.text), ("descriptor", site.descriptor.describe),
     ("bootstrap", site.bootstrap.describe),
     ("bootstrap_args", bracketed (LoadableConstant.describeAll site.arguments))]

-- Instructions

def NumberKind.letter : NumberKind → String
  | .int => "I"
  | .long => "L"
  | .float => "F"
  | .double => "D"

def IntegerKind.letter : IntegerKind → String
  | .int => "I"
  | .long => "L"

def ValueKind.letter : ValueKind → String
  | .int => "I"
  | .long => "L"
  | .float => "F"
  | .double => "D"
  | .reference => "A"

def ElementKind.letter : ElementKind → String
  | .int => "I"
  | .long => "L"
  | .float => "F"
  | .double => "D"
  | .reference => "A"
  | .byte => "B"
  | .char => "C"
  | .short => "S"

def ArithmeticOp.describe : ArithmeticOp → String
  | .add => "Add"
  | .sub => "Sub"
  | .mul => "Mul"
  | .div => "Div"
  | .rem => "Rem"

def BitOp.describe : BitOp → String
  | .and => "And"
  | .or => "Or"
  | .xor => "Xor"

def ShiftOp.describe : ShiftOp → String
  | .left => "Left"
  | .logicalRight => "LogicalRight"
  | .arithmeticRight => "ArithmeticRight"

def CompareMode.describe : CompareMode → String
  | .less => "L"
  | .greater => "G"

def Conversion.describe : Conversion → String
  | .intToLong => "I2L"
  | .intToFloat => "I2F"
  | .intToDouble => "I2D"
  | .longToInt => "L2I"
  | .longToFloat => "L2F"
  | .longToDouble => "L2D"
  | .floatToInt => "F2I"
  | .floatToLong => "F2L"
  | .floatToDouble => "F2D"
  | .doubleToInt => "D2I"
  | .doubleToLong => "D2L"
  | .doubleToFloat => "D2F"
  | .intToByte => "I2B"
  | .intToChar => "I2C"
  | .intToShort => "I2S"

def Shuffle.describe : Shuffle → String
  | .pop => "Pop"
  | .pop2 => "Pop2"
  | .dup => "Dup"
  | .dupX1 => "DupX1"
  | .dupX2 => "DupX2"
  | .dup2 => "Dup2"
  | .dup2X1 => "Dup2X1"
  | .dup2X2 => "Dup2X2"
  | .swap => "Swap"

def Comparison.describe : Comparison → String
  | .eq => "EQ"
  | .ge => "GE"
  | .gt => "GT"
  | .le => "LE"
  | .lt => "LT"
  | .ne => "NE"

def Equality.describe : Equality → String
  | .eq => "EQ"
  | .ne => "NE"

def InvokeKind.describe : InvokeKind → String
  | .virtualCall => "Virtual"
  | .specialCall => "Special"
  | .staticCall => "Static"
  | .interfaceCall => "Interface"

def Instruction.describe : Instruction → String
  | .nop => "Nop"
  | .pushNull => "AConstNull"
  | .pushInt n => "IConst" ++ (if n = 0 then "M1" else toString (n.val - 1))
  | .pushLong n => "LConst" ++ toString n.val
  | .pushFloat n => "FConst" ++ toString n.val
  | .pushDouble n => "DConst" ++ toString n.val
  | .pushByte value => applied "BiPush" [toString value.toInt]
  | .pushShort value => applied "SiPush" [toString value.toInt]
  | .pushConstant constant => applied "Ldc" [constant.describe]
  | .load kind slot => applied (kind.letter ++ "Load") [toString slot]
  | .store kind slot => applied (kind.letter ++ "Store") [toString slot]
  | .arrayLoad kind => kind.letter ++ "ALoad"
  | .arrayStore kind => kind.letter ++ "AStore"
  | .shuffle s => s.describe
  | .arithmetic op kind => kind.letter ++ op.describe
  | .negate kind => kind.letter ++ "Neg"
  | .shift op kind => applied (kind.letter ++ "Sh") [op.describe]
  | .bitwise op kind => kind.letter ++ op.describe
  | .increment slot amount => applied "IInc" [toString slot, toString amount.toInt]
  | .convert conversion => conversion.describe
  | .compareLong => "LCmp"
  | .compareFloat mode => applied "FCmp" [mode.describe]
  | .compareDouble mode => applied "DCmp" [mode.describe]
  | .getStatic field => applied "GetStatic" [field.describe]
  | .putStatic field => applied "PutStatic" [field.describe]
  | .getField field => applied "GetField" [field.describe]
  | .putField field => applied "PutField" [field.describe]
  | .invoke kind method => applied "Invoke" [kind.describe, method.describe]
  | .invokeDynamic site => applied "InvokeDynamic" [site.describe]
  | .new name => applied "New" [name.text]
  | .newArray element => applied "NewArray" [element.describe]
  | .newObjectArray element => applied "ANewArray" [element.describe]
  | .newMultiArray type dimensions =>
    applied "MultiANewArray" [type.describe, toString dimensions]
  | .arrayLength => "ArrayLength"
  | .checkCast type => applied "CheckCast" [type.describe]
  | .instanceOf type => applied "InstanceOf" [type.describe]
  | .enterMonitor => "MonitorEnter"
  | .exitMonitor => "MonitorExit"

def Branch.describe : Branch → String
  | .ifZero comparison target => applied "If" [comparison.describe, target.render]
  | .ifInt comparison target => applied "IfICmp" [comparison.describe, target.render]
  | .ifReference comparison target => applied "IfACmp" [comparison.describe, target.render]
  | .ifNull comparison target => applied "IfNull" [comparison.describe, target.render]
  | .goto target => applied "Goto" [target.render]
  | .tableSwitch default low targets =>
    record "TableSwitch"
      [("default", default.render), ("low", toString low.toInt),
       ("targets", bracketed (targets.map Label.render))]
  | .lookupSwitch default targets =>
    record "LookupSwitch"
      [("default", default.render),
       ("targets", bracketed (targets.map fun target =>
          applied "" [toString target.1.toInt, target.2.render]))]
  | .returnValue kind => kind.letter ++ "Return"
  | .returnVoid => "Return"
  | .throw => "AThrow"

-- Nodes

def FrameKind.describe : FrameKind → String
  | .new => "New"
  | .full => "Full"
  | .append => "Append"
  | .chop => "Chop"
  | .same => "Same"
  | .same1 => "Same1"

def VerificationType.describe : VerificationType → String
  | .top => "Top"
  | .int => "Integer"
  | .float => "Float"
  | .double => "Double"
  | .long => "Long"
  | .null => "Null"
  | .uninitializedThis => "UninitializedThis"
  | .object type => applied "Object" [type.describe]
  | .uninitialized label => applied "Uninitialized" [label.render]

def StackMapFrame.describe (frame : StackMapFrame) : String :=
  record "FrameNode"
    [("kind", frame.kind.describe),
     ("locals", bracketed (frame.locals.map VerificationType.describe)),
     ("stack", bracketed (frame.stack.map VerificationType.describe)),
     ("chopped", toString frame.chopped)]

def Node.describe : Node → String
  | .label l => applied "Label" [l.render]
  | .line number start =>
    record "LineNumber" [("line", toString number), ("start", start.render)]
  | .frame f => applied "Frame" [f.describe]
  | .plain instruction => applied "Simple" [instruction.describe]
  | .branch b => applied "Branch" [b.describe]

end StackLift
