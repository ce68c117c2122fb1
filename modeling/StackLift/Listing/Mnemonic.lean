import StackLift.Bytecode.Instruction

/-! Mnemonics of instructions, grouped by the operands that follow them. -/

namespace StackLift.Listing

/-- Instructions that push small numbers. -/
def constantMnemonics : List (String × Instruction) :=
  ["iconst_m1", "iconst_0", "iconst_1", "iconst_2", "iconst_3", "iconst_4", "iconst_5"].zip
    ((List.finRange 7).map .pushInt)
  ++ ["lconst_0", "lconst_1"].zip ((List.finRange 2).map .pushLong)
  ++ ["fconst_0", "fconst_1", "fconst_2"].zip ((List.finRange 3).map .pushFloat)
  ++ ["dconst_0", "dconst_1"].zip ((List.finRange 2).map .pushDouble)

/-- Instructions without operands. -/
def plainMnemonics : List (String × Instruction) :=
  constantMnemonics ++
  ([("nop", .nop), ("aconst_null", .pushNull),
   ("iaload", .arrayLoad .int), ("laload", .arrayLoad .long), ("faload", .arrayLoad .float),
   ("daload", .arrayLoad .double), ("aaload", .arrayLoad .reference),
   ("baload", .arrayLoad .byte), ("caload", .arrayLoad .char), ("saload", .arrayLoad .short),
   ("iastore", .arrayStore .int), ("lastore", .arrayStore .long),
   ("fastore", .arrayStore .float), ("dastore", .arrayStore .double),
   ("aastore", .arrayStore .reference), ("bastore", .arrayStore .byte),
   ("castore", .arrayStore .char), ("sastore", .arrayStore .short),
   ("pop", .shuffle .pop), ("pop2", .shuffle .pop2), ("dup", .shuffle .dup),
   ("dup_x1", .shuffle .dupX1), ("dup_x2", .shuffle .dupX2), ("dup2", .shuffle .dup2),
   ("dup2_x1", .shuffle .dup2X1), ("dup2_x2", .shuffle .dup2X2), ("swap", .shuffle .swap),
   ("iadd", .arithmetic .add .int), ("ladd", .arithmetic .add .long),
   ("fadd", .arithmetic .add .float), ("dadd", .arithmetic .add .double),
   ("isub", .arithmetic .sub .int), ("lsub", .arithmetic .sub .long),
   ("fsub", .arithmetic .sub .float), ("dsub", .arithmetic .sub .double),
   ("imul", .arithmetic .mul .int), ("lmul", .arithmetic .mul .long),
   ("fmul", .arithmetic .mul .float), ("dmul", .arithmetic .mul .double),
   ("idiv", .arithmetic .div .int), ("ldiv", .arithmetic .div .long),
   ("fdiv", .arithmetic .div .float), ("ddiv", .arithmetic .div .double),
   ("irem", .arithmetic .rem .int), ("lrem", .arithmetic .rem .long),
   ("frem", .arithmetic .rem .float), ("drem", .arithmetic .rem .double),
   ("ineg", .negate .int), ("lneg", .negate .long), ("fneg", .negate .float),
   ("dneg", .negate .double),
   ("ishl", .shift .left .int), ("ishr", .shift .arithmeticRight .int),
   ("iushr", .shift .logicalRight .int), ("lshl", .shift .left .long),
   ("lshr", .shift .arithmeticRight .long), ("lushr", .shift .logicalRight .long),
   ("iand", .bitwise .and .int), ("land", .bitwise .and .long), ("ior", .bitwise .or .int),
   ("lor", .bitwise .or .long), ("ixor", .bitwise .xor .int), ("lxor", .bitwise .xor .long),
   ("i2l", .convert .intToLong), ("i2f", .convert .intToFloat), ("i2d", .convert .intToDouble),
   ("l2i", .convert .longToInt), ("l2f", .convert .longToFloat), ("l2d", .convert .longToDouble),
   ("f2i", .convert .floatToInt), ("f2l", .convert .floatToLong),
   ("f2d", .convert .floatToDouble), ("d2i", .convert .doubleToInt),
   ("d2l", .convert .doubleToLong), ("d2f", .convert .doubleToFloat),
   ("i2b", .convert .intToByte), ("i2c", .convert .intToChar), ("i2s", .convert .intToShort),
   ("lcmp", .compareLong), ("fcmpl", .compareFloat .less), ("fcmpg", .compareFloat .greater),
   ("dcmpl", .compareDouble .less), ("dcmpg", .compareDouble .greater),
   ("arraylength", .arrayLength), ("monitorenter", .enterMonitor), ("monitorexit", .exitMonitor)]
   : List (String × Instruction))

/-- Instructions with a local slot. -/
def slotMnemonics : List (String × (Nat → Instruction)) :=
  [("iload", .load .int), ("lload", .load .long), ("fload", .load .float),
   ("dload", .load .double), ("aload", .load .reference),
   ("istore", .store .int), ("lstore", .store .long), ("fstore", .store .float),
   ("dstore", .store .double), ("astore", .store .reference)]

/-- Instructions with a field. -/
def fieldMnemonics : List (String × (FieldRef → Instruction)) :=
  [("getstatic", .getStatic), ("putstatic", .putStatic), ("getfield", .getField),
   ("putfield", .putField)]

/-- Calls of a method; the owner of an interface call is an interface. -/
def invokeMnemonics : List (String × InvokeKind) :=
  [("invokevirtual", .virtualCall), ("invokespecial", .specialCall),
   ("invokestatic", .staticCall), ("invokeinterface", .interfaceCall)]

/-- Instructions with a class operand. -/
def typeMnemonics : List (String × (RefType → Instruction)) :=
  [("anewarray", .newObjectArray), ("checkcast", .checkCast), ("instanceof", .instanceOf)]

/-- Jumps to one label. -/
def jumpMnemonics : List (String × (Label → Branch)) :=
  [("ifeq", .ifZero .eq), ("ifne", .ifZero .ne), ("iflt", .ifZero .lt), ("ifge", .ifZero .ge),
   ("ifgt", .ifZero .gt), ("ifle", .ifZero .le),
   ("if_icmpeq", .ifInt .eq), ("if_icmpne", .ifInt .ne), ("if_icmplt", .ifInt .lt),
   ("if_icmpge", .ifInt .ge), ("if_icmpgt", .ifInt .gt), ("if_icmple", .ifInt .le),
   ("if_acmpeq", .ifReference .eq), ("if_acmpne", .ifReference .ne),
   ("ifnull", .ifNull .eq), ("ifnonnull", .ifNull .ne),
   ("goto", .goto), ("goto_w", .goto)]

/-- Returns and throws. -/
def terminalMnemonics : List (String × Branch) :=
  [("ireturn", .returnValue .int), ("lreturn", .returnValue .long),
   ("freturn", .returnValue .float), ("dreturn", .returnValue .double),
   ("areturn", .returnValue .reference), ("return", .returnVoid), ("athrow", .throw)]

end StackLift.Listing
