import StackLift.Bytecode.Instruction
import StackLift.Descriptor.Reader
import StackLift.Listing.Token
import StackLift.Number.Decimal

/-! Reading the operands of a line that name no labels. -/

namespace StackLift.Listing

/-- Why a line cannot be read. -/
inductive LineError where
  | malformed (fault : Fault)
  | badDescriptor (text : String) (cause : DescriptorError)

/-- Readers consume the remaining tokens of a line. -/
abbrev OperandReader := StateT (List Token) (Except LineError)

namespace OperandReader

def fail {α : Type} (fault : Fault) : OperandReader α :=
  fun _ => .error (.malformed fault)

/-- The next token, if there is one. -/
def next? : OperandReader (Option Token) :=
  fun tokens => .ok (tokens.head?, tokens.tail)

def atEnd : OperandReader Bool :=
  fun tokens => .ok (tokens.isEmpty, tokens)

/-- Is the next token the given word? -/
def startsWith (word : String) : OperandReader Bool :=
  fun tokens => .ok (tokens.head? = some (.word word), tokens)

/-- The next token, which must be a word. -/
def word (what : String) : OperandReader String
  | [] => .error (.malformed (.expected what))
  | .string text :: _ => .error (.malformed (.expectedNotString what text))
  | .word text :: rest => .ok (text, rest)

/-- Nothing may be left on the line. -/
def finish : OperandReader Unit
  | [] => .ok ((), [])
  | .word text :: _ => .error (.malformed (.unexpectedWord text))
  | .string text :: _ => .error (.malformed (.unexpectedString text))

/-- A value, or a fault if there is none. -/
def orFail {α : Type} (value? : Option α) (fault : Fault) : OperandReader α :=
  match value? with
  | some value => pure value
  | none => fail fault

def number (range : IntRange) (what : String) : OperandReader Int := do
  let text ← word what
  orFail (range.read? text) (.invalidNumber text what range)

def slot : OperandReader Nat :=
  Int.toNat <$> number .unsigned16 "local variable slot"

/-- The words up to the end of the line. -/
def words (what : String) : Nat → OperandReader (List String)
  | 0 => pure []
  | fuel + 1 => do
    if ← atEnd then
      pure []
    else
      let first ← word what
      let rest ← words what fuel
      pure (first :: rest)

def allWords (what : String) : OperandReader (List String) :=
  fun tokens => words what tokens.length tokens

-- Names and descriptors

def className (text : String) : OperandReader ClassName :=
  match ClassName.ofString text with
  | .ok name => pure name
  | .error fault => fail (.invalidName fault)

def memberName (text : String) : OperandReader MemberName :=
  match MemberName.ofString text with
  | .ok name => pure name
  | .error fault => fail (.invalidName fault)

/-- What a descriptor reader makes of a text. -/
def descriptor {α : Type} (read : String → Except DescriptorError α) (text : String)
    : OperandReader α :=
  match read text with
  | .ok value => pure value
  | .error cause => fun _ => .error (.badDescriptor text cause)

def classOperand (text : String) : OperandReader RefType :=
  descriptor RefType.ofOperand text

def fieldType (text : String) : OperandReader FieldType :=
  descriptor (DescriptorReader.whole FieldType.read) text

def methodDescriptor (text : String) : OperandReader MethodDescriptor :=
  descriptor (DescriptorReader.whole MethodDescriptor.read) text

def refType : OperandReader RefType := do
  classOperand (← word "a class or array type")

/-- A field as `owner.name:descriptor`. -/
def fieldRef : OperandReader FieldRef := do
  let text ← word "a field reference"
  let (member, type) ← orFail (Text.splitFirst? ':' text) (.fieldWithoutDescriptor text)
  let (owner, name) ← orFail (Text.splitLast? '.' member) (.fieldWithoutOwner text)
  let owner ← className owner
  let name ← memberName name
  let descriptor ← fieldType type
  pure { owner, name, descriptor }

/-- A method as `owner.name(descriptor)`, and a mark if the owner is an interface. -/
def methodRef (interfaceOwner : Bool) : OperandReader MethodRef := do
  let text ← word "a method reference"
  let (member, type) ← orFail (Text.breakAt? '(' text) (.methodWithoutDescriptor text)
  let (owner, name) ← orFail (Text.splitLast? '.' member) (.methodWithoutOwner text)
  let owner ← classOperand owner
  let name ← memberName name
  let descriptor ← methodDescriptor type
  if ← startsWith "itf" then
    let _ ← next?
    pure { owner, name, descriptor, isInterface := true }
  else
    pure { owner, name, descriptor, isInterface := interfaceOwner }

def handleKind? : String → Option HandleKind
  | "getfield" => some .getField
  | "getstatic" => some .getStatic
  | "putfield" => some .putField
  | "putstatic" => some .putStatic
  | "invokevirtual" => some .invokeVirtual
  | "invokestatic" => some .invokeStatic
  | "invokespecial" => some .invokeSpecial
  | "newinvokespecial" => some .newInvokeSpecial
  | "invokeinterface" => some .invokeInterface
  | _ => none

def handleDescriptor (kind : HandleKind) (text : String) : OperandReader HandleDescriptor :=
  if kind.isField then .field <$> fieldType text else .method <$> methodDescriptor text

/-- A handle as `kind:owner.name:descriptor`. -/
def handle : OperandReader Handle := do
  let text ← word "a method handle"
  let malformed := Fault.malformedHandle text
  let (kind, rest) ← orFail (Text.splitFirst? ':' text) malformed
  let (member, type) ← orFail (Text.splitFirst? ':' rest) malformed
  let (owner, name) ← orFail (Text.splitLast? '.' member) malformed
  let kind ← orFail (handleKind? kind) (.unknownHandleKind kind)
  let descriptor ← handleDescriptor kind type
  let owner ← className owner
  let name ← memberName name
  pure { kind, owner, name, descriptor, isInterface := kind = .invokeInterface }

-- Constants

/-- A number constant. A final letter or a mark of a fraction or exponent tells its type. -/
def numberConstant? (text : String) : Option LoadableConstant :=
  match Text.dropSuffix? "L" text, Text.dropSuffix? "f" text, Text.dropSuffix? "d" text with
  | some digits, _, _ => (IntRange.signed64.read? digits).map fun n => .long (.ofInt n)
  | _, some digits, _ => (Binary32.read? digits).map .float
  | _, _, some digits => (Binary64.read? digits).map .double
  | none, none, none =>
    if text.toList.any fun c => c = '.' || c = 'e' || c = 'E' then
      (Binary64.read? text).map .double
    else
      (IntRange.signed32.read? text).map fun n => .int (.ofInt n)

mutual

/-- A constant; every constant takes at least one token, which bounds the nesting. -/
def constantWithin : Nat → OperandReader LoadableConstant
  | 0 => fail (.expected "a constant")
  | fuel + 1 => do
    match ← next? with
    | none => fail (.expected "a constant")
    | some (.string text) => pure (.string text)
    | some (.word "class") => .classRef <$> refType
    | some (.word "methodtype") => do
      .methodType <$> methodDescriptor (← word "a method descriptor")
    | some (.word "handle") => .handle <$> handle
    | some (.word "dynamic") => do
      let text ← word "a dynamic constant name and descriptor"
      let (name, type) ← orFail (Text.splitFirst? ':' text) (.dynamicWithoutDescriptor text)
      let name ← memberName name
      let descriptor ← fieldType type
      let bootstrap ← handle
      if ← startsWith "\x7b" then
        let _ ← next?
        let arguments ← bracedWithin fuel
        pure (.dynamic name descriptor bootstrap arguments)
      else
        pure (.dynamic name descriptor bootstrap [])
    | some (.word text) => orFail (numberConstant? text) (.invalidConstant text)

/-- Constants up to a closing brace. -/
def bracedWithin : Nat → OperandReader (List LoadableConstant)
  | 0 => fail .unterminatedArguments
  | fuel + 1 => do
    if ← startsWith "\x7d" then
      let _ ← next?
      pure []
    else if ← atEnd then
      fail .unterminatedArguments
    else
      let first ← constantWithin fuel
      let rest ← bracedWithin fuel
      pure (first :: rest)

end

/-- Reading a token of a constant nests at most two readers, so twice the number of tokens bounds
the nesting.
-/
def constant : OperandReader LoadableConstant :=
  fun tokens => constantWithin (2 * tokens.length + 1) tokens

/-- The constants up to the end of the line. -/
def constantsWithin : Nat → OperandReader (List LoadableConstant)
  | 0 => pure []
  | fuel + 1 => do
    if ← atEnd then
      pure []
    else
      let first ← constant
      let rest ← constantsWithin fuel
      pure (first :: rest)

def constants : OperandReader (List LoadableConstant) :=
  fun tokens => constantsWithin tokens.length tokens

/-- A call site as `name(descriptor)`, a bootstrap handle and its arguments. -/
def callSite : OperandReader CallSite := do
  let text ← word "a call site name and descriptor"
  let (name, type) ← orFail (Text.breakAt? '(' text) (.callSiteWithoutDescriptor text)
  let name ← memberName name
  let descriptor ← methodDescriptor type
  let bootstrap ← handle
  let arguments ← constants
  pure { name, descriptor, bootstrap, arguments }

def primitive? : String → Option BaseType
  | "boolean" => some .boolean
  | "char" => some .char
  | "float" => some .float
  | "double" => some .double
  | "byte" => some .byte
  | "short" => some .short
  | "int" => some .int
  | "long" => some .long
  | _ => none

end OperandReader

end StackLift.Listing
