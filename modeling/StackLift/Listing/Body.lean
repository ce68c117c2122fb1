import StackLift.Listing.Mnemonic
import StackLift.Listing.Operand
import StackLift.Method

/-!
Reading the lines of a method. Labels are numbered by their first mention in the method, whether in
an operand, a table entry or at their place.
-/

namespace StackLift.Listing

/-- The label names of a method in the order of their first mention, and the labels that already
have a place.
-/
structure Labels where
  names : List String
  placed : List Label

def Labels.empty : Labels := { names := [], placed := [] }

/-- The label of a name, which is new if the name was not mentioned before. -/
def Labels.mention (labels : Labels) (name : String) : Label × Labels :=
  match labels.names.findIdx? (· = name) with
  | some index => (⟨index⟩, labels)
  | none => (⟨labels.names.length⟩, { labels with names := labels.names ++ [name] })

/-- Readers of lines that may mention labels. -/
abbrev LineReader := StateT Labels OperandReader

namespace LineReader

open OperandReader (fail word number orFail atEnd next? startsWith)

def label (name : String) : LineReader Label :=
  fun labels => pure (labels.mention name)

def labelOperand : LineReader Label := do
  label (← word "a label")

/-- Label operands up to the end of the line. -/
def labelsWithin : Nat → LineReader (List Label)
  | 0 => pure []
  | fuel + 1 => do
    if ← atEnd then
      pure []
    else
      let first ← labelOperand
      let rest ← labelsWithin fuel
      pure (first :: rest)

def remaining : LineReader Nat :=
  fun labels tokens => .ok ((tokens.length, labels), tokens)

def labelOperands : LineReader (List Label) := do
  labelsWithin (← remaining)

-- Stack map frames

/-- The text after the mark of an uninitialized type. -/
def uninitializedLabel? (text : String) : Option String :=
  if "uninit:".toList.isPrefixOf text.toList then some (String.ofList (text.toList.drop 7))
  else none

def verificationType : LineReader VerificationType := do
  match ← word "a verification type" with
  | "top" => pure .top
  | "int" => pure .int
  | "float" => pure .float
  | "long" => pure .long
  | "double" => pure .double
  | "null" => pure .null
  | "uninit_this" => pure .uninitializedThis
  | text =>
    match uninitializedLabel? text with
    | some name => .uninitialized <$> label name
    | none => .object <$> OperandReader.classOperand text

/-- Types up to the end of the line or, if it divides, up to a bar. -/
def typesWithin (divided : Bool) : Nat → LineReader (List VerificationType)
  | 0 => pure []
  | fuel + 1 => do
    if ← atEnd then
      pure []
    else if divided && (← startsWith "|") then
      pure []
    else
      let first ← verificationType
      let rest ← typesWithin divided fuel
      pure (first :: rest)

def types (divided : Bool) : LineReader (List VerificationType) := do
  typesWithin divided (← remaining)

def frameKind? : String → Option FrameKind
  | "full" => some .full
  | "new" => some .new
  | "append" => some .append
  | "chop" => some .chop
  | "same" => some .same
  | "same1" => some .same1
  | _ => none

def stackMapFrame : LineReader StackMapFrame := do
  let text ← word "a frame kind"
  let kind ← orFail (frameKind? text) (.unknownFrameKind text)
  match kind with
  | .full | .new =>
    let locals ← types true
    if ← startsWith "|" then
      let _ ← next?
      let stack ← types false
      pure { kind, locals, stack, chopped := 0 }
    else
      pure { kind, locals, stack := [], chopped := 0 }
  | .append =>
    let locals ← types false
    pure { kind, locals, stack := [], chopped := 0 }
  | .chop =>
    let count ← number .unsigned64 "chopped local count"
    pure { kind, locals := [], stack := [], chopped := count.toNat }
  | .same => pure { kind, locals := [], stack := [], chopped := 0 }
  | .same1 =>
    let entry ← verificationType
    pure { kind, locals := [], stack := [entry], chopped := 0 }

-- Instructions

/-- A switch case as `key:label`. -/
def switchCase : LineReader (Int32 × Label) := do
  let text ← word "a 'key:label' switch case"
  let (key, target) ← orFail (Text.splitFirst? ':' text) (.malformedCase text)
  let key ← orFail (IntRange.signed32.read? key) (.invalidCaseKey key)
  let target ← label target
  pure (.ofInt key, target)

def casesWithin : Nat → LineReader (List (Int32 × Label))
  | 0 => pure []
  | fuel + 1 => do
    if ← atEnd then
      pure []
    else
      let first ← switchCase
      let rest ← casesWithin fuel
      pure (first :: rest)

/-- Cases are kept by ascending key; equal keys stay in the order of the line. -/
def sortCases (cases : List (Int32 × Label)) : List (Int32 × Label) :=
  cases.mergeSort fun a b => a.1 ≤ b.1

/-- Instructions with operands of their own kind. -/
def special (opcode : String) : LineReader Node := do
  match opcode with
  | "bipush" => do
    let value ← number .signed8 "byte"
    pure (.plain (.pushByte (.ofInt value)))
  | "sipush" => do
    let value ← number .signed16 "short"
    pure (.plain (.pushShort (.ofInt value)))
  | "ldc" | "ldc_w" | "ldc2_w" => do
    let constant ← OperandReader.constant
    pure (.plain (.pushConstant constant))
  | "iinc" => do
    let slot ← OperandReader.slot
    let amount ← number .signed16 "increment"
    pure (.plain (.increment slot (.ofInt amount)))
  | "invokedynamic" => do
    let site ← OperandReader.callSite
    pure (.plain (.invokeDynamic site))
  | "new" => do
    let name ← OperandReader.className (← word "a class name")
    pure (.plain (.new name))
  | "newarray" => do
    let text ← word "a primitive type"
    let element ← orFail (OperandReader.primitive? text) (.unknownPrimitive text)
    pure (.plain (.newArray element))
  | "multianewarray" => do
    let type ← OperandReader.refType
    let dimensions ← number .unsigned8 "dimension count"
    pure (.plain (.newMultiArray type dimensions.toNat))
  | "tableswitch" => do
    let low ← number .signed32 "lowest switch key"
    let default ← labelOperand
    let targets ← labelOperands
    pure (.branch (.tableSwitch default (.ofInt low) targets))
  | "lookupswitch" => do
    let default ← labelOperand
    let cases ← casesWithin (← remaining)
    pure (.branch (.lookupSwitch default (sortCases cases)))
  | _ => fail (.unknownInstruction opcode)

def instruction (opcode : String) : LineReader Node := do
  if let some i := plainMnemonics.lookup opcode then
    pure (.plain i)
  else if let some b := terminalMnemonics.lookup opcode then
    pure (.branch b)
  else if let some make := slotMnemonics.lookup opcode then
    pure (.plain (make (← OperandReader.slot)))
  else if let some make := fieldMnemonics.lookup opcode then
    pure (.plain (make (← OperandReader.fieldRef)))
  else if let some kind := invokeMnemonics.lookup opcode then
    pure (.plain (.invoke kind (← OperandReader.methodRef (kind = .interfaceCall))))
  else if let some make := typeMnemonics.lookup opcode then
    pure (.plain (make (← OperandReader.refType)))
  else if let some make := jumpMnemonics.lookup opcode then
    pure (.branch (make (← labelOperand)))
  else
    special opcode

-- Directives

def catchType : LineReader (Option ClassName) := do
  match ← next? with
  | none => pure none
  | some (.word "any") => pure none
  | some (.word text) => some <$> OperandReader.className text
  | some (.string _) => fail (.expected "a class name")

def protectedRange : LineReader ProtectedRange := do
  let start ← labelOperand
  let stop ← labelOperand
  let handler ← labelOperand
  let catchType ← catchType
  pure { start, stop, handler, catchType }

def variableEntry : LineReader VariableEntry := do
  let name ← OperandReader.memberName (← word "a local variable name")
  let descriptor ← OperandReader.fieldType (← word "a field descriptor")
  let start ← labelOperand
  let stop ← labelOperand
  let slot ← OperandReader.slot
  pure { name, descriptor, start, stop, slot }

def lineMark : LineReader Node := do
  let line ← number .unsigned32 "line number"
  let start ← labelOperand
  pure (.line line.toNat start)

/-- An underscore leaves a parameter without a name. -/
def parameterNamesWithin : Nat → OperandReader (List (Option MemberName))
  | 0 => pure []
  | fuel + 1 => do
    if ← atEnd then
      pure []
    else
      let text ← word "a parameter name"
      let first ← if text = "_" then pure none else some <$> OperandReader.memberName text
      let rest ← parameterNamesWithin fuel
      pure (first :: rest)

def parameterNames (wanted : Nat) : OperandReader (List (Option MemberName)) := do
  let names ← (fun tokens => parameterNamesWithin tokens.length tokens : OperandReader _)
  if names.length = wanted then
    pure names
  else
    fail (.parameterCount wanted names.length)

/-- A label at its place. -/
def placedLabel (name : String) : LineReader Node := do
  let placed ← label name
  let labels ← get
  if labels.placed.contains placed then
    fail (.labelPlacedTwice name)
  else
    set { labels with placed := labels.placed ++ [placed] }
    pure (.label placed)

/-- What a line of a method body adds to the method. -/
inductive Line where
  | node (node : Node)
  | parameters (names : List (Option MemberName))
  | range (range : ProtectedRange)
  | entry (entry : VariableEntry)

/-- A line of a method with the given number of parameters. -/
def line (parameterCount : Nat) (head : String) : LineReader Line := do
  let line ←
    match Text.dropSuffix? ":" head with
    | some name => Line.node <$> placedLabel name
    | none =>
      match head with
      | "params" => Line.parameters <$> parameterNames parameterCount
      | "try" => Line.range <$> protectedRange
      | "local" => Line.entry <$> variableEntry
      | "line" => Line.node <$> lineMark
      | "frame" => (Line.node ∘ Node.frame) <$> stackMapFrame
      | opcode => Line.node <$> instruction opcode
  OperandReader.finish
  pure line

end LineReader

end StackLift.Listing
