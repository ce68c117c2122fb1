import StackLift.Error
import StackLift.Listing.Body

/-!
Reading listings. A listing holds methods one after the other; each starts with a header line and
ends with a line `end`, and every line between adds a node or a table entry.
-/

namespace StackLift.Listing

/-- A method whose `end` was not read yet, with its label names. -/
structure Draft where
  method : Method
  labels : Labels

namespace Draft

open OperandReader (fail orFail)

def flags : List String → OperandReader AccessFlags
  | [] => pure .empty
  | word :: words => do
    let first ← orFail (AccessFlags.ofKeyword? word) (.unknownFlag word)
    let rest ← flags words
    pure (first.union rest)

/-- A header: access flags, then `owner.name(descriptor)`. -/
def header : OperandReader Draft := do
  let words ← OperandReader.allWords "a method flag or signature"
  let signature ← orFail words.getLast? (.expected "a method signature")
  let flags ← flags words.dropLast
  let (member, type) ← orFail (Text.breakAt? '(' signature) (.methodWithoutDescriptor signature)
  let (owner, name) ← orFail (Text.splitLast? '.' member) (.methodWithoutOwner signature)
  let descriptor ← OperandReader.methodDescriptor type
  let owner ← OperandReader.className owner
  let name ← OperandReader.memberName name
  let parameterNames := descriptor.parameters.map fun _ => none
  pure
    { method :=
        { owner, name, descriptor, flags, parameterNames, nodes := [], ranges := [],
          variableTable := [] }
      labels := .empty }

def add (draft : Draft) (line : LineReader.Line) : Draft :=
  let method := draft.method
  match line with
  | .node node => { draft with method := { method with nodes := method.nodes ++ [node] } }
  | .parameters names => { draft with method := { method with parameterNames := names } }
  | .range range => { draft with method := { method with ranges := method.ranges ++ [range] } }
  | .entry entry =>
    { draft with method := { method with variableTable := method.variableTable ++ [entry] } }

/-- The draft after one more line. -/
def readLine (draft : Draft) (head : String) (operands : List Token)
    : Except LineError Draft :=
  match LineReader.line draft.method.descriptor.parameters.length head draft.labels operands with
  | .error e => .error e
  | .ok ((line, labels), _) => .ok { draft.add line with labels }

end Draft

/-- The methods that were read, and the one that is still open. -/
structure Progress where
  methods : List Method
  current : Option Draft

def Progress.start : Progress := { methods := [], current := none }

def readTokens (progress : Progress) : List Token → Except LineError Progress
  | [] => .ok progress
  | .string _ :: _ => .error (.malformed .stringAsKeyword)
  | .word head :: operands =>
    if head = "method" then
      match progress.current with
      | some _ => .error (.malformed .missingEnd)
      | none =>
        match Draft.header operands with
        | .error e => .error e
        | .ok (draft, _) => .ok { progress with current := some draft }
    else if head = "end" then
      match OperandReader.finish operands, progress.current with
      | .error e, _ => .error e
      | .ok _, none => .error (.malformed .endOutsideMethod)
      | .ok _, some draft =>
        .ok { methods := progress.methods ++ [draft.method], current := none }
    else
      match progress.current with
      | none => .error (.malformed (.outsideMethod head))
      | some draft =>
        match draft.readLine head operands with
        | .error e => .error e
        | .ok draft => .ok { progress with current := some draft }

def readLine (progress : Progress) (line : List Char) : Except LineError Progress :=
  match tokenize line with
  | .error fault => .error (.malformed fault)
  | .ok tokens => readTokens progress tokens

/-- An error of a line, with the number of the line. -/
def LineError.onLine (number : Nat) : LineError → Error
  | .malformed fault => .malformedLine number fault
  | .badDescriptor text cause => .badDescriptor text cause

/-- Reads lines, of which `before` were read already. -/
def readLines (before : Nat) (progress : Progress) : List (List Char) → Except Error Progress
  | [] => .ok progress
  | line :: rest =>
    match readLine progress line with
    | .error e => .error (e.onLine (before + 1))
    | .ok progress => readLines (before + 1) progress rest

/-- The methods of a listing. -/
def read (source : String) : Except Error (List Method) :=
  let lines := Text.lines source
  match readLines 0 .start lines with
  | .error e => .error e
  | .ok progress =>
    match progress.current with
    | some _ => .error (.malformedLine lines.length .missingEnd)
    | none => .ok progress.methods

/-- The only method of a listing. -/
def readSingle (source : String) : Except Error Method :=
  match read source with
  | .error e => .error e
  | .ok [method] => .ok method
  | .ok methods => .error (.malformedLine 1 (.methodCount methods.length))

end StackLift.Listing
