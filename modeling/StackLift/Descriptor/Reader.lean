import StackLift.Descriptor.Basic

/-!
Reading descriptors. Each reader takes a descriptor off the front of a text, deciding by the next
character alone, and returns what is left; a whole text must leave nothing.
-/

namespace StackLift

/-- Why a text is no descriptor. -/
inductive DescriptorError where
  | leftover (c : Char)
  | invalidBase (c : Char)
  | missingBase
  | unterminatedClass (name : String)
  | expectedClass
  | invalidName (fault : NameError)
  | invalidReference (c : Char)
  | invalidField (c : Char)
  | missingField
  | expectedParameters
deriving DecidableEq

namespace DescriptorError

def message : DescriptorError → String
  | .leftover c => "Unexpected leftover input '" ++ String.singleton c ++ "'"
  | .invalidBase c => "Invalid base type character '" ++ String.singleton c ++ "'"
  | .missingBase => "Missing base type character"
  | .unterminatedClass name => "Missing terminator for 'L" ++ name ++ "'"
  | .expectedClass => "Expected object type to start with `L`"
  | .invalidName fault => fault.message
  | .invalidReference c => "Invalid reference type character '" ++ String.singleton c ++ "'"
  | .invalidField c => "Invalid field type character '" ++ String.singleton c ++ "'"
  | .missingField => "Missing field type"
  | .expectedParameters => "Expected '(' for method"

/-- Did the text end too early? -/
def endsEarly : DescriptorError → Bool
  | .missingBase | .unterminatedClass _ | .missingField => true
  | _ => false

end DescriptorError

/-- A reader gives a value and the text after it. -/
abbrev DescriptorReader (α : Type) :=
  List Char → Except DescriptorError (α × List Char)

/-- Reads a whole text. -/
def DescriptorReader.whole {α : Type} (read : DescriptorReader α) (text : String)
    : Except DescriptorError α :=
  match read text.toList with
  | .error fault => .error fault
  | .ok (value, []) => .ok value
  | .ok (_, c :: _) => .error (.leftover c)

def BaseType.ofLetter? : Char → Option BaseType
  | 'B' => some .byte
  | 'C' => some .char
  | 'D' => some .double
  | 'F' => some .float
  | 'I' => some .int
  | 'J' => some .long
  | 'S' => some .short
  | 'Z' => some .boolean
  | _ => none

def BaseType.read : DescriptorReader BaseType
  | [] => .error .missingBase
  | c :: rest =>
    match BaseType.ofLetter? c with
    | some type => .ok (type, rest)
    | none => .error (.invalidBase c)

def ClassName.read : DescriptorReader ClassName
  | 'L' :: rest =>
    match rest.dropWhile (· ≠ ';') with
    | [] => .error (.unterminatedClass (String.ofList rest))
    | _ :: after =>
      match ClassName.ofString (String.ofList (rest.takeWhile (· ≠ ';'))) with
      | .ok name => .ok (name, after)
      | .error fault => .error (.invalidName fault)
  | _ => .error .expectedClass

/-- The element type of an array with the given extra dimensions. -/
def RefType.readElement (extra : Nat) : DescriptorReader RefType
  | 'L' :: rest =>
    match ClassName.read ('L' :: rest) with
    | .ok (name, rest) => .ok (.objectArray extra name, rest)
    | .error fault => .error fault
  | text =>
    match BaseType.read text with
    | .ok (type, rest) => .ok (.primitiveArray extra type, rest)
    | .error fault => .error fault

def RefType.read : DescriptorReader RefType
  | [] => .error .missingField
  | 'L' :: rest =>
    match ClassName.read ('L' :: rest) with
    | .ok (name, rest) => .ok (.object name, rest)
    | .error fault => .error fault
  | '[' :: rest =>
    RefType.readElement (rest.takeWhile (· = '[')).length (rest.dropWhile (· = '['))
  | c :: _ => .error (.invalidReference c)

def FieldType.read : DescriptorReader FieldType
  | [] => .error .missingField
  | c :: rest =>
    match BaseType.ofLetter? c with
    | some type => .ok (.base type, rest)
    | none =>
      if c = 'L' || c = '[' then
        match RefType.read (c :: rest) with
        | .ok (type, rest) => .ok (.ref type, rest)
        | .error fault => .error fault
      else
        .error (.invalidField c)

-- Reading consumes at least one character

theorem BaseType.read_length {text rest : List Char} {type : BaseType}
    (h : BaseType.read text = .ok (type, rest))
    : rest.length < text.length := by
  unfold BaseType.read at h
  split at h
  · contradiction
  · split at h
    · cases h; simp
    · contradiction

theorem ClassName.read_length {text rest : List Char} {name : ClassName}
    (h : ClassName.read text = .ok (name, rest))
    : rest.length < text.length := by
  unfold ClassName.read at h
  split at h
  · split at h
    · contradiction
    · rename_i cut
      split at h
      · cases h
        exact Nat.lt_succ_of_lt (Text.length_lt_of_dropWhile cut)
      · contradiction
  · contradiction

theorem RefType.readElement_length {extra : Nat} {text rest : List Char} {type : RefType}
    (h : RefType.readElement extra text = .ok (type, rest))
    : rest.length < text.length := by
  unfold RefType.readElement at h
  split at h
  · split at h
    · rename_i found
      cases h
      exact ClassName.read_length found
    · contradiction
  · split at h
    · rename_i found
      cases h
      exact BaseType.read_length found
    · contradiction

theorem RefType.read_length {text rest : List Char} {type : RefType}
    (h : RefType.read text = .ok (type, rest))
    : rest.length < text.length := by
  unfold RefType.read at h
  split at h
  · contradiction
  · split at h
    · rename_i found
      cases h
      exact ClassName.read_length found
    · contradiction
  · rename_i tail
    have shorter := RefType.readElement_length h
    have dropped := (List.dropWhile_sublist (l := tail) (· = '[')).length_le
    simp only [List.length_cons]
    omega
  · contradiction

theorem FieldType.read_length {text rest : List Char} {type : FieldType}
    (h : FieldType.read text = .ok (type, rest))
    : rest.length < text.length := by
  unfold FieldType.read at h
  split at h
  · contradiction
  · split at h
    · cases h; simp
    · split at h
      · split at h
        · rename_i found
          cases h
          exact RefType.read_length found
        · contradiction
      · contradiction

-- Method descriptors

/-- Field types up to a closing parenthesis, which is consumed too. -/
def MethodDescriptor.readParameters (text : List Char)
    : Except DescriptorError (List FieldType × List Char) :=
  if text.head? = some ')' then
    .ok ([], text.tail)
  else
    match _found : FieldType.read text with
    | .error fault => .error fault
    | .ok (type, rest) =>
      match MethodDescriptor.readParameters rest with
      | .error fault => .error fault
      | .ok (types, rest) => .ok (type :: types, rest)
termination_by text.length
decreasing_by exact FieldType.read_length _found

/-- The result type; the letter `V` stands for no result. -/
def MethodDescriptor.readResult : DescriptorReader (Option FieldType)
  | 'V' :: rest => .ok (none, rest)
  | text =>
    match FieldType.read text with
    | .ok (type, rest) => .ok (some type, rest)
    | .error fault => .error fault

def MethodDescriptor.read : DescriptorReader MethodDescriptor
  | '(' :: rest =>
    match MethodDescriptor.readParameters rest with
    | .error fault => .error fault
    | .ok (parameters, rest) =>
      match MethodDescriptor.readResult rest with
      | .error fault => .error fault
      | .ok (returnType, rest) => .ok ({ parameters, returnType }, rest)
  | _ => .error .expectedParameters

/-- A class operand: the internal name of a class, or the descriptor of an array. -/
def RefType.ofOperand (text : String) : Except DescriptorError RefType :=
  if text.toList.head? = some '[' then
    DescriptorReader.whole RefType.read text
  else
    match ClassName.ofString text with
    | .ok name => .ok (.object name)
    | .error fault => .error (.invalidName fault)

end StackLift
