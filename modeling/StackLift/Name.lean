import StackLift.Text.Split

/-!
Names of members and classes. A class name is given in its internal form, a row of segments between
slashes (`java/lang/Object`), and each segment obeys the rule for member names.
-/

namespace StackLift

/-- Why a text is no name. -/
inductive NameError where
  | illegalCharacter (segment : String)
  | emptySegment
  | emptyClassName
deriving DecidableEq

def NameError.message : NameError → String
  | .illegalCharacter segment =>
    "Unqualified name '" ++ segment ++ "' contains an illegal character"
  | .emptySegment => "Unqualified name '' is empty"
  | .emptyClassName => "Binary name '' is empty"

/-- Characters that delimit names in references and descriptors. -/
def isNameDelimiter (c : Char) : Bool :=
  c = '.' || c = ';' || c = '[' || c = '/'

namespace MemberName

/-- A member name is not empty and holds no delimiter. -/
def fault? (text : List Char) : Option NameError :=
  if text.any isNameDelimiter then some (.illegalCharacter (String.ofList text))
  else if text.isEmpty then some .emptySegment
  else none

end MemberName

/-- A name of a method, field or local variable. -/
structure MemberName where
  text : String
  valid : MemberName.fault? text.toList = none
deriving DecidableEq

def MemberName.ofString (text : String) : Except NameError MemberName :=
  match h : MemberName.fault? text.toList with
  | none => .ok ⟨text, h⟩
  | some fault => .error fault

namespace ClassName

/-- The first fault among the segments of a class name. -/
def fault? (text : List Char) : Option NameError :=
  if text.isEmpty then some .emptyClassName
  else (Text.split '/' text).findSome? MemberName.fault?

end ClassName

/-- A name of a class or interface, in internal form. -/
structure ClassName where
  text : String
  valid : ClassName.fault? text.toList = none
deriving DecidableEq

def ClassName.ofString (text : String) : Except NameError ClassName :=
  match h : ClassName.fault? text.toList with
  | none => .ok ⟨text, h⟩
  | some fault => .error fault

/-- The name as it is written in source text, with dots between the segments. -/
def ClassName.dotted (name : ClassName) : String :=
  String.ofList (name.text.toList.map fun c => if c = '/' then '.' else c)

end StackLift
