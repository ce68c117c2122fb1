/-!
Text of structured values: a head with arguments in parentheses, a head with named fields in
braces, and items in brackets.
-/

namespace StackLift.Text

def commaSeparated (items : List String) : String :=
  ", ".intercalate items

def bracketed (items : List String) : String :=
  "[" ++ commaSeparated items ++ "]"

def applied (head : String) (arguments : List String) : String :=
  head ++ "(" ++ commaSeparated arguments ++ ")"

def record (head : String) (fields : List (String × String)) : String :=
  head ++ " \x7b " ++ commaSeparated (fields.map fun field => field.1 ++ ": " ++ field.2) ++ " \x7d"

def optional : Option String → String
  | none => "None"
  | some text => applied "Some" [text]

/-- The text followed by as many spaces as bring it to the width. -/
def padRight (width : Nat) (text : String) : String :=
  text ++ String.ofList (List.replicate (width - text.length) ' ')

/-- The text after as many spaces as bring it to the width. -/
def padLeft (width : Nat) (text : String) : String :=
  String.ofList (List.replicate (width - text.length) ' ') ++ text

/-- The text after as many zeros as bring it to the width. -/
def zeroPadded (width : Nat) (text : String) : String :=
  String.ofList (List.replicate (width - text.length) '0') ++ text

end StackLift.Text
