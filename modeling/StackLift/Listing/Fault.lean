import StackLift.Name
import StackLift.Number.Integer

/-! What can be wrong with a line of a listing. -/

namespace StackLift.Listing

/-- The cause of a syntax error. -/
inductive Fault where
  | unterminatedString
  | unknownEscape (c : Char)
  | stringAsKeyword
  | missingEnd
  | endOutsideMethod
  | outsideMethod (word : String)
  | methodCount (count : Nat)
  | expected (what : String)
  | expectedNotString (what text : String)
  | invalidNumber (word what : String) (range : IntRange)
  | unexpectedWord (word : String)
  | unexpectedString (text : String)
  | invalidName (fault : NameError)
  | unknownFlag (word : String)
  | fieldWithoutDescriptor (word : String)
  | fieldWithoutOwner (word : String)
  | methodWithoutDescriptor (word : String)
  | methodWithoutOwner (word : String)
  | callSiteWithoutDescriptor (word : String)
  | dynamicWithoutDescriptor (word : String)
  | unterminatedArguments
  | malformedHandle (word : String)
  | unknownHandleKind (word : String)
  | invalidConstant (word : String)
  | labelPlacedTwice (name : String)
  | parameterCount (wanted found : Nat)
  | unknownFrameKind (word : String)
  | unknownPrimitive (word : String)
  | malformedCase (word : String)
  | invalidCaseKey (word : String)
  | unknownInstruction (word : String)
deriving DecidableEq

def inQuotes (text : String) : String :=
  "'" ++ text ++ "'"

def Fault.message : Fault → String
  | .unterminatedString => "Unterminated string literal"
  | .unknownEscape c => "Unknown escape '\\" ++ String.singleton c ++ "'"
  | .stringAsKeyword => "Expected a keyword, found a string"
  | .missingEnd => "Method is missing its 'end'"
  | .endOutsideMethod => "'end' outside of a method"
  | .outsideMethod word => "Expected 'method', found " ++ inQuotes word
  | .methodCount count => "Expected exactly one method, found " ++ toString count
  | .expected what => "Expected " ++ what
  | .expectedNotString what text => "Expected " ++ what ++ ", found string \"" ++ text ++ "\""
  | .invalidNumber word what range =>
    "Operand " ++ inQuotes word ++ " is not a valid " ++ what ++ " (" ++ range.name ++ ")"
  | .unexpectedWord word => "Unexpected operand " ++ inQuotes word
  | .unexpectedString text => "Unexpected operand \"" ++ text ++ "\""
  | .invalidName fault => fault.message
  | .unknownFlag word => "Unknown method flag " ++ inQuotes word
  | .fieldWithoutDescriptor word => "Field " ++ inQuotes word ++ " has no descriptor"
  | .fieldWithoutOwner word => "Field " ++ inQuotes word ++ " has no owner"
  | .methodWithoutDescriptor word => "Method " ++ inQuotes word ++ " has no descriptor"
  | .methodWithoutOwner word => "Method " ++ inQuotes word ++ " has no owner"
  | .callSiteWithoutDescriptor word => "Call site " ++ inQuotes word ++ " has no descriptor"
  | .dynamicWithoutDescriptor word => "Dynamic constant " ++ inQuotes word ++ " has no descriptor"
  | .unterminatedArguments => "Unterminated dynamic constant arguments"
  | .malformedHandle word => "Malformed method handle " ++ inQuotes word
  | .unknownHandleKind word => "Unknown method handle kind " ++ inQuotes word
  | .invalidConstant word => "Invalid constant " ++ inQuotes word
  | .labelPlacedTwice name => "Label " ++ inQuotes name ++ " is placed twice"
  | .parameterCount wanted found =>
    "Expected " ++ toString wanted ++ " parameter names, found " ++ toString found
  | .unknownFrameKind word => "Unknown frame kind " ++ inQuotes word
  | .unknownPrimitive word => "Unknown primitive type " ++ inQuotes word
  | .malformedCase word => "Switch case " ++ inQuotes word ++ " should be 'key:label'"
  | .invalidCaseKey word => "Invalid switch key " ++ inQuotes word
  | .unknownInstruction word => "Unknown instruction " ++ inQuotes word

end StackLift.Listing
