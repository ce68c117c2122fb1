import StackLift.Listing.Fault
import StackLift.Text.Blank

/-!
Tokens of a line: words and string literals. A comment starts with two slashes where a token could
start, and runs to the end of the line.
-/

namespace StackLift.Listing

inductive Token where
  | word (text : String)
  | string (text : String)
deriving DecidableEq

/-- The character that an escape stands for. -/
def unescape? : Char → Option Char
  | 'n' => some '\n'
  | 't' => some '\t'
  | 'r' => some '\r'
  | '0' => some '\x00'
  | '\\' => some '\\'
  | '"' => some '"'
  | _ => none

/-- The characters of a string literal up to its closing quote, and the text after it. -/
def literal : List Char → Except Fault (List Char × List Char)
  | [] => .error .unterminatedString
  | [c] => if c = '"' then .ok ([], []) else .error .unterminatedString
  | c :: d :: rest =>
    if c = '"' then
      .ok ([], d :: rest)
    else if c = '\\' then
      match unescape? d with
      | none => .error (.unknownEscape d)
      | some e =>
        match literal rest with
        | .error fault => .error fault
        | .ok (text, after) => .ok (e :: text, after)
    else
      match literal (d :: rest) with
      | .error fault => .error fault
      | .ok (text, after) => .ok (c :: text, after)

theorem literal_length {text content after : List Char}
    (h : literal text = .ok (content, after))
    : after.length ≤ text.length := by
  fun_induction literal text generalizing content with
  | case1 => contradiction
  | case2 => cases h; simp
  | case3 => contradiction
  | case4 => cases h; simp
  | case5 => contradiction
  | case6 => contradiction
  | case7 _ _ _ _ _ _ found _ ih =>
    cases h
    have shorter := ih found
    simp only [List.length_cons]
    omega
  | case8 => contradiction
  | case9 _ _ _ _ _ _ _ found ih =>
    cases h
    exact Nat.le_succ_of_le (ih found)

/-- Words end at white space and at the start of a string literal. -/
def isWordChar (c : Char) : Bool :=
  !(Text.isBlank c || c = '"')

/-- The tokens of a line. -/
def tokenize (line : List Char) : Except Fault (List Token) :=
  match line with
  | [] => .ok []
  | c :: rest =>
    if Text.isBlank c then
      tokenize rest
    else if c = '"' then
      match _found : literal rest with
      | .error fault => .error fault
      | .ok (content, after) =>
        match tokenize after with
        | .error fault => .error fault
        | .ok tokens => .ok (.string (String.ofList content) :: tokens)
    else if c = '/' && rest.head? = some '/' then
      .ok []
    else
      match tokenize (rest.dropWhile isWordChar) with
      | .error fault => .error fault
      | .ok tokens => .ok (.word (String.ofList (c :: rest.takeWhile isWordChar)) :: tokens)
termination_by line.length
decreasing_by
  · simp
  · exact Nat.lt_succ_of_le (literal_length _found)
  · exact Nat.lt_succ_of_le (List.dropWhile_sublist _).length_le

end StackLift.Listing
