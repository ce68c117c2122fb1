/-! Cutting texts at a separator, and into lines. -/

namespace StackLift.Text

/-- The parts of a text between the occurrences of a separator; there is always at least one. -/
def split (separator : Char) : List Char → List (List Char)
  | [] => [[]]
  | c :: rest =>
    if c = separator then
      [] :: split separator rest
    else
      match split separator rest with
      | [] => [[c]]
      | part :: parts => (c :: part) :: parts

/-- The texts before and after the first occurrence of a separator. -/
def splitFirst? (separator : Char) (text : String) : Option (String × String) :=
  match text.toList.dropWhile (· ≠ separator) with
  | [] => none
  | _ :: after =>
    some (String.ofList (text.toList.takeWhile (· ≠ separator)), String.ofList after)

/-- The texts before and after the last occurrence of a separator. -/
def splitLast? (separator : Char) (text : String) : Option (String × String) :=
  match text.toList.reverse.dropWhile (· ≠ separator) with
  | [] => none
  | _ :: before =>
    some (String.ofList before.reverse,
      String.ofList (text.toList.reverse.takeWhile (· ≠ separator)).reverse)

/-- The text before the first occurrence of a separator, and the text from it on. -/
def breakAt? (separator : Char) (text : String) : Option (String × String) :=
  match text.toList.dropWhile (· ≠ separator) with
  | [] => none
  | after => some (String.ofList (text.toList.takeWhile (· ≠ separator)), String.ofList after)

/-- What follows the first character that ends a run is shorter than the whole. -/
theorem length_lt_of_dropWhile {p : Char → Bool} {text after : List Char} {c : Char}
    (h : text.dropWhile p = c :: after)
    : after.length < text.length := by
  have dropped := (List.dropWhile_sublist (l := text) p).length_le
  rw [h] at dropped
  exact dropped

/-- The text without a suffix that it ends in. -/
def dropSuffix? (suffix text : String) : Option String :=
  if suffix.toList.isSuffixOf text.toList then
    some (String.ofList (text.toList.take (text.toList.length - suffix.toList.length)))
  else
    none

/-- A line that was ended by a line feed loses a carriage return before it. -/
def dropReturn (line : List Char) : List Char :=
  if line.getLast? = some '\r' then line.dropLast else line

/-- The lines among the parts between line feeds: all but the last part were ended by a line feed,
and an empty last part is no line.
-/
def linesOfParts : List (List Char) → List (List Char)
  | [] => []
  | [last] => if last.isEmpty then [] else [last]
  | part :: parts => dropReturn part :: linesOfParts parts

/-- The lines of a text. -/
def lines (text : String) : List (List Char) :=
  linesOfParts (split '\n' text.toList)

end StackLift.Text
