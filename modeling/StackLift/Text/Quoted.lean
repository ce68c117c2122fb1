import StackLift.Text.Printable

/-!
Quoted characters and texts. Control characters have short escapes, the quote and the backslash are
escaped, and every other character that is not printable is written by its code point.
-/

namespace StackLift.Text

/-- The lower-case hexadecimal digits of a number, without padding. -/
def hexadecimal (n : Nat) : String :=
  String.ofList (Nat.toDigits 16 n)

/-- How a character is written between two copies of the quote. -/
def escapeChar (quote c : Char) : String :=
  if c = '\x00' then "\\0"
  else if c = '\t' then "\\t"
  else if c = '\r' then "\\r"
  else if c = '\n' then "\\n"
  else if c = '\\' then "\\\\"
  else if c = quote then String.ofList ['\\', quote]
  else if isPrintable c then String.singleton c
  else "\\u\x7b" ++ hexadecimal c.toNat ++ "\x7d"

/-- The text between double quotes. -/
def quoted (text : String) : String :=
  "\"" ++ String.join (text.toList.map (escapeChar '"')) ++ "\""

/-- The character between single quotes. -/
def quotedChar (c : Char) : String :=
  "'" ++ escapeChar (Char.ofNat 0x27) c ++ "'"

end StackLift.Text
