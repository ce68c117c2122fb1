/-! Decimal integers with an optional sign, checked against the range of a fixed width. -/

namespace StackLift

/-- A fixed-width range of integers, with the name it has in messages. -/
structure IntRange where
  name : String
  signed : Bool
  least : Int
  greatest : Int
deriving DecidableEq

namespace IntRange

def ofSigned (name : String) (width : Nat) : IntRange :=
  { name, signed := true, least := -(1 <<< (width - 1) : Nat),
    greatest := (1 <<< (width - 1) : Nat) - 1 }

def ofUnsigned (name : String) (width : Nat) : IntRange :=
  { name, signed := false, least := 0, greatest := (1 <<< width : Nat) - 1 }

def signed8 : IntRange := ofSigned "i8" 8
def signed16 : IntRange := ofSigned "i16" 16
def signed32 : IntRange := ofSigned "i32" 32
def signed64 : IntRange := ofSigned "i64" 64
def unsigned8 : IntRange := ofUnsigned "u8" 8
def unsigned16 : IntRange := ofUnsigned "u16" 16
def unsigned32 : IntRange := ofUnsigned "u32" 32
def unsigned64 : IntRange := ofUnsigned "usize" 64

end IntRange

/-- The value of a non-empty row of ASCII decimal digits. -/
def digits? (text : List Char) : Option Nat :=
  if text.isEmpty || !text.all Char.isDigit then none
  else some (text.foldl (fun n c => 10 * n + (c.toNat - '0'.toNat)) 0)

/-- Digits after an optional plus sign or, in a signed range, a minus sign. -/
def IntRange.signed? (range : IntRange) : List Char → Option Int
  | '+' :: rest => (digits? rest).map Int.ofNat
  | '-' :: rest => if range.signed then (digits? rest).map fun n => -Int.ofNat n else none
  | text => (digits? text).map Int.ofNat

/-- The integer that a text writes, if it is in the range. -/
def IntRange.read? (range : IntRange) (text : String) : Option Int :=
  match range.signed? text.toList with
  | some n => if range.least ≤ n && n ≤ range.greatest then some n else none
  | none => none

end StackLift
