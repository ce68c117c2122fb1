import StackLift.Number.Binary
import StackLift.Number.Integer

/-!
Decimal text of binary floating-point numbers, by exact arithmetic. A number is written with the
fewest digits that read back, and of those with the digits nearest to it. A decimal is read as the
nearest number, and a tie goes to the even mantissa.
-/

namespace StackLift

/-- The number `digits * 10 ^ exponent`. -/
structure Decimal where
  digits : Nat
  exponent : Int

/-- A non-negative number as a quotient. -/
structure Fraction where
  num : Nat
  den : Nat

/-- The quotient times a power of the base. -/
def Fraction.scale (q : Fraction) (base : Nat) (power : Int) : Fraction :=
  if 0 ≤ power then { q with num := q.num * Nat.pow base power.toNat }
  else { q with den := q.den * Nat.pow base (-power).toNat }

def decimalLength (n : Nat) : Nat :=
  (Nat.toDigits 10 n).length

/-- The number of digits before the decimal point: the power of ten just above the quotient. -/
def Fraction.magnitude (q : Fraction) : Int :=
  let estimate : Int := decimalLength q.num - decimalLength q.den
  let shifted := q.scale 10 (-estimate)
  if shifted.den ≤ shifted.num then estimate + 1 else estimate

/-- Removes the zeros at the end of the digits. -/
def Decimal.trim (d : Decimal) : Nat → Decimal
  | 0 => d
  | fuel + 1 =>
    if d.digits ≠ 0 && d.digits % 10 = 0 then
      Decimal.trim { digits := d.digits / 10, exponent := d.exponent + 1 } fuel
    else
      d

-- Writing: the fewest digits that read back

/-- The interval of reals that round to a number, in quarters of the unit of its mantissa. Its ends
belong to it exactly when the mantissa is even.
-/
structure RoundingInterval where
  low : Nat
  value : Nat
  high : Nat
  closed : Bool

def BinaryNumber.interval (x : BinaryNumber) : RoundingInterval :=
  { low := 4 * x.mantissa - (if x.narrowBelow then 1 else 2)
    value := 4 * x.mantissa
    high := 4 * x.mantissa + 2
    closed := x.mantissa % 2 = 0 }

/-- Does the point of a grid lie in the interval? The interval is scaled so that the grid has unit
steps: its quarters are `num / den` steps long.
-/
def RoundingInterval.holds (i : RoundingInterval) (quarter : Fraction) (point : Nat) : Bool :=
  let p := point * quarter.den
  if i.closed then i.low * quarter.num ≤ p && p ≤ i.high * quarter.num
  else i.low * quarter.num < p && p < i.high * quarter.num

/-- The point of the decimal grid with the given step that stands for the interval: the nearer of
the two neighbours of the value, among those in the interval. An exact tie goes up.
-/
def RoundingInterval.pick? (i : RoundingInterval) (quarter : Fraction) : Option Nat :=
  let below := i.value * quarter.num / quarter.den
  let above := below + 1
  let remainder := i.value * quarter.num % quarter.den
  match i.holds quarter below, i.holds quarter above with
  | true, true => if 2 * remainder < quarter.den then some below else some above
  | true, false => some below
  | false, true => some above
  | false, false => none

/-- Tries decimal grids from the coarsest on: `places` counts the digits already tried. -/
def RoundingInterval.search (i : RoundingInterval) (quarter : Fraction) (magnitude : Int) :
    (fuel places : Nat) → Decimal
  | 0, places => { digits := i.value, exponent := magnitude - places }
  | fuel + 1, places =>
    let step := magnitude - (places + 1)
    match i.pick? (quarter.scale 10 (-step)) with
    | some digits => { digits, exponent := step }
    | none => i.search quarter magnitude fuel (places + 1)

/-- The shortest decimal that reads back as a positive finite number. Seventeen digits are enough
for both formats.
-/
def BinaryNumber.shortest (x : BinaryNumber) : Decimal :=
  let quarter := ({ num := 1, den := 1 } : Fraction).scale 2 (x.exponent - 2)
  let value : Fraction := { quarter with num := x.interval.value * quarter.num }
  (x.interval.search quarter value.magnitude 17 0).trim 20

/-- Positional text of digits whose point stands after `point` of them, with at least one digit on
either side.
-/
def positional (digits : List Char) (point : Int) : String :=
  if point ≤ 0 then
    "0." ++ String.ofList (List.replicate (-point).toNat '0' ++ digits)
  else
    let whole := point.toNat
    if digits.length ≤ whole then
      String.ofList (digits ++ List.replicate (whole - digits.length) '0') ++ ".0"
    else
      String.ofList (digits.take whole) ++ "." ++ String.ofList (digits.drop whole)

/-- Text with one digit before the point and a power of ten. -/
def scientific (digits : List Char) (point : Int) : String :=
  let tail := digits.drop 1
  String.ofList (digits.take 1)
    ++ (if tail.isEmpty then "" else "." ++ String.ofList tail)
    ++ "e" ++ toString (point - 1)

/-- Numbers from `1e-4` up to below `1e16` are written positionally, all others with an exponent. -/
def Decimal.render (d : Decimal) : String :=
  let digits := Nat.toDigits 10 d.digits
  let point := d.exponent + digits.length
  if -3 ≤ point && point ≤ 16 then positional digits point else scientific digits point

/-- Text of the number that a bit pattern stands for. -/
def BinaryFormat.render (format : BinaryFormat) (bits : Nat) : String :=
  let magnitude := bits % format.signBit
  let sign := if bits = magnitude then "" else "-"
  if format.infinity < magnitude then "NaN"
  else if magnitude = format.infinity then sign ++ "inf"
  else if magnitude = 0 then sign ++ "0.0"
  else sign ++ (format.decode magnitude).shortest.render

def Binary32.render (x : Binary32) : String :=
  BinaryFormat.single.render x.bits.toNat

def Binary64.render (x : Binary64) : String :=
  BinaryFormat.double.render x.bits.toNat

-- Reading: the nearest number

/-- The nearest integer to a quotient; a tie goes to the even one. -/
def Fraction.round (q : Fraction) : Nat :=
  let floor := q.num / q.den
  let rest := q.num % q.den
  if 2 * rest < q.den then floor
  else if q.den < 2 * rest then floor + 1
  else if floor % 2 = 0 then floor
  else floor + 1

/-- The greatest power of two that is at most a positive quotient. -/
def Fraction.log2 (q : Fraction) : Int :=
  let estimate : Int := Nat.log2 q.num - Nat.log2 q.den
  let shifted := q.scale 2 (-estimate)
  if shifted.den ≤ shifted.num then estimate else estimate - 1

/-- The pattern of the number nearest to a positive quotient; beyond the greatest finite number that
is the infinity.
-/
def BinaryFormat.encode (format : BinaryFormat) (q : Fraction) : Nat :=
  let exponent := max format.leastExponent (q.log2 - format.fractionBits)
  let mantissa := (q.scale 2 (-exponent)).round
  let field := (exponent - format.leastExponent).toNat
  min (field * (1 <<< format.fractionBits) + mantissa) format.infinity

/-- The pattern of a decimal. Decimals beyond four hundred places on either side of the point are
out of range of both formats.
-/
def BinaryFormat.ofDecimal (format : BinaryFormat) (d : Decimal) : Nat :=
  let top := d.exponent + decimalLength d.digits
  if d.digits = 0 then 0
  else if 400 < top then format.infinity
  else if top < -400 then 0
  else format.encode (({ num := d.digits, den := 1 } : Fraction).scale 10 d.exponent)

/-- An exponent mark with an optional sign and digits, or nothing. -/
def exponentPart? : List Char → Option Int
  | [] => some 0
  | mark :: rest =>
    if mark = 'e' || mark = 'E' then
      match rest with
      | '+' :: digits => (digits? digits).map Int.ofNat
      | '-' :: digits => (digits? digits).map fun n => -Int.ofNat n
      | digits => (digits? digits).map Int.ofNat
    else
      none

/-- Digits with an optional point and exponent; there is a digit before or after the point. -/
def decimal? (text : List Char) : Option Decimal :=
  let whole := text.takeWhile Char.isDigit
  let (fraction, rest) :=
    match text.dropWhile Char.isDigit with
    | '.' :: rest => (rest.takeWhile Char.isDigit, rest.dropWhile Char.isDigit)
    | rest => ([], rest)
  match digits? (whole ++ fraction), exponentPart? rest with
  | some digits, some exponent => some { digits, exponent := exponent - fraction.length }
  | _, _ => none

/-- The pattern of a text without sign: a decimal, or in any case one of the words for the infinity
and for no number.
-/
def BinaryFormat.magnitude? (format : BinaryFormat) (text : List Char) : Option Nat :=
  let word := String.ofList (text.map Char.toLower)
  if word = "inf" || word = "infinity" then some format.infinity
  else if word = "nan" then some format.quietNaN
  else (decimal? text).map format.ofDecimal

/-- The pattern that a text with an optional sign writes. -/
def BinaryFormat.read? (format : BinaryFormat) (text : String) : Option Nat :=
  match text.toList with
  | '+' :: rest => format.magnitude? rest
  | '-' :: rest => (format.magnitude? rest).map (format.signBit + ·)
  | rest => format.magnitude? rest

def Binary32.read? (text : String) : Option Binary32 :=
  (BinaryFormat.single.read? text).map fun bits => ⟨.ofNat bits⟩

def Binary64.read? (text : String) : Option Binary64 :=
  (BinaryFormat.double.read? text).map fun bits => ⟨.ofNat bits⟩

end StackLift
