/-!
Binary floating-point numbers as bit patterns. A finite number is `mantissa * 2 ^ exponent`; the
patterns above those of the finite numbers are the infinity and the patterns that are no number.
-/

namespace StackLift

/-- The widths of the two fields below the sign bit. -/
structure BinaryFormat where
  fractionBits : Nat
  exponentBits : Nat

namespace BinaryFormat

def single : BinaryFormat := { fractionBits := 23, exponentBits := 8 }
def double : BinaryFormat := { fractionBits := 52, exponentBits := 11 }

/-- The exponent of the numbers whose exponent field is zero. -/
def leastExponent (format : BinaryFormat) : Int :=
  2 - (1 <<< (format.exponentBits - 1) : Nat) - format.fractionBits

/-- The pattern of the positive infinity. -/
def infinity (format : BinaryFormat) : Nat :=
  ((1 <<< format.exponentBits) - 1) * (1 <<< format.fractionBits)

/-- The pattern that stands for a result that is no number. -/
def quietNaN (format : BinaryFormat) : Nat :=
  format.infinity + (1 <<< (format.fractionBits - 1))

def signBit (format : BinaryFormat) : Nat :=
  1 <<< (format.fractionBits + format.exponentBits)

end BinaryFormat

/-- A number `mantissa * 2 ^ exponent`, with the width of the gap to the number below it: the gap
above is one unit of the mantissa, and the gap below is half of that just above a power of two.
-/
structure BinaryNumber where
  mantissa : Nat
  exponent : Int
  narrowBelow : Bool

/-- The finite number of a pattern without its sign bit. -/
def BinaryFormat.decode (format : BinaryFormat) (magnitude : Nat) : BinaryNumber :=
  let fraction := magnitude % (1 <<< format.fractionBits)
  let field := magnitude / (1 <<< format.fractionBits)
  if field = 0 then
    { mantissa := fraction, exponent := format.leastExponent, narrowBelow := false }
  else
    { mantissa := fraction + (1 <<< format.fractionBits)
      exponent := format.leastExponent + (field - 1)
      narrowBelow := fraction = 0 && 1 < field }

/-- A single-precision number. -/
structure Binary32 where
  bits : UInt32
deriving DecidableEq

/-- A double-precision number. -/
structure Binary64 where
  bits : UInt64
deriving DecidableEq

namespace Binary32

def zero : Binary32 := ⟨0⟩
def one : Binary32 := ⟨0x3f800000⟩
def two : Binary32 := ⟨0x40000000⟩

end Binary32

namespace Binary64

def zero : Binary64 := ⟨0⟩
def one : Binary64 := ⟨0x3ff0000000000000⟩

end Binary64

end StackLift
