/-! Sets of characters given by ranges of code points. -/

namespace StackLift.Text

/-- Closed ranges of code points, ascending and apart. -/
abbrev Ranges := List (Nat × Nat)

/-- Some range holds the code point of the character. -/
def Ranges.contains (ranges : Ranges) (c : Char) : Bool :=
  ranges.any fun range => range.1 ≤ c.toNat && c.toNat ≤ range.2

/-- The ranges from a code point on, by the lengths of the gaps and of the ranges in turn. -/
def Ranges.ofRuns : (start : Nat) → List Nat → Ranges
  | start, gap :: run :: rest =>
    (start + gap, start + gap + run - 1) :: ofRuns (start + gap + run) rest
  | _, _ => []

end StackLift.Text
