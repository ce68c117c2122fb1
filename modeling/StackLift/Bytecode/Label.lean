/-! Labels of listings. -/

namespace StackLift

/-- A label of a method, numbered by its first mention. -/
structure Label where
  index : Nat
deriving DecidableEq

def Label.render (label : Label) : String :=
  "l" ++ toString label.index

end StackLift
