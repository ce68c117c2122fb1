/-! Labels of register code. -/

namespace StackLift

/-- A symbolic jump target of register code. -/
structure CodeLabel where
  index : Nat
deriving DecidableEq

def CodeLabel.render (label : CodeLabel) : String :=
  "#" ++ toString label.index

end StackLift
