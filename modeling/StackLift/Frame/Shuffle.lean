import StackLift.Bytecode.Instruction
import StackLift.Frame.Basic

/-! Instructions that move stack entries around: a wide entry takes the place of two narrow ones. -/

namespace StackLift

/-- Does the value take two slots? -/
def Value.isWide (v : Value) : Bool :=
  v.type.isWide

namespace Shuffle

/-- Copies the top below the third entry. -/
def under3 (a b : Value) : List Value → Option (List Value)
  | c :: s => some (a :: b :: c :: a :: s)
  | [] => none

/-- Copies the two top entries. -/
def twice (a : Value) : List Value → Option (List Value)
  | b :: s => some (a :: b :: a :: b :: s)
  | [] => none

/-- Copies the two top entries below the third. -/
def pairUnder1 (a b : Value) : List Value → Option (List Value)
  | c :: s => some (a :: b :: c :: a :: b :: s)
  | [] => none

/-- Copies the two top entries below the fourth. -/
def pairUnder2 (a b c : Value) : List Value → Option (List Value)
  | d :: s => some (a :: b :: c :: d :: a :: b :: s)
  | [] => none

/-- The stack after the instruction, if it has enough entries; the top is the first entry. -/
def apply : Shuffle → List Value → Option (List Value)
  | .pop, _ :: s => some s
  | .pop2, a :: s => if a.isWide then some s else s.tail?
  | .dup, a :: s => some (a :: a :: s)
  | .dupX1, a :: b :: s => some (a :: b :: a :: s)
  | .dupX2, a :: b :: s => if b.isWide then some (a :: b :: a :: s) else under3 a b s
  | .dup2, a :: s => if a.isWide then some (a :: a :: s) else twice a s
  | .dup2X1, a :: b :: s => if a.isWide then some (a :: b :: a :: s) else pairUnder1 a b s
  | .dup2X2, a :: b :: s =>
    if a.isWide then
      if b.isWide then some (a :: b :: a :: s) else under3 a b s
    else
      match s with
      | c :: s => if c.isWide then some (a :: b :: c :: a :: b :: s) else pairUnder2 a b c s
      | [] => none
  | .swap, a :: b :: s => some (b :: a :: s)
  | _, _ => none

end Shuffle

def Frame.shuffle (f : Frame) (node : Nat) (s : Shuffle) : Except Error Frame :=
  match s.apply f.stack with
  | some stack => .ok { f with stack }
  | none => .error (.emptyStack node)

end StackLift
