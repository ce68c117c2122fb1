import StackLift.Bytecode.Instruction

/-! Nodes of a method body: instructions, labels, line marks and stack map frames. -/

namespace StackLift

inductive FrameKind where
  | new
  | full
  | append
  | chop
  | same
  | same1
deriving DecidableEq

/-- The type of a slot or stack entry in a stack map frame. -/
inductive VerificationType where
  | top
  | int
  | float
  | double
  | long
  | null
  /-- The receiver of a constructor before another constructor was called. -/
  | uninitializedThis
  | object (type : RefType)
  /-- An object made by the `new` at the label whose constructor was not called. -/
  | uninitialized (label : Label)
deriving DecidableEq

def VerificationType.isReference : VerificationType → Bool
  | .null | .uninitializedThis | .object _ | .uninitialized _ => true
  | _ => false

/-- A stack map frame. Full and new frames list every local and stack entry, an append frame lists
the added locals, and a chop frame counts the removed ones.
-/
structure StackMapFrame where
  kind : FrameKind
  locals : List VerificationType
  stack : List VerificationType
  chopped : Nat
deriving DecidableEq

inductive Node where
  | label (label : Label)
  | line (number : Nat) (start : Label)
  | frame (frame : StackMapFrame)
  | plain (instruction : Instruction)
  | branch (branch : Branch)

namespace Node

/-- Returns and throws. -/
def isTerminal : Node → Bool
  | .branch b => b.isTerminal
  | _ => false

/-- Jumps, switches and throws. -/
def isBranching : Node → Bool
  | .branch b => !b.isTerminal || b = .throw
  | _ => false

def label? : Node → Option Label
  | .label l => some l
  | _ => none

end Node

end StackLift
