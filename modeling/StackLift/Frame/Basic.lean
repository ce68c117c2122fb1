import StackLift.Error
import StackLift.Ir.Value

/-!
Symbolic frames: which value each local slot and each entry of the operand stack holds. A `long` or
`double` is one entry of the stack and leaves the slot after its own unused.
-/

namespace StackLift

structure Frame where
  locals : List (Option Value)
  /-- The entries of the operand stack, the top first. -/
  stack : List Value
deriving DecidableEq

/-- Drops the unused slots at the end. -/
def trimLocals {α : Type} (locals : List (Option α)) : List (Option α) :=
  (locals.reverse.dropWhile Option.isNone).reverse

namespace Frame

def empty : Frame :=
  { locals := [], stack := [] }

-- Local slots

def local? (f : Frame) (slot : Nat) : Option Value :=
  (f.locals[slot]?).join

def hasLocal (f : Frame) (slot : Nat) : Bool :=
  (f.local? slot).isSome

/-- Puts a value into a slot, after as many unused slots as it takes to get there. -/
def putLocal (f : Frame) (slot : Nat) (value : Value) : Frame :=
  { f with
    locals := (f.locals ++ List.replicate (slot + 1 - f.locals.length) none).set slot (some value) }

def trim (f : Frame) : Frame :=
  { f with locals := trimLocals f.locals }

/-- The value of a slot that is read at a node. -/
def getLocal (f : Frame) (node slot : Nat) : Except Error Value :=
  match f.local? slot with
  | some value => .ok value
  | none => .error (.missingLocal node slot)

def usedInStack (f : Frame) (value : Value) : Bool :=
  f.stack.any fun entry => entry.Same value

/-- Does a slot other than the given one hold the value? -/
def usedInOtherLocals (f : Frame) (value : Value) (slot : Nat) : Bool :=
  f.locals.zipIdx.any fun (entry, index) =>
    index ≠ slot && (entry.map Value.anonymous = some value.anonymous)

-- The operand stack

def push (f : Frame) (value : Value) : Frame :=
  { f with stack := value :: f.stack }

def peek (f : Frame) (node : Nat) : Except Error Value :=
  match f.stack with
  | value :: _ => .ok value
  | [] => .error (.emptyStack node)

def pop (f : Frame) (node : Nat) : Except Error (Value × Frame) :=
  match f.stack with
  | value :: rest => .ok (value, { f with stack := rest })
  | [] => .error (.emptyStack node)

/-- Pops as many entries as given and lists them in the order in which they were pushed. -/
def popMany (f : Frame) (node count : Nat) : Except Error (List Value × Frame) :=
  if count ≤ f.stack.length then
    .ok ((f.stack.take count).reverse, { f with stack := f.stack.drop count })
  else
    .error (.emptyStack node)

/-- The outcome of an operation and the frame that it leaves: one that runs out of stack entries has
taken all of them.
-/
def attempt {α : Type} (f : Frame) : Except Error (α × Frame) → Except Error α × Frame
  | .ok (a, after) => (.ok a, after)
  | .error (.emptyStack node) => (.error (.emptyStack node), { f with stack := [] })
  | .error e => (.error e, f)

end Frame

end StackLift
