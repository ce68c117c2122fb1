import StackLift.Frame.Basic
import StackLift.Graph.MethodGraph
import StackLift.Ir.ValueMap

/-!
The types that stack map frames declare. A frame gives the registers of a slot or stack entry the
declared type, and slots without one are dropped.
-/

namespace StackLift

structure DeclaredTypes where
  /-- One entry for each slot. -/
  locals : List (Option TypeName)
  /-- The types of the stack entries, the bottom first. -/
  stack : List TypeName
deriving DecidableEq

namespace DeclaredTypes

/-- Spreads types listed one per local over the slots they take. -/
def spread (listed : List TypeName) : List (Option TypeName) :=
  trimLocals (listed.flatMap fun t => if t.isWide then [some t, none] else [some t])

def ofListed (locals stack : List TypeName) : DeclaredTypes :=
  { locals := spread locals, stack }

/-- The type of a slot, unless it is unusable. -/
def type? (d : DeclaredTypes) (slot : Nat) : Option TypeName :=
  (d.locals[slot]?).join.filter (· ≠ .top)

def declares (d : DeclaredTypes) (slot : Nat) : Bool :=
  (d.type? slot).isSome

-- Refinement of frames

/-- Does a declared type say more than the type of the register? A declared `int` stands for every
type kept as `int`, so it says nothing about a register of such a type.
-/
def refines (r : Register) (declared : TypeName) : Bool :=
  r.type ≠ declared
    && !(declared = .int && r.type.isIntLike)
    && declared ≠ .top && declared ≠ .null && declared ≠ .uninitializedThis

/-- The value with its declared type; a register that changes its type is recorded. -/
def refineValue (declared : TypeName) (value : Value) : StateM Substitution Value := do
  match value with
  | .register r =>
    if refines r declared then
      let refined := Value.register (r.withType declared)
      modify (·.insert value refined)
      return refined
    else
      return value
  | _ => return value

/-- Gives the registers of a frame their declared types. Slots and stack entries without a declared
type are dropped.
-/
def refine (d : DeclaredTypes) (f : Frame) : StateM Substitution Frame := do
  let locals ← (List.range d.locals.length).mapM fun slot =>
    match d.type? slot, f.local? slot with
    | some declared, some value => some <$> refineValue declared value
    | _, _ => pure none
  let stack ← (f.stack.reverse.zip d.stack).mapM fun entry => refineValue entry.2 entry.1
  return { locals := trimLocals locals, stack := stack.reverse }

-- The frames of a method

/-- The type of the first object that is made after a label. -/
def madeAfter? (nodes : List Node) : Option TypeName :=
  nodes.findSome? fun
    | .plain (.new name) => some (.ofClass name)
    | _ => none

def ofVerification (m : Method) (places : List (Label × Nat)) :
    VerificationType → Except Error TypeName
  | .top => .ok .top
  | .int => .ok .int
  | .float => .ok .float
  | .double => .ok .double
  | .long => .ok .long
  | .null => .ok .null
  | .uninitializedThis => .ok .uninitializedThis
  | .object type => .ok (.ofRef type)
  | .uninitialized label => do
    let place ← MethodGraph.lookUp places label
    match madeAfter? (m.nodes.drop place) with
    | some type => return type
    | none => throw (.uninitializedWithoutNew label)

/-- The locals at the entry as a stack map frame lists them. -/
def entryLocals (m : Method) : List TypeName :=
  let receiver :=
    if m.isStatic then []
    else if m.name.text = "<init>" then [TypeName.uninitializedThis]
    else [.ofClass m.owner]
  receiver ++ m.descriptor.parameterTypes.map fun t => if t.isIntLike then .int else t

/-- The listed locals after a frame, from those of the frame before it. -/
def nextLocals (kind : FrameKind) (chopped : Nat) (listed before : List TypeName) : List TypeName :=
  match kind with
  | .new | .full => listed
  | .append => before ++ listed
  | .chop => before.take (before.length - chopped)
  | .same | .same1 => before

/-- The types declared by the frames of a stream whose first node has the given number. -/
def ofNodes (m : Method) (places : List (Label × Nat)) :
    (number : Nat) → (before : List TypeName) → List Node →
      Except Error (List (Nat × DeclaredTypes))
  | _, _, [] => .ok []
  | number, before, .frame f :: rest => do
    let listed ← f.locals.mapM (ofVerification m places)
    let stack ← f.stack.mapM (ofVerification m places)
    let locals := nextLocals f.kind f.chopped listed before
    let later ← ofNodes m places (number + 1) locals rest
    return (number, ofListed locals stack) :: later
  | number, before, _ :: rest => ofNodes m places (number + 1) before rest

/-- The declared types of all stack map frames of a method, by node. -/
def ofMethod (m : Method) (places : List (Label × Nat)) :
    Except Error (List (Nat × DeclaredTypes)) :=
  ofNodes m places 1 (entryLocals m) m.nodes

end DeclaredTypes

end StackLift
