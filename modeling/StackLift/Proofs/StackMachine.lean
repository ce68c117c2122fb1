import StackLift.Lift.Simulate
import StackLift.Proofs.MethodFlow

/-!
Runs of bytecode under any meaning of its constants, operators and conditions. Every value carries
its kind, and a run is stuck where an instruction finds a value of another kind, too few stack
entries or an unusable slot. Calls, fields, arrays and exceptions are left out.
-/

namespace StackLift

-- Kinds

namespace ValueKind

/-- Values of the kind take two slots. -/
def isWide : ValueKind → Bool
  | .long | .double => true
  | _ => false

end ValueKind

def NumberKind.valueKind : NumberKind → ValueKind
  | .int => .int
  | .long => .long
  | .float => .float
  | .double => .double

def IntegerKind.valueKind : IntegerKind → ValueKind
  | .int => .int
  | .long => .long

def BaseType.valueKind : BaseType → ValueKind
  | .byte | .char | .int | .short | .boolean => .int
  | .long => .long
  | .float => .float
  | .double => .double

def FieldType.valueKind : FieldType → ValueKind
  | .base type => type.valueKind
  | .ref _ => .reference

/-- The kind of value that a conversion takes. -/
def Conversion.source : Conversion → ValueKind
  | .intToLong | .intToFloat | .intToDouble | .intToByte | .intToChar | .intToShort => .int
  | .longToInt | .longToFloat | .longToDouble => .long
  | .floatToInt | .floatToLong | .floatToDouble => .float
  | .doubleToInt | .doubleToLong | .doubleToFloat => .double

/-- The kind of value that a conversion gives. -/
def Conversion.result : Conversion → ValueKind
  | .intToByte | .intToChar | .intToShort | .longToInt | .floatToInt | .doubleToInt => .int
  | .intToLong | .floatToLong | .doubleToLong => .long
  | .intToFloat | .longToFloat | .doubleToFloat => .float
  | .intToDouble | .longToDouble | .floatToDouble => .double

def Equality.comparison : Equality → Comparison
  | .eq => .eq
  | .ne => .ne

namespace StackMachine

-- Memory

/-- A value with its kind. -/
structure Datum (D : Type) where
  kind : ValueKind
  content : D
deriving DecidableEq

def Datum.isWide {D : Type} (d : Datum D) : Bool :=
  d.kind.isWide

/-- The local slots and the operand stack, whose top comes first. A wide value is kept in the first
of its two slots.
-/
structure Memory (D : Type) where
  locals : List (Option (Datum D))
  stack : List (Datum D)
deriving DecidableEq

namespace Memory

variable {D : Type}

def local? (μ : Memory D) (slot : Nat) : Option (Datum D) :=
  (μ.locals[slot]?).join

def push (μ : Memory D) (d : Datum D) : Memory D :=
  { μ with stack := d :: μ.stack }

/-- Pops a value of a kind. -/
def pop (μ : Memory D) (kind : ValueKind) : Option (Datum D × Memory D) :=
  match μ.stack with
  | d :: rest => if d.kind = kind then some (d, { μ with stack := rest }) else none
  | [] => none

/-- The value of a slot after a store, which overwrites the values that share a slot with it. -/
def stored (μ : Memory D) (slot : Nat) (d : Datum D) (index : Nat) : Option (Datum D) :=
  if index = slot then some d
  else if index = slot + 1 && d.isWide then none
  else if index + 1 = slot then (μ.local? index).filter fun e => !e.isWide
  else μ.local? index

def store (μ : Memory D) (slot : Nat) (d : Datum D) : Memory D :=
  { μ with locals := (List.range (max μ.locals.length (slot + 1))).map (μ.stored slot d) }

end Memory

-- Shuffles

/-- One form of a shuffle: which of the top entries have to be wide, and which of them, counted from
the top, take their place.
-/
structure Form where
  taken : List Bool
  given : List Nat

def forms : Shuffle → List Form
  | .pop => [⟨[false], []⟩]
  | .pop2 => [⟨[false, false], []⟩, ⟨[true], []⟩]
  | .dup => [⟨[false], [0, 0]⟩]
  | .dupX1 => [⟨[false, false], [0, 1, 0]⟩]
  | .dupX2 => [⟨[false, false, false], [0, 1, 2, 0]⟩, ⟨[false, true], [0, 1, 0]⟩]
  | .dup2 => [⟨[false, false], [0, 1, 0, 1]⟩, ⟨[true], [0, 0]⟩]
  | .dup2X1 => [⟨[false, false, false], [0, 1, 2, 0, 1]⟩, ⟨[true, false], [0, 1, 0]⟩]
  | .dup2X2 =>
    [⟨[false, false, false, false], [0, 1, 2, 3, 0, 1]⟩, ⟨[true, false, false], [0, 1, 2, 0]⟩,
      ⟨[false, false, true], [0, 1, 2, 0, 1]⟩, ⟨[true, true], [0, 1, 0]⟩]
  | .swap => [⟨[false, false], [1, 0]⟩]

variable {α : Type}

def Form.fits (form : Form) (wide : α → Bool) (stack : List α) : Bool :=
  (stack.take form.taken.length).map wide = form.taken

def Form.apply (form : Form) (stack : List α) : List α :=
  form.given.filterMap (fun index => stack[index]?) ++ stack.drop form.taken.length

/-- The stack after a shuffle, if one of its forms fits. -/
def rearrange (wide : α → Bool) (s : Shuffle) (stack : List α) : Option (List α) :=
  ((forms s).find? fun form => form.fits wide stack).map fun form => form.apply stack

-- Operations

/-- What instructions push: `null` and the constants that can be loaded, apart from dynamic ones,
which calls compute.
-/
inductive Literal where
  | null
  | int (value : Int32)
  | long (value : Int64)
  | float (value : Binary32)
  | double (value : Binary64)
  | string (text : String)
  | classRef (type : RefType)
  | methodType (descriptor : MethodDescriptor)
  | handle (handle : Handle)
deriving DecidableEq

namespace Literal

def kind : Literal → ValueKind
  | .int _ => .int
  | .long _ => .long
  | .float _ => .float
  | .double _ => .double
  | _ => .reference

def ofLoadable? : LoadableConstant → Option Literal
  | .int value => some (.int value)
  | .float value => some (.float value)
  | .long value => some (.long value)
  | .double value => some (.double value)
  | .string text => some (.string text)
  | .classRef type => some (.classRef type)
  | .methodType descriptor => some (.methodType descriptor)
  | .handle h => some (.handle h)
  | .dynamic .. => none

end Literal

/-- The operators that take two operands. -/
inductive Operator where
  | arithmetic (op : ArithmeticOp)
  | shift (op : ShiftOp)
  | bitwise (op : BitOp)
  | compareLong
  | compareReal (mode : CompareMode)
deriving DecidableEq

/-- The meaning of constants, operators and conditions. -/
structure Meaning (D : Type) where
  constant : Literal → D
  binary : Operator → Datum D → Datum D → D
  negate : Datum D → D
  convert : Conversion → Datum D → D
  holds : Comparison → Datum D → Datum D → Bool

namespace Meaning

variable {D : Type} (M : Meaning D)

def datum (k : Literal) : Datum D :=
  ⟨k.kind, M.constant k⟩

/-- The target of a switch: that of the first case with the key. -/
def select {β : Type} (key : Datum D) (cases : List (Int32 × β)) (default : β) : β :=
  ((cases.find? fun c => M.holds .eq key (M.datum (.int c.1))).map Prod.snd).getD default

end Meaning

/-- What an instruction does, apart from where control goes. -/
inductive Operation where
  | nothing
  | push (literal : Literal)
  | load (kind : ValueKind) (slot : Nat)
  | store (kind : ValueKind) (slot : Nat)
  | shuffle (shuffle : Shuffle)
  | negate (kind : ValueKind)
  | convert (conversion : Conversion)
  | binary (op : Operator) (left right result : ValueKind)
  | increment (slot : Nat) (amount : Int16)

/-- The operation of an instruction that computes with primitive values. -/
def operation? : Instruction → Option Operation
  | .nop => some .nothing
  | .pushNull => some (.push .null)
  | .pushInt n => some (.push (.int (Int32.ofInt (n.val - 1))))
  | .pushLong n => some (.push (.long (Int64.ofNat n.val)))
  | .pushFloat n =>
    some (.push (.float (if n.val = 0 then .zero else if n.val = 1 then .one else .two)))
  | .pushDouble n => some (.push (.double (if n.val = 0 then .zero else .one)))
  | .pushByte value => some (.push (.int value.toInt32))
  | .pushShort value => some (.push (.int value.toInt32))
  | .pushConstant c => (Literal.ofLoadable? c).map .push
  | .load kind slot => some (.load kind slot)
  | .store kind slot => some (.store kind slot)
  | .shuffle s => some (.shuffle s)
  | .arithmetic op kind =>
    some (.binary (.arithmetic op) kind.valueKind kind.valueKind kind.valueKind)
  | .negate kind => some (.negate kind.valueKind)
  | .shift op kind => some (.binary (.shift op) kind.valueKind .int kind.valueKind)
  | .bitwise op kind =>
    some (.binary (.bitwise op) kind.valueKind kind.valueKind kind.valueKind)
  | .increment slot amount => some (.increment slot amount)
  | .convert conversion => some (.convert conversion)
  | .compareLong => some (.binary .compareLong .long .long .int)
  | .compareFloat mode => some (.binary (.compareReal mode) .float .float .int)
  | .compareDouble mode => some (.binary (.compareReal mode) .double .double .int)
  | _ => none

section

variable {D : Type} (M : Meaning D)

/-- The memory after an operation, unless it gets stuck. -/
def Operation.apply (μ : Memory D) : Operation → Option (Memory D)
  | .nothing => some μ
  | .push k => some (μ.push (M.datum k))
  | .load kind slot => ((μ.local? slot).filter fun d => d.kind = kind).map μ.push
  | .store kind slot => do
    let (d, μ) ← μ.pop kind
    return μ.store slot d
  | .shuffle s => (rearrange Datum.isWide s μ.stack).map fun stack => { μ with stack }
  | .negate kind => do
    let (d, μ) ← μ.pop kind
    return μ.push ⟨kind, M.negate d⟩
  | .convert c => do
    let (d, μ) ← μ.pop c.source
    return μ.push ⟨c.result, M.convert c d⟩
  | .binary op left right result => do
    let (e, μ) ← μ.pop right
    let (d, μ) ← μ.pop left
    return μ.push ⟨result, M.binary op d e⟩
  | .increment slot amount =>
    ((μ.local? slot).filter fun d => d.kind = .int).map fun d =>
      μ.store slot ⟨.int, M.binary (.arithmetic .add) d (M.datum (.int amount.toInt32))⟩

-- Steps

/-- Where control goes from a node. -/
inductive Next (D : Type) where
  | falls
  | jumps (target : Label)
  | returns (result : Option (Datum D))
deriving DecidableEq

def Next.ofCondition (condition : Bool) (target : Label) : Next D :=
  if condition then .jumps target else .falls

/-- The memory after a branch and where it goes. -/
def executeBranch (μ : Memory D) : Branch → Option (Memory D × Next D)
  | .returnVoid => some (μ, .returns none)
  | .returnValue kind => do
    let (d, μ) ← μ.pop kind
    return (μ, .returns (some d))
  | .throw => none
  | .goto target => some (μ, .jumps target)
  | .ifZero comparison target => do
    let (d, μ) ← μ.pop .int
    return (μ, .ofCondition (M.holds comparison d (M.datum (.int 0))) target)
  | .ifInt comparison target => do
    let (e, μ) ← μ.pop .int
    let (d, μ) ← μ.pop .int
    return (μ, .ofCondition (M.holds comparison d e) target)
  | .ifReference comparison target => do
    let (e, μ) ← μ.pop .reference
    let (d, μ) ← μ.pop .reference
    return (μ, .ofCondition (M.holds comparison.comparison d e) target)
  | .ifNull comparison target => do
    let (d, μ) ← μ.pop .reference
    return (μ, .ofCondition (M.holds comparison.comparison d (M.datum .null)) target)
  | .tableSwitch default low targets => do
    let (key, μ) ← μ.pop .int
    let cases := targets.zipIdx.map fun (target, offset) => (low + Int32.ofNat offset, target)
    return (μ, .jumps (M.select key cases default))
  | .lookupSwitch default targets => do
    let (key, μ) ← μ.pop .int
    return (μ, .jumps (M.select key targets default))

/-- The memory after a node and where control goes from it. -/
def execute (μ : Memory D) : Node → Option (Memory D × Next D)
  | .label _ | .line .. => some (μ, .falls)
  | .frame _ => none
  | .plain i => do
    let operation ← operation? i
    let μ ← operation.apply M μ
    return (μ, .falls)
  | .branch b => executeBranch M μ b

/-- A run at a node, or at its end. -/
inductive State (D : Type) where
  | running (node : Nat) (memory : Memory D)
  | returned (result : Option (Datum D))

/-- The state that a node leads to. -/
def proceed (m : Method) (node : Nat) (μ : Memory D) : Next D → Option (State D)
  | .falls => some (.running (node + 1) μ)
  | .jumps target => (m.labelPosition? target).map fun index => .running (index + 1) μ
  | .returns result => some (.returned result)

/-- A step of a run, which starts at the entry. -/
def step (m : Method) : State D → Option (State D)
  | .returned _ => none
  | .running 0 μ => some (.running 1 μ)
  | .running (n + 1) μ => do
    let node ← m.node? (n + 1)
    let (μ, next) ← execute M μ node
    proceed m (n + 1) μ next

/-- The result of a run that ends within a number of steps. -/
def run (m : Method) : (steps : Nat) → State D → Option (Option (Datum D))
  | _, .returned result => some result
  | 0, _ => none
  | steps + 1, s => (step M m s).bind (run m steps)

end

-- Methods

/-- The receiver and the arguments of a call. -/
structure Inputs (D : Type) where
  receiver : D
  argument : Nat → D

variable {D : Type}

namespace Inputs

/-- The values of the parameters from a slot on. -/
def place (inputs : Inputs D) (μ : Memory D) : (slot index : Nat) → List FieldType → Memory D
  | _, _, [] => μ
  | slot, index, type :: rest =>
    inputs.place (μ.store slot ⟨type.valueKind, inputs.argument index⟩) (slot + type.width)
      (index + 1) rest

/-- The memory in which a method starts. -/
def memory (inputs : Inputs D) (m : Method) : Memory D :=
  let empty : Memory D := ⟨[], []⟩
  if m.isStatic then
    inputs.place empty 0 0 m.descriptor.parameters
  else
    inputs.place (empty.store 0 ⟨.reference, inputs.receiver⟩) 1 0 m.descriptor.parameters

end Inputs

/-- The method returns a result, if any value, after some steps. -/
def Returns (M : Meaning D) (m : Method) (inputs : Inputs D) (result : Option (Datum D)) : Prop :=
  ∃ steps, run M m steps (.running NodeGraph.entry (inputs.memory m)) = some result

end StackMachine

end StackLift
