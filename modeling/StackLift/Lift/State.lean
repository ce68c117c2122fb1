import StackLift.Lift.Plan
import StackLift.Lift.Registers

/-! The state of lifting a method, and the steps that make labels, registers and code. -/

namespace StackLift

/-- A slot or an entry of the operand stack, counted from the bottom. -/
inductive Place where
  | slot (index : Nat)
  | stack (index : Nat)
deriving DecidableEq

namespace Place

def isSlot : Place → Bool
  | .slot _ => true
  | .stack _ => false

/-- The value at a place of a frame. -/
def value? (f : Frame) : Place → Option Value
  | .slot index => f.local? index
  | .stack index => f.stack.reverse[index]?

end Place

/-- A register made at a join for a place that does not hold the same value on every way in. Each
predecessor of the join has to copy its own value into the register.
-/
structure Merge where
  node : Nat
  place : Place
  target : Register

structure LiftState where
  /-- The frame after each node that was simulated. -/
  frames : Array (Option Frame)
  /-- The code of each node. -/
  code : Array (List Inst)
  /-- The labels that stand in the code. -/
  labels : List (Label × CodeLabel)
  nextLabel : Nat
  registers : Registers
  /-- The registers that stack map frames give another type. -/
  refinements : Substitution
  merges : List Merge

abbrev LiftM := StateT LiftState (Except Error)

namespace LiftState

/-- Numbers the labels that are placed on live nodes, in the order of the stream; the last number of
a label counts.
-/
def initial (p : Plan) : LiftState :=
  let size := p.graph.graph.size
  { frames := Array.replicate size none
    code := Array.replicate size []
    labels := (p.graph.labels.zipIdx.map fun (place, index) => (place.1, ⟨index⟩)).reverse
    nextLabel := p.graph.labels.length
    registers := .empty
    refinements := []
    merges := [] }

def frameOf? (s : LiftState) (node : Nat) : Option Frame :=
  s.frames.getD node none

def codeOf (s : LiftState) (node : Nat) : List Inst :=
  s.code.getD node []

end LiftState

namespace LiftM

def freshRegister (type : TypeName) : LiftM Register := do
  let s ← get
  let (register, registers) := s.registers.fresh type
  set { s with registers }
  return register

def freshLabel : LiftM CodeLabel := do
  let s ← get
  set { s with nextLabel := s.nextLabel + 1 }
  return ⟨s.nextLabel⟩

/-- The label in the code for a label of the method. -/
def labelOf (label : Label) : LiftM CodeLabel := do
  match (← get).labels.lookup label with
  | some l => return l
  | none => throw (.unplacedLabel label)

/-- Changes the code of a node. -/
def editCode (node : Nat) (edit : List Inst → List Inst) : LiftM Unit :=
  modify fun s => { s with code := s.code.modify node edit }

/-- Adds an instruction at the end of the code of a node. -/
def emit (node : Nat) (i : Inst) : LiftM Unit :=
  editCode node (· ++ [i])

/-- Adds an assignment at the end of the code of a node. -/
def assign (node : Nat) (target : Value) (source : Expr) : LiftM Unit := do
  let s ← get
  let (i, registers) := s.registers.assign target source
  set { s with registers }
  emit node i

/-- Assigns an expression to a fresh register. -/
def compute (node : Nat) (e : Expr) : LiftM Register := do
  let register ← freshRegister e.type
  assign node (.register register) e
  return register

end LiftM

end StackLift
