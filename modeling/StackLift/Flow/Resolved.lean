import StackLift.Error
import StackLift.Ir.Text

/-!
Code without its markers. A label stands for the place of the next instruction, which for the end of
a protected range may be the end of the code, but never for a jump.
-/

namespace StackLift

structure ResolvedCode where
  insts : Array Inst
  /-- The line of each instruction: that of the last line mark before it. -/
  lines : Array (Option Nat)
  /-- The places of the labels, the last placed first. -/
  labels : List (CodeLabel × Nat)
  /-- For each handler the places of the instructions that it protects. -/
  covered : Array (List Nat)

namespace ResolvedCode

/-- The places of the labels of a code, after as many instructions as given. -/
def places : (place : Nat) → List Inst → List (CodeLabel × Nat)
  | _, [] => []
  | place, .label l :: rest => (l, place) :: places place rest
  | place, .line .. :: rest => places place rest
  | place, _ :: rest => places (place + 1) rest

/-- The lines of the instructions of a code, after the given line. -/
def linesAfter : (line : Option Nat) → List Inst → List (Option Nat)
  | _, [] => []
  | line, .label _ :: rest => linesAfter line rest
  | _, .line number _ :: rest => linesAfter (some number) rest
  | line, _ :: rest => line :: linesAfter line rest

/-- The place of a label; the last placement counts. -/
def position (labels : List (CodeLabel × Nat)) (label : CodeLabel) : Except Error Nat :=
  match labels.lookup label with
  | some place => .ok place
  | none => .error (.unplacedTarget label)

/-- The place of the instruction to which a jump leads. -/
def target (labels : List (CodeLabel × Nat)) (size : Nat) (label : CodeLabel) :
    Except Error Nat := do
  let place ← position labels label
  if place < size then return place else throw (.unplacedTarget label)

/-- The instructions that the handler at a place protects, each of them once. -/
def coveredBy (labels : List (CodeLabel × Nat)) (place : Nat) : Inst → Except Error (List Nat)
  | .catches _ _ entries => do
    let ranges ← entries.mapM fun e => do
      let start ← position labels e.start
      let stop ← position labels e.stop
      return List.range' start (stop - start)
    return (ranges.flatten.filter (· ≠ place)).eraseDups
  | _ => .ok []

/-- Takes the markers out of a code. Every jump has to lead to an instruction, and every bound of a
protected range has to be placed.
-/
def ofCode (code : List Inst) : Except Error ResolvedCode := do
  let insts := code.filter fun i => !i.isMarker
  let labels := (places 0 code).reverse
  let _ ← insts.mapM fun i => i.targets.mapM (target labels insts.length)
  let covered ← insts.zipIdx.mapM fun (i, place) => coveredBy labels place i
  return {
    insts := insts.toArray
    lines := (linesAfter none code).toArray
    labels
    covered := covered.toArray }

def size (c : ResolvedCode) : Nat :=
  c.insts.size

/-- The places of all instructions. -/
def indices (c : ResolvedCode) : List Nat :=
  List.range c.size

def inst? (c : ResolvedCode) (i : Nat) : Option Inst :=
  c.insts[i]?

def line? (c : ResolvedCode) (i : Nat) : Option Nat :=
  (c.lines[i]?).join

/-- The instruction to which a jump to a label leads. -/
def labelTarget (c : ResolvedCode) (label : CodeLabel) : Except Error Nat :=
  target c.labels c.size label

/-- The instructions to which an instruction may jump. -/
def jumpTargets (c : ResolvedCode) (i : Nat) : List Nat :=
  ((c.inst? i).map Inst.targets |>.getD []).filterMap fun l => (c.labelTarget l).toOption

/-- The instructions that a handler protects; any other instruction protects none. -/
def protectedBy (c : ResolvedCode) (i : Nat) : List Nat :=
  c.covered.getD i []

/-- The instructions, one on a line, with their places and source lines. -/
def render (c : ResolvedCode) : String :=
  String.join <| c.indices.map fun i =>
    let line := ((c.line? i).map fun n => "[" ++ toString n ++ "] ").getD ""
    let text := ((c.inst? i).map Inst.render).getD ""
    Text.padLeft 4 (toString i) ++ " " ++ line ++ text ++ "\n"

end ResolvedCode

end StackLift
