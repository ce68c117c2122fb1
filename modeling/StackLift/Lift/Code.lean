import StackLift.Lift.Copies
import StackLift.Lift.Join
import StackLift.Lift.Jumps
import StackLift.Lift.Simulate
import StackLift.Simplify.Rounds

/-! Lifting a method to register code. -/

namespace StackLift

/-- Marks the register that an instruction assigns as the result of an instruction. -/
def Inst.markResult : Inst → Inst
  | .assign (.register r) source => .assign (.register { r with kind := .result }) source
  | i => i

/-- Repeats the first line mark at the start of the code, unless it already stands there or after a
single label.
-/
def hoistFirstLine (label : CodeLabel) (code : List Inst) : List Inst :=
  let isLine : Inst → Bool
    | .line .. => true
    | _ => false
  match code with
  | .line .. :: _ | .label _ :: .line .. :: _ => code
  | _ =>
    match code.find? isLine with
    | some (.line number _) => .label label :: .line number label :: code
    | _ => code

namespace LiftM

/-- Simulates a node and keeps the frame after it. -/
def visit (p : Plan) (number : Nat) : LiftM Unit := do
  let f ← match p.node? number with
    | none => pure p.entryFrame
    | some (.label l) => simulateLabel p number l
    | some node => do simulate p number node (← predecessorFrame p number)
  modify fun s => { s with frames := s.frames.set! number (some f) }

/-- Changes each instruction of the code. -/
def mapCode (f : Inst → Inst) : LiftM Unit :=
  modify fun s => { s with code := s.code.map (List.map f) }

/-- Simulates the nodes, inserts copies and jumps, and puts the code of the nodes together in the
order of the stream.
-/
def liftCode (p : Plan) : LiftM (List Inst) := do
  p.graph.graph.order.forM (visit p)
  mapCode Inst.markResult
  insertCopies p
  insertJumps p
  let s ← get
  let code := s.code.toList.flatten.map s.registers.nameInst
  let code := if p.settings.firstLine then hoistFirstLine ⟨s.nextLabel⟩ code else code
  return s.refinements.code code

end LiftM

namespace Method

/-- The code of a method before simplification. -/
def liftRaw (m : Method) (settings : Settings) : Except Error (List Inst) := do
  let p ← Plan.ofMethod m settings
  (LiftM.liftCode p).run' (.initial p)

/-- The code of a method. -/
def lift (m : Method) (settings : Settings) : Except Error (List Inst) := do
  let code ← m.liftRaw settings
  if settings.simplify then
    return (← simplify code).code
  else
    return code

end Method

end StackLift
