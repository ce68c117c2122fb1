import StackLift.Ir.Inst

/-!
One type for each register: a register that is assigned values of several types has the type of its
first assignment everywhere.
-/

namespace StackLift

namespace RegisterTypes

/-- A register with the type of its first assignment and the types assigned to it. -/
structure Entry where
  index : Nat
  type : TypeName
  assigned : List TypeName

/-- Adds an assigned type. -/
def add (r : Register) (assigned : TypeName) : List Entry → List Entry
  | [] => [{ index := r.index, type := r.type, assigned := [assigned] }]
  | entry :: rest =>
    if entry.index = r.index then
      { entry with
        assigned := if assigned ∈ entry.assigned then entry.assigned
          else assigned :: entry.assigned } :: rest
    else
      entry :: add r assigned rest

/-- The types assigned to each register; `null` has no type of its own. -/
def entries (code : List Inst) : List Entry :=
  code.foldl (fun es i =>
    match i with
    | .assign (.register r) e => if e = .value (.constant .null) then es else add r e.type es
    | _ => es) []

/-- The types of the registers that are assigned values of several types. -/
def declared (code : List Inst) : List (Nat × TypeName) :=
  ((entries code).filter fun entry => 1 < entry.assigned.length).map fun entry =>
    (entry.index, entry.type)

def retypeLeaf (declared : List (Nat × TypeName)) : Value → Value
  | .register r =>
    match declared.lookup r.index with
    | some type => .register (r.withType type)
    | none => .register r
  | v => v

end RegisterTypes

/-- Gives each register one type. -/
def normalizeTypes (code : List Inst) : List Inst :=
  let declared := RegisterTypes.declared code
  code.map fun i => i.mapValues (Value.mapLeaves (RegisterTypes.retypeLeaf declared))

end StackLift
