import StackLift.Ir.ValueMap

/-! Dropping copies whose target already holds the copied value since the last label. -/

namespace StackLift

namespace RepeatedCopies

/-- The value that each variable was last copied from. -/
abbrev Known := ValueMap Value

/-- Forgets the variables that were copied from a value. -/
def forgetCopiesOf (known : Known) (v : Value) : Known :=
  known.filter fun entry => !entry.2.Same v

/-- Does the variable hold a copy of the value? -/
def holds (known : Known) (target source : Value) : Bool :=
  (known.find? target).any fun v => v.Same source

/-- The copy of one simple value into another that an instruction makes. -/
def copy? : Inst → Option (Value × Value)
  | .assign target (.value source) =>
    if target.isSimple && source.isSimple then some (target, source) else none
  | _ => none

/-- Is the instruction a copy that changes nothing? -/
def isRepeated (known : Known) (i : Inst) : Bool :=
  match copy? i with
  | some (target, source) => holds (forgetCopiesOf known target) target source
  | none => false

/-- What is known after an instruction. -/
def after (known : Known) (i : Inst) : Known :=
  match i with
  | .label _ => []
  | .assign target _ =>
    match copy? i with
    | some (_, source) => ValueMap.insert (forgetCopiesOf known target) target source
    | none => ValueMap.erase (forgetCopiesOf known target) target
  | _ => known

/-- Drops the repeated copies. -/
def drop (known : Known) : List Inst → List Inst
  | [] => []
  | i :: rest =>
    if isRepeated known i then drop (after known i) rest else i :: drop (after known i) rest

end RepeatedCopies

/-- Drops the repeated copies of a code. -/
def dropRepeatedCopies (code : List Inst) : List Inst :=
  RepeatedCopies.drop [] code

end StackLift
