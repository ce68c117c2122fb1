import StackLift.Ir.Inst

/-! The variables that instructions read. -/

namespace StackLift

/-- All values of an instruction in places where it reads them. The target of an assignment is not
read, but the values inside a field or array target are, and a handler does not read the exception
that it binds.
-/
def Inst.readValues : Inst → List Value
  | .assign target source => target.operands.flatMap Value.subvalues ++ source.subvalues
  | .catches .. => []
  | i => i.subvalues

/-- The variables that an instruction reads. -/
def Inst.reads (i : Inst) : List Value :=
  i.readValues.filter Value.isVariable

/-- A variable, without its display name, that the instruction at a place reads. -/
structure Read where
  place : Nat
  value : Value

/-- All reads of a code, in its order. -/
def readsOf (code : List Inst) : List Read :=
  code.zipIdx.flatMap fun (i, place) =>
    i.reads.map fun v => { place, value := v.anonymous }

/-- The first place where a value is read. -/
def firstRead? (reads : List Read) (v : Value) : Option Nat :=
  let key := v.anonymous
  (reads.find? (·.value = key)).map Read.place

/-- Is a value read at the given place at most? -/
def onlyReadAt (reads : List Read) (v : Value) (place : Nat) : Bool :=
  let key := v.anonymous
  reads.all fun r => r.value ≠ key || r.place = place

end StackLift
