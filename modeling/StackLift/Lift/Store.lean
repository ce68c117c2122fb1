import StackLift.Lift.State

/-!
Stores to local slots. The register that a slot holds is assigned again when it has the type of the
stored value, belongs to the same variable, and nothing else refers to it. Otherwise the slot gets a
fresh register. The slot of an argument starts to hold the stored value itself.
-/

namespace StackLift

namespace Plan

/-- Does the slot belong to an argument whose variable starts with the method? -/
def isArgument (p : Plan) (slot : Nat) (covering : Option Variable) : Bool :=
  slot < p.method.argumentSlots
    && covering.any fun v => some v.start = p.firstLabel?

/-- The value of a slot, unless it is of another kind than the stored value: one of the two types is
primitive and the other is not.
-/
def replaced? (p : Plan) (f : Frame) (node slot : Nat) (value : Value) : Option Value :=
  (f.local? slot).filter fun old =>
    value.type.isPrimitive == old.type.isPrimitive || old.type = .null
      || p.isArgument slot (p.variableAt? slot node)

/-- The register for a store, named and typed after the variable that starts at the next label. -/
def variableRegister (p : Plan) (node slot : Nat) (r : Register) (rs : Registers) :
    Register × Registers :=
  match p.declaredVariable? slot node with
  | none => (r, rs)
  | some v =>
    let type := if !v.type.isPrimitive && !r.type.isArray then v.type else r.type
    if p.settings.keepNames then
      ({ r with type, name := v.name, kind := .named }, rs.setName r.index v.name)
    else
      ({ r with type }, rs)

end Plan

/-- Can a register of the old value's type hold the new value? -/
def holdsType (old value : Value) : Bool :=
  old.type = value.type || (value = .constant .null && !old.type.isPrimitive)

namespace LiftM

/-- Gives the slot a fresh register and assigns the value to it. -/
def storeFresh (p : Plan) (node slot : Nat) (f : Frame) (type : TypeName) (value : Value) :
    LiftM Frame := do
  let register ← freshRegister type
  let s ← get
  let (register, registers) := p.variableRegister node slot register s.registers
  set { s with registers }
  assign node (.register register) (.value value)
  return f.putLocal slot (.register register)

/-- Is the register of the slot named after the variable that covers the store, or neither of them
named?
-/
def isSameVariable (covering : Option Variable) (old : Value) : LiftM Bool := do
  let s ← get
  return old.register?.any fun r => covering.map Variable.name = s.registers.name? r.index

/-- The type of a register for a value in a slot that holds nothing it could replace. -/
def storeType (covering : Option Variable) (f : Frame) (slot : Nat) (value : Value) : TypeName :=
  if value.type = .null then
    ((covering.map Variable.type).or ((f.local? slot).map Value.type)).getD .object
  else
    value.type

/-- Stores a value to a slot. -/
def store (p : Plan) (node slot : Nat) (f : Frame) (value : Value) : LiftM Frame := do
  let covering := p.variableAt? slot node
  match p.replaced? f node slot value with
  | none => storeFresh p node slot f (storeType covering f slot value) value
  | some (.argument _) => return f.putLocal slot value
  | some old =>
    if holdsType old value then
      if f.usedInStack old || f.usedInOtherLocals old slot then
        return f.putLocal slot value
      else if ← isSameVariable covering old then
        assign node old (.value value)
        return f
      else
        storeFresh p node slot f value.type value
    else
      storeFresh p node slot f value.type value

end LiftM

end StackLift
