import StackLift.Ir.Inst

/-!
Finite maps keyed by values without their display names, and the substitutions they give. A value
with an image is replaced as a whole, and its image is not looked at again.
-/

namespace StackLift

/-- Each key is anonymous and occurs once. -/
abbrev ValueMap (α : Type) := List (Value × α)

namespace ValueMap

variable {α : Type}

def find? (m : ValueMap α) (v : Value) : Option α :=
  m.lookup v.anonymous

def contains (m : ValueMap α) (v : Value) : Bool :=
  (m.find? v).isSome

def erase (m : ValueMap α) (v : Value) : ValueMap α :=
  m.filter fun entry => entry.1 ≠ v.anonymous

/-- A new image takes the place of an old one. -/
def insert (m : ValueMap α) (v : Value) (image : α) : ValueMap α :=
  (v.anonymous, image) :: m.erase v

end ValueMap

/-- Images of values. -/
abbrev Substitution := ValueMap Value

namespace Substitution

def value (s : Substitution) : Value → Value
  | .field object owner name type =>
    (s.find? (.field object owner name type)).getD (.field (s.value object) owner name type)
  | .element array index type =>
    (s.find? (.element array index type)).getD (.element (s.value array) (s.value index) type)
  | v => (s.find? v).getD v

def expr (s : Substitution) (e : Expr) : Expr :=
  e.mapValues s.value

def inst (s : Substitution) (i : Inst) : Inst :=
  i.mapValues s.value

def code (s : Substitution) (code : List Inst) : List Inst :=
  code.map s.inst

end Substitution

end StackLift
