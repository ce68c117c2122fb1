import StackLift.Ir.Inst

/-!
The supply of registers, and the groups of registers that hold the same variable. Each group has a
root, from which its registers take their name.
-/

namespace StackLift

structure Registers where
  /-- The index of the next register. -/
  next : Nat
  /-- Links from registers towards the root of their group. -/
  links : List (Nat × Nat)
  /-- Did a register have a name of its own when it was last united? -/
  named : List (Nat × Bool)
  /-- The registers named after an entry of the variable table. -/
  names : List (Nat × String)

namespace Registers

def empty : Registers :=
  { next := 0, links := [], named := [], names := [] }

/-- A new register. -/
def fresh (rs : Registers) (type : TypeName) : Register × Registers :=
  (.fresh rs.next type, { rs with next := rs.next + 1 })

/-- Follows at most the given number of links. -/
def follow (links : List (Nat × Nat)) : (steps register : Nat) → Nat
  | 0, register => register
  | steps + 1, register =>
    match links.lookup register with
    | some next => follow links steps next
    | none => register

/-- The root of the group of a register. Only roots get links, so a chain has each link at most
once.
-/
def root (rs : Registers) (register : Nat) : Nat :=
  follow rs.links rs.links.length register

def isNamed (rs : Registers) (register : Nat) : Bool :=
  (rs.named.lookup register).getD false

/-- The name that a register took from the variable table. -/
def name? (rs : Registers) (register : Nat) : Option String :=
  rs.names.lookup register

/-- Names a register after an entry of the variable table. -/
def setName (rs : Registers) (register : Nat) (name : String) : Registers :=
  { rs with names := (register, name) :: rs.names }

/-- Records that two registers hold the same variable. Two named groups stay apart. Otherwise the
root of the first group is the common root if the first register is named or its group has a name
from the variable table, and else the root of the second is.
-/
def unite (rs : Registers) (first second : Register) : Registers :=
  let rs := { rs with
    named := (second.index, second.isNamed) :: (first.index, first.isNamed) :: rs.named }
  let root₁ := rs.root first.index
  let root₂ := rs.root second.index
  if root₁ = root₂ || (rs.isNamed root₁ && rs.isNamed root₂) then rs
  else if first.isNamed || (rs.name? root₁).isSome then
    { rs with links := (root₂, root₁) :: rs.links }
  else
    { rs with links := (root₁, root₂) :: rs.links }

/-- An assignment. A copy between registers unites them, unless the target is the result of an
instruction or named after a variable.
-/
def assign (rs : Registers) (target : Value) (source : Expr) : Inst × Registers :=
  (.assign target source,
    match target, source.register? with
    | .register r, some s => if r.kind = .generated then rs.unite r s else rs
    | _, _ => rs)

/-- Gives a register without a name the name of its group. -/
def nameLeaf (rs : Registers) : Value → Value
  | .register r =>
    if r.isNamed then .register r
    else
      match rs.name? (rs.root r.index) with
      | some name => .register { r with name }
      | none => .register r
  | v => v

/-- Gives the registers of an instruction the names of their groups. -/
def nameInst (rs : Registers) (i : Inst) : Inst :=
  i.mapValues (Value.mapLeaves rs.nameLeaf)

end Registers

end StackLift
