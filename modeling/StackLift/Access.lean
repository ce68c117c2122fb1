/-! Access flags of methods. -/

namespace StackLift

/-- A set of access flags, as the sum of their bits. -/
structure AccessFlags where
  bits : Nat
deriving DecidableEq

namespace AccessFlags

def empty : AccessFlags := ⟨0⟩

def staticMethod : AccessFlags := ⟨0x8⟩

def union (a b : AccessFlags) : AccessFlags :=
  ⟨a.bits ||| b.bits⟩

def isStatic (flags : AccessFlags) : Bool :=
  flags.bits &&& staticMethod.bits ≠ 0

/-- The flag of a modifier keyword. -/
def ofKeyword? : String → Option AccessFlags
  | "public" => some ⟨0x1⟩
  | "private" => some ⟨0x2⟩
  | "protected" => some ⟨0x4⟩
  | "static" => some staticMethod
  | "final" => some ⟨0x10⟩
  | "synchronized" => some ⟨0x20⟩
  | "bridge" => some ⟨0x40⟩
  | "varargs" => some ⟨0x80⟩
  | "native" => some ⟨0x100⟩
  | "abstract" => some ⟨0x400⟩
  | "strict" => some ⟨0x800⟩
  | "synthetic" => some ⟨0x1000⟩
  | _ => none

end AccessFlags

end StackLift
