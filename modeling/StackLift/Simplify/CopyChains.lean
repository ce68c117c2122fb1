import StackLift.Ir.ValueMap

/-!
Chains of copies. A register that is only ever assigned one and the same register, which has at most
one assignment itself, is replaced by that register. If the replaced register is named, both become
the named register, with the type of the other.
-/

namespace StackLift

/-- A register, as its first assignment gives it, with all expressions assigned to it. -/
structure Definition where
  register : Register
  sources : List Expr

/-- Registers with the same index and type. -/
def Register.Same (r s : Register) : Prop :=
  r.index = s.index ∧ r.type = s.type

instance (r s : Register) : Decidable (r.Same s) :=
  inferInstanceAs (Decidable (_ ∧ _))

namespace CopyChains

/-- Adds an assignment to the definitions. -/
def addSource (r : Register) (e : Expr) : List Definition → List Definition
  | [] => [{ register := r, sources := [e] }]
  | d :: rest =>
    if d.register.Same r then { d with sources := d.sources ++ [e] } :: rest
    else d :: addSource r e rest

/-- The definitions of all assigned registers, in the order of their first assignments. -/
def definitions (code : List Inst) : List Definition :=
  code.foldl (fun ds i =>
    match i with
    | .assign (.register r) e => addSource r e ds
    | _ => ds) []

/-- The register that all assignments of a definition copy. -/
def copied? (d : Definition) : Option Register :=
  match d.sources with
  | [] => none
  | first :: rest => if rest.all fun e => e.Same first then first.register? else none

/-- Is the register assigned at most once? -/
def hasOneSource (ds : List Definition) (r : Register) : Bool :=
  (ds.find? fun d => d.register.Same r).all fun d => d.sources.length = 1

/-- The registers that are to be replaced, each with the register it copies. -/
def links (ds : List Definition) : List (Register × Register) :=
  ds.filterMap fun d =>
    match copied? d with
    | some source => if hasOneSource ds source then some (d.register, source) else none
    | none => none

/-- The replacement of every register. -/
def mapping (links : List (Register × Register)) : Substitution :=
  links.foldl (fun m (target, source) =>
    if target.isNamed then
      let kept := Value.register (target.withType source.type)
      (m.insert (.register target) kept).insert (.register source) kept
    else
      m.insert (.register target) (.register source)) []

/-- Do the links lead from the value to the other one? -/
def links? (links : List (Register × Register)) (v w : Value) : Bool :=
  links.any fun (target, source) =>
    (Value.register target).Same v && (Value.register source).Same w

/-- Is the instruction a copy between two registers that are to replace each other? -/
def isMutualCopy (links : List (Register × Register)) : Inst → Bool
  | .assign target (.value source) => links? links target source && links? links source target
  | _ => false

end CopyChains

/-- Does the instruction assign a value to itself? -/
def isSelfCopy : Inst → Bool
  | .assign target (.value source) => source.Same target
  | _ => false

/-- Applies the links of a code. -/
def applyLinks (links : List (Register × Register)) (code : List Inst) : List Inst :=
  let mapping := CopyChains.mapping links
  ((code.filter fun i => !CopyChains.isMutualCopy links i).map mapping.inst).filter
    fun i => !isSelfCopy i

/-- Replaces copied registers until there is none or the code stays the same. Registers that copy
each other in a circle keep changing places, so the steps are counted.
-/
def replaceChains? : (steps : Nat) → List Inst → Option (List Inst)
  | 0, _ => none
  | steps + 1, code =>
    match CopyChains.links (CopyChains.definitions code) with
    | [] => some code
    | links =>
      let next := applyLinks links code
      if SameCode next code then some next else replaceChains? steps next

end StackLift
