import StackLift.Ir.ValueMap
import StackLift.Simplify.DeadCopies

/-!
Folding a copy of a register that nothing else reads: the register takes the name of the target, and
the copy is dropped.
-/

namespace StackLift

namespace FoldedCopies

/-- The first place where a value is assigned. -/
def firstAssignment? (code : List Inst) (v : Value) : Option Nat :=
  let key := v.anonymous
  code.findIdx? fun
    | .assign target _ => target.anonymous = key
    | _ => false

/-- The copy of a register into a simple value that an instruction makes. -/
def copy? : Inst → Option (Value × Value)
  | .assign target (.value (.register r)) =>
    if target.isSimple then some (target, .register r) else none
  | _ => none

/-- Can the source be renamed to the target of the copy at a place? Only the copy reads the source.
The target is not read before the copy. If the target has a value when it is first read, the source
is assigned right before the copy.
-/
def isFoldable (code : List Inst) (reads : List Read) (target source : Value) (place : Nat) :
    Bool :=
  onlyReadAt reads source place
    && (match firstRead? reads target with
      | none => true
      | some read =>
        place ≤ read
          && match firstAssignment? code target, firstAssignment? code source with
            | some targetAt, some sourceAt => read ≤ targetAt || sourceAt + 1 = place
            | _, _ => true)

/-- The copies to fold. -/
structure Folding where
  /-- The target for each source. -/
  targetOf : Substitution
  /-- The targets, without their display names, which are not replaced in the same step. -/
  targets : List Value
  /-- The places of the copies. -/
  places : List Nat

/-- Adds the instruction at a place, if it is a copy that can be folded. -/
def consider (code : List Inst) (reads : List Read) (folding : Folding) (entry : Inst × Nat) :
    Folding :=
  match copy? entry.1 with
  | none => folding
  | some (target, source) =>
    if source.anonymous ∉ folding.targets && isFoldable code reads target source entry.2 then
      { targetOf := folding.targetOf.insert source target
        targets := target.anonymous :: folding.targets
        places := entry.2 :: folding.places }
    else
      folding

/-- All copies to fold in one step. -/
def folding (code : List Inst) : Folding :=
  code.zipIdx.foldl (consider code (readsOf code)) { targetOf := [], targets := [], places := [] }

/-- Replaces the sources of the copies by their targets, and drops the copies. -/
def step (code : List Inst) : List Inst :=
  let folding := folding code
  (code.zipIdx.filter fun entry => entry.2 ∉ folding.places).map fun entry =>
    folding.targetOf.inst entry.1

end FoldedCopies

/-- Folds copies until none can be folded. -/
def foldCopies (code : List Inst) : List Inst :=
  whileShorter FoldedCopies.step code

end StackLift
