import StackLift.Simplify.Reads

/-! Dropping copies into variables that nothing reads. -/

namespace StackLift

/-- Repeats a step as long as it makes the code shorter. -/
def whileShorter (step : List Inst → List Inst) (code : List Inst) : List Inst :=
  if (step code).length < code.length then whileShorter step (step code) else code
termination_by code.length

/-- Is the instruction a copy of a value into a variable that is never read? -/
def isDeadCopy (reads : List Read) : Inst → Bool
  | .assign target (.value _) => target.isSimple && (firstRead? reads target).isNone
  | _ => false

/-- Drops the copies into variables that are never read. -/
def dropUnreadCopies (code : List Inst) : List Inst :=
  let reads := readsOf code
  code.filter fun i => !isDeadCopy reads i

/-- Drops dead copies until none is left: without a copy, the variable it read may be unread. -/
def dropDeadCopies (code : List Inst) : List Inst :=
  whileShorter dropUnreadCopies code

end StackLift
