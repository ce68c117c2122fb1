import StackLift.Error
import StackLift.Simplify.CopyChains
import StackLift.Simplify.FoldedCopies
import StackLift.Simplify.RegisterTypes
import StackLift.Simplify.RepeatedCopies

/-!
Simplification of register code: rounds of passes that remove redundant copies, until a round
changes nothing.
-/

namespace StackLift

/-- A round of all passes, with a bound on the steps of the one that may not end. -/
def simplifyRound? (steps : Nat) (code : List Inst) : Option (List Inst) := do
  let code := dropDeadCopies (dropRepeatedCopies code)
  let code ← replaceChains? steps code
  let code := (foldCopies code).filter fun i => !isSelfCopy i
  return normalizeTypes code

structure Simplified where
  code : List Inst
  /-- The number of rounds, of which the last one changed nothing. -/
  rounds : Nat
deriving DecidableEq

/-- At most as many rounds as given, after those that were already done. -/
def simplifyRounds? (steps done : Nat) : (rounds : Nat) → List Inst → Option Simplified
  | 0, _ => none
  | rounds + 1, code => do
    let next ← simplifyRound? steps code
    if SameCode next code then
      return { code := next, rounds := done + 1 }
    else
      simplifyRounds? steps (done + 1) rounds next

/-- Simplification within a number of rounds, each of which takes at most that number of steps. -/
def simplifyWithin? (limit : Nat) (code : List Inst) : Option Simplified :=
  simplifyRounds? limit 0 limit code

/-- A limit that is far from being reached unless registers copy each other in a circle. -/
def simplifyLimit (code : List Inst) : Nat :=
  (code.length + 8) * (code.length + 8)

/-- Removes redundant copies. -/
def simplify (code : List Inst) : Except Error Simplified :=
  match simplifyWithin? (simplifyLimit code) code with
  | some simplified => .ok simplified
  | none => .error .unsettled

end StackLift
