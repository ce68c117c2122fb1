import StackLift.Flow.Raised
import StackLift.Flow.Resolved

/-!
The flow graph of a code. Normal edges come from falling through and jumping. Each instruction has
its catchers, the handlers that protect it, and each handler its throwers, the instructions that it
protects.
-/

namespace StackLift

structure FlowGraph where
  code : ResolvedCode
  successorLists : Array (List Nat)
  predecessorLists : Array (List Nat)
  catcherLists : Array (List Nat)
  /-- The types of the exceptions that leave the method, for each instruction. -/
  escapingLists : Array (List TypeName)

namespace FlowGraph

/-- The instructions to which control goes from an instruction, without an exception. -/
def flow (c : ResolvedCode) (i : Nat) : List Nat :=
  match c.inst? i with
  | none => []
  | some inst =>
    if inst.isTerminating then []
    else if inst.isBranching then (c.jumpTargets i).eraseDups
    else if i + 1 < c.size then [i + 1]
    else []

/-- Does the handler at a place accept exceptions of a type? -/
def accepts (c : ResolvedCode) (h : Hierarchy) (raised : TypeName) (handler : Nat) : Bool :=
  match c.inst? handler with
  | some (.catches exception _ _) => h.isSubclass raised exception.type
  | _ => false

/-- The types that an instruction may raise and none of its catchers accepts. -/
def escapingOf (c : ResolvedCode) (h : Hierarchy) (catchers : List Nat) (i : Nat) :
    List TypeName :=
  (((c.inst? i).map (Inst.raised h)).getD []).filter fun t => !catchers.any (accepts c h t)

def ofResolved (c : ResolvedCode) (h : Hierarchy) : FlowGraph :=
  let successorLists := (c.indices.map (flow c)).toArray
  let catcherLists :=
    (c.indices.map fun i => c.indices.filter fun handler => i ∈ c.protectedBy handler).toArray
  { code := c
    successorLists
    predecessorLists :=
      (c.indices.map fun i => c.indices.filter fun j => i ∈ successorLists.getD j []).toArray
    catcherLists
    escapingLists :=
      (c.indices.map fun i => escapingOf c h (catcherLists.getD i []) i).toArray }

/-- The flow graph of a code with markers. -/
def ofCode (code : List Inst) (h : Hierarchy) : Except Error FlowGraph := do
  return ofResolved (← ResolvedCode.ofCode code) h

def size (g : FlowGraph) : Nat :=
  g.code.size

def indices (g : FlowGraph) : List Nat :=
  g.code.indices

def successors (g : FlowGraph) (i : Nat) : List Nat :=
  g.successorLists.getD i []

def predecessors (g : FlowGraph) (i : Nat) : List Nat :=
  g.predecessorLists.getD i []

def catchers (g : FlowGraph) (i : Nat) : List Nat :=
  g.catcherLists.getD i []

def throwers (g : FlowGraph) (i : Nat) : List Nat :=
  g.code.protectedBy i

/-- The types of the exceptions that leave the method from an instruction. -/
def escaping (g : FlowGraph) (i : Nat) : List TypeName :=
  g.escapingLists.getD i []

/-- The instructions to which control goes, with or without an exception. -/
def allSuccessors (g : FlowGraph) (i : Nat) : List Nat :=
  (g.successors i ++ g.catchers i).eraseDups

/-- The instructions from which control comes, with or without an exception. -/
def allPredecessors (g : FlowGraph) (i : Nat) : List Nat :=
  (g.predecessors i ++ g.throwers i).eraseDups

/-- The first instruction. -/
def entry? (g : FlowGraph) : Option Nat :=
  g.indices.head?

def previous? (_ : FlowGraph) (i : Nat) : Option Nat :=
  if i = 0 then none else some (i - 1)

def next? (g : FlowGraph) (i : Nat) : Option Nat :=
  if i + 1 < g.size then some (i + 1) else none

/-- The returns and throws. -/
def exits (g : FlowGraph) : List Nat :=
  g.indices.filter fun i => (g.code.inst? i).any Inst.isTerminating

/-- The types of the exceptions that leave the method, in the order of their names, with the
instructions that raise them.
-/
def throwExits (g : FlowGraph) : List (TypeName × List Nat) :=
  let types := (g.indices.flatMap g.escaping).eraseDups
  let sorted := types.mergeSort fun t u => t.text ≤ u.text
  sorted.map fun t => (t, g.indices.filter fun i => t ∈ g.escaping i)

end FlowGraph

end StackLift
