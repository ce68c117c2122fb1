import StackLift.Flow.Graph
import StackLift.Graph.Reach

/-!
Dominance: an instruction dominates another if every way from the first instruction of the code to
the other one leads through it. Walks along immediate dominators find all of them.
-/

namespace StackLift

/-- The immediate dominators of instructions. They form a tree, so every walk along them ends. -/
structure Dominators where
  /-- The root of the tree; a code without instructions has none. -/
  root? : Option Nat
  /-- What stands above each instruction in the tree. -/
  parents : Array (Option Nat)
  depth : Nat → Nat
  rises : ∀ {i parent}, parents.getD i none = some parent → depth parent < depth i

namespace Dominators

section Walks

variable (d : Dominators)

/-- The closest dominator of an instruction other than the instruction itself. -/
def immediate? (i : Nat) : Option Nat :=
  d.parents.getD i none

/-- Is the instruction in the tree? -/
def contains (i : Nat) : Bool :=
  d.root? = some i || (d.immediate? i).isSome

/-- An instruction and those above it in the tree. -/
def walk (i : Nat) : List Nat :=
  match _ : d.immediate? i with
  | none => [i]
  | some dominator => i :: walk dominator
termination_by d.depth i
decreasing_by exact d.rises ‹_›

/-- The dominators of an instruction from itself to the first instruction. An instruction that
cannot be reached has none.
-/
def chain (i : Nat) : List Nat :=
  if d.contains i then d.walk i else []

def isReachable (i : Nat) : Bool :=
  !(d.chain i).isEmpty

/-- Goes up from a candidate in search of a dominator of an instruction. -/
def search (i dominator candidate : Nat) : Bool :=
  if candidate = dominator then d.isReachable i
  else match _ : d.immediate? candidate with
    | none => false
    | some next => search i dominator next
termination_by d.depth candidate
decreasing_by exact d.rises ‹_›

def isDominatedBy (i dominator : Nat) : Bool :=
  d.search i dominator i

end Walks

-- Computed dominators

/-- The instructions that can be reached without passing through one of them. -/
def reachedWithout (g : FlowGraph) (d : Nat) : NodeSet :=
  .ofList g.size (visit g.allSuccessors [0] ((NodeSet.full g.size).erase d))

def reached (g : FlowGraph) : NodeSet :=
  .ofList g.size (reachableFrom g.allSuccessors g.size 0)

/-- The dominators of each instruction: those without which it cannot be reached. -/
def sets (g : FlowGraph) : Array (List Nat) :=
  let reached := reached g
  let without := (g.indices.map (reachedWithout g)).toArray
  (g.indices.map fun i => g.indices.filter fun d =>
    reached.contains i && !(without.getD d (.empty 0)).contains i).toArray

/-- The dominator of an instruction that has one dominator less. -/
def closest? (sets : Array (List Nat)) (i : Nat) : Option Nat :=
  (sets.getD i []).find? fun d => (sets.getD d []).length + 1 = (sets.getD i []).length

theorem getD_map_indices {β : Type} (g : FlowGraph) (f : Nat → β) (b : β) (i : Nat)
    : (g.indices.map f).toArray.getD i b = if i < g.size then f i else b := by
  have hindices : g.indices = List.range g.size := rfl
  rw [hindices]
  split
  next hi => simp [hi]
  next hi => simp [hi]

/-- The dominators of a graph, whose sets are computed first. -/
def ofGraph (g : FlowGraph) : Dominators :=
  let sets := sets g
  { root? := g.entry?
    parents := (g.indices.map (closest? sets)).toArray
    depth := fun i => (sets.getD i []).length
    rises := fun {i d} found => by
      simp only [getD_map_indices, Option.ite_none_right_eq_some] at found
      have hcount : (sets.getD d []).length + 1 = (sets.getD i []).length := by
        simpa using List.find?_some found.2
      exact Nat.lt_of_succ_le (Nat.le_of_eq hcount) }

end Dominators

end StackLift
