/-! Sets of nodes numbered from zero up to a bound. -/

namespace StackLift

/-- One mark for each number below the bound; a node is in the set if it has one. -/
structure NodeSet where
  marks : Array Bool

namespace NodeSet

def empty (bound : Nat) : NodeSet :=
  ⟨Array.replicate bound false⟩

def full (bound : Nat) : NodeSet :=
  ⟨Array.replicate bound true⟩

def contains (s : NodeSet) (node : Nat) : Bool :=
  s.marks.getD node false

/-- Adds a node below the bound. -/
def insert (s : NodeSet) (node : Nat) : NodeSet :=
  ⟨s.marks.setIfInBounds node true⟩

def erase (s : NodeSet) (node : Nat) : NodeSet :=
  ⟨s.marks.setIfInBounds node false⟩

/-- The nodes of a list that are below the bound. -/
def ofList (bound : Nat) (nodes : List Nat) : NodeSet :=
  nodes.foldl insert (empty bound)

/-- The nodes in the set, in ascending order. -/
def nodes (s : NodeSet) : List Nat :=
  (List.range s.marks.size).filter s.contains

theorem contains_erase {s : NodeSet} {node other : Nat}
    : (s.erase node).contains other = true ↔ s.contains other = true ∧ other ≠ node := by
  simp only [erase, contains, Array.getD_eq_getD_getElem?, Array.getElem?_setIfInBounds]
  by_cases same : node = other
  · subst same
    by_cases inside : node < s.marks.size <;> simp [inside]
  · simp [same, Ne.symm same]

theorem mem_nodes {s : NodeSet} {node : Nat} : node ∈ s.nodes ↔ s.contains node = true := by
  unfold nodes contains
  grind

theorem nodes_erase (s : NodeSet) (node : Nat) : (s.erase node).nodes = s.nodes.erase node := by
  have nodup : s.nodes.Nodup := List.nodup_range.sublist List.filter_sublist
  have size : (s.erase node).marks.size = s.marks.size := Array.size_setIfInBounds
  rw [nodup.erase_eq_filter, nodes, nodes, size, List.filter_filter]
  refine List.filter_congr fun other _ => Bool.eq_iff_iff.mpr ?_
  rw [contains_erase]
  simp [and_comm]

end NodeSet

end StackLift
