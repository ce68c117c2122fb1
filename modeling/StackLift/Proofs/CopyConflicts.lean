import StackLift.Lift.Code
import StackLift.Proofs.Reachability

/-!
The copies that a node has to make for the joins after it, and when they do not disturb each other,
which can be decided from the frames and the merges of the simulation.
-/

namespace StackLift

namespace LiftState

/-- The merges in the order in which their copies are made. -/
def mergesInOrder (s : LiftState) : List Merge :=
  s.merges.filter (fun m => m.place.isSlot) ++ s.merges.filter (fun m => !m.place.isSlot)

theorem mem_mergesInOrder {s : LiftState} {m : Merge}
    : m ∈ s.mergesInOrder ↔ m ∈ s.merges := by
  rw [mergesInOrder, List.mem_append, List.mem_filter, List.mem_filter]
  cases m.place.isSlot <;> simp

/-- The value that a node has to copy for a merge, if it does not hold the register already. -/
def copied? (p : Plan) (s : LiftState) (u : Nat) (m : Merge) : Option Value :=
  if u ∈ p.graph.graph.predecessors m.node then
    ((s.frameOf? u).bind m.place.value?).filter fun source => !source.Same (.register m.target)
  else none

/-- The copies that a node has to make, in their order. -/
def copiesAt (p : Plan) (s : LiftState) (u : Nat) : List (Register × Value) :=
  s.mergesInOrder.filterMap fun m => (s.copied? p u m).map (m.target, ·)

/-- The frame with which control comes from one node to another. -/
def frameInto? (p : Plan) (s : LiftState) (u v : Nat) : Option Frame :=
  match p.node? v with
  | some (.label _) => s.frameOf? v
  | _ => s.frameOf? u

/-- Is the value the register that a place gets at the node? -/
def isMerged (s : LiftState) (v : Nat) (place : Place) (value : Value) : Bool :=
  s.merges.any fun m => m.node = v && m.place = place && value.Same (.register m.target)

/-- No copy overwrites a register that a later copy of the same node reads, or that a node after it
takes over.
-/
structure CopiesApart (p : Plan) (s : LiftState) : Prop where
  ordered : ∀ u, (s.copiesAt p u).Pairwise fun c later => ¬ later.2.Same (.register c.1)
  kept : ∀ {u v : Nat}, u ∈ p.graph.graph.predecessors v → ∀ {f : Frame},
    s.frameInto? p u v = some f → ∀ {place : Place} {value : Value},
    place.value? f = some value → s.isMerged v place value = false →
    ∀ c ∈ s.copiesAt p u, ¬ value.Same (.register c.1)

end LiftState

-- Decidability

/-- The places that may hold a value. -/
def Frame.places (f : Frame) : List Place :=
  (List.range f.locals.length).map .slot ++ (List.range f.stack.length).map .stack

theorem Place.mem_places {f : Frame} {place : Place} {value : Value}
    (h : place.value? f = some value)
    : place ∈ f.places := by
  cases place with
  | slot index =>
      have hlt : index < f.locals.length := by
        by_contra hlen
        simp [value?, Frame.local?, List.getElem?_eq_none (Nat.le_of_not_lt hlen)] at h
      simp [Frame.places, hlt]
  | stack index =>
      obtain ⟨hlt, -⟩ := List.getElem?_eq_some_iff.mp h
      rw [List.length_reverse] at hlt
      simp [Frame.places, hlt]

namespace LiftState

variable {p : Plan} {s : LiftState}

/-- Only nodes before a join copy anything. -/
theorem copiesAt_eq_nil {u : Nat}
    (h : ∀ m ∈ s.merges, u ∉ p.graph.graph.predecessors m.node)
    : s.copiesAt p u = [] := by
  refine List.filterMap_eq_nil_iff.mpr fun m hm => ?_
  rw [copied?, if_neg (h m (mem_mergesInOrder.mp hm))]
  rfl

theorem copiesApart_iff
    : s.CopiesApart p ↔
      (∀ m ∈ s.merges, ∀ u ∈ p.graph.graph.predecessors m.node,
        (s.copiesAt p u).Pairwise fun c later => ¬ later.2.Same (.register c.1))
      ∧ ∀ v < p.graph.graph.size, ∀ u ∈ p.graph.graph.predecessors v,
        ∀ f ∈ s.frameInto? p u v, ∀ place ∈ f.places, ∀ value ∈ place.value? f,
        s.isMerged v place value = false → ∀ c ∈ s.copiesAt p u, ¬ value.Same (.register c.1) := by
  constructor
  · intro ⟨ordered, kept⟩
    exact ⟨fun m _ u _ => ordered u, fun v _ u edge f hf place _ value hvalue hmerged =>
      kept edge hf hvalue hmerged⟩
  · intro ⟨ordered, kept⟩
    refine ⟨fun u => ?_, fun {u v} edge {f} hf {place value} hvalue hmerged =>
      kept v (p.graph.graph.lt_size_of_mem_predecessors edge) u edge f hf place
        (Place.mem_places hvalue) value hvalue hmerged⟩
    by_cases hu : ∃ m ∈ s.merges, u ∈ p.graph.graph.predecessors m.node
    · obtain ⟨m, hm, edge⟩ := hu
      exact ordered m hm u edge
    · rw [copiesAt_eq_nil fun m hm edge => hu ⟨m, hm, edge⟩]
      exact .nil

instance (p : Plan) (s : LiftState) : Decidable (s.CopiesApart p) :=
  decidable_of_iff _ copiesApart_iff.symm

end LiftState

end StackLift
