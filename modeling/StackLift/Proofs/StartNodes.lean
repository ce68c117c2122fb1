import Mathlib.Data.List.DropRight
import StackLift.Proofs.NodeWalks

/-!
Control enters a set of nodes through its start nodes. However often a walk enters and leaves the
set, the part of it since it last came in begins with a start node, and each start node begins such
a part.
-/

namespace StackLift

namespace NodeGraph

variable {g : NodeGraph} {set : List Nat} {n u v : Nat} {passed : List Nat}

theorem mem_startNodes
    : n ∈ g.startNodes set
      ↔ n ∈ set ∧ (g.predecessors n = [] ∨ ∃ u ∈ g.predecessors n, u ∉ set) := by
  simp [startNodes]

theorem Reaches.exists_walk (h : g.Reaches n)
    : ∃ passed, g.Walk n passed := by
  induction h with
  | refl => exact ⟨[], .entry⟩
  | tail _ edge ih =>
      obtain ⟨passed, walk⟩ := ih
      exact ⟨_, walk.step edge⟩

/-- The nodes of a walk, in order, since it last came into the set. -/
def stay (set : List Nat) (n : Nat) (passed : List Nat) : List Nat :=
  (passed.reverse ++ [n]).rtakeWhile (· ∈ set)

theorem stay_of_not_mem (hn : n ∉ set)
    : stay set n passed = [] :=
  List.rtakeWhile_concat_neg _ _ _ (by simpa using hn)

/-- A step inside the set prolongs the stay. -/
theorem stay_step (hv : v ∈ set)
    : stay set v (u :: passed) = stay set u passed ++ [v] := by
  rw [stay, List.rtakeWhile_concat_pos _ _ _ (by simpa using hv), List.reverse_cons, stay]

theorem stay_entry (hn : n ∈ set)
    : stay set n [] = [n] :=
  List.rtakeWhile_concat_pos _ [] _ (by simpa using hn)

/-- The induction is on the walk: its last step comes into the set, or stays in it. -/
theorem Walk.head?_stay (hentry : g.predecessors NodeGraph.entry = []) (walk : g.Walk v passed)
    (hv : v ∈ set)
    : ∃ n ∈ g.startNodes set, (stay set v passed).head? = some n := by
  induction walk with
  | entry => exact ⟨_, mem_startNodes.mpr ⟨hv, .inl hentry⟩, by simp [stay_entry hv]⟩
  | @step u v passed walk edge ih =>
      rw [stay_step hv]
      by_cases hu : u ∈ set
      · obtain ⟨n, hn, hhead⟩ := ih hu
        exact ⟨n, hn, by simp [hhead]⟩
      · exact ⟨v, mem_startNodes.mpr ⟨hv, .inr ⟨u, edge, hu⟩⟩, by simp [stay_of_not_mem hu]⟩

/-- Some walk comes into the set at each start node that it can come to from everywhere before. -/
theorem exists_walk_to_startNode (hn : n ∈ g.startNodes set) (live : g.Reaches n)
    (closed : ∀ u ∈ g.predecessors n, g.Reaches u)
    : ∃ passed, g.Walk n passed ∧ stay set n passed = [n] := by
  obtain ⟨hin, hnone | ⟨u, edge, hout⟩⟩ := mem_startNodes.mp hn
  · obtain ⟨passed, walk⟩ := live.exists_walk
    cases walk with
    | entry => exact ⟨[], .entry, stay_entry hin⟩
    | step _ edge => simp [hnone] at edge
  · obtain ⟨passed, walk⟩ := (closed u edge).exists_walk
    exact ⟨u :: passed, walk.step edge, by rw [stay_step hin, stay_of_not_mem hout]; rfl⟩

/-- The longest end of a walk that lies in a set of nodes begins with one of its start nodes. No
start node is there in vain: where control can come to it from all its predecessors, it is such an
end of some walk.
-/
theorem start_nodes_guard_group (hentry : g.predecessors entry = []) (set : List Nat)
    : (∀ v ∈ set, ∀ passed, g.Walk v passed →
        ∃ n ∈ g.startNodes set, ((passed.reverse ++ [v]).rtakeWhile (· ∈ set)).head? = some n)
      ∧ ∀ n ∈ g.startNodes set, g.Reaches n → (∀ u ∈ g.predecessors n, g.Reaches u) →
        ∃ passed, g.Walk n passed ∧ (passed.reverse ++ [n]).rtakeWhile (· ∈ set) = [n] :=
  ⟨fun _ hv _ walk => walk.head?_stay hentry hv, fun _ => exists_walk_to_startNode⟩

/-- A loop through the nodes 1 to 4 with a short cut from the third back to the first of them. -/
def shortcutLoop : NodeGraph :=
  { predecessorLists := #[[], [0, 3, 4], [1], [2], [3]], dead := [] }

/-- A walk that leaves a set through the node 2 comes back into it at the start node 3. -/
theorem group_entered_again_is_guarded
    : shortcutLoop.predecessors entry = []
      ∧ shortcutLoop.Walk 1 [4, 3, 2, 1, 0]
      ∧ shortcutLoop.startNodes [1, 3, 4] = [1, 3]
      ∧ ∃ n ∈ [1, 3], ([0, 1, 2, 3, 4, 1].rtakeWhile (· ∈ [1, 3, 4])).head? = some n := by
  have hentry : shortcutLoop.predecessors entry = [] := by decide
  have walk : shortcutLoop.Walk 1 [4, 3, 2, 1, 0] :=
    (((((Walk.entry.step (v := 1) (by decide)).step (v := 2) (by decide)).step (v := 3)
      (by decide)).step (v := 4) (by decide)).step (v := 1) (by decide))
  have hstarts : shortcutLoop.startNodes [1, 3, 4] = [1, 3] := by decide
  refine ⟨hentry, walk, hstarts, ?_⟩
  rw [← hstarts]
  exact (start_nodes_guard_group hentry [1, 3, 4]).1 1 (by decide) _ walk

end NodeGraph

end StackLift
