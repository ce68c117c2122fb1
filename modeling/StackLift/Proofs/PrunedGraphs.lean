import Mathlib.Data.List.Sort
import StackLift.Proofs.Reachability

/-!
Graphs that are built by adding edges and pruning, in any order. Every edge of a pruned graph comes
from a node that can be reached. Pruning is exact as long as no node that was marked dead earlier
can be reached again.
-/

namespace StackLift

theorem ascending_foldl_insertAscending {nodes l : List Nat} (h : l.Pairwise (· < ·))
    : (nodes.foldl (fun l m => insertAscending m l) l).Pairwise (· < ·) := by
  induction nodes generalizing l with
  | nil => exact h
  | cons m rest ih => exact ih (ascending_insertAscending h)

namespace NodeGraph

/-- Graphs that come from a graph without edges by adding edges between its nodes and pruning. -/
inductive Built : NodeGraph → Prop
  | empty (size : Nat) : Built (.empty size)
  | addEdge {g : NodeGraph} {source target : Nat} : Built g → source < g.size → target < g.size →
    Built (g.addEdge source target)
  | prune {g : NodeGraph} : Built g → Built g.prune

variable {g g' : NodeGraph} {n u v : Nat}

/-- A path from the entry leads to the node, on which no node before it is marked dead. -/
def ReachesUnmarked (g : NodeGraph) (n : Nat) : Prop :=
  Relation.ReflTransGen (fun u v => u ∈ g.predecessors v ∧ u ∉ g.dead) entry n

theorem ReachesUnmarked.reaches (h : g.ReachesUnmarked n)
    : g.Reaches n :=
  Relation.ReflTransGen.mono (fun _ _ step => step.1) _ _ h

/-- What building a graph keeps up. Once a node is marked, the nodes without a mark can be reached
through nodes without one.
-/
structure Tidy (g : NodeGraph) : Prop where
  sources : ∀ {u v}, u ∈ g.predecessors v → u < g.size
  ascending : ∀ v, (g.predecessors v).Pairwise (· < ·)
  marked : ∀ n ∈ g.dead, n < g.size
  marks : g.dead.Pairwise (· < ·)
  unmarked : g.dead ≠ [] → ∀ n < g.size, n ∉ g.dead → g.ReachesUnmarked n

theorem tidy_empty (size : Nat)
    : (empty size).Tidy where
  sources h := by simp [predecessors_empty] at h
  ascending v := by simp [predecessors_empty]
  marked := nofun
  marks := .nil
  unmarked h := absurd rfl h

theorem Tidy.addEdge {source target : Nat} (h : g.Tidy) (hs : source < g.size)
    (ht : target < g.size)
    : (g.addEdge source target).Tidy := by
  have hsize : (g.addEdge source target).size = g.size := by simp [NodeGraph.addEdge, size]
  have hpredecessors := @predecessors_addEdge g source target ht
  refine ⟨fun {u v} hu => ?_, fun v => ?_, hsize ▸ h.marked, h.marks, fun hne n hn hlive => ?_⟩
  · rw [hpredecessors] at hu
    rw [hsize]
    split at hu
    · rcases mem_insertAscending.mp hu with rfl | hu
      · exact hs
      · exact h.sources hu
    · exact h.sources hu
  · rw [hpredecessors]
    split
    · exact ascending_insertAscending (h.ascending v)
    · exact h.ascending v
  · refine Relation.ReflTransGen.mono (fun u v step => ⟨?_, step.2⟩) _ _
      (h.unmarked hne n (hsize ▸ hn) hlive)
    rw [hpredecessors]
    split
    · exact mem_insertAscending.mpr (.inr step.1)
    · exact step.1

-- Pruning keeps a graph tidy

theorem prune_of_unreachable_nil (h : g.unreachable = [])
    : g.prune = g := by
  simp [prune, h]

theorem prune_of_unreachable_ne_nil (h : g.unreachable ≠ [])
    : g.prune = g.kill g.unreachable := by
  simp [prune, h]

theorem mem_dead_prune
    : n ∈ g.prune.dead ↔ n ∈ g.unreachable ∨ n ∈ g.dead := by
  rw [dead_prune, mem_foldl_insertAscending]

theorem size_pos_of_unreachable (h : n ∈ g.unreachable)
    : 0 < g.size := by
  have hn : n < g.size := List.mem_range.mp (List.mem_filter.mp h).1
  omega

/-- Nodes that can be reached without marked nodes still can after the unreachable nodes are
killed, since those do not lie on the path.
-/
theorem ReachesUnmarked.kill (hsize : 0 < g.size) (h : g.ReachesUnmarked n)
    : (g.kill g.unreachable).ReachesUnmarked n := by
  have hlive : ∀ {u}, g.Reaches u → u ∉ g.unreachable := fun hu hm =>
    ((mem_unreachable hsize).mp hm).2 hu
  induction h with
  | refl => exact .refl
  | @tail u v path step ih =>
      have hu := ReachesUnmarked.reaches path
      refine ih.tail ⟨?_, fun hd => ?_⟩
      · exact mem_predecessors_kill.mpr ⟨step.1, hlive (hu.step step.1), hlive hu, step.2⟩
      · exact (mem_foldl_insertAscending.mp hd).elim (hlive hu) step.2

theorem Tidy.prune (h : g.Tidy)
    : g.prune.Tidy := by
  by_cases hnil : g.unreachable = []
  · rwa [prune_of_unreachable_nil hnil]
  obtain ⟨m, hm⟩ := List.exists_mem_of_ne_nil _ hnil
  have hsize := size_pos_of_unreachable hm
  refine ⟨fun {u v} hu => ?_, fun v => ?_, fun n hn => ?_, ?_, fun _ n hn hlive => ?_⟩
  · rw [size_prune]
    exact h.sources ((g.predecessors_prune_sublist v).subset hu)
  · exact (h.ascending v).sublist (g.predecessors_prune_sublist v)
  · rw [size_prune]
    exact (mem_dead_prune.mp hn).elim (fun hn => ((mem_unreachable hsize).mp hn).1) (h.marked n)
  · rw [dead_prune]
    exact ascending_foldl_insertAscending h.marks
  · rw [size_prune] at hn
    rw [mem_dead_prune, not_or, mem_unreachable hsize] at hlive
    have hreach : g.Reaches n := by_contra fun hr => hlive.1 ⟨hn, hr⟩
    rw [prune_of_unreachable_ne_nil hnil]
    refine ReachesUnmarked.kill hsize ?_
    by_cases hdead : g.dead = []
    · exact Relation.ReflTransGen.mono (fun u v edge => ⟨edge, by simp [hdead]⟩) _ _ hreach
    · exact h.unmarked hdead n hn hlive.2

theorem Built.tidy (h : g.Built)
    : g.Tidy := by
  induction h with
  | empty size => exact tidy_empty size
  | addEdge _ hs ht ih => exact ih.addEdge hs ht
  | prune _ ih => exact ih.prune

/-- Every edge of a pruned graph comes from a node that can be reached. -/
theorem Tidy.closed_prune (h : g.Tidy) (hsize : 0 < g.size)
    : g.prune.Closed where
  size := g.size_prune ▸ hsize
  reached {u v} hu := by
    by_cases hnil : g.unreachable = []
    · rw [prune_of_unreachable_nil hnil] at hu ⊢
      by_contra hr
      have hmem := (mem_unreachable hsize).mpr ⟨h.sources hu, hr⟩
      rw [hnil] at hmem
      cases hmem
    · have hne : g.prune.dead ≠ [] := by
        obtain ⟨m, hm⟩ := List.exists_mem_of_ne_nil _ hnil
        exact List.ne_nil_of_mem (mem_dead_prune.mpr (.inl hm))
      refine (h.prune.unmarked hne u (h.prune.sources hu) fun hd => ?_).reaches
      rw [prune_of_unreachable_ne_nil hnil] at hu hd
      obtain ⟨-, -, hlive, hold⟩ := mem_predecessors_kill.mp hu
      exact (mem_foldl_insertAscending.mp hd).elim hlive hold

-- Exact pruning

theorem ascending_unreachable (g : NodeGraph)
    : g.unreachable.Pairwise (· < ·) :=
  List.pairwise_lt_range.filter _

theorem Tidy.dead_prune_eq (h : g.Tidy) (hdead : g.dead ⊆ g.unreachable)
    : g.prune.dead = g.unreachable :=
  h.prune.marks.eq_of_mem_iff g.ascending_unreachable fun _ =>
    mem_dead_prune.trans (or_iff_left_of_imp fun hn => hdead hn)

theorem Tidy.unreachable_prune (h : g.Tidy) (hsize : 0 < g.size) (hdead : g.dead ⊆ g.unreachable)
    : g.prune.unreachable = g.unreachable := by
  refine unreachable_congr hsize g.size_prune fun n => ?_
  exact reaches_prune hsize hdead h.sources

/-- A live node keeps its live predecessors. -/
theorem predecessors_prune (hdead : g.dead ⊆ g.unreachable) (hv : v ∉ g.unreachable)
    : g.prune.predecessors v = (g.predecessors v).filter (· ∉ g.unreachable) := by
  by_cases hnil : g.unreachable = []
  · rw [prune_of_unreachable_nil hnil, hnil]
    simp
  · rw [prune_of_unreachable_ne_nil hnil, predecessors_kill, if_neg hv]
    refine List.filter_congr fun u _ => decide_eq_decide.mpr ?_
    exact and_iff_left_of_imp fun hu hd => hu (hdead hd)

/-- Pruning a pruned graph changes nothing. -/
theorem Tidy.prune_prune (h : g.Tidy) (hsize : 0 < g.size) (hdead : g.dead ⊆ g.unreachable)
    : g.prune.prune = g.prune := by
  have hsize' : 0 < g.prune.size := g.size_prune ▸ hsize
  have hunreachable := h.unreachable_prune hsize hdead
  have hdead' : g.prune.dead ⊆ g.prune.unreachable := by
    rw [hunreachable, h.dead_prune_eq hdead]
    exact List.Subset.refl _
  refine ext_predecessors g.prune.size_prune (fun v => ?_) ?_
  · refine (h.prune.prune.ascending v).eq_of_mem_iff (h.prune.ascending v) fun u => ?_
    rw [mem_predecessors_prune hsize' hdead' h.prune.sources]
    exact and_iff_left_of_imp fun hu => (h.closed_prune hsize).reached hu
  · rw [h.prune.dead_prune_eq hdead', hunreachable, h.dead_prune_eq hdead]

/-- Pruning finds and marks exactly the nodes that cannot be reached, in ascending order, and
removes their edges and no others. Pruning again finds the same nodes and changes nothing.
-/
theorem pruning_is_exact (built : g.Built) (hsize : 0 < g.size) (hdead : g.dead ⊆ g.unreachable)
    : (∀ n, n ∈ g.unreachable ↔ n < g.size ∧ ¬ g.Reaches n)
      ∧ g.unreachable.Pairwise (· < ·)
      ∧ (∀ n, g.prune.isDead n = true ↔ n ∈ g.unreachable)
      ∧ (∀ n, g.prune.isDead n = true →
        g.prune.predecessors n = [] ∧ ∀ v, n ∉ g.prune.predecessors v)
      ∧ (∀ v < g.size, g.prune.isDead v = false →
        g.prune.predecessors v = (g.predecessors v).filter (fun u => !g.prune.isDead u)
        ∧ g.prune.Reaches v)
      ∧ g.prune.unreachable = g.unreachable ∧ g.prune.prune = g.prune := by
  have tidy := built.tidy
  have hmem : ∀ {u v}, u ∈ g.prune.predecessors v ↔ u ∈ g.predecessors v ∧ g.Reaches u :=
    mem_predecessors_prune hsize hdead tidy.sources
  have hisDead : ∀ n, g.prune.isDead n = decide (n ∈ g.unreachable) := fun n => by
    rw [isDead, tidy.dead_prune_eq hdead]
  refine ⟨fun n => mem_unreachable hsize, g.ascending_unreachable, fun n => by simp [hisDead],
    fun n hn => ?_, fun v hv hlive => ?_, tidy.unreachable_prune hsize hdead,
    tidy.prune_prune hsize hdead⟩
  · have hn : ¬ g.Reaches n := ((mem_unreachable hsize).mp (by simpa [hisDead] using hn)).2
    refine ⟨List.eq_nil_iff_forall_not_mem.mpr fun u hu => ?_, fun v hu => ?_⟩
    · obtain ⟨edge, hu⟩ := hmem.mp hu
      exact hn (hu.step edge)
    · exact hn (hmem.mp hu).2
  · have hlive : v ∉ g.unreachable := by simpa [hisDead] using hlive
    refine ⟨(predecessors_prune hdead hlive).trans (by simp [hisDead]), ?_⟩
    rw [reaches_prune hsize hdead tidy.sources]
    exact by_contra fun hr => hlive ((mem_unreachable hsize).mpr ⟨hv, hr⟩)

/-- Nodes 3 and 4 are pruned, and an edge from one of them to a live node is added afterwards. -/
def deadFeedingLive : NodeGraph :=
  let edges := [(0, 1), (1, 2), (3, 3), (4, 3), (3, 2)]
  ((edges.foldl (fun g (u, v) => g.addEdge u v) (empty 5)).prune).addEdge 4 2

theorem pruning_removes_dead_feeding_live
    : deadFeedingLive.Built ∧ 0 < deadFeedingLive.size
      ∧ deadFeedingLive.dead ⊆ deadFeedingLive.unreachable
      ∧ deadFeedingLive.unreachable = [3, 4]
      ∧ deadFeedingLive.predecessors 2 = [1, 4] ∧ deadFeedingLive.prune.predecessors 2 = [1]
      ∧ deadFeedingLive.prune.prune = deadFeedingLive.prune := by
  have built : deadFeedingLive.Built := by
    refine .addEdge (.prune ?_) (by decide +kernel) (by decide +kernel)
    exact .addEdge (.addEdge (.addEdge (.addEdge (.addEdge (.empty 5) (by decide) (by decide))
      (by decide) (by decide)) (by decide) (by decide)) (by decide) (by decide))
      (by decide) (by decide)
  have hunreachable : deadFeedingLive.unreachable = [3, 4] := by decide +kernel
  have hdead : deadFeedingLive.dead ⊆ deadFeedingLive.unreachable := by
    rw [hunreachable]
    decide +kernel
  have hsize : 0 < deadFeedingLive.size := by decide +kernel
  obtain ⟨-, -, -, -, -, -, hagain⟩ := pruning_is_exact built hsize hdead
  exact ⟨built, hsize, hdead, hunreachable, by decide +kernel, by decide +kernel, hagain⟩

/-- Nodes 1 and 2 are marked by a first pruning and can be reached afterwards. -/
def revived : NodeGraph :=
  ((empty 4).prune.addEdge 0 1).addEdge 1 2

/-- A mark stays when its node is reached again: pruning keeps the node dead and cuts off the nodes
behind it.
-/
theorem pruning_cuts_off_revived_nodes
    : revived.Built ∧ 0 < revived.size ∧ revived.Reaches 2 ∧ revived.unreachable = [3]
      ∧ revived.prune.dead = [1, 2, 3] ∧ revived.prune.predecessors 2 = []
      ∧ ¬ revived.prune.Reaches 2 ∧ revived.prune.unreachable = [2, 3] := by
  have hsize : 0 < revived.size := by decide +kernel
  have hpruned : revived.prune.unreachable = [2, 3] := by decide +kernel
  have hmem : 2 ∈ revived.prune.unreachable := by simp [hpruned]
  have hfirst : revived.predecessors 1 = [entry] := by decide +kernel
  have hsecond : revived.predecessors 2 = [1] := by decide +kernel
  have hpath : revived.Reaches 2 := by
    have hone : revived.Reaches 1 := Reaches.step .refl (by simp [hfirst])
    exact hone.step (by simp [hsecond])
  have built : revived.Built := by
    refine .addEdge (.addEdge (.prune (.empty 4)) ?_ ?_) ?_ ?_ <;> decide +kernel
  refine ⟨built, hsize, hpath, by decide +kernel, by decide +kernel, by decide +kernel, ?_, hpruned⟩
  exact ((mem_unreachable (revived.size_prune ▸ hsize)).mp hmem).2

end NodeGraph

end StackLift
