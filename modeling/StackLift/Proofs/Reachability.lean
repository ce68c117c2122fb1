import Mathlib.Data.List.Nodup
import Mathlib.Logic.Relation
import Mathlib.Tactic.Tauto
import StackLift.Graph.NodeGraph

/-!
A visit finds exactly the nodes that can be reached, so a pruned graph has exactly the edges between
nodes that can be reached from the entry.
-/

namespace StackLift

namespace NodeSet

theorem contains_full {bound node : Nat}
    : (full bound).contains node = true ↔ node < bound := by
  simp only [full, contains, Array.getD_eq_getD_getElem?, Array.getElem?_replicate]
  split <;> simp_all

end NodeSet

-- Visits

variable {next : Nat → List Nat} {agenda : List Nat} {unseen : NodeSet} {n : Nat}

/-- A visited node can be reached from the agenda through unseen nodes. -/
theorem path_of_mem_visit (h : n ∈ visit next agenda unseen)
    : ∃ a ∈ agenda, unseen.contains a = true
        ∧ Relation.ReflTransGen (fun u v => v ∈ next u ∧ unseen.contains v = true) a n := by
  fun_induction visit with
  | case1 => cases h
  | case2 u agenda unseen hu ih =>
      rcases List.mem_cons.mp h with rfl | h
      · exact ⟨n, List.mem_cons_self, hu, .refl⟩
      · obtain ⟨a, ha, hunseen, path⟩ := ih h
        have hunseen := (NodeSet.contains_erase.mp hunseen).1
        have path : Relation.ReflTransGen (fun u v => v ∈ next u ∧ unseen.contains v = true) a n :=
          Relation.ReflTransGen.mono
            (fun _ _ edge => ⟨edge.1, (NodeSet.contains_erase.mp edge.2).1⟩) _ _ path
        rcases List.mem_append.mp ha with ha | ha
        · exact ⟨u, List.mem_cons_self, hu, .head ⟨ha, hunseen⟩ path⟩
        · exact ⟨a, List.mem_cons_of_mem u ha, hunseen, path⟩
  | case3 u agenda unseen hu ih =>
      obtain ⟨a, ha, found⟩ := ih h
      exact ⟨a, List.mem_cons_of_mem u ha, found⟩

/-- The unseen nodes of the agenda are visited, and so are the unseen successors of visited nodes.
-/
theorem visit_closed
    : (∀ a ∈ agenda, unseen.contains a = true → a ∈ visit next agenda unseen)
      ∧ ∀ u ∈ visit next agenda unseen, ∀ v ∈ next u,
          unseen.contains v = true → v ∈ visit next agenda unseen := by
  fun_induction visit with
  | case1 => simp
  | case2 u agenda unseen hu ih =>
      obtain ⟨started, closed⟩ := ih
      have reached : ∀ v, unseen.contains v = true → v ∈ next u ++ agenda →
          v ∈ u :: visit next (next u ++ agenda) (unseen.erase u) := by
        intro v hv hm
        by_cases same : v = u
        · simp [same]
        · exact List.mem_cons_of_mem _ (started v hm (NodeSet.contains_erase.mpr ⟨hv, same⟩))
      refine ⟨fun a ha hn => ?_, fun w hw v hv hn => ?_⟩
      · rcases List.mem_cons.mp ha with rfl | ha
        · simp
        · exact reached a hn (List.mem_append_right _ ha)
      · rcases List.mem_cons.mp hw with rfl | hw
        · exact reached v hn (List.mem_append_left _ hv)
        · by_cases same : v = u
          · simp [same]
          · exact List.mem_cons_of_mem _
              (closed w hw v hv (NodeSet.contains_erase.mpr ⟨hn, same⟩))
  | case3 u agenda unseen hu ih =>
      refine ⟨fun a ha hn => ?_, ih.2⟩
      rcases List.mem_cons.mp ha with rfl | ha
      · exact absurd hn hu
      · exact ih.1 a ha hn

/-- A visit finds exactly what can be reached from the agenda through unseen nodes. -/
theorem mem_visit
    : n ∈ visit next agenda unseen ↔ ∃ a ∈ agenda, unseen.contains a = true
        ∧ Relation.ReflTransGen (fun u v => v ∈ next u ∧ unseen.contains v = true) a n := by
  refine ⟨path_of_mem_visit, ?_⟩
  rintro ⟨a, ha, hunseen, path⟩
  obtain ⟨started, closed⟩ := @visit_closed next agenda unseen
  induction path with
  | refl => exact started a ha hunseen
  | tail _ edge ih => exact closed _ ih _ edge.1 edge.2

theorem mem_visit_singleton {start : Nat}
    : n ∈ visit next [start] unseen ↔ unseen.contains start = true
        ∧ Relation.ReflTransGen (fun u v => v ∈ next u ∧ unseen.contains v = true) start n := by
  simp only [mem_visit, List.mem_singleton, exists_eq_left]

theorem mem_reachableFrom {bound start : Nat} (hs : start < bound)
    (hnext : ∀ u, ∀ v ∈ next u, v < bound)
    : n ∈ reachableFrom next bound start
      ↔ Relation.ReflTransGen (fun u v => v ∈ next u) start n := by
  have hedges : (fun u v => v ∈ next u ∧ (NodeSet.full bound).contains v = true)
      = fun u v => v ∈ next u := by
    funext u v
    rw [NodeSet.contains_full]
    exact propext (and_iff_left_of_imp (hnext u v))
  rw [reachableFrom, mem_visit_singleton, hedges, NodeSet.contains_full]
  exact and_iff_right hs

-- Graphs

theorem mem_insertAscending {m : Nat} {l : List Nat}
    : n ∈ insertAscending m l ↔ n = m ∨ n ∈ l := by
  induction l with
  | nil => simp [insertAscending]
  | cons k rest ih =>
      simp only [insertAscending]
      split
      · simp
      · split
        · simp_all
        · simp only [List.mem_cons, ih]
          tauto

theorem ascending_insertAscending {m : Nat} {l : List Nat} (h : l.Pairwise (· < ·))
    : (insertAscending m l).Pairwise (· < ·) := by
  induction l with
  | nil => simp [insertAscending]
  | cons k rest ih =>
      obtain ⟨hk, hrest⟩ := List.pairwise_cons.mp h
      simp only [insertAscending]
      split
      next hlt =>
        refine List.pairwise_cons.mpr ⟨fun j hj => ?_, h⟩
        rcases List.mem_cons.mp hj with rfl | hj
        · exact hlt
        · exact Nat.lt_trans hlt (hk j hj)
      next hge =>
        split
        · exact h
        next hne =>
          refine List.pairwise_cons.mpr ⟨fun j hj => ?_, ih hrest⟩
          rcases mem_insertAscending.mp hj with rfl | hj
          · omega
          · exact hk j hj

theorem mem_foldl_insertAscending {nodes l : List Nat}
    : n ∈ nodes.foldl (fun l m => insertAscending m l) l ↔ n ∈ nodes ∨ n ∈ l := by
  induction nodes generalizing l with
  | nil => simp
  | cons m rest ih =>
      rw [List.foldl_cons, ih, mem_insertAscending, List.mem_cons]
      tauto

namespace NodeGraph

variable {g : NodeGraph} {u v : Nat}

theorem lt_size_of_mem_predecessors (h : u ∈ g.predecessors v)
    : v < g.size := by
  by_contra hge
  have outside : g.predecessorLists[v]? = none := Array.getElem?_eq_none (Nat.le_of_not_lt hge)
  simp [predecessors, Array.getD_eq_getD_getElem?, outside] at h

theorem mem_successors
    : v ∈ g.successors u ↔ u ∈ g.predecessors v := by
  simp only [successors, nodes, List.mem_filter, List.mem_range, decide_eq_true_eq]
  exact ⟨fun h => h.2, fun h => ⟨lt_size_of_mem_predecessors h, h⟩⟩

/-- A path leads from the entry to the node. -/
def Reaches (g : NodeGraph) (n : Nat) : Prop :=
  Relation.ReflTransGen (fun u v => u ∈ g.predecessors v) entry n

theorem Reaches.step (h : g.Reaches u) (edge : u ∈ g.predecessors v)
    : g.Reaches v :=
  .tail h edge

theorem Reaches.lt_size (h : g.Reaches n) (hsize : 0 < g.size)
    : n < g.size := by
  rcases Relation.ReflTransGen.cases_tail h with same | ⟨u, -, edge⟩
  · rw [same]
    exact hsize
  · exact lt_size_of_mem_predecessors edge

theorem mem_reachable (hsize : 0 < g.size)
    : n ∈ g.reachable ↔ g.Reaches n := by
  have hnext : ∀ u, ∀ v ∈ g.successors u, v < g.size := fun u v hv =>
    lt_size_of_mem_predecessors (mem_successors.mp hv)
  refine (mem_reachableFrom hsize hnext).trans ?_
  simp only [mem_successors]
  rfl

theorem mem_unreachable (hsize : 0 < g.size)
    : n ∈ g.unreachable ↔ n < g.size ∧ ¬ g.Reaches n := by
  simp [unreachable, nodes, mem_reachable hsize]

theorem unreachable_congr {g' : NodeGraph} (hsize : 0 < g.size) (hsame : g'.size = g.size)
    (hreach : ∀ n, g'.Reaches n ↔ g.Reaches n)
    : g'.unreachable = g.unreachable := by
  unfold unreachable nodes
  rw [hsame]
  refine List.filter_congr fun n _ => decide_eq_decide.mpr (not_congr ?_)
  rw [mem_reachable hsize, mem_reachable (hsame ▸ hsize), hreach]

theorem ext_predecessors {g' : NodeGraph} (hsize : g.size = g'.size)
    (hpredecessors : ∀ v, g.predecessors v = g'.predecessors v) (hdead : g.dead = g'.dead)
    : g = g' := by
  have hlists : g.predecessorLists = g'.predecessorLists := by
    refine Array.ext hsize fun v hv hv' => ?_
    have hget := hpredecessors v
    simp only [predecessors, Array.getD_eq_getD_getElem?, Array.getElem?_eq_getElem hv,
      Array.getElem?_eq_getElem hv', Option.getD_some] at hget
    exact hget
  cases g
  cases g'
  cases hlists
  cases hdead
  rfl

theorem predecessors_empty (size v : Nat)
    : (empty size).predecessors v = [] := by
  simp only [predecessors, empty, Array.getD_eq_getD_getElem?, Array.getElem?_replicate]
  split <;> rfl

theorem predecessors_addEdge (g : NodeGraph) {source target : Nat} (ht : target < g.size) (v : Nat)
    : (g.addEdge source target).predecessors v
      = if v = target then insertAscending source (g.predecessors v) else g.predecessors v := by
  have inside : target < g.predecessorLists.size := ht
  simp only [addEdge, predecessors, Array.getD_eq_getD_getElem?, Array.getElem?_modify]
  by_cases same : v = target
  · subst same
    simp [inside]
  · simp [same, Ne.symm same]

-- Pruning

/-- The entry is a node, and every edge comes from a node that can be reached. -/
structure Closed (g : NodeGraph) : Prop where
  size : 0 < g.size
  reached : ∀ {u v}, u ∈ g.predecessors v → g.Reaches u

/-- The entry is live, and predecessors are live nodes. -/
structure Pruned (g : NodeGraph) : Prop extends Closed g where
  dead : ∀ {n}, g.isDead n = true ↔ n < g.size ∧ ¬ g.Reaches n

theorem predecessors_kill (g : NodeGraph) (nodes : List Nat) (v : Nat)
    : (g.kill nodes).predecessors v
      = if v ∈ nodes then [] else (g.predecessors v).filter fun u => u ∉ nodes ∧ u ∉ g.dead := by
  simp only [kill, predecessors, Array.getD_eq_getD_getElem?, Array.getElem?_mapIdx]
  cases g.predecessorLists[v]? with
  | none => simp
  | some preds => simp [mem_foldl_insertAscending]

theorem mem_predecessors_kill {nodes : List Nat}
    : u ∈ (g.kill nodes).predecessors v
      ↔ u ∈ g.predecessors v ∧ v ∉ nodes ∧ u ∉ nodes ∧ u ∉ g.dead := by
  rw [predecessors_kill]
  split
  next hv => simp [hv]
  next hv => simp [hv]

theorem size_prune (g : NodeGraph)
    : g.prune.size = g.size := by
  unfold prune
  dsimp only
  split
  · rfl
  · simp [kill, size]

theorem dead_prune (g : NodeGraph)
    : g.prune.dead = g.unreachable.foldl (fun dead n => insertAscending n dead) g.dead := by
  unfold prune
  dsimp only
  split
  next hnil => rw [List.isEmpty_iff.mp hnil, List.foldl_nil]
  next => rfl

theorem predecessors_prune_sublist (g : NodeGraph) (v : Nat)
    : (g.prune.predecessors v).Sublist (g.predecessors v) := by
  unfold prune
  dsimp only
  split
  · exact List.Sublist.refl _
  · rw [predecessors_kill]
    split
    · exact List.nil_sublist _
    · exact List.filter_sublist

/-- Pruning keeps the edges from the nodes that can be reached, if none of them is marked dead. -/
theorem mem_predecessors_prune (hsize : 0 < g.size) (hdead : g.dead ⊆ g.unreachable)
    (hbound : ∀ {u v}, u ∈ g.predecessors v → u < g.size)
    : u ∈ g.prune.predecessors v ↔ u ∈ g.predecessors v ∧ g.Reaches u := by
  have hun : ∀ {n}, n ∈ g.unreachable ↔ n < g.size ∧ ¬ g.Reaches n := mem_unreachable hsize
  unfold prune
  dsimp only
  split
  next hempty =>
    refine ⟨fun h => ⟨h, ?_⟩, fun h => h.1⟩
    by_contra hr
    have hmem := hun.mpr ⟨hbound h, hr⟩
    rw [List.isEmpty_iff.mp hempty] at hmem
    cases hmem
  next =>
    rw [mem_predecessors_kill, hun, hun]
    constructor
    · rintro ⟨h, -, hu, -⟩
      exact ⟨h, by_contra fun hr => hu ⟨hbound h, hr⟩⟩
    · rintro ⟨h, hr⟩
      exact ⟨h, fun hv => hv.2 (hr.step h), fun hu => hu.2 hr, fun hu => (hun.mp (hdead hu)).2 hr⟩

theorem reaches_prune (hsize : 0 < g.size) (hdead : g.dead ⊆ g.unreachable)
    (hbound : ∀ {u v}, u ∈ g.predecessors v → u < g.size)
    : g.prune.Reaches n ↔ g.Reaches n := by
  constructor
  · intro h
    induction h with
    | refl => exact .refl
    | tail _ edge ih => exact ih.step ((mem_predecessors_prune hsize hdead hbound).mp edge).1
  · intro h
    induction h with
    | refl => exact .refl
    | tail h edge ih =>
        exact ih.step ((mem_predecessors_prune hsize hdead hbound).mpr ⟨edge, h⟩)

theorem pruned_prune (hsize : 0 < g.size) (hdead : g.dead ⊆ g.unreachable)
    (hbound : ∀ {u v}, u ∈ g.predecessors v → u < g.size)
    : g.prune.Pruned where
  size := g.size_prune ▸ hsize
  reached h :=
    (reaches_prune hsize hdead hbound).mpr ((mem_predecessors_prune hsize hdead hbound).mp h).2
  dead {n} := by
    rw [reaches_prune hsize hdead hbound, size_prune, ← mem_unreachable hsize, isDead, dead_prune,
      decide_eq_true_eq, mem_foldl_insertAscending]
    exact or_iff_left_of_imp fun h => hdead h

end NodeGraph

end StackLift
