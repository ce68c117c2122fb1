import Mathlib.Data.List.Nodup
import StackLift.Proofs.LiftLogic

/-!
The order of simulation names each node at most once, and no edge of the graph of a method leads to
the entry.
-/

namespace StackLift

namespace NodeGraph

variable {g : NodeGraph} {walk : List WalkEvent}

theorem mem_pending_of_mem_release {ready pending : List Nat} {n : Nat}
    (h : n ∈ g.release walk ready pending)
    : n ∈ pending := by
  fun_induction release with
  | case1 => cases h
  | case2 u ready pending hu left opened ih =>
      rcases List.mem_cons.mp h with rfl | h
      · exact hu
      · exact List.mem_of_mem_erase (ih h)
  | case3 u ready pending hu ih => exact ih h

theorem nodup_release {ready pending : List Nat} (h : pending.Nodup)
    : (g.release walk ready pending).Nodup := by
  fun_induction release with
  | case1 => exact List.nodup_nil
  | case2 u ready pending hu left opened ih =>
      refine List.nodup_cons.mpr ⟨fun hm => ?_, ih (h.erase u)⟩
      exact h.not_mem_erase (mem_pending_of_mem_release hm)
  | case3 u ready pending hu ih => exact ih h

theorem nodup_order (g : NodeGraph)
    : g.order.Nodup :=
  nodup_release List.nodup_range

theorem lt_size_of_mem_order (g : NodeGraph) {n : Nat} (h : n ∈ g.order)
    : n < g.size :=
  List.mem_range.mp (mem_pending_of_mem_release h)

-- The entry

/-- The graph has the given number of nodes, and no edge leads to the entry. -/
structure Rooted (g : NodeGraph) (size : Nat) : Prop where
  size : g.size = size
  entry : g.predecessors entry = []

variable {size : Nat}

theorem rooted_empty (size : Nat)
    : (empty size).Rooted size where
  size := by simp [empty, NodeGraph.size]
  entry := by
    simp only [predecessors, empty, Array.getD_eq_getD_getElem?, Array.getElem?_replicate]
    split <;> rfl

theorem Rooted.addEdge (h : g.Rooted size) {source target : Nat} (ht : 0 < target)
    : (g.addEdge source target).Rooted size where
  size := by simpa [NodeGraph.addEdge, NodeGraph.size] using h.size
  entry := by
    have := h.entry
    simp only [predecessors, Array.getD_eq_getD_getElem?] at this
    simpa [NodeGraph.addEdge, predecessors, Array.getD_eq_getD_getElem?, Array.getElem?_modify,
      NodeGraph.entry, Nat.ne_of_gt ht] using this

theorem Rooted.foldl_addEdge {α : Type} {l : List α} {source target : α → Nat}
    (h : g.Rooted size) (ht : ∀ a ∈ l, 0 < target a)
    : (l.foldl (fun g a => g.addEdge (source a) (target a)) g).Rooted size := by
  induction l generalizing g with
  | nil => exact h
  | cons a rest ih =>
      exact ih (h.addEdge (ht a (by simp))) fun b hb => ht b (by simp [hb])

theorem Rooted.kill (h : g.Rooted size) (nodes : List Nat)
    : (g.kill nodes).Rooted size where
  size := by simpa [NodeGraph.kill, NodeGraph.size] using h.size
  entry := by
    have := h.entry
    simp only [predecessors, Array.getD_eq_getD_getElem?] at this
    simp only [NodeGraph.kill, predecessors, Array.getD_eq_getD_getElem?, Array.getElem?_mapIdx]
    cases hp : g.predecessorLists[NodeGraph.entry]? with
    | none => rfl
    | some preds =>
        obtain rfl : preds = [] := by simpa [hp] using this
        simp

theorem Rooted.prune (h : g.Rooted size)
    : g.prune.Rooted size := by
  unfold NodeGraph.prune
  dsimp only
  split
  · exact h
  · exact h.kill _

end NodeGraph

-- The graph of a method

/-- Can control go on to the next node? -/
def Node.fallsThrough : Node → Bool
  | .branch b => b.fallsThrough
  | _ => true

/-- The labels a node can jump to. -/
def Node.targets : Node → List Label
  | .branch b => b.targets
  | _ => []

namespace MethodGraph

theorem pos_of_mem_placedLabels {number : Nat} {nodes : List Node} {place : Label × Nat}
    (h : place ∈ placedLabels number nodes)
    : number ≤ place.2 := by
  fun_induction placedLabels with
  | case1 => cases h
  | case2 number l rest ih =>
      rcases List.mem_cons.mp h with rfl | h
      · exact Nat.le_refl _
      · exact Nat.le_of_succ_le (ih h)
  | case3 number node rest _ ih => exact Nat.le_of_succ_le (ih h)

theorem mem_of_lookUp {labels : List (Label × Nat)} {l : Label} {node : Nat}
    (h : lookUp labels l = .ok node)
    : (l, node) ∈ labels := by
  unfold lookUp at h
  split at h
  next n hn =>
    cases h
    exact List.mem_reverse.mp (mem_of_lookup hn)
  next => cases h

variable {labels : List (Label × Nat)} {g g' : NodeGraph} {size : Nat}

theorem mem_of_mapM_lookUp {ls : List Label} {nodes : List Nat}
    (h : ls.mapM (lookUp labels) = .ok nodes) {v : Nat}
    : v ∈ nodes ↔ ∃ l ∈ ls, lookUp labels l = .ok v := by
  induction ls generalizing nodes with
  | nil =>
      cases h
      simp
  | cons l rest ih =>
      rw [List.mapM_cons] at h
      obtain ⟨node, hnode, h⟩ := except_bind_eq_ok.mp h
      obtain ⟨others, hothers, h⟩ := except_bind_eq_ok.mp h
      cases h
      simp [ih hothers, hnode, eq_comm]

theorem mem_of_flow {next targets : List Nat} {node : Node}
    (h : flow labels next node = .ok targets) {v : Nat}
    : v ∈ targets
      ↔ (node.fallsThrough = true ∧ v ∈ next) ∨ ∃ l ∈ node.targets, lookUp labels l = .ok v := by
  unfold flow at h
  split at h
  next b =>
    split at h
    next terminal =>
      cases h
      cases b <;> cases terminal <;> simp [Node.fallsThrough, Node.targets, Branch.fallsThrough,
        Branch.targets]
    next =>
      obtain ⟨nodes, hnodes, h⟩ := except_bind_eq_ok.mp h
      cases h
      rw [List.mem_append, mem_of_mapM_lookUp hnodes, or_comm]
      cases hb : b.fallsThrough <;> simp [Node.fallsThrough, Node.targets, hb]
  next hnode =>
    cases h
    cases node with
    | branch b => exact (hnode b rfl).elim
    | _ => simp [Node.fallsThrough, Node.targets]

section

variable (hl : ∀ place ∈ labels, 0 < place.2)
include hl

theorem pos_of_flow {next : List Nat} (hn : ∀ n ∈ next, 0 < n) {node : Node} {targets : List Nat}
    (h : flow labels next node = .ok targets)
    : ∀ n ∈ targets, 0 < n := by
  intro n hm
  rcases (mem_of_flow h).mp hm with ⟨-, hm⟩ | ⟨l, -, hm⟩
  · exact hn n hm
  · exact hl _ (mem_of_lookUp hm)

theorem rooted_addFlow (hg : g.Rooted size) {number : Nat} {nodes : List Node}
    (h : addFlow labels g number nodes = .ok g')
    : g'.Rooted size := by
  induction nodes generalizing g number with
  | nil =>
      cases h
      exact hg
  | cons node rest ih =>
      obtain ⟨targets, ht, h⟩ := except_bind_eq_ok.mp h
      refine ih (hg.foldl_addEdge (pos_of_flow hl ?_ ht)) h
      intro n hn
      split at hn
      · cases hn
      · rw [List.mem_singleton.mp hn]
        exact Nat.succ_pos _

theorem rooted_addRange (hg : g.Rooted size) {handlers handlers' : List (Nat × List Nat)}
    {entry : ProtectedRange × Nat} (h : addRange labels (g, handlers) entry = .ok (g', handlers'))
    : g'.Rooted size := by
  obtain ⟨start, -, h⟩ := except_bind_eq_ok.mp h
  obtain ⟨stop, -, h⟩ := except_bind_eq_ok.mp h
  obtain ⟨handler, hh, h⟩ := except_bind_eq_ok.mp h
  have hpos := hl _ (mem_of_lookUp hh)
  split at h
  · cases h
    exact hg
  · cases h
    exact (hg.foldl_addEdge fun _ _ => hpos).foldl_addEdge fun _ _ => hpos

theorem rooted_foldlM_addRange (hg : g.Rooted size) {handlers handlers' : List (Nat × List Nat)}
    {entries : List (ProtectedRange × Nat)}
    (h : entries.foldlM (addRange labels) (g, handlers) = .ok (g', handlers'))
    : g'.Rooted size := by
  induction entries generalizing g handlers with
  | nil =>
      cases h
      exact hg
  | cons entry rest ih =>
      rw [List.foldlM_cons] at h
      obtain ⟨⟨g₁, handlers₁⟩, h₁, h⟩ := except_bind_eq_ok.mp h
      exact ih (rooted_addRange hl hg h₁) h

end

/-- The graph of a method has the entry, to which no edge leads, and one node for each node of the
stream.
-/
theorem rooted_ofMethod {m : Method} {graph : MethodGraph} (h : ofMethod m = .ok graph)
    : graph.graph.Rooted (m.nodes.length + 1) := by
  have hl : ∀ place ∈ placedLabels 1 m.nodes, 0 < place.2 :=
    fun place hp => pos_of_mem_placedLabels hp
  obtain ⟨g₁, h₁, h⟩ := except_bind_eq_ok.mp h
  obtain ⟨⟨g₂, handlers⟩, h₂, h⟩ := except_bind_eq_ok.mp h
  cases h
  refine (rooted_foldlM_addRange hl (rooted_addFlow hl ?_ h₁) h₂).prune
  have hempty := NodeGraph.rooted_empty (m.nodes.length + 1)
  split
  · exact hempty
  · exact hempty.addEdge Nat.one_pos

end MethodGraph

end StackLift
