import StackLift.Proofs.CompleteOrder
import StackLift.Proofs.LiftSteps
import StackLift.Proofs.MethodFlow

/-!
What a plan says about its method. A live node that is no label has one predecessor, the node before
it.
-/

namespace StackLift

namespace DeclaredTypes

/-- Each stack map frame declares types. -/
theorem lookup_ofNodes {m : Method} {places : List (Label × Nat)} {number : Nat}
    {before : List TypeName} {nodes : List Node} {declared : List (Nat × DeclaredTypes)}
    (h : ofNodes m places number before nodes = .ok declared) {i : Nat} {f : StackMapFrame}
    (hi : nodes[i]? = some (.frame f))
    : (declared.lookup (number + i)).isSome = true := by
  induction nodes generalizing number before declared i with
  | nil => simp at hi
  | cons node rest ih =>
      have hlater : ∀ {before later}, ofNodes m places (number + 1) before rest = .ok later →
          ∀ j, i = j + 1 → (later.lookup (number + i)).isSome = true := by
        intro before later hl j hj
        subst hj
        have := ih hl (i := j) (by simpa using hi)
        rwa [show number + 1 + j = number + (j + 1) by omega] at this
      cases i with
      | zero =>
          cases hi
          obtain ⟨listed, -, h⟩ := except_bind_eq_ok.mp h
          obtain ⟨stack, -, h⟩ := except_bind_eq_ok.mp h
          obtain ⟨later, -, h⟩ := except_bind_eq_ok.mp h
          cases h
          simp
      | succ i =>
          cases node with
          | frame f =>
              obtain ⟨listed, -, h⟩ := except_bind_eq_ok.mp h
              obtain ⟨stack, -, h⟩ := except_bind_eq_ok.mp h
              obtain ⟨later, hl, h⟩ := except_bind_eq_ok.mp h
              cases h
              rw [List.lookup_cons]
              split
              · rfl
              · exact hlater hl i rfl
          | _ => exact hlater h i rfl

theorem orderly_ofVerification (m : Method) (places : List (Label × Nat)) (t : VerificationType)
    : Orderly (ofVerification m places t) := by
  cases t with
  | uninitialized label =>
      refine (Orderly.lookUp places label).bind fun place _ => ?_
      split
      · exact .ok _
      · exact .error rfl
  | _ => exact .ok _

theorem orderly_ofNodes (m : Method) (places : List (Label × Nat)) (number : Nat)
    (before : List TypeName) (nodes : List Node)
    : Orderly (ofNodes m places number before nodes) := by
  induction nodes generalizing number before with
  | nil => exact .ok []
  | cons node rest ih =>
      cases node with
      | frame f =>
          exact (Orderly.mapM fun t _ => orderly_ofVerification m places t).bind fun _ _ =>
            (Orderly.mapM fun t _ => orderly_ofVerification m places t).bind fun _ _ =>
              (ih _ _).bind fun _ _ => .ok _
      | _ => exact ih _ _

end DeclaredTypes

namespace MethodGraph

theorem orderly_flow (labels : List (Label × Nat)) (next : List Nat) (node : Node)
    : Orderly (flow labels next node) := by
  unfold flow
  split
  · split
    · exact .ok _
    · exact (Orderly.mapM fun l _ => .lookUp labels l).bind fun _ _ => .ok _
  · exact .ok _

theorem orderly_addFlow (labels : List (Label × Nat)) (g : NodeGraph) (number : Nat)
    (nodes : List Node)
    : Orderly (addFlow labels g number nodes) := by
  induction nodes generalizing g number with
  | nil => exact .ok g
  | cons node rest ih => exact (orderly_flow labels _ node).bind fun _ _ => ih _ _

theorem orderly_addRange (labels : List (Label × Nat)) (state : NodeGraph × List (Nat × List Nat))
    (entry : ProtectedRange × Nat)
    : Orderly (addRange labels state entry) := by
  refine (Orderly.lookUp labels _).bind fun _ _ => (Orderly.lookUp labels _).bind fun _ _ =>
    (Orderly.lookUp labels _).bind fun _ _ => ?_
  dsimp only
  split
  · exact .ok _
  · exact .ok _

theorem orderly_ofMethod (m : Method)
    : Orderly (ofMethod m) :=
  (orderly_addFlow _ _ 1 m.nodes).bind fun _ _ =>
    (Orderly.foldlM fun state entry _ => orderly_addRange _ state entry).bind fun _ _ => .ok _

end MethodGraph

namespace Plan

/-- The plan is about a method whose labels are placed at most once, and knows its graph. -/
structure Sound (p : Plan) : Prop where
  once : p.method.LabelsOnce
  models : MethodGraph.Models p.method p.graph
  places : p.places = MethodGraph.placedLabels 1 p.method.nodes
  declared : ∀ {n f}, p.method.node? n = some (.frame f) → (p.declared.lookup n).isSome = true

theorem graph_ofMethod {m : Method} {settings : Settings} {p : Plan}
    (h : Plan.ofMethod m settings = .ok p)
    : MethodGraph.ofMethod m = .ok p.graph := by
  obtain ⟨graph, hgraph, h⟩ := except_bind_eq_ok.mp h
  obtain ⟨_, -, h⟩ := except_bind_eq_ok.mp h
  obtain ⟨_, -, h⟩ := except_bind_eq_ok.mp h
  cases h
  exact hgraph

theorem sound_ofMethod {m : Method} (once : m.LabelsOnce) {settings : Settings} {p : Plan}
    (h : Plan.ofMethod m settings = .ok p)
    : p.method = m ∧ p.settings = settings ∧ p.Sound := by
  obtain ⟨graph, hgraph, h⟩ := except_bind_eq_ok.mp h
  obtain ⟨_, -, h⟩ := except_bind_eq_ok.mp h
  obtain ⟨declared, hdeclared, h⟩ := except_bind_eq_ok.mp h
  cases h
  refine ⟨rfl, rfl, once, MethodGraph.models_ofMethod once hgraph, rfl, fun hn => ?_⟩
  obtain ⟨i, rfl, hi⟩ := Method.node?_eq_some.mp hn
  rw [Nat.add_comm]
  exact DeclaredTypes.lookup_ofNodes hdeclared hi

theorem orderly_ofMethod (m : Method) (settings : Settings)
    : Orderly (Plan.ofMethod m settings) :=
  (MethodGraph.orderly_ofMethod m).bind fun _ _ =>
    (Orderly.mapM fun _ _ => (Orderly.lookUp _ _).bind fun _ _ =>
      (Orderly.lookUp _ _).bind fun _ _ => .ok _).bind fun _ _ =>
        (DeclaredTypes.orderly_ofNodes m _ 1 _ m.nodes).bind fun _ _ => .ok _

theorem node?_eq (p : Plan) (number : Nat)
    : p.node? number = p.method.node? number := by
  cases number <;> rfl

end Plan

-- Predecessors

theorem eq_singleton_of_ascending {l : List Nat} {n : Nat} (ascending : l.Pairwise (· < ·))
    (hne : l ≠ []) (hall : ∀ m ∈ l, m = n)
    : l = [n] := by
  obtain ⟨first, rest, rfl⟩ := List.exists_cons_of_ne_nil hne
  obtain rfl := hall first (by simp)
  cases rest with
  | nil => rfl
  | cons second rest =>
      have hlt := (List.pairwise_cons.mp ascending).1 second (by simp)
      have hsame := hall second (by simp)
      omega

namespace MethodGraph

variable {m : Method} {graph : MethodGraph} {n : Nat}

theorem predecessors_ne_nil {g : NodeGraph} (live : g.Reaches n) (hne : n ≠ NodeGraph.entry)
    : g.predecessors n ≠ [] := by
  rcases Relation.ReflTransGen.cases_tail live with same | ⟨u, -, edge⟩
  · exact absurd same hne
  · exact List.ne_nil_of_mem edge

/-- A live node that is no label is entered only from the node before it. -/
theorem Models.predecessors_eq (models : Models m graph) (live : graph.graph.Reaches n)
    {node : Node} (hn : m.node? n = some node) (hl : node.label? = none)
    : graph.graph.predecessors n = [n - 1] := by
  have hne : n ≠ NodeGraph.entry := by
    rintro rfl
    cases hn
  refine eq_singleton_of_ascending (models.ascending n) (predecessors_ne_nil live hne) ?_
  intro u hu
  have hhandler : m.isHandler n = false := by
    simp [Method.isHandler, Method.labelAt?, hn, hl]
  rcases models.edge hu with hflow | hh
  · cases hflow with
    | enters => rfl
    | falls => rfl
    | jumps _ _ hv =>
        rw [hn] at hv
        cases hv
        cases hl
  · rw [hhandler] at hh
    cases hh

/-- Edges lead to nodes of the stream. -/
theorem Models.isSome_node? (models : Models m graph) {u : Nat}
    (edge : u ∈ graph.graph.predecessors n)
    : (m.node? n).isSome = true := by
  rcases models.edge edge with hflow | hh
  · cases hflow with
    | enters hne => simpa [Method.node?, List.length_pos_iff] using hne
    | falls _ _ hlt => simpa [Method.node?] using hlt
    | jumps _ _ hv => rw [hv]; rfl
  · obtain ⟨r, -, hr⟩ := List.any_eq_true.mp hh
    rw [Method.labelAt?_eq_some.mp (of_decide_eq_true hr)]
    rfl

theorem Models.label_of_several (models : Models m graph)
    (h : graph.graph.hasSeveralPredecessors n = true)
    : ∃ l, m.node? n = some (.label l) := by
  have hlen : 1 < (graph.graph.predecessors n).length := by
    simpa [NodeGraph.hasSeveralPredecessors] using h
  obtain ⟨u, hu⟩ := List.exists_mem_of_length_pos (Nat.lt_trans Nat.one_pos hlen)
  obtain ⟨node, hn⟩ := Option.isSome_iff_exists.mp (models.isSome_node? hu)
  cases hl : node.label? with
  | none =>
      rw [models.predecessors_eq ((models.pruned.reached hu).step hu) hn hl] at hlen
      exact absurd hlen (Nat.lt_irrefl 1)
  | some l =>
      cases node <;> cases hl
      exact ⟨l, hn⟩

end MethodGraph

end StackLift
