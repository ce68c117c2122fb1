import Mathlib.Data.List.Sort
import StackLift.Proofs.MethodEdges

/-!
Methods that differ only in dead code. The edges from live nodes are the same, so the two methods
have the same graph.
-/

namespace StackLift

-- Exchanging nodes

/-- An instruction that makes no object, or a branch. -/
def Node.isExchangeable : Node → Bool
  | .plain (.new _) => false
  | .plain _ | .branch _ => true
  | .label _ | .line .. | .frame _ => false

/-- The nodes are the same, or may stand for each other in dead code. -/
def Node.Exchanged (a b : Node) : Prop :=
  a = b ∨ a.isExchangeable = true ∧ b.isExchangeable = true

namespace Method

/-- The node may stand in dead code in place of others: it makes no object, and the labels it jumps
to are placed.
-/
structure Replaceable (m : Method) (node : Node) : Prop where
  exchangeable : node.isExchangeable = true
  placed : ∀ l ∈ node.targets, (m.placeOf? l).isSome

/-- The methods have the same labels, tables and metadata, and nodes that differ only where they are
dead.
-/
structure DiffersInDeadCode (m m' : Method) : Prop where
  rest : m' = { m with nodes := m'.nodes }
  length : m'.nodes.length = m.nodes.length
  dead : ∀ n a b, m.node? n = some a → m'.node? n = some b →
    a = b ∨ m.Dead n ∧ m.Replaceable a ∧ m'.Replaceable b

end Method

namespace MethodGraph

variable {nodes nodes' : List Node} {labels : List (Label × Nat)} {g g' : NodeGraph}

theorem placedLabels_of_isExchangeable {node : Node} (h : node.isExchangeable = true) (number : Nat)
    (rest : List Node)
    : placedLabels number (node :: rest) = placedLabels (number + 1) rest := by
  cases node with
  | plain | branch => rfl
  | label | line | frame => cases h

theorem placedLabels_of_exchanged (h : List.Forall₂ Node.Exchanged nodes nodes') (number : Nat)
    : placedLabels number nodes' = placedLabels number nodes := by
  induction h generalizing number with
  | nil => rfl
  | @cons a b rest rest' hab _ ih =>
      rcases hab with rfl | ⟨ha, hb⟩
      · cases a <;> simp only [placedLabels, ih]
      · rw [placedLabels_of_isExchangeable ha, placedLabels_of_isExchangeable hb, ih]

end MethodGraph

-- Live nodes

namespace Method

variable {m m' : Method} {n : Nat}

/-- The edges from a node depend on the node, the places of labels and the exception table. -/
theorem Edge.congr {k u v : Nat} (hnode : m'.node? u = m.node? u)
    (hplaces : m'.placeOf? = m.placeOf?) (hranges : m'.ranges = m.ranges)
    (hlength : m'.nodes.length = m.nodes.length) (h : m.Edge k u v)
    : m'.Edge k u v := by
  have hguards : ∀ {r start stop handler}, m.Guards r start stop handler →
      m'.Guards r start stop handler :=
    fun guards => ⟨hplaces ▸ guards.startPlace, hplaces ▸ guards.stopPlace,
      hplaces ▸ guards.handlerPlace, guards.apart⟩
  induction h with
  | enters hne =>
      refine .enters (List.length_pos_iff.mp ?_)
      rw [hlength]
      exact List.length_pos_iff.mpr hne
  | falls hn hf hlt => exact .falls (hnode.trans hn) hf (hlength ▸ hlt)
  | jumps hn hl hv => exact .jumps (hnode.trans hn) hl (hplaces ▸ hv)
  | throws hi hr guards hle hlt => exact .throws hi (hranges ▸ hr) (hguards guards) hle hlt
  | approaches hi hr guards _ hout ih =>
      exact .approaches hi (hranges ▸ hr) (hguards guards) (ih hnode) hout

namespace DiffersInDeadCode

variable (h : m.DiffersInDeadCode m')
include h

theorem ranges
    : m'.ranges = m.ranges := by
  rw [h.rest]

theorem nodes
    : List.Forall₂ (fun a b => a = b ∨ m.Replaceable a ∧ m'.Replaceable b) m.nodes m'.nodes := by
  refine List.forall₂_iff_get.mpr ⟨h.length.symm, fun i hi hi' => ?_⟩
  have ha : m.node? (i + 1) = some (m.nodes.get ⟨i, hi⟩) := List.getElem?_eq_getElem hi
  have hb : m'.node? (i + 1) = some (m'.nodes.get ⟨i, hi'⟩) := List.getElem?_eq_getElem hi'
  exact (h.dead _ _ _ ha hb).imp id And.right

theorem exchanged
    : List.Forall₂ Node.Exchanged m.nodes m'.nodes :=
  h.nodes.imp fun _ _ hab => hab.imp id fun ⟨ha, hb⟩ => ⟨ha.exchangeable, hb.exchangeable⟩

theorem placedLabels
    : MethodGraph.placedLabels 1 m'.nodes = MethodGraph.placedLabels 1 m.nodes :=
  MethodGraph.placedLabels_of_exchanged h.exchanged 1

theorem placeOf?
    : m'.placeOf? = m.placeOf? := by
  unfold Method.placeOf?
  rw [h.placedLabels]

theorem node? (hlive : ¬ m.Dead n)
    : m'.node? n = m.node? n := by
  cases n with
  | zero => rfl
  | succ i =>
      by_cases hi : i < m.nodes.length
      · have hi' : i < m'.nodes.length := h.length ▸ hi
        have ha : m.node? (i + 1) = some m.nodes[i] := List.getElem?_eq_getElem hi
        have hb : m'.node? (i + 1) = some m'.nodes[i] := List.getElem?_eq_getElem hi'
        rcases h.dead _ _ _ ha hb with same | ⟨hdead, -⟩
        · rw [ha, hb, same]
        · exact absurd hdead hlive
      · have hnone : m.node? (i + 1) = none := List.getElem?_eq_none (Nat.le_of_not_lt hi)
        have hnone' : m'.node? (i + 1) = none :=
          List.getElem?_eq_none (h.length ▸ Nat.le_of_not_lt hi)
        rw [hnone, hnone']

/-- Control leaves a live node in the same ways. -/
theorem edge_iff {k v : Nat} (hlive : m.Reachable n)
    : m.Edge k n v ↔ m'.Edge k n v := by
  have hnode := h.node? fun hdead => hdead.2 hlive
  exact ⟨.congr hnode h.placeOf? h.ranges h.length,
    .congr hnode.symm h.placeOf?.symm h.ranges.symm h.length.symm⟩

end DiffersInDeadCode

end Method

-- Pruned graphs

namespace NodeGraph

variable {g g' : NodeGraph} {size : Nat} {R R' : Nat → Nat → Prop}

theorem reachable_congr (hR : ∀ u v, Relation.ReflTransGen R entry u → (R u v ↔ R' u v)) {n : Nat}
    : Relation.ReflTransGen R entry n ↔ Relation.ReflTransGen R' entry n := by
  constructor
  · intro path
    induction path with
    | refl => exact .refl
    | tail path edge ih => exact ih.tail ((hR _ _ path).mp edge)
  · intro path
    induction path with
    | refl => exact .refl
    | tail _ edge ih => exact ih.tail ((hR _ _ ih).mpr edge)

/-- Pruning removes all edges but those from nodes that can be reached. -/
theorem Edges.prune_congr (hg : g.Edges size R) (hg' : g'.Edges size R') (hsize : 0 < size)
    (hbound : ∀ {u v}, R u v → u < size) (hbound' : ∀ {u v}, R' u v → u < size)
    (hR : ∀ u v, Relation.ReflTransGen R entry u → (R u v ↔ R' u v))
    : g.prune = g'.prune := by
  have hpos : 0 < g.size := hg.size ▸ hsize
  have hpos' : 0 < g'.size := hg'.size ▸ hsize
  have hreach : ∀ {n}, g.Reaches n ↔ g'.Reaches n := by
    intro n
    rw [hg.reaches, hg'.reaches, reachable_congr hR]
  have hsame : g.size = g'.size := hg.size.trans hg'.size.symm
  refine ext_predecessors ?_ (fun v => ?_) ?_
  · rw [size_prune, size_prune, hsame]
  · have hmem : ∀ u, u ∈ g.prune.predecessors v ↔ u ∈ g'.prune.predecessors v := by
      intro u
      rw [mem_predecessors_prune hpos hg.dead_subset fun hu => hg.size ▸ hbound (hg.mem.mp hu),
        mem_predecessors_prune hpos' hg'.dead_subset fun hu => hg'.size ▸ hbound' (hg'.mem.mp hu),
        hg.mem, hg'.mem, ← hreach]
      exact and_congr_left fun hu => hR u v (hg.reaches.mp hu)
    have hsorted := (hg.ascending v).sublist (g.predecessors_prune_sublist v)
    have hsorted' := (hg'.ascending v).sublist (g'.predecessors_prune_sublist v)
    exact hsorted.eq_of_mem_iff hsorted' hmem
  · have hunreachable : g.unreachable = g'.unreachable :=
      unreachable_congr hpos' hsame fun n => hreach
    rw [dead_prune, dead_prune, hunreachable, hg.dead, hg'.dead]

end NodeGraph

-- Graphs of methods

namespace MethodGraph

variable {m m' : Method} {nodes nodes' : List Node} {labels : List (Label × Nat)}

/-- The labels that a node jumps to are known. -/
def Resolves (labels : List (Label × Nat)) (node : Node) : Prop :=
  ∀ l ∈ node.targets, ∃ v, lookUp labels l = .ok v

theorem exists_mapM_lookUp {ls : List Label} (h : ∀ l ∈ ls, ∃ v, lookUp labels l = .ok v)
    : ∃ targets, ls.mapM (lookUp labels) = .ok targets := by
  induction ls with
  | nil => exact ⟨[], rfl⟩
  | cons l rest ih =>
      obtain ⟨v, hv⟩ := h l List.mem_cons_self
      obtain ⟨targets, ht⟩ := ih fun l' hl' => h l' (List.mem_cons_of_mem l hl')
      exact ⟨v :: targets, by rw [List.mapM_cons, hv, ht]; rfl⟩

theorem Resolves.exists_flow {node : Node} (h : Resolves labels node) (next : List Nat)
    : ∃ targets, flow labels next node = .ok targets := by
  cases node with
  | branch b =>
      obtain ⟨targets, ht⟩ := exists_mapM_lookUp h
      unfold flow
      dsimp only
      split
      · exact ⟨[], rfl⟩
      · exact ⟨_, except_bind_eq_ok.mpr ⟨targets, ht, rfl⟩⟩
  | _ => exact ⟨next, rfl⟩

/-- Whether the edges can be added does not depend on nodes that jump to known labels. -/
theorem addFlow_outcome
    (h : List.Forall₂ (fun a b => a = b ∨ Resolves labels a ∧ Resolves labels b) nodes nodes')
    (g g' : NodeGraph) (number : Nat)
    : (fun _ => ()) <$> addFlow labels g number nodes
      = (fun _ => ()) <$> addFlow labels g' number nodes' := by
  induction h generalizing g g' number with
  | nil => rfl
  | @cons a b rest rest' hab hrest ih =>
      rcases hab with rfl | ⟨ha, hb⟩
      · have hempty : rest.isEmpty = rest'.isEmpty := by
          cases hrest <;> rfl
        simp only [addFlow, hempty]
        cases flow labels (if rest'.isEmpty then [] else [number + 1]) a with
        | error e => rfl
        | ok targets => exact ih _ _ _
      · obtain ⟨targets, ht⟩ := ha.exists_flow (if rest.isEmpty then [] else [number + 1])
        obtain ⟨targets', ht'⟩ := hb.exists_flow (if rest'.isEmpty then [] else [number + 1])
        simp only [addFlow, ht, ht']
        exact ih _ _ _

/-- The handlers do not depend on the edges. -/
theorem addRange_handlers (g g' : NodeGraph) (handlers : List (Nat × List Nat))
    (entry : ProtectedRange × Nat)
    : Prod.snd <$> addRange labels (g, handlers) entry
      = Prod.snd <$> addRange labels (g', handlers) entry := by
  unfold addRange
  cases lookUp labels entry.1.start with
  | error e => rfl
  | ok start =>
      cases lookUp labels entry.1.stop with
      | error e => rfl
      | ok stop =>
          cases lookUp labels entry.1.handler with
          | error e => rfl
          | ok handler =>
              change Prod.snd <$> ite _ _ _ = Prod.snd <$> ite _ _ _
              split <;> rfl

theorem foldlM_addRange_handlers (entries : List (ProtectedRange × Nat)) (g g' : NodeGraph)
    (handlers : List (Nat × List Nat))
    : Prod.snd <$> entries.foldlM (addRange labels) (g, handlers)
      = Prod.snd <$> entries.foldlM (addRange labels) (g', handlers) := by
  induction entries generalizing g g' handlers with
  | nil => rfl
  | cons entry rest ih =>
      rw [List.foldlM_cons, List.foldlM_cons]
      rcases except_map_eq_map.mp (addRange_handlers g g' handlers entry)
        with ⟨e, hs, hs'⟩ | ⟨⟨g₁, handlers₁⟩, ⟨g₁', handlers₁'⟩, hs, hs', hsame⟩
      · rw [hs, hs']
      · cases hsame
        rw [hs, hs']
        exact ih g₁ g₁' handlers₁

theorem resolves_of_replaceable {node : Node} (h : m.Replaceable node)
    : Resolves (placedLabels 1 m.nodes) node := by
  intro l hl
  obtain ⟨v, hv⟩ := Option.isSome_iff_exists.mp (h.placed l hl)
  exact ⟨v, lookUp_eq_ok_iff.mpr hv⟩

theorem ofMethod_eq (m : Method)
    : ofMethod m
      = addFlow (placedLabels 1 m.nodes) (startGraph m) 1 m.nodes >>= fun g =>
          m.ranges.zipIdx.foldlM (addRange (placedLabels 1 m.nodes)) (g, []) >>= fun s =>
            .ok {
              graph := s.1.prune
              labels := liveLabels s.1.prune (placedLabels 1 m.nodes)
              handlers := s.2 } :=
  rfl

/-- Dead code has no influence on the graph of a method. -/
theorem ofMethod_congr (h : m.DiffersInDeadCode m')
    : ofMethod m = ofMethod m' := by
  have hnodes := h.nodes.imp fun a b hab => hab.imp id fun ⟨ha, hb⟩ =>
    And.intro (resolves_of_replaceable ha) (h.placedLabels ▸ resolves_of_replaceable hb)
  rw [ofMethod_eq, ofMethod_eq, h.placedLabels, h.ranges]
  rcases except_map_eq_map.mp (addFlow_outcome hnodes (startGraph m) (startGraph m') 1)
    with ⟨e, hflow, hflow'⟩ | ⟨g₁, g₁', hflow, hflow', -⟩
  · rw [hflow, hflow']
  · rw [hflow, hflow']
    dsimp only [bind, Except.bind]
    rcases except_map_eq_map.mp (foldlM_addRange_handlers m.ranges.zipIdx g₁ g₁' [])
      with ⟨e, hranges, hranges'⟩ | ⟨⟨g₂, handlers⟩, ⟨g₂', handlers'⟩, hranges, hranges', hsame⟩
    · rw [hranges, hranges']
    · cases hsame
      rw [hranges, hranges']
      rw [← h.placedLabels] at hflow' hranges'
      have hg := edges_foldlM_addRange List.drop_zero (edges_addFlow_start hflow) hranges
      have hg' := edges_foldlM_addRange (congrArg (List.drop 0) h.ranges)
        (edges_addFlow_start hflow') hranges'
      rw [Nat.zero_add] at hg hg'
      rw [h.length] at hg'
      have hprune := hg.prune_congr hg' (Nat.succ_pos _)
        (fun hedge => Nat.lt_succ_of_le hedge.source_le)
        (fun hedge => Nat.lt_succ_of_le (h.length ▸ hedge.source_le)) fun u v hu => h.edge_iff hu
      dsimp only
      rw [hprune]

end MethodGraph

end StackLift
