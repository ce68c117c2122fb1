import StackLift.Proofs.MethodFlow

/-!
The edges of a method, stated on its nodes and its exception table. The graph of a method has them
for edges until it is pruned, so a node is marked dead if they lead no path to it from the entry.
-/

namespace StackLift

namespace Method

variable {m m' : Method}

-- Edges

/-- The node at which a jump to a label arrives, the last one of the label. -/
def placeOf? (m : Method) (label : Label) : Option Nat :=
  (MethodGraph.placedLabels 1 m.nodes).reverse.lookup label

/-- The nodes of the bounds and of the handler of a protected range that does not start with its
own handler.
-/
structure Guards (m : Method) (r : ProtectedRange) (start stop handler : Nat) : Prop where
  startPlace : m.placeOf? r.start = some start
  stopPlace : m.placeOf? r.stop = some stop
  handlerPlace : m.placeOf? r.handler = some handler
  apart : start ≠ handler

/-- Control can go from one node to another, as far as the given number of entries of the exception
table are concerned. An entry leads to its handler from the nodes that it protects, and from the
nodes outside from which control reaches the first of them.
-/
inductive Edge (m : Method) : (entries : Nat) → Nat → Nat → Prop where
  | enters {k : Nat} : m.nodes ≠ [] → Edge m k NodeGraph.entry 1
  | falls {k n : Nat} {node : Node} : m.node? n = some node → node.fallsThrough = true →
      n < m.nodes.length → Edge m k n (n + 1)
  | jumps {k n v : Nat} {node : Node} {l : Label} : m.node? n = some node → l ∈ node.targets →
      m.placeOf? l = some v → Edge m k n v
  | throws {k i n start stop handler : Nat} {r : ProtectedRange} : i < k → m.ranges[i]? = some r →
      m.Guards r start stop handler → start ≤ n → n < stop → Edge m k n handler
  | approaches {k i n start stop handler : Nat} {r : ProtectedRange} : i < k →
      m.ranges[i]? = some r → m.Guards r start stop handler → Edge m i n start →
      n < start ∨ stop < n → Edge m k n handler

/-- A path of edges leads from the entry to the node. -/
def Reachable (m : Method) (n : Nat) : Prop :=
  Relation.ReflTransGen (m.Edge m.ranges.length) NodeGraph.entry n

/-- The node exists and cannot be reached. -/
def Dead (m : Method) (n : Nat) : Prop :=
  n ≤ m.nodes.length ∧ ¬ m.Reachable n

theorem node?_of_placeOf? {l : Label} {n : Nat} (h : m.placeOf? l = some n)
    : m.node? n = some (.label l) :=
  MethodGraph.mem_placedLabels_iff.mp (List.mem_reverse.mp (mem_of_lookup h))

namespace Edge

variable {k k' u v : Nat}

theorem source_le (h : m.Edge k u v)
    : u ≤ m.nodes.length := by
  induction h with
  | enters => exact Nat.zero_le _
  | falls hn _ _ => exact le_length_of_node? hn
  | jumps hn _ _ => exact le_length_of_node? hn
  | throws _ _ guards _ hlt =>
      have := le_length_of_node? (node?_of_placeOf? guards.stopPlace)
      omega
  | approaches _ _ _ _ _ ih => exact ih

/-- More entries add edges and remove none. -/
theorem mono (h : m.Edge k u v) (hk : k ≤ k')
    : m.Edge k' u v := by
  cases h with
  | enters hne => exact .enters hne
  | falls hn hf hlt => exact .falls hn hf hlt
  | jumps hn hl hv => exact .jumps hn hl hv
  | throws hi hr guards hle hlt => exact .throws (Nat.lt_of_lt_of_le hi hk) hr guards hle hlt
  | approaches hi hr guards hedge hout =>
      exact .approaches (Nat.lt_of_lt_of_le hi hk) hr guards hedge hout

/-- An edge is one of those without the last entry, or leads to the handler of this entry. -/
theorem of_succ (h : m.Edge (k + 1) u v)
    : m.Edge k u v ∨ ∃ r start stop, m.ranges[k]? = some r ∧ m.Guards r start stop v
        ∧ (start ≤ u ∧ u < stop ∨ m.Edge k u start ∧ (u < start ∨ stop < u)) := by
  cases h with
  | enters hne => exact .inl (.enters hne)
  | falls hn hf hlt => exact .inl (.falls hn hf hlt)
  | jumps hn hl hv => exact .inl (.jumps hn hl hv)
  | @throws _ i _ _ _ _ r hi hr guards hle hlt =>
      rcases Nat.lt_succ_iff_lt_or_eq.mp hi with hi | rfl
      · exact .inl (.throws hi hr guards hle hlt)
      · exact .inr ⟨r, _, _, hr, guards, .inl ⟨hle, hlt⟩⟩
  | @approaches _ i _ _ _ _ r hi hr guards hedge hout =>
      rcases Nat.lt_succ_iff_lt_or_eq.mp hi with hi | rfl
      · exact .inl (.approaches hi hr guards hedge hout)
      · exact .inr ⟨r, _, _, hr, guards, .inr ⟨hedge, hout⟩⟩

end Edge

end Method

namespace MethodGraph

variable {m : Method} {g g' : NodeGraph} {handlers handlers' : List (Nat × List Nat)}

theorem lookUp_eq_ok_iff {l : Label} {n : Nat}
    : lookUp (placedLabels 1 m.nodes) l = .ok n ↔ m.placeOf? l = some n := by
  unfold lookUp Method.placeOf?
  cases (placedLabels 1 m.nodes).reverse.lookup l <;> simp

-- The graph before it is pruned

theorem edges_addFlow_start
    (h : addFlow (placedLabels 1 m.nodes) (startGraph m) 1 m.nodes = .ok g)
    : g.Edges (m.nodes.length + 1) (m.Edge 0) := by
  refine (edges_addFlow (fun _ => placedLabels_lt) (edges_startGraph m) (by omega) h).congr
    fun u v => ?_
  constructor
  · intro hedge
    rcases hedge with ⟨hne, rfl, rfl⟩ | ⟨i, node, rfl, hi, ⟨hf, rfl, hlt⟩ | ⟨l, hl, hv⟩⟩
    · exact .enters hne
    · exact .falls (Method.node?_eq_some.mpr ⟨i, Nat.add_comm 1 i, hi⟩) hf (by omega)
    · exact .jumps (Method.node?_eq_some.mpr ⟨i, Nat.add_comm 1 i, hi⟩) hl (lookUp_eq_ok_iff.mp hv)
  · intro hedge
    cases hedge with
    | enters hne => exact .inl ⟨hne, rfl, rfl⟩
    | falls hn hf hlt =>
        obtain ⟨i, rfl, hi⟩ := Method.node?_eq_some.mp hn
        exact .inr ⟨i, _, Nat.add_comm i 1, hi, .inl ⟨hf, by omega, by omega⟩⟩
    | jumps hn hl hv =>
        obtain ⟨i, rfl, hi⟩ := Method.node?_eq_some.mp hn
        exact .inr ⟨i, _, Nat.add_comm i 1, hi, .inr ⟨_, hl, lookUp_eq_ok_iff.mpr hv⟩⟩
    | throws hi => exact absurd hi (Nat.not_lt_zero _)
    | approaches hi => exact absurd hi (Nat.not_lt_zero _)

theorem edges_addRange {r : ProtectedRange} {k : Nat} (hr : m.ranges[k]? = some r)
    (hg : g.Edges (m.nodes.length + 1) (m.Edge k))
    (h : addRange (placedLabels 1 m.nodes) (g, handlers) (r, k) = .ok (g', handlers'))
    : g'.Edges (m.nodes.length + 1) (m.Edge (k + 1)) := by
  obtain ⟨start, stop, handler, hs, ht, hv, -, hg'⟩ := addRange_eq_ok h
  rw [lookUp_eq_ok_iff] at hs ht hv
  have hplace : ∀ {r' start' stop' v}, m.ranges[k]? = some r' → m.Guards r' start' stop' v →
      start' = start ∧ stop' = stop ∧ v = handler := by
    intro r' start' stop' v hr' guards
    cases hr.symm.trans hr'
    exact ⟨Option.some.inj (guards.startPlace.symm.trans hs),
      Option.some.inj (guards.stopPlace.symm.trans ht),
      Option.some.inj (guards.handlerPlace.symm.trans hv)⟩
  rcases hg' with ⟨same, rfl⟩ | ⟨apart, rfl⟩
  · -- The entry protects its own handler and adds no edge.
    refine hg.congr fun u v => ⟨fun hedge => hedge.mono (Nat.le_succ k), fun hedge => ?_⟩
    rcases hedge.of_succ with hedge | ⟨r', start', stop', hr', guards, -⟩
    · exact hedge
    · obtain ⟨rfl, -, rfl⟩ := hplace hr' guards
      exact absurd same guards.apart
  · have hlt : handler < m.nodes.length + 1 :=
      Nat.lt_succ_of_le (Method.le_length_of_node? (Method.node?_of_placeOf? hv))
    have hinner := hg.addEdges (List.range' start (stop - start)) hlt
    have guards : m.Guards r start stop handler := ⟨hs, ht, hv, apart⟩
    have hrange : ∀ u, u ∈ List.range' start (stop - start) ↔ start ≤ u ∧ u < stop := by
      intro u
      rw [List.mem_range'_1]
      omega
    refine (hinner.addEdges _ hlt).congr fun u v => ?_
    simp only [List.mem_filter, hinner.mem, hrange, Bool.or_eq_true, decide_eq_true_eq]
    constructor
    · intro hedge
      rcases hedge with (hedge | ⟨⟨hle, hstop⟩, rfl⟩) | ⟨⟨hedge | ⟨-, same⟩, hout⟩, rfl⟩
      · exact hedge.mono (Nat.le_succ k)
      · exact .throws (Nat.lt_succ_self k) hr guards hle hstop
      · exact .approaches (Nat.lt_succ_self k) hr guards hedge hout
      · exact absurd same apart
    · intro hedge
      rcases hedge.of_succ with hedge | ⟨r', start', stop', hr', guards', hcase⟩
      · exact .inl (.inl hedge)
      · obtain ⟨rfl, rfl, rfl⟩ := hplace hr' guards'
        rcases hcase with hinside | ⟨hedge, hout⟩
        · exact .inl (.inr ⟨hinside, rfl⟩)
        · exact .inr ⟨⟨.inl hedge, hout⟩, rfl⟩

theorem edges_foldlM_addRange {k : Nat} {entries : List ProtectedRange}
    (hentries : m.ranges.drop k = entries) (hg : g.Edges (m.nodes.length + 1) (m.Edge k))
    (h : (entries.zipIdx k).foldlM (addRange (placedLabels 1 m.nodes)) (g, handlers)
      = .ok (g', handlers'))
    : g'.Edges (m.nodes.length + 1) (m.Edge (k + entries.length)) := by
  induction entries generalizing k g handlers with
  | nil =>
      cases h
      exact hg
  | cons r rest ih =>
      rw [List.zipIdx_cons, List.foldlM_cons] at h
      obtain ⟨⟨g₁, handlers₁⟩, h₁, h⟩ := except_bind_eq_ok.mp h
      have hr : m.ranges[k]? = some r := by
        rw [← Nat.add_zero k, ← List.getElem?_drop, hentries]
        rfl
      have hrest : m.ranges.drop (k + 1) = rest := by
        rw [← List.tail_drop, hentries, List.tail_cons]
      have hlast := ih hrest (edges_addRange hr hg h₁) h
      rwa [Nat.add_assoc, Nat.add_comm 1] at hlast

/-- Before the graph of a method is pruned, it has the edges of the method. -/
theorem exists_edges_of_ofMethod {graph : MethodGraph} (h : ofMethod m = .ok graph)
    : ∃ g : NodeGraph, graph.graph = g.prune
        ∧ g.Edges (m.nodes.length + 1) (m.Edge m.ranges.length) := by
  obtain ⟨g₁, h₁, h⟩ := except_bind_eq_ok.mp h
  obtain ⟨⟨g₂, handlers⟩, h₂, h⟩ := except_bind_eq_ok.mp h
  cases h
  have hg₂ := edges_foldlM_addRange List.drop_zero (edges_addFlow_start h₁) h₂
  rw [Nat.zero_add] at hg₂
  exact ⟨g₂, rfl, hg₂⟩

end MethodGraph

namespace NodeGraph

variable {g : NodeGraph} {size : Nat} {R : Nat → Nat → Prop}

theorem Edges.reaches (h : g.Edges size R) {n : Nat}
    : g.Reaches n ↔ Relation.ReflTransGen R entry n := by
  simp only [Reaches, h.mem]

theorem Edges.pruned_prune (h : g.Edges size R) (hsize : 0 < size)
    (hbound : ∀ {u v}, R u v → u < size)
    : g.prune.Pruned ∧ ∀ {n}, g.prune.Reaches n ↔ Relation.ReflTransGen R entry n := by
  have hpos : 0 < g.size := h.size ▸ hsize
  have hsource : ∀ {u v}, u ∈ g.predecessors v → u < g.size :=
    fun hu => h.size ▸ hbound (h.mem.mp hu)
  exact ⟨NodeGraph.pruned_prune hpos h.dead_subset hsource,
    (reaches_prune hpos h.dead_subset hsource).trans h.reaches⟩

end NodeGraph

namespace MethodGraph

variable {m : Method} {graph : MethodGraph}

theorem pruned_of_ofMethod (h : ofMethod m = .ok graph)
    : graph.graph.Pruned ∧ ∀ {n}, graph.graph.Reaches n ↔ m.Reachable n := by
  obtain ⟨g, hprune, hg⟩ := exists_edges_of_ofMethod h
  rw [hprune]
  exact hg.pruned_prune (Nat.succ_pos _) fun hedge => Nat.lt_succ_of_le hedge.source_le

/-- The graph of a method marks the dead nodes. -/
theorem isDead_iff (h : ofMethod m = .ok graph) {n : Nat}
    : graph.graph.isDead n = true ↔ m.Dead n := by
  obtain ⟨g, hprune, hg⟩ := exists_edges_of_ofMethod h
  have hsize : graph.graph.size = m.nodes.length + 1 := by
    rw [hprune, NodeGraph.size_prune, hg.size]
  obtain ⟨pruned, hreaches⟩ := pruned_of_ofMethod h
  rw [pruned.dead, hreaches, hsize, Nat.lt_succ_iff]
  rfl

end MethodGraph

end StackLift
