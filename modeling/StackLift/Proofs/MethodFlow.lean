import StackLift.Proofs.Reachability
import StackLift.Proofs.SimulationOrder

/-!
The edges of the graph of a method. Control falls through, jumps to labels, and reaches handlers
when an exception is thrown.
-/

namespace StackLift

open Method

-- Flow of control

theorem Branch.isTerminal_of_fallsThrough {b : Branch} (h : b.fallsThrough = true)
    : b.isTerminal = false := by
  cases b <;> first | rfl | cases h

theorem Branch.targets_of_isTerminal {b : Branch} (h : b.isTerminal = true)
    : b.targets = [] := by
  cases b <;> first | rfl | cases h

namespace Method

variable {m : Method} {n : Nat} {l : Label}

/-- The node with the given number; the entry is none. -/
def node? (m : Method) : (number : Nat) → Option Node
  | 0 => none
  | n + 1 => m.nodes[n]?

/-- Each label is placed at most once. -/
def LabelsOnce (m : Method) : Prop :=
  (m.nodes.filterMap Node.label?).Nodup

instance (m : Method) : Decidable m.LabelsOnce :=
  inferInstanceAs (Decidable (List.Nodup _))

/-- Control can go from one node to another without an exception. -/
inductive Flow (m : Method) : Nat → Nat → Prop where
  | enters : m.nodes ≠ [] → Flow m NodeGraph.entry 1
  | falls {n : Nat} {node : Node} : m.node? n = some node → node.fallsThrough = true →
      n < m.nodes.length → Flow m n (n + 1)
  | jumps {n v : Nat} {node : Node} {l : Label} : m.node? n = some node → l ∈ node.targets →
      m.node? v = some (.label l) → Flow m n v

theorem node?_eq_some {node : Node}
    : m.node? n = some node ↔ ∃ i, n = i + 1 ∧ m.nodes[i]? = some node := by
  cases n with
  | zero => simp [node?]
  | succ n => simp [node?]

/-- The label that stands at a node. -/
def labelAt? (m : Method) (number : Nat) : Option Label :=
  (m.node? number).bind Node.label?

theorem labelAt?_eq_some
    : m.labelAt? n = some l ↔ m.node? n = some (.label l) := by
  simp only [labelAt?, Option.bind_eq_some_iff]
  constructor
  · rintro ⟨node, hn, hl⟩
    cases node <;> cases hl
    exact hn
  · exact fun hn => ⟨_, hn, rfl⟩

/-- The entry goes to the first node, and a node goes on or jumps. -/
theorem flow_iff {u v : Nat}
    : m.Flow u v ↔ (u = NodeGraph.entry ∧ v = 1 ∧ 0 < m.nodes.length)
      ∨ ∃ node ∈ m.node? u, (node.fallsThrough = true ∧ u < m.nodes.length ∧ v = u + 1)
        ∨ ∃ l ∈ node.targets, m.labelAt? v = some l := by
  constructor
  · intro flow
    cases flow with
    | enters hne => exact .inl ⟨rfl, rfl, List.length_pos_iff.mpr hne⟩
    | falls hnode hfalls hlt => exact .inr ⟨_, hnode, .inl ⟨hfalls, hlt, rfl⟩⟩
    | jumps hnode hl hv => exact .inr ⟨_, hnode, .inr ⟨_, hl, labelAt?_eq_some.mpr hv⟩⟩
  · rintro (⟨rfl, rfl, hpos⟩ | ⟨node, hnode, ⟨hfalls, hlt, rfl⟩ | ⟨l, hl, hv⟩⟩)
    · exact .enters (List.length_pos_iff.mp hpos)
    · exact .falls hnode hfalls hlt
    · exact .jumps hnode hl (labelAt?_eq_some.mp hv)

instance (m : Method) (u v : Nat) : Decidable (m.Flow u v) :=
  decidable_of_iff _ flow_iff.symm

/-- Is the node the handler of an entry of the exception table? -/
def isHandler (m : Method) (number : Nat) : Bool :=
  m.ranges.any fun r => m.labelAt? number = some r.handler

/-- The entries of the exception table that a node handles, without those that protect their own
handler.
-/
def handledAt (m : Method) (number : Nat) : List ProtectedRange :=
  m.ranges.filter fun r => m.labelAt? number = some r.handler && r.start ≠ r.handler

theorem le_length_of_node? {node : Node} (h : m.node? n = some node)
    : n ≤ m.nodes.length := by
  obtain ⟨i, rfl, hi⟩ := node?_eq_some.mp h
  exact (List.getElem?_eq_some_iff.mp hi).1

theorem Flow.exists_node {u v : Nat} (h : m.Flow u v)
    : ∃ node, m.node? v = some node := by
  cases h with
  | enters hne => exact ⟨_, List.getElem?_eq_getElem (List.length_pos_iff.mpr hne)⟩
  | falls _ _ hlt => exact ⟨_, List.getElem?_eq_getElem hlt⟩
  | jumps _ _ hv => exact ⟨_, hv⟩

theorem flow_of_straight {u v : Nat} (hu : u ≤ m.nodes.length)
    (hb : ∀ b, m.node? u ≠ some (.branch b))
    : m.Flow u v ↔ v = u + 1 ∧ u < m.nodes.length := by
  constructor
  · intro h
    cases h with
    | enters hne => exact ⟨rfl, List.length_pos_iff.mpr hne⟩
    | falls _ _ hlt => exact ⟨rfl, hlt⟩
    | @jumps _ _ node l hn hl _ =>
        cases node with
        | branch b => exact (hb b hn).elim
        | _ => cases hl
  · rintro ⟨rfl, hlt⟩
    cases u with
    | zero => exact .enters (List.length_pos_iff.mp hlt)
    | succ i =>
        have hn : m.node? (i + 1) = some m.nodes[i] := List.getElem?_eq_getElem hu
        refine .falls hn ?_ hlt
        cases hnode : m.nodes[i] with
        | branch b => exact (hb b (hnode ▸ hn)).elim
        | _ => rfl

theorem flow_of_branch {u v : Nat} {b : Branch} (hu : m.node? u = some (.branch b))
    : m.Flow u v ↔ (b.fallsThrough = true ∧ v = u + 1 ∧ u < m.nodes.length)
        ∨ ∃ l ∈ b.targets, m.node? v = some (.label l) := by
  constructor
  · intro h
    cases h with
    | enters => cases hu
    | falls hn hf hlt =>
        cases hu.symm.trans hn
        exact .inl ⟨hf, rfl, hlt⟩
    | jumps hn hl hv =>
        cases hu.symm.trans hn
        exact .inr ⟨_, hl, hv⟩
  · rintro (⟨hf, rfl, hlt⟩ | ⟨l, hl, hv⟩)
    · exact .falls hu hf hlt
    · exact .jumps hu hl hv

end Method

namespace NodeGraph

variable {g : NodeGraph} {size : Nat} {R R' : Nat → Nat → Prop}

-- Building graphs

/-- A graph before it is pruned, with the given number of nodes and the given edges. -/
structure Edges (g : NodeGraph) (size : Nat) (R : Nat → Nat → Prop) : Prop where
  size : g.size = size
  dead : g.dead = []
  ascending : ∀ v, (g.predecessors v).Pairwise (· < ·)
  mem : ∀ {u v}, u ∈ g.predecessors v ↔ R u v

theorem Edges.congr (h : g.Edges size R) (hR : ∀ u v, R u v ↔ R' u v)
    : g.Edges size R' :=
  { h with mem := h.mem.trans (hR _ _) }

theorem Edges.dead_subset (h : g.Edges size R)
    : g.dead ⊆ g.unreachable := by
  simp [h.dead]

theorem edges_empty (size : Nat)
    : (empty size).Edges size fun _ _ => False :=
  ⟨by simp [empty, NodeGraph.size], rfl, by simp [predecessors_empty],
    by simp [predecessors_empty]⟩

theorem Edges.addEdge (h : g.Edges size R) {source target : Nat} (ht : target < size)
    : (g.addEdge source target).Edges size fun u v => R u v ∨ u = source ∧ v = target where
  size := by simpa [NodeGraph.addEdge, NodeGraph.size] using h.size
  dead := h.dead
  ascending v := by
    rw [predecessors_addEdge g (h.size ▸ ht)]
    split
    · exact ascending_insertAscending (h.ascending v)
    · exact h.ascending v
  mem {u v} := by
    rw [predecessors_addEdge g (h.size ▸ ht)]
    split
    next same => simp [mem_insertAscending, h.mem, same, or_comm]
    next other => simp [h.mem, other]

theorem Edges.foldl_addEdge {α : Type} {l : List α} {source target : α → Nat}
    (h : g.Edges size R) (ht : ∀ a ∈ l, target a < size)
    : (l.foldl (fun g a => g.addEdge (source a) (target a)) g).Edges size
        fun u v => R u v ∨ ∃ a ∈ l, u = source a ∧ v = target a := by
  induction l generalizing g R with
  | nil => exact h.congr (by simp)
  | cons a rest ih =>
      refine (ih (h.addEdge (ht a (by simp))) fun b hb => ht b (by simp [hb])).congr ?_
      simp [or_assoc]

theorem Edges.addEdges (h : g.Edges size R) (sources : List Nat) {target : Nat}
    (ht : target < size)
    : (g.addEdges sources target).Edges size fun u v => R u v ∨ u ∈ sources ∧ v = target :=
  (@foldl_addEdge g size R Nat sources id (fun _ => target) h fun _ _ => ht).congr (by simp)

end NodeGraph

/-- Looking up a key that is listed once. -/
theorem lookup_eq_some_of_nodup {α β : Type} [BEq α] [LawfulBEq α] {l : List (α × β)}
    (hnodup : (l.map Prod.fst).Nodup) {a : α} {b : β}
    : l.lookup a = some b ↔ (a, b) ∈ l := by
  refine ⟨mem_of_lookup, fun h => ?_⟩
  induction l with
  | nil => cases h
  | cons entry rest ih =>
      obtain ⟨hentry, hrest⟩ := List.nodup_cons.mp hnodup
      rcases List.mem_cons.mp h with rfl | h
      · simp
      · have hne : a ≠ entry.1 := fun same => hentry (same ▸ List.mem_map_of_mem h)
        rw [List.lookup_cons, beq_eq_false_iff_ne.mpr hne]
        exact ih hrest h

namespace MethodGraph

variable {m : Method} {labels : List (Label × Nat)} {g g' : NodeGraph} {size : Nat}
  {R : Nat → Nat → Prop}

-- Places of labels

theorem mem_placedLabels {number : Nat} {nodes : List Node}
    : (l, n) ∈ placedLabels number nodes
      ↔ ∃ i, n = number + i ∧ nodes[i]? = some (.label l) := by
  fun_induction placedLabels with
  | case1 => simp
  | case2 number l' rest ih =>
      rw [List.mem_cons, ih]
      constructor
      · rintro (h | ⟨i, rfl, hi⟩)
        · cases h
          exact ⟨0, rfl, rfl⟩
        · exact ⟨i + 1, by omega, hi⟩
      · rintro ⟨i, rfl, hi⟩
        cases i with
        | zero =>
            cases hi
            exact .inl rfl
        | succ i => exact .inr ⟨i, by omega, hi⟩
  | case3 number node rest hnode ih =>
      rw [ih]
      constructor
      · rintro ⟨i, rfl, hi⟩
        exact ⟨i + 1, by omega, hi⟩
      · rintro ⟨i, rfl, hi⟩
        cases i with
        | zero =>
            cases hi
            exact (hnode l rfl).elim
        | succ i => exact ⟨i, by omega, hi⟩

theorem map_fst_placedLabels (number : Nat) (nodes : List Node)
    : (placedLabels number nodes).map Prod.fst = nodes.filterMap Node.label? := by
  fun_induction placedLabels with
  | case1 => rfl
  | case2 number l rest ih => simp [Node.label?, ih]
  | case3 number node rest hnode ih =>
      have hnone : node.label? = none := by
        cases node with
        | label l => exact (hnode l rfl).elim
        | _ => rfl
      rw [List.filterMap_cons_none hnone, ih]

theorem lookUp_eq_ok (hnodup : (labels.map Prod.fst).Nodup)
    : lookUp labels l = .ok n ↔ (l, n) ∈ labels := by
  have hreverse : (labels.reverse.map Prod.fst).Nodup := by
    rwa [List.map_reverse, List.nodup_reverse]
  rw [← List.mem_reverse, ← lookup_eq_some_of_nodup hreverse, lookUp]
  cases labels.reverse.lookup l <;> simp

theorem liveLabels_eq (hnodup : (labels.map Prod.fst).Nodup)
    : liveLabels g labels = labels.filter fun l => !g.isDead l.2 := by
  refine List.filter_congr fun l hl => ?_
  rw [Bool.eq_iff_iff, List.all_eq_true]
  constructor
  · intro h
    simpa using h l hl
  · intro hlive k hk
    by_cases hlabel : k.1 = l.1
    · rw [List.inj_on_of_nodup_map hnodup hk hl hlabel, hlive, Bool.or_true]
    · simp [hlabel]

/-- The places of the labels of a method. -/
theorem mem_placedLabels_iff
    : (l, n) ∈ placedLabels 1 m.nodes ↔ m.node? n = some (.label l) := by
  rw [mem_placedLabels, node?_eq_some]
  simp only [Nat.add_comm]

theorem lookUp_placedLabels (once : m.LabelsOnce)
    : lookUp (placedLabels 1 m.nodes) l = .ok n ↔ m.node? n = some (.label l) := by
  rw [lookUp_eq_ok (map_fst_placedLabels 1 m.nodes ▸ once), mem_placedLabels_iff]

theorem node?_of_lookUp (h : lookUp (placedLabels 1 m.nodes) l = .ok n)
    : m.node? n = some (.label l) :=
  mem_placedLabels_iff.mp (mem_of_lookUp h)

-- Edges of the flow

theorem edges_addFlow (hl : ∀ place ∈ labels, place.2 < size) {number : Nat} {nodes : List Node}
    (hg : g.Edges size R) (hsize : number + nodes.length = size)
    (h : addFlow labels g number nodes = .ok g')
    : g'.Edges size fun u v => R u v ∨ ∃ i node, u = number + i ∧ nodes[i]? = some node
        ∧ ((node.fallsThrough = true ∧ v = number + i + 1 ∧ v < size)
          ∨ ∃ l ∈ node.targets, lookUp labels l = .ok v) := by
  induction nodes generalizing g number R with
  | nil =>
      cases h
      exact hg.congr (by simp)
  | cons node rest ih =>
      obtain ⟨targets, ht, h⟩ := except_bind_eq_ok.mp h
      rw [List.length_cons] at hsize
      have hnext : ∀ v, v ∈ (if rest.isEmpty then [] else [number + 1])
          ↔ v = number + 1 ∧ v < size := by
        intro v
        cases rest with
        | nil =>
            simp only [List.isEmpty_nil, if_true, List.not_mem_nil, false_iff]
            simp only [List.length_nil] at hsize
            omega
        | cons node' rest =>
            simp only [List.isEmpty_cons, Bool.false_eq_true, if_false, List.mem_singleton]
            simp only [List.length_cons] at hsize
            omega
      have hmem : ∀ v, v ∈ targets ↔ (node.fallsThrough = true ∧ v = number + 1 ∧ v < size)
          ∨ ∃ l ∈ node.targets, lookUp labels l = .ok v := by
        intro v
        rw [mem_of_flow ht, hnext]
      have hbound : ∀ v ∈ targets, v < size := by
        intro v hv
        rcases (hmem v).mp hv with hv | ⟨l, -, hv⟩
        · exact hv.2.2
        · exact hl _ (mem_of_lookUp hv)
      refine (ih (hg.foldl_addEdge hbound) (by omega) h).congr fun u v => ?_
      have harith : ∀ i, number + 1 + i = number + (i + 1) := fun i => by omega
      constructor
      · rintro ((hR | ⟨w, hw, rfl, rfl⟩) | ⟨i, node', rfl, hi, hv⟩)
        · exact .inl hR
        · exact .inr ⟨0, node, rfl, rfl, (hmem _).mp hw⟩
        · exact .inr ⟨i + 1, node', harith i, hi, harith i ▸ hv⟩
      · rintro (hR | ⟨i, node', rfl, hi, hv⟩)
        · exact .inl (.inl hR)
        · cases i with
          | zero =>
              cases hi
              exact .inl (.inr ⟨v, (hmem v).mpr hv, rfl, rfl⟩)
          | succ i => exact .inr ⟨i, node', (harith i).symm, hi, (harith i).symm ▸ hv⟩

theorem placedLabels_lt {place : Label × Nat} (h : place ∈ placedLabels 1 m.nodes)
    : place.2 < m.nodes.length + 1 := by
  obtain ⟨i, hn, hi⟩ := mem_placedLabels.mp h
  have := (List.getElem?_eq_some_iff.mp hi).1
  omega

/-- The graph before the first node is read: control goes from the entry to the first node. -/
def startGraph (m : Method) : NodeGraph :=
  if m.nodes.isEmpty then .empty (m.nodes.length + 1)
  else (NodeGraph.empty (m.nodes.length + 1)).addEdge NodeGraph.entry 1

theorem edges_startGraph (m : Method)
    : (startGraph m).Edges (m.nodes.length + 1)
        fun u v => m.nodes ≠ [] ∧ u = NodeGraph.entry ∧ v = 1 := by
  have hempty := NodeGraph.edges_empty (m.nodes.length + 1)
  unfold startGraph
  split
  next hnil => exact hempty.congr (by simp [List.isEmpty_iff.mp hnil])
  next hne =>
    have hne : m.nodes ≠ [] := fun hnil => hne (by simp [hnil])
    refine (hempty.addEdge ?_).congr (by simp [hne])
    have := List.length_pos_iff.mpr hne
    omega

/-- The graph before the exception table is read has the edges of the flow. -/
theorem edges_flow (once : m.LabelsOnce)
    (h : addFlow (placedLabels 1 m.nodes) (startGraph m) 1 m.nodes = .ok g)
    : g.Edges (m.nodes.length + 1) m.Flow := by
  refine (edges_addFlow (fun _ => placedLabels_lt) (edges_startGraph m) (by omega) h).congr
    fun u v => ?_
  constructor
  · rintro (⟨hne, rfl, rfl⟩ | ⟨i, node, rfl, hi, ⟨hf, rfl, hlt⟩ | ⟨l, hl, hv⟩⟩)
    · exact .enters hne
    · exact .falls (node?_eq_some.mpr ⟨i, Nat.add_comm 1 i, hi⟩) hf (by omega)
    · exact .jumps (node?_eq_some.mpr ⟨i, Nat.add_comm 1 i, hi⟩) hl (node?_of_lookUp hv)
  · rintro (hne | ⟨hn, hf, hlt⟩ | ⟨hn, hl, hv⟩)
    · exact .inl ⟨hne, rfl, rfl⟩
    · obtain ⟨i, rfl, hi⟩ := node?_eq_some.mp hn
      exact .inr ⟨i, _, Nat.add_comm i 1, hi, .inl ⟨hf, by omega, by omega⟩⟩
    · obtain ⟨i, rfl, hi⟩ := node?_eq_some.mp hn
      exact .inr ⟨i, _, Nat.add_comm i 1, hi, .inr ⟨_, hl, (lookUp_placedLabels once).mpr hv⟩⟩

-- Handlers

variable {handlers handlers' : List (Nat × List Nat)}

/-- The handlers are listed once each, in ascending order. -/
def Sorted (handlers : List (Nat × List Nat)) : Prop :=
  handlers.Pairwise fun a b => a.1 < b.1

theorem mem_addHandler {handler : Nat} {indices : List Nat} {entry : Nat × List Nat}
    (h : entry ∈ addHandler handler indices handlers)
    : entry.1 = handler ∨ ∃ old ∈ handlers, old.1 = entry.1 := by
  induction handlers with
  | nil => exact .inl (List.mem_singleton.mp h ▸ rfl)
  | cons first rest ih =>
      simp only [addHandler] at h
      split at h
      · rcases List.mem_cons.mp h with rfl | h
        · exact .inl rfl
        · exact .inr ⟨entry, h, rfl⟩
      · split at h
        · rcases List.mem_cons.mp h with rfl | h
          · exact .inr ⟨first, by simp, rfl⟩
          · exact .inr ⟨entry, by simp [h], rfl⟩
        · rcases List.mem_cons.mp h with rfl | h
          · exact .inr ⟨_, by simp, rfl⟩
          · exact (ih h).imp id fun ⟨old, ho, he⟩ => ⟨old, by simp [ho], he⟩

theorem Sorted.addHandler (sorted : Sorted handlers) (handler : Nat) (indices : List Nat)
    : Sorted (addHandler handler indices handlers) := by
  induction handlers with
  | nil => simp [MethodGraph.addHandler, Sorted]
  | cons first rest ih =>
      obtain ⟨hfirst, hrest⟩ := List.pairwise_cons.mp sorted
      simp only [MethodGraph.addHandler]
      split
      next hlt =>
        refine List.pairwise_cons.mpr ⟨fun entry he => ?_, sorted⟩
        rcases List.mem_cons.mp he with rfl | he
        · exact hlt
        · exact Nat.lt_trans hlt (hfirst entry he)
      next hge =>
        split
        · exact List.pairwise_cons.mpr ⟨hfirst, hrest⟩
        next hne =>
          refine List.pairwise_cons.mpr ⟨fun entry he => ?_, ih hrest⟩
          rcases mem_addHandler he with same | ⟨old, ho, same⟩
          · dsimp only
            omega
          · exact same ▸ hfirst old ho

theorem lookup_eq_none_of_lt (h : ∀ entry ∈ handlers, n < entry.1)
    : handlers.lookup n = none := by
  refine List.lookup_eq_none_iff.mpr fun entry he => ?_
  exact bne_iff_ne.mpr (Nat.ne_of_lt (h entry he))

theorem lookup_addHandler (sorted : Sorted handlers) (handler : Nat) (indices : List Nat) (n : Nat)
    : (addHandler handler indices handlers).lookup n
      = if n = handler then some ((handlers.lookup n).getD [] ++ indices)
        else handlers.lookup n := by
  induction handlers with
  | nil =>
      rw [addHandler, List.lookup_cons]
      by_cases same : n = handler
      · simp [same]
      · simp [beq_eq_false_iff_ne.mpr same, same]
  | cons first rest ih =>
      obtain ⟨hfirst, hrest⟩ := List.pairwise_cons.mp sorted
      simp only [addHandler]
      split
      next hlt =>
        by_cases same : n = handler
        · have hnone : (first :: rest).lookup n = none := by
            refine lookup_eq_none_of_lt fun entry he => ?_
            rcases List.mem_cons.mp he with rfl | he
            · exact same ▸ hlt
            · exact same ▸ Nat.lt_trans hlt (hfirst entry he)
          rw [List.lookup_cons, hnone]
          simp [same]
        · rw [List.lookup_cons, beq_eq_false_iff_ne.mpr same, if_neg same]
      next hge =>
        split
        next heq =>
          subst heq
          rw [List.lookup_cons, List.lookup_cons]
          by_cases same : n = first.1
          · simp [same]
          · simp [beq_eq_false_iff_ne.mpr same, same]
        next hne =>
          rw [List.lookup_cons, List.lookup_cons]
          by_cases same : n = first.1
          · simp [same, Ne.symm hne]
          · simp only [beq_eq_false_iff_ne.mpr same]
            exact ih hrest

/-- The handlers found in the entries that were read. -/
structure Handles (m : Method) (entries : List (ProtectedRange × Nat))
    (handlers : List (Nat × List Nat)) : Prop where
  sorted : Sorted handlers
  known : ∀ v, (handlers.lookup v).isSome
    = entries.any fun e => m.labelAt? v = some e.1.handler
  indices : ∀ v, (handlers.lookup v).getD []
    = (entries.filter fun e =>
        m.labelAt? v = some e.1.handler && e.1.start ≠ e.1.handler).map Prod.snd

variable {entry : ProtectedRange × Nat}

theorem addRange_eq_ok (h : addRange labels (g, handlers) entry = .ok (g', handlers'))
    : ∃ start stop handler, lookUp labels entry.1.start = .ok start
        ∧ lookUp labels entry.1.stop = .ok stop ∧ lookUp labels entry.1.handler = .ok handler
        ∧ handlers' = addHandler handler (if start = handler then [] else [entry.2]) handlers
        ∧ (start = handler ∧ g' = g
          ∨ start ≠ handler
            ∧ g' = (g.addEdges (List.range' start (stop - start)) handler).addEdges
              (((g.addEdges (List.range' start (stop - start)) handler).predecessors start).filter
                fun u => u < start || stop < u) handler) := by
  obtain ⟨start, hs, h⟩ := except_bind_eq_ok.mp h
  obtain ⟨stop, ht, h⟩ := except_bind_eq_ok.mp h
  obtain ⟨handler, hv, h⟩ := except_bind_eq_ok.mp h
  refine ⟨start, stop, handler, hs, ht, hv, ?_⟩
  split at h
  next same =>
    cases h
    exact ⟨by rw [if_pos same], .inl ⟨same, rfl⟩⟩
  next other =>
    cases h
    exact ⟨by rw [if_neg other], .inr ⟨other, rfl⟩⟩

theorem handles_addRange (once : m.LabelsOnce) {entries : List (ProtectedRange × Nat)}
    (hh : Handles m entries handlers)
    (h : addRange (placedLabels 1 m.nodes) (g, handlers) entry = .ok (g', handlers'))
    : Handles m (entries ++ [entry]) handlers' := by
  obtain ⟨start, stop, handler, hs, -, hv, rfl, -⟩ := addRange_eq_ok h
  have hplace : ∀ v, m.labelAt? v = some entry.1.handler ↔ v = handler := by
    intro v
    rw [labelAt?_eq_some, ← lookUp_placedLabels once, hv]
    simp [eq_comm]
  have hsame : start = handler ↔ entry.1.start = entry.1.handler := by
    rw [← hplace, labelAt?_eq_some, node?_of_lookUp hs]
    simp
  refine ⟨hh.sorted.addHandler _ _, fun v => ?_, fun v => ?_⟩
  · rw [lookup_addHandler hh.sorted, List.any_append, ← hh.known]
    by_cases here : v = handler <;> simp [here, hplace]
  · rw [lookup_addHandler hh.sorted, List.filter_append, List.map_append, ← hh.indices]
    by_cases here : v = handler
    · by_cases protects : start = handler <;> simp [here, hplace, protects, ← hsame]
    · simp [here, hplace]

-- The graph of a method

/-- A graph with the edges of the flow and others that lead to handlers. -/
structure FlowsAndThrows (m : Method) (g : NodeGraph) (R : Nat → Nat → Prop) : Prop where
  edges : g.Edges (m.nodes.length + 1) R
  flow : ∀ {u v}, m.Flow u v → R u v
  source : ∀ {u v}, R u v → u < m.nodes.length + 1
  handler : ∀ {u v}, R u v → m.Flow u v ∨ m.isHandler v = true

theorem flowsAndThrows_addRange (hentry : entry.1 ∈ m.ranges) (hg : FlowsAndThrows m g R)
    (h : addRange (placedLabels 1 m.nodes) (g, handlers) entry = .ok (g', handlers'))
    : ∃ R', FlowsAndThrows m g' R' := by
  obtain ⟨start, stop, handler, hs, ht, hv, -, ⟨-, rfl⟩ | ⟨-, rfl⟩⟩ := addRange_eq_ok h
  · exact ⟨R, hg⟩
  · have hstop := placedLabels_lt (mem_of_lookUp ht)
    have hlt := placedLabels_lt (mem_of_lookUp hv)
    have hhandler : m.isHandler handler = true :=
      List.any_eq_true.mpr ⟨entry.1, hentry,
        decide_eq_true (labelAt?_eq_some.mpr (node?_of_lookUp hv))⟩
    have hinner := hg.edges.addEdges (List.range' start (stop - start)) hlt
    refine ⟨_, hinner.addEdges _ hlt, fun hflow => .inl (.inl (hg.flow hflow)), ?_, ?_⟩
    · have hinside : ∀ u ∈ List.range' start (stop - start), u < m.nodes.length + 1 := by
        intro u hu
        have := List.mem_range'_1.mp hu
        omega
      rintro u v ((hR | ⟨hu, -⟩) | ⟨hu, -⟩)
      · exact hg.source hR
      · exact hinside u hu
      · rcases hinner.mem.mp (List.mem_filter.mp hu).1 with hR | ⟨hu, -⟩
        · exact hg.source hR
        · exact hinside u hu
    · rintro u v ((hR | ⟨-, rfl⟩) | ⟨-, rfl⟩)
      · exact hg.handler hR
      · exact .inr hhandler
      · exact .inr hhandler

theorem foldlM_addRange (once : m.LabelsOnce) {done entries : List (ProtectedRange × Nat)}
    (hentries : ∀ e ∈ entries, e.1 ∈ m.ranges) (hg : FlowsAndThrows m g R)
    (hh : Handles m done handlers)
    (h : entries.foldlM (addRange (placedLabels 1 m.nodes)) (g, handlers) = .ok (g', handlers'))
    : (∃ R', FlowsAndThrows m g' R') ∧ Handles m (done ++ entries) handlers' := by
  induction entries generalizing g handlers done R with
  | nil =>
      cases h
      exact ⟨⟨R, hg⟩, by simpa using hh⟩
  | cons entry rest ih =>
      rw [List.foldlM_cons] at h
      obtain ⟨⟨g₁, handlers₁⟩, h₁, h⟩ := except_bind_eq_ok.mp h
      obtain ⟨R₁, hg₁⟩ := flowsAndThrows_addRange (hentries entry (by simp)) hg h₁
      obtain ⟨hR, hall⟩ :=
        ih (fun e he => hentries e (by simp [he])) hg₁ (handles_addRange once hh h₁) h
      exact ⟨hR, by simpa using hall⟩

theorem filterMap_handled (m : Method) {indices : List Nat} {v : Nat}
    (h : indices = (m.ranges.zipIdx.filter fun e =>
      m.labelAt? v = some e.1.handler && e.1.start ≠ e.1.handler).map Prod.snd)
    : indices.filterMap (fun index => m.ranges[index]?) = m.handledAt v := by
  have hget : ∀ e ∈ m.ranges.zipIdx.filter fun e =>
      m.labelAt? v = some e.1.handler && e.1.start ≠ e.1.handler,
      m.ranges[e.2]? = some e.1 := by
    intro e he
    exact List.mem_zipIdx_iff_getElem?.mp (List.mem_filter.mp he).1
  rw [h, List.filterMap_map, handledAt]
  conv_rhs => rw [← List.zipIdx_map_fst 0 m.ranges, List.filter_map]
  rw [← List.filterMap_eq_map]
  exact List.filterMap_congr fun e he => hget e he

/-- What the graph of a method has to do with its nodes and its exception table. -/
structure Models (m : Method) (graph : MethodGraph) : Prop where
  pruned : graph.graph.Pruned
  size : graph.graph.size = m.nodes.length + 1
  ascending : ∀ v, (graph.graph.predecessors v).Pairwise (· < ·)
  flow : ∀ {u v}, graph.graph.Reaches u → m.Flow u v → u ∈ graph.graph.predecessors v
  edge : ∀ {u v}, u ∈ graph.graph.predecessors v → m.Flow u v ∨ m.isHandler v = true
  labels : graph.labels = (placedLabels 1 m.nodes).filter fun l => !graph.graph.isDead l.2
  known : ∀ v, (graph.handlers.lookup v).isSome = m.isHandler v
  handled : ∀ v, ((graph.handlers.lookup v).getD []).filterMap (fun index => m.ranges[index]?)
    = m.handledAt v

theorem models_ofMethod (once : m.LabelsOnce) {graph : MethodGraph} (h : ofMethod m = .ok graph)
    : Models m graph := by
  obtain ⟨g₁, h₁, h⟩ := except_bind_eq_ok.mp h
  obtain ⟨⟨g₂, handlers⟩, h₂, h⟩ := except_bind_eq_ok.mp h
  cases h
  have hflow : FlowsAndThrows m g₁ m.Flow :=
    { edges := edges_flow once h₁
      flow := id
      source := by
        rintro u v (hne | ⟨hn, -, -⟩ | ⟨hn, -, -⟩)
        · exact Nat.succ_pos _
        · exact Nat.lt_succ_of_le (le_length_of_node? hn)
        · exact Nat.lt_succ_of_le (le_length_of_node? hn)
      handler := .inl }
  have hnone : Handles m [] [] := ⟨.nil, fun v => rfl, fun v => rfl⟩
  obtain ⟨⟨R, hR⟩, hh⟩ := foldlM_addRange once (fun e he => by
    exact List.fst_mem_of_mem_zipIdx he) hflow hnone h₂
  have hpos : 0 < g₂.size := hR.edges.size ▸ Nat.succ_pos _
  have hbound : ∀ {u v}, u ∈ g₂.predecessors v → u < g₂.size := fun hu =>
    hR.edges.size ▸ hR.source (hR.edges.mem.mp hu)
  have hmem : ∀ {u v}, u ∈ g₂.prune.predecessors v ↔ R u v ∧ g₂.Reaches u := by
    intro u v
    rw [NodeGraph.mem_predecessors_prune hpos hR.edges.dead_subset hbound, hR.edges.mem]
  exact {
    pruned := NodeGraph.pruned_prune hpos hR.edges.dead_subset hbound
    size := g₂.size_prune.trans hR.edges.size
    ascending := fun v => (hR.edges.ascending v).sublist (g₂.predecessors_prune_sublist v)
    flow := fun hu hf =>
      hmem.mpr ⟨hR.flow hf, (NodeGraph.reaches_prune hpos hR.edges.dead_subset hbound).mp hu⟩
    edge := fun hu => hR.handler (hmem.mp hu).1
    labels := liveLabels_eq (map_fst_placedLabels 1 m.nodes ▸ once)
    known := fun v => by
      rw [hh.known, isHandler]
      conv_rhs => rw [← List.zipIdx_map_fst 0 m.ranges, List.any_map]
      rfl
    handled := fun v => filterMap_handled m (by simpa using hh.indices v) }

end MethodGraph

end StackLift
