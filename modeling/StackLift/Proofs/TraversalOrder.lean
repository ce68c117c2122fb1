import StackLift.Proofs.CompleteOrder
import StackLift.Proofs.PrunedGraphs

/-!
The order of simulation on a pruned graph. Every node follows its forward predecessors, so an edge
against the order closes a circle. Counting down the forward predecessors that a node still waits
for gives the same order, and no count falls below zero.
-/

namespace StackLift

namespace NodeGraph

variable {g : NodeGraph} {u v : Nat} {ready pending : List Nat}

/-- The successors that wait for a node. -/
def forwardSuccessors (g : NodeGraph) (u : Nat) : List Nat :=
  (g.successors u).filter fun v => !isBackEdge g.walk u v

theorem mem_forwardSuccessors
    : v ∈ g.forwardSuccessors u ↔ u ∈ g.forwardPredecessors g.walk v := by
  simp [forwardSuccessors, mem_successors, mem_forwardPredecessors]

theorem nodup_forwardSuccessors (g : NodeGraph) (u : Nat)
    : (g.forwardSuccessors u).Nodup :=
  (List.nodup_range.filter _).filter _

-- What releasing nodes keeps up

/-- The ready nodes are pending, and no node that is ready or taken waits for a pending one. -/
structure Releasing (g : NodeGraph) (ready pending : List Nat) : Prop where
  nodup : pending.Nodup
  distinct : ready.Nodup
  waiting : ∀ v ∈ ready, v ∈ pending
  ready : ∀ v ∈ ready, ∀ u ∈ g.forwardPredecessors g.walk v, u ∉ pending
  taken : ∀ v, v ∉ pending → ∀ u ∈ g.forwardPredecessors g.walk v, u ∉ pending

/-- In a graph whose edges come from reached nodes, the entry waits for no node. -/
theorem Closed.releasing (closed : g.Closed)
    : g.Releasing [entry] g.nodes where
  nodup := List.nodup_range
  distinct := List.nodup_singleton _
  waiting v hv := by
    rw [List.mem_singleton.mp hv]
    exact List.mem_range.mpr closed.size
  ready v hv u hu := by
    obtain rfl := List.mem_singleton.mp hv
    obtain ⟨edge, hback⟩ := mem_forwardPredecessors.mp hu
    have hreach := closed.reached edge
    have hne : u ≠ entry := by
      rintro rfl
      simp [isBackEdge] at hback
    have := leave_lt_of_not_isBackEdge closed.size hreach edge hback
    have := leave_lt_entry closed.size hreach hne
    omega
  taken v hv u hu := by
    have hlt := lt_size_of_mem_predecessors (mem_forwardPredecessors.mp hu).1
    exact absurd (List.mem_range.mpr hlt) hv

theorem opened_eq {left : List Nat}
    : (g.successors u).filter (fun v => !isBackEdge g.walk u v
        && (g.forwardPredecessors g.walk v).all (· ∉ left))
      = (g.forwardSuccessors u).filter fun v =>
        (g.forwardPredecessors g.walk v).all (· ∉ left) := by
  rw [forwardSuccessors, List.filter_filter]
  exact List.filter_congr fun v _ => Bool.and_comm ..

/-- Taking a ready node makes ready the nodes that waited for it alone. -/
theorem Releasing.take (h : g.Releasing (u :: ready) pending)
    : g.Releasing
        (((g.successors u).filter fun v => !isBackEdge g.walk u v
          && (g.forwardPredecessors g.walk v).all (· ∉ pending.erase u)).reverse ++ ready)
        (pending.erase u) := by
  rw [opened_eq]
  have hu : u ∈ pending := h.waiting u (by simp)
  have hopened : ∀ v ∈ g.forwardSuccessors u, v ∉ u :: ready ∧ v ∈ pending := fun v hv => by
    have waits := mem_forwardSuccessors.mp hv
    exact ⟨fun hm => h.ready v hm u waits hu, by_contra fun hm => h.taken v hm u waits hu⟩
  refine ⟨h.nodup.erase u, ?_, fun v hv => ?_, fun v hv w hw hm => ?_, fun v hv w hw hm => ?_⟩
  · refine List.nodup_append.mpr ⟨List.nodup_reverse.mpr ((nodup_forwardSuccessors g u).filter _),
      (List.nodup_cons.mp h.distinct).2, fun v hv w hw same => ?_⟩
    have hv := (List.mem_filter.mp (List.mem_reverse.mp hv)).1
    exact (hopened v hv).1 (List.mem_cons_of_mem _ (same ▸ hw))
  · refine h.nodup.mem_erase_iff.mpr ?_
    rcases List.mem_append.mp hv with hv | hv
    · obtain ⟨hready, hpending⟩ := hopened v (List.mem_filter.mp (List.mem_reverse.mp hv)).1
      exact ⟨fun same => hready (by simp [same]), hpending⟩
    · exact ⟨fun same => (List.nodup_cons.mp h.distinct).1 (same ▸ hv), h.waiting v (by simp [hv])⟩
  · rcases List.mem_append.mp hv with hv | hv
    · have hfree := (List.mem_filter.mp (List.mem_reverse.mp hv)).2
      exact absurd hm (by simpa using List.all_eq_true.mp hfree w hw)
    · exact h.ready v (by simp [hv]) w hw (List.mem_of_mem_erase hm)
  · by_cases same : v = u
    · exact h.ready v (by simp [same]) w hw (List.mem_of_mem_erase hm)
    · refine h.taken v (fun hp => hv ?_) w hw (List.mem_of_mem_erase hm)
      exact h.nodup.mem_erase_iff.mpr ⟨same, hp⟩

-- Forward predecessors come first

theorem Releasing.mem_before {before after : List Nat} (h : g.Releasing ready pending)
    (hrelease : g.release g.walk ready pending = before ++ v :: after)
    (waits : u ∈ g.forwardPredecessors g.walk v) (hu : u ∈ pending)
    : u ∈ before := by
  fun_induction release g g.walk ready pending generalizing before with
  | case1 => simp at hrelease
  | case2 w ready pending hw =>
      rename_i left opened ih
      cases before with
      | nil =>
          cases hrelease
          exact absurd hu (h.ready _ (by simp) u waits)
      | cons first before =>
          injection hrelease with hfirst hrelease
          subst hfirst
          by_cases same : u = w
          · simp [same]
          · exact List.mem_cons_of_mem _
              (ih h.take hrelease (h.nodup.mem_erase_iff.mpr ⟨same, hu⟩))
  | case3 w ready pending hw => exact absurd (h.waiting w (by simp)) hw

/-- A node that can be reached comes after its forward predecessors. -/
theorem Closed.precedes_of_forward (closed : g.Closed)
    (waits : u ∈ g.forwardPredecessors g.walk v)
    : g.Precedes u v := by
  have edge := (mem_forwardPredecessors.mp waits).1
  have hu := closed.reached edge
  obtain ⟨before, after, horder⟩ := List.mem_iff_append.mp (closed.mem_order.mpr (hu.step edge))
  refine ⟨before, after, horder, closed.releasing.mem_before horder waits ?_⟩
  exact List.mem_range.mpr (hu.lt_size closed.size)

theorem Precedes.trans {w : Nat} (h : g.Precedes u v) (hvw : g.Precedes v w)
    : g.Precedes u w := by
  obtain ⟨before, after, horder, hv⟩ := hvw
  obtain ⟨first, rest, rfl⟩ := List.mem_iff_append.mp hv
  refine ⟨_, after, horder, List.mem_append_left _ ?_⟩
  exact (precedes_iff (by simpa using horder)).mp h

/-- An edge from a later node closes a circle. -/
theorem Closed.precedes_of_edge (closed : g.Closed) (edge : u ∈ g.predecessors v)
    : g.Precedes u v ∨ u = v
      ∨ g.Precedes v u ∧ Relation.ReflTransGen (fun a b => a ∈ g.predecessors b) v u := by
  cases hback : isBackEdge g.walk u v with
  | false => exact .inl (closed.precedes_of_forward (mem_forwardPredecessors.mpr ⟨edge, hback⟩))
  | true =>
      by_cases same : u = v
      · exact .inr (.inl same)
      have path := path_of_isBackEdge closed.size (closed.reached edge) edge hback same
      refine .inr (.inr ⟨?_, Relation.ReflTransGen.mono (fun a b step => ?_) _ _ path⟩)
      · have hstep : ∀ {a},
            Relation.ReflTransGen (fun a b => a ∈ g.forwardPredecessors g.walk b) v a →
            v = a ∨ g.Precedes v a := fun path => by
          induction path with
          | refl => exact .inl rfl
          | @tail a b _ step ih =>
              have hab := closed.precedes_of_forward step
              exact .inr (ih.elim (fun same => same ▸ hab) fun h => h.trans hab)
        exact (hstep path).resolve_left (Ne.symm same)
      · exact (mem_forwardPredecessors.mp step).1

-- Counting

/-- Lowers the count of each node in turn, and fails on a count of zero. The result has the nodes
whose count becomes zero.
-/
def lower : List Nat → (Nat → Nat) → Option ((Nat → Nat) × List Nat)
  | [], counts => some (counts, [])
  | v :: rest, counts =>
    if counts v = 0 then none
    else do
      let lowered := Function.update counts v (counts v - 1)
      let (final, opened) ← lower rest lowered
      return (final, (if lowered v = 0 then [v] else []) ++ opened)

/-- Takes the first ready node, lowers the counts of its forward successors and makes ready those
whose count becomes zero, until no node is ready. No count falls below zero on the way.
-/
inductive CountsDown (g : NodeGraph) : (counts : Nat → Nat) → (ready order : List Nat) → Prop
  | done {counts} : CountsDown g counts [] []
  | take {counts lowered u ready opened order}
    (step : lower (g.forwardSuccessors u) counts = some (lowered, opened))
    (rest : CountsDown g lowered (opened.reverse ++ ready) order)
    : CountsDown g counts (u :: ready) (u :: order)

theorem exists_lower {l : List Nat} {counts : Nat → Nat} (hnodup : l.Nodup)
    (hpos : ∀ v ∈ l, counts v ≠ 0)
    : ∃ lowered, lower l counts = some (lowered, l.filter (counts · = 1))
      ∧ ∀ v, lowered v = if v ∈ l then counts v - 1 else counts v := by
  induction l generalizing counts with
  | nil => exact ⟨counts, rfl, by simp⟩
  | cons w rest ih =>
      obtain ⟨hw, hrest⟩ := List.nodup_cons.mp hnodup
      have hsame : ∀ v ∈ rest, Function.update counts w (counts w - 1) v = counts v := fun v hv =>
        Function.update_of_ne (fun same : v = w => hw (same ▸ hv)) ..
      obtain ⟨lowered, hlower, hvalue⟩ := @ih (Function.update counts w (counts w - 1)) hrest
        fun v hv => hsame v hv ▸ hpos v (by simp [hv])
      have hcount := hpos w (by simp)
      refine ⟨lowered, ?_, fun v => ?_⟩
      · have hfilter : rest.filter (Function.update counts w (counts w - 1) · = 1)
            = rest.filter (counts · = 1) :=
          List.filter_congr fun v hv => by rw [hsame v hv]
        have hone : counts w - 1 = 0 ↔ counts w = 1 := by omega
        simp only [lower, hcount, ↓reduceIte, hlower, hfilter, Function.update_self, hone,
          List.filter_cons, decide_eq_true_eq]
        split <;> rfl
      · rw [hvalue]
        by_cases same : v = w
        · simp [same, hw]
        · simp [same]

/-- The number of nodes that a node still waits for. -/
def waitCount (g : NodeGraph) (pending : List Nat) (v : Nat) : Nat :=
  (g.forwardPredecessors g.walk v).countP (· ∈ pending)

theorem waitCount_erase (hnodup : pending.Nodup) (hu : u ∈ pending)
    (hpredecessors : (g.predecessors v).Nodup)
    : g.waitCount pending v
      = g.waitCount (pending.erase u) v + if v ∈ g.forwardSuccessors u then 1 else 0 := by
  simp only [waitCount, mem_forwardSuccessors, hnodup.mem_erase_iff]
  have hforward : (g.forwardPredecessors g.walk v).Nodup := hpredecessors.filter _
  generalize g.forwardPredecessors g.walk v = l at hforward
  induction l with
  | nil => simp
  | cons a rest ih =>
      obtain ⟨ha, hrest⟩ := List.nodup_cons.mp hforward
      rw [List.countP_cons, List.countP_cons, ih hrest]
      by_cases same : u = a
      · subst same
        simp [hu, ha]
      · simp only [List.mem_cons, same, false_or, Ne.symm same, ne_eq, not_false_eq_true, true_and]
        omega

/-- Releasing nodes counts down the nodes that they wait for. -/
theorem Releasing.countsDown (h : g.Releasing ready pending)
    (hnodup : ∀ v, (g.predecessors v).Nodup)
    : g.CountsDown (g.waitCount pending) ready (g.release g.walk ready pending) := by
  fun_induction release g g.walk ready pending with
  | case1 => exact .done
  | case2 u ready pending hu left opened ih =>
      have herase := fun v => waitCount_erase h.nodup hu (hnodup v)
      have hopened : opened = (g.forwardSuccessors u).filter (g.waitCount pending · = 1) := by
        refine opened_eq.trans (List.filter_congr fun v hv => ?_)
        rw [herase v, if_pos hv, Bool.eq_iff_iff]
        simp [waitCount, left]
      obtain ⟨lowered, hlower, hvalue⟩ := @exists_lower _ (g.waitCount pending)
        (nodup_forwardSuccessors g u) fun v hv => by
          rw [herase v, if_pos hv]
          omega
      have hlowered : lowered = g.waitCount left := by
        funext v
        rw [hvalue, herase v]
        split <;> rfl
      exact .take (hopened ▸ hlower) (hlowered ▸ ih h.take)
  | case3 u ready pending hu => exact absurd (h.waiting u (by simp)) hu

theorem Closed.waitCount_nodes (closed : g.Closed)
    : g.waitCount g.nodes = fun v => (g.forwardPredecessors g.walk v).length := by
  funext v
  refine List.countP_eq_length.mpr fun u hu => decide_eq_true ?_
  exact List.mem_range.mpr
    ((closed.reached (mem_forwardPredecessors.mp hu).1).lt_size closed.size)

-- The order of pruned graphs

theorem Closed.head?_order (closed : g.Closed)
    : g.order.head? = some entry := by
  have hentry : entry ∈ g.nodes := List.mem_range.mpr closed.size
  rw [order, release, if_pos hentry]
  rfl

/-- The order of a pruned graph has each node that can be reached once and starts with the entry. An
edge against it closes a circle, and every other node comes after one of its predecessors. The nodes
come in the order in which counting down their forward predecessors releases them, and without
circles the order is topological.
-/
theorem traversal_order_of_pruned (built : g.Built) (hsize : 0 < g.size)
    : g.prune.order.Nodup ∧ (∀ v, v ∈ g.prune.order ↔ g.prune.Reaches v)
      ∧ g.prune.order.head? = some entry
      ∧ (∀ u v, u ∈ g.prune.predecessors v →
        g.prune.Precedes u v ∨ u = v
        ∨ g.prune.Precedes v u
          ∧ Relation.ReflTransGen (fun a b => a ∈ g.prune.predecessors b) v u)
      ∧ (∀ v, g.prune.Reaches v → v ≠ entry →
        ∃ u ∈ g.prune.predecessors v, g.prune.Precedes u v)
      ∧ g.prune.CountsDown (fun v => (g.prune.forwardPredecessors g.prune.walk v).length) [entry]
        g.prune.order
      ∧ ((∀ v, ¬ Relation.TransGen (fun a b => a ∈ g.prune.predecessors b) v v) →
        ∀ u v, u ∈ g.prune.predecessors v → g.prune.Precedes u v) := by
  have tidy := built.tidy
  have closed := tidy.closed_prune hsize
  refine ⟨nodup_order _, fun v => closed.mem_order, closed.head?_order,
    fun u v => closed.precedes_of_edge, fun v hv hne => ?_, ?_, fun acyclic u v edge => ?_⟩
  · obtain ⟨u, edge, hback⟩ := exists_forward_predecessor closed.size hv hne
    exact ⟨u, edge, closed.precedes_of_forward (mem_forwardPredecessors.mpr ⟨edge, hback⟩)⟩
  · rw [← closed.waitCount_nodes]
    exact closed.releasing.countsDown fun v => (tidy.prune.ascending v).imp Nat.ne_of_lt
  · rcases closed.precedes_of_edge edge with h | rfl | ⟨-, path⟩
    · exact h
    · exact absurd (.single edge) (acyclic u)
    · exact absurd (Relation.TransGen.tail' path edge) (acyclic v)

/-- Two nodes form a region that is entered at both of them. -/
def enteredTwice : NodeGraph :=
  let edges := [(0, 1), (0, 2), (1, 2), (2, 1), (1, 3), (3, 3), (3, 0), (4, 2)]
  edges.foldl (fun g (u, v) => g.addEdge u v) (empty 5)

theorem traversal_order_of_entered_twice
    : enteredTwice.Built ∧ 0 < enteredTwice.size ∧ enteredTwice.prune.order = [0, 2, 1, 3]
      ∧ ∀ v, v ∈ [0, 2, 1, 3] ↔ enteredTwice.prune.Reaches v := by
  have built : enteredTwice.Built := by
    refine .addEdge (.addEdge (.addEdge (.addEdge (.addEdge (.addEdge (.addEdge (.addEdge
      (.empty 5) ?_ ?_) ?_ ?_) ?_ ?_) ?_ ?_) ?_ ?_) ?_ ?_) ?_ ?_) ?_ ?_ <;> decide
  have horder : enteredTwice.prune.order = [0, 2, 1, 3] := by decide +kernel
  exact ⟨built, by decide, horder, horder ▸ (traversal_order_of_pruned built (by decide)).2.1⟩

end NodeGraph

end StackLift
