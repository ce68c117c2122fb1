import StackLift.Graph.Order
import StackLift.Proofs.Reachability

/-!
The depth-first walk. A node is left after all nodes that were entered through it, so an edge whose
source is left before its target is a back edge.
-/

namespace StackLift

open Relation

variable {e : WalkEvent}

namespace WalkEvent

/-- The walk through the trees of the given roots, with the nodes that are unseen before and after
it. The trees of the successors of a node stand between entering and leaving it.
-/
inductive Forest (next : Nat → List Nat)
    : (unseen roots : List Nat) → List WalkEvent → (rest : List Nat) → Prop
  | done {unseen} : Forest next unseen [] [] unseen
  | skip {unseen u roots events rest} (seen : u ∉ unseen)
    (later : Forest next unseen roots events rest)
    : Forest next unseen (u :: roots) events rest
  | tree {unseen u roots inner middle outer rest} (new : u ∈ unseen)
    (below : Forest next (unseen.erase u) (next u) inner middle)
    (later : Forest next middle roots outer rest)
    : Forest next unseen (u :: roots) (.enter u :: (inner ++ .leave u :: outer)) rest

variable {next : Nat → List Nat} {unseen roots rest : List Nat} {events : List WalkEvent}

theorem Forest.rest_sublist (h : Forest next unseen roots events rest)
    : rest.Sublist unseen := by
  induction h with
  | done => exact .refl _
  | skip _ _ ih => exact ih
  | tree _ _ _ ihBelow ihLater => exact (ihLater.trans ihBelow).trans List.erase_sublist

/-- The walk carries out the roots on its agenda one after the other. By induction on the number of
unseen nodes, and then on the roots.
-/
theorem exists_forest (next : Nat → List Nat) (unseen roots : List Nat)
    : ∃ events rest, Forest next unseen roots events rest
        ∧ ∀ agenda, run next (roots.map .enter ++ agenda) unseen
          = events ++ run next agenda rest := by
  induction hn : unseen.length using Nat.strongRecOn generalizing unseen roots with
  | ind n ih =>
      subst hn
      induction roots with
      | nil => exact ⟨[], unseen, .done, fun agenda => rfl⟩
      | cons u roots ihRoots =>
          by_cases new : u ∈ unseen
          · have hlt : (unseen.erase u).length < unseen.length := by
              have := List.length_erase_of_mem new
              have := List.length_pos_of_mem new
              omega
            obtain ⟨inner, middle, below, hbelow⟩ := ih _ hlt (unseen.erase u) (next u) rfl
            have hle := below.rest_sublist.length_le
            obtain ⟨outer, rest, later, hlater⟩ :=
              ih _ (Nat.lt_of_le_of_lt hle hlt) middle roots rfl
            refine ⟨_, rest, .tree new below later, fun agenda => ?_⟩
            rw [List.map_cons, List.cons_append, run, if_pos new, hbelow, run, hlater]
            simp
          · obtain ⟨events, rest, later, hlater⟩ := ihRoots
            refine ⟨events, rest, .skip new later, fun agenda => ?_⟩
            rw [List.map_cons, List.cons_append, run, if_neg new, hlater]

def node : WalkEvent → Nat
  | enter u => u
  | leave u => u

theorem eq_or_eq_of_node {u : Nat}
    : e = .enter u ∨ e = .leave u ↔ e.node = u := by
  cases e <;> simp [node]

namespace Forest

section

variable (h : Forest next unseen roots events rest)
include h

/-- The walk enters and leaves the nodes that it takes from the unseen ones. -/
theorem mem_events (hnodup : unseen.Nodup)
    : e ∈ events ↔ e.node ∈ unseen ∧ e.node ∉ rest := by
  induction h with
  | done => simp
  | skip _ _ ih => exact ih hnodup
  | @tree unseen u roots inner middle outer rest new below later ihBelow ihLater =>
      have herase := hnodup.erase u
      have hmiddle : e.node ∈ middle → e.node ≠ u ∧ e.node ∈ unseen := fun h =>
        hnodup.mem_erase_iff.mp (below.rest_sublist.subset h)
      have hrest : e.node ∈ rest → e.node ∈ middle := fun h => later.rest_sublist.subset h
      have hevents : e ∈ .enter u :: (inner ++ .leave u :: outer)
          ↔ e.node = u ∨ e ∈ inner ∨ e ∈ outer := by
        rw [← eq_or_eq_of_node, List.mem_cons, List.mem_append, List.mem_cons, or_assoc,
          @or_left_comm (e ∈ inner)]
      rw [hevents, ihBelow herase, ihLater (herase.sublist below.rest_sublist),
        hnodup.mem_erase_iff]
      by_cases same : e.node = u
      · have hnot : e.node ∉ rest := fun h => (hmiddle (hrest h)).1 same
        exact ⟨fun _ => ⟨same ▸ new, hnot⟩, fun _ => .inl same⟩
      · constructor
        · rintro (h | ⟨⟨-, h⟩, hm⟩ | ⟨hm, hr⟩)
          · exact absurd h same
          · exact ⟨h, fun hr => hm (hrest hr)⟩
          · exact ⟨(hmiddle hm).2, hr⟩
        · rintro ⟨h, hr⟩
          by_cases hm : e.node ∈ middle
          · exact .inr (.inr ⟨hm, hr⟩)
          · exact .inr (.inl ⟨⟨same, h⟩, hm⟩)

theorem nodup_events (hnodup : unseen.Nodup)
    : events.Nodup := by
  induction h with
  | done => exact List.nodup_nil
  | skip _ _ ih => exact ih hnodup
  | @tree unseen u roots inner middle outer rest new below later ihBelow ihLater =>
      have herase := hnodup.erase u
      have hmiddle := herase.sublist below.rest_sublist
      have hinner := fun e => below.mem_events herase (e := e)
      have houter := fun e => later.mem_events hmiddle (e := e)
      have hu : u ∉ unseen.erase u := hnodup.not_mem_erase
      have hu' : u ∉ middle := fun h => hu (below.rest_sublist.subset h)
      simp only [List.nodup_cons, List.nodup_append, List.mem_append, List.mem_cons, hinner, houter,
        node, hu, hu', ihBelow herase, ihLater hmiddle]
      refine ⟨by simp, trivial, by simp, fun a ha b hb => ?_⟩
      rintro rfl
      rcases hb with rfl | hb
      · exact hu ha.1
      · exact ha.2 hb.1

theorem roots_seen (hnodup : unseen.Nodup)
    : ∀ u ∈ roots, u ∉ rest := by
  induction h with
  | done => simp
  | skip seen later ih =>
      exact List.forall_mem_cons.mpr ⟨fun h => seen (later.rest_sublist.subset h), ih hnodup⟩
  | @tree unseen u roots inner middle outer rest new below later ihBelow ihLater =>
      have herase := hnodup.erase u
      refine List.forall_mem_cons.mpr ⟨fun h => ?_, ihLater (herase.sublist below.rest_sublist)⟩
      exact hnodup.not_mem_erase (below.rest_sublist.subset (later.rest_sublist.subset h))

/-- A node that is no root is entered after one of its predecessors. -/
theorem entered_after {v : Nat} (hv : .enter v ∈ events)
    : v ∈ roots ∨ ∃ u, v ∈ next u ∧ [.enter u, .enter v].Sublist events := by
  induction h with
  | done => cases hv
  | skip _ _ ih => exact (ih hv).imp (List.mem_cons_of_mem _) id
  | @tree unseen u roots inner middle outer rest new below later ihBelow ihLater =>
      rcases List.mem_cons.mp hv with same | hv
      · cases same
        exact .inl (by simp)
      rcases List.mem_append.mp hv with hv | hv
      · right
        have hinner : inner.Sublist (inner ++ .leave u :: outer) := List.sublist_append_left _ _
        rcases ihBelow hv with hroot | ⟨w, hw, hs⟩
        · exact ⟨u, hroot, (List.singleton_sublist.mpr (hinner.subset hv)).cons_cons _⟩
        · exact ⟨w, hw, (hs.trans hinner).cons _⟩
      · have hv : .enter v ∈ outer := by simpa using hv
        refine (ihLater hv).imp (List.mem_cons_of_mem _) fun ⟨w, hw, hs⟩ => ⟨w, hw, ?_⟩
        exact ((hs.cons _).trans (List.sublist_append_right _ _)).cons _

end

/-- An edge whose target is entered after its source. -/
structure EntersLater (next : Nat → List Nat) (events : List WalkEvent) (u v : Nat) : Prop where
  edge : v ∈ next u
  later : [.enter u, .enter v].Sublist events

theorem path_mono {more : List WalkEvent} {u v : Nat}
    (h : ReflTransGen (EntersLater next events) u v) (hsub : events.Sublist more)
    : ReflTransGen (EntersLater next more) u v :=
  ReflTransGen.mono (fun _ _ step => ⟨step.edge, step.later.trans hsub⟩) _ _ h

/-- The path from a node to one that is entered below it. -/
theorem path_below {u v : Nat} {inner outer : List WalkEvent}
    (h : ∃ r ∈ next u, .enter r ∈ inner ∧ ReflTransGen (EntersLater next inner) r v)
    : ReflTransGen (EntersLater next (.enter u :: (inner ++ .leave u :: outer))) u v := by
  obtain ⟨r, hr, hentered, hpath⟩ := h
  have hinner : inner.Sublist (inner ++ .leave u :: outer) := List.sublist_append_left _ _
  refine .head ⟨hr, ?_⟩ (path_mono hpath (hinner.cons _))
  exact (List.singleton_sublist.mpr (hinner.subset hentered)).cons_cons _

/-- A path leads from a root to every node that is entered. -/
theorem path_from_root (h : Forest next unseen roots events rest) {v : Nat}
    (hv : .enter v ∈ events)
    : ∃ r ∈ roots, .enter r ∈ events ∧ ReflTransGen (EntersLater next events) r v := by
  induction h with
  | done => cases hv
  | skip _ _ ih =>
      obtain ⟨r, hr, hpath⟩ := ih hv
      exact ⟨r, List.mem_cons_of_mem _ hr, hpath⟩
  | @tree unseen u roots inner middle outer rest new below later ihBelow ihLater =>
      rcases List.mem_cons.mp hv with same | hv
      · cases same
        exact ⟨v, List.mem_cons_self, List.mem_cons_self, .refl⟩
      rcases List.mem_append.mp hv with hv | hv
      · exact ⟨u, List.mem_cons_self, List.mem_cons_self, path_below (ihBelow hv)⟩
      · have hv : .enter v ∈ outer := by simpa using hv
        obtain ⟨r, hr, hentered, hpath⟩ := ihLater hv
        have houter : outer.Sublist (.enter u :: (inner ++ .leave u :: outer)) :=
          ((List.sublist_cons_self _ _).trans (List.sublist_append_right _ _)).cons _
        exact ⟨r, List.mem_cons_of_mem _ hr, houter.subset hentered, path_mono hpath houter⟩

/-- An edge leads to a node that was seen before, or that is left before its source, or that is
entered before its source and left after it, and from which the walk came to the source.
-/
theorem edge (h : Forest next unseen roots events rest) (hnodup : unseen.Nodup) {a b : Nat}
    (ha : .enter a ∈ events) (hb : b ∈ next a)
    : b ∉ unseen ∨ a = b ∨ [.leave b, .leave a].Sublist events
      ∨ ([.enter b, .enter a].Sublist events ∧ [.leave a, .leave b].Sublist events
        ∧ ReflTransGen (EntersLater next events) b a) := by
  induction h with
  | done => cases ha
  | skip _ _ ih => exact ih hnodup ha
  | @tree unseen u roots inner middle outer rest new below later ihBelow ihLater =>
      have herase := hnodup.erase u
      have hmiddle := herase.sublist below.rest_sublist
      have hinner : inner.Sublist (.enter u :: (inner ++ .leave u :: outer)) :=
        (List.sublist_append_left _ _).cons _
      have houter : outer.Sublist (.enter u :: (inner ++ .leave u :: outer)) :=
        ((List.sublist_cons_self _ _).trans (List.sublist_append_right _ _)).cons _
      have hbefore : ∀ {x y}, x ∈ inner → y ∈ .leave u :: outer →
          [x, y].Sublist (.enter u :: (inner ++ .leave u :: outer)) := fun hx hy =>
        ((List.singleton_sublist.mpr hx).append (List.singleton_sublist.mpr hy)).cons _
      rcases List.mem_cons.mp ha with same | ha
      · -- The trees of the successors of the node have been walked when it is left.
        obtain rfl : a = u := WalkEvent.enter.inj same
        by_cases hseen : b ∈ unseen
        · by_cases same : b = a
          · exact .inr (.inl same.symm)
          · have hin : .leave b ∈ inner := (below.mem_events herase).mpr
              ⟨hnodup.mem_erase_iff.mpr ⟨same, hseen⟩, below.roots_seen herase b hb⟩
            exact .inr (.inr (.inl (hbefore hin (by simp))))
        · exact .inl hseen
      rcases List.mem_append.mp ha with hin | ha
      · have hleave : .leave a ∈ inner :=
          (below.mem_events herase).mpr ((below.mem_events herase (e := .enter a)).mp hin)
        rcases ihBelow herase hin with hseen | hsame | hs | ⟨hs, hs', hpath⟩
        · by_cases same : b = u
          · subst same
            have hin' : .enter a ∈ inner ++ .leave b :: outer := List.mem_append_left _ hin
            exact .inr (.inr (.inr ⟨(List.singleton_sublist.mpr hin').cons_cons _,
              hbefore hleave (by simp), path_below (below.path_from_root hin)⟩))
          · exact .inl fun h => hseen (hnodup.mem_erase_iff.mpr ⟨same, h⟩)
        · exact .inr (.inl hsame)
        · exact .inr (.inr (.inl (hs.trans hinner)))
        · exact .inr (.inr (.inr ⟨hs.trans hinner, hs'.trans hinner, path_mono hpath hinner⟩))
      · have ha : .enter a ∈ outer := by simpa using ha
        have hleave : .leave a ∈ outer :=
          (later.mem_events hmiddle).mpr ((later.mem_events hmiddle (e := .enter a)).mp ha)
        rcases ihLater hmiddle ha with hseen | hsame | hs | ⟨hs, hs', hpath⟩
        · by_cases hnew : b ∈ unseen
          · refine .inr (.inr (.inl ?_))
            by_cases same : b = u
            · subst same
              have : [.leave b, .leave a].Sublist (.leave b :: outer) :=
                (List.singleton_sublist.mpr hleave).cons_cons _
              exact (this.trans (List.sublist_append_right _ _)).cons _
            · refine hbefore ((below.mem_events herase).mpr ⟨?_, hseen⟩) (by simp [hleave])
              exact hnodup.mem_erase_iff.mpr ⟨same, hnew⟩
          · exact .inl hnew
        · exact .inr (.inl hsame)
        · exact .inr (.inr (.inl (hs.trans houter)))
        · exact .inr (.inr (.inr ⟨hs.trans houter, hs'.trans houter, path_mono hpath houter⟩))

end Forest

end WalkEvent

namespace NodeGraph

variable {g : NodeGraph} {u v n : Nat}

theorem exists_forest_walk (g : NodeGraph)
    : ∃ rest, WalkEvent.Forest (fun u => (g.successors u).reverse) g.nodes [entry] g.walk rest := by
  obtain ⟨events, rest, forest, hrun⟩ :=
    WalkEvent.exists_forest (fun u => (g.successors u).reverse) g.nodes [entry]
  have hwalk : g.walk = events := by
    have := hrun []
    rwa [WalkEvent.run, List.append_nil, List.append_nil] at this
  exact ⟨rest, hwalk ▸ forest⟩

theorem nodup_walk (g : NodeGraph)
    : g.walk.Nodup := by
  obtain ⟨rest, forest⟩ := g.exists_forest_walk
  exact forest.nodup_events List.nodup_range

/-- The walk enters and leaves every node that can be reached. -/
theorem mem_walk (hsize : 0 < g.size) (h : g.Reaches e.node)
    : e ∈ g.walk := by
  obtain ⟨rest, forest⟩ := g.exists_forest_walk
  have hmem := fun e => forest.mem_events (e := e) List.nodup_range
  suffices hrest : e.node ∉ rest from
    (hmem e).mpr ⟨List.mem_range.mpr (h.lt_size hsize), hrest⟩
  generalize e.node = n at h
  induction h with
  | refl => exact forest.roots_seen List.nodup_range entry (by simp)
  | @tail a b path edge ih =>
      have ha : .enter a ∈ g.walk :=
        (hmem _).mpr ⟨List.mem_range.mpr (Reaches.lt_size path hsize), ih⟩
      have hb : b ∈ (g.successors a).reverse := by simpa [mem_successors] using edge
      rcases forest.edge List.nodup_range ha hb with hseen | hsame | hs | ⟨hs, -⟩
      · exact absurd (List.mem_range.mpr (lt_size_of_mem_predecessors edge)) hseen
      · exact hsame ▸ ih
      · exact ((hmem _).mp (hs.subset List.mem_cons_self)).2
      · exact ((hmem _).mp (hs.subset List.mem_cons_self)).2

theorem timeOf_eq_idxOf {walk : List WalkEvent} (h : e ∈ walk)
    : timeOf walk e = walk.idxOf e := by
  induction walk with
  | nil => cases h
  | cons x rest ih =>
      by_cases same : x = e
      · simp [timeOf, List.idxOf?_cons, same]
      · have hrest : e ∈ rest := (List.mem_cons.mp h).resolve_left (Ne.symm same)
        obtain ⟨i, hi⟩ := Option.isSome_iff_exists.mp (List.isSome_idxOf?.mpr hrest)
        have hidx := ih hrest
        simp only [timeOf, hi, Option.getD_some] at hidx
        simp [timeOf, List.idxOf?_cons, hi, List.idxOf_cons_ne rest same, same, hidx]

theorem timeOf_lt {walk : List WalkEvent} {x y : WalkEvent} (hnodup : walk.Nodup)
    (h : [x, y].Sublist walk)
    : timeOf walk x < timeOf walk y := by
  rw [timeOf_eq_idxOf (h.subset (by simp)), timeOf_eq_idxOf (h.subset (by simp))]
  obtain ⟨before, after, rfl, hx, hy⟩ := List.cons_sublist_iff.mp h
  have hy : y ∈ after := List.singleton_sublist.mp hy
  have hnot : y ∉ before := fun hm => (List.nodup_append.mp hnodup).2.2 y hm y hy rfl
  have hlt := List.idxOf_lt_length_of_mem hx
  rw [List.idxOf_append, List.idxOf_append, if_pos hx, if_neg hnot]
  omega

/-- The target of an edge that is no back edge is left before the source. -/
theorem leave_lt_of_not_isBackEdge (hsize : 0 < g.size) (hu : g.Reaches u)
    (edge : u ∈ g.predecessors v) (hback : isBackEdge g.walk u v = false)
    : timeOf g.walk (.leave v) < timeOf g.walk (.leave u) := by
  obtain ⟨rest, forest⟩ := g.exists_forest_walk
  have hv : v ∈ (g.successors u).reverse := by simpa [mem_successors] using edge
  simp only [isBackEdge, Bool.or_eq_false_iff, Bool.and_eq_false_iff,
    decide_eq_false_iff_not] at hback
  rcases forest.edge List.nodup_range (mem_walk hsize hu) hv with hseen | hsame | hs | ⟨hs, hs', -⟩
  · exact absurd (List.mem_range.mpr (lt_size_of_mem_predecessors edge)) hseen
  · exact absurd hsame hback.1
  · exact timeOf_lt g.nodup_walk hs
  · have := timeOf_lt g.nodup_walk hs
    have := timeOf_lt g.nodup_walk hs'
    omega

theorem mem_forwardPredecessors
    : u ∈ g.forwardPredecessors g.walk v
      ↔ u ∈ g.predecessors v ∧ isBackEdge g.walk u v = false := by
  simp [forwardPredecessors]

/-- An edge from a node that the walk enters first is no back edge. -/
theorem isBackEdge_of_entered (h : [.enter u, .enter v].Sublist g.walk)
    : isBackEdge g.walk u v = false := by
  have hlt := timeOf_lt g.nodup_walk h
  have hne : u ≠ v := fun same => Nat.lt_irrefl _ (same ▸ hlt)
  simp only [isBackEdge, Bool.or_eq_false_iff, Bool.and_eq_false_iff, decide_eq_false_iff_not]
  exact ⟨hne, .inl (by omega)⟩

/-- Every node but the entry has an edge from a node that the walk enters first. -/
theorem exists_forward_predecessor (hsize : 0 < g.size) (hv : g.Reaches v) (hne : v ≠ entry)
    : ∃ u ∈ g.predecessors v, isBackEdge g.walk u v = false := by
  obtain ⟨rest, forest⟩ := g.exists_forest_walk
  rcases forest.entered_after (mem_walk hsize hv) with hroot | ⟨u, hu, hs⟩
  · exact absurd (List.mem_singleton.mp hroot) hne
  · exact ⟨u, by simpa [mem_successors] using hu, isBackEdge_of_entered hs⟩

/-- The walk leaves the entry last. -/
theorem leave_lt_entry (hsize : 0 < g.size) (hu : g.Reaches u) (hne : u ≠ entry)
    : timeOf g.walk (.leave u) < timeOf g.walk (.leave entry) := by
  obtain ⟨rest, forest⟩ := g.exists_forest_walk
  refine timeOf_lt g.nodup_walk ?_
  have hmem : .leave u ∈ g.walk := mem_walk hsize hu
  generalize g.walk = events at forest hmem
  cases forest with
  | skip seen => exact absurd (List.mem_range.mpr hsize) seen
  | @tree _ _ _ inner _ _ _ _ _ later =>
      cases later
      have hinner : .leave u ∈ inner := by simpa [hne] using hmem
      exact ((List.singleton_sublist.mpr hinner).append (.refl [.leave entry])).cons _

/-- A back edge between two nodes closes a circle, in which all other edges are no back edges. -/
theorem path_of_isBackEdge (hsize : 0 < g.size) (hu : g.Reaches u) (edge : u ∈ g.predecessors v)
    (hback : isBackEdge g.walk u v = true) (hne : u ≠ v)
    : ReflTransGen (fun a b => a ∈ g.forwardPredecessors g.walk b) v u := by
  obtain ⟨rest, forest⟩ := g.exists_forest_walk
  have hv : v ∈ (g.successors u).reverse := by simpa [mem_successors] using edge
  simp only [isBackEdge, Bool.or_eq_true, Bool.and_eq_true, decide_eq_true_eq, hne,
    false_or] at hback
  rcases forest.edge List.nodup_range (mem_walk hsize hu) hv with hseen | hsame | hs | ⟨-, -, path⟩
  · exact absurd (List.mem_range.mpr (lt_size_of_mem_predecessors edge)) hseen
  · exact absurd hsame hne
  · have := timeOf_lt g.nodup_walk hs
    omega
  · refine ReflTransGen.mono (fun a b step => ?_) _ _ path
    exact mem_forwardPredecessors.mpr
      ⟨by simpa [mem_successors] using step.edge, isBackEdge_of_entered step.later⟩

end NodeGraph

end StackLift
