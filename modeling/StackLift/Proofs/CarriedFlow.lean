import StackLift.Proofs.LabelPositions

/-!
Control flows between the instructions of nodes as it does between the nodes of the method. Nodes
without instructions are passed.
-/

namespace StackLift

/-- The node has no instructions but markers. -/
def Silent (nodes : List (List Inst)) (n : Nat) : Prop :=
  ∀ i ∈ nodes.getD n [], i.isMarker = true

instance (nodes : List (List Inst)) (n : Nat) : Decidable (Silent nodes n) :=
  inferInstanceAs (Decidable (∀ i ∈ nodes.getD n [], i.isMarker = true))

/-- Control goes from one node to another, and on its way only through silent nodes. -/
inductive Method.FlowsTo (m : Method) (nodes : List (List Inst)) : Nat → Nat → Prop where
  | edge {u v : Nat} : m.Flow u v → FlowsTo m nodes u v
  | through {u w v : Nat} : m.Flow u w → Silent nodes w → FlowsTo m nodes w v →
      FlowsTo m nodes u v

variable {m : Method} {graph : MethodGraph} {labels : List (Label × CodeLabel)}
  {nodes : List (List Inst)} {n i u v : Nat} {r : ResolvedCode}

theorem silent_iff
    : Silent nodes n ↔ nodePlace nodes (n + 1) = nodePlace nodes n := by
  rw [nodePlace_succ, Nat.add_eq_left, executed, List.length_eq_zero_iff, List.filter_eq_nil_iff]
  simp [Silent]

theorem nodePlace_lt_of_not_silent (h : ¬ Silent nodes n)
    : nodePlace nodes n < nodePlace nodes (n + 1) :=
  Nat.lt_of_le_of_ne (nodePlace_mono nodes (Nat.le_add_right n 1)) fun same =>
    h (silent_iff.mpr same.symm)

/-- Dead nodes have no instructions. -/
theorem Layout.live_of_not_silent (layout : Layout m graph labels nodes) (hu : ¬ Silent nodes u)
    : graph.graph.Reaches u := by
  by_contra dead
  refine hu fun i hi => ?_
  have hcontrol : i.control ∈ controlsOf nodes u := List.mem_map_of_mem hi
  rw [layout.dead dead, Option.mem_toList, Option.map_eq_some_iff] at hcontrol
  obtain ⟨_, -, hcontrol⟩ := hcontrol
  rw [← i.isMarker_control, ← hcontrol]
  rfl

-- Flow of instructions

variable {h : Hierarchy}

theorem FlowGraph.mem_successors {j : Nat}
    : j ∈ (ofResolved r h).successors i ↔ ∃ k, (r.inst? i).map Inst.control = some k ∧ k ≠ .exit
        ∧ if k.isJump then ∃ c ∈ k.targets, r.labelTarget c = .ok j
          else j = i + 1 ∧ i + 1 < r.size := by
  rw [successors_eq, flow]
  cases hinst : r.inst? i with
  | none => simp
  | some inst =>
      simp only [Option.map_some, Option.some.injEq, exists_eq_left', ne_eq, inst.isExit_control,
        inst.isJump_control, inst.targets_control]
      by_cases exits : inst.isTerminating = true
      · simp [exits]
      · by_cases jumps : inst.isBranching = true
        · simp [exits, jumps, ResolvedCode.mem_jumpTargets hinst]
        · by_cases hlast : i + 1 < r.size <;> simp [exits, jumps, hlast]

namespace Resolution

variable (resolution : Resolution m graph labels nodes r)
include resolution

theorem le_length_of_nodePlace_lt (h : nodePlace nodes v < r.size)
    : v ≤ m.nodes.length := by
  by_contra after
  have hlength : nodes.length ≤ v := resolution.layout.size ▸ Nat.lt_of_not_le after
  have hplace := nodePlace_mono nodes hlength
  rw [nodePlace_length, ← resolution.size_eq] at hplace
  exact Nat.not_lt_of_le hplace h

section

variable (live : graph.graph.Reaches u)
include live

/-- Control goes from each instruction of a node to the next one. -/
theorem mem_successors_inner (hi : Emitted nodes u i) (hnext : Emitted nodes u (i + 1)) {j : Nat}
    (hj : j ∈ (FlowGraph.ofResolved r h).successors i)
    : j = i + 1 := by
  obtain ⟨plain, closing, hcontrols, hplain, hclosing⟩ := resolution.layout.exists_closing live
  have hin : i - nodePlace nodes u < plain.length := by
    have hstart := hi.1
    have hend := hnext.2
    rw [nodePlace_succ_eq, hcontrols, List.length_append] at hend
    have hlength := hclosing.length_le
    omega
  obtain ⟨k, hk, -, hj⟩ := FlowGraph.mem_successors.mp hj
  rw [resolution.control_at hi, hcontrols, List.getElem?_append_left hin] at hk
  rw [if_neg (by simp [hplain k (List.mem_of_getElem? hk)])] at hj
  exact hj.1

/-- Control goes from the last instruction of a node to the places of the nodes to which it flows
from the node.
-/
theorem mem_successors_last (hi : Emitted nodes u i) (hlast : nodePlace nodes (u + 1) = i + 1)
    {j : Nat}
    : j ∈ (FlowGraph.ofResolved r h).successors i
      ↔ j < r.size ∧ ∃ w, m.Flow u w ∧ nodePlace nodes w = j := by
  obtain ⟨plain, closing, hcontrols, hplain, hclosing⟩ := resolution.layout.exists_closing live
  have hat := resolution.control_at hi
  have hend := nodePlace_succ_eq nodes u
  rw [hcontrols] at hat hend
  rw [hlast] at hend
  have hstart := hi.1
  rw [FlowGraph.mem_successors, hat]
  cases hclosing with
  | falls hb =>
      have hflow := fun v => Method.flow_of_straight (v := v) (resolution.layout.le_length live) hb
      rw [List.append_nil] at hend ⊢
      have hin : i - nodePlace nodes u < plain.length := by omega
      obtain ⟨hexit, hjump⟩ := hplain _ (List.getElem_mem hin)
      simp only [List.getElem?_eq_getElem hin, Option.some.injEq, exists_eq_left', ne_eq, hexit,
        not_false_eq_true, true_and, hjump, Bool.false_eq_true, if_false, hflow, and_assoc,
        exists_eq_left, hlast]
      constructor
      · rintro ⟨rfl, hlt⟩
        exact ⟨hlt, resolution.le_length_of_nodePlace_lt (hlast ▸ hlt), rfl⟩
      · rintro ⟨hlt, -, rfl⟩
        exact ⟨rfl, hlt⟩
  | exits hnone =>
      have hindex : i - nodePlace nodes u = plain.length := by
        rw [List.length_append, List.length_singleton] at hend
        omega
      simp [hindex, hnone]
  | @jumps cs hall honly =>
      have hindex : i - nodePlace nodes u = plain.length := by
        rw [List.length_append, List.length_singleton] at hend
        omega
      simp only [hindex, List.getElem?_concat_length, Option.some.injEq, exists_eq_left', ne_eq,
        reduceCtorEq, not_false_eq_true, true_and, Control.isJump, if_true, Control.targets,
        ResolvedCode.labelTarget, ResolvedCode.target_eq_ok]
      constructor
      · rintro ⟨c, hc, hplace, hlt⟩
        obtain ⟨w, hw, hflow⟩ := honly c hc
        cases hplace.symm.trans (resolution.position_eq hw)
        refine ⟨hlt, w, hflow.resolve_right ?_, rfl⟩
        rintro ⟨rfl, hend, -⟩
        exact Nat.ne_of_lt (resolution.le_length_of_nodePlace_lt hlt) hend
      · rintro ⟨hlt, w, hflow, rfl⟩
        obtain ⟨c, hc, hplace⟩ := hall w hflow
        exact ⟨c, hc, resolution.position_eq hplace, hlt⟩

/-- An edge from a node leads to the place of a node to which control flows. -/
theorem exists_edge_iff (hu : ¬ Silent nodes u) {j : Nat}
    : (∃ i, Emitted nodes u i ∧ j ∈ (FlowGraph.ofResolved r h).successors i
        ∧ ¬ (j = i + 1 ∧ Emitted nodes u j))
      ↔ j < r.size ∧ ∃ w, m.Flow u w ∧ nodePlace nodes w = j := by
  constructor
  · rintro ⟨i, hi, hj, hout⟩
    by_cases hnext : Emitted nodes u (i + 1)
    · have hsame := resolution.mem_successors_inner live hi hnext hj
      exact (hout ⟨hsame, hsame ▸ hnext⟩).elim
    · have hlast : nodePlace nodes (u + 1) = i + 1 := by
        have hstart := hi.1
        have hend := hi.2
        simp only [Emitted, not_and, Nat.not_lt] at hnext
        omega
      exact (resolution.mem_successors_last live hi hlast).mp hj
  · intro hflow
    have hlt := nodePlace_lt_of_not_silent hu
    obtain ⟨i, hlast⟩ := Nat.exists_eq_add_one_of_ne_zero (Nat.ne_zero_of_lt hlt)
    have hi : Emitted nodes u i := ⟨by omega, by omega⟩
    refine ⟨i, hi, (resolution.mem_successors_last live hi hlast).mpr hflow, ?_⟩
    rintro ⟨rfl, hnext⟩
    exact Nat.lt_irrefl _ (hlast ▸ hnext.2)

/-- Control flows on from a silent node to the next node. -/
theorem flow_of_silent (hu : Silent nodes u)
    : m.Flow u v ↔ v = u + 1 ∧ u < m.nodes.length := by
  obtain ⟨plain, closing, hcontrols, -, hclosing⟩ := resolution.layout.exists_closing live
  have hnone : closing = [] := by
    have hend := nodePlace_succ_eq nodes u
    rw [silent_iff.mp hu, hcontrols, List.length_append] at hend
    exact List.length_eq_zero_iff.mp (by omega)
  subst hnone
  cases hclosing with
  | falls hb => exact Method.flow_of_straight (resolution.layout.le_length live) hb

omit live in
/-- Nodes with the same place as a later node are silent, and control flows through them. -/
theorem flowsTo_of_nodePlace_eq {w : Nat} (live : graph.graph.Reaches w) (hv : ¬ Silent nodes v)
    (h : nodePlace nodes w = nodePlace nodes v)
    : w = v ∨ Silent nodes w ∧ m.FlowsTo nodes w v := by
  have hplace := nodePlace_lt_of_not_silent hv
  have hlength : v ≤ m.nodes.length :=
    resolution.le_length_of_nodePlace_lt (resolution.lt_size ⟨Nat.le_refl _, hplace⟩)
  have hle : w ≤ v := by
    by_contra after
    have hafter : nodePlace nodes (v + 1) ≤ nodePlace nodes w :=
      nodePlace_mono nodes (Nat.lt_of_not_le after)
    omega
  -- The nodes between the two have the same place.
  induction hd : v - w generalizing w with
  | zero => exact .inl (by omega)
  | succ d ih =>
      have hnext : w + 1 ≤ v := by omega
      have hsame : nodePlace nodes (w + 1) = nodePlace nodes w :=
        Nat.le_antisymm (h ▸ nodePlace_mono nodes hnext)
          (nodePlace_mono nodes (Nat.le_add_right w 1))
      have hw : Silent nodes w := silent_iff.mpr hsame
      have hend : w < m.nodes.length := Nat.lt_of_lt_of_le hnext hlength
      have hflow : m.Flow w (w + 1) := (resolution.flow_of_silent live hw).mpr ⟨rfl, hend⟩
      refine .inr ⟨hw, ?_⟩
      rcases ih (resolution.layout.reaches_of_flow live hflow) (hsame.trans h) hnext (by omega) with
        rfl | ⟨hsilent, hrest⟩
      · exact .edge hflow
      · exact .through hflow hsilent hrest

/-- Silent nodes between two nodes do not change where control flows. -/
theorem flowsTo_iff (hv : ¬ Silent nodes v)
    : m.FlowsTo nodes u v ↔ ∃ w, m.Flow u w ∧ nodePlace nodes w = nodePlace nodes v := by
  constructor
  · intro h
    induction h with
    | edge h => exact ⟨_, h, rfl⟩
    | @through u w v h hw _ ih =>
        have hlive := resolution.layout.reaches_of_flow live h
        obtain ⟨w', h', hplace⟩ := ih hlive hv
        rw [((resolution.flow_of_silent hlive hw).mp h').1, silent_iff.mp hw] at hplace
        exact ⟨w, h, hplace⟩
  · rintro ⟨w, h, hplace⟩
    have hlive := resolution.layout.reaches_of_flow live h
    rcases resolution.flowsTo_of_nodePlace_eq hlive hv hplace with rfl | ⟨hw, hflow⟩
    · exact .edge h
    · exact .through h hw hflow

end

theorem reaches_of_not_silent (hu : ¬ Silent nodes u)
    : graph.graph.Reaches u :=
  resolution.layout.live_of_not_silent hu

end Resolution

/-- For nodes that have instructions, which only live nodes do, there is an edge from an instruction
of one node to the first instruction of another exactly if control flows from the one node to the
other, and on its way only through nodes without instructions. The step from an instruction to the
next one of the same node is no such edge.
-/
theorem edges_between_nodes_follow_flow {settings : Settings} {code : List Inst} {g : FlowGraph}
    (once : m.LabelsOnce) (raw : settings.simplify = false) (lifted : m.lift settings = .ok code)
    {hierarchy : Hierarchy} (accepted : FlowGraph.ofCode code hierarchy = .ok g)
    (hnodes : m.liftNodes settings = .ok nodes) (hu : ¬ Silent nodes u) (hv : ¬ Silent nodes v)
    : (∃ i, Emitted nodes u i ∧ nodePlace nodes v ∈ g.successors i
        ∧ ¬ (nodePlace nodes v = i + 1 ∧ Emitted nodes u (nodePlace nodes v)))
      ↔ m.FlowsTo nodes u v := by
  obtain ⟨graph, labels, r, -, resolution, rfl⟩ :=
    resolution_of_lift once raw lifted accepted hnodes
  have live := resolution.reaches_of_not_silent hu
  have hfirst : nodePlace nodes v < r.size :=
    resolution.lt_size ⟨Nat.le_refl _, nodePlace_lt_of_not_silent hv⟩
  rw [resolution.exists_edge_iff live hu, resolution.flowsTo_iff live hv, and_iff_right hfirst]

/-- A conditional jump goes on to a return, past a node that only loads a local variable. -/
theorem loop_flows_to_return
    : ∃ code nodes g, entersMiddle.lift rawSettings = .ok code
        ∧ FlowGraph.ofCode code ⟨[]⟩ = .ok g ∧ entersMiddle.liftNodes rawSettings = .ok nodes
        ∧ ¬ Silent nodes 8 ∧ Silent nodes 9 ∧ ¬ Silent nodes 10
        ∧ ∃ i, Emitted nodes 8 i ∧ nodePlace nodes 10 ∈ g.successors i := by
  obtain ⟨code, lifted, g, accepted⟩ : ∃ code, entersMiddle.lift rawSettings = .ok code
      ∧ ∃ g, FlowGraph.ofCode code ⟨[]⟩ = .ok g := by decide +kernel
  obtain ⟨nodes, hnodes, hjump, hload, hreturn⟩ : ∃ nodes,
      entersMiddle.liftNodes rawSettings = .ok nodes
        ∧ ¬ Silent nodes 8 ∧ Silent nodes 9 ∧ ¬ Silent nodes 10 := by decide +kernel
  have hflow : entersMiddle.FlowsTo nodes 8 10 :=
    .through (.falls rfl rfl (by decide)) hload (.edge (.falls rfl rfl (by decide)))
  obtain ⟨i, hi, hedge, -⟩ := (edges_between_nodes_follow_flow (by decide) rfl lifted accepted
    hnodes hjump hreturn).mpr hflow
  exact ⟨code, nodes, g, lifted, accepted, hnodes, hjump, hload, hreturn, i, hi, hedge⟩

end StackLift
