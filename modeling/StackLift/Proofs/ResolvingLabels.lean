import StackLift.Proofs.LabelPositions
import StackLift.Proofs.SimplifiedControl

/-!
The labels of lifted code resolve. Every label that is named is placed once, and jumps lead to
instructions unless the method ends in a live node from which control falls off.
-/

namespace StackLift

open ResolvedCode

-- Labels in a skeleton

theorem placedIn_skeleton (code : List Inst)
    : placedIn (skeleton code) = placedIn (code.map Inst.control) := by
  rw [placedIn, skeleton, List.filterMap_filter]
  refine List.filterMap_congr fun k _ => ?_
  cases k <;> rfl

theorem count_label (code : List Inst) (c : CodeLabel)
    : code.count (.label c) = (placedIn (code.map Inst.control)).count c := by
  induction code with
  | nil => rfl
  | cons i rest ih =>
      rw [List.count_cons, ih, List.map_cons]
      cases i <;>
        simp [Inst.control, Control.label?, placedIn, List.filterMap_cons, List.count_cons]

/-- A label is followed by an instruction that is not dropped when the code is simplified. -/
def Lands (code : List Control) (c : CodeLabel) : Prop :=
  ∃ before after, code = before ++ Control.label c :: after
    ∧ ∃ k ∈ after, k.isMarker = false ∧ k ≠ .step

variable {c : CodeLabel}

theorem Lands.append_left {code : List Control} (h : Lands code c) (marks : List Control)
    : Lands (marks ++ code) c := by
  obtain ⟨before, after, rfl, h⟩ := h
  exact ⟨marks ++ before, after, by simp, h⟩

theorem lands_skeleton {code : List Inst}
    : Lands (skeleton code) c ↔ Lands (code.map Inst.control) c := by
  constructor
  · rintro ⟨before, after, heq, k, hk, hexecutes⟩
    obtain ⟨l, rest, hcode, -, hrest⟩ := List.filter_eq_append_iff.mp heq
    obtain ⟨l', after', rfl, -, -, rfl⟩ := List.filter_eq_cons_iff.mp hrest
    exact ⟨l ++ l', after', by simp [hcode], k, (List.mem_filter.mp hk).1, hexecutes⟩
  · rintro ⟨before, after, heq, k, hk, hexecutes⟩
    refine ⟨before.filter (· ≠ .step), after.filter (· ≠ .step), by simp [skeleton, heq], k, ?_,
      hexecutes⟩
    exact List.mem_filter.mpr ⟨hk, by simpa using hexecutes.2⟩

/-- The place of a label that lands is that of an instruction. -/
theorem Lands.position {code : List Inst} {c : CodeLabel} (h : Lands (code.map Inst.control) c)
    (once : (placedIn (code.map Inst.control)).Nodup)
    : ∃ q, position (places 0 code).reverse c = .ok q
        ∧ q < executed code := by
  obtain ⟨before, after, heq, k, hk, hexecutes, -⟩ := h
  obtain ⟨A, rest, rfl, -, hrest⟩ := List.map_eq_append_iff.mp heq
  obtain ⟨i, B, rfl, hi, hB⟩ := List.map_eq_cons_iff.mp hrest
  cases i.control_eq_label.mp hi
  refine ⟨_, position_eq once rfl, ?_⟩
  have hpos : 0 < executed B := by
    rw [executed_eq, hB, List.length_pos_iff_exists_mem]
    exact ⟨k, List.mem_filter.mpr ⟨hk, by simp [hexecutes]⟩⟩
  have hcons : executed (.label c :: B) = executed B := rfl
  rw [executed_append, hcons]
  exact Nat.lt_add_of_pos_right hpos

/-- Code with placed labels is accepted if its jumps land. -/
theorem exists_ofCode_of_lands {code : List Inst}
    (once : (placedIn (code.map Inst.control)).Nodup)
    (named : ∀ i ∈ code, ∀ c ∈ i.control.named, .label c ∈ code)
    (lands : ∀ i ∈ code, ∀ c ∈ i.targets, Lands (code.map Inst.control) c)
    : ∃ r, ofCode code = .ok r := by
  refine exists_ofCode (fun i hi c hc => (lands i hi c hc).position once) ?_
  intro x handler entries hi e he c hc
  have hnamed : c ∈ (Inst.catches x handler entries).control.named :=
    List.mem_cons_of_mem _ (List.mem_flatMap.mpr ⟨e, he, hc⟩)
  obtain ⟨before, after, hcode⟩ := List.mem_iff_append.mp (named _ hi c hnamed)
  exact ⟨_, position_eq once hcode⟩

-- Lifted code

variable {m : Method} {graph : MethodGraph} {labels : List (Label × CodeLabel)}
  {nodes : List (List Inst)} {u v : Nat} {k : Control}

theorem Control.eq_jumps_of_mem_targets (h : c ∈ k.targets)
    : ∃ cs, k = .jumps cs := by
  cases k with
  | jumps cs => exact ⟨cs, rfl⟩
  | _ => cases h

theorem Method.getLast?_of_node? {node : Node} (h : m.node? m.nodes.length = some node)
    : m.nodes.getLast? = some node := by
  obtain ⟨i, hi, hnode⟩ := Method.node?_eq_some.mp h
  rw [List.getLast?_eq_getElem?, hi, Nat.add_sub_cancel, hnode]

theorem Method.Flow.pos (h : m.Flow u v)
    : 0 < v := by
  cases h with
  | enters => exact Nat.one_pos
  | falls => exact Nat.succ_pos _
  | jumps _ _ hv =>
      obtain ⟨i, rfl, -⟩ := Method.node?_eq_some.mp hv
      exact Nat.succ_pos i

namespace Layout

variable (layout : Layout m graph labels nodes)
include layout

/-- Control leaves a live node by an instruction, or it goes on to the next node. -/
theorem exits_or_continues (ends : ∀ {u}, graph.graph.Reaches u → ¬ m.FallsOff u)
    (live : graph.graph.Reaches v) (hv : 0 < v)
    : (∃ k ∈ controlsOf nodes v, k.isMarker = false ∧ k ≠ .step) ∨ graph.graph.Reaches (v + 1) := by
  obtain ⟨plain, closing, hcontrols, -, hclosing⟩ := layout.exists_closing live
  have hmem : ∀ k ∈ closing, k ∈ controlsOf nodes v ∧ k.isMarker = false := by
    intro k hk
    have hk : k ∈ (controlsOf nodes v).filter fun k => !k.isMarker := by simp [hcontrols, hk]
    simpa using hk
  cases hclosing with
  | falls hb =>
      have hle := layout.le_length live
      rcases Nat.lt_or_eq_of_le hle with hlt | hend
      · exact .inr (layout.reaches_of_flow live ((Method.flow_of_straight hle hb).mpr ⟨rfl, hlt⟩))
      · refine (ends live ⟨hend, ?_⟩).elim
        obtain ⟨i, rfl⟩ := Nat.exists_eq_add_one_of_ne_zero (Nat.ne_zero_of_lt hv)
        have hnode : m.node? (i + 1) = some m.nodes[i] := List.getElem?_eq_getElem hle
        refine ⟨_, hnode, ?_⟩
        cases h : m.nodes[i] with
        | branch b => exact (hb b (h ▸ hnode)).elim
        | _ => rfl
  | exits =>
      obtain ⟨hk, hexecutes⟩ := hmem .exit (by simp)
      exact .inl ⟨_, hk, hexecutes, by simp⟩
  | @jumps cs =>
      obtain ⟨hk, hexecutes⟩ := hmem (.jumps cs) (by simp)
      exact .inl ⟨_, hk, hexecutes, by simp⟩

/-- From a live node on, there is an instruction that leaves its node. -/
theorem exists_exit (ends : ∀ {u}, graph.graph.Reaches u → ¬ m.FallsOff u)
    (live : graph.graph.Reaches v) (hv : 0 < v)
    : ∃ w, v ≤ w ∧ ∃ k ∈ controlsOf nodes w, k.isMarker = false ∧ k ≠ .step := by
  induction hd : m.nodes.length - v generalizing v with
  | zero =>
      rcases layout.exits_or_continues ends live hv with hexit | hnext
      · exact ⟨v, Nat.le_refl v, hexit⟩
      · have hle := layout.le_length hnext
        omega
  | succ d ih =>
      rcases layout.exits_or_continues ends live hv with hexit | hnext
      · exact ⟨v, Nat.le_refl v, hexit⟩
      · obtain ⟨w, hw, hexit⟩ := ih hnext (Nat.succ_pos v) (by omega)
        exact ⟨w, Nat.le_of_succ_le hw, hexit⟩

omit layout in
theorem controlsOf_drop (nodes : List (List Inst)) (v n : Nat)
    : controlsOf (nodes.drop v) n = controlsOf nodes (v + n) := by
  simp [controlsOf]

omit layout in
theorem controls_take_succ (nodes : List (List Inst)) (u : Nat)
    : (nodes.take (u + 1)).flatten.map Inst.control
      = (nodes.take u).flatten.map Inst.control ++ controlsOf nodes u := by
  rw [List.take_add_one, List.flatten_append, List.map_append, controlsOf]
  cases h : nodes[u]? <;> simp [h]

omit layout in
/-- The code before a node and from it on. -/
theorem controls_split (nodes : List (List Inst)) (v : Nat)
    : nodes.flatten.map Inst.control = (nodes.take v).flatten.map Inst.control
        ++ (nodes.drop v).flatten.map Inst.control := by
  rw [← List.map_append, ← List.flatten_append, List.take_append_drop]

variable (ends : ∀ {u}, graph.graph.Reaches u → ¬ m.FallsOff u)
include ends

theorem lands_of_standsAt (live : graph.graph.Reaches v) (hv : 0 < v) (h : StandsAt nodes c v)
    : Lands (nodes.flatten.map Inst.control) c := by
  obtain ⟨w, hw, k, hk, hexecutes⟩ := layout.exists_exit ends live hv
  have hk : k ∈ (nodes.drop v).flatten.map Inst.control := by
    refine mem_controlsOf.mpr ⟨w - v, ?_⟩
    rw [controlsOf_drop, Nat.add_sub_cancel' hw]
    exact hk
  rw [controls_split nodes v]
  cases h with
  | lead hlead =>
      obtain ⟨rest, hrest⟩ :
          ∃ rest, (nodes.drop v).flatten.map Inst.control = .label c :: rest := by
        rw [flatten_split (nodes.drop v) 0, List.map_append, List.map_append]
        change ∃ rest, _ ++ (controlsOf (nodes.drop v) 0 ++ _) = _
        rw [controlsOf_drop, Nat.add_zero, hlead]
        exact ⟨_, rfl⟩
      rw [hrest] at hk ⊢
      refine ⟨_, rest, rfl, k, (List.mem_cons.mp hk).resolve_left ?_, hexecutes⟩
      rintro rfl
      cases hexecutes.1
  | @last u before hlast =>
      rw [controls_take_succ, hlast, ← List.append_assoc, List.append_assoc _ [_]]
      exact ⟨_, _, rfl, k, hk, hexecutes⟩

/-- The targets of all jumps land. -/
theorem lands_of_target (hk : k ∈ controlsOf nodes u) (hc : c ∈ k.targets)
    : Lands (nodes.flatten.map Inst.control) c := by
  obtain ⟨cs, rfl⟩ := Control.eq_jumps_of_mem_targets hc
  have live : graph.graph.Reaches u := by
    by_contra dead
    rw [layout.dead dead, Option.mem_toList, Option.map_eq_some_iff] at hk
    obtain ⟨_, -, hk⟩ := hk
    cases hk
  obtain ⟨plain, closing, hcontrols, hplain, hclosing⟩ := layout.exists_closing live
  have hk : .jumps cs ∈ plain ++ closing := hcontrols ▸ List.mem_filter.mpr ⟨hk, rfl⟩
  rcases List.mem_append.mp hk with hk | hk
  · cases (hplain _ hk).2
  · cases hclosing with
    | falls => cases hk
    | exits => cases List.mem_singleton.mp hk
    | jumps _ honly =>
        cases List.mem_singleton.mp hk
        obtain ⟨v, hv, hflow⟩ := honly c hc
        have hflow := hflow.resolve_right fun hoff => ends live hoff.2
        exact layout.lands_of_standsAt ends (layout.reaches_of_flow live hflow) hflow.pos hv

omit ends in
/-- Every label that the code names is placed in it. -/
theorem label_mem_of_named {fresh : CodeLabel} {marks : List Inst} (hmarks : Hoisted fresh marks)
    (hk : k ∈ (marks ++ nodes.flatten).map Inst.control) (hc : c ∈ k.named)
    : .label c ∈ (marks ++ nodes.flatten).map Inst.control := by
  rw [List.map_append, List.mem_append] at hk ⊢
  rcases hk with hk | hk
  · left
    cases hmarks with
    | none => cases hk
    | line number =>
        rcases List.mem_pair.mp hk with rfl | rfl
        · cases hc
        · cases List.mem_singleton.mp hc
          exact List.mem_cons_self
  · right
    obtain ⟨n, hn⟩ := mem_controlsOf.mp hk
    exact mem_controlsOf.mpr (layout.exists_place_of_named hn hc)

/-- All jumps of the code land in it. -/
theorem lands_of_targets {fresh : CodeLabel} {marks : List Inst} (hmarks : Hoisted fresh marks)
    (hk : k ∈ (marks ++ nodes.flatten).map Inst.control) (hc : c ∈ k.targets)
    : Lands ((marks ++ nodes.flatten).map Inst.control) c := by
  rw [List.map_append] at hk ⊢
  rcases List.mem_append.mp hk with hk | hk
  · obtain ⟨cs, rfl⟩ := Control.eq_jumps_of_mem_targets hc
    cases hmarks <;> simp [Inst.control] at hk
  · obtain ⟨n, hn⟩ := mem_controlsOf.mp hk
    exact (layout.lands_of_target ends hn hc).append_left _

end Layout

/-- Every label that lifted code names, in jumps, line marks and handlers, is placed once. If the
last node of the method is dead, or control does not go on from it, then the code is accepted, and
all its jumps lead to instructions.
-/
theorem labels_of_lifted_code_resolve {settings : Settings} {code : List Inst}
    (once : m.LabelsOnce) (lifted : m.lift settings = .ok code)
    (hgraph : MethodGraph.ofMethod m = .ok graph)
    : (∀ i ∈ code, ∀ c ∈ i.control.named, code.count (.label c) = 1)
      ∧ ((∀ last, m.nodes.getLast? = some last →
            ¬ graph.graph.IsLive m.nodes.length ∨ last.fallsThrough = false) →
          ∃ r, ofCode code = .ok r
            ∧ ∀ i ∈ code, ∀ c ∈ i.targets, ∃ q < r.size, r.labelTarget c = .ok q) := by
  obtain ⟨raw, hraw, hskeleton⟩ := exists_liftRaw_of_lift lifted
  obtain ⟨graph', nodes, labels, fresh, marks, hgraph', -, rfl, layout, hmarks, hfresh⟩ :=
    exists_layout once hraw
  cases hgraph.symm.trans hgraph'
  have honce : (placedIn (code.map Inst.control)).Nodup := by
    rw [← placedIn_skeleton, hskeleton, placedIn_skeleton]
    exact layout.nodup_code hmarks hfresh
  have hmem : ∀ {k : Control}, k ≠ .step → (k ∈ code.map Inst.control
      ↔ k ∈ (marks ++ nodes.flatten).map Inst.control) := by
    intro k hk
    rw [← and_iff_left (a := k ∈ code.map _) hk, ← mem_skeleton, hskeleton, mem_skeleton,
      and_iff_left hk]
  have hnamed : ∀ i ∈ code, ∀ c ∈ i.control.named, .label c ∈ code := by
    intro i hi c hc
    have hstep : i.control ≠ .step := fun h => by
      rw [h] at hc
      cases hc
    have hi := (hmem hstep).mp (List.mem_map_of_mem hi)
    have hlabel := (hmem (by simp)).mpr (layout.label_mem_of_named hmarks hi hc)
    obtain ⟨j, hj, hcontrol⟩ := List.mem_map.mp hlabel
    rwa [← j.control_eq_label.mp hcontrol]
  refine ⟨fun i hi c hc => ?_, fun hlast => ?_⟩
  · rw [count_label]
    exact List.count_eq_one_of_mem honce (mem_placedIn.mpr (List.mem_map_of_mem (hnamed i hi c hc)))
  · have ends : ∀ {u}, graph.graph.Reaches u → ¬ m.FallsOff u := by
      rintro u live ⟨rfl, node, hnode, hfalls⟩
      rcases hlast node (Method.getLast?_of_node? hnode) with dead | hstays
      · exact dead (layout.models.pruned.isLive_iff.mpr live)
      · cases hstays.symm.trans hfalls
    have hlands : ∀ i ∈ code, ∀ c ∈ i.targets, Lands (code.map Inst.control) c := by
      intro i hi c hc
      rw [← i.targets_control] at hc
      obtain ⟨cs, hjumps⟩ := Control.eq_jumps_of_mem_targets hc
      have hi := (hmem (by simp [hjumps])).mp (List.mem_map_of_mem hi)
      rw [← lands_skeleton, hskeleton, lands_skeleton]
      exact layout.lands_of_targets ends hmarks hi hc
    obtain ⟨r, hr⟩ := exists_ofCode_of_lands honce hnamed hlands
    refine ⟨r, hr, fun i hi c hc => ?_⟩
    obtain ⟨q, hq⟩ := (resolves_ofCode hr).jumps i hi c hc
    exact ⟨q, (target_eq_ok.mp hq).2, hq⟩

/-- The labels of a loop with two entries resolve, also the one that stands for the dead end of a
protected range.
-/
theorem labels_of_entered_loop_resolve
    : ∃ code, entersMiddle.lift rawSettings = .ok code ∧ .label ⟨4⟩ ∈ code
        ∧ (∀ i ∈ code, ∀ c ∈ i.control.named, code.count (.label c) = 1)
        ∧ ∃ r, ofCode code = .ok r := by
  obtain ⟨code, lifted, hlabel⟩ : ∃ code, entersMiddle.lift rawSettings = .ok code
      ∧ .label ⟨4⟩ ∈ code := by decide +kernel
  obtain ⟨hplaced, haccepted⟩ := labels_of_lifted_code_resolve (by decide) lifted graph_entersMiddle
  have hlast : ∀ last, entersMiddle.nodes.getLast? = some last →
      ¬ enteringGraph.graph.IsLive entersMiddle.nodes.length ∨ last.fallsThrough = false := by
    rintro _ ⟨⟩
    exact .inr rfl
  obtain ⟨r, hr, -⟩ := haccepted hlast
  exact ⟨code, lifted, hlabel, hplaced, r, hr⟩

end StackLift
