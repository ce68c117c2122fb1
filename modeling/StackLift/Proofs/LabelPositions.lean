import StackLift.Proofs.NodeExits

/-!
The places of labels and instructions in code without its markers. The instructions of a node have
places next to each other, and its label has the place of the first of them.
-/

namespace StackLift

-- Code without its markers

theorem filter_map_control (code : List Inst)
    : (code.map Inst.control).filter (fun k => !k.isMarker)
      = (code.filter fun i => !i.isMarker).map Inst.control := by
  simp only [List.filter_map, Function.comp_def, Inst.isMarker_control]

theorem executed_eq (code : List Inst)
    : executed code = ((code.map Inst.control).filter fun k => !k.isMarker).length := by
  rw [filter_map_control, List.length_map, executed]

namespace ResolvedCode

variable {code : List Inst} {c : CodeLabel} {r : ResolvedCode}

theorem map_fst_places (place : Nat) (code : List Inst)
    : (places place code).map Prod.fst = placedIn (code.map Inst.control) := by
  induction code generalizing place with
  | nil => rfl
  | cons i rest ih =>
      rw [List.map_cons, placedIn, List.filterMap_cons]
      cases i <;> simp [places, ih, placedIn, Inst.control, Control.label?]

/-- A label that is placed once has the place of the next instruction. -/
theorem position_eq {before after : List Inst}
    (nodup : (placedIn (code.map Inst.control)).Nodup) (h : code = before ++ .label c :: after)
    : position (places 0 code).reverse c = .ok (executed before) := by
  have hkeys : ((places 0 code).reverse.map Prod.fst).Nodup := by
    rw [List.map_reverse, List.nodup_reverse, map_fst_places]
    exact nodup
  have hmem : (c, executed before) ∈ (places 0 code).reverse := by
    rw [List.mem_reverse, h, places_append]
    simp [places]
  rw [position, (lookup_eq_some_of_nodup hkeys).mpr hmem]

end ResolvedCode

-- Places of nodes

variable {m : Method} {graph : MethodGraph} {labels : List (Label × CodeLabel)}
  {nodes : List (List Inst)} {n : Nat}

/-- The place of the first instruction of a node, or that of the next instruction, if the node has
none.
-/
def nodePlace (nodes : List (List Inst)) (n : Nat) : Nat :=
  executed (nodes.take n).flatten

theorem nodePlace_succ (nodes : List (List Inst)) (n : Nat)
    : nodePlace nodes (n + 1) = nodePlace nodes n + executed (nodes.getD n []) := by
  rw [nodePlace, nodePlace, ← executed_append, flatten_take_succ]

theorem nodePlace_succ_eq (nodes : List (List Inst)) (n : Nat)
    : nodePlace nodes (n + 1)
      = nodePlace nodes n + ((controlsOf nodes n).filter fun k => !k.isMarker).length := by
  rw [nodePlace_succ, executed_eq]
  rfl

theorem nodePlace_mono (nodes : List (List Inst)) {n k : Nat} (h : n ≤ k)
    : nodePlace nodes n ≤ nodePlace nodes k := by
  induction h with
  | refl => exact Nat.le_refl _
  | step _ ih => exact Nat.le_trans ih (nodePlace_succ nodes _ ▸ Nat.le_add_right ..)

theorem nodePlace_le (nodes : List (List Inst)) (n : Nat)
    : nodePlace nodes n ≤ executed nodes.flatten := by
  conv_rhs => rw [← List.take_append_drop n nodes, List.flatten_append, executed_append]
  exact Nat.le_add_right ..

theorem nodePlace_length (nodes : List (List Inst))
    : nodePlace nodes nodes.length = executed nodes.flatten := by
  simp [nodePlace]

/-- The instruction at a place was lifted from a node. -/
def Emitted (nodes : List (List Inst)) (n place : Nat) : Prop :=
  nodePlace nodes n ≤ place ∧ place < nodePlace nodes (n + 1)

instance (nodes : List (List Inst)) (n place : Nat) : Decidable (Emitted nodes n place) :=
  inferInstanceAs (Decidable (_ ∧ _))

theorem emitted_of_lt {place k : Nat} (h : place < nodePlace nodes k)
    : ∃ n, Emitted nodes n place := by
  induction k with
  | zero => cases h
  | succ k ih =>
      rcases Nat.lt_or_ge place (nodePlace nodes k) with before | after
      · exact ih before
      · exact ⟨k, after, h⟩

/-- A place between those of two nodes belongs to a node between them. -/
theorem Emitted.between {place k : Nat} (h : Emitted nodes n place)
    : nodePlace nodes k ≤ place ↔ k ≤ n := by
  constructor
  · intro hk
    by_contra after
    have hplace : nodePlace nodes (n + 1) ≤ nodePlace nodes k :=
      nodePlace_mono nodes (Nat.lt_of_not_le after)
    exact Nat.not_lt_of_le (Nat.le_trans hplace hk) h.2
  · exact fun hk => Nat.le_trans (nodePlace_mono nodes hk) h.1

theorem executed_marks {fresh : CodeLabel} {marks : List Inst} (h : Hoisted fresh marks)
    : executed marks = 0 := by
  cases h <;> rfl

/-- A label of the code of a node, with the code before and after it. -/
theorem exists_inst_of_control {c : CodeLabel} {before after : List Control}
    (h : controlsOf nodes n = before ++ .label c :: after)
    : ∃ A B, nodes.getD n [] = A ++ Inst.label c :: B ∧ before = A.map Inst.control := by
  obtain ⟨A, rest, hcode, hA, hrest⟩ := List.map_eq_append_iff.mp h
  obtain ⟨i, B, rfl, hi, -⟩ := List.map_eq_cons_iff.mp hrest
  rw [i.control_eq_label.mp hi] at hcode
  exact ⟨A, B, hcode, hA.symm⟩

/-- The code of the nodes of a method, without its markers. -/
structure Resolution (m : Method) (graph : MethodGraph) (labels : List (Label × CodeLabel))
    (nodes : List (List Inst)) (r : ResolvedCode) : Prop where
  layout : Layout m graph labels nodes
  insts : r.insts.toList = nodes.flatten.filter fun i => !i.isMarker
  covered : ∀ {q i}, r.inst? q = some i →
    ResolvedCode.coveredBy r.labels q i = .ok (r.protectedBy q)
  position : ∀ {n c before after}, controlsOf nodes n = before ++ Control.label c :: after →
    ResolvedCode.position r.labels c
      = .ok (nodePlace nodes n + (before.filter fun k => !k.isMarker).length)

variable {settings : Settings}

theorem exists_resolution (once : m.LabelsOnce) {code : List Inst} {r : ResolvedCode}
    (hlift : m.liftRaw settings = .ok code) (hr : ResolvedCode.ofCode code = .ok r)
    : ∃ graph nodes labels, MethodGraph.ofMethod m = .ok graph
        ∧ m.liftNodes settings = .ok nodes ∧ Resolution m graph labels nodes r := by
  obtain ⟨graph, nodes, labels, fresh, marks, hgraph, hnodes, rfl, layout, hmarks, hfresh⟩ :=
    exists_layout once hlift
  have resolves := ResolvedCode.resolves_ofCode hr
  refine ⟨graph, nodes, labels, hgraph, hnodes, layout, ?_, resolves.covered, ?_⟩
  · rw [resolves.insts]
    cases hmarks <;> rfl
  · intro n c before after hn
    obtain ⟨A, B, hcode, rfl⟩ := exists_inst_of_control hn
    have heq : marks ++ nodes.flatten = (marks ++ (nodes.take n).flatten ++ A)
        ++ .label c :: (B ++ (nodes.drop (n + 1)).flatten) := by
      rw [flatten_split nodes n, hcode]
      simp
    rw [resolves.labels, ResolvedCode.position_eq (layout.nodup_code hmarks hfresh) heq,
      executed_append, executed_append, executed_marks hmarks, executed_eq A, Nat.zero_add]
    rfl

theorem resolution_of_lift {code : List Inst} {hierarchy : Hierarchy} {g : FlowGraph}
    (once : m.LabelsOnce) (raw : settings.simplify = false) (lifted : m.lift settings = .ok code)
    (accepted : FlowGraph.ofCode code hierarchy = .ok g) (hnodes : m.liftNodes settings = .ok nodes)
    : ∃ graph labels r, MethodGraph.ofMethod m = .ok graph ∧ Resolution m graph labels nodes r
        ∧ g = .ofResolved r hierarchy := by
  rw [lift_eq_liftRaw raw] at lifted
  obtain ⟨r, hr, h⟩ := except_bind_eq_ok.mp accepted
  cases h
  obtain ⟨graph, nodes', labels, hgraph, hnodes', resolution⟩ := exists_resolution once lifted hr
  cases hnodes.symm.trans hnodes'
  exact ⟨graph, labels, r, hgraph, resolution, rfl⟩

namespace Resolution

variable {r : ResolvedCode} {place : Nat}

variable (resolution : Resolution m graph labels nodes r)
include resolution

theorem size_eq
    : r.size = executed nodes.flatten := by
  rw [executed, ← resolution.insts]
  simp [ResolvedCode.size]

theorem lt_size (h : Emitted nodes n place)
    : place < r.size :=
  resolution.size_eq ▸ Nat.lt_of_lt_of_le h.2 (nodePlace_le nodes _)

/-- Every instruction was lifted from a node. -/
theorem exists_emitted (h : place < r.size)
    : ∃ n, Emitted nodes n place := by
  rw [resolution.size_eq, ← nodePlace_length] at h
  exact emitted_of_lt h

theorem inst?_eq (h : Emitted nodes n place)
    : r.inst? place
      = ((nodes.getD n []).filter fun i => !i.isMarker)[place - nodePlace nodes n]? := by
  have hinst : r.inst? place = r.insts.toList[place]? := by simp [ResolvedCode.inst?]
  rw [hinst, resolution.insts, flatten_split nodes n, List.filter_append, List.filter_append,
    List.getElem?_append_right h.1, List.getElem?_append_left]
  · rfl
  · have hplace := nodePlace_succ nodes n ▸ h.2
    exact Nat.sub_lt_left_of_lt_add h.1 hplace

/-- The place of a label before a node is that of the node. -/
theorem position_eq {c : CodeLabel} (h : StandsAt nodes c n)
    : ResolvedCode.position r.labels c = .ok (nodePlace nodes n) := by
  cases h with
  | @lead _ rest hlead => exact resolution.position (show _ = [] ++ .label c :: rest from hlead)
  | last hlast =>
      rw [resolution.position hlast, nodePlace_succ_eq, hlast]
      simp [Control.isMarker]

theorem control_at (emitted : Emitted nodes n place)
    : (r.inst? place).map Inst.control
      = ((controlsOf nodes n).filter fun k => !k.isMarker)[place - nodePlace nodes n]? := by
  rw [resolution.inst?_eq emitted, ← List.getElem?_map, controlsOf, filter_map_control]

theorem control_mem {inst : Inst} (emitted : Emitted nodes n place) (h : r.inst? place = some inst)
    : inst.control ∈ controlsOf nodes n := by
  rw [resolution.inst?_eq emitted] at h
  exact List.mem_map_of_mem (List.mem_filter.mp (List.mem_of_getElem? h)).1

end Resolution

end StackLift
