import StackLift.Proofs.LabelPositions

/-! Handlers protect the instructions of the nodes that the exception table protects with them. -/

namespace StackLift

/-- A node lies between the bounds of an entry of the exception table. -/
def Method.Covers (m : Method) (range : ProtectedRange) (n : Nat) : Prop :=
  ∃ first last, m.node? first = some (.label range.start)
    ∧ m.node? last = some (.label range.stop) ∧ first ≤ n ∧ n < last

theorem Method.mem_handledAt {m : Method} {range : ProtectedRange} {n : Nat}
    : range ∈ m.handledAt n ↔ range ∈ m.ranges ∧ m.node? n = some (.label range.handler)
        ∧ range.start ≠ range.handler := by
  simp [handledAt, labelAt?_eq_some]

variable {m : Method} {graph : MethodGraph} {labels : List (Label × CodeLabel)}
  {nodes : List (List Inst)} {n i c : Nat} {r : ResolvedCode}
  {entries : List CatchEntry} {handler : CodeLabel}

theorem Lead.bounds {handled : List ProtectedRange} {node : Option Node} {lead : List Control}
    (h : Lead labels handled node lead) (hmem : .catches handler entries ∈ lead)
    : List.Forall₂ (Bounds labels) handled entries := by
  cases h with
  | handler _ _ hentries =>
      obtain ⟨-, rfl⟩ : handler = _ ∧ entries = _ := by simpa using hmem
      exact hentries
  | _ => simp at hmem

theorem Exit.not_catches {node next : Option Node} {exit : List Control}
    (h : Exit labels next node exit)
    : .catches handler entries ∉ exit := by
  cases h <;> simp

/-- Handlers are live, and their entries are those of the exception table. -/
theorem Layout.bounds_of_catches (layout : Layout m graph labels nodes)
    (h : .catches handler entries ∈ controlsOf nodes n)
    : graph.graph.Reaches n ∧ List.Forall₂ (Bounds labels) (m.handledAt n) entries := by
  by_cases live : graph.graph.Reaches n
  · refine ⟨live, ?_⟩
    obtain ⟨_, jump, ⟨lead, steps, exit, hlead, hexit, rfl⟩, hjump, hcode⟩ := layout.live live
    rw [hcode, List.mem_append, List.mem_append, List.mem_append] at h
    rcases h with ((h | h) | h) | h
    · exact hlead.bounds h
    · cases List.eq_of_mem_replicate h
    · exact (hexit.not_catches h).elim
    · cases hjump <;> simp at h
  · rw [layout.dead live, Option.mem_toList, Option.map_eq_some_iff] at h
    obtain ⟨_, -, h⟩ := h
    cases h

namespace Resolution

/-- A place lies between the bounds of an entry exactly if its node does. -/
theorem covers_iff (resolution : Resolution m graph labels nodes r) {range : ProtectedRange}
    {e : CatchEntry} (bounds : Bounds labels range e) (emitted : Emitted nodes n i)
    : m.Covers range n ↔ ∃ start stop, ResolvedCode.position r.labels e.start = .ok start
        ∧ ResolvedCode.position r.labels e.stop = .ok stop ∧ start ≤ i ∧ i < stop := by
  constructor
  · rintro ⟨first, last, hfirst, hlast, hle, hlt⟩
    refine ⟨_, _, resolution.position_eq (resolution.layout.standsAt_label hfirst bounds.start),
      resolution.position_eq (resolution.layout.standsAt_label hlast bounds.stop),
      emitted.between.mpr hle, ?_⟩
    exact Nat.lt_of_not_le fun h => Nat.not_le_of_lt hlt (emitted.between.mp h)
  · rintro ⟨start, stop, hstart, hstop, hle, hlt⟩
    obtain ⟨first, hfirst⟩ := resolution.layout.known bounds.start
    obtain ⟨last, hlast⟩ := resolution.layout.known bounds.stop
    rw [resolution.position_eq (resolution.layout.standsAt_label hfirst bounds.start)] at hstart
    rw [resolution.position_eq (resolution.layout.standsAt_label hlast bounds.stop)] at hstop
    cases hstart
    cases hstop
    refine ⟨first, last, hfirst, hlast, emitted.between.mp hle, ?_⟩
    exact Nat.lt_of_not_le fun h => Nat.not_le_of_lt hlt (emitted.between.mpr h)

/-- An instruction is protected by the handlers that the exception table gives its node. -/
theorem mem_protectedBy (resolution : Resolution m graph labels nodes r)
    (emitted : Emitted nodes n i) (hc : c < r.size)
    : i ∈ r.protectedBy c ↔ c ≠ i
        ∧ (r.inst? c).any Inst.isCatch = true
        ∧ ∃ k, graph.graph.Reaches k ∧ Emitted nodes k c
          ∧ ∃ range ∈ m.ranges, m.node? k = some (.label range.handler)
            ∧ range.start ≠ range.handler ∧ m.Covers range n := by
  obtain ⟨k, hk⟩ := resolution.exists_emitted hc
  obtain ⟨inst, hinst⟩ : ∃ inst, r.inst? c = some inst :=
    ⟨_, Array.getElem?_eq_getElem hc⟩
  rw [ResolvedCode.mem_coveredBy (resolution.covered hinst), ne_comm, hinst]
  refine and_congr_right fun _ => ?_
  constructor
  · rintro ⟨x, handler, entries, rfl, e, he, hplaces⟩
    obtain ⟨live, hentries⟩ :=
      resolution.layout.bounds_of_catches (resolution.control_mem hk hinst)
    obtain ⟨range, hrange, bounds⟩ := (mem_of_forall₂ hentries).2 e he
    obtain ⟨hrange, hhandler, hstart⟩ := Method.mem_handledAt.mp hrange
    exact ⟨rfl, k, live, hk, range, hrange, hhandler, hstart,
      (resolution.covers_iff bounds emitted).mpr hplaces⟩
  · rintro ⟨hcatch, k', -, hk', range, hrange, hhandler, hstart, covers⟩
    obtain ⟨x, handler, entries, rfl⟩ : ∃ x handler entries, inst = .catches x handler entries := by
      cases inst <;> first | exact ⟨_, _, _, rfl⟩ | cases hcatch
    obtain ⟨-, hentries⟩ :=
      resolution.layout.bounds_of_catches (resolution.control_mem hk' hinst)
    obtain ⟨e, he, bounds⟩ :=
      (mem_of_forall₂ hentries).1 range (Method.mem_handledAt.mpr ⟨hrange, hhandler, hstart⟩)
    exact ⟨x, handler, entries, rfl, e, he, (resolution.covers_iff bounds emitted).mp covers⟩

end Resolution

/-- The catchers of an instruction of a live node are the starts of the live handlers that the
exception table gives this node. An entry that protects its own handler gives none, and the start
of a handler does not catch what it throws itself. Whether the bounds of an entry are dead makes no
difference.
-/
theorem catchers_follow_exception_table {settings : Settings} {code : List Inst} {g : FlowGraph}
    (once : m.LabelsOnce) (raw : settings.simplify = false) (lifted : m.lift settings = .ok code)
    {hierarchy : Hierarchy} (accepted : FlowGraph.ofCode code hierarchy = .ok g)
    (hgraph : MethodGraph.ofMethod m = .ok graph) (hnodes : m.liftNodes settings = .ok nodes)
    (emitted : Emitted nodes n i)
    : c ∈ g.catchers i ↔ c ≠ i
        ∧ (g.code.inst? c).any Inst.isCatch = true
        ∧ ∃ k, graph.graph.IsLive k ∧ Emitted nodes k c
          ∧ ∃ range ∈ m.ranges, m.node? k = some (.label range.handler)
            ∧ range.start ≠ range.handler ∧ m.Covers range n := by
  obtain ⟨graph', labels, r, hgraph', resolution, rfl⟩ :=
    resolution_of_lift once raw lifted accepted hnodes
  cases hgraph.symm.trans hgraph'
  have live : ∀ {k}, graph.graph.IsLive k ↔ graph.graph.Reaches k :=
    resolution.layout.models.pruned.isLive_iff
  rw [FlowGraph.mem_catchers, and_iff_right (resolution.lt_size emitted)]
  simp only [live]
  constructor
  · rintro ⟨hc, h⟩
    exact (resolution.mem_protectedBy emitted hc).mp h
  · intro h
    have hc : c < r.size := by
      obtain ⟨-, -, k, -, hk, -⟩ := h
      exact resolution.lt_size hk
    exact ⟨hc, (resolution.mem_protectedBy emitted hc).mpr h⟩

/-- The handler of a loop catches what its increment throws, though the end of the protected range
is dead.
-/
theorem increment_caught_by_handler
    : ∃ code nodes g, entersMiddle.lift rawSettings = .ok code
        ∧ FlowGraph.ofCode code ⟨[]⟩ = .ok g ∧ entersMiddle.liftNodes rawSettings = .ok nodes
        ∧ Emitted nodes 6 8 ∧ 14 ∈ g.catchers 8 := by
  obtain ⟨code, lifted, g, accepted, hcatch⟩ : ∃ code, entersMiddle.lift rawSettings = .ok code
      ∧ ∃ g, FlowGraph.ofCode code ⟨[]⟩ = .ok g ∧ (g.code.inst? 14).any Inst.isCatch := by
    decide +kernel
  obtain ⟨nodes, hnodes, hincrement, hhandler⟩ : ∃ nodes,
      entersMiddle.liftNodes rawSettings = .ok nodes ∧ Emitted nodes 6 8 ∧ Emitted nodes 12 14 := by
    decide +kernel
  refine ⟨code, nodes, g, lifted, accepted, hnodes, hincrement, ?_⟩
  rw [catchers_follow_exception_table (by decide) rfl lifted accepted graph_entersMiddle hnodes
    hincrement]
  exact ⟨by decide, hcatch, 12, by decide, hhandler, _, List.mem_singleton_self _, rfl,
    by decide, 3, 11, rfl, rfl, by decide, by decide⟩

end StackLift
