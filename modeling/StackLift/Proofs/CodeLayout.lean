import StackLift.Proofs.OrderlyLifting
import StackLift.Proofs.ResolvedFlow

/-!
The code of a method node by node. Labels of lifted code stand at the start of the code of a node,
or at its end after a conditional jump.
-/

namespace StackLift

-- Code by node

/-- The code of each node, the entry first, with the final names and types of registers. -/
def LiftState.nodeCode (s : LiftState) : List (List Inst) :=
  s.code.toList.map fun code => s.refinements.code (code.map s.registers.nameInst)

/-- The code of each node of a method, the entry first. -/
def Method.liftNodes (m : Method) (settings : Settings) : Except Error (List (List Inst)) := do
  let p ← Plan.ofMethod m settings
  let (_, s) ← (LiftM.liftCode p).run (.initial p)
  return s.nodeCode

/-- What the instructions of a node do to control. -/
def controlsOf (nodes : List (List Inst)) (n : Nat) : List Control :=
  (nodes.getD n []).map Inst.control

/-- The code before, of and after a node. -/
theorem flatten_drop (nodes : List (List Inst)) (n : Nat)
    : (nodes.drop n).flatten = nodes.getD n [] ++ (nodes.drop (n + 1)).flatten := by
  by_cases hn : n < nodes.length
  · have hcode : nodes.getD n [] = nodes[n] := by simp [hn]
    rw [hcode, ← List.flatten_cons, ← List.drop_eq_getElem_cons hn]
  · have hlength : nodes.length ≤ n := Nat.le_of_not_lt hn
    simp [List.drop_of_length_le hlength, List.drop_of_length_le (Nat.le_succ_of_le hlength), hn]

theorem flatten_split (nodes : List (List Inst)) (n : Nat)
    : nodes.flatten
      = (nodes.take n).flatten ++ (nodes.getD n [] ++ (nodes.drop (n + 1)).flatten) := by
  rw [← flatten_drop, ← List.flatten_append, List.take_append_drop]

theorem flatten_take_succ (nodes : List (List Inst)) (n : Nat)
    : (nodes.take (n + 1)).flatten = (nodes.take n).flatten ++ nodes.getD n [] := by
  rw [List.take_add_one, List.flatten_append]
  congr 1
  cases h : nodes[n]? <;> simp [h]

variable {k : Control}

theorem mem_controlsOf {nodes : List (List Inst)}
    : k ∈ nodes.flatten.map Inst.control ↔ ∃ n, k ∈ controlsOf nodes n := by
  constructor
  · intro h
    obtain ⟨i, hi, rfl⟩ := List.mem_map.mp h
    obtain ⟨code, hcode, hi⟩ := List.mem_flatten.mp hi
    obtain ⟨n, hn, rfl⟩ := List.mem_iff_getElem.mp hcode
    exact ⟨n, List.mem_map_of_mem (by simpa [hn] using hi)⟩
  · rintro ⟨n, hn⟩
    obtain ⟨i, hi, rfl⟩ := List.mem_map.mp hn
    rw [flatten_split nodes n]
    exact List.mem_map_of_mem (List.mem_append_right _ (List.mem_append_left _ hi))

/-- A line mark repeated at the start of the code, with a label of its own. -/
inductive Hoisted (fresh : CodeLabel) : List Inst → Prop where
  | none : Hoisted fresh []
  | line (number : Nat) : Hoisted fresh [.label fresh, .line number fresh]

theorem hoisted_hoistFirstLine (fresh : CodeLabel) (code : List Inst)
    : ∃ marks, Hoisted fresh marks ∧ hoistFirstLine fresh code = marks ++ code := by
  unfold hoistFirstLine
  dsimp only
  split
  · exact ⟨[], .none, rfl⟩
  · exact ⟨[], .none, rfl⟩
  · split
    · exact ⟨_, .line _, rfl⟩
    · exact ⟨[], .none, rfl⟩

theorem LiftState.assembled_eq (p : Plan) (s : LiftState)
    : ∃ marks, Hoisted ⟨s.nextLabel⟩ marks ∧ s.assembled p = marks ++ s.nodeCode.flatten := by
  have hcode : s.nodeCode.flatten
      = s.refinements.code (s.code.toList.flatten.map s.registers.nameInst) := by
    simp [nodeCode, Substitution.code, List.map_flatten, Function.comp_def]
  unfold assembled
  dsimp only
  split
  · obtain ⟨marks, hmarks, heq⟩ :=
      hoisted_hoistFirstLine ⟨s.nextLabel⟩ (s.code.toList.flatten.map s.registers.nameInst)
    refine ⟨marks, hmarks, ?_⟩
    rw [heq, hcode, Substitution.code, List.map_append]
    congr 1
    cases hmarks <;> rfl
  · exact ⟨[], .none, hcode.symm⟩

theorem LiftState.controlsOf_nodeCode (s : LiftState) (n : Nat)
    : controlsOf s.nodeCode n = (s.codeOf n).map Inst.control := by
  simp only [controlsOf, nodeCode, codeOf, List.getD_eq_getElem?_getD, List.getElem?_map,
    Array.getElem?_toList, Array.getD_eq_getD_getElem?]
  cases s.code[n]? with
  | none => rfl
  | some code => simp [Substitution.code, Substitution.inst, Registers.nameInst, Function.comp_def]

-- Layout

/-- The code of the nodes has the shapes that the method asks for, and its labels have places of
their own.
-/
structure Layout (m : Method) (graph : MethodGraph) (labels : List (Label × CodeLabel))
    (nodes : List (List Inst)) : Prop where
  models : MethodGraph.Models m graph
  size : nodes.length = m.nodes.length + 1
  live : ∀ {n}, graph.graph.Reaches n → JoinedBlock m labels n (controlsOf nodes n)
  dead : ∀ {n}, ¬ graph.graph.Reaches n → controlsOf nodes n
    = (((m.labelAt? n).bind fun l => labels.lookup l).map Control.label).toList
  known : ∀ {l c}, labels.lookup l = some c → ∃ n, m.node? n = some (.label l)
  apart : ∀ {n k c}, .label c ∈ controlsOf nodes n → .label c ∈ controlsOf nodes k → n = k
  joins : ∀ {n}, graph.RunsIntoJoin m n → ∃ cs, .jumps cs ∈ controlsOf nodes n

/-- The code of the nodes when lifting is done. -/
theorem exists_layout_of_run {p : Plan} (sound : p.Sound) {code : List Inst} {s : LiftState}
    (hx : (LiftM.liftCode p).run (.initial p) = .ok (code, s))
    : ∃ marks, code = marks ++ s.nodeCode.flatten ∧ Layout p.method p.graph s.labels s.nodeCode
        ∧ Hoisted ⟨s.nextLabel⟩ marks ∧ ∀ n, .label ⟨s.nextLabel⟩ ∉ controlsOf s.nodeCode n := by
  obtain ⟨joined, rfl⟩ := (leads_liftCode sound).2 code s hx
  obtain ⟨marks, hmarks, heq⟩ := s.assembled_eq p
  have mem : ∀ {n c}, .label c ∈ controlsOf s.nodeCode n ↔ .label c ∈ s.codeOf n := by
    intro n c
    rw [s.controlsOf_nodeCode, List.mem_map]
    constructor
    · rintro ⟨i, hi, hc⟩
      rwa [← i.control_eq_label.mp hc]
    · exact fun hc => ⟨_, hc, rfl⟩
  refine ⟨marks, heq, ?_, hmarks, ?_⟩
  · exact {
      models := sound.models
      size := by simp [LiftState.nodeCode, joined.laid.size, sound.models.size]
      live := fun hn => s.controlsOf_nodeCode _ ▸ joined.joined hn
      dead := fun hn => by
        rw [s.controlsOf_nodeCode, joined.laid.dead hn]
        cases (p.method.labelAt? _).bind fun l => s.labels.lookup l <;> rfl
      known := fun hc => (joined.laid.known hc).2
      apart := fun hn hk => joined.laid.apart (mem.mp hn) (mem.mp hk)
      joins := fun {n} hruns => by
        have pruned := sound.models.pruned
        have live := (pruned.reached hruns.edge).step hruns.edge
        rw [s.controlsOf_nodeCode]
        exact joined.jumps (List.mem_range.mpr (live.lt_size pruned.size)) hruns }
  · exact fun n hc => Nat.lt_irrefl _ (joined.laid.bound (mem.mp hc))

theorem exists_layout {m : Method} (once : m.LabelsOnce) {settings : Settings} {code : List Inst}
    (h : m.liftRaw settings = .ok code)
    : ∃ graph nodes labels fresh marks, MethodGraph.ofMethod m = .ok graph
        ∧ m.liftNodes settings = .ok nodes ∧ code = marks ++ nodes.flatten
        ∧ Layout m graph labels nodes ∧ Hoisted fresh marks
        ∧ ∀ n, .label fresh ∉ controlsOf nodes n := by
  obtain ⟨p, hp, hx⟩ := except_bind_eq_ok.mp h
  obtain ⟨s, hx⟩ := exists_run_of_run' hx
  have hgraph := Plan.graph_ofMethod hp
  have hnodes : m.liftNodes settings = .ok s.nodeCode :=
    except_bind_eq_ok.mpr ⟨p, hp, except_bind_eq_ok.mpr ⟨_, hx, rfl⟩⟩
  obtain ⟨rfl, -, sound⟩ := Plan.sound_ofMethod once hp
  obtain ⟨marks, hcode, layout, hmarks, hfresh⟩ := exists_layout_of_run sound hx
  exact ⟨p.graph, s.nodeCode, s.labels, _, marks, hgraph, hnodes, hcode, layout, hmarks, hfresh⟩

-- Labels

variable {m : Method} {graph : MethodGraph} {labels : List (Label × CodeLabel)}
  {nodes : List (List Inst)} {n : Nat} {c : CodeLabel} {node next : Option Node}

/-- The labels that a list of controls places. -/
def placedIn (code : List Control) : List CodeLabel :=
  code.filterMap Control.label?

theorem mem_placedIn {code : List Control}
    : c ∈ placedIn code ↔ .label c ∈ code := by
  rw [placedIn, List.mem_filterMap]
  constructor
  · rintro ⟨k, hk, hc⟩
    cases k <;> cases hc
    exact hk
  · exact fun h => ⟨_, h, rfl⟩

theorem placedIn_append (code other : List Control)
    : placedIn (code ++ other) = placedIn code ++ placedIn other :=
  List.filterMap_append

theorem placedIn_replicate (steps : Nat)
    : placedIn (List.replicate steps .step) = [] := by
  simp [placedIn, Control.label?]

theorem Lead.placedIn_nil {handled : List ProtectedRange} {node : Option Node}
    {lead : List Control} (h : Lead labels handled node lead)
    (hl : ∀ l, node ≠ some (.label l))
    : placedIn lead = [] := by
  cases h with
  | label => exact (hl _ rfl).elim
  | handler => exact (hl _ rfl).elim
  | _ => rfl

variable {exit : List Control}

theorem Exit.eq_nil (h : Exit labels next node exit) (hb : ∀ b, node ≠ some (.branch b))
    : exit = [] := by
  cases h with
  | falls => rfl
  | _ => exact (hb _ rfl).elim

theorem Exit.placedIn_nil (h : Exit labels next node exit) (hb : ∀ b, node ≠ some (.branch b))
    : placedIn exit = [] := by
  rw [h.eq_nil hb]
  rfl

theorem Joins.placedIn_nil {jump : List Control} (h : Joins labels node next jump)
    : placedIn jump = [] := by
  cases h <;> rfl

theorem Lead.named {handled : List ProtectedRange} {node : Option Node} {lead : List Control}
    (h : Lead labels handled node lead) (hk : k ∈ lead) (hc : c ∈ k.named)
    : ∃ l, labels.lookup l = some c := by
  cases h with
  | @label l _ hl =>
      cases List.mem_singleton.mp hk
      cases hc
  | @handler l c₀ entries hl _ hentries =>
      rcases List.mem_cons.mp hk with rfl | hk
      · cases hc
      · cases List.mem_singleton.mp hk
        rcases List.mem_cons.mp hc with rfl | hc
        · exact ⟨l, hl⟩
        · obtain ⟨e, he, hc⟩ := List.mem_flatMap.mp hc
          obtain ⟨r, -, hr⟩ := (mem_of_forall₂ hentries).2 e he
          rcases List.mem_pair.mp hc with rfl | rfl
          · exact ⟨r.start, hr.start⟩
          · exact ⟨r.stop, hr.stop⟩
  | @line number l _ hl =>
      cases List.mem_singleton.mp hk
      rw [List.mem_singleton.mp hc]
      exact ⟨l, hl⟩
  | _ => cases hk

theorem Exit.named (h : Exit labels next node exit) (hk : k ∈ exit) (hc : c ∈ k.named)
    : (∃ l, labels.lookup l = some c) ∨ .label c ∈ exit := by
  cases h with
  | falls => cases hk
  | leaves =>
      cases List.mem_singleton.mp hk
      cases hc
  | jumps _ _ hcs =>
      cases List.mem_singleton.mp hk
      obtain ⟨l, -, hl⟩ := hcs.only c hc
      exact .inl ⟨l, hl⟩
  | @branches b l l' _ _ _ _ hl _ hl' =>
      cases List.mem_singleton.mp hk
      rcases List.mem_pair.mp hc with rfl | rfl
      · exact .inl ⟨l, hl⟩
      · exact .inl ⟨l', hl'⟩
  | @splits b l _ c' _ _ hl _ =>
      rcases List.mem_pair.mp hk with rfl | rfl
      · rcases List.mem_pair.mp hc with rfl | rfl
        · exact .inl ⟨l, hl⟩
        · exact .inr (by simp)
      · cases hc

theorem Joins.named {jump : List Control}
    (h : Joins labels node next jump) (hk : k ∈ jump) (hc : c ∈ k.named)
    : ∃ l, labels.lookup l = some c := by
  cases h with
  | none => cases hk
  | @jump l _ _ _ hl =>
      cases List.mem_singleton.mp hk
      rw [List.mem_singleton.mp hc]
      exact ⟨l, hl⟩

/-- The code of a live node places one label at most. -/
theorem JoinedBlock.nodup {code : List Control} (h : JoinedBlock m labels n code)
    : (placedIn code).Nodup := by
  obtain ⟨_, jump, ⟨lead, steps, exit, hlead, hexit, rfl⟩, hjump, rfl⟩ := h
  have hsplit : placedIn (lead ++ List.replicate steps .step ++ exit ++ jump)
      = placedIn lead ++ placedIn exit := by
    simp [placedIn_append, placedIn_replicate, hjump.placedIn_nil]
  rw [hsplit]
  generalize m.node? n = node at hlead hexit
  cases node with
  | none => rw [hlead.placedIn_nil (by simp), hexit.placedIn_nil (by simp)]; simp
  | some node =>
      cases node with
      | branch b =>
          rw [hlead.placedIn_nil (by simp)]
          cases hexit <;> simp [placedIn, Control.label?, List.filterMap_cons]
      | label l =>
          rw [hexit.placedIn_nil (by simp)]
          cases hlead <;> simp [placedIn, Control.label?, List.filterMap_cons]
      | _ => rw [hlead.placedIn_nil (by simp), hexit.placedIn_nil (by simp)]; simp

namespace Layout

variable (layout : Layout m graph labels nodes)
include layout

/-- The code of a node starts with its label, if that is known. -/
theorem leads_with_label {l : Label} (hn : m.node? n = some (.label l))
    (hc : labels.lookup l = some c)
    : ∃ rest, controlsOf nodes n = .label c :: rest := by
  by_cases live : graph.graph.Reaches n
  · obtain ⟨_, jump, ⟨lead, steps, exit, hlead, -, rfl⟩, -, hcode⟩ := layout.live live
    rw [hcode]
    rw [hn] at hlead
    cases hlead with
    | label hc' => rw [hc] at hc'; cases hc'; exact ⟨_, rfl⟩
    | handler hc' => rw [hc] at hc'; cases hc'; exact ⟨_, rfl⟩
  · rw [layout.dead live, Method.labelAt?_eq_some.mpr hn, Option.bind_some, hc]
    exact ⟨[], rfl⟩

theorem nodup_placedIn (n : Nat)
    : (placedIn (controlsOf nodes n)).Nodup := by
  by_cases live : graph.graph.Reaches n
  · exact (layout.live live).nodup
  · rw [layout.dead live]
    cases (m.labelAt? n).bind fun l => labels.lookup l with
    | none => exact List.nodup_nil
    | some c => exact List.nodup_singleton c

/-- A label that stands for a label of the method has a place. -/
theorem exists_place {l : Label} (hc : labels.lookup l = some c)
    : ∃ n, .label c ∈ controlsOf nodes n := by
  obtain ⟨n, hn⟩ := layout.known hc
  obtain ⟨rest, hrest⟩ := layout.leads_with_label hn hc
  exact ⟨n, by simp [hrest]⟩

/-- Every label that is named has a place. -/
theorem exists_place_of_named (hk : k ∈ controlsOf nodes n) (hc : c ∈ k.named)
    : ∃ n', .label c ∈ controlsOf nodes n' := by
  by_cases live : graph.graph.Reaches n
  · obtain ⟨_, jump, ⟨lead, steps, exit, hlead, hexit, rfl⟩, hjump, hcode⟩ := layout.live live
    have hk' := hk
    rw [hcode, List.mem_append, List.mem_append, List.mem_append] at hk'
    rcases hk' with ((hk' | hk') | hk') | hk'
    · obtain ⟨l, hl⟩ := hlead.named hk' hc
      exact layout.exists_place hl
    · rw [List.eq_of_mem_replicate hk'] at hc
      cases hc
    · rcases hexit.named hk' hc with ⟨l, hl⟩ | hl
      · exact layout.exists_place hl
      · exact ⟨n, by simp [hcode, hl]⟩
    · obtain ⟨l, hl⟩ := hjump.named hk' hc
      exact layout.exists_place hl
  · rw [layout.dead live, Option.mem_toList, Option.map_eq_some_iff] at hk
    obtain ⟨_, -, rfl⟩ := hk
    cases hc

/-- All labels of the code have places of their own. -/
theorem nodup_placedIn_flatten
    : (placedIn (nodes.flatten.map Inst.control)).Nodup := by
  have hmap : placedIn (nodes.flatten.map Inst.control)
      = (nodes.map fun code => placedIn (code.map Inst.control)).flatten := by
    simp [placedIn, List.map_flatten, List.filterMap_flatten, Function.comp_def]
  have hnode : ∀ {n} (hn : n < nodes.length), nodes[n].map Inst.control = controlsOf nodes n := by
    intro n hn
    simp [controlsOf, hn]
  rw [hmap, List.nodup_flatten]
  constructor
  · intro placed hplaced
    obtain ⟨code, hcode, rfl⟩ := List.mem_map.mp hplaced
    obtain ⟨n, hn, rfl⟩ := List.mem_iff_getElem.mp hcode
    rw [hnode hn]
    exact layout.nodup_placedIn n
  · rw [List.pairwise_map, List.pairwise_iff_getElem]
    intro n k hn hk less c hcn hck
    rw [hnode, mem_placedIn] at hcn hck
    exact Nat.ne_of_lt less (layout.apart hcn hck)

/-- A label at the start of the code is apart from those of the nodes. -/
theorem nodup_code {fresh : CodeLabel} {marks : List Inst} (hmarks : Hoisted fresh marks)
    (hfresh : ∀ n, .label fresh ∉ controlsOf nodes n)
    : (placedIn ((marks ++ nodes.flatten).map Inst.control)).Nodup := by
  cases hmarks with
  | none => exact layout.nodup_placedIn_flatten
  | line number =>
      refine List.nodup_cons.mpr ⟨fun h => ?_, layout.nodup_placedIn_flatten⟩
      obtain ⟨n, hn⟩ := mem_controlsOf.mp (mem_placedIn.mp h)
      exact hfresh n hn

end Layout

end StackLift
