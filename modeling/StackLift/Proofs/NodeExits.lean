import StackLift.Proofs.CodeLayout

/-! How control leaves the code of a node, and where the labels of jumps stand. -/

namespace StackLift

variable {m : Method} {graph : MethodGraph} {labels : List (Label × CodeLabel)}
  {nodes : List (List Inst)} {u v : Nat}

/-- The label stands right before the code of a node. -/
inductive StandsAt (nodes : List (List Inst)) (c : CodeLabel) : Nat → Prop where
  | lead {v : Nat} {rest : List Control} : controlsOf nodes v = .label c :: rest →
      StandsAt nodes c v
  | last {u : Nat} {before : List Control} : controlsOf nodes u = before ++ [.label c] →
      StandsAt nodes c (u + 1)

/-- Control would go on past the last node. -/
def Method.FallsOff (m : Method) (u : Nat) : Prop :=
  u = m.nodes.length ∧ ∃ node, m.node? u = some node ∧ node.fallsThrough = true

/-- How control leaves the code of a node. -/
inductive Closing (m : Method) (nodes : List (List Inst)) (u : Nat) : List Control → Prop where
  | falls : (∀ b, m.node? u ≠ some (.branch b)) → Closing m nodes u []
  | exits : (∀ v, ¬ m.Flow u v) → Closing m nodes u [.exit]
  | jumps {cs : List CodeLabel} : (∀ v, m.Flow u v → ∃ c ∈ cs, StandsAt nodes c v) →
      (∀ c ∈ cs, ∃ v, StandsAt nodes c v ∧ (m.Flow u v ∨ v = u + 1 ∧ m.FallsOff u)) →
      Closing m nodes u [.jumps cs]

theorem Closing.length_le {closing : List Control} (h : Closing m nodes u closing)
    : closing.length ≤ 1 := by
  cases h <;> simp

theorem Lead.straight {handled : List ProtectedRange} {node : Option Node} {lead : List Control}
    (h : Lead labels handled node lead)
    : ∀ k ∈ lead, k ≠ .exit ∧ k.isJump = false := by
  cases h <;> simp [Control.isJump]

theorem Joins.eq_nil {b : Branch} {next : Option Node} {jump : List Control}
    (h : Joins labels (some (.branch b)) next jump)
    : jump = [] := by
  cases h with
  | none => rfl
  | jump hb => exact (hb b rfl).elim

namespace Layout

variable (layout : Layout m graph labels nodes)
include layout

theorem standsAt_label {l : Label} {c : CodeLabel} (hv : m.node? v = some (.label l))
    (hc : labels.lookup l = some c)
    : StandsAt nodes c v :=
  let ⟨_, hlead⟩ := layout.leads_with_label hv hc
  .lead hlead

theorem le_length (live : graph.graph.Reaches u)
    : u ≤ m.nodes.length :=
  Nat.le_of_lt_succ
    (Nat.lt_of_lt_of_eq (live.lt_size layout.models.pruned.size) layout.models.size)

theorem reaches_of_flow (live : graph.graph.Reaches u) (h : m.Flow u v)
    : graph.graph.Reaches v :=
  live.step (layout.models.flow live h)

theorem exists_target {b : Branch} {l : Label} {c : CodeLabel} (hu : m.node? u = some (.branch b))
    (hl : l ∈ b.targets) (hc : labels.lookup l = some c)
    : ∃ v, StandsAt nodes c v ∧ (m.Flow u v ∨ v = u + 1 ∧ m.FallsOff u) := by
  obtain ⟨v, hv⟩ := layout.known hc
  exact ⟨v, layout.standsAt_label hv hc, .inl (.jumps hu hl hv)⟩

/-- A conditional jump goes to its target or on to the next node. -/
theorem closing_conditional {b : Branch} {l : Label} {c c' : CodeLabel}
    (hu : m.node? u = some (.branch b)) (hf : b.fallsThrough = true) (hb : b.targets = [l])
    (hc : labels.lookup l = some c) (hc' : StandsAt nodes c' (u + 1))
    : Closing m nodes u [.jumps [c, c']] := by
  refine .jumps (fun v hv => ?_) fun c₁ hc₁ => ?_
  · rcases (Method.flow_of_branch hu).mp hv with ⟨-, rfl, -⟩ | ⟨l₁, hl₁, hv⟩
    · exact ⟨c', by simp, hc'⟩
    · rw [hb, List.mem_singleton] at hl₁
      exact ⟨c, by simp, layout.standsAt_label hv (hl₁ ▸ hc)⟩
  · rcases List.mem_pair.mp hc₁ with rfl | rfl
    · exact layout.exists_target hu (hb ▸ List.mem_singleton_self l) hc
    · refine ⟨u + 1, hc', ?_⟩
      rcases Nat.lt_or_eq_of_le (Method.le_length_of_node? hu) with hlt | hend
      · exact .inl (.falls hu hf hlt)
      · exact .inr ⟨rfl, hend, _, hu, hf⟩

theorem closing_exit {before exit jump : List Control} (hu : u ≤ m.nodes.length)
    (hexit : Exit labels (m.node? (u + 1)) (m.node? u) exit)
    (hjump : Joins labels (m.node? u) (m.node? (u + 1)) jump)
    (hcode : controlsOf nodes u = before ++ exit ++ jump)
    : Closing m nodes u ((exit ++ jump).filter fun k => !k.isMarker) := by
  generalize hnode : m.node? u = node at hexit hjump
  generalize hnext : m.node? (u + 1) = next at hexit hjump
  cases hexit with
  | falls hb =>
      cases hjump with
      | none => exact .falls (hnode ▸ hb)
      | jump _ hl hc =>
          have hplace := layout.standsAt_label (hnext.trans hl) hc
          have hflow : ∀ v, m.Flow u v ↔ v = u + 1 ∧ u < m.nodes.length := fun v =>
            Method.flow_of_straight hu (hnode ▸ hb)
          refine .jumps (fun v hv => ?_) fun c' hc' => ?_
          · rw [((hflow v).mp hv).1]
            exact ⟨_, by simp, hplace⟩
          · cases List.mem_singleton.mp hc'
            have hlt := Method.le_length_of_node? (hnext.trans hl)
            exact ⟨u + 1, hplace, .inl ((hflow _).mpr ⟨rfl, hlt⟩)⟩
  | leaves ht =>
      rw [hjump.eq_nil]
      refine .exits fun v hv => ?_
      rcases (Method.flow_of_branch hnode).mp hv with ⟨hf, -⟩ | ⟨l, hl, -⟩
      · rw [Branch.isTerminal_of_fallsThrough hf] at ht
        cases ht
      · rw [Branch.targets_of_isTerminal ht] at hl
        cases hl
  | jumps _ hf targets =>
      rw [hjump.eq_nil]
      refine .jumps (fun v hv => ?_) fun c hc => ?_
      · rcases (Method.flow_of_branch hnode).mp hv with ⟨hf', -⟩ | ⟨l, hl, hv⟩
        · cases hf.symm.trans hf'
        · obtain ⟨c, hc, hlookup⟩ := targets.all l hl
          exact ⟨c, hc, layout.standsAt_label hv hlookup⟩
      · obtain ⟨l, hl, hlookup⟩ := targets.only c hc
        exact layout.exists_target hnode hl hlookup
  | branches hf hb hc hl' hc' =>
      rw [hjump.eq_nil]
      have hplace := layout.standsAt_label (hnext.trans hl') hc'
      exact layout.closing_conditional hnode hf hb hc hplace
  | @splits b l c c' hf hb hc _ =>
      obtain rfl := hjump.eq_nil
      have hlast : controlsOf nodes u = before ++ [.jumps [c, c']] ++ [.label c'] := by
        simp [hcode]
      exact layout.closing_conditional hnode hf hb hc (.last hlast)

/-- Control goes straight on through the code of a live node up to its closing. -/
theorem exists_closing (live : graph.graph.Reaches u)
    : ∃ plain closing, (controlsOf nodes u).filter (fun k => !k.isMarker) = plain ++ closing
        ∧ (∀ k ∈ plain, k ≠ .exit ∧ k.isJump = false) ∧ Closing m nodes u closing := by
  obtain ⟨_, jump, ⟨lead, steps, exit, hlead, hexit, rfl⟩, hjump, hcode⟩ :=
    layout.live live
  refine ⟨(lead ++ List.replicate steps Control.step).filter fun k => !k.isMarker,
    (exit ++ jump).filter fun k => !k.isMarker, by simp [hcode], fun k hk => ?_,
    layout.closing_exit (layout.le_length live) hexit hjump hcode⟩
  rcases List.mem_append.mp (List.mem_filter.mp hk).1 with hk | hk
  · exact hlead.straight k hk
  · rw [List.eq_of_mem_replicate hk]
    exact ⟨by simp, rfl⟩

end Layout

end StackLift
