import StackLift.Proofs.GuardedJumps
import StackLift.Proofs.LabelPlacement
import StackLift.Proofs.LiftedCode

/-!
The code of the nodes when lifting is done. Copies are straight code, so they keep the shape of the
code of a node, and a jump into a join comes after it.
-/

namespace StackLift

variable {m : Method} {labels : List (Label × CodeLabel)} {n : Nat}

-- Copies

theorem control_copy (rs : Registers) (target source : Value)
    : (rs.assign target (.value source)).1.control = .step :=
  rfl

/-- A copy before a jump, which may be saved before the other code. -/
theorem controls_beforeJump {rs : Registers} {target : Value} {copy jump : Inst}
    {before after : List Inst} {steps : Nat} (hcopy : copy.control = .step)
    (hbefore : before.map Inst.control = List.replicate steps .step)
    : ∃ more, (beforeJump rs target copy before jump after).1.map Inst.control
        = List.replicate more .step ++ jump.control :: after.map Inst.control := by
  have plain : (before ++ copy :: jump :: after).map Inst.control
      = List.replicate (steps + 1) .step ++ jump.control :: after.map Inst.control := by
    simp [hbefore, hcopy, List.replicate_succ']
  have saved : ∀ {save jump' : Inst}, save.control = .step → jump'.control = jump.control →
      (save :: before ++ copy :: jump' :: after).map Inst.control
        = List.replicate (steps + 1 + 1) .step ++ jump.control :: after.map Inst.control := by
    intro save jump' hsave hjump
    rw [List.replicate_succ, List.cons_append, List.cons_append, List.map_cons, hsave, ← plain]
    simp [hjump]
  unfold beforeJump
  split
  next key cases default =>
    split
    · exact ⟨_, saved rfl rfl⟩
    · exact ⟨_, plain⟩
  next condition onTrue onFalse =>
    split
    · exact ⟨_, saved rfl rfl⟩
    · exact ⟨_, plain⟩
  next => exact ⟨_, plain⟩

theorem insertCopy_straight (rs : Registers) {node : Option Node} (target source : Value)
    (code : List Inst) (h : ∀ b, node ≠ some (.branch b))
    : (insertCopy rs node target source code).1
        = code ++ [(rs.assign target (.value source)).1] := by
  cases node with
  | none => rfl
  | some node =>
      cases node with
      | branch b => exact (h b rfl).elim
      | _ => rfl

theorem isBranching_of_controls {code : List Inst} {steps : Nat}
    (h : code.map Inst.control = List.replicate steps .step)
    : ∀ i ∈ code, i.isBranching = false := by
  intro i hi
  have : i.control = .step := List.eq_of_mem_replicate (h ▸ List.mem_map_of_mem hi)
  rw [← i.isJump_control, this]
  rfl

/-- Inserting a copy adds straight code between the lead and the exit of a node. -/
theorem controls_insertCopy {rs : Registers} {handled : List ProtectedRange}
    {node next : Option Node} {target source : Value} {code : List Inst} {lead exit : List Control}
    {steps : Nat} (hlead : Lead labels handled node lead) (hexit : Exit labels next node exit)
    (h : code.map Inst.control = lead ++ List.replicate steps Control.step ++ exit)
    : ∃ more, (insertCopy rs node target source code).1.map Inst.control
        = lead ++ List.replicate more Control.step ++ exit := by
  have jumping : ∀ {b cs rest}, node = some (.branch b) → b.isTerminal = false →
      exit = .jumps cs :: rest → ∃ more,
        (insertCopy rs node target source code).1.map Inst.control
          = lead ++ List.replicate more Control.step ++ exit := by
    rintro b cs rest rfl hb rfl
    cases hlead
    obtain ⟨before, tail, rfl, hbefore, htail⟩ := List.map_eq_append_iff.mp h
    obtain ⟨jump, after, rfl, hjump, rfl⟩ := List.map_eq_cons_iff.mp htail
    rw [insertCopy_jumping rs target source hb (isBranching_of_controls hbefore)
      (by rw [← jump.isJump_control, hjump]; rfl)]
    rw [← hjump]
    exact controls_beforeJump (control_copy rs target source) hbefore
  cases hexit with
  | falls hb =>
      refine ⟨steps + 1, ?_⟩
      rw [insertCopy_straight rs target source code hb, List.map_append, h]
      simp [Inst.control, List.replicate_succ']
  | leaves ht =>
      cases hlead
      refine ⟨steps + 1, ?_⟩
      have hlen : code.length = steps + 1 := by simpa using congrArg List.length h
      simp only [insertCopy, Node.isTerminal, ht, if_true, beforeLast, List.map_append,
        List.map_take, List.map_cons, List.map_drop, h, control_copy]
      simp [hlen, List.replicate_succ']
  | jumps ht hf hcs => exact jumping rfl ht rfl
  | branches hf => exact jumping rfl (Branch.isTerminal_of_fallsThrough hf) rfl
  | splits hf => exact jumping rfl (Branch.isTerminal_of_fallsThrough hf) rfl

theorem mem_label_of_controls {code code' : List Inst} {lead exit : List Control} {k k' : Nat}
    (h : code.map Inst.control = lead ++ List.replicate k Control.step ++ exit)
    (h' : code'.map Inst.control = lead ++ List.replicate k' Control.step ++ exit) {c : CodeLabel}
    (hc : .label c ∈ code')
    : .label c ∈ code := by
  have hmem : .label c ∈ code'.map Inst.control := List.mem_map.mpr ⟨_, hc, rfl⟩
  have hmem : .label c ∈ code.map Inst.control := by
    rw [h'] at hmem
    rw [h]
    simpa [List.mem_replicate] using hmem
  obtain ⟨i, hi, hcontrol⟩ := List.mem_map.mp hmem
  rwa [← (i.control_eq_label).mp hcontrol]

variable {p : Plan} {s s' : LiftState}

/-- New code of live nodes that places no other labels. -/
theorem Laid.recode (laid : Laid p s) (labels : s'.labels = s.labels)
    (nextLabel : s'.nextLabel = s.nextLabel) (size : s'.code.size = s.code.size)
    (placed : ∀ {k c}, .label c ∈ s'.codeOf k → .label c ∈ s.codeOf k)
    (dead : ∀ {k}, ¬ p.graph.graph.Reaches k → s'.codeOf k = s.codeOf k)
    : Laid p s' where
  size := size.trans laid.size
  known hc := nextLabel ▸ laid.known (labels ▸ hc)
  injective hc hc' := laid.injective (labels ▸ hc) (labels ▸ hc')
  live hn hl := labels ▸ laid.live hn hl
  bound hc := nextLabel ▸ laid.bound (placed hc)
  apart hc hc' := laid.apart (placed hc) (placed hc')
  home hc hl := laid.home (placed hc) (labels ▸ hl)
  dead hk := by
    rw [dead hk, labels]
    exact laid.dead hk
  numbered := labels ▸ laid.numbered

namespace LiftM

/-- All live nodes are simulated. -/
structure Complete (p : Plan) (s : LiftState) : Prop where
  laid : Laid p s
  blocks : ∀ {n}, p.graph.graph.Reaches n →
    NodeBlock p.method s.labels n ((s.codeOf n).map Inst.control)
  frames : ∀ {n}, p.graph.graph.Reaches n → (s.frameOf? n).isSome = true

theorem Simulated.complete (sound : p.Sound) (h : Simulated p p.graph.graph.order s)
    : Complete p s where
  laid := h.laid
  blocks hn := h.blocks _ (sound.models.pruned.mem_order.mpr hn)
  frames hn := (h.frames _).mpr (sound.models.pruned.mem_order.mpr hn)

theorem Complete.markResult (h : Complete p s)
    : Complete p { s with code := s.code.map (List.map Inst.markResult) } := by
  have codeOf := codeOf_mapCode s Inst.markResult
  have mark : ∀ {i : Inst} {c : CodeLabel}, i.markResult = .label c → i = .label c := by
    intro i c hi
    rw [← i.control_eq_label, ← i.control_markResult, hi]
    rfl
  refine ⟨h.laid.recode rfl rfl (by simp) ?_ ?_, fun hn => ?_, h.frames⟩
  · intro k c hc
    rw [codeOf] at hc
    obtain ⟨i, hi, hm⟩ := List.mem_map.mp hc
    rwa [← mark hm]
  · intro k hk
    rw [codeOf, h.laid.dead hk]
    cases (p.method.labelAt? k).bind fun l => s.labels.lookup l <;> rfl
  · rw [codeOf, List.map_map]
    have hcontrol : Inst.control ∘ Inst.markResult = Inst.control :=
      funext Inst.control_markResult
    rw [hcontrol]
    exact h.blocks hn

theorem Complete.copy (sound : p.Sound) (h : Complete p s) {node : Nat}
    (live : p.graph.graph.Reaches node) (target source : Value)
    : (copy p node target source).Leads s fun _ s' => Complete p s' := by
  obtain ⟨lead, steps, exit, hlead, hexit, hcode⟩ := h.blocks live
  obtain ⟨more, hmore⟩ := @controls_insertCopy _ s.registers _ _ _ target source _ _ _ _
    hlead hexit hcode
  let inserted := insertCopy s.registers (p.node? node) target source (s.codeOf node)
  let s' : LiftState :=
    { s with registers := inserted.2, code := s.code.modify node fun _ => inserted.1 }
  have hrun : (LiftM.copy p node target source).run s = .ok ((), s') := rfl
  have hmore : inserted.1.map Inst.control = lead ++ List.replicate more .step ++ exit := by
    rw [← hmore, ← p.node?_eq]
  refine .of_run hrun ?_
  have codeOf : ∀ k, s'.codeOf k = if k = node then inserted.1 else s.codeOf k :=
    codeOf_copy (h.laid.size ▸ live.lt_size sound.models.pruned.size) rfl
  refine ⟨h.laid.recode rfl rfl (by simp [s']) ?_ ?_, fun hn => ?_, h.frames⟩
  · intro k c hc
    rw [codeOf] at hc
    split at hc
    next same =>
      subst same
      exact mem_label_of_controls hcode hmore hc
    next => exact hc
  · intro k hk
    have other : k ≠ node := by
      rintro rfl
      exact hk live
    rw [codeOf, if_neg other]
  · rw [codeOf]
    split
    next same =>
      subst same
      exact ⟨lead, more, exit, hlead, hexit, hmore⟩
    next => exact h.blocks hn

theorem Complete.insertGroup (sound : p.Sound) (h : Complete p s) {group : CopyGroup}
    (live : ∀ n ∈ group.nodes, p.graph.graph.Reaches n) (target : Value)
    : (insertGroup p target group).Leads s fun _ s' => Complete p s' := by
  unfold LiftM.insertGroup
  split
  next node hnodes => exact h.copy sound (live node (by simp [hnodes])) target _
  next =>
    refine .forM_keeps (fun node hnode s₁ h₁ => .get_bind ?_) h
    split
    · exact h₁.copy sound (live node hnode) target _
    · exact .pure h₁

theorem Complete.requiredCopies (sound : p.Sound) (h : Complete p s) (m : Merge)
    : (requiredCopies p m).Leads s fun groups s' => s = s'
        ∧ ∀ g ∈ groups, ∀ n ∈ g.nodes, p.graph.graph.Reaches n := by
  refine .get_bind ?_
  have hlive : ∀ u ∈ p.graph.graph.predecessors m.node, p.graph.graph.Reaches u :=
    fun u hu => sound.models.pruned.reached hu
  have hnone : ∀ g ∈ ([] : List CopyGroup), ∀ n ∈ g.nodes, p.graph.graph.Reaches n := by simp
  revert hlive hnone
  generalize p.graph.graph.predecessors m.node = preds
  generalize ([] : List CopyGroup) = groups
  intro hlive hgroups
  induction preds generalizing groups with
  | nil => exact .pure ⟨rfl, hgroups⟩
  | cons u rest ih =>
      rw [List.foldlM_cons]
      have hu := hlive u (by simp)
      have hrest : ∀ v ∈ rest, p.graph.graph.Reaches v := fun v hv => hlive v (by simp [hv])
      obtain ⟨f, hf⟩ := Option.isSome_iff_exists.mp (h.frames hu)
      refine .bind ?_
      rw [hf]
      dsimp only
      split
      next source hsource =>
        split
        · exact .pure (ih groups hrest hgroups)
        · refine .pure (ih _ hrest fun g hg n hn => ?_)
          rcases mem_addCopy hg with hg | rfl | ⟨g', hg', -, rfl⟩
          · exact hgroups g hg n hn
          · exact List.mem_singleton.mp hn ▸ hu
          · rcases List.mem_append.mp hn with hn | hn
            · exact hgroups g' hg' n hn
            · exact List.mem_singleton.mp hn ▸ hu
      next => exact .pure (ih groups hrest hgroups)

theorem Complete.insertCopies (sound : p.Sound) (h : Complete p s)
    : (insertCopies p).Leads s fun _ s' => Complete p s' := by
  refine .get_bind (.forM_keeps (fun merge _ s₁ h₁ => ?_) h)
  refine .bind ((h₁.requiredCopies sound merge).mono ?_)
  rintro groups _ ⟨rfl, live⟩
  exact .forM_keeps (fun group hgroup s₂ h₂ => h₂.insertGroup sound (live group hgroup) _) h₁

end LiftM

-- Jumps into joins

/-- The jump from a node that does not branch to the label after it, if it has one. -/
inductive Joins (labels : List (Label × CodeLabel)) (node next : Option Node) :
    List Control → Prop where
  | none : Joins labels node next []
  | jump {l : Label} {c : CodeLabel} : (∀ b, node ≠ some (.branch b)) → next = some (.label l) →
      labels.lookup l = some c → Joins labels node next [.jumps [c]]

/-- The shape of the code of a live node when lifting is done. -/
def JoinedBlock (m : Method) (labels : List (Label × CodeLabel)) (n : Nat) (code : List Control) :
    Prop :=
  ∃ block jump, NodeBlock m labels n block ∧ Joins labels (m.node? n) (m.node? (n + 1)) jump
    ∧ code = block ++ jump

theorem NodeBlock.joined {code : List Control} (h : NodeBlock m labels n code)
    : JoinedBlock m labels n code :=
  ⟨code, [], h, .none, by simp⟩

/-- Control that does not branch goes to the next node. -/
theorem Method.Flow.next {u v : Nat} (h : m.Flow u v)
    (hb : (m.node? u).any Node.isBranching = false)
    : v = u + 1 ∧ ∀ b, m.node? u ≠ some (.branch b) := by
  have hbranch : ∀ {b : Branch}, m.node? u = some (.branch b) → b.isTerminal = true := by
    intro b hu
    simp only [hu, Option.any_some, Node.isBranching, Bool.or_eq_false_iff] at hb
    simpa using hb.1
  cases h with
  | enters => exact ⟨rfl, by simp [Method.node?, NodeGraph.entry]⟩
  | @falls _ node hn hf _ =>
      refine ⟨rfl, fun b hu => ?_⟩
      rw [hn] at hu
      cases hu
      have := hbranch hn
      rw [Branch.isTerminal_of_fallsThrough hf] at this
      cases this
  | @jumps _ _ node l hn hl _ =>
      cases node with
      | branch b =>
          have := hbranch hn
          cases b <;> cases this <;> cases hl
      | _ => cases hl

/-- Control goes straight on from a node to a join after it that starts no handler. -/
structure MethodGraph.RunsIntoJoin (m : Method) (graph : MethodGraph) (n : Nat) : Prop where
  edge : n ∈ graph.graph.predecessors (n + 1)
  straight : ∀ b, m.node? n ≠ some (.branch b)
  several : graph.graph.hasSeveralPredecessors (n + 1) = true
  plain : m.isHandler (n + 1) = false

theorem Plan.isBranching_eq_false (straight : ∀ b, p.method.node? n ≠ some (.branch b))
    : p.isBranching n = false := by
  rw [isBranching, p.node?_eq]
  cases hn : p.method.node? n with
  | none => rfl
  | some node =>
      cases node with
      | branch b => exact (straight b hn).elim
      | _ => rfl

namespace LiftM

/-- The state while jumps are added to the nodes before the ones that were looked at. -/
structure Joined (p : Plan) (done : List Nat) (s : LiftState) : Prop where
  laid : Laid p s
  joined : ∀ {n}, p.graph.graph.Reaches n →
    JoinedBlock p.method s.labels n ((s.codeOf n).map Inst.control)
  blocks : ∀ {n}, p.graph.graph.Reaches n → n + 1 ∉ done →
    NodeBlock p.method s.labels n ((s.codeOf n).map Inst.control)
  frames : ∀ {n}, p.graph.graph.Reaches n → (s.frameOf? n).isSome = true
  jumps : ∀ {n}, n + 1 ∈ done → p.graph.RunsIntoJoin p.method n →
    ∃ cs, .jumps cs ∈ (s.codeOf n).map Inst.control

theorem Complete.joined (h : Complete p s)
    : Joined p [] s where
  laid := h.laid
  joined hn := (h.blocks hn).joined
  blocks hn _ := h.blocks hn
  frames := h.frames
  jumps hn _ := nomatch hn

variable {done : List Nat}

/-- Nothing is to be done for a node to which control does not come straight on. -/
theorem Joined.skip {node : Nat} (h : Joined p done s)
    (hnone : ∀ u, node = u + 1 → ¬ p.graph.RunsIntoJoin p.method u)
    : Joined p (done ++ [node]) s :=
  { h with
    blocks := fun hn hm => h.blocks hn fun hd => hm (List.mem_append_left _ hd)
    jumps := fun hn hruns => by
      rcases List.mem_append.mp hn with hn | hn
      · exact h.jumps hn hruns
      · exact (hnone _ (List.mem_singleton.mp hn).symm hruns).elim }

theorem Joined.codeOf_ne_nil (h : Joined p done s) (live : p.graph.graph.Reaches n) {l : Label}
    (hl : p.method.node? n = some (.label l))
    : s.codeOf n ≠ [] := by
  intro hempty
  obtain ⟨_, jump, ⟨lead, steps, exit, hlead, -, rfl⟩, -, hcode⟩ := h.joined live
  rw [hempty] at hcode
  rw [hl] at hlead
  cases hlead <;> cases hcode

/-- Only the node before a join jumps to it. -/
theorem falling_eq (sound : p.Sound) {node : Nat}
    (hh : (p.graph.handlers.lookup node).isNone = true)
    : ∀ u ∈ (p.graph.graph.predecessors node).filter fun u => !p.isBranching u,
        p.graph.graph.Reaches u ∧ node = u + 1 ∧ ∀ b, p.method.node? u ≠ some (.branch b) := by
  intro u hu
  obtain ⟨edge, hb⟩ := List.mem_filter.mp hu
  refine ⟨sound.models.pruned.reached edge, ?_⟩
  have hhandler : p.method.isHandler node = false := by
    rw [← sound.models.known node]
    simpa using hh
  rcases sound.models.edge edge with hflow | hflow
  · refine hflow.next ?_
    rw [Plan.isBranching, p.node?_eq] at hb
    simpa using hb
  · rw [hhandler] at hflow
    cases hflow

theorem Joined.jump (sound : p.Sound) {u : Nat} (h : Joined p done s)
    (live : p.graph.graph.Reaches u) (new : u + 1 ∉ done)
    (hb : ∀ b, p.method.node? u ≠ some (.branch b)) {l : Label} {c : CodeLabel}
    (hl : p.method.node? (u + 1) = some (.label l)) (hc : s.labels.lookup l = some c)
    : Joined p (done ++ [u + 1]) { s with code := s.code.modify u (· ++ [.jump c]) } := by
  have codeOf : ∀ k, ({ s with code := s.code.modify u (· ++ [.jump c]) } : LiftState).codeOf k
      = if k = u then s.codeOf k ++ [.jump c] else s.codeOf k :=
    h.laid.codeOf_append sound live rfl
  refine ⟨?_, fun {n} hn => ?_, fun {n} hn hm => ?_, h.frames, fun {n} hn hruns => ?_⟩
  · exact h.laid.append sound live rfl (Nat.le_refl _) rfl (by simp)
  · rw [codeOf]
    split
    next same =>
      subst same
      rw [List.map_append]
      exact ⟨_, _, h.blocks live new, .jump hb hl hc, rfl⟩
    next => exact h.joined hn
  · have other : n ≠ u := by
      rintro rfl
      exact hm (by simp)
    rw [codeOf, if_neg other]
    exact h.blocks hn fun hd => hm (by simp [hd])
  · rw [codeOf]
    split
    next => exact ⟨[c], by simp [Inst.control]⟩
    next other =>
      have hn : n + 1 ∈ done := by simpa [other] using hn
      exact h.jumps hn hruns

theorem Joined.insertJumpsTo (sound : p.Sound) {node : Nat} (h : Joined p done s)
    (new : node ∉ done)
    : (insertJumpsTo p node).Leads s fun _ s' => Joined p (done ++ [node]) s' := by
  refine .bind (.of_run rfl ?_)
  split
  next hjoin =>
    simp only [Bool.and_eq_true] at hjoin
    obtain ⟨⟨-, hh⟩, hseveral⟩ := hjoin
    have hfalling := falling_eq sound hh
    have hsorted := (sound.models.ascending node).sublist
      (List.filter_sublist (p := fun u => !p.isBranching u))
    obtain ⟨l, hl⟩ := sound.models.label_of_several hseveral
    split
    next hnone =>
      refine .pure (h.skip fun u hnode hruns => ?_)
      subst hnode
      have hu : u ∈ (p.graph.graph.predecessors (u + 1)).filter fun u => !p.isBranching u :=
        List.mem_filter.mpr ⟨hruns.edge, by simp [Plan.isBranching_eq_false hruns.straight]⟩
      rw [hnone] at hu
      cases hu
    next hne =>
      obtain ⟨u, hu⟩ := List.exists_mem_of_ne_nil _ hne
      obtain ⟨live, rfl, hb⟩ := hfalling u hu
      have hone := eq_singleton_of_ascending hsorted hne fun v hv =>
        (Nat.succ.inj (hfalling v hv).2.1).symm
      rw [hone]
      unfold joinLabel
      rw [p.node?_eq, hl]
      refine leads_labelOf_bind fun c hc => .bind (.of_run rfl (.pure ?_))
      exact h.jump sound live new hb hl hc
  next hjoin =>
    refine .pure (h.skip fun u hnode hruns => hjoin ?_)
    subst hnode
    obtain ⟨l, hl⟩ := sound.models.label_of_several hruns.several
    have live := (sound.models.pruned.reached hruns.edge).step hruns.edge
    have hhandler : (p.graph.handlers.lookup (u + 1)).isSome = false :=
      (sound.models.known (u + 1)).trans hruns.plain
    simp only [Bool.and_eq_true, Bool.not_eq_true', List.isEmpty_eq_false_iff]
    exact ⟨⟨h.codeOf_ne_nil live hl, by simpa using hhandler⟩, hruns.several⟩

theorem Joined.insertJumps (sound : p.Sound) (h : Complete p s)
    : (insertJumps p).Leads s fun _ s' => Joined p p.graph.graph.nodes s' := by
  refine Leads.forM (I := Joined p) ?_ h.joined
  intro before node after s₁ hnodes h₁
  refine h₁.insertJumpsTo sound fun hm => ?_
  have hnodup : p.graph.graph.nodes.Nodup := List.nodup_range
  rw [hnodes] at hnodup
  exact (List.nodup_append.mp hnodup).2.2 _ hm _ (by simp) rfl

end LiftM

end StackLift
