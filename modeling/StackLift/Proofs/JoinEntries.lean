import StackLift.Proofs.CarriedFlow
import StackLift.Proofs.ConsistentFlow
import StackLift.Proofs.ResolvingLabels

/-!
Control never falls into a join. The instruction before the label of a join jumps or leaves the
method, whether or not the nodes between the two have code, and simplification only drops copies.
-/

namespace StackLift

-- The instruction before a label

/-- What the last instruction of a code does to control, where markers are no instructions. -/
def lastControl? (code : List Inst) : Option Control :=
  ((code.map Inst.control).filter fun k => !k.isMarker).getLast?

/-- Control does not come to the label from the instruction before it. -/
def Detached (code : List Inst) (c : CodeLabel) : Prop :=
  ∃ before after, code = before ++ Inst.label c :: after
    ∧ ∀ k, lastControl? before = some k → k = .exit ∨ k.isJump = true

theorem lastControl?_append (code other : List Inst)
    : lastControl? (code ++ other) = (lastControl? other).or (lastControl? code) := by
  simp [lastControl?, List.getLast?_append]

theorem lastControl?_cons (i : Inst) (code : List Inst)
    : lastControl? (i :: code)
      = (lastControl? code).or (if i.control.isMarker then none else some i.control) := by
  rw [← List.singleton_append, lastControl?_append]
  cases h : i.control.isMarker <;> simp [lastControl?, h]

theorem exists_of_lastControl? {code : List Inst} {k : Control} (h : lastControl? code = some k)
    : ∃ i ∈ code, i.control = k ∧ i.isMarker = false := by
  obtain ⟨hmem, hmarker⟩ := List.mem_filter.mp (List.mem_of_getLast? h)
  obtain ⟨i, hi, rfl⟩ := List.mem_map.mp hmem
  exact ⟨i, hi, rfl, by simpa [i.isMarker_control] using hmarker⟩

/-- A label keeps its place where steps are removed. If another instruction comes to stand last
before it, then a step stood there.
-/
theorem Splits.exists_label {f : Value → Value} {code removed kept before after : List Inst}
    {c : CodeLabel} (h : Splits f code removed kept) (steps : ∀ i ∈ removed, i.control = .step)
    (hcode : code = before ++ .label c :: after)
    : ∃ before' after', kept = before' ++ Inst.label c :: after'
        ∧ (lastControl? before' = lastControl? before ∨ lastControl? before = some .step) := by
  induction h generalizing before with
  | nil => cases before <;> cases hcode
  | @keep i code removed kept _ ih =>
      cases before with
      | nil =>
          obtain ⟨rfl, -⟩ := List.cons.inj hcode
          exact ⟨[], kept, rfl, .inl rfl⟩
      | cons j before =>
          obtain ⟨rfl, htail⟩ := List.cons.inj hcode
          obtain ⟨before', after', rfl, hlast⟩ := ih steps htail
          refine ⟨i.rename f :: before', after', rfl, ?_⟩
          rw [lastControl?_cons, lastControl?_cons, i.control_rename]
          exact hlast.imp (fun hlast => by rw [hlast]) fun hlast => by rw [hlast]; rfl
  | @remove i code removed kept _ ih =>
      obtain ⟨hstep, hrest⟩ := List.forall_mem_cons.mp steps
      cases before with
      | nil =>
          obtain ⟨rfl, -⟩ := List.cons.inj hcode
          cases hstep
      | cons j before =>
          obtain ⟨rfl, htail⟩ := List.cons.inj hcode
          obtain ⟨before', after', rfl, hlast⟩ := ih hrest htail
          refine ⟨before', after', rfl, ?_⟩
          rw [lastControl?_cons, hstep]
          rcases hlast with hlast | hlast
          · rw [hlast]
            cases lastControl? before with
            | none => exact .inr rfl
            | some k => exact .inl rfl
          · rw [hlast]
            exact .inr rfl

theorem Reduces.detached {code next : List Inst} {c : CodeLabel} (h : Reduces code next)
    (hcode : Detached code c)
    : Detached next c := by
  refine h.keeps (P := fun code => Detached code c) ?_ hcode
  rintro f code removed kept hsplits steps ⟨before, after, hcode, hbefore⟩
  obtain ⟨before', after', hkept, hlast⟩ := hsplits.exists_label steps hcode
  refine ⟨before', after', hkept, fun k hk => ?_⟩
  rcases hlast with hlast | hlast
  · exact hbefore k (hlast ▸ hk)
  · rcases hbefore .step hlast with hstep | hstep <;> cases hstep

/-- What comes to a detached label jumps to it. -/
theorem Detached.isBranching {code : List Inst} {c : CodeLabel} {r : ResolvedCode}
    (detached : Detached code c) (once : (placedIn (code.map Inst.control)).Nodup)
    (resolves : ResolvedCode.Resolves code r) {q : Nat} (hq : r.labelTarget c = .ok q)
    {hierarchy : Hierarchy} {u : Nat} (hu : q ∈ (FlowGraph.ofResolved r hierarchy).successors u)
    : ∃ i, r.inst? u = some i ∧ i.isBranching = true := by
  obtain ⟨before, after, rfl, hbefore⟩ := detached
  obtain ⟨k, hk, hexit, hnext⟩ := FlowGraph.mem_successors.mp hu
  obtain ⟨i, hi, rfl⟩ := Option.map_eq_some_iff.mp hk
  refine ⟨i, hi, ?_⟩
  by_contra hstraight
  rw [← i.isJump_control] at hstraight
  rw [if_neg hstraight] at hnext
  have hplace : executed before = u + 1 := by
    have hposition := (ResolvedCode.target_eq_ok.mp hq).1
    rw [resolves.labels, ResolvedCode.position_eq once rfl] at hposition
    exact (Except.ok.inj hposition).trans hnext.1
  have hlast : lastControl? before = some i.control := by
    have hlength : (before.filter fun i => !i.isMarker).length = u + 1 := hplace
    rw [ResolvedCode.inst?, resolves.insts, List.getElem?_toArray, List.filter_append,
      List.getElem?_append_left (by omega)] at hi
    rw [lastControl?, filter_map_control, List.getLast?_map, List.getLast?_eq_getElem?, hlength,
      Nat.add_sub_cancel, hi]
    rfl
  exact (hbefore _ hlast).elim hexit hstraight

-- Joins

variable {m : Method} {graph : MethodGraph} {labels : List (Label × CodeLabel)}
  {nodes : List (List Inst)} {l : Label} {c : CodeLabel} {n u : Nat}

/-- A live label that is entered from several nodes and starts no handler. -/
structure MethodGraph.IsJoin (m : Method) (graph : MethodGraph) (n : Nat) (l : Label) : Prop where
  live : graph.graph.Reaches n
  label : m.node? n = some (.label l)
  several : graph.graph.hasSeveralPredecessors n = true
  plain : m.isHandler n = false

/-- Control goes straight on from the code of a live node. -/
structure Falls (m : Method) (graph : MethodGraph) (nodes : List (List Inst)) (u : Nat) : Prop where
  live : graph.graph.Reaches u
  straight : ∀ b, m.node? u ≠ some (.branch b)
  stays : ∀ cs, .jumps cs ∉ controlsOf nodes u

/-- A branch names the labels to which it leads. -/
theorem Exit.exists_jump {b : Branch} {next : Option Node} {exit : List Control}
    (h : Exit labels next (some (.branch b)) exit)
    (htarget : l ∈ b.targets ∨ b.fallsThrough = true ∧ next = some (.label l))
    (hc : labels.lookup l = some c)
    : ∃ cs, c ∈ cs ∧ .jumps cs ∈ exit := by
  have htargets : ∀ {l'}, b.targets = [l'] → l ∈ b.targets → l = l' := by
    intro l' hb hl
    rwa [hb, List.mem_singleton] at hl
  cases h with
  | falls hb => exact (hb b rfl).elim
  | leaves ht =>
      rcases htarget with hl | ⟨hf, -⟩
      · rw [Branch.targets_of_isTerminal ht] at hl
        cases hl
      · rw [Branch.isTerminal_of_fallsThrough hf] at ht
        cases ht
  | @jumps _ cs _ hf hcs =>
      rcases htarget with hl | ⟨hf', -⟩
      · obtain ⟨c', hmem, hc'⟩ := hcs.all l hl
        cases hc.symm.trans hc'
        exact ⟨cs, hmem, by simp⟩
      · cases hf.symm.trans hf'
  | branches _ hb hc₁ hnext hc₂ =>
      refine ⟨_, ?_, List.mem_singleton_self _⟩
      rcases htarget with hl | ⟨-, hl⟩
      · cases htargets hb hl
        cases hc.symm.trans hc₁
        exact List.mem_cons_self
      · cases hl.symm.trans hnext
        cases hc.symm.trans hc₂
        simp
  | splits _ hb hc₁ hnone =>
      refine ⟨_, ?_, List.mem_cons_self⟩
      rcases htarget with hl | ⟨-, hl⟩
      · cases htargets hb hl
        cases hc.symm.trans hc₁
        exact List.mem_cons_self
      · exact (hnone l hl).elim

namespace Layout

variable (layout : Layout m graph labels nodes)
include layout

/-- The code of a node that does not end in a jump or exit. -/
theorem falls_of_live (live : graph.graph.Reaches u)
    (hlast : ∀ k, lastControl? (nodes.getD u []) = some k → k ≠ .exit ∧ k.isJump = false)
    : Falls m graph nodes u := by
  obtain ⟨plain, closing, hcontrols, hplain, hclosing⟩ := layout.exists_closing live
  have hcode : lastControl? (nodes.getD u []) = (plain ++ closing).getLast? :=
    congrArg List.getLast? hcontrols
  cases hclosing with
  | falls straight =>
      refine ⟨live, straight, fun cs hcs => ?_⟩
      have hmem : .jumps cs ∈ plain := by
        rw [← List.append_nil plain, ← hcontrols]
        exact List.mem_filter.mpr ⟨hcs, rfl⟩
      cases (hplain _ hmem).2
  | exits => exact ((hlast _ (hcode.trans List.getLast?_concat)).1 rfl).elim
  | jumps => cases (hlast _ (hcode.trans List.getLast?_concat)).2

theorem flow_of_falls (falls : Falls m graph nodes u) (hu : u < m.nodes.length)
    : m.Flow u (u + 1) :=
  (Method.flow_of_straight (layout.le_length falls.live) falls.straight).mpr ⟨rfl, hu⟩

/-- If the last instruction before a node does not jump or leave the method, then control goes
straight on to the node, past nodes without instructions.
-/
theorem exists_falls (hn : n ≤ m.nodes.length) {k : Control}
    (hk : lastControl? (nodes.take n).flatten = some k) (hexit : k ≠ .exit)
    (hjump : k.isJump = false)
    : ∃ u, n = u + 1 ∧ Falls m graph nodes u := by
  induction n with
  | zero => cases hk
  | succ n ih =>
      refine ⟨n, rfl, ?_⟩
      rw [flatten_take_succ, lastControl?_append] at hk
      cases hlast : lastControl? (nodes.getD n []) with
      | none =>
          -- A node without instructions is passed, so control came straight on to it as well.
          rw [hlast, Option.none_or] at hk
          obtain ⟨u, rfl, falls⟩ := ih (Nat.le_of_succ_le hn) hk
          have hflow := layout.flow_of_falls falls (Nat.le_of_succ_le hn)
          refine layout.falls_of_live (layout.reaches_of_flow falls.live hflow) fun k hk => ?_
          rw [hlast] at hk
          cases hk
      | some k' =>
          rw [hlast, Option.some_or] at hk
          cases hk
          have hn : ¬ Silent nodes n := fun silent => by
            obtain ⟨i, hi, rfl, hmarker⟩ := exists_of_lastControl? hlast
            rw [silent i hi] at hmarker
            cases hmarker
          refine layout.falls_of_live (layout.live_of_not_silent hn) fun k' hk' => ?_
          cases hlast.symm.trans hk'
          exact ⟨hexit, hjump⟩

/-- Control does not come to a join from the instruction before it. -/
theorem detached_join (join : graph.IsJoin m n l) (hc : labels.lookup l = some c)
    {fresh : CodeLabel} {marks : List Inst} (hmarks : Hoisted fresh marks)
    : Detached (marks ++ nodes.flatten) c := by
  obtain ⟨rest, hlead⟩ := layout.leads_with_label join.label hc
  obtain ⟨i, B, hcode, hi, -⟩ := List.map_eq_cons_iff.mp hlead
  cases i.control_eq_label.mp hi
  refine ⟨marks ++ (nodes.take n).flatten, B ++ (nodes.drop (n + 1)).flatten, ?_, fun k hk => ?_⟩
  · rw [flatten_split nodes n, hcode]
    simp
  · have hnone : lastControl? marks = none := by
      cases hmarks <;> rfl
    rw [lastControl?_append, hnone, Option.or_none] at hk
    by_contra hstraight
    rw [not_or, Bool.not_eq_true] at hstraight
    have hle : n ≤ m.nodes.length := layout.le_length join.live
    obtain ⟨u, rfl, falls⟩ := layout.exists_falls hle hk hstraight.1 hstraight.2
    have edge := layout.models.flow falls.live (layout.flow_of_falls falls hle)
    obtain ⟨cs, hcs⟩ := layout.joins ⟨edge, falls.straight, join.several, join.plain⟩
    exact falls.stays cs hcs

/-- A node from which control flows to a join jumps to its label. -/
theorem exists_jump (join : graph.IsJoin m n l) (hc : labels.lookup l = some c)
    (live : graph.graph.Reaches u) (hflow : m.Flow u n)
    : ∃ cs, c ∈ cs ∧ .jumps cs ∈ controlsOf nodes u := by
  have edge := layout.models.flow live hflow
  obtain ⟨_, jump, ⟨lead, steps, exit, hlead, hexit, rfl⟩, hjump, hcode⟩ := layout.live live
  by_cases hb : ∃ b, m.node? u = some (.branch b)
  · obtain ⟨b, hb⟩ := hb
    rw [hb] at hexit
    have htarget : l ∈ b.targets
        ∨ b.fallsThrough = true ∧ m.node? (u + 1) = some (.label l) := by
      rcases (Method.flow_of_branch hb).mp hflow with ⟨hf, rfl, -⟩ | ⟨l', hl', hn⟩
      · exact .inr ⟨hf, join.label⟩
      · cases join.label.symm.trans hn
        exact .inl hl'
    obtain ⟨cs, hmem, hcs⟩ := hexit.exists_jump htarget hc
    exact ⟨cs, hmem, by simp [hcode, hcs]⟩
  · have straight : ∀ b, m.node? u ≠ some (.branch b) := not_exists.mp hb
    obtain rfl := ((Method.flow_of_straight (layout.le_length live) straight).mp hflow).1
    obtain ⟨cs, hcs⟩ := layout.joins ⟨edge, straight, join.several, join.plain⟩
    have hlast : .jumps cs ∈ jump := by
      rw [hcode, hexit.eq_nil straight, List.append_nil, List.mem_append, List.mem_append] at hcs
      rcases hcs with (hcs | hcs) | hcs
      · cases (hlead.straight _ hcs).2
      · cases List.eq_of_mem_replicate hcs
      · exact hcs
    cases hjump with
    | none => cases hlast
    | jump _ hl hc' =>
        cases join.label.symm.trans hl
        cases hc.symm.trans hc'
        exact ⟨[c], List.mem_singleton_self c, by simp [hcode]⟩

end Layout

/-- In code that a method is lifted to, the label of a live join that starts no handler leads to an
instruction to which control only comes by jumps.
-/
theorem joins_are_entered_by_jumps {settings : Settings} {code : List Inst} {g : FlowGraph}
    {hierarchy : Hierarchy} {p : Plan} (once : m.LabelsOnce) (lifted : m.lift settings = .ok code)
    (accepted : FlowGraph.ofCode code hierarchy = .ok g) (hp : Plan.ofMethod m settings = .ok p)
    (live : p.graph.graph.IsLive n) (hn : m.node? n = some (.label l))
    (several : 2 ≤ (p.graph.graph.predecessors n).length) (plain : ∀ r ∈ m.ranges, r.handler ≠ l)
    : ∃ c q, (LiftState.initial p).labels.lookup l = some c ∧ g.code.labelTarget c = .ok q
        ∧ ∀ u ∈ g.predecessors q, ∃ i, g.code.inst? u = some i ∧ i.isBranching = true := by
  obtain ⟨raw, hraw, reduces⟩ := exists_reduces_of_lift lifted
  obtain ⟨p', hp', hx⟩ := except_bind_eq_ok.mp hraw
  cases hp.symm.trans hp'
  obtain ⟨s, hx⟩ := exists_run_of_run' hx
  obtain ⟨r, hr, hg⟩ := except_bind_eq_ok.mp accepted
  cases hg
  obtain ⟨rfl, -, sound⟩ := Plan.sound_ofMethod once hp
  have join : p.graph.IsJoin p.method n l := by
    refine ⟨sound.models.pruned.isLive_iff.mp live, hn, decide_eq_true several, ?_⟩
    refine List.any_eq_false.mpr fun r hr => ?_
    simp [Method.labelAt?_eq_some.mpr hn, (plain r hr).symm]
  obtain ⟨c, hc⟩ := Option.isSome_iff_exists.mp
    ((LiftM.simulated_initial sound).laid.live join.live hn)
  have hlabel : s.labels.lookup l = some c :=
    ((leads_liftCode sound).2 raw s hx).1.laid.numbered l c hc
  obtain ⟨marks, rfl, layout, hmarks, hfresh⟩ := exists_layout_of_run sound hx
  have resolves := ResolvedCode.resolves_ofCode hr
  obtain ⟨q, hq⟩ : ∃ q, r.labelTarget c = .ok q := by
    obtain ⟨u, hu⟩ := List.exists_mem_of_length_pos (Nat.lt_of_lt_of_le Nat.two_pos several)
    have hflow : p.method.Flow u n :=
      (sound.models.edge hu).resolve_right (by simp [join.plain])
    obtain ⟨cs, hmem, hcs⟩ := layout.exists_jump join hlabel (sound.models.pruned.reached hu) hflow
    have hjump : .jumps cs ∈ skeleton code := by
      rw [reduces.skeleton_eq, mem_skeleton, List.map_append]
      exact ⟨List.mem_append_right _ (mem_controlsOf.mpr ⟨u, hcs⟩), by simp⟩
    obtain ⟨i, hi, hcontrol⟩ := List.mem_map.mp (mem_skeleton.mp hjump).1
    refine resolves.jumps i hi c ?_
    rw [← i.targets_control, hcontrol]
    exact hmem
  have hplaced : (placedIn (code.map Inst.control)).Nodup := by
    rw [← placedIn_skeleton, reduces.skeleton_eq, placedIn_skeleton]
    exact layout.nodup_code hmarks hfresh
  refine ⟨c, q, hc, hq, fun u hu => ?_⟩
  exact (reduces.detached (layout.detached_join join hlabel hmarks)).isBranching hplaced resolves hq
    (FlowGraph.mem_successors_iff.mpr hu)

/-- The middle of a loop is entered by a conditional jump from outside and by a jump from the node
before it, which does nothing else.
-/
theorem middle_is_entered_by_jumps
    : ∃ code g q, entersMiddle.lift rawSettings = .ok code ∧ FlowGraph.ofCode code ⟨[]⟩ = .ok g
        ∧ enteringGraph.graph.predecessors 5 = [2, 4] ∧ g.code.labelTarget ⟨1⟩ = .ok q
        ∧ g.predecessors q = [3, 6]
        ∧ ∀ u ∈ g.predecessors q, ∃ i, g.code.inst? u = some i ∧ i.isBranching = true := by
  obtain ⟨code, lifted, g, accepted, q, htarget, hentries⟩ :
      ∃ code, entersMiddle.lift rawSettings = .ok code ∧ ∃ g, FlowGraph.ofCode code ⟨[]⟩ = .ok g
        ∧ ∃ q, g.code.labelTarget ⟨1⟩ = .ok q ∧ g.predecessors q = [3, 6] := by decide +kernel
  obtain ⟨c, q', hc, hq, hjumps⟩ := joins_are_entered_by_jumps (n := 5) (l := ⟨1⟩) (by decide)
    lifted accepted (plan_entersMiddle rawSettings) (by decide) rfl (by decide) (by decide)
  cases hc
  cases htarget.symm.trans hq
  exact ⟨code, g, q, lifted, accepted, by decide, htarget, hentries, hjumps⟩

end StackLift
