import StackLift.Proofs.ArrivingFrames
import StackLift.Proofs.TypeNames

/-!
Lifting keeps the results of methods. A step of the stack machine from a node is followed by a run
through the code of the node, up to the code of the node that is next.
-/

namespace StackLift

open StackMachine RegisterMachine

variable {p : Plan} {T : Typing} {lo hi : Nat → Nat} {start s : LiftState} {C : Nat → List Copy}
  {u v : Nat} {code rest : List Inst}

section

variable {D : Type} {I : Interpretation (Datum D)} {M : Meaning D} {inputs : Inputs D}
  {registers after final : RegisterFile (Datum D)} {S S' : Shape} {μ μ' : Memory D} {go : Next D}
  {labels : List (Label × CodeLabel)} {next : Option Node} {insts : List Inst} {m : Method}

-- Jumps

/-- The code of a jump goes to a label: that of the target, or one where control goes on. -/
inductive GoesTo (labels : List (Label × CodeLabel)) (next : Option Node) (c : CodeLabel) :
    Next D → List Inst → Prop
  | target {target : Label} {tail : List Inst} : labels.lookup target = some c →
    GoesTo labels next c (.jumps target) tail
  | on {tail : List Inst} : GoesOn labels next c tail → GoesTo labels next c .falls tail

/-- The label of the first case with the key stands for the selected target. -/
theorem lookup_select (means : I.Means M m inputs) {key : Value} {targets : List (Int32 × Label)}
    {cases : List (Value × CodeLabel)} {default : Label} {c : CodeLabel}
    (h : List.Forall₂ (fun t case => case.1 = .constant (.int t.1)
      ∧ labels.lookup t.2 = some case.2) targets cases)
    (hc : labels.lookup default = some c)
    : labels.lookup (M.select (I.eval [] registers key) targets default)
      = some (((cases.find? fun case => I.equal (I.eval [] registers key)
          (I.eval [] registers case.1)).map Prod.snd).getD c) := by
  induction h with
  | nil => exact hc
  | @cons t case targets cases hcase _ ih =>
      have hequal : I.equal (I.eval [] registers key) (I.eval [] registers case.1)
          = M.holds .eq (I.eval [] registers key) (M.datum (.int t.1)) := by
        rw [hcase.1, means.equal]
        exact congrArg _ (means.constant (.int _))
      unfold Meaning.select at ih ⊢
      rw [List.find?_cons, List.find?_cons, hequal]
      cases M.holds .eq (I.eval [] registers key) (M.datum (.int t.1)) with
      | true => exact hcase.2
      | false => exact ih

/-- Code that goes where a branch goes returns, or jumps to a label. -/
theorem Directs.effect (h : Directs M (I.eval [] registers) labels next go insts)
    (means : I.Means M m inputs)
    : (∃ v, insts = [.returns v] ∧ go = .returns (v.map (I.eval [] registers)))
      ∨ ∃ i tail c, insts = i :: tail ∧ I.effect [] registers i = .jump c
        ∧ GoesTo labels next c go tail := by
  cases h with
  | returnVoid => exact .inl ⟨none, rfl, rfl⟩
  | returnValue => exact .inl ⟨some _, rfl, rfl⟩
  | goto hc => exact .inr ⟨_, _, _, rfl, rfl, .target hc⟩
  | compare hc hgoes =>
      refine .inr ⟨_, _, _, rfl, rfl, ?_⟩
      rw [means.holds, Next.ofCondition]
      split
      · exact .target hc
      · exact .on hgoes
  | switch hcases hc =>
      exact .inr ⟨_, _, _, rfl, rfl, .target (lookup_select means hcases hc)⟩

-- Nodes

/-- The memory after a node and where control goes from it; the entry changes nothing. -/
def StackMachine.executeAt (M : Meaning D) (m : Method) (μ : Memory D) :
    (node : Nat) → Option (Memory D × Next D)
  | 0 => some (μ, .falls)
  | n + 1 => (m.node? (n + 1)).bind (execute M μ)

theorem StackMachine.step_running (M : Meaning D) (m : Method) (μ : Memory D) (node : Nat)
    : step M m (.running node μ)
      = (executeAt M m μ node).bind fun (μ, next) => proceed m node μ next := by
  cases node with
  | zero => rfl
  | succ n =>
      rw [step, executeAt, Option.bind_assoc]
      rfl

theorem StackMachine.executeAt_of_node {node : Node} (h : m.node? u = some node)
    : executeAt M m μ u = execute M μ node := by
  cases u with
  | zero => cases h
  | succ n => rw [executeAt, h, Option.bind_some]

theorem StackMachine.executeAt_of_none (h : m.node? u = none)
    (hx : executeAt M m μ u = some (μ', go))
    : μ' = μ ∧ go = .falls := by
  cases u with
  | zero =>
      cases hx
      exact ⟨rfl, rfl⟩
  | succ n =>
      rw [executeAt, h] at hx
      cases hx

/-- A switch selects its default or the target of a case. -/
theorem StackMachine.select_mem (key : Datum D) (cases : List (Int32 × Label)) (default : Label)
    : M.select key cases default ∈ default :: cases.map Prod.snd := by
  unfold Meaning.select
  cases hfound : cases.find? fun c => M.holds .eq key (M.datum (.int c.1)) with
  | none => exact List.mem_cons_self
  | some c =>
      exact List.mem_cons_of_mem _ (List.mem_map_of_mem (List.mem_of_find?_eq_some hfound))

theorem StackMachine.next_of_condition {condition : Bool} {target : Label}
    (h : Next.ofCondition condition target = go)
    : go = .falls ∨ go = .jumps target := by
  subst h
  cases condition
  · exact .inl rfl
  · exact .inr rfl

/-- A branch falls through, jumps to one of its targets or returns. -/
theorem StackMachine.next_of_executeBranch {b : Branch} (h : executeBranch M μ b = some (μ', go))
    : (go = .falls ∧ b.fallsThrough = true) ∨ (∃ l ∈ b.targets, go = .jumps l)
      ∨ ∃ result, go = .returns result := by
  have hcondition : ∀ {condition : Bool} {target : Label}, b.fallsThrough = true →
      target ∈ b.targets → Next.ofCondition condition target = go →
      (go = .falls ∧ b.fallsThrough = true) ∨ (∃ l ∈ b.targets, go = .jumps l)
        ∨ ∃ result, go = .returns result := by
    intro condition target hfalls htarget hgo
    rcases next_of_condition hgo with rfl | rfl
    · exact .inl ⟨rfl, hfalls⟩
    · exact .inr (.inl ⟨target, htarget, rfl⟩)
  cases b with
  | returnVoid =>
      cases h
      exact .inr (.inr ⟨_, rfl⟩)
  | returnValue kind =>
      obtain ⟨_, -, h⟩ := Option.bind_eq_some_iff.mp h
      cases h
      exact .inr (.inr ⟨_, rfl⟩)
  | throw => cases h
  | goto target =>
      cases h
      exact .inr (.inl ⟨target, List.mem_singleton_self target, rfl⟩)
  | ifZero comparison target | ifNull comparison target =>
      obtain ⟨_, -, h⟩ := Option.bind_eq_some_iff.mp h
      exact hcondition rfl (List.mem_singleton_self target) (congrArg Prod.snd (Option.some.inj h))
  | ifInt comparison target | ifReference comparison target =>
      obtain ⟨_, -, h⟩ := Option.bind_eq_some_iff.mp h
      obtain ⟨_, -, h⟩ := Option.bind_eq_some_iff.mp h
      exact hcondition rfl (List.mem_singleton_self target) (congrArg Prod.snd (Option.some.inj h))
  | tableSwitch default low targets =>
      obtain ⟨⟨key, _⟩, -, h⟩ := Option.bind_eq_some_iff.mp h
      refine .inr (.inl ⟨_, ?_, (congrArg Prod.snd (Option.some.inj h)).symm⟩)
      have hmem := @select_mem D M key
        (targets.zipIdx.map fun t => (low + Int32.ofNat t.2, t.1)) default
      simpa [Branch.targets, Function.comp_def] using hmem
  | lookupSwitch default targets =>
      obtain ⟨⟨key, _⟩, -, h⟩ := Option.bind_eq_some_iff.mp h
      exact .inr (.inl ⟨_, select_mem key targets default,
        (congrArg Prod.snd (Option.some.inj h)).symm⟩)

/-- A node goes on only if it falls through, and jumps only to its targets. -/
theorem StackMachine.next_of_execute {node : Node} (h : execute M μ node = some (μ', go))
    : (go = .falls → node.fallsThrough = true) ∧ ∀ l, go = .jumps l → l ∈ node.targets := by
  cases node with
  | label | line =>
      cases h
      exact ⟨fun _ => rfl, nofun⟩
  | frame => cases h
  | plain i =>
      obtain ⟨_, -, h⟩ := Option.bind_eq_some_iff.mp h
      obtain ⟨_, -, h⟩ := Option.bind_eq_some_iff.mp h
      cases h
      exact ⟨fun _ => rfl, nofun⟩
  | branch b =>
      rcases next_of_executeBranch h with ⟨rfl, hfalls⟩ | ⟨l, hl, rfl⟩ | ⟨_, rfl⟩
      · exact ⟨fun _ => hfalls, nofun⟩
      · exact ⟨nofun, fun _ hgo => Next.jumps.inj hgo ▸ hl⟩
      · exact ⟨nofun, nofun⟩

theorem Method.node?_of_labelPosition? {l : Label} {index : Nat}
    (h : m.labelPosition? l = some index)
    : m.node? (index + 1) = some (.label l) := by
  obtain ⟨hlt, hlabel, -⟩ := List.findIdx?_eq_some_iff_getElem.mp h
  refine labelAt?_eq_some.mp ?_
  rw [labelAt?, node?, List.getElem?_eq_getElem hlt, Option.bind_some]
  exact of_decide_eq_true hlabel

/-- Control flows to the node of the next step. -/
theorem StackMachine.flow_of_proceed {μ₁ : Memory D} (hμ : executeAt M m μ u = some (μ', go))
    (h : proceed m u μ' go = some (.running v μ₁)) (hv : v ≤ m.nodes.length)
    : m.Flow u v := by
  cases u with
  | zero =>
      cases hμ
      cases h
      exact .enters (List.length_pos_iff.mp hv)
  | succ k =>
      obtain ⟨node, hnode, hexecute⟩ := Option.bind_eq_some_iff.mp hμ
      obtain ⟨hfalls, htargets⟩ := next_of_execute hexecute
      cases go with
      | falls =>
          cases h
          exact .falls hnode (hfalls rfl) hv
      | jumps target =>
          obtain ⟨index, hindex, h⟩ := Option.map_eq_some_iff.mp h
          cases h
          exact .jumps hnode (htargets target rfl) (Method.node?_of_labelPosition? hindex)
      | returns => cases h

namespace Translated

variable (h : Translated p T lo hi start C s)

include h

theorem typed_before {f : Frame} (hS : T.shape? u = some S) (hbefore : FrameBefore p start u f)
    : ∀ {slot v}, f.local? slot = some v → v.type ≠ .top := by
  obtain ⟨w, hw, -, hf⟩ := hbefore
  have edge : w ∈ p.graph.graph.predecessors u := by simp [hw]
  obtain ⟨S₁, S₂, hS₁, hS₂, -⟩ := h.verifies.edge h.models h.noRanges edge hS
  have horder := h.models.pruned.mem_order.mpr (h.models.pruned.reached edge)
  intro slot v
  exact (h.staged.fits h.models h.noRanges h.verifies h.declared w horder hf hS₁ hS₂).typed

/-- The code of a node that does not branch leads from a frame that matches to one that does. -/
theorem runs_straight {g : Inst → Inst} (means : I.Means M p.method inputs) (hg : KeepsEffects g)
    (hu : u ∈ p.graph.graph.order) (hb : ∀ b, p.node? u ≠ some (.branch b))
    (hS : T.shape? u = some S) (hS' : shapeAfter? p.method S u = some S')
    (arrives : ArrivesWith I p start u registers S μ)
    (hμ : executeAt M p.method μ u = some (μ', go))
    : go = .falls ∧ ∃ after,
        (∀ code rest,
          Runs I code (.start ((start.codeOf u).map g ++ rest) registers) (.start rest after))
        ∧ (∀ {f}, start.frameOf? u = some f →
          f.Matches (Value.Denotes (I.eval [] after)) S' μ')
        ∧ ∀ x, x ∉ assignedIn (start.codeOf u) → after x = registers x := by
  obtain ⟨f, hf, hsimulates⟩ := h.staged.nodes u hu
  have hframe : ∀ {after}, f.Matches (Value.Denotes (I.eval [] after)) S' μ' →
      ∀ {f'}, start.frameOf? u = some f' → f'.Matches (Value.Denotes (I.eval [] after)) S' μ' := by
    intro after hm f' hf'
    exact Option.some.inj (hf.symm.trans hf') ▸ hm
  have hidle : ∀ i, I.effect [] registers i = .proceed [] none →
      ∀ code rest, Runs I code (.start ([i].map g ++ rest) registers) (.start rest registers) :=
    fun i hi _ _ => .proceed ((hg I registers i).trans hi)
  generalize start.codeOf u = insts at hsimulates ⊢
  cases hsimulates with
  | entry hnode =>
      obtain ⟨rfl, rfl⟩ := executeAt_of_none (p.node?_eq u ▸ hnode) hμ
      obtain rfl : S = S' := by
        cases u with
        | zero => exact Option.some.inj hS'
        | succ n =>
            rw [shapeAfter?, ← p.node?_eq, hnode] at hS'
            cases hS'
      exact ⟨rfl, registers, fun _ _ => .refl _, hframe (arrives.frame (.entry hnode)),
        fun _ _ => rfl⟩
  | label hnode =>
      rw [executeAt_of_node (p.node?_eq u ▸ hnode)] at hμ
      rw [shapeAfter?_of_node (p.node?_eq u ▸ hnode)] at hS'
      cases hμ
      cases hS'
      exact ⟨rfl, registers, hidle _ rfl, hframe (arrives.frame (.join hnode hf)), fun _ _ => rfl⟩
  | line hnode hbefore =>
      rw [executeAt_of_node (p.node?_eq u ▸ hnode)] at hμ
      rw [shapeAfter?_of_node (p.node?_eq u ▸ hnode)] at hS'
      cases hμ
      cases hS'
      exact ⟨rfl, registers, hidle _ rfl,
        hframe (arrives.frame (.single (by simp [hnode]) hbefore)), fun _ _ => rfl⟩
  | @plain i operation f' _ _ hnode hi hbefore hperforms =>
      rw [executeAt_of_node (p.node?_eq u ▸ hnode)] at hμ
      rw [shapeAfter?_of_node (p.node?_eq u ▸ hnode)] at hS'
      obtain ⟨⟨S₁, go'⟩, hexecute, rfl⟩ := Option.map_eq_some_iff.mp hS'
      obtain ⟨happly, rfl⟩ := execute_plain hi hμ
      obtain ⟨happly', -⟩ := execute_plain hi hexecute
      obtain ⟨after, hruns, hevaluates, hkept⟩ := hperforms.computing.runs I hg
      refine ⟨rfl, after, hruns, hframe ?_, hkept⟩
      refine hperforms.matches means.toFollows (arrives.frame (.single (by simp [hnode]) hbefore))
        (fun hv => ?_) (fun _ => rfl) happly happly' (fun hwrites hk =>
          h.declared.stored hnode hi hwrites hS happly' hk) (h.typed_before hS hbefore) hevaluates
      obtain ⟨w, -, hprecedes, hf'⟩ := hbefore
      exact h.staged.below_of_precedes hprecedes hf' hv
  | branch hnode => exact absurd hnode (hb _)

end Translated

-- Layouts

/-- An instruction with the final names and types of registers. -/
def LiftState.finish (s : LiftState) (i : Inst) : Inst :=
  s.refinements.inst (s.registers.nameInst i)

theorem LiftState.control_finish (s : LiftState) (i : Inst)
    : (s.finish i).control = i.control := by
  simp [finish, Substitution.inst, Registers.nameInst]

/-- The rest of the code is that from a node on, but for markers. -/
def LiftState.StandsBefore (s : LiftState) (n : Nat) (rest : List Inst) : Prop :=
  ∃ lead, (∀ i ∈ lead, i.isMarker = true) ∧ rest = lead ++ (s.nodeCode.drop n).flatten

/-- A run of the register code is before a node with registers for the memory. -/
def Tracks (I : Interpretation (Datum D)) (p : Plan) (T : Typing) (start s : LiftState) (n : Nat)
    (μ : Memory D) (t : RegisterMachine.State (Datum D)) : Prop :=
  ∃ rest registers S, t = .start rest registers ∧ s.StandsBefore n rest
    ∧ n ∈ p.graph.graph.order ∧ T.shape? n = some S ∧ ArrivesWith I p start n registers S μ

/-- The code of a translated method is laid out node by node. -/
structure LaidOut (p : Plan) (T : Typing) (lo hi : Nat → Nat) (start : LiftState)
    (C : Nat → List Copy) (s : LiftState) (code : List Inst) : Prop where
  translated : Translated p T lo hi start C s
  layout : Layout p.method p.graph s.labels s.nodeCode
  lands : ∀ {c n}, StandsAt s.nodeCode c n → s.StandsBefore n (codeAt code c)

namespace LaidOut

variable (h : LaidOut p T lo hi start C s code)

include h

theorem finish_keepsEffects
    : KeepsEffects s.finish :=
  keepsEffects_nameInst h.translated.copied.refinements

/-- After a node that does not branch, control goes on to the next one. -/
theorem goes_on (I : Interpretation (Datum D)) (live : p.graph.graph.Reaches u)
    (hb : ∀ b, p.node? u ≠ some (.branch b)) {done jumps : List Inst}
    (hcode : s.codeOf u = done ++ jumps)
    (hjumps : ∀ i ∈ jumps, ∃ c, i = .jump c) (registers : RegisterFile (Datum D))
    : ∃ rest, Runs I code
          (.start (jumps.map s.finish ++ (s.nodeCode.drop (u + 1)).flatten) registers)
          (.start rest registers)
        ∧ s.StandsBefore (u + 1) rest := by
  cases jumps with
  | nil => exact ⟨_, .refl _, [], by simp, rfl⟩
  | cons i tail =>
      obtain ⟨c, rfl⟩ := hjumps i List.mem_cons_self
      have hnode : s.nodeCode.getD u []
          = done.map s.finish ++ s.finish (.jump c) :: tail.map s.finish := by
        rw [s.getD_nodeCode, hcode, List.map_append]
        rfl
      have hcontrol := s.control_finish (.jump c)
      obtain ⟨-, hclosing⟩ := h.layout.closing_of_jump live hnode
        (by rw [← Inst.isJump_control, hcontrol]; rfl)
      rw [hcontrol] at hclosing
      refine ⟨codeAt code c, .jump (h.finish_keepsEffects I registers (.jump c)), h.lands ?_⟩
      cases hclosing with
      | jumps _ honly =>
          obtain ⟨v, hplace, hflow⟩ := honly c (List.mem_singleton_self c)
          have hstraight := @Method.flow_of_straight _ u v (h.layout.le_length live)
            (by simpa [p.node?_eq] using hb)
          obtain rfl : v = u + 1 := hflow.elim (fun hflow => (hstraight.mp hflow).1) And.left
          exact hplace

theorem enters_code {lead copied jumps : List Inst} (hrest : s.StandsBefore u rest)
    (hlead : ∀ i ∈ lead, ∃ c, i = .label c) (hcode : s.codeOf u = lead ++ copied ++ jumps)
    : Runs I code (.start rest registers) (.start (copied.map s.finish
        ++ (jumps.map s.finish ++ (s.nodeCode.drop (u + 1)).flatten)) registers) := by
  obtain ⟨marks, hmarks, rfl⟩ := hrest
  refine .trans (.markers hmarks) ?_
  have hnode : s.nodeCode.getD u []
      = lead.map s.finish ++ (copied.map s.finish ++ jumps.map s.finish) := by
    rw [s.getD_nodeCode, hcode, List.append_assoc, List.map_append, List.map_append]
    rfl
  rw [flatten_drop, hnode, List.append_assoc, List.append_assoc]
  refine .idle fun i hi => ?_
  obtain ⟨j, hj, rfl⟩ := List.mem_map.mp hi
  obtain ⟨c, rfl⟩ := hlead j hj
  exact h.finish_keepsEffects I registers (.label c)

/-- Control that leaves a node comes to the node to which it flows. -/
theorem tracks_of_flow (leaves : LeavesWith I p start C u after final S' μ)
    (hu : u ∈ p.graph.graph.order) (hS : T.shape? u = some S)
    (hS' : shapeAfter? p.method S u = some S') (flow : p.method.Flow u v)
    (hrest : s.StandsBefore v rest)
    : Tracks I p T start s v μ (.start rest final) := by
  have models := h.translated.models
  have live := models.pruned.mem_order.mp hu
  have edge := models.flow live flow
  obtain ⟨S₁, hS₁, hflows⟩ := h.translated.verifies.step hS
  obtain rfl := Option.some.inj (hS'.symm.trans hS₁)
  obtain ⟨needed, hneeded, hprovides⟩ := hflows v flow
  exact ⟨rest, final, needed, rfl, hrest, models.pruned.mem_order.mpr (live.step edge), hneeded,
    leaves.arrives h.translated edge hS hS' hneeded hprovides⟩

/-- A step from a node that does not branch. -/
theorem follows_straight (means : I.Means M p.method inputs) (hu : u ∈ p.graph.graph.order)
    (hb : ∀ b, p.node? u ≠ some (.branch b)) (hS : T.shape? u = some S)
    (hS' : shapeAfter? p.method S u = some S') (arrives : ArrivesWith I p start u registers S μ)
    (hrest : s.StandsBefore u rest) (hμ : executeAt M p.method μ u = some (μ', go))
    : go = .falls ∧ ∃ rest' after final,
        Runs I code (.start rest registers) (.start rest' final) ∧ s.StandsBefore (u + 1) rest'
        ∧ LeavesWith I p start C u after final S' μ' := by
  have translated := h.translated
  obtain ⟨next, lead, copied, jumps, hlead, hjumps, hcopied, hcode⟩ := translated.copied.code u hu
  have hnot := hb
  generalize p.node? u = content at hcopied hnot
  generalize hbase : (start.codeOf u).map Inst.markResult = base at hcopied
  cases hcopied with
  | straight =>
      obtain ⟨hgo, after, hruns, hframe, hkept⟩ := translated.runs_straight means
        (h.finish_keepsEffects.comp keepsEffects_markResult) hu hb hS hS' arrives hμ
      obtain ⟨rest', hjump, hrest'⟩ := h.goes_on I (translated.models.pruned.mem_order.mp hu) hb
        hcode hjumps (I.moves (C u) after)
      refine ⟨hgo, rest', after, I.moves (C u) after, ?_, hrest', hframe,
        fun hm hx => translated.delivered hu arrives hkept hm hx, fun _ _ => rfl⟩
      refine .trans (h.enters_code hrest hlead hcode) (.trans ?_ (.trans
        (.copies h.finish_keepsEffects (C u)) hjump))
      rw [← hbase, List.map_append, List.map_map, List.append_assoc]
      exact hruns ..
  | exit => exact absurd rfl (hnot _)
  | jump => exact absurd rfl (hnot _)

/-- A label after the jump of a node stands before the next node. -/
theorem standsAt_after {done jumps : List Inst} {jump : Inst} {c : CodeLabel}
    (live : p.graph.graph.Reaches u) (hcode : s.codeOf u = done ++ jump :: .label c :: jumps)
    (hjump : jump.isBranching = true) (hjumps : ∀ i ∈ jumps, ∃ c, i = .jump c)
    : StandsAt s.nodeCode c (u + 1) := by
  have hnode : s.nodeCode.getD u []
      = done.map s.finish ++ s.finish jump :: (.label c :: jumps).map s.finish := by
    rw [s.getD_nodeCode, hcode, List.map_append]
    rfl
  obtain ⟨hmarkers, -⟩ := h.layout.closing_of_jump live hnode
    (by rw [← Inst.isJump_control, s.control_finish, Inst.isJump_control, hjump])
  -- Only markers follow the jump, so no other jump was added.
  obtain rfl : jumps = [] := by
    cases jumps with
    | nil => rfl
    | cons i tail =>
        obtain ⟨c', rfl⟩ := hjumps i List.mem_cons_self
        have hmarker := hmarkers (s.finish (.jump c')) (by simp)
        rw [← Inst.isMarker_control, s.control_finish] at hmarker
        cases hmarker
  refine @StandsAt.last _ _ u ((done ++ [jump]).map Inst.control) ?_
  rw [s.controlsOf_nodeCode, hcode]
  simp [Inst.control]

/-- The label where control goes on after a branch stands before the next node. -/
theorem standsAt_of_goesOn {done tail jumps : List Inst} {jump : Inst} {c : CodeLabel}
    (live : p.graph.graph.Reaches u) (hon : GoesOn start.labels (p.node? (u + 1)) c tail)
    (hcode : s.codeOf u = done ++ jump :: (tail.map Inst.markResult ++ jumps))
    (hjump : jump.isBranching = true) (hjumps : ∀ i ∈ jumps, ∃ c, i = .jump c)
    : StandsAt s.nodeCode c (u + 1) := by
  cases hon with
  | label hl hc =>
      exact h.layout.standsAt_label (p.node?_eq (u + 1) ▸ hl)
        (h.translated.copied.labels ▸ hc)
  | after => exact h.standsAt_after live hcode hjump hjumps

/-- A step from a branch returns, or goes to the label of the node that is next. -/
theorem follows_branch {b : Branch} (means : I.Means M p.method inputs)
    (hu : u ∈ p.graph.graph.order) (hnode : p.node? u = some (.branch b))
    (hS' : shapeAfter? p.method S u = some S') (arrives : ArrivesWith I p start u registers S μ)
    (hrest : s.StandsBefore u rest) (hμ : executeBranch M μ b = some (μ', go))
    : (∃ result i rest', go = .returns result
        ∧ Runs I code (.start rest registers) (.start (i :: rest') registers)
        ∧ I.effect [] registers i = .stop (.returned result))
      ∨ ∃ c final, Runs I code (.start rest registers) (.start (codeAt code c) final)
        ∧ LeavesWith I p start C u registers final S' μ'
        ∧ ((∃ target, go = .jumps target ∧ s.labels.lookup target = some c)
          ∨ go = .falls ∧ StandsAt s.nodeCode c (u + 1)) := by
  have translated := h.translated
  obtain ⟨f, hf, hsimulates⟩ := translated.staged.nodes u hu
  obtain ⟨next, lead, copied, jumps, hlead, hjumps, hcopied, hcode⟩ := translated.copied.code u hu
  rw [hnode] at hcopied
  generalize start.codeOf u = insts at hsimulates hcopied
  cases hsimulates with
  | entry hnode' => cases hnode.symm.trans hnode'
  | label hnode' => cases hnode.symm.trans hnode'
  | line hnode' => cases hnode.symm.trans hnode'
  | plain hnode' => cases hnode.symm.trans hnode'
  | @branch b' g _ _ hnode' hthrow hbefore hleaves =>
      cases hnode.symm.trans hnode'
      rw [shapeAfter?_of_node (p.node?_eq u ▸ hnode)] at hS'
      obtain ⟨⟨S₁, go'⟩, hexecute, rfl⟩ := Option.map_eq_some_iff.mp hS'
      obtain ⟨hmatches, hdirects⟩ := hleaves.matches means.toFollows
        (arrives.frame (.single (by simp [hnode]) hbefore)) (fun _ => rfl) hμ hexecute
      rcases hdirects.effect means with ⟨v, rfl, rfl⟩ | ⟨i, tail, c, rfl, heffect, hgoes⟩
      · refine .inl ⟨_, s.finish (.returns v),
          jumps.map s.finish ++ (s.nodeCode.drop (u + 1)).flatten, rfl, ?_,
          h.finish_keepsEffects I registers (.returns v)⟩
        refine .trans (h.enters_code hrest hlead hcode) ?_
        generalize hbase : [Inst.returns v].map Inst.markResult = base at hcopied
        cases hcopied with
        | straight hb => exact absurd rfl (hb b)
        | exit =>
            rw [← hbase]
            exact .refl _
        | jump hb => cases hleaves <;> cases hb
      · refine .inr ?_
        generalize hbase : (i :: tail).map Inst.markResult = base at hcopied
        cases hcopied with
        | straight hb => exact absurd rfl (hb b)
        | exit hb =>
            cases hleaves with
            | returnVoid | returnValue => cases heffect
            | goto => cases hb
            | compare hcompares => cases hcompares <;> cases hb
            | switch hselects => cases hselects <;> cases hb
        | @jump _ saves jump jump' after hb hready hguards hcopies =>
            obtain ⟨rfl, rfl⟩ := List.cons.inj hbase
            have hdecides := hguards.decides
              (hguards.apart.saved (fun c hc => (hcopies c hc).1) I registers)
            have hjump : I.effect [] (I.moves (saves ++ C u) registers) (s.finish jump')
                = .jump c := by
              rw [h.finish_keepsEffects, hdecides.effect hready, keepsEffects_markResult, heffect]
            refine ⟨c, I.moves (saves ++ C u) registers, ?_, ?_, ?_⟩
            · refine .trans (h.enters_code hrest hlead hcode) ?_
              rw [List.map_append, List.append_assoc]
              exact .trans (.copies h.finish_keepsEffects _) (.jump hjump)
            · refine ⟨fun hf' => Option.some.inj (hf.symm.trans hf') ▸ hmatches,
                fun hm hx => translated.delivered hu arrives (fun _ _ => rfl) hm hx,
                hguards.apart.moved (fun c hc => (hcopies c hc).2) I registers⟩
            · cases hgoes with
              | target hc => exact .inl ⟨_, rfl, translated.copied.labels ▸ hc⟩
              | on hon =>
                  have hcode' : s.codeOf u = (lead ++ (saves ++ C u).map Copy.inst)
                      ++ jump' :: (tail.map Inst.markResult ++ jumps) := by
                    rw [hcode]
                    simp
                  exact .inr ⟨rfl, h.standsAt_of_goesOn
                    (translated.models.pruned.mem_order.mp hu) hon hcode' hguards.jumps hjumps⟩

/-- A step of the stack machine is followed by a run of the register code. -/
theorem follows_step {t : RegisterMachine.State (Datum D)} {next : StackMachine.State D}
    (means : I.Means M p.method inputs) (tracks : Tracks I p T start s u μ t)
    (hstep : step M p.method (.running u μ) = some next)
    : (∃ result i rest registers, next = .returned result
        ∧ Runs I code t (.start (i :: rest) registers)
        ∧ I.effect [] registers i = .stop (.returned result))
      ∨ ∃ v μ', next = .running v μ' ∧ (v ≤ p.method.nodes.length →
        ∃ t', Runs I code t t' ∧ Tracks I p T start s v μ' t') := by
  obtain ⟨rest, registers, S, rfl, hrest, hu, hS, arrives⟩ := tracks
  rw [step_running] at hstep
  obtain ⟨⟨μ', go⟩, hμ, hproceed⟩ := Option.bind_eq_some_iff.mp hstep
  obtain ⟨S', hS', -⟩ := h.translated.verifies.step hS
  have hgoes : ∀ {v rest' after final}, proceed p.method u μ' go = some (.running v μ') →
      Runs I code (.start rest registers) (.start rest' final) → s.StandsBefore v rest' →
      LeavesWith I p start C u after final S' μ' → v ≤ p.method.nodes.length →
      ∃ t', Runs I code (.start rest registers) t' ∧ Tracks I p T start s v μ' t' := by
    intro v rest' after final hproceed hruns hrest' leaves hv
    exact ⟨_, hruns,
      h.tracks_of_flow leaves hu hS hS' (flow_of_proceed hμ hproceed hv) hrest'⟩
  by_cases hb : ∃ b, p.node? u = some (.branch b)
  · obtain ⟨b, hnode⟩ := hb
    have hbranch := hμ
    rw [executeAt_of_node (p.node?_eq u ▸ hnode)] at hbranch
    rcases h.follows_branch means hu hnode hS' arrives hrest hbranch with
      ⟨result, i, rest', rfl, hruns, hstop⟩ | ⟨c, final, hruns, leaves, hgo⟩
    · cases hproceed
      exact .inl ⟨result, i, rest', registers, rfl, hruns, hstop⟩
    · refine .inr ?_
      rcases hgo with ⟨target, rfl, hc⟩ | ⟨rfl, hplace⟩
      · obtain ⟨index, hindex, hnext⟩ := Option.map_eq_some_iff.mp hproceed
        have hplace := h.layout.standsAt_label (Method.node?_of_labelPosition? hindex) hc
        exact ⟨_, _, hnext.symm, hgoes (hproceed.trans (congrArg some hnext.symm)) hruns
          (h.lands hplace) leaves⟩
      · exact ⟨_, _, (Option.some.inj hproceed).symm, hgoes rfl hruns (h.lands hplace) leaves⟩
  · obtain ⟨rfl, rest', after, final, hruns, hrest', leaves⟩ := h.follows_straight means hu
      (fun b hnode => hb ⟨b, hnode⟩) hS hS' arrives hrest hμ
    exact .inr ⟨_, _, (Option.some.inj hproceed).symm, hgoes rfl hruns hrest' leaves⟩

/-- A run of the stack machine that returns is followed to its end, by induction on its steps. -/
theorem shows_of_run {t : RegisterMachine.State (Datum D)} {steps : Nat}
    {result : Option (Datum D)} (means : I.Means M p.method inputs)
    (tracks : Tracks I p T start s u μ t) (hruns : Runs I code (.start code registers) t)
    (hrun : run M p.method steps (.running u μ) = some result)
    : Shows I code registers [] (some (.returned result)) := by
  induction steps generalizing u μ t with
  | zero => cases hrun
  | succ steps ih =>
      obtain ⟨next, hstep, hrun⟩ := Option.bind_eq_some_iff.mp hrun
      rcases h.follows_step means tracks hstep with
        ⟨result', i, rest, registers', rfl, hruns', hstop⟩ | ⟨v, μ', rfl, hgo⟩
      · obtain rfl : result' = result := by
          cases steps <;> exact Option.some.inj hrun
        exact (hruns.trans hruns').shows hstop
      · have hv : v ≤ p.method.nodes.length := by
          cases steps with
          | zero => cases hrun
          | succ steps =>
              obtain ⟨_, hstep, -⟩ := Option.bind_eq_some_iff.mp hrun
              cases v with
              | zero => exact Nat.zero_le _
              | succ k =>
                  obtain ⟨_, hnode, -⟩ := Option.bind_eq_some_iff.mp hstep
                  exact Method.le_length_of_node? hnode
        obtain ⟨t', hruns', tracks'⟩ := hgo hv
        exact ih tracks' (hruns.trans hruns') hrun

end LaidOut

-- Methods

/-- The first frame matches the inputs. -/
theorem arrivesWith_entry (models : MethodGraph.Models p.method p.graph)
    (hranges : p.method.ranges = []) (declared : T.Declared p) (means : I.Means M p.method inputs)
    : ArrivesWith I p start NodeGraph.entry registers (entryShape p.method)
        (inputs.memory p.method) := by
  have hnone : ∀ w, w ∉ p.graph.graph.predecessors NodeGraph.entry := by
    intro w edge
    obtain ⟨_, hnode⟩ := (Method.flow_of_edge models hranges edge).exists_node
    cases hnode
  refine ⟨fun {f} hf => ?_, fun hm hx hne => ?_⟩
  · cases hf with
    | entry =>
        refine Plan.entryFrame_matches (fun hstatic => ⟨declared.receiver hstatic, means.receiver⟩)
          fun index type htype name => ⟨?_, means.argument htype⟩
        exact declared.parameters type (List.mem_of_getElem? htype)
    | join hnode => cases hnode
    | single _ hbefore =>
        obtain ⟨w, hw, -, -⟩ := hbefore
        exact absurd (by simp [hw]) (hnone w)
  · obtain ⟨w, hw⟩ := List.exists_mem_of_ne_nil _ hne
    exact absurd hw (hnone w)

end

/-- Lifting without simplification keeps the results of a verified method, if the types that it
declares tell the right kinds, its code tells what it pushes and its copies stay apart. Each label
is placed at most once, as in every method that is read from a listing.
-/
theorem lifting_keeps_results {m : Method} {settings : Settings} (once : m.LabelsOnce)
    (noRanges : m.ranges = []) (noFrames : ∀ frame, Node.frame frame ∉ m.nodes)
    (distinct : ∀ node ∈ m.nodes, node.pushesDistinct = true) (raw : settings.simplify = false)
    (planned : Plan.ofMethod m settings = .ok p) (lifted : m.lift settings = .ok code)
    (verifies : T.Verifies m) (declared : T.Declared p)
    (apart : ∀ start, (p.graph.graph.order.forM (LiftM.visit p)).run (.initial p)
      = .ok ((), start) → start.CopiesApart p)
    {D : Type} {I : Interpretation (Datum D)} {M : Meaning D} {inputs : Inputs D}
    (means : I.Means M m inputs) {result : Option (Datum D)} (returns : Returns M m inputs result)
    (registers : RegisterFile (Datum D))
    : Shows I code registers [] (some (.returned result)) := by
  rw [lift_eq_liftRaw raw] at lifted
  obtain ⟨p', hp, hx⟩ := except_bind_eq_ok.mp lifted
  obtain rfl := Except.ok.inj (planned.symm.trans hp)
  obtain ⟨s, hx⟩ := exists_run_of_run' hx
  have hdeclared := Plan.declared_of_no_frame noFrames planned
  obtain ⟨rfl, -, sound⟩ := Plan.sound_ofMethod once planned
  have hcontent : ∀ n frame, p.node? n ≠ some (.frame frame) := by
    intro n frame hnode
    obtain ⟨i, rfl, hi⟩ := Method.node?_eq_some.mp (p.node?_eq n ▸ hnode)
    exact noFrames frame (List.mem_of_getElem? hi)
  obtain ⟨start, lo, hi, C, staged, settled, copied⟩ :=
    exists_copied sound.models noRanges hcontent hdeclared distinct verifies apart hx
  obtain ⟨marks, rfl, layout, hmarks, hfresh⟩ := exists_layout_of_run sound hx
  have laidOut : LaidOut p T lo hi start C s (marks ++ s.nodeCode.flatten) :=
    ⟨⟨sound.models, noRanges, verifies, declared, staged, settled, copied⟩, layout,
      layout.exists_codeAt hmarks hfresh⟩
  obtain ⟨steps, hrun⟩ := returns
  refine laidOut.shows_of_run means ⟨_, _, _, rfl, ⟨marks, ?_, rfl⟩, ?_, verifies.entry,
    arrivesWith_entry sound.models noRanges declared means⟩ (.refl _) hrun
  · cases hmarks <;> simp [Inst.isMarker]
  · exact sound.models.pruned.mem_order.mpr .refl

/-- Whatever operators, conditions and inputs mean to the stack machine, register code can mean the
same, as a constant stands for one literal only.
-/
theorem RegisterMachine.Interpretation.exists_means {D : Type} (M : Meaning D) (m : Method)
    (inputs : Inputs D)
    : ∃ I : Interpretation (Datum D), I.Means M m inputs := by
  classical
  let constant (c : Constant) : Datum D :=
    if h : ∃ k, c.StandsFor k then M.datum h.choose else ⟨.reference, inputs.receiver⟩
  refine ⟨.ofMeaning M m inputs constant, Interpretation.means_ofMeaning fun {c k} hstands => ?_⟩
  have h : ∃ k, c.StandsFor k := ⟨k, hstands⟩
  rw [show constant c = M.datum h.choose from dif_pos h, h.choose_spec.unique hstands]

-- A loop whose copies stay apart

/-- Register code that adds and compares numbers without bounds. -/
def integerCode (m : Method) (inputs : Inputs Int) : Interpretation (Datum Int) :=
  .ofMeaning integers m inputs fun c => ⟨c.type.kind, c.number⟩

theorem means_integerCode (m : Method) (inputs : Inputs Int)
    : (integerCode m inputs).Means integers m inputs :=
  Interpretation.means_ofMeaning fun h => congrArg₂ Datum.mk h.hasKind.eq h.number_eq

/-- Slots from the first on, and stack entries, that all hold an `int`. -/
def intShape (slots entries : Nat) : Option Shape :=
  some ⟨List.replicate slots (some ⟨.int, ()⟩), List.replicate entries ⟨.int, ()⟩⟩

def doublingTyping : Typing :=
  [intShape 1 0, intShape 1 0, intShape 1 1, intShape 2 0, intShape 2 0, intShape 2 1,
    intShape 2 0, intShape 2 0, intShape 2 0, intShape 2 0, intShape 2 0, intShape 2 1]

theorem plan_doubles
    : Plan.ofMethod doubles rawSettings = .ok doublingPlan := by
  simp only [Plan.ofMethod, graph_doubles]
  rfl

theorem copiesApart_doublingPlan {start : LiftState}
    (h : (doublingPlan.graph.graph.order.forM (LiftM.visit doublingPlan)).run
      (.initial doublingPlan) = .ok ((), start))
    : start.CopiesApart doublingPlan := by
  have hcopies : ∀ x ∈ ((doublingPlan.graph.graph.order.forM (LiftM.visit doublingPlan)).run
      (.initial doublingPlan)).toOption, x.2.CopiesApart doublingPlan := by decide +kernel
  exact hcopies ((), start) (by rw [h]; rfl)

/-- The loop doubles 3 before and after lifting. -/
theorem doubling_code_keeps_result
    : ∃ code, doubles.lift rawSettings = .ok code ∧ doublingTyping.Verifies doubles
        ∧ Returns integers doubles ⟨0, fun _ => 3⟩ (some ⟨.int, 6⟩)
        ∧ ∀ registers, Shows (integerCode doubles ⟨0, fun _ => 3⟩) code registers []
            (some (.returned (some ⟨.int, 6⟩))) := by
  obtain ⟨code, lifted⟩ : ∃ code, doubles.lift rawSettings = .ok code := by decide +kernel
  have verifies : doublingTyping.Verifies doubles := by decide +kernel
  have returns : Returns integers doubles ⟨0, fun _ => 3⟩ (some ⟨.int, 6⟩) :=
    ⟨40, by decide +kernel⟩
  exact ⟨code, lifted, verifies, returns, lifting_keeps_results (by decide) rfl
    (by simp [doubles, staticMethod]) (by decide) rfl plan_doubles lifted verifies
    (Typing.declared_of_no_variables rfl nofun (by decide)) (fun _ => copiesApart_doublingPlan)
    (means_integerCode ..) returns⟩

-- A loop whose copies overwrite each other

/-- A method that swaps 1 and 2 as often as its argument says, and returns the first. -/
def swaps : Method :=
  staticMethod ⟨[.base .int], some (.base .int)⟩
    [.plain (.pushInt ⟨2, by decide⟩), .plain (.store .int 1),
      .plain (.pushInt ⟨3, by decide⟩), .plain (.store .int 2),
      .label ⟨0⟩, .plain (.load .int 1), .plain (.load .int 2),
      .plain (.store .int 1), .plain (.store .int 2), .plain (.increment 0 (-1)),
      .plain (.load .int 0), .branch (.ifZero .ne ⟨0⟩),
      .plain (.load .int 1), .branch (.returnValue .int)]

def swappingGraph : MethodGraph :=
  { graph :=
      ⟨#[[], [0], [1], [2], [3], [4, 12], [5], [6], [7], [8], [9], [10], [11], [12], [13]], []⟩
    labels := [(⟨0⟩, 5)]
    handlers := [] }

def swappingPlan : Plan :=
  { method := swaps
    settings := rawSettings
    graph := swappingGraph
    places := [(⟨0⟩, 5)]
    variableTable := []
    declared := [] }

def swappingTyping : Typing :=
  [intShape 1 0, intShape 1 0, intShape 1 1, intShape 2 0, intShape 2 1, intShape 3 0,
    intShape 3 0, intShape 3 1, intShape 3 2, intShape 3 1, intShape 3 0, intShape 3 0,
    intShape 3 1, intShape 3 0, intShape 3 1]

theorem plan_swaps
    : Plan.ofMethod swaps rawSettings = .ok swappingPlan := by
  have hgraph : MethodGraph.ofMethod swaps = .ok swappingGraph := by decide +kernel
  simp only [Plan.ofMethod, hgraph]
  rfl

/-- The first copy of the loop overwrites the register that the second one reads, so that the slots
are equal from then on.
-/
theorem swapping_code_changes_result
    : ∃ code registers, swaps.lift rawSettings = .ok code ∧ swappingTyping.Verifies swaps
        ∧ Plan.ofMethod swaps rawSettings = .ok swappingPlan
        ∧ swappingTyping.Declared swappingPlan
        ∧ Returns integers swaps ⟨0, fun _ => 2⟩ (some ⟨.int, 1⟩)
        ∧ ∃ I, Interpretation.Means I integers swaps ⟨0, fun _ => 2⟩
          ∧ ¬ Shows I code registers [] (some (.returned (some ⟨.int, 1⟩))) := by
  let I := integerCode swaps ⟨0, fun _ => 2⟩
  obtain ⟨code, lifted, ends⟩ : ∃ code, swaps.lift rawSettings = .ok code
      ∧ (runFor I code (fun _ => ⟨.int, 0⟩) 30).outcome = some (.returned (some ⟨.int, 2⟩)) := by
    decide +kernel
  refine ⟨code, fun _ => ⟨.int, 0⟩, lifted, by decide +kernel, plan_swaps,
    Typing.declared_of_no_variables rfl nofun (by decide), ⟨40, by decide +kernel⟩, I,
    means_integerCode .., fun shows => ?_⟩
  obtain ⟨-, houtcome⟩ := shows.unique ⟨30, rfl, ends⟩
  cases houtcome

end StackLift
