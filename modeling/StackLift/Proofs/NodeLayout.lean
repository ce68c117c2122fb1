import StackLift.Proofs.SoundPlan

/-!
The shape of the code of a node: a lead of markers and the start of a handler, code through which
control goes straight on, and an exit.
-/

namespace StackLift

variable {m : Method} {labels more : List (Label × CodeLabel)} {n : Nat}

-- Shapes

/-- The bounds of an entry are the labels of the bounds of a protected range. -/
structure Bounds (labels : List (Label × CodeLabel)) (r : ProtectedRange) (e : CatchEntry) :
    Prop where
  start : labels.lookup r.start = some e.start
  stop : labels.lookup r.stop = some e.stop

/-- How the code of a node starts. -/
inductive Lead (labels : List (Label × CodeLabel)) (handled : List ProtectedRange) :
    Option Node → List Control → Prop where
  | entry : Lead labels handled none []
  | label {l : Label} {c : CodeLabel} : labels.lookup l = some c → handled = [] →
      Lead labels handled (some (.label l)) [.label c]
  | handler {l : Label} {c : CodeLabel} {entries : List CatchEntry} : labels.lookup l = some c →
      handled ≠ [] → List.Forall₂ (Bounds labels) handled entries →
      Lead labels handled (some (.label l)) [.label c, .catches c entries]
  | line {number : Nat} {l : Label} {c : CodeLabel} : labels.lookup l = some c →
      Lead labels handled (some (.line number l)) [.line c]
  | frame {f : StackMapFrame} : Lead labels handled (some (.frame f)) []
  | plain {i : Instruction} : Lead labels handled (some (.plain i)) []
  | branch {b : Branch} : Lead labels handled (some (.branch b)) []

/-- The labels of the code that stand for the given labels of the method, in some order. -/
structure Targets (labels : List (Label × CodeLabel)) (ls : List Label) (cs : List CodeLabel) :
    Prop where
  all : ∀ l ∈ ls, ∃ c ∈ cs, labels.lookup l = some c
  only : ∀ c ∈ cs, ∃ l ∈ ls, labels.lookup l = some c

/-- How the code of a node ends, where `next` is the node after it. -/
inductive Exit (labels : List (Label × CodeLabel)) (next : Option Node) :
    Option Node → List Control → Prop where
  | falls {node : Option Node} : (∀ b, node ≠ some (.branch b)) → Exit labels next node []
  | leaves {b : Branch} : b.isTerminal = true → Exit labels next (some (.branch b)) [.exit]
  | jumps {b : Branch} {cs : List CodeLabel} : b.isTerminal = false → b.fallsThrough = false →
      Targets labels b.targets cs → Exit labels next (some (.branch b)) [.jumps cs]
  | branches {b : Branch} {l l' : Label} {c c' : CodeLabel} : b.fallsThrough = true →
      b.targets = [l] → labels.lookup l = some c → next = some (.label l') →
      labels.lookup l' = some c' → Exit labels next (some (.branch b)) [.jumps [c, c']]
  | splits {b : Branch} {l : Label} {c c' : CodeLabel} : b.fallsThrough = true →
      b.targets = [l] → labels.lookup l = some c → (∀ l', next ≠ some (.label l')) →
      Exit labels next (some (.branch b)) [.jumps [c, c'], .label c']

/-- The shape of the code of a live node. -/
def NodeBlock (m : Method) (labels : List (Label × CodeLabel)) (n : Nat) (code : List Control) :
    Prop :=
  ∃ lead steps exit, Lead labels (m.handledAt n) (m.node? n) lead
    ∧ Exit labels (m.node? (n + 1)) (m.node? n) exit
    ∧ code = lead ++ List.replicate steps Control.step ++ exit

/-- Labels of the code stay what they are. -/
def LabelsGrow (labels more : List (Label × CodeLabel)) : Prop :=
  ∀ l c, labels.lookup l = some c → more.lookup l = some c

theorem Lead.grow (grow : LabelsGrow labels more) {handled : List ProtectedRange}
    {node : Option Node} {lead : List Control} (h : Lead labels handled node lead)
    : Lead more handled node lead := by
  cases h with
  | entry => exact .entry
  | label hc hh => exact .label (grow _ _ hc) hh
  | handler hc hh he =>
      exact .handler (grow _ _ hc) hh
        (he.imp fun r e h => ⟨grow _ _ h.start, grow _ _ h.stop⟩)
  | line hc => exact .line (grow _ _ hc)
  | frame => exact .frame
  | plain => exact .plain
  | branch => exact .branch

theorem Exit.grow (grow : LabelsGrow labels more) {next node : Option Node} {exit : List Control}
    (h : Exit labels next node exit)
    : Exit more next node exit := by
  cases h with
  | falls hb => exact .falls hb
  | leaves ht => exact .leaves ht
  | jumps ht hf hcs =>
      refine .jumps ht hf ⟨fun l hl => ?_, fun c hc => ?_⟩
      · obtain ⟨c, hc, h⟩ := hcs.all l hl
        exact ⟨c, hc, grow _ _ h⟩
      · obtain ⟨l, hl, h⟩ := hcs.only c hc
        exact ⟨l, hl, grow _ _ h⟩
  | branches hf ht hc hl hc' => exact .branches hf ht (grow _ _ hc) hl (grow _ _ hc')
  | splits hf ht hc hn => exact .splits hf ht (grow _ _ hc) hn

theorem NodeBlock.grow (grow : LabelsGrow labels more) {code : List Control}
    (h : NodeBlock m labels n code)
    : NodeBlock m more n code := by
  obtain ⟨lead, steps, exit, hlead, hexit, rfl⟩ := h
  exact ⟨lead, steps, exit, hlead.grow grow, hexit.grow grow, rfl⟩

-- Nodes that are no labels

namespace LiftM

/-- The step adds code to a node, and the labels that it places are new. -/
structure Writes (node : Nat) (insts : List Inst) (s s' : LiftState) : Prop where
  frames : s'.frames = s.frames
  labels : s'.labels = s.labels
  nextLabel : s.nextLabel ≤ s'.nextLabel
  fresh : ∀ c, .label c ∈ insts → s.nextLabel ≤ c.index ∧ c.index < s'.nextLabel
  code : s'.code = s.code.modify node (· ++ insts)

variable {p : Plan} {node : Nat} {s : LiftState}

theorem Emits.writes {insts : List Inst} {s' : LiftState} (h : Emits node insts s s')
    (hl : ∀ i ∈ insts, i.control.label? = none)
    : Writes node insts s s' where
  frames := h.frames
  labels := h.labels
  nextLabel := Nat.le_of_eq h.nextLabel.symm
  fresh _ hc := nomatch hl _ hc
  code := h.code

theorem leads_labelOf_bind {β : Type} {label : Label} {f : CodeLabel → LiftM β}
    {R : β → LiftState → Prop} (h : ∀ c, s.labels.lookup label = some c → (f c).Leads s R)
    : (labelOf label >>= f).Leads s R := by
  refine Leads.bind (Leads.get_bind ?_)
  split
  next c hc => exact .pure (h c hc)
  next => exact .throw rfl

/-- The code of a node, as it is written from a state. -/
def WritesBlock (m : Method) (node : Nat) (s s' : LiftState) : Prop :=
  ∃ insts, Writes node insts s s' ∧ NodeBlock m s.labels node (insts.map Inst.control)

theorem WritesBlock.of_exit {s' : LiftState} {b : Branch}
    (hn : m.node? node = some (.branch b)) (insts : List Inst) (hw : Writes node insts s s')
    (hexit : Exit s.labels (m.node? (node + 1)) (some (.branch b)) (insts.map Inst.control))
    : WritesBlock m node s s' :=
  ⟨insts, hw, [], 0, _, hn ▸ .branch, hn ▸ hexit, by simp⟩

theorem WritesBlock.of_straight {α : Type} {x : LiftM α} (hx : Straight node x s)
    (hlead : Lead s.labels (m.handledAt node) (m.node? node) [])
    (hb : ∀ b, m.node? node ≠ some (.branch b))
    : x.Leads s fun _ s' => WritesBlock m node s s' := by
  refine hx.mono fun _ s' ⟨insts, hi, he⟩ => ⟨insts, ?_, [], insts.length, [], hlead, .falls hb, ?_⟩
  · exact he.writes fun i hm => by rw [hi i hm]; rfl
  · simpa using List.eq_replicate_iff.mpr ⟨by simp, fun c hc => by
      obtain ⟨i, hm, rfl⟩ := List.mem_map.mp hc
      exact hi i hm⟩

theorem leads_branchOn {b : Branch} {op : BinaryOp} {left right : Value} {target : Label}
    (hn : p.method.node? node = some (.branch b)) (hf : b.fallsThrough = true)
    (ht : b.targets = [target])
    (hnext : ∀ l, p.method.node? (node + 1) = some (.label l) →
      (s.labels.lookup l).isSome = true)
    : (branchOn p node op left right target).Leads s fun _ s' =>
        WritesBlock p.method node s s' := by
  refine leads_labelOf_bind fun onTrue htrue => ?_
  refine .bind (Leads.mono (Q := fun next s' => s = s'
      ∧ ((∃ l c, next = some c ∧ p.method.node? (node + 1) = some (.label l)
          ∧ s.labels.lookup l = some c)
        ∨ (next = none ∧ ∀ l, p.method.node? (node + 1) ≠ some (.label l)))) ?_ ?_)
  · unfold nextLabel?
    rw [p.node?_eq]
    split
    next l hl =>
      obtain ⟨c, hc⟩ := Option.isSome_iff_exists.mp (hnext l hl)
      exact .get_bind (.pure ⟨rfl, .inl ⟨l, c, hc, hl, hc⟩⟩)
    next hl => exact .pure ⟨rfl, .inr ⟨rfl, fun l => hl l⟩⟩
  · rintro next _ ⟨rfl, ⟨l, onFalse, rfl, hl, hfalse⟩ | ⟨rfl, hl⟩⟩
    · exact .of_run rfl (.of_exit hn [_] ⟨rfl, rfl, Nat.le_refl _, by simp, rfl⟩
        (.branches hf ht htrue hl hfalse))
    · refine .of_run rfl (.of_exit hn [_, _]
        ⟨rfl, rfl, Nat.le_succ _, fun c hc => ?_, modify_append_append ..⟩
        (.splits hf ht htrue hl))
      obtain rfl : c = ⟨s.nextLabel⟩ := by simpa using hc
      exact ⟨Nat.le_refl _, Nat.lt_succ_self _⟩

theorem leads_cases (targets : List (Int32 × Label))
    : (targets.mapM fun (number, target) => do
        return (Value.constant (.int number), ← labelOf target) : LiftM _).Leads s
        fun cases s' => s = s' ∧ List.Forall₂ (fun t c => s.labels.lookup t.2 = some c.2)
          targets cases := by
  induction targets with
  | nil => exact .pure ⟨rfl, .nil⟩
  | cons t rest ih =>
      rw [List.mapM_cons]
      refine .bind (leads_labelOf_bind fun c hc => .pure (.bind (ih.mono ?_)))
      rintro cases _ ⟨rfl, hcases⟩
      exact .pure ⟨rfl, .cons hc hcases⟩

theorem targets_cases {targets : List (Int32 × Label)} {cases : List (Value × CodeLabel)}
    (h : List.Forall₂ (fun t c => labels.lookup t.2 = some c.2) targets cases)
    {default : Label} {c : CodeLabel} (hc : labels.lookup default = some c)
    : Targets labels (default :: targets.map Prod.snd) (cases.map Prod.snd ++ [c]) := by
  induction h with
  | nil => exact ⟨by simpa using hc, by simpa using hc⟩
  | @cons t k _ _ hk _ ih =>
      constructor
      · intro l hl
        rcases List.mem_cons.mp hl with rfl | hl
        · exact ⟨c, by simp, hc⟩
        · rcases List.mem_cons.mp hl with rfl | hl
          · exact ⟨k.2, by simp, hk⟩
          · obtain ⟨c', hc', hl⟩ := ih.all l (List.mem_cons_of_mem _ hl)
            exact ⟨c', by simpa using .inr (by simpa using hc'), hl⟩
      · intro c' hc'
        rcases List.mem_cons.mp hc' with rfl | hc'
        · exact ⟨t.2, by simp, hk⟩
        · obtain ⟨l, hl, h⟩ := ih.only c' hc'
          rcases List.mem_cons.mp hl with rfl | hl
          · exact ⟨l, by simp, h⟩
          · exact ⟨l, by simpa using .inr (.inr (by simpa using hl)), h⟩

theorem leads_switchOn {b : Branch} {key : Value} {targets : List (Int32 × Label)}
    {default : Label} (hn : m.node? node = some (.branch b)) (ht : b.isTerminal = false)
    (hf : b.fallsThrough = false) (hb : b.targets = default :: targets.map Prod.snd)
    : (switchOn node key targets default).Leads s fun _ s' => WritesBlock m node s s' := by
  refine .bind ((leads_cases targets).mono ?_)
  rintro cases _ ⟨rfl, hcases⟩
  refine leads_labelOf_bind fun c hc => .of_run rfl ?_
  exact .of_exit hn [.switch key cases c] ⟨rfl, rfl, Nat.le_refl _, by simp, rfl⟩
    (.jumps ht hf (hb ▸ targets_cases hcases hc))

theorem leads_simulateBranch {b : Branch} {f : Frame}
    (hn : p.method.node? node = some (.branch b))
    (hnext : ∀ l, b.fallsThrough = true → p.method.node? (node + 1) = some (.label l) →
      (s.labels.lookup l).isSome = true)
    : (simulateBranch p node f b).Leads s fun _ s' => WritesBlock p.method node s s' := by
  have hexit : ∀ {i : Inst}, b.isTerminal = true → i.control = .exit →
      (emit node i).Leads s fun _ s' => WritesBlock p.method node s s' := by
    intro i ht hi
    refine .of_run rfl (.of_exit hn [i] ⟨rfl, rfl, Nat.le_refl _, fun c hc => ?_, rfl⟩ ?_)
    · rw [← List.mem_singleton.mp hc] at hi
      cases hi
    · rw [List.map_singleton, hi]
      exact .leaves ht
  cases b with
  | returnVoid => exact (hexit rfl rfl).returning
  | returnValue | throw => exact .lift_bind (.pop f node) fun _ _ => (hexit rfl rfl).returning
  | goto target =>
      refine leads_labelOf_bind fun c hc => .of_run rfl ?_
      refine .of_exit hn [.jump c] ⟨rfl, rfl, Nat.le_refl _, by simp, rfl⟩ (.jumps rfl rfl ?_)
      exact ⟨by simpa [Branch.targets] using hc, by simpa [Branch.targets] using hc⟩
  | ifZero | ifNull =>
      exact .lift_bind (.pop f node) fun _ _ =>
        (leads_branchOn hn rfl rfl fun l => hnext l rfl).returning
  | ifInt | ifReference =>
      exact .lift_bind (.pop f node) fun _ _ => .lift_bind (.pop _ node) fun _ _ =>
        (leads_branchOn hn rfl rfl fun l => hnext l rfl).returning
  | tableSwitch default low targets =>
      refine .lift_bind (.pop f node) fun _ _ => (leads_switchOn hn rfl rfl ?_).returning
      simp [Branch.targets, Function.comp_def]
  | lookupSwitch default targets =>
      exact .lift_bind (.pop f node) fun _ _ => (leads_switchOn hn rfl rfl rfl).returning

theorem control_of_call {f g : Frame} {call : Call} {inst : Inst}
    (h : call.effect f = .emit g inst)
    : inst.control = .step := by
  unfold Call.effect at h
  split at h <;> cases h
  rfl

theorem control_of_effect {f g : Frame} {i : Instruction} {inst : Inst}
    (h : i.effect node f = .ok (.emit g inst))
    : inst.control = .step := by
  cases i with
  | pushConstant c =>
      cases c with
      | dynamic =>
          obtain ⟨_, -, h⟩ := except_bind_eq_ok.mp h
          cases h
      | _ => cases h
  | invoke kind method =>
      obtain ⟨⟨arguments, f'⟩, -, h⟩ := except_bind_eq_ok.mp h
      dsimp only at h
      split at h
      · exact control_of_call (Except.ok.inj h)
      · obtain ⟨_, -, h⟩ := except_bind_eq_ok.mp h
        exact control_of_call (Except.ok.inj h)
  | invokeDynamic site =>
      obtain ⟨_, -, h⟩ := except_bind_eq_ok.mp h
      obtain ⟨_, -, h⟩ := except_bind_eq_ok.mp h
      exact control_of_call (Except.ok.inj h)
  | putStatic | enterMonitor | exitMonitor =>
      obtain ⟨_, -, h⟩ := except_bind_eq_ok.mp h
      cases h
      rfl
  | putField =>
      obtain ⟨_, -, h⟩ := except_bind_eq_ok.mp h
      obtain ⟨_, -, h⟩ := except_bind_eq_ok.mp h
      cases h
      rfl
  | arrayStore =>
      obtain ⟨_, -, h⟩ := except_bind_eq_ok.mp h
      obtain ⟨_, -, h⟩ := except_bind_eq_ok.mp h
      obtain ⟨_, -, h⟩ := except_bind_eq_ok.mp h
      cases h
      rfl
  | arrayLoad | arithmetic | shift | bitwise | compareLong | compareFloat | compareDouble =>
      obtain ⟨_, -, h⟩ := except_bind_eq_ok.mp h
      obtain ⟨_, -, h⟩ := except_bind_eq_ok.mp h
      cases h
  | nop | pushNull | pushInt | pushLong | pushFloat | pushDouble | pushByte | pushShort
  | getStatic | new => cases h
  | _ =>
      obtain ⟨_, -, h⟩ := except_bind_eq_ok.mp h
      cases h

theorem straight_refine {f : Frame} (h : (p.declared.lookup node).isSome = true)
    : Straight node (refine p node f) s := by
  unfold refine
  obtain ⟨d, hd⟩ := Option.isSome_iff_exists.mp h
  rw [hd]
  exact .quiet rfl rfl rfl rfl rfl

/-- Simulating a node that is no label writes its code. -/
theorem leads_simulate {content : Node} {f : Frame} (sound : p.Sound)
    (hn : p.method.node? node = some content) (hl : content.label? = none)
    (hnext : ∀ l, content.fallsThrough = true → p.method.node? (node + 1) = some (.label l) →
      (s.labels.lookup l).isSome = true)
    : (simulate p node content f).Leads s fun _ s' => WritesBlock p.method node s s' := by
  cases content with
  | label l => cases hl
  | line number start =>
      refine leads_labelOf_bind fun c hc => .of_run rfl ?_
      refine ⟨[.line number c], ⟨rfl, rfl, Nat.le_refl _, by simp, rfl⟩, [.line c], 0, [], ?_, ?_,
        rfl⟩
      · exact hn ▸ .line hc
      · exact hn ▸ .falls (by simp)
  | frame f' =>
      exact WritesBlock.of_straight (straight_refine (sound.declared hn)) (hn ▸ .frame)
        (by simp [hn])
  | plain i =>
      refine WritesBlock.of_straight ?_ (hn ▸ .plain) (by simp [hn])
      refine .lift_bind (.effect f node i) fun e he => straight_perform p e ?_
      rintro g inst rfl
      exact control_of_effect he
  | branch b => exact leads_simulateBranch hn hnext

end LiftM

end StackLift
