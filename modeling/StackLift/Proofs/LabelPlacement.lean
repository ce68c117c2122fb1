import StackLift.Proofs.LiftedNodes
import StackLift.Proofs.NodeLayout

/-!
Where lifting places labels. A label of the code stands at one node at most; the label of a label of
the method stands at its node.
-/

namespace StackLift

open LiftState

/-- Where labels stand after the simulation of some nodes. -/
structure Laid (p : Plan) (s : LiftState) : Prop where
  size : s.code.size = p.graph.graph.size
  known : ∀ {l c}, s.labels.lookup l = some c →
    c.index < s.nextLabel ∧ ∃ n, p.method.node? n = some (.label l)
  injective : ∀ {l l' c}, s.labels.lookup l = some c → s.labels.lookup l' = some c → l = l'
  live : ∀ {n l}, p.graph.graph.Reaches n → p.method.node? n = some (.label l) →
    (s.labels.lookup l).isSome = true
  bound : ∀ {n c}, .label c ∈ s.codeOf n → c.index < s.nextLabel
  apart : ∀ {n k c}, .label c ∈ s.codeOf n → .label c ∈ s.codeOf k → n = k
  home : ∀ {n l c}, .label c ∈ s.codeOf n → s.labels.lookup l = some c →
    p.method.node? n = some (.label l)
  dead : ∀ {n}, ¬ p.graph.graph.Reaches n →
    s.codeOf n = (((p.method.labelAt? n).bind fun l => s.labels.lookup l).map Inst.label).toList
  numbered : LabelsGrow (initial p).labels s.labels

namespace Method

/-- A label that is placed at most once has one node. -/
theorem LabelsOnce.unique {m : Method} (once : m.LabelsOnce) {l : Label} {n k : Nat}
    (hn : m.node? n = some (.label l)) (hk : m.node? k = some (.label l))
    : n = k :=
  Except.ok.inj (((MethodGraph.lookUp_placedLabels once).mpr hn).symm.trans
    ((MethodGraph.lookUp_placedLabels once).mpr hk))

end Method

namespace Laid

variable {p : Plan} {s s' : LiftState} {n : Nat}

theorem congr (laid : Laid p s) (code : s'.code = s.code) (labels : s'.labels = s.labels)
    (nextLabel : s'.nextLabel = s.nextLabel)
    : Laid p s' := by
  have codeOf : ∀ n, s'.codeOf n = s.codeOf n := fun n => by rw [codeOf, code]; rfl
  obtain ⟨size, known, injective, live, bound, apart, home, dead, numbered⟩ := laid
  constructor <;> simp only [code, labels, nextLabel, codeOf] <;> assumption

theorem codeOf_append (laid : Laid p s) (sound : p.Sound) (live : p.graph.graph.Reaches n)
    {insts : List Inst} (code : s'.code = s.code.modify n (· ++ insts)) (k : Nat)
    : s'.codeOf k = if k = n then s.codeOf k ++ insts else s.codeOf k := by
  have inside : n < s.code.size := laid.size ▸ live.lt_size sound.models.pruned.size
  rw [codeOf, codeOf_modify code]
  by_cases same : k = n
  · simp [same, inside]
  · simp [same, Ne.symm same]

/-- Adding code to a live node. A label that it places is new or stands for the label of the node.
-/
theorem append (laid : Laid p s) (sound : p.Sound) (live : p.graph.graph.Reaches n)
    {insts : List Inst} (labels : s'.labels = s.labels) (nextLabel : s.nextLabel ≤ s'.nextLabel)
    (code : s'.code = s.code.modify n (· ++ insts))
    (placed : ∀ c, .label c ∈ insts → (s.nextLabel ≤ c.index ∧ c.index < s'.nextLabel)
      ∨ ∃ l, s.labels.lookup l = some c ∧ p.method.node? n = some (.label l))
    : Laid p s' := by
  have codeOf := laid.codeOf_append sound live code
  -- A placed label was placed before or is placed now, at the node.
  have mem : ∀ {k c}, .label c ∈ s'.codeOf k →
      .label c ∈ s.codeOf k ∨ (k = n ∧ .label c ∈ insts) := by
    intro k c hc
    rw [codeOf] at hc
    split at hc
    next same => exact (List.mem_append.mp hc).imp id fun hi => ⟨same, hi⟩
    next => exact .inl hc
  constructor
  · simp [code, laid.size]
  · intro l c hc
    obtain ⟨hlt, hn⟩ := laid.known (labels ▸ hc)
    exact ⟨Nat.lt_of_lt_of_le hlt nextLabel, hn⟩
  · intro l l' c hc hc'
    exact laid.injective (labels ▸ hc) (labels ▸ hc')
  · intro k l hk hl
    rw [labels]
    exact laid.live hk hl
  · intro k c hc
    rcases mem hc with hc | ⟨-, hc⟩
    · exact Nat.lt_of_lt_of_le (laid.bound hc) nextLabel
    · rcases placed c hc with ⟨-, hlt⟩ | ⟨l, hl, -⟩
      · exact hlt
      · exact Nat.lt_of_lt_of_le (laid.known hl).1 nextLabel
  · -- Two places of one label.
    have old : ∀ {k c}, .label c ∈ s.codeOf k → .label c ∈ insts → k = n := by
      intro k c hk hc
      rcases placed c hc with ⟨hge, -⟩ | ⟨l, hl, hn⟩
      · exact absurd (laid.bound hk) (Nat.not_lt_of_le hge)
      · exact sound.once.unique (laid.home hk hl) hn
    intro k k' c hk hk'
    rcases mem hk with hk | ⟨rfl, hk⟩ <;> rcases mem hk' with hk' | ⟨rfl, hk'⟩
    · exact laid.apart hk hk'
    · exact old hk hk'
    · exact (old hk' hk).symm
    · rfl
  · intro k l c hk hl
    rw [labels] at hl
    rcases mem hk with hk | ⟨rfl, hk⟩
    · exact laid.home hk hl
    · rcases placed c hk with ⟨hge, -⟩ | ⟨l', hl', hn⟩
      · exact absurd (laid.known hl).1 (Nat.not_lt_of_le hge)
      · rwa [laid.injective hl hl']
  · intro k hk
    have other : k ≠ n := fun same => hk (same ▸ live)
    rw [codeOf, if_neg other, labels]
    exact laid.dead hk
  · rw [labels]
    exact laid.numbered

/-- The bound of a protected range that is dead and has no label yet gets a new one. -/
theorem placeDead (laid : Laid p s) (sound : p.Sound) (s' : LiftState) {l : Label}
    (hl : p.method.node? n = some (.label l)) (unknown : s.labels.lookup l = none)
    (labels : s'.labels = (l, ⟨s.nextLabel⟩) :: s.labels)
    (nextLabel : s'.nextLabel = s.nextLabel + 1)
    (code : s'.code = s.code.modify n (· ++ [.label ⟨s.nextLabel⟩]))
    : Laid p s' ∧ LabelsGrow s.labels s'.labels
      ∧ ∀ k, p.graph.graph.Reaches k → s'.codeOf k = s.codeOf k := by
  have dead : ¬ p.graph.graph.Reaches n := by
    intro live
    have := laid.live live hl
    rw [unknown] at this
    cases this
  have empty : s.codeOf n = [] := by
    rw [laid.dead dead, Method.labelAt?_eq_some.mpr hl, Option.bind_some, unknown]
    rfl
  have inside : n < s.code.size := by
    rw [laid.size, sound.models.size]
    exact Nat.lt_succ_of_le (Method.le_length_of_node? hl)
  have codeOf : ∀ k, s'.codeOf k = if k = n then [.label ⟨s.nextLabel⟩] else s.codeOf k := by
    intro k
    rw [codeOf, codeOf_modify code]
    by_cases same : k = n
    · simp [same, inside, empty]
    · simp [same, Ne.symm same]
  have lookup : ∀ l', s'.labels.lookup l'
      = if l' = l then some ⟨s.nextLabel⟩ else s.labels.lookup l' := by
    intro l'
    rw [labels, List.lookup_cons]
    by_cases same : l' = l
    · simp [same]
    · simp [same, beq_eq_false_iff_ne.mpr same]
  have isNew : ∀ {k c}, .label c ∈ s'.codeOf k →
      (k = n ∧ c.index = s.nextLabel) ∨ (k ≠ n ∧ .label c ∈ s.codeOf k) := by
    intro k c hc
    rw [codeOf] at hc
    split at hc
    next same => exact .inl ⟨same, by rw [Inst.label.inj (List.mem_singleton.mp hc)]⟩
    next other => exact .inr ⟨other, hc⟩
  have isKnown : ∀ {l' c}, s'.labels.lookup l' = some c →
      (l' = l ∧ c.index = s.nextLabel) ∨ (l' ≠ l ∧ s.labels.lookup l' = some c) := by
    intro l' c hc
    rw [lookup] at hc
    split at hc
    next same =>
      cases hc
      exact .inl ⟨same, rfl⟩
    next other => exact .inr ⟨other, hc⟩
  have grow : LabelsGrow s.labels s'.labels := by
    intro l' c hc
    have hne : l' ≠ l := by
      rintro rfl
      rw [unknown] at hc
      cases hc
    rw [lookup, if_neg hne]
    exact hc
  refine ⟨?_, grow, fun k hk => ?_⟩
  · constructor
    · simp [code, laid.size]
    · intro l' c hc
      rcases isKnown hc with ⟨rfl, hc⟩ | ⟨-, hc⟩
      · exact ⟨by omega, n, hl⟩
      · obtain ⟨hlt, hn⟩ := laid.known hc
        exact ⟨by omega, hn⟩
    · intro l₁ l₂ c h₁ h₂
      rcases isKnown h₁ with ⟨rfl, h₁⟩ | ⟨-, h₁⟩ <;> rcases isKnown h₂ with ⟨rfl, h₂⟩ | ⟨-, h₂⟩
      · rfl
      · have := (laid.known h₂).1
        omega
      · have := (laid.known h₁).1
        omega
      · exact laid.injective h₁ h₂
    · intro k l' hk hl'
      rw [lookup]
      split
      · rfl
      · exact laid.live hk hl'
    · intro k c hc
      rcases isNew hc with ⟨-, hc⟩ | ⟨-, hc⟩
      · omega
      · have := laid.bound hc
        omega
    · intro k k' c hc hc'
      rcases isNew hc with ⟨rfl, h₁⟩ | ⟨-, h₁⟩ <;> rcases isNew hc' with ⟨rfl, h₂⟩ | ⟨-, h₂⟩
      · rfl
      · have := laid.bound h₂
        omega
      · have := laid.bound h₁
        omega
      · exact laid.apart h₁ h₂
    · intro k l' c hc hl'
      rcases isNew hc with ⟨rfl, h₁⟩ | ⟨-, h₁⟩ <;> rcases isKnown hl' with ⟨rfl, h₂⟩ | ⟨-, h₂⟩
      · exact hl
      · have := (laid.known h₂).1
        omega
      · have := laid.bound h₁
        omega
      · exact laid.home h₁ h₂
    · intro k hk
      rw [codeOf]
      split
      next same => simp [same, Method.labelAt?_eq_some.mpr hl, lookup]
      next other =>
        rw [laid.dead hk]
        cases hlabel : p.method.labelAt? k with
        | none => rfl
        | some l' =>
            have hne : l' ≠ l := by
              rintro rfl
              exact other (sound.once.unique (Method.labelAt?_eq_some.mp hlabel) hl)
            simp [lookup, hne]
    · exact fun l' c hc => grow l' c (laid.numbered l' c hc)
  · have hne : k ≠ n := by
      rintro rfl
      exact dead hk
    rw [codeOf, if_neg hne]

end Laid

namespace LiftM

variable {p : Plan} {node : Nat} {s s' : LiftState}

-- Handlers

/-- The step may give labels to dead nodes, but leaves the code of live ones as it is. -/
structure Relabels (p : Plan) (s s' : LiftState) : Prop where
  laid : Laid p s'
  frames : s'.frames = s.frames
  grow : LabelsGrow s.labels s'.labels
  code : ∀ k, p.graph.graph.Reaches k → s'.codeOf k = s.codeOf k

theorem Relabels.refl (laid : Laid p s)
    : Relabels p s s :=
  ⟨laid, rfl, fun _ _ => id, fun _ _ => rfl⟩

theorem Relabels.trans {s₁ s₂ s₃ : LiftState} (h : Relabels p s₁ s₂) (h' : Relabels p s₂ s₃)
    : Relabels p s₁ s₃ where
  laid := h'.laid
  frames := h'.frames.trans h.frames
  grow l c hc := h'.grow l c (h.grow l c hc)
  code k hk := (h'.code k hk).trans (h.code k hk)

theorem leads_rangeLabel (sound : p.Sound) (laid : Laid p s) (label : Label)
    : (rangeLabel p label).Leads s fun c s' =>
        Relabels p s s' ∧ s'.labels.lookup label = some c := by
  refine .get_bind ?_
  split
  next c hc => exact .pure ⟨.refl laid, hc⟩
  next unknown =>
    refine .lift_bind (.lookUp p.places label) fun n hn => .of_run rfl ?_
    rw [sound.places, MethodGraph.lookUp_placedLabels sound.once] at hn
    obtain ⟨laid', grow, code⟩ := laid.placeDead sound { s with
      nextLabel := s.nextLabel + 1
      code := s.code.modify n (· ++ [.label ⟨s.nextLabel⟩])
      labels := (label, ⟨s.nextLabel⟩) :: s.labels } hn unknown rfl rfl rfl
    exact ⟨⟨laid', rfl, grow, code⟩, by simp⟩

theorem leads_entries (sound : p.Sound) (laid : Laid p s) (ranges : List ProtectedRange)
    : (ranges.mapM fun (r : ProtectedRange) => do
        let start ← rangeLabel p r.start
        let stop ← rangeLabel p r.stop
        return ({ accepted := acceptedType r, start, stop } : CatchEntry)).Leads s
        fun entries s' => Relabels p s s' ∧ List.Forall₂ (Bounds s'.labels) ranges entries := by
  induction ranges generalizing s with
  | nil => exact .pure ⟨.refl laid, .nil⟩
  | cons r rest ih =>
      rw [List.mapM_cons]
      refine .bind (.bind ((leads_rangeLabel sound laid r.start).mono ?_))
      intro start s₁ ⟨h₁, hstart⟩
      refine .bind ((leads_rangeLabel sound h₁.laid r.stop).mono ?_)
      intro stop s₂ ⟨h₂, hstop⟩
      refine .pure (.bind ((ih h₂.laid).mono ?_))
      intro entries s₃ ⟨h₃, hentries⟩
      refine .pure ⟨(h₁.trans h₂).trans h₃, .cons ⟨?_, h₃.grow _ _ hstop⟩ hentries⟩
      exact h₃.grow _ _ (h₂.grow _ _ hstart)

theorem handledRanges_eq (sound : p.Sound) (node : Nat)
    : handledRanges p node = p.method.handledAt node :=
  sound.models.handled node

-- Joins

theorem straight_mergePlace (place : Place) (type : TypeName) (agreed : Option Value)
    : Straight node (mergePlace node place type agreed) s := by
  unfold mergePlace
  split
  · exact .pure _
  · exact (straight_freshRegister type).bind fun r _ =>
      Straight.bind (.quiet rfl rfl rfl rfl rfl) fun _ _ => .pure _

theorem straight_mergeStackEntry (frames : List Frame) (allKnown : Bool) (index : Nat)
    : Straight node (mergeStackEntry node frames allKnown index) s := by
  unfold mergeStackEntry
  dsimp only
  split
  · exact .throw rfl
  · exact straight_mergePlace ..

theorem straight_mergeSlot (frames : List Frame) (allKnown : Bool) (slot : Nat)
    : Straight node (mergeSlot p node frames allKnown slot) s := by
  unfold mergeSlot
  dsimp only
  split
  · exact .pure none
  · split
    · exact .pure none
    · generalize (if allKnown = true then _ else none : Option Value) = agreed
      split
      · exact .throw rfl
      · rw [← bind_pure_comp]
        exact (straight_mergePlace ..).bind fun _ _ => .pure _

/-- A predecessor of the node was simulated. -/
def HasFrame (p : Plan) (s : LiftState) (node : Nat) : Prop :=
  ∃ u ∈ p.graph.graph.predecessors node, (s.frameOf? u).isSome = true

theorem straight_mergeFrames (isHandler : Bool) (h : HasFrame p s node)
    : Straight node (mergeFrames p node (p.graph.graph.predecessors node) isHandler) s := by
  obtain ⟨u, hu, hf⟩ := h
  obtain ⟨f, hf⟩ := Option.isSome_iff_exists.mp hf
  have hmem : f ∈ (p.graph.graph.predecessors node).filterMap s.frameOf? :=
    List.mem_filterMap.mpr ⟨u, hu, hf⟩
  refine .get_bind ?_
  dsimp only
  rw [if_neg (by simpa using List.ne_nil_of_mem hmem)]
  refine (Straight.mapM fun _ _ _ => straight_mergeStackEntry ..).bind fun _ _ => ?_
  exact (Straight.mapM fun _ _ _ => straight_mergeSlot ..).bind fun _ _ => .pure _

theorem straight_joinedFrame (isHandler : Bool) (h : HasFrame p s node)
    : Straight node (joinedFrame p node isHandler) s := by
  refine .get_bind ?_
  split
  · split
    · exact .pure _
    · exact straight_mergeFrames isHandler h
  · exact straight_mergeFrames isHandler h

-- Visits

/-- The code of a live node is written, and that of other live nodes is kept. -/
structure Visited (p : Plan) (node : Nat) (P : List (Label × CodeLabel) → List Control → Prop)
    (s s' : LiftState) : Prop where
  laid : Laid p s'
  frames : s'.frames = s.frames
  grow : LabelsGrow s.labels s'.labels
  others : ∀ k, p.graph.graph.Reaches k → k ≠ node → s'.codeOf k = s.codeOf k
  code : P s'.labels ((s'.codeOf node).map Inst.control)

variable {lead : List Control}

theorem WritesBlock.visited (h : WritesBlock p.method node s s') (sound : p.Sound)
    (laid : Laid p s) (live : p.graph.graph.Reaches node) (empty : s.codeOf node = [])
    : Visited p node (fun labels => NodeBlock p.method labels node) s s' := by
  obtain ⟨insts, hw, hblock⟩ := h
  have codeOf := laid.codeOf_append sound live hw.code
  exact {
    laid := laid.append sound live hw.labels hw.nextLabel hw.code fun c hc => .inl (hw.fresh c hc)
    frames := hw.frames
    grow := fun l c hc => hw.labels ▸ hc
    others := fun k _ other => by rw [codeOf, if_neg other]
    code := by
      rw [codeOf, if_pos rfl, empty, List.nil_append, hw.labels]
      exact hblock }

/-- Straight code after the lead of a node that is no branch completes its code. -/
theorem Visited.straight {α : Type} {x : LiftM α} (sound : p.Sound)
    (live : p.graph.graph.Reaches node) (hb : ∀ b, p.method.node? node ≠ some (.branch b))
    {s₁ : LiftState}
    (h : Visited p node (fun labels => Lead labels (p.method.handledAt node) (p.method.node? node))
      s s₁)
    (hx : Straight node x s₁)
    : x.Leads s₁ fun _ s' =>
        Visited p node (fun labels => NodeBlock p.method labels node) s s' := by
  refine hx.mono fun _ s' ⟨insts, hi, he⟩ => ?_
  have codeOf := h.laid.codeOf_append sound live he.code
  have hw := he.writes fun i hm => by rw [hi i hm]; rfl
  exact {
    laid := h.laid.append sound live hw.labels hw.nextLabel hw.code fun c hc => .inl (hw.fresh c hc)
    frames := he.frames.trans h.frames
    grow := fun l c hc => he.labels ▸ h.grow l c hc
    others := fun k hk other => by rw [codeOf, if_neg other, h.others k hk other]
    code := by
      rw [codeOf, if_pos rfl, he.labels]
      refine ⟨_, insts.length, [], h.code, .falls hb, ?_⟩
      rw [List.map_append, List.append_nil]
      congr 1
      refine List.eq_replicate_iff.mpr ⟨by simp, fun c hc => ?_⟩
      obtain ⟨i, hm, rfl⟩ := List.mem_map.mp hc
      exact hi i hm }

/-- The start of a handler names the bounds of its ranges. -/
theorem leads_startHandler (sound : p.Sound) (laid : Laid p s)
    (live : p.graph.graph.Reaches node) (handler : CodeLabel) (ranges : List ProtectedRange)
    : (startHandler p node handler ranges).Leads s fun _ s' =>
        Visited p node (fun labels code => ∃ entries,
          code = (s.codeOf node).map Inst.control ++ [.catches handler entries]
            ∧ List.Forall₂ (Bounds labels) ranges entries) s s' := by
  refine .bind (.of_run rfl ?_)
  have laid₁ : Laid p { s with registers := (s.registers.fresh (caughtType ranges)).2 } :=
    laid.congr rfl rfl rfl
  refine .bind ((leads_entries sound laid₁ ranges).mono ?_)
  intro entries s₂ ⟨h₂, hentries⟩
  refine .of_run rfl ?_
  set start : Inst := .catches (.register _) handler entries
  set s₃ : LiftState := { s₂ with code := s₂.code.modify node (· ++ [start]) }
  have codeOf : ∀ k, s₃.codeOf k = if k = node then s₂.codeOf k ++ [start] else s₂.codeOf k :=
    h₂.laid.codeOf_append sound live rfl
  exact {
    laid := h₂.laid.append sound live rfl (Nat.le_refl _) rfl (by simp)
    frames := h₂.frames
    grow := h₂.grow
    others := fun k hk other => by
      rw [codeOf, if_neg other, h₂.code k hk]
      rfl
    code := ⟨entries, by
      rw [codeOf, if_pos rfl, h₂.code node live, List.map_append]
      rfl, hentries⟩ }

theorem leads_simulateLabel (sound : p.Sound) (laid : Laid p s)
    (live : p.graph.graph.Reaches node) {l : Label}
    (hn : p.method.node? node = some (.label l)) (empty : s.codeOf node = [])
    (hf : HasFrame p s node)
    : (simulateLabel p node l).Leads s fun _ s' =>
        Visited p node (fun labels => NodeBlock p.method labels node) s s' := by
  have hb : ∀ b, p.method.node? node ≠ some (.branch b) := by simp [hn]
  refine leads_labelOf_bind fun c hc => .bind (.of_run rfl ?_)
  set s₁ : LiftState := { s with code := s.code.modify node (· ++ [.label c]) }
  have laid₁ : Laid p s₁ :=
    laid.append sound live rfl (Nat.le_refl _) rfl fun c' hc' => .inr ⟨l, by
      rwa [Inst.label.inj (List.mem_singleton.mp hc')], hn⟩
  have codeOf₁ : ∀ k, s₁.codeOf k = if k = node then s.codeOf k ++ [.label c] else s.codeOf k :=
    laid.codeOf_append sound live rfl
  have others₁ : ∀ k, p.graph.graph.Reaches k → k ≠ node → s₁.codeOf k = s.codeOf k :=
    fun k _ other => by rw [codeOf₁, if_neg other]
  have code₁ : s₁.codeOf node = [.label c] := by
    rw [codeOf₁, if_pos rfl, empty]
    rfl
  rw [handledRanges_eq sound]
  split
  next hnone =>
    refine Visited.straight sound live hb ⟨laid₁, rfl, fun _ _ => id, others₁, ?_⟩
      (straight_joinedFrame false hf)
    rw [code₁, hn]
    exact .label hc hnone
  next hsome =>
    refine .bind ((leads_startHandler sound laid₁ live c _).mono ?_)
    intro register s₂ h₂
    have hf₂ : HasFrame p s₂ node := by
      obtain ⟨u, hu, hf⟩ := hf
      exact ⟨u, hu, by rwa [frameOf?, h₂.frames]⟩
    have h : Visited p node
        (fun labels => Lead labels (p.method.handledAt node) (p.method.node? node)) s s₂ :=
      { h₂ with
        others := fun k hk other => (h₂.others k hk other).trans (others₁ k hk other)
        code := by
          obtain ⟨entries, hcode, hentries⟩ := h₂.code
          rw [hcode, code₁, hn]
          exact .handler (h₂.grow _ _ hc) hsome hentries }
    exact (h.straight sound live hb (straight_joinedFrame true hf₂)).returning

/-- Simulating a live node for the first time. -/
theorem leads_frameAfter (sound : p.Sound) (laid : Laid p s)
    (live : p.graph.graph.Reaches node) (empty : s.codeOf node = [])
    (hf : node = NodeGraph.entry ∨ HasFrame p s node)
    : (frameAfter p node).Leads s fun _ s' =>
        Visited p node (fun labels => NodeBlock p.method labels node) s s' := by
  unfold frameAfter
  rw [p.node?_eq]
  split
  next hn =>
    refine .pure (WritesBlock.visited ⟨[], ?_, [], 0, [], ?_, ?_, rfl⟩ sound laid live empty)
    · exact ⟨rfl, rfl, Nat.le_refl _, by simp, (modify_append_nil ..).symm⟩
    · exact hn ▸ .entry
    · exact hn ▸ .falls (by simp)
  next l hn =>
    refine leads_simulateLabel sound laid live hn empty (hf.resolve_left ?_)
    rintro rfl
    cases hn
  next content hlabel hn =>
    have hne : node ≠ NodeGraph.entry := by
      rintro rfl
      cases hn
    have hl : content.label? = none := by
      cases content with
      | label l => exact (hlabel l rfl).elim
      | _ => rfl
    obtain ⟨u, hu, hframe⟩ := hf.resolve_left hne
    obtain ⟨f, hframe⟩ := Option.isSome_iff_exists.mp hframe
    have hpred := sound.models.predecessors_eq live hn hl
    obtain rfl : u = node - 1 := by simpa [hpred] using hu
    refine .bind (.lift_bind ?_ fun u' hu' => .get_bind ?_)
    · simpa [NodeGraph.singlePredecessor, hpred] using Orderly.ok (node - 1)
    · obtain rfl : node - 1 = u' := by simpa [NodeGraph.singlePredecessor, hpred] using hu'
      rw [hframe]
      refine .pure ((leads_simulate sound hn hl fun l hfalls hl' => ?_).mono
        fun _ s' h => h.visited sound laid live empty)
      refine laid.live (live.step ?_) hl'
      exact sound.models.flow live (.falls hn hfalls (Method.le_length_of_node? hl'))

-- Simulation

/-- The state after the simulation of some nodes. -/
structure Simulated (p : Plan) (done : List Nat) (s : LiftState) : Prop where
  laid : Laid p s
  live : ∀ n ∈ done, p.graph.graph.Reaches n
  blocks : ∀ n ∈ done, NodeBlock p.method s.labels n ((s.codeOf n).map Inst.control)
  empty : ∀ n, p.graph.graph.Reaches n → n ∉ done → s.codeOf n = []
  frames : ∀ n, (s.frameOf? n).isSome = true ↔ n ∈ done
  framesSize : s.frames.size = p.graph.graph.size

theorem Simulated.visit (sound : p.Sound) {done : List Nat} (h : Simulated p done s)
    (live : p.graph.graph.Reaches node) (new : node ∉ done)
    (entered : p.graph.graph.EnteredFrom done node)
    : (visit p node).Leads s fun _ s' => Simulated p (done ++ [node]) s' := by
  rw [visit_eq]
  have hf : node = NodeGraph.entry ∨ HasFrame p s node :=
    entered.imp id fun ⟨u, hu, hd⟩ => ⟨u, hu, (h.frames u).mpr hd⟩
  refine .bind ((leads_frameAfter sound h.laid live (h.empty node live new) hf).mono ?_)
  intro f s₁ h₁
  refine .of_run rfl ?_
  have inside : node < s₁.frames.size := by
    rw [h₁.frames, h.framesSize]
    exact live.lt_size sound.models.pruned.size
  exact {
    laid := h₁.laid.congr rfl rfl rfl
    live := fun n hn => by
      rcases List.mem_append.mp hn with hn | hn
      · exact h.live n hn
      · exact List.mem_singleton.mp hn ▸ live
    blocks := fun n hn => by
      rcases List.mem_append.mp hn with hn | hn
      · have other : n ≠ node := fun same => new (same ▸ hn)
        have hcode : s₁.codeOf n = s.codeOf n := h₁.others n (h.live n hn) other
        exact hcode ▸ (h.blocks n hn).grow h₁.grow
      · exact List.mem_singleton.mp hn ▸ h₁.code
    empty := fun n hn hnew => by
      have other : n ≠ node := fun same => hnew (by simp [same])
      exact (h₁.others n hn other).trans (h.empty n hn fun hd => hnew (by simp [hd]))
    frames := fun n => by
      have hframe : ({ s₁ with frames := s₁.frames.set! node (some f) } : LiftState).frameOf? n
          = if n = node then some f else s.frameOf? n := by
        simp only [frameOf?, Array.set!_eq_setIfInBounds,
          Array.getD_eq_getD_getElem?, Array.getElem?_setIfInBounds, h₁.frames]
        rw [h₁.frames] at inside
        by_cases same : n = node
        · simp [same, inside]
        · simp [same, Ne.symm same]
      rw [hframe]
      by_cases same : n = node
      · simp [same]
      · simp [same, h.frames n]
    framesSize := by simp [h₁.frames, h.framesSize] }

theorem simulated_initial (sound : p.Sound)
    : Simulated p [] (.initial p) := by
  have codeOf : ∀ n, (initial p).codeOf n = [] := by
    intro n
    simp only [codeOf, initial, Array.getD_eq_getD_getElem?,
      Array.getElem?_replicate]
    split <;> rfl
  have listed : ∀ {l n}, (l, n) ∈ p.graph.labels
      ↔ p.graph.graph.Reaches n ∧ p.method.node? n = some (.label l) := by
    intro l n
    rw [sound.models.labels, List.mem_filter, MethodGraph.mem_placedLabels_iff, and_comm]
    refine and_congr_left fun hn => ?_
    have inside : n < p.graph.graph.size := by
      rw [sound.models.size]
      exact Nat.lt_succ_of_le (Method.le_length_of_node? hn)
    rw [Bool.not_eq_true', ← Bool.not_eq_true, sound.models.pruned.dead]
    simp [inside]
  have lookup : ∀ {l c}, (initial p).labels.lookup l = some c →
      ∃ n, p.graph.labels[c.index]? = some (l, n) := by
    intro l c hc
    obtain ⟨⟨place, index⟩, hplace, heq⟩ :=
      List.mem_map.mp (List.mem_reverse.mp (mem_of_lookup hc))
    cases heq
    exact ⟨place.2, List.mem_zipIdx_iff_getElem?.mp hplace⟩
  have place : ∀ {l c}, (initial p).labels.lookup l = some c →
      ∃ n, p.graph.graph.Reaches n ∧ p.method.node? n = some (.label l) := by
    intro l c hc
    obtain ⟨n, hn⟩ := lookup hc
    exact ⟨n, listed.mp (List.mem_of_getElem? hn)⟩
  refine ⟨?_, by simp, by simp, fun n _ _ => codeOf n, fun n => ?_, by simp [initial]⟩
  · constructor
    · simp [initial]
    · intro l c hc
      obtain ⟨n, hn⟩ := lookup hc
      obtain ⟨k, -, hk⟩ := place hc
      exact ⟨(List.getElem?_eq_some_iff.mp hn).1, k, hk⟩
    · intro l l' c hc hc'
      obtain ⟨n, hn⟩ := lookup hc
      obtain ⟨n', hn'⟩ := lookup hc'
      rw [hn] at hn'
      exact (Prod.mk.inj (Option.some.inj hn')).1
    · intro n l hn hl
      rw [List.lookup_isSome_iff]
      obtain ⟨i, hi⟩ := List.mem_iff_getElem?.mp (listed.mpr ⟨hn, hl⟩)
      have hmem : (l, (⟨i⟩ : CodeLabel)) ∈ (initial p).labels :=
        List.mem_reverse.mpr
          (List.mem_map.mpr ⟨((l, n), i), List.mem_zipIdx_iff_getElem?.mpr hi, rfl⟩)
      exact ⟨_, hmem, by simp⟩
    · intro n c hc
      simp [codeOf] at hc
    · intro n k c hc
      simp [codeOf] at hc
    · intro n l c hc
      simp [codeOf] at hc
    · intro n hn
      rw [codeOf]
      cases hl : p.method.labelAt? n with
      | none => rfl
      | some l =>
          cases hc : (initial p).labels.lookup l with
          | none => simp [hc]
          | some c =>
              obtain ⟨k, hk, hkl⟩ := place hc
              rw [sound.once.unique (Method.labelAt?_eq_some.mp hl) hkl] at hn
              exact absurd hk hn
    · exact fun _ _ => id
  · simp only [frameOf?, initial, Array.getD_eq_getD_getElem?,
      Array.getElem?_replicate]
    split <;> simp

theorem leads_simulation (sound : p.Sound)
    : (p.graph.graph.order.forM (visit p)).Leads (.initial p) fun _ s =>
        Simulated p p.graph.graph.order s := by
  refine Leads.forM (I := Simulated p) ?_ (simulated_initial sound)
  intro before node after s horder h
  have hnodup := p.graph.graph.nodup_order
  rw [horder] at hnodup
  refine h.visit sound (NodeGraph.reaches_of_mem_order (by simp [horder])) ?_
    (NodeGraph.enteredFrom_of_order horder)
  exact fun hm => (List.nodup_append.mp hnodup).2.2 _ hm _ (by simp) rfl

end LiftM

end StackLift
