import StackLift.Proofs.JoinedFrames

/-!
What the simulation of all nodes leaves behind: the code of each node, the frame after it, and the
registers that were made for it, which are apart from those of the other nodes.
-/

namespace StackLift

open StackMachine Function

variable {p : Plan} {node slot next next' : Nat} {s s' : LiftState} {f f' : Frame} {v w : Value}
  {insts : List Inst}

-- Values of frames

/-- A slot or an entry of the stack holds the value. -/
def Frame.Has (f : Frame) (v : Value) : Prop :=
  some v ∈ f.locals ∨ v ∈ f.stack

namespace Frame

theorem has_of_place {place : Place} (h : place.value? f = some v)
    : f.Has v := by
  cases place with
  | slot index => exact .inl (List.mem_of_getElem? (local?_eq_some_iff.mp h))
  | stack index => exact .inr (List.mem_reverse.mp (List.mem_of_getElem? h))

theorem Has.exists_place (h : f.Has v)
    : ∃ place : Place, place.value? f = some v := by
  rcases h with h | h
  · obtain ⟨slot, hslot⟩ := List.mem_iff_getElem?.mp h
    exact ⟨.slot slot, local?_eq_some_iff.mpr hslot⟩
  · obtain ⟨index, hindex⟩ := List.mem_iff_getElem?.mp (List.mem_reverse.mpr h)
    exact ⟨.stack index, hindex⟩

theorem Has.of_push (h : (f.push w).Has v)
    : v = w ∨ f.Has v := by
  rcases h with h | h
  · exact .inr (.inl h)
  · exact (List.mem_cons.mp h).imp id .inr

theorem Has.of_putLocal (h : (f.putLocal slot w).Has v)
    : v = w ∨ f.Has v := by
  rcases h with h | h
  · rcases List.mem_or_eq_of_mem_set h with h | h
    · rcases List.mem_append.mp h with h | h
      · exact .inr (.inl h)
      · cases List.eq_of_mem_replicate h
    · exact .inl (Option.some.inj h)
  · exact .inr (.inr h)

theorem Has.of_stack {stack : List Value} (h : ({ f with stack } : Frame).Has v)
    (hstack : stack ⊆ f.stack)
    : f.Has v :=
  h.imp id fun h => hstack h

end Frame

/-- A value of the frame before, a constant, or a register that is made. -/
inductive Gains (f : Frame) (next next' : Nat) : Value → Prop
  | old {v : Value} : f.Has v → Gains f next next' v
  | constant {c : Constant} : Gains f next next' (.constant c)
  | made {r : Register} : next ≤ r.index → r.index < next' → Gains f next next' (.register r)

/-- The code assigns registers of the frame before it and registers that are made. -/
def AssignsWithin (f : Frame) (next next' : Nat) (insts : List Inst) : Prop :=
  ∀ i ∈ insts, ∀ x, i.assigned? = some x →
    (∃ r, f.Has (.register r) ∧ r.key = x) ∨ next ≤ x.1 ∧ x.1 < next'

theorem Stores.gains (h : Stores p node slot f w next next' insts f') (hv : f'.Has v)
    : v = w ∨ Gains f next next' v := by
  cases h with
  | keep => exact hv.of_putLocal.imp id .old
  | make hle hlt =>
      rcases hv.of_putLocal with rfl | hv
      · exact .inr (.made hle hlt)
      · exact .inr (.old hv)
  | reuse => exact .inr (.old hv)

theorem Stores.assigns (h : Stores p node slot f w next next' insts f')
    : AssignsWithin f next next' insts := by
  intro i hi x hx
  cases h with
  | keep => cases hi
  | make hle hlt =>
      rw [List.mem_singleton.mp hi] at hx
      cases hx
      exact .inr ⟨hle, hlt⟩
  | @reuse r hslot =>
      rw [List.mem_singleton.mp hi] at hx
      cases hx
      exact .inl ⟨r, @Frame.has_of_place _ _ (.slot slot) hslot, rfl⟩

theorem Gains.mono {middle : Nat} (h : Gains f middle next' v) (hle : next ≤ middle)
    : Gains f next next' v := by
  cases h with
  | old hv => exact .old hv
  | constant => exact .constant
  | made hmiddle hlt => exact .made (Nat.le_trans hle hmiddle) hlt

theorem Performs.gains {operation : Operation}
    (h : Performs p node f next next' operation insts f') (hv : f'.Has v)
    : Gains f next next' v := by
  cases h with
  | nothing => exact .old hv
  | push =>
      rcases hv.of_push with rfl | hv
      · exact .constant
      · exact .old hv
  | pushMade _ hle hlt =>
      rcases hv.of_push with rfl | hv
      · exact .made hle hlt
      · exact .old hv
  | @load kind slot w hslot =>
      rcases hv.of_push with rfl | hv
      · exact .old (@Frame.has_of_place _ _ (.slot slot) hslot)
      · exact .old hv
  | @store kind slot w rest insts f' hstack hstores =>
      have hold : ∀ {u}, ({ f with stack := rest } : Frame).Has u → f.Has u :=
        fun hu => hu.of_stack (by simp [hstack])
      rcases hstores.gains hv with rfl | hv
      · exact .old (.inr (by simp [hstack]))
      · cases hv with
        | old hv => exact .old (hold hv)
        | constant => exact .constant
        | made hle hlt => exact .made hle hlt
  | shuffle hstack => exact .old (hv.of_stack (Shuffle.apply_subset hstack))
  | @compute operation taken rest e r hcomputes hstack hle hlt =>
      rcases hv with hv | hv
      · exact .old (.inl hv)
      · rcases List.mem_cons.mp hv with rfl | hv
        · exact .made hle hlt
        · exact .old (.inr (by simp [hstack, hv]))
  | increment hslot hle hlt hmiddle htype hstores =>
      rcases hstores.gains hv with rfl | hv
      · exact .made hle (Nat.lt_of_lt_of_le hlt hmiddle)
      · exact hv.mono (Nat.le_trans hle (Nat.le_of_lt hlt))

theorem Performs.assigns {operation : Operation}
    (h : Performs p node f next next' operation insts f')
    : AssignsWithin f next next' insts := by
  intro i hi x hx
  cases h with
  | nothing | push | load | shuffle => cases hi
  | pushMade _ hle hlt =>
      rw [List.mem_singleton.mp hi] at hx
      cases hx
      exact .inr ⟨hle, hlt⟩
  | @store kind slot w rest insts f' hstack hstores =>
      refine (hstores.assigns i hi x hx).imp (fun ⟨r, hr, hk⟩ => ⟨r, ?_, hk⟩) id
      exact hr.of_stack (by simp [hstack])
  | compute _ _ hle hlt =>
      rw [List.mem_singleton.mp hi] at hx
      cases hx
      exact .inr ⟨hle, hlt⟩
  | increment hslot hle hlt hmiddle htype hstores =>
      rcases List.mem_cons.mp hi with rfl | hi
      · cases hx
        exact .inr ⟨hle, Nat.lt_of_lt_of_le hlt hmiddle⟩
      · refine (hstores.assigns i hi x hx).imp id fun ⟨hle', hlt'⟩ => ?_
        exact ⟨Nat.le_trans hle (Nat.le_trans (Nat.le_of_lt hlt) hle'), hlt'⟩

variable {labels : List (Label × CodeLabel)} {after : Option Node} {b : Branch}

theorem Leaves.has (h : Leaves labels after f b insts f') (hv : f'.Has v)
    : f.Has v := by
  cases h with
  | returnVoid | goto => exact hv
  | returnValue hstack => exact hv.of_stack (by simp [hstack])
  | compare _ hstack => exact hv.of_stack (by simp [hstack])
  | switch _ hstack => exact hv.of_stack (by simp [hstack])

theorem Leaves.assigned? (h : Leaves labels after f b insts f')
    : ∀ i ∈ insts, i.assigned? = none := by
  cases h with
  | compare _ _ _ hgoes => cases hgoes <;> simp [Inst.assigned?]
  | _ => simp [Inst.assigned?]

-- Nodes

/-- Can the stack machine execute the node, and does its code tell what it pushes? -/
def StackMachine.executes : Node → Bool
  | .label _ | .line .. => true
  | .frame _ => false
  | .plain i => (operation? i).isSome && i.pushesDistinct
  | .branch b => b ≠ .throw

/-- The frame after the only predecessor of a node. -/
def FrameBefore (p : Plan) (s : LiftState) (n : Nat) (f : Frame) : Prop :=
  ∃ u, p.graph.graph.predecessors n = [u] ∧ p.graph.graph.Precedes u n ∧ s.frameOf? u = some f

/-- The frames before a label that are known when it is simulated. -/
structure KnownFrames (p : Plan) (s : LiftState) (n : Nat) (frames : List Frame) (allKnown : Bool) :
    Prop where
  known : ∀ u ∈ p.graph.graph.predecessors n, p.graph.graph.Precedes u n →
    ∃ g ∈ frames, s.frameOf? u = some g
  only : ∀ g ∈ frames, ∃ u ∈ p.graph.graph.predecessors n, p.graph.graph.Precedes u n
    ∧ s.frameOf? u = some g
  all : allKnown = true → ∀ u ∈ p.graph.graph.predecessors n, p.graph.graph.Precedes u n

/-- The code of a node and the frame after it. The registers that are made for it have indices from
the first number to before the second.
-/
inductive Simulates (p : Plan) (s : LiftState) (n next next' : Nat) : List Inst → Frame → Prop
  | entry : p.node? n = none → Simulates p s n next next' [] p.entryFrame
  | label {l : Label} {c : CodeLabel} {frames : List Frame} {allKnown : Bool} {f : Frame} :
    p.node? n = some (.label l) → s.labels.lookup l = some c →
    KnownFrames p s n frames allKnown → JoinedFrame p n frames allKnown s f →
    Simulates p s n next next' [.label c] f
  | line {number : Nat} {l : Label} {c : CodeLabel} {f : Frame} :
    p.node? n = some (.line number l) → FrameBefore p s n f →
    Simulates p s n next next' [.line number c] f
  | plain {i : Instruction} {operation : Operation} {f f' : Frame} {insts : List Inst} :
    p.node? n = some (.plain i) → operation? i = some operation → FrameBefore p s n f →
    Performs p n f next next' operation insts f' → Simulates p s n next next' insts f'
  | branch {b : Branch} {f f' : Frame} {insts : List Inst} : p.node? n = some (.branch b) →
    b ≠ .throw → FrameBefore p s n f → Leaves s.labels (p.node? (n + 1)) f b insts f' →
    Simulates p s n next next' insts f'

theorem FrameBefore.mono {n : Nat} (h : FrameBefore p s n f) (grow : FramesGrow s s')
    : FrameBefore p s' n f := by
  obtain ⟨u, hu, hbefore, hf⟩ := h
  exact ⟨u, hu, hbefore, grow u f hf⟩

theorem KnownFrames.mono {n : Nat} {frames : List Frame} {allKnown : Bool}
    (h : KnownFrames p s n frames allKnown) (grow : FramesGrow s s')
    : KnownFrames p s' n frames allKnown where
  known u hu hbefore := by
    obtain ⟨g, hg, hu⟩ := h.known u hu hbefore
    exact ⟨g, hg, grow u g hu⟩
  only g hg := by
    obtain ⟨u, hu, hbefore, hf⟩ := h.only g hg
    exact ⟨u, hu, hbefore, grow u g hf⟩
  all := h.all

theorem Simulates.mono {n : Nat} (h : Simulates p s n next next' insts f) (grow : FramesGrow s s')
    (labels : s'.labels = s.labels) (merges : s.merges ⊆ s'.merges)
    : Simulates p s' n next next' insts f := by
  cases h with
  | entry hn => exact .entry hn
  | label hn hc hknown hjoined =>
      exact .label hn (labels ▸ hc) (hknown.mono grow) (hjoined.mono merges)
  | line hn hf => exact .line hn (hf.mono grow)
  | plain hn hi hf hperforms => exact .plain hn hi (hf.mono grow) hperforms
  | branch hn hb hf hleaves => exact .branch hn hb (hf.mono grow) (labels ▸ hleaves)

/-- A node was simulated from the first state, and the second has its code and merges. -/
structure Extends (node : Nat) (insts : List Inst) (s s' : LiftState) : Prop
    extends GrowsMerges node s s' where
  code : s'.code = s.code.modify node (· ++ insts)

theorem AddsCode.extends (h : AddsCode node insts s s')
    : Extends node insts s s' where
  code := h.code
  frames := h.frames
  labels := h.labels
  next := h.next
  merges := h.merges ▸ List.Subset.refl _
  new m hm := .inl (h.merges ▸ hm)
  numbered hs := by
    refine ⟨h.merges ▸ hs.ascending, fun m hm => ?_⟩
    exact Nat.lt_of_lt_of_le (hs.made m (h.merges ▸ hm)) h.next

theorem Extends.addMerges {s₁ : LiftState} (h : Extends node insts s s₁)
    (h' : AddsMerges node s₁ s')
    : Extends node insts s s' where
  toGrowsMerges := h.toGrowsMerges.trans h'.toGrowsMerges
  code := h'.code.trans h.code

namespace LiftM

variable {done rest : List Nat}

/-- The frames that are known in a state are those of the nodes simulated so far. -/
theorem knownFrames_of_done (h : Prepared p done s)
    (horder : p.graph.graph.order = done ++ node :: rest)
    : KnownFrames p s node ((p.graph.graph.predecessors node).filterMap s.frameOf?)
        (((p.graph.graph.predecessors node).filterMap s.frameOf?).length
          = (p.graph.graph.predecessors node).length) where
  known u hu hbefore := by
    obtain ⟨g, hg⟩ := Option.ne_none_iff_exists'.mp
      ((h.frames u).mpr ((NodeGraph.precedes_iff horder).mp hbefore))
    exact ⟨g, List.mem_filterMap.mpr ⟨u, hu, hg⟩, hg⟩
  only g hg := by
    obtain ⟨u, hu, hg⟩ := List.mem_filterMap.mp hg
    exact ⟨u, hu, (NodeGraph.precedes_iff horder).mpr ((h.frames u).mp (by simp [hg])), hg⟩
  all hall u hu := by
    have hsome := List.filterMap_length_eq_length.mp (of_decide_eq_true hall) u hu
    refine (NodeGraph.precedes_iff horder).mpr ((h.frames u).mp fun hnone => ?_)
    rw [hnone] at hsome
    cases hsome

/-- The code of a node and the frame after it, before the frame is kept. -/
theorem run_frameAfter (h : Prepared p done s)
    (hranges : p.method.ranges = []) (hdeclared : p.declared = [])
    (horder : p.graph.graph.order = done ++ node :: rest)
    (hnode : ∀ content, p.node? node = some content → executes content = true)
    (hx : (frameAfter p node).run s = .ok (f, s'))
    : ∃ insts, Extends node insts s s' ∧ ((∀ l, p.node? node ≠ some (.label l)) →
        s'.merges = s.merges) ∧ ∀ s₂ : LiftState, FramesGrow s s₂ → s₂.labels = s.labels →
        s₂.merges = s'.merges →
        Simulates p s₂ node s.registers.next s'.registers.next insts f := by
  unfold frameAfter at hx
  split at hx
  next hnone =>
    cases hx
    exact ⟨[], (AddsCode.refl node s).extends, fun _ => rfl, fun _ _ _ _ => .entry hnone⟩
  next l hl =>
    obtain ⟨c, s₁, hc, hcode, hmerges, hjoined⟩ :=
      run_simulateLabel hranges (by simp [Plan.typesAfter?, hdeclared]) hx
    refine ⟨_, hcode.extends.addMerges hmerges, fun h => absurd hl (h l),
      fun s₂ grow hlabels hsame => ?_⟩
    exact .label hl (hlabels ▸ hc) ((knownFrames_of_done h horder).mono grow)
      (hjoined.mono (hsame ▸ List.Subset.refl _))
  next content hlabel hcontent =>
    obtain ⟨g, s₁, hg, hsimulate⟩ := run_bind_eq_ok.mp hx
    obtain ⟨rfl, u, hu, hg⟩ := run_predecessorFrame hg
    have hbefore : FrameBefore p s₁ node g :=
      ⟨u, hu, (NodeGraph.precedes_iff horder).mpr ((h.frames u).mp (by simp [hg])), hg⟩
    have hexecutes := hnode content hcontent
    cases content with
    | label l => exact absurd rfl (hlabel l)
    | frame frame => cases hexecutes
    | line number l =>
        obtain ⟨c, s₂, hc, hsimulate⟩ := run_bind_eq_ok.mp hsimulate
        obtain ⟨rfl, -⟩ := run_labelOf hc
        obtain ⟨_, s₂, hemit, hsimulate⟩ := run_bind_eq_ok.mp hsimulate
        cases hsimulate
        have hcode := run_emit hemit
        exact ⟨_, hcode.extends, fun _ => hcode.merges,
          fun _ grow _ _ => .line hcontent (hbefore.mono grow)⟩
    | plain i =>
        obtain ⟨hsome, hdistinct⟩ := Bool.and_eq_true_iff.mp hexecutes
        obtain ⟨operation, hoperation⟩ := Option.isSome_iff_exists.mp hsome
        obtain ⟨e, s₂, he, hsimulate⟩ := run_bind_eq_ok.mp hsimulate
        obtain ⟨rfl, heffect⟩ := run_liftM he
        obtain ⟨insts, hperforms, hcode⟩ := run_perform hoperation hdistinct heffect hsimulate
        exact ⟨insts, hcode.extends, fun _ => hcode.merges,
          fun _ grow _ _ => .plain hcontent hoperation (hbefore.mono grow) hperforms⟩
    | branch b =>
        have hb : b ≠ .throw := of_decide_eq_true hexecutes
        obtain ⟨insts, hleaves, hcode⟩ := run_simulateBranch hb hsimulate
        exact ⟨insts, hcode.extends, fun _ => hcode.merges,
          fun _ grow hlabels _ => .branch hcontent hb (hbefore.mono grow) (hlabels ▸ hleaves)⟩

end LiftM

-- Stages

/-- The value is the receiver, an argument, a constant or a register with an index below a bound. -/
structure Value.Below (bound : Nat) (v : Value) : Prop where
  simple : v.isSimple = true
  within : v.Within (·.index < bound)

theorem Value.Below.mono {bound bound' : Nat} (h : v.Below bound) (hle : bound ≤ bound')
    : v.Below bound' :=
  ⟨h.simple, h.within.mono fun _ hr => Nat.lt_of_lt_of_le hr hle⟩

theorem Value.below_register {r : Register} {bound : Nat} (h : r.index < bound)
    : (Value.register r).Below bound :=
  ⟨rfl, Value.within_register.mpr h⟩

theorem Value.below_constant (c : Constant) (bound : Nat)
    : (Value.constant c).Below bound :=
  ⟨rfl, Value.within_constant⟩

theorem Plan.isSimple_putParameters (p : Plan) (hf : ∀ {v}, f.Has v → v.isSimple = true)
    (slot index : Nat) (types : List FieldType) (hv : (p.putParameters f slot index types).Has v)
    : v.isSimple = true := by
  induction types generalizing f slot index with
  | nil => exact hf hv
  | cons type rest ih =>
      refine ih (fun {w} hw => ?_) _ _ hv
      rcases hw.of_putLocal with rfl | hw
      · rfl
      · exact hf hw

theorem Plan.below_entryFrame (p : Plan) (hv : p.entryFrame.Has v) (bound : Nat)
    : v.Below bound := by
  have hempty : ∀ {w}, ¬ Frame.empty.Has w := fun hw => hw.elim nofun nofun
  refine ⟨?_, hv.elim (p.within_entryFrame.locals v) (p.within_entryFrame.stack v)⟩
  unfold Plan.entryFrame at hv
  split at hv
  · exact p.isSimple_putParameters (fun hw => absurd hw hempty) _ _ _ hv
  · refine p.isSimple_putParameters (fun {w} hw => ?_) _ _ _ hv
    rcases hw.of_putLocal with rfl | hw
    · rfl
    · exact absurd hw hempty

/-- The values of the frame after a node, if those of the frames before it are known. -/
theorem Simulates.below {n : Nat} (h : Simulates p s n next next' insts f) (hle : next ≤ next')
    (hbefore : ∀ {u g w}, p.graph.graph.Precedes u n → s.frameOf? u = some g → g.Has w →
      w.Below next)
    (hmerges : ∀ m ∈ s.merges, m.node = n → m.target.index < next') (hv : f.Has v)
    : v.Below next' := by
  have hsingle : ∀ {g w}, FrameBefore p s n g → g.Has w → w.Below next' := by
    intro g w ⟨u, _, hprecedes, hg⟩ hw
    exact (hbefore hprecedes hg hw).mono hle
  cases h with
  | entry => exact p.below_entryFrame hv next'
  | label hn hc hknown hjoined =>
      obtain ⟨place, hplace⟩ := hv.exists_place
      cases hjoined.place hplace with
      | agreed hagreed =>
          unfold LiftM.agreement at hagreed
          split at hagreed
          next =>
            obtain ⟨g, hg, hw⟩ := List.mem_filterMap.mp (LiftM.agreed?_mem hagreed)
            obtain ⟨u, hu, hprecedes, hframe⟩ := hknown.only g hg
            exact (hbefore hprecedes hframe (Frame.has_of_place hw)).mono hle
          next => cases hagreed
      | merged hm => exact Value.below_register (hmerges _ hm rfl)
  | line hn hf => exact hsingle hf hv
  | plain hn hi hf hperforms =>
      cases hperforms.gains hv with
      | old hv => exact hsingle hf hv
      | constant => exact Value.below_constant _ _
      | made _ hlt => exact Value.below_register hlt
  | branch hn hb hf hleaves => exact hsingle hf (hleaves.has hv)

/-- The nodes that are simulated so far, with the ranges of the registers that were made for them.
-/
structure Staged (p : Plan) (lo hi : Nat → Nat) (done : List Nat) (s : LiftState) : Prop where
  numbered : s.MergesNumbered
  nodes : ∀ n ∈ done, ∃ f, s.frameOf? n = some f ∧ Simulates p s n (lo n) (hi n) (s.codeOf n) f
  held : ∀ n ∈ done, ∀ {f v}, s.frameOf? n = some f → f.Has v → v.Below (hi n)
  stages : done.Pairwise fun u n => hi u ≤ lo n
  bounds : ∀ n ∈ done, lo n ≤ hi n ∧ hi n ≤ s.registers.next
  merges : ∀ m ∈ s.merges, m.node ∈ done ∧ lo m.node ≤ m.target.index
    ∧ m.target.index < hi m.node
  joins : ∀ m ∈ s.merges, ∃ l, p.node? m.node = some (.label l)

theorem staged_initial (p : Plan) (lo hi : Nat → Nat)
    : Staged p lo hi [] (.initial p) where
  numbered := ⟨.nil, nofun⟩
  nodes := nofun
  held := nofun
  stages := .nil
  bounds := nofun
  merges := nofun
  joins := nofun

theorem Staged.visit {lo hi : Nat → Nat} (h : Staged p lo hi done s)
    (hprepared : Prepared p done s) (hranges : p.method.ranges = []) (hdeclared : p.declared = [])
    (horder : p.graph.graph.order = done ++ node :: rest)
    (hnode : ∀ content, p.node? node = some content → executes content = true)
    (hx : (LiftM.visit p node).run s = .ok ((), s'))
    : ∃ lo' hi', Staged p lo' hi' (done ++ [node]) s' := by
  have hn : node < p.graph.graph.size := p.graph.graph.lt_size_of_mem_order (by simp [horder])
  have hnew := NodeGraph.not_mem_done horder
  have hne : ∀ n ∈ done, n ≠ node := fun n hn same => hnew (same ▸ hn)
  rw [LiftM.visit_eq] at hx
  obtain ⟨f, s₁, hframe, hset⟩ := LiftM.run_bind_eq_ok.mp hx
  obtain ⟨insts, ext, hothers, hsimulates⟩ :=
    LiftM.run_frameAfter hprepared hranges hdeclared horder hnode hframe
  obtain ⟨hcode, hframes, hlabels, hmerges, hnext⟩ : s'.code = s₁.code
      ∧ s'.frames = s₁.frames.set! node (some f) ∧ s'.labels = s₁.labels
      ∧ s'.merges = s₁.merges ∧ s'.registers = s₁.registers := by
    cases hset
    exact ⟨rfl, rfl, rfl, rfl, rfl⟩
  have hof : ∀ n, s'.frameOf? n = update s.frameOf? node (some f) n :=
    LiftM.frameOf?_set! (ext.frames ▸ hframes) (hprepared.framesSize ▸ hn)
  have grow : FramesGrow s s' := by
    intro n g hg
    have hdone : n ∈ done := (hprepared.frames n).mp (by simp [hg])
    rw [hof, update_of_ne (hne n hdone), hg]
  have hcodeOf : ∀ n, s'.codeOf n = if node = n ∧ n < s.code.size then s.codeOf n ++ insts
      else s.codeOf n := codeOf_modify (hcode.trans ext.code)
  have hself := hsimulates s' grow (hlabels.trans ext.labels) hmerges
  have hnewMerges : ∀ m ∈ s'.merges, m ∈ s.merges ∧ m.node ≠ node ∨ m.node = node
      ∧ s.registers.next ≤ m.target.index ∧ m.target.index < s₁.registers.next := by
    intro m hm
    exact (ext.new m (hmerges ▸ hm)).imp (fun hm => ⟨hm, hne _ (h.merges m hm).1⟩) id
  have hmem : ∀ {P : Nat → Prop}, (∀ n ∈ done, P n) → P node → ∀ n ∈ done ++ [node], P n := by
    intro P hdone hnode
    exact List.forall_mem_append.mpr ⟨hdone, List.forall_mem_singleton.mpr hnode⟩
  refine ⟨update lo node s.registers.next, update hi node s₁.registers.next,
    ?_, hmem (fun n hn => ?_) ?_, hmem (fun n hn {g w} hg hw => ?_) (fun {g w} hg hw => ?_),
    ?_, hmem (fun n hn => ?_) ?_, fun m hm => ?_, fun m hm => ?_⟩
  · obtain ⟨ascending, made⟩ := ext.numbered h.numbered
    exact ⟨hmerges ▸ ascending, fun m hm => hnext ▸ made m (hmerges ▸ hm)⟩
  · obtain ⟨g, hg, hsimulated⟩ := h.nodes n hn
    refine ⟨g, grow n g hg, ?_⟩
    rw [update_of_ne (hne n hn), update_of_ne (hne n hn), hcodeOf,
      if_neg fun same => hne n hn same.1.symm]
    exact hsimulated.mono grow (hlabels.trans ext.labels) (hmerges ▸ ext.merges)
  · refine ⟨f, by simp [hof], ?_⟩
    rw [update_self, update_self, hcodeOf,
      if_pos ⟨rfl, hprepared.codeSize ▸ hn⟩, hprepared.fresh node hnew]
    exact hself
  · rw [hof, update_of_ne (hne n hn)] at hg
    rw [update_of_ne (hne n hn)]
    exact h.held n hn hg hw
  · obtain rfl : f = g := by simpa [hof] using hg
    rw [update_self]
    refine hself.below ext.next (fun {u g w} hprecedes hg hw => ?_) (fun m hm hnode => ?_) hw
    · have hu := (NodeGraph.precedes_iff horder).mp hprecedes
      rw [hof, update_of_ne (hne u hu)] at hg
      exact (h.held u hu hg hw).mono (h.bounds u hu).2
    · exact ((hnewMerges m hm).resolve_left fun hold => hold.2 hnode).2.2
  · rw [List.pairwise_append]
    refine ⟨h.stages.imp_of_mem fun {u n} hu hn hle => ?_, List.pairwise_singleton _ _,
      fun u hu n hn => ?_⟩
    · rwa [update_of_ne (hne u hu), update_of_ne (hne n hn)]
    · rw [List.mem_singleton.mp hn, update_of_ne (hne u hu), update_self]
      exact (h.bounds u hu).2
  · rw [update_of_ne (hne n hn), update_of_ne (hne n hn), hnext]
    exact ⟨(h.bounds n hn).1, Nat.le_trans (h.bounds n hn).2 ext.next⟩
  · rw [update_self, update_self, hnext]
    exact ⟨ext.next, Nat.le_refl _⟩
  · rcases hnewMerges m hm with ⟨hm, hother⟩ | ⟨rfl, hle, hlt⟩
    · rw [update_of_ne hother, update_of_ne hother]
      exact ⟨List.mem_append_left _ (h.merges m hm).1, (h.merges m hm).2⟩
    · rw [update_self, update_self]
      exact ⟨by simp, hle, hlt⟩
  · rcases ext.new m (hmerges ▸ hm) with hold | ⟨hself, -, -⟩
    · exact h.joins m hold
    · by_contra hlabel
      rw [hself, not_exists] at hlabel
      exact hne _ (h.merges m (hothers hlabel ▸ hmerges ▸ hm)).1 hself

/-- The induction is on the nodes that are left. -/
theorem Staged.forM_visit {lo hi : Nat → Nat} (h : Staged p lo hi done s)
    (hprepared : Prepared p done s) (hranges : p.method.ranges = []) (hdeclared : p.declared = [])
    (hcontent : ∀ n frame, p.node? n ≠ some (.frame frame))
    (horder : p.graph.graph.order = done ++ rest)
    (hnodes : ∀ n ∈ rest, ∀ content, p.node? n = some content → executes content = true)
    (hx : (rest.forM (LiftM.visit p)).run s = .ok ((), s'))
    : ∃ lo' hi', Staged p lo' hi' p.graph.graph.order s' := by
  induction rest generalizing lo hi done s with
  | nil =>
      cases hx
      rw [horder, List.append_nil]
      exact ⟨lo, hi, h⟩
  | cons node rest ih =>
      obtain ⟨_, s₁, hvisit, hrest⟩ := LiftM.run_bind_eq_ok.mp hx
      obtain ⟨lo', hi', hstaged⟩ := h.visit hprepared hranges hdeclared horder
        (hnodes node List.mem_cons_self) hvisit
      refine ih hstaged (hprepared.visit hranges hcontent horder hvisit) ?_
        (fun n hn => hnodes n (List.mem_cons_of_mem _ hn)) hrest
      rw [horder, List.append_assoc, List.singleton_append]

end StackLift
