import StackLift.Lift.Code
import StackLift.Proofs.FrameRegisters

/-!
Simulating a node, for any account of its registers. What the elementary steps keep is kept by the
simulation of instructions and branches, and by the joins of frames.
-/

namespace StackLift

namespace LiftM

variable {W : Type} [Preorder W] {Valid : W → LiftState → Prop} {Has : W → Register → Prop}
  {p : Plan} {node : Nat} {w : W} {f : Frame}

theorem lasting_value (lasting : ∀ r, Lasting fun w => Has w r) (v : Value)
    : Lasting fun w => v.Within (Has w) :=
  fun hw hv => hv.mono fun r => lasting r hw

-- Branches

/-- The code of branches assigns no register and uses registers that a world has. -/
structure ExitRules (node : Nat) (Valid : W → LiftState → Prop) (Has : W → Register → Prop) :
    Prop where
  lasting : ∀ r, Lasting fun w => Has w r
  freshLabel : ∀ {w}, Ensures Valid w freshLabel fun _ _ => True
  emit : ∀ {w i}, i.Within (Has w) → i.assigned? = none →
    Ensures Valid w (emit node i) fun _ _ => True

namespace ExitRules

variable (rules : ExitRules node Valid Has)
include rules

theorem value (v : Value)
    : Lasting fun w => v.Within (Has w) :=
  lasting_value rules.lasting v

theorem frame (f : Frame)
    : Lasting fun w => f.Within (Has w) :=
  fun hw hf => hf.mono fun r => rules.lasting r hw

theorem branchOn {op : BinaryOp} {left right : Value} {target : Label} (hl : left.Within (Has w))
    (hr : right.Within (Has w))
    : Ensures Valid w (branchOn p node op left right target) fun _ _ => True := by
  refine ensures_labelOf.bind fun w₁ onTrue hw₁ _ => ?_
  have hbranch : ∀ {w₂}, w₁ ≤ w₂ → ∀ onFalse, Inst.Within (Has w₂)
      (.branch { op, type := .boolean, left, right } onTrue onFalse) := by
    intro w₂ hw₂ onFalse
    have hw := le_trans hw₁ hw₂
    exact Inst.within_branch.mpr ⟨rules.value left hw hl, rules.value right hw hr⟩
  have hnext : Ensures Valid w₁ (nextLabel? p node) fun _ _ => True := by
    unfold nextLabel?
    split
    · exact Ensures.get_bind fun s _ => .pure trivial
    · exact .pure trivial
  refine hnext.bind fun w₂ next hw₂ _ => ?_
  cases next with
  | some onFalse => exact rules.emit (hbranch hw₂ onFalse) rfl
  | none =>
      refine rules.freshLabel.bind fun w₃ onFalse hw₃ _ => ?_
      refine (rules.emit (hbranch (le_trans hw₂ hw₃) onFalse) rfl).bind fun w₄ _ _ _ => ?_
      exact rules.emit Inst.within_label rfl

theorem cases {targets : List (Int32 × Label)}
    : Ensures Valid w (targets.mapM fun (number, target) => do
        return (Value.constant (.int number), ← labelOf target))
        fun w' cases => ∀ c ∈ cases, c.1.Within (Has w') := by
  apply Ensures.mapM fun c => rules.value c.1
  intro _ _ _ _
  exact ensures_labelOf.bind fun _ _ _ _ => .pure Value.within_constant

theorem switchOn {key : Value} {targets : List (Int32 × Label)} {default : Label}
    (hk : key.Within (Has w))
    : Ensures Valid w (switchOn node key targets default) fun _ _ => True := by
  refine rules.cases.bind fun w₁ cases hw₁ hcases => ?_
  refine ensures_labelOf.bind fun w₂ l hw₂ _ => rules.emit ?_ rfl
  refine Inst.within_switch.mpr ⟨rules.value key (le_trans hw₁ hw₂) hk, fun c hc => ?_⟩
  exact rules.value c.1 hw₂ (hcases c hc)

theorem simulateBranch {b : Branch} (hf : f.Within (Has w))
    : Ensures Valid w (simulateBranch p node f b) fun w' f' => f'.Within (Has w') := by
  cases b with
  | returnVoid =>
      refine (rules.emit (by simp) rfl).bind fun w' _ hw _ => .pure (rules.frame f hw hf)
  | returnValue kind =>
      refine Ensures.lift_bind fun (v, g) hp => ?_
      obtain ⟨hv, hg⟩ := hf.pop hp
      refine (rules.emit (by simpa using hv) rfl).bind fun w' _ hw _ => .pure (rules.frame g hw hg)
  | throw =>
      refine Ensures.lift_bind fun (v, g) hp => ?_
      obtain ⟨hv, hg⟩ := hf.pop hp
      refine (rules.emit (by simpa using hv) rfl).bind fun w' _ hw _ => .pure (rules.frame g hw hg)
  | goto target =>
      refine ensures_labelOf.bind fun w₁ l hw₁ _ => ?_
      refine (rules.emit (by simp) rfl).bind fun w₂ _ hw₂ _ => ?_
      exact .pure (rules.frame f (le_trans hw₁ hw₂) hf)
  | ifZero comparison target =>
      refine Ensures.lift_bind fun (v, g) hp => ?_
      obtain ⟨hv, hg⟩ := hf.pop hp
      refine (rules.branchOn hv Value.within_constant).bind fun w' _ hw _ => ?_
      exact .pure (rules.frame g hw hg)
  | ifInt comparison target | ifReference comparison target =>
      refine Ensures.lift_bind fun (right, g) hp => ?_
      obtain ⟨hr, hg⟩ := hf.pop hp
      refine Ensures.lift_bind fun (left, g') hp' => ?_
      obtain ⟨hl, hg'⟩ := hg.pop hp'
      refine (rules.branchOn hl hr).bind fun w' _ hw _ => .pure (rules.frame g' hw hg')
  | ifNull comparison target =>
      refine Ensures.lift_bind fun (v, g) hp => ?_
      obtain ⟨hv, hg⟩ := hf.pop hp
      refine (rules.branchOn hv Value.within_constant).bind fun w' _ hw _ => ?_
      exact .pure (rules.frame g hw hg)
  | tableSwitch default low targets =>
      refine Ensures.lift_bind fun (v, g) hp => ?_
      obtain ⟨hv, hg⟩ := hf.pop hp
      refine (rules.switchOn hv).bind fun w' _ hw _ => .pure (rules.frame g hw hg)
  | lookupSwitch default targets =>
      refine Ensures.lift_bind fun (v, g) hp => ?_
      obtain ⟨hv, hg⟩ := hf.pop hp
      refine (rules.switchOn hv).bind fun w' _ hw _ => .pure (rules.frame g hw hg)

end ExitRules

-- Instructions

/-- The elementary steps at a node use registers that a world has, and make registers that later
worlds have.
-/
structure Rules (p : Plan) (node : Nat) (Valid : W → LiftState → Prop)
    (Has : W → Register → Prop) : Prop where
  lasting : ∀ r, Lasting fun w => Has w r
  freshLabel : ∀ {w}, Ensures Valid w freshLabel fun _ _ => True
  emit : ∀ {w i}, i.Within (Has w) → Ensures Valid w (emit node i) fun _ _ => True
  compute : ∀ {w e}, e.Within (Has w) → Ensures Valid w (compute node e) Has
  assign : ∀ {w r e}, Has w r → e.Within (Has w) →
    Ensures Valid w (assign node (.register r) e) fun _ _ => True
  storeFresh : ∀ {w slot f type value}, f.Within (Has w) → value.Within (Has w) →
    Ensures Valid w (storeFresh p node slot f type value) fun w' f' => f'.Within (Has w')

namespace Rules

variable (rules : Rules p node Valid Has)
include rules

theorem exits
    : ExitRules node Valid Has :=
  ⟨rules.lasting, rules.freshLabel, fun hi _ => rules.emit hi⟩

theorem store {slot : Nat} {value : Value} (hf : f.Within (Has w)) (hv : value.Within (Has w))
    : Ensures Valid w (store p node slot f value) fun w' f' => f'.Within (Has w') := by
  unfold LiftM.store
  dsimp only
  split
  next => exact rules.storeFresh hf hv
  next => exact .pure (hf.putLocal hv)
  next old _ hold =>
    split
    · split
      · exact .pure (hf.putLocal hv)
      · refine Ensures.get_bind fun s _ => ?_
        have hslot : f.local? slot = some old :=
          (Option.filter_eq_some_iff.mp hold).1
        split
        · rename_i hsame
          obtain ⟨r, hr, -⟩ := (Option.any_eq_true _ _).mp hsame
          cases old with
          | register r =>
              have hr := Value.within_register.mp (hf.local? hslot)
              exact (rules.assign hr (Expr.within_value.mpr hv)).bind fun w' _ hw _ =>
                .pure (rules.exits.frame f hw hf)
          | _ => cases hr
        · exact rules.storeFresh hf hv
    · exact rules.storeFresh hf hv

theorem perform {e : Effect} (he : e.Within (Has w))
    : Ensures Valid w (perform p node e) fun w' f => f.Within (Has w') := by
  cases e with
  | move f => exact .pure he
  | compute f e =>
      refine (rules.compute he.2).bind fun w' r hw hr => .pure ?_
      exact (rules.exits.frame f hw he.1).push (Value.within_register.mpr hr)
  | emit f i =>
      refine (rules.emit he.2).bind fun w' _ hw _ => .pure ?_
      exact rules.exits.frame f hw he.1
  | store f slot value => exact rules.store he.1 he.2
  | update f slot e =>
      refine (rules.compute he.2).bind fun w' r hw hr => ?_
      exact rules.store (rules.exits.frame f hw he.1) (Value.within_register.mpr hr)
  | computeTwice f first second =>
      refine (rules.compute he.2.1).bind fun w₁ r hw₁ hr => ?_
      have hsecond := he.2.2 (Has w₁) (fun r => rules.lasting r hw₁) _
        (Value.within_register.mpr hr)
      refine (rules.compute hsecond).bind fun w₂ q hw₂ hq => .pure ?_
      exact (rules.exits.frame f (le_trans hw₁ hw₂) he.1).push (Value.within_register.mpr hq)

/-- Only a stack map frame needs a rule of its own. -/
theorem simulate {content : Node} (hf : f.Within (Has w))
    (refine : ∀ frame, content = .frame frame →
      Ensures Valid w (refine p node f) fun w' f' => f'.Within (Has w'))
    : Ensures Valid w (simulate p node content f) fun w' f' => f'.Within (Has w') := by
  cases content with
  | label l => exact .pure hf
  | line number start =>
      refine ensures_labelOf.bind fun w₁ l hw₁ _ => ?_
      refine (rules.emit (by simp)).bind fun w₂ _ hw₂ _ => .pure ?_
      exact rules.exits.frame f (le_trans hw₁ hw₂) hf
  | frame frame => exact refine frame rfl
  | plain instruction =>
      refine Ensures.lift_bind fun e he => ?_
      exact rules.perform (instruction.within_effect hf he)
  | branch b => exact rules.exits.simulateBranch hf

end Rules

-- Joins

theorem smallest_le {l : List Nat} {n : Nat} (h : n ∈ l)
    : smallest l ≤ n := by
  cases l with
  | nil => cases h
  | cons k rest => exact (List.min?_eq_some_iff.mp List.min?_cons').2 n h

theorem isSome_of_mapM {α β : Type} {g : α → Option β} {l : List α} {r : List β}
    (h : l.mapM g = some r)
    : ∀ a ∈ l, (g a).isSome = true := by
  induction l generalizing r with
  | nil => exact nofun
  | cons a rest ih =>
      rw [List.mapM_cons] at h
      obtain ⟨b, hb, h⟩ := Option.bind_eq_some_iff.mp h
      obtain ⟨bs, hbs, -⟩ := Option.bind_eq_some_iff.mp h
      exact List.forall_mem_cons.mpr ⟨by simp [hb], ih hbs⟩

/-- All frames have a slot that gets a type. -/
theorem isSome_of_mergedType? {frames : List Frame} {slot : Nat} {type : TypeName}
    (h : p.mergedType? frames node slot = some type)
    : ∀ f ∈ frames, (f.local? slot).isSome = true := by
  unfold Plan.mergedType? at h
  split at h
  next => cases h
  next values hvalues => exact isSome_of_mapM hvalues

/-- The value of a place on which the frames agree, if no frame is missing. -/
def agreement (frames : List Frame) (allKnown : Bool) (place : Place) : Option Value :=
  if allKnown then agreed? (frames.filterMap fun f => place.value? f) else none

/-- A place that all frames have is merged to a value within the registers of the world. -/
def MergesPlaces (Valid : W → LiftState → Prop) (Has : W → Register → Prop) (node : Nat)
    (frames : List Frame) (allKnown : Bool) (w : W) : Prop :=
  ∀ w', w ≤ w' → ∀ place type, (∀ f ∈ frames, (place.value? f).isSome = true) →
    Ensures Valid w' (mergePlace node place type (agreement frames allKnown place))
      fun w'' v => v.Within (Has w'')

namespace MergesPlaces

variable {frames : List Frame} {allKnown : Bool} {w' : W}

theorem stackEntry (merges : MergesPlaces Valid Has node frames allKnown w) {index : Nat}
    (hindex : ∀ f ∈ frames, index < f.stack.length) (hw : w ≤ w')
    : Ensures Valid w' (mergeStackEntry node frames allKnown index)
        fun w'' v => v.Within (Has w'') := by
  unfold mergeStackEntry
  dsimp only
  split
  next => exact .throw
  next =>
    refine merges w' hw (.stack index) _ fun f hf => ?_
    simpa [Place.value?] using hindex f hf

theorem slot (merges : MergesPlaces Valid Has node frames allKnown w) {slot : Nat} (hw : w ≤ w')
    : Ensures Valid w' (mergeSlot p node frames allKnown slot)
        fun w'' entry => ∀ v, entry = some v → v.Within (Has w'') := by
  unfold mergeSlot
  dsimp only
  split
  next => exact .pure fun v hv => nomatch hv
  next =>
    split
    next => exact .pure fun v hv => nomatch hv
    next type htype =>
      have hmerge := merges w' hw (.slot slot) type (isSome_of_mergedType? htype)
      unfold agreement at hmerge
      change Ensures Valid w' (mergePlace node (.slot slot) type (if allKnown then
        agreed? (frames.filterMap fun f => f.local? slot) else none)) _ at hmerge
      generalize (if allKnown then
        agreed? (frames.filterMap fun f => f.local? slot) else none) = agreed at hmerge ⊢
      split
      next => exact .throw
      next =>
        apply Ensures.map
        refine hmerge.weaken ?_
        intro w'' v _ hv u hu
        exact Option.some.inj hu ▸ hv

end MergesPlaces

/-- The frames that are known when a node is joined merge place by place. -/
def MergesKnown (p : Plan) (node : Nat) (Valid : W → LiftState → Prop)
    (Has : W → Register → Prop) (w : W) : Prop :=
  ∀ s frames, Valid w s → (p.graph.graph.predecessors node).filterMap s.frameOf? = frames →
    frames ≠ [] →
    MergesPlaces Valid Has node frames
      (frames.length = (p.graph.graph.predecessors node).length) w

theorem ensures_mergeFrames (lasting : ∀ r, Lasting fun w => Has w r)
    (merges : MergesKnown p node Valid Has w) {isHandler : Bool}
    : Ensures Valid w (mergeFrames p node (p.graph.graph.predecessors node) isHandler)
        fun w' f => f.Within (Has w') := by
  have hentry : ∀ entry : Option Value, Lasting fun w => ∀ v, entry = some v → v.Within (Has w) :=
    fun entry _ _ hw h v hv => lasting_value lasting v hw (h v hv)
  refine Ensures.get_bind fun s hs => ?_
  dsimp only
  generalize hframes : (p.graph.graph.predecessors node).filterMap s.frameOf? = frames
  split
  next => exact Ensures.bind (Ensures.throw : Ensures Valid w _ fun _ _ => False) (by simp)
  next hne =>
    have merges := merges s frames hs hframes fun h => hne (by simp [h])
    refine (Ensures.mapM (lasting_value lasting) fun index hindex w' hw =>
      merges.stackEntry ?_ hw).bind ?_
    · intro f hf
      have hindex := List.mem_range.mp hindex
      split at hindex
      · cases hindex
      · exact Nat.lt_of_lt_of_le hindex (smallest_le (List.mem_map_of_mem hf))
    intro w₁ stack hw₁ hstack
    refine (Ensures.mapM hentry fun slot _ w' hw => merges.slot (le_trans hw₁ hw)).bind ?_
    intro w₂ locals hw₂ hlocals
    refine .pure ⟨fun v hv => hlocals _ (mem_of_mem_trimLocals hv) v rfl, fun v hv => ?_⟩
    exact lasting_value lasting v hw₂ (hstack v (List.mem_reverse.mp hv))

/-- The frame at a label holds registers of the world if that of a single predecessor does, and
those that are merged do.
-/
theorem ensures_joinedFrame (lasting : ∀ r, Lasting fun w => Has w r)
    (single : ∀ s u f, Valid w s → p.graph.graph.predecessors node = [u] →
      s.frameOf? u = some f → f.Within (Has w))
    (merges : MergesKnown p node Valid Has w) {isHandler : Bool}
    : Ensures Valid w (joinedFrame p node isHandler) fun w' f => f.Within (Has w') := by
  refine Ensures.get_bind fun s hs => ?_
  split
  next u hu =>
    split
    next f hf => exact .pure (single s u f hs hu hf)
    next => exact hu ▸ ensures_mergeFrames lasting merges
  next => exact ensures_mergeFrames lasting merges

-- Labels and handlers

theorem handledRanges_eq_nil (h : p.method.ranges = [])
    : handledRanges p node = [] := by
  simp [handledRanges, h]

/-- Labels can be placed at any node, and handlers bind registers that are made for them. -/
structure LabelRules (p : Plan) (Valid : W → LiftState → Prop) (Has : W → Register → Prop) :
    Prop where
  lasting : ∀ r, Lasting fun w => Has w r
  freshLabel : ∀ {w}, Ensures Valid w freshLabel fun _ _ => True
  emit : ∀ {w node i}, i.Within (Has w) → Ensures Valid w (emit node i) fun _ _ => True
  place : ∀ {w s labels}, Valid w s → Valid w { s with labels }
  catches : p.method.ranges ≠ [] → ∀ {w type}, Ensures Valid w (freshRegister type) Has
  joined : ∀ {w node isHandler},
    Ensures Valid w (joinedFrame p node isHandler) fun w' f => f.Within (Has w')

namespace LabelRules

theorem rangeLabel (rules : LabelRules p Valid Has) {label : Label}
    : Ensures Valid w (rangeLabel p label) fun _ _ => True := by
  refine Ensures.get_bind fun s _ => ?_
  split
  next => exact .pure trivial
  next =>
    refine Ensures.lift_bind fun place _ => ?_
    refine rules.freshLabel.bind fun w₁ l _ _ => ?_
    refine (rules.emit Inst.within_label).bind fun w₂ _ _ _ => ?_
    intro s l' s' hs hx
    cases hx
    exact ⟨w₂, le_refl w₂, rules.place hs, trivial⟩

theorem startHandler (rules : LabelRules p Valid Has) {handler : CodeLabel}
    {ranges : List ProtectedRange} (hc : p.method.ranges ≠ [])
    : Ensures Valid w (startHandler p node handler ranges) Has := by
  refine (rules.catches hc).bind fun w₁ r hw₁ hr => ?_
  refine (Ensures.mapM (R := fun _ _ => True) (fun _ _ _ _ => id) fun range _ w' _ => ?_).bind ?_
  · exact rules.rangeLabel.bind fun w₁ _ _ _ => rules.rangeLabel.bind fun w₂ _ _ _ =>
      .pure trivial
  · intro w₂ entries hw₂ _
    have hr := rules.lasting r hw₂ hr
    refine (rules.emit ?_).bind fun w₃ _ hw₃ _ => .pure (rules.lasting r hw₃ hr)
    exact Inst.within_catches.mpr (Value.within_register.mpr hr)

theorem simulateLabel (rules : LabelRules p Valid Has) {label : Label}
    : Ensures Valid w (simulateLabel p node label) fun w' f => f.Within (Has w') := by
  refine ensures_labelOf.bind fun w₁ l _ _ => ?_
  refine (rules.emit Inst.within_label).bind fun w₂ _ _ _ => ?_
  split
  next => exact rules.joined
  next hne =>
    have hc : p.method.ranges ≠ [] := fun h => hne (handledRanges_eq_nil h)
    refine (rules.startHandler hc).bind fun w₃ r _ hr => ?_
    refine rules.joined.bind fun w₄ f hw₄ hf => .pure ⟨hf.locals, ?_⟩
    exact List.forall_mem_singleton.mpr (Value.within_register.mpr (rules.lasting r hw₄ hr))

end LabelRules

end LiftM

end StackLift
