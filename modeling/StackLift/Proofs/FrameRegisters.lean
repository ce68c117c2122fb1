import StackLift.Lift.Effect
import StackLift.Proofs.LiftLogic
import StackLift.Proofs.Renaming

/-!
The registers in frames and effects. An instruction makes no registers: all that occur in its effect
stood in the frame before it.
-/

namespace StackLift

open Value

variable {P Q : Register → Prop}

-- Values, expressions and instructions

/-- All registers of the value have the property. -/
def Value.Within (P : Register → Prop) (v : Value) : Prop :=
  ∀ r, .register r ∈ v.subvalues → P r

def Expr.Within (P : Register → Prop) (e : Expr) : Prop :=
  ∀ r, .register r ∈ e.subvalues → P r

/-- All registers of the instruction have the property, and it assigns to registers, fields and
elements only.
-/
structure Inst.Within (P : Register → Prop) (i : Inst) : Prop where
  registers : ∀ r, .register r ∈ i.subvalues → P r
  place : i.AssignsPlace

namespace Value

theorem Within.mono {v : Value} (h : v.Within P) (hPQ : ∀ r, P r → Q r)
    : v.Within Q :=
  fun r hr => hPQ r (h r hr)

@[simp] theorem within_register {r : Register} : (register r).Within P ↔ P r := by
  simp [Within, subvalues]

@[simp] theorem within_this {type : TypeName} : (this type).Within P := by
  simp [Within, subvalues]

@[simp] theorem within_argument {a : Argument} : (argument a).Within P := by
  simp [Within, subvalues]

@[simp] theorem within_constant {c : Constant} : (constant c).Within P := by
  simp [Within, subvalues]

@[simp] theorem within_staticField {owner type : TypeName} {name : String}
    : (staticField owner name type).Within P := by
  simp [Within, subvalues]

@[simp] theorem within_field {object : Value} {owner type : TypeName} {name : String}
    : (field object owner name type).Within P ↔ object.Within P := by
  simp [Within, subvalues]

@[simp] theorem within_element {array index : Value} {type : TypeName}
    : (element array index type).Within P ↔ array.Within P ∧ index.Within P := by
  simp only [Within, subvalues, List.mem_cons, reduceCtorEq, false_or, List.mem_append]
  exact ⟨fun h => ⟨fun r hr => h r (.inl hr), fun r hr => h r (.inr hr)⟩,
    fun h r hr => hr.elim (h.1 r) (h.2 r)⟩

end Value

namespace Expr

theorem Within.mono {e : Expr} (h : e.Within P) (hPQ : ∀ r, P r → Q r)
    : e.Within Q :=
  fun r hr => hPQ r (h r hr)

@[simp] theorem within_value {v : Value} : (Expr.value v).Within P ↔ v.Within P := Iff.rfl

/-- An expression is within a property if its operands are. -/
theorem within_of_operands {e : Expr} (hv : e.value? = none)
    (h : ∀ v ∈ e.operands, v.Within P)
    : e.Within P := by
  intro r hr
  cases e with
  | value v => cases hv
  | _ =>
      obtain ⟨v, hm, hr⟩ := List.mem_flatMap.mp hr
      exact h v hm r hr

end Expr

namespace Inst

theorem Within.mono {i : Inst} (h : i.Within P) (hPQ : ∀ r, P r → Q r)
    : i.Within Q :=
  ⟨fun r hr => hPQ r (h.registers r hr), h.place⟩

theorem within_iff_of_place {i : Inst} (hi : i.AssignsPlace)
    : i.Within P ↔ ∀ e ∈ i.operands, e.Within P := by
  have hregisters : (∀ r, .register r ∈ i.subvalues → P r) ↔ ∀ e ∈ i.operands, e.Within P := by
    simp only [Expr.Within, subvalues, List.mem_flatMap]
    constructor
    · exact fun h e he r hr => h r ⟨e, he, hr⟩
    · rintro h r ⟨e, he, hr⟩
      exact h e he r hr
  exact ⟨fun h => hregisters.mp h.registers, fun h => ⟨hregisters.mpr h, hi⟩⟩

theorem within_iff {i : Inst} (hi : ∀ target source, i ≠ .assign target source)
    : i.Within P ↔ ∀ e ∈ i.operands, e.Within P :=
  within_iff_of_place fun target source he => absurd he (hi target source)

@[simp] theorem within_assign {target : Value} {source : Expr}
    : (Inst.assign target source).Within P
      ↔ (target.isSimple → ∃ r, target = .register r) ∧ target.Within P ∧ source.Within P := by
  have hplace : (Inst.assign target source).AssignsPlace
      ↔ (target.isSimple → ∃ r, target = .register r) :=
    ⟨fun h => h target source rfl, fun h _ _ he => (Inst.assign.inj he).1 ▸ h⟩
  constructor
  · intro h
    have hw := (within_iff_of_place h.place).mp h
    exact ⟨hplace.mp h.place, by simpa [operands] using hw⟩
  · rintro ⟨hp, ht, hs⟩
    exact (within_iff_of_place (hplace.mpr hp)).mpr (by simp [operands, ht, hs])

theorem within_assign_register {r : Register} {source : Expr}
    : (Inst.assign (.register r) source).Within P ↔ P r ∧ source.Within P := by
  simp

@[simp] theorem within_label {l : CodeLabel} : (Inst.label l).Within P := by
  simp [within_iff, operands]

@[simp] theorem within_line {number : Nat} {l : CodeLabel} : (Inst.line number l).Within P := by
  simp [within_iff, operands]

@[simp] theorem within_jump {l : CodeLabel} : (Inst.jump l).Within P := by
  simp [within_iff, operands]

@[simp] theorem within_branch {condition : BinaryExpr} {onTrue onFalse : CodeLabel}
    : (Inst.branch condition onTrue onFalse).Within P
      ↔ condition.left.Within P ∧ condition.right.Within P := by
  simp [within_iff, operands]

@[simp] theorem within_switch {key : Value} {cases : List (Value × CodeLabel)}
    {default : CodeLabel}
    : (Inst.switch key cases default).Within P
      ↔ key.Within P ∧ ∀ c ∈ cases, c.1.Within P := by
  rw [within_iff (by simp)]
  simp only [operands, List.mem_cons, forall_eq_or_imp, Expr.within_value, List.mem_map,
    forall_exists_index, and_imp, forall_apply_eq_imp_iff₂]

@[simp] theorem within_returns {value : Option Value}
    : (Inst.returns value).Within P ↔ ∀ v ∈ value, v.Within P := by
  cases value <;> simp [within_iff, operands]

@[simp] theorem within_throws {exception : Value}
    : (Inst.throws exception).Within P ↔ exception.Within P := by
  simp [within_iff, operands]

@[simp] theorem within_catches {exception : Value} {handler : CodeLabel}
    {entries : List CatchEntry}
    : (Inst.catches exception handler entries).Within P ↔ exception.Within P := by
  simp [within_iff, operands]

@[simp] theorem within_call {call : Call}
    : (Inst.call call).Within P ↔ ∀ v ∈ call.operands, v.Within P := by
  simp [within_iff, operands]

@[simp] theorem within_enterMonitor {monitor : Value}
    : (Inst.enterMonitor monitor).Within P ↔ monitor.Within P := by
  simp [within_iff, operands]

@[simp] theorem within_exitMonitor {monitor : Value}
    : (Inst.exitMonitor monitor).Within P ↔ monitor.Within P := by
  simp [within_iff, operands]

end Inst

theorem Expr.Within.mapValues {f : Value → Value} (hf : ∀ v, v.Within P → (f v).Within Q)
    {e : Expr} (he : e.Within P)
    : (e.mapValues f).Within Q := by
  have hoperand : ∀ {v}, v ∈ e.operands → e.value? = none → v.Within P := by
    intro v hv hvalue r hr
    cases e with
    | value v => cases hvalue
    | _ => exact he r (List.mem_flatMap.mpr ⟨v, hv, hr⟩)
  cases e with
  | value v => exact hf v he
  | call c =>
      refine Expr.within_of_operands rfl fun v hv => ?_
      cases c with
      | method c =>
          simp only [Expr.mapValues, Call.mapValues, Expr.operands, Call.operands,
            Option.toList_map, ← List.map_append, List.mem_map] at hv
          obtain ⟨u, hu, rfl⟩ := hv
          exact hf u (hoperand (by simpa [Expr.operands, Call.operands] using hu) rfl)
      | dynamic c =>
          obtain ⟨u, hu, rfl⟩ := List.mem_map.mp hv
          exact hf u (hoperand hu rfl)
  | newArray type dimensions =>
      refine Expr.within_of_operands rfl fun v hv => ?_
      obtain ⟨u, hu, rfl⟩ := List.mem_map.mp hv
      exact hf u (hoperand hu rfl)
  | new type => exact Expr.within_of_operands rfl (by simp [Expr.mapValues, Expr.operands])
  | binary e =>
      refine Expr.within_of_operands rfl ?_
      simp only [Expr.mapValues, BinaryExpr.mapValues, Expr.operands, List.mem_cons,
        List.not_mem_nil, or_false, forall_eq_or_imp, forall_eq]
      exact ⟨hf _ (hoperand (by simp [Expr.operands]) rfl),
        hf _ (hoperand (by simp [Expr.operands]) rfl)⟩
  | _ =>
      refine Expr.within_of_operands rfl ?_
      simp only [Expr.mapValues, Expr.operands, List.mem_singleton, forall_eq]
      exact hf _ (hoperand (by simp [Expr.operands]) rfl)

theorem Inst.Within.mapValues {f : Value → Value} (hf : ∀ v, v.Within P → (f v).Within Q)
    {i : Inst} (hi : i.Within P) (hplace : (i.mapValues f).AssignsPlace)
    : (i.mapValues f).Within Q := by
  cases i with
  | assign target source =>
      rw [Inst.within_assign] at hi
      exact Inst.within_assign.mpr ⟨hplace _ _ rfl, hf _ hi.2.1, hi.2.2.mapValues hf⟩
  | call c =>
      have hc : (Expr.call c).Within P :=
        Expr.within_of_operands rfl (Inst.within_call.mp hi)
      refine Inst.within_call.mpr fun v hv r hr => hc.mapValues hf r ?_
      exact List.mem_flatMap.mpr ⟨v, hv, hr⟩
  | returns value =>
      cases value with
      | none => simp [Inst.mapValues]
      | some v => simpa [Inst.mapValues] using hf v (by simpa using hi)
  | switch key cases default =>
      rw [Inst.within_switch] at hi
      refine Inst.within_switch.mpr ⟨hf _ hi.1, fun c hc => ?_⟩
      obtain ⟨d, hd, rfl⟩ := List.mem_map.mp hc
      exact hf _ (hi.2 d hd)
  | branch condition onTrue onFalse =>
      rw [Inst.within_branch] at hi
      exact Inst.within_branch.mpr ⟨hf _ hi.1, hf _ hi.2⟩
  | enterMonitor v => exact Inst.within_enterMonitor.mpr (hf v (Inst.within_enterMonitor.mp hi))
  | exitMonitor v => exact Inst.within_exitMonitor.mpr (hf v (Inst.within_exitMonitor.mp hi))
  | throws v => exact Inst.within_throws.mpr (hf v (Inst.within_throws.mp hi))
  | catches v handler entries =>
      exact Inst.within_catches.mpr (hf v (Inst.within_catches.mp hi))
  | label l => exact Inst.within_label
  | line number l => exact Inst.within_line
  | jump l => exact Inst.within_jump

/-- Changing the registers inside a value. -/
theorem Value.Within.mapLeaves {f : Value → Value} (hf : ∀ r, P r → (f (.register r)).Within Q)
    (hthis : ∀ type, (f (.this type)).Within Q) (hargument : ∀ a, (f (.argument a)).Within Q)
    (hconstant : ∀ c, (f (.constant c)).Within Q) {v : Value} (hv : v.Within P)
    : (v.mapLeaves f).Within Q := by
  induction v with
  | register r => exact hf r (within_register.mp hv)
  | this type => exact hthis type
  | argument a => exact hargument a
  | constant c => exact hconstant c
  | staticField owner name type => exact within_staticField
  | field object owner name type ih =>
      exact within_field.mpr (ih (within_field.mp hv))
  | element array index type iha ihi =>
      have h := within_element.mp hv
      exact within_element.mpr ⟨iha h.1, ihi h.2⟩

-- Frames

/-- All registers of the frame have the property. -/
structure Frame.Within (P : Register → Prop) (f : Frame) : Prop where
  locals : ∀ v, some v ∈ f.locals → v.Within P
  stack : ∀ v ∈ f.stack, v.Within P

theorem mem_of_mem_trimLocals {α : Type} {locals : List (Option α)} {a : Option α}
    (h : a ∈ trimLocals locals)
    : a ∈ locals := by
  have h := List.mem_reverse.mp h
  exact List.mem_reverse.mp ((List.dropWhile_sublist _).subset h)

namespace Frame

variable {f g : Frame} {node slot : Nat} {v : Value}

theorem Within.mono (h : f.Within P) (hPQ : ∀ r, P r → Q r)
    : f.Within Q :=
  ⟨fun v hv => (h.locals v hv).mono hPQ, fun v hv => (h.stack v hv).mono hPQ⟩

theorem within_empty : Frame.empty.Within P := by
  constructor <;> simp [Frame.empty]

theorem local?_eq_some_iff : f.local? slot = some v ↔ f.locals[slot]? = some (some v) := by
  simp [local?, Option.join_eq_some_iff]

theorem Within.local? (h : f.Within P) (hv : f.local? slot = some v)
    : v.Within P :=
  h.locals v (List.mem_of_getElem? (local?_eq_some_iff.mp hv))

theorem Within.getLocal (h : f.Within P) (hv : f.getLocal node slot = .ok v)
    : v.Within P := by
  unfold Frame.getLocal at hv
  split at hv
  next w hw => exact h.local? (by cases hv; exact hw)
  next => cases hv

theorem Within.push (h : f.Within P) (hv : v.Within P)
    : (f.push v).Within P :=
  ⟨h.locals, List.forall_mem_cons.mpr ⟨hv, h.stack⟩⟩

theorem Within.putLocal (h : f.Within P) (hv : v.Within P)
    : (f.putLocal slot v).Within P := by
  refine ⟨fun w hw => ?_, h.stack⟩
  rcases List.mem_or_eq_of_mem_set hw with hw | hw
  · rcases List.mem_append.mp hw with hw | hw
    · exact h.locals w hw
    · cases (List.mem_replicate.mp hw).2
  · exact Option.some.inj hw ▸ hv

theorem Within.pop (h : f.Within P) (hp : f.pop node = .ok (v, g))
    : v.Within P ∧ g.Within P := by
  unfold Frame.pop at hp
  split at hp
  next top rest hs =>
    cases hp
    have hall := h.stack
    rw [hs, List.forall_mem_cons] at hall
    exact ⟨hall.1, h.locals, hall.2⟩
  next => cases hp

theorem Within.popMany {count : Nat} {vs : List Value} (h : f.Within P)
    (hp : f.popMany node count = .ok (vs, g))
    : (∀ v ∈ vs, v.Within P) ∧ g.Within P := by
  unfold Frame.popMany at hp
  split at hp
  · cases hp
    refine ⟨fun v hv => ?_, h.locals, fun v hv => h.stack v (List.mem_of_mem_drop hv)⟩
    exact h.stack v (List.mem_of_mem_take (List.mem_reverse.mp hv))
  · cases hp

end Frame

/-- A shuffle moves and copies entries. -/
theorem Shuffle.apply_subset {s : Shuffle} {stack after : List Value}
    (h : s.apply stack = some after)
    : ∀ v ∈ after, v ∈ stack := by
  -- No shuffle looks below the fourth entry.
  rcases stack with _ | ⟨a, _ | ⟨b, _ | ⟨c, _ | ⟨d, rest⟩⟩⟩⟩ <;> cases s <;>
    grind [apply, under3, twice, pairUnder1, pairUnder2, List.tail?]

theorem Frame.Within.shuffle {f g : Frame} {node : Nat} {s : Shuffle} (h : f.Within P)
    (hs : f.shuffle node s = .ok g)
    : g.Within P := by
  unfold Frame.shuffle at hs
  split at hs
  next after ha =>
    cases hs
    exact ⟨h.locals, fun v hv => h.stack v (Shuffle.apply_subset ha v hv)⟩
  next => cases hs

theorem Plan.within_putParameters (p : Plan) {f : Frame} (h : f.Within P) (slot index : Nat)
    (types : List FieldType)
    : (p.putParameters f slot index types).Within P := by
  induction types generalizing f slot index with
  | nil => exact h
  | cons type rest ih => exact ih (h.putLocal within_argument) _ _

/-- Nothing is computed before the entry. -/
theorem Plan.within_entryFrame (p : Plan)
    : p.entryFrame.Within P := by
  unfold Plan.entryFrame
  split
  · exact p.within_putParameters Frame.within_empty _ _ _
  · exact p.within_putParameters (Frame.within_empty.putLocal within_this) _ _ _

-- Effects

/-- All registers of the effect have the property. What is made from a first result may hold that
result as well.
-/
def Effect.Within (P : Register → Prop) : Effect → Prop
  | .move f => f.Within P
  | .compute f e => f.Within P ∧ e.Within P
  | .emit f i => f.Within P ∧ i.Within P
  | .store f _ v => f.Within P ∧ v.Within P
  | .update f _ e => f.Within P ∧ e.Within P
  | .computeTwice f first second =>
    f.Within P ∧ first.Within P
      ∧ ∀ Q : Register → Prop, (∀ r, P r → Q r) → ∀ v, v.Within Q → (second v).Within Q

theorem LoadableConstant.within_effect {f : Frame} {c : LoadableConstant} {e : Effect}
    (h : f.Within P) (he : c.effect f = .ok e)
    : e.Within P := by
  unfold LoadableConstant.effect at he
  split at he
  next =>
    obtain ⟨constants, -, he⟩ := except_bind_eq_ok.mp he
    cases he
    refine ⟨h, Expr.within_of_operands rfl (by simp [Expr.operands, Call.operands, lookupCall]),
      fun Q _ v hv => Expr.within_of_operands rfl ?_⟩
    simp [Expr.operands, Call.operands, bootstrapCall, hv]
  all_goals
    obtain ⟨constant, -, he⟩ := except_bind_eq_ok.mp he
    cases he
  · exact ⟨h, by simp⟩
  · exact ⟨h, by simp⟩
  · exact ⟨h, by simp⟩
  · exact h.push within_constant

theorem Call.within_effect {f : Frame} {call : Call} (h : f.Within P)
    (hc : ∀ v ∈ call.operands, v.Within P)
    : (call.effect f).Within P := by
  unfold Call.effect
  split
  · exact ⟨h, Inst.within_call.mpr hc⟩
  · exact ⟨h, Expr.within_of_operands rfl hc⟩

theorem MethodRef.within_effect {f : Frame} {method : MethodRef} {kind : InvokeKind}
    {node : Nat} {e : Effect} (h : f.Within P) (he : method.effect kind node f = .ok e)
    : e.Within P := by
  obtain ⟨⟨arguments, g⟩, hp, he⟩ := except_bind_eq_ok.mp he
  obtain ⟨ha, hg⟩ := h.popMany hp
  by_cases hk : kind = .staticCall <;> simp only [hk, if_true, if_false] at he
  · cases he
    exact Call.within_effect hg (by simpa [MethodRef.call, Call.operands] using ha)
  · obtain ⟨⟨receiver, g'⟩, hp', he⟩ := except_bind_eq_ok.mp he
    obtain ⟨hr, hg'⟩ := hg.pop hp'
    cases he
    exact Call.within_effect hg' (by simpa [MethodRef.call, Call.operands] using ⟨hr, ha⟩)

theorem CallSite.within_effect {f : Frame} {site : CallSite} {node : Nat} {e : Effect}
    (h : f.Within P) (he : site.effect node f = .ok e)
    : e.Within P := by
  obtain ⟨bootstrap, -, he⟩ := except_bind_eq_ok.mp he
  obtain ⟨⟨arguments, g⟩, hp, he⟩ := except_bind_eq_ok.mp he
  obtain ⟨ha, hg⟩ := h.popMany hp
  cases he
  exact Call.within_effect hg (by simpa [Call.operands] using ha)

namespace Instruction

variable {f : Frame} {node : Nat} {e : Effect}

theorem within_unary {result : Value → Expr} (h : f.Within P)
    (he : unary node f result = .ok e) (hr : ∀ v, v.Within P → (result v).Within P)
    : e.Within P := by
  obtain ⟨⟨v, g⟩, hp, he⟩ := except_bind_eq_ok.mp he
  obtain ⟨hv, hg⟩ := h.pop hp
  cases he
  exact ⟨hg, hr v hv⟩

theorem within_binary {result : Value → Value → Expr} (h : f.Within P)
    (he : binary node f result = .ok e)
    (hr : ∀ v w, v.Within P → w.Within P → (result v w).Within P)
    : e.Within P := by
  obtain ⟨⟨right, g⟩, hp, he⟩ := except_bind_eq_ok.mp he
  obtain ⟨⟨left, g'⟩, hp', he⟩ := except_bind_eq_ok.mp he
  obtain ⟨hright, hg⟩ := h.pop hp
  obtain ⟨hleft, hg'⟩ := hg.pop hp'
  cases he
  exact ⟨hg', hr left right hleft hright⟩

theorem within_operation {op : BinaryOp} {v w : Value} (hv : v.Within P) (hw : w.Within P)
    : (operation op v w).Within P :=
  Expr.within_of_operands rfl (by simp [operation, Expr.operands, hv, hw])

theorem within_comparison {op : BinaryOp} {v w : Value} (hv : v.Within P) (hw : w.Within P)
    : (comparison op v w).Within P :=
  Expr.within_of_operands rfl (by simp [comparison, Expr.operands, hv, hw])

theorem within_effect {i : Instruction} (h : f.Within P) (he : i.effect node f = .ok e)
    : e.Within P := by
  cases i with
  | nop =>
      cases he
      exact h
  | pushNull | pushInt | pushLong | pushFloat | pushDouble | pushByte | pushShort =>
      cases he
      exact h.push within_constant
  | pushConstant c => exact LoadableConstant.within_effect h he
  | load kind slot =>
      obtain ⟨v, hv, he⟩ := except_bind_eq_ok.mp he
      cases he
      exact h.push (h.getLocal hv)
  | store kind slot =>
      obtain ⟨⟨v, g⟩, hp, he⟩ := except_bind_eq_ok.mp he
      obtain ⟨hv, hg⟩ := h.pop hp
      cases he
      exact ⟨hg, hv⟩
  | arrayLoad kind =>
      simp only [effect] at he
      exact within_binary h he fun v w hv hw => within_element.mpr ⟨hv, hw⟩
  | arrayStore kind =>
      obtain ⟨⟨value, g₁⟩, hp₁, he⟩ := except_bind_eq_ok.mp he
      obtain ⟨⟨index, g₂⟩, hp₂, he⟩ := except_bind_eq_ok.mp he
      obtain ⟨⟨array, g₃⟩, hp₃, he⟩ := except_bind_eq_ok.mp he
      obtain ⟨hvalue, hg₁⟩ := h.pop hp₁
      obtain ⟨hindex, hg₂⟩ := hg₁.pop hp₂
      obtain ⟨harray, hg₃⟩ := hg₂.pop hp₃
      cases he
      exact ⟨hg₃, by simp [elementOf, isSimple, isComplex, hvalue, hindex, harray]⟩
  | shuffle s =>
      obtain ⟨g, hs, he⟩ := except_bind_eq_ok.mp he
      cases he
      exact h.shuffle hs
  | arithmetic | shift | bitwise => exact within_binary h he fun _ _ => within_operation
  | compareLong | compareFloat | compareDouble =>
      exact within_binary h he fun _ _ => within_comparison
  | negate | convert | arrayLength | checkCast | instanceOf | newArray | newObjectArray =>
      simp only [effect] at he
      refine within_unary h he fun v hv => Expr.within_of_operands rfl ?_
      simp [Expr.operands, hv]
  | increment slot amount =>
      obtain ⟨v, hv, he⟩ := except_bind_eq_ok.mp he
      cases he
      exact ⟨h, within_operation (h.getLocal hv) within_constant⟩
  | getStatic field =>
      cases he
      exact ⟨h, within_staticField⟩
  | putStatic field =>
      obtain ⟨⟨v, g⟩, hp, he⟩ := except_bind_eq_ok.mp he
      obtain ⟨hv, hg⟩ := h.pop hp
      cases he
      exact ⟨hg, by simp [FieldRef.ofClass, isSimple, isComplex, hv]⟩
  | getField field =>
      simp only [effect] at he
      exact within_unary h he fun v hv => by simp [FieldRef.ofObject, hv]
  | putField field =>
      obtain ⟨⟨value, g⟩, hp, he⟩ := except_bind_eq_ok.mp he
      obtain ⟨hvalue, hg⟩ := h.pop hp
      obtain ⟨⟨object, g'⟩, hp', he⟩ := except_bind_eq_ok.mp he
      obtain ⟨hobject, hg'⟩ := hg.pop hp'
      cases he
      exact ⟨hg', by simp [FieldRef.ofObject, isSimple, isComplex, hobject, hvalue]⟩
  | invoke kind method => exact MethodRef.within_effect h he
  | invokeDynamic site => exact CallSite.within_effect h he
  | new name =>
      cases he
      exact ⟨h, Expr.within_of_operands rfl (by simp [Expr.operands])⟩
  | newMultiArray type dimensions =>
      obtain ⟨⟨vs, g⟩, hp, he⟩ := except_bind_eq_ok.mp he
      obtain ⟨hvs, hg⟩ := h.popMany hp
      cases he
      exact ⟨hg, Expr.within_of_operands rfl hvs⟩
  | enterMonitor | exitMonitor =>
      obtain ⟨⟨v, g⟩, hp, he⟩ := except_bind_eq_ok.mp he
      obtain ⟨hv, hg⟩ := h.pop hp
      cases he
      exact ⟨hg, by simp [hv]⟩

end Instruction

end StackLift
