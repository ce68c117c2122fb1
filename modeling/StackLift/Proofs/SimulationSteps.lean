import StackLift.Proofs.CodeMeaning
import StackLift.Proofs.LiftSteps
import StackLift.Proofs.SimulatedReads

/-!
What simulating a node does: the code that it adds to the node, and the frame after it. Only nodes
are looked at that the stack machine can execute.
-/

namespace StackLift

open Instruction

variable {p : Plan} {node slot : Nat} {s s' : LiftState} {f f' : Frame} {value : Value}

/-- A step adds code to a node, and may make registers and labels. -/
structure AddsCode (node : Nat) (insts : List Inst) (s s' : LiftState) : Prop where
  code : s'.code = s.code.modify node (· ++ insts)
  frames : s'.frames = s.frames
  labels : s'.labels = s.labels
  refinements : s'.refinements = s.refinements
  merges : s'.merges = s.merges
  next : s.registers.next ≤ s'.registers.next

theorem AddsCode.refl (node : Nat) (s : LiftState)
    : AddsCode node [] s s :=
  ⟨(LiftM.modify_append_nil s.code node).symm, rfl, rfl, rfl, rfl, Nat.le_refl _⟩

theorem AddsCode.trans {first second : List Inst} {s₁ s₂ s₃ : LiftState}
    (h : AddsCode node first s₁ s₂) (h' : AddsCode node second s₂ s₃)
    : AddsCode node (first ++ second) s₁ s₃ where
  code := by rw [h'.code, h.code, LiftM.modify_append_append]
  frames := h'.frames.trans h.frames
  labels := h'.labels.trans h.labels
  refinements := h'.refinements.trans h.refinements
  merges := h'.merges.trans h.merges
  next := Nat.le_trans h.next h'.next

-- Stores

/-- The type of a register that is made for a stored value. Only for `null` it is not that of the
value or of a declared variable.
-/
inductive StoreType (p : Plan) (node slot : Nat) (f : Frame) (value : Value) : TypeName → Prop
  | value : StoreType p node slot f value value.type
  | declared {v : Variable} : p.declaredVariable? slot node = some v →
    StoreType p node slot f value v.type
  | covering {v : Variable} : value.type = .null → p.variableAt? slot node = some v →
    StoreType p node slot f value v.type
  | old {w : Value} : value.type = .null → f.local? slot = some w → w.type.isPrimitive = false →
    StoreType p node slot f value w.type
  | object : value.type = .null → StoreType p node slot f value .object

/-- The code that a store adds, and the frame after it. Registers that are made have indices from
the first number to before the second.
-/
inductive Stores (p : Plan) (node slot : Nat) (f : Frame) (value : Value) (next next' : Nat) :
    List Inst → Frame → Prop
  | keep : Stores p node slot f value next next' [] (f.putLocal slot value)
  | make {r : Register} : next ≤ r.index → r.index < next' →
    StoreType p node slot f value r.type →
    Stores p node slot f value next next' [.assign (.register r) (.value value)]
      (f.putLocal slot (.register r))
  | reuse {r : Register} : f.local? slot = some (.register r) →
    f.usedInStack (.register r) = false → f.usedInOtherLocals (.register r) slot = false →
    (r.type = value.type ∨ value.type = .null ∧ r.type.isPrimitive = false) →
    Stores p node slot f value next next' [.assign (.register r) (.value value)] f

theorem Plan.type_variableRegister (p : Plan) (node slot : Nat) (r : Register) (rs : Registers)
    : (p.variableRegister node slot r rs).1.type = r.type
      ∨ ∃ v, p.declaredVariable? slot node = some v
        ∧ (p.variableRegister node slot r rs).1.type = v.type := by
  unfold Plan.variableRegister
  cases p.declaredVariable? slot node with
  | none => exact .inl rfl
  | some v =>
      dsimp only
      by_cases hreference : (!v.type.isPrimitive && !r.type.isArray) = true
      · refine .inr ⟨v, rfl, ?_⟩
        rw [if_pos hreference]
        split <;> rfl
      · refine .inl ?_
        rw [if_neg hreference]
        split <;> rfl

namespace LiftM

theorem run_assign {target : Value} {e : Expr}
    (hx : (assign node target e).run s = .ok ((), s'))
    : AddsCode node [.assign target e] s s' := by
  cases hx
  exact ⟨rfl, rfl, rfl, rfl, rfl, Nat.le_of_eq (Registers.next_assign ..).symm⟩

theorem run_compute {e : Expr} {r : Register} (hx : (compute node e).run s = .ok (r, s'))
    : r.index = s.registers.next ∧ r.type = e.type ∧ s.registers.next < s'.registers.next
      ∧ AddsCode node [.assign (.register r) e] s s' := by
  cases hx
  let fresh := s.registers.fresh e.type
  have hnext : (fresh.2.assign (.register fresh.1) e).2.next = s.registers.next + 1 :=
    Registers.next_assign ..
  have hlt := Nat.lt_of_lt_of_eq (Nat.lt_succ_self s.registers.next) hnext.symm
  exact ⟨rfl, rfl, hlt, rfl, rfl, rfl, rfl, rfl, Nat.le_of_lt hlt⟩

theorem run_storeFresh {type : TypeName}
    (hx : (storeFresh p node slot f type value).run s = .ok (f', s'))
    (htype : StoreType p node slot f value type)
    : ∃ insts, Stores p node slot f value s.registers.next s'.registers.next insts f'
        ∧ AddsCode node insts s s' := by
  cases hx
  let fresh := s.registers.fresh type
  let named := p.variableRegister node slot fresh.1 fresh.2
  obtain ⟨hindex, hregisters⟩ : named.1.index = s.registers.next
      ∧ named.2.next = s.registers.next + 1 :=
    p.index_variableRegister node slot fresh.1 fresh.2
  have hnext : (named.2.assign (.register named.1) (.value value)).2.next
      = s.registers.next + 1 :=
    (Registers.next_assign ..).trans hregisters
  have hlt := Nat.lt_of_lt_of_eq (Nat.lt_succ_self s.registers.next) hnext.symm
  have hnamed : StoreType p node slot f value named.1.type := by
    rcases p.type_variableRegister node slot fresh.1 fresh.2 with h | ⟨v, hv, h⟩
    · exact (show named.1.type = type from h) ▸ htype
    · exact (show named.1.type = v.type from h) ▸ .declared hv
  exact ⟨_, .make (Nat.le_of_eq hindex.symm) (hindex.trans_lt hlt) hnamed,
    ⟨rfl, rfl, rfl, rfl, rfl, Nat.le_of_lt hlt⟩⟩

theorem storeType_storeType (hreplaced : p.replaced? f node slot value = none)
    : StoreType p node slot f value (storeType (p.variableAt? slot node) f slot value) := by
  unfold storeType
  split
  next hnull =>
    cases hcovering : p.variableAt? slot node with
    | some v => exact .covering hnull hcovering
    | none =>
        cases hold : f.local? slot with
        | none => exact .object hnull
        | some w =>
            refine .old hnull hold ?_
            have hprimitive : TypeName.null.isPrimitive = true := rfl
            simp only [Plan.replaced?, hold, Option.filter_eq_none_iff, hnull,
              hprimitive] at hreplaced
            have hother := hreplaced w rfl
            simp only [Bool.not_eq_true, Bool.or_eq_false_iff, beq_eq_false_iff_ne] at hother
            simpa using hother.1.1
  next => exact .value

theorem types_of_holdsType {r : Register} (h : holdsType (.register r) value = true)
    : r.type = value.type ∨ value.type = .null ∧ r.type.isPrimitive = false := by
  rcases Bool.or_eq_true_iff.mp h with h | h
  · exact .inl (of_decide_eq_true h)
  · obtain ⟨hnull, hreference⟩ := Bool.and_eq_true_iff.mp h
    rw [of_decide_eq_true hnull]
    exact .inr ⟨rfl, by simpa [Value.type] using hreference⟩

theorem run_store (hx : (store p node slot f value).run s = .ok (f', s'))
    : ∃ insts, Stores p node slot f value s.registers.next s'.registers.next insts f'
        ∧ AddsCode node insts s s' := by
  unfold store at hx
  dsimp only at hx
  split at hx
  next hreplaced => exact run_storeFresh hx (storeType_storeType hreplaced)
  next =>
    cases hx
    exact ⟨[], .keep, .refl node s⟩
  next old _ hold =>
    have hslot : f.local? slot = some old := (Option.filter_eq_some_iff.mp hold).1
    split at hx
    next hholds =>
      split at hx
      next =>
        cases hx
        exact ⟨[], .keep, .refl node s⟩
      next hunused =>
        obtain ⟨hstack, hlocals⟩ : f.usedInStack old = false
            ∧ f.usedInOtherLocals old slot = false := by simpa using hunused
        obtain ⟨same, s₁, hsame, hx⟩ := run_bind_eq_ok.mp hx
        cases hsame
        split at hx
        next hregister =>
          obtain ⟨r, hr, -⟩ := (Option.any_eq_true _ _).mp hregister
          cases old <;> cases hr
          obtain ⟨_, s₂, hassign, hx⟩ := run_bind_eq_ok.mp hx
          cases hx
          exact ⟨_, .reuse hslot hstack hlocals (types_of_holdsType hholds), run_assign hassign⟩
        next => exact run_storeFresh hx .value
    next => exact run_storeFresh hx .value

end LiftM

-- Instructions

open StackMachine

/-- The expression that an operation computes from the entries it takes, the top first. Its type has
the kind of the result if the operands have the kinds that the operation asks for.
-/
inductive Computes : Operation → List Value → Expr → Prop
  | negate {number : NumberKind} {v : Value} :
    Computes (.negate number.valueKind) [v] (.negate (v.type.wider .int) v)
  | convert {c : Conversion} {v : Value} : Computes (.convert c) [v] (.cast c.name v)
  | binary {op : Operator} {left right result : ValueKind} {v w : Value} {type : TypeName} :
    (v.type.HasKind left → w.type.HasKind right → type.HasKind result) →
    Computes (.binary op left right result) [w, v]
      (.binary { op := op.symbol, type, left := v, right := w })

/-- The code that an operation adds to a node, and the frame after it. -/
inductive Performs (p : Plan) (node : Nat) (f : Frame) (next next' : Nat) :
    Operation → List Inst → Frame → Prop
  | nothing : Performs p node f next next' .nothing [] f
  | push {c : Constant} {k : Literal} : c.StandsFor k →
    Performs p node f next next' (.push k) [] (f.push (.constant c))
  | pushMade {c : Constant} {k : Literal} {r : Register} : c.StandsFor k → next ≤ r.index →
    r.index < next' → r.type = c.type →
    Performs p node f next next' (.push k) [.assign (.register r) (.value (.constant c))]
      (f.push (.register r))
  | load {kind : ValueKind} {slot : Nat} {v : Value} : f.local? slot = some v →
    Performs p node f next next' (.load kind slot) [] (f.push v)
  | store {kind : ValueKind} {slot : Nat} {v : Value} {rest : List Value} {insts : List Inst}
    {f' : Frame} : f.stack = v :: rest →
    Stores p node slot { f with stack := rest } v next next' insts f' →
    Performs p node f next next' (.store kind slot) insts f'
  | shuffle {s : Shuffle} {stack : List Value} : s.apply f.stack = some stack →
    Performs p node f next next' (.shuffle s) [] { f with stack }
  | compute {operation : Operation} {taken rest : List Value} {e : Expr} {r : Register} :
    Computes operation taken e → f.stack = taken ++ rest → next ≤ r.index → r.index < next' →
    r.type = e.type →
    Performs p node f next next' operation [.assign (.register r) e]
      { f with stack := .register r :: rest }
  | increment {slot middle : Nat} {amount : Int16} {v : Value} {r : Register}
    {insts : List Inst} {f' : Frame} : f.local? slot = some v → next ≤ r.index →
    r.index < middle → middle ≤ next' →
    r.type = (operation .add v (.constant (.int amount.toInt32))).type →
    Stores p node slot f (.register r) middle next' insts f' →
    Performs p node f next next' (.increment slot amount)
      (.assign (.register r)
        (operation .add v (.constant (.int amount.toInt32))) :: insts) f'

/-- What pops a value and goes on takes it from the top of the stack. -/
theorem Frame.pop_bind_eq_ok {α : Type} {k : Value × Frame → Except Error α} {a : α}
    (h : (f.pop node >>= k) = .ok a)
    : ∃ v rest, f.stack = v :: rest ∧ k (v, { f with stack := rest }) = .ok a := by
  unfold Frame.pop at h
  split at h
  next v rest hstack => exact ⟨v, rest, hstack, h⟩
  next => cases h

theorem Frame.getLocal_eq_ok {v : Value} (h : f.getLocal node slot = .ok v)
    : f.local? slot = some v := by
  unfold Frame.getLocal at h
  split at h
  next w hw =>
    cases h
    exact hw
  next => cases h

namespace LiftM

variable {operation : Operation}

theorem run_perform_compute {taken rest : List Value} {e : Expr}
    (hcomputes : Computes operation taken e) (hstack : f.stack = taken ++ rest)
    (hx : (perform p node (.compute { f with stack := rest } e)).run s = .ok (f', s'))
    : ∃ insts, Performs p node f s.registers.next s'.registers.next operation insts f'
        ∧ AddsCode node insts s s' := by
  obtain ⟨r, s₁, hcompute, hx⟩ := run_bind_eq_ok.mp hx
  cases hx
  obtain ⟨hindex, htype, hlt, hwrites⟩ := run_compute hcompute
  exact ⟨_, .compute hcomputes hstack (Nat.le_of_eq hindex.symm) (hindex.trans_lt hlt) htype,
    hwrites⟩

/-- Operations that take one or two operands. -/
theorem run_perform_unary {result : Value → Expr} {e : Effect}
    (hcomputes : ∀ v, Computes operation [v] (result v))
    (he : unary node f result = .ok e) (hx : (perform p node e).run s = .ok (f', s'))
    : ∃ insts, Performs p node f s.registers.next s'.registers.next operation insts f'
        ∧ AddsCode node insts s s' := by
  obtain ⟨v, rest, hstack, he⟩ := Frame.pop_bind_eq_ok he
  cases he
  exact run_perform_compute (hcomputes v) hstack hx

theorem run_perform_binary {result : Value → Value → Expr} {e : Effect}
    (hcomputes : ∀ v w, Computes operation [w, v] (result v w))
    (he : binary node f result = .ok e) (hx : (perform p node e).run s = .ok (f', s'))
    : ∃ insts, Performs p node f s.registers.next s'.registers.next operation insts f'
        ∧ AddsCode node insts s s' := by
  obtain ⟨w, rest, hstack, he⟩ := Frame.pop_bind_eq_ok he
  obtain ⟨v, rest', hstack', he⟩ := Frame.pop_bind_eq_ok he
  cases he
  refine run_perform_compute (f := f) (hcomputes v w) ?_ hx
  rw [hstack, show rest = v :: rest' from hstack']
  rfl

theorem run_perform_constant {c : LoadableConstant} {k : Literal} {e : Effect}
    (hk : Literal.ofLoadable? c = some k) (hdistinct : k.isDistinct = true)
    (he : c.effect f = .ok e) (hx : (perform p node e).run s = .ok (f', s'))
    : ∃ insts, Performs p node f s.registers.next s'.registers.next (.push k) insts f'
        ∧ AddsCode node insts s s' := by
  have made : ∀ {constant : Constant}, constant.StandsFor k →
      (perform p node (.compute f (.value (.constant constant)))).run s = .ok (f', s') →
      ∃ insts, Performs p node f s.registers.next s'.registers.next (.push k) insts f'
        ∧ AddsCode node insts s s' := by
    intro constant hstands hx
    obtain ⟨r, s₁, hcompute, hx⟩ := run_bind_eq_ok.mp hx
    cases hx
    obtain ⟨hindex, htype, hlt, hwrites⟩ := run_compute hcompute
    exact ⟨_, .pushMade hstands (Nat.le_of_eq hindex.symm) (hindex.trans_lt hlt) htype, hwrites⟩
  cases c with
  | dynamic => cases hk
  | classRef | methodType | handle =>
      cases he
      exact made (.of_loadable rfl hk hdistinct) hx
  | _ =>
      cases he
      cases hx
      exact ⟨[], .push (.of_loadable rfl hk hdistinct), .refl node s⟩

/-- An instruction that the stack machine can execute. -/
theorem run_perform {i : Instruction} {e : Effect}
    (hoperation : operation? i = some operation) (hdistinct : i.pushesDistinct = true)
    (he : i.effect node f = .ok e) (hx : (perform p node e).run s = .ok (f', s'))
    : ∃ insts, Performs p node f s.registers.next s'.registers.next operation insts f'
        ∧ AddsCode node insts s s' := by
  have push : ∀ {c : Constant} {k}, c.StandsFor k → e = .move (f.push (.constant c)) →
      operation = .push k →
      ∃ insts, Performs p node f s.registers.next s'.registers.next operation insts f'
        ∧ AddsCode node insts s s' := by
    intro c k hstands he hk
    subst he hk
    cases hx
    exact ⟨[], .push hstands, .refl node s⟩
  cases i with
  | nop =>
      cases hoperation
      cases he
      cases hx
      exact ⟨[], .nothing, .refl node s⟩
  | pushNull =>
      cases hoperation
      cases he
      exact push .null rfl rfl
  | pushInt n | pushByte value | pushShort value =>
      cases hoperation
      cases he
      exact push (.int _) rfl rfl
  | pushLong n =>
      cases hoperation
      cases he
      exact push (.long _) rfl rfl
  | pushFloat n =>
      cases hoperation
      cases he
      refine push (.float _) rfl ?_
      rcases n with ⟨_ | _ | _ | n, hn⟩ <;> rfl
  | pushDouble n =>
      cases hoperation
      cases he
      refine push (.double _) rfl ?_
      rcases n with ⟨_ | _ | n, hn⟩ <;> rfl
  | pushConstant c =>
      obtain ⟨k, hk, rfl⟩ := Option.map_eq_some_iff.mp hoperation
      refine run_perform_constant hk ?_ he hx
      simpa [pushesDistinct, hoperation] using hdistinct
  | load kind slot =>
      cases hoperation
      obtain ⟨v, hv, he⟩ := except_bind_eq_ok.mp he
      cases he
      cases hx
      exact ⟨[], .load (Frame.getLocal_eq_ok hv), .refl node s⟩
  | store kind slot =>
      cases hoperation
      obtain ⟨v, rest, hstack, he⟩ := Frame.pop_bind_eq_ok he
      cases he
      obtain ⟨insts, hstores, hwrites⟩ := run_store hx
      exact ⟨insts, .store hstack hstores, hwrites⟩
  | shuffle sh =>
      cases hoperation
      obtain ⟨g, hg, he⟩ := except_bind_eq_ok.mp he
      cases he
      cases hx
      unfold Frame.shuffle at hg
      split at hg
      next stack hstack =>
        cases hg
        exact ⟨[], .shuffle hstack, .refl node s⟩
      next => cases hg
  | arithmetic op kind =>
      cases hoperation
      rw [effect, ← op.symbol_arithmetic] at he
      exact run_perform_binary (fun v w => .binary fun hv hw => hv.binaryResult hw) he hx
  | bitwise op kind =>
      cases hoperation
      rw [effect, ← op.symbol_bitwise] at he
      exact run_perform_binary (fun v w => .binary fun hv hw => hv.bitResult hw) he hx
  | shift op kind =>
      cases hoperation
      rw [effect, ← op.symbol_shift] at he
      exact run_perform_binary (fun v w => .binary fun hv hw => hv.shiftResult hw) he hx
  | negate kind =>
      cases hoperation
      exact run_perform_unary (fun v => .negate) he hx
  | increment slot amount =>
      cases hoperation
      obtain ⟨v, hv, he⟩ := except_bind_eq_ok.mp he
      cases he
      obtain ⟨r, s₁, hcompute, hx⟩ := run_bind_eq_ok.mp hx
      obtain ⟨hindex, htype, hlt, hwrites⟩ := run_compute hcompute
      obtain ⟨insts, hstores, hwrites'⟩ := run_store hx
      exact ⟨_, .increment (Frame.getLocal_eq_ok hv) (Nat.le_of_eq hindex.symm)
        (hindex.trans_lt hlt) hwrites'.next htype hstores, hwrites.trans hwrites'⟩
  | convert conversion =>
      cases hoperation
      rw [effect, ← conversion.name_eq] at he
      exact run_perform_unary (fun v => .convert) he hx
  | compareLong =>
      cases hoperation
      exact run_perform_binary (fun v w => .binary fun _ _ => by decide) he hx
  | compareFloat mode | compareDouble mode =>
      cases hoperation
      rw [effect, ← mode.symbol_compareReal] at he
      exact run_perform_binary (fun v w => .binary fun _ _ => by decide) he hx
  | _ => cases hoperation

end LiftM

-- Branches

/-- What a conditional jump compares, with the entries it takes, the top first. -/
inductive Compares : Branch → List Value → Comparison → Value → Value → Label → Prop
  | ifZero {comparison : Comparison} {target : Label} {v : Value} :
    Compares (.ifZero comparison target) [v] comparison v (.constant (.zero v.type)) target
  | ifInt {comparison : Comparison} {target : Label} {v w : Value} :
    Compares (.ifInt comparison target) [w, v] comparison v w target
  | ifReference {comparison : Equality} {target : Label} {v w : Value} :
    Compares (.ifReference comparison target) [w, v] comparison.comparison v w target
  | ifNull {comparison : Equality} {target : Label} {v : Value} :
    Compares (.ifNull comparison target) [v] comparison.comparison v (.constant .null) target

/-- The cases and the default of a switch. -/
inductive Selects : Branch → List (Int32 × Label) → Label → Prop
  | table {default : Label} {low : Int32} {targets : List Label} :
    Selects (.tableSwitch default low targets)
      (targets.zipIdx.map fun (target, offset) => (low + Int32.ofNat offset, target)) default
  | lookup {default : Label} {targets : List (Int32 × Label)} :
    Selects (.lookupSwitch default targets) targets default

/-- Where a conditional jump goes on: at the label of the next node, or at a label after itself. -/
inductive GoesOn (labels : List (Label × CodeLabel)) (next : Option Node) :
    CodeLabel → List Inst → Prop
  | label {l : Label} {c : CodeLabel} : next = some (.label l) → labels.lookup l = some c →
    GoesOn labels next c []
  | after {c : CodeLabel} : GoesOn labels next c [.label c]

/-- The code of a branch, and the frame after it. -/
inductive Leaves (labels : List (Label × CodeLabel)) (next : Option Node) (f : Frame) :
    Branch → List Inst → Frame → Prop
  | returnVoid : Leaves labels next f .returnVoid [.returns none] f
  | returnValue {kind : ValueKind} {v : Value} {rest : List Value} : f.stack = v :: rest →
    Leaves labels next f (.returnValue kind) [.returns (some v)] { f with stack := rest }
  | goto {target : Label} {c : CodeLabel} : labels.lookup target = some c →
    Leaves labels next f (.goto target) [.jump c] f
  | compare {b : Branch} {taken rest : List Value} {comparison : Comparison} {v w : Value}
    {target : Label} {c c' : CodeLabel} {after : List Inst} :
    Compares b taken comparison v w target →
    f.stack = taken ++ rest → labels.lookup target = some c → GoesOn labels next c' after →
    Leaves labels next f b
      (.branch { op := comparison.symbol, type := .boolean, left := v, right := w } c c' :: after)
      { f with stack := rest }
  | switch {b : Branch} {key : Value} {rest : List Value} {targets : List (Int32 × Label)}
    {default : Label} {cases : List (Value × CodeLabel)} {c : CodeLabel} :
    Selects b targets default → f.stack = key :: rest →
    List.Forall₂ (fun t case => case.1 = .constant (.int t.1) ∧ labels.lookup t.2 = some case.2)
      targets cases →
    labels.lookup default = some c →
    Leaves labels next f b [.switch key cases c] { f with stack := rest }

namespace LiftM

theorem run_labelOf {l : Label} {c : CodeLabel} (hx : (labelOf l).run s = .ok (c, s'))
    : s = s' ∧ s.labels.lookup l = some c := by
  obtain ⟨_, _, hget, hx⟩ := run_bind_eq_ok.mp hx
  cases hget
  split at hx
  next c hc =>
    cases hx
    exact ⟨rfl, hc⟩
  next => cases hx

theorem run_emit {i : Inst} (hx : (emit node i).run s = .ok ((), s'))
    : AddsCode node [i] s s' := by
  cases hx
  exact ⟨rfl, rfl, rfl, rfl, rfl, Nat.le_refl _⟩

theorem run_branchOn {op : BinaryOp} {v w : Value} {target : Label}
    (hx : (branchOn p node op v w target).run s = .ok ((), s'))
    : ∃ c c' after, s.labels.lookup target = some c ∧ GoesOn s.labels (p.node? (node + 1)) c' after
        ∧ AddsCode node (.branch { op, type := .boolean, left := v, right := w } c c' :: after)
          s s' := by
  obtain ⟨c, s₁, hlabel, hx⟩ := run_bind_eq_ok.mp hx
  obtain ⟨rfl, hc⟩ := run_labelOf hlabel
  obtain ⟨next, s₂, hnext, hx⟩ := run_bind_eq_ok.mp hx
  obtain ⟨rfl, hgoes⟩ : s = s₂ ∧ ∀ c', next = some c' →
      GoesOn s.labels (p.node? (node + 1)) c' [] := by
    unfold nextLabel? at hnext
    split at hnext
    next l hl =>
      obtain ⟨_, _, hget, hnext⟩ := run_bind_eq_ok.mp hnext
      cases hget
      cases hnext
      exact ⟨rfl, fun c' hc' => .label hl hc'⟩
    next =>
      cases hnext
      exact ⟨rfl, fun c' hc' => nomatch hc'⟩
  cases next with
  | some c' => exact ⟨c, c', [], hc, hgoes c' rfl, run_emit hx⟩
  | none =>
      obtain ⟨c', s₃, hfresh, hx⟩ := run_bind_eq_ok.mp hx
      obtain ⟨_, s₄, hbranch, hx⟩ := run_bind_eq_ok.mp hx
      have hwrites := (run_emit hbranch).trans (run_emit hx)
      cases hfresh
      exact ⟨c, _, _, hc, .after, hwrites.code, hwrites.frames, hwrites.labels,
        hwrites.refinements, hwrites.merges, hwrites.next⟩

variable {targets : List (Int32 × Label)}

theorem run_cases {cases : List (Value × CodeLabel)}
    (hx : StateT.run (targets.mapM fun (number, target) => do
      return (Value.constant (.int number), ← labelOf target) : LiftM _) s = .ok (cases, s'))
    : s = s' ∧ List.Forall₂
        (fun t case => case.1 = .constant (.int t.1) ∧ s.labels.lookup t.2 = some case.2)
        targets cases := by
  induction targets generalizing cases s s' with
  | nil =>
      cases hx
      exact ⟨rfl, .nil⟩
  | cons t rest ih =>
      rw [List.mapM_cons] at hx
      obtain ⟨case, s₁, hcase, hx⟩ := run_bind_eq_ok.mp hx
      obtain ⟨c, s₂, hlabel, hcase⟩ := run_bind_eq_ok.mp hcase
      obtain ⟨rfl, hc⟩ := run_labelOf hlabel
      cases hcase
      obtain ⟨others, s₃, hothers, hx⟩ := run_bind_eq_ok.mp hx
      obtain ⟨rfl, hrest⟩ := ih hothers
      cases hx
      exact ⟨rfl, .cons ⟨rfl, hc⟩ hrest⟩

theorem run_switchOn {key : Value} {default : Label}
    (hx : (switchOn node key targets default).run s = .ok ((), s'))
    : ∃ cases c, List.Forall₂
          (fun t case => case.1 = .constant (.int t.1) ∧ s.labels.lookup t.2 = some case.2)
          targets cases
        ∧ s.labels.lookup default = some c ∧ AddsCode node [.switch key cases c] s s' := by
  obtain ⟨cases, s₁, hmap, hx⟩ := run_bind_eq_ok.mp hx
  obtain ⟨rfl, hcases⟩ := run_cases hmap
  obtain ⟨c, s₂, hlabel, hx⟩ := run_bind_eq_ok.mp hx
  obtain ⟨rfl, hc⟩ := run_labelOf hlabel
  exact ⟨cases, c, hcases, hc, run_emit hx⟩

theorem run_compare {b : Branch} {taken rest : List Value} {comparison : Comparison} {op : BinaryOp}
    {v w : Value} {target : Label} (hcompares : Compares b taken comparison v w target)
    (hop : comparison.symbol = op) (hstack : f.stack = taken ++ rest)
    (hx : (do branchOn p node op v w target; return { f with stack := rest } : LiftM Frame).run s
      = .ok (f', s'))
    : ∃ insts, Leaves s.labels (p.node? (node + 1)) f b insts f' ∧ AddsCode node insts s s' := by
  subst hop
  obtain ⟨_, s₁, hbranch, hx⟩ := run_bind_eq_ok.mp hx
  cases hx
  obtain ⟨c, c', after, hc, hgoes, hwrites⟩ := run_branchOn hbranch
  exact ⟨_, .compare hcompares hstack hc hgoes, hwrites⟩

theorem run_select {b : Branch} {key : Value} {rest : List Value}
    {default : Label} (hselects : Selects b targets default) (hstack : f.stack = key :: rest)
    (hx : (do switchOn node key targets default; return { f with stack := rest }
      : LiftM Frame).run s = .ok (f', s'))
    : ∃ insts, Leaves s.labels (p.node? (node + 1)) f b insts f' ∧ AddsCode node insts s s' := by
  obtain ⟨_, s₁, hswitch, hx⟩ := run_bind_eq_ok.mp hx
  cases hx
  obtain ⟨cases, c, hcases, hc, hwrites⟩ := run_switchOn hswitch
  exact ⟨_, .switch hselects hstack hcases hc, hwrites⟩

theorem run_liftM {α : Type} {x : Except Error α} {a : α}
    (hx : (liftM x : LiftM α).run s = .ok (a, s'))
    : s = s' ∧ x = .ok a := by
  cases x with
  | error e => cases hx
  | ok b =>
      cases hx
      exact ⟨rfl, rfl⟩

theorem run_pop {α : Type} {k : Value × Frame → LiftM α} {a : α}
    (hx : ((liftM (f.pop node) : LiftM (Value × Frame)) >>= k).run s = .ok (a, s'))
    : ∃ v rest, f.stack = v :: rest ∧ (k (v, { f with stack := rest })).run s = .ok (a, s') := by
  obtain ⟨⟨v, g⟩, s₁, hpop, hx⟩ := run_bind_eq_ok.mp hx
  obtain ⟨rfl, hok⟩ := run_liftM hpop
  exact Frame.pop_bind_eq_ok (k := fun x => (k x).run s) (except_bind_eq_ok.mpr ⟨_, hok, hx⟩)

theorem run_simulateBranch {b : Branch} (hthrow : b ≠ .throw)
    (hx : (simulateBranch p node f b).run s = .ok (f', s'))
    : ∃ insts, Leaves s.labels (p.node? (node + 1)) f b insts f' ∧ AddsCode node insts s s' := by
  cases b with
  | throw => exact absurd rfl hthrow
  | returnVoid =>
      obtain ⟨_, s₁, hemit, hx⟩ := run_bind_eq_ok.mp hx
      cases hx
      exact ⟨_, .returnVoid, run_emit hemit⟩
  | returnValue kind =>
      obtain ⟨v, rest, hstack, hx⟩ := run_pop hx
      obtain ⟨_, s₁, hemit, hx⟩ := run_bind_eq_ok.mp hx
      cases hx
      exact ⟨_, .returnValue hstack, run_emit hemit⟩
  | goto target =>
      obtain ⟨c, s₁, hlabel, hx⟩ := run_bind_eq_ok.mp hx
      obtain ⟨rfl, hc⟩ := run_labelOf hlabel
      obtain ⟨_, s₂, hemit, hx⟩ := run_bind_eq_ok.mp hx
      cases hx
      exact ⟨_, .goto hc, run_emit hemit⟩
  | ifZero comparison target =>
      obtain ⟨v, rest, hstack, hx⟩ := run_pop hx
      exact run_compare .ifZero comparison.symbol_eq hstack hx
  | ifNull comparison target =>
      obtain ⟨v, rest, hstack, hx⟩ := run_pop hx
      exact run_compare .ifNull comparison.symbol_comparison hstack hx
  | ifInt comparison target =>
      obtain ⟨w, rest, hstack, hx⟩ := run_pop hx
      obtain ⟨v, rest', hrest, hx⟩ := run_pop hx
      refine run_compare (f := f) .ifInt comparison.symbol_eq ?_ hx
      rw [hstack, show rest = v :: rest' from hrest]
      rfl
  | ifReference comparison target =>
      obtain ⟨w, rest, hstack, hx⟩ := run_pop hx
      obtain ⟨v, rest', hrest, hx⟩ := run_pop hx
      refine run_compare (f := f) .ifReference comparison.symbol_comparison ?_ hx
      rw [hstack, show rest = v :: rest' from hrest]
      rfl
  | tableSwitch default low targets =>
      obtain ⟨v, rest, hstack, hx⟩ := run_pop hx
      exact run_select .table hstack hx
  | lookupSwitch default targets =>
      obtain ⟨v, rest, hstack, hx⟩ := run_pop hx
      exact run_select .lookup hstack hx

end LiftM

end StackLift
