import StackLift.Proofs.RegisterMachine
import StackLift.Simplify.Reads

/-!
Renaming the registers of instructions. The effect of a renamed instruction, in registers that hold
the same values under their new names, is the renamed effect.
-/

namespace StackLift

open Value

-- Registers of instructions

/-- The registers among some values. -/
def keysOf (vs : List Value) : List RegisterKey :=
  vs.filterMap fun v => v.register?.map Register.key

theorem mem_keysOf {x : RegisterKey} {vs : List Value}
    : x ∈ keysOf vs ↔ ∃ r, register r ∈ vs ∧ r.key = x := by
  simp only [keysOf, List.mem_filterMap, Option.map_eq_some_iff]
  constructor
  · rintro ⟨v, hv, r, hr, rfl⟩
    cases v with
    | register =>
        cases hr
        exact ⟨r, hv, rfl⟩
    | _ => cases hr
  · rintro ⟨r, hr, rfl⟩
    exact ⟨.register r, hr, r, rfl, rfl⟩

@[simp] theorem keysOf_nil : keysOf [] = [] := rfl

@[simp] theorem keysOf_cons (v : Value) (vs : List Value)
    : keysOf (v :: vs) = (v.register?.map Register.key).toList ++ keysOf vs := by
  cases h : v.register?.map Register.key <;> simp [keysOf, h]

@[simp] theorem keysOf_append (vs ws : List Value)
    : keysOf (vs ++ ws) = keysOf vs ++ keysOf ws :=
  List.filterMap_append

section MappedValues

variable {g : Value → Value} {σ : RegisterKey → RegisterKey}

theorem keysOf_flatMap_map (hg : ∀ v, keysOf (g v).subvalues = (keysOf v.subvalues).map σ)
    (vs : List Value)
    : keysOf ((vs.map g).flatMap subvalues)
      = (keysOf (vs.flatMap subvalues)).map σ := by
  induction vs with
  | nil => rfl
  | cons v vs ih =>
      simp only [List.map_cons, List.flatMap_cons, keysOf_append, List.map_append, ih, hg]

/-- Changing the values of an expression changes its registers as it does those of each value. -/
theorem Expr.keysOf_mapValues (hg : ∀ v, keysOf (g v).subvalues = (keysOf v.subvalues).map σ)
    (e : Expr)
    : keysOf (e.mapValues g).subvalues = (keysOf e.subvalues).map σ := by
  cases e with
  | value v => exact hg v
  | call c =>
      cases c with
      | method c =>
          cases hr : c.receiver <;>
            simp [Expr.mapValues, Expr.subvalues, Expr.operands, Call.mapValues, Call.operands,
              hr, keysOf_flatMap_map hg, hg]
      | dynamic c => exact keysOf_flatMap_map hg c.arguments
  | newArray type dimensions => exact keysOf_flatMap_map hg dimensions
  | new type => rfl
  | _ =>
      simp [Expr.mapValues, Expr.subvalues, Expr.operands, BinaryExpr.mapValues, hg]

end MappedValues

namespace Inst

/-- The registers that an instruction reads. -/
def readKeys (i : Inst) : List RegisterKey :=
  keysOf i.readValues

/-- The register that an instruction assigns. -/
def assigned? : Inst → Option RegisterKey
  | .assign (.register r) _ => some r.key
  | _ => none

theorem eq_assign_of_assigned? {i : Inst} {x : RegisterKey} (h : i.assigned? = some x)
    : ∃ r e, i = .assign (.register r) e ∧ r.key = x := by
  cases i with
  | assign target source =>
      cases target with
      | register r => exact ⟨r, source, rfl, Option.some.inj h⟩
      | _ => cases h
  | _ => cases h

/-- If the instruction is an assignment, it assigns to a register, a field or an element. -/
def AssignsPlace (i : Inst) : Prop :=
  ∀ target source, i = .assign target source → target.isSimple → ∃ r, target = .register r

/-- May the next instruction in the code follow the instruction? -/
def proceeds (i : Inst) : Bool :=
  !i.isBranching && !i.isTerminating

end Inst

-- Renamings

/-- The function renames registers, as given for their keys, and changes no other value. -/
structure Renames (f : Value → Value) (σ : RegisterKey → RegisterKey) : Prop where
  register : ∀ r, ∃ s, f (.register r) = .register s ∧ s.key = σ r.key
  this : ∀ type, f (.this type) = .this type
  argument : ∀ a, f (.argument a) = .argument a
  constant : ∀ c, f (.constant c) = .constant c

/-- Renames the registers of an instruction. -/
def Inst.rename (f : Value → Value) (i : Inst) : Inst :=
  i.mapValues (mapLeaves f)

namespace Renames

variable {f : Value → Value} {σ : RegisterKey → RegisterKey}

variable (hf : Renames f σ)
include hf

theorem keysOf_mapLeaves (v : Value)
    : keysOf (v.mapLeaves f).subvalues = (keysOf v.subvalues).map σ := by
  induction v with
  | register r =>
      obtain ⟨s, hs, hk⟩ := hf.register r
      simp [mapLeaves, hs, subvalues, register?, hk]
  | field object owner name type ih =>
      simpa [mapLeaves, subvalues, register?] using ih
  | element array index type iha ihi =>
      simp [mapLeaves, subvalues, register?, iha, ihi]
  | staticField owner name type => rfl
  | this type => simp [mapLeaves, hf.this, subvalues, register?]
  | argument a => simp [mapLeaves, hf.argument, subvalues, register?]
  | constant c => simp [mapLeaves, hf.constant, subvalues, register?]

theorem keysOf_operands (v : Value)
    : keysOf ((v.mapLeaves f).operands.flatMap subvalues)
      = (keysOf (v.operands.flatMap subvalues)).map σ := by
  cases v with
  | register r =>
      obtain ⟨s, hs, -⟩ := hf.register r
      simp [mapLeaves, hs, operands]
  | field object owner name type =>
      simpa [mapLeaves, operands] using hf.keysOf_mapLeaves object
  | element array index type =>
      simp [mapLeaves, operands, hf.keysOf_mapLeaves]
  | staticField owner name type => rfl
  | this type => simp [mapLeaves, hf.this, operands]
  | argument a => simp [mapLeaves, hf.argument, operands]
  | constant c => simp [mapLeaves, hf.constant, operands]

theorem keysOf_map (vs : List Value)
    : keysOf ((vs.map (mapLeaves f)).flatMap subvalues)
      = (keysOf (vs.flatMap subvalues)).map σ :=
  keysOf_flatMap_map hf.keysOf_mapLeaves vs

theorem keysOf_expr (e : Expr)
    : keysOf (e.mapValues (mapLeaves f)).subvalues = (keysOf e.subvalues).map σ :=
  e.keysOf_mapValues hf.keysOf_mapLeaves

theorem readKeys_rename (i : Inst)
    : (i.rename f).readKeys = i.readKeys.map σ := by
  cases i with
  | assign target source =>
      simp [Inst.readKeys, Inst.rename, Inst.mapValues, Inst.readValues, hf.keysOf_operands,
        hf.keysOf_expr]
  | call c =>
      have h := hf.keysOf_expr (.call c)
      simpa [Inst.readKeys, Inst.rename, Inst.mapValues, Inst.readValues, Inst.subvalues,
        Inst.operands, Expr.mapValues, Expr.subvalues, Expr.operands, List.flatMap_map] using h
  | returns value =>
      cases value <;>
        simp [Inst.readKeys, Inst.rename, Inst.mapValues, Inst.readValues, Inst.subvalues,
          Inst.operands, Expr.subvalues, hf.keysOf_mapLeaves]
  | switch key cases default =>
      have h := hf.keysOf_map (cases.map Prod.fst)
      simp only [List.map_map, List.flatMap_map] at h
      simpa [Inst.readKeys, Inst.rename, Inst.mapValues, Inst.readValues, Inst.subvalues,
        Inst.operands, Expr.subvalues, hf.keysOf_mapLeaves, List.flatMap_map] using h
  | _ =>
      simp [Inst.readKeys, Inst.rename, Inst.mapValues, Inst.readValues, Inst.subvalues,
        Inst.operands, Expr.subvalues, BinaryExpr.mapValues, hf.keysOf_mapLeaves]

theorem assigned?_rename (i : Inst)
    : (i.rename f).assigned? = i.assigned?.map σ := by
  cases i with
  | assign target source =>
      cases target with
      | register r =>
          obtain ⟨s, hs, hk⟩ := hf.register r
          simp [Inst.rename, Inst.mapValues, mapLeaves, hs, Inst.assigned?, hk]
      | this type => simp [Inst.rename, Inst.mapValues, mapLeaves, hf.this, Inst.assigned?]
      | argument a =>
          simp [Inst.rename, Inst.mapValues, mapLeaves, hf.argument, Inst.assigned?]
      | constant c =>
          simp [Inst.rename, Inst.mapValues, mapLeaves, hf.constant, Inst.assigned?]
      | _ => rfl
  | _ => rfl

theorem register?_mapValues {e : Expr} {q : Register}
    (h : (e.mapValues (mapLeaves f)).register? = some q)
    : ∃ r, e.register? = some r ∧ q.key = σ r.key := by
  cases e with
  | value v =>
      change (v.mapLeaves f).register? = some q at h
      cases v with
      | register r =>
          obtain ⟨s, hs, hk⟩ := hf.register r
          simp only [mapLeaves, hs, register?, Option.some.injEq] at h
          exact ⟨r, rfl, h ▸ hk⟩
      | this type => simp [mapLeaves, hf.this, register?] at h
      | argument a => simp [mapLeaves, hf.argument, register?] at h
      | constant c => simp [mapLeaves, hf.constant, register?] at h
      | _ => cases h
  | _ => cases h

end Renames

@[simp] theorem Call.operands_mapValues (f : Value → Value) (c : Call)
    : (c.mapValues f).operands = c.operands.map f := by
  cases c with
  | method c => cases h : c.receiver <;> simp [Call.mapValues, Call.operands, h]
  | dynamic c => rfl

@[simp] theorem Call.callee_mapValues (f : Value → Value) (c : Call)
    : (c.mapValues f).callee = c.callee := by
  cases c with
  | method c =>
      cases h : c.receiver <;> simp [Call.callee, Call.mapValues, h, Function.comp_def]
  | dynamic c => simp [Call.callee, Call.mapValues, Function.comp_def]

@[simp] theorem Inst.targets_rename (f : Value → Value) (i : Inst)
    : (i.rename f).targets = i.targets := by
  cases i with
  | switch key cases default => simp [Inst.rename, Inst.mapValues, Inst.targets]
  | _ => rfl

@[simp] theorem Inst.proceeds_rename (f : Value → Value) (i : Inst)
    : (i.rename f).proceeds = i.proceeds := by
  cases i <;> rfl

/-- A renamed instruction is a label only if the instruction is that label. -/
theorem Inst.rename_eq_label (f : Value → Value) (i : Inst) (l : CodeLabel)
    : i.rename f = .label l ↔ i = .label l := by
  cases i <;> simp [Inst.rename, Inst.mapValues]

-- Effects of renamed instructions

namespace RegisterMachine

variable {D : Type}

/-- The effect with its register renamed. -/
def Effect.rename (σ : RegisterKey → RegisterKey) : Effect D → Effect D
  | .proceed actions written => .proceed actions (written.map fun w => (σ w.1, w.2))
  | .jump target => .jump target
  | .stop outcome => .stop outcome

/-- The values of the given registers are those of their new names in the other registers. -/
def Carries (σ : RegisterKey → RegisterKey) (registers registers' : RegisterFile D)
    (keys : List RegisterKey) : Prop :=
  ∀ x ∈ keys, registers' (σ x) = registers x

section Carries

variable {f : Value → Value} {σ : RegisterKey → RegisterKey}
variable {registers registers' : RegisterFile D}

@[simp] theorem carries_append {xs ys : List RegisterKey}
    : Carries σ registers registers' (xs ++ ys)
      ↔ Carries σ registers registers' xs ∧ Carries σ registers registers' ys := by
  simp only [Carries, List.mem_append, or_imp, forall_and]

variable (I : Interpretation D) (history : List (Action D))

variable (hf : Renames f σ)
include hf

theorem eval_mapLeaves {v : Value} (h : Carries σ registers registers' (keysOf v.subvalues))
    : I.eval history registers' (v.mapLeaves f) = I.eval history registers v := by
  induction v with
  | register r =>
      obtain ⟨s, hs, hk⟩ := hf.register r
      simp only [mapLeaves, hs, Interpretation.eval, hk]
      exact h r.key (by simp [subvalues, register?])
  | field object owner name type ih =>
      simp only [subvalues, keysOf_cons, register?, Option.map_none,
        Option.toList_none, List.nil_append] at h
      simp only [mapLeaves, Interpretation.eval, ih h]
  | element array index type iha ihi =>
      simp only [subvalues, keysOf_cons, register?, Option.map_none,
        Option.toList_none, List.nil_append, keysOf_append, carries_append] at h
      simp only [mapLeaves, Interpretation.eval, iha h.1, ihi h.2]
  | staticField owner name type => rfl
  | this type => simp only [mapLeaves, hf.this, Interpretation.eval]
  | argument a => simp only [mapLeaves, hf.argument, Interpretation.eval]
  | constant c => simp only [mapLeaves, hf.constant, Interpretation.eval]

theorem eval_map (vs : List Value)
    (h : Carries σ registers registers' (keysOf (vs.flatMap subvalues)))
    : (vs.map (mapLeaves f)).map (I.eval history registers')
      = vs.map (I.eval history registers) := by
  induction vs with
  | nil => rfl
  | cons v vs ih =>
      simp only [List.flatMap_cons, keysOf_append, carries_append] at h
      simp only [List.map_cons, eval_mapLeaves I history hf h.1, ih h.2]

theorem actions_rename {e : Expr} (h : Carries σ registers registers' (keysOf e.subvalues))
    : I.actions history registers' (e.mapValues (mapLeaves f))
      = I.actions history registers e := by
  cases e with
  | newArray type dimensions =>
      have hd := eval_map I history hf dimensions h
      simp only [Expr.mapValues, Interpretation.actions, hd]
  | call c =>
      have ho := eval_map I history hf c.operands h
      simp only [Expr.mapValues, Interpretation.actions, Call.callee_mapValues,
        Call.operands_mapValues, ho]
  | _ => rfl

theorem evalExpr_rename {e : Expr} (h : Carries σ registers registers' (keysOf e.subvalues))
    : I.evalExpr history registers' (e.mapValues (mapLeaves f))
      = I.evalExpr history registers e := by
  have ha := actions_rename I history hf h
  cases e with
  | binary e =>
      simp only [Expr.subvalues, Expr.operands, List.flatMap_cons, List.flatMap_nil,
        List.append_nil, keysOf_append, carries_append] at h
      simp only [Expr.mapValues, BinaryExpr.mapValues, Interpretation.evalExpr,
        eval_mapLeaves I history hf h.1, eval_mapLeaves I history hf h.2]
  | value v => exact eval_mapLeaves I history hf h
  | new type => rfl
  | newArray type dimensions => exact congrArg (fun actions => I.result (history ++ actions)) ha
  | call c => exact congrArg (fun actions => I.result (history ++ actions)) ha
  | _ =>
      simp only [Expr.subvalues, Expr.operands, List.flatMap_cons, List.flatMap_nil,
        List.append_nil] at h
      simp only [Expr.mapValues, Interpretation.evalExpr, eval_mapLeaves I history hf h]

theorem assign_rename {target : Value}
    (h : Carries σ registers registers' (keysOf (target.operands.flatMap subvalues)))
    (actions : List (Action D)) (value : D)
    : I.assign history registers' (target.mapLeaves f) actions value
      = (I.assign history registers target actions value).rename σ := by
  cases target with
  | register r =>
      obtain ⟨s, hs, hk⟩ := hf.register r
      simp [mapLeaves, hs, Interpretation.assign, Effect.rename, hk]
  | field object owner name type =>
      simp only [operands, List.flatMap_cons, List.flatMap_nil, List.append_nil] at h
      simp [mapLeaves, Interpretation.assign, Effect.rename,
        eval_mapLeaves I history hf h]
  | element array index type =>
      simp only [operands, List.flatMap_cons, List.flatMap_nil, List.append_nil,
        keysOf_append, carries_append] at h
      simp [mapLeaves, Interpretation.assign, Effect.rename,
        eval_mapLeaves I history hf h.1, eval_mapLeaves I history hf h.2]
  | staticField owner name type => rfl
  | this type => simp [mapLeaves, hf.this, Interpretation.assign, Effect.rename]
  | argument a => simp [mapLeaves, hf.argument, Interpretation.assign, Effect.rename]
  | constant c => simp [mapLeaves, hf.constant, Interpretation.assign, Effect.rename]

/-- The case that a switch takes, by induction over its cases. -/
theorem find_case_rename (key : D) {cases : List (Value × CodeLabel)}
    (h : Carries σ registers registers' (keysOf (cases.flatMap fun c => c.1.subvalues)))
    : ((cases.map fun c => (c.1.mapLeaves f, c.2)).find? fun c =>
        I.equal key (I.eval history registers' c.1)).map Prod.snd
      = (cases.find? fun c => I.equal key (I.eval history registers c.1)).map Prod.snd := by
  induction cases with
  | nil => rfl
  | cons c cases ih =>
      simp only [List.flatMap_cons, keysOf_append, carries_append] at h
      simp only [List.map_cons, List.find?_cons, eval_mapLeaves I history hf h.1]
      split
      · rfl
      · exact ih h.2

/-- The effect of a renamed instruction is the renamed effect, where its reads are carried over. -/
theorem effect_rename {i : Inst} (h : Carries σ registers registers' i.readKeys)
    : I.effect history registers' (i.rename f) = (I.effect history registers i).rename σ := by
  cases i with
  | assign target source =>
      simp only [Inst.readKeys, Inst.readValues, keysOf_append, carries_append] at h
      simp only [Inst.rename, Inst.mapValues, Interpretation.effect,
        actions_rename I history hf h.2, evalExpr_rename I history hf h.2,
        assign_rename I history hf h.1]
  | call c =>
      have hc : Carries σ registers registers' (keysOf (Expr.call c).subvalues) := by
        simpa [Inst.readKeys, Inst.readValues, Inst.subvalues, Inst.operands, List.flatMap_map,
          Expr.subvalues, Expr.operands] using h
      have ha := actions_rename I history hf hc
      simp only [Expr.mapValues] at ha
      simp only [Inst.rename, Inst.mapValues, Interpretation.effect, ha, Effect.rename,
        Option.map_none]
  | returns value =>
      cases value with
      | none => rfl
      | some v =>
          simp only [Inst.readKeys, Inst.readValues, Inst.subvalues, Inst.operands,
            Option.toList_some, List.map_cons, List.map_nil, List.flatMap_cons, List.flatMap_nil,
            List.append_nil, Expr.subvalues] at h
          simp only [Inst.rename, Inst.mapValues, Interpretation.effect, Option.map_some,
            eval_mapLeaves I history hf h, Effect.rename]
  | branch condition onTrue onFalse =>
      simp only [Inst.readKeys, Inst.readValues, Inst.subvalues, Inst.operands,
        List.flatMap_cons, List.flatMap_nil, List.append_nil, Expr.subvalues, keysOf_append,
        carries_append] at h
      simp only [Inst.rename, Inst.mapValues, BinaryExpr.mapValues, Interpretation.effect,
        eval_mapLeaves I history hf h.1, eval_mapLeaves I history hf h.2, Effect.rename]
  | switch key cases default =>
      simp only [Inst.readKeys, Inst.readValues, Inst.subvalues, Inst.operands,
        List.flatMap_cons, List.flatMap_map, Expr.subvalues, keysOf_append, carries_append] at h
      simp only [Inst.rename, Inst.mapValues, Interpretation.effect,
        eval_mapLeaves I history hf h.1, find_case_rename I history hf _ h.2, Effect.rename]
  | enterMonitor monitor | exitMonitor monitor | throws exception =>
      simp only [Inst.readKeys, Inst.readValues, Inst.subvalues, Inst.operands,
        List.flatMap_cons, List.flatMap_nil, List.append_nil, Expr.subvalues] at h
      simp only [Inst.rename, Inst.mapValues, Interpretation.effect,
        eval_mapLeaves I history hf h, Effect.rename, Option.map_none]
  | _ => rfl

end Carries

end RegisterMachine

end StackLift
