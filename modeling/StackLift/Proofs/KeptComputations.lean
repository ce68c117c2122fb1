import StackLift.Proofs.RemovedInstructions
import StackLift.Proofs.Simplification

/-!
What simplification keeps: everything but assignments of values, and of these the stores of simple
values into fields and elements. Only registers are replaced in what is kept.
-/

namespace StackLift

open Inst

-- Instructions that are kept

/-- Is the instruction no assignment, an assignment of a computed expression, or a store of a simple
value into a field or an element?
-/
def Inst.isEssential : Inst → Bool
  | .assign target (.value v) => target.isComplex && v.isSimple
  | _ => true

theorem Inst.eq_assign_of_not_isEssential {i : Inst} (h : i.isEssential = false)
    : ∃ target v, i = .assign target (.value v) := by
  unfold isEssential at h
  split at h
  · exact ⟨_, _, rfl⟩
  · cases h

theorem Redundant.not_isEssential {code : List Inst} {i : Inst} (h : Redundant code i)
    : i.isEssential = false := by
  cases h with
  | copy htarget _ | unread htarget _ =>
      simp only [Value.isSimple, Bool.not_eq_true'] at htarget
      simp [isEssential, htarget]
  | itself hsame => rw [isEssential, hsame.isSimple, Value.isSimple, Bool.and_not_self]

variable {f : Value → Value}

theorem Replaces.isEssential_rename (hf : Replaces f) (i : Inst)
    : (i.rename f).isEssential = i.isEssential := by
  cases i with
  | assign target source =>
      cases source with
      | value v =>
          simp only [rename, mapValues, Expr.mapValues, isEssential,
            hf.isComplex_mapLeaves, hf.isSimple_mapLeaves]
      | _ => rfl
  | _ => rfl

theorem Splits.filter_isEssential (hf : Replaces f)
    {code removed kept : List Inst} (h : Splits f code removed kept)
    (hremoved : ∀ i ∈ removed, i.isEssential = false)
    : kept.filter isEssential = (code.filter isEssential).map (rename f) := by
  induction h with
  | nil => rfl
  | @keep i code removed kept _ ih =>
      have ih := ih hremoved
      cases hi : i.isEssential <;> simp [hf.isEssential_rename, hi, ih]
  | @remove i code removed kept _ ih =>
      have hi := hremoved i List.mem_cons_self
      simp [hi, ih fun j hj => hremoved j (List.mem_cons_of_mem i hj)]

/-- One replacement turns the essential instructions of a code into those after some passes. -/
theorem Passes.filter_isEssential {code next : List Inst} {removals : List Removal}
    (h : Passes code removals next)
    : ∃ f, Replaces f
        ∧ next.filter isEssential = (code.filter isEssential).map (rename f) := by
  induction h with
  | done code => exact ⟨id, renames_id.replaces, by simp [funext rename_id]⟩
  | @pass code removed mid next removals hp _ ih =>
      obtain ⟨f, hf, hsplits⟩ := hp.splits
      obtain ⟨g, hg, hnext⟩ := ih
      have hmid := hsplits.filter_isEssential hf fun i hi => (hp.redundant hi).not_isEssential
      refine ⟨g ∘ f, hg.comp hf, ?_⟩
      simp only [hnext, hmid, List.map_map, Function.comp_def, hf.rename_rename]

/-- What instructions other than assignments of values have, whatever their registers, is kept. -/
theorem filterMap_eq_of_essential {α : Type} {g : Inst → Option α}
    (hassign : ∀ target v, g (.assign target (.value v)) = none)
    (hrename : ∀ i, g (i.rename f) = g i) {code next : List Inst}
    (h : next.filter isEssential = (code.filter isEssential).map (rename f))
    : next.filterMap g = code.filterMap g := by
  have hessential : ∀ l : List Inst, (l.filter isEssential).filterMap g = l.filterMap g := by
    intro l
    rw [List.filterMap_filter]
    refine congrArg (List.filterMap · l) (funext fun i => ?_)
    cases hi : i.isEssential with
    | true => rfl
    | false =>
        obtain ⟨target, v, rfl⟩ := eq_assign_of_not_isEssential hi
        exact (hassign target v).symm
  calc
    next.filterMap g = ((code.filter isEssential).map (rename f)).filterMap g := by
      rw [← h, hessential]
    _ = (code.filter isEssential).filterMap g := by
      rw [List.filterMap_map]
      exact congrArg (List.filterMap · _) (funext hrename)
    _ = code.filterMap g := hessential code

-- Instructions that differ in registers only

/-- The second value has simple values in place of registers of the first one. -/
inductive Value.Alike : Value → Value → Prop
  | refl (v : Value) : Alike v v
  | register (r : Register) {v : Value} : v.isSimple → Alike (.register r) v
  | field {object object' : Value} (owner : TypeName) (name : String) (type : TypeName) :
    Alike object object' → Alike (.field object owner name type) (.field object' owner name type)
  | element {array array' index index' : Value} (type : TypeName) :
    Alike array array' → Alike index index' →
    Alike (.element array index type) (.element array' index' type)

/-- The values of an expression; a bare value is the only one. -/
def Expr.values : Expr → List Value
  | .value v => [v]
  | e => e.operands

/-- The values of an instruction, the target of an assignment first. -/
def Inst.values (i : Inst) : List Value :=
  i.operands.flatMap Expr.values

/-- The instruction without its values: what it does, and all its labels, names and types. -/
def Inst.form (i : Inst) : Inst :=
  i.mapValues fun _ => .constant .null

/-- Instructions that are the same but for simple values in place of registers. -/
def Inst.Alike (i j : Inst) : Prop :=
  i.form = j.form ∧ List.Forall₂ Value.Alike i.values j.values

theorem Replaces.value_alike (hf : Replaces f) (v : Value)
    : v.Alike (v.mapLeaves f) := by
  induction v with
  | register r => exact .register r (hf.register r)
  | field object owner name type ih => exact .field owner name type ih
  | element array index type iha ihi => exact .element type iha ihi
  | staticField owner name type => exact .refl _
  | this type => simpa [Value.mapLeaves, hf.this] using Value.Alike.refl _
  | argument a => simpa [Value.mapLeaves, hf.argument] using Value.Alike.refl _
  | constant c => simpa [Value.mapLeaves, hf.constant] using Value.Alike.refl _

theorem Expr.values_mapValues (f : Value → Value) (e : Expr)
    : (e.mapValues f).values = e.values.map f := by
  cases e <;> simp [Expr.mapValues, Expr.values, Expr.operands, BinaryExpr.mapValues]

theorem Inst.values_mapValues (f : Value → Value) (i : Inst)
    : (i.mapValues f).values = i.values.map f := by
  simp only [values, operands_mapValues, List.flatMap_map, List.map_flatMap,
    Expr.values_mapValues]

theorem Replaces.alike (hf : Replaces f) (i : Inst)
    : i.Alike (i.rename f) := by
  constructor
  · simp only [form, rename, mapValues_mapValues, Function.comp_def]
  · rw [rename, values_mapValues, List.forall₂_map_right_iff, List.forall₂_same]
    exact fun v _ => hf.value_alike v

-- Simplification

/-- Simplification keeps all essential instructions in their order. It replaces registers by simple
values in them, the same register by the same value everywhere, and changes nothing else. So it
keeps the labels, and the targets of all jumps.
-/
theorem simplification_keeps_computations {limit : Nat} {code : List Inst} {result : Simplified}
    (simplified : simplifyWithin? limit code = some result)
    : (∃ f, Replaces f ∧ result.code.filter isEssential
          = (code.filter isEssential).map (rename f))
      ∧ List.Forall₂ Alike (code.filter isEssential)
          (result.code.filter isEssential)
      ∧ result.code.filterMap label? = code.filterMap label?
      ∧ (result.code.filter isBranching).map targets
        = (code.filter isBranching).map targets := by
  obtain ⟨removals, passes⟩ := Reduces.simplifyRounds? simplified
  obtain ⟨f, hf, hkept⟩ := passes.filter_isEssential
  refine ⟨⟨f, hf, hkept⟩, ?_, ?_, ?_⟩
  · rw [hkept, List.forall₂_map_right_iff, List.forall₂_same]
    exact fun i _ => hf.alike i
  · refine filterMap_eq_of_essential (fun _ _ => rfl) (fun i => ?_) hkept
    cases i <;> rfl
  · simp only [← List.filterMap_eq_map, List.filterMap_filter]
    refine filterMap_eq_of_essential (fun _ _ => rfl) (fun i => ?_) hkept
    simp only [Function.comp_apply, targets_rename]
    cases i <;> rfl

/-- Stores a register in a static field, passes it to a method, and jumps back. -/
def storeAndUse (n : Nat) : List Inst :=
  [.assign (.staticField ⟨"Foo"⟩ "x" .int) (.value (.register (.fresh n .int))), useOf n,
    .jump ⟨0⟩]

/-- A result that is copied before it is stored. -/
def copiedResult : List Inst :=
  .label ⟨0⟩ :: callInto 0
    :: .assign (.register (.fresh 1 .int)) (.value (.register (.fresh 0 .int))) :: storeAndUse 1

theorem copied_result_keeps_computations
    : simplifyWithin? 3 copiedResult = some ⟨.label ⟨0⟩ :: callInto 0 :: storeAndUse 0, 2⟩
      ∧ List.Forall₂ Alike (.label ⟨0⟩ :: callInto 0 :: storeAndUse 1)
          (.label ⟨0⟩ :: callInto 0 :: storeAndUse 0) := by
  have simplified : simplifyWithin? 3 copiedResult
      = some ⟨.label ⟨0⟩ :: callInto 0 :: storeAndUse 0, 2⟩ := by decide +kernel
  exact ⟨simplified, (simplification_keeps_computations simplified).2.1⟩

end StackLift
