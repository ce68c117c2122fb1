import StackLift.Proofs.CopySequences
import StackLift.Proofs.DefiniteAssignment
import StackLift.Proofs.FrameMatching

/-!
Runs of register code piece by piece, under the meaning that the stack machine gives to operators
and conditions. The names and kinds of registers do not matter to a run.
-/

namespace StackLift

open StackMachine

namespace RegisterMachine

variable {D : Type} {I : Interpretation D} {code rest : List Inst} {s t u : State D}
  {registers : RegisterFile D} {i : Inst} {g : Inst → Inst}

-- Steps

/-- A run of the code goes from the first state to the second. -/
def Runs (I : Interpretation D) (code : List Inst) (s t : State D) : Prop :=
  ∃ steps, (State.next I code)^[steps] s = t

namespace Runs

theorem refl (s : State D)
    : Runs I code s s :=
  ⟨0, rfl⟩

theorem trans (h : Runs I code s t) (h' : Runs I code t u)
    : Runs I code s u := by
  obtain ⟨m, rfl⟩ := h
  obtain ⟨n, rfl⟩ := h'
  exact ⟨n + m, Function.iterate_add_apply ..⟩

theorem proceed {written : Option (RegisterKey × D)}
    (h : I.effect [] registers i = .proceed [] written)
    : Runs I code (.start (i :: rest) registers) (.start rest (registers.write written)) := by
  refine ⟨1, ?_⟩
  show (State.start (i :: rest) registers).after code rest (I.effect [] registers i) = _
  rw [h]
  rfl

theorem jump {c : CodeLabel} (h : I.effect [] registers i = .jump c)
    : Runs I code (.start (i :: rest) registers) (.start (codeAt code c) registers) := by
  refine ⟨1, ?_⟩
  show (State.start (i :: rest) registers).after code rest (I.effect [] registers i) = _
  rw [h]
  rfl

/-- A run that comes to an instruction which ends it shows the outcome. -/
theorem shows {first : RegisterFile D} {outcome : Outcome D}
    (h : Runs I code (.start code first) (.start (i :: rest) registers))
    (hstop : I.effect [] registers i = .stop outcome)
    : Shows I code first [] (some outcome) := by
  obtain ⟨steps, hsteps⟩ := h
  refine ⟨steps + 1, ?_⟩
  have hnext : runFor I code first (steps + 1)
      = { State.start (i :: rest) registers with outcome := some outcome } := by
    rw [runFor, Function.iterate_succ_apply', hsteps]
    show (State.start (i :: rest) registers).after code rest (I.effect [] registers i) = _
    rw [hstop]
    rfl
  rw [hnext]
  exact ⟨rfl, rfl⟩

/-- Instructions that do nothing. -/
theorem idle {insts : List Inst} (h : ∀ i ∈ insts, I.effect [] registers i = .proceed [] none)
    : Runs I code (.start (insts ++ rest) registers) (.start rest registers) := by
  induction insts with
  | nil => exact refl _
  | cons i insts ih =>
      refine trans (proceed (h i List.mem_cons_self)) ?_
      exact ih fun j hj => h j (List.mem_cons_of_mem i hj)

theorem markers {insts : List Inst} (h : ∀ i ∈ insts, i.isMarker = true)
    : Runs I code (.start (insts ++ rest) registers) (.start rest registers) := by
  refine idle fun i hi => ?_
  have hmarker := h i hi
  cases i <;> first | rfl | cases hmarker

end Runs

-- Names

/-- The changed instruction does what the instruction does. -/
def KeepsEffects (g : Inst → Inst) : Prop :=
  ∀ ⦃D : Type⦄ (I : Interpretation D) (registers : RegisterFile D) (i : Inst),
    I.effect [] registers (g i) = I.effect [] registers i

theorem keepsEffects_rename {f : Value → Value} (hf : Renames f id)
    : KeepsEffects (Inst.rename f) := by
  intro D I registers i
  have heffect : I.effect [] registers (i.rename f) = (I.effect [] registers i).rename id :=
    effect_rename I [] hf fun x _ => rfl
  rw [heffect]
  cases I.effect [] registers i with
  | proceed actions written => cases written <;> rfl
  | jump | stop => rfl

theorem keepsEffects_markResult
    : KeepsEffects Inst.markResult := by
  intro D I registers i
  unfold Inst.markResult
  split <;> rfl

theorem KeepsEffects.comp {g' : Inst → Inst} (h : KeepsEffects g) (h' : KeepsEffects g')
    : KeepsEffects (g ∘ g') :=
  fun _ I registers i => (h I registers (g' i)).trans (h' I registers i)

/-- Without stack map frames the final names and types change no effect. -/
theorem keepsEffects_nameInst {s : LiftState} (h : s.refinements = [])
    : KeepsEffects fun i => s.refinements.inst (s.registers.nameInst i) := by
  have hon : s.refinements.OnRegisters := by
    rw [h]
    exact nofun
  have himage : s.refinements.keyImage = id := by
    rw [h]
    rfl
  have hrefined := keepsEffects_rename (himage ▸ Substitution.renames_leaf hon)
  intro D I registers i
  show I.effect [] registers (s.refinements.inst (s.registers.nameInst i)) = _
  rw [Substitution.inst_eq_rename hon, hrefined]
  exact keepsEffects_rename s.registers.renames_nameLeaf I registers i

/-- Copies are made one after the other. -/
theorem Runs.copies (hg : KeepsEffects g) (copies : List Copy)
    : Runs I code (.start ((copies.map Copy.inst).map g ++ rest) registers)
        (.start rest (I.moves copies registers)) := by
  induction copies generalizing registers with
  | nil => exact refl _
  | cons c copies ih => exact trans (proceed (hg I registers c.inst)) ih

-- The meaning of operators

/-- Register code also takes the inputs of the stack machine. -/
structure Interpretation.Means (I : Interpretation (Datum D)) (M : Meaning D) (m : Method)
    (inputs : Inputs D) : Prop extends I.Follows M where
  receiver : I.receiver = ⟨.reference, inputs.receiver⟩
  argument : ∀ {index type}, m.descriptor.parameters[index]? = some type →
    I.argument index = ⟨type.valueKind, inputs.argument index⟩

def operators : List Operator :=
  [.arithmetic .add, .arithmetic .sub, .arithmetic .mul, .arithmetic .div, .arithmetic .rem,
    .shift .left, .shift .arithmeticRight, .shift .logicalRight, .bitwise .and, .bitwise .or,
    .bitwise .xor, .compareLong, .compareReal .less, .compareReal .greater]

def conversions : List Conversion :=
  [.intToLong, .intToFloat, .intToDouble, .longToInt, .longToFloat, .longToDouble, .floatToInt,
    .floatToLong, .floatToDouble, .doubleToInt, .doubleToLong, .doubleToFloat, .intToByte,
    .intToChar, .intToShort]

def comparisons : List Comparison :=
  [.eq, .ge, .gt, .le, .lt, .ne]

/-- What code without calls, fields and arrays means, with the given constants. -/
def Interpretation.ofMeaning (M : Meaning D) (m : Method) (inputs : Inputs D)
    (constant : Constant → Datum D) : Interpretation (Datum D) :=
  let receiver : Datum D := ⟨.reference, inputs.receiver⟩
  { receiver
    argument := fun index =>
      ⟨(m.descriptor.parameters[index]?).elim .reference FieldType.valueKind, inputs.argument index⟩
    constant
    binary := fun op type d e =>
      ⟨type.kind, (operators.find? (·.symbol = op)).elim d.content (M.binary · d e)⟩
    negate := fun type d => ⟨type.kind, M.negate d⟩
    length := id
    cast := fun type d => ⟨type.kind, (conversions.find? fun c =>
      c.name = type && c.source = d.kind).elim d.content (M.convert · d)⟩
    instanceOf := fun d _ => d
    holds := fun op _ d e => (comparisons.find? (·.symbol = op)).any (M.holds · d e)
    equal := M.holds .eq
    staticField := fun _ _ _ => receiver
    field := fun _ d _ _ => d
    element := fun _ d _ => d
    result := fun _ => receiver }

/-- No two operators have the same symbol, and no two conversions of one kind the same name. -/
theorem Interpretation.means_ofMeaning {M : Meaning D} {m : Method} {inputs : Inputs D}
    {constant : Constant → Datum D}
    (hconstant : ∀ {c : Constant} {k}, c.StandsFor k → constant c = M.datum k)
    : (Interpretation.ofMeaning M m inputs constant).Means M m inputs where
  receiver := rfl
  argument h := by simp [Interpretation.ofMeaning, h]
  constant := hconstant
  binary op type d e := by
    have hfound : operators.find? (·.symbol = op.symbol) = some op := by
      rcases op with op | op | op | _ | mode
      all_goals first | rfl | (cases op <;> rfl) | (cases mode <;> rfl)
    simp only [Interpretation.ofMeaning, hfound, Option.elim_some]
  negate _ _ := rfl
  cast c d hkind := by
    have hfound : conversions.find? (fun k => k.name = c.name && k.source = c.source) = some c := by
      cases c <;> rfl
    simp only [Interpretation.ofMeaning, hkind, hfound, Option.elim_some, c.hasKind_name.eq]
  holds c type d e := by
    cases c <;> rfl
  equal _ _ := rfl

end RegisterMachine

open RegisterMachine

section

variable {D : Type} {I : Interpretation (Datum D)} {M : Meaning D} {m : Method} {inputs : Inputs D}
  {registers : RegisterFile (Datum D)} {insts : List Inst} {g : Inst → Inst}

theorem RegisterMachine.Interpretation.expr?_eval {e : Expr} (he : e.isComputed = true)
    : I.expr? (I.eval [] registers) e = some (I.evalExpr [] registers e) := by
  cases e <;> first | rfl | cases he

theorem assigned_update (I : Interpretation (Datum D)) (registers : RegisterFile (Datum D))
    (r : Register) (d : Datum D)
    : Assigned (I.eval [] registers) r d (I.eval [] (Function.update registers r.key d)) where
  target := Function.update_self ..
  other hsimple hne := RepeatedCopies.eval_update_of_not_same I [] [] registers hsimple hne d

/-- Code that only computes runs to its end, and leaves what it does not assign. -/
theorem Computing.runs (h : Computing insts) (I : Interpretation (Datum D)) (hg : KeepsEffects g)
    : ∃ registers',
        (∀ code rest, Runs I code (.start (insts.map g ++ rest) registers) (.start rest registers'))
        ∧ Evaluates I (I.eval [] registers) insts (I.eval [] registers')
        ∧ ∀ x, x ∉ assignedIn insts → registers' x = registers x := by
  induction h generalizing registers with
  | nil => exact ⟨registers, fun _ _ => .refl _, .nil, fun _ _ => rfl⟩
  | @assign r e insts he _ ih =>
      have hactions : I.actions [] registers e = [] := by
        cases e <;> first | rfl | cases he
      have heffect : I.effect [] registers (g (.assign (.register r) e))
          = .proceed [] (some (r.key, I.evalExpr [] registers e)) := by
        rw [hg, Interpretation.effect, Interpretation.assign, hactions]
      obtain ⟨registers', hruns, hevaluates, hkept⟩ :=
        @ih (Function.update registers r.key (I.evalExpr [] registers e))
      refine ⟨registers', fun code rest => .trans (.proceed heffect) (hruns code rest),
        .assign (Interpretation.expr?_eval he) (assigned_update I registers r _) hevaluates,
        fun x hx => ?_⟩
      have hrest : x ∉ assignedIn insts := by
        rintro ⟨i, hi, hassigned⟩
        exact hx ⟨i, List.mem_cons_of_mem _ hi, hassigned⟩
      rw [hkept x hrest]
      refine Function.update_of_ne ?_ _ _
      rintro rfl
      exact hx ⟨_, List.mem_cons_self, rfl⟩

end

end StackLift
