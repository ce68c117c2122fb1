import Mathlib.Logic.Function.Basic
import Mathlib.Logic.Function.Iterate
import StackLift.Ir.Inst

/-!
Runs of register code under any interpretation of its operators, reads and calls. A run records its
observable actions, and the interpretation may make each read and each result depend on all of
them. Codes are compared by the actions and outcomes they show.
-/

namespace StackLift

/-- The index and type of a register, which tell registers apart. -/
abbrev RegisterKey := Nat × TypeName

def Register.key (r : Register) : RegisterKey :=
  (r.index, r.type)

theorem Register.index_eq_of_key {r q : Register} (h : r.key = q.key)
    : r.index = q.index :=
  congrArg Prod.fst h

/-- A call without its operands. -/
def Call.callee (c : Call) : Call :=
  c.mapValues fun _ => .constant .null

/-- The code from the last place of a label on; nothing, if the label is not placed. -/
def codeAt : (code : List Inst) → (l : CodeLabel) → List Inst
  | [], _ => []
  | i :: rest, l =>
    match codeAt rest l with
    | [] => if i = .label l then i :: rest else []
    | later => later

namespace RegisterMachine

/-- What a run does to the world around it, with the values of all operands. -/
inductive Action (D : Type) where
  | invoke (callee : Call) (operands : List D)
  | allocate (type : TypeName) (dimensions : List D)
  | enterMonitor (monitor : D)
  | exitMonitor (monitor : D)
  | storeStatic (owner : TypeName) (name : String) (value : D)
  | storeField (object : D) (owner : TypeName) (name : String) (value : D)
  | storeElement (array index value : D)
deriving DecidableEq

/-- How a run ends. -/
inductive Outcome (D : Type) where
  | returned (value : Option D)
  | thrown (exception : D)
  /-- There is no further instruction. -/
  | exhausted
deriving DecidableEq

/-- The meaning of everything that register code leaves open. Reads of fields and elements, and the
results of calls and allocations, may depend on all actions so far.
-/
structure Interpretation (D : Type) where
  receiver : D
  argument : Nat → D
  constant : Constant → D
  binary : BinaryOp → TypeName → D → D → D
  negate : TypeName → D → D
  length : D → D
  cast : TypeName → D → D
  instanceOf : D → TypeName → D
  /-- The condition of a branch. -/
  holds : BinaryOp → TypeName → D → D → Bool
  /-- Is the key of a switch equal to that of a case? -/
  equal : D → D → Bool
  staticField : List (Action D) → TypeName → String → D
  field : List (Action D) → D → TypeName → String → D
  element : List (Action D) → D → D → D
  /-- The result of the last action. -/
  result : List (Action D) → D

abbrev RegisterFile (D : Type) := RegisterKey → D

variable {D : Type}

def RegisterFile.write (registers : RegisterFile D) : Option (RegisterKey × D) → RegisterFile D
  | some (x, value) => Function.update registers x value
  | none => registers

@[simp] theorem RegisterFile.write_none (registers : RegisterFile D)
    : registers.write none = registers := rfl

@[simp] theorem RegisterFile.write_some (registers : RegisterFile D) (x : RegisterKey) (value : D)
    : registers.write (some (x, value)) = Function.update registers x value := rfl

namespace Interpretation

variable (I : Interpretation D) (history : List (Action D)) (registers : RegisterFile D)

def eval : Value → D
  | .this _ => I.receiver
  | .argument a => I.argument a.index
  | .register r => registers r.key
  | .constant c => I.constant c
  | .staticField owner name _ => I.staticField history owner name
  | .field object owner name _ => I.field history (eval object) owner name
  | .element array index _ => I.element history (eval array) (eval index)

/-- The action of evaluating an expression. -/
def actions : Expr → List (Action D)
  | .new type => [.allocate type []]
  | .newArray type dimensions => [.allocate type (dimensions.map (I.eval history registers))]
  | .call c => [.invoke c.callee (c.operands.map (I.eval history registers))]
  | _ => []

def evalExpr (e : Expr) : D :=
  match e with
  | .binary e =>
    I.binary e.op e.type (I.eval history registers e.left) (I.eval history registers e.right)
  | .negate type operand => I.negate type (I.eval history registers operand)
  | .length array => I.length (I.eval history registers array)
  | .cast type operand => I.cast type (I.eval history registers operand)
  | .instanceOf operand target => I.instanceOf (I.eval history registers operand) target
  | .value v => I.eval history registers v
  | e => I.result (history ++ I.actions history registers e)

end Interpretation

/-- What an instruction does. -/
inductive Effect (D : Type) where
  | proceed (actions : List (Action D)) (written : Option (RegisterKey × D))
  | jump (target : CodeLabel)
  | stop (outcome : Outcome D)

namespace Interpretation

variable (I : Interpretation D) (history : List (Action D)) (registers : RegisterFile D)

/-- The effect of assigning an evaluated expression. The operands of the target are evaluated before
it.
-/
def assign (target : Value) (actions : List (Action D)) (value : D) : Effect D :=
  match target with
  | .register r => .proceed actions (some (r.key, value))
  | .staticField owner name _ => .proceed (actions ++ [.storeStatic owner name value]) none
  | .field object owner name _ =>
    .proceed (actions ++ [.storeField (I.eval history registers object) owner name value]) none
  | .element array index _ =>
    .proceed (actions ++ [.storeElement (I.eval history registers array)
      (I.eval history registers index) value]) none
  | _ => .proceed actions none

def effect : Inst → Effect D
  | .assign target source =>
    I.assign history registers target (I.actions history registers source)
      (I.evalExpr history registers source)
  | .enterMonitor monitor => .proceed [.enterMonitor (I.eval history registers monitor)] none
  | .exitMonitor monitor => .proceed [.exitMonitor (I.eval history registers monitor)] none
  | .call c => .proceed (I.actions history registers (.call c)) none
  | .label _ | .line .. | .catches .. => .proceed [] none
  | .returns value => .stop (.returned (value.map (I.eval history registers)))
  | .throws exception => .stop (.thrown (I.eval history registers exception))
  | .jump target => .jump target
  | .branch condition onTrue onFalse =>
    .jump (if I.holds condition.op condition.type (I.eval history registers condition.left)
      (I.eval history registers condition.right) then onTrue else onFalse)
  | .switch key cases default =>
    .jump (((cases.find? fun c =>
      I.equal (I.eval history registers key) (I.eval history registers c.1)).map Prod.snd).getD
        default)

end Interpretation

structure State (D : Type) where
  /-- The instructions from the next one on. -/
  rest : List Inst
  registers : RegisterFile D
  history : List (Action D)
  /-- Set at the end of the run. -/
  outcome : Option (Outcome D)

namespace State

def start (code : List Inst) (registers : RegisterFile D) : State D :=
  { rest := code, registers, history := [], outcome := none }

/-- The state after an effect of the instruction before the given rest. -/
def after (code rest : List Inst) (s : State D) : Effect D → State D
  | .proceed actions written =>
    { s with
      rest
      registers := s.registers.write written
      history := s.history ++ actions }
  | .jump target => { s with rest := codeAt code target }
  | .stop outcome => { s with outcome := some outcome }

/-- A step of a run; nothing follows the end. -/
def next (I : Interpretation D) (code : List Inst) (s : State D) : State D :=
  match s.outcome, s.rest with
  | some _, _ => s
  | none, [] => { s with outcome := some .exhausted }
  | none, i :: rest => s.after code rest (I.effect s.history s.registers i)

variable {I : Interpretation D} {code : List Inst} {s : State D}

theorem next_of_ended {outcome : Outcome D} (h : s.outcome = some outcome)
    : s.next I code = s := by
  simp only [next, h]

theorem next_of_exhausted (h : s.outcome = none) (hr : s.rest = [])
    : s.next I code = { s with outcome := some .exhausted } := by
  simp only [next, h, hr]

theorem next_of_running {i : Inst} {rest : List Inst} (h : s.outcome = none)
    (hr : s.rest = i :: rest)
    : s.next I code = s.after code rest (I.effect s.history s.registers i) := by
  simp only [next, h, hr]

end State

/-- The state after a number of steps. -/
def runFor (I : Interpretation D) (code : List Inst) (registers : RegisterFile D) (steps : Nat)
    : State D :=
  (State.next I code)^[steps] (.start code registers)

/-- A run of the code comes to the given actions, and to the outcome if one is given. -/
def Shows (I : Interpretation D) (code : List Inst) (registers : RegisterFile D)
    (history : List (Action D)) (outcome : Option (Outcome D)) : Prop :=
  ∃ steps, (runFor I code registers steps).history = history
    ∧ (runFor I code registers steps).outcome = outcome

/-- Nothing follows the end of a run. -/
theorem runFor_of_ended {I : Interpretation D} {code : List Inst} {registers : RegisterFile D}
    {m n : Nat} {outcome : Outcome D} (h : (runFor I code registers m).outcome = some outcome)
    (hle : m ≤ n)
    : runFor I code registers n = runFor I code registers m := by
  induction hle with
  | refl => rfl
  | @step n _ ih =>
      rw [← State.next_of_ended h, ← ih]
      exact Function.iterate_succ_apply' _ _ _

/-- A run comes to one outcome at most. -/
theorem Shows.unique {I : Interpretation D} {code : List Inst} {registers : RegisterFile D}
    {history history' : List (Action D)} {outcome outcome' : Outcome D}
    (h : Shows I code registers history (some outcome))
    (h' : Shows I code registers history' (some outcome'))
    : history = history' ∧ outcome = outcome' := by
  obtain ⟨m, rfl, hm⟩ := h
  obtain ⟨n, rfl, hn⟩ := h'
  have heq : runFor I code registers m = runFor I code registers n := by
    rcases Nat.le_total m n with hle | hle
    · exact (runFor_of_ended hm hle).symm
    · exact runFor_of_ended hn hle
  rw [heq] at hm
  exact ⟨by rw [heq], Option.some.inj (hm.symm.trans hn)⟩

/-- Whatever the interpretation and the initial registers, runs of both codes show the same actions
and come to the same outcome, if any.
-/
def SameBehaviour (code other : List Inst) : Prop :=
  ∀ (D : Type) (I : Interpretation D) (registers registers' : RegisterFile D)
    (history : List (Action D)) (outcome : Option (Outcome D)),
    Shows I code registers history outcome ↔ Shows I other registers' history outcome

theorem SameBehaviour.trans {code middle other : List Inst}
    (hl : SameBehaviour code middle) (hr : SameBehaviour middle other)
    : SameBehaviour code other := by
  intro D I registers registers' history outcome
  exact (hl D I registers registers history outcome).trans
    (hr D I registers registers' history outcome)

-- Simulation

/-- Related states have shown the same, and stay related, whether only the first code takes a step,
which brings it nearer to its end, or both do.
-/
structure Simulation (I : Interpretation D) (code other : List Inst)
    (Related : State D → State D → Prop) : Prop where
  history : ∀ {s t}, Related s t → s.history = t.history
  outcome : ∀ {s t}, Related s t → s.outcome = t.outcome
  step : ∀ {s t}, Related s t →
    (Related (s.next I code) t ∧ (s.next I code).rest.length < s.rest.length)
      ∨ Related (s.next I code) (t.next I other)

namespace Simulation

variable {I : Interpretation D} {code other : List Inst} {Related : State D → State D → Prop}

/-- Every state of the first run is related to one of the second. -/
theorem forward (sim : Simulation I code other Related) {s t : State D} (h : Related s t) (n : Nat)
    : ∃ m, Related ((State.next I code)^[n] s) ((State.next I other)^[m] t) := by
  induction n generalizing s t with
  | zero => exact ⟨0, h⟩
  | succ n ih =>
      rcases sim.step h with ⟨hs, -⟩ | hb
      · exact ih hs
      · obtain ⟨m, hm⟩ := ih hb
        exact ⟨m + 1, hm⟩

/-- The first run comes to a state that is related to the next one of the second, by induction on
the steps it may take alone.
-/
theorem catch_up (sim : Simulation I code other Related) {s t : State D} (h : Related s t)
    : ∃ m, Related ((State.next I code)^[m] s) (t.next I other) := by
  rcases sim.step h with ⟨hs, hlt⟩ | hb
  · obtain ⟨m, hm⟩ := sim.catch_up hs
    exact ⟨m + 1, hm⟩
  · exact ⟨1, hb⟩
termination_by s.rest.length

/-- Every state of the second run is related to one of the first. -/
theorem backward (sim : Simulation I code other Related) {s t : State D} (h : Related s t)
    (n : Nat)
    : ∃ m, Related ((State.next I code)^[m] s) ((State.next I other)^[n] t) := by
  induction n generalizing s t with
  | zero => exact ⟨0, h⟩
  | succ n ih =>
      obtain ⟨k, hk⟩ := sim.catch_up h
      obtain ⟨m, hm⟩ := ih hk
      exact ⟨m + k, by rw [Function.iterate_add_apply]; exact hm⟩

/-- Codes whose initial states are related show the same. -/
theorem shows_iff (sim : Simulation I code other Related)
    {registers registers' : RegisterFile D}
    (h : Related (.start code registers) (.start other registers'))
    (history : List (Action D)) (outcome : Option (Outcome D))
    : Shows I code registers history outcome ↔ Shows I other registers' history outcome := by
  constructor
  · rintro ⟨n, rfl, rfl⟩
    obtain ⟨m, hm⟩ := sim.forward h n
    exact ⟨m, (sim.history hm).symm, (sim.outcome hm).symm⟩
  · rintro ⟨n, rfl, rfl⟩
    obtain ⟨m, hm⟩ := sim.backward h n
    exact ⟨m, sim.history hm, sim.outcome hm⟩

end Simulation

end RegisterMachine

end StackLift
