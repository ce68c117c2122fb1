import StackLift.Ir.CodeLabel
import StackLift.Ir.Expr

/-! Instructions of register code. -/

namespace StackLift

/-- A range of instructions whose exceptions of one type a handler accepts. -/
structure CatchEntry where
  accepted : TypeName
  start : CodeLabel
  stop : CodeLabel
deriving DecidableEq

inductive Inst where
  | assign (target : Value) (source : Expr)
  | enterMonitor (monitor : Value)
  | exitMonitor (monitor : Value)
  | call (call : Call)
  | label (label : CodeLabel)
  | line (number : Nat) (start : CodeLabel)
  | returns (value : Option Value)
  | throws (exception : Value)
  /-- The start of a handler, which binds the exception. -/
  | catches (exception : Value) (handler : CodeLabel) (entries : List CatchEntry)
  | jump (target : CodeLabel)
  | branch (condition : BinaryExpr) (onTrue onFalse : CodeLabel)
  | switch (key : Value) (cases : List (Value × CodeLabel)) (default : CodeLabel)
deriving DecidableEq

namespace Inst

/-- Jumps, branches and switches. -/
def isBranching : Inst → Bool
  | .jump _ | .branch .. | .switch .. => true
  | _ => false

/-- Returns and throws. -/
def isTerminating : Inst → Bool
  | .returns _ | .throws _ => true
  | _ => false

/-- Labels and line marks, which do not execute. -/
def isMarker : Inst → Bool
  | .label _ | .line .. => true
  | _ => false

def isCatch : Inst → Bool
  | .catches .. => true
  | _ => false

def label? : Inst → Option CodeLabel
  | .label l => some l
  | _ => none

/-- The two sides of an assignment. -/
def assign? : Inst → Option (Value × Expr)
  | .assign target source => some (target, source)
  | _ => none

/-- The labels an instruction may jump to, the default of a switch last. -/
def targets : Inst → List CodeLabel
  | .jump target => [target]
  | .branch _ onTrue onFalse => [onTrue, onFalse]
  | .switch _ cases default => cases.map Prod.snd ++ [default]
  | _ => []

/-- The operands of an instruction, the target of an assignment first. -/
def operands : Inst → List Expr
  | .assign target source => [.value target, source]
  | .enterMonitor monitor | .exitMonitor monitor => [.value monitor]
  | .call c => c.operands.map .value
  | .label _ | .line .. | .jump _ => []
  | .returns value => value.toList.map .value
  | .throws exception => [.value exception]
  | .catches exception _ _ => [.value exception]
  | .branch condition _ _ => [.value condition.left, .value condition.right]
  | .switch key cases _ => .value key :: cases.map fun c => .value c.1

/-- All values of an instruction, the outer ones first. -/
def subvalues (i : Inst) : List Value :=
  i.operands.flatMap Expr.subvalues

def mapValues (f : Value → Value) : Inst → Inst
  | .assign target source => .assign (f target) (source.mapValues f)
  | .enterMonitor monitor => .enterMonitor (f monitor)
  | .exitMonitor monitor => .exitMonitor (f monitor)
  | .call c => .call (c.mapValues f)
  | .label l => .label l
  | .line number start => .line number start
  | .returns value => .returns (value.map f)
  | .throws exception => .throws (f exception)
  | .catches exception handler entries => .catches (f exception) handler entries
  | .jump target => .jump target
  | .branch condition onTrue onFalse => .branch (condition.mapValues f) onTrue onFalse
  | .switch key cases default =>
    .switch (f key) (cases.map fun c => (f c.1, c.2)) default

def anonymous (i : Inst) : Inst :=
  i.mapValues Value.anonymous

/-- Instructions that differ at most in display names and origins. -/
def Same (i j : Inst) : Prop :=
  i.anonymous = j.anonymous

instance (i j : Inst) : Decidable (i.Same j) :=
  inferInstanceAs (Decidable (_ = _))

end Inst

/-- Codes whose instructions differ at most in display names and origins. -/
def SameCode (code other : List Inst) : Prop :=
  code.map Inst.anonymous = other.map Inst.anonymous

instance (code other : List Inst) : Decidable (SameCode code other) :=
  inferInstanceAs (Decidable (_ = _))

end StackLift
