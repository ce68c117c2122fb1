import StackLift.Lift.Code

/-! What instructions do to control, whatever their values are. -/

namespace StackLift

inductive Control where
  /-- Control goes straight on. -/
  | step
  /-- Control leaves the method. -/
  | exit
  | jumps (targets : List CodeLabel)
  | label (label : CodeLabel)
  | line (start : CodeLabel)
  | catches (handler : CodeLabel) (entries : List CatchEntry)
deriving DecidableEq

namespace Control

/-- Labels and line marks, which do not execute. -/
def isMarker : Control → Bool
  | .label _ | .line _ => true
  | _ => false

def isJump : Control → Bool
  | .jumps _ => true
  | _ => false

def label? : Control → Option CodeLabel
  | .label l => some l
  | _ => none

def targets : Control → List CodeLabel
  | .jumps targets => targets
  | _ => []

/-- All labels that are named, but not placed. -/
def named : Control → List CodeLabel
  | .jumps targets => targets
  | .line start => [start]
  | .catches handler entries => handler :: entries.flatMap fun e => [e.start, e.stop]
  | _ => []

end Control

namespace Inst

def control : Inst → Control
  | .assign .. | .enterMonitor _ | .exitMonitor _ | .call _ => .step
  | .returns _ | .throws _ => .exit
  | .label l => .label l
  | .line _ start => .line start
  | .catches _ handler entries => .catches handler entries
  | .jump target => .jumps [target]
  | .branch _ onTrue onFalse => .jumps [onTrue, onFalse]
  | .switch _ cases default => .jumps (cases.map Prod.snd ++ [default])

variable (i : Inst)

@[simp]
theorem control_mapValues (f : Value → Value)
    : (i.mapValues f).control = i.control := by
  cases i <;> simp [control, mapValues]

@[simp]
theorem control_markResult
    : i.markResult.control = i.control := by
  unfold markResult
  split <;> rfl

theorem isMarker_control
    : i.control.isMarker = i.isMarker := by
  cases i <;> rfl

theorem isJump_control
    : i.control.isJump = i.isBranching := by
  cases i <;> rfl

theorem isExit_control
    : i.control = .exit ↔ i.isTerminating = true := by
  cases i <;> simp [control, isTerminating]

theorem targets_control
    : i.control.targets = i.targets := by
  cases i <;> rfl

theorem control_eq_label {c : CodeLabel}
    : i.control = .label c ↔ i = .label c := by
  cases i <;> simp [control]

end Inst

end StackLift
