import StackLift.Flow.Hierarchy
import StackLift.Ir.Inst

/-!
The types of the exceptions that an instruction may raise. The answer is careful: a call may raise
run-time exceptions and errors beside what its method declares, and a call of an unknown method may
raise anything.
-/

namespace StackLift

/-- Reading or writing a field or an array element. -/
def Value.raised : Value → List TypeName
  | .staticField .. | .field .. => [.nullPointerException]
  | .element .. => [.nullPointerException, .indexOutOfBoundsException]
  | _ => []

def Call.raised (h : Hierarchy) : Call → List TypeName
  | .dynamic c => if c.isLambda then [.runtimeException, .error] else [.throwable]
  | .method c =>
    match h.methodExceptions c.owner { name := c.name, arguments := c.argumentTypes } with
    | .ok declared => .runtimeException :: .error :: declared
    | .error _ => [.throwable]

def Expr.raised (h : Hierarchy) : Expr → List TypeName
  | .binary e => if e.op = .div || e.op = .rem then [.arithmeticException] else []
  | .length _ => [.nullPointerException]
  | .cast type _ => if type.isPrimitive then [] else [.classCastException]
  | .new _ => [.error]
  | .newArray .. => [.negativeArraySizeException]
  | .call c => c.raised h
  | .value v => v.raised
  | .negate .. | .instanceOf .. => []

/-- The types without repeats, in the order in which they were found. -/
def Inst.raised (h : Hierarchy) (i : Inst) : List TypeName :=
  let types := match i with
    | .assign target source => target.raised ++ source.raised h
    | .exitMonitor _ => [.nullPointerException]
    | .call c => c.raised h
    | .throws exception => [exception.type, .nullPointerException]
    | _ => []
  types.eraseDups

end StackLift
