import StackLift.Ir.Inst
import StackLift.Number.Decimal
import StackLift.Text.Layout
import StackLift.Text.Quoted

/-! The text of register code. -/

namespace StackLift

open Text (commaSeparated applied)

/-- The signature of a method type: argument types in parentheses and the result type. -/
def renderMethodType (arguments : List TypeName) (result : TypeName) : String :=
  applied "" (arguments.map TypeName.text) ++ ":" ++ result.text

/-- A character constant is any sixteen-bit unit; surrogates are written by their number. -/
def renderUnit (unit : UInt16) : String :=
  if unit.toNat.isValidChar then Text.quotedChar (Char.ofNat unit.toNat)
  else "'\\u" ++ Text.hexadecimal unit.toNat ++ "'"

def Constant.render : Constant → String
  | .bool value => toString value
  | .byte value => toString value.toInt
  | .char unit => renderUnit unit
  | .short value => toString value.toInt
  | .int value => toString value.toInt
  | .long value => toString value.toInt
  | .float value => value.render
  | .double value => value.render
  | .null => "null"
  | .string text => Text.quoted text
  | .classRef type => type.text ++ ".class"
  | .method owner name arguments result =>
    owner.text ++ "::" ++ name ++ renderMethodType arguments result
  | .methodType arguments result => renderMethodType arguments result

def Value.render : Value → String
  | .this _ => "this"
  | .argument a => a.name
  | .register r => r.name
  | .constant c => c.render
  | .staticField owner name _ => owner.text ++ "." ++ name
  | .field object _ name _ => object.render ++ "." ++ name
  | .element array index _ => array.render ++ "[" ++ index.render ++ "]"

def BinaryOp.symbol : BinaryOp → String
  | .add => "+"
  | .and => "&"
  | .cmp => "cmp"
  | .cmpg => "cmpg"
  | .cmpl => "cmpl"
  | .div => "/"
  | .mul => "*"
  | .eq => "=="
  | .neq => "!="
  | .ge => ">="
  | .gt => ">"
  | .le => "<="
  | .lt => "<"
  | .or => "|"
  | .rem => "%"
  | .shl => "<<"
  | .shr => ">>"
  | .sub => "-"
  | .ushr => "u<<"
  | .xor => "^"

def BinaryExpr.render (e : BinaryExpr) : String :=
  e.left.render ++ " " ++ e.op.symbol ++ " " ++ e.right.render

def BootstrapHandle.render (handle : BootstrapHandle) : String :=
  handle.owner.text ++ "::" ++ handle.name

def BootstrapArgument.render : BootstrapArgument → String
  | .constant c => c.render
  | .type t => t.text ++ ".class"
  | .methodType arguments result => renderMethodType arguments result
  | .handle h => h.render

def Call.render : Call → String
  | .method c =>
    let receiver := (c.receiver.map Value.render).getD c.owner.text
    applied (receiver ++ "." ++ c.name) (c.arguments.map Value.render)
  | .dynamic c =>
    applied
        ("invokedynamic " ++ c.name
          ++ Text.bracketed (c.bootstrapArguments.map BootstrapArgument.render))
        (c.arguments.map Value.render)
      ++ " via " ++ c.bootstrap.render

/-- The number of pairs of brackets in a type name. -/
def countBrackets : List Char → Nat
  | '[' :: ']' :: rest => countBrackets rest + 1
  | _ :: rest => countBrackets rest
  | [] => 0

/-- Drops the pairs of brackets at the front of a reversed type name. -/
def dropBrackets : List Char → List Char
  | ']' :: '[' :: rest => dropBrackets rest
  | text => text

/-- A new array: its dimensions stand in brackets, and the dimensions without length follow. -/
def renderNewArray (type : TypeName) (dimensions : List Value) : String :=
  let base := String.ofList (dropBrackets type.text.toList.reverse).reverse
  "new " ++ base
    ++ String.join (dimensions.map fun d => "[" ++ d.render ++ "]")
    ++ String.join (List.replicate (countBrackets type.text.toList - dimensions.length) "[]")

def Expr.render : Expr → String
  | .binary e => e.render
  | .negate _ operand => "-" ++ operand.render
  | .length array => array.render ++ ".length"
  | .cast type operand => "(" ++ type.text ++ ") " ++ operand.render
  | .instanceOf operand target => operand.render ++ " instanceof " ++ target.text
  | .new type => "new " ++ type.text
  | .newArray type dimensions => renderNewArray type dimensions
  | .call c => c.render
  | .value v => v.render

def Inst.render : Inst → String
  | .assign target source => target.render ++ " = " ++ source.render
  | .enterMonitor monitor => "enter monitor " ++ monitor.render
  | .exitMonitor monitor => "exit monitor " ++ monitor.render
  | .call c => c.render
  | .label l => "label " ++ l.render ++ ":"
  | .line number _ => "line number " ++ toString number ++ ":"
  | .returns none => "return"
  | .returns (some value) => "return " ++ value.render
  | .throws exception => "throw " ++ exception.render
  | .catches exception _ _ => "catch (" ++ exception.render ++ ": " ++ exception.type.text ++ ")"
  | .jump target => "goto " ++ target.render
  | .branch condition onTrue onFalse =>
    "if (" ++ condition.render ++ ") goto " ++ onTrue.render ++ " else " ++ onFalse.render
  | .switch key cases default =>
    "switch (" ++ key.render ++ ") \x7b "
      ++ String.join (cases.map fun c => c.1.render ++ " -> " ++ c.2.render ++ " ")
      ++ "else -> " ++ default.render ++ " \x7d"

end StackLift
