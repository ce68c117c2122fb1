import StackLift.Lift.State

/-!
Labels, at which control flow joins and handlers start. A slot or stack entry that holds the same
value on every way into a join keeps it, and every other one gets a fresh register, into which the
predecessors copy their values.
-/

namespace StackLift

/-- The value on which all values of a list agree. -/
def agreed? : List Value → Option Value
  | [] => none
  | v :: rest => if rest.all fun w => w.Same v then some v else none

/-- The least upper bound of the types in a list. -/
def TypeName.lubAll : List TypeName → Option TypeName
  | [] => none
  | t :: rest => some (rest.foldl TypeName.lub t)

/-- The type of a slot at a join, if all frames define the slot. If their types have a join, the
type of the variable that covers the node wins over it.
-/
def Plan.mergedType? (p : Plan) (frames : List Frame) (node slot : Nat) : Option TypeName :=
  match frames.mapM fun f => f.local? slot with
  | none => none
  | some values =>
    let type := TypeName.lubAll (values.map Value.type)
    if type = some .top then none
    else (((p.variableAt? slot node).map Variable.type).or type).filter (· ≠ .top)

namespace LiftM

/-- The merged value of a place: the value on which the frames agree, if all of them are known, and
else a fresh register.
-/
def mergePlace (node : Nat) (place : Place) (type : TypeName) (agreed : Option Value) :
    LiftM Value := do
  match agreed with
  | some value => return value
  | none =>
    let target ← freshRegister type
    modify fun s => { s with merges := s.merges ++ [{ node, place, target }] }
    return .register target

/-- Merges an entry of the operand stack, counted from the bottom. -/
def mergeStackEntry (node : Nat) (frames : List Frame) (allKnown : Bool) (index : Nat) :
    LiftM Value := do
  let values := frames.filterMap fun f => Place.value? f (.stack index)
  let type := (TypeName.lubAll (values.map Value.type)).getD .top
  if type = .top then
    throw (.incompatibleStackTypes node (values.map Value.type))
  else
    mergePlace node (.stack index) type (if allKnown then agreed? values else none)

/-- Merges a slot. A slot that the stack map frame after the node does not declare is dropped, and
so is one without a common type.
-/
def mergeSlot (p : Plan) (node : Nat) (frames : List Frame) (allKnown : Bool) (slot : Nat) :
    LiftM (Option Value) := do
  let declared := p.typesAfter? node
  if declared.any fun d => !d.declares slot then
    return none
  else
    match p.mergedType? frames node slot with
    | none => return none
    | some type =>
      let agreed := if allKnown then agreed? (frames.filterMap fun f => f.local? slot) else none
      if agreed.isNone && type = .null && declared.isNone then
        throw (.untypedNull node slot)
      else
        some <$> mergePlace node (.slot slot) type agreed

/-- The smallest number in a list. -/
def smallest : List Nat → Nat
  | [] => 0
  | n :: rest => rest.foldl min n

/-- Merges the frames of the predecessors of a node. A handler has no use for their stacks. -/
def mergeFrames (p : Plan) (node : Nat) (predecessors : List Nat) (isHandler : Bool) :
    LiftM Frame := do
  let s ← get
  let frames := predecessors.filterMap s.frameOf?
  if frames.isEmpty then
    throw (.frameOutOfOrder node)
  let allKnown := frames.length = predecessors.length
  let height := if isHandler then 0 else smallest (frames.map fun f => f.stack.length)
  let stack ← (List.range height).mapM (mergeStackEntry node frames allKnown)
  let slots := smallest (frames.map fun f => f.locals.length)
  let locals ← (List.range slots).mapM (mergeSlot p node frames allKnown)
  return { locals := trimLocals locals, stack := stack.reverse }

-- Handlers

/-- The type of the exceptions that an entry of the exception table accepts. -/
def acceptedType (r : ProtectedRange) : TypeName :=
  (r.catchType.map TypeName.ofClass).getD .throwable

/-- The type of the exceptions that reach a handler: the catch type of its entries if they agree. -/
def caughtType : List ProtectedRange → TypeName
  | [] => .throwable
  | first :: rest =>
    match first.catchType with
    | some name => if rest.all (·.catchType = some name) then .ofClass name else .throwable
    | none => .throwable

/-- The label of a bound of a protected range. A bound that cannot be reached gets a fresh label at
its place.
-/
def rangeLabel (p : Plan) (label : Label) : LiftM CodeLabel := do
  match (← get).labels.lookup label with
  | some l => return l
  | none =>
    let node ← MethodGraph.lookUp p.places label
    let l ← freshLabel
    emit node (.label l)
    modify fun s => { s with labels := (label, l) :: s.labels }
    return l

/-- The code at the start of a handler, which gives the register of the exception. -/
def startHandler (p : Plan) (node : Nat) (handler : CodeLabel) (ranges : List ProtectedRange) :
    LiftM Register := do
  let register ← freshRegister (caughtType ranges)
  let entries ← ranges.mapM fun r => do
    let start ← rangeLabel p r.start
    let stop ← rangeLabel p r.stop
    return { accepted := acceptedType r, start, stop }
  emit node (.catches (.register register) handler entries)
  return register

/-- The entries of the exception table that a node handles. -/
def handledRanges (p : Plan) (node : Nat) : List ProtectedRange :=
  ((p.graph.handlers.lookup node).getD []).filterMap fun index => p.method.ranges[index]?

/-- The frame at a label: that of the only predecessor, or the merged frames of all. -/
def joinedFrame (p : Plan) (node : Nat) (isHandler : Bool) : LiftM Frame := do
  let predecessors := p.graph.graph.predecessors node
  let s ← get
  match predecessors with
  | [u] =>
    match s.frameOf? u with
    | some f => return f
    | none => mergeFrames p node predecessors isHandler
  | _ => mergeFrames p node predecessors isHandler

/-- Simulates a label. In a handler the exception is the only entry of the stack. -/
def simulateLabel (p : Plan) (node : Nat) (label : Label) : LiftM Frame := do
  let l ← labelOf label
  emit node (.label l)
  match handledRanges p node with
  | [] => joinedFrame p node false
  | ranges =>
    let register ← startHandler p node l ranges
    let f ← joinedFrame p node true
    return { f with stack := [.register register] }

end LiftM

end StackLift
