import StackLift.Lift.State

/-! The copies into the registers that were made at joins. -/

namespace StackLift

/-- Does the value occur in another one? -/
def Value.occursIn (target value : Value) : Bool :=
  value.subvalues.any fun v => v.Same target

-- Inserting a copy

/-- Adds a copy before the last instruction. -/
def beforeLast (copy : Inst) (code : List Inst) : List Inst :=
  code.take (code.length - 1) ++ copy :: code.drop (code.length - 1)

/-- Adds a copy before a jump. If the condition of the jump or the key of the switch reads the
target of the copy, a fresh register saves what it reads before any other code of the node.
-/
def beforeJump (rs : Registers) (target : Value) (copy : Inst) (before : List Inst) (jump : Inst)
    (after : List Inst) : List Inst × Registers :=
  match jump with
  | .switch key cases default =>
    if target.occursIn key then
      let (register, rs) := rs.fresh key.type
      let (save, rs) := rs.assign (.register register) (.value key)
      (save :: before ++ copy :: .switch (.register register) cases default :: after, rs)
    else
      (before ++ copy :: jump :: after, rs)
  | .branch condition onTrue onFalse =>
    if target.occursIn condition.left || target.occursIn condition.right then
      let (register, rs) := rs.fresh target.type
      let (save, rs) := rs.assign (.register register) (.value target)
      let saved : Substitution := ValueMap.insert [] target (.register register)
      (save :: before ++ copy :: saved.inst (.branch condition onTrue onFalse) :: after, rs)
    else
      (before ++ copy :: jump :: after, rs)
  | _ => (before ++ copy :: jump :: after, rs)

/-- Adds a copy to the code of a node, before any jump out of it. -/
def insertCopy (rs : Registers) (node : Option Node) (target source : Value) (code : List Inst) :
    List Inst × Registers :=
  let (copy, rs) := rs.assign target (.value source)
  match node with
  | none => (code ++ [copy], rs)
  | some node =>
    if node.isTerminal then
      (beforeLast copy code, rs)
    else if node.isBranching then
      match code.dropWhile fun i => !i.isBranching with
      | [] => (code ++ [copy], rs)
      | jump :: after =>
        beforeJump rs target copy (code.takeWhile fun i => !i.isBranching) jump after
    else
      (code ++ [copy], rs)

-- Copies of a join

/-- The nodes that copy one value into a register. -/
structure CopyGroup where
  source : Value
  nodes : List Nat

/-- Adds a node to the group of the value that it copies. -/
def addCopy (groups : List CopyGroup) (node : Nat) (source : Value) : List CopyGroup :=
  match groups with
  | [] => [{ source, nodes := [node] }]
  | g :: rest =>
    if g.source.Same source then { g with nodes := g.nodes ++ [node] } :: rest
    else g :: addCopy rest node source

/-- Does the code assign to the value? -/
def assigns (code : List Inst) (value : Value) : Bool :=
  code.any fun
    | .assign target _ => target.Same value
    | _ => false

namespace LiftM

/-- Copies a value at the end of a node. -/
def copy (p : Plan) (node : Nat) (target source : Value) : LiftM Unit := do
  let s ← get
  let (code, registers) := insertCopy s.registers (p.node? node) target source (s.codeOf node)
  set { s with registers }
  editCode node fun _ => code

/-- Inserts the copies of one value. Where several nodes copy it, only those copy through which
control enters the group, and those that assign the value themselves.
-/
def insertGroup (p : Plan) (target : Value) (group : CopyGroup) : LiftM Unit := do
  match group.nodes with
  | [node] => copy p node target group.source
  | nodes =>
    let starts := p.graph.graph.startNodes nodes
    nodes.forM fun node => do
      if node ∈ starts || assigns ((← get).codeOf node) group.source then
        copy p node target group.source

/-- The copies that the predecessors of a join have to make for one of its registers, grouped by
the value they copy.
-/
def requiredCopies (p : Plan) (m : Merge) : LiftM (List CopyGroup) := do
  let s ← get
  (p.graph.graph.predecessors m.node).foldlM (fun groups u =>
    match s.frameOf? u with
    | none => throw (.frameOutOfOrder u)
    | some f =>
      match m.place.value? f with
      | some source =>
        if source.Same (.register m.target) then return groups
        else return addCopy groups u source
      | none => return groups) []

/-- Inserts the copies for all merged slots, and then those for all merged stack entries. -/
def insertCopies (p : Plan) : LiftM Unit := do
  let merges := (← get).merges
  let ordered :=
    merges.filter (fun m => m.place.isSlot) ++ merges.filter (fun m => !m.place.isSlot)
  ordered.forM fun m => do
    let groups ← requiredCopies p m
    groups.forM (insertGroup p (.register m.target))

end LiftM

end StackLift
