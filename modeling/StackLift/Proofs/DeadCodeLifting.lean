import StackLift.Proofs.DeadCode
import StackLift.Proofs.RegisterTyping
import StackLift.Proofs.SoundPlan

/-!
Lifting looks at live nodes, and at dead ones only for labels, line marks and stack map frames and
for the objects they make. So methods that differ in dead code lift to the same code.
-/

namespace StackLift

-- Declared types

theorem length_takeWhile_of_exchanged {nodes nodes' : List Node}
    (h : List.Forall₂ Node.Exchanged nodes nodes') {keep : Node → Bool}
    (hkeep : ∀ {a b}, a.Exchanged b → keep a = keep b)
    : (nodes'.takeWhile keep).length = (nodes.takeWhile keep).length := by
  induction h with
  | nil => rfl
  | @cons a b rest rest' hab _ ih =>
      rw [List.takeWhile_cons, List.takeWhile_cons, hkeep hab]
      split
      · rw [List.length_cons, List.length_cons, ih]
      · rfl

namespace DeclaredTypes

variable {m m' : Method} {places : List (Label × Nat)} {nodes nodes' : List Node}

theorem madeAfter?_of_isExchangeable {node : Node} (h : node.isExchangeable = true)
    (rest : List Node)
    : madeAfter? (node :: rest) = madeAfter? rest := by
  cases node with
  | plain i =>
      cases i with
      | new => cases h
      | _ => rfl
  | branch => rfl
  | label | line | frame => cases h

theorem madeAfter?_of_exchanged (h : List.Forall₂ Node.Exchanged nodes nodes')
    : madeAfter? nodes' = madeAfter? nodes := by
  induction h with
  | nil => rfl
  | @cons a b rest rest' hab _ ih =>
      rcases hab with rfl | ⟨ha, hb⟩
      · unfold madeAfter? at ih ⊢
        rw [List.findSome?_cons, List.findSome?_cons, ih]
      · rw [madeAfter?_of_isExchangeable ha, madeAfter?_of_isExchangeable hb, ih]

theorem ofNodes_of_isExchangeable {node : Node} (h : node.isExchangeable = true) (number : Nat)
    (before : List TypeName) (rest : List Node)
    : ofNodes m places number before (node :: rest)
      = ofNodes m places (number + 1) before rest := by
  cases node with
  | plain | branch => rfl
  | label | line | frame => cases h

theorem ofNodes_of_exchanged (h : List.Forall₂ Node.Exchanged nodes nodes')
    (hv : ofVerification m' places = ofVerification m places) (number : Nat)
    (before : List TypeName)
    : ofNodes m' places number before nodes' = ofNodes m places number before nodes := by
  induction h generalizing number before with
  | nil => rfl
  | @cons a b rest rest' hab _ ih =>
      rcases hab with rfl | ⟨ha, hb⟩
      · cases a <;> simp only [ofNodes, ih, hv]
      · rw [ofNodes_of_isExchangeable ha, ofNodes_of_isExchangeable hb, ih]

theorem ofMethod_congr (h : m.DiffersInDeadCode m') (places : List (Label × Nat))
    : ofMethod m' places = ofMethod m places := by
  have hv : ofVerification m' places = ofVerification m places := by
    funext t
    cases t with
    | uninitialized label =>
        simp only [ofVerification]
        refine bind_congr fun place => ?_
        rw [madeAfter?_of_exchanged (List.forall₂_drop place h.exchanged)]
    | _ => rfl
  have hentry : entryLocals m' = entryLocals m := by
    rw [h.rest]
    rfl
  unfold ofMethod
  rw [hentry, ofNodes_of_exchanged h.exchanged hv]

end DeclaredTypes

-- Plans

namespace Plan

variable {m m' : Method} {p : Plan} {nodes : List Node}

/-- The plan with other nodes in the method. -/
def withNodes (p : Plan) (nodes : List Node) : Plan :=
  { p with method := { p.method with nodes } }

theorem ofMethod_congr (h : m.DiffersInDeadCode m') (settings : Settings)
    : ofMethod m' settings = (fun p => p.withNodes m'.nodes) <$> ofMethod m settings := by
  have hvariables : m'.variableTable = m.variableTable := by rw [h.rest]
  unfold ofMethod
  rw [← MethodGraph.ofMethod_congr h, h.placedLabels, hvariables]
  generalize MethodGraph.placedLabels 1 m.nodes = places
  dsimp only
  rw [DeclaredTypes.ofMethod_congr h]
  cases MethodGraph.ofMethod m with
  | error e => rfl
  | ok graph =>
      cases m.variableTable.mapM (resolveVariable places) with
      | error e => rfl
      | ok entries =>
          cases DeclaredTypes.ofMethod m places with
          | error e => rfl
          | ok declared =>
              exact congrArg (fun method => Except.ok
                (⟨method, settings, graph, places, entries, declared⟩ : Plan)) h.rest

/-- Lifting cannot tell the plan from the one with the other nodes: live nodes are the same, and so
are the labels and the types that stack map frames declare.
-/
structure Indistinct (p : Plan) (nodes : List Node) : Prop where
  pruned : p.graph.graph.Pruned
  live : ∀ {n}, p.graph.graph.Reaches n → (p.withNodes nodes).node? n = p.node? n
  label : ∀ n l, (p.withNodes nodes).node? n = some (.label l) ↔ p.node? n = some (.label l)
  types : (p.withNodes nodes).typesAfter? = p.typesAfter?

theorem isLine_of_isExchangeable {a : Node}
    : a.isExchangeable = true → (match a with | .line .. => true | _ => false) = false := by
  intro h
  cases a with
  | line => cases h
  | _ => rfl

theorem isLine_of_exchanged {a b : Node}
    : a.Exchanged b → (match a with | .line .. => true | _ => false)
      = (match b with | .line .. => true | _ => false) := by
  intro h
  rcases h with rfl | ⟨ha, hb⟩
  · rfl
  · rw [isLine_of_isExchangeable ha, isLine_of_isExchangeable hb]

theorem indistinct_of_ofMethod (h : m.DiffersInDeadCode m') {settings : Settings}
    (hp : ofMethod m settings = .ok p)
    : p.Indistinct m'.nodes := by
  obtain ⟨pruned, hreaches⟩ := MethodGraph.pruned_of_ofMethod (graph_ofMethod hp)
  have hmethod : p.method = m := by
    obtain ⟨_, -, hp⟩ := except_bind_eq_ok.mp hp
    obtain ⟨_, -, hp⟩ := except_bind_eq_ok.mp hp
    obtain ⟨_, -, hp⟩ := except_bind_eq_ok.mp hp
    cases hp
    rfl
  have hnode : ∀ n, (p.withNodes m'.nodes).node? n = m'.node? n := fun n => by cases n <;> rfl
  refine ⟨pruned, fun {n} hn => ?_, fun n l => ?_, ?_⟩
  · rw [hnode, node?_eq, hmethod]
    exact h.node? fun hdead => hdead.2 (hreaches.mp hn)
  · rw [hnode, node?_eq, hmethod, ← MethodGraph.mem_placedLabels_iff, h.placedLabels,
      MethodGraph.mem_placedLabels_iff]
  · funext n
    have hlength := length_takeWhile_of_exchanged (List.forall₂_drop n (hmethod ▸ h.exchanged))
      isLine_of_exchanged
    exact congrArg (fun k => p.declared.lookup (n + k + 1)) hlength

theorem putParameters_withNodes (p : Plan) (nodes : List Node) (f : Frame) (slot index : Nat)
    (types : List FieldType)
    : (p.withNodes nodes).putParameters f slot index types
      = p.putParameters f slot index types := by
  induction types generalizing f slot index with
  | nil => rfl
  | cons type rest ih => exact ih _ _ _

theorem entryFrame_withNodes (p : Plan) (nodes : List Node)
    : (p.withNodes nodes).entryFrame = p.entryFrame := by
  unfold entryFrame
  rw [putParameters_withNodes, putParameters_withNodes]
  rfl

end Plan

-- Simulation

namespace LiftM

variable {p : Plan} {nodes : List Node}

variable (same : p.Indistinct nodes)
include same

theorem nextLabel?_withNodes
    : nextLabel? (p.withNodes nodes) = nextLabel? p := by
  funext node
  unfold nextLabel?
  split
  next l hl => rw [(same.label _ l).mp hl]
  next other =>
    split
    next l hl => exact absurd ((same.label _ l).mpr hl) (other l)
    next => rfl

theorem simulateBranch_withNodes
    : simulateBranch (p.withNodes nodes) = simulateBranch p := by
  have hbranch : branchOn (p.withNodes nodes) = branchOn p := by
    unfold branchOn
    rw [nextLabel?_withNodes same]
  funext node f b
  cases b <;> simp only [simulateBranch, hbranch]

theorem simulate_withNodes
    : simulate (p.withNodes nodes) = simulate p := by
  funext number node f
  unfold simulate
  rw [simulateBranch_withNodes same]
  rfl

theorem joinedFrame_withNodes
    : joinedFrame (p.withNodes nodes) = joinedFrame p := by
  have hslot : mergeSlot (p.withNodes nodes) = mergeSlot p := by
    unfold mergeSlot
    rw [same.types]
    rfl
  have hframes : mergeFrames (p.withNodes nodes) = mergeFrames p := by
    unfold mergeFrames
    rw [hslot]
  unfold joinedFrame
  rw [hframes]
  rfl

theorem simulateLabel_withNodes
    : simulateLabel (p.withNodes nodes) = simulateLabel p := by
  unfold simulateLabel
  rw [joinedFrame_withNodes same]
  rfl

theorem visit_withNodes {n : Nat} (live : p.graph.graph.Reaches n)
    : visit (p.withNodes nodes) n = visit p n := by
  unfold visit
  rw [same.live live, simulateLabel_withNodes same, simulate_withNodes same,
    Plan.entryFrame_withNodes]
  rfl

-- Copies and jumps

theorem insertGroup_withNodes (target : Value) {group : CopyGroup}
    (live : ∀ n ∈ group.nodes, p.graph.graph.Reaches n)
    : insertGroup (p.withNodes nodes) target group = insertGroup p target group := by
  have hcopy : ∀ n ∈ group.nodes, copy (p.withNodes nodes) n = copy p n := by
    intro n hn
    unfold copy
    rw [same.live (live n hn)]
  unfold insertGroup
  split
  next node hgroup => rw [hcopy node (by simp [hgroup])]
  next =>
    refine forM_congr fun n hn => ?_
    rw [hcopy n hn]
    rfl

/-- Only live nodes copy. -/
theorem insertCopies_withNodes
    : insertCopies (p.withNodes nodes) = insertCopies p := by
  unfold insertCopies
  refine bind_congr fun s => forM_congr fun m _ => ?_
  refine Ensures.bind_congr (ensures_requiredCopies.weaken fun _ groups _ ⟨_, _, hgroups⟩ => ?_)
  refine forM_congr fun g hg => insertGroup_withNodes same _ fun n hn => ?_
  exact same.pruned.reached (hgroups.within g hg hn)

theorem joinLabel_withNodes
    : joinLabel (p.withNodes nodes) = joinLabel p := by
  funext node
  unfold joinLabel
  split
  next l hl => rw [(same.label _ l).mp hl]
  next other =>
    split
    next l hl => exact absurd ((same.label _ l).mpr hl) (other l)
    next => rfl

theorem insertJumps_withNodes
    : insertJumps (p.withNodes nodes) = insertJumps p := by
  refine forM_congr fun node _ => ?_
  have hfalling : ((p.withNodes nodes).graph.graph.predecessors node).filter
        (fun u => !(p.withNodes nodes).isBranching u)
      = (p.graph.graph.predecessors node).filter fun u => !p.isBranching u := by
    refine List.filter_congr fun u hu => ?_
    unfold Plan.isBranching
    rw [same.live (same.pruned.reached hu)]
  unfold insertJumpsTo
  rw [hfalling, joinLabel_withNodes same]
  rfl

theorem liftCode_withNodes
    : liftCode (p.withNodes nodes) = liftCode p := by
  have hvisits : p.graph.graph.order.forM (visit (p.withNodes nodes))
      = p.graph.graph.order.forM (visit p) :=
    forM_congr fun n hn => visit_withNodes same (NodeGraph.reaches_of_mem_order hn)
  unfold liftCode
  rw [insertCopies_withNodes same, insertJumps_withNodes same]
  exact congrArg (· >>= _) hvisits

end LiftM

-- Lifted methods

theorem Method.liftRaw_congr {m m' : Method} (h : m.DiffersInDeadCode m') (settings : Settings)
    : m.liftRaw settings = m'.liftRaw settings := by
  unfold Method.liftRaw
  rw [Plan.ofMethod_congr h]
  cases hp : Plan.ofMethod m settings with
  | error e => rfl
  | ok p =>
      have same := Plan.indistinct_of_ofMethod h hp
      exact congrArg (fun step => step.run' (.initial p)) (LiftM.liftCode_withNodes same).symm

/-- The graph of a method marks its dead nodes, and what they hold has no influence on the graph or
on the lifted code.
-/
theorem dead_code_has_no_influence {m m' : Method} (h : m.DiffersInDeadCode m')
    : MethodGraph.ofMethod m = MethodGraph.ofMethod m'
      ∧ (∀ settings, m.lift settings = m'.lift settings)
      ∧ ∀ graph, MethodGraph.ofMethod m = .ok graph →
        ∀ n, graph.graph.isDead n = true ↔ m.Dead n := by
  refine ⟨MethodGraph.ofMethod_congr h, fun settings => ?_, fun graph hgraph n => ?_⟩
  · unfold Method.lift
    rw [Method.liftRaw_congr h]
  · exact MethodGraph.isDead_iff hgraph

/-- A method with a protected range, in which the nodes after a jump over them are dead. -/
def jumpsOver (dead : List Node) : Method :=
  { staticMethod ⟨[], none⟩
      (.label ⟨0⟩ :: .branch (.goto ⟨2⟩) :: dead
        ++ [Node.label ⟨1⟩, .label ⟨2⟩, .branch .returnVoid, .label ⟨3⟩, .branch .throw]) with
    ranges := [{ start := ⟨0⟩, stop := ⟨1⟩, handler := ⟨3⟩, catchType := none }] }

def deadLoop : List Node :=
  [.plain (.pushByte 1), .branch (.ifZero .eq ⟨3⟩), .branch (.goto ⟨0⟩)]

def deadThrow : List Node :=
  [.branch (.goto ⟨1⟩), .plain (.shuffle .pop), .branch .throw]

def jumpsOverGraph : MethodGraph :=
  { graph := ⟨#[[], [0], [1], [], [], [], [], [2], [7], [0, 1, 2], [9]], [3, 4, 5, 6]⟩
    labels := [(⟨0⟩, 1), (⟨2⟩, 7), (⟨3⟩, 9)]
    handlers := [(9, [0])] }

theorem graph_jumpsOver
    : MethodGraph.ofMethod (jumpsOver deadLoop) = .ok jumpsOverGraph := by
  decide +kernel

theorem differs_jumpsOver
    : (jumpsOver deadLoop).DiffersInDeadCode (jumpsOver deadThrow) := by
  have hdead : ∀ n ∈ [3, 4, 5], (jumpsOver deadLoop).Dead n := by
    intro n hn
    refine (MethodGraph.isDead_iff graph_jumpsOver).mp ?_
    revert n
    decide
  refine ⟨rfl, rfl, fun n a b ha hb => ?_⟩
  match n with
  | 3 | 4 | 5 =>
      cases ha
      cases hb
      exact .inr ⟨hdead _ (by decide), ⟨rfl, by decide⟩, ⟨rfl, by decide⟩⟩
  | 1 | 2 | 6 | 7 | 8 | 9 | 10 =>
      cases ha
      cases hb
      exact .inl rfl
  | 0 => cases ha
  | n + 11 => cases ha

/-- A dead loop and a dead throw in its place. -/
theorem dead_loop_has_no_influence
    : (jumpsOver deadLoop).DiffersInDeadCode (jumpsOver deadThrow)
      ∧ (jumpsOver deadLoop).nodes ≠ (jumpsOver deadThrow).nodes
      ∧ MethodGraph.ofMethod (jumpsOver deadLoop) = MethodGraph.ofMethod (jumpsOver deadThrow)
      ∧ ∀ settings, (jumpsOver deadLoop).lift settings = (jumpsOver deadThrow).lift settings := by
  have same := dead_code_has_no_influence differs_jumpsOver
  refine ⟨differs_jumpsOver, ?_, same.1, same.2.1⟩
  simp [jumpsOver, deadLoop, deadThrow, staticMethod]

end StackLift
