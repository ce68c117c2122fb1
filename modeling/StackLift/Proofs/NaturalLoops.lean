import StackLift.Flow.Loop
import StackLift.Proofs.ConsistentFlow
import StackLift.Proofs.Dominance

/-!
Natural loops. The body of a loop is what leads to one of its back jumps without passing the head,
and the head dominates all of it that can be reached. Where every instruction can be reached, two
loops have nothing in common or one contains the other.
-/

namespace StackLift

namespace FlowGraph

/-- An edge leads from the instruction back to the head, which dominates it. -/
structure IsBackJump (g : FlowGraph) (head u : Nat) : Prop where
  edge : head ∈ g.allSuccessors u
  dominated : g.Dominates head u

/-- Control can go from one instruction to another along edges without being at a third one. -/
structure LeadsWithout (g : FlowGraph) (avoided a b : Nat) : Prop where
  start : a ≠ avoided
  steps : Relation.ReflTransGen (fun u v => v ∈ g.allSuccessors u ∧ v ≠ avoided) a b

/-- The loop of all back jumps to its head. -/
structure IsNaturalLoop (g : FlowGraph) (l : Loop) : Prop where
  order : ∃ rest, l.body = l.head :: rest ∧ rest.Pairwise (· < ·)
  nodup : l.body.Nodup
  inside : ∀ i ∈ l.body, i < g.size
  members : ∀ {i}, i ∈ l.body
    ↔ i = l.head ∨ ∃ u, g.IsBackJump l.head u ∧ g.LeadsWithout l.head i u
  dominated : ∀ i ∈ l.body, g.IsReached i → g.Dominates l.head i
  backJump : IsGreatest { u | g.IsBackJump l.head u } l.backJump
  exits : ∀ {i}, i ∈ l.exits ↔ i ∈ l.body ∧ ∃ j ∈ g.allSuccessors i, j ∉ l.body
  exitsInOrder : l.exits.Sublist l.body

variable {g : FlowGraph} {d : Dominators} {a b h i u : Nat} {path : List Nat} {l m : Loop}

-- Edges

/-- Edges join instructions of the graph and are the same from both of their ends. -/
structure Regular (g : FlowGraph) : Prop where
  target : g.Closed
  source : ∀ {u v}, v ∈ g.allSuccessors u → u < g.size
  inverse : ∀ {u v}, v ∈ g.allSuccessors u ↔ u ∈ g.allPredecessors v

theorem regular_of_ofCode {code : List Inst} {hierarchy : Hierarchy}
    (accepted : ofCode code hierarchy = .ok g)
    : g.Regular := by
  obtain ⟨r, hr, hg⟩ := except_bind_eq_ok.mp accepted
  cases hg
  have resolved := ResolvedCode.isResolved_of_ofCode hr
  refine ⟨closed_ofResolved r hierarchy, ?_, ?_⟩
  · intro u v hv
    rcases List.mem_append.mp (List.mem_eraseDups.mp hv) with hv | hv
    · exact (BlockGraph.lt_size_of_mem_successors hv).1
    · exact (mem_catchers.mp hv).1
  · intro u v
    simp only [allSuccessors, allPredecessors, List.mem_eraseDups, List.mem_append,
      mem_successors_iff, mem_catchers_iff resolved]

namespace LeadsWithout

theorem refl (hne : a ≠ h)
    : g.LeadsWithout h a a :=
  ⟨hne, .refl⟩

theorem stop (way : g.LeadsWithout h a b)
    : b ≠ h := by
  rcases Relation.ReflTransGen.cases_tail way.steps with rfl | ⟨u, -, edge⟩
  · exact way.start
  · exact edge.2

theorem trans (way : g.LeadsWithout h a b) (way' : g.LeadsWithout h b u)
    : g.LeadsWithout h a u :=
  ⟨way.start, way.steps.trans way'.steps⟩

theorem head (hne : a ≠ h) (edge : b ∈ g.allSuccessors a) (way : g.LeadsWithout h b u)
    : g.LeadsWithout h a u :=
  ⟨hne, way.steps.head ⟨edge, way.start⟩⟩

/-- A way avoids what does not itself lead to its end. -/
theorem avoids (way : g.LeadsWithout h a b) (hnot : ¬ g.LeadsWithout h u b)
    : g.LeadsWithout u a b := by
  obtain ⟨hne, steps⟩ := way
  induction steps using Relation.ReflTransGen.head_induction_on with
  | refl =>
      refine .refl ?_
      rintro rfl
      exact hnot (.refl hne)
  | head edge steps ih =>
      refine .head ?_ edge.1 (ih edge.2)
      rintro rfl
      exact hnot (.head hne edge.1 ⟨edge.2, steps⟩)

/-- A path goes on along the way. -/
theorem exists_path (way : g.LeadsWithout h a b) (hpath : g.IsPath path a)
    : ∃ rest, g.IsPath (path ++ rest) b ∧ h ∉ rest := by
  obtain ⟨-, steps⟩ := way
  induction steps with
  | refl => exact ⟨[], by simpa using hpath, List.not_mem_nil⟩
  | @tail u v _ edge ih =>
      obtain ⟨rest, hrest, havoids⟩ := ih
      refine ⟨rest ++ [v], List.append_assoc path rest [v] ▸ hrest.step edge.1, ?_⟩
      simp [havoids, Ne.symm edge.2]

/-- The rest of a path is a way to its end. -/
theorem of_isPath {before after : List Nat} (hpath : g.IsPath (before ++ a :: after) b)
    (havoids : h ∉ a :: after)
    : g.LeadsWithout h a b := by
  have hne : ∀ x ∈ a :: after, x ≠ h := fun x hx same => havoids (same ▸ hx)
  have stop := List.getLast?_append_cons before a after ▸ hpath.stop
  exact ⟨hne a List.mem_cons_self, steps_of_isChain (List.isChain_split.mp hpath.steps).2 stop hne⟩

end LeadsWithout

/-- What leads to an instruction without passing one of its dominators is dominated by it, too. -/
theorem Dominates.of_leadsWithout (hdom : g.Dominates h b) (way : g.LeadsWithout h a b)
    (hreached : g.IsReached a)
    : g.Dominates h a := by
  refine ⟨hreached, fun path hpath => ?_⟩
  obtain ⟨rest, hrest, havoids⟩ := way.exists_path hpath
  exact (List.mem_append.mp (hdom.2 _ hrest)).resolve_right havoids

-- Computed loops

theorem IsBackJump.lt_size (closed : g.Closed) (jump : g.IsBackJump h u)
    : u < g.size := by
  obtain ⟨path, hpath⟩ := jump.dominated.1
  exact hpath.lt_size_of_mem closed hpath.mem_stop

theorem mem_backJumps (closed : g.Closed) (tree : d.IsTreeOf g)
    : u ∈ g.backJumps d h ↔ g.IsBackJump h u := by
  have hindices : u ∈ g.indices ↔ u < g.size := List.mem_range
  rw [backJumps, List.mem_filter, Bool.and_eq_true, decide_eq_true_iff, tree.isDominatedBy_iff,
    hindices]
  constructor
  · rintro ⟨-, edge, hdom⟩
    exact ⟨edge, hdom⟩
  · intro jump
    exact ⟨jump.lt_size closed, jump.edge, jump.dominated⟩

/-- Going back from an instruction without passing the head finds what leads to it. -/
theorem mem_bodyOf (regular : g.Regular) (hu : u < g.size)
    : i ∈ g.bodyOf h u ↔ i = h ∨ g.LeadsWithout h i u := by
  have hunseen : ∀ x, ((NodeSet.full g.size).erase h).contains x = true ↔ x < g.size ∧ x ≠ h := by
    intro x
    rw [NodeSet.contains_erase, NodeSet.contains_full]
  rw [bodyOf, List.mem_cons, mem_visit_singleton]
  simp only [hunseen]
  refine or_congr_right ⟨?_, ?_⟩
  · rintro ⟨⟨-, hne⟩, steps⟩
    induction steps with
    | refl => exact .refl hne
    | tail _ edge ih => exact .head edge.2.2 (regular.inverse.mpr edge.1) ih
  · rintro ⟨hne, steps⟩
    refine ⟨⟨hu, LeadsWithout.stop ⟨hne, steps⟩⟩, ?_⟩
    induction steps using Relation.ReflTransGen.head_induction_on with
    | refl => exact .refl
    | head edge _ ih =>
        exact (ih edge.2).tail ⟨regular.inverse.mp edge.1, regular.source edge.1, hne⟩

variable {jumps : List Nat}

/-- The set from which a loop takes its body and its exits. -/
def loopSet (g : FlowGraph) (h : Nat) (jumps : List Nat) : NodeSet :=
  .ofList g.size (jumps.flatMap (g.bodyOf h))

theorem contains_loopSet (regular : g.Regular) (hjumps : ∀ u ∈ jumps, u < g.size)
    (hne : jumps ≠ []) (hh : h < g.size)
    : (g.loopSet h jumps).contains i = true ↔ i = h ∨ ∃ u ∈ jumps, g.LeadsWithout h i u := by
  have hunion : i ∈ jumps.flatMap (g.bodyOf h) ↔ i = h ∨ ∃ u ∈ jumps, g.LeadsWithout h i u := by
    obtain ⟨v, hv⟩ := List.exists_mem_of_ne_nil _ hne
    rw [List.mem_flatMap]
    constructor
    · rintro ⟨u, hu, hi⟩
      exact ((mem_bodyOf regular (hjumps u hu)).mp hi).imp_right fun way => ⟨u, hu, way⟩
    · rintro (rfl | ⟨u, hu, way⟩)
      · exact ⟨v, hv, List.mem_cons_self⟩
      · exact ⟨u, hu, (mem_bodyOf regular (hjumps u hu)).mpr (.inr way)⟩
  rw [loopSet, NodeSet.contains_ofList, hunion]
  refine and_iff_left_of_imp ?_
  rintro (rfl | ⟨u, hu, -, steps⟩)
  · exact hh
  · rcases Relation.ReflTransGen.cases_head steps with rfl | ⟨v, edge, -⟩
    · exact hjumps i hu
    · exact regular.source edge.1

theorem body_loopOf (g : FlowGraph) (h : Nat) (jumps : List Nat)
    : (g.loopOf h jumps).body
      = h :: ((List.range g.size).erase h).filter (g.loopSet h jumps).contains :=
  rfl

theorem mem_body_loopOf (hne : jumps ≠ []) (hh : h < g.size)
    : i ∈ (g.loopOf h jumps).body ↔ (g.loopSet h jumps).contains i = true := by
  have hbound : (g.loopSet h jumps).contains i = true → i < g.size := fun hi =>
    (NodeSet.contains_ofList.mp hi).2
  rw [body_loopOf, List.mem_cons, List.mem_filter, List.nodup_range.mem_erase_iff, List.mem_range]
  constructor
  · rintro (rfl | ⟨-, hi⟩)
    · obtain ⟨v, hv⟩ := List.exists_mem_of_ne_nil _ hne
      exact NodeSet.contains_ofList.mpr
        ⟨List.mem_flatMap.mpr ⟨v, hv, List.mem_cons_self⟩, hh⟩
    · exact hi
  · intro hi
    exact or_iff_not_imp_left.mpr fun hne => ⟨⟨hne, hbound hi⟩, hi⟩

theorem mem_exits_loopOf (hne : jumps ≠ []) (hh : h < g.size)
    : i ∈ (g.loopOf h jumps).exits ↔ i ∈ (g.loopOf h jumps).body
        ∧ ∃ j ∈ g.allSuccessors i, j ∉ (g.loopOf h jumps).body := by
  have hexits : (g.loopOf h jumps).exits = (g.loopOf h jumps).body.filter fun i =>
      (g.allSuccessors i).any fun j => !(g.loopSet h jumps).contains j := rfl
  rw [hexits, List.mem_filter, List.any_eq_true]
  simp only [mem_body_loopOf hne hh, Bool.not_eq_true', Bool.not_eq_true]

/-- The last of the jumps is the greatest. -/
theorem isGreatest_backJump (hjumps : jumps ≠ [])
    : IsGreatest { u | u ∈ jumps } (g.loopOf h jumps).backJump := by
  cases jumps with
  | nil => exact absurd rfl hjumps
  | cons j rest =>
      have hmax : (j :: rest).max? = some (g.loopOf h (j :: rest)).backJump := by
        rw [List.max?_cons', loopOf, List.foldl_cons, Nat.zero_max]
      exact List.max?_eq_some_iff.mp hmax

/-- There is a loop for each head with back jumps. -/
theorem mem_loops
    : l ∈ g.loopsBy d ↔ ∃ h < g.size, g.backJumps d h ≠ []
        ∧ l = g.loopOf h (g.backJumps d h) := by
  have hindices : ∀ h, h ∈ g.indices ↔ h < g.size := fun h => List.mem_range
  simp only [loopsBy, List.mem_filterMap, hindices]
  refine exists_congr fun h => and_congr_right fun _ => ?_
  cases g.backJumps d h with
  | nil => simp
  | cons u rest => simp [eq_comm]

theorem isNaturalLoop_of_mem_loops (regular : g.Regular) (tree : d.IsTreeOf g)
    (hl : l ∈ g.loopsBy d)
    : g.IsNaturalLoop l := by
  obtain ⟨h, hh, hne, rfl⟩ := mem_loops.mp hl
  have hjumps : ∀ u, u ∈ g.backJumps d h ↔ g.IsBackJump h u := fun u =>
    mem_backJumps regular.target tree
  have hmembers : ∀ {i}, i ∈ (g.loopOf h (g.backJumps d h)).body
      ↔ i = h ∨ ∃ u, g.IsBackJump h u ∧ g.LeadsWithout h i u := by
    intro i
    rw [mem_body_loopOf hne hh, contains_loopSet regular (fun u hu =>
      ((hjumps u).mp hu).lt_size regular.target) hne hh]
    simp only [hjumps]
  have hsorted : (((List.range g.size).erase h).filter
      (g.loopSet h (g.backJumps d h)).contains).Pairwise (· < ·) :=
    (List.pairwise_lt_range.sublist List.erase_sublist).filter _
  refine ⟨⟨_, rfl, hsorted⟩, ?_, ?_, hmembers, ?_, ?_, mem_exits_loopOf hne hh, List.filter_sublist⟩
  · rw [body_loopOf, List.nodup_cons]
    refine ⟨fun hmem => ?_, hsorted.imp Nat.ne_of_lt⟩
    exact List.nodup_range.not_mem_erase (List.mem_filter.mp hmem).1
  · intro i hi
    exact (NodeSet.contains_ofList.mp ((mem_body_loopOf hne hh).mp hi)).2
  · intro i hi hreached
    rcases hmembers.mp hi with rfl | ⟨u, jump, way⟩
    · exact hreached.dominates_self
    · exact jump.dominated.of_leadsWithout way hreached
  · have hgreatest := isGreatest_backJump (g := g) (h := h) hne
    simp only [hjumps] at hgreatest
    exact hgreatest

theorem map_head_loops (g : FlowGraph) (d : Dominators)
    : (g.loopsBy d).map Loop.head
      = (List.range g.size).filter fun h => g.backJumps d h ≠ [] := by
  have hindices : g.indices = List.range g.size := rfl
  rw [loopsBy, List.map_filterMap, ← List.filterMap_eq_filter, hindices]
  refine List.filterMap_congr fun h _ => ?_
  cases hjumps : g.backJumps d h with
  | nil => simp [Option.guard, hjumps]
  | cons u rest => simp [Option.guard, hjumps, loopOf]

/-- The heads of loops are the instructions with back jumps. -/
theorem mem_map_head_loops (closed : g.Closed) (tree : d.IsTreeOf g)
    : h ∈ (g.loopsBy d).map Loop.head ↔ ∃ u, g.IsBackJump h u := by
  rw [map_head_loops, List.mem_filter, List.mem_range, decide_eq_true_iff]
  constructor
  · rintro ⟨-, hne⟩
    obtain ⟨u, hu⟩ := List.exists_mem_of_ne_nil _ hne
    exact ⟨u, (mem_backJumps closed tree).mp hu⟩
  · rintro ⟨u, jump⟩
    exact ⟨closed u h jump.edge, List.ne_nil_of_mem ((mem_backJumps closed tree).mpr jump)⟩

/-- The loops of a flow graph are its natural loops, one for each head, ordered by head. -/
theorem loops_are_natural {code : List Inst} {hierarchy : Hierarchy}
    (accepted : ofCode code hierarchy = .ok g) (tree : d.IsTreeOf g)
    : (∀ h, h ∈ (g.loopsBy d).map Loop.head ↔ ∃ u, g.IsBackJump h u)
      ∧ ((g.loopsBy d).map Loop.head).Pairwise (· < ·)
      ∧ ∀ l ∈ g.loopsBy d, g.IsNaturalLoop l := by
  have regular := regular_of_ofCode accepted
  refine ⟨fun h => mem_map_head_loops regular.target tree, ?_, fun l hl =>
    isNaturalLoop_of_mem_loops regular tree hl⟩
  rw [map_head_loops]
  exact List.pairwise_lt_range.filter _

/-- A division that is tried again if it fails, and a loop of one instruction inside the same loop.
The instructions given are never reached.
-/
def retries (dead : List Inst) : List Inst :=
  let condition := ⟨.eq, .boolean, .constant (.int 0), .constant (.int 1)⟩
  [Inst.label ⟨0⟩, division,
    .label ⟨1⟩, .branch condition ⟨1⟩ ⟨2⟩,
    .label ⟨2⟩, .branch condition ⟨0⟩ ⟨3⟩]
    ++ dead ++
  [Inst.label ⟨3⟩, .returns none,
    .label ⟨4⟩, .catches (.register (.fresh 1 .throwable)) ⟨4⟩ [⟨.throwable, ⟨0⟩, ⟨1⟩⟩],
    .jump ⟨0⟩]

/-- The outer loop has two back jumps, one of them in the handler, and takes in a jump that is never
reached.
-/
theorem loops_of_retries_are_natural
    : ∃ g, ofCode (retries [.jump ⟨2⟩]) .standard = .ok g
        ∧ g.loops.map (fun l => (l.head, l.body, l.backJump, l.exits))
          = [(0, [0, 1, 2, 3, 5, 6], 6, [2]), (1, [1], 1, [1])]
        ∧ (g.loops.map Loop.head).Pairwise (· < ·) ∧ (∀ l ∈ g.loops, g.IsNaturalLoop l)
        ∧ ∃ u, g.IsBackJump 1 u := by
  obtain ⟨g, accepted, hloops⟩ : ∃ g, ofCode (retries [.jump ⟨2⟩]) .standard = .ok g
      ∧ g.loops.map (fun l => (l.head, l.body, l.backJump, l.exits))
        = [(0, [0, 1, 2, 3, 5, 6], 6, [2]), (1, [1], 1, [1])] := by decide +kernel
  have tree := Dominators.isTreeOf_ofGraph (closed_of_ofCode accepted)
  obtain ⟨heads, sorted, natural⟩ := loops_are_natural accepted tree
  refine ⟨g, accepted, hloops, sorted, natural, (heads 1).mp ?_⟩
  have hheads := congrArg (List.map Prod.fst) hloops
  rw [List.map_map] at hheads
  exact hheads ▸ List.mem_cons_of_mem 0 List.mem_cons_self

-- Nesting

/-- A path to an instruction passes its dominator for the last time after every instruction that the
dominator does not dominate.
-/
theorem Dominates.leadsWithout (hdom : g.Dominates b i) (hnot : ¬ g.Dominates b a)
    (hreached : g.IsReached a)
    : g.LeadsWithout a b i := by
  obtain ⟨path, hpath⟩ := hdom.1
  obtain ⟨after, before, hsplit, hlast⟩ :=
    List.eq_append_cons_of_mem (List.mem_reverse.mpr (hdom.2 path hpath))
  obtain rfl : path = before.reverse ++ b :: after.reverse := by
    simpa using congrArg List.reverse hsplit
  refine .of_isPath hpath fun ha => ?_
  rcases List.mem_cons.mp ha with rfl | ha
  · exact hnot hreached.dominates_self
  · obtain ⟨middle, rest, hafter⟩ := List.append_of_mem ha
    have hpath' : g.IsPath ((before.reverse ++ b :: middle) ++ a :: rest) i := by
      simpa [hafter] using hpath
    have hb := hdom.mem_after hnot hreached hpath'
    exact hlast (List.mem_reverse.mp (hafter ▸ List.mem_append_right middle (.tail a hb)))

/-- Of two loops with an instruction in common, the one whose head dominates the other head contains
the other loop.
-/
theorem IsNaturalLoop.subset (outer : g.IsNaturalLoop l) (inner : g.IsNaturalLoop m)
    (hheads : g.Dominates l.head m.head) (hne : l.head ≠ m.head) (hl : i ∈ l.body)
    (hdom : g.Dominates m.head i)
    : m.body ⊆ l.body := by
  have hnot : ¬ g.Dominates m.head l.head := fun h => hne (hheads.antisymm h)
  -- The common instruction lies between the inner head and a back jump of the outer loop.
  obtain ⟨u, jump, hu⟩ : ∃ u, g.IsBackJump l.head u ∧ g.LeadsWithout l.head m.head u := by
    rcases outer.members.mp hl with rfl | ⟨u, jump, way⟩
    · exact absurd hdom hnot
    · exact ⟨u, jump, (hdom.leadsWithout hnot hheads.isReached).trans way⟩
  intro j hj
  refine outer.members.mpr (.inr ⟨u, jump, ?_⟩)
  rcases inner.members.mp hj with rfl | ⟨v, back, way⟩
  · exact hu
  · -- The inner head dominates its back jump, so the outer head does not lead there without it.
    have hway : g.LeadsWithout l.head j v :=
      way.avoids fun h => hnot (back.dominated.of_leadsWithout h hheads.isReached)
    exact hway.trans (.head hway.stop back.edge hu)

/-- Two loops have no instruction in common or one contains the other, if all instructions can be
reached.
-/
theorem loops_nest {code : List Inst} {hierarchy : Hierarchy}
    (accepted : ofCode code hierarchy = .ok g) (tree : d.IsTreeOf g)
    (reached : ∀ i < g.size, g.IsReached i)
    (hl : l ∈ g.loopsBy d) (hm : m ∈ g.loopsBy d)
    : l.body.Disjoint m.body ∨ l.body ⊆ m.body ∨ m.body ⊆ l.body := by
  have regular := regular_of_ofCode accepted
  have left := isNaturalLoop_of_mem_loops regular tree hl
  have right := isNaturalLoop_of_mem_loops regular tree hm
  by_cases hdisjoint : l.body.Disjoint m.body
  · exact .inl hdisjoint
  · obtain ⟨i, hi, hi'⟩ : ∃ i ∈ l.body, i ∈ m.body := by
      simpa [List.Disjoint] using hdisjoint
    have hdom := left.dominated i hi (reached i (left.inside i hi))
    have hdom' := right.dominated i hi' (reached i (left.inside i hi))
    refine .inr ?_
    by_cases hheads : l.head = m.head
    · exact .inl fun j hj => right.members.mpr (hheads ▸ left.members.mp hj)
    · rcases hdom.total hdom' with h | h
      · exact .inr (left.subset right h hheads hi hdom')
      · exact .inl (right.subset left h (Ne.symm hheads) hi' hdom)

/-- The handler belongs to the outer loop, which contains the inner one. -/
theorem loops_of_retries_nest
    : ∃ g l m, ofCode (retries []) .standard = .ok g ∧ (∀ i < g.size, g.IsReached i)
        ∧ l ∈ g.loops ∧ m ∈ g.loops ∧ l.body = [0, 1, 2, 4, 5] ∧ m.body = [1]
        ∧ (l.body.Disjoint m.body ∨ l.body ⊆ m.body ∨ m.body ⊆ l.body) := by
  obtain ⟨g, accepted, hbodies, hreached⟩ : ∃ g, ofCode (retries []) .standard = .ok g
      ∧ g.loops.map Loop.body = [[0, 1, 2, 4, 5], [1]]
      ∧ ∀ i < g.size, (Dominators.ofGraph g).isReachable i = true := by decide +kernel
  have tree := Dominators.isTreeOf_ofGraph (closed_of_ofCode accepted)
  have reached : ∀ i < g.size, g.IsReached i := fun i hi =>
    tree.isReachable_iff.mp (hreached i hi)
  obtain ⟨l, rest, hg, hl, hrest⟩ := List.map_eq_cons_iff.mp hbodies
  obtain ⟨m, rest, rfl, hm, -⟩ := List.map_eq_cons_iff.mp hrest
  have hl' : l ∈ g.loops := by simp [hg]
  have hm' : m ∈ g.loops := by simp [hg]
  exact ⟨g, l, m, accepted, reached, hl', hm', hl, hm, loops_nest accepted tree reached hl' hm'⟩

end FlowGraph

end StackLift
