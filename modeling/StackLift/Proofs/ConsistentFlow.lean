import Mathlib.Data.List.Nodup
import StackLift.Proofs.BlockQuotient
import StackLift.Proofs.EscapingExceptions
import StackLift.Proofs.ExactResolution

/-!
The lists of a flow graph agree with each other: successors with predecessors, catchers with
throwers, and the types that leave the method with the instructions that let them out.
-/

namespace StackLift

theorem lookup_map_pair {α β : Type} [DecidableEq α] (f : α → β) (l : List α) (a : α)
    : (l.map fun b => (b, f b)).lookup a = if a ∈ l then some (f a) else none := by
  induction l with
  | nil => rfl
  | cons b rest ih =>
      rw [List.map_cons, List.lookup_cons, ih]
      by_cases h : a = b
      · simp [h]
      · simp [h, beq_eq_false_iff_ne.mpr h]

namespace FlowGraph

/-- The instructions from which exceptions of a type leave the method. -/
def exitsOf (g : FlowGraph) (t : TypeName) : List Nat :=
  (g.throwExits.lookup t).getD []

/-- Each relation of the graph is the inverse of its counterpart, its lists name instructions
without repeats, and control ends where it leaves the method or falls off the code.
-/
structure Consistent (g : FlowGraph) : Prop where
  normal : ∀ {u v}, v ∈ g.successors u ↔ u ∈ g.predecessors v
  exceptional : ∀ {u v}, v ∈ g.catchers u ↔ u ∈ g.throwers v
  all : ∀ {u v}, v ∈ g.allSuccessors u ↔ u ∈ g.allPredecessors v
  escaping : ∀ {u t}, u ∈ g.exitsOf t ↔ t ∈ g.escaping u
  nodup : ∀ u, ∀ places ∈ [g.successors u, g.predecessors u, g.catchers u, g.throwers u,
    g.allSuccessors u, g.allPredecessors u], places.Nodup
  nodupExits : ∀ t, (g.exitsOf t).Nodup
  nodupTypes : ∀ u, (g.escaping u).Nodup
  inside : ∀ u, ∀ places ∈ [g.successors u, g.predecessors u, g.catchers u, g.throwers u,
    g.allSuccessors u, g.allPredecessors u], ∀ v ∈ places, v < g.size
  insideExits : ∀ t, ∀ u ∈ g.exitsOf t, u < g.size
  ascending : ∀ u, (g.predecessors u).Pairwise (· < ·) ∧ (g.catchers u).Pairwise (· < ·)
  ascendingExits : ∀ t, (g.exitsOf t).Pairwise (· < ·)
  ends : ∀ {u inst}, g.code.inst? u = some inst →
    (g.successors u = [] ↔ inst.isTerminating = true
      ∨ u + 1 = g.size ∧ inst.isBranching = false)

variable {code : List Inst} {r : ResolvedCode} {h : Hierarchy} {t : TypeName} {u v : Nat}

-- Normal edges

theorem mem_successors_iff
    : v ∈ (ofResolved r h).successors u ↔ u ∈ (ofResolved r h).predecessors v := by
  rw [mem_predecessors]
  constructor
  · intro hv
    obtain ⟨husize, hvsize⟩ := BlockGraph.lt_size_of_mem_successors hv
    exact ⟨hvsize, husize, hv⟩
  · rintro ⟨-, -, hv⟩
    exact hv

theorem nodup_successors (r : ResolvedCode) (h : Hierarchy) (u : Nat)
    : ((ofResolved r h).successors u).Nodup := by
  rw [successors_eq, flow]
  split
  · exact List.nodup_nil
  · split
    · exact List.nodup_nil
    · split
      · exact nodup_eraseDups _
      · split
        · exact List.nodup_singleton _
        · exact List.nodup_nil

/-- The predecessors are listed in the order of the code. -/
theorem ascending_predecessors (r : ResolvedCode) (h : Hierarchy) (u : Nat)
    : ((ofResolved r h).predecessors u).Pairwise (· < ·) := by
  by_cases hu : u < r.size
  · have heq : (ofResolved r h).predecessors u
        = r.indices.filter fun j => u ∈ (ofResolved r h).successors j := by
      simp [predecessors, successors, ofResolved, ResolvedCode.indices, hu]
    rw [heq]
    exact List.pairwise_lt_range.filter _
  · simp [predecessors, ofResolved, ResolvedCode.indices, hu]

theorem targets_ne_nil {inst : Inst} (hinst : inst.isBranching = true)
    : inst.targets ≠ [] := by
  cases inst with
  | jump | branch | switch => simp [Inst.targets]
  | _ => cases hinst

/-- Every target of an instruction is a place to which control goes on. -/
theorem successors_eq_nil_iff (resolves : ResolvedCode.Resolves code r) {inst : Inst}
    (hinst : r.inst? u = some inst)
    : (ofResolved r h).successors u = [] ↔ inst.isTerminating = true
        ∨ u + 1 = r.size ∧ inst.isBranching = false := by
  have husize : u < r.size := (Array.getElem?_eq_some_iff.mp hinst).1
  rw [successors_eq, flow, hinst]
  by_cases hexit : inst.isTerminating = true
  · simp [hexit]
  · by_cases hjump : inst.isBranching = true
    · have hmem : inst ∈ code := by
        rw [ResolvedCode.inst?, resolves.insts, List.getElem?_toArray] at hinst
        exact (List.mem_filter.mp (List.mem_of_getElem? hinst)).1
      obtain ⟨l, hl⟩ := List.exists_mem_of_ne_nil _ (targets_ne_nil hjump)
      obtain ⟨q, hq⟩ := resolves.jumps inst hmem l hl
      have htarget : q ∈ (r.jumpTargets u).eraseDups :=
        List.mem_eraseDups.mpr ((ResolvedCode.mem_jumpTargets hinst).mpr ⟨l, hl, hq⟩)
      simp [hexit, hjump, List.ne_nil_of_mem htarget]
    · by_cases hnext : u + 1 < r.size
      · simp [hexit, hjump, hnext, Nat.ne_of_lt hnext]
      · have hlast : u + 1 = r.size := Nat.le_antisymm husize (Nat.le_of_not_lt hnext)
        simp [hexit, hjump, hlast]

-- Handlers

/-- A handler protects instructions without repeats, and nothing else protects any. -/
theorem nodup_protectedBy (resolved : ResolvedCode.IsResolved code r) (u : Nat)
    : (r.protectedBy u).Nodup ∧ ∀ v ∈ r.protectedBy u, v < r.size ∧ u < r.size := by
  by_cases hcatch : (r.inst? u).any Inst.isCatch = true
  · obtain ⟨inst, hinst, hcatch⟩ := (Option.any_eq_true _ _).mp hcatch
    cases inst with
    | catches x handler entries =>
        obtain ⟨hnodup, hmem⟩ := resolved.covered hinst
        refine ⟨hnodup, fun v hv => ?_⟩
        exact ⟨((hmem v).mp hv).1, (Array.getElem?_eq_some_iff.mp hinst).1⟩
    | _ => cases hcatch
  · rw [resolved.others (Bool.eq_false_iff.mpr hcatch)]
    simp

theorem mem_catchers_iff (resolved : ResolvedCode.IsResolved code r)
    : v ∈ (ofResolved r h).catchers u ↔ u ∈ (ofResolved r h).throwers v := by
  rw [mem_catchers]
  constructor
  · rintro ⟨-, -, hu⟩
    exact hu
  · intro hu
    obtain ⟨husize, hvsize⟩ := (nodup_protectedBy resolved v).2 u hu
    exact ⟨husize, hvsize, hu⟩

/-- The catchers are listed in the order of the code. -/
theorem ascending_catchers (r : ResolvedCode) (h : Hierarchy) (u : Nat)
    : ((ofResolved r h).catchers u).Pairwise (· < ·) := by
  by_cases hu : u < r.size
  · have heq : (ofResolved r h).catchers u = r.indices.filter fun c => u ∈ r.protectedBy c := by
      simp [catchers, ofResolved, ResolvedCode.indices, hu]
    rw [heq]
    exact List.pairwise_lt_range.filter _
  · simp [catchers, ofResolved, ResolvedCode.indices, hu]

-- Escaping exceptions

theorem lt_size_of_mem_escaping (ht : t ∈ (ofResolved r h).escaping u)
    : u < r.size := by
  by_contra hu
  simp [escaping, ofResolved, ResolvedCode.indices, hu] at ht

theorem nodup_escaping (r : ResolvedCode) (h : Hierarchy) (u : Nat)
    : ((ofResolved r h).escaping u).Nodup := by
  by_cases hu : u < r.size
  · obtain ⟨inst, hinst⟩ : ∃ inst, r.inst? u = some inst := ⟨_, Array.getElem?_eq_getElem hu⟩
    rw [escaping_eq hu, escapingOf, hinst]
    exact (nodup_eraseDups _).filter _
  · simp [escaping, ofResolved, ResolvedCode.indices, hu]

/-- The instructions from which a type leaves the method, in the order of the code. -/
theorem exitsOf_eq (r : ResolvedCode) (h : Hierarchy) (t : TypeName)
    : (ofResolved r h).exitsOf t
      = r.indices.filter fun u => t ∈ (ofResolved r h).escaping u := by
  have hindices : (ofResolved r h).indices = r.indices := rfl
  rw [exitsOf, throwExits, lookup_map_pair, hindices]
  split
  next => rfl
  next hnone =>
    simp only [List.mem_mergeSort, List.mem_eraseDups, List.mem_flatMap, not_exists, not_and]
      at hnone
    symm
    rw [Option.getD_none, List.filter_eq_nil_iff]
    exact fun u hu => by simpa using hnone u hu

theorem mem_exitsOf
    : u ∈ (ofResolved r h).exitsOf t ↔ t ∈ (ofResolved r h).escaping u := by
  rw [exitsOf_eq, List.mem_filter, ResolvedCode.indices, List.mem_range, decide_eq_true_iff]
  exact and_iff_right_of_imp lt_size_of_mem_escaping

theorem ascending_exitsOf (r : ResolvedCode) (h : Hierarchy) (t : TypeName)
    : ((ofResolved r h).exitsOf t).Pairwise (· < ·) := by
  rw [exitsOf_eq]
  exact List.pairwise_lt_range.filter _

-- The graph

/-- The lists of every flow graph agree with each other. -/
theorem flow_graph_is_consistent {hierarchy : Hierarchy} {g : FlowGraph}
    (accepted : ofCode code hierarchy = .ok g)
    : g.Consistent := by
  obtain ⟨r, hr, hg⟩ := except_bind_eq_ok.mp accepted
  cases hg
  have resolved := ResolvedCode.isResolved_of_ofCode hr
  have hsuccessors : ∀ {u v}, v ∈ (ofResolved r hierarchy).successors u → v < r.size :=
    fun hv => (BlockGraph.lt_size_of_mem_successors hv).2
  have hpredecessors : ∀ {u v}, v ∈ (ofResolved r hierarchy).predecessors u → v < r.size :=
    fun hv => (mem_predecessors.mp hv).2.1
  have hcatchers : ∀ {u v}, v ∈ (ofResolved r hierarchy).catchers u → v < r.size :=
    fun hv => (mem_catchers.mp hv).2.1
  have hthrowers : ∀ {u v}, v ∈ (ofResolved r hierarchy).throwers u → v < r.size :=
    fun hv => ((nodup_protectedBy resolved _).2 _ hv).1
  constructor
  · exact mem_successors_iff
  · exact mem_catchers_iff resolved
  · intro u v
    simp only [allSuccessors, allPredecessors, List.mem_eraseDups, List.mem_append,
      mem_successors_iff, mem_catchers_iff resolved]
  · exact mem_exitsOf
  · intro u
    simp only [List.forall_mem_cons, List.not_mem_nil, false_imp_iff, implies_true, and_true]
    exact ⟨nodup_successors r hierarchy u, (ascending_predecessors r hierarchy u).imp Nat.ne_of_lt,
      (ascending_catchers r hierarchy u).imp Nat.ne_of_lt, (nodup_protectedBy resolved u).1,
      nodup_eraseDups _, nodup_eraseDups _⟩
  · exact fun t => (ascending_exitsOf r hierarchy t).imp Nat.ne_of_lt
  · exact nodup_escaping r hierarchy
  · intro u
    simp only [List.forall_mem_cons, List.not_mem_nil, false_imp_iff, implies_true, and_true,
      allSuccessors, allPredecessors, List.mem_eraseDups, List.mem_append]
    exact ⟨fun v => hsuccessors, fun v => hpredecessors, fun v => hcatchers, fun v => hthrowers,
      fun v hv => hv.elim hsuccessors hcatchers, fun v hv => hv.elim hpredecessors hthrowers⟩
  · exact fun t u hu => lt_size_of_mem_escaping (mem_exitsOf.mp hu)
  · exact fun u => ⟨ascending_predecessors r hierarchy u, ascending_catchers r hierarchy u⟩
  · exact ascending_exitsOf r hierarchy
  · exact successors_eq_nil_iff (ResolvedCode.resolves_ofCode hr)

/-- A switch that leads back to itself twice, and a division that its handler does not bind. -/
def switchesBack : List Inst :=
  [.label ⟨0⟩, .switch (.constant (.int 0))
      [(.constant (.int 1), ⟨0⟩), (.constant (.int 2), ⟨0⟩)] ⟨1⟩,
    .label ⟨1⟩, division,
    .label ⟨2⟩, .catches (.register (.fresh 1 ⟨"java.io.IOException"⟩)) ⟨2⟩
      [⟨⟨"java.io.IOException"⟩, ⟨0⟩, ⟨2⟩⟩, ⟨⟨"java.io.IOException"⟩, ⟨1⟩, ⟨2⟩⟩],
    .returns none]

/-- The switch is among its own predecessors, and the division is the only exit of its exception. -/
theorem graph_of_switch_is_consistent
    : ∃ g, ofCode switchesBack .standard = .ok g ∧ g.Consistent ∧ g.successors 0 = [0, 1]
        ∧ g.throwers 2 = [0, 1] ∧ g.escaping 1 = [.arithmeticException]
        ∧ 0 ∈ g.predecessors 0 ∧ 2 ∈ g.catchers 1 ∧ 1 ∈ g.exitsOf .arithmeticException := by
  obtain ⟨g, accepted, hsuccessors, hthrowers, hescaping⟩ :
      ∃ g, ofCode switchesBack .standard = .ok g ∧ g.successors 0 = [0, 1]
        ∧ g.throwers 2 = [0, 1] ∧ g.escaping 1 = [.arithmeticException] := by decide +kernel
  have consistent := flow_graph_is_consistent accepted
  refine ⟨g, accepted, consistent, hsuccessors, hthrowers, hescaping, ?_, ?_, ?_⟩
  · exact consistent.normal.mp (by simp [hsuccessors])
  · exact consistent.exceptional.mpr (by simp [hthrowers])
  · exact consistent.escaping.mpr (by simp [hescaping])

end FlowGraph

end StackLift
