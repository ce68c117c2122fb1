import StackLift.Proofs.CopiedReads
import StackLift.Proofs.NodeWalks

/-!
Registers are assigned before they are read. Control that goes against the order of simulation comes
back to a join which it has passed before, and which it could only pass with all registers of its
frame assigned.
-/

namespace StackLift

variable {p : Plan} {s start : LiftState} {n : Nat} {passed : List Nat}
  {A : Nat → Set RegisterKey}

-- The code of nodes

theorem LiftState.getD_nodeCode (s : LiftState) (n : Nat)
    : s.nodeCode.getD n []
      = (s.codeOf n).map fun i => s.refinements.inst (s.registers.nameInst i) := by
  simp only [nodeCode, codeOf, List.getD_eq_getElem?_getD, List.getElem?_map,
    Array.getElem?_toList, Array.getD_eq_getD_getElem?]
  cases s.code[n]? with
  | none => rfl
  | some code => simp [Substitution.code]

/-- Without stack map frames the final names and types change no register. -/
theorem keys_nameInst (h : s.refinements = []) (i : Inst)
    : (s.refinements.inst (s.registers.nameInst i)).assigned? = i.assigned?
      ∧ (s.refinements.inst (s.registers.nameInst i)).readKeys = i.readKeys := by
  have hon : s.refinements.OnRegisters := by
    rw [h]
    exact nofun
  have himage : s.refinements.keyImage = id := by
    rw [h]
    rfl
  have hnamed := s.registers.renames_nameLeaf
  have hrefined := Substitution.renames_leaf hon
  rw [Substitution.inst_eq_rename hon, hrefined.assigned?_rename, hrefined.readKeys_rename, himage]
  change Option.map id (i.rename s.registers.nameLeaf).assigned? = _
    ∧ List.map id (i.rename s.registers.nameLeaf).readKeys = _
  rw [hnamed.assigned?_rename, hnamed.readKeys_rename]
  simp

theorem assignedIn_nodeCode (h : s.refinements = []) (n : Nat)
    : assignedIn (s.nodeCode.getD n []) = assignedIn (s.codeOf n) := by
  rw [s.getD_nodeCode]
  exact assignedIn_map fun i => (keys_nameInst h i).1

theorem readsAssigned_nodeCode (h : s.refinements = []) {B : Set RegisterKey} {n : Nat}
    : ReadsAssigned B (s.nodeCode.getD n []) ↔ ReadsAssigned B (s.codeOf n) := by
  rw [s.getD_nodeCode]
  exact ReadsAssigned.map_iff (fun i => (keys_nameInst h i).1) fun i => (keys_nameInst h i).2

-- Walks

/-- After a walk through a node the registers of its frame are assigned, if those before it are. -/
theorem Copying.keysAfter_subset (hs : Copying p start A s) (hrefinements : s.refinements = [])
    (h : p.keysBefore start n ⊆ assignedOn s.nodeCode passed)
    : start.keysAfter n ⊆ assignedOn s.nodeCode (n :: passed) := by
  rw [assignedOn_cons, assignedIn_nodeCode hrefinements, Set.union_comm]
  exact (hs.ready n).supplies.assigned.trans (Set.union_subset_union_left _ h)

/-- A walk to a node assigns the registers of the frame before it. The induction is on the length of
the walk, since an edge against the order leads back to an earlier visit of its target.
-/
theorem Copying.keysBefore_subset (hs : Copying p start A s) (hrefinements : s.refinements = [])
    (hprepared : Prepared p p.graph.graph.order start)
    (hprovides : ∀ m ∈ start.merges, ∀ u ∈ p.graph.graph.predecessors m.node,
      LiftM.Provides p start A m u)
    (pruned : p.graph.graph.Pruned) (hentry : p.graph.graph.predecessors NodeGraph.entry = [])
    (reducible : p.graph.graph.Reducible) (walk : p.graph.graph.Walk n passed)
    : p.keysBefore start n ⊆ assignedOn s.nodeCode passed := by
  induction hk : passed.length using Nat.strongRecOn generalizing n passed with
  | _ k ih =>
      cases walk with
      | entry =>
          have hnode : p.node? NodeGraph.entry = none := rfl
          rw [Plan.keysBefore_of_ne_label (by simp [hnode])]
          rintro x ⟨u, hu, _⟩
          cases hentry.symm.trans hu
      | @step u n passed walk edge =>
          have hbefore := ih passed.length (by simp [← hk]) walk rfl
          have hafter := hs.keysAfter_subset hrefinements hbefore
          by_cases hlabel : ∃ l, p.node? n = some (.label l)
          · obtain ⟨l, hl⟩ := hlabel
            have hn := pruned.mem_order.mpr (walk.step edge).reaches
            rw [Plan.keysBefore_label hl]
            intro x hx
            rcases hprepared.joins n hn l hl x hx with hall | ⟨m, hm, rfl, rfl, hplace⟩
            · exact hafter (hall u edge)
            · rcases hprovides m hm u edge with hnone | hkeys | ⟨group, hu, hgroup⟩
              · have hback : ¬ p.graph.graph.Precedes u m.node := by
                  intro hprecedes
                  obtain ⟨f, hf, hvalue⟩ := hplace u edge hprecedes
                  simp [hnone f hf] at hvalue
                obtain ⟨earlier, hwalk, hsuffix⟩ :=
                  walk.to_member (reducible edge hback passed walk)
                have hlength := hsuffix.length_le
                have hjoin := ih earlier.length (by simp [← hk]; omega) hwalk rfl
                rw [Plan.keysBefore_label hl] at hjoin
                exact assignedOn_mono (fun w hw => List.mem_cons_of_mem u (hsuffix.subset hw))
                  (hjoin hx)
              · exact hafter hkeys
              · obtain ⟨w, hw, hcopied⟩ := walk.exists_of_group hentry hgroup hu
                refine ⟨w, hw, ?_⟩
                rw [assignedIn_nodeCode hrefinements]
                exact hs.assigned w hcopied
          · rw [Plan.keysBefore_of_ne_label fun l hl => hlabel ⟨l, hl⟩]
            rintro x ⟨v, hv, hx⟩
            rw [hv, List.mem_singleton] at edge
            exact hafter (edge ▸ hx)

/-- A method that doubles its argument by counting it down. -/
def doubles : Method :=
  staticMethod ⟨[.base .int], some (.base .int)⟩
    [.plain (.pushByte 0), .plain (.store .int 1),
      .label ⟨0⟩, .plain (.load .int 0), .branch (.ifZero .eq ⟨1⟩),
      .plain (.increment 1 2), .plain (.increment 0 (-1)), .branch (.goto ⟨0⟩),
      .label ⟨1⟩, .plain (.load .int 1), .branch (.returnValue .int)]

def doublingGraph : MethodGraph :=
  { graph := ⟨#[[], [0], [1], [2, 8], [3], [4], [5], [6], [7], [5], [9], [10]], []⟩
    labels := [(⟨0⟩, 3), (⟨1⟩, 9)]
    handlers := [] }

def doublingPlan : Plan :=
  { method := doubles
    settings := rawSettings
    graph := doublingGraph
    places := [(⟨0⟩, 3), (⟨1⟩, 9)]
    variableTable := []
    declared := [] }

theorem graph_doubles
    : MethodGraph.ofMethod doubles = .ok doublingGraph := by
  decide +kernel

theorem order_doublingGraph
    : doublingGraph.graph.order = [0, 1, 2, 3, 4, 5, 9, 10, 11, 6, 7, 8] := by
  decide +kernel

/-- The only edge against the order leads to the head of the loop. -/
theorem reducible_doublingGraph
    : doublingGraph.graph.Reducible := by
  have hsize : ∀ {u v}, u ∈ doublingGraph.graph.predecessors v → v < 12 :=
    doublingGraph.graph.lt_size_of_mem_predecessors
  have hedges : ∀ v < 12, ∀ u ∈ doublingGraph.graph.predecessors v, u = 8 ∧ v = 3
      ∨ v ∈ [0, 1, 2, 3, 4, 5, 9, 10, 11, 6, 7, 8]
        ∧ u ∈ [0, 1, 2, 3, 4, 5, 9, 10, 11, 6, 7, 8].takeWhile (· ≠ v) := by decide
  have hhead : ∀ n < 12, n ≠ 3 → ∀ w ∈ doublingGraph.graph.predecessors n,
      w ∈ [0, 1, 2] → n ∈ [0, 1, 2] := by decide
  intro u v edge hback
  rcases hedges v (hsize edge) u edge with ⟨rfl, rfl⟩ | ⟨hv, hu⟩
  · exact .of_closed (.inr List.mem_cons_self) (fun n hn w hw => hhead n (hsize hw) hn w hw)
      (by decide)
  · rw [← order_doublingGraph] at hv hu
    obtain ⟨before, after, horder⟩ := List.mem_iff_append.mp hv
    rw [← NodeGraph.eq_takeWhile_order horder] at hu
    exact absurd ((NodeGraph.precedes_iff horder).mpr hu) hback

end StackLift
