import StackLift.Proofs.DefiniteReads
import StackLift.Proofs.LabelPositions

/-!
Walks through the nodes of a method, and the paths through its code that follow them. A path that
comes to the code of a node has run through all the code of the nodes that it has passed.
-/

namespace StackLift

namespace NodeGraph

variable {g : NodeGraph} {u v : Nat} {passed : List Nat}

/-- Control walks from the entry to a node. The nodes that it passes are listed, the last first. -/
inductive Walk (g : NodeGraph) : Nat → List Nat → Prop
  | entry : Walk g entry []
  | step {u v : Nat} {passed : List Nat} : Walk g u passed → u ∈ g.predecessors v →
    Walk g v (u :: passed)

/-- Every walk to the second node comes to the first. -/
def Dominates (g : NodeGraph) (v u : Nat) : Prop :=
  ∀ passed, g.Walk u passed → v ∈ u :: passed

/-- An edge that goes against the order of simulation leads to a node that dominates its source. -/
def Reducible (g : NodeGraph) : Prop :=
  ∀ {u v}, u ∈ g.predecessors v → ¬ g.Precedes u v → g.Dominates v u

theorem Walk.reaches (walk : g.Walk u passed)
    : g.Reaches u := by
  induction walk with
  | entry => exact .refl
  | step _ edge ih => exact ih.step edge

/-- A walk comes to each node that it passes. -/
theorem Walk.to_member (walk : g.Walk u passed) (hv : v ∈ u :: passed)
    : ∃ earlier, g.Walk v earlier ∧ earlier <:+ passed := by
  induction walk with
  | entry =>
      rw [List.mem_singleton.mp hv]
      exact ⟨[], .entry, List.suffix_refl []⟩
  | @step w u passed walk edge ih =>
      rcases List.mem_cons.mp hv with rfl | hv
      · exact ⟨w :: passed, walk.step edge, List.suffix_refl _⟩
      · obtain ⟨earlier, hwalk, hsuffix⟩ := ih hv
        exact ⟨earlier, hwalk, hsuffix.trans (List.suffix_cons w passed)⟩

/-- In a set that control enters only at nodes with a property, a walk has passed such a node. -/
theorem Walk.exists_of_group (walk : g.Walk u passed) (hentry : g.predecessors NodeGraph.entry = [])
    {group : List Nat} {P : Nat → Prop}
    (hgroup : ∀ n ∈ group, P n ∨ g.predecessors n ≠ [] ∧ g.predecessors n ⊆ group)
    (hu : u ∈ group)
    : ∃ n ∈ u :: passed, P n := by
  induction walk with
  | entry =>
      exact ⟨_, by simp, (hgroup _ hu).resolve_right fun ⟨hne, _⟩ => hne hentry⟩
  | @step u v passed walk edge ih =>
      rcases hgroup v hu with hv | ⟨-, hinside⟩
      · exact ⟨v, by simp, hv⟩
      · obtain ⟨n, hn, hP⟩ := ih (hinside edge)
        exact ⟨n, List.mem_cons_of_mem _ hn, hP⟩

/-- A node dominates what lies outside a set that control leaves only through the node. -/
theorem Dominates.of_closed {inside : List Nat} (hentry : entry = v ∨ entry ∈ inside)
    (hclosed : ∀ n, n ≠ v → ∀ w ∈ g.predecessors n, w ∈ inside → n ∈ inside) (hu : u ∉ inside)
    : g.Dominates v u := by
  have hwalk : ∀ {n passed}, g.Walk n passed → v ∈ n :: passed ∨ n ∈ inside := by
    intro n passed walk
    induction walk with
    | entry => exact hentry.imp (by simp [·]) id
    | @step w n passed walk edge ih =>
        rcases ih with hpassed | hinside
        · exact .inl (List.mem_cons_of_mem n hpassed)
        · by_cases hn : n = v
          · exact .inl (by simp [hn])
          · exact .inr (hclosed n hn w edge hinside)
  exact fun passed walk => (hwalk walk).resolve_right hu

end NodeGraph

-- Paths along walks

/-- The registers that the code of the passed nodes assigns. -/
def assignedOn (nodes : List (List Inst)) (passed : List Nat) : Set RegisterKey :=
  {x | ∃ u ∈ passed, x ∈ assignedIn (nodes.getD u [])}

theorem assignedOn_cons (nodes : List (List Inst)) (u : Nat) (passed : List Nat)
    : assignedOn nodes (u :: passed)
      = assignedIn (nodes.getD u []) ∪ assignedOn nodes passed := by
  ext x
  simp [assignedOn, Set.mem_union]

theorem assignedOn_mono {nodes : List (List Inst)} {passed more : List Nat} (h : passed ⊆ more)
    : assignedOn nodes passed ⊆ assignedOn nodes more :=
  fun _ ⟨u, hu, hx⟩ => ⟨u, h hu, hx⟩

/-- Where a path stands that follows a walk: before the rest of the code of a node, with markers on
the way to it, or before the end of the code.
-/
inductive Follows (g : NodeGraph) (nodes : List (List Inst)) :
    List Inst → Set RegisterKey → Prop
  | inside {n : Nat} {marks done todo : List Inst} {passed : List Nat} {A : Set RegisterKey} :
    g.Walk n passed → (∀ i ∈ marks, i.isMarker = true) → nodes.getD n [] = done ++ todo →
    (∀ i ∈ done, i.proceeds = true) → assignedOn nodes passed ∪ assignedIn done ⊆ A →
    Follows g nodes (marks ++ (todo ++ (nodes.drop (n + 1)).flatten)) A
  | past {marks : List Inst} {A : Set RegisterKey} : (∀ i ∈ marks, i.isMarker = true) →
    Follows g nodes marks A

variable {c : CodeLabel}

/-- A label that is placed once is where a jump to it leads. -/
theorem codeAt_eq {code before after : List Inst}
    (nodup : (placedIn (code.map Inst.control)).Nodup) (h : code = before ++ .label c :: after)
    : codeAt code c = .label c :: after := by
  subst h
  induction before with
  | nil =>
      have hafter : codeAt after c = [] := by
        cases hcode : codeAt after c with
        | nil => rfl
        | cons i rest =>
            obtain rfl := codeAt_eq_cons hcode
            have hplaced : c ∈ placedIn (after.map Inst.control) :=
              mem_placedIn.mpr (List.mem_map.mpr ⟨_, (hcode ▸ codeAt_suffix after c).subset
                List.mem_cons_self, rfl⟩)
            exact absurd hplaced (List.nodup_cons.mp nodup).1
      rw [List.nil_append, codeAt_cons_of_nil hafter, if_pos rfl]
  | cons i before ih =>
      have hcode := ih (List.nodup_append.mp (placedIn_append [i.control] _ ▸ nodup)).2.1
      rw [List.cons_append, codeAt_cons_of_ne (.inr (by simp [hcode])), hcode]

section Paths

variable {m : Method} {graph : MethodGraph} {labels : List (Label × CodeLabel)}
  {nodes : List (List Inst)} {n : Nat} {passed : List Nat} {A : Set RegisterKey}

namespace Layout

/-- Control that goes straight through the code of a node goes on to the next node. -/
theorem falls_of_straight (layout : Layout m graph labels nodes) (live : graph.graph.Reaches n)
    (straight : ∀ i ∈ nodes.getD n [], i.proceeds = true) (hn : n < m.nodes.length)
    : n ∈ graph.graph.predecessors (n + 1) := by
  obtain ⟨plain, closing, hcontrols, -, hclosing⟩ := layout.exists_closing live
  have hproceeds : ∀ k ∈ closing, k ≠ .exit ∧ k.isJump = false := by
    intro k hk
    have hmem : k ∈ (controlsOf nodes n).filter fun k => !k.isMarker := by simp [hcontrols, hk]
    obtain ⟨i, hi, rfl⟩ := List.mem_map.mp (List.mem_filter.mp hmem).1
    have hi := straight i hi
    rw [Inst.proceeds, Bool.and_eq_true, Bool.not_eq_true', Bool.not_eq_true'] at hi
    rw [i.isJump_control, ne_eq, i.isExit_control, hi.1, hi.2]
    simp
  cases hclosing with
  | falls hb =>
      exact layout.models.flow live
        ((Method.flow_of_straight (layout.le_length live) hb).mpr ⟨rfl, hn⟩)
  | exits => exact ((hproceeds .exit (by simp)).1 rfl).elim
  | @jumps cs =>
      have hjump := (hproceeds (.jumps cs) (by simp)).2
      cases hjump

/-- A path at the end of the code of a node stands before the code of a later one. -/
theorem exists_next (layout : Layout m graph labels nodes) {i : Inst} {rest : List Inst}
    (walk : graph.graph.Walk n passed) (straight : ∀ i ∈ nodes.getD n [], i.proceeds = true)
    (hA : assignedOn nodes passed ∪ assignedIn (nodes.getD n []) ⊆ A)
    (hrest : (nodes.drop (n + 1)).flatten = i :: rest)
    : ∃ k passed todo, graph.graph.Walk k passed ∧ nodes.getD k [] = i :: todo
        ∧ rest = todo ++ (nodes.drop (k + 1)).flatten ∧ assignedOn nodes passed ⊆ A := by
  -- The induction is on the number of nodes that are left.
  induction hd : nodes.length - n generalizing n passed with
  | zero =>
      rw [List.drop_of_length_le (by omega)] at hrest
      cases hrest
  | succ d ih =>
      have hlength : n + 1 < nodes.length := by
        by_contra hle
        rw [List.drop_of_length_le (by omega)] at hrest
        cases hrest
      have hsize := layout.size
      have next : graph.graph.Walk (n + 1) (n :: passed) :=
        walk.step (layout.falls_of_straight walk.reaches straight (by omega))
      have hpassed : assignedOn nodes (n :: passed) ⊆ A := by
        rwa [assignedOn_cons, Set.union_comm]
      rw [flatten_drop] at hrest
      cases hcode : nodes.getD (n + 1) [] with
      | nil =>
          rw [hcode, List.nil_append] at hrest
          refine ih next (fun j hj => ?_) ?_ hrest (by omega)
          · rw [hcode] at hj
            cases hj
          · rwa [hcode, assignedIn_nil, Set.union_empty]
      | cons j todo =>
          rw [hcode, List.cons_append, List.cons.injEq] at hrest
          obtain ⟨rfl, hrest⟩ := hrest
          exact ⟨n + 1, n :: passed, todo, next, hcode, hrest.symm, hpassed⟩

/-- Only markers follow a jump in the code of a node, and it closes the node. -/
theorem closing_of_jump (layout : Layout m graph labels nodes) (live : graph.graph.Reaches n)
    {done todo : List Inst} {i : Inst} (hcode : nodes.getD n [] = done ++ i :: todo)
    (hi : i.isBranching = true)
    : (∀ j ∈ todo, j.isMarker = true) ∧ Closing m nodes n [i.control] := by
  obtain ⟨plain, closing, hcontrols, hplain, hclosing⟩ := layout.exists_closing live
  have hmarker := (Inst.of_isBranching hi).1
  have hsplit : (done.map Inst.control).filter (fun k => !k.isMarker)
      ++ i.control :: (todo.map Inst.control).filter (fun k => !k.isMarker) = plain ++ closing := by
    rw [← hcontrols, controlsOf, hcode]
    simp [Inst.isMarker_control, hmarker]
  have hnotPlain : i.control ∉ plain := by
    intro hmem
    have hjump := (hplain _ hmem).2
    rw [i.isJump_control, hi] at hjump
    cases hjump
  have hmem : i.control ∈ closing := by
    have hboth : i.control ∈ plain ++ closing := by simp [← hsplit]
    exact (List.mem_append.mp hboth).resolve_left hnotPlain
  obtain rfl : closing = [i.control] := by
    obtain ⟨k, rfl⟩ := List.length_eq_one_iff.mp
      (Nat.le_antisymm hclosing.length_le (List.length_pos_of_mem hmem))
    rw [List.mem_singleton.mp hmem]
  refine ⟨fun j hj => ?_, hclosing⟩
  have htodo : (todo.map Inst.control).filter (fun k => !k.isMarker) = [] := by
    rcases List.eq_nil_or_concat ((todo.map Inst.control).filter fun k => !k.isMarker) with
      hnil | ⟨init, last, hlast⟩
    · exact hnil
    · rw [hlast, List.concat_eq_append, ← List.cons_append, ← List.append_assoc] at hsplit
      exact (hnotPlain (by simp [← (List.append_inj' hsplit rfl).1])).elim
  have := List.filter_eq_nil_iff.mp htodo j.control (List.mem_map_of_mem hj)
  simpa [Inst.isMarker_control] using this

variable {fresh : CodeLabel} {marks : List Inst}

theorem exists_code_of_last {before : List Control} (h : controlsOf nodes n = before ++ [.label c])
    : ∃ code, nodes.getD n [] = code ++ [Inst.label c] := by
  obtain ⟨code, after, hcode, hbefore⟩ := exists_inst_of_control h
  rw [controlsOf, hcode, List.map_append, hbefore, List.append_cancel_left_eq] at h
  obtain rfl : after = [] := by simpa [Inst.control] using h
  exact ⟨code, hcode⟩

variable (layout : Layout m graph labels nodes) (hmarks : Hoisted fresh marks)
include layout hmarks

section

variable (hfresh : ∀ n, .label fresh ∉ controlsOf nodes n)
include hfresh

/-- A jump to a label that stands before a node leads to the code of the node. -/
theorem exists_codeAt (hc : StandsAt nodes c n)
    : ∃ lead, (∀ i ∈ lead, i.isMarker = true)
        ∧ codeAt (marks ++ nodes.flatten) c = lead ++ (nodes.drop n).flatten := by
  have nodup := layout.nodup_code hmarks hfresh
  cases hc with
  | @lead _ rest hlead =>
      obtain ⟨B, C, hcode, hB⟩ := exists_inst_of_control
        (show controlsOf nodes n = [] ++ .label c :: rest from hlead)
      obtain rfl : B = [] := List.map_eq_nil_iff.mp hB.symm
      have hplace : marks ++ nodes.flatten = (marks ++ (nodes.take n).flatten)
          ++ .label c :: (C ++ (nodes.drop (n + 1)).flatten) := by
        rw [flatten_split nodes n, hcode]
        simp
      refine ⟨[], by simp, ?_⟩
      rw [codeAt_eq nodup hplace, flatten_drop nodes n, hcode]
      rfl
  | @last u before hlast =>
      obtain ⟨B, hcode⟩ := exists_code_of_last hlast
      have hplace : marks ++ nodes.flatten = (marks ++ ((nodes.take u).flatten ++ B))
          ++ .label c :: (nodes.drop (u + 1)).flatten := by
        rw [flatten_split nodes u, hcode]
        simp
      exact ⟨[.label c], by simp [Inst.isMarker], codeAt_eq nodup hplace⟩

theorem follows_codeAt (walk : graph.graph.Walk n passed) (hA : assignedOn nodes passed ⊆ A)
    (hc : StandsAt nodes c n)
    : Follows graph.graph nodes (codeAt (marks ++ nodes.flatten) c) A := by
  obtain ⟨lead, hlead, hcode⟩ := layout.exists_codeAt hmarks hfresh hc
  rw [hcode, flatten_drop]
  exact .inside walk hlead (List.nil_append _).symm (by simp) (by simpa using hA)

/-- A jump past the last node leads to the end of the code. -/
theorem follows_codeAt_end (hn : n = m.nodes.length) (hc : StandsAt nodes c (n + 1))
    : Follows graph.graph nodes (codeAt (marks ++ nodes.flatten) c) A := by
  have hsize := layout.size
  obtain ⟨lead, hlead, hcode⟩ := layout.exists_codeAt hmarks hfresh hc
  rw [hcode, List.drop_of_length_le (by omega), List.flatten_nil, List.append_nil]
  exact .past hlead

end

omit hmarks in
/-- A path that stands before an instruction which is no marker stands in the code of a node. -/
theorem exists_inside {i : Inst} {rest : List Inst} (h : Follows graph.graph nodes (i :: rest) A)
    : (i.isMarker = true ∧ Follows graph.graph nodes rest A)
      ∨ ∃ n passed done todo, graph.graph.Walk n passed ∧ nodes.getD n [] = done ++ i :: todo
        ∧ rest = todo ++ (nodes.drop (n + 1)).flatten ∧ (∀ j ∈ done, j.proceeds = true)
        ∧ assignedOn nodes passed ∪ assignedIn done ⊆ A := by
  generalize hcode : i :: rest = code at h
  cases h with
  | past hmarks =>
      subst hcode
      refine .inl ⟨hmarks i (by simp), .past fun j hj => hmarks j (by simp [hj])⟩
  | @inside n marks done todo passed A walk hmarks hnode straight hA =>
      cases marks with
      | cons j marks =>
          rw [List.cons_append, List.cons.injEq] at hcode
          obtain ⟨rfl, rfl⟩ := hcode
          refine .inl ⟨hmarks i (by simp), ?_⟩
          exact .inside walk (fun j hj => hmarks j (by simp [hj])) hnode straight hA
      | nil =>
          rw [List.nil_append] at hcode
          cases todo with
          | cons j todo =>
              rw [List.cons_append, List.cons.injEq] at hcode
              obtain ⟨rfl, rfl⟩ := hcode
              exact .inr ⟨n, passed, done, todo, walk, hnode, rfl, straight, hA⟩
          | nil =>
              rw [List.append_nil] at hnode
              subst hnode
              obtain ⟨k, passed, todo, walk, hnode, hrest, hA⟩ :=
                layout.exists_next walk straight hA hcode.symm
              exact .inr ⟨k, passed, [], todo, walk, hnode, hrest, by simp, by simpa using hA⟩

/-- Every path follows a walk. -/
theorem follows_of_arrives (hfresh : ∀ n, .label fresh ∉ controlsOf nodes n) {rest : List Inst}
    (h : Arrives (marks ++ nodes.flatten) rest A)
    : Follows graph.graph nodes rest A := by
  induction h with
  | start =>
      have hstart : nodes.flatten = nodes.getD 0 [] ++ (nodes.drop (0 + 1)).flatten := by
        rw [← flatten_drop, List.drop_zero]
      rw [hstart]
      refine .inside .entry ?_ (List.nil_append _).symm (by simp) (by simp [assignedOn])
      cases hmarks <;> simp [Inst.isMarker]
  | @proceed i rest A _ hproceeds ih =>
      rcases layout.exists_inside ih with ⟨hi, hrest⟩ | ⟨n, passed, done, todo, walk, hnode, rfl,
        straight, hA⟩
      · simpa [Inst.assigned?_of_isMarker hi] using hrest
      · have hdone : nodes.getD n [] = (done ++ [i]) ++ todo := by
          rw [hnode, List.append_assoc, List.singleton_append]
        change Follows _ nodes ([] ++ (todo ++ _)) _
        refine .inside walk (by simp) hdone ?_ ?_
        · intro j hj
          rcases List.mem_append.mp hj with hj | hj
          · exact straight j hj
          · rwa [List.mem_singleton.mp hj]
        · rw [assignedIn_append, ← Set.union_assoc]
          refine Set.union_subset_union hA ?_
          simp
  | @jump i rest A c _ hc ih =>
      have hjumps : i.isBranching = true := by
        cases i <;> first | rfl | cases hc
      obtain ⟨hmarker, hterminating, hassigned⟩ := Inst.of_isBranching hjumps
      rcases layout.exists_inside ih with ⟨hi, -⟩ | ⟨n, passed, done, todo, walk, hnode, rfl,
        straight, hA⟩
      · cases hmarker.symm.trans hi
      · obtain ⟨hmarkers, hclosing⟩ := layout.closing_of_jump walk.reaches hnode hjumps
        have hpassed : assignedOn nodes (n :: passed) ⊆ A := by
          have htodo : assignedIn todo = ∅ :=
            assignedIn_eq_empty fun j hj => Inst.assigned?_of_isMarker (hmarkers j hj)
          rw [assignedOn_cons, hnode, Set.union_comm]
          simpa [hassigned, htodo] using hA
        generalize hcontrol : [i.control] = closing at hclosing
        cases hclosing with
        | falls => cases hcontrol
        | exits =>
            rw [List.singleton_inj, i.isExit_control] at hcontrol
            cases hterminating.symm.trans hcontrol
        | @jumps cs _ honly =>
            rw [List.singleton_inj] at hcontrol
            rw [← i.targets_control, hcontrol] at hc
            obtain ⟨v, hplace, hflow | ⟨rfl, hend, -⟩⟩ := honly c hc
            · exact layout.follows_codeAt hmarks hfresh
                (walk.step (layout.models.flow walk.reaches hflow)) hpassed hplace
            · exact layout.follows_codeAt_end hmarks hfresh hend hplace

/-- Code assigns registers before it reads them if the code of each node does so after every walk to
the node.
-/
theorem assignedBeforeRead_of_walks
    (hfresh : ∀ n, .label fresh ∉ controlsOf nodes n)
    (reads : ∀ {n passed}, graph.graph.Walk n passed →
      ReadsAssigned (assignedOn nodes passed) (nodes.getD n []))
    : AssignedBeforeRead (marks ++ nodes.flatten) := by
  intro i rest A harrives x hx
  rcases layout.exists_inside (layout.follows_of_arrives hmarks hfresh harrives) with
    ⟨hi, -⟩ | ⟨n, passed, done, todo, walk, hnode, -, -, hA⟩
  · rw [Inst.readKeys_of_isMarker hi] at hx
    cases hx
  · have hreads := reads walk
    rw [hnode] at hreads
    exact hA (hreads.of_split hx)

end Layout

end Paths

end StackLift
