import StackLift.Proofs.SimulatedReads

/-!
What the code of nodes reads after the copies and jumps are inserted. Copies read registers of the
frame after their node, and what a branch reads is assigned before the branch or saved in front of
it.
-/

namespace StackLift

open Inst

variable {A K F : Set RegisterKey} {N : Nat} {p : Plan} {node : Nat} {s s' start : LiftState}
  {code before after : List Inst} {target : Register} {source : Value} {content : Option Node}

-- Jumps

/-- A jump reads registers that are assigned before its node, and registers that save values, whose
indices start at a bound. The key of a switch is saved as a whole.
-/
def Inst.JumpReads (K : Set RegisterKey) (N : Nat) : Inst → Prop
  | .switch key cases _ =>
    (key.Within (·.key ∈ K) ∨ key.Within (N ≤ ·.index)) ∧ ∀ c ∈ cases, c.1.Within (·.key ∈ K)
  | i => i.Within fun r => r.key ∈ K ∨ N ≤ r.index

theorem Inst.within_readKeys {i : Inst} (h : i.isBranching = true)
    : i.Within (·.key ∈ i.readKeys) := by
  constructor
  · intro r hr
    cases i <;> first | exact mem_keysOf.mpr ⟨r, hr, rfl⟩ | cases h
  · intro target source heq
    subst heq
    cases h

theorem Inst.JumpReads.of_within {i : Inst} (h : i.Within (·.key ∈ K))
    : i.JumpReads K N := by
  cases i with
  | switch key cases default =>
      obtain ⟨hkey, hcases⟩ := within_switch.mp h
      exact ⟨.inl hkey, hcases⟩
  | _ => exact h.mono fun _ => .inl

theorem Value.Within.of_occursIn {P : Register → Prop} (hP : ∀ r q, r.key = q.key → P r → P q)
    {v : Value} (hv : v.Within P) (h : (Value.register target).occursIn v = true)
    : P target := by
  obtain ⟨u, hu, hsame⟩ := List.any_eq_true.mp h
  obtain ⟨r, rfl, hk⟩ := Value.same_register_iff.mp (of_decide_eq_true hsame)
  exact hP r target hk (hv r hu)

/-- The code with a copy before a jump: what the jump reads may be saved in front of the code. -/
inductive BeforeJump (K : Set RegisterKey) (N : Nat) (copy : Inst) (before : List Inst)
    (jump : Inst) (after : List Inst) : List Inst → Prop
  | plain : BeforeJump K N copy before jump after (before ++ copy :: jump :: after)
  | saved {q : Register} {v : Value} {jump' : Inst} : v.Within (·.key ∈ K) →
    jump'.JumpReads K N → jump'.Within (fun r => r.key ∈ jump.readKeys ∨ r.key = q.key) →
    BeforeJump K N copy before jump after
      (.assign (.register q) (.value v) :: (before ++ copy :: jump' :: after))

theorem beforeJump_cases {rs : Registers} {copy jump : Inst} (hN : N ≤ rs.next)
    (ht : target.index < N) (hjump : jump.isBranching = true) (hreads : jump.JumpReads K N)
    : BeforeJump K N copy before jump after
        (beforeJump rs (.register target) copy before jump after).1 := by
  have hwithin := within_readKeys hjump
  unfold beforeJump
  split
  next key cases default =>
    split
    next hoccurs =>
      have hkey : key.Within (·.key ∈ K) := by
        refine hreads.1.resolve_right fun hsaved => Nat.not_le.mpr ht ?_
        exact hsaved.of_occursIn (fun r q hk hr => Register.index_eq_of_key hk ▸ hr) hoccurs
      refine .saved hkey ⟨.inr (Value.within_register.mpr hN), hreads.2⟩ ?_
      rw [within_switch] at hwithin ⊢
      refine ⟨Value.within_register.mpr (.inr rfl), fun c hc => ?_⟩
      exact (hwithin.2 c hc).mono fun _ => .inl
    next => exact .plain
  next condition onTrue onFalse =>
    split
    next hoccurs =>
      have hcongr : ∀ r q : Register, r.key = q.key → r.key ∈ K ∨ N ≤ r.index →
          q.key ∈ K ∨ N ≤ q.index :=
        fun r q hk hr => hk ▸ Register.index_eq_of_key hk ▸ hr
      have hboth := within_branch.mp hreads
      have htarget : target.key ∈ K := by
        refine Or.resolve_right ?_ (Nat.not_le.mpr ht)
        rcases Bool.or_eq_true_iff.mp hoccurs with hoccurs | hoccurs
        · exact hboth.1.of_occursIn hcongr hoccurs
        · exact hboth.2.of_occursIn hcongr hoccurs
      exact .saved (Value.within_register.mpr htarget) (within_saved hreads (.inr hN))
        (within_saved (hwithin.mono fun _ => .inl) (.inr rfl))
    next => exact .plain
  next => exact .plain

-- Copies

/-- The code of a node can run after the registers before the node are assigned, and then those of
its frame are. A branch assigns none of them.
-/
structure ReadyNode (K F : Set RegisterKey) (N : Nat) (content : Option Node) (code : List Inst) :
    Prop where
  supplies : Supplies K F code
  exits : ∀ b, content = some (.branch b) →
    F ⊆ K ∧ ∀ i ∈ code, i.isBranching = true → i.JumpReads K N

namespace ReadyNode

theorem of_supplies (h : Supplies K F code)
    (hexits : ∀ b, content = some (.branch b) → assignedIn code = ∅)
    : ReadyNode K F N content code where
  supplies := h
  exits b hb := by
    have hnone := hexits b hb
    refine ⟨by simpa [hnone] using h.assigned, fun i hi hbranching => .of_within ?_⟩
    obtain ⟨before, after, rfl⟩ := List.mem_iff_append.mp hi
    have hbefore : assignedIn before = ∅ := by
      rw [assignedIn_append, Set.union_empty_iff] at hnone
      exact hnone.1
    refine (within_readKeys hbranching).mono fun r hr => ?_
    simpa [hbefore] using h.reads.of_split hr

/-- A copy or jump at the end of the code. -/
theorem append (h : ReadyNode K F N content code) {i : Inst} (hi : ∀ x ∈ i.readKeys, x ∈ F)
    (hjump : i.isBranching = true → i.JumpReads K N)
    : ReadyNode K F N content (code ++ [i]) where
  supplies := (h.supplies.append hi).mono (Set.Subset.refl _) Set.subset_union_left
  exits b hb := by
    obtain ⟨hF, hjumps⟩ := h.exits b hb
    refine ⟨hF, fun j hj hbranching => ?_⟩
    rcases List.mem_append.mp hj with hj | hj
    · exact hjumps j hj hbranching
    · rw [List.mem_singleton.mp hj] at hbranching ⊢
      exact hjump hbranching

/-- A label at the start of the code. -/
theorem lead (h : ReadyNode K F N content code) (l : CodeLabel)
    : ReadyNode K F N content (.label l :: code) where
  supplies := ⟨⟨nofun, h.supplies.reads.mono Set.subset_union_left⟩,
    by simpa [assigned?] using h.supplies.assigned⟩
  exits b hb := by
    obtain ⟨hF, hjumps⟩ := h.exits b hb
    refine ⟨hF, List.forall_mem_cons.mpr ⟨fun hlabel => ?_, hjumps⟩⟩
    cases hlabel

/-- A copy inside the code of a branch. -/
theorem insert (h : ReadyNode K F N content (before ++ after)) {b : Branch}
    (hb : content = some (.branch b)) {copy : Inst}
    (hcopy : ∀ x ∈ copy.readKeys, x ∈ F) (hplain : copy.isBranching = false)
    : ReadyNode K F N content (before ++ copy :: after) := by
  obtain ⟨hF, hjumps⟩ := h.exits b hb
  refine ⟨⟨h.supplies.reads.insert fun x hx => hF (hcopy x hx), hF.trans Set.subset_union_left⟩,
    fun _ _ => ⟨hF, fun i hi hbranching => ?_⟩⟩
  rcases List.mem_append.mp hi with hi | hi
  · exact hjumps i (List.mem_append_left _ hi) hbranching
  · rcases List.mem_cons.mp hi with rfl | hi
    · rw [hplain] at hbranching
      cases hbranching
    · exact hjumps i (List.mem_append_right _ hi) hbranching

/-- A copy inside the code of a branch that reads the target. -/
theorem beforeJump {copy jump : Inst} (h : ReadyNode K F N content (before ++ jump :: after))
    {b : Branch} (hb : content = some (.branch b)) (hjump : jump.isBranching = true)
    (hcopy : ∀ x ∈ copy.readKeys, x ∈ F) (hplain : copy.isBranching = false)
    (hcode : BeforeJump K N copy before jump after code)
    : ReadyNode K F N content code := by
  cases hcode with
  | plain => exact h.insert hb hcopy hplain
  | @saved q v jump' hv hreads hwithin =>
      obtain ⟨hF, hjumps⟩ := h.exits b hb
      refine ⟨⟨?_, hF.trans Set.subset_union_left⟩, fun _ _ => ⟨hF, fun i hi hbranching => ?_⟩⟩
      · refine h.supplies.reads.save (of_isBranching hjump).2.2
          (Expr.within_value.mpr hv).readKeys_assign (fun x hx => hF (hcopy x hx)) fun x hx => ?_
        rcases Within.readKeys (A := {x | x ∈ jump.readKeys ∨ x = q.key}) hwithin x hx with hx | hx
        · exact .inl hx
        · exact .inr (congrArg some hx.symm)
      · rcases List.mem_cons.mp hi with rfl | hi
        · cases hbranching
        · rcases List.mem_append.mp hi with hi | hi
          · exact hjumps i (List.mem_append_left _ hi) hbranching
          · rcases List.mem_cons.mp hi with rfl | hi
            · rw [hplain] at hbranching
              cases hbranching
            · rcases List.mem_cons.mp hi with rfl | hi
              · exact hreads
              · exact hjumps i (List.mem_append_right _ (List.mem_cons_of_mem _ hi)) hbranching

/-- A copy from the frame of the node. -/
theorem insertCopy (h : ReadyNode K F N content code) {rs : Registers} (hN : N ≤ rs.next)
    (ht : target.index < N) (hsource : source.Within (·.key ∈ F))
    : ReadyNode K F N content (insertCopy rs content (.register target) source code).1 := by
  have hcopy : ∀ x ∈ (assign (.register target) (.value source)).readKeys, x ∈ F :=
    (Expr.within_value.mpr hsource).readKeys_assign
  unfold StackLift.insertCopy
  dsimp only [Registers.fst_assign]
  split
  next => exact h.append hcopy nofun
  next node =>
    have hbranch : node.isTerminal = true ∨ node.isBranching = true → ∃ b, node = .branch b := by
      cases node <;> simp [Node.isTerminal, Node.isBranching]
    split
    next hterminal =>
      obtain ⟨b, rfl⟩ := hbranch (.inl hterminal)
      refine ReadyNode.insert ?_ rfl hcopy rfl
      rwa [List.take_append_drop]
    next =>
      split
      next hbranching =>
        obtain ⟨b, rfl⟩ := hbranch (.inr hbranching)
        split
        next => exact h.append hcopy nofun
        next jump after hdrop =>
          have hjump := List.head?_dropWhile_not (fun i : Inst => !i.isBranching) code
          rw [hdrop] at hjump
          have hjump : jump.isBranching = true := by simpa using hjump
          have hcode : code.takeWhile (fun i => !i.isBranching) ++ jump :: after = code := by
            rw [← hdrop, List.takeWhile_append_dropWhile]
          rw [← hcode] at h
          refine h.beforeJump rfl hjump hcopy rfl (beforeJump_cases ?_ ht hjump ?_)
          · rwa [Registers.next_assign]
          · exact (h.exits b rfl).2 jump (by simp) hjump
      next => exact h.append hcopy nofun

end ReadyNode

/-- A copy assigns its target and keeps all other assignments. -/
theorem assignedIn_insertCopy (rs : Registers) (content : Option Node) (target : Register)
    (source : Value) (code : List Inst)
    : assignedIn code ∪ {target.key}
      ⊆ assignedIn (insertCopy rs content (.register target) source code).1 := by
  have hinserted := inserted_insertCopy rs content target source code
  apply Set.union_subset
  · intro x ⟨i, hi, hx⟩
    refine ⟨i, hinserted.keeps hi ?_, hx⟩
    by_contra hbranching
    rw [Bool.not_eq_false] at hbranching
    cases (of_isBranching hbranching).2.2.symm.trans hx
  · exact Set.singleton_subset_iff.mpr ⟨_, hinserted.copy_mem, rfl⟩

-- States

/-- The state while copies and jumps are inserted. The code of each node is ready, and assigns at
least the given registers.
-/
structure Copying (p : Plan) (start : LiftState) (A : Nat → Set RegisterKey) (s : LiftState) :
    Prop where
  size : s.code.size = start.code.size
  frames : s.frames = start.frames
  refinements : s.refinements = start.refinements
  merges : s.merges = start.merges
  next : start.registers.next ≤ s.registers.next
  ready : ∀ n, ReadyNode (p.keysBefore start n) (start.keysAfter n) start.registers.next
    (p.node? n) (s.codeOf n)
  assigned : ∀ n, A n ⊆ assignedIn (s.codeOf n)

namespace LiftM

variable {A : Nat → Set RegisterKey}

/-- Changing the code of a node, which stays ready and keeps its assignments. -/
theorem Copying.edit (hs : Copying p start A s) {edit : List Inst → List Inst}
    (hcode : s'.code = s.code.modify node edit) (frames : s'.frames = s.frames)
    (refinements : s'.refinements = s.refinements) (merges : s'.merges = s.merges)
    (next : s.registers.next ≤ s'.registers.next)
    (ready : ReadyNode (p.keysBefore start node) (start.keysAfter node) start.registers.next
      (p.node? node) (edit (s.codeOf node)))
    (assigned : assignedIn (s.codeOf node) ⊆ assignedIn (edit (s.codeOf node)))
    : ∃ A', A ≤ A' ∧ Copying p start A' s'
        ∧ (node < start.code.size → assignedIn (edit (s.codeOf node)) ⊆ A' node) := by
  have hof : ∀ n, s'.codeOf n = if node = n ∧ n < s.code.size then edit (s.codeOf n)
      else s.codeOf n := codeOf_modify hcode
  refine ⟨fun n => assignedIn (s'.codeOf n), fun n => ?_, ⟨?_, frames.trans hs.frames,
    refinements.trans hs.refinements, merges.trans hs.merges, Nat.le_trans hs.next next,
    fun n => ?_, fun n => Set.Subset.refl _⟩, fun hn => ?_⟩
  · refine (hs.assigned n).trans ?_
    change _ ⊆ assignedIn (s'.codeOf n)
    rw [hof]
    split
    next h => exact h.1 ▸ assigned
    next => exact Set.Subset.refl _
  · simp [hcode, hs.size]
  · rw [hof]
    split
    next h => exact h.1 ▸ ready
    next => exact hs.ready n
  · change _ ⊆ assignedIn (s'.codeOf node)
    rw [hof, if_pos ⟨rfl, hs.size ▸ hn⟩]

theorem copying_copy (hn : node < start.code.size) (ht : target.index < start.registers.next)
    (hsource : source.Within (·.key ∈ start.keysAfter node))
    : Ensures (Copying p start) A (copy p node (.register target) source)
        fun A' _ => target.key ∈ A' node := by
  intro s _ s' hs hx
  have hready := (hs.ready node).insertCopy hs.next ht hsource
  have hassigned := assignedIn_insertCopy s.registers (p.node? node) target source (s.codeOf node)
  have hnext := next_le_insertCopy s.registers (p.node? node) target source (s.codeOf node)
  generalize hcopied : insertCopy s.registers (p.node? node) (.register target) source
    (s.codeOf node) = copied at hready hassigned hnext
  obtain ⟨hcode, hframes, hrefinements, hmerges, hregisters⟩ :
      s'.code = s.code.modify node (fun _ => copied.1) ∧ s'.frames = s.frames
        ∧ s'.refinements = s.refinements ∧ s'.merges = s.merges ∧ s'.registers = copied.2 := by
    subst hcopied
    cases hx
    exact ⟨rfl, rfl, rfl, rfl, rfl⟩
  obtain ⟨A', hA, hs', hnode⟩ := Copying.edit hs hcode hframes hrefinements hmerges
    (hregisters ▸ hnext) hready (Set.union_subset_iff.mp hassigned).1
  exact ⟨A', hA, hs', hnode hn (hassigned (.inr rfl))⟩

/-- A predecessor of a join has no value for a register of the join, has the register itself, or is
in a group of nodes that copy into the register or are entered from the group only.
-/
def Provides (p : Plan) (start : LiftState) (A : Nat → Set RegisterKey) (m : Merge) (u : Nat) :
    Prop :=
  (∀ f, start.frameOf? u = some f → m.place.value? f = none)
    ∨ m.target.key ∈ start.keysAfter u
    ∨ ∃ group : List Nat, u ∈ group ∧ ∀ n ∈ group, m.target.key ∈ A n
      ∨ p.graph.graph.predecessors n ≠ [] ∧ p.graph.graph.predecessors n ⊆ group

theorem lasting_provides (m : Merge)
    : Lasting fun A => ∀ u ∈ p.graph.graph.predecessors m.node, Provides p start A m u := by
  intro A A' hA h u hu
  rcases h u hu with hnone | hkeys | ⟨group, hgroup, hcopies⟩
  · exact .inl hnone
  · exact .inr (.inl hkeys)
  · exact .inr (.inr ⟨group, hgroup, fun n hn => (hcopies n hn).imp (hA n ·) id⟩)

/-- The copies for one register of a join. -/
theorem copying_mergeCopies {m : Merge} (hsize : ∀ n f, start.frameOf? n = some f →
      n < start.code.size) (ht : m.target.index < start.registers.next)
    : Ensures (Copying p start) A (do
        let groups ← requiredCopies p m
        groups.forM (insertGroup p (.register m.target)))
        fun A' _ => ∀ u ∈ p.graph.graph.predecessors m.node, Provides p start A' m u := by
  refine ensures_requiredCopies.bind fun A₁ groups _ ⟨s, hs, hgroups⟩ => ?_
  have hframes : s.frameOf? = start.frameOf? := by
    funext n
    rw [LiftState.frameOf?, hs.frames, LiftState.frameOf?]
  rw [hframes] at hgroups
  have hlasting : ∀ n : Nat, Lasting fun A : Nat → Set RegisterKey => m.target.key ∈ A n :=
    fun n _ _ hA hm => hA n hm
  have hgroup : ∀ g ∈ groups, ∀ A', A₁ ≤ A' →
      Ensures (Copying p start) A' (insertGroup p (.register m.target) g) fun A'' _ =>
        ∀ n ∈ g.nodes, m.target.key ∈ A'' n
          ∨ p.graph.graph.predecessors n ≠ [] ∧ p.graph.graph.predecessors n ⊆ g.nodes := by
    refine fun g hg A' _ => (ensures_insertGroup (Q := fun _ => True) hlasting
      (fun n hn A'' _ => ?_) fun _ _ _ _ _ _ => trivial).weaken fun _ _ _ h n hn =>
        (h n hn).imp id fun hinside => ⟨hinside.1, hinside.2.1⟩
    obtain ⟨f, v, hf, hv, hsame, -⟩ := hgroups.holds g hg n hn
    refine copying_copy (hsize n f hf) ht ?_
    have hv : v.Within (·.key ∈ f.keys) :=
      within_place (Frame.within_keys.mpr (Set.Subset.refl f.keys)) hv
    refine (hv.same (fun r q hk (hr : r.key ∈ f.keys) => hk ▸ hr) hsame).mono fun r hr => ?_
    exact ⟨f, hf, hr⟩
  refine (Ensures.forM (R := fun (A : Nat → Set RegisterKey) (g : CopyGroup) =>
    ∀ n ∈ g.nodes, m.target.key ∈ A n
      ∨ p.graph.graph.predecessors n ≠ [] ∧ p.graph.graph.predecessors n ⊆ g.nodes)
    (fun g _ _ hA h n hn => (h n hn).imp (hlasting n hA) id) hgroup).weaken
    fun A₂ _ _ hall u hu => ?_
  by_cases hnone : ∀ f, start.frameOf? u = some f → m.place.value? f = none
  · exact .inl hnone
  · obtain ⟨f, hnone⟩ := not_forall.mp hnone
    obtain ⟨hf, hvalue⟩ := Classical.not_imp.mp hnone
    obtain ⟨v, hv⟩ := Option.ne_none_iff_exists'.mp hvalue
    by_cases hsame : v.Same (.register m.target)
    · refine .inr (.inl ⟨f, hf, ?_⟩)
      obtain ⟨q, rfl, hk⟩ := Value.same_register_iff.mp hsame
      rw [← hk]
      exact Value.within_register.mp
        (within_place (Frame.within_keys.mpr (Set.Subset.refl f.keys)) hv)
    · obtain ⟨g, hg, -, hmem⟩ := hgroups.covers u hu f v hf hv hsame
      exact .inr (.inr ⟨g.nodes, hmem, hall g hg⟩)

theorem copying_editCode {edit : List Inst → List Inst}
    (ready : ∀ {K F N content code}, ReadyNode K F N content code →
      ReadyNode K F N content (edit code))
    (assigned : ∀ code, assignedIn code ⊆ assignedIn (edit code))
    : Ensures (Copying p start) A (editCode node edit) fun _ _ => True := by
  intro s _ s' hs hx
  obtain ⟨hcode, hframes, hrefinements, hmerges, hregisters⟩ :
      s'.code = s.code.modify node edit ∧ s'.frames = s.frames
        ∧ s'.refinements = s.refinements ∧ s'.merges = s.merges ∧ s'.registers = s.registers := by
    cases hx
    exact ⟨rfl, rfl, rfl, rfl, rfl⟩
  obtain ⟨A', hA, hs', -⟩ := Copying.edit hs hcode hframes hrefinements hmerges
    (hregisters ▸ Nat.le_refl _) (ready (hs.ready node)) (assigned _)
  exact ⟨A', hA, hs', trivial⟩

theorem jumpRules_copying
    : JumpRules (Copying p start) where
  freshLabel := by
    intro A s l s' hs hx
    cases hx
    exact ⟨A, le_refl A, { hs with }, trivial⟩
  label := by
    refine copying_editCode (fun h => h.lead _) fun code => ?_
    rw [assignedIn_cons]
    exact Set.subset_union_right
  jump := by
    refine copying_editCode (fun h => h.append ?_ fun _ => .of_within within_jump)
      fun code => ?_
    · exact fun x hx => nomatch hx
    · rw [assignedIn_append]
      exact Set.subset_union_left

end LiftM

theorem Inst.assigned?_markResult (i : Inst)
    : i.markResult.assigned? = i.assigned? := by
  unfold markResult
  split <;> rfl

theorem Inst.readKeys_markResult (i : Inst)
    : i.markResult.readKeys = i.readKeys := by
  unfold markResult
  split <;> rfl

/-- After the simulation all nodes are ready for copies. -/
theorem Prepared.copying (h : Prepared p p.graph.graph.order s)
    : Copying p s (fun _ => ∅) { s with code := s.code.map (List.map markResult) } where
  size := by simp
  frames := rfl
  refinements := rfl
  merges := rfl
  next := Nat.le_refl _
  ready n := by
    rw [LiftM.codeOf_mapCode]
    by_cases hn : n ∈ p.graph.graph.order
    · have hassigned : assignedIn ((s.codeOf n).map markResult) = assignedIn (s.codeOf n) :=
        assignedIn_map assigned?_markResult
      refine .of_supplies ⟨?_, ?_⟩ ?_
      · rw [ReadsAssigned.map_iff assigned?_markResult readKeys_markResult]
        exact (h.supplies n hn).reads
      · rw [hassigned]
        exact (h.supplies n hn).assigned
      · rw [hassigned]
        exact h.exits n hn
    · rw [h.fresh n hn]
      refine .of_supplies ⟨trivial, fun x ⟨f, hf, _⟩ => ?_⟩ (by simp)
      exact absurd ((h.frames n).mp (by simp [hf])) hn
  assigned n := Set.empty_subset _

/-- Lifting prepares the nodes, and then provides the registers of joins. -/
theorem exists_copying {code : List Inst} (hranges : p.method.ranges = [])
    (hcontent : ∀ n frame, p.node? n ≠ some (.frame frame))
    (hx : (LiftM.liftCode p).run (.initial p) = .ok (code, s))
    : ∃ start A, Prepared p p.graph.graph.order start ∧ Copying p start A s
        ∧ ∀ m ∈ start.merges, ∀ u ∈ p.graph.graph.predecessors m.node,
          LiftM.Provides p start A m u := by
  obtain ⟨-, s₁, s₃, hsimulation, hcopies, hjumps⟩ := steps_of_liftCode hx
  have h := (prepared_initial p).forM_visit hranges hcontent (List.nil_append _).symm hsimulation
  have hsize : ∀ n f, s₁.frameOf? n = some f → n < s₁.code.size := by
    intro n f hf
    rw [h.codeSize]
    exact p.graph.graph.lt_size_of_mem_order ((h.frames n).mp (by simp [hf]))
  have hmerge : ∀ s, Copying p s₁ (fun _ => ∅) s → ∀ m ∈ s.merges, ∀ A, (fun _ => ∅) ≤ A →
      LiftM.Ensures (Copying p s₁) A (do
        let groups ← LiftM.requiredCopies p m
        groups.forM (LiftM.insertGroup p (.register m.target)))
        fun A' _ => ∀ u ∈ p.graph.graph.predecessors m.node, LiftM.Provides p s₁ A' m u := by
    intro s hs m hm A _
    exact LiftM.copying_mergeCopies hsize (h.made m (hs.merges ▸ hm))
  obtain ⟨A, -, hs₃, s, hs, hprovides⟩ :=
    LiftM.ensures_insertCopies LiftM.lasting_provides hmerge _ _ s₃ h.copying hcopies
  obtain ⟨A', hA, hs₄, -⟩ := LiftM.jumpRules_copying.insertJumps _ _ _ hs₃ hjumps
  refine ⟨s₁, A', h, hs₄, fun m hm => LiftM.lasting_provides m hA (hprovides m ?_)⟩
  rwa [hs.merges]

end StackLift
