import StackLift.Proofs.CompleteOrder
import StackLift.Proofs.CopyRules
import StackLift.Proofs.LiftedNodes

/-!
The copies and jumps after the simulation. Each register of a join is copied from something older,
since control enters every set of nodes through one that copies.
-/

namespace StackLift

open Inventory Substitution Value Registers

variable {P : Register → Prop} {target : Register} {code : List Inst} {s : LiftState}

theorem Inst.Within.rename {P Q : Register → Prop} {f : Value → Value}
    {σ : RegisterKey → RegisterKey} (hf : Renames f σ)
    (h : ∀ r q, P r → q.key = σ r.key → Q q) {i : Inst} (hi : i.Within P)
    : (i.rename f).Within Q := by
  refine hi.mapValues (fun v hv => hv.mapLeaves (fun r hr => ?_) (fun type => ?_) (fun a => ?_)
    (fun c => ?_)) (hi.place.rename hf)
  · obtain ⟨q, hq, hk⟩ := hf.register r
    exact hq ▸ within_register.mpr (h r q hr hk)
  · simp [hf.this]
  · simp [hf.argument]
  · simp [hf.constant]

theorem Value.within_anonymous (hP : ∀ r q, r.key = q.key → P r → P q) (v : Value)
    : v.anonymous.Within P ↔ v.Within P := by
  unfold anonymous
  induction v with
  | register r =>
      simp only [mapLeaves, dropName, within_register]
      exact ⟨hP _ _ rfl, hP _ _ rfl⟩
  | field object owner name type ih => simpa [mapLeaves] using ih
  | element array index type iha ihi => simp [mapLeaves, iha, ihi]
  | _ => simp [mapLeaves, dropName]

/-- Values that are the same hold the same registers. -/
theorem Value.Within.same (hP : ∀ r q, r.key = q.key → P r → P q)
    {u v : Value} (hs : u.Same v) (hv : v.Within P)
    : u.Within P := by
  rw [← within_anonymous hP] at hv ⊢
  exact hs ▸ hv

/-- Having a register depends on its index and type only. -/
theorem Inventory.has_congr {w : Inventory} {r q : Register} (h : q.key = r.key)
    (hr : w.Has r)
    : w.Has q := by
  obtain ⟨hi, ht⟩ := Prod.mk.inj h
  simpa only [Has, hi, ht] using hr

-- Inserting a copy

/-- The code and registers after a copy is inserted. A fresh register may save what a jump reads. -/
inductive Inserted (rs : Registers) (target : Register) (copy : Inst) (code code' : List Inst)
    (rs' : Registers) : Prop
  | plain (before after : List Inst) (h : code = before ++ after)
      (h' : code' = before ++ copy :: after) (hrs : rs' = rs)
  | saved (before after : List Inst) (jump jump' : Inst) (v : Value)
      (h : code = before ++ jump :: after)
      (h' : code' = .assign (.register (rs.fresh v.type).1) (.value v)
        :: (before ++ copy :: jump' :: after))
      (hrs : rs' = ((rs.fresh v.type).2.assign (.register (rs.fresh v.type).1) (.value v)).2)
      (hjump : jump.isBranching = true)
      (within : ∀ P : Register → Prop, jump.Within P → P target →
        v.Within P ∧ (P (rs.fresh v.type).1 → jump'.Within P))

theorem within_saved {r q : Register} {i : Inst} (hi : i.Within P) (hq : P q)
    : (inst (ValueMap.insert [] (.register r) (.register q)) i).Within P := by
  have hon : OnRegisters (ValueMap.insert [] (.register r) (.register q)) :=
    fun entry he => (mem_insert he).elim (fun h => ⟨r, q, by simp [h]⟩) nofun
  rw [inst_eq_rename hon]
  refine hi.mapValues (fun v hv => hv.mapLeaves (fun s hs => ?_) ?_ ?_ ?_)
    (hi.place.rename (renames_leaf hon))
  · rw [leaf, find?_insert]
    split
    · exact within_register.mpr hq
    · exact within_register.mpr hs
  · simp [(renames_leaf hon).this]
  · simp [(renames_leaf hon).argument]
  · simp [(renames_leaf hon).constant]

theorem inserted_beforeJump {rs : Registers} {copy jump : Inst}
    {code before after : List Inst} (hcode : before ++ jump :: after = code)
    (hj : jump.isBranching = true)
    : Inserted rs target copy code (beforeJump rs (.register target) copy before jump after).1
        (beforeJump rs (.register target) copy before jump after).2 := by
  subst hcode
  unfold beforeJump
  split
  next key cases default =>
    split
    · refine .saved before after _ _ key rfl rfl rfl hj fun P hi ht => ?_
      rw [Inst.within_switch] at hi ⊢
      exact ⟨hi.1, fun hr => ⟨within_register.mpr hr, hi.2⟩⟩
    · exact .plain before _ rfl rfl rfl
  next condition onTrue onFalse =>
    split
    · dsimp only
      exact .saved before after _ _ (.register target) rfl rfl rfl hj
        fun P hi ht => ⟨within_register.mpr ht, fun hr => within_saved hi hr⟩
    · exact .plain before _ rfl rfl rfl
  next => exact .plain before _ rfl rfl rfl

theorem inserted_insertCopy (rs : Registers) (content : Option Node) (target : Register)
    (source : Value) (code : List Inst)
    : Inserted (rs.assign (.register target) (.value source)).2 target
        (.assign (.register target) (.value source)) code
        (insertCopy rs content (.register target) source code).1
        (insertCopy rs content (.register target) source code).2 := by
  unfold insertCopy
  rw [← fst_assign rs]
  generalize rs.assign (.register target) (.value source) = pair
  obtain ⟨copy, rs⟩ := pair
  have hend : Inserted rs target copy code (code ++ [copy]) rs := .plain code [] (by simp) rfl rfl
  dsimp only
  split
  next => exact hend
  next =>
    split
    · exact .plain _ _ (List.take_append_drop _ _).symm rfl rfl
    · split
      · split
        next => exact hend
        next jump after hdrop =>
          have hj := List.head?_dropWhile_not (fun i : Inst => !i.isBranching) code
          rw [hdrop] at hj
          refine inserted_beforeJump ?_ (by simpa using hj)
          rw [← hdrop, List.takeWhile_append_dropWhile]
      · exact hend

namespace Inserted

variable {rs rs' : Registers} {target : Register} {copy i : Inst} {code code' : List Inst}

theorem copy_mem (h : Inserted rs target copy code code' rs')
    : copy ∈ code' := by
  cases h with
  | plain before after h h' hrs => simp [h']
  | saved before after jump jump' v h h' hrs hjump within => simp [h']

theorem keeps (h : Inserted rs target copy code code' rs') (hi : i ∈ code)
    (hb : i.isBranching = false)
    : i ∈ code' := by
  cases h with
  | plain before after h h' hrs =>
      rw [h, List.mem_append] at hi
      simp only [h', List.mem_append, List.mem_cons]
      tauto
  | saved before after jump jump' v h h' hrs hjump within =>
      rw [h, List.mem_append, List.mem_cons] at hi
      simp only [h', List.mem_append, List.mem_cons]
      rcases hi with hi | rfl | hi
      · simp [hi]
      · rw [hjump] at hb
        cases hb
      · simp [hi]

end Inserted

theorem next_le_insertCopy (rs : Registers) (content : Option Node) (target : Register)
    (source : Value) (code : List Inst)
    : rs.next ≤ (insertCopy rs content (.register target) source code).2.next := by
  cases inserted_insertCopy rs content target source code with
  | plain _ _ _ _ hrs => rw [hrs, next_assign]
  | saved _ _ _ _ _ _ _ hrs => simp [hrs, next_assign, fresh]

namespace LiftM

variable {p : Plan} {M : Option (List Merge)} {w : Inventory} {node : Nat}

theorem codeOf_copy {s s' : LiftState} (hn : node < s.code.size)
    (h : s'.code = s.code.modify node fun _ => code) (n : Nat)
    : s'.codeOf n = if n = node then code else s.codeOf n := by
  have := codeOf_modify h n
  rw [LiftState.codeOf, this]
  by_cases hnode : node = n
  · subst hnode
    simp [hn]
  · simp [hnode, Ne.symm hnode]

/-- The state with an inserted copy, in which a saved register counts as assigned. -/
theorem describes_inserted (hs : w.Describes p M s) (s' : LiftState)
    {source : Value} (ht : w.Has target) (hsource : source.Within w.Has)
    (hn : node < p.graph.graph.size)
    (hi : Inserted (s.registers.assign (.register target) (.value source)).2 target
      (.assign (.register target) (.value source)) (s.codeOf node) code s'.registers)
    (frames : s'.frames = s.frames) (hcode : s'.code = s.code.modify node fun _ => code)
    (refinements : s'.refinements = s.refinements) (merges : s'.merges = s.merges)
    : ∃ w', w ≤ w' ∧ w'.Describes p M s' := by
  have hsize : s'.code.size = s.code.size := by simp [hcode]
  have hof := codeOf_copy (hs.codeSize ▸ hn) hcode
  have hkeeps : ∀ n i, i ∈ s.codeOf n → i.isBranching = false → i ∈ s'.codeOf n := by
    intro n i hm hb
    rw [hof n]
    split
    next hnode => exact hi.keeps (hnode ▸ hm) hb
    next => exact hm
  have hcopy : ∀ {w' : Inventory}, w ≤ w' →
      (Inst.assign (.register target) (.value source)).Within w'.Has := fun hw =>
    Inst.within_assign_register.mpr ⟨ht.mono hw, hsource.mono fun _ => Has.mono hw⟩
  cases hi with
  | plain before after h h' hrs =>
      have hnext : s'.registers.next = s.registers.next := by rw [hrs, next_assign]
      refine ⟨w, le_refl w, hs.recode hnext frames hsize refinements merges hkeeps ?_⟩
      intro n i hi
      rw [hof n] at hi
      split at hi
      next hnode =>
        subst hnode
        rw [h', List.mem_append, List.mem_cons] at hi
        rw [h, List.mem_append]
        rcases hi with hi | rfl | hi
        · exact .inl (.inl hi)
        · exact .inr (hcopy (le_refl w))
        · exact .inl (.inr hi)
      next => exact .inl hi
  | saved before after jump jump' v h h' hrs hjump within =>
      simp only [fresh, next_assign] at h' hrs within
      have hr : (Register.fresh s.registers.next v.type).index = w.made := hs.made
      have hjumpIn : jump.Within w.Has := hs.inCode node jump (by simp [h])
      have hle : w ≤ _ := le_made (.fresh s.registers.next v.type)
      have hv := (within w.Has hjumpIn ht).1
      have hjump' := (within _ (hjumpIn.mono fun _ => Has.mono hle) (ht.mono hle)).2 (has_made hr)
      have hsave : (Inst.assign (.register (.fresh s.registers.next v.type)) (.value v)).Within
          ((w.add v.type).assign s.registers.next).Has :=
        Inst.within_assign_register.mpr ⟨has_made hr, hv.mono fun _ => Has.mono hle⟩
      refine ⟨_, hle, hs.extend hle rfl ?_ frames hsize refinements hkeeps ?_
        (fun _ hm => merges ▸ hm) (fun _ hm => .inl (merges ▸ hm)) (.inr merges) ?_ ?_
        (fun _ => .inl)⟩
      · rw [hrs, next_assign, hs.made]
        rfl
      · intro n i hi
        rw [hof n] at hi
        split at hi
        next hnode =>
          subst hnode
          rw [h', List.mem_cons, List.mem_append, List.mem_cons, List.mem_cons] at hi
          rw [h, List.mem_append, List.mem_cons]
          rcases hi with rfl | hi | rfl | rfl | hi
          · exact .inr hsave
          · exact .inl (.inl hi)
          · exact .inr (hcopy hle)
          · exact .inr hjump'
          · exact .inl (.inr (.inr hi))
        next => exact .inl hi
      · rintro i (hi | rfl)
        · exact .inl hi
        · refine .inr ⟨node, _, .value v, ?_, rfl, fun q hq => ?_⟩
          · rw [hof node, if_pos rfl, h']
            exact List.mem_cons_self
          · cases v <;> cases hq
            exact hr ▸ (within_register.mp hv).1
      · intro i hi
        rcases Nat.lt_succ_iff_lt_or_eq.mp hi with hi | hi
        · exact .inl hi
        · exact .inr (.inl (.inr (hi.trans hr.symm)))

/-- A copy from something older counts as an assignment of its target. -/
theorem ensures_copy {source : Value} (ht : w.Has target)
    (hsource : source.Within w.Has) (hn : node < p.graph.graph.size)
    : Ensures (Describes p M) w (copy p node (.register target) source) fun w' _ =>
        source.Within (fun q => q.index < target.index) → w'.assigned target.index := by
  intro s _ s' hs hx
  have hi := inserted_insertCopy s.registers (p.node? node) target source (s.codeOf node)
  obtain ⟨w', hw, hs'⟩ := describes_inserted hs
    { s with
      registers := (insertCopy s.registers (p.node? node) (.register target) source
        (s.codeOf node)).2
      code := s.code.modify node fun _ => (insertCopy s.registers (p.node? node)
        (.register target) source (s.codeOf node)).1 }
    ht hsource hn hi rfl rfl rfl rfl
  cases hx
  by_cases hold : source.Within fun q => q.index < target.index
  · refine ⟨w'.assign target.index, le_trans hw (le_assign _ _), ?_, fun _ => .inr rfl⟩
    refine { hs' with
      inFrames := fun n f hf => hs'.inFrames n f hf
      inCode := fun n i hm => hs'.inCode n i hm
      merges := fun m hm => (hs'.merges m hm).of_le (le_assign _ _)
      refined := hs'.refined.mono (le_assign _ _) rfl
      assigned := fun i ha => ha.elim (hs'.assigned i) ?_
      sourced := fun i hi => (hs'.sourced i hi).imp .inl id }
    rintro rfl
    refine ⟨node, target, .value source, ?_, rfl, fun q hq => ?_⟩
    · have hsize : node < s.code.size := hs.codeSize ▸ hn
      rw [codeOf_copy hsize rfl, if_pos rfl]
      exact hi.copy_mem
    · cases source <;> cases hq
      exact within_register.mp hold
  · exact ⟨w', hw, hs', fun h => absurd h hold⟩

-- The copies of a join

section

variable (hroot : p.graph.graph.Rooted (p.method.nodes.length + 1))
include hroot

/-- Control enters a set of simulated nodes through one of its start nodes: the first of them in
the order has a predecessor that comes before all of them, unless it is the entry.
-/
theorem exists_startNode {set : List Nat} (hne : set ≠ [])
    (hset : ∀ n ∈ set, n ∈ p.graph.graph.order)
    : ∃ n ∈ set, n ∈ p.graph.graph.startNodes set := by
  obtain ⟨m, hm⟩ := List.exists_mem_of_ne_nil set hne
  have hfound : (p.graph.graph.order.find? (· ∈ set)).isSome :=
    List.find?_isSome.mpr ⟨m, hset m hm, decide_eq_true hm⟩
  obtain ⟨n, hn⟩ := Option.isSome_iff_exists.mp hfound
  obtain ⟨hin, done, rest, horder, hdone⟩ := List.find?_eq_some_iff_append.mp hn
  have hin : n ∈ set := of_decide_eq_true hin
  refine ⟨n, hin, List.mem_filter.mpr ⟨hin, ?_⟩⟩
  rcases NodeGraph.enteredFrom_of_order horder with rfl | ⟨u, hu, hbefore⟩
  · simp [hroot.entry]
  · have hout : u ∉ set := by simpa using hdone u hbefore
    simp only [Bool.or_eq_true, List.any_eq_true, decide_eq_true_eq]
    exact .inr ⟨u, hu, hout⟩

/-- Every group of copies from something older assigns the target. -/
theorem assigned_insertGroup {group : CopyGroup} (ht : w.Has target)
    (hsource : group.source.Within w.Has) (hne : group.nodes ≠ [])
    (hnodes : ∀ n ∈ group.nodes, n ∈ p.graph.graph.order)
    : Ensures (Describes p M) w (insertGroup p (.register target) group) fun w' _ =>
        group.source.Within (fun q => q.index < target.index) → w'.assigned target.index := by
  have hlasting : ∀ _ : Nat, Lasting fun w : Inventory =>
      group.source.Within (fun q => q.index < target.index) → w.assigned target.index :=
    fun _ _ _ hw h hq => Extends.assigned hw _ (h hq)
  refine (ensures_insertGroup (Q := fun _ => True) hlasting (fun n hn w' hw =>
    ensures_copy (ht.mono hw) (hsource.mono fun _ => Has.mono hw)
      (p.graph.graph.lt_size_of_mem_order (hnodes n hn))) fun _ _ _ _ _ _ => trivial).weaken
        fun w' _ _ h => ?_
  obtain ⟨n, hn, hstart⟩ := exists_startNode hroot hne hnodes
  refine (h n hn).resolve_right fun ⟨hpredecessors, hinside, _⟩ => ?_
  simp only [NodeGraph.startNodes, List.mem_filter, Bool.or_eq_true, List.isEmpty_iff,
    List.any_eq_true, decide_eq_true_eq] at hstart
  rcases hstart.2 with hnone | ⟨u, hu, hout⟩
  · exact hpredecessors hnone
  · exact hout (hinside hu)

/-- The copies for one register of a join assign it from something older. -/
theorem assigned_mergeCopies (hsim : ∀ n, w.frames n ≠ none ↔ n ∈ p.graph.graph.order) {m : Merge}
    (hm : w.Merges p m)
    : Ensures (Describes p M) w (do
        let groups ← requiredCopies p m
        groups.forM (insertGroup p (.register m.target)))
        fun w' _ => w'.assigned m.target.index := by
  refine ensures_requiredCopies.bind fun w₁ groups hw₁ ⟨s, hs, hgroups⟩ => ?_
  have hgroup : ∀ g ∈ groups, ∀ w', w₁ ≤ w' →
      Ensures (Describes p M) w' (insertGroup p (.register m.target) g) fun w'' _ =>
        g.source.Within (fun q => q.index < m.target.index) → w''.assigned m.target.index := by
    intro g hg w' hw'
    have hw := le_trans hw₁ hw'
    refine assigned_insertGroup hroot (hm.1.mono hw) ?_ (hgroups.nonempty g hg) fun n hn => ?_
    · obtain ⟨n, hn⟩ := List.exists_mem_of_ne_nil _ (hgroups.nonempty g hg)
      obtain ⟨f, v, hf, hv, hsame, -⟩ := hgroups.holds g hg n hn
      have hv := within_place (hs.inFrames n f (hs.frames n ▸ hf)) hv
      exact (hv.same (fun r q hk => has_congr hk.symm) hsame).mono fun _ => Has.mono hw
    · obtain ⟨f, v, hf, -⟩ := hgroups.holds g hg n hn
      rw [hs.frames n] at hf
      exact (hsim n).mp (by simp [hf])
  refine (Ensures.forM (R := fun (w' : Inventory) (g : CopyGroup) =>
    g.source.Within (fun q => q.index < m.target.index) → w'.assigned m.target.index)
    (fun _ _ _ hw h hq => Extends.assigned hw _ (h hq)) hgroup).weaken fun w₂ _ _ hall => ?_
  -- Some predecessor has an older value, and the group of this value assigns the register.
  obtain ⟨-, u, hu, f, v, hf, hv, hold⟩ := hm
  have hne : ¬ v.Same (.register m.target) := by
    intro hsame
    obtain ⟨q, rfl, hk⟩ := same_register_iff.mp hsame
    have := within_register.mp hold
    rw [Register.index_eq_of_key hk] at this
    exact Nat.lt_irrefl _ this
  obtain ⟨g, hg, hsame, -⟩ := hgroups.covers u hu f v (hs.frames u ▸ hf) hv hne
  exact hall g hg (hold.same (fun r q hk hr => Register.index_eq_of_key hk ▸ hr) hsame)

/-- After the copies, the code assigns all registers of joins. -/
theorem assigned_insertCopies (hsim : ∀ n, w.frames n ≠ none ↔ n ∈ p.graph.graph.order)
    {merges : List Merge}
    : Ensures (Describes p (some merges)) w (insertCopies p) fun w' _ =>
        ∀ m ∈ merges, w'.assigned m.target.index := by
  have hlasting : ∀ m : Merge, Lasting fun w : Inventory => w.assigned m.target.index :=
    fun m _ _ hw => Extends.assigned hw _
  refine (ensures_insertCopies hlasting fun s hs m hm w' hw => ?_).weaken
    fun w' _ _ ⟨s, hs, h⟩ => hs.complete merges rfl ▸ h
  exact assigned_mergeCopies hroot (hw.frames ▸ hsim) ((hs.merges m hm).of_le hw)

end

theorem jumpRules_describes
    : JumpRules (Describes p M) where
  freshLabel := ensures_freshLabel
  label := by
    refine ensures_editCode (fun _ _ => List.mem_cons_of_mem _) fun _ i hi => ?_
    rcases List.mem_cons.mp hi with rfl | hi
    · exact .inr Inst.within_label
    · exact .inl hi
  jump := ensures_emit Inst.within_jump

-- The lifted code

theorem codeOf_mapCode (s : LiftState) (f : Inst → Inst) (n : Nat)
    : ({ s with code := s.code.map (List.map f) } : LiftState).codeOf n = (s.codeOf n).map f := by
  simp only [LiftState.codeOf, Array.getD_eq_getD_getElem?, Array.getElem?_map]
  cases s.code[n]? <;> rfl

theorem describes_markResult (hs : w.Describes p M s)
    : w.Describes p M { s with code := s.code.map (List.map Inst.markResult) } := by
  have hcode := codeOf_mapCode s Inst.markResult
  refine { hs with
    codeSize := by simpa using hs.codeSize
    inCode := fun n i hi => ?_
    assigned := fun i hi => ?_ }
  · rw [hcode] at hi
    obtain ⟨j, hj, rfl⟩ := List.mem_map.mp hi
    have hw := hs.inCode n j hj
    unfold Inst.markResult
    split
    next r source =>
      rw [Inst.within_assign_register] at hw ⊢
      exact ⟨has_congr rfl hw.1, hw.2⟩
    next => exact hw
  · obtain ⟨n, r, e, hm, hr, hq⟩ := hs.assigned i hi
    refine ⟨n, { r with kind := .result }, e, ?_, hr, hq⟩
    rw [hcode]
    exact List.mem_map.mpr ⟨_, hm, rfl⟩

end LiftM

/-- The type of a register in the lifted code. -/
def Inventory.finalType (w : Inventory) (index : Nat) : TypeName :=
  (w.given index).getD (w.type index)

/-- The register was made and has its final type. -/
def Inventory.Settled (w : Inventory) (r : Register) : Prop :=
  r.index < w.made ∧ r.type = w.finalType r.index

theorem Registers.renames_nameLeaf (rs : Registers)
    : Renames rs.nameLeaf id where
  register r := by
    simp only [nameLeaf]
    split
    · exact ⟨r, rfl, rfl⟩
    · split
      · exact ⟨_, rfl, rfl⟩
      · exact ⟨r, rfl, rfl⟩
  this _ := rfl
  argument _ := rfl
  constant _ := rfl

namespace Inventory

variable {p : Plan} {w : Inventory} {m : Substitution}

theorem Refined.onRegisters (h : w.Refined p m)
    : m.OnRegisters := by
  intro entry he
  obtain ⟨q, hk, hq, -⟩ := h.entries entry he
  exact ⟨⟨q.index, w.type q.index, "", .generated⟩, q, hk, hq⟩

theorem Refined.keyImage_index (h : w.Refined p m) (x : RegisterKey)
    : (m.keyImage x).1 = x.1 := by
  rcases keyImage_cases h.onRegisters x with hx | ⟨r, q, hm, hr, hq⟩
  · rw [hx]
  · obtain ⟨q', hk, himage, -⟩ := h.entries _ hm
    cases himage
    obtain ⟨_, hr', hk'⟩ := same_register_iff.mp
      (show (RegisterKey.value (q.index, w.type q.index)).Same (.register r) from hk.symm)
    cases hr'
    rw [← hq, ← hr, ← hk']
    rfl

/-- The substitution gives each register its final type. -/
theorem Refined.settled (h : w.Refined p m) {r q : Register} (hr : w.Has r)
    (hq : q.key = m.keyImage r.key)
    : w.Settled q := by
  obtain ⟨hlt, htype⟩ := hr
  cases hl : m.lookup r.key.value with
  | none =>
      have hkey : q.key = r.key := by simpa [keyImage, hl] using hq
      obtain ⟨hi, ht⟩ := Prod.mk.inj hkey
      refine ⟨hi ▸ hlt, ?_⟩
      rw [hi, ht, finalType]
      cases hg : w.given r.index with
      | none => simpa [hg] using htype
      | some t =>
          rcases htype with htype | htype
          · refine absurd ?_ (h.given _ _ hg).2.2
            rw [← htype]
            exact hl
          · rw [hg] at htype
            exact (Option.some.inj htype).symm
  | some image =>
      obtain ⟨q', hk, himage, hg⟩ := h.entries _ (mem_of_lookup hl)
      obtain rfl : image = .register q' := himage
      have hkey : q.key = q'.key := by simpa [keyImage, hl] using hq
      obtain ⟨hi, ht⟩ := Prod.mk.inj hkey
      refine ⟨hi ▸ (h.given _ _ hg).1, ?_⟩
      rw [finalType, hi, ht, hg]
      rfl

end Inventory

/-- A line mark at the start adds nothing but a label. -/
theorem mem_hoistFirstLine {l : CodeLabel} {i : Inst}
    : (i ∈ hoistFirstLine l code → i ∈ code ∨ i.isMarker = true)
      ∧ (i ∈ code → i ∈ hoistFirstLine l code) := by
  unfold hoistFirstLine
  dsimp only
  split
  · exact ⟨.inl, id⟩
  · exact ⟨.inl, id⟩
  · split
    · refine ⟨fun h => ?_, fun h => by simp [h]⟩
      rcases List.mem_cons.mp h with rfl | h
      · exact .inr rfl
      · rcases List.mem_cons.mp h with rfl | h
        · exact .inr rfl
        · exact .inl h
    · exact ⟨.inl, id⟩

theorem Inst.within_marker {i : Inst} (h : i.isMarker = true)
    : i.Within P := by
  cases i with
  | label l => exact Inst.within_label
  | line number l => exact Inst.within_line
  | _ => cases h

/-- Renaming that keeps indices keeps assignments from older registers. -/
theorem assignsFromOlder_rename {f : Value → Value} {σ : RegisterKey → RegisterKey}
    (hf : Renames f σ) (hσ : ∀ x, (σ x).1 = x.1) {code code' : List Inst} {index : Nat}
    (hcode : ∀ i ∈ code, i.rename f ∈ code') (h : AssignsFromOlder code index)
    : AssignsFromOlder code' index := by
  obtain ⟨r, e, hm, hr, hq⟩ := h
  obtain ⟨r', hr', hk⟩ := hf.register r
  have hindex : ∀ {r q : Register}, q.key = σ r.key → q.index = r.index :=
    fun hk => (congrArg Prod.fst hk).trans (hσ _)
  refine ⟨r', e.mapValues (mapLeaves f), ?_, (hindex hk).trans hr, fun q he => ?_⟩
  · have := hcode _ hm
    simpa only [Inst.rename, Inst.mapValues, mapLeaves, hr'] using this
  · obtain ⟨q₀, he₀, hk₀⟩ := hf.register?_mapValues he
    exact (hindex hk₀) ▸ hq q₀ he₀

theorem exists_run_of_run' {α : Type} {x : LiftM α} {a : α} (h : x.run' s = .ok a)
    : ∃ s', x.run s = .ok (a, s') := by
  unfold StateT.run' at h
  cases hx : x s with
  | error e =>
      rw [hx] at h
      cases h
  | ok pair =>
      rw [hx] at h
      cases h
      exact ⟨pair.2, hx⟩

/-- The code of the nodes put together. -/
def LiftState.assembled (p : Plan) (s : LiftState) : List Inst :=
  let code := s.code.toList.flatten.map s.registers.nameInst
  s.refinements.code (if p.settings.firstLine then hoistFirstLine ⟨s.nextLabel⟩ code else code)

/-- An instruction of the assembled code comes from the code of a node or is a mark. -/
theorem LiftState.mem_assembled {p : Plan}
    : (∀ i ∈ s.assembled p,
        (∃ n, ∃ j ∈ s.codeOf n, i = s.refinements.inst (s.registers.nameInst j))
          ∨ i.isMarker = true)
      ∧ ∀ n, ∀ j ∈ s.codeOf n, s.refinements.inst (s.registers.nameInst j) ∈ s.assembled p := by
  have hflat : ∀ j, j ∈ s.code.toList.flatten ↔ ∃ n, j ∈ s.codeOf n := by
    intro j
    simp only [List.mem_flatten, Array.mem_toList_iff, LiftState.codeOf]
    constructor
    · rintro ⟨code, hc, hj⟩
      obtain ⟨n, hn, rfl⟩ := Array.mem_iff_getElem.mp hc
      exact ⟨n, by simpa [Array.getD_eq_getD_getElem?, hn] using hj⟩
    · rintro ⟨n, hj⟩
      rw [Array.getD_eq_getD_getElem?] at hj
      cases hn : s.code[n]? with
      | none => simp [hn] at hj
      | some code => exact ⟨code, Array.mem_of_getElem? hn, by simpa [hn] using hj⟩
  constructor
  · intro i hi
    obtain ⟨j, hj, rfl⟩ := List.mem_map.mp hi
    have hmark : ∀ k : Inst, k.isMarker = true → (s.refinements.inst k).isMarker = true := by
      intro k hk
      cases k <;> first | rfl | cases hk
    have hj : j ∈ s.code.toList.flatten.map s.registers.nameInst ∨ j.isMarker = true := by
      split at hj
      · exact mem_hoistFirstLine.1 hj
      · exact .inl hj
    rcases hj with hj | hj
    · obtain ⟨k, hk, rfl⟩ := List.mem_map.mp hj
      obtain ⟨n, hk⟩ := (hflat k).mp hk
      exact .inl ⟨n, k, hk, rfl⟩
    · exact .inr (hmark j hj)
  · intro n j hj
    refine List.mem_map.mpr ⟨_, ?_, rfl⟩
    have hj : s.registers.nameInst j ∈ s.code.toList.flatten.map s.registers.nameInst :=
      List.mem_map_of_mem ((hflat j).mpr ⟨n, hj⟩)
    split
    · exact mem_hoistFirstLine.2 hj
    · exact hj

/-- All registers of the assembled code have their final types. -/
theorem within_assembled {p : Plan} {w : Inventory}
    {M : Option (List Merge)} (hs : w.Describes p M s) {i : Inst} (hi : i ∈ s.assembled p)
    : i.Within w.Settled := by
  rcases LiftState.mem_assembled.1 i hi with ⟨n, j, hj, rfl⟩ | hi
  · have hon := hs.refined.onRegisters
    rw [inst_eq_rename hon]
    refine Inst.Within.rename (renames_leaf hon)
      (fun r q hr hq => hs.refined.settled hr hq) ?_
    exact (hs.inCode n j hj).rename s.registers.renames_nameLeaf fun r q hr hk => has_congr hk hr
  · exact Inst.within_marker hi

theorem assigns_assembled {p : Plan} {w : Inventory}
    {M : Option (List Merge)} (hs : w.Describes p M s) {index : Nat} (h : w.assigned index)
    : AssignsFromOlder (s.assembled p) index := by
  obtain ⟨n, h⟩ := hs.assigned index h
  have hon := hs.refined.onRegisters
  have hnamed := assignsFromOlder_rename s.registers.renames_nameLeaf (fun _ => rfl)
    (fun i hi => List.mem_map_of_mem hi) h
  refine assignsFromOlder_rename (renames_leaf hon) hs.refined.keyImage_index
    (fun i hi => ?_) hnamed
  obtain ⟨j, hj, rfl⟩ := List.mem_map.mp hi
  rw [← inst_eq_rename hon]
  exact LiftState.mem_assembled.2 n j hj

open LiftM in
/-- The steps of lifting, one after the other. -/
theorem steps_of_liftCode {p : Plan} (hx : (liftCode p).run (.initial p) = .ok (code, s))
    : code = s.assembled p
      ∧ ∃ s₁ s₂, (p.graph.graph.order.forM (LiftM.visit p)).run (.initial p) = .ok ((), s₁)
        ∧ (insertCopies p).run { s₁ with code := s₁.code.map (List.map Inst.markResult) }
          = .ok ((), s₂)
        ∧ (insertJumps p).run s₂ = .ok ((), s) := by
  obtain ⟨_, s₁, hvisits, hx⟩ := run_bind_eq_ok.mp hx
  obtain ⟨_, _, hmark, hx⟩ := run_bind_eq_ok.mp hx
  obtain ⟨_, s₂, hcopies, hx⟩ := run_bind_eq_ok.mp hx
  obtain ⟨_, _, hjumps, hx⟩ := run_bind_eq_ok.mp hx
  cases hx
  cases hmark
  exact ⟨rfl, s₁, s₂, hvisits, hcopies, hjumps⟩

open LiftM in
/-- The code comes from a state in which each register is assigned or bound by a handler. -/
theorem describes_liftCode (once : p.RetypesOnce)
    (hroot : p.graph.graph.Rooted (p.method.nodes.length + 1))
    (hx : (liftCode p).run (.initial p) = .ok (code, s))
    : code = s.assembled p
      ∧ ∃ w : Inventory, w.Describes p none s ∧ ∀ i < w.made, w.assigned i ∨ w.caught i := by
  obtain ⟨hcode, s₁, s₃, hsim, hcopies, hjumps⟩ := steps_of_liftCode hx
  obtain ⟨w₁, hs₁, hframes⟩ := describes_simulated once hsim
  have hs₂ : w₁.Describes p (some s₁.merges)
      { s₁ with code := s₁.code.map (List.map Inst.markResult) } :=
    { describes_markResult hs₁ with complete := fun ms hM => Option.some.inj hM }
  obtain ⟨w₃, hw₃, hs₃, hassigned⟩ :=
    assigned_insertCopies hroot hframes _ _ s₃ hs₂ hcopies
  obtain ⟨w, hw, hs, -⟩ := jumpRules_describes.insertJumps _ _ _ hs₃ hjumps
  refine ⟨hcode, w, { hs with complete := fun _ hM => nomatch hM }, fun i hi => ?_⟩
  rcases hs.sourced i hi with ha | hc | ⟨m, hm, rfl⟩
  · exact .inl ha
  · exact .inr hc
  · rw [hs.complete _ rfl] at hm
    exact .inl (hw.assigned _ (hassigned m hm))

/-- Each register of the lifted code has its final type, and without handlers the code assigns it
from something older.
-/
theorem registers_of_liftCode {p : Plan} (once : p.RetypesOnce)
    (hroot : p.graph.graph.Rooted (p.method.nodes.length + 1))
    (hx : (LiftM.liftCode p).run' (.initial p) = .ok code)
    : ∃ w : Inventory, (∀ i ∈ code, i.Within w.Settled)
        ∧ (p.method.ranges = [] → ∀ i < w.made, AssignsFromOlder code i) := by
  obtain ⟨s, hx⟩ := exists_run_of_run' hx
  obtain ⟨rfl, w, hs, hsourced⟩ := describes_liftCode once hroot hx
  refine ⟨w, fun i hi => within_assembled hs hi, fun hranges i hi => ?_⟩
  exact assigns_assembled hs ((hsourced i hi).resolve_right fun hc => hs.caught i hc hranges)

theorem lift_eq_liftRaw {m : Method} {settings : Settings} (raw : settings.simplify = false)
    : m.lift settings = m.liftRaw settings := by
  cases h : m.liftRaw settings <;> simp [Method.lift, h, raw]

end StackLift
