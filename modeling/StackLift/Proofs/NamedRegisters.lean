import StackLift.Proofs.RegisterGroups
import StackLift.Proofs.RegisterTyping
import StackLift.Proofs.ResolvedFlow

/-!
Lifting only uses and unites registers that it made, so that their groups stay sound up to the end.
-/

namespace StackLift

open Register (IsOneOf)

variable {p : Plan} {made more : Set Register} {node : Nat} {f : Frame} {s : LiftState}
  {rs : Registers}

theorem Register.IsOneOf.mono {r : Register} (hr : r.IsOneOf made) (hle : made ⊆ more)
    : r.IsOneOf more := by
  obtain ⟨q, hq, same⟩ := hr
  exact ⟨q, hle hq, same⟩

theorem Register.isOneOf_insert (r : Register) (made : Set Register)
    : r.IsOneOf (insert r made) :=
  ⟨r, Set.mem_insert r made, rfl, rfl⟩

/-- An assignment between registers that were made. -/
theorem Plan.Built.assigned (hb : p.Built rs made) {r : Register} {e : Expr}
    (hr : r.IsOneOf made) (he : e.Within (IsOneOf made))
    : p.Built (rs.assign (.register r) e).2 made
      ∧ (Inst.assign (.register r) e).Within (IsOneOf made) := by
  refine ⟨hb.assign (fun q hq => Option.some.inj hq ▸ hr) fun q hq => ?_,
    Inst.within_assign_register.mpr ⟨hr, he⟩⟩
  cases e with
  | value v =>
      cases v <;> cases hq
      exact Value.within_register.mp he
  | _ => cases hq

theorem Plan.Built.inserted (hb : p.Built rs made) {target : Register} (ht : target.IsOneOf made)
    {copy : Inst} (hcopy : copy.Within (IsOneOf made)) {code code' : List Inst}
    (hcode : ∀ i ∈ code, i.Within (IsOneOf made)) {rs' : Registers}
    (h : Inserted rs target copy code code' rs')
    : ∃ more, made ⊆ more ∧ p.Built rs' more ∧ ∀ i ∈ code', i.Within (IsOneOf more) := by
  cases h with
  | plain before after h h' hrs =>
      subst h h' hrs
      refine ⟨made, subset_rfl, hb, fun i hi => ?_⟩
      simp only [List.mem_append, List.mem_cons] at hi hcode
      rcases hi with hi | rfl | hi
      · exact hcode i (.inl hi)
      · exact hcopy
      · exact hcode i (.inr hi)
  | saved before after jump jump' v h h' hrs hjump within =>
      subst h h' hrs
      have hle := Set.subset_insert (rs.fresh v.type).1 made
      have hr := Register.isOneOf_insert (rs.fresh v.type).1 made
      have hold := fun i hi => (hcode i hi).mono fun _ hr => hr.mono hle
      obtain ⟨hv, hjump'⟩ := within _ (hold jump (by simp)) (ht.mono hle)
      obtain ⟨hb, hsave⟩ := (hb.fresh v.type).assigned hr (Expr.within_value.mpr hv)
      refine ⟨_, hle, hb, fun i hi => ?_⟩
      simp only [List.mem_append, List.mem_cons] at hi hold
      rcases hi with rfl | hi | rfl | rfl | hi
      · exact hsave
      · exact hold i (.inl hi)
      · exact hcopy.mono fun _ hr => hr.mono hle
      · exact hjump' hr
      · exact hold i (.inr (.inr hi))

namespace LiftM

theorem lasting_isOneOf (r : Register)
    : Lasting fun made => IsOneOf made r :=
  fun hle hr => hr.mono hle

/-- All registers in the frames, code and joins of a state were made before. -/
structure Named (p : Plan) (made : Set Register) (s : LiftState) : Prop where
  built : p.Built s.registers made
  frames : ∀ n f, s.frameOf? n = some f → f.Within (IsOneOf made)
  code : ∀ n, ∀ i ∈ s.codeOf n, i.Within (IsOneOf made)
  merges : ∀ m ∈ s.merges, m.target.IsOneOf made

namespace Named

theorem grow (hs : Named p made s) (hle : made ⊆ more) (hb : p.Built rs more)
    : Named p more { s with registers := rs } where
  built := hb
  frames n f hf := (hs.frames n f hf).mono fun _ hr => hr.mono hle
  code n i hi := (hs.code n i hi).mono fun _ hr => hr.mono hle
  merges m hm := (hs.merges m hm).mono hle

theorem edit (hs : Named p made s) {edit : List Inst → List Inst}
    (hedit : ∀ i ∈ edit (s.codeOf node), i ∈ s.codeOf node ∨ i.Within (IsOneOf made))
    : Named p made { s with code := s.code.modify node edit } := by
  refine { hs with code := fun n i hi => ?_ }
  rw [LiftState.codeOf, codeOf_modify rfl] at hi
  split at hi
  next hn =>
    obtain ⟨rfl, -⟩ := hn
    exact (hedit i hi).elim (hs.code node i) id
  next => exact hs.code n i hi

theorem append (hs : Named p made s) {i : Inst} (hi : i.Within (IsOneOf made))
    : Named p made { s with code := s.code.modify node (· ++ [i]) } := by
  refine hs.edit fun j hj => (List.mem_append.mp hj).imp id fun hj => ?_
  rwa [List.mem_singleton.mp hj]

end Named

-- Simulation

theorem named_emit {i : Inst} (hi : i.Within (IsOneOf made))
    : Ensures (Named p) made (emit node i) fun _ _ => True := by
  intro s _ s' hs hx
  cases hx
  exact ⟨made, le_rfl, hs.append hi, trivial⟩

theorem named_freshLabel
    : Ensures (Named p) made freshLabel fun _ _ => True := by
  intro s _ s' hs hx
  cases hx
  exact ⟨made, le_rfl, ⟨hs.built, hs.frames, hs.code, hs.merges⟩, trivial⟩

theorem named_freshRegister {type : TypeName}
    : Ensures (Named p) made (freshRegister type) IsOneOf := by
  intro s _ s' hs hx
  cases hx
  have hle := Set.subset_insert (s.registers.fresh type).1 made
  exact ⟨_, hle, hs.grow hle (hs.built.fresh type), Register.isOneOf_insert _ made⟩

theorem named_assign {r : Register} {e : Expr} (hr : r.IsOneOf made)
    (he : e.Within (IsOneOf made))
    : Ensures (Named p) made (assign node (.register r) e) fun _ _ => True := by
  intro s _ s' hs hx
  cases hx
  obtain ⟨hb, hi⟩ := hs.built.assigned hr he
  exact ⟨made, le_rfl, (hs.grow subset_rfl hb).append hi, trivial⟩

theorem rules_named
    : Rules p node (Named p) IsOneOf where
  lasting := lasting_isOneOf
  freshLabel := named_freshLabel
  emit := named_emit
  compute he := named_freshRegister.bind fun _ _ hle hr =>
    (named_assign hr (he.mono fun _ hq => hq.mono hle)).bind fun _ _ hle _ => .pure (hr.mono hle)
  assign := named_assign
  storeFresh {made slot f type value} hf hv := by
    intro s _ s' hs hx
    cases hx
    have hle := Set.subset_insert
      (p.variableRegister node slot (s.registers.fresh type).1 (s.registers.fresh type).2).1 made
    obtain ⟨hb, hi⟩ := (hs.built.store node slot type).assigned (Register.isOneOf_insert _ made)
      (Expr.within_value.mpr (hv.mono fun _ hr => hr.mono hle))
    exact ⟨_, hle, (hs.grow hle hb).append hi, (hf.mono fun _ hr => hr.mono hle).putLocal
      (Value.within_register.mpr (Register.isOneOf_insert _ made))⟩

theorem named_mergePlace {place : Place} {type : TypeName} {agreed : Option Value}
    (ha : ∀ v, agreed = some v → v.Within (IsOneOf made))
    : Ensures (Named p) made (mergePlace node place type agreed)
        fun made v => v.Within (IsOneOf made) := by
  cases agreed with
  | some v => exact .pure (ha v rfl)
  | none =>
      refine named_freshRegister.bind fun made r _ hr => ?_
      intro s _ s' hs hx
      cases hx
      refine ⟨made, le_rfl, { hs with merges := fun m hm => ?_ }, Value.within_register.mpr hr⟩
      rcases List.mem_append.mp hm with hm | hm
      · exact hs.merges m hm
      · rwa [List.mem_singleton.mp hm]

theorem named_joined {isHandler : Bool}
    : Ensures (Named p) made (joinedFrame p node isHandler)
        fun made f => f.Within (IsOneOf made) := by
  refine ensures_joinedFrame lasting_isOneOf (fun s u f hs _ hf => hs.frames u f hf) ?_
  intro s frames hs hframes _ more hle place type _
  refine named_mergePlace fun v hv => ?_
  unfold agreement at hv
  split at hv
  · obtain ⟨f, hm, hv⟩ := List.mem_filterMap.mp (agreed?_mem hv)
    obtain ⟨u, -, hf⟩ := List.mem_filterMap.mp (hframes ▸ hm)
    exact (within_place (hs.frames u f hf) hv).mono fun _ hr => hr.mono hle
  · cases hv

theorem labelRules_named
    : LabelRules p (Named p) IsOneOf where
  lasting := lasting_isOneOf
  freshLabel := named_freshLabel
  emit := named_emit
  place hs := ⟨hs.built, hs.frames, hs.code, hs.merges⟩
  catches _ := named_freshRegister
  joined := named_joined

/-- Declared types leave the indices and names of registers alone. -/
theorem named_refine (hf : f.Within (IsOneOf made))
    : Ensures (Named p) made (refine p node f) fun made f => f.Within (IsOneOf made) := by
  unfold refine
  split
  next => exact .throw
  next d _ =>
    intro s _ s' hs hx
    cases hx
    refine ⟨made, le_rfl, ⟨hs.built, hs.frames, hs.code, hs.merges⟩, ?_⟩
    have hvalue : ∀ {v : Value} declared m, v.Within (IsOneOf made) →
        ((DeclaredTypes.refineValue declared v).run m).1.Within (IsOneOf made) := by
      intro v declared m hv
      cases v with
      | register r =>
          rw [DeclaredTypes.run_refineValue]
          split
          · rw [Value.within_register] at hv ⊢
            exact hv
          · exact hv
      | _ => exact hv
    obtain ⟨-, -, -, hf⟩ := DeclaredTypes.refine_ensures (w := ()) (P := fun _ => IsOneOf made)
      (I := fun _ _ => True) (d := d) (m := s.refinements) (fun _ _ _ _ => id)
      (fun v declared _ w _ m _ hv => ⟨w, le_rfl, trivial, hvalue declared m hv⟩) trivial hf
    exact hf

theorem named_visit
    : Ensures (Named p) made (visit p node) fun _ _ => True := by
  have hframe : Ensures (Named p) made (frameAfter p node)
      fun made f => f.Within (IsOneOf made) := by
    unfold frameAfter
    split
    next => exact .pure p.within_entryFrame
    next => exact labelRules_named.simulateLabel
    next content _ _ =>
      have hbefore : Ensures (Named p) made (predecessorFrame p node)
          fun made f => f.Within (IsOneOf made) := by
        refine Ensures.lift_bind fun u _ => Ensures.get_bind fun s hs => ?_
        split
        next f hf => exact .pure (hs.frames u f hf)
        next => exact .throw
      exact hbefore.bind fun _ f _ hf => rules_named.simulate hf fun _ _ => named_refine hf
  rw [visit_eq]
  refine hframe.bind fun made f _ hf => ?_
  intro s _ s' hs hx
  cases hx
  refine ⟨made, le_rfl, { hs with frames := fun n g hg => ?_ }, trivial⟩
  simp only [LiftState.frameOf?, Array.getD_eq_getD_getElem?, Array.set!_eq_setIfInBounds,
    Array.getElem?_setIfInBounds] at hg
  split at hg
  next =>
    split at hg
    · exact Option.some.inj hg ▸ hf
    · cases hg
  next => exact hs.frames n g (by rwa [LiftState.frameOf?, Array.getD_eq_getD_getElem?])

-- Copies and jumps

theorem named_copy {target : Register} {source : Value} (ht : target.IsOneOf made)
    (hsource : source.Within (IsOneOf made))
    : Ensures (Named p) made (copy p node (.register target) source) fun _ _ => True := by
  intro s _ s' hs hx
  obtain ⟨hb, hcopy⟩ := hs.built.assigned ht (Expr.within_value.mpr hsource)
  obtain ⟨more, hle, hb, hcode⟩ := hb.inserted ht hcopy (hs.code node)
    (inserted_insertCopy s.registers (p.node? node) target source (s.codeOf node))
  cases hx
  exact ⟨more, hle, (hs.grow hle hb).edit fun i hi => .inr (hcode i hi), trivial⟩

theorem named_insertCopies
    : Ensures (Named p) made (insertCopies p) fun _ _ => True := by
  refine (ensures_insertCopies (R := fun _ _ => True) (fun _ _ _ _ => id)
    fun s hs m hm made₁ hle₁ => ?_).weaken fun _ _ _ _ => trivial
  refine ensures_requiredCopies.bind fun made₂ groups hle₂ hgroups => ?_
  obtain ⟨s₁, hs₁, hgroups⟩ := hgroups
  refine (Ensures.forM (R := fun _ _ => True) (fun _ _ _ _ => id) fun g hg _ hle₃ => ?_).weaken
    fun _ _ _ _ => trivial
  refine (ensures_insertGroup (R := fun _ _ => True) (Q := fun _ => True) (fun _ _ _ _ => id)
    (fun _ _ _ hle₄ => ?_) fun _ _ _ _ _ _ => trivial).weaken fun _ _ _ _ => trivial
  obtain ⟨n, f, hf, hv⟩ := hgroups.taken g hg
  have hle := le_trans hle₂ (le_trans hle₃ hle₄)
  exact named_copy ((hs.merges m hm).mono (le_trans hle₁ hle))
    ((within_place (hs₁.frames n f hf) hv).mono fun _ hr => hr.mono hle)

theorem jumpRules_named
    : JumpRules (Named p) where
  freshLabel := named_freshLabel
  label {made n l} := by
    intro s _ s' hs hx
    cases hx
    refine ⟨made, le_rfl, hs.edit fun i hi => ?_, trivial⟩
    rcases List.mem_cons.mp hi with rfl | hi
    · exact .inr Inst.within_label
    · exact .inl hi
  jump := named_emit Inst.within_jump

theorem named_markResult
    : Ensures (Named p) made (mapCode Inst.markResult) fun _ _ => True := by
  intro s _ s' hs hx
  cases hx
  refine ⟨made, le_rfl, { hs with code := fun n i hi => ?_ }, trivial⟩
  rw [codeOf_mapCode] at hi
  obtain ⟨j, hj, rfl⟩ := List.mem_map.mp hi
  have hw := hs.code n j hj
  unfold Inst.markResult
  split
  next r source =>
    rw [Inst.within_assign_register] at hw ⊢
    exact hw
  next => exact hw

theorem named_liftCode
    : Ensures (Named p) made (liftCode p) fun _ _ => True := by
  refine (Ensures.forM (R := fun _ _ => True) (fun _ _ _ _ => id) fun _ _ _ _ => named_visit).bind
    fun _ _ _ _ => named_markResult.bind fun _ _ _ _ => named_insertCopies.bind ?_
  exact fun _ _ _ _ => jumpRules_named.insertJumps.bind fun _ _ _ _ =>
    .get_bind fun _ _ => .pure trivial

theorem named_initial (p : Plan)
    : Named p ∅ (.initial p) where
  built := .start
  frames n _ hf := nomatch ((describes_initial p).frames n).symm.trans hf
  code n i hi := ((describes_initial p).inCode n i hi).mono fun _ hr =>
    absurd hr.1 (Nat.not_lt_zero _)
  merges := nofun

end LiftM

/-- The variables of a plan are named like those of the method. -/
theorem Plan.exists_entry {m : Method} {settings : Settings}
    (hp : Plan.ofMethod m settings = .ok p) {v : Variable} (hv : v ∈ p.variableTable)
    : ∃ entry ∈ m.variableTable, entry.name.text = v.name := by
  obtain ⟨graph, -, hp⟩ := except_bind_eq_ok.mp hp
  obtain ⟨table, htable, hp⟩ := except_bind_eq_ok.mp hp
  obtain ⟨declared, -, hp⟩ := except_bind_eq_ok.mp hp
  cases hp
  obtain ⟨entry, he, hv⟩ := (mem_of_mapM htable).2 v hv
  obtain ⟨start, -, hv⟩ := except_bind_eq_ok.mp hv
  obtain ⟨stop, -, hv⟩ := except_bind_eq_ok.mp hv
  cases hv
  exact ⟨entry, he, rfl⟩

/-- Unless a variable is named like a register, the groups of registers are sound however registers
are made and united, and code is displayed with the names of the groups. Lifting does nothing else
with registers.
-/
theorem register_groups_stay_sound {m : Method} {settings : Settings} {p : Plan}
    (plain : ∀ entry ∈ m.variableTable, entry.name.text.toList.head? ≠ some '%')
    (hp : Plan.ofMethod m settings = .ok p)
    : (∀ rs made, p.Built rs made →
        rs.Sound made ∧ ∀ i : Inst, i.Renamed rs.displayed (rs.nameInst i))
      ∧ ∀ code s, (LiftM.liftCode p).run (.initial p) = .ok (code, s) →
        code = s.assembled p ∧ ∃ made, p.Built s.registers made
          ∧ ∀ n, ∀ i ∈ s.codeOf n, ∀ r ∈ i.registers, r.IsOneOf made := by
  refine ⟨fun rs made hb => ⟨(hb.grouped fun v hv => ?_).sound, rs.renamed_nameInst⟩,
    fun code s hx => ?_⟩
  · obtain ⟨entry, he, hname⟩ := Plan.exists_entry hp hv
    exact hname ▸ plain entry he
  · obtain ⟨made, -, hs, -⟩ := LiftM.named_liftCode _ _ _ (LiftM.named_initial p) hx
    refine ⟨(steps_of_liftCode hx).1, made, hs.built, fun n i hi r hr => ?_⟩
    exact (hs.code n i hi).registers r (Inst.mem_registers.mp hr)

/-- A method that stores its argument to a variable. -/
def storing : Method :=
  { staticMethod ⟨[.base .int], none⟩ [.plain (.load .int 0), .plain (.store .int 1), .label ⟨0⟩,
      .branch .returnVoid] with
    variableTable := [⟨⟨"x", rfl⟩, .base .int, ⟨0⟩, ⟨0⟩, 1⟩] }

def storingPlan (graph : MethodGraph) : Plan :=
  { method := storing
    settings := { rawSettings with keepNames := true }
    graph
    places := [(⟨0⟩, 3)]
    variableTable := [⟨1, "x", .int, 3, 3⟩]
    declared := [] }

/-- A register that is united with the one of the variable is displayed with its name. -/
theorem united_register_shows_variable
    : ∃ graph rs made, (storingPlan graph).Built rs made ∧ rs.Sound made
        ∧ (rs.displayed (.fresh 1 .int)).name = "x" := by
  obtain ⟨graph, hgraph⟩ : ∃ graph, MethodGraph.ofMethod storing = .ok graph := by decide +kernel
  have hp : Plan.ofMethod storing (storingPlan graph).settings = .ok (storingPlan graph) := by
    simp only [Plan.ofMethod, hgraph]
    rfl
  have built := (((Plan.Built.start (p := storingPlan graph)).store 2 1 .int).fresh .int).unite
    (Register.isOneOf_insert _ _) ((Register.isOneOf_insert _ _).mono (Set.subset_insert _ _))
  refine ⟨graph, _, _, built, ((register_groups_stay_sound (by decide) hp).1 _ _ built).1, ?_⟩
  have hx : (storingPlan graph).variableRegister 2 1 (Registers.empty.fresh .int).1
      (Registers.empty.fresh .int).2 = (⟨0, .int, "x", .named⟩, ⟨1, [], [], [(0, "x")]⟩) := rfl
  rw [hx]
  decide

end StackLift
