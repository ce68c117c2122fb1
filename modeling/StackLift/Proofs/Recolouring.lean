import StackLift.Proofs.Paths

/-!
Recolouring: a code keeps its behaviour when its registers are renamed and copies are dropped, as
long as registers that get one name hold the same value wherever both are needed.
-/

namespace StackLift

open RegisterMachine Interpretation Function

/-- What is needed after an instruction, and not assigned by it, is needed before it. -/
structure NeededBefore (code : List Inst) (Needed : List Inst → RegisterKey → Prop) : Prop where
  proceed : ∀ {i : Inst} {rest : List Inst} {x : RegisterKey},
    i.proceeds → i.assigned? ≠ some x → Needed rest x → Needed (i :: rest) x
  jump : ∀ {i : Inst} {rest : List Inst} {l : CodeLabel} {x : RegisterKey},
    l ∈ i.targets → Needed (codeAt code l) x → Needed (i :: rest) x

/-- In every run that comes to the instruction, the register it assigns gets the value that each
needed register with the same new name holds.
-/
def NoClash (code : List Inst) (σ : RegisterKey → RegisterKey)
    (Needed : List Inst → RegisterKey → Prop) (i : Inst) (rest : List Inst) : Prop :=
  ∀ {r : Register} {e : Expr} {D : Type} {I : Interpretation D} {registers : RegisterFile D}
    {s : State D} {y : RegisterKey},
    i = .assign (.register r) e → Reached I code registers s → s.outcome = none →
    s.rest = i :: rest → Needed rest y → Definite code rest y → y ≠ r.key → σ y = σ r.key →
    s.registers y = I.evalExpr s.history s.registers e

/-- The target of the copy is not needed after it, or has the new name of the source, or holds the
copied value already.
-/
inductive Droppable (code : List Inst) (σ : RegisterKey → RegisterKey)
    (Needed : List Inst → RegisterKey → Prop) (rest : List Inst) (r : Register) (v : Value) : Prop
  | unneeded : ¬ Needed rest r.key → Droppable code σ Needed rest r v
  | joined {q : Register} : v = .register q → σ q.key = σ r.key →
    Needed (.assign (.register r) (.value v) :: rest) q.key → Droppable code σ Needed rest r v
  | held : Needed (.assign (.register r) (.value v) :: rest) r.key →
    Definite code (.assign (.register r) (.value v) :: rest) r.key →
    (∀ {D : Type} {I : Interpretation D} {registers : RegisterFile D} {s : State D},
      Reached I code registers s → s.outcome = none →
      s.rest = .assign (.register r) (.value v) :: rest →
      s.registers r.key = I.eval s.history s.registers v) →
    Droppable code σ Needed rest r v

/-- What has to hold where both codes are about to go on: either the instruction is renamed, or it
is a copy and dropped.
-/
inductive Matched (code : List Inst) (f : Value → Value) (σ : RegisterKey → RegisterKey)
    (Needed : List Inst → RegisterKey → Prop) (At : List Inst → List Inst → Prop)
    (i : Inst) (rest rest' : List Inst) : Prop
  | kept {rest'' : List Inst} : rest' = i.rename f :: rest'' → At rest rest'' →
    (∀ x ∈ i.readKeys, Needed (i :: rest) x) → NoClash code σ Needed i rest →
    Matched code f σ Needed At i rest rest'
  | dropped {r : Register} {v : Value} : i = .assign (.register r) (.value v) → At rest rest' →
    Droppable code σ Needed rest r v → Matched code f σ Needed At i rest rest'

/-- The second code is the first one with registers renamed and copies dropped. `At` relates the
places of the two codes.
-/
structure Recolouring (code other : List Inst) (f : Value → Value)
    (σ : RegisterKey → RegisterKey) (Needed : List Inst → RegisterKey → Prop)
    (At : List Inst → List Inst → Prop) : Prop where
  renames : Renames f σ
  needed : NeededBefore code Needed
  start : At code other
  jump : ∀ l, At (codeAt code l) (codeAt other l)
  nil : ∀ {rest'}, At [] rest' → rest' = []
  cons : ∀ {i rest rest' A}, Arrives code (i :: rest) A → At (i :: rest) rest' →
    Matched code f σ Needed At i rest rest'

namespace Recolouring

variable {code other : List Inst} {f : Value → Value} {σ : RegisterKey → RegisterKey}
variable {Needed : List Inst → RegisterKey → Prop} {At : List Inst → List Inst → Prop}

-- Registers stay assigned before they are read

/-- Past dropped copies, a path of the first code comes to the instruction whose renaming is next in
the second one, and the new names of what it assigned and needs are still assigned.
-/
theorem skip_dropped (h : Recolouring code other f σ Needed At) (hb : AssignedBeforeRead code)
    {rest rest' : List Inst} {i' : Inst} {A A' : Set RegisterKey} (ha : Arrives code rest A)
    (hat : At rest (i' :: rest')) (hA : ∀ x ∈ A, Needed rest x → σ x ∈ A')
    : ∃ i rest₁ A₁, i' = i.rename f ∧ At rest₁ rest' ∧ Arrives code (i :: rest₁) A₁
        ∧ (∀ x ∈ i.readKeys, Needed (i :: rest₁) x)
        ∧ ∀ x ∈ A₁, Needed (i :: rest₁) x → σ x ∈ A' := by
  induction rest generalizing A with
  | nil => cases h.nil hat
  | cons i rest ih =>
      cases h.cons ha hat with
      | kept he hr hn _ =>
          obtain ⟨rfl, rfl⟩ := List.cons.inj he
          exact ⟨i, rest, A, rfl, hr, ha, hn, hA⟩
      | @dropped r v hi hr hd =>
          subst hi
          refine ih (ha.proceed rfl) hr ?_
          intro x hx hn
          by_cases hxr : x = r.key
          · subst hxr
            cases hd with
            | unneeded hu => exact absurd hn hu
            | @joined q hv hσ hq =>
                subst hv
                have hread := hb ha q.key (by
                  simp [Inst.readKeys, Inst.readValues, Value.operands, Expr.subvalues,
                    Value.subvalues, Value.register?])
                exact hσ ▸ hA q.key hread hq
            | held hr hdef _ => exact hA r.key (hdef A ha) hr
          · have hne : Inst.assigned? (.assign (.register r) (.value v)) ≠ some x := by
              simpa [Inst.assigned?] using Ne.symm hxr
            rcases hx with hx | hx
            · exact hA x hx (h.needed.proceed rfl hne hn)
            · exact absurd hx hne

/-- Every path of the second code follows one of the first. -/
theorem arrives_of_other (h : Recolouring code other f σ Needed At) (hb : AssignedBeforeRead code)
    {rest' : List Inst} {A' : Set RegisterKey} (ha : Arrives other rest' A')
    : ∃ rest A, Arrives code rest A ∧ At rest rest' ∧ ∀ x ∈ A, Needed rest x → σ x ∈ A' := by
  induction ha with
  | start => exact ⟨code, ∅, .start, h.start, fun x hx => absurd hx (Set.notMem_empty x)⟩
  | @proceed i' rest' A' _ hp ih =>
      obtain ⟨rest, A, ha, hat, hA⟩ := ih
      obtain ⟨i, rest₁, A₁, rfl, hat₁, ha₁, -, hA₁⟩ := h.skip_dropped hb ha hat hA
      rw [Inst.proceeds_rename] at hp
      refine ⟨rest₁, _, ha₁.proceed hp, hat₁, ?_⟩
      intro x hx hn
      by_cases hxa : i.assigned? = some x
      · exact .inr (by simp [h.renames.assigned?_rename, hxa])
      · rcases hx with hx | hx
        · exact .inl (hA₁ x hx (h.needed.proceed hp hxa hn))
        · exact absurd hx hxa
  | @jump i' rest' A' l _ hl ih =>
      obtain ⟨rest, A, ha, hat, hA⟩ := ih
      obtain ⟨i, rest₁, A₁, rfl, hat₁, ha₁, -, hA₁⟩ := h.skip_dropped hb ha hat hA
      rw [Inst.targets_rename] at hl
      exact ⟨_, A₁, ha₁.jump hl, h.jump l, fun x hx hn => hA₁ x hx (h.needed.jump hl hn)⟩

theorem assignedBeforeRead (h : Recolouring code other f σ Needed At)
    (hb : AssignedBeforeRead code)
    : AssignedBeforeRead other := by
  intro i' rest' A' ha' x' hx'
  obtain ⟨rest, A, ha, hat, hA⟩ := h.arrives_of_other hb ha'
  obtain ⟨i, rest₁, A₁, rfl, -, ha₁, hn, hA₁⟩ := h.skip_dropped hb ha hat hA
  rw [h.renames.readKeys_rename, List.mem_map] at hx'
  obtain ⟨x, hx, rfl⟩ := hx'
  exact hA₁ x (hb ha₁ x hx) (hn x hx)

-- Runs stay the same

/-- The states of two runs at related places: what is needed and assigned is carried over to its new
name.
-/
structure Related {D : Type} (I : Interpretation D) (code : List Inst)
    (registers : RegisterFile D) (σ : RegisterKey → RegisterKey)
    (Needed : List Inst → RegisterKey → Prop) (At : List Inst → List Inst → Prop)
    (s t : State D) : Prop where
  history : s.history = t.history
  outcome : s.outcome = t.outcome
  reached : Reached I code registers s
  arrives : s.outcome = none → ∃ A, Arrives code s.rest A
  place : s.outcome = none → At s.rest t.rest
  carried : s.outcome = none → ∀ x, Needed s.rest x → Definite code s.rest x →
    t.registers (σ x) = s.registers x

variable {D : Type} {I : Interpretation D} {registers : RegisterFile D} {s t : State D}

/-- A written register is that of an assignment, with the value of its source. -/
theorem effect_written {history : List (Action D)} {registers : RegisterFile D} {i : Inst}
    {actions : List (Action D)} {x : RegisterKey} {value : D}
    (h : I.effect history registers i = .proceed actions (some (x, value)))
    : ∃ r e, i = .assign (.register r) e ∧ x = r.key
        ∧ value = I.evalExpr history registers e := by
  cases i with
  | assign target source =>
      cases target with
      | register r =>
          simp only [effect, assign, Effect.proceed.injEq,
            Option.some.injEq, Prod.mk.injEq] at h
          exact ⟨r, source, rfl, h.2.1.symm, h.2.2.symm⟩
      | _ => simp [effect, assign] at h
  | _ => simp [effect] at h

/-- Carrying over is kept when both runs write: the registers that share the new name of the written
one hold the written value.
-/
theorem carried_write {σ : RegisterKey → RegisterKey} {file file' : RegisterFile D}
    {x y : RegisterKey} {value : D} (hc : y ≠ x → file' (σ y) = file y)
    (hw : y ≠ x → σ y = σ x → file y = value)
    : update file' (σ x) value (σ y) = update file x value y := by
  by_cases hyx : y = x
  · subst hyx
    simp
  · by_cases hσ : σ y = σ x
    · rw [hσ, update_self, update_of_ne hyx, hw hyx hσ]
    · rw [update_of_ne hσ, update_of_ne hyx, hc hyx]

variable (h : Recolouring code other f σ Needed At)
include h

/-- A kept instruction: both runs take the same step. -/
theorem Related.step_kept (hb : AssignedBeforeRead code)
    (hst : Related I code registers σ Needed At s t) {i : Inst} {rest rest' : List Inst}
    {A : Set RegisterKey} (hs : s.outcome = none) (hr : s.rest = i :: rest)
    (hr' : t.rest = i.rename f :: rest') (hat : At rest rest') (ha : Arrives code (i :: rest) A)
    (hn : ∀ x ∈ i.readKeys, Needed (i :: rest) x) (hnc : NoClash code σ Needed i rest)
    : Related I code registers σ Needed At (s.next I code) (t.next I other) := by
  have ht : t.outcome = none := hst.outcome ▸ hs
  have hcar : ∀ x, Needed (i :: rest) x → Definite code (i :: rest) x →
      t.registers (σ x) = s.registers x := by
    simpa only [hr] using hst.carried hs
  have hreads : Carries σ s.registers t.registers i.readKeys :=
    fun x hx => hcar x (hn x hx) fun A ha => hb ha x hx
  have he := effect_rename I s.history h.renames hreads
  rw [hst.history] at he
  have htn : t.next I other
      = t.after other rest' ((I.effect t.history s.registers i).rename σ) := by
    rw [State.next_of_running ht hr', he]
  rw [← hst.history] at htn
  have hreach := hst.reached.next
  rcases State.next_cases I code hs hr with
    ⟨actions, written, heff, hp, hw, hsn⟩ | ⟨l, hl, heff, hsn⟩ | ⟨outcome, heff, hsn⟩
  · rw [heff] at htn
    rw [hsn] at hreach ⊢
    rw [htn]
    refine ⟨by simp [State.after, Effect.rename, hst.history], by simp [State.after,
      Effect.rename, ht], hreach, fun _ => ⟨_, ha.proceed hp⟩, fun _ => hat, ?_⟩
    intro _ y hy hdef
    cases written with
    | none =>
        have hya : i.assigned? ≠ some y := by simp [← hw]
        exact hcar y (h.needed.proceed hp hya hy) (hdef.of_proceed hp hya)
    | some w =>
        obtain ⟨r, e, hi, hx, hv⟩ := effect_written heff
        have hya : y ≠ w.1 → i.assigned? ≠ some y := by
          intro hne
          simpa [← hw] using Ne.symm hne
        refine carried_write (fun hne => ?_) fun hne hσ => ?_
        · exact hcar y (h.needed.proceed hp (hya hne) hy) (hdef.of_proceed hp (hya hne))
        · rw [hx] at hne hσ
          rw [hv]
          exact hnc hi hst.reached hs hr hy hdef hne hσ
  · rw [heff] at htn
    rw [hsn] at hreach ⊢
    rw [htn]
    refine ⟨hst.history, by simp [State.after, Effect.rename, ht], hreach,
      fun _ => ⟨A, ha.jump hl⟩, fun _ => h.jump l, ?_⟩
    intro _ y hy hdef
    exact hcar y (h.needed.jump hl hy) (hdef.of_jump hl)
  · rw [heff] at htn
    rw [hsn] at hreach ⊢
    rw [htn]
    refine ⟨hst.history, rfl, hreach, ?_, ?_, ?_⟩ <;> intro h <;> cases h

/-- A dropped copy: only the first run takes a step, and what it writes is already carried over. -/
theorem Related.step_dropped (hb : AssignedBeforeRead code)
    (hst : Related I code registers σ Needed At s t) {r : Register} {v : Value} {rest : List Inst}
    {A : Set RegisterKey} (hs : s.outcome = none)
    (hr : s.rest = .assign (.register r) (.value v) :: rest) (hat : At rest t.rest)
    (ha : Arrives code (.assign (.register r) (.value v) :: rest) A)
    (hd : Droppable code σ Needed rest r v)
    : Related I code registers σ Needed At (s.next I code) t
      ∧ (s.next I code).rest.length < s.rest.length := by
  have hsn : s.next I code = ⟨rest,
      update s.registers r.key (I.eval s.history s.registers v), s.history, none⟩ := by
    simp [State.next_of_running hs hr, effect, assign,
      actions, evalExpr, State.after, RegisterFile.write, hs]
  have hreach := hst.reached.next
  rw [hsn] at hreach ⊢
  refine ⟨⟨hst.history, hst.outcome ▸ hs.symm, hreach, fun _ => ⟨_, ha.proceed rfl⟩,
    fun _ => hat, ?_⟩, by simp [hr]⟩
  have hcar := hst.carried hs
  rw [hr] at hcar
  intro _ y hy hdef
  by_cases hyr : y = r.key
  · subst hyr
    simp only [update_self]
    cases hd with
    | unneeded hu => exact absurd hy hu
    | @joined q hv hσ hq =>
        subst hv
        refine hσ ▸ hcar q.key hq fun A ha => hb ha q.key ?_
        simp [Inst.readKeys, Inst.readValues, Value.operands, Expr.subvalues, Value.subvalues,
          Value.register?]
    | held hn hdef' hval => rw [hcar r.key hn hdef', hval hst.reached hs hr]
  · have hya : Inst.assigned? (.assign (.register r) (.value v)) ≠ some y := by
      simpa [Inst.assigned?] using Ne.symm hyr
    simp only [update_of_ne hyr]
    exact hcar y (h.needed.proceed rfl hya hy) (hdef.of_proceed rfl hya)

theorem simulation (hb : AssignedBeforeRead code)
    : Simulation I code other (Related I code registers σ Needed At) where
  history hst := hst.history
  outcome hst := hst.outcome
  step {s t} hst := by
    cases hs : s.outcome with
    | some outcome =>
        rw [State.next_of_ended hs, State.next_of_ended (hst.outcome ▸ hs)]
        exact .inr hst
    | none =>
        have ht : t.outcome = none := hst.outcome ▸ hs
        obtain ⟨A, ha⟩ := hst.arrives hs
        have hat := hst.place hs
        have hreach := hst.reached.next
        cases hr : s.rest with
        | nil =>
            rw [hr] at hat
            rw [State.next_of_exhausted hs hr] at hreach ⊢
            rw [State.next_of_exhausted ht (h.nil hat)]
            exact .inr ⟨hst.history, rfl, hreach, nofun, nofun, nofun⟩
        | cons i rest =>
            rw [hr] at ha hat
            cases h.cons ha hat with
            | kept hr' hat' hn hnc =>
                exact .inr (hst.step_kept h hb hs hr hr' hat' ha hn hnc)
            | dropped hi hat' hd =>
                subst hi
                have hstep := hst.step_dropped h hb hs hr hat' ha hd
                rw [hr] at hstep
                exact .inl hstep

/-- A recoloured code behaves like the code. -/
theorem sameBehaviour (hb : AssignedBeforeRead code)
    : SameBehaviour code other := by
  intro D I registers registers' history outcome
  have sim : Simulation I code other (Related I code registers σ Needed At) := h.simulation hb
  refine sim.shows_iff ?_ history outcome
  refine ⟨rfl, rfl, .start, fun _ => ⟨∅, .start⟩, fun _ => h.start, ?_⟩
  intro _ x _ hdef
  exact absurd hdef (not_definite_start code x)

end Recolouring

end StackLift
