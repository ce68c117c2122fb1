import Mathlib.Data.Set.Basic
import StackLift.Proofs.Renaming

/-!
Paths through register code: which registers a path assigns before it comes to a place, and which
are read after it. Paths follow every branch, whatever its condition, so they cover all runs.
-/

namespace StackLift

/-- A path through the code comes to the given rest of it and has assigned the given registers. -/
inductive Arrives (code : List Inst) : List Inst → Set RegisterKey → Prop
  | start : Arrives code code ∅
  | proceed {i : Inst} {rest : List Inst} {A : Set RegisterKey} :
    Arrives code (i :: rest) A → i.proceeds → Arrives code rest (A ∪ {x | i.assigned? = some x})
  | jump {i : Inst} {rest : List Inst} {A : Set RegisterKey} {l : CodeLabel} :
    Arrives code (i :: rest) A → l ∈ i.targets → Arrives code (codeAt code l) A

/-- Every path assigns each register before it reads it. -/
def AssignedBeforeRead (code : List Inst) : Prop :=
  ∀ {i : Inst} {rest : List Inst} {A : Set RegisterKey}, Arrives code (i :: rest) A →
    ∀ x ∈ i.readKeys, x ∈ A

/-- Every path to the rest of the code assigns the register. -/
def Definite (code rest : List Inst) (x : RegisterKey) : Prop :=
  ∀ A, Arrives code rest A → x ∈ A

/-- Some path from the rest of the code on reads the register before it assigns it. -/
inductive Live (code : List Inst) : List Inst → RegisterKey → Prop
  | read {i : Inst} {rest : List Inst} {x : RegisterKey} :
    x ∈ i.readKeys → Live code (i :: rest) x
  | proceed {i : Inst} {rest : List Inst} {x : RegisterKey} :
    i.proceeds → i.assigned? ≠ some x → Live code rest x → Live code (i :: rest) x
  | jump {i : Inst} {rest : List Inst} {x : RegisterKey} {l : CodeLabel} :
    l ∈ i.targets → Live code (codeAt code l) x → Live code (i :: rest) x

theorem codeAt_suffix (code : List Inst) (l : CodeLabel)
    : codeAt code l <:+ code := by
  fun_induction codeAt code l with
  | case1 => exact List.suffix_refl []
  | case2 => exact List.suffix_refl _
  | case3 => exact List.nil_suffix
  | case4 i rest l _ ih => exact ih.trans (List.suffix_cons i rest)

variable {code rest : List Inst} {i : Inst} {l : CodeLabel}

/-- The code at a label starts with it. -/
theorem codeAt_eq_cons (h : codeAt code l = i :: rest)
    : i = .label l := by
  fun_induction codeAt code l with
  | case1 => cases h
  | case2 => exact (List.cons.inj h).1.symm
  | case3 => cases h
  | case4 _ _ _ _ ih => exact ih h

theorem codeAt_cons_of_nil (h : codeAt rest l = [])
    : codeAt (i :: rest) l = if i = .label l then i :: rest else [] := by
  rw [codeAt, h]

theorem codeAt_cons_of_ne (h : i ≠ .label l ∨ codeAt rest l ≠ [])
    : codeAt (i :: rest) l = codeAt rest l := by
  rw [codeAt]
  split
  next hnil =>
    rw [hnil, if_neg]
    exact h.resolve_right fun hne => hne hnil
  next => rfl

/-- A change of the code that keeps its labels commutes with jumps, if it does so for the rest. -/
theorem codeAt_cons_congr {F : List Inst → List Inst} {i' : Inst} {rest' : List Inst}
    (hnil : F [] = [])
    (hne : ∀ {tail}, codeAt rest l = .label l :: tail → F (.label l :: tail) ≠ [])
    (ih : codeAt rest' l = F (codeAt rest l)) (hlabel : i' = .label l ↔ i = .label l)
    (hhead : i = .label l → F (i :: rest) = i' :: rest')
    : codeAt (i' :: rest') l = F (codeAt (i :: rest) l) := by
  cases hcode : codeAt rest l with
  | nil =>
      rw [hcode, hnil] at ih
      rw [codeAt_cons_of_nil ih, codeAt_cons_of_nil hcode]
      by_cases hi : i = .label l
      · rw [if_pos hi, if_pos (hlabel.mpr hi), hhead hi]
      · rw [if_neg hi, if_neg (hlabel.not.mpr hi), hnil]
  | cons j tail =>
      obtain rfl := codeAt_eq_cons hcode
      have hlater : codeAt rest' l ≠ [] := by
        rw [ih, hcode]
        exact hne hcode
      rw [codeAt_cons_of_ne (.inr hlater), codeAt_cons_of_ne (.inr (by simp [hcode])), ih]

theorem Arrives.suffix {A : Set RegisterKey} (h : Arrives code rest A)
    : rest <:+ code := by
  induction h with
  | start => exact List.suffix_refl code
  | @proceed i rest A _ _ ih => exact (List.suffix_cons i rest).trans ih
  | @jump i rest A l _ _ _ => exact codeAt_suffix code l

/-- Without jumps, paths follow the code. -/
theorem Arrives.of_straight {A : Set RegisterKey}
    (hcode : ∀ i ∈ code, i.targets = []) (h : Arrives code rest A)
    : ∃ before, code = before ++ rest ∧ ∀ i ∈ before, ∀ x, i.assigned? = some x → x ∈ A := by
  induction h with
  | start => exact ⟨[], rfl, by simp⟩
  | @proceed i rest A _ _ ih =>
      obtain ⟨before, hb, hA⟩ := ih
      refine ⟨before ++ [i], by simpa using hb, fun j hj x hx => ?_⟩
      rcases List.mem_append.mp hj with hj | hj
      · exact .inl (hA j hj x hx)
      · exact .inr (List.mem_singleton.mp hj ▸ hx)
  | jump ha hl _ =>
      rw [hcode _ (ha.suffix.subset List.mem_cons_self)] at hl
      cases hl

/-- Code without jumps assigns registers before it reads them, if it does so in its order. -/
theorem assignedBeforeRead_of_straight {code : List Inst} (hcode : ∀ i ∈ code, i.targets = [])
    (h : ∀ n, ∀ i ∈ code[n]?, ∀ x ∈ i.readKeys, ∃ j ∈ code.take n, j.assigned? = some x)
    : AssignedBeforeRead code := by
  intro i rest A ha x hx
  obtain ⟨before, rfl, hA⟩ := ha.of_straight hcode
  obtain ⟨j, hj, hjx⟩ := h before.length i (by simp) x hx
  exact hA j (by simpa using hj) x hjx

theorem Definite.of_proceed {x : RegisterKey}
    (h : Definite code rest x) (hp : i.proceeds) (hx : i.assigned? ≠ some x)
    : Definite code (i :: rest) x := by
  intro A ha
  rcases h _ (ha.proceed hp) with hm | hm
  · exact hm
  · exact absurd hm hx

theorem Definite.of_jump {x : RegisterKey} (h : Definite code (codeAt code l) x)
    (hl : l ∈ i.targets)
    : Definite code (i :: rest) x :=
  fun A ha => h A (ha.jump hl)

/-- Nothing is assigned at the start. -/
theorem not_definite_start (code : List Inst) (x : RegisterKey)
    : ¬ Definite code code x :=
  fun h => h ∅ .start

namespace RegisterMachine

variable {D : Type} {I : Interpretation D} {code : List Inst}

-- Steps along paths

theorem effect_proceed {history : List (Action D)} {registers : RegisterFile D}
    {actions : List (Action D)} {written : Option (RegisterKey × D)}
    (h : I.effect history registers i = .proceed actions written)
    : i.proceeds ∧ written.map Prod.fst = i.assigned? := by
  cases i with
  | assign target source =>
      cases target <;> simp only [Interpretation.effect, Interpretation.assign,
        Effect.proceed.injEq] at h <;> simp [← h.2, Inst.assigned?, Inst.proceeds,
        Inst.isBranching, Inst.isTerminating]
  | returns | throws | jump | branch | switch => simp [Interpretation.effect] at h
  | _ =>
      simp only [Interpretation.effect, Effect.proceed.injEq] at h
      simp [← h.2, Inst.assigned?, Inst.proceeds, Inst.isBranching, Inst.isTerminating]

theorem effect_jump {history : List (Action D)} {registers : RegisterFile D}
    (h : I.effect history registers i = .jump l)
    : l ∈ i.targets := by
  cases i with
  | assign target source =>
      cases target <;> simp [Interpretation.effect, Interpretation.assign] at h
  | jump target => simp_all [Interpretation.effect, Inst.targets]
  | branch condition onTrue onFalse =>
      simp only [Interpretation.effect, Effect.jump.injEq] at h
      subst h
      simp only [Inst.targets, List.mem_cons, List.not_mem_nil, or_false]
      split
      · exact .inl rfl
      · exact .inr rfl
  | switch key cases default =>
      simp only [Interpretation.effect, Effect.jump.injEq] at h
      subst h
      simp only [Inst.targets, List.mem_append, List.mem_map, List.mem_singleton]
      cases hc : cases.find? fun c =>
          I.equal (I.eval history registers key) (I.eval history registers c.1) with
      | none => exact .inr rfl
      | some c => exact .inl ⟨c, List.mem_of_find?_eq_some hc, rfl⟩
  | _ => simp [Interpretation.effect] at h

/-- What a step from a running state does: it proceeds, jumps or ends the run. -/
theorem State.next_cases (I : Interpretation D) (code : List Inst) {s : State D}
    {rest : List Inst} (h : s.outcome = none) (hr : s.rest = i :: rest)
    : (∃ actions written, I.effect s.history s.registers i = .proceed actions written
          ∧ i.proceeds ∧ written.map Prod.fst = i.assigned?
          ∧ s.next I code
            = ⟨rest, s.registers.write written, s.history ++ actions, none⟩)
      ∨ (∃ l ∈ i.targets, I.effect s.history s.registers i = .jump l
          ∧ s.next I code = ⟨codeAt code l, s.registers, s.history, none⟩)
      ∨ (∃ outcome, I.effect s.history s.registers i = .stop outcome
          ∧ s.next I code = ⟨s.rest, s.registers, s.history, some outcome⟩) := by
  have hn : s.next I code = s.after code rest (I.effect s.history s.registers i) :=
    State.next_of_running h hr
  cases he : I.effect s.history s.registers i with
  | proceed actions written =>
      obtain ⟨hp, hw⟩ := effect_proceed he
      exact .inl ⟨actions, written, rfl, hp, hw, by simp [hn, he, State.after, h]⟩
  | jump l => exact .inr (.inl ⟨l, effect_jump he, rfl, by simp [hn, he, State.after, h]⟩)
  | stop outcome => exact .inr (.inr ⟨outcome, rfl, by simp [hn, he, State.after]⟩)

-- Reached states

/-- A run of the code from the registers comes to the state. -/
def Reached (I : Interpretation D) (code : List Inst) (registers : RegisterFile D) (s : State D)
    : Prop :=
  ∃ steps, runFor I code registers steps = s

variable {registers : RegisterFile D} {s : State D}

theorem Reached.start : Reached I code registers (.start code registers) :=
  ⟨0, rfl⟩

theorem Reached.next (h : Reached I code registers s)
    : Reached I code registers (s.next I code) := by
  obtain ⟨n, rfl⟩ := h
  exact ⟨n + 1, Function.iterate_succ_apply' _ _ _⟩

/-- What holds at the start, and is kept where an instruction proceeds and where it jumps, holds
wherever the run goes on.
-/
theorem Reached.induction {P : List Inst → RegisterFile D → Prop}
    (h : Reached I code registers s) (hs : s.outcome = none) (start : P code registers)
    (proceed : ∀ {i rest file history actions written}, P (i :: rest) file →
      I.effect history file i = .proceed actions written → P rest (file.write written))
    (jump : ∀ {i rest file l}, P (i :: rest) file → l ∈ i.targets → P (codeAt code l) file)
    : P s.rest s.registers := by
  obtain ⟨n, rfl⟩ := h
  induction n with
  | zero => exact start
  | succ n ih =>
      have hsucc : runFor I code registers (n + 1) = (runFor I code registers n).next I code :=
        Function.iterate_succ_apply' _ _ _
      rw [hsucc] at hs ⊢
      generalize runFor I code registers n = s at hs ih ⊢
      cases ho : s.outcome with
      | some outcome => simp [State.next_of_ended ho, ho] at hs
      | none =>
          have hP := ih ho
          cases hr : s.rest with
          | nil => simp [State.next_of_exhausted ho hr] at hs
          | cons i rest =>
              rw [hr] at hP
              rcases State.next_cases I code ho hr with
                ⟨actions, written, heff, -, -, hn⟩ | ⟨l, hl, -, hn⟩ | ⟨outcome, -, hn⟩
              · rw [hn]
                exact proceed hP heff
              · rw [hn]
                exact jump hP hl
              · simp [hn] at hs

/-- Runs follow paths. -/
theorem Reached.arrives (h : Reached I code registers s) (hs : s.outcome = none)
    : ∃ A, Arrives code s.rest A := by
  refine h.induction (P := fun rest _ => ∃ A, Arrives code rest A) hs ⟨∅, .start⟩ ?_ ?_
  · rintro i rest file history actions written ⟨A, ha⟩ heff
    exact ⟨_, ha.proceed (effect_proceed heff).1⟩
  · rintro i rest file l ⟨A, ha⟩ hl
    exact ⟨A, ha.jump hl⟩

end RegisterMachine

end StackLift
