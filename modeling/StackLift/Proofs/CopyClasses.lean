import Mathlib.Data.Setoid.Basic
import StackLift.Proofs.Recolouring

/-!
Classes of registers that copy one another. If at most one assignment gives a class a value that is
not a copy within it, then all its registers that are assigned on every path hold the same value.
-/

namespace StackLift

open RegisterMachine

/-- Is the register read or assigned in the code? -/
def Occurs (code : List Inst) (x : RegisterKey) : Prop :=
  ∃ i ∈ code, x ∈ i.readKeys ∨ i.assigned? = some x

/-- The expression is a copy of a register with one of the indices. -/
def IsCopyWithin (C : Set Nat) (e : Expr) : Prop :=
  ∃ q : Register, e = .value (.register q) ∧ q.index ∈ C

/-- The rest of a code starts with an assignment that gives a class a value from outside. -/
def IsOrigin (C : Set Nat) (rest : List Inst) : Prop :=
  ∃ (r : Register) (e : Expr) (tail : List Inst),
    rest = .assign (.register r) e :: tail ∧ r.index ∈ C ∧ ¬ IsCopyWithin C e

/-- A class gets values from outside at one place at most. -/
def OneOrigin (code : List Inst) (C : Set Nat) : Prop :=
  ∀ {rest rest' : List Inst}, rest <:+ code → rest' <:+ code → IsOrigin C rest →
    IsOrigin C rest' → rest = rest'

/-- The registers of a class hold the same value. -/
def Agree {D : Type} (C : Set Nat) (registers : RegisterFile D) (A : Set RegisterKey) : Prop :=
  ∀ x ∈ A, ∀ y ∈ A, x.1 ∈ C → y.1 ∈ C → registers x = registers y

/-- Each class of indices either belongs to one register at most or has one origin at most. -/
def Classified (code : List Inst) (cls : Setoid Nat) : Prop :=
  ∀ n, (∀ x y, Occurs code x → Occurs code y → cls n x.1 → cls n y.1 → x = y)
    ∨ OneOrigin code {m | cls n m}

theorem Occurs.of_assign {code rest : List Inst} {r : Register} {e : Expr}
    (h : .assign (.register r) e :: rest <:+ code)
    : Occurs code r.key :=
  ⟨_, h.subset List.mem_cons_self, .inr rfl⟩

variable {A : Set RegisterKey}

/-- What a path has assigned, some instruction assigns. -/
theorem Arrives.exists_assigned {code rest : List Inst}
    (h : Arrives code rest A) {x : RegisterKey} (hx : x ∈ A)
    : ∃ i ∈ code, i.assigned? = some x := by
  induction h with
  | start => exact absurd hx (Set.notMem_empty x)
  | proceed ha _ ih =>
      rcases hx with hx | hx
      · exact ih hx
      · exact ⟨_, ha.suffix.subset List.mem_cons_self, hx⟩
  | jump _ _ ih => exact ih hx

theorem Occurs.of_arrives {code rest : List Inst} (h : Arrives code rest A)
    {x : RegisterKey} (hx : x ∈ A)
    : Occurs code x := by
  obtain ⟨i, hi, ha⟩ := h.exists_assigned hx
  exact ⟨i, hi, .inr ha⟩

theorem mem_readKeys_copy (target : Register) (q : Register)
    : q.key ∈ (Inst.assign (.register target) (.value (.register q))).readKeys := by
  simp [Inst.readKeys, Inst.readValues, Value.operands, Expr.subvalues, Value.subvalues,
    Value.register?]

-- Registers of a class agree

section Agree

variable {code : List Inst} {C : Set Nat}

/-- Before a path assigns a register of the class, it comes to an origin of the class. -/
theorem origin_of_assigned (hb : AssignedBeforeRead code) {rest : List Inst}
    (ha : Arrives code rest A)
    : (∀ x ∈ A, x.1 ∉ C) ∨ ∃ origin A₀, Arrives code origin A₀ ∧ IsOrigin C origin
        ∧ ∀ x ∈ A₀, x.1 ∉ C := by
  induction ha with
  | start => exact .inl fun x hx => absurd hx (Set.notMem_empty x)
  | @proceed i rest A ha _ ih =>
      rcases ih with hA | ho
      · by_cases hi : ∃ x, i.assigned? = some x ∧ x.1 ∈ C
        · obtain ⟨x, hx, hxC⟩ := hi
          cases i with
          | assign target source =>
              cases target with
              | register r =>
                  cases hx
                  refine .inr ⟨_, A, ha, ⟨r, source, rest, rfl, hxC, ?_⟩, hA⟩
                  rintro ⟨q, rfl, hq⟩
                  exact hA q.key (hb ha q.key (mem_readKeys_copy r q)) hq
              | _ => cases hx
          | _ => cases hx
        · refine .inl fun x hx hxC => ?_
          rcases hx with hx | hx
          · exact hA x hx hxC
          · exact hi ⟨x, hx, hxC⟩
      · exact .inr ho
  | jump _ _ ih => exact ih

/-- Some path comes to the origin of a class without assigning a register of the class. -/
theorem arrives_origin (hb : AssignedBeforeRead code) (one : OneOrigin code C) {rest : List Inst}
    (ha : Arrives code rest A) (ho : IsOrigin C rest)
    : ∃ A₀, Arrives code rest A₀ ∧ ∀ x ∈ A₀, x.1 ∉ C := by
  rcases origin_of_assigned hb ha with hA | ⟨origin, A₀, ha₀, ho₀, hA₀⟩
  · exact ⟨A, ha, hA⟩
  · cases one ha₀.suffix ha.suffix ho₀ ho
    exact ⟨A₀, ha₀, hA₀⟩

variable {D : Type} {I : Interpretation D} {history : List (Action D)}
variable {registers : RegisterFile D}

/-- An assignment keeps the agreement: a copy within the class takes over its value, and at the
origin of the class we follow the path that has assigned no other register of it.
-/
theorem agree_assign (hb : AssignedBeforeRead code) (one : OneOrigin code C) {r : Register}
    {e : Expr} {rest : List Inst}
    (ha : Arrives code (.assign (.register r) e :: rest) A) (hagree : Agree C registers A)
    : ∃ A', Arrives code rest A' ∧ r.key ∈ A'
        ∧ Agree C (Function.update registers r.key (I.evalExpr history registers e)) A' := by
  by_cases hr : r.index ∈ C
  · by_cases he : IsCopyWithin C e
    · obtain ⟨q, rfl, hq⟩ := he
      have hqA : q.key ∈ A := hb ha q.key (mem_readKeys_copy r q)
      refine ⟨_, ha.proceed rfl, .inr rfl, ?_⟩
      have hval : ∀ x ∈ A ∪ {x | some r.key = some x}, x.1 ∈ C →
          Function.update registers r.key (registers q.key) x = registers q.key := by
        intro x hx hxC
        by_cases hxr : x = r.key
        · rw [hxr, Function.update_self]
        · rw [Function.update_of_ne hxr]
          rcases hx with hx | hx
          · exact hagree x hx q.key hqA hxC hq
          · exact absurd (Option.some.inj hx).symm hxr
      intro x hx y hy hxC hyC
      exact (hval x hx hxC).trans (hval y hy hyC).symm
    · obtain ⟨A₀, ha₀, hA₀⟩ := arrives_origin hb one ha ⟨r, e, rest, rfl, hr, he⟩
      refine ⟨_, ha₀.proceed rfl, .inr rfl, ?_⟩
      have honly : ∀ x ∈ A₀ ∪ {x | some r.key = some x}, x.1 ∈ C → x = r.key := by
        intro x hx hxC
        rcases hx with hx | hx
        · exact absurd hxC (hA₀ x hx)
        · exact (Option.some.inj hx).symm
      intro x hx y hy hxC hyC
      rw [honly x hx hxC, honly y hy hyC]
  · refine ⟨_, ha.proceed rfl, .inr rfl, ?_⟩
    have hkeep : ∀ x ∈ A ∪ {x | some r.key = some x}, x.1 ∈ C → x ∈ A ∧ x ≠ r.key := by
      intro x hx hxC
      have hne : x ≠ r.key := by
        rintro rfl
        exact hr hxC
      rcases hx with hx | hx
      · exact ⟨hx, hne⟩
      · exact absurd (Option.some.inj hx).symm hne
    intro x hx y hy hxC hyC
    obtain ⟨hxA, hxr⟩ := hkeep x hx hxC
    obtain ⟨hyA, hyr⟩ := hkeep y hy hyC
    rw [Function.update_of_ne hxr, Function.update_of_ne hyr]
    exact hagree x hxA y hyA hxC hyC

/-- In every reached state, the registers of the class on some path to its place agree. -/
theorem agree_of_reached (hb : AssignedBeforeRead code) (one : OneOrigin code C) {s : State D}
    (h : Reached I code registers s) (hs : s.outcome = none)
    : ∃ A, Arrives code s.rest A ∧ Agree C s.registers A := by
  refine h.induction (P := fun rest file => ∃ A, Arrives code rest A ∧ Agree C file A) hs
    ⟨∅, .start, fun x hx => absurd hx (Set.notMem_empty x)⟩ ?_ ?_
  · rintro i rest file history actions written ⟨A, ha, hagree⟩ heff
    cases written with
    | none =>
        obtain ⟨hp, hw⟩ := effect_proceed heff
        refine ⟨_, ha.proceed hp, ?_⟩
        simpa [← hw] using hagree
    | some w =>
        obtain ⟨x, value⟩ := w
        obtain ⟨r, e, rfl, rfl, rfl⟩ := Recolouring.effect_written heff
        obtain ⟨A', ha', -, hagree'⟩ := agree_assign hb one ha hagree
        exact ⟨A', ha', hagree'⟩
  · rintro i rest file l ⟨A, ha, hagree⟩ hl
    exact ⟨A, ha.jump hl, hagree⟩

end Agree

/-- Registers get one name only within their classes, so an assigned register gets the value of each
other register with its new name.
-/
theorem Classified.noClash {code : List Inst} {cls : Setoid Nat} (hc : Classified code cls)
    (hb : AssignedBeforeRead code) {σ : RegisterKey → RegisterKey}
    (hσ : ∀ x, Occurs code x → cls x.1 (σ x).1) (Needed : List Inst → RegisterKey → Prop)
    (i : Inst) (rest : List Inst)
    : NoClash code σ Needed i rest := by
  intro r e D I registers s y hi hreach hs hr _ hdef hne hyr
  subst hi
  obtain ⟨A, ha⟩ := hreach.arrives hs
  rw [hr] at ha
  have hclass : ∀ x, Occurs code x → σ x = σ r.key → cls r.index x.1 := by
    intro x hx hxr
    have hcls := hσ r.key (.of_assign ha.suffix)
    exact cls.trans (hxr ▸ hcls) (cls.symm (hσ x hx))
  rcases hc r.index with hone | one
  · have hoy : Occurs code y := .of_arrives (ha.proceed rfl) (hdef _ (ha.proceed rfl))
    exact absurd (hone y r.key hoy (.of_assign ha.suffix) (hclass y hoy hyr) (cls.refl _)) hne
  · obtain ⟨A, ha, hagree⟩ := agree_of_reached hb one hreach hs
    rw [hr] at ha
    obtain ⟨A', ha', hrA', hagree'⟩ := agree_assign hb one ha hagree
    have hy := hclass y (.of_arrives ha' (hdef A' ha')) hyr
    have hval := hagree' y (hdef A' ha') r.key hrA' hy (cls.refl _)
    rwa [Function.update_of_ne hne, Function.update_self] at hval

end StackLift
