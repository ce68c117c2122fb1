import Mathlib.Data.List.Forall2
import Mathlib.Logic.Function.Basic
import StackLift.Ir.Inst

/-!
Runs of register code over the values of all its variables. A copy of a simple value copies it, and
every other instruction does what an interpretation says: it may write its own variable and go on,
go on at any label, or stop.

A code may leave out instructions of another one that change nothing. Its runs then come to the same
states in front of the instructions that both have.
-/

namespace StackLift

namespace VariableMachine

/-- What tells the variables of a code apart. All registers with one index are one variable. -/
inductive Cell where
  | receiver (type : TypeName)
  | argument (index : Nat) (type : TypeName)
  | register (index : Nat)
deriving DecidableEq

end VariableMachine

open VariableMachine

def Value.cell? : Value → Option Cell
  | .this type => some (.receiver type)
  | .argument a => some (.argument a.index a.type)
  | .register r => some (.register r.index)
  | _ => none

/-- The variable that an instruction may write. -/
def Inst.written? : Inst → Option Cell
  | .assign target _ => target.cell?
  | .catches exception _ _ => exception.cell?
  | _ => none

namespace VariableMachine

abbrev Valuation (D : Type) := Cell → D

/-- What an instruction does to the world around a run, and where the run goes on. -/
inductive Effect (D W : Type) where
  /-- The next instruction follows, after the value is written to the variable of this one. -/
  | proceed (world : W) (value : Option D)
  /-- A jump, a branch that is taken, or an exception. -/
  | transfer (world : W) (target : CodeLabel)
  | stop

/-- The meaning of constants, and of all instructions other than copies of simple values. -/
structure Interpretation (D W : Type) where
  constant : Constant → D
  effect : Inst → Valuation D → W → Effect D W

/-- The state in front of the instruction at a place. -/
structure State (D W : Type) where
  place : Nat
  values : Valuation D
  world : W

variable {D W : Type}

def Valuation.write (values : Valuation D) : Option Cell → Option D → Valuation D
  | some x, some value => Function.update values x value
  | _, _ => values

/-- The value of a simple value. -/
def Interpretation.eval (I : Interpretation D W) (values : Valuation D) : Value → Option D
  | .constant c => some (I.constant c)
  | v => v.cell?.map values

def Interpretation.perform (I : Interpretation D W) (values : Valuation D) (world : W)
    : Inst → Effect D W
  | .assign target (.value source) =>
    if target.isSimple && source.isSimple then .proceed world (I.eval values source)
    else I.effect (.assign target (.value source)) values world
  | i => I.effect i values world

/-- The next state of a run; none, if the run stops, there is no further instruction, or the label
is not placed.
-/
def next (I : Interpretation D W) (code : List Inst) (s : State D W) : Option (State D W) :=
  code[s.place]?.bind fun i =>
    match I.perform s.values s.world i with
    | .proceed world value => some ⟨s.place + 1, s.values.write i.written? value, world⟩
    | .transfer world target =>
      (code.idxOf? (.label target)).map fun place => ⟨place, s.values, world⟩
    | .stop => none

/-- The state after a number of steps, unless the run has ended. -/
def run (I : Interpretation D W) (code : List Inst) : Nat → State D W → Option (State D W)
  | 0, s => some s
  | n + 1, s => (next I code s).bind (run I code n)

/-- The states in which a run performs its first instructions. -/
def visits (I : Interpretation D W) (code : List Inst) : Nat → State D W → List (State D W)
  | 0, _ => []
  | n + 1, s =>
    if s.place < code.length then s :: (next I code s).elim [] (visits I code n) else []

-- Values of variables

theorem exists_cell {v : Value} (hs : v.isSimple) (hc : v.isConstant = false)
    : ∃ x, v.cell? = some x := by
  cases v with
  | this | argument | register => exact ⟨_, rfl⟩
  | constant => cases hc
  | _ => cases hs

section Values

variable (I : Interpretation D W) (values : Valuation D)

theorem Interpretation.eval_anonymous (v : Value)
    : I.eval values v.anonymous = I.eval values v := by
  cases v <;> rfl

theorem Interpretation.eval_of_cell {v : Value} {x : Cell} (h : v.cell? = some x)
    : I.eval values v = some (values x) := by
  cases v with
  | constant => cases h
  | _ => exact congrArg (Option.map values) h

theorem Interpretation.eval_eq_some {v : Value} (h : v.isSimple)
    : ∃ value, I.eval values v = some value := by
  cases v with
  | this | argument | register | constant => exact ⟨_, rfl⟩
  | _ => cases h

theorem Interpretation.eval_write {v : Value} {x : Cell} (h : v.cell? ≠ some x)
    (value : Option D)
    : I.eval (values.write (some x) value) v = I.eval values v := by
  cases value with
  | none => rfl
  | some value =>
      cases hv : v.cell? with
      | some y =>
          have hne : y ≠ x := by
            rintro rfl
            exact h hv
          rw [I.eval_of_cell _ hv, I.eval_of_cell _ hv, Valuation.write,
            Function.update_of_ne hne]
      | none =>
          cases v with
          | this | argument | register => cases hv
          | _ => rfl

end Values

-- Steps and visits

section Runs

variable {I : Interpretation D W} {code : List Inst} {s t : State D W} {n : Nat}

theorem next_eq_none_of_length_le (h : code.length ≤ s.place)
    : next I code s = none := by
  rw [next, List.getElem?_eq_none h, Option.bind_none]

theorem next_of_proceed {i : Inst} {world : W} {value : Option D}
    (hi : code[s.place]? = some i) (heff : I.perform s.values s.world i = .proceed world value)
    : next I code s = some ⟨s.place + 1, s.values.write i.written? value, world⟩ := by
  simp only [next, hi, Option.bind_some, heff]

theorem next_of_transfer {i : Inst} {world : W} {target : CodeLabel}
    (hi : code[s.place]? = some i) (heff : I.perform s.values s.world i = .transfer world target)
    : next I code s
      = (code.idxOf? (.label target)).map fun place => ⟨place, s.values, world⟩ := by
  simp only [next, hi, Option.bind_some, heff]

theorem next_of_stop {i : Inst} (hi : code[s.place]? = some i)
    (heff : I.perform s.values s.world i = .stop)
    : next I code s = none := by
  simp only [next, hi, Option.bind_some, heff]

/-- What a step can do. -/
theorem next_cases (h : next I code s = some t)
    : ∃ i, code[s.place]? = some i
      ∧ ((∃ world value, I.perform s.values s.world i = .proceed world value
          ∧ t = ⟨s.place + 1, s.values.write i.written? value, world⟩)
        ∨ ∃ world target, I.perform s.values s.world i = .transfer world target
          ∧ code.idxOf? (.label target) = some t.place) := by
  cases hi : code[s.place]? with
  | none => simp [next, hi] at h
  | some i =>
      refine ⟨i, rfl, ?_⟩
      cases heff : I.perform s.values s.world i with
      | proceed world value =>
          rw [next_of_proceed hi heff] at h
          exact .inl ⟨world, value, rfl, (Option.some.inj h).symm⟩
      | transfer world target =>
          rw [next_of_transfer hi heff] at h
          obtain ⟨place, hp, rfl⟩ := Option.map_eq_some_iff.mp h
          exact .inr ⟨world, target, rfl, hp⟩
      | stop => simp [next_of_stop hi heff] at h

theorem visits_of_length_le (h : code.length ≤ s.place)
    : visits I code n s = [] := by
  cases n with
  | zero => rfl
  | succ n => rw [visits, if_neg (Nat.not_lt.mpr h)]

theorem visits_succ (h : s.place < code.length)
    : visits I code (n + 1) s = s :: (next I code s).elim [] (visits I code n) := by
  rw [visits, if_pos h]

/-- What every step keeps holds in all states that a run visits. -/
theorem forall_visits {P : State D W → Prop}
    (hstep : ∀ {s t : State D W}, P s → next I code s = some t → P t) (h : P s)
    : ∀ t ∈ visits I code n s, t.place < code.length ∧ P t := by
  induction n generalizing s with
  | zero => exact fun t ht => nomatch ht
  | succ n ih =>
      intro t ht
      rw [visits] at ht
      split at ht
      · rename_i hlt
        rcases List.mem_cons.mp ht with rfl | ht
        · exact ⟨hlt, h⟩
        · cases hnext : next I code s with
          | none => simp [hnext] at ht
          | some u =>
              rw [hnext, Option.elim_some] at ht
              exact ih (hstep h hnext) t ht
      · cases ht

end Runs

-- Runs that skip instructions

/-- The states differ in their places only, and the second is at the new place of the first. -/
structure Corresponds (places : List Nat) (s s' : State D W) : Prop where
  place : places[s'.place]? = some s.place
  values : s'.values = s.values
  world : s'.world = s.world

/-- After the given numbers of steps, the second run has visited the states that the first has
visited at the given places, and has ended if and only if the first has.
-/
structure SameVisits (I : Interpretation D W) (code other : List Inst) (places : List Nat)
    (n m : Nat) (s s' : State D W) : Prop where
  states : List.Forall₂ (Corresponds places)
    ((visits I code n s).filter fun t => t.place ∈ places) (visits I other m s')
  ended : run I code n s = none ↔ run I other m s' = none

/-- A relation of states that steps keep, where the other code skips all other places. -/
structure Skipping (I : Interpretation D W) (code other : List Inst) (places : List Nat)
    (R : State D W → State D W → Prop) : Prop where
  corresponds : ∀ {s s'}, R s s' → s.place ∈ places → Corresponds places s s'
  bounds : ∀ {s s'}, R s s' → s.place ∈ places →
    s.place < code.length ∧ s'.place < other.length
  step : ∀ {s s'}, R s s' → s.place ∈ places →
    Option.Rel R (next I code s) (next I other s')
  skip : ∀ {s s'}, R s s' → s.place < code.length → s.place ∉ places →
    ∃ t, next I code s = some t ∧ t.place = s.place + 1 ∧ R t s'
  ended : ∀ {s s'}, R s s' → code.length ≤ s.place → other.length ≤ s'.place

namespace Skipping

variable {I : Interpretation D W} {code other : List Inst} {places : List Nat}
variable {R : State D W → State D W → Prop} {s s' t t' : State D W} {n m : Nat}

variable (h : Skipping I code other places R)
include h

theorem sameVisits_ended (hR : R s s') (hs : code.length ≤ s.place)
    : SameVisits I code other places (n + 1) (m + 1) s s' := by
  have hs' := h.ended hR hs
  constructor
  · rw [visits_of_length_le hs, visits_of_length_le hs']
    exact .nil
  · rw [run, run, next_eq_none_of_length_le hs, next_eq_none_of_length_le hs']
    rfl

omit h in
theorem sameVisits_skip (hs : s.place < code.length) (hp : s.place ∉ places)
    (hnext : next I code s = some t) (ht : SameVisits I code other places n m t s')
    : SameVisits I code other places (n + 1) m s s' := by
  constructor
  · rw [visits_succ hs, hnext, List.filter_cons_of_neg (by simpa using hp)]
    exact ht.states
  · rw [run, hnext]
    exact ht.ended

theorem sameVisits_stop (hR : R s s') (hp : s.place ∈ places) (hx : next I code s = none)
    (hy : next I other s' = none)
    : SameVisits I code other places (n + 1) (m + 1) s s' := by
  obtain ⟨hs, hs'⟩ := h.bounds hR hp
  constructor
  · rw [visits_succ hs, visits_succ hs', hx, hy, List.filter_cons_of_pos (by simpa using hp)]
    exact .cons (h.corresponds hR hp) .nil
  · rw [run, run, hx, hy]
    rfl

theorem sameVisits_step (hR : R s s') (hp : s.place ∈ places) (hx : next I code s = some t)
    (hy : next I other s' = some t') (ht : SameVisits I code other places n m t t')
    : SameVisits I code other places (n + 1) (m + 1) s s' := by
  obtain ⟨hs, hs'⟩ := h.bounds hR hp
  constructor
  · rw [visits_succ hs, visits_succ hs', hx, hy, List.filter_cons_of_pos (by simpa using hp)]
    exact .cons (h.corresponds hR hp) ht.states
  · rw [run, run, hx, hy]
    exact ht.ended

theorem step_cases (hR : R s s') (hp : s.place ∈ places)
    : (next I code s = none ∧ next I other s' = none)
      ∨ ∃ t t', next I code s = some t ∧ next I other s' = some t' ∧ R t t' := by
  have hstep := h.step hR hp
  generalize next I code s = x, next I other s' = y at hstep
  cases hstep with
  | none => exact .inl ⟨rfl, rfl⟩
  | some ht => exact .inr ⟨_, _, rfl, rfl, ht⟩

/-- The other run keeps up with the run. -/
theorem exists_other_visits (n : Nat) (hR : R s s')
    : ∃ m, SameVisits I code other places n m s s' := by
  induction n generalizing s s' with
  | zero => exact ⟨0, .nil, by simp [run]⟩
  | succ n ih =>
      rcases Nat.lt_or_ge s.place code.length with hs | hs
      · by_cases hp : s.place ∈ places
        · rcases h.step_cases hR hp with ⟨hx, hy⟩ | ⟨t, t', hx, hy, ht⟩
          · exact ⟨1, h.sameVisits_stop hR hp hx hy⟩
          · obtain ⟨m, hm⟩ := ih ht
            exact ⟨m + 1, h.sameVisits_step hR hp hx hy hm⟩
        · obtain ⟨t, hnext, -, ht⟩ := h.skip hR hs hp
          obtain ⟨m, hm⟩ := ih ht
          exact ⟨m, sameVisits_skip hs hp hnext hm⟩
      · exact ⟨1, h.sameVisits_ended hR hs⟩

/-- The run keeps up with the other run. -/
theorem exists_visits (m : Nat) (hR : R s s')
    : ∃ n, SameVisits I code other places n m s s' := by
  induction m generalizing s s' with
  | zero => exact ⟨0, .nil, by simp [run]⟩
  | succ m ih =>
      -- Each place that is skipped leaves fewer places to skip in front of the next step.
      generalize hk : code.length - s.place = k
      induction k generalizing s with
      | zero => exact ⟨1, h.sameVisits_ended hR (by omega)⟩
      | succ k ihk =>
          by_cases hp : s.place ∈ places
          · rcases h.step_cases hR hp with ⟨hx, hy⟩ | ⟨t, t', hx, hy, ht⟩
            · exact ⟨1, h.sameVisits_stop hR hp hx hy⟩
            · obtain ⟨n, hn⟩ := ih ht
              exact ⟨n + 1, h.sameVisits_step hR hp hx hy hn⟩
          · have hs : s.place < code.length := by omega
            obtain ⟨t, hnext, hplace, ht⟩ := h.skip hR hs hp
            obtain ⟨n, hn⟩ := ihk ht (by omega)
            exact ⟨n + 1, sameVisits_skip hs hp hnext hn⟩

end Skipping

end VariableMachine

end StackLift
