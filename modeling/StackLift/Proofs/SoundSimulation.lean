import StackLift.Proofs.FrameMatching
import StackLift.Proofs.RegisterTyping

/-!
Simulating one instruction is sound. If a frame represents a memory, then the frame after the
simulation represents the memory after the execution, once the code that was added has run. Nothing
is asked of the types of values but that a value of two words is known as one.
-/

namespace StackLift

open StackMachine RegisterMachine Interpretation Function

variable {D : Type} {I : Interpretation D} {M : Meaning D} {σ σ' : Nat → D} {f f' : Frame}
  {μ μ' : Memory D} {v w : Value} {d : Datum D} {slot : Nat}

-- Valuations of registers

namespace RegisterMachine.Interpretation

/-- The content of a value, under a valuation of registers by their indices. -/
def valueOf (I : Interpretation D) (σ : Nat → D) (v : Value) : D :=
  I.eval [] (fun key => σ key.1) v

/-- The valuation after code that assigns registers and does nothing else. -/
def runAssignments (I : Interpretation D) : List Inst → (Nat → D) → Option (Nat → D)
  | [], σ => some σ
  | i :: rest, σ =>
    match I.effect [] (fun key => σ key.1) i with
    | .proceed [] (some (key, content)) =>
      I.runAssignments rest (update σ key.1 content)
    | _ => none

theorem runAssignments_assign {r : Register} {e : Expr} {rest : List Inst}
    (he : e.isComputed = true)
    : I.runAssignments (.assign (.register r) e :: rest) σ
      = I.runAssignments rest
          (update σ r.index (I.evalExpr [] (fun key => σ key.1) e)) := by
  have hactions : I.actions [] (fun key => σ key.1) e = [] := by
    cases e <;> first | rfl | cases he
  simp only [runAssignments, effect, assign, hactions, Register.key]

theorem valueOf_assigned (r : Register) (content : D)
    : I.valueOf (update σ r.index content) (.register r) = content :=
  update_self ..

theorem valueOf_update {index : Nat} {content : D} (hsimple : v.isSimple = true)
    (hne : ∀ r, v = .register r → r.index ≠ index)
    : I.valueOf (update σ index content) v = I.valueOf σ v := by
  cases v with
  | register r => exact update_of_ne (hne r rfl) ..
  | this | argument | constant => rfl
  | staticField | field | element => cases hsimple

/-- Both machines give constants and operators the same meaning, whatever the types that expressions
are marked with. Where an operator depends on the kinds of its operands, it reads them off their
contents.
-/
structure Agrees (I : Interpretation D) (M : Meaning D) : Prop where
  constant : ∀ {c : Constant} {k}, c.StandsFor k → I.constant c = M.constant k
  binary : ∀ (op : Operator) type d e,
    I.binary op.symbol type d.content e.content = M.binary op d e
  negate : ∀ type d, I.negate type d.content = M.negate d
  convert : ∀ (c : Conversion) d, d.kind = c.source → I.cast c.name d.content = M.convert c d

end RegisterMachine.Interpretation

-- Frames that represent memories

/-- The entries of the stack have the contents of those of the memory, and so have the slots that
the memory defines.
-/
structure Frame.Represents (I : Interpretation D) (σ : Nat → D) (f : Frame) (μ : Memory D) :
    Prop where
  stack : List.Forall₂ (fun v d => I.valueOf σ v = d.content) f.stack μ.stack
  locals : ∀ {slot d}, μ.local? slot = some d →
    ∃ v, f.local? slot = some v ∧ I.valueOf σ v = d.content

/-- Registers of the frame with the same index have the same type. -/
def Frame.TypedOnce (f : Frame) : Prop :=
  ∀ {r q : Register}, f.Has (.register r) → f.Has (.register q) → r.index = q.index →
    r.type = q.type

namespace Frame.Represents

variable (h : f.Represents I σ μ)
include h

/-- Contents that all values keep are still represented. -/
theorem kept (hkept : ∀ {v}, f.Has v → I.valueOf σ' v = I.valueOf σ v)
    : f.Represents I σ' μ where
  stack := (List.forall₂_and_left _ _ |>.mpr ⟨fun v hv => .inr hv, h.stack⟩).imp
    fun _ _ both => (hkept both.1).trans both.2
  locals hd := by
    obtain ⟨v, hv, hvalue⟩ := h.locals hd
    exact ⟨v, hv, (hkept (@Frame.has_of_place _ _ (.slot _) hv)).trans hvalue⟩

theorem withStack {stack : List Value} {stack' : List (Datum D)}
    (hstack : List.Forall₂ (fun v d => I.valueOf σ v = d.content) stack stack')
    : ({ f with stack } : Frame).Represents I σ { μ with stack := stack' } where
  stack := hstack
  locals hd := h.locals hd

theorem push (hv : I.valueOf σ v = d.content)
    : (f.push v).Represents I σ (μ.push d) :=
  h.withStack (.cons hv h.stack)

theorem pop {kind : ValueKind} {rest : List Value} (hstack : f.stack = v :: rest)
    (hμ : μ.pop kind = some (d, μ'))
    : I.valueOf σ v = d.content ∧ d.kind = kind
      ∧ ({ f with stack := rest } : Frame).Represents I σ μ' := by
  obtain ⟨others, hd, hkind, rfl⟩ := Memory.pop_eq_some hμ
  have hall := h.stack
  rw [hstack, hd] at hall
  obtain ⟨hv, hrest⟩ := List.forall₂_cons.mp hall
  exact ⟨hv, hkind, h.withStack hrest⟩

/-- A store changes one slot and leaves the others as they are, or undefined. -/
theorem store (hv : I.valueOf σ v = d.content) (slot : Nat)
    : (f.putLocal slot v).Represents I σ (μ.store slot d) where
  stack := h.stack
  locals {index e} he := by
    rw [Frame.local?_putLocal]
    obtain ⟨rfl, rfl⟩ | ⟨hindex, hlocal, -, -⟩ := Memory.local?_store_cases he
    · exact ⟨v, if_pos rfl, hv⟩
    · rw [if_neg hindex]
      exact h.locals hlocal

end Frame.Represents

-- Stores

variable {p : Plan} {node next next' : Nat} {insts : List Inst}

theorem Value.Below.ne_index {bound index : Nat} (h : v.Below bound) (hle : bound ≤ index)
    : ∀ r, v = .register r → r.index ≠ index := by
  rintro r rfl
  have hlt := Value.within_register.mp h.within
  omega

/-- In a frame with one type per index, a register that is another value has another index. -/
theorem Frame.TypedOnce.ne_index {r : Register} (h : f.TypedOnce) (hr : f.Has (.register r))
    (hv : f.Has v) (hne : ¬ v.Same (.register r))
    : ∀ q, v = .register q → q.index ≠ r.index := by
  rintro q rfl hindex
  exact hne (Value.same_register_iff.mpr ⟨q, rfl, Prod.ext hindex (h hv hr hindex)⟩)

theorem Stores.represents (h : Stores p node slot f w next next' insts f')
    (hf : f.Represents I σ μ) (hbelow : ∀ {v}, f.Has v → v.Below next) (honce : f.TypedOnce)
    (hw : I.valueOf σ w = d.content)
    : ∃ σ', I.runAssignments insts σ = some σ' ∧ f'.Represents I σ' (μ.store slot d) := by
  cases h with
  | keep => exact ⟨σ, rfl, hf.store hw slot⟩
  | @make r hle hlt htype =>
      refine ⟨_, runAssignments_assign rfl, ?_⟩
      have hkept : ∀ {v}, f.Has v → I.valueOf (update σ r.index d.content) v
          = I.valueOf σ v := fun hv =>
        valueOf_update (hbelow hv).simple ((hbelow hv).ne_index hle)
      show (f.putLocal slot (.register r)).Represents I (update σ r.index (I.valueOf σ w)) _
      rw [hw]
      exact (hf.kept hkept).store (valueOf_assigned r _) slot
  | @reuse r hslot hstack hlocals htypes =>
      refine ⟨_, runAssignments_assign rfl, ?_⟩
      show f.Represents I (update σ r.index (I.valueOf σ w)) _
      rw [hw]
      have hr : f.Has (.register r) := @Frame.has_of_place _ _ (.slot slot) hslot
      have hkept : ∀ {v}, f.Has v → ¬ v.Same (.register r) →
          I.valueOf (update σ r.index d.content) v = I.valueOf σ v := fun hv hne =>
        valueOf_update (hbelow hv).simple (honce.ne_index hr hv hne)
      refine ⟨?_, fun {index e} he => ?_⟩
      · refine (List.forall₂_and_left _ _ |>.mpr ⟨fun v hv => hv, hf.stack⟩).imp fun v e both => ?_
        exact (hkept (.inr both.1) (Frame.not_same_of_usedInStack hstack both.1)).trans both.2
      · obtain ⟨rfl, rfl⟩ | ⟨hindex, hlocal, -, -⟩ := Memory.local?_store_cases he
        · exact ⟨_, hslot, valueOf_assigned r _⟩
        · obtain ⟨v, hv, hvalue⟩ := hf.locals hlocal
          have hother := Frame.not_same_of_usedInOtherLocals hlocals hindex hv
          exact ⟨v, hv, (hkept (@Frame.has_of_place _ _ (.slot index) hv) hother).trans hvalue⟩

-- Operations

theorem forall₂_and {α β : Type} {R R' : α → β → Prop} {l : List α} {l' : List β}
    (h : List.Forall₂ R l l') (h' : List.Forall₂ R' l l')
    : List.Forall₂ (fun a b => R a b ∧ R' a b) l l' := by
  induction h with
  | nil => exact .nil
  | cons hR _ ih =>
      obtain ⟨hR', h'⟩ := List.forall₂_cons.mp h'
      exact .cons ⟨hR, hR'⟩ (ih h')

/-- Where the content of an expression is that of a datum, assigning it to a fresh register and
pushing that register pushes the datum.
-/
theorem Frame.Represents.compute {r : Register} {e : Expr} (h : f.Represents I σ μ)
    (hbelow : ∀ {v}, f.Has v → v.Below next) (hle : next ≤ r.index) (he : e.isComputed = true)
    (hd : I.evalExpr [] (fun key => σ key.1) e = d.content)
    : ∃ σ', I.runAssignments [.assign (.register r) e] σ = some σ'
        ∧ (f.push (.register r)).Represents I σ' (μ.push d) := by
  refine ⟨_, runAssignments_assign he, ?_⟩
  rw [hd]
  refine (h.kept fun hv => ?_).push (valueOf_assigned r _)
  exact valueOf_update (hbelow hv).simple ((hbelow hv).ne_index hle)

/-- Performing an operation leads to a frame and a memory of which one represents the other. -/
theorem Performs.represents {operation : Operation}
    (h : Performs p node f next next' operation insts f') (agrees : I.Agrees M)
    (hf : f.Represents I σ μ) (hbelow : ∀ {v}, f.Has v → v.Below next) (honce : f.TypedOnce)
    (hwide : List.Forall₂ (fun v d => v.isWide = d.isWide) f.stack μ.stack)
    (hμ : operation.apply M μ = some μ')
    : ∃ σ', I.runAssignments insts σ = some σ' ∧ f'.Represents I σ' μ' := by
  cases h with
  | nothing =>
      cases hμ
      exact ⟨σ, rfl, hf⟩
  | @push c k hstands =>
      cases hμ
      exact ⟨σ, rfl, hf.push (agrees.constant hstands)⟩
  | @pushMade c k r hstands hle hlt htype =>
      cases hμ
      exact hf.compute hbelow hle rfl (agrees.constant hstands)
  | @load kind slot v hslot =>
      obtain ⟨d, hd, rfl⟩ := Option.map_eq_some_iff.mp hμ
      obtain ⟨w, hw, hvalue⟩ := hf.locals (Option.filter_eq_some_iff.mp hd).1
      obtain rfl : w = v := Option.some.inj (hw.symm.trans hslot)
      exact ⟨σ, rfl, hf.push hvalue⟩
  | @store kind slot v rest insts f' hstack hstores =>
      obtain ⟨⟨d, μ₁⟩, hpop, hμ⟩ := Option.bind_eq_some_iff.mp hμ
      cases hμ
      obtain ⟨hv, -, hrest⟩ := hf.pop hstack hpop
      have hsub : ∀ {u}, ({ f with stack := rest } : Frame).Has u → f.Has u := fun hu =>
        hu.of_stack (by simp [hstack])
      exact hstores.represents hrest (fun hu => hbelow (hsub hu))
        (fun hr hq => honce (hsub hr) (hsub hq)) hv
  | shuffle hstack =>
      obtain ⟨after, hafter, rfl⟩ := Option.map_eq_some_iff.mp hμ
      have hboth := forall₂_of_shuffle (forall₂_and hf.stack hwide) And.right hstack hafter
      exact ⟨σ, rfl, hf.withStack (hboth.imp fun _ _ both => both.1)⟩
  | @compute operation taken rest e r hcomputes hstack hle hlt htype =>
      have hsub : ∀ {u}, ({ f with stack := rest } : Frame).Has u → f.Has u := fun hu =>
        hu.of_stack (by simp [hstack])
      cases hcomputes with
      | @negate number v =>
          obtain ⟨⟨d, μ₁⟩, hpop, hμ⟩ := Option.bind_eq_some_iff.mp hμ
          cases hμ
          obtain ⟨hv, -, hrest⟩ := hf.pop hstack hpop
          refine hrest.compute (fun hu => hbelow (hsub hu)) hle rfl ?_
          exact (congrArg _ hv).trans (agrees.negate _ d)
      | @convert conversion v =>
          obtain ⟨⟨d, μ₁⟩, hpop, hμ⟩ := Option.bind_eq_some_iff.mp hμ
          cases hμ
          obtain ⟨hv, hkind, hrest⟩ := hf.pop hstack hpop
          refine hrest.compute (fun hu => hbelow (hsub hu)) hle rfl ?_
          exact (congrArg _ hv).trans (agrees.convert conversion d hkind)
      | @binary op left right result v w type htypes =>
          obtain ⟨⟨e, μ₁⟩, hpop, hμ⟩ := Option.bind_eq_some_iff.mp hμ
          obtain ⟨⟨d, μ₂⟩, hpop', hμ⟩ := Option.bind_eq_some_iff.mp hμ
          cases hμ
          obtain ⟨hw, -, hrest⟩ := hf.pop hstack hpop
          obtain ⟨hv, -, hrest⟩ := hrest.pop rfl hpop'
          refine hrest.compute (fun hu => hbelow (hsub hu)) hle rfl ?_
          exact (congrArg₂ _ hv hw).trans (agrees.binary op type d e)
  | @increment slot middle amount v r insts f' hslot hle hlt hmiddle htype hstores =>
      obtain ⟨d, hd, rfl⟩ := Option.map_eq_some_iff.mp hμ
      obtain ⟨w, hw, hvalue⟩ := hf.locals (Option.filter_eq_some_iff.mp hd).1
      obtain rfl : w = v := Option.some.inj (hw.symm.trans hslot)
      have hsum : I.evalExpr [] (fun key => σ key.1)
          (Instruction.operation .add w (.constant (.int amount.toInt32)))
          = M.binary (.arithmetic .add) d (M.datum (.int amount.toInt32)) := by
        show I.binary .add _ (I.valueOf σ w) (I.constant (.int amount.toInt32)) = _
        rw [hvalue, agrees.constant (.int _)]
        exact agrees.binary (.arithmetic .add) _ d (M.datum (.int amount.toInt32))
      rw [runAssignments_assign rfl, hsum]
      refine hstores.represents (hf.kept fun hv => ?_) (fun hv => (hbelow hv).mono ?_) honce
        (valueOf_assigned r _)
      · exact valueOf_update (hbelow hv).simple ((hbelow hv).ne_index hle)
      · exact Nat.le_trans hle (Nat.le_of_lt hlt)

/-- Simulating an instruction is sound, if the code tells what it pushes: where the frame represents
the memory, the code that is added assigns registers so that the frame after it represents the
memory after the instruction.
-/
theorem simulation_of_instruction_is_sound {i : Instruction} {s s' : LiftState}
    (agrees : I.Agrees M) (distinct : i.pushesDistinct = true) (hf : f.Represents I σ μ)
    (hbelow : ∀ {v}, f.Has v → v.Below s.registers.next) (honce : f.TypedOnce)
    (hwide : List.Forall₂ (fun v d => v.isWide = d.isWide) f.stack μ.stack)
    (hμ : execute M μ (.plain i) = some (μ', .falls))
    (hrun : (LiftM.simulate p node (.plain i) f).run s = .ok (f', s'))
    : ∃ insts σ', s'.code = s.code.modify node (· ++ insts)
        ∧ I.runAssignments insts σ = some σ' ∧ f'.Represents I σ' μ' := by
  obtain ⟨operation, hoperation, hμ⟩ := Option.bind_eq_some_iff.mp hμ
  obtain ⟨μ₁, happly, hμ⟩ := Option.bind_eq_some_iff.mp hμ
  cases hμ
  obtain ⟨e, s₁, heffect, hrun⟩ := LiftM.run_bind_eq_ok.mp hrun
  obtain ⟨rfl, he⟩ := LiftM.run_liftM heffect
  obtain ⟨insts, hperforms, hadds⟩ := LiftM.run_perform hoperation distinct he hrun
  obtain ⟨σ', hσ, hf'⟩ := hperforms.represents agrees hf hbelow honce hwide happly
  exact ⟨insts, σ', hadds.code, hσ, hf'⟩

/-- Register code that adds numbers without bounds where an operator has two operands. -/
def additions : Interpretation Int :=
  { receiver := 0
    argument := fun _ => 0
    constant := Constant.number
    binary := fun _ _ x y => x + y
    negate := fun _ x => -x
    length := id
    cast := fun _ x => x
    instanceOf := fun x _ => x
    holds := fun _ _ _ _ => false
    equal := fun _ _ => false
    staticField := fun _ _ _ => 0
    field := fun _ _ _ _ => 0
    element := fun _ _ _ => 0
    result := fun _ => 0 }

theorem agrees_additions
    : additions.Agrees integers :=
  ⟨Constant.StandsFor.number_eq, fun _ _ _ _ => rfl, fun _ _ => rfl, fun _ _ _ => rfl⟩

def counter : Register := .fresh 0 .int

/-- A counter that was loaded before it is incremented. -/
def loadedCounter : Frame :=
  ⟨[some (.register counter)], [.register counter]⟩

def countingPlan : Plan :=
  { method := staticMethod ⟨[], none⟩ [.plain (.increment 0 5)]
    settings := rawSettings
    graph := straightGraph
    places := []
    variableTable := []
    declared := [] }

/-- The state of lifting before the increment. -/
def countingState : LiftState :=
  { frames := #[none, some loadedCounter]
    code := #[[], []]
    labels := []
    nextLabel := 0
    registers := { Registers.empty with next := 1 }
    refinements := []
    merges := [] }

/-- The counter gets another register, since the stack still holds the first one. -/
theorem simulation_of_loaded_counter
    : loadedCounter.Represents additions (fun _ => 7) ⟨[some ⟨.int, 7⟩], [⟨.int, 7⟩]⟩
      ∧ ∃ f' s', (LiftM.simulate countingPlan 1 (.plain (.increment 0 5)) loadedCounter).run
          countingState = .ok (f', s')
        ∧ f' = ⟨[some (.register (.fresh 1 .int))], [.register counter]⟩
        ∧ ∃ insts σ', s'.code = countingState.code.modify 1 (· ++ insts)
          ∧ additions.runAssignments insts (fun _ => 7) = some σ'
          ∧ f'.Represents additions σ' ⟨[some ⟨.int, 12⟩], [⟨.int, 7⟩]⟩ := by
  have hf : loadedCounter.Represents additions (fun _ => 7) ⟨[some ⟨.int, 7⟩], [⟨.int, 7⟩]⟩ := by
    refine ⟨.cons rfl .nil, fun {slot d} hd => ?_⟩
    rcases slot with _ | slot
    · cases hd
      exact ⟨_, rfl, rfl⟩
    · cases hd
  have hhas : ∀ {v}, loadedCounter.Has v → v = .register counter := fun hv => by
    simpa [Frame.Has, loadedCounter] using hv
  refine ⟨hf, _, _, rfl, rfl, simulation_of_instruction_is_sound (p := countingPlan)
    (i := .increment 0 5) agrees_additions rfl hf (fun hv => ?_) (fun hr hq _ => ?_)
    (.cons rfl .nil) ?_ rfl⟩
  · rw [hhas hv]
    exact Value.below_register (by decide)
  · rw [Value.register.inj (hhas hr), Value.register.inj (hhas hq)]
  · decide

-- Handles

/-- Loads a handle on a field, for reading or writing it. -/
def loadsHandle (kind : HandleKind) : Node :=
  .plain (.pushConstant (.handle
    { kind
      owner := ⟨"a/B", by decide⟩
      name := ⟨"x", by decide⟩
      descriptor := .field (.base .int)
      isInterface := false }))

/-- Values of which only the kind of a handle is known. -/
def handleKinds : Meaning (Option HandleKind) :=
  { constant := fun k => match k with
      | .handle h => some h.kind
      | _ => none
    binary := fun _ _ _ => none
    negate := fun _ => none
    convert := fun _ _ => none
    holds := fun _ _ _ => false }

/-- The code of a handle does not have its kind: a getter and a setter of a field lead from the same
frame to the same frame and the same code, and whatever these are taken to mean, the frame does not
represent both of the memories that the machine comes to.
-/
theorem simulation_confuses_handles
    : ∃ f' s' μ μ',
        (LiftM.simulate countingPlan 1 (loadsHandle .getField) ⟨[], []⟩).run countingState
          = .ok (f', s')
        ∧ (LiftM.simulate countingPlan 1 (loadsHandle .putField) ⟨[], []⟩).run countingState
          = .ok (f', s')
        ∧ execute handleKinds ⟨[], []⟩ (loadsHandle .getField) = some (μ, .falls)
        ∧ execute handleKinds ⟨[], []⟩ (loadsHandle .putField) = some (μ', .falls)
        ∧ ∀ I σ σ', (⟨[], []⟩ : Frame).Represents I σ ⟨[], []⟩
          ∧ ¬ (f'.Represents I σ' μ ∧ f'.Represents I σ' μ') := by
  refine ⟨_, _, _, _, rfl, rfl, rfl, rfl, fun I σ σ' => ⟨⟨.nil, nofun⟩, ?_⟩⟩
  rintro ⟨getter, setter⟩
  -- The content of the one register on the stack would have both kinds.
  obtain ⟨hget, -⟩ := List.forall₂_cons.mp getter.stack
  obtain ⟨hput, -⟩ := List.forall₂_cons.mp setter.stack
  cases hget.symm.trans hput

end StackLift
