import StackLift.Proofs.CopyChains
import StackLift.Proofs.FoldedCopies
import StackLift.Simplify.Rounds

/-!
Simplification keeps the behaviour of a code, as long as every copy it folds is safe to fold. A
source that is assigned again while the target of its folded copy is live changes the behaviour.
-/

namespace StackLift

open RegisterMachine FoldedCopies

/-- Register code without handlers that places each label once, has one type for each register,
assigns to registers, fields and elements only, and assigns registers before it reads them.
-/
structure WellFormed (code : List Inst) : Prop where
  noHandlers : ∀ i ∈ code, ¬ i.isCatch
  labelsOnce : (code.filterMap Inst.label?).Nodup
  labelsPlaced : ∀ i ∈ code, ∀ l ∈ i.targets, .label l ∈ code
  types : OneTypeEach code
  targets : ∀ {target source}, .assign target source ∈ code → target.isSimple →
    ∃ r, target = .register r
  assigned : AssignedBeforeRead code

/-- Simplification within the limit comes to a code whose copies it folds next. -/
inductive FoldingInput (limit : Nat) : List Inst → List Inst → Prop
  /-- The code after the chains of copies have been replaced. -/
  | first {code mid : List Inst} :
    replaceChains? limit (dropDeadCopies (dropRepeatedCopies code)) = some mid →
    FoldingInput limit code mid
  /-- The code after copies have been folded in it. -/
  | again {code mid : List Inst} :
    FoldingInput limit code mid → (step mid).length < mid.length →
    FoldingInput limit code (step mid)
  /-- A code of a later round. -/
  | later {code next mid : List Inst} :
    simplifyRound? limit code = some next → ¬ SameCode next code →
    FoldingInput limit next mid → FoldingInput limit code mid

/-- The code reads no field or element right into one that renaming registers could make the same,
and every copy that simplification folds is safe to fold.
-/
structure SimplifiesSafely (limit : Nat) (code : List Inst) : Prop where
  stores : ∀ {target v}, .assign target (.value v) ∈ code → target.isComplex →
    v.shape ≠ target.shape
  folds : ∀ {mid}, FoldingInput limit code mid → FoldsSafely mid

variable {code : List Inst}

theorem WellFormed.tractable (h : WellFormed code) {limit : Nat} (hs : SimplifiesSafely limit code)
    : Tractable code where
  targets i hi target source he hsimple := by
    subst he
    exact h.targets hi hsimple
  stores := hs.stores
  assigned := h.assigned
  classified := ⟨⊥, fun _ => .inl fun x y hx hy hnx hny => h.types x y hx hy (hnx.symm.trans hny)⟩

theorem foldCopies_sound {limit : Nat} {code mid : List Inst} (hmid : FoldingInput limit code mid)
    (hsafe : ∀ {mid}, FoldingInput limit code mid → FoldsSafely mid) (h : Tractable mid)
    : SameBehaviour mid (foldCopies mid) ∧ Tractable (foldCopies mid) := by
  refine whileShorter_sound (P := FoldingInput limit code) ?_ hmid h
  intro mid hmid h hlt
  obtain ⟨hb, ht⟩ := step_sound h (hsafe hmid)
  exact ⟨hb, ht, hmid.again hlt⟩

/-- A round keeps the behaviour, pass by pass. -/
theorem simplifyRound?_sound {limit : Nat} {code next : List Inst} (h : Tractable code)
    (hsafe : ∀ {mid}, FoldingInput limit code mid → FoldsSafely mid)
    (hn : simplifyRound? limit code = some next)
    : SameBehaviour code next ∧ Tractable next := by
  obtain ⟨hb₁, ht₁⟩ := dropRepeatedCopies_sound h
  obtain ⟨hb₂, ht₂⟩ := dropDeadCopies_sound ht₁
  simp only [simplifyRound?, Option.pure_def, Option.bind_eq_bind, Option.bind_eq_some_iff,
    Option.some.injEq] at hn
  obtain ⟨mid, hmid, rfl⟩ := hn
  obtain ⟨hb₃, ht₃⟩ := replaceChains?_sound ht₂ hmid
  obtain ⟨hb₄, ht₄⟩ := foldCopies_sound (.first hmid) hsafe ht₃
  obtain ⟨hb₅, ht₅⟩ := dropSelfCopies_sound ht₄
  obtain ⟨hb₆, ht₆⟩ := normalizeTypes_sound ht₅
  exact ⟨((((hb₁.trans hb₂).trans hb₃).trans hb₄).trans hb₅).trans hb₆, ht₆⟩

/-- Rounds keep the behaviour, by induction on their number. -/
theorem simplifyRounds?_sound {limit rounds done : Nat} {result : Simplified}
    (h : Tractable code) (hsafe : ∀ {mid}, FoldingInput limit code mid → FoldsSafely mid)
    (hr : simplifyRounds? limit done rounds code = some result)
    : SameBehaviour code result.code := by
  induction rounds generalizing code done with
  | zero => cases hr
  | succ rounds ih =>
      simp only [simplifyRounds?, Option.pure_def, Option.bind_eq_bind,
        Option.bind_eq_some_iff] at hr
      obtain ⟨next, hnext, hr⟩ := hr
      obtain ⟨hb, ht⟩ := simplifyRound?_sound h hsafe hnext
      split at hr
      · cases hr
        exact hb
      · rename_i hdiff
        exact hb.trans (ih ht (fun hmid => hsafe (.later hnext hdiff hmid)) hr)

/-- Simplification of well-formed code keeps its behaviour, whatever its operators, reads and calls
mean, if it reads no field or element into itself and every copy it folds is safe to fold.
-/
theorem simplification_keeps_behaviour {limit : Nat} {code : List Inst} {result : Simplified}
    (wellFormed : WellFormed code) (safe : SimplifiesSafely limit code)
    (simplified : simplifyWithin? limit code = some result)
    : SameBehaviour code result.code :=
  simplifyRounds?_sound (wellFormed.tractable safe) safe.folds simplified

-- A saved result

/-- The forms of code without jumps that can be checked instruction by instruction. -/
theorem WellFormed.of_straight (hcatch : ∀ i ∈ code, ¬ i.isCatch)
    (htargets : ∀ i ∈ code, i.targets = [] ∧ i.label? = none)
    (hassign : ∀ i ∈ code, ∀ a ∈ i.assign?, a.1.isComplex ∨ a.1.register?.isSome)
    (htypes : ∀ x ∈ code.flatMap fun i => i.readKeys ++ i.assigned?.toList,
      ∀ y ∈ code.flatMap fun i => i.readKeys ++ i.assigned?.toList, x.1 = y.1 → x = y)
    (hreads : ∀ n < code.length, ∀ i ∈ code[n]?, ∀ x ∈ i.readKeys,
      ∃ j ∈ code.take n, j.assigned? = some x)
    : WellFormed code where
  noHandlers := hcatch
  labelsOnce := by
    rw [List.filterMap_eq_nil_iff.mpr fun i hi => (htargets i hi).2]
    exact List.nodup_nil
  labelsPlaced i hi l hl := by
    rw [(htargets i hi).1] at hl
    cases hl
  types x y hx hy := by
    have hmem : ∀ x, Occurs code x →
        x ∈ code.flatMap fun i => i.readKeys ++ i.assigned?.toList := by
      rintro x ⟨i, hi, hx⟩
      refine List.mem_flatMap.mpr ⟨i, hi, ?_⟩
      simpa [Option.mem_toList] using hx
    exact htypes x (hmem x hx) y (hmem y hy)
  targets {target source} hm hs := by
    rcases hassign _ hm (target, source) rfl with hc | hr
    · simp [Value.isSimple, hc] at hs
    · cases target with
      | register r => exact ⟨r, rfl⟩
      | _ => simp [Value.register?] at hr
  assigned := by
    refine assignedBeforeRead_of_straight (fun i hi => (htargets i hi).1) fun n i hi => ?_
    exact hreads n (List.getElem?_eq_some_iff.mp hi).1 i hi

/-- A call of a static method. -/
def sampleCall (name : String) (resultType : TypeName) (arguments : List Value) : Call :=
  .method {
    kind := .staticCall
    owner := ⟨"Foo"⟩
    name
    argumentTypes := arguments.map Value.type
    resultType
    receiver := none
    arguments
    isInterface := false }

/-- Passes a register to a method. -/
def useOf (n : Nat) : Inst :=
  .call (sampleCall "g" .void [.register (.fresh n .int)])

/-- Assigns the result of a call to a register. -/
def callInto (n : Nat) : Inst :=
  .assign (.register (.fresh n .int)) (.call (sampleCall "f" .int []))

/-- Saves the result of a call in a second register and uses it, before another call into the first
register.
-/
def savedResult (rest : List Inst) : List Inst :=
  callInto 0 :: .assign (.register (.fresh 1 .int)) (.value (.register (.fresh 0 .int)))
    :: useOf 1 :: callInto 0 :: rest

/-- The same with the copy folded. -/
def foldedResult (rest : List Inst) : List Inst :=
  callInto 1 :: useOf 1 :: callInto 1 :: rest

/-- Simplification meets the code of a saved result and its folded form only. -/
theorem foldingInput_savedResult {start mid : List Inst}
    (hs : start = savedResult [.returns none] ∨ start = foldedResult [.returns none])
    (h : FoldingInput 5 start mid)
    : mid = savedResult [.returns none] ∨ mid = foldedResult [.returns none] := by
  induction h with
  | first hmid =>
      rcases hs with rfl | rfl
      · left
        exact Option.some.inj (hmid.symm.trans (by decide +kernel))
      · right
        exact Option.some.inj (hmid.symm.trans (by decide +kernel))
  | again _ hlt ih =>
      rcases ih hs with rfl | rfl
      · exact .inr (by decide +kernel)
      · revert hlt
        decide +kernel
  | later hnext hdiff _ ih =>
      rcases hs with rfl | rfl
      · exact ih (.inr (Option.some.inj (hnext.symm.trans (by decide +kernel))))
      · have hself : simplifyRound? 5 (foldedResult [.returns none])
            = some (foldedResult [.returns none]) := by decide +kernel
        cases hnext.symm.trans hself
        exact absurd rfl hdiff

theorem wellFormed_savedResult
    : WellFormed (savedResult [.returns none]) :=
  .of_straight (by decide) (by decide) (by decide) (by decide) (by decide)

/-- The saved register is not live after the second call, as nothing uses it there. -/
theorem foldsSafely_savedResult
    : FoldsSafely (savedResult [.returns none]) := by
  intro p a r hf _
  have hplaces : (folding (savedResult [.returns none])).places = [1] := by decide +kernel
  obtain ⟨hp, hcopy⟩ := hf
  rw [hplaces, List.mem_singleton] at hp
  subst hp
  obtain ⟨rfl, rfl⟩ : a = .fresh 1 .int ∧ r = .fresh 0 .int := by
    simp only [savedResult, List.getElem?_cons_succ, List.getElem?_cons_zero, Option.some.injEq,
      Inst.assign.injEq, Value.register.injEq, Expr.value.injEq] at hcopy
    exact ⟨hcopy.1.symm, hcopy.2.symm⟩
  refine .inr ⟨wellFormed_savedResult.types, fun q e rest hs hq => ?_⟩
  simp only [savedResult, List.suffix_cons_iff, List.suffix_nil, callInto, useOf,
    List.cons.injEq, Inst.assign.injEq, Value.register.injEq, reduceCtorEq, false_and,
    false_or, or_false] at hs
  rcases hs with ⟨-, rfl⟩ | ⟨⟨rfl, -⟩, -⟩ | ⟨-, rfl⟩
  · exact not_live_copy (by decide) _
  · exact absurd hq (by decide)
  · intro hl
    cases hl with
    | read hr => cases hr
    | proceed hp _ _ => cases hp
    | jump ht _ => cases ht

theorem simplifiesSafely_savedResult
    : SimplifiesSafely 5 (savedResult [.returns none]) where
  stores {target v} hm hc := by
    simp only [savedResult, callInto, useOf, List.mem_cons, List.not_mem_nil, Inst.assign.injEq,
      reduceCtorEq, and_false, false_or, or_false] at hm
    rw [hm.1] at hc
    cases hc
  folds hmid := by
    rcases foldingInput_savedResult (.inl rfl) hmid with rfl | rfl
    · exact foldsSafely_savedResult
    · intro p a r hf _
      have hplaces : (folding (foldedResult [.returns none])).places = [] := by decide +kernel
      cases hplaces ▸ hf.1

/-- The copy of a saved result is folded although its source is assigned twice, and the behaviour
stays the same.
-/
theorem simplification_of_saved_result
    : simplifyWithin? 5 (savedResult [.returns none])
        = some ⟨foldedResult [.returns none], 2⟩
      ∧ SameBehaviour (savedResult [.returns none]) (foldedResult [.returns none]) := by
  have hsimplified : simplifyWithin? 5 (savedResult [.returns none])
      = some ⟨foldedResult [.returns none], 2⟩ := by decide +kernel
  exact ⟨hsimplified, simplification_keeps_behaviour wellFormed_savedResult
    simplifiesSafely_savedResult hsimplified⟩

-- Behaviour that is lost

/-- The interpretation in which each result is the number of actions so far. -/
def counting : Interpretation Nat where
  receiver := 0
  argument n := n
  constant _ := 0
  binary _ _ m n := m + n
  negate _ n := n
  length n := n
  cast _ n := n
  instanceOf n _ := n
  holds _ _ m n := m = n
  equal m n := m = n
  staticField history _ _ := history.length
  field history _ _ _ := history.length
  element history _ _ := history.length
  result history := history.length

/-- A static field that is stored into itself. -/
def selfStore : List Inst :=
  [.assign (.staticField ⟨"Foo"⟩ "x" .int) (.value (.staticField ⟨"Foo"⟩ "x" .int)),
    .returns none]

/-- Runs that end with different actions tell codes apart. -/
theorem not_sameBehaviour_of_history {D : Type} (I : Interpretation D) (registers : RegisterFile D)
    {code other : List Inst} {m n : Nat} {outcome outcome' : Outcome D}
    (hm : (runFor I code registers m).outcome = some outcome)
    (hn : (runFor I other registers n).outcome = some outcome')
    (hne : (runFor I code registers m).history ≠ (runFor I other registers n).history)
    : ¬ SameBehaviour code other := by
  intro hsame
  have hshows := (hsame D I registers registers _ _).mp ⟨m, rfl, hm⟩
  exact hne (hshows.unique ⟨n, rfl, hn⟩).1

/-- Simplification of well-formed code can change its behaviour: a saved result that is used again
is overwritten by the second call, and a field that is stored into itself is not stored at all.
-/
theorem simplification_loses_behaviour
    : (WellFormed (savedResult [useOf 1, .returns none])
        ∧ ∃ result, simplify (savedResult [useOf 1, .returns none]) = .ok result
          ∧ ¬ SameBehaviour (savedResult [useOf 1, .returns none]) result.code)
      ∧ (WellFormed selfStore
        ∧ ∃ result, simplify selfStore = .ok result
          ∧ ¬ SameBehaviour selfStore result.code) := by
  refine ⟨⟨.of_straight (by decide) (by decide) (by decide) (by decide) (by decide),
    ⟨foldedResult [useOf 1, .returns none], 2⟩, by decide +kernel, ?_⟩,
    .of_straight (by decide) (by decide) (by decide) (by decide) (by decide),
    ⟨[.returns none], 2⟩, by decide +kernel, ?_⟩
  · exact not_sameBehaviour_of_history counting (fun _ => 0) (m := 6) (n := 5) rfl rfl (by decide)
  · exact not_sameBehaviour_of_history counting (fun _ => 0) (m := 2) (n := 1) rfl rfl (by decide)

-- Registers with two types

/-- The registers of a chain of copies, two of which have names. -/
def mixedRegisters : List Register :=
  [.fresh 0 .int, { Register.fresh 1 .short with name := "x" },
    { Register.fresh 2 .int with name := "y" }, .fresh 3 .short, .fresh 4 .int]

/-- Copies the result of a call along the chain and uses the last copy. -/
def mixedChain : List Inst :=
  callInto 0 :: List.zipWith (fun target source =>
      .assign (.register target) (.value (.register source)))
    mixedRegisters.tail mixedRegisters ++ [useOf 4, .returns none]

/-- A register can have two types once chains of copies have been replaced, although each register
has one type before: in the chain, the name `y` ends up with both.
-/
theorem mixed_chain_has_two_types
    : WellFormed mixedChain ∧ ∃ mid, FoldingInput 5 mixedChain mid ∧ ¬ OneTypeEach mid := by
  let y (type : TypeName) : Value := .register { Register.fresh 2 type with name := "y" }
  refine ⟨.of_straight (by decide) (by decide) (by decide) (by decide) (by decide),
    [.assign (y .int) (.call (sampleCall "f" .int [])), .assign (y .short) (.value (y .int)),
      .assign (y .int) (.value (y .short)), .call (sampleCall "g" .void [y .int]), .returns none],
    .first (by decide +kernel), fun h => ?_⟩
  have hsame := h (2, .int) (2, .short) ⟨_, .head _, .inr rfl⟩ ⟨_, .tail _ (.head _), .inr rfl⟩ rfl
  exact absurd hsame (by decide)

end StackLift
