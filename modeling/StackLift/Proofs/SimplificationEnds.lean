import Mathlib.Tactic.Ring
import StackLift.Proofs.GroundedRegisters
import StackLift.Proofs.RegisterTyping
import StackLift.Proofs.TypeNormalization

/-!
Simplification comes to an end within a number of rounds and steps that is quadratic in the length
of the code, unless registers copy each other in a circle. In lifted code without handlers they
never do, but the register of a caught exception may be copied back into itself.
-/

namespace StackLift

open CopyChains

/-- Simplification comes to a code in which it replaces chains of copies. -/
inductive ChainInput : List Inst → List Inst → Prop
  /-- The code after repeated and dead copies have been dropped. -/
  | first (code : List Inst) : ChainInput code (dropDeadCopies (dropRepeatedCopies code))
  /-- The code after copied registers have been replaced in it. -/
  | again {code mid : List Inst} :
    ChainInput code mid → links (definitions mid) ≠ [] →
    ChainInput code (applyLinks (links (definitions mid)) mid)
  /-- A code of a later round. -/
  | later {steps : Nat} {code next mid : List Inst} :
    simplifyRound? steps code = some next → ChainInput next mid → ChainInput code mid

/-- Registers never copy each other in a circle while the code is simplified. -/
def SimplifiesWithoutCircles (code : List Inst) : Prop :=
  ∀ mid, ChainInput code mid → ¬ CopiesInCircle mid

variable {code next : List Inst} {steps : Nat}

theorem simplifyRound?_eq_some
    : simplifyRound? steps code = some next
      ↔ ∃ mid, replaceChains? steps (dropDeadCopies (dropRepeatedCopies code)) = some mid
          ∧ normalizeTypes ((foldCopies mid).filter fun i => !isSelfCopy i) = next := by
  simp [simplifyRound?, Option.bind_eq_some_iff]

-- One round

/-- The second code is the first one or shorter. -/
def Shrinks (code next : List Inst) : Prop :=
  next = code ∨ next.length < code.length

namespace Shrinks

variable {code mid next : List Inst}

theorem trans (h : Shrinks code mid) (h' : Shrinks mid next)
    : Shrinks code next := by
  rcases h with rfl | h
  · exact h'
  · rcases h' with rfl | h'
    · exact .inr h
    · exact .inr (h'.trans h)

theorem length_le (h : Shrinks code next)
    : next.length ≤ code.length := by
  rcases h with rfl | h
  · exact Nat.le_refl _
  · exact Nat.le_of_lt h

theorem of_sublist (h : next.Sublist code)
    : Shrinks code next := by
  rcases Nat.lt_or_eq_of_le h.length_le with hlt | heq
  · exact .inr hlt
  · exact .inl (h.eq_of_length heq)

theorem whileShorter {step : List Inst → List Inst} {code : List Inst}
    : Shrinks code (whileShorter step code) := by
  rw [StackLift.whileShorter]
  split
  · rename_i hlt
    exact trans (.inr hlt) whileShorter
  · exact .inl rfl
termination_by code.length

theorem dropRepeatedCopies (code : List Inst)
    : Shrinks code (dropRepeatedCopies code) :=
  of_sublist (RepeatedCopies.thinned_drop [] code).sublist

end Shrinks

/-- A round without circles comes to an end. It makes the code shorter or changes types at most. -/
theorem simplifyRound?_ends (h : SimplifiesWithoutCircles code) (hs : code.length < steps)
    : ∃ next, simplifyRound? steps code = some next
        ∧ (next = normalizeTypes code ∨ next.length < code.length) := by
  have hdropped : Shrinks code (dropDeadCopies (dropRepeatedCopies code)) :=
    (Shrinks.dropRepeatedCopies code).trans .whileShorter
  obtain ⟨mid, hmid, -, hchains⟩ := replaceChains?_ends (P := ChainInput code) (h _) .again
    (.first code) (Nat.lt_of_le_of_lt hdropped.length_le hs)
  have hshrinks : Shrinks code ((foldCopies mid).filter fun i => !isSelfCopy i) :=
    ((hdropped.trans hchains).trans .whileShorter).trans (.of_sublist List.filter_sublist)
  refine ⟨_, simplifyRound?_eq_some.mpr ⟨mid, hmid, rfl⟩, ?_⟩
  rcases hshrinks with heq | hlt
  · exact .inl (by rw [heq])
  · exact .inr (by rwa [length_normalizeTypes])

/-- A result of a round does not change with more steps. -/
theorem simplifyRound?_mono {steps more : Nat} (hle : steps ≤ more)
    (h : simplifyRound? steps code = some next)
    : simplifyRound? more code = some next := by
  obtain ⟨mid, hmid, rfl⟩ := simplifyRound?_eq_some.mp h
  exact simplifyRound?_eq_some.mpr ⟨mid, replaceChains?_mono hle hmid, rfl⟩

-- All rounds

/-- What decreases from round to round, for codes up to a length: the code gets shorter, or it keeps
its length and fewer registers have several types.
-/
def roundMeasure (bound : Nat) (code : List Inst) : Nat :=
  code.length * (bound + 1) + (severalTypes code).card

theorem roundMeasure_lt {bound : Nat} (hb : code.length ≤ bound)
    (hn : next = normalizeTypes code ∨ next.length < code.length) (hdiff : next ≠ code)
    : roundMeasure bound next < roundMeasure bound code := by
  simp only [roundMeasure]
  rcases hn with rfl | hlt
  · have hcard := card_severalTypes_lt hdiff
    rw [length_normalizeTypes]
    omega
  · have hcard := card_severalTypes_le next
    have hmul : (next.length + 1) * (bound + 1) ≤ code.length * (bound + 1) :=
      Nat.mul_le_mul_right _ hlt
    rw [Nat.succ_mul] at hmul
    omega

/-- Rounds without circles come to an end, by induction on their number. -/
theorem simplifyRounds?_ends {bound steps : Nat} (hs : bound < steps) {rounds : Nat} (done : Nat)
    (h : SimplifiesWithoutCircles code) (hb : code.length ≤ bound)
    (hr : roundMeasure bound code < rounds)
    : ∃ result, simplifyRounds? steps done rounds code = some result := by
  induction rounds generalizing code done with
  | zero => cases hr
  | succ rounds ih =>
      obtain ⟨next, hnext, hshape⟩ := simplifyRound?_ends h (Nat.lt_of_le_of_lt hb hs)
      simp only [simplifyRounds?, hnext, Option.bind_eq_bind, Option.bind_some]
      by_cases hsame : SameCode next code
      · exact ⟨_, if_pos hsame⟩
      · rw [if_neg hsame]
        have hdiff : next ≠ code := fun heq => hsame (heq ▸ rfl)
        have hlen : next.length ≤ code.length := by
          rcases hshape with rfl | hlt
          · exact (length_normalizeTypes code).le
          · exact hlt.le
        refine ih _ (fun mid hmid => h mid (.later hnext hmid)) (hlen.trans hb) ?_
        have := roundMeasure_lt hb hshape hdiff
        omega

/-- A result does not change with more steps and rounds. -/
theorem simplifyRounds?_mono {steps more rounds moreRounds done : Nat} (hle : steps ≤ more)
    (hrounds : rounds ≤ moreRounds) {result : Simplified}
    (h : simplifyRounds? steps done rounds code = some result)
    : simplifyRounds? more done moreRounds code = some result := by
  induction rounds generalizing code done moreRounds with
  | zero => cases h
  | succ rounds ih =>
      obtain ⟨moreRounds, rfl⟩ :=
        Nat.exists_eq_add_of_le' (Nat.le_trans (Nat.le_add_left 1 rounds) hrounds)
      simp only [simplifyRounds?, Option.bind_eq_bind, Option.bind_eq_some_iff] at h ⊢
      obtain ⟨next, hnext, h⟩ := h
      refine ⟨next, simplifyRound?_mono hle hnext, ?_⟩
      split
      · rename_i hsame
        simpa only [hsame, if_true] using h
      · rename_i hdiff
        simp only [hdiff, if_false] at h
        exact ih (Nat.le_of_succ_le_succ hrounds) h

theorem simplifyWithin?_ends (h : SimplifiesWithoutCircles code)
    : ∃ result, ∀ limit ≥ (code.length + 1) ^ 2, simplifyWithin? limit code = some result := by
  have hcard := card_severalTypes_le code
  have hsquare : (code.length + 1) ^ 2 = code.length * (code.length + 1) + code.length + 1 := by
    ring
  have hmeasure : roundMeasure code.length code < (code.length + 1) ^ 2 := by
    rw [roundMeasure, hsquare]
    omega
  have hlength : code.length < (code.length + 1) ^ 2 := by
    rw [hsquare]
    omega
  obtain ⟨result, hr⟩ := simplifyRounds?_ends hlength 0 h (Nat.le_refl _) hmeasure
  exact ⟨result, fun limit hl => simplifyRounds?_mono hl hl hr⟩

-- Lifted code

theorem WellGrounded.replaceChains? {code next : List Inst} (h : WellGrounded code)
    (hn : replaceChains? steps code = some next)
    : WellGrounded next := by
  induction steps generalizing code with
  | zero => cases hn
  | succ steps ih =>
      simp only [StackLift.replaceChains?] at hn
      split at hn
      · cases hn
        exact h
      · split at hn
        · cases hn
          exact h.applyLinks
        · exact ih h.applyLinks hn

theorem WellGrounded.dropCopies (h : WellGrounded code)
    : WellGrounded (dropDeadCopies (StackLift.dropRepeatedCopies code)) :=
  whileShorter_keeps (P := WellGrounded) dropUnreadCopies h.dropRepeatedCopies

theorem WellGrounded.simplifyRound? (h : WellGrounded code)
    (hn : simplifyRound? steps code = some next)
    : WellGrounded next := by
  obtain ⟨mid, hmid, rfl⟩ := simplifyRound?_eq_some.mp hn
  have hfolded := whileShorter_keeps (P := WellGrounded) foldStep (h.dropCopies.replaceChains? hmid)
  exact hfolded.dropSelfCopies.normalizeTypes

/-- Registers stay grounded in all rounds, so they never copy each other in a circle. -/
theorem WellGrounded.simplifiesWithoutCircles (h : WellGrounded code)
    : SimplifiesWithoutCircles code := by
  intro mid hmid
  have hgrounded : WellGrounded mid := by
    induction hmid with
    | first code => exact h.dropCopies
    | again _ _ ih => exact (ih h).applyLinks
    | later hnext _ ih => exact ih (h.simplifyRound? hnext)
  exact hgrounded.not_copiesInCircle

/-- Without handlers, each register of lifted code is assigned from something older. -/
theorem wellGrounded_of_liftRaw {m : Method} {settings : Settings}
    (noHandlers : m.ranges = []) (once : m.RetypesOnce settings) (h : m.liftRaw settings = .ok code)
    : WellGrounded code := by
  obtain ⟨w, hw, hold⟩ := registers_of_liftRaw once h
  have hsettled : ∀ {r : Register} {e : Expr}, .assign (.register r) e ∈ code →
      w.Settled r ∧ e.Within w.Settled := fun hm => Inst.within_assign_register.mp (hw _ hm)
  have hgrounded : ∀ n < w.made, Grounded code (n, w.finalType n) := by
    intro n
    induction n using Nat.strongRecOn with
    | ind n ih =>
        intro hn
        obtain ⟨r, e, hm, rfl, holder⟩ := hold noHandlers n hn
        have hr : r.key = (r.index, w.finalType r.index) := Prod.ext rfl (hsettled hm).1.2
        rw [← hr]
        cases he : e.register? with
        | none => exact .computed hm he
        | some q =>
            obtain rfl := Expr.eq_of_register? he
            have hq := Value.within_register.mp (hsettled hm).2
            have hqk : q.key = (q.index, w.finalType q.index) := Prod.ext rfl hq.2
            exact .copied hm (hqk ▸ ih q.index (holder q he) hq.1)
  intro r e hm
  have hr := (hsettled hm).1
  have hrk : r.key = (r.index, w.finalType r.index) := Prod.ext rfl hr.2
  exact hrk ▸ hgrounded r.index hr.1

/-- Simplification of lifted code comes to an end, with the same result for every limit from the
square of its length on, if the method has no handlers and its stack map frames give no register two
types, or if registers never copy each other in a circle.
-/
theorem simplification_ends {m : Method} {settings : Settings} {code : List Inst}
    (raw : settings.simplify = false) (lifted : m.lift settings = .ok code)
    (circles : (m.ranges = [] ∧ m.RetypesOnce settings) ∨ SimplifiesWithoutCircles code)
    : ∃ result, ∀ limit ≥ (code.length + 1) ^ 2, simplifyWithin? limit code = some result := by
  rcases circles with ⟨noHandlers, once⟩ | circles
  · rw [lift_eq_liftRaw raw] at lifted
    have grounded := wellGrounded_of_liftRaw noHandlers once lifted
    exact simplifyWithin?_ends grounded.simplifiesWithoutCircles
  · exact simplifyWithin?_ends circles

-- A value that is copied around

/-- Copies from the stack through three slots and back into the first. -/
def copyAround : List Node :=
  [.plain (.store .reference 0), .plain (.load .reference 0), .plain (.store .reference 1),
    .plain (.load .reference 1), .plain (.store .reference 2), .plain (.load .reference 2),
    .plain (.store .reference 0), .plain (.load .reference 0)]

/-- A method that returns a list after copying it around. -/
def copiedList : Method :=
  staticMethod ⟨[], some (.ref (.object objectClass))⟩
    (.plain (.invoke .staticCall makeList) :: copyAround ++ [.branch (.returnValue .reference)])

/-- The first store makes a register of its own, to which the last store assigns. -/
def copiedListCode : List Inst :=
  let type : TypeName := .ofRef (.object arrayListClass)
  let assigned (n : Nat) : Value := .register { Register.fresh n type with kind := .result }
  let copy (m n : Nat) : Inst := .assign (assigned m) (.value (.register (.fresh n type)))
  [.assign (assigned 0) (.call (makeList.call .staticCall none [])), copy 1 0, copy 2 1, copy 3 2,
    copy 1 3, .returns (some (.register (.fresh 1 type)))]

/-- Simplification of the copied list ends. -/
theorem simplification_of_copied_list_ends
    : copiedList.ranges = [] ∧ copiedList.RetypesOnce rawSettings
      ∧ copiedList.lift rawSettings = .ok copiedListCode
      ∧ ∃ result, ∀ limit ≥ 49, simplifyWithin? limit copiedListCode = some result := by
  have once : copiedList.RetypesOnce rawSettings := by decide +kernel
  have lifted : copiedList.lift rawSettings = .ok copiedListCode := by decide +kernel
  exact ⟨rfl, once, lifted, simplification_ends rfl lifted (.inl ⟨rfl, once⟩)⟩

-- An exception that is copied around

def exceptionClass : ClassName := ⟨"java/lang/Exception", rfl⟩

def callOnly : MethodRef :=
  { owner := .object ownerClass
    name := ⟨"g", rfl⟩
    descriptor := ⟨[], none⟩
    isInterface := false }

/-- A method with a handler that throws the exception again after copying it around. -/
def copiedException : Method :=
  { staticMethod ⟨[.ref (.object exceptionClass)], none⟩
      ([Node.label ⟨0⟩, .plain (.invoke .staticCall callOnly), .label ⟨1⟩, .branch .returnVoid,
        .label ⟨2⟩] ++ copyAround ++ [Node.branch .throw]) with
    ranges := [{ start := ⟨0⟩, stop := ⟨1⟩, handler := ⟨2⟩, catchType := some exceptionClass }] }

/-- The register of the exception is copied through two others back into itself. -/
def circleCode (kind : RegisterKind) (x y z : Nat) : List Inst :=
  let type := TypeName.ofClass exceptionClass
  let copy (m n : Nat) : Inst :=
    .assign (.register { Register.fresh m type with kind }) (.value (.register (.fresh n type)))
  [.label ⟨0⟩, .call (callOnly.call .staticCall none []), .label ⟨1⟩, .returns none, .label ⟨2⟩,
    .catches (.register (.fresh x type)) ⟨2⟩ [{ accepted := type, start := ⟨0⟩, stop := ⟨1⟩ }],
    copy y x, copy z y, copy x z, .throws (.register (.fresh x type))]

/-- The three registers change places and do so again. -/
theorem replaceChains?_circleCode (steps : Nat)
    : replaceChains? steps (circleCode .generated 2 0 1) = none
      ∧ replaceChains? steps (circleCode .generated 1 2 0) = none
      ∧ replaceChains? steps (circleCode .generated 0 1 2) = none := by
  induction steps with
  | zero => exact ⟨rfl, rfl, rfl⟩
  | succ steps ih =>
      refine ⟨?_, ?_, ?_⟩
      · rw [replaceChains?_succ (by decide +kernel) (by decide +kernel)]
        exact ih.2.1
      · rw [replaceChains?_succ (by decide +kernel) (by decide +kernel)]
        exact ih.2.2
      · rw [replaceChains?_succ (by decide +kernel) (by decide +kernel)]
        exact ih.1

/-- Simplification of the copied exception does not end within any limit. -/
theorem simplification_of_copied_exception_runs_on
    : copiedException.lift rawSettings = .ok (circleCode .result 0 1 2)
      ∧ ∀ limit, simplifyWithin? limit (circleCode .result 0 1 2) = none := by
  refine ⟨by decide +kernel, fun limit => ?_⟩
  have kept : dropDeadCopies (dropRepeatedCopies (circleCode .result 0 1 2))
      = circleCode .result 0 1 2 := by decide +kernel
  have moved : applyLinks (links (definitions (circleCode .result 0 1 2)))
      (circleCode .result 0 1 2) = circleCode .generated 2 0 1 := by decide +kernel
  cases limit with
  | zero => rfl
  | succ steps =>
      have hnone : replaceChains? (steps + 1) (circleCode .result 0 1 2) = none := by
        rw [replaceChains?_succ (by decide +kernel) (by decide +kernel), moved]
        exact (replaceChains?_circleCode steps).1
      simp [simplifyWithin?, simplifyRounds?, simplifyRound?, kept, hnone]

end StackLift
