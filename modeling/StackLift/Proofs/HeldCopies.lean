import StackLift.Proofs.RegisterTyping
import StackLift.Proofs.RepeatedCopies
import StackLift.Proofs.VariableRuns

/-!
Dropping repeated copies, whatever the other instructions do. Only copies of what their targets
already hold are dropped, so runs of the code that is left come to the same states.
-/

namespace StackLift

open VariableMachine Value

-- Codes that assign variables

/-- Every start of a handler directly follows a label. -/
def CatchesFollowLabels (code : List Inst) : Prop :=
  ∀ place < code.length, code[place]?.any Inst.isCatch →
    0 < place ∧ (code[place - 1]?.bind Inst.label?).isSome

instance (code : List Inst) : Decidable (CatchesFollowLabels code) :=
  inferInstanceAs (Decidable (∀ place < code.length, code[place]?.any Inst.isCatch →
    0 < place ∧ (code[place - 1]?.bind Inst.label?).isSome))

/-- No assignment has a constant as its target. -/
def AssignsNoConstant (code : List Inst) : Prop :=
  ∀ i ∈ code, ∀ sides ∈ i.assign?, sides.1.isConstant = false

instance (code : List Inst) : Decidable (AssignsNoConstant code) :=
  inferInstanceAs (Decidable (∀ i ∈ code, ∀ sides ∈ i.assign?, sides.1.isConstant = false))

theorem Value.mem_subvalues_self (v : Value)
    : v ∈ v.subvalues := by
  cases v <;> simp [subvalues]

/-- Registers that share a cell have one type, so they are the same. -/
theorem TypedOnce.same_of_cell {code : List Inst} (h : TypedOnce code) {i j : Inst}
    (hi : i ∈ code) (hj : j ∈ code) {v w : Value} (hv : v ∈ i.subvalues) (hw : w ∈ j.subvalues)
    {x : Cell} (hvx : v.cell? = some x) (hwx : w.cell? = some x)
    : v.Same w := by
  cases v with
  | register r =>
      obtain rfl := Option.some.inj hvx
      cases w with
      | register q =>
          have hindex : r.index = q.index := by simpa [cell?, eq_comm] using hwx
          have htype := h r (List.mem_flatMap.mpr ⟨i, hi, Inst.mem_registers.mpr hv⟩) q
            (List.mem_flatMap.mpr ⟨j, hj, Inst.mem_registers.mpr hw⟩) hindex
          exact registers_same_iff.mpr (Prod.ext hindex htype)
      | _ => simp [cell?] at hwx
  | argument a =>
      obtain rfl := Option.some.inj hvx
      cases w with
      | argument b =>
          simp only [cell?, Option.some.injEq, Cell.argument.injEq] at hwx
          simp [Same, anonymous, mapLeaves, dropName, hwx]
      | _ => simp [cell?] at hwx
  | this type =>
      obtain rfl := Option.some.inj hvx
      cases w with
      | this type' =>
          simp only [cell?, Option.some.injEq, Cell.receiver.injEq] at hwx
          rw [hwx]
          rfl
      | _ => simp [cell?] at hwx
  | _ => cases hvx

variable {target source : Value}

namespace VariableMachine

variable {D W : Type} (I : Interpretation D W) (values : Valuation D)

theorem Interpretation.perform_copy {i : Inst} (h : RepeatedCopies.copy? i = some (target, source))
    (world : W)
    : I.perform values world i = .proceed world (I.eval values source) := by
  obtain ⟨rfl, ht, hs⟩ := RepeatedCopies.copy?_eq_some h
  simp [Interpretation.perform, ht, hs]

end VariableMachine

-- What is known holds

namespace RepeatedCopies

variable {D W : Type} {I : Interpretation D W} {values : Valuation D} {world world' : W}
variable {code : List Inst} {known : Known} {i : Inst} {value : Option D}

/-- Every known copy is made by an instruction of the code. -/
def Made (code : List Inst) (known : Known) : Prop :=
  ∀ entry ∈ known, ∃ j ∈ code, ∃ target, copy? j = some (target, entry.2)
    ∧ entry.1 = target.anonymous

/-- Both sides of every known copy have the same value. -/
def Held (I : Interpretation D W) (values : Valuation D) (known : Known) : Prop :=
  ∀ entry ∈ known, I.eval values entry.1 = I.eval values entry.2

theorem made_knownBefore {place : Nat} (h : place ≤ code.length)
    : Made code (knownBefore (code.take place)) := by
  intro entry he
  obtain ⟨_, -, j, target, hj, hc, hkey, -⟩ := (mem_knownBefore_iff h).mp he
  exact ⟨j, List.mem_of_getElem? hj, target, hc, hkey⟩

theorem mem_subvalues_of_copy {j : Inst} (h : copy? j = some (target, source))
    : target ∈ j.subvalues ∧ source ∈ j.subvalues := by
  obtain ⟨rfl, -, -⟩ := copy?_eq_some h
  simp [Inst.subvalues, Inst.operands, Expr.subvalues, mem_subvalues_self]

/-- An assignment changes no value other than that of its target. -/
theorem eval_write_target (htyped : TypedOnce code) {j : Inst} (hj : j ∈ code) {v : Value}
    (hv : v ∈ j.subvalues) {target : Value} {source : Expr} (hi : .assign target source ∈ code)
    (h : ¬ v.Same target) (value : Option D)
    : I.eval (values.write target.cell? value) v = I.eval values v := by
  cases ht : target.cell? with
  | none => rfl
  | some x =>
      refine I.eval_write values (fun hx => h ?_) value
      have htarget : target ∈ (Inst.assign target source).subvalues := by
        simp [Inst.subvalues, Inst.operands, Expr.subvalues, mem_subvalues_self]
      exact htyped.same_of_cell hj hi hv htarget hx ht

/-- The target of a copy holds the copied value afterwards. -/
theorem eval_after_copy {x : Cell} (hx : target.cell? = some x) (hs : source.isSimple)
    : I.eval (values.write (some x) (I.eval values source)) target
      = I.eval (values.write (some x) (I.eval values source)) source := by
  obtain ⟨value, hvalue⟩ := I.eval_eq_some values hs
  have hself : (values.write (some x) (some value)) x = value := Function.update_self ..
  rw [hvalue, I.eval_of_cell _ hx, hself]
  by_cases hsx : source.cell? = some x
  · rw [I.eval_of_cell _ hsx, hself]
  · rw [I.eval_write values hsx, hvalue]

/-- What was known still holds, since neither of its sides is written, and so does the copy that was
made.
-/
theorem Held.after (htyped : TypedOnce code) (htargets : AssignsNoConstant code)
    (hi : i ∈ code) (hcatch : i.isCatch = false) (hmade : Made code known)
    (h : Held I values known) (heff : I.perform values world i = .proceed world' value)
    : Held I (values.write i.written? value) (after known i) := by
  intro entry he
  rcases mem_after he with ⟨hm, hother⟩ | ⟨target, source, hc, rfl⟩
  · have hsame := h entry hm
    cases i with
    | assign target source =>
        -- Both sides occur in the code, so they share no cell with the target.
        obtain ⟨hsource, htarget⟩ := hother target source rfl
        obtain ⟨j, hj, made, hc, hkey⟩ := hmade entry hm
        obtain ⟨hmade, hcopied⟩ := mem_subvalues_of_copy hc
        rw [hkey] at hsame htarget ⊢
        rw [I.eval_anonymous] at hsame ⊢
        rw [Inst.written?, eval_write_target htyped hj hmade hi htarget,
          eval_write_target htyped hj hcopied hi hsource, hsame]
    | catches => cases hcatch
    | _ => exact hsame
  · rw [I.perform_copy values hc] at heff
    obtain ⟨rfl, ht, hs⟩ := copy?_eq_some hc
    obtain ⟨x, hx⟩ := exists_cell ht (htargets _ hi _ rfl)
    obtain rfl := (Effect.proceed.inj heff).2
    rw [I.eval_anonymous, Inst.written?, hx]
    exact eval_after_copy hx hs

/-- The target of a repeated copy already holds the copied value. -/
theorem Held.eval_eq (h : Held I values known) {target source v : Value}
    (hm : (target.anonymous, v) ∈ known) (hsame : v.Same source)
    : I.eval values target = I.eval values source := by
  have hv := h _ hm
  rwa [I.eval_anonymous, ← I.eval_anonymous values v, hsame, I.eval_anonymous] at hv

-- Runs without repeated copies

/-- What is known in front of an instruction holds. Runs may come to a label from elsewhere, so in
front of labels nothing needs to hold.
-/
def KnownHolds (I : Interpretation D W) (code : List Inst) (s : State D W) : Prop :=
  ∀ i, code[s.place]? = some i → i.label? = none →
    Held I s.values (knownBefore (code.take s.place))

variable {s s' t : State D W}

theorem knownBefore_of_isCatch (h : CatchesFollowLabels code) {place : Nat}
    (hi : code[place]? = some i) (hc : i.isCatch)
    : knownBefore (code.take place) = [] := by
  obtain ⟨hpos, hl⟩ := h place (List.getElem?_eq_some_iff.mp hi).1 (by simpa [hi] using hc)
  obtain ⟨l, hl⟩ := Option.isSome_iff_exists.mp hl
  obtain ⟨j, hj, hjl⟩ := Option.bind_eq_some_iff.mp hl
  obtain ⟨before, rfl⟩ := Nat.exists_eq_succ_of_ne_zero hpos.ne'
  rw [Nat.succ_sub_one] at hj
  rw [Nat.succ_eq_add_one, knownBefore_succ hj]
  cases j with
  | label => rfl
  | _ => cases hjl

/-- A step keeps what is known: at a label nothing is known, and no step but those to labels leaves
the order of the code.
-/
theorem KnownHolds.next (hcatch : CatchesFollowLabels code) (htyped : TypedOnce code)
    (htargets : AssignsNoConstant code) (h : KnownHolds I code s)
    (hnext : next I code s = some t)
    : KnownHolds I code t := by
  obtain ⟨i, hi, ⟨world, value, heff, rfl⟩ | ⟨world, target, -, hplace⟩⟩ := next_cases hnext
  -- A handler writes its register unnoticed, but in front of it nothing is known.
  · intro j hj _
    dsimp only
    rw [knownBefore_succ hi]
    have hmem := List.mem_of_getElem? hi
    cases hc : i.isCatch with
    | true =>
        rw [knownBefore_of_isCatch hcatch hi hc]
        cases i with
        | catches => exact fun entry he => nomatch he
        | _ => cases hc
    | false =>
        cases hl : i.label? with
        | some l =>
            cases i with
            | label => exact fun entry he => nomatch he
            | _ => cases hl
        | none =>
            have hmade := made_knownBefore (List.getElem?_eq_some_iff.mp hi).1.le
            exact (h i hi hl).after htyped htargets hmem hc hmade heff
  -- The run has come to a label.
  · intro j hj hjl
    obtain ⟨hlt, hlabel, -⟩ := List.findIdx?_eq_some_iff_getElem.mp hplace
    rw [List.getElem?_eq_getElem hlt] at hj
    obtain rfl := Option.some.inj hj
    rw [beq_iff_eq.mp hlabel] at hjl
    cases hjl

/-- A repeated copy is made between equal values. -/
theorem KnownHolds.eval_eq (h : KnownHolds I code s) (hi : code[s.place]? = some i)
    (hr : isRepeated (knownBefore (code.take s.place)) i)
    : ∃ target source, copy? i = some (target, source)
        ∧ I.eval s.values target = I.eval s.values source := by
  have hplace := (List.getElem?_eq_some_iff.mp hi).1.le
  obtain ⟨target, source, v, hc, -, hm, hsame⟩ := (isRepeated_iff_mem hplace).mp hr
  have hl : i.label? = none := by
    obtain ⟨rfl, -, -⟩ := copy?_eq_some hc
    rfl
  exact ⟨target, source, hc, (h i hi hl).eval_eq hm hsame⟩

/-- A repeated copy changes nothing. -/
theorem KnownHolds.next_of_isRepeated (htargets : AssignsNoConstant code)
    (h : KnownHolds I code s) (hi : code[s.place]? = some i)
    (hr : isRepeated (knownBefore (code.take s.place)) i)
    : VariableMachine.next I code s = some { s with place := s.place + 1 } := by
  obtain ⟨target, source, hc, heval⟩ := h.eval_eq hi hr
  rw [next_of_proceed hi (I.perform_copy s.values hc s.world), ← heval]
  obtain ⟨rfl, ht, -⟩ := copy?_eq_some hc
  obtain ⟨x, hx⟩ := exists_cell ht (htargets _ (List.mem_of_getElem? hi) _ rfl)
  rw [Inst.written?, hx, I.eval_of_cell _ hx, Valuation.write, Function.update_eq_self]

/-- The state that the run without repeated copies is in. -/
def Follows (I : Interpretation D W) (code : List Inst) (s s' : State D W) : Prop :=
  KnownHolds I code s ∧ s' = { s with place := newPlace code s.place }

/-- A kept instruction does the same in both codes, and leads to related places. -/
theorem Follows.step (hcatch : CatchesFollowLabels code) (htyped : TypedOnce code)
    (htargets : AssignsNoConstant code) (h : Follows I code s s')
    (hi : code[s.place]? = some i)
    (hr : isRepeated (knownBefore (code.take s.place)) i = false)
    : Option.Rel (Follows I code) (next I code s) (next I (dropRepeatedCopies code) s') := by
  obtain ⟨hknown, rfl⟩ := h
  have hstep {t : State D W} (ht : next I code s = some t)
      : Follows I code t { t with place := newPlace code t.place } :=
    ⟨hknown.next hcatch htyped htargets ht, rfl⟩
  have hi' := getElem?_newPlace hi hr
  cases heff : I.perform s.values s.world i with
  | proceed world value =>
      have hnext := next_of_proceed hi heff
      have hnext' := next_of_proceed (s := { s with place := newPlace code s.place }) hi' heff
      rw [hnext, hnext', ← newPlace_succ_of_kept hi hr]
      exact .some (hstep hnext)
  | transfer world target =>
      have hnext := next_of_transfer hi heff
      have hnext' := next_of_transfer (s := { s with place := newPlace code s.place }) hi' heff
      rw [hnext, hnext', idxOf?_label]
      cases hl : code.idxOf? (.label target) with
      | none => exact .none
      | some place => exact .some (hstep (hnext.trans (by rw [hl]; rfl)))
  | stop =>
      rw [next_of_stop hi heff,
        next_of_stop (s := { s with place := newPlace code s.place }) hi' heff]
      exact .none

/-- Runs without repeated copies skip them. -/
theorem skipping_dropRepeatedCopies (hcatch : CatchesFollowLabels code)
    (htyped : TypedOnce code) (htargets : AssignsNoConstant code) (I : Interpretation D W)
    : Skipping I code (dropRepeatedCopies code) (keptPlaces code) (Follows I code) where
  corresponds := by
    rintro s s' ⟨-, rfl⟩ hp
    obtain ⟨i, hi, hr⟩ := mem_keptPlaces.mp hp
    exact ⟨keptPlaces_newPlace hi hr, rfl, rfl⟩
  bounds := by
    rintro s s' ⟨-, rfl⟩ hp
    obtain ⟨i, hi, hr⟩ := mem_keptPlaces.mp hp
    exact ⟨(List.getElem?_eq_some_iff.mp hi).1,
      (List.getElem?_eq_some_iff.mp (getElem?_newPlace hi hr)).1⟩
  step := by
    intro s s' h hp
    obtain ⟨i, hi, hr⟩ := mem_keptPlaces.mp hp
    exact h.step hcatch htyped htargets hi hr
  skip := by
    rintro s s' ⟨hknown, rfl⟩ hs hp
    obtain ⟨i, hi, hr⟩ := isRepeated_of_not_mem hs hp
    have hnext := hknown.next_of_isRepeated htargets hi hr
    refine ⟨_, hnext, rfl, hknown.next hcatch htyped htargets hnext, ?_⟩
    rw [newPlace_succ_of_repeated hi hr]
  ended := by
    rintro s s' ⟨-, rfl⟩ hs
    exact (newPlace_of_length_le hs).ge

theorem knownHolds_start (I : Interpretation D W) (code : List Inst) (values : Valuation D)
    (world : W)
    : KnownHolds I code ⟨0, values, world⟩ :=
  fun _ _ _ _ he => nomatch he

end RepeatedCopies

open RepeatedCopies

/-- The other code is the code at the given places, which are all but those of repeated copies.
Every run of the code makes those copies between equal values. Runs of both codes, from any values
of the variables and under any interpretation of the other instructions, perform the instructions
that both have in the same order and in the same states.
-/
structure DropsHeldCopies (code other : List Inst) (places : List Nat) : Prop where
  ordered : places.Pairwise (· < ·)
  kept : places.map (code[·]?) = other.map some
  dropped : ∀ place < code.length, place ∉ places ↔ RepeatsCopy code place
  held : ∀ {D W : Type} (I : Interpretation D W) (values : Valuation D) (world : W) (n : Nat),
    ∀ s ∈ visits I code n ⟨0, values, world⟩, s.place ∉ places →
      ∃ target source, code[s.place]? = some (.assign target (.value source))
        ∧ I.eval s.values target = I.eval s.values source
  followed : ∀ {D W : Type} (I : Interpretation D W) (values : Valuation D) (world : W) (n : Nat),
    ∃ m, SameVisits I code other places n m ⟨0, values, world⟩ ⟨0, values, world⟩
  following : ∀ {D W : Type} (I : Interpretation D W) (values : Valuation D) (world : W) (m : Nat),
    ∃ n, SameVisits I code other places n m ⟨0, values, world⟩ ⟨0, values, world⟩

/-- Dropping repeated copies is sound if handlers start after labels, registers have one type each
and no constant is assigned.
-/
theorem dropRepeatedCopies_drops_held {code : List Inst} (hcatch : CatchesFollowLabels code)
    (htyped : TypedOnce code) (htargets : AssignsNoConstant code)
    : ∃ places, DropsHeldCopies code (dropRepeatedCopies code) places := by
  refine ⟨keptPlaces code, pairwise_keptPlaces code, map_keptPlaces code, ?_, ?_, ?_, ?_⟩
  · intro place hlt
    have hi := List.getElem?_eq_getElem hlt
    rw [← isRepeated_iff hi, mem_keptPlaces]
    simp [hi]
  · intro D W I values world n s hs hp
    obtain ⟨hlt, hknown⟩ := forall_visits (KnownHolds.next hcatch htyped htargets)
      (knownHolds_start I code values world) s hs
    obtain ⟨i, hi, hr⟩ := isRepeated_of_not_mem hlt hp
    obtain ⟨target, source, hc, heval⟩ := hknown.eval_eq hi hr
    obtain ⟨rfl, -, -⟩ := copy?_eq_some hc
    exact ⟨target, source, hi, heval⟩
  · intro D W I values world n
    exact (skipping_dropRepeatedCopies hcatch htyped htargets I).exists_other_visits n
      ⟨knownHolds_start I code values world, rfl⟩
  · intro D W I values world m
    exact (skipping_dropRepeatedCopies hcatch htyped htargets I).exists_visits m
      ⟨knownHolds_start I code values world, rfl⟩

/-- Copies in front of a handler and in it, two of which repeat the copy before them. -/
def copiesInHandler : List Inst :=
  [.assign (.register (.fresh 0 .int)) (.value (.argument (.make 0 none .int))),
    .assign (.register (.fresh 1 .int))
      (.binary ⟨.div, .int, .constant (.int 1), .register (.fresh 0 .int)⟩),
    .assign (.register (.fresh 0 .int)) (.value (.argument (.make 0 none .int))),
    .label ⟨0⟩,
    .catches (.register (.fresh 0 .int)) ⟨0⟩ [],
    .assign (.register (.fresh 1 .int)) (.value (.register (.fresh 0 .int))),
    .assign (.register (.fresh 0 .int)) (.value (.argument (.make 0 none .int))),
    .assign (.register (.fresh 1 .int)) (.value (.register (.fresh 0 .int))),
    .assign (.register (.fresh 1 .int)) (.value (.register (.fresh 0 .int))),
    .returns (some (.register (.fresh 1 .int)))]

/-- The label and the assignment to the copied register keep the copies that follow them. -/
theorem copiesInHandler_drops_held
    : CatchesFollowLabels copiesInHandler ∧ TypedOnce copiesInHandler
      ∧ AssignsNoConstant copiesInHandler
      ∧ dropRepeatedCopies copiesInHandler
        = copiesInHandler.take 2 ++ (copiesInHandler.drop 3).take 5 ++ copiesInHandler.drop 9
      ∧ ∃ places, DropsHeldCopies copiesInHandler (dropRepeatedCopies copiesInHandler) places := by
  have hcatch : CatchesFollowLabels copiesInHandler := by decide +kernel
  have htyped : TypedOnce copiesInHandler := by decide +kernel
  have htargets : AssignsNoConstant copiesInHandler := by decide +kernel
  exact ⟨hcatch, htyped, htargets, by decide +kernel,
    dropRepeatedCopies_drops_held hcatch htyped htargets⟩

end StackLift
