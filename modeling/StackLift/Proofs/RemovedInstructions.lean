import StackLift.Flow.Raised
import StackLift.Proofs.SimplificationEnds

/-!
The instructions that simplification removes. A run is a chain of passes, and each pass splits a
code into the instructions that it removes and those that it keeps, in which it replaces registers.
-/

namespace StackLift

open CopyChains RepeatedCopies

-- Codes split into removed and kept instructions

/-- The second code holds some instructions of the first one, and the third code all the others with
their registers replaced, both in their order.
-/
inductive Splits (f : Value → Value) : List Inst → List Inst → List Inst → Prop
  | nil : Splits f [] [] []
  | keep {i : Inst} {code removed kept : List Inst} :
    Splits f code removed kept → Splits f (i :: code) removed (i.rename f :: kept)
  | remove {i : Inst} {code removed kept : List Inst} :
    Splits f code removed kept → Splits f (i :: code) (i :: removed) kept

namespace Splits

variable {f : Value → Value} {code removed kept : List Inst}

theorem length_eq (h : Splits f code removed kept)
    : removed.length + kept.length = code.length := by
  induction h with
  | nil => rfl
  | keep _ ih | remove _ ih =>
      simp only [List.length_cons]
      omega

theorem map (f : Value → Value) (code : List Inst)
    : Splits f code [] (code.map (Inst.rename f)) := by
  induction code with
  | nil => exact .nil
  | cons i rest ih => exact ih.keep

theorem keep_id {i : Inst} (h : Splits id code removed kept)
    : Splits id (i :: code) removed (i :: kept) := by
  have hkeep := h.keep (i := i)
  rwa [Inst.rename_id] at hkeep

theorem filter (test : Inst → Bool) (code : List Inst)
    : Splits id code (code.filter test) (code.filter fun i => !test i) := by
  induction code with
  | nil => exact .nil
  | cons i rest ih =>
      cases ht : test i with
      | true => simpa [ht] using ih.remove
      | false => simpa [ht] using ih.keep_id

/-- The instructions at some places are removed. -/
theorem zipIdx (f : Value → Value) (places : List Nat) (code : List Inst) (n : Nat)
    : Splits f code (((code.zipIdx n).filter fun entry => entry.2 ∈ places).map Prod.fst)
        (((code.zipIdx n).filter fun entry => entry.2 ∉ places).map fun entry =>
          entry.1.rename f) := by
  induction code generalizing n with
  | nil => exact .nil
  | cons i rest ih =>
      rw [List.zipIdx_cons]
      by_cases hn : n ∈ places
      · simpa [hn] using (ih (n + 1)).remove
      · simpa [hn] using (ih (n + 1)).keep

end Splits

-- Passes

namespace RepeatedCopies

/-- The copies that are dropped as repeated ones. -/
def repeated (known : Known) : List Inst → List Inst
  | [] => []
  | i :: rest =>
    if isRepeated known i then i :: repeated (after known i) rest else repeated (after known i) rest

theorem splits_drop (known : Known) (code : List Inst)
    : Splits id code (repeated known code) (drop known code) := by
  induction code generalizing known with
  | nil => exact .nil
  | cons i rest ih =>
      simp only [repeated, drop]
      split
      · exact (ih _).remove
      · exact (ih _).keep_id

theorem isRepeated_of_mem {known : Known} {code : List Inst} {i : Inst}
    (h : i ∈ repeated known code)
    : ∃ known', isRepeated known' i := by
  induction code generalizing known with
  | nil => cases h
  | cons j rest ih =>
      simp only [repeated] at h
      split at h
      · rename_i hj
        rcases List.mem_cons.mp h with rfl | h
        · exact ⟨known, hj⟩
        · exact ih h
      · exact ih h

end RepeatedCopies

namespace FoldedCopies

/-- The copies that are folded in one step. -/
def folded (code : List Inst) : List Inst :=
  (code.zipIdx.filter fun entry => entry.2 ∈ (folding code).places).map Prod.fst

theorem splits_step (code : List Inst)
    : Splits (folding code).targetOf.leaf code (folded code) (step code) := by
  have hinst : (folding code).targetOf.inst = Inst.rename (folding code).targetOf.leaf :=
    funext (forRegisters_targetOf code).inst_eq_rename
  simpa only [folded, step, hinst] using Splits.zipIdx _ (folding code).places code 0

theorem copy_of_mem_folded {code : List Inst} {i : Inst} (h : i ∈ folded code)
    : ∃ target r, i = .assign target (.value (.register r)) ∧ target.isSimple := by
  obtain ⟨entry, hentry, rfl⟩ := List.mem_map.mp h
  obtain ⟨hm, hp⟩ := List.mem_filter.mp hentry
  obtain ⟨target, r, hc, hsimple⟩ := copy_of_mem (of_decide_eq_true hp)
  have hi := List.mem_zipIdx_iff_getElem?.mp hm
  exact ⟨target, r, Option.some.inj (hi.symm.trans hc), hsimple⟩

end FoldedCopies

/-- One pass takes a code to another one and removes some instructions. -/
inductive Pass (code : List Inst) : List Inst → List Inst → Prop
  | repeatedCopies : Pass code (repeated [] code) (dropRepeatedCopies code)
  | deadCopies : Pass code (code.filter (isDeadCopy (readsOf code))) (dropUnreadCopies code)
  | mutualCopies (links : List (Register × Register)) :
    Pass code (code.filter (isMutualCopy links)) (code.filter fun i => !isMutualCopy links i)
  | links (links : List (Register × Register)) : Pass code [] (code.map (mapping links).inst)
  | foldedCopies : Pass code (FoldedCopies.folded code) (FoldedCopies.step code)
  | selfCopies : Pass code (code.filter isSelfCopy) (code.filter fun i => !isSelfCopy i)
  | types : Pass code [] (normalizeTypes code)

/-- What a pass may remove from a code: a copy between simple values, an assignment to a variable
that nothing reads, and an assignment of a value to itself.
-/
inductive Redundant (code : List Inst) : Inst → Prop
  | copy {target v : Value} :
    target.isSimple → v.isSimple → Redundant code (.assign target (.value v))
  | unread {target v : Value} :
    target.isSimple → firstRead? (readsOf code) target = none →
    Redundant code (.assign target (.value v))
  | itself {target v : Value} : v.Same target → Redundant code (.assign target (.value v))

namespace Pass

variable {code removed next : List Inst}

theorem splits (h : Pass code removed next)
    : ∃ f, Replaces f ∧ Splits f code removed next := by
  cases h with
  | repeatedCopies => exact ⟨id, renames_id.replaces, splits_drop [] code⟩
  | deadCopies | mutualCopies | selfCopies => exact ⟨id, renames_id.replaces, .filter _ code⟩
  | links links =>
      have hon := onRegisters_mapping links
      rw [funext (Substitution.inst_eq_rename hon)]
      exact ⟨_, (Substitution.renames_leaf hon).replaces, .map _ code⟩
  | foldedCopies =>
      exact ⟨_, (FoldedCopies.forRegisters_targetOf code).replaces_leaf,
        FoldedCopies.splits_step code⟩
  | types => exact ⟨_, (renames_retypeLeaf _).replaces, .map _ code⟩

theorem redundant (h : Pass code removed next) {i : Inst} (hi : i ∈ removed)
    : Redundant code i := by
  cases h with
  | repeatedCopies =>
      obtain ⟨known, hrepeated⟩ := isRepeated_of_mem hi
      unfold isRepeated at hrepeated
      split at hrepeated
      · rename_i target source hc
        obtain ⟨rfl, htarget, hsource⟩ := copy?_eq_some hc
        exact .copy htarget hsource
      · cases hrepeated
  | deadCopies =>
      have hdead := (List.mem_filter.mp hi).2
      unfold isDeadCopy at hdead
      split at hdead
      · simp only [Bool.and_eq_true, Option.isNone_iff_eq_none] at hdead
        exact .unread hdead.1 hdead.2
      · cases hdead
  | mutualCopies links =>
      have hmutual := (List.mem_filter.mp hi).2
      unfold isMutualCopy at hmutual
      split at hmutual
      · simp only [Bool.and_eq_true] at hmutual
        obtain ⟨t, s, -, ht, hs⟩ := links?_eq_true hmutual.1
        exact .copy ht.isSimple.symm hs.isSimple.symm
      · cases hmutual
  | foldedCopies =>
      obtain ⟨target, r, rfl, hsimple⟩ := FoldedCopies.copy_of_mem_folded hi
      exact .copy hsimple rfl
  | selfCopies =>
      have hself := (List.mem_filter.mp hi).2
      unfold isSelfCopy at hself
      split at hself
      · exact .itself (of_decide_eq_true hself)
      · cases hself
  | links | types => cases hi

end Pass

-- Runs

/-- An instruction that was removed, with the code that it was removed from. -/
structure Removal where
  code : List Inst
  inst : Inst

/-- Some passes, one after the other, take a code to another one and remove instructions. -/
inductive Passes : List Inst → List Removal → List Inst → Prop
  | done (code : List Inst) : Passes code [] code
  | pass {code removed mid next : List Inst} {removals : List Removal} :
    Pass code removed mid → Passes mid removals next →
    Passes code (removed.map (Removal.mk code) ++ removals) next

namespace Passes

variable {code mid next : List Inst} {removals : List Removal}

theorem one {removed : List Inst} (h : Pass code removed next)
    : Passes code (removed.map (Removal.mk code)) next := by
  simpa using Passes.pass h (.done next)

theorem trans {more : List Removal} (h : Passes code removals mid) (h' : Passes mid more next)
    : Passes code (removals ++ more) next := by
  induction h with
  | done code => exact h'
  | pass hp _ ih =>
      rw [List.append_assoc]
      exact .pass hp (ih h')

theorem length_eq (h : Passes code removals next)
    : removals.length + next.length = code.length := by
  induction h with
  | done code => exact Nat.zero_add _
  | pass hp _ ih =>
      obtain ⟨f, -, hsplits⟩ := hp.splits
      have hlength := hsplits.length_eq
      simp only [List.length_append, List.length_map]
      omega

theorem redundant (h : Passes code removals next) {r : Removal} (hr : r ∈ removals)
    : Redundant r.code r.inst := by
  induction h with
  | done code => cases hr
  | pass hp _ ih =>
      rcases List.mem_append.mp hr with hr | hr
      · obtain ⟨i, hi, rfl⟩ := List.mem_map.mp hr
        exact hp.redundant hi
      · exact ih hr

end Passes

/-- One code comes from another one by passes. -/
def Reduces (code next : List Inst) : Prop :=
  ∃ removals, Passes code removals next

namespace Reduces

variable {code mid next : List Inst}

theorem refl (code : List Inst)
    : Reduces code code :=
  ⟨[], .done code⟩

theorem one {removed : List Inst} (h : Pass code removed next)
    : Reduces code next :=
  ⟨_, .one h⟩

theorem trans (h : Reduces code mid) (h' : Reduces mid next)
    : Reduces code next := by
  obtain ⟨removals, h⟩ := h
  obtain ⟨more, h'⟩ := h'
  exact ⟨_, h.trans h'⟩

theorem whileShorter {step : List Inst → List Inst} (h : ∀ code, Reduces code (step code))
    (code : List Inst)
    : Reduces code (whileShorter step code) :=
  whileShorter_keeps (P := Reduces code) (fun hmid => hmid.trans (h _)) (refl code)

theorem applyLinks (links : List (Register × Register)) (code : List Inst)
    : Reduces code (applyLinks links code) :=
  ((one (.mutualCopies links)).trans (one (.links links))).trans (one .selfCopies)

theorem replaceChains? {steps : Nat} (h : replaceChains? steps code = some next)
    : Reduces code next := by
  induction steps generalizing code with
  | zero => cases h
  | succ steps ih =>
      simp only [StackLift.replaceChains?] at h
      split at h
      · cases h
        exact refl _
      · split at h
        · cases h
          exact applyLinks _ code
        · exact (applyLinks _ code).trans (ih h)

theorem simplifyRound? {steps : Nat} (h : simplifyRound? steps code = some next)
    : Reduces code next := by
  obtain ⟨mid, hmid, rfl⟩ := simplifyRound?_eq_some.mp h
  have hdropped : Reduces code (dropDeadCopies (dropRepeatedCopies code)) :=
    (one .repeatedCopies).trans (whileShorter (fun _ => one .deadCopies) _)
  have hfolded : Reduces mid (foldCopies mid) := whileShorter (fun _ => one .foldedCopies) mid
  exact (((hdropped.trans (replaceChains? hmid)).trans hfolded).trans (one .selfCopies)).trans
    (one .types)

/-- A run of the simplifier is a chain of passes, by induction on the rounds. -/
theorem simplifyRounds? {steps done rounds : Nat} {result : Simplified}
    (h : simplifyRounds? steps done rounds code = some result)
    : Reduces code result.code := by
  induction rounds generalizing code done with
  | zero => cases h
  | succ rounds ih =>
      obtain ⟨next, hnext, h⟩ := Option.bind_eq_some_iff.mp h
      have hround := simplifyRound? hnext
      split at h
      · cases h
        exact hround
      · exact hround.trans (ih h)

end Reduces

-- Exceptions of removed instructions

theorem Value.raised_eq_nil {v : Value}
    : v.raised = [] ↔ v.isSimple := by
  cases v <;> simp [Value.raised, Value.isSimple, Value.isComplex]

/-- Reads and stores of fields and elements may raise an exception, copies may not. -/
theorem Inst.raised_assign_value {h : Hierarchy} {target v : Value}
    : (Inst.assign target (.value v)).raised h ≠ [] ↔ target.isComplex ∨ v.isComplex := by
  have hdups : ∀ types : List TypeName, types.eraseDups = [] ↔ types = [] := by
    intro types
    cases types with
    | nil => simp
    | cons type types => simp [List.eraseDups_cons]
  rw [Inst.raised, ne_eq, hdups]
  simp only [Expr.raised, List.append_eq_nil_iff, Value.raised_eq_nil, Value.isSimple]
  cases target.isComplex <;> cases v.isComplex <;> simp

namespace Removal

/-- A field or an element was read into a variable that nothing read. -/
def DropsRead (r : Removal) : Prop :=
  ∃ target v, r.inst = .assign target (.value v) ∧ target.isSimple ∧ v.isComplex
    ∧ firstRead? (readsOf r.code) target = none

/-- A field or an element was stored into itself. -/
def DropsSelfStore (r : Removal) : Prop :=
  ∃ target v, r.inst = .assign target (.value v) ∧ target.isComplex ∧ v.Same target

end Removal

theorem Redundant.raised_iff {r : Removal} (h : Redundant r.code r.inst) (hierarchy : Hierarchy)
    : r.inst.raised hierarchy ≠ [] ↔ r.DropsRead ∨ r.DropsSelfStore := by
  obtain ⟨code, inst⟩ := r
  constructor
  · intro hraised
    cases h with
    | copy htarget hv =>
        simp only [Value.isSimple, Bool.not_eq_true'] at htarget hv
        simp [Inst.raised_assign_value, htarget, hv] at hraised
    | unread htarget hnone =>
        rcases Inst.raised_assign_value.mp hraised with hcomplex | hcomplex
        · simp [Value.isSimple, hcomplex] at htarget
        · exact .inl ⟨_, _, rfl, htarget, hcomplex, hnone⟩
    | itself hsame =>
        have hcomplex := Bool.not_inj hsame.isSimple
        rw [Inst.raised_assign_value, hcomplex, or_self] at hraised
        exact .inr ⟨_, _, rfl, hraised, hsame⟩
  · rintro (⟨target, v, rfl, -, hcomplex, -⟩ | ⟨target, v, rfl, hcomplex, -⟩)
    · exact Inst.raised_assign_value.mpr (.inr hcomplex)
    · exact Inst.raised_assign_value.mpr (.inl hcomplex)

/-- Of all instructions that simplification removes, those may raise an exception that read a field
or an element into a variable that nothing reads, or store one into itself. No others may.
-/
theorem removals_that_raise {limit : Nat} {code : List Inst} {result : Simplified}
    (simplified : simplifyWithin? limit code = some result)
    : (∃ removals, Passes code removals result.code)
      ∧ ∀ removals, Passes code removals result.code →
          removals.length + result.code.length = code.length
          ∧ ∀ r ∈ removals, ∀ hierarchy,
              r.inst.raised hierarchy ≠ [] ↔ r.DropsRead ∨ r.DropsSelfStore := by
  refine ⟨Reduces.simplifyRounds? simplified, fun removals passes => ⟨passes.length_eq, ?_⟩⟩
  intro r hr hierarchy
  exact (passes.redundant hr).raised_iff hierarchy

/-- Reads a field into a register. -/
def fieldRead : Inst :=
  let type : TypeName := ⟨"a.B"⟩
  .assign (.register (.fresh 0 .int))
    (.value (.field (.argument (.make 0 none type)) type "x" .int))

/-- Stores a static field into itself. -/
def staticFieldStore : Inst :=
  let field : Value := .staticField ⟨"a.B"⟩ "y" .int
  .assign field (.value field)

theorem removals_of_unused_accesses
    : simplifyWithin? 2 [fieldRead, staticFieldStore, .returns none]
        = some ⟨[.returns none], 2⟩
      ∧ ∀ removals, Passes [fieldRead, staticFieldStore, .returns none] removals [.returns none] →
          removals.length = 2
          ∧ ∀ r ∈ removals, ∀ hierarchy,
              r.inst.raised hierarchy ≠ [] ↔ r.DropsRead ∨ r.DropsSelfStore := by
  have simplified : simplifyWithin? 2 [fieldRead, staticFieldStore, .returns none]
      = some ⟨[.returns none], 2⟩ := by decide +kernel
  refine ⟨simplified, fun removals passes => ?_⟩
  obtain ⟨count, raised⟩ := (removals_that_raise simplified).2 removals passes
  exact ⟨Nat.succ.inj count, raised⟩

/-- Both accesses may raise an exception and are removed. -/
theorem raising_accesses_are_removed
    : simplify [fieldRead, staticFieldStore, .returns none] = .ok ⟨[.returns none], 2⟩
      ∧ Passes [fieldRead, staticFieldStore, .returns none]
          [⟨[fieldRead, staticFieldStore, .returns none], fieldRead⟩,
            ⟨[staticFieldStore, .returns none], staticFieldStore⟩] [.returns none]
      ∧ ∀ hierarchy, fieldRead.raised hierarchy ≠ [] ∧ staticFieldStore.raised hierarchy ≠ [] := by
  have first : Pass [fieldRead, staticFieldStore, .returns none] [fieldRead]
      [staticFieldStore, .returns none] := by
    convert Pass.deadCopies using 1
    · decide +kernel
    · decide +kernel
  have second : Pass [staticFieldStore, .returns none] [staticFieldStore] [.returns none] := by
    convert Pass.selfCopies using 1
    · decide +kernel
    · decide +kernel
  refine ⟨by decide +kernel, .pass first (.pass second (.done _)), fun hierarchy => ?_⟩
  exact ⟨Inst.raised_assign_value.mpr (.inr rfl), Inst.raised_assign_value.mpr (.inr rfl)⟩

end StackLift
