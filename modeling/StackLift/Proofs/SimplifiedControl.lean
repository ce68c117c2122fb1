import StackLift.Proofs.Control
import StackLift.Proofs.RemovedInstructions

/-! Simplification only drops instructions through which control goes straight on. -/

namespace StackLift

/-- What a code does to control, but for going straight on. -/
def skeleton (code : List Inst) : List Control :=
  (code.map Inst.control).filter (· ≠ .step)

variable {code : List Inst}

theorem mem_skeleton {k : Control}
    : k ∈ skeleton code ↔ k ∈ code.map Inst.control ∧ k ≠ .step := by
  simp [skeleton]

theorem skeleton_cons (i : Inst) (code : List Inst)
    : skeleton (i :: code)
      = if i.control = .step then skeleton code else i.control :: skeleton code := by
  by_cases h : i.control = .step <;> simp [skeleton, h]

-- Passes

theorem Inst.control_rename (f : Value → Value) (i : Inst)
    : (i.rename f).control = i.control :=
  i.control_mapValues _

/-- Control goes straight on through what a pass may remove. -/
theorem Redundant.control_eq {i : Inst} (h : Redundant code i)
    : i.control = .step := by
  cases h <;> rfl

/-- Simplification keeps what is kept where instructions are dropped through which control goes
straight on, and registers are replaced.
-/
theorem Reduces.keeps {P : List Inst → Prop}
    (split : ∀ {f code removed kept}, Splits f code removed kept →
      (∀ i ∈ removed, i.control = .step) → P code → P kept)
    {code next : List Inst} (h : Reduces code next) (hcode : P code)
    : P next := by
  obtain ⟨removals, h⟩ := h
  induction h with
  | done code => exact hcode
  | pass hp _ ih =>
      obtain ⟨f, -, hsplits⟩ := hp.splits
      exact ih (split hsplits (fun i hi => (hp.redundant hi).control_eq) hcode)

theorem Splits.skeleton_eq {f : Value → Value} {code removed kept : List Inst}
    (h : Splits f code removed kept) (steps : ∀ i ∈ removed, i.control = .step)
    : skeleton kept = skeleton code := by
  induction h with
  | nil => rfl
  | keep _ ih => rw [skeleton_cons, skeleton_cons, Inst.control_rename, ih steps]
  | remove _ ih =>
      obtain ⟨hstep, hrest⟩ := List.forall_mem_cons.mp steps
      rw [skeleton_cons, if_pos hstep, ih hrest]

theorem Reduces.skeleton_eq {code next : List Inst} (h : Reduces code next)
    : skeleton next = skeleton code :=
  h.keeps (P := fun other => skeleton other = skeleton code)
    (fun hsplits steps hother => (hsplits.skeleton_eq steps).trans hother) rfl

-- Lifted code

/-- Lifted code comes from the code before simplification by passes. -/
theorem exists_reduces_of_lift {m : Method} {settings : Settings} (h : m.lift settings = .ok code)
    : ∃ raw, m.liftRaw settings = .ok raw ∧ Reduces raw code := by
  obtain ⟨raw, hraw, h⟩ := except_bind_eq_ok.mp h
  refine ⟨raw, hraw, ?_⟩
  split at h
  · obtain ⟨simplified, hsimplified, h⟩ := except_bind_eq_ok.mp h
    cases h
    unfold simplify at hsimplified
    split at hsimplified
    next result hresult =>
      cases hsimplified
      exact .simplifyRounds? hresult
    next => cases hsimplified
  · cases h
    exact .refl _

/-- Lifted code does the same to control, whether it is simplified or not. -/
theorem exists_liftRaw_of_lift {m : Method} {settings : Settings} (h : m.lift settings = .ok code)
    : ∃ raw, m.liftRaw settings = .ok raw ∧ skeleton code = skeleton raw := by
  obtain ⟨raw, hraw, reduces⟩ := exists_reduces_of_lift h
  exact ⟨raw, hraw, reduces.skeleton_eq⟩

end StackLift
