import Mathlib.Tactic.IntervalCases
import StackLift.Proofs.ResolvedFlow

/-!
The exceptions that leave a method. An instruction lets out what it may raise unless a handler that
covers it binds a type above it. That agrees with what the entries of the handlers accept as long as
a handler binds one of the accepted types; a handler for several types binds a common one.
-/

namespace StackLift

open FlowGraph

namespace ResolvedCode

/-- An entry of a handler in whose range an instruction lies accepts exceptions of a type. -/
def Handled (r : ResolvedCode) (h : Hierarchy) (t : TypeName) (i : Nat) : Prop :=
  ∃ handler x label entries, i ≠ handler ∧ r.inst? handler = some (.catches x label entries)
    ∧ ∃ e ∈ entries, r.InRange e i ∧ h.isSubclass t e.accepted = true

/-- A handler that covers an instruction binds a type above the given one. -/
def Bound (r : ResolvedCode) (h : Hierarchy) (t : TypeName) (i : Nat) : Prop :=
  ∃ handler x label entries, r.Covers handler i
    ∧ r.inst? handler = some (.catches x label entries) ∧ h.isSubclass t x.type = true

/-- Of the entries of a handler in whose range an instruction lies, one accepts the type that the
handler binds, and the others accept none of the given types beyond it.
-/
def BindsAccepted (r : ResolvedCode) (h : Hierarchy) (types : List TypeName) (i : Nat) : Prop :=
  ∀ handler x label entries, r.Covers handler i →
    r.inst? handler = some (.catches x label entries) →
    (∃ e ∈ entries, r.InRange e i ∧ e.accepted = x.type)
      ∧ ∀ e ∈ entries, r.InRange e i → ∀ t ∈ types,
        h.isSubclass t e.accepted = true → h.isSubclass t x.type = true

variable {r : ResolvedCode} {h : Hierarchy} {t : TypeName} {types : List TypeName} {i : Nat}

theorem BindsAccepted.bound_iff_handled (binds : r.BindsAccepted h types i) (ht : t ∈ types)
    : r.Bound h t i ↔ r.Handled h t i := by
  constructor
  · intro ⟨handler, x, label, entries, covers, hinst, hsub⟩
    obtain ⟨⟨e, he, hrange, haccepted⟩, -⟩ := binds handler x label entries covers hinst
    exact ⟨handler, x, label, entries, covers.1, hinst, e, he, hrange, haccepted ▸ hsub⟩
  · intro ⟨handler, x, label, entries, hne, hinst, e, he, hrange, hsub⟩
    have covers : r.Covers handler i := ⟨hne, x, label, entries, hinst, e, he, hrange⟩
    obtain ⟨-, habove⟩ := binds handler x label entries covers hinst
    exact ⟨handler, x, label, entries, covers, hinst, habove e he hrange t ht hsub⟩

end ResolvedCode

namespace FlowGraph

variable {r : ResolvedCode} {h : Hierarchy} {t : TypeName} {i : Nat}

theorem accepts_iff {handler : Nat}
    : accepts r h t handler = true ↔ ∃ x label entries,
        r.inst? handler = some (.catches x label entries) ∧ h.isSubclass t x.type = true := by
  rw [accepts]
  split
  · next x label entries hinst => simp [hinst]
  · next hother =>
      constructor
      · intro hfalse
        cases hfalse
      · intro ⟨x, label, entries, hinst, _⟩
        exact absurd hinst (hother x label entries)

theorem escaping_eq (hi : i < r.size)
    : (ofResolved r h).escaping i = escapingOf r h ((ofResolved r h).catchers i) i := by
  simp [escaping, catchers, ofResolved, ResolvedCode.indices, hi]

/-- What leaves the method from an instruction is what it may raise and no handler binds. -/
theorem mem_escaping_iff {code : List Inst} (resolves : ResolvedCode.Resolves code r) {inst : Inst}
    (hinst : r.inst? i = some inst)
    : t ∈ (ofResolved r h).escaping i ↔ t ∈ inst.raised h ∧ ¬ r.Bound h t i := by
  have hi : i < r.size := (Array.getElem?_eq_some_iff.mp hinst).1
  have hbound : ((ofResolved r h).catchers i).any (accepts r h t) = true ↔ r.Bound h t i := by
    rw [List.any_eq_true]
    constructor
    · intro ⟨handler, hcatcher, haccepts⟩
      obtain ⟨x, label, entries, hhandler, hsub⟩ := accepts_iff.mp haccepts
      exact ⟨handler, x, label, entries, (mem_catchers_iff_covers resolves hi).mp hcatcher,
        hhandler, hsub⟩
    · intro ⟨handler, x, label, entries, covers, hhandler, hsub⟩
      exact ⟨handler, (mem_catchers_iff_covers resolves hi).mpr covers,
        accepts_iff.mpr ⟨x, label, entries, hhandler, hsub⟩⟩
  rw [escaping_eq hi, escapingOf, hinst, List.mem_filter, ← hbound]
  simp

theorem parts_of_ofCode {code : List Inst} {hierarchy : Hierarchy} {g : FlowGraph}
    (accepted : ofCode code hierarchy = .ok g)
    : g.code.insts = (code.filter fun i => !i.isMarker).toArray
      ∧ g.code.labels = (ResolvedCode.places 0 code).reverse := by
  obtain ⟨r, hr, hg⟩ := except_bind_eq_ok.mp accepted
  cases hg
  have resolves := ResolvedCode.resolves_ofCode hr
  exact ⟨resolves.insts, resolves.labels⟩

/-- The types that leave the method from an instruction are those that it may raise and no handler
binds, and these are the ones that no entry accepts if the handlers bind types that they accept.
-/
theorem escaping_types_are_unhandled {code : List Inst} {hierarchy : Hierarchy} {g : FlowGraph}
    (accepted : ofCode code hierarchy = .ok g) {i : Nat} {inst : Inst}
    (hinst : g.code.inst? i = some inst)
    : (∀ t, t ∈ g.escaping i ↔ t ∈ inst.raised hierarchy ∧ ¬ g.code.Bound hierarchy t i)
      ∧ (g.code.BindsAccepted hierarchy (inst.raised hierarchy) i →
        ∀ t ∈ inst.raised hierarchy, t ∈ g.escaping i ↔ ¬ g.code.Handled hierarchy t i) := by
  obtain ⟨r, hr, hg⟩ := except_bind_eq_ok.mp accepted
  cases hg
  have resolves := ResolvedCode.resolves_ofCode hr
  refine ⟨fun t => mem_escaping_iff resolves hinst, ?_⟩
  intro binds t ht
  rw [mem_escaping_iff resolves hinst, and_iff_right ht]
  exact not_congr (binds.bound_iff_handled ht)

/-- Divides by zero. -/
def division : Inst :=
  .assign (.register (.fresh 0 .int))
    (.binary { op := .div, type := .int, left := .constant (.int 1), right := .constant (.int 0) })

/-- Two divisions, both in the range of a handler for one type, the second one also in that of a
handler for two types, which binds one of them.
-/
def dividesTwice : List Inst :=
  [.label ⟨0⟩, division, .label ⟨1⟩, division, .label ⟨2⟩, .returns none,
    .label ⟨3⟩, .catches (.register (.fresh 1 ⟨"java.io.IOException"⟩)) ⟨3⟩
      [⟨⟨"java.io.IOException"⟩, ⟨0⟩, ⟨2⟩⟩], .returns none,
    .label ⟨4⟩, .catches (.register (.fresh 2 .runtimeException)) ⟨4⟩
      [⟨⟨"java.io.IOException"⟩, ⟨1⟩, ⟨2⟩⟩, ⟨.runtimeException, ⟨1⟩, ⟨2⟩⟩], .returns none]

theorem raised_division
    : division.raised .standard = [.arithmeticException] := by
  decide +kernel

/-- The first division lets its exception out, the second one does not. -/
theorem second_division_handled
    : ∃ g, ofCode dividesTwice .standard = .ok g
      ∧ g.escaping 0 = [.arithmeticException] ∧ g.escaping 1 = []
      ∧ (∀ t ∈ division.raised .standard, t ∈ g.escaping 0 ↔ ¬ g.code.Handled .standard t 0)
      ∧ ∀ t ∈ division.raised .standard, t ∈ g.escaping 1 ↔ ¬ g.code.Handled .standard t 1 := by
  obtain ⟨g, accepted, hfirst, hsecond⟩ : ∃ g, ofCode dividesTwice .standard = .ok g
      ∧ g.escaping 0 = [.arithmeticException] ∧ g.escaping 1 = [] := by decide +kernel
  have hsub : Hierarchy.standard.isSubclass .arithmeticException ⟨"java.io.IOException"⟩
      = false := by decide +kernel
  obtain ⟨hinsts, hlabels⟩ := parts_of_ofCode accepted
  have hinst : ∀ i < 2, g.code.inst? i = some division := by
    intro i hi
    rw [ResolvedCode.inst?, hinsts]
    interval_cases i <;> rfl
  have hwide : ∀ t i, g.code.InRange ⟨t, ⟨0⟩, ⟨2⟩⟩ i ↔ 0 ≤ i ∧ i < 2 := fun t i =>
    ResolvedCode.inRange_iff (hlabels ▸ rfl) (hlabels ▸ rfl)
  have hnarrow : ∀ t i, g.code.InRange ⟨t, ⟨1⟩, ⟨2⟩⟩ i ↔ 1 ≤ i ∧ i < 2 := fun t i =>
    ResolvedCode.inRange_iff (hlabels ▸ rfl) (hlabels ▸ rfl)
  have binds : ∀ i < 2, g.code.BindsAccepted .standard (division.raised .standard) i := by
    intro i hi handler x label entries covers hhandler
    obtain ⟨-, x', label', entries', hhandler', e, he, hrange⟩ := covers
    cases hhandler.symm.trans hhandler'
    rw [ResolvedCode.inst?, hinsts, List.getElem?_toArray] at hhandler
    have hlt : handler < 7 := (List.getElem?_eq_some_iff.mp hhandler).1
    have hcatches : handler = 3 ∨ handler = 5 := by
      interval_cases handler <;> cases hhandler <;> simp
    rcases hcatches with rfl | rfl
    · cases hhandler
      simp [hwide, hi, raised_division, hsub, Value.type, Register.fresh]
    · cases hhandler
      have hone : 1 ≤ i := by
        simp only [List.mem_cons, List.not_mem_nil, or_false] at he
        rcases he with rfl | rfl <;> exact ((hnarrow _ i).mp hrange).1
      simp [hnarrow, hi, hone, raised_division, hsub, Value.type, Register.fresh]
  exact ⟨g, accepted, hfirst, hsecond,
    (escaping_types_are_unhandled accepted (hinst 0 (by decide))).2 (binds 0 (by decide)),
    (escaping_types_are_unhandled accepted (hinst 1 (by decide))).2 (binds 1 (by decide))⟩

/-- A division in the range of a handler for two types, neither of which it can raise. -/
def dividesAmongOthers : List Inst :=
  [.label ⟨0⟩, division, .label ⟨1⟩, .returns none,
    .label ⟨2⟩, .catches (.register (.fresh 1 .throwable)) ⟨2⟩
      [⟨⟨"java.io.IOException"⟩, ⟨0⟩, ⟨1⟩⟩, ⟨⟨"java.lang.InterruptedException"⟩, ⟨0⟩, ⟨1⟩⟩],
    .returns none]

/-- The handler binds a type above the one that it does not accept, so nothing leaves the method. -/
theorem unaccepted_division_counts_as_handled
    : ∃ g, ofCode dividesAmongOthers .standard = .ok g
      ∧ g.code.inst? 0 = some division ∧ .arithmeticException ∈ division.raised .standard
      ∧ g.escaping 0 = [] ∧ ¬ g.code.Handled .standard .arithmeticException 0 := by
  obtain ⟨g, accepted, hescaping⟩ : ∃ g, ofCode dividesAmongOthers .standard = .ok g
      ∧ g.escaping 0 = [] := by decide +kernel
  obtain ⟨hinsts, -⟩ := parts_of_ofCode accepted
  refine ⟨g, accepted, ?_, by simp [raised_division], hescaping, ?_⟩
  · rw [ResolvedCode.inst?, hinsts]
    rfl
  · rintro ⟨handler, x, label, entries, _, hhandler, e, he, _, hsub⟩
    rw [ResolvedCode.inst?, hinsts, List.getElem?_toArray] at hhandler
    have hlt : handler < 4 := (List.getElem?_eq_some_iff.mp hhandler).1
    obtain rfl : handler = 2 := by
      interval_cases handler <;> cases hhandler
      rfl
    cases hhandler
    have hother : ∀ t ∈ [⟨"java.io.IOException"⟩, ⟨"java.lang.InterruptedException"⟩],
        Hierarchy.standard.isSubclass .arithmeticException t = false := by decide +kernel
    rw [hother e.accepted] at hsub
    · cases hsub
    · simp only [List.mem_cons, List.not_mem_nil, or_false] at he
      rcases he with rfl | rfl <;> simp

end FlowGraph

end StackLift
