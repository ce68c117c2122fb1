import StackLift.Proofs.SimulatedNodes

/-!
Frames that match memories. A valuation gives each value of a frame a datum. Executing an operation
on a memory and simulating it on a frame that matches the memory lead to a frame and a memory that
match again, under the valuation that the code of the node leads to.
-/

namespace StackLift

open StackMachine RegisterMachine

variable {D : Type} {R R' : Value → Datum D → Prop} {f f' : Frame} {S S' : Shape} {μ μ' : Memory D}
  {v w : Value} {d : Datum D} {k : Datum Unit} {slot index : Nat}

-- Slots

theorem Frame.local?_putLocal (f : Frame) (slot : Nat) (v : Value) (index : Nat)
    : (f.putLocal slot v).local? index = if index = slot then some v else f.local? index := by
  unfold Frame.local? Frame.putLocal
  by_cases hindex : index = slot
  · subst hindex
    have hlength :
        index < (f.locals ++ List.replicate (index + 1 - f.locals.length) none).length := by
      simp
      omega
    rw [if_pos rfl, List.getElem?_set_self hlength]
    rfl
  · rw [if_neg hindex, List.getElem?_set_ne (Ne.symm hindex)]
    by_cases hlt : index < f.locals.length
    · rw [List.getElem?_append_left hlt]
    · rw [List.getElem?_append_right (Nat.le_of_not_lt hlt),
        List.getElem?_eq_none (Nat.le_of_not_lt hlt)]
      cases h : (List.replicate (slot + 1 - f.locals.length) (none : Option Value))[index
          - f.locals.length]? with
      | none => rfl
      | some entry => rw [List.eq_of_mem_replicate (List.mem_of_getElem? h)]; rfl

variable {kind : ValueKind}

namespace StackMachine.Memory

theorem local?_store (μ : Memory D) (slot : Nat) (d : Datum D) (index : Nat)
    : (μ.store slot d).local? index = μ.stored slot d index := by
  by_cases hlt : index < max μ.locals.length (slot + 1)
  · simp [local?, store, List.getElem?_map, List.getElem?_range hlt]
  · have hnone : μ.local? index = none := by
      simp [local?, List.getElem?_eq_none (show μ.locals.length ≤ index by omega)]
    have hslot : index ≠ slot ∧ index + 1 ≠ slot := by omega
    have hrange : (List.range (max μ.locals.length (slot + 1)))[index]? = none :=
      List.getElem?_eq_none (by simpa using hlt)
    rw [stored, if_neg hslot.1, if_neg hslot.2, hnone, ite_self]
    simp [local?, store, hrange]

/-- A slot after a store holds the stored value or is as before. -/
theorem local?_store_cases {e : Datum D} (h : (μ.store slot d).local? index = some e)
    : index = slot ∧ e = d
      ∨ index ≠ slot ∧ μ.local? index = some e ∧ (index = slot + 1 → d.isWide = false)
        ∧ (index + 1 = slot → e.isWide = false) := by
  rw [local?_store] at h
  unfold stored at h
  split at h
  next hindex => exact .inl ⟨hindex, (Option.some.inj h).symm⟩
  next hindex =>
    refine .inr ⟨hindex, ?_⟩
    split at h
    next => cases h
    next hwide =>
      split at h
      next hbefore =>
        obtain ⟨hlocal, he⟩ := Option.filter_eq_some_iff.mp h
        exact ⟨hlocal, by simpa using hwide, fun _ => by simpa using he⟩
      next hbefore => exact ⟨h, by simpa using hwide, fun hi => absurd hi hbefore⟩

theorem local?_store_of_ne {e : Datum D} (hindex : index ≠ slot) (hlocal : μ.local? index = some e)
    (hwide : index = slot + 1 → d.isWide = false) (hbefore : index + 1 = slot → e.isWide = false)
    : (μ.store slot d).local? index = some e := by
  rw [local?_store]
  unfold stored
  rw [if_neg hindex, if_neg (by simpa using hwide)]
  split
  next hi => exact Option.filter_eq_some_iff.mpr ⟨hlocal, by simp [hbefore hi]⟩
  next => exact hlocal

theorem local?_store_self (μ : Memory D) (slot : Nat) (d : Datum D)
    : (μ.store slot d).local? slot = some d := by
  rw [local?_store, stored, if_pos rfl]

theorem pop_eq_some (h : μ.pop kind = some (d, μ'))
    : ∃ rest, μ.stack = d :: rest ∧ d.kind = kind ∧ μ' = { μ with stack := rest } := by
  unfold Memory.pop at h
  split at h
  next e rest hstack =>
    split at h
    next hkind =>
      cases h
      exact ⟨rest, hstack, hkind, rfl⟩
    next => cases h
  next => cases h

end StackMachine.Memory

-- Matches

/-- The stacks hold related values, and so do the slots that are usable in the shape. -/
structure Frame.Matches (R : Value → Datum D → Prop) (f : Frame) (S : Shape) (μ : Memory D) :
    Prop where
  stack : List.Forall₂ R f.stack μ.stack
  locals : ∀ {slot k}, S.local? slot = some k → ∃ v d, f.local? slot = some v
    ∧ μ.local? slot = some d ∧ d.kind = k.kind ∧ R v d

namespace Frame.Matches

variable (h : f.Matches R S μ)
include h

theorem imp (himp : ∀ {v d}, f.Has v → R v d → R' v d)
    : f.Matches R' S μ where
  stack := (List.forall₂_and_left _ _ |>.mpr ⟨fun v hv => .inr hv, h.stack⟩).imp
    fun _ _ both => himp both.1 both.2
  locals hk := by
    obtain ⟨v, d, hv, hd, hkind, hR⟩ := h.locals hk
    exact ⟨v, d, hv, hd, hkind, himp (@Frame.has_of_place _ _ (.slot _) hv) hR⟩

theorem withStack {stack : List Value} {stack' : List (Datum D)}
    (hstack : List.Forall₂ R stack stack') (hS : S'.locals = S.locals)
    : ({ f with stack } : Frame).Matches R S' { μ with stack := stack' } where
  stack := hstack
  locals hk := h.locals (by rwa [Memory.local?, hS] at hk)

theorem push (hv : R v d) (k : Datum Unit)
    : (f.push v).Matches R (S.push k) (μ.push d) :=
  h.withStack (.cons hv h.stack) rfl

/-- Where both memories pop a value and go on, they pop what matches the top of the stack. -/
theorem pop {α β : Type} {a : α} {b : β} {g : Datum D × Memory D → Option α}
    {g' : Datum Unit × Shape → Option β} {rest : List Value} (hstack : f.stack = v :: rest)
    (hμ : (μ.pop kind).bind g = some a) (hS : (S.pop kind).bind g' = some b)
    : ∃ d μ' k S', g (d, μ') = some a ∧ g' (k, S') = some b ∧ R v d ∧ d.kind = kind
      ∧ k.kind = kind ∧ ({ f with stack := rest } : Frame).Matches R S' μ' := by
  obtain ⟨⟨d, μ'⟩, hμ, ha⟩ := Option.bind_eq_some_iff.mp hμ
  obtain ⟨⟨k, S'⟩, hS, hb⟩ := Option.bind_eq_some_iff.mp hS
  obtain ⟨others, hd, hkind, rfl⟩ := Memory.pop_eq_some hμ
  obtain ⟨others', -, hkind', rfl⟩ := Memory.pop_eq_some hS
  have hall := h.stack
  rw [hstack, hd] at hall
  obtain ⟨hv, hrest⟩ := List.forall₂_cons.mp hall
  exact ⟨d, _, k, _, ha, hb, hv, hkind, hkind', h.withStack hrest rfl⟩

/-- A store changes a slot, and may make the slot next to it unusable. -/
theorem stored (hstack : List.Forall₂ R' f'.stack μ.stack)
    (hslot : f'.local? slot = some v) (hv : R' v d) (hk : d.kind = k.kind)
    (hother : ∀ {index w e}, index ≠ slot → f.local? index = some w → R w e →
      f'.local? index = some w ∧ R' w e)
    : f'.Matches R' (S.store slot k) (μ.store slot d) where
  stack := hstack
  locals {index e} he := by
    obtain ⟨rfl, rfl⟩ | ⟨hindex, hlocal, hwide, hbefore⟩ := Memory.local?_store_cases he
    · exact ⟨v, d, hslot, Memory.local?_store_self .., hk, hv⟩
    · obtain ⟨w, e', hw, he', hkind, hR⟩ := h.locals hlocal
      obtain ⟨hw', hR'⟩ := hother hindex hw hR
      refine ⟨w, e', hw', Memory.local?_store_of_ne hindex he' ?_ ?_, hkind, hR'⟩
      · intro hi
        rw [Datum.isWide, hk]
        exact hwide hi
      · intro hi
        rw [Datum.isWide, hkind]
        exact hbefore hi

theorem store (hv : R v d) (hk : d.kind = k.kind) (slot : Nat)
    : (f.putLocal slot v).Matches R (S.store slot k) (μ.store slot d) := by
  refine h.stored h.stack ?_ hv hk fun {index w e} hindex hw hR => ⟨?_, hR⟩
  · rw [Frame.local?_putLocal, if_pos rfl]
  · rw [Frame.local?_putLocal, if_neg hindex, hw]

end Frame.Matches

-- Shuffles

variable {s : Shuffle}

theorem StackMachine.rearrange_eq_some {α : Type} {wide : α → Bool} {stack after : List α}
    (h : rearrange wide s stack = some after)
    : ∃ form ∈ forms s, ∃ top rest, stack = top ++ rest ∧ top.map wide = form.taken
        ∧ after = form.apply stack := by
  obtain ⟨form, hform, rfl⟩ := Option.map_eq_some_iff.mp h
  have hfits := List.find?_some hform
  have hfits : (stack.take form.taken.length).map wide = form.taken := of_decide_eq_true hfits
  exact ⟨form, List.mem_of_find?_eq_some hform, stack.take form.taken.length,
    stack.drop form.taken.length, (List.take_append_drop _ _).symm, hfits, rfl⟩

/-- A form that fits tells what a shuffle does. -/
theorem Shuffle.apply_of_form {form : Form} {top rest : List Value} (hform : form ∈ forms s)
    (htop : top.map Value.isWide = form.taken)
    : s.apply (top ++ rest) = some (form.apply (top ++ rest)) := by
  cases s <;> simp only [forms, List.mem_cons, List.not_mem_nil, or_false] at hform
  all_goals
    rcases hform with rfl | rfl | rfl | rfl | rfl
    all_goals
      rcases top with _ | ⟨a, _ | ⟨b, _ | ⟨c, _ | ⟨e, _ | ⟨g, top⟩⟩⟩⟩⟩ <;>
        simp_all [Form.apply, Shuffle.apply, Shuffle.under3, Shuffle.twice, Shuffle.pairUnder1,
          Shuffle.pairUnder2]

theorem Shuffle.apply_of_rearrange {stack after : List Value}
    (h : rearrange Value.isWide s stack = some after)
    : s.apply stack = some after := by
  obtain ⟨form, hform, top, rest, rfl, htop, rfl⟩ := rearrange_eq_some h
  exact apply_of_form hform htop

theorem forall₂_filterMap_getElem? {stack : List Value} {stack' : List (Datum D)}
    (h : List.Forall₂ R stack stack') (indices : List Nat)
    : List.Forall₂ R (indices.filterMap fun i => stack[i]?)
        (indices.filterMap fun i => stack'[i]?) := by
  induction indices with
  | nil => exact .nil
  | cons i rest ih =>
      by_cases hi : i < stack.length
      · have hi' : i < stack'.length := h.length_eq ▸ hi
        rw [List.filterMap_cons_some (List.getElem?_eq_getElem hi),
          List.filterMap_cons_some (List.getElem?_eq_getElem hi')]
        exact .cons (h.get hi hi') ih
      · have hi' : ¬ i < stack'.length := h.length_eq ▸ hi
        rw [List.filterMap_cons_none (List.getElem?_eq_none (Nat.le_of_not_lt hi)),
          List.filterMap_cons_none (List.getElem?_eq_none (Nat.le_of_not_lt hi'))]
        exact ih

/-- Related stacks are shuffled in the same way. -/
theorem forall₂_of_shuffle {stack after : List Value} {stack' after' : List (Datum D)}
    (h : List.Forall₂ R stack stack') (hwide : ∀ {v d}, R v d → v.isWide = d.isWide)
    (hafter : s.apply stack = some after) (hafter' : rearrange Datum.isWide s stack' = some after')
    : List.Forall₂ R after after' := by
  have hfits : ∀ form : Form, form.fits Value.isWide stack = form.fits Datum.isWide stack' := by
    intro form
    have hmap : (stack.take form.taken.length).map Value.isWide
        = (stack'.take form.taken.length).map Datum.isWide := by
      have htake := List.forall₂_take form.taken.length h
      rw [← List.forall₂_eq_eq_eq, List.forall₂_map_left_iff, List.forall₂_map_right_iff]
      exact htake.imp fun _ _ => hwide
    rw [Form.fits, Form.fits, hmap]
  obtain ⟨form, hform, rfl⟩ := Option.map_eq_some_iff.mp hafter'
  have hsame : rearrange Value.isWide s stack = some (form.apply stack) := by
    rw [rearrange, funext hfits, hform]
    rfl
  obtain rfl := Option.some.inj ((Shuffle.apply_of_rearrange hsame).symm.trans hafter)
  exact List.rel_append (forall₂_filterMap_getElem? h _) (List.forall₂_drop _ h)

-- Valuations

/-- The value has a type of the kind of the datum, and the datum under the valuation. -/
structure Value.Denotes (ev : Value → Datum D) (v : Value) (d : Datum D) : Prop where
  kind : v.type.HasKind d.kind
  datum : ev v = d

theorem Value.Denotes.isWide {ev : Value → Datum D} (h : v.Denotes ev d)
    : v.isWide = d.isWide := by
  rw [Value.isWide, TypeName.isWide_eq, h.kind.eq]
  rfl

/-- Does the expression compute with primitive values? -/
def Expr.isComputed : Expr → Bool
  | .value _ | .binary _ | .negate .. | .cast .. => true
  | _ => false

variable {r : Register}

namespace RegisterMachine

variable {I : Interpretation (Datum D)} {ev ev' ev₁ : Value → Datum D}

/-- The datum of an expression that computes with primitive values. -/
def Interpretation.expr? (I : Interpretation (Datum D)) (ev : Value → Datum D) :
    Expr → Option (Datum D)
  | .value v => some (ev v)
  | .binary b => some (I.binary b.op b.type (ev b.left) (ev b.right))
  | .negate type v => some (I.negate type (ev v))
  | .cast type v => some (I.cast type (ev v))
  | _ => none

theorem Interpretation.exists_expr (I : Interpretation (Datum D)) (ev : Value → Datum D) {e : Expr}
    (h : e.isComputed = true)
    : ∃ d, I.expr? ev e = some d := by
  cases e <;> first | exact ⟨_, rfl⟩ | cases h

/-- The second valuation differs from the first one in a register. -/
structure Assigned (ev : Value → Datum D) (r : Register) (d : Datum D) (ev' : Value → Datum D) :
    Prop where
  target : ev' (.register r) = d
  other : ∀ {v}, v.isSimple = true → ¬ v.Same (.register r) → ev' v = ev v

/-- Assignments lead from one valuation to another. -/
inductive Evaluates (I : Interpretation (Datum D)) :
    (Value → Datum D) → List Inst → (Value → Datum D) → Prop
  | nil {ev : Value → Datum D} : Evaluates I ev [] ev
  | assign {ev ev₁ ev' : Value → Datum D} {r : Register} {e : Expr} {d : Datum D}
    {rest : List Inst} : I.expr? ev e = some d → Assigned ev r d ev₁ → Evaluates I ev₁ rest ev' →
    Evaluates I ev (.assign (.register r) e :: rest) ev'

theorem Evaluates.single {e : Expr} (h : Evaluates I ev [.assign (.register r) e] ev')
    : ∃ d, I.expr? ev e = some d ∧ Assigned ev r d ev' := by
  cases h with
  | assign hd hassigned hrest =>
      cases hrest
      exact ⟨_, hd, hassigned⟩

/-- There is a valuation that differs from another one in a register. -/
theorem exists_assigned (ev : Value → Datum D) (r : Register) (d : Datum D)
    : ∃ ev', Assigned ev r d ev' := by
  refine ⟨fun v => if v.Same (.register r) then d else ev v, ?_, fun {v} _ hne => ?_⟩
  · exact if_pos (by simp [Value.Same])
  · exact if_neg hne

end RegisterMachine

/-- Code that assigns registers only, without any action. -/
inductive Computing : List Inst → Prop
  | nil : Computing []
  | assign {r : Register} {e : Expr} {rest : List Inst} : e.isComputed = true → Computing rest →
    Computing (.assign (.register r) e :: rest)

theorem Computing.evaluates {insts : List Inst} (h : Computing insts)
    (I : Interpretation (Datum D)) (ev : Value → Datum D)
    : ∃ ev', Evaluates I ev insts ev' := by
  induction h generalizing ev with
  | nil => exact ⟨ev, .nil⟩
  | @assign r e rest he _ ih =>
      obtain ⟨d, hd⟩ := I.exists_expr ev he
      obtain ⟨ev₁, hassigned⟩ := exists_assigned ev r d
      obtain ⟨ev', hrest⟩ := ih ev₁
      exact ⟨ev', .assign hd hassigned hrest⟩

-- Stores

/-- The variables that type the register of a store have types of a kind. -/
structure Plan.TellsKind (p : Plan) (node slot : Nat) (kind : ValueKind) : Prop where
  declared : ∀ {v}, p.declaredVariable? slot node = some v → v.type.HasKind kind
  covering : kind = .reference → ∀ {v}, p.variableAt? slot node = some v → v.type.HasKind kind

variable {p : Plan} {node next next' : Nat} {insts : List Inst} {M : Meaning D}
  {I : Interpretation (Datum D)} {ev ev' : Value → Datum D}

theorem TypeName.HasKind.eq_reference {t : TypeName} (h : t.HasKind kind) (hnull : t = .null)
    : kind = .reference := by
  rw [← h.eq, hnull]
  rfl

theorem TypeName.hasKind_of_not_isPrimitive {t : TypeName} (h : t.isPrimitive = false)
    (hne : t ≠ .top)
    : t.HasKind .reference := by
  refine ⟨TypeName.isUsable_iff.mpr ⟨hne, ?_⟩, TypeName.kind_reference_of_not_isPrimitive h⟩
  rintro rfl
  cases h

theorem StoreType.hasKind {t : TypeName} (h : StoreType p node slot f w t)
    (hw : w.type.HasKind kind) (tells : p.TellsKind node slot kind)
    (hold : ∀ {v}, f.local? slot = some v → v.type ≠ .top)
    : t.HasKind kind := by
  cases h with
  | value => exact hw
  | declared hv => exact tells.declared hv
  | covering hnull hv => exact tells.covering (hw.eq_reference hnull) hv
  | old hnull hv hreference =>
      rw [hw.eq_reference hnull]
      exact TypeName.hasKind_of_not_isPrimitive hreference (hold hv)
  | object hnull =>
      rw [hw.eq_reference hnull]
      decide

/-- A value stays as it is when a register is assigned that is another value. -/
theorem Value.Denotes.assigned {e : Datum D} (h : v.Denotes ev d) (hassigned : Assigned ev r e ev')
    (hsimple : v.isSimple = true) (hne : ¬ v.Same (.register r))
    : v.Denotes ev' d :=
  ⟨h.kind, (hassigned.other hsimple hne).trans h.datum⟩

theorem Value.Below.not_same {bound : Nat} (h : v.Below bound) (hr : bound ≤ r.index)
    : ¬ v.Same (.register r) := by
  intro hsame
  obtain ⟨q, rfl, hq⟩ := Value.same_register_iff.mp hsame
  have hlt := Value.within_register.mp h.within
  have heq := Register.index_eq_of_key hq
  omega

theorem Frame.not_same_of_usedInStack (h : f.usedInStack (.register r) = false) (hv : v ∈ f.stack)
    : ¬ v.Same (.register r) := by
  have := List.any_eq_false.mp h v hv
  simpa using this

theorem Frame.not_same_of_usedInOtherLocals (h : f.usedInOtherLocals (.register r) slot = false)
    (hindex : index ≠ slot) (hv : f.local? index = some v)
    : ¬ v.Same (.register r) := by
  have hmem : (some v, index) ∈ f.locals.zipIdx :=
    List.mk_mem_zipIdx_iff_getElem?.mpr (Frame.local?_eq_some_iff.mp hv)
  have := List.any_eq_false.mp h _ hmem
  simpa [hindex, Value.Same] using this

theorem Stores.computing (h : Stores p node slot f w next next' insts f')
    : Computing insts := by
  cases h with
  | keep => exact .nil
  | make | reuse => exact .assign rfl .nil

theorem Stores.matches (h : Stores p node slot f w next next' insts f')
    (hm : f.Matches (Value.Denotes ev) S μ) (hbelow : ∀ {v}, f.Has v → v.Below next)
    (hw : w.Denotes ev d) (hk : d.kind = k.kind) (tells : p.TellsKind node slot d.kind)
    (hold : ∀ {v}, f.local? slot = some v → v.type ≠ .top) (hev : Evaluates I ev insts ev')
    : f'.Matches (Value.Denotes ev') (S.store slot k) (μ.store slot d) := by
  cases h with
  | keep =>
      cases hev
      exact hm.store hw hk slot
  | @make r hle hlt htype =>
      obtain ⟨e, he, hassigned⟩ := hev.single
      obtain rfl : ev w = e := Option.some.inj he
      refine (hm.imp fun {v e} hv hd => ?_).store ⟨?_, ?_⟩ hk slot
      · exact hd.assigned hassigned (hbelow hv).simple ((hbelow hv).not_same hle)
      · exact htype.hasKind hw.kind tells hold
      · exact hassigned.target.trans hw.datum
  | @reuse r hslot hstack hlocals htypes =>
      obtain ⟨e, he, hassigned⟩ := hev.single
      obtain rfl : ev w = e := Option.some.inj he
      have hr : (Value.register r).Denotes ev' d := by
        refine ⟨?_, hassigned.target.trans hw.datum⟩
        rcases htypes with htype | ⟨hnull, hreference⟩
        · rw [show (Value.register r).type = w.type from htype]
          exact hw.kind
        · rw [hw.kind.eq_reference hnull]
          exact TypeName.hasKind_of_not_isPrimitive hreference (hold hslot)
      refine hm.stored ?_ hslot hr hk fun {index v e} hindex hv hd => ⟨hv, ?_⟩
      · refine (List.forall₂_and_left _ _ |>.mpr ⟨fun v hv => hv, hm.stack⟩).imp
          fun v e both => both.2.assigned hassigned (hbelow (.inr both.1)).simple ?_
        exact Frame.not_same_of_usedInStack hstack both.1
      · exact hd.assigned hassigned (hbelow (@Frame.has_of_place _ _ (.slot index) hv)).simple
          (Frame.not_same_of_usedInOtherLocals hlocals hindex hv)

-- Operations

/-- The slot that an operation writes. -/
def StackMachine.Operation.writes? : Operation → Option Nat
  | .store _ slot | .increment slot _ => some slot
  | _ => none

theorem Performs.computing {operation : Operation}
    (h : Performs p node f next next' operation insts f')
    : Computing insts := by
  cases h with
  | nothing | push | load | shuffle => exact .nil
  | pushMade => exact .assign rfl .nil
  | store _ hstores => exact hstores.computing
  | compute hcomputes => cases hcomputes <;> exact .assign rfl .nil
  | increment _ _ _ _ _ hstores => exact .assign rfl hstores.computing

/-- An operation leads to a frame and a memory that match again. -/
theorem Performs.matches {operation : Operation}
    (h : Performs p node f next next' operation insts f') (follows : I.Follows M)
    (hm : f.Matches (Value.Denotes ev) S μ) (hbelow : ∀ {v}, f.Has v → v.Below next)
    (hconstant : ∀ c, ev (.constant c) = I.constant c)
    (hμ : operation.apply M μ = some μ') (hS : operation.apply .ofKinds S = some S')
    (tells : ∀ {slot k}, operation.writes? = some slot → S'.local? slot = some k →
      p.TellsKind node slot k.kind)
    (hold : ∀ {slot v}, f.local? slot = some v → v.type ≠ .top) (hev : Evaluates I ev insts ev')
    : f'.Matches (Value.Denotes ev') S' μ' := by
  -- A register that is made leaves the values of the frame as they are.
  have hkept : ∀ {r : Register} {d ev₁}, Assigned ev r d ev₁ → next ≤ r.index →
      f.Matches (fun v d => v.Denotes ev d ∧ v.Denotes ev₁ d) S μ := fun hassigned hle =>
    hm.imp fun hv hd => ⟨hd, hd.assigned hassigned (hbelow hv).simple ((hbelow hv).not_same hle)⟩
  cases h with
  | nothing =>
      cases hμ
      cases hS
      cases hev
      exact hm
  | @push c k hstands =>
      cases hμ
      cases hS
      cases hev
      have hdatum := (hconstant c).trans (follows.constant hstands)
      exact @Frame.Matches.push _ _ _ _ _ (.constant c) (M.datum k) hm ⟨hstands.hasKind, hdatum⟩ _
  | @pushMade c k r hstands hle hlt htype =>
      cases hμ
      cases hS
      obtain ⟨e, he, hassigned⟩ := hev.single
      obtain rfl : ev (.constant c) = e := Option.some.inj he
      refine ((hkept hassigned hle).imp fun _ => And.right).push ⟨?_, ?_⟩ _
      · rw [show (Value.register r).type = c.type from htype]
        exact hstands.hasKind
      · exact hassigned.target.trans ((hconstant c).trans (follows.constant hstands))
  | @load kind slot v hslot =>
      obtain ⟨d, hd, rfl⟩ := Option.map_eq_some_iff.mp hμ
      obtain ⟨k, hk, rfl⟩ := Option.map_eq_some_iff.mp hS
      obtain ⟨w, e, hw, he, -, hdenotes⟩ := hm.locals (Option.filter_eq_some_iff.mp hk).1
      obtain rfl : w = v := Option.some.inj (hw.symm.trans hslot)
      obtain rfl : e = d := Option.some.inj (he.symm.trans (Option.filter_eq_some_iff.mp hd).1)
      cases hev
      exact hm.push hdenotes k
  | @store kind slot v rest insts f' hstack hstores =>
      obtain ⟨d, μ₁, k, S₁, hμ, hS, hv, hd, hk, hrest⟩ := hm.pop hstack hμ hS
      cases hμ
      cases hS
      have hsame : d.kind = k.kind := hd.trans hk.symm
      refine hstores.matches hrest (fun {u} hu => ?_) hv hsame ?_ hold hev
      · exact hbelow (hu.of_stack (by simp [hstack]))
      · rw [hsame]
        exact tells rfl (Memory.local?_store_self ..)
  | shuffle hstack =>
      obtain ⟨after, hafter, rfl⟩ := Option.map_eq_some_iff.mp hμ
      obtain ⟨_, -, rfl⟩ := Option.map_eq_some_iff.mp hS
      cases hev
      exact hm.withStack (forall₂_of_shuffle hm.stack Value.Denotes.isWide hstack hafter) rfl
  | @compute operation taken rest e r hcomputes hstack hle hlt htype =>
      obtain ⟨d, hd, hassigned⟩ := hev.single
      have hm' := hkept hassigned hle
      have hr : ∀ {kind : ValueKind} {content : D}, e.type.HasKind kind → d = ⟨kind, content⟩ →
          (Value.register r).Denotes ev' ⟨kind, content⟩ := by
        intro kind content hkind hdatum
        refine ⟨?_, hassigned.target.trans hdatum⟩
        rw [show (Value.register r).type = e.type from htype]
        exact hkind
      cases hcomputes with
      | @negate number v =>
          obtain ⟨c, μ₁, k, S₁, hμ, hS, ⟨hv, -⟩, hkind, -, hrest⟩ := hm'.pop hstack hμ hS
          cases hμ
          cases hS
          have hresult := (hkind ▸ hv.kind : v.type.HasKind number.valueKind).wider_int
          refine (hrest.imp fun _ => And.right).push (hr hresult ?_) _
          rw [← Option.some.inj hd, hv.datum, follows.negate, hresult.eq]
      | @convert conversion v =>
          obtain ⟨c, μ₁, k, S₁, hμ, hS, ⟨hv, -⟩, hkind, -, hrest⟩ := hm'.pop hstack hμ hS
          cases hμ
          cases hS
          refine (hrest.imp fun _ => And.right).push (hr conversion.hasKind_name ?_) _
          rw [← Option.some.inj hd, hv.datum, follows.cast conversion c hkind]
      | @binary op left right result v w type htypes =>
          obtain ⟨c, μ₁, k, S₁, hμ, hS, ⟨hw, -⟩, hkind, -, hrest⟩ := hm'.pop hstack hμ hS
          obtain ⟨c', μ₂, k', S₂, hμ, hS, ⟨hv, -⟩, hkind', -, hrest⟩ := hrest.pop rfl hμ hS
          cases hμ
          cases hS
          have hresult := htypes (hkind' ▸ hv.kind) (hkind ▸ hw.kind)
          refine (hrest.imp fun _ => And.right).push (hr hresult ?_) _
          rw [← Option.some.inj hd, hv.datum, hw.datum, follows.binary, hresult.eq]
  | @increment slot middle amount v r insts f' hslot hle hlt hmiddle htype hstores =>
      obtain ⟨d, hd, rfl⟩ := Option.map_eq_some_iff.mp hμ
      obtain ⟨k, hk, rfl⟩ := Option.map_eq_some_iff.mp hS
      obtain ⟨hd, hint⟩ := Option.filter_eq_some_iff.mp hd
      obtain ⟨w, e, hw, he, -, hdenotes⟩ := hm.locals (Option.filter_eq_some_iff.mp hk).1
      obtain rfl : w = v := Option.some.inj (hw.symm.trans hslot)
      obtain rfl : e = d := Option.some.inj (he.symm.trans hd)
      cases hev with
      | assign hsum hassigned hev =>
          have hkind : w.type.HasKind .int := by
            have hkind := hdenotes.kind
            rwa [of_decide_eq_true hint] at hkind
          have hresult : (w.type.binaryResult .int).HasKind .int :=
            @TypeName.HasKind.binaryResult _ _ .int hkind (by decide)
          refine hstores.matches ((hkept hassigned hle).imp fun _ => And.right)
            (fun hv => (hbelow hv).mono ?_) ⟨?_, ?_⟩ rfl ?_ hold hev
          · exact Nat.le_trans hle (Nat.le_of_lt hlt)
          · rw [show (Value.register r).type = w.type.binaryResult .int from htype]
            exact hresult
          · rw [hassigned.target, ← Option.some.inj hsum]
            show I.binary .add (w.type.binaryResult .int) (ev w) (ev _) = _
            rw [hdenotes.datum, hconstant, follows.constant (.int _)]
            exact (follows.binary (.arithmetic .add) ..).trans (by rw [hresult.eq])
          · exact tells rfl (Memory.local?_store_self ..)

-- Branches

variable {labels : List (Label × CodeLabel)} {after : Option Node} {b : Branch}
  {go : Next D} {go' : Next Unit}

/-- Code that goes where a branch goes, by the data of the values that it reads. -/
inductive Directs (M : Meaning D) (ev : Value → Datum D) (labels : List (Label × CodeLabel))
    (after : Option Node) : Next D → List Inst → Prop
  | returnVoid : Directs M ev labels after (.returns none) [.returns none]
  | returnValue {v : Value} :
    Directs M ev labels after (.returns (some (ev v))) [.returns (some v)]
  | goto {target : Label} {c : CodeLabel} : labels.lookup target = some c →
    Directs M ev labels after (.jumps target) [.jump c]
  | compare {comparison : Comparison} {v w : Value} {target : Label} {c c' : CodeLabel}
    {rest : List Inst} : labels.lookup target = some c → GoesOn labels after c' rest →
    Directs M ev labels after (.ofCondition (M.holds comparison (ev v) (ev w)) target)
      (.branch { op := comparison.symbol, type := .boolean, left := v, right := w } c c' :: rest)
  | switch {key : Value} {targets : List (Int32 × Label)} {default : Label}
    {cases : List (Value × CodeLabel)} {c : CodeLabel} :
    List.Forall₂ (fun t case => case.1 = .constant (.int t.1) ∧ labels.lookup t.2 = some case.2)
      targets cases →
    labels.lookup default = some c →
    Directs M ev labels after (.jumps (M.select (ev key) targets default)) [.switch key cases c]

/-- A branch leaves a frame that matches the memory, and its code goes where the memory tells. -/
theorem Leaves.matches (h : Leaves labels after f b insts f') (follows : I.Follows M)
    (hm : f.Matches (Value.Denotes ev) S μ) (hconstant : ∀ c, ev (.constant c) = I.constant c)
    (hμ : executeBranch M μ b = some (μ', go)) (hS : executeBranch .ofKinds S b = some (S', go'))
    : f'.Matches (Value.Denotes ev) S' μ' ∧ Directs M ev labels after go insts := by
  cases h with
  | returnVoid =>
      cases hμ
      cases hS
      exact ⟨hm, .returnVoid⟩
  | @returnValue kind v rest hstack =>
      obtain ⟨d, μ₁, k, S₁, hμ, hS, hv, -, -, hrest⟩ := hm.pop hstack hμ hS
      cases hμ
      cases hS
      rw [← hv.datum]
      exact ⟨hrest, .returnValue⟩
  | goto hc =>
      cases hμ
      cases hS
      exact ⟨hm, .goto hc⟩
  | @compare b taken rest comparison v w target c c' after hcompares hstack hc hgoes =>
      cases hcompares with
      | ifZero =>
          obtain ⟨d, μ₁, k, S₁, hμ, hS, hv, hkind, -, hrest⟩ := hm.pop hstack hμ hS
          cases hμ
          cases hS
          have hzero := Constant.StandsFor.zero (hkind ▸ hv.kind : v.type.HasKind .int)
          rw [← hv.datum, ← follows.constant hzero, ← hconstant]
          exact ⟨hrest, .compare hc hgoes⟩
      | ifInt | ifReference =>
          obtain ⟨e, μ₁, k, S₁, hμ, hS, hw, -, -, hrest⟩ := hm.pop hstack hμ hS
          obtain ⟨d, μ₂, k₂, S₂, hμ, hS, hv, -, -, hrest⟩ := hrest.pop rfl hμ hS
          cases hμ
          cases hS
          rw [← hv.datum, ← hw.datum]
          exact ⟨hrest, .compare hc hgoes⟩
      | ifNull =>
          obtain ⟨d, μ₁, k, S₁, hμ, hS, hv, -, -, hrest⟩ := hm.pop hstack hμ hS
          cases hμ
          cases hS
          rw [← hv.datum, ← follows.constant .null, ← hconstant]
          exact ⟨hrest, .compare hc hgoes⟩
  | @switch b key rest targets default cases c hselects hstack hcases hc =>
      cases hselects with
      | table | lookup =>
          obtain ⟨d, μ₁, k, S₁, hμ, hS, hv, -, -, hrest⟩ := hm.pop hstack hμ hS
          cases hμ
          cases hS
          rw [← hv.datum]
          exact ⟨hrest, .switch hcases hc⟩

end StackLift
