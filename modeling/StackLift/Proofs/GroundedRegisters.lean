import StackLift.Proofs.CopyCircles
import StackLift.Proofs.FoldedCopies
import StackLift.Simplify.Rounds

/-!
Grounded registers: following the copies of a register leads to an assignment that is no copy. The
passes of simplification keep registers grounded, and grounded registers do not copy each other in a
circle.
-/

namespace StackLift

open CopyChains FoldedCopies

/-- The code assigns to the register something that is no copy of a register, or a copy of a
grounded one.
-/
inductive Grounded (code : List Inst) : RegisterKey → Prop
  | computed {r : Register} {e : Expr} : .assign (.register r) e ∈ code → e.register? = none →
    Grounded code r.key
  | copied {r q : Register} : .assign (.register r) (.value (.register q)) ∈ code →
    Grounded code q.key → Grounded code r.key

/-- All assigned registers are grounded. -/
def WellGrounded (code : List Inst) : Prop :=
  ∀ r e, .assign (.register r) e ∈ code → Grounded code r.key

-- No circles

variable {code : List Inst} {f : Value → Value}

theorem Linked.isLink {x y : RegisterKey} (h : Linked code x y)
    : IsLink code x y := by
  obtain ⟨link, hm, rfl, rfl⟩ := h
  exact isLink_of_mem_links hm

/-- The links of a grounded register follow its copies, which come to an end. -/
theorem Grounded.not_linked_circle {x : RegisterKey} (h : Grounded code x)
    : ¬ Relation.TransGen (Linked code) x x := by
  intro hx
  induction h with
  | computed hm hnone =>
      obtain ⟨y, hy, -⟩ := Relation.TransGen.head'_iff.mp hx
      obtain ⟨q, rfl, -⟩ := hy.isLink.copies hm rfl
      cases hnone
  | copied hm _ ih =>
      obtain ⟨y, hy, hyx⟩ := Relation.TransGen.head'_iff.mp hx
      obtain ⟨q', hq, rfl⟩ := hy.isLink.copies hm rfl
      cases hq
      exact ih (Relation.TransGen.tail' hyx hy)

/-- A linked register is assigned. -/
theorem WellGrounded.not_linked_circle (h : WellGrounded code) {x : RegisterKey}
    : ¬ Relation.TransGen (Linked code) x x := by
  intro hx
  obtain ⟨y, ⟨link, hm, rfl, -⟩, -⟩ := Relation.TransGen.head'_iff.mp hx
  obtain ⟨r, q, hcopy, hr, -⟩ := (isLink_of_mem_links hm).copied
  exact (hr ▸ h _ _ hcopy : Grounded code link.1.key).not_linked_circle hx

theorem WellGrounded.not_copiesInCircle (h : WellGrounded code)
    : ¬ CopiesInCircle code := by
  rintro ⟨x, hx⟩
  exact h.not_linked_circle (Relation.TransGen.mono (fun _ _ hxy => hxy.1) _ _ hx)

-- Renamed and dropped instructions

/-- Registers stay grounded if registers are replaced, and all that is dropped assigns no register
or becomes a copy of a value into itself.
-/
theorem WellGrounded.of_thinned {code other : List Inst}
    (h : WellGrounded code) (hf : Replaces f) (ht : Thinned f code other)
    (hdropped : ∀ i ∈ code, i.rename f ∈ other ∨ i.assigned? = none
      ∨ ∃ r q, i = .assign (.register r) (.value (.register q))
          ∧ (f (.register q)).Same (f (.register r)))
    : WellGrounded other := by
  -- A grounded register that becomes a register becomes a grounded one.
  have hground : ∀ {x}, Grounded code x → ∀ r s : Register, r.key = x →
      f (.register r) = .register s → Grounded other s.key := by
    intro x hx
    induction hx with
    | @computed r₀ e hm hnone =>
        intro r s hr hs
        obtain ⟨t, ht, htk⟩ := hf.eq_register_of_key hr.symm hs
        rcases hdropped _ hm with hkept | hnot | ⟨r₁, q₁, he, -⟩
        · simp only [Inst.rename, Inst.mapValues, Value.mapLeaves, ht] at hkept
          refine htk ▸ .computed hkept (Option.eq_none_iff_forall_ne_some.mpr fun q hq => ?_)
          obtain ⟨p, rfl, -⟩ := hf.eq_register_of_mapValues (Expr.eq_of_register? hq)
          cases hnone
        · cases hnot
        · cases he
          cases hnone
    | @copied r₀ q hm _ ih =>
        intro r s hr hs
        obtain ⟨t, ht, htk⟩ := hf.eq_register_of_key hr.symm hs
        rcases hdropped _ hm with hkept | hnot | ⟨r₁, q₁, he, hsame⟩
        · simp only [Inst.rename, Inst.mapValues, Expr.mapValues, Value.mapLeaves, ht] at hkept
          cases hq : (f (.register q)).register? with
          | none => exact htk ▸ .computed hkept hq
          | some p =>
              have hp := Value.eq_of_register? hq
              rw [hp] at hkept
              exact htk ▸ .copied hkept (ih q p rfl hp)
        · cases hnot
        · cases he
          rw [ht] at hsame
          obtain ⟨p, hp, hpk⟩ := Value.same_register_iff.mp hsame
          exact htk ▸ hpk ▸ ih q p rfl hp
  intro s e hm
  obtain ⟨i, hi, he⟩ := ht.mem hm
  cases i with
  | assign target source =>
      obtain ⟨r, rfl, hr⟩ := hf.eq_register_of_mapLeaves (Inst.assign.inj he).1.symm
      exact hground (h r source hi) r s rfl hr
  | _ => cases he

theorem mem_thin_or_dropped {dropped : List Inst → Bool} {i : Inst} (hi : i ∈ code)
    : i.rename f ∈ thin f dropped code ∨ ∃ rest, i :: rest <:+ code ∧ dropped (i :: rest) := by
  induction code with
  | nil => cases hi
  | cons j tail ih =>
      rcases List.mem_cons.mp hi with rfl | hi
      · by_cases hd : dropped (i :: tail)
        · exact .inr ⟨tail, List.suffix_refl _, hd⟩
        · exact .inl (by simp [thin, hd])
      · rcases ih hi with hkept | ⟨rest, hs, hd⟩
        · left
          simp only [thin]
          split
          · exact hkept
          · exact List.mem_cons_of_mem _ hkept
        · exact .inr ⟨rest, hs.trans (List.suffix_cons j tail), hd⟩

/-- A thinned code, if all that is dropped assigns no register or becomes a copy of a value into
itself.
-/
theorem WellGrounded.thin {dropped : List Inst → Bool} (h : WellGrounded code) (hf : Replaces f)
    (hdropped : ∀ {r e rest}, .assign (.register r) e :: rest <:+ code →
      dropped (.assign (.register r) e :: rest) →
      ∃ q, e = .value (.register q) ∧ (f (.register q)).Same (f (.register r)))
    : WellGrounded (thin f dropped code) := by
  refine h.of_thinned hf (thinned_thin f dropped code) fun i hi => ?_
  refine (mem_thin_or_dropped hi).imp id fun ⟨rest, hs, hd⟩ => ?_
  cases ha : i.assigned? with
  | none => exact .inl rfl
  | some x =>
      right
      cases i with
      | assign target source =>
          cases target with
          | register r =>
              obtain ⟨q, rfl, hsame⟩ := hdropped hs hd
              exact ⟨r, q, rfl, hsame⟩
          | _ => cases ha
      | _ => cases ha

-- Passes that rename

/-- No register is linked back to one that is linked to it. -/
theorem WellGrounded.not_isMutualCopy (h : WellGrounded code) (i : Inst)
    : ¬ isMutualCopy (links (definitions code)) i := by
  intro hm
  obtain ⟨target, q, t, s, s', t', rfl, hts, hst, -, hs, ht⟩ := links_of_isMutualCopy hm
  exact h.not_linked_circle (.tail (.single ⟨_, hts, rfl, rfl⟩) ⟨_, hst, hs, ht⟩)

/-- What becomes a copy of a register into itself copies a register that becomes the same one. -/
theorem same_of_isSelfCopy_rename {σ : RegisterKey → RegisterKey}
    (hf : Renames f σ) {r : Register} {e : Expr}
    (hs : isSelfCopy ((Inst.assign (.register r) e).rename f))
    : ∃ q, e = .value (.register q) ∧ (f (.register q)).Same (f (.register r)) := by
  obtain ⟨q, rfl, -⟩ := eq_of_isSelfCopy_rename hf hs
  exact ⟨q, rfl, of_decide_eq_true hs⟩

theorem WellGrounded.applyLinks (h : WellGrounded code)
    : WellGrounded (applyLinks (links (definitions code)) code) := by
  rw [applyLinks_eq_thin]
  have hf := Substitution.renames_leaf (onRegisters_mapping (links (definitions code)))
  refine h.thin hf.replaces fun hs hd => ?_
  simp only [List.head?_cons, Option.any_some, Bool.or_eq_true] at hd
  exact same_of_isSelfCopy_rename hf (hd.resolve_left (h.not_isMutualCopy _))

theorem WellGrounded.dropSelfCopies (h : WellGrounded code)
    : WellGrounded (code.filter fun i => !isSelfCopy i) := by
  rw [filter_eq_thin]
  refine h.thin renames_id.replaces fun hs hd => same_of_isSelfCopy_rename renames_id ?_
  simpa [Inst.rename_id] using hd

theorem WellGrounded.normalizeTypes (h : WellGrounded code)
    : WellGrounded (normalizeTypes code) := by
  have hthin : StackLift.normalizeTypes code
      = StackLift.thin (RegisterTypes.retypeLeaf (RegisterTypes.declared code)) (fun _ => false)
        code := map_rename_eq_thin _ code
  rw [hthin]
  exact h.thin (renames_retypeLeaf _).replaces fun _ hd => nomatch hd

theorem WellGrounded.foldStep (h : WellGrounded code)
    : WellGrounded (step code) := by
  rw [step_eq_thin]
  refine h.thin (forRegisters_targetOf code).replaces_leaf fun {r e rest} hs hd => ?_
  have hp := of_decide_eq_true hd
  have hi := getElem?_placeOf hs
  obtain ⟨target, q, hc, -⟩ := copy_of_mem hp
  cases hi.symm.trans hc
  have hfold : Folds code _ r q := ⟨hp, hc⟩
  exact ⟨q, rfl, by rw [hfold.leaf_source, hfold.leaf_target]; rfl⟩

-- Passes that only drop

theorem whileShorter_keeps {P : List Inst → Prop} {step : List Inst → List Inst}
    (hstep : ∀ {code}, P code → P (step code)) {code : List Inst} (h : P code)
    : P (whileShorter step code) := by
  rw [whileShorter]
  split
  · exact whileShorter_keeps (P := P) hstep (hstep h)
  · exact h
termination_by code.length

/-- A register that is read stays grounded, since none of its copies is dropped. One that is not
read keeps only assignments that are no copies.
-/
theorem WellGrounded.dropUnreadCopies (h : WellGrounded code)
    : WellGrounded (dropUnreadCopies code) := by
  have hkept : ∀ {r : Register} {e : Expr}, .assign (.register r) e ∈ code →
      (∃ i ∈ code, r.key ∈ i.readKeys) →
      .assign (.register r) e ∈ StackLift.dropUnreadCopies code := by
    rintro r e hm ⟨i, hi, hr⟩
    refine List.mem_filter.mpr ⟨hm, ?_⟩
    simp only [Bool.not_eq_true', Bool.eq_false_iff]
    intro hdead
    cases e with
    | value v =>
        simp only [isDeadCopy, Bool.and_eq_true, Option.isNone_iff_eq_none] at hdead
        exact not_mem_readKeys_of_firstRead? hdead.2 hi hr
    | _ => cases hdead
  have hground : ∀ {x}, Grounded code x → (∃ i ∈ code, x ∈ i.readKeys) →
      Grounded (StackLift.dropUnreadCopies code) x := by
    intro x hx hread
    induction hx with
    | computed hm hnone => exact .computed (hkept hm hread) hnone
    | @copied r q hm _ ih =>
        exact .copied (hkept hm hread) (ih ⟨_, hm, mem_readKeys_copy r q⟩)
  intro r e hm
  obtain ⟨hcode, hlive⟩ := List.mem_filter.mp hm
  cases e with
  | value v =>
      cases hfirst : firstRead? (readsOf code) (.register r) with
      | none => simp [isDeadCopy, hfirst, Value.isSimple, Value.isComplex] at hlive
      | some first =>
          obtain ⟨i, hi, hr⟩ := read_of_firstRead? hfirst
          exact hground (h r _ hcode) ⟨i, List.mem_of_getElem? hi, hr⟩
  | _ => exact .computed hm rfl

/-- The code assigns the same value to the register, up to names. -/
def AssignsSame (code : List Inst) (r : Register) (e : Expr) : Prop :=
  ∃ r' e', .assign (.register r') e' ∈ code ∧ r'.key = r.key ∧ e'.Same e

theorem Grounded.of_assignsSame {code other : List Inst} {x : RegisterKey}
    (h : ∀ {r e}, .assign (.register r) e ∈ code → AssignsSame other r e) (hx : Grounded code x)
    : Grounded other x := by
  induction hx with
  | @computed r e hm hnone =>
      obtain ⟨r', e', hm', hk, hsame⟩ := h hm
      refine hk ▸ .computed hm' (Option.eq_none_iff_forall_ne_some.mpr fun q hq => ?_)
      rw [Expr.eq_of_register? hq] at hsame
      obtain ⟨_, rfl, -⟩ := Expr.same_register_iff.mp hsame.symm
      cases hnone
  | @copied r q hm _ ih =>
      obtain ⟨r', e', hm', hk, hsame⟩ := h hm
      obtain ⟨q', rfl, hq⟩ := Expr.same_register_iff.mp hsame
      exact hk ▸ .copied hm' (hq ▸ ih)

namespace RepeatedCopies

/-- Every known copy is one that the code makes. -/
def Backed (code : List Inst) (known : Known) : Prop :=
  ∀ entry ∈ known, ∃ target source, .assign target (.value source) ∈ code
    ∧ target.anonymous = entry.1 ∧ source.Same entry.2

/-- All that is dropped is among what is kept, up to names. By induction over the code, with the
known copies backed by what was kept.
-/
theorem assignsSame_of_drop {kept : List Inst} {known : Known}
    (hsub : drop known code ⊆ kept) (hb : Backed kept known) {r : Register} {e : Expr}
    (hm : .assign (.register r) e ∈ code)
    : AssignsSame kept r e := by
  induction code generalizing known with
  | nil => cases hm
  | cons i rest ih =>
      have hafter : (∀ target source, copy? i = some (target, source) →
          ∃ target' source', .assign target' (.value source') ∈ kept
            ∧ target'.anonymous = target.anonymous ∧ source'.Same source) →
          Backed kept (after known i) := by
        intro hcopy entry he
        rcases mem_after he with ⟨he, -⟩ | ⟨target, source, hc, rfl⟩
        · exact hb entry he
        · exact hcopy target source hc
      by_cases hi : isRepeated known i
      · obtain ⟨target, source, v, rfl, ht, hknown, hsame⟩ := mem_of_isRepeated hi
        obtain ⟨target', source', hkept, ht', hs'⟩ := hb _ hknown
        have hbacked := hafter fun t s hc => by
          obtain ⟨he, -⟩ := copy?_eq_some hc
          cases he
          exact ⟨target', source', hkept, ht', hs'.trans hsame⟩
        rcases List.mem_cons.mp hm with he | hm
        · cases he
          obtain ⟨r', rfl, hk⟩ := Value.same_register_iff.mp ht'
          exact ⟨r', .value source', hkept, hk, congrArg Expr.value (hs'.trans hsame)⟩
        · exact ih (fun j hj => hsub (by simpa [drop, hi] using hj)) hbacked hm
      · have hkept : i ∈ kept := hsub (by simp [drop, hi])
        have hbacked := hafter fun t s hc => by
          obtain ⟨rfl, -⟩ := copy?_eq_some hc
          exact ⟨t, s, hkept, rfl, rfl⟩
        rcases List.mem_cons.mp hm with rfl | hm
        · exact ⟨r, e, hkept, rfl, rfl⟩
        · exact ih (fun j hj => hsub (by simp [drop, hi, hj])) hbacked hm

end RepeatedCopies

theorem WellGrounded.dropRepeatedCopies (h : WellGrounded code)
    : WellGrounded (dropRepeatedCopies code) := by
  have hsub : StackLift.dropRepeatedCopies code ⊆ code := by
    intro i hi
    obtain ⟨j, hj, rfl⟩ := (RepeatedCopies.thinned_drop [] code).mem hi
    rwa [Inst.rename_id]
  intro r e hm
  exact (h r e (hsub hm)).of_assignsSame
    (RepeatedCopies.assignsSame_of_drop (List.Subset.refl _)
      fun _ he => absurd he List.not_mem_nil)

end StackLift
