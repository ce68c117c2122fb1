import StackLift.Proofs.CopyLinks
import StackLift.Simplify.FoldedCopies

/-!
Folding copies keeps the behaviour of a code, as long as the target of a folded copy is not live
where its source is assigned. A source that is assigned once is assigned right before the copy, so
this may fail only for sources with several assignments.
-/

namespace StackLift

open RegisterMachine FoldedCopies Substitution Value

-- Places of a code

/-- The place of the first instruction of the rest of a code. -/
def placeOf (code rest : List Inst) : Nat :=
  code.length - rest.length

variable {i : Inst} {code : List Inst}

theorem getElem?_placeOf {code rest : List Inst} (h : i :: rest <:+ code)
    : code[placeOf code (i :: rest)]? = some i := by
  obtain ⟨before, rfl⟩ := h
  simp [placeOf]

theorem placeOf_tail {code rest : List Inst} (h : i :: rest <:+ code)
    : placeOf code rest = placeOf code (i :: rest) + 1 := by
  have hle := h.length_le
  simp only [placeOf, List.length_cons] at hle ⊢
  omega

/-- The rests of a code at one place are equal. -/
theorem suffix_eq_of_placeOf {code rest rest' : List Inst} (h : rest <:+ code)
    (h' : rest' <:+ code) (hp : placeOf code rest = placeOf code rest')
    : rest = rest' := by
  have hle := h.length_le
  have hle' := h'.length_le
  have hlen : rest.length = rest'.length := by
    simp only [placeOf] at hp
    omega
  rcases List.suffix_or_suffix_of_suffix h h' with hs | hs
  · exact hs.eq_of_length hlen
  · exact (hs.eq_of_length hlen.symm).symm

/-- A place of the code is that of the rest of it from there on. -/
theorem exists_suffix_of_getElem? {p : Nat} (h : code[p]? = some i)
    : ∃ rest, i :: rest <:+ code ∧ placeOf code (i :: rest) = p := by
  obtain ⟨hp, hi⟩ := List.getElem?_eq_some_iff.mp h
  have hdrop : code.drop p = i :: code.drop (p + 1) := by
    rw [List.drop_eq_getElem_cons hp, hi]
  refine ⟨code.drop (p + 1), hdrop ▸ List.drop_suffix p code, ?_⟩
  rw [placeOf, ← hdrop, List.length_drop]
  omega

/-- What is live is read somewhere. -/
theorem Live.read_somewhere {code rest : List Inst} {x : RegisterKey} (h : Live code rest x)
    (hs : rest <:+ code)
    : ∃ i ∈ code, x ∈ i.readKeys := by
  induction h with
  | @read i rest x hx => exact ⟨i, hs.subset List.mem_cons_self, hx⟩
  | @proceed i rest x _ _ _ ih => exact ih ((List.suffix_cons i rest).trans hs)
  | @jump i rest x l _ _ ih => exact ih (codeAt_suffix code l)

-- The folded copies

namespace FoldedCopies

/-- The copy of one register into another at a place is folded. -/
def Folds (code : List Inst) (p : Nat) (a r : Register) : Prop :=
  p ∈ (folding code).places
    ∧ code[p]? = some (.assign (.register a) (.value (.register r)))

theorem copy?_eq_some {target source : Value} (h : copy? i = some (target, source))
    : target.isSimple ∧ ∃ r, source = .register r ∧ i = .assign target (.value source) := by
  cases i with
  | assign t e =>
      cases e with
      | value v =>
          cases v with
          | register r =>
              simp only [copy?, Option.ite_none_right_eq_some, Option.some.injEq,
                Prod.mk.injEq] at h
              obtain ⟨ht, rfl, rfl⟩ := h
              exact ⟨ht, r, rfl, rfl⟩
          | _ => cases h
      | _ => cases h
  | _ => cases h

/-- A register that may be folded is read only at the place of the copy. -/
theorem place_of_onlyReadAt {r : Register} {p : Nat}
    (h : onlyReadAt (readsOf code) (.register r) p) {q : Nat}
    (hq : code[q]? = some i) (hr : r.key ∈ i.readKeys)
    : q = p := by
  obtain ⟨v, hv, ha⟩ := mem_readKeys_iff.mp hr
  have hread := List.all_eq_true.mp h ⟨q, v.anonymous⟩ (mem_readsOf.mpr ⟨i, hq, v, hv, rfl⟩)
  simpa [ha] using hread

/-- What holds of the folding of the first instructions of a code. -/
structure FoldedUpTo (code : List Inst) (n : Nat) (fold : Folding) : Prop where
  copies : ∀ p ∈ fold.places, p < n ∧ ∃ (target : Value) (r : Register),
    code[p]? = some (.assign target (.value (.register r))) ∧ target.isSimple
    ∧ isFoldable code (readsOf code) target (.register r) p
    ∧ target.anonymous ∈ fold.targets
    ∧ ValueMap.find? fold.targetOf (.register r) = some target
  entries : ∀ entry ∈ fold.targetOf, ∃ p ∈ fold.places, ∃ (target : Value) (r : Register),
    code[p]? = some (.assign target (.value (.register r))) ∧ target.isSimple
    ∧ entry = ((register r).anonymous, target)
  order : ∀ p ∈ fold.places, ∀ q ∈ fold.places, p < q → ∀ (target next : Value) (r s : Register),
    code[p]? = some (.assign target (.value (.register r))) →
    code[q]? = some (.assign next (.value (.register s))) → ¬ target.Same (.register s)

/-- A copy of a register into a simple value reads nothing else. -/
theorem readKeys_copy_simple {target : Value} (h : target.isSimple) (r : Register)
    : (Inst.assign target (.value (.register r))).readKeys = [r.key] := by
  have hnone : target.operands = [] := by
    cases target with
    | field | element => cases h
    | _ => rfl
  simp [Inst.readKeys, Inst.readValues, hnone, Expr.subvalues, subvalues, register?]

/-- The reads of a copy are its source. -/
theorem readKeys_copy (a r : Register)
    : (Inst.assign (.register a) (.value (.register r))).readKeys = [r.key] :=
  readKeys_copy_simple rfl r

theorem onlyReadAt_of_isFoldable {reads : List Read} {target source : Value}
    {p : Nat} (h : isFoldable code reads target source p)
    : onlyReadAt reads source p := by
  simp only [isFoldable, Bool.and_eq_true] at h
  exact h.1

/-- Considering the next instruction keeps what holds of the folding. A new entry does not replace
another one, since the source of a folded copy is read nowhere else.
-/
theorem FoldedUpTo.consider {code : List Inst} {n : Nat} {fold : Folding}
    (hf : FoldedUpTo code n fold) {i : Inst} (hi : code[n]? = some i)
    : FoldedUpTo code (n + 1) (consider code (readsOf code) fold (i, n)) := by
  have hkeep : FoldedUpTo code (n + 1) fold := by
    refine ⟨fun p hp => ?_, hf.entries, hf.order⟩
    obtain ⟨hlt, hrest⟩ := hf.copies p hp
    exact ⟨by omega, hrest⟩
  cases hc : copy? i with
  | none =>
      simp only [FoldedCopies.consider, hc]
      exact hkeep
  | some copy =>
      obtain ⟨target, source⟩ := copy
      simp only [FoldedCopies.consider, hc]
      split
      · rename_i hcond
        simp only [Bool.and_eq_true, decide_eq_true_eq] at hcond
        obtain ⟨hnew, hfold⟩ := hcond
        obtain ⟨hsimple, r, rfl, rfl⟩ := copy?_eq_some hc
        refine ⟨?_, ?_, ?_⟩
        · intro p hp
          rcases List.mem_cons.mp hp with rfl | hp
          · exact ⟨by omega, target, r, hi, hsimple, hfold, List.mem_cons_self,
              by rw [find?_insert, if_pos rfl]⟩
          · obtain ⟨hlt, b, s, hb, hbsimple, hbfold, hbt, hbs⟩ := hf.copies p hp
            refine ⟨by omega, b, s, hb, hbsimple, hbfold, List.mem_cons_of_mem _ hbt, ?_⟩
            have hne : ¬ (register s).anonymous = (register r).anonymous := by
              intro heq
              obtain ⟨q, hq, hk⟩ := same_register_iff.mp heq
              cases hq
              have := place_of_onlyReadAt (onlyReadAt_of_isFoldable hfold) hb
                (by simp [readKeys_copy_simple hbsimple, hk])
              omega
            rw [find?_insert, if_neg hne, hbs]
        · intro entry he
          rcases mem_insert he with rfl | he
          · exact ⟨n, List.mem_cons_self, target, r, hi, hsimple, rfl⟩
          · obtain ⟨p, hp, hentry⟩ := hf.entries entry he
            exact ⟨p, List.mem_cons_of_mem _ hp, hentry⟩
        · intro p hp q hq hpq b c s t hb hc'
          rcases List.mem_cons.mp hp with rfl | hp
          · rcases List.mem_cons.mp hq with rfl | hq
            · omega
            · have := (hf.copies q hq).1
              omega
          · obtain ⟨hlt, b', s', hb', -, -, hbt, -⟩ := hf.copies p hp
            rcases List.mem_cons.mp hq with rfl | hq
            · rw [hi] at hc'
              rw [hb] at hb'
              cases hc'
              cases hb'
              intro hsame
              exact hnew (hsame ▸ hbt)
            · exact hf.order p hp q hq hpq b c s t hb hc'
      · exact hkeep

/-- What holds of the folding of a code, by induction over its instructions. -/
theorem foldedUpTo_folding (code : List Inst)
    : FoldedUpTo code code.length (folding code) := by
  have hprefix : ∀ done rest : List Inst, code = done ++ rest →
      FoldedUpTo code done.length (done.zipIdx.foldl (FoldedCopies.consider code (readsOf code))
        { targetOf := [], targets := [], places := [] }) := by
    intro done
    induction done using List.reverseRecOn with
    | nil => exact fun _ _ => ⟨nofun, nofun, nofun⟩
    | append_singleton done i ih =>
        intro rest hcode
        have hi : code[done.length]? = some i := by simp [hcode]
        rw [List.zipIdx_append, List.foldl_append, List.length_append]
        simpa using (ih (i :: rest) (by simpa using hcode)).consider hi
  exact hprefix code [] (by simp)

-- First reads and assignments

theorem rel_of_find? {α : Type} {R : α → α → Prop} {q : α → Bool} {l : List α} {x y : α}
    (hl : l.Pairwise R) (hx : l.find? q = some x) (hy : y ∈ l) (hqy : q y)
    : x = y ∨ R x y := by
  induction l with
  | nil => cases hy
  | cons z l ih =>
      rw [List.pairwise_cons] at hl
      rw [List.find?_cons] at hx
      split at hx
      · cases hx
        rcases List.mem_cons.mp hy with rfl | hy
        · exact .inl rfl
        · exact .inr (hl.1 y hy)
      · rename_i hqz
        rcases List.mem_cons.mp hy with rfl | hy
        · simp [hqy] at hqz
        · exact ih hl.2 hx hy

theorem readsOf_sorted (code : List Inst)
    : (readsOf code).Pairwise fun x y => x.place ≤ y.place := by
  refine List.pairwise_flatMap.mpr ⟨?_, ?_⟩
  · rintro ⟨i, place⟩ _
    exact List.pairwise_map.mpr (List.pairwise_of_forall fun _ _ => le_refl place)
  · have hsnd : (code.zipIdx.map Prod.snd).Pairwise (· < ·) := by
      rw [List.zipIdx_map_snd]
      exact List.pairwise_lt_range'
    refine (List.pairwise_map.mp hsnd).imp ?_
    rintro ⟨i, m⟩ ⟨j, n⟩ hlt x hx y hy
    obtain ⟨-, -, rfl⟩ := List.mem_map.mp hx
    obtain ⟨-, -, rfl⟩ := List.mem_map.mp hy
    exact le_of_lt hlt

/-- A register that is read has a first read, at no later place. -/
theorem firstRead?_of_read {a : Register} {q : Nat}
    (hq : code[q]? = some i) (hr : a.key ∈ i.readKeys)
    : ∃ first, firstRead? (readsOf code) (.register a) = some first ∧ first ≤ q := by
  obtain ⟨v, hv, ha⟩ := mem_readKeys_iff.mp hr
  have hm : (⟨q, v.anonymous⟩ : Read) ∈ readsOf code := mem_readsOf.mpr ⟨i, hq, v, hv, rfl⟩
  cases hf : (readsOf code).find? (·.value = (register a).anonymous) with
  | none =>
      have := List.find?_eq_none.mp hf _ hm
      simp [ha] at this
  | some read =>
      refine ⟨read.place, by simp [firstRead?, hf], ?_⟩
      rcases rel_of_find? (readsOf_sorted code) hf hm (by simp [ha]) with rfl | hle
      · exact le_refl _
      · exact hle

theorem read_of_firstRead? {a : Register} {first : Nat}
    (h : firstRead? (readsOf code) (.register a) = some first)
    : ∃ i, code[first]? = some i ∧ a.key ∈ i.readKeys := by
  simp only [firstRead?, Option.map_eq_some_iff] at h
  obtain ⟨read, hf, rfl⟩ := h
  obtain ⟨i, hi, v, hv, ha⟩ := mem_readsOf.mp (List.mem_of_find?_eq_some hf)
  have hval := List.find?_some hf
  simp only [decide_eq_true_eq] at hval
  exact ⟨i, hi, mem_readKeys_iff.mpr ⟨v, hv, ha.trans hval⟩⟩

theorem assigned?_eq_some_iff {r : Register}
    : i.assigned? = some r.key ↔ ∃ target source, i = .assign target source
        ∧ target.anonymous = (register r).anonymous := by
  constructor
  · intro h
    obtain ⟨q, source, rfl, hk⟩ := Inst.eq_assign_of_assigned? h
    exact ⟨_, source, rfl, same_register_iff.mpr ⟨q, rfl, hk⟩⟩
  · rintro ⟨target, source, rfl, ht⟩
    obtain ⟨q, rfl, hk⟩ := same_register_iff.mp ht
    exact congrArg some hk

theorem firstAssignment?_eq_none {r : Register}
    (h : firstAssignment? code (.register r) = none) (hi : i ∈ code)
    : i.assigned? ≠ some r.key := by
  intro ha
  obtain ⟨target, source, rfl, ht⟩ := assigned?_eq_some_iff.mp ha
  have hno := List.findIdx?_eq_none_iff.mp h _ hi
  simp [ht] at hno

theorem firstAssignment?_eq_some {r : Register} {p : Nat}
    (h : firstAssignment? code (.register r) = some p)
    : (∃ i, code[p]? = some i ∧ i.assigned? = some r.key)
      ∧ ∀ q i, code[q]? = some i → i.assigned? = some r.key → p ≤ q := by
  obtain ⟨hp, hi, hfirst⟩ := List.findIdx?_eq_some_iff_getElem.mp h
  constructor
  · refine ⟨code[p], List.getElem?_eq_getElem hp, assigned?_eq_some_iff.mpr ?_⟩
    split at hi
    · rename_i target source hc
      exact ⟨target, source, hc, by simpa using hi⟩
    · cases hi
  · intro q i hq ha
    by_contra hlt
    obtain ⟨hq', rfl⟩ := List.getElem?_eq_some_iff.mp hq
    obtain ⟨target, source, hc, ht⟩ := assigned?_eq_some_iff.mp ha
    have hno := hfirst q (by omega)
    simp [hc, ht] at hno

-- Sources and targets

section Folds

variable {rest : List Inst} {p : Nat} {a r : Register}

/-- Copies of registers into simple values are folded. -/
theorem copy_of_mem (hp : p ∈ (folding code).places)
    : ∃ (target : Value) (r : Register), code[p]? = some (.assign target (.value (.register r)))
        ∧ target.isSimple := by
  obtain ⟨-, target, r, hc, hsimple, -⟩ := (foldedUpTo_folding code).copies p hp
  exact ⟨target, r, hc, hsimple⟩

theorem folds_of_mem (h : ∀ i ∈ code, i.AssignsPlace) (hp : p ∈ (folding code).places)
    : ∃ a r, Folds code p a r := by
  obtain ⟨target, r, hc, hsimple⟩ := copy_of_mem hp
  obtain ⟨a, rfl⟩ := h _ (List.mem_of_getElem? hc) _ _ rfl hsimple
  exact ⟨a, r, hp, hc⟩

theorem Folds.isFoldable (hf : Folds code p a r)
    : isFoldable code (readsOf code) (.register a) (.register r) p := by
  obtain ⟨-, b, s, hc, -, hfold, -⟩ := (foldedUpTo_folding code).copies p hf.1
  cases hf.2.symm.trans hc
  exact hfold

theorem Folds.only_read (hf : Folds code p a r) {q : Nat} (hq : code[q]? = some i)
    (hr : r.key ∈ i.readKeys)
    : q = p :=
  place_of_onlyReadAt (onlyReadAt_of_isFoldable hf.isFoldable) hq hr

/-- A register is the source of one folded copy at most. -/
theorem Folds.place_eq (hf : Folds code p a r) {q : Nat} {b s : Register} (hg : Folds code q b s)
    (hk : s.key = r.key)
    : q = p :=
  hf.only_read hg.2 (by simp [readKeys_copy, hk])

theorem forRegisters_targetOf (code : List Inst)
    : (folding code).targetOf.ForRegisters := by
  intro entry he
  obtain ⟨p, -, target, r, -, hsimple, rfl⟩ := (foldedUpTo_folding code).entries entry he
  exact ⟨r, rfl, hsimple⟩

theorem onRegisters_targetOf (h : ∀ i ∈ code, i.AssignsPlace)
    : (folding code).targetOf.OnRegisters := by
  intro entry he
  obtain ⟨p, -, target, r, hc, hsimple, rfl⟩ := (foldedUpTo_folding code).entries entry he
  obtain ⟨a, rfl⟩ := h _ (List.mem_of_getElem? hc) _ _ rfl hsimple
  exact ⟨r, a, rfl, rfl⟩

theorem Folds.leaf_source (hf : Folds code p a r)
    : (folding code).targetOf.leaf (.register r) = .register a := by
  obtain ⟨-, b, s, hc, -, -, -, hfind⟩ := (foldedUpTo_folding code).copies p hf.1
  cases hf.2.symm.trans hc
  rw [leaf, hfind, Option.getD_some]

/-- Targets of folded copies are not replaced: a later copy of the target is not folded, and it has
no earlier one, which would read it.
-/
theorem Folds.leaf_target (hf : Folds code p a r)
    : (folding code).targetOf.leaf (.register a) = .register a := by
  cases hfind : ValueMap.find? (folding code).targetOf (.register a) with
  | none => rw [leaf, hfind, Option.getD_none]
  | some image =>
      obtain ⟨q, hq, target, s, hc, hsimple, he⟩ :=
        (foldedUpTo_folding code).entries _ (mem_of_find?_eq_some hfind)
      obtain ⟨hs, rfl⟩ := Prod.mk.inj he
      rcases lt_trichotomy p q with hlt | rfl | hlt
      · exact absurd hs
          ((foldedUpTo_folding code).order p hf.1 q hq hlt _ _ r s hf.2 hc)
      · cases hf.2.symm.trans hc
        rw [leaf, hfind, Option.getD_some]
      · have hk : a.key = s.key := registers_same_iff.mp hs
        obtain ⟨first, hfirst, hle⟩ :=
          firstRead?_of_read (a := a) hc (by simp [readKeys_copy_simple hsimple, hk])
        have hfold := hf.isFoldable
        simp only [FoldedCopies.isFoldable, hfirst, Bool.and_eq_true, decide_eq_true_eq] at hfold
        omega

theorem Folds.image (h : ∀ i ∈ code, i.AssignsPlace) (hf : Folds code p a r)
    : (folding code).targetOf.keyImage r.key = a.key := by
  obtain ⟨s, hs, hk⟩ := (renames_leaf (onRegisters_targetOf h)).register r
  cases hf.leaf_source.symm.trans hs
  exact hk.symm

theorem Folds.target_fixed (h : ∀ i ∈ code, i.AssignsPlace) (hf : Folds code p a r)
    : (folding code).targetOf.keyImage a.key = a.key := by
  obtain ⟨s, hs, hk⟩ := (renames_leaf (onRegisters_targetOf h)).register a
  cases hf.leaf_target.symm.trans hs
  exact hk.symm

/-- Only sources of folded copies are renamed. -/
theorem keyImage_targetOf (h : ∀ i ∈ code, i.AssignsPlace) (x : RegisterKey)
    : (folding code).targetOf.keyImage x = x
      ∨ ∃ p a r, Folds code p a r ∧ r.key = x
          ∧ (folding code).targetOf.keyImage x = a.key := by
  rcases keyImage_cases (onRegisters_targetOf h) x with he | ⟨r, q, hm, rfl, hq⟩
  · exact .inl he
  · obtain ⟨p, hp, target, s, hc, -, he⟩ := (foldedUpTo_folding code).entries _ hm
    obtain ⟨hs, rfl⟩ := Prod.mk.inj he
    exact .inr ⟨p, q, s, ⟨hp, hc⟩, (registers_same_iff.mp hs).symm, hq.symm⟩

/-- If the target of a folded copy is read, its source is assigned right before the copy, if at all.
-/
theorem Folds.assigned_before (hf : Folds code p a r) (hne : a.key ≠ r.key)
    (hread : ∃ i ∈ code, a.key ∈ i.readKeys)
    : (∀ i ∈ code, i.assigned? ≠ some r.key)
      ∨ ∃ i, code[p - 1]? = some i ∧ i.assigned? = some r.key ∧ 0 < p := by
  obtain ⟨i, hi, hr⟩ := hread
  obtain ⟨q, hq⟩ := List.mem_iff_getElem?.mp hi
  obtain ⟨first, hfirst, -⟩ := firstRead?_of_read hq hr
  have hfold := hf.isFoldable
  simp only [FoldedCopies.isFoldable, hfirst, Bool.and_eq_true, decide_eq_true_eq] at hfold
  obtain ⟨-, hple, hmatch⟩ := hfold
  cases hs : firstAssignment? code (.register r) with
  | none => exact .inl fun i hi => firstAssignment?_eq_none hs hi
  | some sourceAt =>
      cases ht : firstAssignment? code (.register a) with
      | none => exact absurd rfl (firstAssignment?_eq_none ht (List.mem_of_getElem? hf.2))
      | some targetAt =>
          have htp := (firstAssignment?_eq_some ht).2 p _ hf.2 rfl
          simp only [hs, ht, Bool.or_eq_true, decide_eq_true_eq] at hmatch
          rcases hmatch with hle | hsp
          · -- The copy would be the first read of its own target.
            have hp : first = p := by omega
            obtain ⟨j, hj, hja⟩ := read_of_firstRead? hfirst
            rw [hp, hf.2] at hj
            cases hj
            simp only [readKeys_copy, List.mem_singleton] at hja
            exact absurd hja hne
          · obtain ⟨j, hj, hja⟩ := (firstAssignment?_eq_some hs).1
            exact .inr ⟨j, by rw [← hsp]; simpa using hj, hja, by omega⟩

/-- A source that is assigned right before its copy is live only there. -/
theorem Folds.place_of_live (hf : Folds code p a r) {j : Inst} (hj : code[p - 1]? = some j)
    (hja : j.assigned? = some r.key) (hp : 0 < p) (hl : Live code rest r.key) (hs : rest <:+ code)
    : placeOf code rest = p := by
  generalize hx : r.key = x at hl
  induction hl with
  | @read i rest x hread =>
      subst hx
      exact hf.only_read (getElem?_placeOf hs) hread
  | @proceed i rest x _ hna _ ih =>
      subst hx
      have hrest := ih ((List.suffix_cons i rest).trans hs) rfl
      have hi := getElem?_placeOf hs
      rw [placeOf_tail hs] at hrest
      rw [show placeOf code (i :: rest) = p - 1 by omega, hj] at hi
      cases hi
      exact absurd hja hna
  | @jump i rest x l _ hl ih =>
      subst hx
      have hplace := ih (codeAt_suffix code l) rfl
      cases hc : codeAt code l with
      | nil =>
          rw [hc] at hl
          cases hl
      | cons k tail =>
          have hk := getElem?_placeOf (hc ▸ codeAt_suffix code l)
          rw [hc] at hplace
          rw [hplace, hf.2, codeAt_eq_cons hc] at hk
          cases hk

end Folds

-- Safe folding

/-- Registers with one index have one type. -/
def OneTypeEach (code : List Inst) : Prop :=
  ∀ x y, Occurs code x → Occurs code y → x.1 = y.1 → x = y

/-- The target of each folded copy is not live where its source is assigned. Where registers with
one index have several types, sources have one assignment at most.
-/
def FoldsSafely (code : List Inst) : Prop :=
  ∀ p a r, Folds code p a r → a.key ≠ r.key →
    (sourcesOf code r.key).length ≤ 1
      ∨ (OneTypeEach code ∧ ∀ q e rest, .assign (.register q) e :: rest <:+ code →
          q.key = r.key → ¬ Live code rest a.key)

/-- What is needed while copies are folded: live registers, apart from sources whose target is not
read.
-/
def Needed (code rest : List Inst) (x : RegisterKey) : Prop :=
  Live code rest x ∧ ∀ p a r, Folds code p a r → a.key ≠ r.key → r.key = x →
    ∃ i ∈ code, a.key ∈ i.readKeys

/-- The test for the place of a folded copy. -/
def foldsAt (code rest : List Inst) : Bool :=
  placeOf code rest ∈ (folding code).places

section Step

variable {code : List Inst}

theorem neededBefore (code : List Inst)
    : NeededBefore code (Needed code) where
  proceed hp hna h := ⟨.proceed hp hna h.1, h.2⟩
  jump hl h := ⟨.jump hl h.1, h.2⟩

theorem step_eq_thin (code : List Inst)
    : step code = thin (folding code).targetOf.leaf (foldsAt code) code := by
  have hsuffix : ∀ rest, rest <:+ code →
      ((rest.zipIdx (placeOf code rest)).filter fun entry =>
        entry.2 ∉ (folding code).places).map (fun entry => (folding code).targetOf.inst entry.1)
      = thin (folding code).targetOf.leaf (foldsAt code) rest := by
    intro rest
    induction rest with
    | nil => exact fun _ => rfl
    | cons i rest ih =>
        intro hs
        have htail := ih ((List.suffix_cons i rest).trans hs)
        rw [placeOf_tail hs] at htail
        rw [List.zipIdx_cons]
        by_cases hp : placeOf code (i :: rest) ∈ (folding code).places
        · simpa [thin, foldsAt, hp] using htail
        · simpa [thin, foldsAt, hp, (forRegisters_targetOf code).inst_eq_rename] using htail
  have hcode := hsuffix code (List.suffix_refl code)
  simpa [placeOf, step] using hcode

/-- After the copy, the target is not live if it is assigned there; before it, the target is not
live since the copy assigns it.
-/
theorem not_live_copy {a r : Register} (hne : a.key ≠ r.key) (rest : List Inst)
    : ¬ Live code (.assign (.register a) (.value (.register r)) :: rest) a.key := by
  intro hl
  cases hl with
  | read hr =>
      simp only [readKeys_copy, List.mem_singleton] at hr
      exact hne hr
  | proceed _ hna _ => exact hna rfl
  | jump ht _ => cases ht

/-- Where folding is safe, the target of a folded copy is not live after any assignment of its
source: the only assignment of a source with one assignment is right before the copy.
-/
theorem FoldsSafely.not_live (hsafe : FoldsSafely code) {p : Nat} {a r q : Register}
    (hf : Folds code p a r) (hne : a.key ≠ r.key) {e : Expr}
    (hs : .assign (.register q) e :: rest <:+ code) (hq : q.key = r.key)
    : ¬ Live code rest a.key := by
  rcases hsafe p a r hf hne with hone | ⟨-, hlive⟩
  · intro hl
    have hrest : rest <:+ code := (List.suffix_cons _ rest).trans hs
    rcases hf.assigned_before hne (hl.read_somewhere hrest) with hnone | ⟨j, hj, hja, hp⟩
    · exact hnone _ (hs.subset List.mem_cons_self) (congrArg some hq)
    · obtain ⟨t, e', rfl, ht⟩ := Inst.eq_assign_of_assigned? hja
      obtain ⟨tail, hjs, hjp⟩ := exists_suffix_of_getElem? hj
      cases suffix_eq_of_sourcesOf hone hs hjs hq ht
      obtain ⟨tail', hcs, hcp⟩ := exists_suffix_of_getElem? hf.2
      have hplace : placeOf code rest
          = placeOf code (.assign (.register a) (.value (.register r)) :: tail') := by
        rw [placeOf_tail hs, hjp, hcp]
        omega
      rw [suffix_eq_of_placeOf hrest hcs hplace] at hl
      exact not_live_copy hne tail' hl
  · exact hlive q e rest hs hq

/-- Safe folding lets no two needed registers with one new name clash. -/
theorem noClash_folding (h : Tractable code) (hsafe : FoldsSafely code) (hs : i :: rest <:+ code)
    : NoClash code (folding code).targetOf.keyImage (Needed code) i rest := by
  intro t e D I registers s y hi hreach hout hrest hy hdef hne hσ
  subst hi
  have hrs : rest <:+ code := (List.suffix_cons _ rest).trans hs
  obtain ⟨A, ha⟩ := hreach.arrives hout
  rw [hrest] at ha
  rcases keyImage_targetOf h.targets y with hfix | ⟨p, a, r, hf, rfl, himage⟩
  · rcases keyImage_targetOf h.targets t.key with htfix | ⟨p, a, r, hf, hr, himage⟩
    · exact absurd (hfix.symm.trans (hσ.trans htfix)) hne
    · -- The assigned register is the source of a folded copy, whose target is not live here.
      have hya : y = a.key := hfix.symm.trans (hσ.trans himage)
      have har : a.key ≠ r.key := fun hk => hne (hya.trans (hk.trans hr))
      exact absurd (hya ▸ hy.1) (hsafe.not_live hf har hs hr.symm)
  · by_cases har : a.key = r.key
    · rcases keyImage_targetOf h.targets t.key with htfix | ⟨q, b, c, hg, hc, himage'⟩
      · exact absurd (har.symm.trans (himage.symm.trans (hσ.trans htfix))) hne
      · have hba : b.key = a.key := himage'.symm.trans (hσ.symm.trans himage)
        have hbc : b.key ≠ c.key := fun hk => hne (har.symm.trans (hba.symm.trans (hk.trans hc)))
        have hlive : Live code rest b.key := by
          rw [hba, har]
          exact hy.1
        exact absurd hlive (hsafe.not_live hg hbc hs hc.symm)
    · -- A needed source is live only before its copy, so it is the register assigned here.
      rcases hf.assigned_before har (hy.2 p a r hf har rfl) with hnone | ⟨j, hj, hja, hp⟩
      · obtain ⟨k, hk, hka⟩ := (ha.proceed rfl).exists_assigned (hdef _ (ha.proceed rfl))
        exact absurd hka (hnone k hk)
      · have hplace := hf.place_of_live hj hja hp hy.1 hrs
        rw [placeOf_tail hs] at hplace
        have hi := getElem?_placeOf hs
        rw [show placeOf code (.assign (.register t) e :: rest) = p - 1 by omega, hj] at hi
        cases hi
        exact absurd (Option.some.inj hja).symm hne

/-- Sources that are needed are read only by the copies that are dropped. -/
theorem needed_of_read (hs : i :: rest <:+ code)
    (hkept : foldsAt code (i :: rest) = false) {x : RegisterKey} (hx : x ∈ i.readKeys)
    : Needed code (i :: rest) x := by
  refine ⟨.read hx, fun p a r hf _ hr => ?_⟩
  have hp := hf.only_read (getElem?_placeOf hs) (hr ▸ hx)
  simp only [foldsAt, decide_eq_false_iff_not] at hkept
  exact absurd (hp ▸ hf.1) hkept

/-- A folded copy is droppable: its target has the new name of its source, or is not read. -/
theorem droppable_folded (h : Tractable code)
    (hs : i :: rest <:+ code) (hd : foldsAt code (i :: rest))
    : ∃ r v, i = .assign (.register r) (.value v)
        ∧ Droppable code (folding code).targetOf.keyImage (Needed code) rest r v := by
  simp only [foldsAt, decide_eq_true_eq] at hd
  obtain ⟨a, r, hf⟩ := folds_of_mem h.targets hd
  have hi := getElem?_placeOf hs
  rw [hf.2] at hi
  cases hi
  refine ⟨a, .register r, rfl, ?_⟩
  by_cases hread : a.key = r.key ∨ ∃ i ∈ code, a.key ∈ i.readKeys
  · refine .joined rfl (by rw [hf.image h.targets, hf.target_fixed h.targets])
      ⟨.read (by simp [readKeys_copy]), ?_⟩
    intro q b s hg hne hk
    cases hf.place_eq hg hk
    cases hf.2.symm.trans hg.2
    exact hread.resolve_left hne
  · refine .unneeded fun hn => hread (.inr ?_)
    exact hn.1.read_somewhere ((List.suffix_cons _ rest).trans hs)

/-- Renamed registers occurred before. -/
theorem occurs_of_thin (h : Tractable code) {x : RegisterKey}
    (hx : Occurs (thin (folding code).targetOf.leaf (foldsAt code) code) x)
    : Occurs code x := by
  obtain ⟨y, hy, rfl⟩ := hx.of_thinned (thinned_thin _ _ code)
    (renames_leaf (onRegisters_targetOf h.targets))
  rcases keyImage_targetOf h.targets y with he | ⟨p, a, r, hf, -, he⟩
  · rwa [he]
  · rw [he]
    exact ⟨_, List.mem_of_getElem? hf.2, .inr rfl⟩

/-- The origin of a class in the code that an origin after folding comes from: the same assignment,
or the folded copy that brought its value into the class.
-/
theorem origin_of_folded (h : Tractable code) {C : Set Nat} {rest tail : List Inst}
    (hs : i :: rest <:+ code) (hkept : foldsAt code (i :: rest) = false)
    (ho : IsOrigin C (i.rename (folding code).targetOf.leaf :: tail))
    : IsOrigin C (i :: rest)
      ∨ ∃ p a r q e rest', Folds code p a r ∧ i = .assign (.register q) e ∧ q.key = r.key
          ∧ a.key ≠ r.key ∧ placeOf code rest' = p ∧ rest' <:+ code ∧ IsOrigin C rest' := by
  have hf := renames_leaf (onRegisters_targetOf h.targets)
  obtain ⟨q', e', tail', he, hq', hout⟩ := ho
  obtain ⟨q, e, rfl, hk, rfl⟩ := rename_eq_assign hf (List.cons.inj he).1
  have hcopy : ¬ IsCopyWithin C e := by
    rintro ⟨s, rfl, hsC⟩
    obtain ⟨s', hs', hsk⟩ := hf.register s
    refine hout ⟨s', by simp only [Expr.mapValues, mapLeaves, hs'], ?_⟩
    rcases keyImage_targetOf h.targets s.key with hfix | ⟨p, a, r, hfold, hr, himage⟩
    · rw [hfix] at hsk
      rwa [Register.index_eq_of_key hsk]
    · have hp := hfold.only_read (getElem?_placeOf hs) (by simp [readKeys_copy, hr])
      simp only [foldsAt, hp, decide_eq_false_iff_not] at hkept
      exact absurd hfold.1 hkept
  rcases keyImage_targetOf h.targets q.key with hfix | ⟨p, a, r, hfold, hr, himage⟩
  · rw [hfix] at hk
    exact .inl ⟨q, e, rest, rfl, Register.index_eq_of_key hk ▸ hq', hcopy⟩
  · by_cases hqC : q.index ∈ C
    · exact .inl ⟨q, e, rest, rfl, hqC, hcopy⟩
    · rw [himage] at hk
      have haC : a.index ∈ C := Register.index_eq_of_key hk ▸ hq'
      have hrC : r.index ∉ C := Register.index_eq_of_key hr ▸ hqC
      obtain ⟨tail'', hts, htp⟩ := exists_suffix_of_getElem? hfold.2
      refine .inr ⟨p, a, r, q, e, _, hfold, rfl, hr.symm, ?_, htp, hts, a, _, tail'', rfl, haC, ?_⟩
      · exact fun har => hrC (Register.index_eq_of_key har ▸ haC)
      · rintro ⟨s, hs', hsC⟩
        obtain rfl : r = s := by simpa using hs'
        exact hrC hsC

/-- Folding sources with one assignment keeps a code classified. -/
theorem classified_folded (h : Tractable code) {cls : Setoid Nat} (hc : Classified code cls)
    (hone : ∀ p a r, Folds code p a r → a.key ≠ r.key → (sourcesOf code r.key).length ≤ 1)
    : Classified (thin (folding code).targetOf.leaf (foldsAt code) code) cls := by
  intro n
  rcases hc n with huniq | one
  · exact .inl fun x y hx hy => huniq x y (occurs_of_thin h hx) (occurs_of_thin h hy)
  · right
    intro rest₁' rest₂' hs₁' hs₂' ho₁ ho₂
    obtain ⟨_, _, _, rfl, -, -⟩ := id ho₁
    obtain ⟨_, _, _, rfl, -, -⟩ := id ho₂
    obtain ⟨i₁, rest₁, hs₁, hk₁, hi₁, he₁⟩ := thin_suffix hs₁'
    obtain ⟨i₂, rest₂, hs₂, hk₂, hi₂, he₂⟩ := thin_suffix hs₂'
    rw [he₁, he₂]
    rw [hi₁] at ho₁
    rw [hi₂] at ho₂
    congr 1
    have hnot : ∀ {i rest rest'} {p : Nat}, foldsAt code (i :: rest) = false →
        p ∈ (folding code).places → placeOf code rest' = p → i :: rest ≠ rest' := by
      rintro i rest _ p hk hp hplace rfl
      simp only [foldsAt, hplace, decide_eq_false_iff_not] at hk
      exact hk hp
    rcases origin_of_folded h hs₁ hk₁ ho₁ with
      ho₁ | ⟨p₁, a₁, r₁, q₁, e₁, rest₁', hf₁, rfl, hq₁, hne₁, hp₁, hr₁, ho₁⟩
    · rcases origin_of_folded h hs₂ hk₂ ho₂ with
        ho₂ | ⟨p₂, a₂, r₂, q₂, e₂, rest₂', hf₂, rfl, hq₂, hne₂, hp₂, hr₂, ho₂⟩
      · exact one hs₁ hs₂ ho₁ ho₂
      · exact absurd (one hs₁ hr₂ ho₁ ho₂) (hnot hk₁ hf₂.1 hp₂)
    · rcases origin_of_folded h hs₂ hk₂ ho₂ with
        ho₂ | ⟨p₂, a₂, r₂, q₂, e₂, rest₂', hf₂, rfl, hq₂, hne₂, hp₂, hr₂, ho₂⟩
      · exact absurd (one hs₂ hr₁ ho₂ ho₁) (hnot hk₂ hf₁.1 hp₁)
      · cases one hr₁ hr₂ ho₁ ho₂
        cases hp₁.symm.trans hp₂
        cases hf₁.2.symm.trans hf₂.2
        exact suffix_eq_of_sourcesOf (hone p₁ a₁ r₁ hf₁ hne₁) hs₁ hs₂ hq₁ hq₂

theorem step_sound (h : Tractable code) (hsafe : FoldsSafely code)
    : SameBehaviour code (step code) ∧ Tractable (step code) := by
  rw [step_eq_thin]
  have ht := thinned_thin (folding code).targetOf.leaf (foldsAt code) code
  have hf := renames_leaf (onRegisters_targetOf h.targets)
  refine h.recolour (recolouring_thin hf (neededBefore code) ?_ ?_ ?_) ht ?_
  · intro l rest hs
    by_contra hd
    obtain ⟨r, v, hi, -⟩ := droppable_folded h hs (by simpa using hd)
    cases hi
  · exact fun ha hd => droppable_folded h ha.suffix hd
  · intro i rest A ha hk
    exact ⟨fun x hx => needed_of_read ha.suffix hk hx, noClash_folding h hsafe ha.suffix⟩
  · by_cases htypes : OneTypeEach code
    · refine ⟨⊥, fun n => .inl fun x y hx hy hnx hny => ?_⟩
      exact htypes x y (occurs_of_thin h hx) (occurs_of_thin h hy) (hnx.symm.trans hny)
    · obtain ⟨cls, hc⟩ := h.classified
      refine ⟨cls, classified_folded h hc fun p a r hf hne => ?_⟩
      exact (hsafe p a r hf hne).resolve_right fun hor => htypes hor.1

end Step

end FoldedCopies

end StackLift
