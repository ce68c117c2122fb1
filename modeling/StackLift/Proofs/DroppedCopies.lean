import StackLift.Proofs.Thinning
import StackLift.Simplify.CopyChains
import StackLift.Simplify.DeadCopies
import StackLift.Simplify.RepeatedCopies

/-!
The passes that drop copies and rename nothing: copies into unread registers, copies of a register
into itself, and copies of what a register already holds. All three keep the behaviour of a code.
-/

namespace StackLift

open RegisterMachine Value RepeatedCopies Interpretation

-- Values without names

variable {r : Register}

theorem Value.same_register_iff {v : Value}
    : v.Same (.register r) ↔ ∃ q, v = .register q ∧ q.key = r.key := by
  cases v with
  | register q =>
      simp [Same, anonymous, mapLeaves, dropName, Register.key]
  | _ => simp [Same, anonymous, mapLeaves, dropName]

theorem Value.registers_same_iff {r q : Register}
    : (register r).Same (.register q) ↔ r.key = q.key := by
  refine same_register_iff.trans ⟨fun ⟨p, hp, hk⟩ => ?_, fun hk => ⟨r, rfl, hk⟩⟩
  cases hp
  exact hk

theorem Value.Same.shape {v w : Value} (h : v.Same w)
    : v.shape = w.shape :=
  congrArg (mapLeaves _) h

variable {i : Inst} {code : List Inst}

/-- An instruction reads a register if it reads a value that differs at most in its name. -/
theorem mem_readKeys_iff
    : r.key ∈ i.readKeys ↔ ∃ v ∈ i.reads, v.anonymous = (register r).anonymous := by
  rw [Inst.readKeys, mem_keysOf]
  constructor
  · rintro ⟨q, hq, hk⟩
    refine ⟨.register q, List.mem_filter.mpr ⟨hq, rfl⟩, ?_⟩
    exact same_register_iff.mpr ⟨q, rfl, hk⟩
  · rintro ⟨v, hv, ha⟩
    obtain ⟨q, rfl, hk⟩ := same_register_iff.mp ha
    exact ⟨q, (List.mem_filter.mp hv).1, hk⟩

theorem mem_readsOf {read : Read}
    : read ∈ readsOf code
      ↔ ∃ i, code[read.place]? = some i ∧ ∃ v ∈ i.reads, v.anonymous = read.value := by
  simp only [readsOf, List.mem_flatMap, List.mem_map, Prod.exists]
  constructor
  · rintro ⟨i, place, hi, v, hv, rfl⟩
    exact ⟨i, List.mem_zipIdx_iff_getElem?.mp hi, v, hv, rfl⟩
  · rintro ⟨i, hi, v, hv, ha⟩
    exact ⟨i, read.place, List.mem_zipIdx_iff_getElem?.mpr hi, v, hv, by rw [ha]⟩

-- Dead copies

/-- A register without a first read is read nowhere. -/
theorem not_mem_readKeys_of_firstRead? (h : firstRead? (readsOf code) (.register r) = none)
    (hi : i ∈ code)
    : r.key ∉ i.readKeys := by
  intro hr
  obtain ⟨v, hv, ha⟩ := mem_readKeys_iff.mp hr
  obtain ⟨place, hp⟩ := List.mem_iff_getElem?.mp hi
  simp only [firstRead?, Option.map_eq_none_iff, List.find?_eq_none, decide_eq_true_eq] at h
  exact h ⟨place, v.anonymous⟩ (mem_readsOf.mpr ⟨i, hp, v, hv, rfl⟩) ha

theorem dropUnreadCopies_sound (h : Tractable code)
    : SameBehaviour code (dropUnreadCopies code) ∧ Tractable (dropUnreadCopies code) := by
  refine h.filter (fun _ x => ∃ i ∈ code, x ∈ i.readKeys) ⟨fun _ _ hx => hx, fun _ hx => hx⟩
    (fun _ => rfl) ?_ ?_
  · intro i rest A ha hd
    have hi := ha.suffix.subset List.mem_cons_self
    cases i with
    | assign target source =>
        cases source with
        | value v =>
            simp only [isDeadCopy, Bool.not_eq_false', Bool.and_eq_true, Option.isNone_iff_eq_none]
              at hd
            obtain ⟨r, rfl⟩ := h.targets _ hi _ _ rfl hd.1
            refine ⟨r, v, rfl, .unneeded ?_⟩
            rintro ⟨j, hj, hr⟩
            exact not_mem_readKeys_of_firstRead? hd.2 hj hr
        | _ => simp [isDeadCopy] at hd
    | _ => simp [isDeadCopy] at hd
  · intro i rest A ha _ x hx
    exact ⟨i, ha.suffix.subset List.mem_cons_self, hx⟩

/-- Steps that keep the behaviour keep it when repeated. -/
theorem whileShorter_sound {step : List Inst → List Inst} {P : List Inst → Prop}
    (hstep : ∀ {code}, P code → Tractable code → (step code).length < code.length →
      SameBehaviour code (step code) ∧ Tractable (step code) ∧ P (step code))
    {code : List Inst} (hP : P code) (h : Tractable code)
    : SameBehaviour code (whileShorter step code) ∧ Tractable (whileShorter step code) := by
  rw [whileShorter]
  split
  · obtain ⟨hs, ht, hn⟩ := hstep hP h ‹_›
    obtain ⟨hs', ht'⟩ := whileShorter_sound hstep hn ht
    exact ⟨hs.trans hs', ht'⟩
  · exact ⟨h.sameBehaviour_self, h⟩
termination_by code.length

theorem dropDeadCopies_sound (h : Tractable code)
    : SameBehaviour code (dropDeadCopies code) ∧ Tractable (dropDeadCopies code) :=
  whileShorter_sound (P := fun _ => True)
    (fun _ h _ => ⟨(dropUnreadCopies_sound h).1, (dropUnreadCopies_sound h).2, trivial⟩)
    trivial h

-- Copies of a register into itself

/-- What becomes a copy of a register into itself copies a register with the same new name. -/
theorem eq_of_isSelfCopy_rename {f : Value → Value} {σ : RegisterKey → RegisterKey}
    (hf : Renames f σ) {e : Expr} (hs : isSelfCopy ((Inst.assign (.register r) e).rename f))
    : ∃ q, e = .value (.register q) ∧ σ q.key = σ r.key := by
  obtain ⟨r', hr', hk⟩ := hf.register r
  cases e with
  | value v =>
      simp only [Inst.rename, Inst.mapValues, Expr.mapValues, mapLeaves, hr', isSelfCopy,
        decide_eq_true_eq] at hs
      obtain ⟨q', hq', hqk⟩ := same_register_iff.mp hs
      cases v with
      | register q =>
          obtain ⟨q'', hq'', hqk''⟩ := hf.register q
          simp only [mapLeaves, hq'', register.injEq] at hq'
          subst hq'
          exact ⟨q, rfl, by rw [← hqk'', hqk, hk]⟩
      | this type => simp [mapLeaves, hf.this] at hq'
      | argument a => simp [mapLeaves, hf.argument] at hq'
      | constant c => simp [mapLeaves, hf.constant] at hq'
      | _ => simp [mapLeaves] at hq'
  | _ => simp [Inst.rename, Inst.mapValues, Expr.mapValues, isSelfCopy] at hs

/-- What becomes a copy of a value into itself copies a register, as fields and elements are not
read into such of the same shape.
-/
theorem Tractable.eq_of_isSelfCopy_rename (h : Tractable code)
    {f : Value → Value} {σ : RegisterKey → RegisterKey} (hf : Renames f σ)
    (hi : i ∈ code) (hs : isSelfCopy (i.rename f))
    : ∃ r q, i = .assign (.register r) (.value (.register q)) ∧ σ q.key = σ r.key := by
  cases i with
  | assign target source =>
      have htarget : target.isSimple := by
        by_contra hc
        simp only [isSimple, Bool.not_eq_true', Bool.not_eq_false] at hc
        cases source with
        | value v =>
            simp only [Inst.rename, Inst.mapValues, Expr.mapValues, isSelfCopy,
              decide_eq_true_eq] at hs
            refine h.stores hi hc ?_
            rw [← hf.shape_mapLeaves, ← hf.shape_mapLeaves target]
            exact hs.shape
        | _ => simp [Inst.rename, Inst.mapValues, Expr.mapValues, isSelfCopy] at hs
      obtain ⟨r, rfl⟩ := h.targets _ hi _ _ rfl htarget
      obtain ⟨q, rfl, hk⟩ := StackLift.eq_of_isSelfCopy_rename hf hs
      exact ⟨r, q, rfl, hk⟩
  | _ => simp [Inst.rename, Inst.mapValues, isSelfCopy] at hs

theorem dropSelfCopies_sound (h : Tractable code)
    : SameBehaviour code (code.filter fun i => !isSelfCopy i)
      ∧ Tractable (code.filter fun i => !isSelfCopy i) := by
  refine h.filter _ (neededBefore_all code) (fun _ => rfl) ?_ fun _ _ _ _ => trivial
  intro i rest A ha hd
  obtain ⟨r, q, rfl, hk⟩ := h.eq_of_isSelfCopy_rename renames_id
    (ha.suffix.subset List.mem_cons_self) (by simpa [Inst.rename_id] using hd)
  exact ⟨r, .register q, rfl, .joined rfl hk trivial⟩

-- Repeated copies

namespace RepeatedCopies

/-- Every known copy is one into a register that a path has assigned. -/
def Assigned (A : Set RegisterKey) (known : Known) : Prop :=
  ∀ entry ∈ known, ∃ r : Register, entry.1 = (register r).anonymous ∧ r.key ∈ A

/-- Every known copy of a simple value still holds. -/
def Hold {D : Type} (I : Interpretation D) (file : RegisterFile D) (known : Known) : Prop :=
  ∀ entry ∈ known, ∃ r : Register, entry.1 = (register r).anonymous ∧ entry.2.isSimple
    ∧ ∀ history, file r.key = I.eval history file entry.2

theorem copy?_eq_some {target source : Value} (h : copy? i = some (target, source))
    : i = .assign target (.value source) ∧ target.isSimple ∧ source.isSimple := by
  cases i with
  | assign t e =>
      cases e with
      | value v =>
          simp only [copy?] at h
          split at h
          · rename_i hs
            simp only [Option.some.injEq, Prod.mk.injEq] at h
            obtain ⟨rfl, rfl⟩ := h
            simpa using hs
          · cases h
      | _ => cases h
  | _ => cases h

/-- What is known after an instruction was known before or is the copy it makes. In the first case
the instruction assigns neither side.
-/
theorem mem_after {known : Known} {entry : Value × Value} (h : entry ∈ after known i)
    : (entry ∈ known ∧ ∀ target source, i = .assign target source →
        ¬ entry.2.Same target ∧ entry.1 ≠ target.anonymous)
      ∨ ∃ target source, copy? i = some (target, source)
          ∧ entry = (target.anonymous, source) := by
  have herase : ∀ {target : Value}, entry ∈ ValueMap.erase (forgetCopiesOf known target) target →
      entry ∈ known ∧ ¬ entry.2.Same target ∧ entry.1 ≠ target.anonymous := by
    intro target hm
    obtain ⟨hm, hk⟩ := List.mem_filter.mp hm
    obtain ⟨hm, hv⟩ := List.mem_filter.mp hm
    exact ⟨hm, by simpa using hv, by simpa using hk⟩
  cases i with
  | label l => cases h
  | assign target source =>
      simp only [after] at h
      cases hc : copy? (.assign target source) with
      | none =>
          simp only [hc] at h
          obtain ⟨hm, hv, hk⟩ := herase h
          exact .inl ⟨hm, fun _ _ he => by cases he; exact ⟨hv, hk⟩⟩
      | some copy =>
          obtain ⟨target', source'⟩ := copy
          simp only [hc, ValueMap.insert] at h
          have ht : target = target' := (Inst.assign.inj (copy?_eq_some hc).1).1
          subst ht
          rcases List.mem_cons.mp h with rfl | h
          · exact .inr ⟨target, source', rfl, rfl⟩
          · obtain ⟨hm, hv, hk⟩ := herase h
            exact .inl ⟨hm, fun _ _ he => by cases he; exact ⟨hv, hk⟩⟩
  | _ => exact .inl ⟨h, fun _ _ he => by cases he⟩

/-- The value of a simple value changes only where it is written. -/
theorem eval_update_of_not_same {D : Type} (I : Interpretation D)
    (history history' : List (Action D)) (file : RegisterFile D) {v : Value} (hv : v.isSimple)
    (hr : ¬ v.Same (.register r)) (value : D)
    : I.eval history (Function.update file r.key value) v = I.eval history' file v := by
  cases v with
  | register q =>
      have hq : q.key ≠ r.key := fun hk => hr (same_register_iff.mpr ⟨q, rfl, hk⟩)
      simp [eval, Function.update_of_ne hq]
  | this | argument | constant => rfl
  | _ => simp [isSimple, isComplex] at hv

section Step

variable {known : Known}

theorem Assigned.after {A : Set RegisterKey} (h : Assigned A known)
    (htarget : i.AssignsPlace)
    : Assigned (A ∪ {x | i.assigned? = some x}) (after known i) := by
  intro entry he
  rcases mem_after he with ⟨hm, -⟩ | ⟨target, source, hc, rfl⟩
  · obtain ⟨r, hr, hA⟩ := h entry hm
    exact ⟨r, hr, .inl hA⟩
  · obtain ⟨rfl, ht, -⟩ := copy?_eq_some hc
    obtain ⟨r, rfl⟩ := htarget _ _ rfl ht
    exact ⟨r, rfl, .inr rfl⟩

/-- What was known still holds, since neither of its sides is written, and the copy that was made
holds.
-/
theorem Hold.after {D : Type} {I : Interpretation D} {history : List (Action D)}
    {file : RegisterFile D} {actions : List (Action D)} {written : Option (RegisterKey × D)}
    (h : Hold I file known)
    (htarget : i.AssignsPlace)
    (heff : I.effect history file i = .proceed actions written)
    : Hold I (file.write written) (after known i) := by
  intro entry he
  rcases mem_after he with ⟨hm, hother⟩ | ⟨target, source, hc, rfl⟩
  · obtain ⟨r, hr, hs, hval⟩ := h entry hm
    refine ⟨r, hr, hs, fun history' => ?_⟩
    cases written with
    | none => exact hval history'
    | some w =>
        obtain ⟨x, value⟩ := w
        obtain ⟨q, e, rfl, rfl, -⟩ := Recolouring.effect_written heff
        obtain ⟨hv, hk⟩ := hother _ _ rfl
        have hrq : r.key ≠ q.key := fun hrq =>
          hk (hr.trans (same_register_iff.mpr ⟨r, rfl, hrq⟩))
        rw [RegisterFile.write_some, Function.update_of_ne hrq,
          eval_update_of_not_same I history' history' file hs hv]
        exact hval history'
  · obtain ⟨rfl, ht, hs⟩ := copy?_eq_some hc
    obtain ⟨r, rfl⟩ := htarget _ _ rfl ht
    refine ⟨r, rfl, hs, fun history' => ?_⟩
    simp only [effect, assign, evalExpr,
      Effect.proceed.injEq] at heff
    rw [← heff.2, RegisterFile.write_some, Function.update_self]
    by_cases hsame : source.Same (.register r)
    · obtain ⟨q, rfl, hk⟩ := same_register_iff.mp hsame
      simp [eval, hk]
    · rw [eval_update_of_not_same I history' history file hs hsame]

end Step

/-- What is known before the rest of a code. -/
def knownBefore (before : List Inst) : Known :=
  before.foldl after []

@[simp] theorem knownBefore_concat (before : List Inst) (i : Inst)
    : knownBefore (before ++ [i]) = after (knownBefore before) i := by
  simp [knownBefore]

theorem before_eq_concat {before before' rest : List Inst}
    (h : before ++ rest = before' ++ i :: rest)
    : before = before' ++ [i] :=
  List.append_cancel_right (by simpa using h)

/-- A path that comes to an instruction other than a label has followed the code since the last
label, so what is known there was assigned.
-/
theorem assigned_knownBefore (h : Tractable code) {rest : List Inst}
    {A : Set RegisterKey} (ha : Arrives code rest A)
    : ∀ before i tail, code = before ++ rest → rest = i :: tail → i.label? = none →
        Assigned A (knownBefore before) := by
  induction ha with
  | start =>
      intro before i tail hcode _ _
      rw [List.self_eq_append_left.mp hcode]
      exact fun entry he => nomatch he
  | @proceed j rest A ha hp ih =>
      rintro before i tail hcode rfl hi
      obtain ⟨before', hb⟩ := ha.suffix
      obtain rfl := before_eq_concat (hcode.symm.trans hb.symm)
      rw [knownBefore_concat]
      cases hj : j.label? with
      | some l =>
          cases j with
          | label => exact fun entry he => nomatch he
          | _ => cases hj
      | none =>
          exact (ih before' j _ hb.symm rfl hj).after
            (h.targets j (ha.suffix.subset List.mem_cons_self))
  | @jump j rest A l ha hl ih =>
      intro before i tail hcode hr hi
      rw [codeAt_eq_cons hr] at hi
      cases hi

/-- What is known in front of an instruction other than a label holds in every run that comes to it.
-/
theorem hold_knownBefore (h : Tractable code) {D : Type}
    {I : Interpretation D} {registers : RegisterFile D} {s : State D}
    (hr : Reached I code registers s) (hs : s.outcome = none)
    : ∀ before i tail, code = before ++ s.rest → s.rest = i :: tail → i.label? = none →
        Hold I s.registers (knownBefore before) := by
  refine (hr.induction (P := fun rest file => rest <:+ code ∧
    ∀ before i tail, code = before ++ rest → rest = i :: tail → i.label? = none →
      Hold I file (knownBefore before)) hs ⟨List.suffix_refl code, ?_⟩ ?_ ?_).2
  · intro before i tail hcode _ _
    rw [List.self_eq_append_left.mp hcode]
    exact fun entry he => nomatch he
  · rintro j rest file history actions written ⟨hsuf, ih⟩ heff
    refine ⟨(List.suffix_cons j rest).trans hsuf, ?_⟩
    rintro before i tail hcode rfl hi
    obtain ⟨before', hb⟩ := id hsuf
    obtain rfl := before_eq_concat (hcode.symm.trans hb.symm)
    rw [knownBefore_concat]
    cases hj : j.label? with
    | some l =>
        cases j with
        | label => exact fun entry he => nomatch he
        | _ => cases hj
    | none =>
        exact (ih before' j _ hb.symm rfl hj).after
          (h.targets j (hsuf.subset List.mem_cons_self)) heff
  · rintro j rest file l ⟨_, _⟩ _
    refine ⟨codeAt_suffix code l, ?_⟩
    intro before i tail hcode hr hi
    rw [codeAt_eq_cons hr] at hi
    cases hi

theorem thinned_drop (known : Known) (code : List Inst)
    : Thinned id code (drop known code) := by
  induction code generalizing known with
  | nil => exact .nil
  | cons i rest ih =>
      simp only [drop]
      split
      · exact (ih _).drop
      · have hkeep := (ih (after known i)).keep (i := i)
        rwa [Inst.rename_id] at hkeep

/-- Nothing is known at a label, so jumps come to related places. -/
theorem codeAt_drop (known known' : Known) (code : List Inst) (l : CodeLabel)
    : codeAt (drop known code) l = drop known' (codeAt code l) := by
  induction code generalizing known with
  | nil => rfl
  | cons i rest ih =>
      have hlabel : ∀ known tail, drop known (.label l :: tail) = .label l :: drop [] tail := by
        intro known tail
        simp [drop, isRepeated, copy?, after]
      have ih := ih (after known i)
      simp only [drop]
      split
      next hrepeated =>
        have hi : i ≠ .label l := by
          rintro rfl
          simp [isRepeated, copy?] at hrepeated
        rw [codeAt_cons_of_ne (.inl hi), ih]
      next =>
        refine codeAt_cons_congr rfl (fun _ => by simp [hlabel]) ih Iff.rfl ?_
        rintro rfl
        exact hlabel known' rest

theorem eval_anonymous {D : Type} (I : Interpretation D) (history : List (Action D))
    (file : RegisterFile D) (v : Value)
    : I.eval history file v.anonymous = I.eval history file v := by
  induction v with
  | field object owner name type ih =>
      simp only [anonymous] at ih
      simp only [anonymous, mapLeaves, eval, ih]
  | element array index type iha ihi =>
      simp only [anonymous] at iha ihi
      simp only [anonymous, mapLeaves, eval, iha, ihi]
  | _ => rfl

/-- A repeated copy goes into a register that is known to hold a copy of the same value. -/
theorem mem_of_isRepeated {known : Known} (h : isRepeated known i)
    : ∃ target source v, i = .assign target (.value source) ∧ target.isSimple
        ∧ (target.anonymous, v) ∈ known ∧ v.Same source := by
  simp only [isRepeated] at h
  cases hc : copy? i with
  | none => simp [hc] at h
  | some copy =>
      obtain ⟨target, source⟩ := copy
      obtain ⟨hi, ht, -⟩ := copy?_eq_some hc
      simp only [hc, holds, Option.any_eq_true, decide_eq_true_eq] at h
      obtain ⟨v, hv, hsame⟩ := h
      obtain ⟨l₁, l₂, hl, -⟩ := List.lookup_eq_some_iff.mp hv
      have hm : (target.anonymous, v) ∈ forgetCopiesOf known target := by simp [hl]
      exact ⟨target, source, v, hi, ht, (List.mem_filter.mp hm).1, hsame⟩

theorem droppable_of_isRepeated {code before rest : List Inst} (h : Tractable code)
    (hcode : code = before ++ i :: rest) (hi : isRepeated (knownBefore before) i)
    : ∃ r v, i = .assign (.register r) (.value v)
        ∧ Droppable code id (fun _ _ => True) rest r v := by
  obtain ⟨target, source, v, rfl, ht, hm, hsame⟩ := mem_of_isRepeated hi
  have hi : .assign target (.value source) ∈ code :=
    hcode ▸ List.mem_append_right before List.mem_cons_self
  obtain ⟨r, rfl⟩ := h.targets _ hi _ _ rfl ht
  refine ⟨r, source, rfl, .held trivial (fun A ha => ?_) ?_⟩
  · obtain ⟨q, hq, hA⟩ := assigned_knownBefore h ha before _ rest hcode rfl rfl _ hm
    obtain ⟨_, he, hk⟩ := same_register_iff.mp hq
    cases he
    exact hk ▸ hA
  · intro D I registers s hr hs hrest
    obtain ⟨q, hq, -, hval⟩ :=
      hold_knownBefore h hr hs before _ rest (hrest ▸ hcode) hrest rfl _ hm
    obtain ⟨_, he, hk⟩ := same_register_iff.mp hq
    cases he
    rw [hk, hval s.history, ← eval_anonymous, hsame, eval_anonymous]

end RepeatedCopies

theorem dropRepeatedCopies_sound (h : Tractable code)
    : SameBehaviour code (dropRepeatedCopies code) ∧ Tractable (dropRepeatedCopies code) := by
  have ht := thinned_drop [] code
  have hr : Recolouring code (dropRepeatedCopies code) id id (fun _ _ => True)
      fun rest rest' => ∃ before, code = before ++ rest
        ∧ rest' = drop (knownBefore before) rest := by
    refine ⟨renames_id, neededBefore_all code, ⟨[], rfl, rfl⟩, fun l => ?_, ?_, ?_⟩
    · obtain ⟨before, hb⟩ := codeAt_suffix code l
      exact ⟨before, hb.symm, codeAt_drop _ _ code l⟩
    · rintro rest' ⟨before, -, rfl⟩
      rfl
    · rintro i rest rest' A ha ⟨before, hcode, rfl⟩
      have hat : ∃ before', code = before' ++ rest
          ∧ drop (after (knownBefore before) i) rest
            = drop (knownBefore before') rest :=
        ⟨before ++ [i], by simpa using hcode, by rw [knownBefore_concat]⟩
      cases hi : isRepeated (knownBefore before) i with
      | true =>
          obtain ⟨r, v, hiv, hd⟩ := droppable_of_isRepeated h hcode hi
          simp only [drop, hi, if_true]
          exact .dropped hiv hat hd
      | false =>
          simp only [drop, hi, Bool.false_eq_true, if_false]
          exact .kept (by rw [Inst.rename_id]) hat (fun _ _ => trivial)
            (noClash_id code (fun _ _ => True) i rest)
  exact h.recolour hr ht (h.classified_of_thinned ht)

end StackLift
