import StackLift.Proofs.CopyClasses

/-!
Codes that come from another one by renaming registers and dropping instructions. What the passes
rely on is kept: the form of assignments, and the classes of registers.
-/

namespace StackLift

open RegisterMachine Value

-- Thinned codes

/-- The second code consists of renamed instructions of the first one, in their order. -/
inductive Thinned (f : Value → Value) : List Inst → List Inst → Prop
  | nil : Thinned f [] []
  | keep {i : Inst} {code other : List Inst} :
    Thinned f code other → Thinned f (i :: code) (i.rename f :: other)
  | drop {i : Inst} {code other : List Inst} :
    Thinned f code other → Thinned f (i :: code) other

namespace Thinned

variable {f : Value → Value} {code other : List Inst}

theorem mem (h : Thinned f code other) {j : Inst} (hj : j ∈ other)
    : ∃ i ∈ code, j = i.rename f := by
  induction h with
  | nil => cases hj
  | @keep i code other _ ih =>
      rcases List.mem_cons.mp hj with rfl | hj
      · exact ⟨i, List.mem_cons_self, rfl⟩
      · obtain ⟨k, hk, rfl⟩ := ih hj
        exact ⟨k, List.mem_cons_of_mem i hk, rfl⟩
  | @drop i code other _ ih =>
      obtain ⟨k, hk, rfl⟩ := ih hj
      exact ⟨k, List.mem_cons_of_mem i hk, rfl⟩

/-- Every place of the second code comes from one of the first. -/
theorem suffix (h : Thinned f code other) {j : Inst} {tail' : List Inst}
    (hs : j :: tail' <:+ other)
    : ∃ i tail, i :: tail <:+ code ∧ j = i.rename f ∧ Thinned f tail tail' := by
  induction h with
  | nil => cases List.suffix_nil.mp hs
  | @keep i code other ht ih =>
      rcases List.suffix_cons_iff.mp hs with he | hs
      · obtain ⟨rfl, rfl⟩ := List.cons.inj he
        exact ⟨i, code, List.suffix_refl _, rfl, ht⟩
      · obtain ⟨k, tail, hk, hj, ht⟩ := ih hs
        exact ⟨k, tail, hk.trans (List.suffix_cons i code), hj, ht⟩
  | @drop i code other _ ih =>
      obtain ⟨k, tail, hk, hj, ht⟩ := ih hs
      exact ⟨k, tail, hk.trans (List.suffix_cons i code), hj, ht⟩

end Thinned

section Classes

variable {f : Value → Value} {σ : RegisterKey → RegisterKey} {code other : List Inst}

theorem Occurs.of_thinned (ht : Thinned f code other) (hf : Renames f σ) {x : RegisterKey}
    (h : Occurs other x)
    : ∃ y, Occurs code y ∧ x = σ y := by
  obtain ⟨j, hj, hx⟩ := h
  obtain ⟨i, hi, rfl⟩ := ht.mem hj
  rw [hf.readKeys_rename, hf.assigned?_rename, List.mem_map, Option.map_eq_some_iff] at hx
  rcases hx with ⟨y, hy, rfl⟩ | ⟨y, hy, rfl⟩
  · exact ⟨y, ⟨i, hi, .inl hy⟩, rfl⟩
  · exact ⟨y, ⟨i, hi, .inr hy⟩, rfl⟩

/-- The assignment that a renamed assignment comes from. -/
theorem rename_eq_assign (hf : Renames f σ) {i : Inst} {r' : Register} {e' : Expr}
    (h : i.rename f = .assign (.register r') e')
    : ∃ r e, i = .assign (.register r) e ∧ r'.key = σ r.key
        ∧ e' = e.mapValues (mapLeaves f) := by
  have ha := hf.assigned?_rename i
  cases i with
  | assign target source =>
      simp only [Inst.rename, Inst.mapValues, Inst.assign.injEq] at h
      simp only [Inst.rename, Inst.mapValues, h.1] at ha
      cases target with
      | register r => exact ⟨r, source, rfl, by simpa [Inst.assigned?] using ha, h.2.symm⟩
      | _ => simp [Inst.assigned?] at ha
  | _ => simp [Inst.rename, Inst.mapValues] at h

/-- A renaming within the classes makes no origin of a copy. -/
theorem IsOrigin.of_rename (hf : Renames f σ) {C : Set Nat}
    (hσ : ∀ x, Occurs code x → (x.1 ∈ C ↔ (σ x).1 ∈ C)) {i : Inst} {tail tail' : List Inst}
    (hs : i :: tail <:+ code) (h : IsOrigin C (i.rename f :: tail'))
    : IsOrigin C (i :: tail) := by
  obtain ⟨r', e', tail'', he, hr', hout⟩ := h
  obtain ⟨r, e, rfl, hk, rfl⟩ := rename_eq_assign hf (List.cons.inj he).1
  have hr : r'.index = (σ r.key).1 := congrArg Prod.fst hk
  rw [hr, ← hσ r.key (.of_assign hs)] at hr'
  refine ⟨r, e, tail, rfl, hr', ?_⟩
  rintro ⟨q, rfl, hq⟩
  obtain ⟨q', hq', hqk⟩ := hf.register q
  refine hout ⟨q', by simp only [Expr.mapValues, mapLeaves, hq'], ?_⟩
  have hqo : Occurs code q.key := ⟨_, hs.subset List.mem_cons_self, .inl (mem_readKeys_copy r q)⟩
  have hqi : q'.index = (σ q.key).1 := congrArg Prod.fst hqk
  rw [hqi, ← hσ q.key hqo]
  exact hq

/-- Two places of the second code come from different places of the first, so it has no more
origins.
-/
theorem OneOrigin.of_thinned (ht : Thinned f code other) (hf : Renames f σ) {C : Set Nat}
    (hσ : ∀ x, Occurs code x → (x.1 ∈ C ↔ (σ x).1 ∈ C)) (h : OneOrigin code C)
    : OneOrigin other C := by
  -- Of two origins, the later one lies in the tail of the earlier one.
  have later : ∀ {j : Inst} {tail' rest' : List Inst}, j :: tail' <:+ other → rest' <:+ tail' →
      IsOrigin C (j :: tail') → IsOrigin C rest' → False := by
    intro j tail' rest' hs hs' ho ho'
    obtain ⟨i, tail, hi, rfl, ht'⟩ := ht.suffix hs
    obtain ⟨r, e, rest, rfl, -, -⟩ := id ho'
    obtain ⟨k, rest₁, hk, hke, -⟩ := ht'.suffix hs'
    rw [hke] at ho'
    have hkc : k :: rest₁ <:+ code := (hk.trans (List.suffix_cons i tail)).trans hi
    have heq := h hi hkc (ho.of_rename hf hσ hi) (ho'.of_rename hf hσ hkc)
    have hle := hk.length_le
    rw [← heq, List.length_cons] at hle
    omega
  intro rest rest' hs hs' ho ho'
  obtain ⟨r, e, tail, rfl, -, -⟩ := id ho
  obtain ⟨r', e', tail', rfl, -, -⟩ := id ho'
  rcases List.suffix_or_suffix_of_suffix hs hs' with hsuf | hsuf
  · rcases List.suffix_cons_iff.mp hsuf with he | hsuf
    · exact he
    · exact (later hs' hsuf ho' ho).elim
  · rcases List.suffix_cons_iff.mp hsuf with he | hsuf
    · exact he.symm
    · exact (later hs hsuf ho ho').elim

theorem Classified.of_thinned (ht : Thinned f code other) (hf : Renames f σ) {cls : Setoid Nat}
    (hσ : ∀ x, Occurs code x → cls x.1 (σ x).1) (h : Classified code cls)
    : Classified other cls := by
  intro n
  rcases h n with hone | one
  · left
    intro x y hx hy hnx hny
    obtain ⟨x, hxo, rfl⟩ := hx.of_thinned ht hf
    obtain ⟨y, hyo, rfl⟩ := hy.of_thinned ht hf
    rw [hone x y hxo hyo (cls.trans hnx (cls.symm (hσ x hxo)))
      (cls.trans hny (cls.symm (hσ y hyo)))]
  · right
    refine one.of_thinned ht hf fun x hx => ?_
    exact ⟨fun h => cls.trans h (hσ x hx), fun h => cls.trans h (cls.symm (hσ x hx))⟩

end Classes

-- What the passes rely on

/-- The value without names and registers. -/
def Value.shape (v : Value) : Value :=
  v.anonymous.mapLeaves fun w => if w.register?.isSome then .constant .null else w

/-- Assignments go to registers, fields and elements, no field or element is read right into one
that may become the same by renaming, registers are assigned before they are read, and they are
classified.
-/
structure Tractable (code : List Inst) : Prop where
  targets : ∀ i ∈ code, i.AssignsPlace
  stores : ∀ {target v}, .assign target (.value v) ∈ code → target.isComplex →
    v.shape ≠ target.shape
  assigned : AssignedBeforeRead code
  classified : ∃ cls, Classified code cls

section Tractable

variable {f : Value → Value} {σ : RegisterKey → RegisterKey} {code other : List Inst}

theorem Renames.isComplex_mapLeaves (hf : Renames f σ) (v : Value)
    : (v.mapLeaves f).isComplex = v.isComplex := by
  cases v with
  | register r =>
      obtain ⟨s, hs, -⟩ := hf.register r
      simp [mapLeaves, hs, isComplex]
  | this type => simp [mapLeaves, hf.this]
  | argument a => simp [mapLeaves, hf.argument]
  | constant c => simp [mapLeaves, hf.constant]
  | _ => rfl

theorem Renames.shape_mapLeaves (hf : Renames f σ) (v : Value)
    : (v.mapLeaves f).shape = v.shape := by
  induction v with
  | register r =>
      obtain ⟨s, hs, -⟩ := hf.register r
      simp [mapLeaves, hs, shape, anonymous, dropName, register?]
  | field object owner name type ih =>
      simp only [shape, anonymous] at ih
      simp only [shape, anonymous, mapLeaves, ih]
  | element array index type iha ihi =>
      simp only [shape, anonymous] at iha ihi
      simp only [shape, anonymous, mapLeaves, iha, ihi]
  | staticField owner name type => rfl
  | this type => simp only [mapLeaves, hf.this]
  | argument a => simp only [mapLeaves, hf.argument]
  | constant c => simp only [mapLeaves, hf.constant]

theorem rename_eq_assign_value {i : Inst} {target v : Value}
    (h : i.rename f = .assign target (.value v))
    : ∃ target₀ v₀, i = .assign target₀ (.value v₀) ∧ target = target₀.mapLeaves f
        ∧ v = v₀.mapLeaves f := by
  cases i with
  | assign target₀ source =>
      simp only [Inst.rename, Inst.mapValues, Inst.assign.injEq] at h
      cases source with
      | value v₀ => exact ⟨target₀, v₀, rfl, h.1.symm, (Expr.value.inj h.2).symm⟩
      | _ => simp [Expr.mapValues] at h
  | _ => simp [Inst.rename, Inst.mapValues] at h

theorem Inst.AssignsPlace.rename {i : Inst} (h : i.AssignsPlace) (hf : Renames f σ)
    : (i.rename f).AssignsPlace := by
  intro target source he hsimple
  cases i with
  | assign target₀ source₀ =>
      simp only [Inst.rename, Inst.mapValues, Inst.assign.injEq] at he
      rw [← he.1] at hsimple ⊢
      rw [isSimple, hf.isComplex_mapLeaves] at hsimple
      obtain ⟨r, rfl⟩ := h _ _ rfl hsimple
      obtain ⟨s, hs, -⟩ := hf.register r
      exact ⟨s, by simp only [mapLeaves, hs]⟩
  | _ => simp [Inst.rename, Inst.mapValues] at he

/-- A thinned code is tractable if its registers are assigned before they are read, and classified.
-/
theorem Tractable.of_thinned (h : Tractable code) (ht : Thinned f code other)
    (hf : Renames f σ) (hb : AssignedBeforeRead other) (hc : ∃ cls, Classified other cls)
    : Tractable other where
  targets j hj := by
    obtain ⟨i, hi, rfl⟩ := ht.mem hj
    exact (h.targets i hi).rename hf
  stores {target v} hm hcomplex := by
    obtain ⟨i, hi, he⟩ := ht.mem hm
    obtain ⟨target₀, v₀, rfl, rfl, rfl⟩ := rename_eq_assign_value he.symm
    rw [hf.isComplex_mapLeaves] at hcomplex
    rw [hf.shape_mapLeaves, hf.shape_mapLeaves]
    exact h.stores hi hcomplex
  assigned := hb
  classified := hc

/-- A recoloured code behaves like the code and is tractable, if it is classified. -/
theorem Tractable.recolour (h : Tractable code) {Needed : List Inst → RegisterKey → Prop}
    {At : List Inst → List Inst → Prop} (hr : Recolouring code other f σ Needed At)
    (ht : Thinned f code other) (hc : ∃ cls, Classified other cls)
    : SameBehaviour code other ∧ Tractable other :=
  ⟨hr.sameBehaviour h.assigned,
    h.of_thinned ht hr.renames (hr.assignedBeforeRead h.assigned) hc⟩

end Tractable

-- Thinning by a test of places

/-- Renames the code without the instructions at some of its places. -/
def thin (f : Value → Value) (dropped : List Inst → Bool) : List Inst → List Inst
  | [] => []
  | i :: rest =>
    if dropped (i :: rest) then thin f dropped rest else i.rename f :: thin f dropped rest

theorem thinned_thin (f : Value → Value) (dropped : List Inst → Bool) (code : List Inst)
    : Thinned f code (thin f dropped code) := by
  induction code with
  | nil => exact .nil
  | cons i rest ih =>
      simp only [thin]
      split
      · exact ih.drop
      · exact ih.keep

theorem map_rename_eq_thin (f : Value → Value) (code : List Inst)
    : code.map (Inst.rename f) = thin f (fun _ => false) code := by
  induction code with
  | nil => rfl
  | cons i rest ih => simp [thin, ih]

variable {code : List Inst} {dropped : List Inst → Bool}

/-- Every place of the thinned code comes from one that is kept. -/
theorem thin_suffix {f : Value → Value}
    {j : Inst} {tail' : List Inst} (h : j :: tail' <:+ thin f dropped code)
    : ∃ i tail, i :: tail <:+ code ∧ dropped (i :: tail) = false ∧ j = i.rename f
        ∧ j :: tail' = thin f dropped (i :: tail) := by
  induction code with
  | nil => cases List.suffix_nil.mp h
  | cons i rest ih =>
      cases hd : dropped (i :: rest) with
      | true =>
          simp only [thin, hd, if_true] at h
          obtain ⟨k, tail, hk, hkd, hj, he⟩ := ih h
          exact ⟨k, tail, hk.trans (List.suffix_cons i rest), hkd, hj, he⟩
      | false =>
          have hthin : thin f dropped (i :: rest) = i.rename f :: thin f dropped rest := by
            simp only [thin, hd, Bool.false_eq_true, if_false]
          rw [hthin] at h
          rcases List.suffix_cons_iff.mp h with he | h
          · exact ⟨i, rest, List.suffix_refl _, hd, (List.cons.inj he).1, he.trans hthin.symm⟩
          · obtain ⟨k, tail, hk, hkd, hj, he⟩ := ih h
            exact ⟨k, tail, hk.trans (List.suffix_cons i rest), hkd, hj, he⟩

/-- Labels are kept, so jumps come to related places. -/
theorem codeAt_thin {f : Value → Value}
    (hl : ∀ {l rest}, .label l :: rest <:+ code → dropped (.label l :: rest) = false)
    (l : CodeLabel)
    : codeAt (thin f dropped code) l = thin f dropped (codeAt code l) := by
  induction code with
  | nil => rfl
  | cons i rest ih =>
      have ih := ih fun h => hl (h.trans (List.suffix_cons i rest))
      cases hd : dropped (i :: rest) with
      | true =>
          have hi : i ≠ .label l := by
            rintro rfl
            cases (hl (List.suffix_refl _)).symm.trans hd
          rw [thin, if_pos hd, codeAt_cons_of_ne (.inl hi), ih]
      | false =>
          have hthin : thin f dropped (i :: rest) = i.rename f :: thin f dropped rest := by
            simp [thin, hd]
          rw [hthin]
          refine codeAt_cons_congr rfl (fun hcode => ?_) ih (i.rename_eq_label f l) fun _ => hthin
          have hkept := hl ((hcode ▸ codeAt_suffix rest l).trans (List.suffix_cons i rest))
          simp [thin, hkept]

/-- Thinning is a recolouring, if the dropped instructions are droppable copies, and the kept ones
read what is needed and do not clash.
-/
theorem recolouring_thin {f : Value → Value} {σ : RegisterKey → RegisterKey}
    {Needed : List Inst → RegisterKey → Prop} (hf : Renames f σ) (hn : NeededBefore code Needed)
    (hl : ∀ {l rest}, .label l :: rest <:+ code → dropped (.label l :: rest) = false)
    (hdropped : ∀ {i rest A}, Arrives code (i :: rest) A → dropped (i :: rest) →
      ∃ r v, i = .assign (.register r) (.value v) ∧ Droppable code σ Needed rest r v)
    (hkept : ∀ {i rest A}, Arrives code (i :: rest) A → dropped (i :: rest) = false →
      (∀ x ∈ i.readKeys, Needed (i :: rest) x) ∧ NoClash code σ Needed i rest)
    : Recolouring code (thin f dropped code) f σ Needed
        fun rest rest' => rest' = thin f dropped rest where
  renames := hf
  needed := hn
  start := rfl
  jump l := codeAt_thin hl l
  nil h := h
  cons {i rest rest' A} ha hat := by
    subst hat
    cases hd : dropped (i :: rest) with
    | true =>
        obtain ⟨r, v, hi, hdrop⟩ := hdropped ha hd
        exact .dropped hi (by simp only [thin, hd, if_true]) hdrop
    | false =>
        obtain ⟨hreads, hnc⟩ := hkept ha hd
        exact .kept (by simp only [thin, hd, Bool.false_eq_true, if_false]) rfl hreads hnc

-- Thinning without renaming

theorem Value.mapLeaves_id (v : Value)
    : v.mapLeaves id = v := by
  induction v with
  | field object owner name type ih => simp only [mapLeaves, ih]
  | element array index type iha ihi => simp only [mapLeaves, iha, ihi]
  | _ => rfl

theorem Inst.rename_id (i : Inst)
    : i.rename id = i := by
  have hv : mapLeaves id = id := funext mapLeaves_id
  cases i with
  | assign target source =>
      cases source with
      | call c =>
          cases c <;> simp [Inst.rename, Inst.mapValues, Expr.mapValues, Call.mapValues, hv]
      | _ => simp [Inst.rename, Inst.mapValues, Expr.mapValues, BinaryExpr.mapValues, hv]
  | call c => cases c <;> simp [Inst.rename, Inst.mapValues, Call.mapValues, hv]
  | _ => simp [Inst.rename, Inst.mapValues, BinaryExpr.mapValues, hv]

/-- Without a renaming, instructions are only dropped. -/
theorem Thinned.sublist {code other : List Inst} (h : Thinned id code other)
    : other.Sublist code := by
  induction h with
  | nil => exact .slnil
  | @keep i code other _ ih =>
      rw [Inst.rename_id]
      exact ih.cons_cons i
  | drop _ ih => exact ih.cons _

theorem renames_id : Renames id id where
  register r := ⟨r, rfl, rfl⟩
  this _ := rfl
  argument _ := rfl
  constant _ := rfl

/-- Without a renaming, no two registers get one name. -/
theorem noClash_id (code : List Inst) (Needed : List Inst → RegisterKey → Prop) (i : Inst)
    (rest : List Inst)
    : NoClash code id Needed i rest :=
  fun _ _ _ _ _ _ hne heq => absurd heq hne

theorem filter_eq_thin (p : Inst → Bool) (code : List Inst)
    : code.filter p = thin id (fun rest => !rest.head?.all p) code := by
  induction code with
  | nil => rfl
  | cons i rest ih => cases hp : p i <;> simp [thin, hp, ih, Inst.rename_id]

/-- Classes stay as they are where nothing is renamed. -/
theorem Tractable.classified_of_thinned {code other : List Inst} (h : Tractable code)
    (ht : Thinned id code other)
    : ∃ cls, Classified other cls := by
  obtain ⟨cls, hc⟩ := h.classified
  exact ⟨cls, hc.of_thinned ht renames_id fun x _ => cls.refl x.1⟩

/-- Dropping droppable copies by a test of instructions. -/
theorem Tractable.filter (h : Tractable code)
    (Needed : List Inst → RegisterKey → Prop) (hn : NeededBefore code Needed) {p : Inst → Bool}
    (hl : ∀ l, p (.label l) = true)
    (hdropped : ∀ {i rest A}, Arrives code (i :: rest) A → p i = false →
      ∃ r v, i = .assign (.register r) (.value v) ∧ Droppable code id Needed rest r v)
    (hreads : ∀ {i rest A}, Arrives code (i :: rest) A → p i = true →
      ∀ x ∈ i.readKeys, Needed (i :: rest) x)
    : SameBehaviour code (code.filter p) ∧ Tractable (code.filter p) := by
  rw [filter_eq_thin]
  have ht := thinned_thin id (fun rest => !rest.head?.all p) code
  refine h.recolour (recolouring_thin renames_id hn (fun _ => by simp [hl]) ?_ ?_) ht
    (h.classified_of_thinned ht)
  · intro i rest A ha hd
    exact hdropped ha (by simpa using hd)
  · intro i rest A ha hd
    exact ⟨hreads ha (by simpa using hd), noClash_id code Needed i rest⟩

/-- The needs of a code that needs everything everywhere. -/
theorem neededBefore_all (code : List Inst)
    : NeededBefore code fun _ _ => True where
  proceed _ _ _ := trivial
  jump _ _ := trivial

/-- A tractable code behaves the same from all initial registers. -/
theorem Tractable.sameBehaviour_self (h : Tractable code)
    : SameBehaviour code code := by
  have hall : code.filter (fun _ => true) = code := List.filter_eq_self.mpr fun _ _ => rfl
  have hf := h.filter _ (neededBefore_all code) (fun _ => rfl) (fun _ hp => nomatch hp)
    (fun _ _ _ _ => trivial) (p := fun _ => true)
  rw [hall] at hf
  exact hf.1

end StackLift
