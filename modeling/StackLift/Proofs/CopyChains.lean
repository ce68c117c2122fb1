import Mathlib.Logic.Relation
import StackLift.Proofs.CopyLinks

/-!
Replacing copied registers keeps the behaviour of a code. Linked registers are joined into one
class: along its links each class leads to one other class at most, so of the classes that are
joined only one can get values from outside.
-/

namespace StackLift

open RegisterMachine CopyChains Substitution Relation

section Joined

variable {code : List Inst} {cls : Setoid Nat} {links : List (Register × Register)}

/-- A link leads from one class of indices to another. -/
def LinkStep (cls : Setoid Nat) (links : List (Register × Register)) (a b : Quotient cls) : Prop :=
  ∃ link ∈ links, a = ⟦link.1.index⟧ ∧ b = ⟦link.2.index⟧ ∧ a ≠ b

/-- Every origin of a class that has a link to another class is a copy from that class. -/
theorem source_of_linkStep (hc : Classified code cls)
    (hl : ∀ link ∈ links, IsLink code link.1.key link.2.key) {a b : Quotient cls}
    (h : LinkStep cls links a b) {r : Register} {e : Expr} {tail : List Inst}
    (hs : .assign (.register r) e :: tail <:+ code) (hr : a = ⟦r.index⟧)
    (ho : ¬ IsCopyWithin {m | cls r.index m} e)
    : ∃ q : Register, e = .value (.register q) ∧ b = ⟦q.index⟧ := by
  obtain ⟨⟨t, s⟩, hmem, rfl, rfl, hne⟩ := h
  have link := hl _ hmem
  obtain ⟨t', s', hcopy, ht', hs'⟩ := link.copied
  have hindex : ∀ {q : Register}, q.key = s.key → (⟦s.index⟧ : Quotient cls) = ⟦q.index⟧ :=
    fun hq => congrArg (fun x : RegisterKey => (⟦x.1⟧ : Quotient cls)) hq.symm
  have hclass : cls r.index t.index := cls.symm (Quotient.exact hr)
  rcases hc r.index with hone | one
  · have hkey : r.key = t.key := by
      refine hone r.key t.key (.of_assign hs) (ht' ▸ ?_) (cls.refl _) hclass
      exact ⟨_, hcopy, .inr rfl⟩
    obtain ⟨q, rfl, hq⟩ := link.copies (hs.subset List.mem_cons_self) hkey
    exact ⟨q, rfl, hindex hq⟩
  · obtain ⟨before, tail', hcode⟩ := List.append_of_mem hcopy
    have hsuf : .assign (.register t') (.value (.register s')) :: tail' <:+ code :=
      ⟨before, hcode.symm⟩
    have ht := Register.index_eq_of_key ht'
    have heq := one hs hsuf ⟨r, e, tail, rfl, cls.refl _, ho⟩
      ⟨t', .value (.register s'), tail', rfl, ht ▸ hclass, ?_⟩
    · obtain ⟨hi, -⟩ := List.cons.inj heq
      obtain ⟨-, rfl⟩ := Inst.assign.inj hi
      exact ⟨s', rfl, hindex hs'⟩
    · rintro ⟨q, hq, hin⟩
      obtain rfl : s' = q := by simpa using hq
      refine hne ?_
      rw [hindex hs']
      exact Quotient.sound (cls.trans (cls.symm hclass) hin)

/-- Each class is linked to one other class at most. -/
theorem LinkStep.functional (hc : Classified code cls)
    (hl : ∀ link ∈ links, IsLink code link.1.key link.2.key) {a b b' : Quotient cls}
    (h : LinkStep cls links a b) (h' : LinkStep cls links a b')
    : b = b' := by
  obtain ⟨⟨t, s⟩, hmem, rfl, rfl, hne⟩ := id h
  obtain ⟨r, q, hcopy, hr, hq⟩ := (hl _ hmem).copied
  obtain ⟨before, tail, hcode⟩ := List.append_of_mem hcopy
  have ht := Register.index_eq_of_key hr
  have hs := Register.index_eq_of_key hq
  obtain ⟨q', he, hb⟩ := source_of_linkStep hc hl h' ⟨before, hcode.symm⟩ (by rw [ht]) (by
    rintro ⟨q'', hq'', hin⟩
    obtain rfl : q = q'' := by simpa using hq''
    refine hne (Quotient.sound ?_)
    rw [← ht, ← hs]
    exact hin)
  obtain rfl : q = q' := by simpa using he
  rw [hb, hs]

/-- The classes with linked ones joined. -/
def joined (hc : Classified code cls) (hl : ∀ link ∈ links, IsLink code link.1.key link.2.key)
    : Setoid Nat where
  r m n := Join (ReflTransGen (LinkStep cls links)) ⟦m⟧ ⟦n⟧
  iseqv := by
    have heqv : Equivalence (Join (ReflTransGen (LinkStep cls links))) :=
      equivalence_join_reflTransGen fun a b c hb hcc => by
        cases LinkStep.functional hc hl hb hcc
        exact ⟨b, .refl, .refl⟩
    exact ⟨fun m => heqv.refl _, fun h => heqv.symm h, fun h h' => heqv.trans h h'⟩

variable (hc : Classified code cls) (hl : ∀ link ∈ links, IsLink code link.1.key link.2.key)

theorem joined_of_cls {m n : Nat} (h : cls m n)
    : joined hc hl m n :=
  ⟨⟦n⟧, by rw [Quotient.sound h], .refl⟩

theorem joined_of_link {t s : Register} (h : (t, s) ∈ links)
    : joined hc hl t.index s.index := by
  by_cases hts : (⟦t.index⟧ : Quotient cls) = ⟦s.index⟧
  · exact joined_of_cls hc hl (Quotient.exact hts)
  · exact ⟨⟦s.index⟧, .single ⟨_, h, rfl, rfl, hts⟩, .refl⟩

/-- A class that gets a value from outside of the joined class is not linked to another one. -/
theorem not_linkStep_of_origin {n : Nat} {r : Register} {e : Expr} {tail : List Inst}
    (hs : .assign (.register r) e :: tail <:+ code) (hr : joined hc hl n r.index)
    (ho : ¬ IsCopyWithin {m | joined hc hl n m} e) (b : Quotient cls)
    : ¬ LinkStep cls links ⟦r.index⟧ b := by
  intro hstep
  have hin : ¬ IsCopyWithin {m | cls r.index m} e := by
    rintro ⟨q, rfl, hq⟩
    exact ho ⟨q, rfl, (joined hc hl).trans hr (joined_of_cls hc hl hq)⟩
  obtain ⟨q, rfl, rfl⟩ := source_of_linkStep hc hl hstep hs rfl hin
  exact ho ⟨q, rfl, (joined hc hl).trans hr ⟨⟦q.index⟧, .single hstep, .refl⟩⟩

/-- Where no link goes on, a joined class is reached by following links. -/
theorem reaches_of_joined {m n : Nat} (h : joined hc hl m n)
    (hsink : ∀ b, ¬ LinkStep cls links ⟦n⟧ b)
    : ReflTransGen (LinkStep cls links) (⟦m⟧ : Quotient cls) ⟦n⟧ := by
  obtain ⟨c, hm, hn⟩ := h
  rcases ReflTransGen.cases_head hn with rfl | ⟨b, hb, -⟩
  · exact hm
  · exact absurd hb (hsink b)

/-- Joining linked classes keeps a code classified. -/
theorem classified_joined
    : Classified code (joined hc hl) := by
  intro n
  by_cases hone : ∀ x y, Occurs code x → Occurs code y → joined hc hl n x.1 →
      joined hc hl n y.1 → x = y
  · exact .inl hone
  right
  rintro _ _ hs₁ hs₂ ⟨r₁, e₁, tail₁, rfl, hr₁, ho₁⟩ ⟨r₂, e₂, tail₂, rfl, hr₂, ho₂⟩
  have hsink₁ := not_linkStep_of_origin hc hl hs₁ hr₁ ho₁
  have hsink₂ := not_linkStep_of_origin hc hl hs₂ hr₂ ho₂
  have hclass : cls r₁.index r₂.index := by
    have hj := (joined hc hl).trans ((joined hc hl).symm hr₁) hr₂
    rcases ReflTransGen.cases_head (reaches_of_joined hc hl hj hsink₂) with
      he | ⟨b, hb, -⟩
    · exact Quotient.exact he
    · exact absurd hb (hsink₁ b)
  have hwithin : ∀ {e : Expr}, ¬ IsCopyWithin {m | joined hc hl n m} e →
      ¬ IsCopyWithin {m | cls r₁.index m} e := by
    rintro e ho ⟨q, rfl, hq⟩
    exact ho ⟨q, rfl, (joined hc hl).trans hr₁ (joined_of_cls hc hl hq)⟩
  rcases hc r₁.index with huniq | one
  · -- Another register of the joined class leads to `r₁` by a link, so `r₁` is assigned once.
    have hkey : r₂.key = r₁.key :=
      huniq _ _ (.of_assign hs₂) (.of_assign hs₁) hclass (cls.refl _)
    obtain ⟨y, hy, hjy, hne⟩ : ∃ y, Occurs code y ∧ joined hc hl n y.1 ∧ y ≠ r₁.key := by
      by_contra hnone
      have hall : ∀ x, Occurs code x → joined hc hl n x.1 → x = r₁.key := fun x hx hjx =>
        by_contra fun hne => hnone ⟨x, hx, hjx, hne⟩
      exact hone fun x y hx hy hjx hjy => (hall x hx hjx).trans (hall y hy hjy).symm
    have hreach := reaches_of_joined hc hl ((joined hc hl).trans ((joined hc hl).symm hjy) hr₁)
      hsink₁
    rcases ReflTransGen.cases_tail hreach with he | ⟨b, -, ⟨t, s⟩, hmem, -, hb, -⟩
    · exact absurd (huniq _ _ hy (.of_assign hs₁) (Quotient.exact he) (cls.refl _)) hne
    · have link := hl _ hmem
      obtain ⟨t', s', hcopy, -, hs'⟩ := link.copied
      have hso : Occurs code s.key := hs' ▸ ⟨_, hcopy, .inl (mem_readKeys_copy t' s')⟩
      have hsk : s.key = r₁.key :=
        huniq _ _ hso (.of_assign hs₁) (Quotient.exact hb) (cls.refl _)
      exact suffix_eq_of_sourcesOf link.once hs₁ hs₂ hsk.symm (hkey.trans hsk.symm)
  · exact one hs₁ hs₂ ⟨r₁, e₁, tail₁, rfl, cls.refl _, hwithin ho₁⟩
      ⟨r₂, e₂, tail₂, rfl, hclass, hwithin ho₂⟩

end Joined

-- Applying links

/-- Every entry of the mapping replaces a register by one that a link joins with it. -/
theorem mapping_entries (Joins : Nat → Nat → Prop) (hrefl : ∀ n, Joins n n)
    {links : List (Register × Register)}
    (hl : ∀ link ∈ links, Joins link.1.index link.2.index ∧ Joins link.2.index link.1.index)
    : ∀ entry ∈ mapping links, ∃ r q : Register, entry.1 = (Value.register r).anonymous
        ∧ entry.2 = .register q ∧ Joins r.index q.index := by
  refine List.foldlRecOn links _ (motive := fun m : Substitution => ∀ entry ∈ m,
    ∃ r q : Register, entry.1 = (Value.register r).anonymous ∧ entry.2 = .register q
      ∧ Joins r.index q.index) nofun ?_
  rintro m hm ⟨t, s⟩ hlink entry he
  obtain ⟨hts, hst⟩ := hl (t, s) hlink
  dsimp only at he
  split at he
  · rcases mem_insert he with rfl | he
    · exact ⟨s, t.withType s.type, rfl, rfl, hst⟩
    · rcases mem_insert he with rfl | he
      · exact ⟨t, t.withType s.type, rfl, rfl, hrefl _⟩
      · exact hm entry he
  · rcases mem_insert he with rfl | he
    · exact ⟨t, s, rfl, rfl, hts⟩
    · exact hm entry he

theorem onRegisters_mapping (links : List (Register × Register))
    : (mapping links).OnRegisters := by
  intro entry he
  obtain ⟨r, q, hk, hv, -⟩ := mapping_entries (fun _ _ => True) (fun _ => trivial)
    (fun _ _ => ⟨trivial, trivial⟩) entry he
  exact ⟨r, q, hk, hv⟩

/-- No path assigns one of two registers that only copy each other. -/
theorem not_assigned_of_mutual {code : List Inst} (hb : AssignedBeforeRead code)
    {x y : RegisterKey} (hxy : IsLink code x y) (hyx : IsLink code y x) {rest : List Inst}
    {A : Set RegisterKey} (ha : Arrives code rest A)
    : x ∉ A ∧ y ∉ A := by
  induction ha with
  | start => exact ⟨Set.notMem_empty x, Set.notMem_empty y⟩
  | @proceed i rest A ha _ ih =>
      have hassigned : ∀ {z w : RegisterKey}, IsLink code z w → w ∉ A → i.assigned? ≠ some z := by
        intro z w hzw hw hi
        obtain ⟨r, source, rfl, hr⟩ := Inst.eq_assign_of_assigned? hi
        obtain ⟨q, rfl, rfl⟩ := hzw.copies (ha.suffix.subset List.mem_cons_self) hr
        exact hw (hb ha q.key (mem_readKeys_copy r q))
      constructor
      · rintro (hx | hx)
        · exact ih.1 hx
        · exact hassigned hxy ih.2 hx
      · rintro (hy | hy)
        · exact ih.2 hy
        · exact hassigned hyx ih.1 hy
  | jump _ _ ih => exact ih

theorem links?_eq_true {links : List (Register × Register)} {v w : Value}
    (h : links? links v w)
    : ∃ t s : Register, (t, s) ∈ links ∧ (Value.register t).Same v
        ∧ (Value.register s).Same w := by
  simp only [links?, List.any_eq_true, Prod.exists, Bool.and_eq_true, decide_eq_true_eq] at h
  exact h

/-- A mutual copy is one of a register, and there are links both ways. -/
theorem links_of_isMutualCopy {links : List (Register × Register)} {i : Inst}
    (h : isMutualCopy links i)
    : ∃ target q t s s' t', i = .assign target (.value (.register q)) ∧ (t, s) ∈ links
        ∧ (s', t') ∈ links ∧ q.key = s.key ∧ s'.key = s.key ∧ t'.key = t.key := by
  cases i with
  | assign target source =>
      cases source with
      | value v =>
          simp only [isMutualCopy, Bool.and_eq_true] at h
          obtain ⟨t, s, hts, ht, hs⟩ := links?_eq_true h.1
          obtain ⟨s', t', hst, hs', ht'⟩ := links?_eq_true h.2
          obtain ⟨q, rfl, hq⟩ := Value.same_register_iff.mp hs.symm
          exact ⟨target, q, t, s, s', t', rfl, hts, hst, hq,
            Value.registers_same_iff.mp (hs'.trans hs.symm),
            Value.registers_same_iff.mp (ht'.trans ht.symm)⟩
      | _ => simp [isMutualCopy] at h
  | _ => simp [isMutualCopy] at h

/-- A mutual copy is never reached. -/
theorem not_arrives_mutual {code : List Inst} (hb : AssignedBeforeRead code)
    {links : List (Register × Register)}
    (hl : ∀ link ∈ links, IsLink code link.1.key link.2.key) {i : Inst}
    (hm : isMutualCopy links i) {rest : List Inst} {A : Set RegisterKey}
    (ha : Arrives code (i :: rest) A)
    : False := by
  obtain ⟨target, q, t, s, s', t', rfl, hts, hst, hq, hs, ht⟩ := links_of_isMutualCopy hm
  have hyx : IsLink code s.key t.key := hs ▸ ht ▸ hl _ hst
  have hread : q.key ∈ (Inst.assign target (.value (.register q))).readKeys := by
    simp [Inst.readKeys, Inst.readValues, Expr.subvalues, Value.subvalues, Value.register?]
  exact (not_assigned_of_mutual hb (hl _ hts) hyx ha).2 (hq ▸ hb ha q.key hread)

/-- Applying links is thinning: it drops mutual copies and what becomes a copy into itself. -/
theorem applyLinks_eq_thin (links : List (Register × Register)) (code : List Inst)
    : applyLinks links code
      = thin (mapping links).leaf (fun rest => rest.head?.any fun i =>
          isMutualCopy links i || isSelfCopy (i.rename (mapping links).leaf)) code := by
  simp only [applyLinks, funext (inst_eq_rename (onRegisters_mapping links))]
  induction code with
  | nil => rfl
  | cons i rest ih =>
      cases hm : isMutualCopy links i <;>
        cases hs : isSelfCopy (i.rename (mapping links).leaf) <;> simp [thin, hm, hs, ih]

theorem applyLinks_sound {code : List Inst} (h : Tractable code)
    : SameBehaviour code (applyLinks (links (definitions code)) code)
      ∧ Tractable (applyLinks (links (definitions code)) code) := by
  obtain ⟨cls, hc⟩ := h.classified
  have hl : ∀ link ∈ links (definitions code), IsLink code link.1.key link.2.key :=
    fun link hlink => isLink_of_mem_links hlink
  generalize links (definitions code) = links at hl ⊢
  have hf := renames_leaf (onRegisters_mapping links)
  have hσ : ∀ x, Occurs code x →
      joined hc hl x.1 (keyImage (mapping links) x).1 := by
    intro x _
    rcases keyImage_cases (onRegisters_mapping links) x with
      he | ⟨r, q, hm, hr, hq⟩
    · rw [he]
    · obtain ⟨r', q', hk, hv, hj⟩ := mapping_entries (joined hc hl) (joined hc hl).refl
        (fun link hlink => ⟨joined_of_link hc hl hlink,
          (joined hc hl).symm (joined_of_link hc hl hlink)⟩) _ hm
      obtain ⟨p, hp, hpk⟩ := Value.same_register_iff.mp hk
      cases hp
      cases hv
      have hx : x.1 = r'.index := congrArg Prod.fst (hr.symm.trans hpk)
      have hqi : (keyImage (mapping links) x).1 = q.index :=
        congrArg Prod.fst hq.symm
      rw [hx, hqi]
      exact hj
  have hcj := classified_joined hc hl
  rw [applyLinks_eq_thin]
  have ht := thinned_thin (mapping links).leaf (fun rest => rest.head?.any fun i =>
    isMutualCopy links i || isSelfCopy (i.rename (mapping links).leaf)) code
  refine h.recolour (recolouring_thin hf (neededBefore_all code) (fun _ => rfl) ?_ ?_) ht
    ⟨joined hc hl, hcj.of_thinned ht hf hσ⟩
  · intro i rest A ha hd
    simp only [List.head?_cons, Option.any_some, Bool.or_eq_true] at hd
    rcases hd with hm | hs
    · exact (not_arrives_mutual h.assigned hl hm ha).elim
    · obtain ⟨r, q, rfl, hk⟩ :=
        h.eq_of_isSelfCopy_rename hf (ha.suffix.subset List.mem_cons_self) hs
      exact ⟨r, .register q, rfl, .joined rfl hk trivial⟩
  · intro i rest A ha _
    exact ⟨fun _ _ => trivial, hcj.noClash h.assigned hσ (fun _ _ => True) i rest⟩

theorem replaceChains?_sound {steps : Nat} {code next : List Inst}
    (h : Tractable code) (hn : replaceChains? steps code = some next)
    : SameBehaviour code next ∧ Tractable next := by
  induction steps generalizing code with
  | zero => cases hn
  | succ steps ih =>
      have hs := applyLinks_sound h
      simp only [replaceChains?] at hn
      split at hn
      · cases hn
        exact ⟨h.sameBehaviour_self, h⟩
      · split at hn
        · cases hn
          exact hs
        · obtain ⟨hb, ht⟩ := ih hs.2 hn
          exact ⟨hs.1.trans hb, ht⟩

end StackLift
