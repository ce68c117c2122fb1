import StackLift.Proofs.DroppedCopies

/-!
Replacing the registers of instructions by simple values. Renamings are replacements, and
replacements that follow each other are one replacement.
-/

namespace StackLift

open Value

theorem Value.eq_of_register? {v : Value} {r : Register} (h : v.register? = some r)
    : v = .register r := by
  cases v with
  | register q => exact congrArg register (Option.some.inj h)
  | _ => cases h

theorem Value.isSimple_anonymous (v : Value)
    : v.anonymous.isSimple = v.isSimple := by
  cases v <;> rfl

theorem Value.Same.isSimple {v w : Value} (h : v.Same w)
    : v.isSimple = w.isSimple := by
  rw [← v.isSimple_anonymous, h, w.isSimple_anonymous]

/-- The function replaces registers by simple values, with the same value for the same register, and
changes no other value.
-/
structure Replaces (f : Value → Value) : Prop where
  register : ∀ r, (f (.register r)).isSimple
  same : ∀ {r q : Register}, r.key = q.key → (f (.register r)).Same (f (.register q))
  this : ∀ type, f (.this type) = .this type
  argument : ∀ a, f (.argument a) = .argument a
  constant : ∀ c, f (.constant c) = .constant c

theorem Renames.replaces {f : Value → Value} {σ : RegisterKey → RegisterKey} (hf : Renames f σ)
    : Replaces f where
  register r := by
    obtain ⟨s, hs, -⟩ := hf.register r
    rw [hs]
    rfl
  same {r q} hk := by
    obtain ⟨s, hs, hsk⟩ := hf.register r
    obtain ⟨t, ht, htk⟩ := hf.register q
    rw [hs, ht, registers_same_iff, hsk, htk, hk]
  this := hf.this
  argument := hf.argument
  constant := hf.constant

-- Values that are changed twice

theorem Call.mapValues_mapValues (f g : Value → Value) (c : Call)
    : (c.mapValues f).mapValues g = c.mapValues (g ∘ f) := by
  cases c <;> simp [Call.mapValues]

theorem Expr.mapValues_mapValues (f g : Value → Value) (e : Expr)
    : (e.mapValues f).mapValues g = e.mapValues (g ∘ f) := by
  cases e <;> simp [Expr.mapValues, BinaryExpr.mapValues, Call.mapValues_mapValues]

theorem Inst.mapValues_mapValues (f g : Value → Value) (i : Inst)
    : (i.mapValues f).mapValues g = i.mapValues (g ∘ f) := by
  cases i <;> simp [Inst.mapValues, BinaryExpr.mapValues, Call.mapValues_mapValues,
    Expr.mapValues_mapValues]

namespace Replaces

variable {f g : Value → Value}

section

variable (hf : Replaces f)
include hf

theorem isComplex_mapLeaves (v : Value)
    : (v.mapLeaves f).isComplex = v.isComplex := by
  cases v with
  | register r => simpa [isSimple, mapLeaves, isComplex] using hf.register r
  | this type => simp [mapLeaves, hf.this]
  | argument a => simp [mapLeaves, hf.argument]
  | constant c => simp [mapLeaves, hf.constant]
  | _ => rfl

theorem isSimple_mapLeaves (v : Value)
    : (v.mapLeaves f).isSimple = v.isSimple := by
  rw [isSimple, hf.isComplex_mapLeaves, isSimple]

/-- Only a register may become a register. -/
theorem eq_register_of_mapLeaves {v : Value} {s : Register} (h : v.mapLeaves f = .register s)
    : ∃ r, v = .register r ∧ f (.register r) = .register s := by
  cases v with
  | register r => exact ⟨r, rfl, h⟩
  | this type => cases (hf.this type).symm.trans h
  | argument a => cases (hf.argument a).symm.trans h
  | constant c => cases (hf.constant c).symm.trans h
  | _ => cases h

theorem eq_register_of_mapValues {e : Expr} {s : Register}
    (h : e.mapValues (mapLeaves f) = .value (.register s))
    : ∃ r, e = .value (.register r) ∧ f (.register r) = .register s := by
  cases e with
  | value v =>
      obtain ⟨r, rfl, hr⟩ := hf.eq_register_of_mapLeaves (Expr.value.inj h)
      exact ⟨r, rfl, hr⟩
  | _ => cases h

/-- Equal registers become equal registers. -/
theorem eq_register_of_key {r q s : Register} (hk : q.key = r.key)
    (h : f (.register r) = .register s)
    : ∃ t, f (.register q) = .register t ∧ t.key = s.key :=
  same_register_iff.mp (h ▸ hf.same hk)

-- Replacements that follow each other

/-- The image of a simple value holds no other values. -/
theorem mapLeaves_image {v : Value} (hv : v.isSimple) (g : Value → Value)
    : (f v).mapLeaves g = g (f v) := by
  cases v with
  | register r =>
      have hr := hf.register r
      cases h : f (.register r) with
      | staticField | field | element => simp [h, isSimple, isComplex] at hr
      | _ => rfl
  | this type => simp [hf.this, mapLeaves]
  | argument a => simp [hf.argument, mapLeaves]
  | constant c => simp [hf.constant, mapLeaves]
  | _ => cases hv

theorem mapLeaves_mapLeaves (g : Value → Value) (v : Value)
    : (v.mapLeaves f).mapLeaves g = v.mapLeaves (g ∘ f) := by
  induction v with
  | staticField owner name type => rfl
  | field object owner name type ih => simp only [mapLeaves, ih]
  | element array index type iha ihi => simp only [mapLeaves, iha, ihi]
  | _ => exact hf.mapLeaves_image rfl g

/-- What holds no register is kept. -/
theorem eq_self {v : Value} (hv : v.isSimple) (hr : v.register? = none)
    : f v = v := by
  cases v with
  | register r => cases hr
  | this type => exact hf.this type
  | argument a => exact hf.argument a
  | constant c => exact hf.constant c
  | _ => cases hv

theorem same_image {v w : Value} (hv : v.isSimple) (h : v.Same w)
    : (f v).Same (f w) := by
  cases hw : w.register? with
  | some q =>
      obtain rfl := eq_of_register? hw
      obtain ⟨r, rfl, hk⟩ := same_register_iff.mp h
      exact hf.same hk
  | none =>
      have hvr : v.register? = none := by
        cases v with
        | register r =>
            obtain ⟨q, rfl, -⟩ := same_register_iff.mp h.symm
            cases hw
        | _ => rfl
      rwa [hf.eq_self hv hvr, hf.eq_self (h.isSimple ▸ hv) hw]

theorem rename_rename (g : Value → Value) (i : Inst)
    : (i.rename f).rename g = i.rename (g ∘ f) := by
  simp only [Inst.rename, Inst.mapValues_mapValues]
  exact congrArg (Inst.mapValues · i) (funext (hf.mapLeaves_mapLeaves g))

end

theorem comp (hg : Replaces g) (hf : Replaces f)
    : Replaces (g ∘ f) where
  register r := by
    have hr := hf.register r
    rw [← hg.isSimple_mapLeaves, hf.mapLeaves_image rfl] at hr
    exact hr
  same hk := hg.same_image (hf.register _) (hf.same hk)
  this type := by rw [Function.comp_apply, hf.this, hg.this]
  argument a := by rw [Function.comp_apply, hf.argument, hg.argument]
  constant c := by rw [Function.comp_apply, hf.constant, hg.constant]

end Replaces

end StackLift
