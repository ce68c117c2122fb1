import StackLift.Proofs.Outcomes
import StackLift.Proofs.Replacements
import StackLift.Simplify.RegisterTypes

/-!
Substitutions for registers are replacements, and renamings if they replace registers by registers.
-/

namespace StackLift

open RegisterMachine RegisterTypes

/-- The value of a register, without a name. -/
def RegisterKey.value (x : RegisterKey) : Value :=
  .register { index := x.1, type := x.2, name := "", kind := .generated }

namespace Substitution

/-- All entries replace a register by a register. -/
def OnRegisters (m : Substitution) : Prop :=
  ∀ entry ∈ m, ∃ (r q : Register), entry.1 = (Value.register r).anonymous
    ∧ entry.2 = .register q

/-- All entries replace a register by a simple value. -/
def ForRegisters (m : Substitution) : Prop :=
  ∀ entry ∈ m, ∃ r : Register, entry.1 = (Value.register r).anonymous ∧ entry.2.isSimple

/-- The image of a value that holds no others. -/
def leaf (m : Substitution) (v : Value) : Value :=
  (ValueMap.find? m v).getD v

/-- The register that a register is replaced by. -/
def keyImage (m : Substitution) (x : RegisterKey) : RegisterKey :=
  match m.lookup x.value with
  | some (.register q) => q.key
  | _ => x

variable {m : Substitution}

theorem mem_of_find?_eq_some {v image : Value} (h : ValueMap.find? m v = some image)
    : (v.anonymous, image) ∈ m :=
  mem_of_lookup h

theorem OnRegisters.forRegisters (h : m.OnRegisters)
    : m.ForRegisters := by
  intro entry he
  obtain ⟨r, q, hk, hq⟩ := h entry he
  exact ⟨r, hk, by rw [hq]; rfl⟩

theorem find?_eq_none (h : m.ForRegisters) (v : Value) (hv : v.register? = none)
    : ValueMap.find? m v = none := by
  cases hf : ValueMap.find? m v with
  | none => rfl
  | some image =>
      obtain ⟨r, hk, -⟩ := h _ (mem_of_find?_eq_some hf)
      obtain ⟨p, rfl, -⟩ := Value.same_register_iff.mp hk
      cases hv

theorem leaf_eq_self (h : m.ForRegisters) (v : Value) (hv : v.register? = none)
    : m.leaf v = v := by
  rw [leaf, find?_eq_none h v hv, Option.getD_none]

theorem ForRegisters.replaces_leaf (h : m.ForRegisters)
    : Replaces m.leaf where
  register r := by
    cases hf : ValueMap.find? m (.register r) with
    | none => simp [leaf, hf, Value.isSimple, Value.isComplex]
    | some image =>
        obtain ⟨_, -, hsimple⟩ := h _ (mem_of_find?_eq_some hf)
        simpa [leaf, hf] using hsimple
  same {r q} hk := by
    have hsame : (Value.register r).Same (.register q) := Value.registers_same_iff.mpr hk
    have hfind : ValueMap.find? m (.register r) = ValueMap.find? m (.register q) :=
      congrArg (List.lookup · m) hsame
    cases hf : ValueMap.find? m (.register q) with
    | none => simpa [leaf, hfind, hf] using hsame
    | some image => simp [leaf, hfind, hf, Value.Same]
  this type := leaf_eq_self h _ rfl
  argument a := leaf_eq_self h _ rfl
  constant c := leaf_eq_self h _ rfl

theorem renames_leaf (h : m.OnRegisters)
    : Renames m.leaf m.keyImage where
  register r := by
    cases hf : ValueMap.find? m (.register r) with
    | none =>
        refine ⟨r, by simp [leaf, hf], ?_⟩
        have hl : m.lookup r.key.value = none := hf
        simp [keyImage, hl]
    | some image =>
        obtain ⟨_, q, -, hq⟩ := h _ (mem_of_find?_eq_some hf)
        obtain rfl : image = .register q := hq
        refine ⟨q, by simp [leaf, hf], ?_⟩
        have hl : m.lookup r.key.value = some (.register q) := hf
        simp [keyImage, hl]
  this type := leaf_eq_self h.forRegisters _ rfl
  argument a := leaf_eq_self h.forRegisters _ rfl
  constant c := leaf_eq_self h.forRegisters _ rfl

/-- Replaced registers are the images of entries. -/
theorem keyImage_cases (h : m.OnRegisters) (x : RegisterKey)
    : m.keyImage x = x ∨ ∃ (r q : Register), ((Value.register r).anonymous, .register q) ∈ m
        ∧ r.key = x ∧ q.key = m.keyImage x := by
  cases hl : m.lookup x.value with
  | none => simp [keyImage, hl]
  | some image =>
      have hmem := mem_of_lookup hl
      obtain ⟨_, q, -, hq⟩ := h _ hmem
      obtain rfl : image = .register q := hq
      exact .inr ⟨⟨x.1, x.2, "", .generated⟩, q, hmem, rfl, by simp [keyImage, hl]⟩

theorem value_eq_mapLeaves (h : m.ForRegisters) (v : Value)
    : m.value v = v.mapLeaves m.leaf := by
  induction v with
  | field object owner name type ih =>
      simp [Substitution.value, find?_eq_none h (.field object owner name type) rfl,
        Value.mapLeaves, ih]
  | element array index type iha ihi =>
      simp [Substitution.value, find?_eq_none h (.element array index type) rfl,
        Value.mapLeaves, iha, ihi]
  | staticField owner name type =>
      simp [Substitution.value, find?_eq_none h (.staticField owner name type) rfl,
        Value.mapLeaves]
  | _ => rfl

theorem ForRegisters.inst_eq_rename (h : m.ForRegisters) (i : Inst)
    : m.inst i = i.rename m.leaf := by
  rw [Substitution.inst, Inst.rename, funext (value_eq_mapLeaves h)]

theorem inst_eq_rename (h : m.OnRegisters) (i : Inst)
    : m.inst i = i.rename m.leaf :=
  h.forRegisters.inst_eq_rename i

/-- Inserting an entry for a register adds nothing else. -/
theorem mem_insert {v image : Value} {entry : Value × Value}
    (h : entry ∈ ValueMap.insert m v image)
    : entry = (v.anonymous, image) ∨ entry ∈ m := by
  rcases List.mem_cons.mp h with rfl | h
  · exact .inl rfl
  · exact .inr (List.mem_filter.mp h).1

theorem lookup_erase (m : Substitution) (v : Value) {key : Value} (h : key ≠ v.anonymous)
    : (ValueMap.erase m v).lookup key = m.lookup key := by
  induction m with
  | nil => rfl
  | cons entry m ih =>
      obtain ⟨k, image⟩ := entry
      simp only [ValueMap.erase] at ih
      by_cases hk : k = v.anonymous
      · subst hk
        simp [ValueMap.erase, List.lookup_cons, beq_false_of_ne h, ← ih]
      · simp [ValueMap.erase, hk, List.lookup_cons, ← ih]

theorem find?_insert (m : Substitution) (v image w : Value)
    : ValueMap.find? (ValueMap.insert m v image) w
      = if w.anonymous = v.anonymous then some image else ValueMap.find? m w := by
  by_cases hw : w.anonymous = v.anonymous
  · simp [ValueMap.find?, ValueMap.insert, hw]
  · simp [ValueMap.find?, ValueMap.insert, List.lookup_cons, beq_false_of_ne hw,
      lookup_erase m v hw, hw]

end Substitution

-- One type for each register

theorem renames_retypeLeaf (declared : List (Nat × TypeName))
    : Renames (retypeLeaf declared)
        fun x => (x.1, (declared.lookup x.1).getD x.2) where
  register r := by
    cases h : declared.lookup r.index with
    | none => exact ⟨r, by simp [retypeLeaf, h], by simp [Register.key, h]⟩
    | some type =>
        exact ⟨r.withType type, by simp [retypeLeaf, h],
          by simp [Register.key, Register.withType, h]⟩
  this _ := rfl
  argument _ := rfl
  constant _ := rfl

/-- Registers with one index are in one class, so they may get one type. -/
theorem normalizeTypes_sound {code : List Inst} (h : Tractable code)
    : SameBehaviour code (normalizeTypes code) ∧ Tractable (normalizeTypes code) := by
  have hf := renames_retypeLeaf (declared code)
  have hthin : normalizeTypes code
      = thin (retypeLeaf (declared code)) (fun _ => false) code :=
    map_rename_eq_thin _ code
  obtain ⟨cls, hc⟩ := h.classified
  rw [hthin]
  have ht := thinned_thin (retypeLeaf (declared code))
    (fun _ => false) code
  have hσ : ∀ x, Occurs code x →
      cls x.1 (x.1, ((declared code).lookup x.1).getD x.2).1 :=
    fun x _ => cls.refl x.1
  refine h.recolour (recolouring_thin hf (neededBefore_all code) (fun _ => rfl) ?_ ?_) ht
    ⟨cls, hc.of_thinned ht hf hσ⟩
  · intro i rest A ha hd
    cases hd
  · intro i rest A ha _
    exact ⟨fun _ _ => trivial, hc.noClash h.assigned hσ (fun _ _ => True) i rest⟩

end StackLift
