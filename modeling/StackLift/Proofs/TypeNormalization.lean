import Mathlib.Data.Finset.Card
import Mathlib.Data.List.Induction
import StackLift.Proofs.FrameRegisters
import StackLift.Proofs.Substitutions

/-!
Giving each register one type: if this changes a code, fewer registers have several types after it.
-/

namespace StackLift

open RegisterTypes Inst

/-- All registers that occur in an instruction. -/
def Inst.keys (i : Inst) : List RegisterKey :=
  keysOf i.subvalues

theorem Inst.mem_keys {i : Inst} {x : RegisterKey}
    : x ∈ i.keys ↔ ∃ r, .register r ∈ i.subvalues ∧ r.key = x :=
  mem_keysOf

theorem Inst.operands_mapValues (g : Value → Value) (i : Inst)
    : (i.mapValues g).operands = i.operands.map (Expr.mapValues g) := by
  cases i with
  | returns value => cases value <;> rfl
  | _ => simp [mapValues, operands, Expr.mapValues, BinaryExpr.mapValues]

variable {σ : RegisterKey → RegisterKey}

theorem Inst.keys_mapValues {g : Value → Value}
    (hg : ∀ v, keysOf (g v).subvalues = (keysOf v.subvalues).map σ) (i : Inst)
    : (i.mapValues g).keys = i.keys.map σ := by
  rw [keys, subvalues, operands_mapValues, keys, subvalues]
  induction i.operands with
  | nil => rfl
  | cons e es ih =>
      simp only [List.map_cons, List.flatMap_cons, keysOf_append, List.map_append, ih,
        e.keysOf_mapValues hg]

theorem Renames.keys_rename {f : Value → Value} (hf : Renames f σ) (i : Inst)
    : (i.rename f).keys = i.keys.map σ :=
  i.keys_mapValues hf.keysOf_mapLeaves

-- Instructions that stay as they are

theorem Value.Within.mapLeaves_eq {f : Value → Value} (hf : Renames f σ) {v : Value}
    (h : v.Within fun r => f (.register r) = .register r)
    : v.mapLeaves f = v := by
  induction v with
  | register r => exact Value.within_register.mp h
  | this type => exact hf.this type
  | argument a => exact hf.argument a
  | constant c => exact hf.constant c
  | staticField owner name type => rfl
  | field object owner name type ih => rw [Value.mapLeaves, ih (Value.within_field.mp h)]
  | element array index type iha ihi =>
      obtain ⟨ha, hi⟩ := Value.within_element.mp h
      rw [Value.mapLeaves, iha ha, ihi hi]

section Fixed

variable {P : Register → Prop} {g : Value → Value}

theorem Call.mapValues_eq {c : Call} (h : ∀ v ∈ c.operands, g v = v)
    : c.mapValues g = c := by
  have hmap : ∀ vs : List Value, (∀ v ∈ vs, g v = v) → vs.map g = vs := fun vs hvs =>
    (List.map_congr_left hvs).trans (List.map_id vs)
  cases c with
  | method c =>
      simp only [Call.operands, List.mem_append, Option.mem_toList] at h
      have hreceiver : c.receiver.map g = c.receiver := by
        cases hr : c.receiver with
        | none => rfl
        | some v => exact congrArg some (h v (.inl hr))
      simp [Call.mapValues, hreceiver, hmap c.arguments fun v hv => h v (.inr hv)]
  | dynamic c => simp [Call.mapValues, hmap c.arguments h]

theorem Expr.Within.mapValues_eq (hg : ∀ v, v.Within P → g v = v) {e : Expr} (he : e.Within P)
    : e.mapValues g = e := by
  have hoperands : e.value? = none → ∀ v ∈ e.operands, g v = v := by
    intro hvalue v hv
    refine hg v fun r hr => ?_
    cases e with
    | value v => cases hvalue
    | _ => exact he r (List.mem_flatMap.mpr ⟨v, hv, hr⟩)
  cases e with
  | value v => rw [Expr.mapValues, hg v he]
  | call c => rw [Expr.mapValues, Call.mapValues_eq (hoperands rfl)]
  | newArray type dimensions =>
      exact congrArg (Expr.newArray type)
        ((List.map_congr_left (hoperands rfl)).trans (List.map_id dimensions))
  | _ =>
      have h := hoperands rfl
      simp_all [Expr.mapValues, BinaryExpr.mapValues, Expr.operands]

theorem Inst.mapValues_eq (hg : ∀ v, v.Within P → g v = v) {i : Inst}
    (hi : ∀ e ∈ i.operands, e.Within P)
    : i.mapValues g = i := by
  have hvalue : ∀ {v}, .value v ∈ i.operands → g v = v := fun hv => hg _ (hi _ hv)
  cases i with
  | assign target source =>
      rw [mapValues, hvalue (by simp [operands]),
        (hi source (by simp [operands])).mapValues_eq hg]
  | call c =>
      rw [mapValues, Call.mapValues_eq fun v hv => hvalue (List.mem_map_of_mem hv)]
  | returns value =>
      cases value with
      | none => rfl
      | some v => rw [mapValues, Option.map_some, hvalue (by simp [operands])]
  | switch key cases default =>
      have hcases : cases.map (fun c => (g c.1, c.2)) = cases := by
        refine (List.map_congr_left fun c hc => ?_).trans (List.map_id cases)
        rw [hvalue (List.mem_cons_of_mem _ (List.mem_map.mpr ⟨c, hc, rfl⟩))]
        rfl
      rw [mapValues, hvalue (by simp [operands]), hcases]
  | _ => simp_all [mapValues, BinaryExpr.mapValues, operands]

end Fixed

-- Registers with several types

/-- All occurrences of registers with the index have one type. -/
def OneTypeAt (code : List Inst) (index : Nat) : Prop :=
  ∀ x ∈ code.flatMap keys, ∀ y ∈ code.flatMap keys, x.1 = index → y.1 = index → x = y

instance (code : List Inst) (index : Nat) : Decidable (OneTypeAt code index) :=
  inferInstanceAs (Decidable (∀ x ∈ code.flatMap keys, ∀ y ∈ code.flatMap keys,
    x.1 = index → y.1 = index → x = y))

/-- The indices of assigned registers. -/
def assignedIndices (code : List Inst) : List Nat :=
  code.filterMap fun i => i.assigned?.map Prod.fst

/-- The indices of assigned registers that have several types. -/
def severalTypes (code : List Inst) : Finset Nat :=
  (assignedIndices code).toFinset.filter fun index => ¬ OneTypeAt code index

theorem mem_severalTypes {code : List Inst} {index : Nat}
    : index ∈ severalTypes code ↔ index ∈ assignedIndices code ∧ ¬ OneTypeAt code index := by
  simp [severalTypes]

theorem card_severalTypes_le (code : List Inst)
    : (severalTypes code).card ≤ code.length :=
  calc
    (severalTypes code).card ≤ (assignedIndices code).toFinset.card :=
      Finset.card_le_card (Finset.filter_subset _ _)
    _ ≤ (assignedIndices code).length := List.toFinset_card_le _
    _ ≤ code.length := List.length_filterMap_le _ _

theorem mem_add {r : Register} {type : TypeName} {es : List Entry} {entry : Entry}
    (h : entry ∈ add r type es)
    : (∃ old ∈ es, old.index = entry.index ∧ old.type = entry.type)
      ∨ (r.index = entry.index ∧ r.type = entry.type) := by
  induction es with
  | nil =>
      rw [add, List.mem_singleton] at h
      exact .inr (by simp [h])
  | cons old es ih =>
      rw [add] at h
      split at h
      · rcases List.mem_cons.mp h with rfl | h
        · exact .inl ⟨old, List.mem_cons_self, rfl, rfl⟩
        · exact .inl ⟨entry, List.mem_cons_of_mem _ h, rfl, rfl⟩
      · rcases List.mem_cons.mp h with rfl | h
        · exact .inl ⟨entry, List.mem_cons_self, rfl, rfl⟩
        · exact (ih h).imp (fun ⟨e, he, hk⟩ => ⟨e, List.mem_cons_of_mem _ he, hk⟩) id

/-- Each entry has the type of a register that the code assigns. -/
theorem exists_assign_of_mem_entries {code : List Inst} {entry : Entry} (h : entry ∈ entries code)
    : ∃ r e, .assign (.register r) e ∈ code ∧ r.index = entry.index ∧ r.type = entry.type := by
  induction code using List.reverseRecOn generalizing entry with
  | nil => cases h
  | append_singleton code i ih =>
      have hold : ∀ {entry : Entry}, entry ∈ entries code →
          ∃ r e, .assign (.register r) e ∈ code ++ [i] ∧ r.index = entry.index
            ∧ r.type = entry.type := by
        intro entry h
        obtain ⟨r, e, hm, hk⟩ := ih h
        exact ⟨r, e, List.mem_append_left _ hm, hk⟩
      simp only [entries, List.foldl_append, List.foldl_cons, List.foldl_nil] at h
      split at h
      · split at h
        · exact hold h
        · rcases mem_add h with ⟨old, hm, hi, ht⟩ | ⟨hi, ht⟩
          · rw [← hi, ← ht]
            exact hold hm
          · exact ⟨_, _, List.mem_append_right _ (List.mem_singleton_self _), hi, ht⟩
      · exact hold h

/-- A declared type is one that the code assigns to. -/
theorem exists_assign_of_declared {code : List Inst} {index : Nat} {type : TypeName}
    (h : (declared code).lookup index = some type)
    : ∃ r e, .assign (.register r) e ∈ code ∧ r.key = (index, type) := by
  obtain ⟨entry, hentry, he⟩ := List.mem_map.mp (mem_of_lookup h)
  obtain ⟨r, e, hr, hi, ht⟩ := exists_assign_of_mem_entries (List.mem_filter.mp hentry).1
  exact ⟨r, e, hr, (Prod.ext hi ht : r.key = (entry.index, entry.type)).trans he⟩

theorem length_normalizeTypes (code : List Inst)
    : (normalizeTypes code).length = code.length :=
  List.length_map _

section Normalized

variable {code : List Inst}

/-- The key that a register gets. -/
def retypedKey (code : List Inst) (x : RegisterKey) : RegisterKey :=
  (x.1, ((declared code).lookup x.1).getD x.2)

theorem keys_normalizeTypes (code : List Inst)
    : (normalizeTypes code).flatMap keys
      = (code.flatMap keys).map (retypedKey code) := by
  have hf := renames_retypeLeaf (declared code)
  have hmap : normalizeTypes code = code.map (rename (retypeLeaf (declared code))) := rfl
  rw [hmap, List.flatMap_map, List.map_flatMap]
  exact congrArg code.flatMap (funext hf.keys_rename)

theorem mem_keys_normalizeTypes {x : RegisterKey}
    : x ∈ (normalizeTypes code).flatMap keys
      ↔ ∃ y ∈ code.flatMap keys, retypedKey code y = x := by
  rw [keys_normalizeTypes, List.mem_map]

theorem assignedIndices_normalizeTypes
    : assignedIndices (normalizeTypes code) = assignedIndices code := by
  have hf := renames_retypeLeaf (declared code)
  have hmap : normalizeTypes code = code.map (rename (retypeLeaf (declared code))) := rfl
  rw [hmap, assignedIndices, List.filterMap_map, assignedIndices]
  refine congrArg (code.filterMap ·) (funext fun i => ?_)
  rw [Function.comp_apply, hf.assigned?_rename, Option.map_map]
  rfl

/-- If types are changed, then that of some register. -/
theorem exists_retyped (h : normalizeTypes code ≠ code)
    : ∃ (r : Register) (type : TypeName), r.key ∈ code.flatMap keys
        ∧ (declared code).lookup r.index = some type ∧ type ≠ r.type := by
  by_contra hnone
  have hf := renames_retypeLeaf (declared code)
  refine h ((List.map_congr_left fun i hi => ?_).trans (List.map_id code))
  refine mapValues_eq (fun v hv => hv.mapLeaves_eq hf) fun e he r hr => ?_
  have hkey : r.key ∈ code.flatMap keys :=
    List.mem_flatMap.mpr ⟨i, hi, mem_keys.mpr ⟨r, List.mem_flatMap.mpr ⟨e, he, hr⟩, rfl⟩⟩
  cases hd : (declared code).lookup r.index with
  | none => simp [retypeLeaf, hd]
  | some type =>
      obtain rfl : type = r.type := by_contra fun hne => hnone ⟨r, type, hkey, hd, hne⟩
      simp [retypeLeaf, hd, Register.withType]

/-- If types are changed, a register that is changed had several types and has one now, and no other
register gets several.
-/
theorem card_severalTypes_lt (h : normalizeTypes code ≠ code)
    : (severalTypes (normalizeTypes code)).card < (severalTypes code).card := by
  have hone : ∀ {index}, OneTypeAt code index → OneTypeAt (normalizeTypes code) index := by
    intro index hc x hx y hy hxi hyi
    obtain ⟨x', hx', rfl⟩ := mem_keys_normalizeTypes.mp hx
    obtain ⟨y', hy', rfl⟩ := mem_keys_normalizeTypes.mp hy
    rw [hc x' hx' y' hy' hxi hyi]
  have hsub : severalTypes (normalizeTypes code) ⊆ severalTypes code := by
    intro index hi
    rw [mem_severalTypes, assignedIndices_normalizeTypes] at hi
    exact mem_severalTypes.mpr ⟨hi.1, fun hc => hi.2 (hone hc)⟩
  obtain ⟨r, type, hr, hd, hne⟩ := exists_retyped h
  refine Finset.card_lt_card ((Finset.ssubset_iff_of_subset hsub).mpr ⟨r.index, ?_, ?_⟩)
  · obtain ⟨q, e, hq, hk⟩ := exists_assign_of_declared hd
    refine mem_severalTypes.mpr ⟨?_, fun hc => ?_⟩
    · exact List.mem_filterMap.mpr ⟨_, hq, by simp [assigned?, hk]⟩
    · have hqk : q.key ∈ code.flatMap keys := List.mem_flatMap.mpr
        ⟨_, hq, mem_keys.mpr ⟨q, by simp [subvalues, operands, Expr.subvalues,
          Value.subvalues], rfl⟩⟩
      have heq := hc _ hqk _ hr (congrArg Prod.fst hk) rfl
      exact hne (congrArg Prod.snd (hk.symm.trans heq))
  · intro hm
    refine (mem_severalTypes.mp hm).2 fun x hx y hy hxi hyi => ?_
    obtain ⟨x', -, rfl⟩ := mem_keys_normalizeTypes.mp hx
    obtain ⟨y', -, rfl⟩ := mem_keys_normalizeTypes.mp hy
    simp only [retypedKey] at hxi hyi ⊢
    rw [hxi, hyi, hd]
    rfl

end Normalized

end StackLift
