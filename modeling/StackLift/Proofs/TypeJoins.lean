import Mathlib.Order.Lattice
import StackLift.Lift.Join

/-!
The join of types is a semilattice. Its order puts the types kept as `int` below `int`, `null` below
all references, references below `java.lang.Object` and everything below `TOP`; the laws of the join
follow from its being the least upper bound. The join of a list of types is that of the set of its
members.
-/

namespace StackLift

namespace TypeName

variable {t u v : TypeName}

-- The order

/-- A place of the second type can take the values of the first one. -/
def Below (t u : TypeName) : Prop :=
  t = u ∨ u = top ∨ (t.isIntLike = true ∧ u = int) ∨ (t = null ∧ u.isPrimitive = false)
    ∨ (t.isPrimitive = false ∧ t ≠ top ∧ u = object)

theorem isPrimitive_of_isIntLike (h : t.isIntLike = true)
    : t.isPrimitive = true := by
  simp only [isIntLike, List.contains_iff_mem, List.mem_cons, List.not_mem_nil, or_false] at h
  rcases h with rfl | rfl | rfl | rfl | rfl <;> rfl

theorem below_top (t : TypeName) : t.Below top :=
  .inr (.inl rfl)

theorem eq_top_of_below (h : top.Below u)
    : u = top := by
  rcases h with rfl | rfl | ⟨h, -⟩ | ⟨h, -⟩ | ⟨-, h, -⟩
  · rfl
  · rfl
  · cases h
  · exact absurd h (by decide)
  · exact absurd rfl h

theorem below_int_iff
    : Below int u ↔ u = int ∨ u = top := by
  constructor
  · rintro (rfl | rfl | ⟨-, rfl⟩ | ⟨h, -⟩ | ⟨h, -, -⟩)
    · exact .inl rfl
    · exact .inr rfl
    · exact .inl rfl
    · exact absurd h (by decide)
    · cases h
  · rintro (rfl | rfl)
    · exact .inl rfl
    · exact below_top int

/-- What is above a reference is a reference. -/
theorem below_reference_iff (ht : t.isPrimitive = false) (hne : t ≠ top)
    : t.Below u ↔ u = t ∨ u = object ∨ u = top := by
  constructor
  · rintro (rfl | rfl | ⟨h, -⟩ | ⟨rfl, -⟩ | ⟨-, -, rfl⟩)
    · exact .inl rfl
    · exact .inr (.inr rfl)
    · cases (isPrimitive_of_isIntLike h).symm.trans ht
    · cases ht
    · exact .inr (.inl rfl)
  · rintro (rfl | rfl | rfl)
    · exact .inl rfl
    · exact .inr (.inr (.inr (.inr ⟨ht, hne, rfl⟩)))
    · exact below_top t

theorem Below.trans (h : t.Below u) (h' : u.Below v)
    : t.Below v := by
  rcases h with rfl | rfl | ⟨ht, rfl⟩ | ⟨rfl, hu⟩ | ⟨ht, hne, rfl⟩
  · exact h'
  · exact eq_top_of_below h' ▸ below_top t
  · rcases below_int_iff.mp h' with rfl | rfl
    · exact .inr (.inr (.inl ⟨ht, rfl⟩))
    · exact below_top t
  · by_cases hne : u = top
    · exact eq_top_of_below (hne ▸ h') ▸ below_top null
    · rcases (below_reference_iff hu hne).mp h' with rfl | rfl | rfl
      · exact .inr (.inr (.inr (.inl ⟨rfl, hu⟩)))
      · exact .inr (.inr (.inr (.inl ⟨rfl, rfl⟩)))
      · exact below_top null
  · rcases (below_reference_iff (t := object) rfl (by decide)).mp h' with rfl | rfl | rfl
    · exact .inr (.inr (.inr (.inr ⟨ht, hne, rfl⟩)))
    · exact .inr (.inr (.inr (.inr ⟨ht, hne, rfl⟩)))
    · exact below_top t

theorem Below.antisymm (h : t.Below u) (h' : u.Below t)
    : t = u := by
  rcases h with rfl | rfl | ⟨ht, rfl⟩ | ⟨rfl, hu⟩ | ⟨ht, hne, rfl⟩
  · rfl
  · exact eq_top_of_below h'
  · rcases below_int_iff.mp h' with rfl | rfl
    · rfl
    · cases ht
  · by_cases hne : u = top
    · exact hne ▸ eq_top_of_below (hne ▸ h')
    · rcases (below_reference_iff hu hne).mp h' with h | h | h
      · exact h
      · exact absurd h (by decide)
      · exact absurd h (by decide)
  · rcases (below_reference_iff (t := object) rfl (by decide)).mp h' with h | h | h
    · exact h
    · exact h
    · exact absurd h hne

-- The join of two types

theorem ne_top_of_isPrimitive (h : t.isPrimitive = true)
    : t ≠ top := by
  rintro rfl
  cases h

/-- Distinct primitive types have a join if both are kept as `int`. -/
theorem lub_of_isPrimitive (ht : t.isPrimitive = true) (hu : u.isPrimitive = true) (hne : t ≠ u)
    : t.lub u = if t.isIntLike && u.isIntLike then int else top := by
  have hnull : null.isIntLike = false := rfl
  simp only [lub, hne, ne_top_of_isPrimitive ht, ne_top_of_isPrimitive hu, ht, hu, primitiveLub,
    if_false, if_true, decide_false, Bool.or_self, Bool.false_eq_true, Bool.not_true]
  split
  next heq => simp [heq, hnull]
  next => rfl

theorem lub_of_references (ht : t.isPrimitive = false) (hu : u.isPrimitive = false)
    (htop : t ≠ top) (htop' : u ≠ top) (hne : t ≠ u)
    : t.lub u = object := by
  simp [lub, hne, htop, htop', ht, hu]

/-- Of the primitive types only `null` joins with references. -/
theorem lub_of_isPrimitive_reference (ht : t.isPrimitive = true) (hu : u.isPrimitive = false)
    (htop : u ≠ top)
    : t.lub u = (if t = null then u else top) ∧ u.lub t = if t = null then u else top := by
  have hne : t ≠ u := by
    rintro rfl
    cases ht.symm.trans hu
  simp [lub, hne, hne.symm, ne_top_of_isPrimitive ht, htop, ht, hu, primitiveLub]

theorem lub_self (t : TypeName) : t.lub t = t :=
  if_pos rfl

theorem lub_top (t : TypeName) : t.lub top = top ∧ top.lub t = top := by
  by_cases ht : t = top
  · subst ht
    exact ⟨lub_self top, lub_self top⟩
  · simp [lub, ht, Ne.symm ht]

theorem below_primitive (ht : t.isPrimitive = true) (hnull : t ≠ null) (h : t.Below v)
    : v = t ∨ v = top ∨ (t.isIntLike = true ∧ v = int) := by
  rcases h with rfl | rfl | h | ⟨rfl, -⟩ | ⟨h, -, -⟩
  · exact .inl rfl
  · exact .inr (.inl rfl)
  · exact .inr (.inr h)
  · exact absurd rfl hnull
  · cases ht.symm.trans h

theorem below_null (h : null.Below v)
    : v = null ∨ v.isPrimitive = false := by
  rcases h with rfl | rfl | ⟨h, -⟩ | ⟨-, h⟩ | ⟨h, -, -⟩
  · exact .inl rfl
  · exact .inr rfl
  · cases h
  · exact .inr h
  · cases h

/-- Nothing but `TOP` is above `null` and another primitive type. -/
theorem eq_top_of_below_null (hu : u.isPrimitive = true) (hnull : u ≠ null) (h : null.Below v)
    (h' : u.Below v)
    : v = top := by
  rcases below_primitive hu hnull h' with rfl | rfl | ⟨-, rfl⟩
  · rcases below_null h with h | h
    · exact absurd h hnull
    · cases hu.symm.trans h
  · rfl
  · rcases below_null h with h | h
    · exact absurd h (by decide)
    · cases h

/-- Nothing but `TOP` is above two primitive types that are not both kept as `int`. -/
theorem eq_top_of_below_primitives (ht : t.isPrimitive = true) (hu : u.isPrimitive = true)
    (hne : t ≠ u) (hint : (t.isIntLike && u.isIntLike) = false) (h : t.Below v) (h' : u.Below v)
    : v = top := by
  by_cases htn : t = null
  · subst htn
    exact eq_top_of_below_null hu hne.symm h h'
  · by_cases hun : u = null
    · subst hun
      exact eq_top_of_below_null ht hne h' h
    · have hself : int.isIntLike = true := rfl
      rcases below_primitive ht htn h with rfl | rfl | ⟨hti, rfl⟩
      · rcases below_primitive hu hun h' with rfl | rfl | ⟨hui, rfl⟩
        · exact absurd rfl hne
        · rfl
        · simp [hui, hself] at hint
      · rfl
      · rcases below_primitive hu hun h' with rfl | h | ⟨hui, -⟩
        · simp [hti, hself] at hint
        · exact h
        · simp [hti, hui] at hint

/-- Nothing but `TOP` is above a primitive type other than `null` and a reference. -/
theorem eq_top_of_below_primitive_reference (ht : t.isPrimitive = true) (hnull : t ≠ null)
    (hu : u.isPrimitive = false) (h : t.Below v) (h' : u.Below v)
    : v = top := by
  by_cases htop : u = top
  · exact eq_top_of_below (htop ▸ h')
  · have hv : v.isPrimitive = false := by
      rcases (below_reference_iff hu htop).mp h' with rfl | rfl | rfl
      · exact hu
      · rfl
      · rfl
    rcases below_primitive ht hnull h with rfl | rfl | ⟨-, rfl⟩
    · cases ht.symm.trans hv
    · rfl
    · cases hv

theorem top_below_iff (h : t.Below v → u.Below v → v = top)
    : top.Below v ↔ t.Below v ∧ u.Below v := by
  constructor
  · intro htop
    rw [eq_top_of_below htop]
    exact ⟨below_top t, below_top u⟩
  · rintro ⟨ht, hu⟩
    exact h ht hu ▸ below_top top

/-- The only types above two distinct types that are kept as `int` are those above `int`. -/
theorem int_below_iff (ht : t.isIntLike = true) (hu : u.isIntLike = true) (hne : t ≠ u)
    : Below int v ↔ t.Below v ∧ u.Below v := by
  have hnull : ∀ {t : TypeName}, t.isIntLike = true → t ≠ null := by
    rintro _ h rfl
    cases h
  constructor
  · intro h
    exact ⟨Below.trans (.inr (.inr (.inl ⟨ht, rfl⟩))) h,
      Below.trans (.inr (.inr (.inl ⟨hu, rfl⟩))) h⟩
  · rintro ⟨h, h'⟩
    rw [below_int_iff]
    rcases below_primitive (isPrimitive_of_isIntLike ht) (hnull ht) h with rfl | htop | ⟨-, hint⟩
    · rcases below_primitive (isPrimitive_of_isIntLike hu) (hnull hu) h' with rfl | htop | ⟨-, hint⟩
      · exact absurd rfl hne
      · exact .inr htop
      · exact .inl hint
    · exact .inr htop
    · exact .inl hint

/-- The only types above two distinct references are those above `java.lang.Object`. -/
theorem object_below_iff (ht : t.isPrimitive = false) (hu : u.isPrimitive = false)
    (htop : t ≠ top) (htop' : u ≠ top) (hne : t ≠ u)
    : object.Below v ↔ t.Below v ∧ u.Below v := by
  rw [below_reference_iff (t := object) rfl (by decide), below_reference_iff ht htop,
    below_reference_iff hu htop', or_self_left]
  constructor
  · exact fun h => ⟨.inr h, .inr h⟩
  · rintro ⟨rfl | h, rfl | h'⟩
    · exact absurd rfl hne
    · exact h'
    · exact h
    · exact h

theorem lub_isPrimitive_reference_below_iff (ht : t.isPrimitive = true) (hu : u.isPrimitive = false)
    : (if t = null then u else top).Below v ↔ t.Below v ∧ u.Below v := by
  split
  next hnull =>
    have hbelow : t.Below u := .inr (.inr (.inr (.inl ⟨hnull, hu⟩)))
    exact ⟨fun h => ⟨hbelow.trans h, h⟩, And.right⟩
  next hnull =>
    exact top_below_iff (eq_top_of_below_primitive_reference ht hnull hu)

/-- The join is the least upper bound. -/
theorem lub_below_iff
    : (t.lub u).Below v ↔ t.Below v ∧ u.Below v := by
  by_cases hne : t = u
  · subst hne
    rw [lub_self, and_self]
  by_cases htop : t = top
  · subst htop
    rw [(lub_top u).2]
    exact top_below_iff fun h _ => eq_top_of_below h
  by_cases htop' : u = top
  · subst htop'
    rw [(lub_top t).1]
    exact top_below_iff fun _ h => eq_top_of_below h
  cases ht : t.isPrimitive with
  | true =>
      cases hu : u.isPrimitive with
      | true =>
          rw [lub_of_isPrimitive ht hu hne]
          cases hint : t.isIntLike && u.isIntLike with
          | true =>
              obtain ⟨hti, hui⟩ := Bool.and_eq_true_iff.mp hint
              exact int_below_iff hti hui hne
          | false => exact top_below_iff (eq_top_of_below_primitives ht hu hne hint)
      | false =>
          rw [(lub_of_isPrimitive_reference ht hu htop').1]
          exact lub_isPrimitive_reference_below_iff ht hu
  | false =>
      cases hu : u.isPrimitive with
      | true =>
          rw [(lub_of_isPrimitive_reference hu ht htop).2, and_comm]
          exact lub_isPrimitive_reference_below_iff hu ht
      | false =>
          rw [lub_of_references ht hu htop htop' hne]
          exact object_below_iff ht hu htop htop' hne

instance : SemilatticeSup TypeName where
  le := Below
  le_refl _ := .inl rfl
  le_trans _ _ _ := Below.trans
  le_antisymm _ _ := Below.antisymm
  sup := lub
  le_sup_left _ _ := (lub_below_iff.mp (.inl rfl)).1
  le_sup_right _ _ := (lub_below_iff.mp (.inl rfl)).2
  sup_le _ _ _ h h' := lub_below_iff.mpr ⟨h, h'⟩

theorem isPrimitive_of_isWide (h : t.isWide = true)
    : t.isPrimitive = true := by
  rcases Bool.or_eq_true_iff.mp h with h | h <;> exact of_decide_eq_true h ▸ rfl

/-- Below anything but `TOP` are types of its width only. -/
theorem Below.isWide_eq (h : t.Below u) (hu : u ≠ top)
    : t.isWide = u.isWide := by
  have hnarrow : ∀ {t : TypeName}, t.isPrimitive = false → t.isWide = false := by
    intro t ht
    by_contra hwide
    cases (isPrimitive_of_isWide (by simpa using hwide)).symm.trans ht
  rcases h with rfl | rfl | ⟨ht, rfl⟩ | ⟨rfl, hprimitive⟩ | ⟨ht, -, rfl⟩
  · rfl
  · exact absurd rfl hu
  · simp only [isIntLike, List.contains_iff_mem, List.mem_cons, List.not_mem_nil, or_false] at ht
    rcases ht with rfl | rfl | rfl | rfl | rfl <;> rfl
  · rw [hnarrow hprimitive]
    rfl
  · rw [hnarrow ht]
    rfl

theorem isWide_eq_of_lub_ne_top (h : t.lub u ≠ top)
    : t.isWide = u.isWide := by
  obtain ⟨ht, hu⟩ := lub_below_iff.mp (.inl rfl : (t.lub u).Below (t.lub u))
  rw [ht.isWide_eq h, hu.isWide_eq h]

-- The join of a list of types

theorem foldl_lub_le_iff {types : List TypeName}
    : types.foldl lub t ≤ v ↔ ∀ u ∈ t :: types, u ≤ v := by
  induction types generalizing t with
  | nil => simp
  | cons u rest ih =>
      have hlub : t.lub u ≤ v ↔ t ≤ v ∧ u ≤ v := sup_le_iff
      rw [List.foldl_cons, ih]
      simp only [List.forall_mem_cons, hlub, and_assoc]

/-- The join of a list depends on its members only. -/
theorem lubAll_congr {types types' : List TypeName} (h : ∀ t, t ∈ types ↔ t ∈ types')
    : lubAll types = lubAll types' := by
  cases types with
  | nil =>
      cases types' with
      | nil => rfl
      | cons u rest => exact absurd ((h u).mpr List.mem_cons_self) List.not_mem_nil
  | cons t rest =>
      cases types' with
      | nil => exact absurd ((h t).mp List.mem_cons_self) List.not_mem_nil
      | cons u rest' =>
          refine congrArg some (eq_of_forall_ge_iff fun v => ?_)
          rw [foldl_lub_le_iff, foldl_lub_le_iff]
          exact forall_congr' fun u => imp_congr_left (h u)

end TypeName

end StackLift
