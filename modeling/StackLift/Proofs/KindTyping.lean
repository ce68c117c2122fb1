import StackLift.Proofs.StackMachine

/-!
Typings of methods by kinds. A typing says for each node which slots are usable and what the stack
holds, in the way a verifier does: every node can be executed on kinds alone, and what it leaves
provides what the nodes after it need.
-/

namespace StackLift

-- Kinds of types

namespace TypeName

/-- The kind of the values of a type. -/
def kind (t : TypeName) : ValueKind :=
  if t.isIntLike then .int
  else if t = .long then .long
  else if t = .float then .float
  else if t = .double then .double
  else .reference

/-- Does the type have values? -/
def isUsable (t : TypeName) : Bool :=
  t ≠ top && t ≠ void

/-- The type has values, and they have the kind. -/
structure HasKind (t : TypeName) (kind : ValueKind) : Prop where
  usable : t.isUsable = true
  eq : t.kind = kind

instance (t : TypeName) (kind : ValueKind) : Decidable (t.HasKind kind) :=
  decidable_of_iff (t.isUsable = true ∧ t.kind = kind)
    ⟨fun ⟨usable, eq⟩ => ⟨usable, eq⟩, fun h => ⟨h.usable, h.eq⟩⟩

variable {t u : TypeName} {kind : ValueKind}

theorem isUsable_iff
    : t.isUsable = true ↔ t ≠ top ∧ t ≠ void := by
  simp [isUsable]

theorem cases_of_kind_int (h : t.kind = .int)
    : t = boolean ∨ t = byte ∨ t = char ∨ t = short ∨ t = int := by
  unfold TypeName.kind at h
  split at h
  next hint => simpa using List.contains_iff_mem.mp hint
  next =>
    repeat' split at h
    all_goals cases h

theorem eq_of_kind_long (h : t.kind = .long)
    : t = long := by
  unfold TypeName.kind at h
  repeat' split at h
  all_goals first | assumption | cases h

theorem eq_of_kind_float (h : t.kind = .float)
    : t = float := by
  unfold TypeName.kind at h
  repeat' split at h
  all_goals first | assumption | cases h

theorem eq_of_kind_double (h : t.kind = .double)
    : t = double := by
  unfold TypeName.kind at h
  repeat' split at h
  all_goals first | assumption | cases h

/-- References are not primitive, apart from `null`. -/
theorem HasKind.of_reference (h : t.HasKind .reference)
    : t = null ∨ t.isPrimitive = false := by
  by_cases hprimitive : t.isPrimitive = true
  · have hmem := List.contains_iff_mem.mp hprimitive
    simp only [List.mem_cons, List.not_mem_nil, or_false] at hmem
    rcases hmem with rfl | rfl | rfl | rfl | rfl | rfl | rfl | rfl | rfl | rfl
    case inr.inr.inr.inr.inr.inr.inr.inr.inl => cases h.usable
    case inr.inr.inr.inr.inr.inr.inr.inr.inr => exact .inl rfl
    all_goals cases h.eq
  · exact .inr (by simpa using hprimitive)

theorem isWide_eq (t : TypeName)
    : t.isWide = t.kind.isWide := by
  by_cases hlong : t = long
  · rw [hlong]
    rfl
  · by_cases hdouble : t = double
    · rw [hdouble]
      rfl
    · have hwide : t.isWide = false := by simp [isWide, hlong, hdouble]
      rw [hwide]
      cases hkind : t.kind with
      | long => exact absurd (eq_of_kind_long hkind) hlong
      | double => exact absurd (eq_of_kind_double hkind) hdouble
      | _ => rfl

theorem kind_reference_of_not_isPrimitive (h : t.isPrimitive = false)
    : t.kind = .reference := by
  have hnot : ∀ {u}, u.isPrimitive = true → t ≠ u := by
    intro u hu heq
    rw [heq, hu] at h
    cases h
  cases hkind : t.kind with
  | int =>
      rcases cases_of_kind_int hkind with rfl | rfl | rfl | rfl | rfl <;> cases h
  | long => exact absurd (eq_of_kind_long hkind) (hnot rfl)
  | float => exact absurd (eq_of_kind_float hkind) (hnot rfl)
  | double => exact absurd (eq_of_kind_double hkind) (hnot rfl)
  | reference => rfl

/-- Types of one kind have a join of this kind. -/
theorem HasKind.lub (ht : t.HasKind kind) (hu : u.HasKind kind)
    : (t.lub u).HasKind kind := by
  by_cases heq : t = u
  · rwa [TypeName.lub, if_pos heq]
  · cases kind with
    | int =>
        have hint : t.lub u = int := by
          rcases cases_of_kind_int ht.eq with rfl | rfl | rfl | rfl | rfl <;>
            rcases cases_of_kind_int hu.eq with rfl | rfl | rfl | rfl | rfl <;>
              first | rfl | exact absurd rfl heq
        rw [hint]
        decide
    | long => exact absurd ((eq_of_kind_long ht.eq).trans (eq_of_kind_long hu.eq).symm) heq
    | float => exact absurd ((eq_of_kind_float ht.eq).trans (eq_of_kind_float hu.eq).symm) heq
    | double => exact absurd ((eq_of_kind_double ht.eq).trans (eq_of_kind_double hu.eq).symm) heq
    | reference =>
        have hne := (isUsable_iff.mp ht.usable).1
        have hne' := (isUsable_iff.mp hu.usable).1
        rw [TypeName.lub, if_neg heq]
        simp only [hne, hne', decide_false, Bool.or_self, Bool.false_eq_true, if_false]
        rcases ht.of_reference with rfl | htp
        · have hup : u.isPrimitive = false := hu.of_reference.resolve_left fun h => heq h.symm
          have : null.isPrimitive = true := rfl
          simpa [this, primitiveLub, hup] using hu
        · rcases hu.of_reference with rfl | hup
          · have : null.isPrimitive = true := rfl
            simpa [this, primitiveLub, htp] using ht
          · simp only [htp, hup, Bool.false_eq_true, if_false]
            decide

/-- Arithmetic on numbers of one kind. -/
theorem HasKind.binaryResult {number : NumberKind} (ht : t.HasKind number.valueKind)
    (hu : u.HasKind number.valueKind)
    : (t.binaryResult u).HasKind number.valueKind := by
  cases number with
  | int =>
      rcases cases_of_kind_int ht.eq with rfl | rfl | rfl | rfl | rfl <;>
        rcases cases_of_kind_int hu.eq with rfl | rfl | rfl | rfl | rfl <;> decide
  | long => rw [eq_of_kind_long ht.eq, eq_of_kind_long hu.eq]; decide
  | float => rw [eq_of_kind_float ht.eq, eq_of_kind_float hu.eq]; decide
  | double => rw [eq_of_kind_double ht.eq, eq_of_kind_double hu.eq]; decide

theorem HasKind.bitResult {integer : IntegerKind} (ht : t.HasKind integer.valueKind)
    (hu : u.HasKind integer.valueKind)
    : (t.binaryResult u).HasKind integer.valueKind := by
  cases integer with
  | int => exact @HasKind.binaryResult _ _ .int ht hu
  | long => exact @HasKind.binaryResult _ _ .long ht hu

/-- Shifts by an `int`. -/
theorem HasKind.shiftResult {integer : IntegerKind} (ht : t.HasKind integer.valueKind)
    (hu : u.HasKind .int)
    : (t.binaryResult u).HasKind integer.valueKind := by
  cases integer with
  | int => exact @HasKind.binaryResult _ _ .int ht hu
  | long =>
      rw [eq_of_kind_long ht.eq]
      rcases cases_of_kind_int hu.eq with rfl | rfl | rfl | rfl | rfl <;> decide

theorem HasKind.wider_int {number : NumberKind} (ht : t.HasKind number.valueKind)
    : (t.wider int).HasKind number.valueKind := by
  cases number with
  | int =>
      rcases cases_of_kind_int ht.eq with rfl | rfl | rfl | rfl | rfl <;> decide
  | long => rw [eq_of_kind_long ht.eq]; decide
  | float => rw [eq_of_kind_float ht.eq]; decide
  | double => rw [eq_of_kind_double ht.eq]; decide

end TypeName

namespace StackMachine

-- Shapes

/-- A memory of which only the kinds are known. -/
abbrev Shape := Memory Unit

/-- Operators on kinds alone. -/
def Meaning.ofKinds : Meaning Unit :=
  { constant := fun _ => ()
    binary := fun _ _ _ => ()
    negate := fun _ => ()
    convert := fun _ _ => ()
    holds := fun _ _ _ => false }

/-- A memory of the first shape can be used as one of the second. -/
structure Memory.Provides (S needed : Shape) : Prop where
  stack : S.stack = needed.stack
  locals : ∀ {slot d}, needed.local? slot = some d → S.local? slot = some d

instance (S needed : Shape) : Decidable (S.Provides needed) :=
  decidable_of_iff (S.stack = needed.stack ∧ ∀ slot < needed.locals.length,
      ∀ d ∈ needed.local? slot, S.local? slot = some d) <| by
    constructor
    · intro ⟨stack, locals⟩
      refine ⟨stack, fun {slot d} h => locals slot ?_ d h⟩
      by_contra hlen
      simp [Memory.local?, List.getElem?_eq_none (Nat.le_of_not_lt hlen)] at h
    · intro ⟨stack, locals⟩
      exact ⟨stack, fun slot _ d h => locals h⟩

/-- The shape in which a method starts. -/
def entryShape (m : Method) : Shape :=
  Inputs.memory ⟨(), fun _ => ()⟩ m

/-- The shape after a node; the entry changes nothing. -/
def shapeAfter? (m : Method) (S : Shape) : (node : Nat) → Option Shape
  | 0 => some S
  | n + 1 => (m.node? (n + 1)).bind fun node => (execute .ofKinds S node).map Prod.fst

-- Typings

/-- The shape before each node that can be reached, the entry first. -/
abbrev Typing := List (Option Shape)

namespace Typing

def shape? (T : Typing) (node : Nat) : Option Shape :=
  (T[node]?).join

/-- The shapes fit the method. -/
structure Verifies (T : Typing) (m : Method) : Prop where
  entry : T.shape? NodeGraph.entry = some (entryShape m)
  step : ∀ {u S}, T.shape? u = some S → ∃ S', shapeAfter? m S u = some S'
    ∧ ∀ v, m.Flow u v → ∃ needed, T.shape? v = some needed ∧ S'.Provides needed

theorem verifies_iff {T : Typing} {m : Method}
    : T.Verifies m ↔ T.shape? NodeGraph.entry = some (entryShape m)
      ∧ ∀ u < T.length, ∀ S ∈ T.shape? u, ∃ S' ∈ shapeAfter? m S u,
        ∀ v < m.nodes.length + 1, m.Flow u v → ∃ needed ∈ T.shape? v, S'.Provides needed := by
  constructor
  · intro ⟨entry, step⟩
    refine ⟨entry, fun u _ S hS => ?_⟩
    obtain ⟨S', hS', hflow⟩ := step hS
    exact ⟨S', hS', fun v _ flow => hflow v flow⟩
  · intro ⟨entry, step⟩
    refine ⟨entry, fun {u S} hS => ?_⟩
    have hu : u < T.length := by
      by_contra hlen
      simp [shape?, List.getElem?_eq_none (Nat.le_of_not_lt hlen)] at hS
    obtain ⟨S', hS', hflow⟩ := step u hu S hS
    refine ⟨S', hS', fun v flow => hflow v ?_ flow⟩
    obtain ⟨_, hv⟩ := flow.exists_node
    exact Nat.lt_succ_of_le (Method.le_length_of_node? hv)

instance (T : Typing) (m : Method) : Decidable (T.Verifies m) :=
  decidable_of_iff _ verifies_iff.symm

end Typing

end StackMachine

end StackLift
