import StackLift.Proofs.Paths

/-!
Reads in code through which control goes straight on: which registers have to be assigned before it,
and which are assigned after it.
-/

namespace StackLift

theorem Inst.assigned?_of_isMarker {i : Inst} (h : i.isMarker = true)
    : i.assigned? = none := by
  cases i <;> first | rfl | cases h

theorem Inst.readKeys_of_isMarker {i : Inst} (h : i.isMarker = true)
    : i.readKeys = [] := by
  cases i <;> first | rfl | cases h

theorem Inst.of_isBranching {i : Inst} (h : i.isBranching = true)
    : i.isMarker = false ∧ i.isTerminating = false ∧ i.assigned? = none := by
  cases i <;> first | exact ⟨rfl, rfl, rfl⟩ | cases h

/-- The registers that the code assigns. -/
def assignedIn (code : List Inst) : Set RegisterKey :=
  {x | ∃ i ∈ code, i.assigned? = some x}

/-- After the given registers are assigned, the code reads only these and what it has assigned
before.
-/
def ReadsAssigned : Set RegisterKey → List Inst → Prop
  | _, [] => True
  | A, i :: rest => (∀ x ∈ i.readKeys, x ∈ A) ∧ ReadsAssigned (A ∪ {x | i.assigned? = some x}) rest

variable {A B : Set RegisterKey} {code other : List Inst} {i : Inst} {x : RegisterKey}

theorem mem_assignedIn
    : x ∈ assignedIn code ↔ ∃ i ∈ code, i.assigned? = some x :=
  Iff.rfl

@[simp] theorem assignedIn_nil
    : assignedIn [] = ∅ := by
  ext x
  simp [mem_assignedIn]

@[simp] theorem assignedIn_cons
    : assignedIn (i :: code) = {x | i.assigned? = some x} ∪ assignedIn code := by
  ext x
  simp [mem_assignedIn, Set.mem_union]

@[simp] theorem assignedIn_append
    : assignedIn (code ++ other) = assignedIn code ∪ assignedIn other := by
  ext x
  simp [mem_assignedIn, Set.mem_union, or_and_right, exists_or]

theorem assignedIn_eq_empty (h : ∀ i ∈ code, i.assigned? = none)
    : assignedIn code = ∅ := by
  ext x
  constructor
  · intro ⟨i, hi, hx⟩
    rw [h i hi] at hx
    cases hx
  · intro hx
    cases hx

/-- Changing instructions, but not the register that each of them assigns. -/
theorem assignedIn_map {f : Inst → Inst} (hf : ∀ i, (f i).assigned? = i.assigned?)
    : assignedIn (code.map f) = assignedIn code := by
  ext x
  simp [mem_assignedIn, hf]

namespace ReadsAssigned

theorem map_iff {f : Inst → Inst} (hassigned : ∀ i, (f i).assigned? = i.assigned?)
    (hreads : ∀ i, (f i).readKeys = i.readKeys)
    : ReadsAssigned A (code.map f) ↔ ReadsAssigned A code := by
  induction code generalizing A with
  | nil => rfl
  | cons i rest ih => simp [ReadsAssigned, hassigned, hreads, ih]

theorem mono (h : ReadsAssigned A code) (hAB : A ⊆ B)
    : ReadsAssigned B code := by
  induction code generalizing A B with
  | nil => trivial
  | cons i rest ih =>
      refine ⟨fun x hx => hAB (h.1 x hx), ?_⟩
      exact ih h.2 (Set.union_subset_union_left _ hAB)

theorem append_iff
    : ReadsAssigned A (code ++ other)
      ↔ ReadsAssigned A code ∧ ReadsAssigned (A ∪ assignedIn code) other := by
  induction code generalizing A with
  | nil => simp [ReadsAssigned]
  | cons i rest ih => simp [ReadsAssigned, ih, and_assoc, Set.union_assoc]

theorem concat (h : ReadsAssigned A code) (hi : ∀ x ∈ i.readKeys, x ∈ A ∪ assignedIn code)
    : ReadsAssigned A (code ++ [i]) :=
  append_iff.mpr ⟨h, hi, trivial⟩

/-- An instruction whose reads are assigned before the code may be added anywhere. -/
theorem insert (h : ReadsAssigned A (code ++ other)) (hi : ∀ x ∈ i.readKeys, x ∈ A)
    : ReadsAssigned A (code ++ i :: other) := by
  obtain ⟨hcode, hother⟩ := append_iff.mp h
  refine append_iff.mpr ⟨hcode, fun x hx => .inl (hi x hx), ?_⟩
  exact hother.mono Set.subset_union_left

/-- An instruction at the front may save what another reads. -/
theorem save {copy save jump : Inst} (h : ReadsAssigned A (code ++ i :: other))
    (hi : i.assigned? = none) (hsave : ∀ x ∈ save.readKeys, x ∈ A)
    (hcopy : ∀ x ∈ copy.readKeys, x ∈ A)
    (hjump : ∀ x ∈ jump.readKeys, x ∈ i.readKeys ∨ save.assigned? = some x)
    : ReadsAssigned A (save :: (code ++ copy :: jump :: other)) := by
  obtain ⟨hcode, hreads, hother⟩ := append_iff.mp h
  refine ⟨hsave, append_iff.mpr ⟨hcode.mono Set.subset_union_left, ?_, ?_, ?_⟩⟩
  · exact fun x hx => .inl (.inl (hcopy x hx))
  · intro x hx
    rcases hjump x hx with hx | hx
    · exact .inl (Set.union_subset_union_left _ Set.subset_union_left (hreads x hx))
    · exact .inl (.inl (.inr hx))
  · refine hother.mono fun x hx => ?_
    simp only [hi, Set.mem_union, Set.mem_ofPred_eq, reduceCtorEq, or_false] at hx
    exact .inl (.inl (Set.union_subset_union_left _ Set.subset_union_left hx))

/-- The reads of an instruction with code before it. -/
theorem of_split (h : ReadsAssigned A (code ++ i :: other)) (hx : x ∈ i.readKeys)
    : x ∈ A ∪ assignedIn code :=
  (append_iff.mp h).2.1 x hx

end ReadsAssigned

end StackLift
