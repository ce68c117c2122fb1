/-! When a step that may fail, or a lookup, succeeds, and lists without repeats. -/

namespace StackLift

variable {ε α β : Type}

theorem except_bind_eq_ok {x : Except ε α} {f : α → Except ε β} {b : β}
    : (x >>= f) = .ok b ↔ ∃ a, x = .ok a ∧ f a = .ok b := by
  cases x with
  | error e => exact ⟨fun h => (nomatch h), fun ⟨_, h, _⟩ => (nomatch h)⟩
  | ok a => exact ⟨fun h => ⟨a, rfl, h⟩, fun ⟨_, ha, h⟩ => (Except.ok.inj ha) ▸ h⟩

theorem except_map_eq_ok {x : Except ε α} {f : α → β} {b : β}
    : x.map f = .ok b ↔ ∃ a, x = .ok a ∧ f a = b := by
  cases x with
  | error e => exact ⟨fun h => (nomatch h), fun ⟨_, h, _⟩ => (nomatch h)⟩
  | ok a =>
      refine ⟨fun h => ⟨a, rfl, Except.ok.inj h⟩, ?_⟩
      rintro ⟨_, ha, rfl⟩
      cases ha
      rfl

-- Whether a step succeeds, and what with, is found by taking it.

instance decidableExistsOk {x : Except ε α} : Decidable (∃ a, x = .ok a) :=
  decidable_of_iff (x.toOption.isSome = true) (by cases x <;> simp [Except.toOption])

instance decidableExistsOkAnd {x : Except ε α} {P : α → Prop} [DecidablePred P]
    : Decidable (∃ a, x = .ok a ∧ P a) :=
  decidable_of_iff (∃ a ∈ x.toOption, P a) (by cases x <;> simp [Except.toOption])

/-- Two outcomes whose results agree in what is kept of them. -/
theorem except_map_eq_map {γ : Type} {x : Except ε α} {y : Except ε β} {f : α → γ} {g : β → γ}
    : f <$> x = g <$> y
      ↔ (∃ e, x = .error e ∧ y = .error e) ∨ ∃ a b, x = .ok a ∧ y = .ok b ∧ f a = g b := by
  cases x <;> cases y <;> simp [Functor.map, Except.map, eq_comm]

theorem mem_of_lookup [BEq α] [LawfulBEq α] {l : List (α × β)} {a : α} {b : β}
    (h : l.lookup a = some b)
    : (a, b) ∈ l := by
  obtain ⟨before, after, rfl, -⟩ := List.lookup_eq_some_iff.mp h
  simp

theorem nodup_eraseDups [BEq α] [LawfulBEq α] (l : List α)
    : l.eraseDups.Nodup := by
  match l with
  | [] => exact List.nodup_nil
  | a :: rest =>
      rw [List.eraseDups_cons, List.nodup_cons, List.mem_eraseDups]
      exact ⟨by simp, nodup_eraseDups _⟩
termination_by l.length
decreasing_by exact Nat.lt_succ_of_le (List.length_filter_le _ rest)

end StackLift
