import StackLift.Proofs.Simplification
import StackLift.Proofs.SimplificationEnds

/-!
Code that assigns its registers before it reads them, on every path, has grounded registers: a path
follows the copies of a register back to where its value was computed. So simplification of such
code comes to an end.
-/

namespace StackLift

/-- A path through the code comes to each of its instructions. -/
def AllReached (code : List Inst) : Prop :=
  ∀ i ∈ code, ∃ rest A, Arrives code (i :: rest) A

/-- All registers that a path has assigned are grounded, by induction on the path: what an
assignment copies was assigned earlier on the path.
-/
theorem Arrives.grounded {code rest : List Inst} {A : Set RegisterKey}
    (assigned : AssignedBeforeRead code) (h : Arrives code rest A)
    : ∀ x ∈ A, Grounded code x := by
  induction h with
  | start => exact fun _ hx => absurd hx (Set.notMem_empty _)
  | @proceed i rest A ha _ ih =>
      rintro x (hx | hx)
      · exact ih x hx
      · obtain ⟨r, e, rfl, rfl⟩ := Inst.eq_assign_of_assigned? hx
        have hm := ha.suffix.subset List.mem_cons_self
        cases he : e.register? with
        | none => exact .computed hm he
        | some q =>
            obtain rfl := Expr.eq_of_register? he
            exact .copied hm (ih q.key (assigned ha q.key (mem_readKeys_copy r q)))
  | jump _ _ ih => exact ih

variable {code : List Inst}

theorem AllReached.wellGrounded (reached : AllReached code) (assigned : AssignedBeforeRead code)
    : WellGrounded code := by
  intro r e hm
  obtain ⟨rest, A, ha⟩ := reached _ hm
  exact (ha.proceed rfl).grounded assigned r.key (.inr rfl)

theorem simplify_eq_ok {result : Simplified}
    (h : ∀ limit ≥ (code.length + 1) ^ 2, simplifyWithin? limit code = some result)
    : simplify code = .ok result := by
  have hlimit : (code.length + 1) ^ 2 ≤ simplifyLimit code := by
    rw [simplifyLimit, sq]
    exact Nat.mul_le_mul (by omega) (by omega)
  simp only [simplify, h _ hlimit]

/-- Simplification of code comes to an end, with the same result for every limit from the square of
its length on, if paths come to all instructions and assign each register before they read it.
Exceptions are not followed, so no path comes to a handler.
-/
theorem simplification_of_definite_code_ends {code : List Inst} (reached : AllReached code)
    (assigned : AssignedBeforeRead code)
    : ∃ result, simplify code = .ok result
        ∧ ∀ limit ≥ (code.length + 1) ^ 2, simplifyWithin? limit code = some result := by
  obtain ⟨result, ends⟩ :=
    simplifyWithin?_ends (reached.wellGrounded assigned).simplifiesWithoutCircles
  exact ⟨result, simplify_eq_ok ends, ends⟩

-- A value that is copied back

/-- If only the last instruction leaves the code, the path along it comes to all instructions. -/
theorem allReached_of_straight (h : ∀ i ∈ code.dropLast, i.proceeds)
    : AllReached code := by
  have hpath : ∀ before i rest, code = before ++ i :: rest → ∃ A, Arrives code (i :: rest) A := by
    intro before
    induction before using List.reverseRecOn with
    | nil => exact fun i rest hcode => ⟨∅, hcode ▸ .start⟩
    | append_singleton before j ih =>
        intro i rest hcode
        rw [List.append_assoc, List.singleton_append] at hcode
        obtain ⟨A, ha⟩ := ih j (i :: rest) hcode
        exact ⟨_, ha.proceed (h j (by simp [hcode]))⟩
  intro i hi
  obtain ⟨before, rest, hcode⟩ := List.append_of_mem hi
  exact ⟨rest, hpath before i rest hcode⟩

/-- A result that is copied through two registers back into its own one. -/
def rotatedResult : List Inst :=
  let copy (m n : Nat) : Inst :=
    .assign (.register (.fresh m .int)) (.value (.register (.fresh n .int)))
  [callInto 0, copy 1 0, copy 2 1, copy 0 2, useOf 0, .returns none]

theorem simplification_of_rotated_result_ends
    : AllReached rotatedResult ∧ AssignedBeforeRead rotatedResult
      ∧ ∃ result, simplify rotatedResult = .ok result
          ∧ ∀ limit ≥ 49, simplifyWithin? limit rotatedResult = some result := by
  have reached : AllReached rotatedResult := allReached_of_straight (by decide)
  have assigned : AssignedBeforeRead rotatedResult := (WellFormed.of_straight (by decide)
    (by decide) (by decide) (by decide) (by decide)).assigned
  exact ⟨reached, assigned, simplification_of_definite_code_ends reached assigned⟩

end StackLift
