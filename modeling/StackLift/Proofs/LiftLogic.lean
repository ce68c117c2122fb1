import Mathlib.Data.Set.BooleanAlgebra
import Mathlib.Order.CompletePartialOrder
import StackLift.Lift.State
import StackLift.Proofs.Outcomes

/-!
What steps of lifting keep. The states are described relative to a world, which holds what is known
about them and grows with every step.
-/

namespace StackLift

namespace LiftM

variable {W α β : Type} [Preorder W] {Valid : W → LiftState → Prop} {w : W}

/-- A step that succeeds from a state of a world leads to a state of a later one, in which its
result has the given property.
-/
def Ensures (Valid : W → LiftState → Prop) (w : W) (x : LiftM α) (Q : W → α → Prop) : Prop :=
  ∀ s a s', Valid w s → x.run s = .ok (a, s') → ∃ w', w ≤ w' ∧ Valid w' s' ∧ Q w' a

/-- The property holds in all later worlds. -/
def Lasting (Q : W → Prop) : Prop :=
  ∀ {w w' : W}, w ≤ w' → Q w → Q w'

theorem run_bind_eq_ok {x : LiftM α} {f : α → LiftM β} {s s' : LiftState} {b : β}
    : (x >>= f).run s = .ok (b, s')
      ↔ ∃ a s₁, x.run s = .ok (a, s₁) ∧ (f a).run s₁ = .ok (b, s') := by
  rw [StateT.run_bind, except_bind_eq_ok]
  exact ⟨fun ⟨⟨a, s₁⟩, hx, hf⟩ => ⟨a, s₁, hx, hf⟩, fun ⟨a, s₁, hx, hf⟩ => ⟨(a, s₁), hx, hf⟩⟩

namespace Ensures

variable {x : LiftM α} {f : α → LiftM β} {Q Q' : W → α → Prop} {R : W → β → Prop}

theorem weaken (h : Ensures Valid w x Q) (hQ : ∀ w' a, w ≤ w' → Q w' a → Q' w' a)
    : Ensures Valid w x Q' := by
  intro s a s' hs hx
  obtain ⟨w', hw, hv, hq⟩ := h s a s' hs hx
  exact ⟨w', hw, hv, hQ w' a hw hq⟩

theorem pure {a : α} (h : Q w a)
    : Ensures Valid w (Pure.pure a) Q := by
  intro s a' s' hs hx
  cases hx
  exact ⟨w, le_refl w, hs, h⟩

theorem bind (hx : Ensures Valid w x Q)
    (hf : ∀ w' a, w ≤ w' → Q w' a → Ensures Valid w' (f a) R)
    : Ensures Valid w (x >>= f) R := by
  intro s b s' hs hb
  obtain ⟨a, s₁, ha, hb⟩ := run_bind_eq_ok.mp hb
  obtain ⟨w₁, hw₁, hv₁, hq⟩ := hx s a s₁ hs ha
  obtain ⟨w₂, hw₂, hv₂, hr⟩ := hf w₁ a hw₁ hq s₁ b s' hv₁ hb
  exact ⟨w₂, le_trans hw₁ hw₂, hv₂, hr⟩

theorem throw {e : Error}
    : Ensures Valid w (throw e : LiftM α) Q :=
  fun _ _ _ _ h => nomatch h

/-- A step that only looks at the state. -/
theorem get_bind {f : LiftState → LiftM β}
    (hf : ∀ s, Valid w s → Ensures Valid w (f s) R)
    : Ensures Valid w (get >>= f) R :=
  fun s b s' hs hb => hf s hs s b s' hs hb

/-- An operation on frames, which may fail. -/
theorem lift_bind {x : Except Error α} (hf : ∀ a, x = .ok a → Ensures Valid w (f a) R)
    : Ensures Valid w (liftM x >>= f) R := by
  intro s b s' hs hb
  obtain ⟨a, s₁, ha, hb⟩ := run_bind_eq_ok.mp hb
  cases x with
  | error e => cases ha
  | ok a =>
      cases ha
      exact hf a rfl s b s' hs hb

theorem map {g : α → β} (hx : Ensures Valid w x fun w' a => R w' (g a))
    : Ensures Valid w (g <$> x) R := by
  rw [← bind_pure_comp]
  exact hx.bind fun w' a _ hr => pure hr

/-- Two continuations are the same after a step whose results they do not tell apart. -/
theorem bind_congr {g : α → LiftM β}
    (hx : Ensures (fun (_ : Unit) (_ : LiftState) => True) () x fun _ a => f a = g a)
    : x >>= f = x >>= g := by
  refine StateT.ext fun s => ?_
  rw [StateT.run_bind, StateT.run_bind]
  cases h : x.run s with
  | error e => rfl
  | ok r =>
      obtain ⟨_, _, _, same⟩ := hx s r.1 r.2 trivial h
      exact congrArg (fun step => step.run r.2) same

-- Lists

/-- What each step leaves behind lasts to the end. -/
theorem forM {l : List β} {f : β → LiftM PUnit} (lasting : ∀ b, Lasting fun w => R w b)
    (h : ∀ b ∈ l, ∀ w', w ≤ w' → Ensures Valid w' (f b) fun w'' _ => R w'' b)
    : Ensures Valid w (l.forM f) fun w' _ => ∀ b ∈ l, R w' b := by
  induction l generalizing w with
  | nil => exact pure (by simp)
  | cons b rest ih =>
      refine (h b (by simp) w (le_refl w)).bind fun w₁ _ hw₁ hb => ?_
      refine (ih fun c hc w₂ hw₂ => h c (by simp [hc]) w₂ (le_trans hw₁ hw₂)).weaken ?_
      exact fun w₂ _ hw₂ hrest => List.forall_mem_cons.mpr ⟨lasting b hw₂ hb, hrest⟩

/-- All results have a property that each of them has when it is made. -/
theorem mapM {l : List α} {f : α → LiftM β} (lasting : ∀ b, Lasting fun w => R w b)
    (h : ∀ a ∈ l, ∀ w', w ≤ w' → Ensures Valid w' (f a) R)
    : Ensures Valid w (l.mapM f) fun w' bs => ∀ b ∈ bs, R w' b := by
  induction l generalizing w with
  | nil => exact pure (by simp)
  | cons a rest ih =>
      rw [List.mapM_cons]
      refine (h a (by simp) w (le_refl w)).bind fun w₁ b hw₁ hb => ?_
      refine (ih fun c hc w₂ hw₂ => h c (by simp [hc]) w₂ (le_trans hw₁ hw₂)).bind ?_
      intro w₂ bs hw₂ hbs
      exact pure (List.forall_mem_cons.mpr ⟨lasting b hw₂ hb, hbs⟩)

/-- A relation between the elements that were taken and the result so far. -/
theorem foldlM {l done : List β} {f : α → β → LiftM α} {I : W → List β → α → Prop} {a : α}
    (h : ∀ done b w' a, w ≤ w' → I w' done a →
      Ensures Valid w' (f a b) fun w'' a' => I w'' (done ++ [b]) a')
    (ha : I w done a)
    : Ensures Valid w (l.foldlM f a) fun w' a' => I w' (done ++ l) a' := by
  induction l generalizing w done a with
  | nil => exact pure (by simpa using ha)
  | cons b rest ih =>
      rw [List.foldlM_cons]
      refine (h done b w a (le_refl w) ha).bind fun w₁ a₁ hw₁ ha₁ => ?_
      refine (ih (fun done b w₂ a hw₂ => h done b w₂ a (le_trans hw₁ hw₂)) ha₁).weaken ?_
      intro w₂ a₂ _ ha₂
      simpa using ha₂

end Ensures

theorem forM_congr {l : List α} {f g : α → LiftM PUnit} (h : ∀ a ∈ l, f a = g a)
    : l.forM f = l.forM g := by
  induction l with
  | nil => rfl
  | cons a rest ih =>
      have hrest := ih fun b hb => h b (List.mem_cons_of_mem a hb)
      change (f a >>= fun _ => rest.forM f) = (g a >>= fun _ => rest.forM g)
      rw [h a List.mem_cons_self, hrest]

/-- The same for steps that cannot fail. -/
theorem run_mapM_ensures {σ : Type} {I : W → σ → Prop} {R : W → β → Prop} {l : List α}
    {f : α → StateM σ β} (lasting : ∀ b, Lasting fun w => R w b)
    (h : ∀ a ∈ l, ∀ w', w ≤ w' → ∀ s, I w' s →
      ∃ w'', w' ≤ w'' ∧ I w'' ((f a).run s).2 ∧ R w'' ((f a).run s).1)
    {s : σ} (hs : I w s)
    : ∃ w', w ≤ w' ∧ I w' ((l.mapM f).run s).2 ∧ ∀ b ∈ ((l.mapM f).run s).1, R w' b := by
  induction l generalizing w s with
  | nil => exact ⟨w, le_refl w, hs, fun b (hb : b ∈ []) => nomatch hb⟩
  | cons a rest ih =>
      rw [List.mapM_cons]
      obtain ⟨w₁, hw₁, hs₁, hb⟩ := h a (by simp) w (le_refl w) s hs
      obtain ⟨w₂, hw₂, hs₂, hbs⟩ :=
        ih (fun c hc w' hw' => h c (by simp [hc]) w' (le_trans hw₁ hw')) hs₁
      exact ⟨w₂, le_trans hw₁ hw₂, hs₂, List.forall_mem_cons.mpr ⟨lasting _ hw₂ hb, hbs⟩⟩

theorem ensures_labelOf {label : Label}
    : Ensures Valid w (labelOf label) fun _ _ => True := by
  refine Ensures.get_bind fun s _ => ?_
  split
  · exact .pure trivial
  · exact .throw

end LiftM

end StackLift
