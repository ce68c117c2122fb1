import StackLift.Proofs.RegisterTyping
import StackLift.Proofs.TypeJoins

/-!
Merging the frames before a join does not depend on the order in which they are listed, nor on how
often. Two such merges take the same types and registers; their values may differ in display names,
and the error for types without a join lists them in the given order.
-/

namespace StackLift

open Value

-- Steps of lifting with the same outcome

/-- Errors that differ at most in the order and number of the types that they list. -/
inductive Error.Alike : Error → Error → Prop
  | refl (e : Error) : Alike e e
  | stackTypes {node : Nat} {types types' : List TypeName} :
    (∀ t, t ∈ types ↔ t ∈ types') →
    Alike (.incompatibleStackTypes node types) (.incompatibleStackTypes node types')

namespace LiftM

variable {α β γ : Type} {R : α → β → Prop}

/-- Outcomes with errors that are alike, or with related results and the same state. -/
inductive SameOutcome (R : α → β → Prop)
    : Except Error (α × LiftState) → Except Error (β × LiftState) → Prop
  | ok {a : α} {b : β} {s : LiftState} : R a b → SameOutcome R (.ok (a, s)) (.ok (b, s))
  | error {e e' : Error} : e.Alike e' → SameOutcome R (.error e) (.error e')

/-- The steps have the same outcome from every state. -/
def Alike (R : α → β → Prop) (x : LiftM α) (y : LiftM β) : Prop :=
  ∀ s, SameOutcome R (x.run s) (y.run s)

namespace Alike

theorem pure {a : α} {b : β} (h : R a b)
    : Alike R (Pure.pure a) (Pure.pure b) :=
  fun _ => .ok h

theorem throw {e e' : Error} (h : e.Alike e')
    : Alike R (throw e) (throw e') :=
  fun _ => .error h

theorem bind {δ : Type} {Q : γ → δ → Prop} {x : LiftM α} {y : LiftM β} {f : α → LiftM γ}
    {g : β → LiftM δ} (hx : Alike R x y) (hf : ∀ a b, R a b → Alike Q (f a) (g b))
    : Alike Q (x >>= f) (y >>= g) := by
  intro s
  rw [StateT.run_bind, StateT.run_bind]
  have hxs := hx s
  generalize x.run s = r, y.run s = r' at hxs
  cases hxs with
  | ok hab => exact hf _ _ hab _
  | error he => exact .error he

theorem get_bind {f : LiftState → LiftM α} {g : LiftState → LiftM β}
    (h : ∀ s, Alike R (f s) (g s))
    : Alike R (get >>= f) (get >>= g) :=
  fun s => h s s

theorem map {δ : Type} {Q : γ → δ → Prop} {x : LiftM α} {y : LiftM β} {f : α → γ} {g : β → δ}
    (hx : Alike R x y) (hf : ∀ a b, R a b → Q (f a) (g b))
    : Alike Q (f <$> x) (g <$> y) := by
  rw [← bind_pure_comp, ← bind_pure_comp]
  exact hx.bind fun a b hab => pure (hf a b hab)

theorem mapM {l : List γ} {f : γ → LiftM α} {g : γ → LiftM β} (h : ∀ c, Alike R (f c) (g c))
    : Alike (List.Forall₂ R) (l.mapM f) (l.mapM g) := by
  induction l with
  | nil => exact pure .nil
  | cons c rest ih =>
      rw [List.mapM_cons, List.mapM_cons]
      refine (h c).bind fun a b hab => ?_
      exact ih.bind fun as bs hall => pure (.cons hab hall)

end Alike

end LiftM

-- Places

/-- Frames whose places hold the same values. -/
structure Frame.Same (f g : Frame) : Prop where
  locals : f.locals.map (Option.map anonymous) = g.locals.map (Option.map anonymous)
  stack : f.stack.map anonymous = g.stack.map anonymous

section Members

variable {α β : Type} {l l' : List α}

theorem mem_map_congr (h : ∀ a, a ∈ l ↔ a ∈ l') (f : α → β) (b : β)
    : b ∈ l.map f ↔ b ∈ l'.map f := by
  simp only [List.mem_map, h]

theorem mem_filterMap_congr (h : ∀ a, a ∈ l ↔ a ∈ l') (f : α → Option β) (b : β)
    : b ∈ l.filterMap f ↔ b ∈ l'.filterMap f := by
  simp only [List.mem_filterMap, h]

/-- A list keeps its length under a partial function that is defined on all members. -/
theorem length_filterMap_eq_iff {f : α → Option β}
    : (l.filterMap f).length = l.length ↔ ∀ a ∈ l, (f a).isSome = true := by
  rw [List.length_filterMap_eq_countP, List.countP_eq_length]

end Members

theorem LiftM.smallest_eq (l : List Nat)
    : smallest l = l.min?.getD 0 := by
  cases l with
  | nil => rfl
  | cons n rest => rw [List.min?_cons']; rfl

/-- The smallest number depends on the members only. -/
theorem LiftM.smallest_congr {l l' : List Nat} (h : ∀ n, n ∈ l ↔ n ∈ l')
    : smallest l = smallest l' := by
  have hmin : l.min? = l'.min? := Option.ext fun n => by simp only [List.min?_eq_some_iff, h]
  rw [smallest_eq, smallest_eq, hmin]

theorem map_anonymous_agreed?_eq_some {values : List Value} {a : Value}
    : (agreed? values).map anonymous = some a
      ↔ values ≠ [] ∧ ∀ v ∈ values, v.anonymous = a := by
  cases values with
  | nil => simp [agreed?]
  | cons v rest =>
      simp only [agreed?, List.all_eq_true, decide_eq_true_eq, ne_eq, reduceCtorEq,
        not_false_eq_true, true_and, List.forall_mem_cons]
      split
      next hall =>
        rw [Option.map_some, Option.some.injEq]
        exact ⟨fun h => ⟨h, fun w hw => (hall w hw).trans h⟩, And.left⟩
      next hnot =>
        constructor
        · intro h
          cases h
        · rintro ⟨hv, hrest⟩
          exact absurd (fun w hw => (hrest w hw).trans hv.symm) hnot

/-- Whether all values agree, and on which one, depends on the members only. -/
theorem agreed?_congr {values values' : List Value} (h : ∀ v, v ∈ values ↔ v ∈ values')
    : (agreed? values).map anonymous = (agreed? values').map anonymous := by
  refine Option.ext fun a => ?_
  have hnil : values = [] ↔ values' = [] := by
    simp only [List.eq_nil_iff_forall_not_mem, h]
  simp only [map_anonymous_agreed?_eq_some, h, ne_eq, hnil]

theorem mapM_eq_some_filterMap {α β : Type} {f : α → Option β} {l : List α}
    (h : ∀ a ∈ l, (f a).isSome = true)
    : l.mapM f = some (l.filterMap f) := by
  induction l with
  | nil => rfl
  | cons a rest ih =>
      obtain ⟨b, hb⟩ := Option.isSome_iff_exists.mp (h a List.mem_cons_self)
      rw [List.mapM_cons, hb, ih fun c hc => h c (List.mem_cons_of_mem a hc),
        List.filterMap_cons_some hb]
      rfl

variable {p : Plan} {node slot index : Nat} {frames frames' : List Frame} {allKnown : Bool}

/-- The type of a slot at a join depends on the set of frames only. -/
theorem Plan.mergedType?_congr (h : ∀ f, f ∈ frames ↔ f ∈ frames')
    : p.mergedType? frames node slot = p.mergedType? frames' node slot := by
  unfold mergedType?
  by_cases hall : ∀ f ∈ frames, (f.local? slot).isSome = true
  · have htypes := TypeName.lubAll_congr
      (mem_map_congr (mem_filterMap_congr h fun f => f.local? slot) type)
    have hall' : ∀ f ∈ frames', (f.local? slot).isSome = true :=
      fun f hf => hall f ((h f).mpr hf)
    rw [mapM_eq_some_filterMap hall, mapM_eq_some_filterMap hall']
    dsimp only
    rw [htypes]
  · have hnone : ∀ frames : List Frame, ¬ (∀ f ∈ frames, (f.local? slot).isSome = true) →
        (frames.mapM fun f => f.local? slot) = none :=
      fun frames hnot => Option.eq_none_iff_forall_ne_some.mpr
        fun values hvalues => hnot (LiftM.isSome_of_mapM hvalues)
    have hall' : ¬ ∀ f ∈ frames', (f.local? slot).isSome = true :=
      fun hall' => hall fun f hf => hall' f ((h f).mp hf)
    rw [hnone frames hall, hnone frames' hall']

namespace LiftM

theorem alike_mergePlace {place : Place} {type : TypeName} {agreed agreed' : Option Value}
    (h : agreed.map anonymous = agreed'.map anonymous)
    : Alike Same (mergePlace node place type agreed) (mergePlace node place type agreed') := by
  cases agreed with
  | some v =>
      cases agreed' with
      | some w => exact .pure (Option.some.inj h)
      | none => cases h
  | none =>
      cases agreed' with
      | some w => cases h
      | none => exact fun s => .ok rfl

/-- The value on which frames agree if all are known. -/
theorem map_anonymous_ite (allKnown : Bool) {values values' : List Value}
    (h : ∀ v, v ∈ values ↔ v ∈ values')
    : (if allKnown then agreed? values else none).map anonymous
      = (if allKnown then agreed? values' else none).map anonymous := by
  split
  · exact agreed?_congr h
  · rfl

theorem alike_mergeStackEntry (h : ∀ f, f ∈ frames ↔ f ∈ frames')
    : Alike Same (mergeStackEntry node frames allKnown index)
        (mergeStackEntry node frames' allKnown index) := by
  have hvalues := mem_filterMap_congr h fun f => Place.value? f (.stack index)
  have htypes := mem_map_congr hvalues type
  unfold mergeStackEntry
  dsimp only
  rw [TypeName.lubAll_congr htypes]
  split
  · exact .throw (.stackTypes htypes)
  · exact alike_mergePlace (map_anonymous_ite allKnown hvalues)

theorem alike_mergeSlot (h : ∀ f, f ∈ frames ↔ f ∈ frames')
    : Alike (fun v w => v.map anonymous = w.map anonymous)
        (mergeSlot p node frames allKnown slot) (mergeSlot p node frames' allKnown slot) := by
  have hagreed := map_anonymous_ite allKnown
    (mem_filterMap_congr h fun f => f.local? slot)
  unfold mergeSlot
  dsimp only
  rw [Plan.mergedType?_congr h]
  generalize (if allKnown = true then agreed? (frames.filterMap fun f => f.local? slot) else none)
    = agreed at hagreed ⊢
  generalize (if allKnown = true then agreed? (frames'.filterMap fun f => f.local? slot) else none)
    = agreed' at hagreed ⊢
  have hnone : agreed.isNone = agreed'.isNone := by
    simpa using congrArg Option.isNone hagreed
  split
  · exact .pure rfl
  · split
    · exact .pure rfl
    · rw [hnone]
      split
      · exact .throw (.refl _)
      · exact (alike_mergePlace hagreed).map fun v w hvw => congrArg some hvw

end LiftM

-- Frames

theorem map_trimLocals {α β : Type} (f : α → β) (locals : List (Option α))
    : (trimLocals locals).map (Option.map f) = trimLocals (locals.map (Option.map f)) := by
  have hnone : Option.isNone ∘ Option.map f = Option.isNone := by
    funext a
    cases a <;> rfl
  rw [trimLocals, trimLocals, List.map_reverse, ← List.map_reverse (l := locals),
    List.dropWhile_map, hnone]

theorem map_eq_of_forall₂ {α β : Type} {f : α → β} {as bs : List α}
    (h : List.Forall₂ (fun a b => f a = f b) as bs)
    : as.map f = bs.map f := by
  rw [← List.forall₂_eq_eq_eq, List.forall₂_map_left_iff, List.forall₂_map_right_iff]
  exact h

namespace LiftM

/-- Merged frames depend on the set of the predecessors only. -/
theorem alike_mergeFrames {predecessors predecessors' : List Nat} {isHandler : Bool}
    (h : ∀ u, u ∈ predecessors ↔ u ∈ predecessors')
    : Alike Frame.Same (mergeFrames p node predecessors isHandler)
        (mergeFrames p node predecessors' isHandler) := by
  refine .get_bind fun s => ?_
  have hframes := mem_filterMap_congr h s.frameOf?
  have hempty : (predecessors.filterMap s.frameOf?).isEmpty
      = (predecessors'.filterMap s.frameOf?).isEmpty := by
    rw [Bool.eq_iff_iff, List.isEmpty_iff, List.isEmpty_iff]
    simp only [List.eq_nil_iff_forall_not_mem, hframes]
  have hknown : ((predecessors.filterMap s.frameOf?).length = predecessors.length)
      ↔ (predecessors'.filterMap s.frameOf?).length = predecessors'.length := by
    simp only [length_filterMap_eq_iff, h]
  have hheight := smallest_congr (mem_map_congr hframes fun f => f.stack.length)
  have hslots := smallest_congr (mem_map_congr hframes fun f => f.locals.length)
  dsimp only
  rw [hempty, hheight, hslots]
  simp only [hknown]
  split
  · exact fun _ => .error (.refl _)
  · refine (Alike.mapM fun _ => alike_mergeStackEntry hframes).bind fun stack stack' hstack => ?_
    refine (Alike.mapM fun _ => alike_mergeSlot hframes).bind fun locals locals' hlocals => ?_
    refine .pure ⟨?_, ?_⟩
    · rw [map_trimLocals, map_trimLocals]
      exact congrArg trimLocals (map_eq_of_forall₂ hlocals)
    · rw [List.map_reverse, List.map_reverse]
      exact congrArg List.reverse (map_eq_of_forall₂ hstack)

end LiftM

/-- The join of types is commutative, associative and idempotent, `TOP` absorbs, and the join is the
least type above both in the order that it defines. Types with a join have the same width. So the
types, and up to display names the values, of merged frames depend on the set of frames only.
-/
theorem join_of_types_is_semilattice
    : (∀ a b : TypeName, a.lub b = b.lub a)
      ∧ (∀ a b c : TypeName, (a.lub b).lub c = a.lub (b.lub c))
      ∧ (∀ a : TypeName, a.lub a = a)
      ∧ (∀ a : TypeName, a.lub .top = .top ∧ TypeName.top.lub a = .top)
      ∧ (∀ a b : TypeName, a.lub (a.lub b) = a.lub b ∧ b.lub (a.lub b) = a.lub b
          ∧ ∀ c, a.lub c = c → b.lub c = c → (a.lub b).lub c = c)
      ∧ (∀ a b : TypeName, a.lub b ≠ .top → a.isWide = b.isWide)
      ∧ (∀ types types', (∀ t, t ∈ types ↔ t ∈ types') →
          TypeName.lubAll types = TypeName.lubAll types')
      ∧ (∀ (p : Plan) frames frames' node slot, (∀ f, f ∈ frames ↔ f ∈ frames') →
          p.mergedType? frames node slot = p.mergedType? frames' node slot)
      ∧ (∀ p node isHandler predecessors predecessors',
          (∀ u, u ∈ predecessors ↔ u ∈ predecessors') →
          LiftM.Alike Frame.Same (LiftM.mergeFrames p node predecessors isHandler)
            (LiftM.mergeFrames p node predecessors' isHandler)) := by
  have hle : ∀ {a b : TypeName}, a.lub b = b ↔ a ≤ b := sup_eq_right
  refine ⟨sup_comm, sup_assoc, sup_idem, TypeName.lub_top, fun a b => ?_,
    fun a b => TypeName.isWide_eq_of_lub_ne_top, fun types types' => TypeName.lubAll_congr,
    fun p frames frames' node slot => Plan.mergedType?_congr,
    fun p node isHandler predecessors predecessors' => LiftM.alike_mergeFrames⟩
  simp only [hle]
  exact ⟨le_sup_left, le_sup_right, fun c => sup_le⟩

/-- The plan of a method without tables. -/
def plainPlan : Plan :=
  { method := staticMethod ⟨[], none⟩ []
    settings := rawSettings
    graph := straightGraph
    places := []
    variableTable := []
    declared := [] }

/-- A frame with one slot and one stack entry, which hold the same register. -/
def holding (r : Register) : Frame :=
  { locals := [some (.register r)], stack := [.register r] }

/-- Two simulated nodes, one of which leaves a `byte` and the other one a `char`. -/
def byteOrChar : LiftState :=
  { frames := #[none, some (holding (.fresh 0 .byte)), some (holding (.fresh 1 .char))]
    code := #[]
    labels := []
    nextLabel := 0
    registers := { Registers.empty with next := 2 }
    refinements := []
    merges := [] }

/-- A `byte` and a `char` join to `int`, in whatever order and however often they come. -/
theorem merge_of_byte_and_char
    : TypeName.byte.lub .char = .int ∧ TypeName.byte.isWide = TypeName.char.isWide
      ∧ TypeName.byte.lub .int = .int ∧ TypeName.char.lub .int = .int
      ∧ (TypeName.byte.lub .char).lub .int = .int
      ∧ TypeName.lubAll [.byte, .char] = TypeName.lubAll [.char, .byte, .char]
      ∧ plainPlan.mergedType? [holding (.fresh 0 .byte), holding (.fresh 1 .char)] 3 0
        = plainPlan.mergedType? [holding (.fresh 1 .char), holding (.fresh 0 .byte)] 3 0
      ∧ ((LiftM.mergeFrames plainPlan 3 [1, 2] false).run byteOrChar).toOption.map
          (fun r => r.1.stack.map type) = some [.int]
      ∧ LiftM.SameOutcome Frame.Same ((LiftM.mergeFrames plainPlan 3 [1, 2] false).run byteOrChar)
          ((LiftM.mergeFrames plainPlan 3 [2, 1, 2] false).run byteOrChar) := by
  obtain ⟨-, -, -, -, least, widths, types, slots, frames⟩ := join_of_types_is_semilattice
  have hbyte : TypeName.byte.lub .int = .int := by decide
  have hchar : TypeName.char.lub .int = .int := by decide
  refine ⟨by decide, widths _ _ (by decide), hbyte, hchar, (least _ _).2.2 _ hbyte hchar,
    types _ _ fun t => ?_, slots _ _ _ _ _ fun f => ?_, by decide +kernel,
    frames _ _ _ _ _ (fun u => ?_) byteOrChar⟩
  · simp only [List.mem_cons, List.not_mem_nil, or_false, or_left_comm, or_self]
  · simp only [List.mem_cons, List.not_mem_nil, or_false]
    exact or_comm
  · simp only [List.mem_cons, List.not_mem_nil, or_false]
    omega

end StackLift
