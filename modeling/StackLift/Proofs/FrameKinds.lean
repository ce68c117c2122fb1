import StackLift.Proofs.FrameMatching
import StackLift.Proofs.SoundPlan

/-!
The types of the frames of a verified method. Every frame has values of the kinds that the stack
machine can find at its node, if the types that the method declares tell the right kinds.
-/

namespace StackLift

open StackMachine RegisterMachine Value

variable {p : Plan} {f f' : Frame} {S S' needed : Shape} {v : Value} {k : Datum Unit}
  {node slot next next' n : Nat} {insts : List Inst} {s : LiftState}

-- Frames

/-- The values of a frame have the kinds of a shape, and those of its slots are typed. -/
structure Frame.Fits (f : Frame) (S : Shape) : Prop where
  stack : List.Forall₂ (fun v k => v.type.HasKind k.kind) f.stack S.stack
  locals : ∀ {slot k}, S.local? slot = some k → ∃ v, f.local? slot = some v ∧ v.type.HasKind k.kind
  typed : ∀ {slot v}, f.local? slot = some v → v.type ≠ .top

/-- The kind of a value by its type. -/
def Value.datumOfType (v : Value) : Datum Unit :=
  ⟨v.type.kind, ()⟩

theorem Value.denotes_datumOfType (h : v.type.HasKind k.kind)
    : v.Denotes datumOfType k :=
  ⟨h, by rw [datumOfType, h.eq]⟩

/-- Register code on kinds alone, as far as it computes. -/
def RegisterMachine.Interpretation.ofKinds : Interpretation (Datum Unit) :=
  let reference : Datum Unit := ⟨.reference, ()⟩
  { receiver := reference
    argument := fun _ => reference
    constant := fun c => ⟨c.type.kind, ()⟩
    binary := fun _ type _ _ => ⟨type.kind, ()⟩
    negate := fun type _ => ⟨type.kind, ()⟩
    length := id
    cast := fun type _ => ⟨type.kind, ()⟩
    instanceOf := fun d _ => d
    holds := fun _ _ _ _ => false
    equal := fun _ _ => false
    staticField := fun _ _ _ => reference
    field := fun _ d _ _ => d
    element := fun _ d _ => d
    result := fun _ => reference }

theorem RegisterMachine.Interpretation.follows_ofKinds
    : Interpretation.ofKinds.Follows .ofKinds where
  constant h := congrArg (Datum.mk · ()) h.hasKind.eq
  binary _ _ _ _ := rfl
  negate _ _ := rfl
  cast c _ _ := congrArg (Datum.mk · ()) c.hasKind_name.eq
  holds _ _ _ _ := rfl
  equal _ _ := rfl

namespace Frame.Fits

theorem matching (h : f.Fits S)
    : f.Matches (Denotes datumOfType) S S where
  stack := h.stack.imp fun _ _ => denotes_datumOfType
  locals hk := by
    obtain ⟨v, hv, hkind⟩ := h.locals hk
    exact ⟨v, _, hv, hk, rfl, denotes_datumOfType hkind⟩

theorem of_matches {ev : Value → Datum Unit} (h : f.Matches (Denotes ev) S S)
    (typed : ∀ {slot v}, f.local? slot = some v → v.type ≠ .top)
    : f.Fits S where
  stack := h.stack.imp fun _ _ hd => hd.kind
  locals hk := by
    obtain ⟨v, d, hv, -, hkind, hd⟩ := h.locals hk
    exact ⟨v, hv, hkind ▸ hd.kind⟩
  typed := typed

theorem provides (h : f.Fits S) (hS : S.Provides needed)
    : f.Fits needed where
  stack := hS.stack ▸ h.stack
  locals hk := h.locals (hS.locals hk)
  typed := h.typed

end Frame.Fits

variable {kind : ValueKind}

theorem TypeName.HasKind.ne_top {t : TypeName} (h : t.HasKind kind)
    : t ≠ .top :=
  (TypeName.isUsable_iff.mp h.usable).1

-- Operations

variable {operation : Operation} {frames : List Frame}

theorem StackMachine.Operation.exists_local_of_writes
    (h : operation.apply .ofKinds S = some S') (hslot : operation.writes? = some slot)
    : ∃ k, S'.local? slot = some k := by
  cases operation with
  | store kind index =>
      cases hslot
      obtain ⟨⟨d, S₁⟩, -, h⟩ := Option.bind_eq_some_iff.mp h
      cases h
      exact ⟨d, Memory.local?_store_self ..⟩
  | increment index amount =>
      cases hslot
      obtain ⟨d, -, rfl⟩ := Option.map_eq_some_iff.mp h
      exact ⟨_, Memory.local?_store_self ..⟩
  | _ => cases hslot

variable {index : Nat}

theorem Stores.local?_of_ne {w : Value} (h : Stores p node slot f w next next' insts f')
    (hne : index ≠ slot)
    : f'.local? index = f.local? index := by
  cases h with
  | keep | make => rw [Frame.local?_putLocal, if_neg hne]
  | reuse => rfl

theorem Performs.local?_of_ne (h : Performs p node f next next' operation insts f')
    (hne : operation.writes? ≠ some index)
    : f'.local? index = f.local? index := by
  cases h with
  | store hstack hstores => exact hstores.local?_of_ne fun same => hne (same ▸ rfl)
  | increment _ _ _ _ _ hstores => exact hstores.local?_of_ne fun same => hne (same ▸ rfl)
  | _ => rfl

theorem Performs.fits (h : Performs p node f next next' operation insts f') (hf : f.Fits S)
    (hbelow : ∀ {v}, f.Has v → v.Below next) (hS : operation.apply .ofKinds S = some S')
    (tells : ∀ {slot k}, operation.writes? = some slot → S'.local? slot = some k →
      p.TellsKind node slot k.kind)
    : f'.Fits S' := by
  obtain ⟨ev', hev⟩ := h.computing.evaluates .ofKinds datumOfType
  have hm := h.matches Interpretation.follows_ofKinds hf.matching hbelow (fun _ => rfl) hS hS tells
    hf.typed hev
  refine .of_matches hm fun {slot v} hv => ?_
  by_cases hslot : operation.writes? = some slot
  · obtain ⟨k, hk⟩ := Operation.exists_local_of_writes hS hslot
    obtain ⟨w, d, hw, -, -, hd⟩ := hm.locals hk
    rw [Option.some.inj (hv.symm.trans hw)]
    exact hd.kind.ne_top
  · exact hf.typed (h.local?_of_ne hslot ▸ hv)

theorem Leaves.fits {labels : List (Label × CodeLabel)} {after : Option Node} {b : Branch}
    {go : Next Unit} (h : Leaves labels after f b insts f') (hf : f.Fits S)
    (hS : executeBranch .ofKinds S b = some (S', go))
    : f'.Fits S' := by
  have hm := (h.matches Interpretation.follows_ofKinds hf.matching (fun _ => rfl) hS hS).1
  refine .of_matches hm fun {slot v} hv => ?_
  have hv : f.local? slot = some v := by cases h <;> exact hv
  exact hf.typed hv

-- Joins

/-- The least upper bound of types of a kind. -/
theorem TypeName.hasKind_lubAll {types : List TypeName} {t : TypeName}
    (h : ∀ u ∈ types, u.HasKind kind) (ht : TypeName.lubAll types = some t)
    : t.HasKind kind := by
  cases types with
  | nil => cases ht
  | cons first rest =>
      cases ht
      have hfirst := h first List.mem_cons_self
      have hrest := fun u hu => h u (List.mem_cons_of_mem first hu)
      clear h
      induction rest generalizing first with
      | nil => exact hfirst
      | cons u rest ih =>
          exact ih (first.lub u) (hfirst.lub (hrest u List.mem_cons_self))
            fun w hw => hrest w (List.mem_cons_of_mem u hw)

/-- All frames are known and agree on the value of a place. -/
theorem LiftM.agreement_eq_some {allKnown : Bool} {place : Place}
    (h : LiftM.agreement frames allKnown place = some v)
    : allKnown = true ∧ (∃ g ∈ frames, place.value? g = some v)
      ∧ ∀ g ∈ frames, ∀ w, place.value? g = some w → w.Same v := by
  unfold LiftM.agreement at h
  split at h
  next hknown =>
    refine ⟨hknown, List.mem_filterMap.mp (LiftM.agreed?_mem h), fun g hg w hw => ?_⟩
    exact LiftM.same_of_agreed? h w (List.mem_filterMap.mpr ⟨g, hg, hw⟩)
  next => cases h

theorem JoinedTo.hasKind {allKnown : Bool} {place : Place}
    (h : JoinedTo p node frames allKnown s place v)
    (hframes : ∀ g ∈ frames, ∀ w, place.value? g = some w → w.type.HasKind kind)
    (hvariable : ∀ {slot}, place = .slot slot → ∀ {w}, p.variableAt? slot node = some w →
      w.type.HasKind kind)
    : v.type.HasKind kind := by
  cases h with
  | agreed hagreed =>
      obtain ⟨-, ⟨g, hg, hv⟩, -⟩ := LiftM.agreement_eq_some hagreed
      exact hframes g hg v hv
  | @merged t hm htype hne =>
      show t.type.HasKind kind
      generalize t.type = type at htype
      cases htype with
      | lub hlub =>
          refine TypeName.hasKind_lubAll (fun u hu => ?_) hlub
          obtain ⟨w, hw, rfl⟩ := List.mem_map.mp hu
          obtain ⟨g, hg, hw⟩ := List.mem_filterMap.mp hw
          exact hframes g hg w hw
      | «variable» hv => exact hvariable rfl hv

/-- The entries of a stack by their places. -/
theorem Frame.forall₂_stack_iff {D : Type} {R : Value → Datum D → Prop} {entries : List (Datum D)}
    : List.Forall₂ R f.stack entries ↔ f.stack.length = entries.length
      ∧ ∀ {index v d}, Place.value? f (.stack index) = some v → entries.reverse[index]? = some d →
        R v d := by
  rw [← List.forall₂_reverse_iff, List.forall₂_iff_get]
  constructor
  · rintro ⟨hlength, hall⟩
    refine ⟨by simpa using hlength, fun {index v d} hv hd => ?_⟩
    obtain ⟨hi, rfl⟩ := List.getElem?_eq_some_iff.mp hv
    obtain ⟨hi', rfl⟩ := List.getElem?_eq_some_iff.mp hd
    exact hall index hi hi'
  · rintro ⟨hlength, hall⟩
    refine ⟨by simpa using hlength, fun index hi hi' => ?_⟩
    exact hall (List.getElem?_eq_getElem hi) (List.getElem?_eq_getElem hi')

theorem exists_mapM {α β : Type} {g : α → Option β} {l : List α} (h : ∀ a ∈ l, ∃ b, g a = some b)
    : ∃ bs, l.mapM g = some bs := by
  induction l with
  | nil => exact ⟨[], rfl⟩
  | cons a rest ih =>
      obtain ⟨b, hb⟩ := h a List.mem_cons_self
      obtain ⟨bs, hbs⟩ := ih fun c hc => h c (List.mem_cons_of_mem a hc)
      exact ⟨b :: bs, by rw [List.mapM_cons, hb, hbs]; rfl⟩

theorem isSome_mergedType? (hne : frames ≠ [])
    (hframes : ∀ g ∈ frames, ∃ w, g.local? slot = some w ∧ w.type.HasKind kind)
    (hvariable : ∀ {w}, p.variableAt? slot node = some w → w.type.HasKind kind)
    : (p.mergedType? frames node slot).isSome = true := by
  obtain ⟨values, hvalues⟩ : ∃ values, frames.mapM (fun g => g.local? slot) = some values :=
    exists_mapM fun g hg => (hframes g hg).imp fun _ h => h.1
  have hkinds : ∀ t ∈ values.map type, t.HasKind kind := by
    intro t ht
    obtain ⟨w, hw, rfl⟩ := List.mem_map.mp ht
    rw [← filterMap_of_mapM hvalues] at hw
    obtain ⟨g, hg, hw⟩ := List.mem_filterMap.mp hw
    obtain ⟨u, hu, hkind⟩ := hframes g hg
    rwa [Option.some.inj (hw.symm.trans hu)]
  obtain ⟨t, ht⟩ : ∃ t, TypeName.lubAll (values.map type) = some t := by
    obtain ⟨g, hg⟩ := List.exists_mem_of_ne_nil frames hne
    obtain ⟨w, hw, -⟩ := hframes g hg
    have hmem : w ∈ values := filterMap_of_mapM hvalues ▸ List.mem_filterMap.mpr ⟨g, hg, hw⟩
    cases values with
    | nil => cases hmem
    | cons first rest => exact ⟨_, rfl⟩
  have hkind := TypeName.hasKind_lubAll hkinds ht
  have hresult : ∃ u, ((p.variableAt? slot node).map Variable.type).or (some t) = some u
      ∧ u.HasKind kind := by
    cases hv : p.variableAt? slot node with
    | none => exact ⟨t, rfl, hkind⟩
    | some w => exact ⟨w.type, rfl, hvariable hv⟩
  obtain ⟨u, hu, hkind'⟩ := hresult
  unfold Plan.mergedType?
  simp only [hvalues, ht, Option.some.injEq, if_neg hkind.ne_top, hu]
  refine Option.isSome_iff_exists.mpr ⟨u, Option.filter_eq_some_iff.mpr ⟨rfl, ?_⟩⟩
  simp [hkind'.ne_top]

/-- The frame of a label fits, if the frames before it that are known do. -/
theorem JoinedFrame.fits {allKnown : Bool}
    (h : JoinedFrame p node frames allKnown s f) (hframes : ∀ g ∈ frames, g.Fits S)
    (hvariable : ∀ {slot k}, S.local? slot = some k → ∀ {w}, p.variableAt? slot node = some w →
      w.type.HasKind k.kind)
    : f.Fits S where
  stack := by
    have hheight : ∀ {g : Frame}, g ∈ frames → g.stack.length = S.stack.length :=
      fun hg => (hframes _ hg).stack.length_eq
    refine Frame.forall₂_stack_iff.mpr ⟨?_, fun {index v k} hv hk => ?_⟩
    · obtain ⟨g, hg, hlength⟩ := List.mem_map.mp
        (LiftM.smallest_mem (l := frames.map fun f => f.stack.length) fun hnil =>
          h.nonempty (by simpa using hnil))
      rw [h.height, ← hlength, hheight hg]
    · refine (h.place hv).hasKind (fun g hg w hw => ?_) fun hplace => by cases hplace
      exact (Frame.forall₂_stack_iff.mp (hframes g hg).stack).2 hw hk
  locals {slot k} hk := by
    have hslot := h.slot (isSome_mergedType? h.nonempty (fun g hg => (hframes g hg).locals hk)
      (hvariable hk))
    obtain ⟨v, hv⟩ := Option.isSome_iff_exists.mp hslot
    have hplace : Place.value? f (.slot slot) = some v := hv
    refine ⟨v, hv, (h.place hplace).hasKind (fun g hg w hw => ?_) fun hplace => ?_⟩
    · obtain ⟨u, hu, hkind⟩ := (hframes g hg).locals hk
      rwa [Option.some.inj (Eq.trans hw.symm hu)]
    · cases hplace
      exact hvariable hk
  typed {slot v} hv := by
    have hplace : Place.value? f (.slot slot) = some v := hv
    cases h.place hplace with
    | agreed hagreed =>
        obtain ⟨-, ⟨g, hg, hw⟩, -⟩ := LiftM.agreement_eq_some hagreed
        exact (hframes g hg).typed hw
    | merged _ _ hne => exact hne

-- The entry

section

variable {D : Type} {inputs : Inputs D} {ev : Value → Datum D} {μ : Memory D}

/-- The induction is on the parameters that are left. -/
theorem Plan.putParameters_matches (p : Plan) {types : List FieldType}
    (h : f.Matches (Denotes ev) S μ)
    (hargument : ∀ offset type, types[offset]? = some type → ∀ name,
      (argument (.make (index + offset) name (.ofField type))).Denotes ev
        ⟨type.valueKind, inputs.argument (index + offset)⟩) (slot : Nat)
    : (p.putParameters f slot index types).Matches (Denotes ev)
        (Inputs.place ⟨(), fun _ => ()⟩ S slot index types) (inputs.place μ slot index types) := by
  induction types generalizing f S μ slot index with
  | nil => exact h
  | cons type rest ih =>
      refine ih (h.store (hargument 0 type rfl _) rfl slot) (fun offset type htype name => ?_) _
      rw [Nat.add_right_comm]
      exact hargument (offset + 1) type htype name

theorem Plan.entryFrame_matches
    (hreceiver : p.method.isStatic = false →
      (this (.ofClass p.method.owner)).Denotes ev ⟨.reference, inputs.receiver⟩)
    (hargument : ∀ index type, p.method.descriptor.parameters[index]? = some type → ∀ name,
      (argument (.make index name (.ofField type))).Denotes ev
        ⟨type.valueKind, inputs.argument index⟩)
    : p.entryFrame.Matches (Denotes ev) (entryShape p.method) (inputs.memory p.method) := by
  have hempty : Frame.empty.Matches (Denotes ev) ⟨[], []⟩ (⟨[], []⟩ : Memory D) :=
    ⟨.nil, fun hk => by cases hk⟩
  have hparameters : ∀ offset type, p.method.descriptor.parameters[offset]? = some type → ∀ name,
      (argument (.make (0 + offset) name (.ofField type))).Denotes ev
        ⟨type.valueKind, inputs.argument (0 + offset)⟩ := by
    intro offset type htype name
    rw [Nat.zero_add]
    exact hargument offset type htype name
  unfold Plan.entryFrame entryShape Inputs.memory
  cases hstatic : p.method.isStatic with
  | true => exact p.putParameters_matches hempty hparameters 0
  | false => exact p.putParameters_matches (hempty.store (hreceiver hstatic) rfl 0) hparameters 1

end

theorem Plan.has_putParameters {types : List FieldType}
    (h : (p.putParameters f slot index types).Has v)
    : f.Has v ∨ ∃ type ∈ types, v.type = .ofField type := by
  induction types generalizing f slot index with
  | nil => exact .inl h
  | cons type rest ih =>
      rcases ih h with h | ⟨t, ht, htype⟩
      · rcases h.of_putLocal with rfl | h
        · exact .inr ⟨type, List.mem_cons_self, rfl⟩
        · exact .inl h
      · exact .inr ⟨t, List.mem_cons_of_mem _ ht, htype⟩

-- Methods

/-- The types that the method declares have the kinds that the shapes have. -/
structure StackMachine.Typing.Declared (T : Typing) (p : Plan) : Prop where
  receiver : p.method.isStatic = false → (TypeName.ofClass p.method.owner).HasKind .reference
  parameters : ∀ t ∈ p.method.descriptor.parameters, (TypeName.ofField t).HasKind t.valueKind
  stored : ∀ {n i operation slot S S' k}, p.node? n = some (.plain i) →
    operation? i = some operation → operation.writes? = some slot → T.shape? n = some S →
    operation.apply .ofKinds S = some S' → S'.local? slot = some k → p.TellsKind n slot k.kind
  joined : ∀ {n l slot S k v}, p.node? n = some (.label l) → T.shape? n = some S →
    S.local? slot = some k → p.variableAt? slot n = some v → v.type.HasKind k.kind

/-- Without a variable table only the types of the receiver and the parameters matter. -/
theorem StackMachine.Typing.declared_of_no_variables {T : Typing}
    (hvariables : p.variableTable = [])
    (receiver : p.method.isStatic = false → (TypeName.ofClass p.method.owner).HasKind .reference)
    (parameters : ∀ t ∈ p.method.descriptor.parameters, (TypeName.ofField t).HasKind t.valueKind)
    : T.Declared p := by
  have hcovering : ∀ slot node, p.variableAt? slot node = none := by
    intro slot node
    simp [Plan.variableAt?, hvariables]
  have hdeclared : ∀ slot node, p.declaredVariable? slot node = none := by
    intro slot node
    simp [Plan.declaredVariable?, hvariables]
  refine ⟨receiver, parameters, fun _ _ _ _ _ _ => ⟨fun hv => ?_, fun _ _ hv => ?_⟩,
    fun _ _ _ hv => ?_⟩
  · simp [hdeclared] at hv
  · simp [hcovering] at hv
  · simp [hcovering] at hv

theorem StackMachine.Typing.Declared.entry_fits {T : Typing} (declared : T.Declared p)
    : p.entryFrame.Fits (entryShape p.method) := by
  refine @Frame.Fits.of_matches _ _ datumOfType (Plan.entryFrame_matches (fun hstatic => ?_)
    fun index type htype name => ?_) fun {slot v} hv => ?_
  · exact denotes_datumOfType (declared.receiver hstatic)
  · exact denotes_datumOfType (declared.parameters type (List.mem_of_getElem? htype))
  · have hv : p.entryFrame.Has v := @Frame.has_of_place _ _ (.slot slot) hv
    have hempty : ¬ Frame.empty.Has v := fun hv => hv.elim nofun nofun
    have hparameter : ∀ {type}, type ∈ p.method.descriptor.parameters → v.type = .ofField type →
        v.type ≠ .top := by
      intro type hmem htype
      rw [htype]
      exact (declared.parameters type hmem).ne_top
    unfold Plan.entryFrame at hv
    split at hv
    · rcases Plan.has_putParameters hv with hv | ⟨type, hmem, htype⟩
      · exact absurd hv hempty
      · exact hparameter hmem htype
    next hstatic =>
      rcases Plan.has_putParameters hv with hv | ⟨type, hmem, htype⟩
      · rcases hv.of_putLocal with rfl | hv
        · exact (declared.receiver (by simpa using hstatic)).ne_top
        · exact absurd hv hempty
      · exact hparameter hmem htype

theorem Method.flow_of_edge {m : Method} {graph : MethodGraph} {u v : Nat}
    (models : MethodGraph.Models m graph) (hranges : m.ranges = [])
    (edge : u ∈ graph.graph.predecessors v)
    : m.Flow u v := by
  refine (models.edge edge).resolve_right fun h => ?_
  rw [Method.isHandler, hranges] at h
  cases h

namespace StackMachine

variable {T : Typing} {m : Method} {graph : MethodGraph} {u : Nat}

theorem shapeAfter?_of_node {node : Node} (h : m.node? n = some node)
    : shapeAfter? m S n = (execute .ofKinds S node).map Prod.fst := by
  cases n with
  | zero => cases h
  | succ n => rw [shapeAfter?, h, Option.bind_some]

theorem execute_plain {D : Type} {M : Meaning D} {μ μ' : Memory D} {go : Next D} {i : Instruction}
    (hi : operation? i = some operation) (h : execute M μ (.plain i) = some (μ', go))
    : operation.apply M μ = some μ' ∧ go = .falls := by
  obtain ⟨operation', hi', h⟩ := Option.bind_eq_some_iff.mp h
  obtain rfl : operation = operation' := Option.some.inj (hi.symm.trans hi')
  obtain ⟨μ₁, happly, h⟩ := Option.bind_eq_some_iff.mp h
  cases h
  exact ⟨happly, rfl⟩

namespace Typing.Verifies

theorem exists_shape (verifies : T.Verifies m) (models : MethodGraph.Models m graph)
    (hranges : m.ranges = []) (h : graph.graph.Reaches n)
    : ∃ S, T.shape? n = some S := by
  induction h with
  | refl => exact ⟨_, verifies.entry⟩
  | tail _ edge ih =>
      obtain ⟨S, hS⟩ := ih
      obtain ⟨S', -, hflow⟩ := verifies.step hS
      obtain ⟨needed, hneeded, -⟩ := hflow _ (Method.flow_of_edge models hranges edge)
      exact ⟨needed, hneeded⟩

/-- The shapes at both ends of an edge. -/
theorem edge (verifies : T.Verifies m) (models : MethodGraph.Models m graph)
    (hranges : m.ranges = []) (h : u ∈ graph.graph.predecessors n) (hn : T.shape? n = some needed)
    : ∃ S S', T.shape? u = some S ∧ shapeAfter? m S u = some S' ∧ S'.Provides needed := by
  obtain ⟨S, hS⟩ := verifies.exists_shape models hranges (models.pruned.reached h)
  obtain ⟨S', hS', hflow⟩ := verifies.step hS
  obtain ⟨needed', hneeded, hprovides⟩ := hflow _ (Method.flow_of_edge models hranges h)
  obtain rfl : needed = needed' := Option.some.inj (hn.symm.trans hneeded)
  exact ⟨S, S', hS, hS', hprovides⟩

end Typing.Verifies

end StackMachine

/-- By induction on the place in the order. -/
theorem NodeGraph.forall_mem_order {g : NodeGraph} {P : Nat → Prop}
    (h : ∀ n ∈ g.order, (∀ u, g.Precedes u n → P u) → P n)
    : ∀ n ∈ g.order, P n := by
  intro n hn
  obtain ⟨before, after, horder⟩ := List.mem_iff_append.mp hn
  induction hk : before.length using Nat.strongRecOn generalizing n before after with
  | _ k ih =>
      refine h n hn fun u hu => ?_
      have hu := (NodeGraph.precedes_iff horder).mp hu
      obtain ⟨first, others, rfl⟩ := List.mem_iff_append.mp hu
      have hu' : g.order = first ++ u :: (others ++ n :: after) := by simpa using horder
      exact ih first.length (by simp [← hk]) u (by simp [hu']) first _ hu' rfl

theorem Staged.below_of_precedes {lo hi : Nat → Nat} {u : Nat}
    (h : Staged p lo hi p.graph.graph.order s) (hprecedes : p.graph.graph.Precedes u n)
    (hf : s.frameOf? u = some f) (hv : f.Has v)
    : v.Below (lo n) := by
  obtain ⟨before, after, horder, hu⟩ := hprecedes
  have hmem : u ∈ p.graph.graph.order := by simp [horder, hu]
  refine (h.held u hmem hf hv).mono ?_
  have hstages := h.stages
  rw [horder, List.pairwise_append] at hstages
  exact hstages.2.2 u hu n List.mem_cons_self

/-- The frame after every node of the order fits the shape after it. -/
theorem Staged.fits {T : Typing} {lo hi : Nat → Nat} (h : Staged p lo hi p.graph.graph.order s)
    (models : MethodGraph.Models p.method p.graph) (hranges : p.method.ranges = [])
    (verifies : T.Verifies p.method) (declared : T.Declared p)
    : ∀ n ∈ p.graph.graph.order, ∀ {f S S'}, s.frameOf? n = some f → T.shape? n = some S →
        shapeAfter? p.method S n = some S' → f.Fits S' := by
  refine NodeGraph.forall_mem_order fun n hn ih => ?_
  intro f S S' hf hS hS'
  have hinto : ∀ {u g}, u ∈ p.graph.graph.predecessors n → p.graph.graph.Precedes u n →
      s.frameOf? u = some g → g.Fits S := by
    intro u g hu hprecedes hg
    obtain ⟨Su, Su', hSu, hSu', hprovides⟩ := verifies.edge models hranges hu hS
    exact (ih u hprecedes hg hSu hSu').provides hprovides
  have hbefore : ∀ {g}, FrameBefore p s n g → g.Fits S := by
    intro g hg
    obtain ⟨u, hu, hprecedes, hg⟩ := hg
    exact hinto (by simp [hu]) hprecedes hg
  obtain ⟨f', hf', hsimulates⟩ := h.nodes n hn
  obtain rfl : f = f' := Option.some.inj (hf.symm.trans hf')
  have hafter : ∀ {node}, p.node? n = some node →
      (execute .ofKinds S node).map Prod.fst = some S' := by
    intro node hnode
    rw [← shapeAfter?_of_node ((p.node?_eq n) ▸ hnode), hS']
  generalize s.codeOf n = code at hsimulates
  cases hsimulates with
  | entry hnone =>
      obtain rfl : n = 0 := by
        cases n with
        | zero => rfl
        | succ k =>
            have hlt := models.size ▸ p.graph.graph.lt_size_of_mem_order hn
            have hle := List.getElem?_eq_none_iff.mp hnone
            omega
      cases hS'
      obtain rfl := Option.some.inj (verifies.entry.symm.trans hS)
      exact declared.entry_fits
  | label hnode hc hknown hjoined =>
      cases hafter hnode
      refine hjoined.fits (fun g hg => ?_) fun {slot k} hk {w} hw =>
        declared.joined hnode hS hk hw
      obtain ⟨u, hu, hprecedes, hg⟩ := hknown.only g hg
      exact hinto hu hprecedes hg
  | line hnode hg =>
      cases hafter hnode
      exact hbefore hg
  | @plain i operation g f code hnode hi hg hperforms =>
      obtain ⟨⟨S₁, go⟩, hexecute, rfl⟩ := Option.map_eq_some_iff.mp (hafter hnode)
      obtain ⟨happly, -⟩ := execute_plain hi hexecute
      refine hperforms.fits (hbefore hg) (fun hv => ?_) happly fun hwrites hk =>
        declared.stored hnode hi hwrites hS happly hk
      obtain ⟨u, -, hprecedes, hg⟩ := hg
      exact h.below_of_precedes hprecedes hg hv
  | branch hnode hb hg hleaves =>
      obtain ⟨⟨S₁, go⟩, hexecute, rfl⟩ := Option.map_eq_some_iff.mp (hafter hnode)
      exact hleaves.fits (hbefore hg) hexecute

end StackLift
