import StackLift.Proofs.SimulationSteps

/-!
The frame of a label, place by place. A place holds the value on which all frames before the label
agree, or a register of its own, whose type joins those of the frames that are known.
-/

namespace StackLift

variable {p : Plan} {node slot : Nat} {s s' : LiftState} {f : Frame} {frames : List Frame}
  {allKnown : Bool} {place : Place}

-- Merges

/-- The registers of merges were made in the order of the merges. -/
structure LiftState.MergesNumbered (s : LiftState) : Prop where
  ascending : s.merges.Pairwise fun m m' => m.target.index < m'.target.index
  made : s.MergesMade

/-- A step adds merges at a node, with registers that it makes, and no frames or labels. -/
structure GrowsMerges (node : Nat) (s s' : LiftState) : Prop where
  frames : s'.frames = s.frames
  labels : s'.labels = s.labels
  next : s.registers.next ≤ s'.registers.next
  merges : s.merges ⊆ s'.merges
  new : ∀ m ∈ s'.merges, m ∈ s.merges ∨ m.node = node ∧ s.registers.next ≤ m.target.index
    ∧ m.target.index < s'.registers.next
  numbered : s.MergesNumbered → s'.MergesNumbered

theorem GrowsMerges.trans {s₁ s₂ s₃ : LiftState} (h : GrowsMerges node s₁ s₂)
    (h' : GrowsMerges node s₂ s₃)
    : GrowsMerges node s₁ s₃ where
  frames := h'.frames.trans h.frames
  labels := h'.labels.trans h.labels
  next := Nat.le_trans h.next h'.next
  merges := List.Subset.trans h.merges h'.merges
  new m hm := by
    rcases h'.new m hm with hm | ⟨hnode, hle, hlt⟩
    · rcases h.new m hm with hm | ⟨hnode, hle, hlt⟩
      · exact .inl hm
      · exact .inr ⟨hnode, hle, Nat.lt_of_lt_of_le hlt h'.next⟩
    · exact .inr ⟨hnode, Nat.le_trans h.next hle, hlt⟩
  numbered hs := h'.numbered (h.numbered hs)

/-- A step adds merges at a node, and changes nothing else. -/
structure AddsMerges (node : Nat) (s s' : LiftState) : Prop extends GrowsMerges node s s' where
  code : s'.code = s.code
  refinements : s'.refinements = s.refinements

namespace AddsMerges

theorem refl (node : Nat) (s : LiftState)
    : AddsMerges node s s :=
  ⟨⟨rfl, rfl, Nat.le_refl _, List.Subset.refl _, fun _ => .inl, id⟩, rfl, rfl⟩

theorem trans {s₁ s₂ s₃ : LiftState} (h : AddsMerges node s₁ s₂) (h' : AddsMerges node s₂ s₃)
    : AddsMerges node s₁ s₃ where
  toGrowsMerges := h.toGrowsMerges.trans h'.toGrowsMerges
  code := h'.code.trans h.code
  refinements := h'.refinements.trans h.refinements

end AddsMerges

theorem LiftState.MergesNumbered.add (h : s.MergesNumbered) {m : Merge}
    (hm : m.target.index = s.registers.next) (merges : s'.merges = s.merges ++ [m])
    (next : s'.registers.next = s.registers.next + 1)
    : s'.MergesNumbered where
  ascending := by
    rw [merges, List.pairwise_append]
    refine ⟨h.ascending, List.pairwise_singleton _ _, fun m' hm' m'' hm'' => ?_⟩
    rw [List.mem_singleton.mp hm'', hm]
    exact h.made m' hm'
  made m' hm' := by
    rw [next]
    rcases List.mem_append.mp (merges ▸ hm') with hm' | hm'
    · exact Nat.lt_succ_of_lt (h.made m' hm')
    · rw [List.mem_singleton.mp hm', hm]
      exact Nat.lt_succ_self _

/-- The type of a register that is made for a place. -/
inductive MergeType (p : Plan) (node : Nat) (frames : List Frame) : Place → TypeName → Prop
  | lub {place : Place} {type : TypeName} :
    TypeName.lubAll ((frames.filterMap place.value?).map Value.type) = some type →
    MergeType p node frames place type
  | variable {slot : Nat} {v : Variable} : p.variableAt? slot node = some v →
    MergeType p node frames (.slot slot) v.type

/-- What a place of the frame of a label holds. -/
inductive JoinedTo (p : Plan) (node : Nat) (frames : List Frame) (allKnown : Bool) (s : LiftState)
    (place : Place) : Value → Prop
  | agreed {v : Value} : LiftM.agreement frames allKnown place = some v →
    JoinedTo p node frames allKnown s place v
  | merged {t : Register} : { node, place, target := t } ∈ s.merges →
    MergeType p node frames place t.type → t.type ≠ .top →
    JoinedTo p node frames allKnown s place (.register t)

theorem JoinedTo.mono {v : Value} (h : JoinedTo p node frames allKnown s place v)
    (merges : s.merges ⊆ s'.merges)
    : JoinedTo p node frames allKnown s' place v := by
  cases h with
  | agreed hv => exact .agreed hv
  | merged hm htype hne => exact .merged (merges hm) htype hne

theorem filterMap_of_mapM {α β : Type} {g : α → Option β} {l : List α} {r : List β}
    (h : l.mapM g = some r)
    : l.filterMap g = r := by
  induction l generalizing r with
  | nil =>
      cases h
      rfl
  | cons a rest ih =>
      rw [List.mapM_cons] at h
      obtain ⟨b, hb, h⟩ := Option.bind_eq_some_iff.mp h
      obtain ⟨bs, hbs, h⟩ := Option.bind_eq_some_iff.mp h
      cases h
      rw [List.filterMap_cons_some hb, ih hbs]

theorem mergeType_of_mergedType? {type : TypeName}
    (h : p.mergedType? frames node slot = some type)
    : MergeType p node frames (.slot slot) type ∧ type ≠ .top := by
  unfold Plan.mergedType? at h
  split at h
  next => cases h
  next values hvalues =>
    dsimp only at h
    split at h
    next => cases h
    next =>
      obtain ⟨htype, hne⟩ := Option.filter_eq_some_iff.mp h
      refine ⟨?_, of_decide_eq_true hne⟩
      rcases Option.or_eq_some_iff.mp htype with hvariable | ⟨-, hlub⟩
      · obtain ⟨v, hv, rfl⟩ := Option.map_eq_some_iff.mp hvariable
        exact .variable hv
      · refine .lub ?_
        rwa [show frames.filterMap (Place.slot slot).value? = values from filterMap_of_mapM hvalues]

theorem Place.value?_singleton {v : Value} (h : place.value? f = some v)
    : LiftM.agreement [f] true place = some v := by
  simp [LiftM.agreement, h, agreed?]

namespace LiftM

theorem run_mergePlace {type : TypeName} {v : Value} {agreed : Option Value}
    (hx : (mergePlace node place type agreed).run s = .ok (v, s'))
    : AddsMerges node s s' ∧ (agreed = some v
        ∨ ∃ t, v = .register t ∧ t.type = type ∧ { node, place, target := t } ∈ s'.merges) := by
  cases agreed with
  | some w =>
      cases hx
      exact ⟨.refl node s, .inl rfl⟩
  | none =>
      cases hx
      refine ⟨⟨⟨rfl, rfl, Nat.le_succ _, List.subset_append_left _ _, fun m hm => ?_,
        fun h => h.add rfl rfl rfl⟩, rfl, rfl⟩,
        .inr ⟨_, rfl, rfl, List.mem_append_right _ List.mem_cons_self⟩⟩
      rcases List.mem_append.mp hm with hm | hm
      · exact .inl hm
      · rw [List.mem_singleton.mp hm]
        exact .inr ⟨rfl, Nat.le_refl _, Nat.lt_succ_self _⟩

theorem run_mergeStackEntry {index : Nat} {v : Value}
    (hx : (mergeStackEntry node frames allKnown index).run s = .ok (v, s'))
    : AddsMerges node s s' ∧ JoinedTo p node frames allKnown s' (.stack index) v := by
  unfold mergeStackEntry at hx
  dsimp only at hx
  split at hx
  next => cases hx
  next htype =>
    obtain ⟨hadds, hagreed | ⟨t, rfl, ht, hm⟩⟩ := run_mergePlace hx
    · exact ⟨hadds, .agreed hagreed⟩
    · refine ⟨hadds, .merged hm ?_ (ht ▸ htype)⟩
      refine .lub ?_
      rw [ht]
      cases hlub : TypeName.lubAll _ with
      | none =>
          rw [hlub] at htype
          exact absurd rfl htype
      | some type => rfl

theorem run_mergeSlot (hdeclared : p.typesAfter? node = none) {entry : Option Value}
    (hx : (mergeSlot p node frames allKnown slot).run s = .ok (entry, s'))
    : AddsMerges node s s'
      ∧ (∀ v, entry = some v → JoinedTo p node frames allKnown s' (.slot slot) v)
      ∧ ((p.mergedType? frames node slot).isSome = true → entry.isSome = true) := by
  unfold mergeSlot at hx
  simp only [hdeclared, Option.any_none, Bool.false_eq_true, if_false] at hx
  split at hx
  next hnone =>
    cases hx
    exact ⟨.refl node s, fun _ h => (nomatch h), by simp [hnone]⟩
  next type htype =>
    generalize hagreement : (if allKnown = true then
      agreed? (frames.filterMap fun f => f.local? slot) else none) = agreed at hx
    split at hx
    next => cases hx
    next =>
      rw [← bind_pure_comp] at hx
      obtain ⟨v, s₁, hmerge, hx⟩ := run_bind_eq_ok.mp hx
      cases hx
      obtain ⟨hadds, hagreed | ⟨t, rfl, rfl, hm⟩⟩ := run_mergePlace hmerge
      · refine ⟨hadds, fun w hw => ?_, fun _ => rfl⟩
        cases hw
        exact .agreed (hagreement.trans hagreed)
      · refine ⟨hadds, fun w hw => ?_, fun _ => rfl⟩
        cases hw
        obtain ⟨hmerged, hne⟩ := mergeType_of_mergedType? htype
        exact .merged hm hmerged hne

-- Frames

theorem run_mapM {α β : Type} {l : List α} {g : α → LiftM β} {Q : LiftState → α → β → Prop}
    {bs : List β} (lasting : ∀ {s s'}, AddsMerges node s s' → ∀ {a b}, Q s a b → Q s' a b)
    (step : ∀ a ∈ l, ∀ {s b s'}, (g a).run s = .ok (b, s') → AddsMerges node s s' ∧ Q s' a b)
    (hx : (l.mapM g).run s = .ok (bs, s'))
    : AddsMerges node s s' ∧ List.Forall₂ (Q s') l bs := by
  induction l generalizing bs s with
  | nil =>
      cases hx
      exact ⟨.refl node _, .nil⟩
  | cons a rest ih =>
      rw [List.mapM_cons] at hx
      obtain ⟨b, s₁, hb, hx⟩ := run_bind_eq_ok.mp hx
      obtain ⟨others, s₂, hothers, hx⟩ := run_bind_eq_ok.mp hx
      cases hx
      obtain ⟨hadds, hQ⟩ := step a List.mem_cons_self hb
      obtain ⟨hadds', hrest⟩ := ih (fun c hc => step c (List.mem_cons_of_mem a hc)) hothers
      exact ⟨hadds.trans hadds', .cons (lasting hadds' hQ) hrest⟩

end LiftM

theorem forall₂_range {β : Type} {R : Nat → β → Prop} {count : Nat} {bs : List β}
    (h : List.Forall₂ R (List.range count) bs)
    : bs.length = count ∧ ∀ {i b}, bs[i]? = some b → R i b := by
  refine ⟨by simpa using h.length_eq.symm, fun {i b} hb => ?_⟩
  obtain ⟨hi, rfl⟩ := List.getElem?_eq_some_iff.mp hb
  simpa using h.get (by simpa [h.length_eq] using hi) hi

theorem join_getElem?_trimLocals {α : Type} (locals : List (Option α)) (i : Nat)
    : (trimLocals locals)[i]?.join = locals[i]?.join := by
  obtain ⟨dropped, hdropped, hsplit⟩ : ∃ dropped : List (Option α), (∀ a ∈ dropped, a = none)
      ∧ locals = trimLocals locals ++ dropped := by
    refine ⟨(locals.reverse.takeWhile Option.isNone).reverse, fun a ha => ?_, ?_⟩
    · exact Option.isNone_iff_eq_none.mp
        (List.all_eq_true.mp List.all_takeWhile a (List.mem_reverse.mp ha))
    · rw [trimLocals, ← List.reverse_append, List.takeWhile_append_dropWhile, List.reverse_reverse]
  generalize trimLocals locals = kept at hsplit ⊢
  subst hsplit
  by_cases hi : i < kept.length
  · rw [List.getElem?_append_left hi]
  · rw [List.getElem?_append_right (Nat.le_of_not_lt hi),
      List.getElem?_eq_none (Nat.le_of_not_lt hi)]
    cases hentry : dropped[i - kept.length]? with
    | none => rfl
    | some entry => rw [hdropped entry (List.mem_of_getElem? hentry)]; rfl

/-- The frame of a label, with the frames before it that are known. -/
structure JoinedFrame (p : Plan) (node : Nat) (frames : List Frame) (allKnown : Bool)
    (s : LiftState) (f : Frame) : Prop where
  nonempty : frames ≠ []
  place : ∀ {place v}, place.value? f = some v → JoinedTo p node frames allKnown s place v
  height : f.stack.length = LiftM.smallest (frames.map fun f => f.stack.length)
  slot : ∀ {slot}, (p.mergedType? frames node slot).isSome = true → (f.local? slot).isSome = true

theorem JoinedFrame.mono (h : JoinedFrame p node frames allKnown s f)
    (merges : s.merges ⊆ s'.merges)
    : JoinedFrame p node frames allKnown s' f :=
  { h with place := fun hv => (h.place hv).mono merges }

/-- A single frame is taken over. -/
theorem joinedFrame_single (p : Plan) (node : Nat) (s : LiftState) (f : Frame)
    : JoinedFrame p node [f] true s f where
  nonempty := by simp
  place hv := .agreed (Place.value?_singleton hv)
  height := rfl
  slot h := by
    obtain ⟨type, htype⟩ := Option.isSome_iff_exists.mp h
    exact LiftM.isSome_of_mergedType? htype f List.mem_cons_self

namespace LiftM

theorem smallest_mem {l : List Nat} (h : l ≠ [])
    : smallest l ∈ l := by
  cases l with
  | nil => exact absurd rfl h
  | cons n rest => exact (List.min?_eq_some_iff.mp List.min?_cons').1

theorem run_mergeFrames (hdeclared : p.typesAfter? node = none) {predecessors : List Nat}
    (hx : (mergeFrames p node predecessors false).run s = .ok (f, s'))
    : AddsMerges node s s' ∧ JoinedFrame p node (predecessors.filterMap s.frameOf?)
        ((predecessors.filterMap s.frameOf?).length = predecessors.length) s' f := by
  obtain ⟨_, _, hget, hx⟩ := run_bind_eq_ok.mp hx
  cases hget
  dsimp only at hx
  generalize hframes : predecessors.filterMap s.frameOf? = frames at hx ⊢
  split at hx
  next =>
    obtain ⟨_, _, hthrow, -⟩ := run_bind_eq_ok.mp hx
    cases hthrow
  next hne =>
    generalize decide (frames.length = predecessors.length) = allKnown at hx ⊢
    obtain ⟨stack, s₁, hstack, hx⟩ := run_bind_eq_ok.mp hx
    obtain ⟨locals, s₂, hlocals, hx⟩ := run_bind_eq_ok.mp hx
    cases hx
    obtain ⟨hadds, hstack⟩ := run_mapM
      (Q := fun s index v => JoinedTo p node frames allKnown s (.stack index) v)
      (fun hadds _ _ h => h.mono hadds.merges) (fun _ _ => run_mergeStackEntry) hstack
    obtain ⟨hadds', hlocals⟩ := run_mapM
      (Q := fun s slot entry =>
        (∀ v, entry = some v → JoinedTo p node frames allKnown s (.slot slot) v)
        ∧ ((p.mergedType? frames node slot).isSome = true → entry.isSome = true))
      (fun hadds _ _ h => ⟨fun v hv => (h.1 v hv).mono hadds.merges, h.2⟩)
      (fun _ _ => run_mergeSlot hdeclared) hlocals
    obtain ⟨hheight, hstack⟩ := forall₂_range hstack
    obtain ⟨hslots, hlocals⟩ := forall₂_range hlocals
    refine ⟨hadds.trans hadds', ⟨fun h => hne (by simp [h]), fun {place v} hv => ?_, ?_,
      fun {slot} hslot => ?_⟩⟩
    · cases place with
      | stack index =>
          rw [Place.value?, List.reverse_reverse] at hv
          exact (hstack hv).mono hadds'.merges
      | slot index =>
          rw [Place.value?, Frame.local?, join_getElem?_trimLocals] at hv
          exact (hlocals (Option.join_eq_some_iff.mp hv)).1 v rfl
    · simpa using hheight
    · have hlt : slot < locals.length := by
        obtain ⟨type, htype⟩ := Option.isSome_iff_exists.mp hslot
        obtain ⟨g, hg, hlength⟩ := List.mem_map.mp
          (smallest_mem (l := frames.map fun f => f.locals.length) fun h => hne (by simpa using h))
        rw [hslots, ← hlength]
        by_contra hle
        have hsome := isSome_of_mergedType? htype g hg
        rw [Frame.local?, List.getElem?_eq_none (Nat.le_of_not_lt hle)] at hsome
        cases hsome
      rw [Frame.local?, join_getElem?_trimLocals, List.getElem?_eq_getElem hlt]
      exact (hlocals (List.getElem?_eq_getElem hlt)).2 hslot

theorem run_joinedFrame (hdeclared : p.typesAfter? node = none)
    (hx : (joinedFrame p node false).run s = .ok (f, s'))
    : AddsMerges node s s'
      ∧ JoinedFrame p node ((p.graph.graph.predecessors node).filterMap s.frameOf?)
        (((p.graph.graph.predecessors node).filterMap s.frameOf?).length
          = (p.graph.graph.predecessors node).length) s' f := by
  obtain ⟨_, _, hget, hx⟩ := run_bind_eq_ok.mp hx
  cases hget
  generalize p.graph.graph.predecessors node = predecessors at hx ⊢
  split at hx
  next u =>
    split at hx
    next g hg =>
      cases hx
      have hframes : [u].filterMap s.frameOf? = [f] := by simp [hg]
      rw [hframes]
      exact ⟨.refl node s, joinedFrame_single p node s f⟩
    next => exact run_mergeFrames hdeclared hx
  next => exact run_mergeFrames hdeclared hx

theorem run_simulateLabel (hranges : p.method.ranges = []) (hdeclared : p.typesAfter? node = none)
    {l : Label} (hx : (simulateLabel p node l).run s = .ok (f, s'))
    : ∃ c s₁, s.labels.lookup l = some c ∧ AddsCode node [.label c] s s₁ ∧ AddsMerges node s₁ s'
        ∧ JoinedFrame p node ((p.graph.graph.predecessors node).filterMap s.frameOf?)
          (((p.graph.graph.predecessors node).filterMap s.frameOf?).length
            = (p.graph.graph.predecessors node).length) s' f := by
  obtain ⟨c, s₁, hlabel, hx⟩ := run_bind_eq_ok.mp hx
  obtain ⟨rfl, hc⟩ := run_labelOf hlabel
  obtain ⟨_, s₁, hemit, hx⟩ := run_bind_eq_ok.mp hx
  rw [handledRanges_eq_nil hranges] at hx
  have hcode := run_emit hemit
  obtain ⟨hmerges, hjoined⟩ := run_joinedFrame hdeclared hx
  have hframes : s₁.frameOf? = s.frameOf? := by
    funext n
    rw [LiftState.frameOf?, hcode.frames, LiftState.frameOf?]
  rw [hframes] at hjoined
  exact ⟨c, s₁, hc, hcode, hmerges, hjoined⟩

end LiftM

end StackLift
