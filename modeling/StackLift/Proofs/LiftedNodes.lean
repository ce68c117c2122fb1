import StackLift.Proofs.LiftedRegisters
import StackLift.Proofs.SimulationOrder

/-! Simulating a node keeps the inventory of the registers. -/

namespace StackLift

open Inventory LiftState

-- Stack map frames

namespace DeclaredTypes

variable {p : Plan} {w : Inventory} {m : Substitution} {declared : TypeName} {v : Value}

/-- A register that is given a type still had the type it was made with, and no other frame gives
it another type.
-/
theorem given_of_retypes (once : p.RetypesOnce) (hm : w.Refined p m) {r : Register}
    (hr : w.Has r) (hd : refines r declared) (event : (r.index, declared) ∈ p.retyped)
    : r.type = w.type r.index ∧ ∀ t, w.given r.index = some t → t = declared := by
  have unique : ∀ t, w.given r.index = some t → t = declared := by
    intro t ht
    exact once _ (hm.given _ _ ht).2.1 _ event rfl
  refine ⟨hr.2.resolve_right fun hg => ?_, unique⟩
  simp [refines, unique _ hg] at hd

theorem refined_insert (once : p.RetypesOnce) (hm : w.Refined p m) {r : Register}
    (hr : w.Has r) (hd : refines r declared) (event : (r.index, declared) ∈ p.retyped)
    : w ≤ w.give r.index declared ∧ (w.give r.index declared).Refined p
        (ValueMap.insert m (.register r) (.register (r.withType declared))) := by
  obtain ⟨htype, unique⟩ := given_of_retypes once hm hr hd event
  have hgiven : ∀ i t, w.given i = some t → (w.give r.index declared).given i = some t := by
    intro i t ht
    by_cases hi : i = r.index
    · subst hi
      simp [give, unique t ht]
    · simp [give, hi, ht]
  refine ⟨{ le_refl w with given := fun i _ => hgiven i }, ⟨?_, ?_⟩⟩
  · intro entry he
    rcases Substitution.mem_insert he with rfl | he
    · refine ⟨r.withType declared, ?_, rfl, by simp [give, Register.withType]⟩
      change Value.anonymous _ = RegisterKey.value (r.index, w.type r.index)
      rw [← htype]
      rfl
    · obtain ⟨q, hk, hq, hg⟩ := hm.entries entry he
      exact ⟨q, hk, hq, hgiven _ _ hg⟩
  · intro i t ht
    rw [Substitution.find?_insert]
    by_cases hi : i = r.index
    · obtain rfl : declared = t := by simpa [give, hi] using ht
      refine ⟨hi ▸ hr.1, hi ▸ event, ?_⟩
      rw [if_pos]
      · simp
      · change RegisterKey.value (i, w.type i) = Value.anonymous _
        rw [hi, ← htype]
        rfl
    · obtain ⟨hlt, hq, hl⟩ := hm.given i t (by simpa [give, hi] using ht)
      refine ⟨hlt, hq, ?_⟩
      split
      · simp
      · exact hl

/-- The inventories that differ from the given one at most in the types from frames. -/
def Retyped (w w' : Inventory) : Prop :=
  w' = { w with given := w'.given }

theorem run_refineValue (declared : TypeName) (r : Register) (m : Substitution)
    : (refineValue declared (.register r)).run m
      = if refines r declared
        then (.register (r.withType declared),
          ValueMap.insert m (.register r) (.register (r.withType declared)))
        else (.register r, m) := by
  simp only [refineValue]
  split <;> rfl

theorem refineValue_ensures (once : p.RetypesOnce) {w₀ : Inventory} (hw : Retyped w₀ w)
    (hm : w.Refined p m) (hv : v.Within w.Has)
    (event : ∀ r, v = .register r → refines r declared → (r.index, declared) ∈ p.retyped)
    : ∃ w', w ≤ w' ∧ (Retyped w₀ w' ∧ w'.Refined p ((refineValue declared v).run m).2)
        ∧ ((refineValue declared v).run m).1.Within w'.Has := by
  cases v with
  | register r =>
      rw [run_refineValue]
      split
      next hd =>
        have hr := Value.within_register.mp hv
        obtain ⟨hle, hins⟩ := refined_insert once hm hr hd (event r rfl hd)
        refine ⟨w.give r.index declared, hle, ⟨?_, hins⟩, ?_⟩
        · rw [Retyped, give, hw]
        · exact Value.within_register.mpr ⟨hr.1, .inr (by simp [give, Register.withType])⟩
      next => exact ⟨w, le_refl w, ⟨hw, hm⟩, hv⟩
  | _ => exact ⟨w, le_refl w, ⟨hw, hm⟩, hv⟩

/-- The local slots of a frame with their declared types. -/
def refineLocals (d : DeclaredTypes) (f : Frame) : StateM Substitution (List (Option Value)) :=
  (List.range d.locals.length).mapM fun slot =>
    match d.type? slot, f.local? slot with
    | some declared, some value => some <$> refineValue declared value
    | _, _ => pure none

/-- The stack entries of a frame with their declared types, the bottom first. -/
def refineStack (d : DeclaredTypes) (f : Frame) : StateM Substitution (List Value) :=
  (f.stack.reverse.zip d.stack).mapM fun entry => refineValue entry.2 entry.1

theorem run_refine (d : DeclaredTypes) (f : Frame) (m : Substitution)
    : (d.refine f).run m
      = ({ locals := trimLocals ((d.refineLocals f).run m).1
           stack := ((d.refineStack f).run ((d.refineLocals f).run m).2).1.reverse },
        ((d.refineStack f).run ((d.refineLocals f).run m).2).2) := rfl

/-- A frame with its declared types holds what each declared type gives. -/
theorem refine_ensures {W : Type} [Preorder W] {w : W} {I : W → Substitution → Prop}
    {P : W → Register → Prop} {d : DeclaredTypes} {f : Frame}
    (lasting : ∀ r, LiftM.Lasting fun w => P w r)
    (values : ∀ v declared, (v, declared) ∈ d.declaredValues f → ∀ w', w ≤ w' → ∀ m, I w' m →
      v.Within (P w') → ∃ w'', w' ≤ w'' ∧ I w'' ((refineValue declared v).run m).2
        ∧ ((refineValue declared v).run m).1.Within (P w''))
    (hm : I w m) (hf : f.Within (P w))
    : ∃ w', w ≤ w' ∧ I w' ((d.refine f).run m).2 ∧ ((d.refine f).run m).1.Within (P w') := by
  have hvalue := LiftM.lasting_value lasting
  have hlocals : ∃ w', w ≤ w' ∧ I w' ((d.refineLocals f).run m).2
      ∧ ∀ entry ∈ ((d.refineLocals f).run m).1, ∀ v : Value, entry = some v → v.Within (P w') := by
    refine LiftM.run_mapM_ensures (R := fun w' entry => ∀ v : Value, entry = some v →
      v.Within (P w')) (fun _ _ _ hw h v hv => hvalue v hw (h v hv)) ?_ hm
    intro slot hslot w₁ hw₁ m₁ hm₁
    split
    next declared value ht hl =>
      have hdeclared : (value, declared) ∈ d.declaredValues f :=
        List.mem_append_left _ (List.mem_filterMap.mpr ⟨slot, hslot, by simp [ht, hl]⟩)
      obtain ⟨w₂, hw₂, hI, hv⟩ := values _ _ hdeclared w₁ hw₁ m₁ hm₁ (hvalue _ hw₁ (hf.local? hl))
      exact ⟨w₂, hw₂, hI, fun v he => Option.some.inj he ▸ hv⟩
    next => exact ⟨w₁, le_refl w₁, hm₁, fun v he => nomatch he⟩
  obtain ⟨w₁, hw₁, hm₁, hlocals⟩ := hlocals
  have hstack : ∃ w', w₁ ≤ w' ∧ I w' ((d.refineStack f).run ((d.refineLocals f).run m).2).2
      ∧ ∀ v ∈ ((d.refineStack f).run ((d.refineLocals f).run m).2).1, v.Within (P w') := by
    refine LiftM.run_mapM_ensures (R := fun w' (v : Value) => v.Within (P w')) hvalue ?_ hm₁
    intro entry he w₂ hw₂ m₂ hm₂
    have hw := le_trans hw₁ hw₂
    exact values entry.1 entry.2 (List.mem_append_right _ he) w₂ hw m₂ hm₂
      (hvalue _ hw (hf.stack _ (List.mem_reverse.mp (List.of_mem_zip he).1)))
  obtain ⟨w₂, hw₂, hm₂, hstack⟩ := hstack
  rw [run_refine]
  refine ⟨w₂, le_trans hw₁ hw₂, hm₂, fun v hv => ?_, fun v hv => ?_⟩
  · exact hvalue v hw₂ (hlocals _ (mem_of_mem_trimLocals hv) v rfl)
  · exact hstack v (List.mem_reverse.mp hv)

end DeclaredTypes

namespace LiftM

variable {p : Plan} {M : Option (List Merge)} {w : Inventory} {node : Nat} {f : Frame}

theorem ensures_refine (once : p.RetypesOnce) (hf : f.Within w.Has)
    (event : ∀ d, p.declared.lookup node = some d → d.retyped f ⊆ p.retyped)
    : Ensures (Describes p M) w (refine p node f) fun w' f' => f'.Within w'.Has := by
  unfold refine
  split
  next => exact .throw
  next d hd =>
    intro s f' s' hs hx
    have start : DeclaredTypes.Retyped w w := rfl
    obtain ⟨w', hw, ⟨hr, hm⟩, hf'⟩ := DeclaredTypes.refine_ensures (P := Has) (d := d) (f := f)
      (I := fun w' m => DeclaredTypes.Retyped w w' ∧ w'.Refined p m) (fun _ _ _ hw => Has.mono hw)
      (fun v declared he w' _ m hI hv => DeclaredTypes.refineValue_ensures once hI.1 hI.2 hv
        fun r hr hd' => event d hd (DeclaredTypes.mem_retyped (hr ▸ he) hd'))
      ⟨start, hs.refined⟩ hf
    cases hx
    have hmade : w'.made = w.made := by rw [hr]
    have hframes : w'.frames = w.frames := by rw [hr]
    have hassigned : w'.assigned = w.assigned := by rw [hr]
    have hcaught : w'.caught = w.caught := by rw [hr]
    exact ⟨w', hw,
      { made := hs.made.trans hmade.symm
        frames := fun n => (hs.frames n).trans (by rw [hframes])
        codeSize := hs.codeSize
        framesSize := hs.framesSize
        inFrames := fun n f hn => (hs.inFrames n f (hframes ▸ hn)).mono fun _ => Has.mono hw
        inCode := fun n i hi => (hs.inCode n i hi).mono fun _ => Has.mono hw
        merges := fun m hm => (hs.merges m hm).of_le hw
        complete := hs.complete
        refined := hm
        assigned := fun i hi => hs.assigned i (hassigned ▸ hi)
        sourced := fun i hi => by
          rw [hassigned, hcaught]
          exact hs.sourced i (hmade ▸ hi)
        caught := fun i hi => hs.caught i (hcaught ▸ hi) }, hf'⟩

theorem ensures_simulate (once : p.RetypesOnce) {content : Node} (hf : f.Within w.Has)
    (hn : node < p.graph.graph.size)
    (event : ∀ d, p.declared.lookup node = some d → d.retyped f ⊆ p.retyped)
    : Ensures (Describes p M) w (simulate p node content f) fun w' f' => f'.Within w'.Has :=
  (rules_describes hn).simulate hf fun _ _ => ensures_refine once hf event

-- Joins

theorem within_place {P : Register → Prop} (hf : f.Within P) {place : Place} {v : Value}
    (hv : place.value? f = some v)
    : v.Within P := by
  cases place with
  | slot index => exact hf.local? hv
  | stack index => exact hf.stack v (List.mem_reverse.mp (List.mem_of_getElem? hv))

/-- A known frame of a predecessor has a value at the place. -/
def Reaches (p : Plan) (w : Inventory) (node : Nat) (place : Place) : Prop :=
  ∃ u ∈ p.graph.graph.predecessors node, ∃ f v, w.frames u = some f ∧ place.value? f = some v

theorem ensures_mergePlace {place : Place} {type : TypeName} {agreed : Option Value}
    (ha : ∀ v, agreed = some v → v.Within w.Has) (hr : Reaches p w node place)
    : Ensures (Describes p none) w (mergePlace node place type agreed)
        fun w' v => v.Within w'.Has := by
  cases agreed with
  | some v => exact .pure (ha v rfl)
  | none =>
      intro s v s' hs hx
      cases hx
      have htarget : (w.add type).Has (.fresh s.registers.next type) := has_add hs.made
      have hmerge : (w.add type).Merges p
          { node, place, target := .fresh s.registers.next type } := by
        obtain ⟨u, hu, f, v, hf, hv⟩ := hr
        refine ⟨htarget, u, hu, f, v, hf, hv, ?_⟩
        exact (within_place (hs.inFrames u f hf) hv).mono fun r hr => hs.made ▸ hr.1
      refine ⟨w.add type, w.le_add type, ?_, Value.within_register.mpr htarget⟩
      refine hs.extend (w.le_add type) rfl (congrArg (· + 1) hs.made) rfl rfl rfl
        (fun _ _ hi _ => hi) (fun _ _ => .inl) (fun m hm => List.mem_append_left _ hm) ?_
        (.inl rfl) (fun _ => .inl) ?_ (fun _ => .inl)
      · intro m hm
        refine (List.mem_append.mp hm).imp id fun hm => ?_
        rwa [List.mem_singleton.mp hm]
      · intro i hi
        rcases Nat.lt_succ_iff_lt_or_eq.mp hi with hi | rfl
        · exact .inl hi
        · exact .inr (.inr (.inr ⟨_, List.mem_append_right _ (List.mem_singleton_self _), hs.made⟩))

theorem agreed?_mem {vs : List Value} {v : Value} (h : agreed? vs = some v)
    : v ∈ vs := by
  cases vs with
  | nil => cases h
  | cons u rest =>
      simp only [agreed?] at h
      split at h
      · cases h
        simp
      · cases h

theorem mergesKnown_describes
    : MergesKnown p node (Describes p none) Has w := by
  intro s frames hs hframes hne w' hw place type hall
  have hknown : ∀ f ∈ frames, ∃ u ∈ p.graph.graph.predecessors node, w.frames u = some f := by
    intro f hf
    obtain ⟨u, hu, hf⟩ := List.mem_filterMap.mp (hframes ▸ hf)
    exact ⟨u, hu, hs.frames u ▸ hf⟩
  refine ensures_mergePlace (fun v hv => ?_) ?_
  · unfold agreement at hv
    split at hv
    · obtain ⟨f, hm, hv⟩ := List.mem_filterMap.mp (agreed?_mem hv)
      obtain ⟨u, -, hf⟩ := hknown f hm
      exact (within_place (hs.inFrames u f hf) hv).mono fun _ => Has.mono hw
    · cases hv
  · obtain ⟨f, hm⟩ := List.exists_mem_of_ne_nil frames hne
    obtain ⟨u, hu, hf⟩ := hknown f hm
    obtain ⟨v, hv⟩ := Option.isSome_iff_exists.mp (hall f hm)
    exact ⟨u, hu, f, v, hw.frames ▸ hf, hv⟩

theorem ensures_joined {isHandler : Bool}
    : Ensures (Describes p none) w (joinedFrame p node isHandler)
        fun w' f => f.Within w'.Has := by
  refine ensures_joinedFrame (fun r _ _ hw (hr : Has _ r) => hr.mono hw) ?_ mergesKnown_describes
  intro s u f hs _ hf
  exact hs.inFrames u f (hs.frames u ▸ hf)

-- Handlers and labels

/-- The register that a handler binds. -/
theorem ensures_freshRegister (hc : p.method.ranges ≠ []) {type : TypeName}
    : Ensures (Describes p none) w (freshRegister type) fun w' r => w'.Has r := by
  intro s r s' hs hx
  cases hx
  have hadd := w.le_add type
  let w' : Inventory := { w.add type with caught := fun i => w.caught i ∨ i = w.made }
  have hle : w ≤ w' := { hadd with caught := fun _ => .inl }
  refine ⟨w', hle, ?_, has_add (r := .fresh s.registers.next type) hs.made⟩
  refine hs.extend hle rfl (congrArg (· + 1) hs.made) rfl rfl rfl (fun _ _ hi _ => hi)
    (fun _ _ => .inl) (fun _ => id) (fun _ => .inl) (.inl rfl) (fun _ => .inl) ?_
    (fun _ _ => .inr hc)
  intro i hi
  rcases Nat.lt_succ_iff_lt_or_eq.mp hi with hi | hi
  · exact .inl hi
  · exact .inr (.inr (.inl (.inr hi)))

theorem labelRules_describes
    : LabelRules p (Describes p none) Has where
  lasting _ := fun hw => Has.mono hw
  freshLabel := ensures_freshLabel
  emit := ensures_emit
  place hs := hs.recode rfl rfl rfl rfl rfl (fun _ _ hi _ => hi) fun _ _ => .inl
  catches hc := ensures_freshRegister hc
  joined := ensures_joined

-- Visits

theorem frameOf?_set! {s s' : LiftState} (h : s'.frames = s.frames.set! node (some f))
    (hn : node < s.frames.size) (n : Nat)
    : s'.frameOf? n = Function.update s.frameOf? node (some f) n := by
  rw [frameOf?, h]
  by_cases hne : n = node
  · subst hne
    simp [Array.getD_eq_getD_getElem?, hn]
  · simp [frameOf?, Array.getD_eq_getD_getElem?, hne, Ne.symm hne]

/-- The frame of a node is kept when the node is simulated for the first time. -/
theorem describes_visited {s : LiftState} (hs : w.Describes p none s) (hf : f.Within w.Has)
    (hn : node < p.graph.graph.size) (hnew : w.frames node = none)
    : Describes p none { w with frames := Function.update w.frames node (some f) }
        { s with frames := s.frames.set! node (some f) } :=
  { hs with
    frames := fun n => by
      rw [frameOf?_set! rfl (hs.framesSize ▸ hn), funext hs.frames]
    framesSize := by simp [hs.framesSize]
    inFrames := fun n g hg => by
      by_cases h : n = node
      · subst h
        obtain rfl : f = g := by simpa using hg
        exact hf
      · exact hs.inFrames n g (by simpa [h] using hg)
    merges := fun m hm => by
      refine (hs.merges m hm).mono _ (fun _ hr => hr) fun n g hg => ?_
      by_cases h : n = node
      · rw [h, hnew] at hg
        cases hg
      · simp [h, hg]
    refined := ⟨hs.refined.entries, hs.refined.given⟩ }

theorem ensures_predecessorFrame
    : Ensures (Describes p none) w (predecessorFrame p node) fun _ f =>
        ∃ u, p.graph.graph.singlePredecessor node = .ok u ∧ w.frames u = some f := by
  refine Ensures.lift_bind fun u hu => Ensures.get_bind fun s hs => ?_
  split
  next f hf => exact .pure ⟨u, hu, hs.frames u ▸ hf⟩
  next => exact .throw

/-- The frame after a node. -/
def frameAfter (p : Plan) (number : Nat) : LiftM Frame :=
  match p.node? number with
  | none => pure p.entryFrame
  | some (.label l) => simulateLabel p number l
  | some node => do simulate p number node (← predecessorFrame p number)

theorem visit_eq (p : Plan) (number : Nat)
    : visit p number = (frameAfter p number >>= fun f =>
        modify fun s => { s with frames := s.frames.set! number (some f) }) := by
  unfold visit frameAfter
  cases p.node? number with
  | none => rfl
  | some content => cases content <;> simp

theorem ensures_frameAfter (once : p.RetypesOnce) {s : LiftState} (hs : w.Describes p none s)
    (hn : node < p.graph.graph.size) (hb : p.retypedAt node s ⊆ p.retyped)
    : Ensures (Describes p none) w (frameAfter p node) fun w' f => f.Within w'.Has := by
  unfold frameAfter
  split
  next => exact .pure p.within_entryFrame
  next l _ => exact labelRules_describes.simulateLabel
  next content _ _ =>
    refine ensures_predecessorFrame.bind fun w₁ f hw₁ ⟨u, hu, hf⟩ => ?_
    refine ensures_simulate once ((hs.inFrames u f hf).mono fun _ => Has.mono hw₁) hn ?_
    intro d hd
    have hf : s.frameOf? u = some f := (hs.frames u).trans hf
    simpa [Plan.retypedAt, hd, hu, hf] using hb

/-- Simulating a node for the first time. -/
theorem describes_visit (once : p.RetypesOnce) {s s' : LiftState} (hs : w.Describes p none s)
    (hn : node < p.graph.graph.size) (hnew : w.frames node = none)
    (hb : p.retypedAt node s ⊆ p.retyped)
    (hx : (visit p node).run s = .ok ((), s'))
    : ∃ (w' : Inventory) (f : Frame), w'.Describes p none s'
        ∧ w'.frames = Function.update w.frames node (some f) := by
  rw [visit_eq] at hx
  obtain ⟨f, s₁, hf, hx⟩ := run_bind_eq_ok.mp hx
  cases hx
  obtain ⟨w', hw, hs₁, hf⟩ := ensures_frameAfter once hs hn hb s f s₁ hs hf
  exact ⟨_, f, describes_visited hs₁ hf hn (hw.frames ▸ hnew), by rw [hw.frames]⟩

-- Simulation

/-- Nothing is known about the first state. -/
def noRegisters : Inventory :=
  { made := 0
    type := fun _ => .top
    given := fun _ => none
    caught := fun _ => False
    assigned := fun _ => False
    frames := fun _ => none }

theorem describes_initial (p : Plan)
    : noRegisters.Describes p none (.initial p) where
  made := rfl
  frames n := by
    simp only [frameOf?, initial, Array.getD_eq_getD_getElem?,
      Array.getElem?_replicate, noRegisters]
    split <;> rfl
  codeSize := by simp [initial]
  framesSize := by simp [initial]
  inFrames n f hf := nomatch hf
  inCode n i hi := by
    simp only [codeOf, initial, Array.getD_eq_getD_getElem?,
      Array.getElem?_replicate] at hi
    split at hi <;> cases hi
  merges m hm := nomatch hm
  complete ms hM := nomatch hM
  refined := ⟨fun entry he => (nomatch he), fun i t ht => nomatch ht⟩
  assigned i hi := hi.elim
  sourced i hi := absurd hi (Nat.not_lt_zero i)
  caught i hi := hi.elim

/-- The induction is on the nodes that are left. -/
theorem describes_forM_visit (once : p.RetypesOnce) {done rest : List Nat} {s s' : LiftState}
    (horder : p.graph.graph.order = done ++ rest)
    (hevents : p.retypedIn rest s ⊆ p.retyped)
    (hs : w.Describes p none s)
    (hframes : ∀ n, w.frames n ≠ none ↔ n ∈ done)
    (hx : (rest.forM (visit p)).run s = .ok ((), s'))
    : ∃ w' : Inventory, w'.Describes p none s'
        ∧ ∀ n, w'.frames n ≠ none ↔ n ∈ p.graph.graph.order := by
  induction rest generalizing done s w with
  | nil =>
      cases hx
      rw [horder, List.append_nil]
      exact ⟨w, hs, hframes⟩
  | cons node rest ih =>
      obtain ⟨_, s₁, hx, hrest⟩ := run_bind_eq_ok.mp hx
      have hnodup := p.graph.graph.nodup_order
      have hn : node < p.graph.graph.size := p.graph.graph.lt_size_of_mem_order (by simp [horder])
      have hfresh : node ∉ done := by
        rw [horder] at hnodup
        exact fun h => (List.nodup_append.mp hnodup).2.2 _ h _ (by simp) rfl
      have hnew : w.frames node = none := by
        by_contra h
        exact hfresh ((hframes node).mp h)
      rw [Plan.retypedIn, Plan.statesBefore, hx, List.flatMap_cons] at hevents
      obtain ⟨w₁, f, hs₁, hf₁⟩ :=
        describes_visit once hs hn hnew (List.append_subset.mp hevents).1 hx
      refine ih (List.append_cons .. ▸ horder) (List.append_subset.mp hevents).2 hs₁ ?_ hrest
      intro n
      rw [hf₁]
      by_cases h : n = node
      · simp [h]
      · simp [h, hframes n]

/-- After the simulation the inventory has the frames of all nodes in the order. -/
theorem describes_simulated (once : p.RetypesOnce) {s : LiftState}
    (hx : (p.graph.graph.order.forM (visit p)).run (.initial p) = .ok ((), s))
    : ∃ w : Inventory, w.Describes p none s ∧ ∀ n, w.frames n ≠ none ↔ n ∈ p.graph.graph.order :=
  describes_forM_visit once (List.nil_append _).symm (List.Subset.refl _) (describes_initial p)
    (by simp [noRegisters]) hx

end LiftM

end StackLift
