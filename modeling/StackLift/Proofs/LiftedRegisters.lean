import StackLift.Proofs.SimulationRules
import StackLift.Proofs.Substitutions

/-!
The registers that lifting makes. Each of them has the type it was made with, until a stack map
frame gives it another one, and each is assigned from something older than itself, unless a handler
binds it.
-/

namespace StackLift

-- Types from stack map frames

/-- The values of a frame with the types that are declared for their places. -/
def DeclaredTypes.declaredValues (d : DeclaredTypes) (f : Frame) : List (Value × TypeName) :=
  (List.range d.locals.length).filterMap (fun slot =>
      (f.local? slot).bind fun v => (d.type? slot).map (v, ·))
    ++ f.stack.reverse.zip d.stack

/-- The registers of a frame that get another type, with this type. -/
def DeclaredTypes.retyped (d : DeclaredTypes) (f : Frame) : List (Nat × TypeName) :=
  (d.declaredValues f).filterMap fun
    | (.register r, type) => if refines r type then some (r.index, type) else none
    | _ => none

variable {r : Register}

theorem DeclaredTypes.mem_retyped {d : DeclaredTypes} {f : Frame} {type : TypeName}
    (h : (.register r, type) ∈ d.declaredValues f) (hr : refines r type)
    : (r.index, type) ∈ d.retyped f :=
  List.mem_filterMap.mpr ⟨_, h, by simp [hr]⟩

/-- The nodes with the states before they are simulated, up to the first that fails. -/
def Plan.statesBefore (p : Plan) : List Nat → LiftState → List (Nat × LiftState)
  | [], _ => []
  | node :: rest, s => (node, s) :: match (LiftM.visit p node).run s with
    | .ok (_, s) => p.statesBefore rest s
    | .error _ => []

/-- The registers that the stack map frame at a node gives another type. -/
def Plan.retypedAt (p : Plan) (node : Nat) (s : LiftState) : List (Nat × TypeName) :=
  match p.declared.lookup node, p.graph.graph.singlePredecessor node with
  | some d, .ok u => ((s.frameOf? u).map d.retyped).getD []
  | _, _ => []

/-- The registers that stack map frames give another type while the nodes are simulated. -/
def Plan.retypedIn (p : Plan) (nodes : List Nat) (s : LiftState) : List (Nat × TypeName) :=
  (p.statesBefore nodes s).flatMap fun (node, s) => p.retypedAt node s

def Plan.retyped (p : Plan) : List (Nat × TypeName) :=
  p.retypedIn p.graph.graph.order (.initial p)

/-- No register is given two different types. -/
def Plan.RetypesOnce (p : Plan) : Prop :=
  ∀ e ∈ p.retyped, ∀ e' ∈ p.retyped, e.1 = e'.1 → e.2 = e'.2

instance (p : Plan) : Decidable p.RetypesOnce :=
  inferInstanceAs (Decidable (∀ e ∈ p.retyped, ∀ e' ∈ p.retyped, e.1 = e'.1 → e.2 = e'.2))

-- Inventories

/-- What is known about the registers during lifting. -/
structure Inventory where
  /-- The number of registers that were made. -/
  made : Nat
  /-- The type that each register was made with. -/
  type : Nat → TypeName
  /-- The type that stack map frames have given to a register. -/
  given : Nat → Option TypeName
  /-- The registers bound by handlers. -/
  caught : Nat → Prop
  /-- The registers that the code assigns from something older. -/
  assigned : Nat → Prop
  /-- The frames after the nodes that were simulated. -/
  frames : Nat → Option Frame

namespace Inventory

/-- What is known about registers stays so, and no other node was simulated. -/
structure Extends (w w' : Inventory) : Prop where
  made : w.made ≤ w'.made
  type : ∀ i < w.made, w'.type i = w.type i
  given : ∀ i < w.made, ∀ t, w.given i = some t → w'.given i = some t
  caught : ∀ i, w.caught i → w'.caught i
  assigned : ∀ i, w.assigned i → w'.assigned i
  frames : w'.frames = w.frames

instance : Preorder Inventory where
  le := Extends
  le_refl _ :=
    { made := Nat.le_refl _
      type := fun _ _ => rfl
      given := fun _ _ _ h => h
      caught := fun _ h => h
      assigned := fun _ h => h
      frames := rfl }
  le_trans _ _ _ h h' :=
    { made := Nat.le_trans h.made h'.made
      type := fun i hi => (h'.type i (Nat.lt_of_lt_of_le hi h.made)).trans (h.type i hi)
      given := fun i hi t ht => h'.given i (Nat.lt_of_lt_of_le hi h.made) t (h.given i hi t ht)
      caught := fun i hi => h'.caught i (h.caught i hi)
      assigned := fun i hi => h'.assigned i (h.assigned i hi)
      frames := h'.frames.trans h.frames }

/-- The register was made, and has the type it was made with or the one it was given. -/
def Has (w : Inventory) (r : Register) : Prop :=
  r.index < w.made ∧ (r.type = w.type r.index ∨ w.given r.index = some r.type)

theorem Has.mono {w w' : Inventory} (h : w ≤ w') (hr : w.Has r)
    : w'.Has r := by
  refine ⟨Nat.lt_of_lt_of_le hr.1 h.made, hr.2.imp (fun ht => ?_) (h.given _ hr.1 _)⟩
  rw [h.type _ hr.1, ht]

/-- The inventory with one more register. -/
def add (w : Inventory) (type : TypeName) : Inventory :=
  { w with made := w.made + 1, type := Function.update w.type w.made type }

/-- The inventory with a register that was given a type. -/
def give (w : Inventory) (index : Nat) (type : TypeName) : Inventory :=
  { w with given := Function.update w.given index (some type) }

/-- The inventory with a register that the code assigns. -/
def assign (w : Inventory) (index : Nat) : Inventory :=
  { w with assigned := fun i => w.assigned i ∨ i = index }

theorem le_assign (w : Inventory) (index : Nat)
    : w ≤ w.assign index :=
  { le_refl w with assigned := fun _ => .inl }

theorem le_add (w : Inventory) (type : TypeName)
    : w ≤ w.add type :=
  { le_refl w with
    made := Nat.le_succ _
    type := fun _ hi => Function.update_of_ne (Nat.ne_of_lt hi) _ _ }

theorem has_add {w : Inventory} (h : r.index = w.made)
    : (w.add r.type).Has r :=
  ⟨h ▸ Nat.lt_succ_self _, .inl (by simp [add, h])⟩

end Inventory

-- States of an inventory

/-- The code assigns the register from something older. -/
def AssignsFromOlder (code : List Inst) (index : Nat) : Prop :=
  ∃ r e, Inst.assign (.register r) e ∈ code ∧ r.index = index
    ∧ ∀ q, e.register? = some q → q.index < index

namespace Inventory

variable {p : Plan} {M : Option (List Merge)} {w w' : Inventory} {s s' : LiftState}

/-- The entries replace registers by themselves, with the type they were given. -/
structure Refined (p : Plan) (w : Inventory) (m : Substitution) : Prop where
  entries : ∀ entry ∈ m, ∃ q, entry.1 = RegisterKey.value (q.index, w.type q.index)
    ∧ entry.2 = .register q ∧ w.given q.index = some q.type
  given : ∀ i t, w.given i = some t → i < w.made ∧ (i, t) ∈ p.retyped
    ∧ ValueMap.find? m (RegisterKey.value (i, w.type i)) ≠ none

/-- A register of a join, into which some predecessor has to copy a value that is older. -/
def Merges (p : Plan) (w : Inventory) (m : Merge) : Prop :=
  w.Has m.target ∧ ∃ u ∈ p.graph.graph.predecessors m.node, ∃ f v, w.frames u = some f
    ∧ m.place.value? f = some v ∧ v.Within fun q => q.index < m.target.index

/-- The inventory describes the state. Once the nodes are simulated, the registers of joins are
given.
-/
structure Describes (p : Plan) (M : Option (List Merge)) (w : Inventory) (s : LiftState) :
    Prop where
  made : s.registers.next = w.made
  frames : ∀ n, s.frameOf? n = w.frames n
  codeSize : s.code.size = p.graph.graph.size
  framesSize : s.frames.size = p.graph.graph.size
  inFrames : ∀ n f, w.frames n = some f → f.Within w.Has
  inCode : ∀ n, ∀ i ∈ s.codeOf n, i.Within w.Has
  merges : ∀ m ∈ s.merges, w.Merges p m
  complete : ∀ merges, M = some merges → s.merges = merges
  refined : w.Refined p s.refinements
  assigned : ∀ i, w.assigned i → ∃ n, AssignsFromOlder (s.codeOf n) i
  sourced : ∀ i < w.made, w.assigned i ∨ w.caught i ∨ ∃ m ∈ s.merges, m.target.index = i
  caught : ∀ i, w.caught i → p.method.ranges ≠ []

theorem Merges.mono {m : Merge} (hm : w.Merges p m) (w' : Inventory)
    (h : ∀ r, w.Has r → w'.Has r)
    (hframes : ∀ n f, w.frames n = some f → w'.frames n = some f)
    : w'.Merges p m := by
  obtain ⟨ht, u, hu, f, v, hf, hv, hold⟩ := hm
  exact ⟨h _ ht, u, hu, f, v, hframes u f hf, hv, hold⟩

theorem Merges.of_le (h : w ≤ w') {m : Merge} (hm : w.Merges p m)
    : w'.Merges p m :=
  hm.mono w' (fun _ => Has.mono h) fun _ _ hf => h.frames ▸ hf

theorem Refined.mono (h : w ≤ w') (hg : w'.given = w.given) {m : Substitution}
    (hm : w.Refined p m)
    : w'.Refined p m where
  entries entry he := by
    obtain ⟨q, hk, hq, hgiven⟩ := hm.entries entry he
    refine ⟨q, ?_, hq, hg ▸ hgiven⟩
    rw [hk, h.type _ (hm.given _ _ hgiven).1]
  given i t ht := by
    obtain ⟨hi, hr, hl⟩ := hm.given i t (hg ▸ ht)
    exact ⟨Nat.lt_of_lt_of_le hi h.made, hr, by rwa [h.type i hi]⟩

/-- A step that makes registers, merges and code leads to a state of the grown inventory. -/
theorem Describes.extend (h : w.Describes p M s) (hw : w ≤ w') (hgiven : w'.given = w.given)
    (made : s'.registers.next = w'.made) (frames : s'.frames = s.frames)
    (codeSize : s'.code.size = s.code.size) (refinements : s'.refinements = s.refinements)
    (keeps : ∀ n i, i ∈ s.codeOf n → i.isBranching = false → i ∈ s'.codeOf n)
    (inCode : ∀ n, ∀ i ∈ s'.codeOf n, i ∈ s.codeOf n ∨ i.Within w'.Has)
    (kept : s.merges ⊆ s'.merges) (merges : ∀ m ∈ s'.merges, m ∈ s.merges ∨ w'.Merges p m)
    (complete : M = none ∨ s'.merges = s.merges)
    (assigned : ∀ i, w'.assigned i → w.assigned i ∨ ∃ n, AssignsFromOlder (s'.codeOf n) i)
    (sourced : ∀ i < w'.made, i < w.made ∨ w'.assigned i ∨ w'.caught i
      ∨ ∃ m ∈ s'.merges, m.target.index = i)
    (caught : ∀ i, w'.caught i → w.caught i ∨ p.method.ranges ≠ [])
    : w'.Describes p M s' where
  made := made
  frames n := by
    rw [hw.frames, ← h.frames n, LiftState.frameOf?, LiftState.frameOf?, frames]
  codeSize := codeSize.trans h.codeSize
  framesSize := frames ▸ h.framesSize
  inFrames n f hf := (h.inFrames n f (hw.frames ▸ hf)).mono fun _ => Has.mono hw
  inCode n i hi := (inCode n i hi).elim
    (fun hi => (h.inCode n i hi).mono fun _ => Has.mono hw) id
  merges m hm := (merges m hm).elim (fun hm => (h.merges m hm).of_le hw) id
  complete ms hM := complete.elim (fun hnone => by simp [hnone] at hM) fun heq =>
    heq.trans (h.complete ms hM)
  refined := refinements ▸ h.refined.mono hw hgiven
  assigned i hi := by
    refine (assigned i hi).elim (fun hi => ?_) id
    obtain ⟨n, r, e, hm, hr, hq⟩ := h.assigned i hi
    exact ⟨n, r, e, keeps n _ hm rfl, hr, hq⟩
  sourced i hi := by
    rcases sourced i hi with hlt | hnew
    · rcases h.sourced i hlt with ha | hc | ⟨m, hm, he⟩
      · exact .inl (hw.assigned i ha)
      · exact .inr (.inl (hw.caught i hc))
      · exact .inr (.inr ⟨m, kept hm, he⟩)
    · exact hnew
  caught i hi := (caught i hi).elim (h.caught i) id

/-- A step that only adds code. -/
theorem Describes.recode (h : w.Describes p M s) (next : s'.registers.next = s.registers.next)
    (frames : s'.frames = s.frames) (codeSize : s'.code.size = s.code.size)
    (refinements : s'.refinements = s.refinements) (merges : s'.merges = s.merges)
    (keeps : ∀ n i, i ∈ s.codeOf n → i.isBranching = false → i ∈ s'.codeOf n)
    (inCode : ∀ n, ∀ i ∈ s'.codeOf n, i ∈ s.codeOf n ∨ i.Within w.Has)
    : w.Describes p M s' :=
  h.extend (le_refl w) rfl (next.trans h.made) frames codeSize refinements keeps inCode
    (fun _ hm => merges ▸ hm) (fun _ hm => .inl (merges ▸ hm)) (.inr merges) (fun _ => .inl)
    (fun _ => .inl) (fun _ => .inl)

end Inventory

-- Emitting code

theorem codeOf_modify {s : LiftState} {code : Array (List Inst)} {node : Nat}
    {edit : List Inst → List Inst} (h : code = s.code.modify node edit) (n : Nat)
    : code.getD n [] = if node = n ∧ n < s.code.size then edit (s.codeOf n) else s.codeOf n := by
  subst h
  simp only [LiftState.codeOf, Array.getD_eq_getD_getElem?, Array.getElem?_modify]
  by_cases hn : node = n <;> by_cases hlt : n < s.code.size <;> simp [hn, hlt]

namespace Registers

theorem next_unite (rs : Registers) (r q : Register)
    : (rs.unite r q).next = rs.next := by
  simp only [unite]
  split
  · rfl
  · split <;> rfl

@[simp] theorem next_assign (rs : Registers) (target : Value) (source : Expr)
    : (rs.assign target source).2.next = rs.next := by
  simp only [assign]
  split
  · split
    · exact next_unite _ _ _
    · rfl
  · rfl

@[simp] theorem fst_assign (rs : Registers) (target : Value) (source : Expr)
    : (rs.assign target source).1 = .assign target source := rfl

end Registers

theorem Plan.index_variableRegister (p : Plan) (node slot : Nat) (r : Register)
    (rs : Registers)
    : (p.variableRegister node slot r rs).1.index = r.index
      ∧ (p.variableRegister node slot r rs).2.next = rs.next := by
  unfold Plan.variableRegister
  split
  · exact ⟨rfl, rfl⟩
  · dsimp only
    split <;> exact ⟨rfl, rfl⟩

namespace LiftM

variable {p : Plan} {M : Option (List Merge)} {w : Inventory} {node : Nat}

open Inventory

theorem ensures_editCode {edit : List Inst → List Inst}
    (keeps : ∀ code, ∀ i ∈ code, i ∈ edit code)
    (adds : ∀ code, ∀ i ∈ edit code, i ∈ code ∨ i.Within w.Has)
    : Ensures (Describes p M) w (editCode node edit) fun _ _ => True := by
  intro s _ s' hs hx
  cases hx
  refine ⟨w, le_refl w, hs.recode rfl rfl (by simp) rfl rfl ?_ ?_, trivial⟩
  · intro n i hi _
    rw [LiftState.codeOf, codeOf_modify rfl]
    split
    · exact keeps _ i hi
    · exact hi
  · intro n i hi
    rw [LiftState.codeOf, codeOf_modify rfl] at hi
    split at hi
    · exact adds _ i hi
    · exact .inl hi

theorem ensures_emit {i : Inst} (hi : i.Within w.Has)
    : Ensures (Describes p M) w (emit node i) fun _ _ => True :=
  ensures_editCode (fun _ _ => List.mem_append_left _) fun _ j hj =>
    (List.mem_append.mp hj).imp id fun hj => by rwa [List.mem_singleton.mp hj]

/-- Assigning a fresh register at the end of a node adds it to the inventory. -/
theorem describes_made {s s' : LiftState} (hs : w.Describes p M s) {e : Expr}
    (hr : r.index = w.made) (he : e.Within w.Has) (hn : node < p.graph.graph.size)
    (next : s'.registers.next = s.registers.next + 1) (frames : s'.frames = s.frames)
    (code : s'.code = s.code.modify node (· ++ [.assign (.register r) e]))
    (refinements : s'.refinements = s.refinements) (merges : s'.merges = s.merges)
    : ((w.add r.type).assign r.index).Describes p M s' := by
  have hle : w ≤ (w.add r.type).assign r.index := le_trans (w.le_add _) (le_assign _ _)
  have hcode : ∀ n, s'.codeOf n = if node = n ∧ n < s.code.size
      then s.codeOf n ++ [.assign (.register r) e] else s.codeOf n :=
    codeOf_modify code
  refine hs.extend hle rfl (by rw [next, hs.made]; rfl) frames (by simp [code])
    refinements ?_ ?_ (fun _ hm => merges ▸ hm) (fun _ hm => .inl (merges ▸ hm)) (.inr merges)
    ?_ ?_ (fun _ => .inl)
  · intro n j hj _
    rw [hcode]
    split <;> simp [hj]
  · intro n j hj
    rw [hcode] at hj
    split at hj
    · refine (List.mem_append.mp hj).imp id fun hj => ?_
      rw [List.mem_singleton.mp hj, Inst.within_assign_register]
      exact ⟨(has_add hr).mono (le_assign _ _), he.mono fun _ => Has.mono hle⟩
    · exact .inl hj
  · rintro i (hi | rfl)
    · exact .inl hi
    · refine .inr ⟨node, r, e, ?_, rfl, fun q hq => ?_⟩
      · rw [hcode, if_pos ⟨rfl, hs.codeSize ▸ hn⟩]
        simp
      · cases e with
        | value v =>
            cases v <;> cases hq
            exact hr ▸ (Value.within_register.mp he).1
        | _ => cases hq
  · intro i hi
    rcases Nat.lt_succ_iff_lt_or_eq.mp hi with hi | hi
    · exact .inl hi
    · exact .inr (.inl (.inr (hi.trans hr.symm)))

/-- A register that was just made is in the inventory. -/
theorem has_made (hr : r.index = w.made)
    : ((w.add r.type).assign r.index).Has r :=
  (has_add hr).mono (le_assign _ _)

theorem le_made (r : Register)
    : w ≤ (w.add r.type).assign r.index :=
  le_trans (w.le_add _) (le_assign _ _)

theorem ensures_compute {e : Expr} (he : e.Within w.Has) (hn : node < p.graph.graph.size)
    : Ensures (Describes p M) w (compute node e) fun w' r => w'.Has r := by
  intro s r s' hs hx
  cases hx
  exact ⟨_, le_made _, describes_made hs hs.made he hn (Registers.next_assign _ _ _) rfl rfl rfl
    rfl, has_made hs.made⟩

-- Stores

theorem ensures_storeFresh {slot : Nat} {f : Frame} {type : TypeName} {value : Value}
    (hf : f.Within w.Has) (hv : value.Within w.Has) (hn : node < p.graph.graph.size)
    : Ensures (Describes p M) w (storeFresh p node slot f type value)
        fun w' f' => f'.Within w'.Has := by
  intro s f' s' hs hx
  cases hx
  have hr := (p.index_variableRegister node slot (.fresh s.registers.next type)
    { s.registers with next := s.registers.next + 1 })
  have hmade := hr.1.trans hs.made
  refine ⟨_, le_made _, describes_made hs hmade (Expr.within_value.mpr hv) hn ?_ rfl rfl
    rfl rfl, ?_⟩
  · exact (Registers.next_assign _ _ _).trans hr.2
  · exact (hf.mono fun _ => Has.mono (le_made _)).putLocal
      (Value.within_register.mpr (has_made hmade))

theorem ensures_assign {target : Register} {e : Expr} (ht : w.Has target) (he : e.Within w.Has)
    : Ensures (Describes p M) w (assign node (.register target) e) fun _ _ => True := by
  intro s u s' hs hx
  refine ensures_emit (Inst.within_assign_register.mpr ⟨ht, he⟩)
    { s with registers := (s.registers.assign (.register target) e).2 } u s' ?_ hx
  exact hs.recode (by simp) rfl rfl rfl rfl (fun _ _ hi _ => hi) (fun _ _ hi => .inl hi)

theorem ensures_freshLabel
    : Ensures (Describes p M) w freshLabel fun _ _ => True := by
  intro s l s' hs hx
  cases hx
  exact ⟨w, le_refl w, hs.recode rfl rfl rfl rfl rfl (fun _ _ hi _ => hi) fun _ _ => .inl, trivial⟩

theorem rules_describes (hn : node < p.graph.graph.size)
    : Rules p node (Describes p M) Has where
  lasting _ := fun hw => Has.mono hw
  freshLabel := ensures_freshLabel
  emit := ensures_emit
  compute he := ensures_compute he hn
  assign := ensures_assign
  storeFresh hf hv := ensures_storeFresh hf hv hn

end LiftM

end StackLift
