import StackLift.Proofs.DefiniteReads
import StackLift.Proofs.LiftedCode

/-!
What the code of simulated nodes reads. The code of a node reads registers of the frame before it
and those that it assigns itself, and the frame after it holds no others. The frame of a label holds
registers that all its predecessors have, and those into which they have to copy.
-/

namespace StackLift

open LiftState

variable {A K F : Set RegisterKey} {p : Plan} {node : Nat} {s s' start : LiftState}

-- Registers of frames

/-- The registers of a frame. -/
def Frame.keys (f : Frame) : Set RegisterKey :=
  {x | ∃ v, (some v ∈ f.locals ∨ v ∈ f.stack) ∧ x ∈ keysOf v.subvalues}

theorem Value.within_keys {v : Value}
    : v.Within (·.key ∈ A) ↔ ∀ x ∈ keysOf v.subvalues, x ∈ A := by
  constructor
  · intro h x hx
    obtain ⟨r, hr, rfl⟩ := mem_keysOf.mp hx
    exact h r hr
  · exact fun h r hr => h _ (mem_keysOf.mpr ⟨r, hr, rfl⟩)

theorem Frame.within_keys {f : Frame}
    : f.Within (·.key ∈ A) ↔ f.keys ⊆ A := by
  constructor
  · intro h x ⟨v, hv, hx⟩
    rcases hv with hv | hv
    · exact Value.within_keys.mp (h.locals v hv) x hx
    · exact Value.within_keys.mp (h.stack v hv) x hx
  · intro h
    exact ⟨fun v hv => Value.within_keys.mpr fun x hx => h ⟨v, .inl hv, hx⟩,
      fun v hv => Value.within_keys.mpr fun x hx => h ⟨v, .inr hv, hx⟩⟩

theorem Inst.Within.readKeys {i : Inst} (h : i.Within (·.key ∈ A))
    : ∀ x ∈ i.readKeys, x ∈ A := by
  intro x hx
  obtain ⟨r, hr, rfl⟩ := mem_keysOf.mp hx
  apply h.registers r
  cases i with
  | assign target source =>
      rcases List.mem_append.mp hr with hr | hr
      · simp only [Inst.subvalues, Inst.operands, List.flatMap_cons, List.mem_append]
        exact .inl (by cases target <;> simp_all [Value.operands, Expr.subvalues, Value.subvalues])
      · simp [Inst.subvalues, Inst.operands, hr]
  | catches => cases hr
  | _ => exact hr

theorem Expr.Within.readKeys_assign {r : Register} {e : Expr} (h : e.Within (·.key ∈ A))
    : ∀ x ∈ (Inst.assign (.register r) e).readKeys, x ∈ A := by
  intro x hx
  obtain ⟨q, hq, rfl⟩ := mem_keysOf.mp hx
  exact h q (by simpa [Inst.readValues, Value.operands] using hq)

-- Code of a node

/-- The registers of the frame after a node. -/
def LiftState.keysAfter (s : LiftState) (n : Nat) : Set RegisterKey :=
  {x | ∃ f, s.frameOf? n = some f ∧ x ∈ f.keys}

/-- Where the first registers are assigned, the code can run, and after it the second are. -/
structure Supplies (K F : Set RegisterKey) (code : List Inst) : Prop where
  reads : ReadsAssigned K code
  assigned : F ⊆ K ∪ assignedIn code

theorem Supplies.nil (K : Set RegisterKey)
    : Supplies K K [] :=
  ⟨trivial, Set.subset_union_left⟩

variable {code : List Inst}

theorem Supplies.append (h : Supplies K F code) {i : Inst} (hi : ∀ x ∈ i.readKeys, x ∈ F)
    : Supplies K (F ∪ {x | i.assigned? = some x}) (code ++ [i]) where
  reads := h.reads.concat fun x hx => h.assigned (hi x hx)
  assigned := by
    rw [assignedIn_append, ← Set.union_assoc]
    exact Set.union_subset_union h.assigned (by simp)

theorem Supplies.mono {K' F' : Set RegisterKey} (h : Supplies K F code) (hK : K ⊆ K') (hF : F' ⊆ F)
    : Supplies K' F' code :=
  ⟨h.reads.mono hK, hF.trans (h.assigned.trans (Set.union_subset_union_left _ hK))⟩

/-- The registers into which joins copy were made. -/
def LiftState.MergesMade (s : LiftState) : Prop :=
  ∀ m ∈ s.merges, m.target.index < s.registers.next

/-- Steps at one node leave the code of the others, and all frames. -/
structure Keeps (node : Nat) (s s' : LiftState) : Prop where
  size : s'.code.size = s.code.size
  code : ∀ n, n ≠ node → s'.codeOf n = s.codeOf n
  frames : s'.frames = s.frames
  refinements : s'.refinements = s.refinements
  merges : s.merges ⊆ s'.merges
  made : s.MergesMade → s'.MergesMade

theorem Keeps.refl (node : Nat) (s : LiftState)
    : Keeps node s s :=
  ⟨rfl, fun _ _ => rfl, rfl, rfl, List.Subset.refl _, id⟩

/-- The state while a node is simulated. -/
structure Simulating (node : Nat) (K : Set RegisterKey) (start : LiftState)
    (A : Set RegisterKey) (s : LiftState) : Prop where
  supplies : Supplies K A (s.codeOf node)
  keeps : Keeps node start s

theorem Simulating.append (hs : Simulating node K start A s) (hn : node < start.code.size)
    {i : Inst} (hi : ∀ x ∈ i.readKeys, x ∈ A)
    (code : s'.code = s.code.modify node (· ++ [i])) (frames : s'.frames = s.frames)
    (refinements : s'.refinements = s.refinements) (merges : s'.merges = s.merges)
    (next : s.registers.next ≤ s'.registers.next)
    : Simulating node K start (A ∪ {x | i.assigned? = some x}) s' := by
  have hcode : ∀ n, s'.codeOf n = if node = n ∧ n < s.code.size
      then s.codeOf n ++ [i] else s.codeOf n := codeOf_modify code
  refine ⟨?_, ?_⟩
  · rw [hcode, if_pos ⟨rfl, hs.keeps.size ▸ hn⟩]
    exact hs.supplies.append hi
  · refine ⟨by simp [code, hs.keeps.size], fun n hne => ?_, frames.trans hs.keeps.frames,
      refinements.trans hs.keeps.refinements, merges ▸ hs.keeps.merges, fun h m hm => ?_⟩
    · rw [hcode, if_neg fun h => hne h.1.symm]
      exact hs.keeps.code n hne
    · exact Nat.lt_of_lt_of_le (hs.keeps.made h m (merges ▸ hm)) next

namespace LiftM

theorem rules_simulating (hn : node < start.code.size)
    : Rules p node (Simulating node K start) fun A r => r.key ∈ A where
  lasting _ := fun hw hr => hw hr
  freshLabel := by
    intro A s l s' hs hx
    cases hx
    exact ⟨A, le_refl A, ⟨hs.supplies, { hs.keeps with }⟩, trivial⟩
  emit := by
    intro A i hi s _ s' hs hx
    cases hx
    exact ⟨_, Set.subset_union_left,
      hs.append hn hi.readKeys rfl rfl rfl rfl (Nat.le_refl _), trivial⟩
  compute := by
    intro A e he s r s' hs hx
    cases hx
    refine ⟨_, Set.subset_union_left,
      hs.append hn he.readKeys_assign rfl rfl rfl rfl ?_, .inr rfl⟩
    let fresh := s.registers.fresh e.type
    have hnext : (fresh.2.assign (.register fresh.1) e).2.next = s.registers.next + 1 :=
      Registers.next_assign ..
    exact Nat.le_trans (Nat.le_succ _) (Nat.le_of_eq hnext.symm)
  assign := by
    intro A r e hr he s _ s' hs hx
    cases hx
    have hnext := Registers.next_assign s.registers (.register r) e
    exact ⟨_, Set.subset_union_left,
      hs.append hn he.readKeys_assign rfl rfl rfl rfl (Nat.le_of_eq hnext.symm), trivial⟩
  storeFresh := by
    intro A slot f type value hf hv s f' s' hs hx
    cases hx
    let fresh := s.registers.fresh type
    let named := p.variableRegister node slot fresh.1 fresh.2
    have hnext : (named.2.assign (.register named.1) (.value value)).2.next
        = s.registers.next + 1 :=
      (Registers.next_assign ..).trans (p.index_variableRegister node slot fresh.1 fresh.2).2
    refine ⟨_, Set.subset_union_left,
      hs.append hn (Expr.within_value.mpr hv).readKeys_assign rfl rfl rfl rfl ?_, ?_⟩
    · exact Nat.le_trans (Nat.le_succ _) (Nat.le_of_eq hnext.symm)
    · exact (hf.mono fun _ => .inl).putLocal (Value.within_register.mpr (.inr rfl))

/-- A branch assigns nothing. -/
def Exiting (node : Nat) (K : Set RegisterKey) (start : LiftState) (A : Set RegisterKey)
    (s : LiftState) : Prop :=
  Simulating node K start A s ∧ assignedIn (s.codeOf node) = ∅

theorem exitRules_exiting (hn : node < start.code.size)
    : ExitRules node (Exiting node K start) fun A r => r.key ∈ A where
  lasting _ := fun hw hr => hw hr
  freshLabel := by
    intro A s l s' hs hx
    cases hx
    exact ⟨A, le_refl A, ⟨⟨hs.1.supplies, { hs.1.keeps with }⟩, hs.2⟩, trivial⟩
  emit := by
    intro A i hi hassigned s _ s' hs hx
    cases hx
    refine ⟨_, Set.subset_union_left,
      ⟨hs.1.append hn hi.readKeys rfl rfl rfl rfl (Nat.le_refl _), ?_⟩, trivial⟩
    rw [codeOf, codeOf_modify rfl]
    split
    · simp [hs.2, hassigned]
    · exact hs.2

theorem Simulating.of_start (hcode : s.codeOf node = []) (K : Set RegisterKey)
    : Simulating node K s K s :=
  ⟨hcode ▸ .nil K, .refl node s⟩

/-- A node that is no label reads registers of the frame before it. -/
theorem simulating_simulate (hn : node < s.code.size) (hcode : s.codeOf node = [])
    {content : Node} (hcontent : ∀ frame, content ≠ .frame frame) {f g : Frame}
    (hx : (simulate p node content g).run s = .ok (f, s'))
    : Simulating node g.keys s f.keys s'
      ∧ ∀ b, content = .branch b → assignedIn (s'.codeOf node) = ∅ := by
  have hg : g.Within (·.key ∈ g.keys) := Frame.within_keys.mpr (Set.Subset.refl _)
  have hstart := Simulating.of_start hcode g.keys
  constructor
  · obtain ⟨A, -, hs, hf⟩ := (rules_simulating hn).simulate hg
      (fun frame h => absurd h (hcontent frame)) s f s' hstart hx
    exact ⟨hs.supplies.mono (Set.Subset.refl _) (Frame.within_keys.mp hf), hs.keeps⟩
  · intro b hb
    subst hb
    obtain ⟨A, -, hs, -⟩ := (exitRules_exiting hn).simulateBranch hg s f s'
      ⟨hstart, by simp [hcode]⟩ hx
    exact hs.2

-- Labels

/-- The state while the frames before a label are joined. Some copies are required by then. -/
structure Joining (node : Nat) (start : LiftState) (code : List Inst) (M : Set Merge)
    (s : LiftState) : Prop where
  keeps : Keeps node start s
  code : s.codeOf node = code
  merges : ∀ m ∈ M, m ∈ s.merges

/-- The frame of a label holds registers that all predecessors have, and those into which they have
to copy from a place that all known frames have.
-/
def JoinHas (p : Plan) (node : Nat) (start : LiftState) (M : Set Merge) (r : Register) : Prop :=
  (∀ u ∈ p.graph.graph.predecessors node, r.key ∈ start.keysAfter u)
    ∨ ∃ m ∈ M, m.node = node ∧ m.target = r ∧ ∀ u ∈ p.graph.graph.predecessors node,
      ∀ f, start.frameOf? u = some f → (m.place.value? f).isSome = true

theorem lasting_joinHas (r : Register)
    : Lasting fun M => JoinHas p node start M r :=
  fun hM h => h.imp id fun ⟨m, hm, h⟩ => ⟨m, hM hm, h⟩

theorem same_of_agreed? {vs : List Value} {v : Value} (h : agreed? vs = some v)
    : ∀ u ∈ vs, u.Same v := by
  cases vs with
  | nil => cases h
  | cons u rest =>
      simp only [agreed?] at h
      split at h
      next hall =>
        cases h
        refine List.forall_mem_cons.mpr ⟨by simp [Value.Same], fun u hu => ?_⟩
        exact of_decide_eq_true (List.all_eq_true.mp hall u hu)
      next => cases h

/-- A place on whose value all frames agree has registers of each frame. -/
theorem mem_keys_of_agreement {frames : List Frame} {allKnown : Bool} {place : Place} {v : Value}
    (hall : ∀ f ∈ frames, (place.value? f).isSome = true)
    (h : agreement frames allKnown place = some v)
    : allKnown = true ∧ ∀ f ∈ frames, v.Within (·.key ∈ f.keys) := by
  unfold agreement at h
  split at h
  next hknown =>
    refine ⟨hknown, fun f hf => ?_⟩
    obtain ⟨u, hu⟩ := Option.isSome_iff_exists.mp (hall f hf)
    have hsame : u.Same v := same_of_agreed? h u (List.mem_filterMap.mpr ⟨f, hf, hu⟩)
    have hwithin := within_place (Frame.within_keys.mpr (Set.Subset.refl f.keys)) hu
    exact hwithin.same (fun r q hk (hr : r.key ∈ f.keys) => hk ▸ hr) hsame.symm
  next => cases h

theorem mergesKnown_joining {M : Set Merge}
    : MergesKnown p node (Joining node start code) (JoinHas p node start) M := by
  intro s frames hs hframes hne M' hM place type hall
  have hknown : ∀ u ∈ p.graph.graph.predecessors node, ∀ f, start.frameOf? u = some f →
      f ∈ frames := by
    intro u hu f hf
    rw [← hframes]
    refine List.mem_filterMap.mpr ⟨u, hu, ?_⟩
    rwa [frameOf?, hs.keeps.frames]
  cases hagreed : agreement frames _ place with
  | some v =>
      obtain ⟨hlength, hkeys⟩ := mem_keys_of_agreement hall hagreed
      refine .pure fun r hr => .inl fun u hu => ?_
      have hlength := of_decide_eq_true hlength
      rw [← hframes] at hlength
      obtain ⟨f, hf⟩ := Option.isSome_iff_exists.mp
        (List.filterMap_length_eq_length.mp hlength u hu)
      rw [frameOf?, hs.keeps.frames] at hf
      exact ⟨f, hf, hkeys f (hknown u hu f hf) r hr⟩
  | none =>
      intro s₁ v s₂ hs₁ hx
      cases hx
      refine ⟨M' ∪ {{ node, place, target := .fresh s₁.registers.next type }},
        Set.subset_union_left, ⟨?_, hs₁.code, ?_⟩, ?_⟩
      · refine { hs₁.keeps with
          merges := fun m hm => List.mem_append_left _ (hs₁.keeps.merges hm)
          made := fun h m hm => ?_ }
        rcases List.mem_append.mp hm with hm | hm
        · exact Nat.lt_succ_of_lt (hs₁.keeps.made h m hm)
        · rw [List.mem_singleton.mp hm]
          exact Nat.lt_succ_self _
      · intro m hm
        rcases hm with hm | rfl
        · exact List.mem_append_left _ (hs₁.merges m hm)
        · exact List.mem_append_right _ List.mem_cons_self
      · refine Value.within_register.mpr (.inr ⟨_, .inr rfl, rfl, rfl, fun u hu f hf => ?_⟩)
        exact hall f (hknown u hu f hf)

/-- The frame of a single predecessor is the frame of the label. -/
theorem within_single {M : Set Merge} {u : Nat} {f : Frame} (hs : Joining node start code M s)
    (hu : p.graph.graph.predecessors node = [u]) (hf : s.frameOf? u = some f)
    : f.Within (JoinHas p node start M) := by
  have hkeys := Frame.within_keys.mpr (Set.Subset.refl f.keys)
  refine hkeys.mono fun r hr => .inl fun v hv => ?_
  rw [hu, List.mem_singleton] at hv
  rw [frameOf?, hs.keeps.frames] at hf
  exact ⟨f, hv ▸ hf, hr⟩

/-- The code of a label reads nothing, and its frame joins those of the predecessors. -/
theorem joining_simulateLabel (hranges : p.method.ranges = []) (hn : node < s.code.size)
    (hcode : s.codeOf node = []) {l : Label} {f : Frame}
    (hx : (simulateLabel p node l).run s = .ok (f, s'))
    : Keeps node s s' ∧ (∀ K, Supplies K K (s'.codeOf node))
      ∧ f.Within (JoinHas p node s {m | m ∈ s'.merges}) := by
  obtain ⟨c, s₁, hlabel, hx⟩ := run_bind_eq_ok.mp hx
  obtain rfl : s = s₁ := by
    obtain ⟨_, _, hget, hlabel⟩ := run_bind_eq_ok.mp hlabel
    cases hget
    split at hlabel <;> cases hlabel
    rfl
  obtain ⟨_, s₂, hemit, hx⟩ := run_bind_eq_ok.mp hx
  cases hemit
  rw [handledRanges_eq_nil hranges] at hx
  have hlabel : ∀ K, Simulating node K s K
      { s with code := s.code.modify node (· ++ [.label c]) } := by
    intro K
    have h : Simulating node K s (K ∪ {x | (Inst.label c).assigned? = some x})
        { s with code := s.code.modify node (· ++ [.label c]) } :=
      (Simulating.of_start hcode K).append hn nofun rfl rfl rfl rfl (Nat.le_refl _)
    simpa [Inst.assigned?] using h
  have hstart : Joining node s _ ∅ { s with code := s.code.modify node (· ++ [.label c]) } :=
    ⟨(hlabel ∅).keeps, rfl, fun m hm => hm.elim⟩
  obtain ⟨M, -, hs, hf⟩ := ensures_joinedFrame lasting_joinHas
    (fun _ _ _ => within_single) mergesKnown_joining _ f s' hstart hx
  refine ⟨hs.keeps, fun K => hs.code ▸ (hlabel K).supplies, hf.mono fun r => ?_⟩
  exact lasting_joinHas r fun m hm => hs.merges m hm

end LiftM

-- Simulation

/-- The registers of the frame before a node. That of a label is the frame after it. -/
def Plan.keysBefore (p : Plan) (s : LiftState) (n : Nat) : Set RegisterKey :=
  match p.node? n with
  | some (.label _) => s.keysAfter n
  | _ => {x | ∃ u, p.graph.graph.predecessors n = [u] ∧ x ∈ s.keysAfter u}

theorem Plan.keysBefore_label {n : Nat} {l : Label} (h : p.node? n = some (.label l))
    : p.keysBefore s n = s.keysAfter n := by
  rw [keysBefore, h]

theorem Plan.keysBefore_of_ne_label {n : Nat} (h : ∀ l, p.node? n ≠ some (.label l))
    : p.keysBefore s n
      = {x | ∃ u, p.graph.graph.predecessors n = [u] ∧ x ∈ s.keysAfter u} := by
  unfold keysBefore
  split
  next l hl => exact absurd hl (h l)
  next => rfl

/-- A register comes into a join from all predecessors, or they copy into it from a place that all
of them have which are simulated before the join.
-/
def Plan.Enters (p : Plan) (s : LiftState) (n : Nat) (x : RegisterKey) : Prop :=
  (∀ u ∈ p.graph.graph.predecessors n, x ∈ s.keysAfter u)
    ∨ ∃ m ∈ s.merges, m.node = n ∧ m.target.key = x
      ∧ ∀ u ∈ p.graph.graph.predecessors n, p.graph.graph.Precedes u n →
        ∃ f, s.frameOf? u = some f ∧ (m.place.value? f).isSome = true

/-- No frame is forgotten. -/
def FramesGrow (s s' : LiftState) : Prop :=
  ∀ n f, s.frameOf? n = some f → s'.frameOf? n = some f

theorem LiftState.keysAfter_mono (grow : FramesGrow s s') (n : Nat)
    : s.keysAfter n ⊆ s'.keysAfter n :=
  fun _ ⟨f, hf, hx⟩ => ⟨f, grow n f hf, hx⟩

theorem Plan.keysBefore_mono (grow : FramesGrow s s') (n : Nat)
    : p.keysBefore s n ⊆ p.keysBefore s' n := by
  unfold keysBefore
  split
  · exact keysAfter_mono grow n
  · exact fun _ ⟨u, hu, hx⟩ => ⟨u, hu, keysAfter_mono grow u hx⟩

theorem Plan.Enters.mono {n : Nat} {x : RegisterKey} (h : p.Enters s n x)
    (grow : FramesGrow s s') (merges : s.merges ⊆ s'.merges)
    : p.Enters s' n x := by
  rcases h with h | ⟨m, hm, hnode, htarget, hplace⟩
  · exact .inl fun u hu => keysAfter_mono grow u (h u hu)
  · refine .inr ⟨m, merges hm, hnode, htarget, fun u hu hbefore => ?_⟩
    obtain ⟨f, hf, hvalue⟩ := hplace u hu hbefore
    exact ⟨f, grow u f hf, hvalue⟩

/-- What is known once some nodes are simulated. -/
structure Prepared (p : Plan) (done : List Nat) (s : LiftState) : Prop where
  codeSize : s.code.size = p.graph.graph.size
  framesSize : s.frames.size = p.graph.graph.size
  frames : ∀ n, s.frameOf? n ≠ none ↔ n ∈ done
  fresh : ∀ n, n ∉ done → s.codeOf n = []
  refinements : s.refinements = []
  made : s.MergesMade
  supplies : ∀ n ∈ done, Supplies (p.keysBefore s n) (s.keysAfter n) (s.codeOf n)
  exits : ∀ n ∈ done, ∀ b, p.node? n = some (.branch b) → assignedIn (s.codeOf n) = ∅
  joins : ∀ n ∈ done, ∀ l, p.node? n = some (.label l) → ∀ x ∈ s.keysAfter n, p.Enters s n x

theorem prepared_initial (p : Plan)
    : Prepared p [] (.initial p) where
  codeSize := by simp [initial]
  framesSize := by simp [initial]
  frames n := by
    rw [(LiftM.describes_initial p).frames n]
    simp [LiftM.noRegisters]
  fresh n _ := by
    simp only [codeOf, initial, Array.getD_eq_getD_getElem?,
      Array.getElem?_replicate]
    split <;> rfl
  refinements := rfl
  made := nofun
  supplies := nofun
  exits := nofun
  joins := nofun

/-- A node was simulated, with the given frame after it. -/
structure Visited (node : Nat) (f : Frame) (s s' : LiftState) : Prop where
  codeSize : s'.code.size = s.code.size
  framesSize : s'.frames.size = s.frames.size
  code : ∀ n, n ≠ node → s'.codeOf n = s.codeOf n
  frames : ∀ n, s'.frameOf? n = Function.update s.frameOf? node (some f) n
  refinements : s'.refinements = s.refinements
  merges : s.merges ⊆ s'.merges
  made : s.MergesMade → s'.MergesMade

theorem Keeps.visited (keeps : Keeps node s s') (hn : node < s.frames.size) (f : Frame)
    : Visited node f s { s' with frames := s'.frames.set! node (some f) } where
  codeSize := keeps.size
  framesSize := by simp [keeps.frames]
  code := keeps.code
  frames n := by
    have hframes : s'.frameOf? = s.frameOf? := by
      funext n
      rw [frameOf?, keeps.frames, frameOf?]
    rw [LiftM.frameOf?_set! rfl (keeps.frames ▸ hn), hframes]
  refinements := keeps.refinements
  merges := keeps.merges
  made := keeps.made

namespace Visited

variable {f : Frame}

theorem keysAfter_self (h : Visited node f s s')
    : s'.keysAfter node = f.keys := by
  ext x
  simp [keysAfter, h.frames node]

theorem keysAfter_of_ne (h : Visited node f s s') {n : Nat} (hne : n ≠ node)
    : s'.keysAfter n = s.keysAfter n := by
  rw [keysAfter, h.frames n, Function.update_of_ne hne, keysAfter]

theorem grow (h : Visited node f s s') (hnew : s.frameOf? node = none)
    : FramesGrow s s' := by
  intro n g hg
  have hne : n ≠ node := by
    intro same
    rw [same, hnew] at hg
    cases hg
  rw [h.frames n, Function.update_of_ne hne, hg]

end Visited

variable {done rest : List Nat}

theorem NodeGraph.not_mem_done {g : NodeGraph} (h : g.order = done ++ node :: rest)
    : node ∉ done := by
  have hnodup := g.nodup_order
  rw [h] at hnodup
  exact fun hdone => (List.nodup_append.mp hnodup).2.2 _ hdone _ (by simp) rfl

theorem Prepared.frameOf?_eq_none {done : List Nat} (h : Prepared p done s) (hnew : node ∉ done)
    : s.frameOf? node = none := by
  by_contra hknown
  exact hnew ((h.frames node).mp hknown)

/-- What was known about the nodes before is still known when one more is simulated. -/
theorem Prepared.extend {done : List Nat} (h : Prepared p done s) {f : Frame} (hnew : node ∉ done)
    (visited : Visited node f s s')
    (supplies : Supplies (p.keysBefore s' node) f.keys (s'.codeOf node))
    (exits : ∀ b, p.node? node = some (.branch b) → assignedIn (s'.codeOf node) = ∅)
    (joins : ∀ l, p.node? node = some (.label l) → ∀ x ∈ f.keys, p.Enters s' node x)
    : Prepared p (done ++ [node]) s' := by
  have hne : ∀ n ∈ done, n ≠ node := fun n hn same => hnew (same ▸ hn)
  have grow := visited.grow (h.frameOf?_eq_none hnew)
  have hmem : ∀ {P : Nat → Prop}, (∀ n ∈ done, P n) → P node → ∀ n ∈ done ++ [node], P n := by
    intro P hdone hnode
    exact List.forall_mem_append.mpr ⟨hdone, List.forall_mem_singleton.mpr hnode⟩
  exact {
    codeSize := visited.codeSize.trans h.codeSize
    framesSize := visited.framesSize.trans h.framesSize
    frames := fun n => by
      rw [visited.frames n]
      by_cases same : n = node
      · simp [same]
      · simp [same, h.frames n]
    fresh := fun n hn => by
      rw [List.mem_append, not_or, List.mem_singleton] at hn
      rw [visited.code n hn.2, h.fresh n hn.1]
    refinements := visited.refinements.trans h.refinements
    made := visited.made h.made
    supplies := by
      apply hmem
      · intro n hn
        rw [visited.keysAfter_of_ne (hne n hn), visited.code n (hne n hn)]
        exact (h.supplies n hn).mono (Plan.keysBefore_mono grow n) (Set.Subset.refl _)
      · rwa [visited.keysAfter_self]
    exits := by
      apply hmem
      · intro n hn
        rw [visited.code n (hne n hn)]
        exact h.exits n hn
      · exact exits
    joins := by
      apply hmem
      · intro n hn l hl x hx
        rw [visited.keysAfter_of_ne (hne n hn)] at hx
        exact (h.joins n hn l hl x hx).mono grow visited.merges
      · rwa [visited.keysAfter_self] }

theorem run_predecessorFrame {f : Frame}
    (hx : (LiftM.predecessorFrame p node).run s = .ok (f, s'))
    : s' = s ∧ ∃ u, p.graph.graph.predecessors node = [u] ∧ s.frameOf? u = some f := by
  unfold LiftM.predecessorFrame NodeGraph.singlePredecessor at hx
  obtain ⟨u, s₁, hu, hx⟩ := LiftM.run_bind_eq_ok.mp hx
  split at hu
  next v hv =>
    cases hu
    obtain ⟨_, _, hget, hx⟩ := LiftM.run_bind_eq_ok.mp hx
    cases hget
    split at hx
    next g hg =>
      cases hx
      exact ⟨rfl, u, hv, hg⟩
    next => cases hx
  next => cases hu

/-- The frame of a label holds registers that enter it. -/
theorem Prepared.enters (h : Prepared p done s)
    (horder : p.graph.graph.order = done ++ node :: rest) (grow : FramesGrow s s') {f : Frame}
    (hf : f.Within (LiftM.JoinHas p node s {m | m ∈ s'.merges}))
    : ∀ x ∈ f.keys, p.Enters s' node x := by
  refine Frame.within_keys.mp (hf.mono fun r hr => ?_)
  rcases hr with hall | ⟨m, hm, hnode, rfl, hplace⟩
  · exact .inl fun u hu => keysAfter_mono grow u (hall u hu)
  · refine .inr ⟨m, hm, hnode, rfl, fun u hu hbefore => ?_⟩
    have hknown := (h.frames u).mpr ((NodeGraph.precedes_iff horder).mp hbefore)
    obtain ⟨g, hg⟩ := Option.ne_none_iff_exists'.mp hknown
    exact ⟨g, grow u g hg, hplace u hu g hg⟩

/-- Simulating one more node. -/
theorem Prepared.visit (h : Prepared p done s)
    (hranges : p.method.ranges = []) (hcontent : ∀ n frame, p.node? n ≠ some (.frame frame))
    (horder : p.graph.graph.order = done ++ node :: rest)
    (hx : (LiftM.visit p node).run s = .ok ((), s'))
    : Prepared p (done ++ [node]) s' := by
  have hn : node < p.graph.graph.size := p.graph.graph.lt_size_of_mem_order (by simp [horder])
  have hnew := NodeGraph.not_mem_done horder
  have hunknown := h.frameOf?_eq_none hnew
  have hcode := h.fresh node hnew
  have hsize : node < s.code.size := h.codeSize ▸ hn
  rw [LiftM.visit_eq] at hx
  obtain ⟨f, s₁, hframe, hset⟩ := LiftM.run_bind_eq_ok.mp hx
  cases hset
  have visited (keeps : Keeps node s s₁) := keeps.visited (h.framesSize ▸ hn) f
  unfold LiftM.frameAfter at hframe
  split at hframe
  next hnode =>
    cases hframe
    refine h.extend hnew (visited (.refl node s)) ?_ (by simp [hnode]) (by simp [hnode])
    change Supplies _ _ (s.codeOf node)
    rw [hcode]
    exact (Supplies.nil _).mono (Set.Subset.refl _) (Frame.within_keys.mp p.within_entryFrame)
  next l hnode =>
    obtain ⟨keeps, hsupplies, hjoins⟩ := LiftM.joining_simulateLabel hranges hsize hcode hframe
    have visited := visited keeps
    refine h.extend hnew visited ?_ (by simp [hnode]) fun _ _ => ?_
    · rw [Plan.keysBefore_label hnode, visited.keysAfter_self]
      exact hsupplies f.keys
    · exact h.enters horder (visited.grow hunknown) hjoins
  next content hlabel hnode =>
    obtain ⟨g, s₂, hg, hsimulate⟩ := LiftM.run_bind_eq_ok.mp hframe
    obtain ⟨rfl, u, hu, hg⟩ := run_predecessorFrame hg
    obtain ⟨hs, hexits⟩ := LiftM.simulating_simulate hsize hcode
      (fun frame heq => hcontent node frame (heq ▸ hnode)) hsimulate
    have visited := visited hs.keeps
    refine h.extend hnew visited ?_ (fun b hb => ?_) fun l hl => ?_
    · refine hs.supplies.mono (fun x hx => ?_) (Set.Subset.refl _)
      rw [Plan.keysBefore_of_ne_label fun l hl => hlabel l (Option.some.inj (hnode.symm.trans hl))]
      exact ⟨u, hu, g, visited.grow hunknown u g hg, hx⟩
    · exact hexits b (Option.some.inj (hnode.symm.trans hb))
    · exact absurd (Option.some.inj (hnode.symm.trans hl)) (hlabel l)

/-- The induction is on the nodes that are left. -/
theorem Prepared.forM_visit (h : Prepared p done s)
    (hranges : p.method.ranges = []) (hcontent : ∀ n frame, p.node? n ≠ some (.frame frame))
    (horder : p.graph.graph.order = done ++ rest)
    (hx : (rest.forM (LiftM.visit p)).run s = .ok ((), s'))
    : Prepared p p.graph.graph.order s' := by
  induction rest generalizing done s with
  | nil =>
      cases hx
      rwa [horder, List.append_nil]
  | cons node rest ih =>
      obtain ⟨_, s₁, hvisit, hrest⟩ := LiftM.run_bind_eq_ok.mp hx
      refine ih (h.visit hranges hcontent horder hvisit) ?_ hrest
      rw [horder, List.append_assoc, List.singleton_append]

end StackLift
