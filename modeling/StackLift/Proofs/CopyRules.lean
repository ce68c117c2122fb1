import StackLift.Lift.Code
import StackLift.Proofs.LiftLogic

/-!
The copies and jumps after the simulation, for any account of the registers: what a single copy
keeps and leaves behind is kept, and left behind, by the copies of all joins.
-/

namespace StackLift

-- Groups of copies

theorem mem_addCopy {groups : List CopyGroup} {node : Nat} {source : Value} {g : CopyGroup}
    (h : g ∈ addCopy groups node source)
    : g ∈ groups ∨ g = { source, nodes := [node] }
      ∨ ∃ g' ∈ groups, g'.source.Same source ∧ g = { g' with nodes := g'.nodes ++ [node] } := by
  induction groups with
  | nil => simpa [addCopy] using h
  | cons g' rest ih =>
      unfold addCopy at h
      split at h
      next hsame =>
        rcases List.mem_cons.mp h with rfl | h
        · exact .inr (.inr ⟨g', by simp, hsame, rfl⟩)
        · exact .inl (by simp [h])
      next =>
        rcases List.mem_cons.mp h with rfl | h
        · exact .inl (by simp)
        · rcases ih h with h | h | ⟨g'', h, he⟩
          · exact .inl (by simp [h])
          · exact .inr (.inl h)
          · exact .inr (.inr ⟨g'', by simp [h], he⟩)

theorem exists_group_addCopy (groups : List CopyGroup) (node : Nat) (source : Value)
    : (∃ g ∈ addCopy groups node source, g.source.Same source ∧ node ∈ g.nodes)
      ∧ ∀ g ∈ groups, ∃ g' ∈ addCopy groups node source,
        g'.source = g.source ∧ g.nodes ⊆ g'.nodes := by
  induction groups with
  | nil => exact ⟨⟨{ source, nodes := [node] }, by simp [addCopy], by simp [Value.Same]⟩, by simp⟩
  | cons g rest ih =>
      unfold addCopy
      split
      next hsame =>
        refine ⟨⟨_, List.mem_cons_self, hsame, by simp⟩, fun g' hg' => ?_⟩
        rcases List.mem_cons.mp hg' with rfl | hg'
        · exact ⟨_, List.mem_cons_self, rfl, by simp⟩
        · exact ⟨g', by simp [hg'], rfl, List.Subset.refl _⟩
      next =>
        obtain ⟨⟨g₁, h₁, hs₁⟩, hall⟩ := ih
        refine ⟨⟨g₁, by simp [h₁], hs₁⟩, fun g' hg' => ?_⟩
        rcases List.mem_cons.mp hg' with rfl | hg'
        · exact ⟨g', by simp, rfl, List.Subset.refl _⟩
        · obtain ⟨g₂, h₂, hs₂⟩ := hall g' hg'
          exact ⟨g₂, by simp [h₂], hs₂⟩

/-- The copies that a join needs: each node of a group is a source and holds the value that the
group copies, which is not the target, and each source that holds another value than the target is
in the group of its value. The value itself is that of one of the frames.
-/
structure RequiredCopies (frames : Nat → Option Frame) (m : Merge) (sources : List Nat)
    (groups : List CopyGroup) : Prop where
  nonempty : ∀ g ∈ groups, g.nodes ≠ []
  within : ∀ g ∈ groups, g.nodes ⊆ sources
  holds : ∀ g ∈ groups, ∀ n ∈ g.nodes, ∃ f v, frames n = some f ∧ m.place.value? f = some v
    ∧ g.source.Same v ∧ ¬ v.Same (.register m.target)
  taken : ∀ g ∈ groups, ∃ n f, frames n = some f ∧ m.place.value? f = some g.source
  covers : ∀ u ∈ sources, ∀ f v, frames u = some f → m.place.value? f = some v →
    ¬ v.Same (.register m.target) → ∃ g ∈ groups, g.source.Same v ∧ u ∈ g.nodes

namespace RequiredCopies

variable {frames : Nat → Option Frame} {m : Merge} {sources : List Nat} {groups : List CopyGroup}
  {u : Nat} {f : Frame} {v : Value}

theorem add (h : RequiredCopies frames m sources groups) (hf : frames u = some f)
    (hv : m.place.value? f = some v) (hne : ¬ v.Same (.register m.target))
    : RequiredCopies frames m (sources ++ [u]) (addCopy groups u v) where
  nonempty g hg := by
    rcases mem_addCopy hg with hg | rfl | ⟨g', hg', -, rfl⟩
    · exact h.nonempty g hg
    · simp
    · simp
  within g hg n hn := by
    rcases mem_addCopy hg with hg | rfl | ⟨g', hg', -, rfl⟩
    · exact List.mem_append_left _ (h.within g hg hn)
    · exact List.mem_append_right _ hn
    · rcases List.mem_append.mp hn with hn | hn
      · exact List.mem_append_left _ (h.within g' hg' hn)
      · exact List.mem_append_right _ hn
  holds g hg n hn := by
    rcases mem_addCopy hg with hg | rfl | ⟨g', hg', hsame, rfl⟩
    · exact h.holds g hg n hn
    · exact ⟨f, v, List.mem_singleton.mp hn ▸ hf, hv, rfl, hne⟩
    · rcases List.mem_append.mp hn with hn | hn
      · exact h.holds g' hg' n hn
      · exact ⟨f, v, List.mem_singleton.mp hn ▸ hf, hv, hsame, hne⟩
  taken g hg := by
    rcases mem_addCopy hg with hg | rfl | ⟨g', hg', -, rfl⟩
    · exact h.taken g hg
    · exact ⟨u, f, hf, hv⟩
    · exact h.taken g' hg'
  covers u' hu' f' v' hf' hv' hne := by
    have hadd := exists_group_addCopy groups u v
    rcases List.mem_append.mp hu' with hu' | hu'
    · obtain ⟨g, hg, hs, hu⟩ := h.covers u' hu' f' v' hf' hv' hne
      obtain ⟨g', hg', he, hnodes⟩ := hadd.2 g hg
      exact ⟨g', hg', he ▸ hs, hnodes hu⟩
    · obtain rfl := List.mem_singleton.mp hu'
      obtain rfl : f = f' := Option.some.inj (hf.symm.trans hf')
      obtain rfl : v = v' := Option.some.inj (hv.symm.trans hv')
      exact hadd.1

theorem skip (h : RequiredCopies frames m sources groups) (hf : frames u = some f)
    (hv : ∀ v, m.place.value? f = some v → v.Same (.register m.target))
    : RequiredCopies frames m (sources ++ [u]) groups :=
  { h with
    within := fun g hg n hn => List.mem_append_left _ (h.within g hg hn)
    covers := fun u' hu' f' v' hf' hv' hne => by
      rcases List.mem_append.mp hu' with hu' | hu'
      · exact h.covers u' hu' f' v' hf' hv' hne
      · rw [List.mem_singleton.mp hu', hf] at hf'
        cases hf'
        exact absurd (hv v' hv') hne }

end RequiredCopies

namespace LiftM

variable {W : Type} [Preorder W] {Valid : W → LiftState → Prop} {p : Plan} {w : W}

/-- One more predecessor has its copy, unless it needs none. -/
theorem ensures_requiredCopy {s : LiftState} {m : Merge} {sources : List Nat} {u : Nat}
    {groups : List CopyGroup} (h : RequiredCopies s.frameOf? m sources groups)
    : Ensures Valid w (match s.frameOf? u with
        | none => throw (.frameOutOfOrder u)
        | some f =>
          match m.place.value? f with
          | some source =>
            if source.Same (.register m.target) then return groups
            else return addCopy groups u source
          | none => return groups)
        fun _ groups => RequiredCopies s.frameOf? m (sources ++ [u]) groups := by
  split
  next => exact .throw
  next f hf =>
    split
    next source hsource =>
      split
      next hsame =>
        refine .pure (h.skip hf fun v hv => ?_)
        obtain rfl : source = v := Option.some.inj (hsource.symm.trans hv)
        exact hsame
      next hne => exact .pure (h.add hf hsource hne)
    next hnone =>
      refine .pure (h.skip hf fun v hv => ?_)
      cases hnone.symm.trans hv

theorem ensures_requiredCopies {m : Merge}
    : Ensures Valid w (requiredCopies p m) fun _ groups => ∃ s, Valid w s
        ∧ RequiredCopies s.frameOf? m (p.graph.graph.predecessors m.node) groups := by
  refine Ensures.get_bind fun s hs => ?_
  have hstart : RequiredCopies s.frameOf? m [] [] := ⟨nofun, nofun, nofun, nofun, nofun⟩
  exact (Ensures.foldlM (fun _ _ _ _ _ h => ensures_requiredCopy h) hstart).weaken
    fun _ _ _ h => ⟨s, hs, h⟩

-- Copies

/-- A node of a group that does not copy is entered from the group only, and does not assign the
value.
-/
theorem ensures_insertGroup {target : Value} {group : CopyGroup} {R : W → Nat → Prop}
    {Q : Nat → Prop} (lasting : ∀ n, Lasting fun w => R w n)
    (copies : ∀ n ∈ group.nodes, ∀ w', w ≤ w' →
      Ensures Valid w' (copy p n target group.source) fun w'' _ => R w'' n)
    (skips : ∀ n ∈ group.nodes, ∀ w' s, Valid w' s →
      assigns (s.codeOf n) group.source = false → Q n)
    : Ensures Valid w (insertGroup p target group) fun w' _ => ∀ n ∈ group.nodes, R w' n
        ∨ p.graph.graph.predecessors n ≠ [] ∧ p.graph.graph.predecessors n ⊆ group.nodes
          ∧ Q n := by
  unfold insertGroup
  split
  next node hgroup =>
    refine (copies node (by simp [hgroup]) w (le_refl w)).weaken fun w' _ _ h n hn => ?_
    rw [hgroup, List.mem_singleton] at hn
    exact .inl (hn ▸ h)
  next nodes _ =>
    refine Ensures.forM (fun n _ _ hw => Or.imp (lasting n hw) id) fun n hn w' hw => ?_
    refine Ensures.get_bind fun s hs => ?_
    split
    next => exact (copies n hn w' hw).weaken fun _ _ _ => .inl
    next hnot =>
      obtain ⟨hstart, hassigns⟩ := not_or.mp (mt Bool.or_eq_true_iff.mpr hnot)
      have hstart : n ∉ p.graph.graph.startNodes group.nodes := by simpa using hstart
      have hinside : p.graph.graph.predecessors n ≠ []
          ∧ p.graph.graph.predecessors n ⊆ group.nodes := by
        simpa [NodeGraph.startNodes, hn, List.subset_def] using hstart
      refine .pure (.inr ⟨hinside.1, hinside.2, ?_⟩)
      exact skips n hn w' s hs (Bool.not_eq_true _ ▸ hassigns)

/-- The copies for the merges of the state, one merge after the other. -/
theorem ensures_insertCopies {R : W → Merge → Prop} (lasting : ∀ m, Lasting fun w => R w m)
    (copies : ∀ s, Valid w s → ∀ m ∈ s.merges, ∀ w', w ≤ w' →
      Ensures Valid w' (do
        let groups ← requiredCopies p m
        groups.forM (insertGroup p (.register m.target))) fun w'' _ => R w'' m)
    : Ensures Valid w (insertCopies p) fun w' _ => ∃ s, Valid w s ∧ ∀ m ∈ s.merges, R w' m := by
  refine Ensures.get_bind fun s hs => ?_
  refine (Ensures.forM lasting fun m hm w' hw => copies s hs m ?_ w' hw).weaken
    fun w' _ _ h => ⟨s, hs, fun m hm => h m ?_⟩
  · rcases List.mem_append.mp hm with hm | hm <;> exact (List.mem_filter.mp hm).1
  · cases hslot : m.place.isSlot <;> simp [hm, hslot]

-- Jumps

/-- Jumps and the labels that they go to can be added to any node. -/
structure JumpRules (Valid : W → LiftState → Prop) : Prop where
  freshLabel : ∀ {w}, Ensures Valid w freshLabel fun _ _ => True
  label : ∀ {w n l}, Ensures Valid w (editCode n (.label l :: ·)) fun _ _ => True
  jump : ∀ {w n l}, Ensures Valid w (emit n (.jump l)) fun _ _ => True

theorem JumpRules.joinLabel (rules : JumpRules Valid) {node : Nat}
    : Ensures Valid w (joinLabel p node) fun _ _ => True := by
  unfold LiftM.joinLabel
  split
  · exact ensures_labelOf
  · refine rules.freshLabel.bind fun _ l _ _ => ?_
    exact rules.label.bind fun _ _ _ _ => .pure trivial

theorem JumpRules.insertJumps (rules : JumpRules Valid)
    : Ensures Valid w (insertJumps p) fun _ _ => True := by
  refine (Ensures.forM (R := fun _ _ => True) (fun _ _ _ _ => id) fun n _ w' _ => ?_).weaken
    fun _ _ _ _ => trivial
  refine Ensures.get_bind fun s _ => ?_
  split
  · split
    · exact .pure trivial
    · refine rules.joinLabel.bind fun w₁ l _ _ => ?_
      exact (Ensures.forM (R := fun _ _ => True) (fun _ _ _ _ => id)
        fun u _ w' _ => rules.jump).weaken fun _ _ _ _ => trivial
  · exact .pure trivial

end LiftM

end StackLift
