import StackLift.Proofs.CopiedReads
import StackLift.Proofs.CopyConflicts
import StackLift.Proofs.CopySequences
import StackLift.Proofs.FrameKinds
import StackLift.Proofs.ResolvedFlow

/-!
The copies that the nodes make. A node copies each value that the joins after it need, or every way
into it has copied the value already and the node does not change it.
-/

namespace StackLift

open StackMachine Function

variable {p : Plan} {start s s' : LiftState} {done before : List Merge} {C : Nat → List Copy}
  {n u : Nat} {m : Merge} {x y : Value} {f : Frame} {A A' : Nat → Set Copy}

-- Required copies

theorem LiftState.copied?_eq_some
    : start.copied? p u m = some x ↔ u ∈ p.graph.graph.predecessors m.node
      ∧ (∃ f, start.frameOf? u = some f ∧ m.place.value? f = some x)
      ∧ ¬ x.Same (.register m.target) := by
  unfold LiftState.copied?
  split
  next hu =>
    rw [Option.filter_eq_some_iff, Option.bind_eq_some_iff]
    simp [hu]
  next hu => simp [hu]

/-- A copy of an earlier merge does not overwrite what a copy of a later one reads. -/
theorem LiftState.CopiesApart.not_same (apart : start.CopiesApart p) {rest : List Merge}
    (hmerges : start.mergesInOrder = before ++ m :: rest) {m' : Merge} (hm' : m' ∈ before)
    (hy : start.copied? p u m' = some y) (hx : start.copied? p u m = some x)
    : ¬ x.Same (.register m'.target) := by
  have hordered := apart.ordered u
  rw [LiftState.copiesAt, hmerges, List.filterMap_append, List.pairwise_append] at hordered
  refine hordered.2.2 (m'.target, y) ?_ (m.target, x) ?_
  · exact List.mem_filterMap.mpr ⟨m', hm', by simp [hy]⟩
  · exact List.mem_filterMap.mpr ⟨m, List.mem_cons_self, by simp [hx]⟩

-- States

/-- The code of the nodes with copies for some merges. -/
structure CopiedNodes (p : Plan) (start : LiftState) (done : List Merge) (C : Nat → List Copy)
    (s : LiftState) : Prop where
  size : s.code.size = start.code.size
  frames : s.frames = start.frames
  labels : s.labels = start.labels
  refinements : s.refinements = start.refinements
  merges : s.merges = start.merges
  next : start.registers.next ≤ s.registers.next
  code : ∀ n ∈ p.graph.graph.order, CopiedCode start.registers.next s.registers.next (C n)
    (p.node? n) ((start.codeOf n).map Inst.markResult) (s.codeOf n)
  made : ∀ n, ∀ c ∈ C n, ∃ m ∈ done, ∃ x, start.copied? p n m = some x ∧ c.1 = m.target
    ∧ c.2.Same x
  ordered : ∀ n, (C n).Pairwise fun c later => ¬ later.2.Same (.register c.1)

/-- The nodes have at least the given copies. -/
def Copies (p : Plan) (start : LiftState) (done : List Merge) (A : Nat → Set Copy)
    (s : LiftState) : Prop :=
  ∃ C, CopiedNodes p start done C s ∧ ∀ n, ∀ c ∈ A n, c ∈ C n

/-- The value is copied to the register of the merge at the end of the node, or it was copied on
every way into the node, and the node does not assign it.
-/
def Provided (p : Plan) (start : LiftState) (A : Nat → Set Copy) (m : Merge) (u : Nat) (x : Value) :
    Prop :=
  (∃ y, y.Same x ∧ (m.target, y) ∈ A u)
    ∨ p.graph.graph.predecessors u ≠ []
      ∧ (∀ w ∈ p.graph.graph.predecessors u, ∃ y, start.copied? p w m = some y ∧ y.Same x)
      ∧ ∀ r, x.Same (.register r) → r.key ∉ assignedIn (start.codeOf u)

/-- What the copies can rely on after the simulation. -/
structure Settled (p : Plan) (start : LiftState) : Prop where
  size : start.code.size = p.graph.graph.size
  reached : ∀ {n f}, start.frameOf? n = some f → n ∈ p.graph.graph.order
  made : start.MergesMade
  below : ∀ {n f v}, start.frameOf? n = some f → f.Has v → v.Below start.registers.next
  leaves : ∀ {n v b}, n ∈ p.graph.graph.predecessors v → p.node? n = some (.branch b) →
    b.isTerminal = false
  exits : ∀ {n b}, n ∈ p.graph.graph.order → p.node? n = some (.branch b) →
    assignedIn (start.codeOf n) = ∅
  apart : start.CopiesApart p

theorem Value.Below.same {bound : Nat} (h : x.Below bound) (hsame : y.Same x)
    : y.Below bound := by
  refine ⟨?_, ?_⟩
  · rw [hsame.isSimple]
    exact h.simple
  · exact h.within.same (fun r q hk hr => Register.index_eq_of_key hk ▸ hr) hsame

theorem CopiedNodes.mono (h : CopiedNodes p start done C s) (m : Merge)
    : CopiedNodes p start (done ++ [m]) C s :=
  { h with
    made := fun n c hc => by
      obtain ⟨m', hm', hmade⟩ := h.made n c hc
      exact ⟨m', List.mem_append_left _ hm', hmade⟩ }

namespace LiftM

theorem lasting_provided (m : Merge) (u : Nat) (x : Value)
    : Lasting fun A => Provided p start A m u x := by
  intro A A' hA h
  rcases h with ⟨y, hy, hmem⟩ | h
  · exact .inl ⟨y, hy, hA u hmem⟩
  · exact .inr h

variable {rest : List Merge}

/-- One more copy, for the last merge so far. -/
theorem copies_copy (settled : Settled p start)
    (hmerges : start.mergesInOrder = before ++ m :: rest) (hx : start.copied? p n m = some x)
    (hy : y.Same x)
    : Ensures (Copies p start (before ++ [m])) A (copy p n (.register m.target) y)
        fun A' _ => (m.target, y) ∈ A' n := by
  rintro s _ s' ⟨C, hC, hA⟩ hrun
  obtain ⟨hu, ⟨f, hf, hplace⟩, hne⟩ := LiftState.copied?_eq_some.mp hx
  have hm : m ∈ start.merges := by
    have hmem : m ∈ start.mergesInOrder := by simp [hmerges]
    rcases List.mem_append.mp hmem with hmem | hmem <;> exact (List.mem_filter.mp hmem).1
  have hbelow := (settled.below hf (Frame.has_of_place hplace)).same hy
  have hcopied := @CopiedCode.insertCopy _ (C n) (m.target, y) s.registers _ _ _
    (hC.code n (settled.reached hf)) (fun b hb => settled.leaves hu hb) (settled.made m hm) hbelow
  have hnext : s.registers.next
      ≤ (insertCopy s.registers (p.node? n) (.register m.target) y (s.codeOf n)).2.next :=
    next_le_insertCopy ..
  generalize hresult : insertCopy s.registers (p.node? n) (.register m.target) y (s.codeOf n)
    = result at hcopied hnext
  obtain ⟨hcode, hframes, hlabels, hrefinements, hmerges', hregisters⟩ :
      s'.code = s.code.modify n (fun _ => result.1) ∧ s'.frames = s.frames ∧ s'.labels = s.labels
        ∧ s'.refinements = s.refinements ∧ s'.merges = s.merges ∧ s'.registers = result.2 := by
    subst hresult
    cases hrun
    exact ⟨rfl, rfl, rfl, rfl, rfl, rfl⟩
  have hof : ∀ k, s'.codeOf k = if n = k ∧ k < s.code.size then result.1 else s.codeOf k :=
    codeOf_modify hcode
  have hcopies : CopiedNodes p start (before ++ [m])
      (update C n (C n ++ [(m.target, y)])) s' := by
    refine ⟨by simp [hcode, hC.size], hframes.trans hC.frames, hlabels.trans hC.labels,
      hrefinements.trans hC.refinements, hmerges'.trans hC.merges, ?_, fun k hk => ?_,
      fun k c hc => ?_, fun k => ?_⟩
    · rw [hregisters]
      exact Nat.le_trans hC.next hnext
    · rw [hof, hregisters]
      by_cases hkn : n = k
      · subst hkn
        have hsize : n < s.code.size := by
          rw [hC.size, settled.size]
          exact p.graph.graph.lt_size_of_mem_order hk
        rw [if_pos ⟨rfl, hsize⟩, update_self]
        exact hcopied
      · rw [if_neg fun h => hkn h.1, update_of_ne (Ne.symm hkn)]
        exact (hC.code k hk).mono hnext
    · by_cases hk : k = n
      · subst hk
        rw [update_self] at hc
        rcases List.mem_append.mp hc with hc | hc
        · exact hC.made k c hc
        · rw [List.mem_singleton.mp hc]
          exact ⟨m, by simp, x, hx, rfl, hy⟩
      · rw [update_of_ne hk] at hc
        exact hC.made k c hc
    · by_cases hk : k = n
      · subst hk
        rw [update_self, List.pairwise_append]
        refine ⟨hC.ordered k, List.pairwise_singleton _ _, fun c hc c' hc' => ?_⟩
        rw [List.mem_singleton.mp hc']
        obtain ⟨m', hm', z, hz, htarget, -⟩ := hC.made k c hc
        rw [htarget]
        intro hsame
        have hsame := hy.symm.trans hsame
        rcases List.mem_append.mp hm' with hm' | hm'
        · exact settled.apart.not_same hmerges hm' hz hx hsame
        · rw [List.mem_singleton.mp hm'] at hsame
          exact hne hsame
      · rw [update_of_ne hk]
        exact hC.ordered k
  refine ⟨fun k => {c | c ∈ update C n (C n ++ [(m.target, y)]) k}, fun k c hc => ?_,
    ⟨_, hcopies, fun k c hc => hc⟩, by simp⟩
  show c ∈ update C n (C n ++ [(m.target, y)]) k
  by_cases hk : k = n
  · subst hk
    rw [update_self]
    exact List.mem_append_left _ (hA k c hc)
  · rw [update_of_ne hk]
    exact hA k c hc

/-- A node whose code with copies does not assign a value does not assign it without them. -/
theorem not_mem_assignedIn (settled : Settled p start) (hC : CopiedNodes p start done C s)
    (hn : n ∈ p.graph.graph.order) (h : assigns (s.codeOf n) x = false) {r : Register}
    (hr : x.Same (.register r))
    : r.key ∉ assignedIn (start.codeOf n) := by
  rintro ⟨i, hi, hassigned⟩
  have hcode := hC.code n hn
  generalize hbase : (start.codeOf n).map Inst.markResult = base at hcode
  generalize s.codeOf n = code at h hcode
  have hexits : ∀ {b}, p.node? n ≠ some (.branch b) := by
    intro b hb
    have hnone : r.key ∈ assignedIn (start.codeOf n) := ⟨i, hi, hassigned⟩
    rw [settled.exits hn hb] at hnone
    exact hnone
  generalize p.node? n = content at hcode hexits
  cases hcode with
  | straight hb =>
      obtain ⟨q, e, rfl, hq⟩ : ∃ q e, i = .assign (.register q) e ∧ q.key = r.key := by
        unfold Inst.assigned? at hassigned
        split at hassigned
        next q e => exact ⟨q, e, rfl, Option.some.inj hassigned⟩
        next => cases hassigned
      have hmem : (Inst.assign (.register q) e).markResult ∈ base :=
        hbase ▸ List.mem_map_of_mem hi
      have hnot := List.any_eq_false.mp h _ (List.mem_append_left _ hmem)
      refine hnot (decide_eq_true ?_)
      exact (Value.same_register_iff.mpr ⟨_, rfl, hq⟩).trans hr.symm
  | exit => exact hexits rfl
  | jump => exact hexits rfl

/-- The copies for one merge. -/
theorem copies_mergeCopies (settled : Settled p start)
    (hmerges : start.mergesInOrder = before ++ m :: rest)
    : Ensures (Copies p start (before ++ [m])) A (do
        let groups ← requiredCopies p m
        groups.forM (insertGroup p (.register m.target)))
        fun A' _ => ∀ u x, start.copied? p u m = some x → Provided p start A' m u x := by
  refine ensures_requiredCopies.bind fun A₁ groups _ hgroups => ?_
  obtain ⟨s, ⟨C, hC, -⟩, hgroups⟩ := hgroups
  have hframes : s.frameOf? = start.frameOf? := by
    funext n
    rw [LiftState.frameOf?, hC.frames, LiftState.frameOf?]
  rw [hframes] at hgroups
  have hcopied : ∀ g ∈ groups, ∀ n ∈ g.nodes, ∃ x, start.copied? p n m = some x
      ∧ g.source.Same x := by
    intro g hg n hn
    obtain ⟨f, x, hf, hx, hsame, hne⟩ := hgroups.holds g hg n hn
    exact ⟨x, LiftState.copied?_eq_some.mpr ⟨hgroups.within g hg hn, ⟨f, hf, hx⟩, hne⟩, hsame⟩
  have hgroup : ∀ g ∈ groups, ∀ A', A₁ ≤ A' →
      Ensures (Copies p start (before ++ [m])) A' (insertGroup p (.register m.target) g)
        fun A'' _ => ∀ n ∈ g.nodes, ∀ x, g.source.Same x → Provided p start A'' m n x := by
    intro g hg A' _
    have hlasting : ∀ n : Nat, Lasting fun A : Nat → Set Copy => (m.target, g.source) ∈ A n :=
      fun n _ _ hA hmem => hA n hmem
    refine (ensures_insertGroup
      (Q := fun n => ∀ r, g.source.Same (.register r) → r.key ∉ assignedIn (start.codeOf n))
      hlasting (fun n hn A'' _ => ?_) fun n hn _ s hs hassigns r hr => ?_).weaken
      fun A'' _ _ hall n hn x hsame => ?_
    · obtain ⟨x, hx, hsame⟩ := hcopied g hg n hn
      exact copies_copy settled hmerges hx hsame
    · obtain ⟨C, hC, -⟩ := hs
      obtain ⟨x, hx, -⟩ := hcopied g hg n hn
      obtain ⟨-, ⟨f, hf, -⟩, -⟩ := LiftState.copied?_eq_some.mp hx
      exact not_mem_assignedIn settled hC (settled.reached hf) hassigns hr
    · rcases hall n hn with hmem | ⟨hne, hinside, hassigned⟩
      · exact .inl ⟨g.source, hsame, hmem⟩
      · refine .inr ⟨hne, fun w hw => ?_, fun r hr => hassigned r (hsame.trans hr)⟩
        obtain ⟨y, hy, hsame'⟩ := hcopied g hg w (hinside hw)
        exact ⟨y, hy, hsame'.symm.trans hsame⟩
  refine (Ensures.forM (R := fun A (g : CopyGroup) => ∀ n ∈ g.nodes, ∀ x, g.source.Same x →
    Provided p start A m n x) (fun g _ _ hA h n hn x hsame =>
      lasting_provided m n x hA (h n hn x hsame)) hgroup).weaken fun A₂ _ _ hall u x hx => ?_
  obtain ⟨hu, ⟨f, hf, hplace⟩, hne⟩ := LiftState.copied?_eq_some.mp hx
  obtain ⟨g, hg, hsame, hmem⟩ := hgroups.covers u hu f x hf hplace hne
  exact hall g hg u hmem x hsame

/-- The induction is on the merges that are left. -/
theorem copies_forM (settled : Settled p start) (hmerges : start.mergesInOrder = before ++ rest)
    (hs : Copies p start before A s)
    (hrun : (rest.forM fun m => do
      let groups ← requiredCopies p m
      groups.forM (insertGroup p (.register m.target))).run s = .ok ((), s'))
    : ∃ A', A ≤ A' ∧ Copies p start (before ++ rest) A' s'
        ∧ ∀ m ∈ rest, ∀ u x, start.copied? p u m = some x → Provided p start A' m u x := by
  induction rest generalizing before A s with
  | nil =>
      cases hrun
      exact ⟨A, le_refl A, by rwa [List.append_nil], by simp⟩
  | cons m rest ih =>
      obtain ⟨_, s₁, hmerge, hrest⟩ := run_bind_eq_ok.mp hrun
      obtain ⟨C, hC, hA⟩ := hs
      obtain ⟨A₁, hle, hs₁, hprovided⟩ :=
        copies_mergeCopies settled hmerges _ _ _ ⟨C, hC.mono m, hA⟩ hmerge
      obtain ⟨A₂, hle', hs₂, hall⟩ := ih (by simpa using hmerges) hs₁ hrest
      refine ⟨A₂, le_trans hle hle', by simpa using hs₂, List.forall_mem_cons.mpr ⟨?_, hall⟩⟩
      intro u x hx
      exact lasting_provided m u x hle' (hprovided u x hx)

end LiftM

-- Jumps

/-- The code of the nodes with labels in front and jumps at the end. -/
structure WithJumps (start s : LiftState) : Prop where
  labels : s.labels = start.labels
  refinements : s.refinements = start.refinements
  code : ∀ n, ∃ lead jumps, (∀ i ∈ lead, ∃ l, i = .label l) ∧ (∀ i ∈ jumps, ∃ l, i = .jump l)
    ∧ s.codeOf n = lead ++ start.codeOf n ++ jumps

theorem withJumps_editCode {edit : List Inst → List Inst} (h : WithJumps start s)
    (hedit : ∀ lead jumps, (∀ i ∈ lead, ∃ l, i = .label l) → (∀ i ∈ jumps, ∃ l, i = .jump l) →
      ∃ lead' jumps', (∀ i ∈ lead', ∃ l, i = .label l) ∧ (∀ i ∈ jumps', ∃ l, i = .jump l)
        ∧ edit (lead ++ start.codeOf n ++ jumps) = lead' ++ start.codeOf n ++ jumps')
    (hrun : (LiftM.editCode n edit).run s = .ok ((), s'))
    : WithJumps start s' := by
  obtain ⟨hcode, hlabels, hrefinements⟩ : s'.code = s.code.modify n edit ∧ s'.labels = s.labels
      ∧ s'.refinements = s.refinements := by
    cases hrun
    exact ⟨rfl, rfl, rfl⟩
  refine ⟨hlabels.trans h.labels, hrefinements.trans h.refinements, fun k => ?_⟩
  have hof : s'.codeOf k = if n = k ∧ k < s.code.size then edit (s.codeOf k) else s.codeOf k :=
    codeOf_modify hcode k
  obtain ⟨lead, jumps, hlead, hjumps, hk⟩ := h.code k
  rw [hof]
  split
  next heq =>
    obtain ⟨rfl, -⟩ := heq
    rw [hk]
    exact hedit lead jumps hlead hjumps
  next => exact ⟨lead, jumps, hlead, hjumps, hk⟩

theorem jumpRules_withJumps (start : LiftState)
    : LiftM.JumpRules fun (_ : Unit) => WithJumps start where
  freshLabel := by
    intro _ s l s' hs hrun
    cases hrun
    exact ⟨(), le_refl _, { hs with }, trivial⟩
  label := by
    intro _ n l s _ s' hs hrun
    refine ⟨(), le_refl _, withJumps_editCode hs (fun lead jumps hlead hjumps => ?_) hrun, trivial⟩
    exact ⟨.label l :: lead, jumps, List.forall_mem_cons.mpr ⟨⟨l, rfl⟩, hlead⟩, hjumps, rfl⟩
  jump := by
    intro _ n l s _ s' hs hrun
    refine ⟨(), le_refl _, withJumps_editCode hs (fun lead jumps hlead hjumps => ?_) hrun, trivial⟩
    refine ⟨lead, jumps ++ [.jump l], hlead, ?_, by simp⟩
    exact List.forall_mem_append.mpr ⟨hjumps, List.forall_mem_singleton.mpr ⟨l, rfl⟩⟩

-- Methods

theorem Leaves.readyJump {labels : List (Label × CodeLabel)} {after : Option Node} {b : Branch}
    {insts : List Inst} {f' : Frame} {bound : Nat} (h : Leaves labels after f b insts f')
    (hb : b.isTerminal = false) (hbelow : ∀ {v}, f.Has v → v.Below bound)
    : ∃ jump rest, insts.map Inst.markResult = jump :: rest ∧ ReadyJump bound jump := by
  cases h with
  | returnVoid | returnValue => cases hb
  | goto => exact ⟨_, _, rfl, rfl, by simp [Inst.markResult, Inst.decisive], nofun⟩
  | @compare b taken rest op v w target c c' after hcompares hstack hc hgoes =>
      have hmem : ∀ {u}, u ∈ taken → u.Below bound :=
        fun hu => hbelow (.inr (by simp [hstack, hu]))
      obtain ⟨hv, hw⟩ : v.Below bound ∧ w.Below bound := by
        cases hcompares with
        | ifZero | ifNull => exact ⟨hmem (by simp), Value.below_constant _ _⟩
        | ifInt | ifReference => exact ⟨hmem (by simp), hmem (by simp)⟩
      refine ⟨_, _, rfl, rfl, List.forall_mem_cons.mpr ⟨hv.within, ?_⟩, nofun⟩
      exact List.forall_mem_singleton.mpr hw.within
  | @switch b key rest targets default cases c hselects hstack hcases hc =>
      have hkey : key.Below bound := hbelow (.inr (by simp [hstack]))
      refine ⟨_, _, rfl, rfl, List.forall_mem_singleton.mpr hkey.within, fun he => ?_⟩
      cases he
      intro case hcase
      obtain ⟨t, -, ht⟩ := (mem_of_forall₂ hcases).2 case hcase
      exact ⟨_, ht.1⟩

/-- Before any copy is inserted, all nodes have none. -/
theorem Staged.copiedNodes {lo hi : Nat → Nat} (h : Staged p lo hi p.graph.graph.order start)
    (settled : Settled p start)
    : CopiedNodes p start [] (fun _ => [])
        { start with code := start.code.map (List.map Inst.markResult) } where
  size := by simp
  frames := rfl
  labels := rfl
  refinements := rfl
  merges := rfl
  next := Nat.le_refl _
  code n hn := by
    rw [LiftM.codeOf_mapCode]
    obtain ⟨f, hf, hsimulates⟩ := h.nodes n hn
    generalize start.codeOf n = insts at hsimulates
    have hstraight : (∀ b, p.node? n ≠ some (.branch b)) →
        CopiedCode start.registers.next start.registers.next [] (p.node? n)
          (insts.map Inst.markResult) (insts.map Inst.markResult) := by
      intro hb
      have hcode := @CopiedCode.straight start.registers.next start.registers.next [] _
        (insts.map Inst.markResult) hb
      rwa [List.map_nil, List.append_nil] at hcode
    cases hsimulates with
    | entry hnode => exact hstraight (by simp [hnode])
    | label hnode => exact hstraight (by simp [hnode])
    | line hnode => exact hstraight (by simp [hnode])
    | plain hnode => exact hstraight (by simp [hnode])
    | @branch b g f insts hnode hb hg hleaves =>
        rw [hnode]
        cases hterminal : b.isTerminal with
        | true => exact .exit hterminal rfl
        | false =>
            obtain ⟨u, -, -, hg⟩ := hg
            obtain ⟨jump, rest, hinsts, hready⟩ :=
              hleaves.readyJump hterminal fun hv => settled.below hg hv
            rw [hinsts]
            exact .jump hterminal hready (.none (Nat.le_refl _) hready.jumps hready.below) (by simp)
  made := by simp
  ordered := by simp

theorem DeclaredTypes.ofNodes_of_no_frame {m : Method} {places : List (Label × Nat)}
    {nodes : List Node} (h : ∀ frame, Node.frame frame ∉ nodes) (number : Nat)
    (before : List TypeName)
    : ofNodes m places number before nodes = .ok [] := by
  induction nodes generalizing number with
  | nil => rfl
  | cons node rest ih =>
      have hrest := ih (fun frame hmem => h frame (List.mem_cons_of_mem _ hmem)) (number + 1)
      cases node with
      | frame frame => exact absurd List.mem_cons_self (h frame)
      | _ => exact hrest

theorem Plan.declared_of_no_frame {m : Method} {settings : Settings}
    (h : ∀ frame, Node.frame frame ∉ m.nodes) (hp : Plan.ofMethod m settings = .ok p)
    : p.declared = [] := by
  obtain ⟨graph, -, hp⟩ := except_bind_eq_ok.mp hp
  obtain ⟨table, -, hp⟩ := except_bind_eq_ok.mp hp
  obtain ⟨declared, hdeclared, hp⟩ := except_bind_eq_ok.mp hp
  cases hp
  rw [DeclaredTypes.ofMethod, DeclaredTypes.ofNodes_of_no_frame h] at hdeclared
  exact (Except.ok.inj hdeclared).symm

theorem StackMachine.executes_of_execute {S S' : Shape} {node : Node}
    {go : Next Unit} (h : execute .ofKinds S node = some (S', go))
    (hdistinct : node.pushesDistinct = true)
    : executes node = true := by
  cases node with
  | label | line => rfl
  | frame frame => cases h
  | plain i =>
      obtain ⟨operation, hi, -⟩ := Option.bind_eq_some_iff.mp h
      exact Bool.and_eq_true_iff.mpr ⟨Option.isSome_iff_exists.mpr ⟨operation, hi⟩, hdistinct⟩
  | branch b =>
      refine decide_eq_true ?_
      rintro rfl
      cases h

/-- The code of the nodes after all copies and jumps are inserted. -/
structure Copied (p : Plan) (start : LiftState) (C : Nat → List Copy) (s : LiftState) : Prop where
  labels : s.labels = start.labels
  refinements : s.refinements = []
  code : ∀ n ∈ p.graph.graph.order, ∃ next lead copied jumps, (∀ i ∈ lead, ∃ l, i = .label l)
    ∧ (∀ i ∈ jumps, ∃ l, i = .jump l)
    ∧ CopiedCode start.registers.next next (C n) (p.node? n)
      ((start.codeOf n).map Inst.markResult) copied
    ∧ s.codeOf n = lead ++ copied ++ jumps
  made : ∀ n, ∀ c ∈ C n, ∃ m ∈ start.merges, ∃ x, start.copied? p n m = some x ∧ c.1 = m.target
    ∧ c.2.Same x
  ordered : ∀ n, (C n).Pairwise fun c later => ¬ later.2.Same (.register c.1)
  provided : ∀ m ∈ start.merges, ∀ {u x}, start.copied? p u m = some x →
    Provided p start (fun n => {c | c ∈ C n}) m u x

theorem Prepared.settled {lo hi : Nat → Nat} (h : Prepared p p.graph.graph.order start)
    (staged : Staged p lo hi p.graph.graph.order start)
    (models : MethodGraph.Models p.method p.graph) (hranges : p.method.ranges = [])
    (apart : start.CopiesApart p)
    : Settled p start where
  size := h.codeSize
  reached hf := (h.frames _).mp (by simp [hf])
  made := h.made
  below {n f v} hf hv := by
    have hn := (h.frames n).mp (by simp [hf])
    exact (staged.held n hn hf hv).mono (staged.bounds n hn).2
  leaves {n v b} edge hb := by
    cases hterminal : b.isTerminal with
    | false => rfl
    | true =>
        rw [p.node?_eq] at hb
        cases Method.flow_of_edge models hranges edge with
        | enters => cases hb
        | falls hn hfalls =>
            rw [hb] at hn
            cases hn
            rw [Branch.isTerminal_of_fallsThrough hfalls] at hterminal
            exact hterminal.symm
        | jumps hn hl =>
            rw [hb] at hn
            cases hn
            rw [show (Node.branch b).targets = [] from Branch.targets_of_isTerminal hterminal] at hl
            cases hl
  exits hn hb := h.exits _ hn _ hb
  apart := apart

/-- Lifting a verified method inserts copies, if they stay apart. -/
theorem exists_copied {T : Typing} {code : List Inst}
    (models : MethodGraph.Models p.method p.graph) (hranges : p.method.ranges = [])
    (hcontent : ∀ n frame, p.node? n ≠ some (.frame frame)) (hdeclared : p.declared = [])
    (distinct : ∀ node ∈ p.method.nodes, node.pushesDistinct = true)
    (verifies : T.Verifies p.method)
    (apart : ∀ start, (p.graph.graph.order.forM (LiftM.visit p)).run (.initial p)
      = .ok ((), start) → start.CopiesApart p)
    (hx : (LiftM.liftCode p).run (.initial p) = .ok (code, s))
    : ∃ start lo hi C, Staged p lo hi p.graph.graph.order start ∧ Settled p start
        ∧ Copied p start C s := by
  obtain ⟨-, s₁, s₃, hsimulation, hcopies, hjumps⟩ := steps_of_liftCode hx
  have hexecutes : ∀ n ∈ p.graph.graph.order, ∀ content, p.node? n = some content →
      executes content = true := by
    intro n hn content hnode
    obtain ⟨S, hS⟩ := verifies.exists_shape models hranges (NodeGraph.reaches_of_mem_order hn)
    obtain ⟨S', hS', -⟩ := verifies.step hS
    rw [shapeAfter?_of_node (p.node?_eq n ▸ hnode)] at hS'
    obtain ⟨⟨S₁, go⟩, hexecute, -⟩ := Option.map_eq_some_iff.mp hS'
    obtain ⟨k, -, hk⟩ := Method.node?_eq_some.mp (p.node?_eq n ▸ hnode)
    exact executes_of_execute hexecute (distinct content (List.mem_of_getElem? hk))
  have hprepared := (prepared_initial p).forM_visit hranges hcontent (List.nil_append _).symm
    hsimulation
  obtain ⟨lo, hi, hstaged⟩ := (staged_initial p (fun _ => 0) (fun _ => 0)).forM_visit
    (prepared_initial p) hranges hdeclared hcontent (List.nil_append _).symm hexecutes hsimulation
  have settled := hprepared.settled hstaged models hranges (apart s₁ hsimulation)
  obtain ⟨A, -, ⟨C, hC, hA⟩, hprovided⟩ := LiftM.copies_forM settled (List.nil_append _).symm
    ⟨_, hstaged.copiedNodes settled, fun n c hc => (hc : c ∈ (∅ : Set Copy)).elim⟩ hcopies
  have hstart : WithJumps s₃ s₃ := ⟨rfl, rfl, fun n => ⟨[], [], by simp, by simp, by simp⟩⟩
  obtain ⟨-, -, hs₄, -⟩ := @LiftM.JumpRules.insertJumps _ _ _ p () (jumpRules_withJumps s₃) _ _ _
    hstart hjumps
  refine ⟨s₁, lo, hi, C, hstaged, settled, hs₄.labels.trans hC.labels, ?_, fun n hn => ?_,
    fun n c hc => ?_, hC.ordered, fun m hm u x hx => ?_⟩
  · rw [hs₄.refinements, hC.refinements]
    exact hprepared.refinements
  · obtain ⟨lead, jumps, hlead, hjumps, hcode⟩ := hs₄.code n
    exact ⟨_, lead, s₃.codeOf n, jumps, hlead, hjumps, hC.code n hn, hcode⟩
  · obtain ⟨m, hm, hmade⟩ := hC.made n c hc
    exact ⟨m, LiftState.mem_mergesInOrder.mp hm, hmade⟩
  · refine LiftM.lasting_provided m u x (fun n c hc => hA n c hc) ?_
    exact hprovided m (LiftState.mem_mergesInOrder.mpr hm) u x hx

end StackLift
