import StackLift.Proofs.CodeRuns
import StackLift.Proofs.InsertedCopies

/-!
The registers with which control comes to a node. After the copies of the node before it, the frame
from which the code of the node starts matches the memory.
-/

namespace StackLift

open StackMachine RegisterMachine LiftState

/-- A verified method is simulated, and the copies for its joins are inserted. -/
structure Translated (p : Plan) (T : Typing) (lo hi : Nat → Nat) (start : LiftState)
    (C : Nat → List Copy) (s : LiftState) : Prop where
  models : MethodGraph.Models p.method p.graph
  noRanges : p.method.ranges = []
  verifies : T.Verifies p.method
  declared : T.Declared p
  staged : Staged p lo hi p.graph.graph.order start
  settled : Settled p start
  copied : Copied p start C s

variable {p : Plan} {T : Typing} {lo hi : Nat → Nat} {start s : LiftState} {C : Nat → List Copy}
  {n u : Nat} {m m' : Merge} {place : Place} {v x : Value} {f : Frame} {c : Copy}

-- Merges

theorem LiftState.MergesNumbered.eq_of_index (h : start.MergesNumbered) (hm : m ∈ start.merges)
    (hm' : m' ∈ start.merges) (hindex : m.target.index = m'.target.index)
    : m = m' := by
  by_contra hne
  have hapart : start.merges.Pairwise fun m m' => m.target.index ≠ m'.target.index :=
    h.ascending.imp Nat.ne_of_lt
  have : Std.Symm fun m m' : Merge => m.target.index ≠ m'.target.index := ⟨fun _ _ => Ne.symm⟩
  exact hapart.forall hm hm' hne hindex

theorem LiftState.isMerged_eq_true
    : start.isMerged n place v = true ↔ ∃ m ∈ start.merges, m.node = n ∧ m.place = place
      ∧ v.Same (.register m.target) := by
  simp [isMerged, and_assoc]

namespace Staged

variable (h : Staged p lo hi p.graph.graph.order start)

include h

/-- Only labels have merges. -/
theorem isMerged_of_not_label (hn : ∀ l, p.node? n ≠ some (.label l))
    : start.isMerged n place v = false := by
  by_contra hmerged
  obtain ⟨m, hm, rfl, -, -⟩ := isMerged_eq_true.mp (Bool.not_eq_false _ ▸ hmerged)
  obtain ⟨l, hl⟩ := h.joins m hm
  exact hn l hl

/-- A value that came from a node before the label is not the register of a merge at it. -/
theorem isMerged_of_precedes (hprecedes : p.graph.graph.Precedes u n)
    (hf : start.frameOf? u = some f) (hx : f.Has x) (hsame : x.Same v)
    : start.isMerged n place v = false := by
  by_contra hmerged
  obtain ⟨m, hm, rfl, -, hv⟩ := isMerged_eq_true.mp (Bool.not_eq_false _ ▸ hmerged)
  exact (h.below_of_precedes hprecedes hf hx).not_same (h.merges m hm).2.1 (hsame.trans hv)

/-- The registers that are made for another node are no registers of merges at the node. -/
theorem target_not_made (hu : u ∈ p.graph.graph.order) (hm : m ∈ start.merges) (hne : m.node ≠ u)
    : ¬ (lo u ≤ m.target.index ∧ m.target.index < hi u) := by
  rintro ⟨hle, hlt⟩
  obtain ⟨hnode, hle', hlt'⟩ := h.merges m hm
  have hapart : p.graph.graph.order.Pairwise fun u n => hi u ≤ lo n ∨ hi n ≤ lo u :=
    h.stages.imp .inl
  have : Std.Symm fun u n => hi u ≤ lo n ∨ hi n ≤ lo u := ⟨fun _ _ => Or.symm⟩
  rcases hapart.forall hnode hu hne with hle'' | hle'' <;> omega

end Staged

-- Copies

theorem LiftState.mem_copiesAt (hm : m ∈ start.merges) (hx : start.copied? p u m = some x)
    : (m.target, x) ∈ start.copiesAt p u :=
  List.mem_filterMap.mpr ⟨m, mem_mergesInOrder.mpr hm, by simp [hx]⟩

theorem LiftState.frameInto?_of_not_label (hn : ∀ l, p.node? n ≠ some (.label l))
    : start.frameInto? p u n = start.frameOf? u := by
  unfold frameInto?
  split
  next l hl => exact absurd hl (hn l)
  next => rfl

theorem eval_moves_of_not_same {D : Type} {I : Interpretation D} {registers : RegisterFile D}
    {copies : List Copy} (hsimple : v.isSimple = true)
    (h : ∀ c ∈ copies, ¬ v.Same (.register c.1))
    : I.eval [] (I.moves copies registers) v = I.eval [] registers v := by
  cases v with
  | register r =>
      refine moves_of_not_target fun c hc hkey => h c hc ?_
      exact Value.same_register_iff.mpr ⟨r, rfl, hkey.symm⟩
  | this | argument | constant => rfl
  | _ => cases hsimple

namespace Translated

variable (h : Translated p T lo hi start C s)

include h

theorem not_copied (hv : ∀ c ∈ start.copiesAt p u, ¬ v.Same (.register c.1))
    : ∀ c ∈ C u, ¬ v.Same (.register c.1) := by
  intro c hc
  obtain ⟨m, hm, x, hx, htarget, -⟩ := h.copied.made u c hc
  rw [htarget]
  exact hv _ (mem_copiesAt hm hx)

/-- A copy to the register of a merge copies the value that the merge needs. -/
theorem same_of_target (hc : c ∈ C u) (hm : m ∈ start.merges) (hkey : c.1.key = m.target.key)
    : ∃ x, start.copied? p u m = some x ∧ c.2.Same x := by
  obtain ⟨m', hm', x, hx, htarget, hsame⟩ := h.copied.made u c hc
  rw [htarget] at hkey
  rw [← h.staged.numbered.eq_of_index hm' hm (Register.index_eq_of_key hkey)]
  exact ⟨x, hx, hsame⟩

theorem sequenced (u : Nat)
    : Sequenced (C u) where
  simple c hc := by
    obtain ⟨m, -, x, hx, -, hsame⟩ := h.copied.made u c hc
    obtain ⟨-, ⟨f, hf, hplace⟩, -⟩ := copied?_eq_some.mp hx
    exact ((h.settled.below hf (Frame.has_of_place hplace)).same hsame).simple
  ordered := h.copied.ordered u
  single c hc c' hc' hkey := by
    obtain ⟨m, hm, x, hx, htarget, hsame⟩ := h.copied.made u c hc
    obtain ⟨x', hx', hsame'⟩ := h.same_of_target hc' hm (hkey.symm.trans (by rw [htarget]))
    rw [Option.some.inj (hx.symm.trans hx')] at hsame
    exact hsame.trans hsame'.symm

/-- If every way into a node copies for a merge, the node does not assign the register of it. -/
theorem target_not_assigned (hu : u ∈ p.graph.graph.order) (hm : m ∈ start.merges)
    (hall : ∀ w ∈ p.graph.graph.predecessors u, ∃ y, start.copied? p w m = some y)
    : m.target.key ∉ assignedIn (start.codeOf u) := by
  rintro ⟨i, hi, hassigned⟩
  obtain ⟨f, -, hsimulates⟩ := h.staged.nodes u hu
  generalize start.codeOf u = insts at hi hsimulates
  cases hsimulates with
  | entry => cases hi
  | label | line =>
      rw [List.mem_singleton.mp hi] at hassigned
      cases hassigned
  | @plain _ _ g _ _ hnode _ hbefore hperforms =>
      obtain ⟨w, hw, -, hg⟩ := hbefore
      rcases hperforms.assigns i hi _ hassigned with ⟨r, hr, hkey⟩ | hmade
      · -- The node before it would overwrite a register that it takes over.
        obtain ⟨y, hy⟩ := hall w (by simp [hw])
        obtain ⟨place, hplace⟩ := hr.exists_place
        have hinto : start.frameInto? p w u = some g := by rw [frameInto?, hnode, hg]
        have hmerged := @Staged.isMerged_of_not_label _ _ _ _ u place (.register r) h.staged
          (by simp [hnode])
        exact h.settled.apart.kept (by simp [hw]) hinto hplace hmerged _
          (mem_copiesAt hm hy) (Value.same_register_iff.mpr ⟨r, rfl, hkey⟩)
      · refine h.staged.target_not_made hu hm ?_ hmade
        rintro rfl
        obtain ⟨l, hl⟩ := h.staged.joins m hm
        cases hl.symm.trans hnode
  | branch _ _ _ hleaves =>
      rw [hleaves.assigned? i hi] at hassigned
      cases hassigned

end Translated

-- Arrivals

/-- The frame from which the code of a node starts. -/
inductive FrameInto (p : Plan) (s : LiftState) (n : Nat) : Frame → Prop
  | entry : p.node? n = none → FrameInto p s n p.entryFrame
  | join {l : Label} {f : Frame} : p.node? n = some (.label l) → s.frameOf? n = some f →
    FrameInto p s n f
  | single {f : Frame} : (∀ l, p.node? n ≠ some (.label l)) → FrameBefore p s n f →
    FrameInto p s n f

section

variable {D : Type} {I : Interpretation (Datum D)} {M : Meaning D}
  {registers after final : RegisterFile (Datum D)} {S S' : Shape} {μ μ' : Memory D} {g : Frame}

/-- Control is before the code of a node: the frame from which the code starts matches the memory,
and what every way into the node has copied is still there.
-/
structure ArrivesWith (I : Interpretation (Datum D)) (p : Plan) (start : LiftState) (n : Nat)
    (registers : RegisterFile (Datum D)) (S : Shape) (μ : Memory D) : Prop where
  frame : ∀ {f}, FrameInto p start n f → f.Matches (Value.Denotes (I.eval [] registers)) S μ
  carried : ∀ {m x}, m ∈ start.merges → start.copied? p n m = some x →
    p.graph.graph.predecessors n ≠ [] →
    (∀ w ∈ p.graph.graph.predecessors n, ∃ y, start.copied? p w m = some y ∧ y.Same x) →
    I.eval [] registers x = registers m.target.key

theorem eval_of_not_assigned {insts : List Inst} (hsimple : x.isSimple = true)
    (hnot : ∀ r, x.Same (.register r) → r.key ∉ assignedIn insts)
    (hkept : ∀ y, y ∉ assignedIn insts → after y = registers y)
    : I.eval [] after x = I.eval [] registers x := by
  cases x with
  | register r => exact hkept r.key (hnot r rfl)
  | this | argument | constant => rfl
  | _ => cases hsimple

/-- The copies of a node bring each join after it the value that it needs. -/
theorem Translated.delivered (h : Translated p T lo hi start C s) (hu : u ∈ p.graph.graph.order)
    (arrives : ArrivesWith I p start u registers S μ)
    (hkept : ∀ y, y ∉ assignedIn (start.codeOf u) → after y = registers y) (hm : m ∈ start.merges)
    (hx : start.copied? p u m = some x)
    : I.moves (C u) after m.target.key = I.eval [] after x := by
  have hcopied : ∀ c ∈ C u, c.1.key = m.target.key →
      I.moves (C u) after m.target.key = I.eval [] after x := by
    intro c hc hkey
    obtain ⟨y, hy, hsame⟩ := h.same_of_target hc hm hkey
    obtain rfl := Option.some.inj (hx.symm.trans hy)
    rw [← hkey, (h.sequenced u).moves_of_mem hc]
    exact eval_of_same hsame
  rcases h.copied.provided m hm hx with ⟨y, -, hmem⟩ | ⟨hne, hall, hnot⟩
  · exact hcopied _ hmem rfl
  · by_cases hagain : ∃ c ∈ C u, c.1.key = m.target.key
    · obtain ⟨c, hc, hkey⟩ := hagain
      exact hcopied c hc hkey
    · have hassigned := h.target_not_assigned hu hm fun w hw => (hall w hw).imp fun _ hy => hy.1
      obtain ⟨-, ⟨f, hf, hplace⟩, -⟩ := copied?_eq_some.mp hx
      have hsimple := (h.settled.below hf (Frame.has_of_place hplace)).simple
      rw [moves_of_not_target fun c hc hkey => hagain ⟨c, hc, hkey⟩, hkept _ hassigned,
        ← arrives.carried hm hx hne hall, eval_of_not_assigned hsimple hnot hkept]

theorem Frame.Matches.provides {R : Value → Datum D → Prop} (h : f.Matches R S μ)
    (hS : S.Provides S')
    : f.Matches R S' μ where
  stack := h.stack
  locals hk := h.locals (hS.locals hk)

/-- Control has left a node: its frame matches the memory before the copies, which bring each join
after the node the value that it needs.
-/
structure LeavesWith (I : Interpretation (Datum D)) (p : Plan) (start : LiftState)
    (C : Nat → List Copy) (u : Nat) (after final : RegisterFile (Datum D)) (S : Shape)
    (μ : Memory D) : Prop where
  frame : ∀ {g}, start.frameOf? u = some g → g.Matches (Value.Denotes (I.eval [] after)) S μ
  delivered : ∀ {m x}, m ∈ start.merges → start.copied? p u m = some x →
    I.moves (C u) after m.target.key = I.eval [] after x
  copied : ∀ x : RegisterKey, x.1 < start.registers.next → final x = I.moves (C u) after x

namespace LeavesWith

variable (leaves : LeavesWith I p start C u after final S' μ)

include leaves

theorem eval_of_not_copied (hbelow : v.Below start.registers.next)
    (hv : ∀ c ∈ C u, ¬ v.Same (.register c.1))
    : I.eval [] final v = I.eval [] after v :=
  (eval_of_below hbelow leaves.copied).trans (eval_moves_of_not_same hbelow.simple hv)

theorem eval_target (hm : m ∈ start.merges) (hmade : start.MergesMade)
    (hx : start.copied? p u m = some x)
    : final m.target.key = I.eval [] after x :=
  (leaves.copied _ (hmade m hm)).trans (leaves.delivered hm hx)

variable (h : Translated p T lo hi start C s) (edge : u ∈ p.graph.graph.predecessors n)
  (hg : start.frameOf? u = some g)

include h edge hg

/-- A place of the frame of a label has the value that it had at the end of the node before it. -/
theorem eval_joined {l : Label} {frames : List Frame} {allKnown : Bool} {w : Value}
    (hnode : p.node? n = some (.label l)) (hf : start.frameOf? n = some f)
    (hknown : KnownFrames p start n frames allKnown)
    (hjoined : JoinedFrame p n frames allKnown start f) (hv : place.value? f = some v)
    (hw : place.value? g = some w)
    : I.eval [] final v = I.eval [] after w := by
  have hbelow := h.settled.below hf (Frame.has_of_place hv)
  cases hjoined.place hv with
  | agreed hagreed =>
      obtain ⟨hall, -, hsame⟩ := LiftM.agreement_eq_some hagreed
      have hprecedes := hknown.all hall u edge
      obtain ⟨g', hmem, hg'⟩ := hknown.known u edge hprecedes
      obtain rfl := Option.some.inj (hg.symm.trans hg')
      have hinto : start.frameInto? p u n = some f := by rw [frameInto?, hnode, hf]
      have hmerged := @Staged.isMerged_of_precedes _ _ _ _ n u place v w g h.staged hprecedes hg
        (Frame.has_of_place hw) (hsame g hmem w hw)
      rw [leaves.eval_of_not_copied hbelow
        (h.not_copied (h.settled.apart.kept edge hinto hv hmerged))]
      exact (eval_of_same (hsame g hmem w hw)).symm
  | @merged t hm =>
      by_cases hsame : w.Same (.register t)
      · rw [leaves.eval_of_not_copied hbelow fun c hc htarget => ?_]
        · exact (eval_of_same hsame).symm
        · obtain ⟨r, hr, hkey⟩ := Value.same_register_iff.mp htarget
          obtain rfl := Value.register.inj hr
          obtain ⟨x, hx, -⟩ := h.same_of_target hc hm hkey.symm
          obtain ⟨-, ⟨g', hg', hx'⟩, hne⟩ := copied?_eq_some.mp hx
          obtain rfl := Option.some.inj (hg.symm.trans hg')
          obtain rfl := Option.some.inj (hw.symm.trans hx')
          exact hne hsame
      · exact leaves.eval_target hm h.settled.made
          (copied?_eq_some.mpr ⟨edge, ⟨g, hg, hw⟩, hsame⟩)

/-- The frame of a label matches the memory with which control comes to it. -/
theorem matches_joined (hn : n ∈ p.graph.graph.order) {l : Label}
    (hnode : p.node? n = some (.label l)) (hf : start.frameOf? n = some f) (hfits : f.Fits S)
    (hfits' : g.Fits S) (hmatches : g.Matches (Value.Denotes (I.eval [] after)) S μ)
    : f.Matches (Value.Denotes (I.eval [] final)) S μ := by
  obtain ⟨f', hf', hsimulates⟩ := h.staged.nodes n hn
  obtain rfl := Option.some.inj (hf.symm.trans hf')
  generalize start.codeOf n = insts at hsimulates
  have heval : ∀ {place v w}, Place.value? f place = some v → Place.value? g place = some w →
      I.eval [] final v = I.eval [] after w := by
    cases hsimulates with
    | label hnode' _ hknown hjoined =>
        exact leaves.eval_joined h edge hg hnode' hf hknown hjoined
    | entry hnode' => cases hnode.symm.trans hnode'
    | line hnode' => cases hnode.symm.trans hnode'
    | plain hnode' => cases hnode.symm.trans hnode'
    | branch hnode' => cases hnode.symm.trans hnode'
  refine ⟨Frame.forall₂_stack_iff.mpr ⟨?_, fun {index v d} hv hd => ?_⟩, fun {slot k} hk => ?_⟩
  · rw [hfits.stack.length_eq, ← hfits'.stack.length_eq, hmatches.stack.length_eq]
  · obtain ⟨hlength, hdenotes⟩ := Frame.forall₂_stack_iff.mp hmatches.stack
    have hlt : index < g.stack.reverse.length := by
      simpa [hlength] using (List.getElem?_eq_some_iff.mp hd).1
    have hw : Place.value? g (.stack index) = some g.stack.reverse[index] :=
      List.getElem?_eq_getElem hlt
    have hk := List.getElem?_eq_getElem
      (show index < S.stack.reverse.length by simpa [hfits'.stack.length_eq] using hlt)
    have hkind := (Frame.forall₂_stack_iff.mp hfits.stack).2 hv hk
    have hkind' := (Frame.forall₂_stack_iff.mp hfits'.stack).2 hw hk
    obtain ⟨hd', hdatum⟩ := hdenotes hw hd
    rw [← hkind'.eq, hd'.eq] at hkind
    exact ⟨hkind, (heval hv hw).trans hdatum⟩
  · obtain ⟨v, hv, hkind⟩ := hfits.locals hk
    obtain ⟨w, d, hw, hd, hsame, hdenotes⟩ := hmatches.locals hk
    have heval' := @heval (.slot slot) v w hv hw
    exact ⟨v, d, hv, hd, hsame, hsame ▸ hkind, heval'.trans hdenotes.datum⟩

/-- What every way into a node has copied is not overwritten. -/
theorem eval_carried (hn : n ∈ p.graph.graph.order) (hm : m ∈ start.merges)
    (hx : start.copied? p n m = some x)
    (hall : ∀ w ∈ p.graph.graph.predecessors n, ∃ y, start.copied? p w m = some y ∧ y.Same x)
    : I.eval [] final x = final m.target.key := by
  obtain ⟨y, hy, hsame⟩ := hall u edge
  obtain ⟨-, ⟨f, hf, hplace⟩, -⟩ := copied?_eq_some.mp hx
  obtain ⟨-, ⟨g', hg', hplace'⟩, -⟩ := copied?_eq_some.mp hy
  obtain rfl := Option.some.inj (hg.symm.trans hg')
  rw [leaves.eval_target hm h.settled.made hy, eval_of_same hsame]
  refine leaves.eval_of_not_copied (h.settled.below hf (Frame.has_of_place hplace))
    (h.not_copied fun c hc => ?_)
  obtain ⟨f', hf', hsimulates⟩ := h.staged.nodes n hn
  obtain rfl := Option.some.inj (hf.symm.trans hf')
  -- A node that is no label takes over the frame before it.
  have hother : (∀ l, p.node? n ≠ some (.label l)) → ¬ x.Same (.register c.1) := by
    intro hlabel hx
    have hinto := (frameInto?_of_not_label hlabel).trans hg
    exact h.settled.apart.kept edge hinto hplace' (h.staged.isMerged_of_not_label hlabel) c hc
      (hsame.trans hx)
  generalize start.codeOf n = insts at hsimulates
  cases hsimulates with
  | label hnode _ hknown hjoined =>
      obtain ⟨g', hmem⟩ := List.exists_mem_of_ne_nil _ hjoined.nonempty
      obtain ⟨w, hw, hprecedes, hg'⟩ := hknown.only g' hmem
      obtain ⟨z, hz, hsame'⟩ := hall w hw
      obtain ⟨-, ⟨g'', hg'', hz'⟩, -⟩ := copied?_eq_some.mp hz
      obtain rfl := Option.some.inj (hg'.symm.trans hg'')
      have hinto : start.frameInto? p u n = some f := by rw [frameInto?, hnode, hf]
      exact h.settled.apart.kept edge hinto hplace
        (h.staged.isMerged_of_precedes hprecedes hg' (Frame.has_of_place hz') hsame') c hc
  | entry hnode => exact hother (by simp [hnode])
  | line hnode => exact hother (by simp [hnode])
  | plain hnode => exact hother (by simp [hnode])
  | branch hnode => exact hother (by simp [hnode])

end LeavesWith

/-- Control that leaves a node arrives at the next one. -/
theorem LeavesWith.arrives (leaves : LeavesWith I p start C u after final S' μ)
    (h : Translated p T lo hi start C s) (edge : u ∈ p.graph.graph.predecessors n)
    {before : Shape} (hu : T.shape? u = some before) (hS' : shapeAfter? p.method before u = some S')
    (hn : T.shape? n = some S) (provides : S'.Provides S)
    : ArrivesWith I p start n final S μ := by
  have hreached := h.models.pruned.reached edge
  have horder : u ∈ p.graph.graph.order := h.models.pruned.mem_order.mpr hreached
  have horder' : n ∈ p.graph.graph.order := h.models.pruned.mem_order.mpr (hreached.step edge)
  obtain ⟨g, hg, -⟩ := h.staged.nodes u horder
  have hmatches := (leaves.frame hg).provides provides
  have hfits :=
    (h.staged.fits h.models h.noRanges h.verifies h.declared u horder hg hu hS').provides provides
  refine ⟨fun {f} hf => ?_, fun hm hx _ hall => leaves.eval_carried h edge hg horder' hm hx hall⟩
  cases hf with
  | entry hnode =>
      obtain ⟨node, hnode'⟩ := (Method.flow_of_edge h.models h.noRanges edge).exists_node
      rw [p.node?_eq] at hnode
      cases hnode.symm.trans hnode'
  | join hnode hf =>
      refine leaves.matches_joined h edge hg horder' hnode hf ?_ hfits hmatches
      refine h.staged.fits h.models h.noRanges h.verifies h.declared n horder' hf hn ?_
      rw [shapeAfter?_of_node (p.node?_eq n ▸ hnode)]
      rfl
  | single hlabel hbefore =>
      obtain ⟨w, hw, -, hf⟩ := hbefore
      obtain rfl : u = w := by simpa [hw] using edge
      obtain rfl := Option.some.inj (hg.symm.trans hf)
      have hinto := (frameInto?_of_not_label hlabel).trans hg
      refine hmatches.imp fun {v d} hv hd => ⟨hd.kind, ?_⟩
      obtain ⟨place, hplace⟩ := hv.exists_place
      rw [leaves.eval_of_not_copied (h.settled.below hg hv) (h.not_copied
        (h.settled.apart.kept edge hinto hplace (h.staged.isMerged_of_not_label hlabel)))]
      exact hd.datum

end

end StackLift
