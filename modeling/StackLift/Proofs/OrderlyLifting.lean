import StackLift.Proofs.FinishedBlocks
import StackLift.Proofs.RegisterTyping

/-! Lifting never comes to a node before it knows a frame with which control enters the node. -/

namespace StackLift

/-- The node can be reached from the entry, as far as pruning knows. -/
def NodeGraph.IsLive (g : NodeGraph) (n : Nat) : Prop :=
  n < g.size ∧ g.isDead n = false

instance (g : NodeGraph) (n : Nat) : Decidable (g.IsLive n) :=
  inferInstanceAs (Decidable (_ ∧ _))

theorem NodeGraph.Pruned.isLive_iff {g : NodeGraph} (pruned : g.Pruned) {n : Nat}
    : g.IsLive n ↔ g.Reaches n := by
  rw [IsLive, ← Bool.not_eq_true, pruned.dead]
  constructor
  · rintro ⟨hn, hdead⟩
    by_contra h
    exact hdead ⟨hn, h⟩
  · exact fun h => ⟨h.lt_size pruned.size, fun hdead => hdead.2 h⟩

variable {p : Plan}

open LiftM in
theorem leads_liftCode (sound : p.Sound)
    : (liftCode p).Leads (.initial p) fun code s =>
        Joined p p.graph.graph.nodes s ∧ code = s.assembled p := by
  refine .bind ((leads_simulation sound).mono fun _ s₁ h₁ => ?_)
  refine .bind (.of_run rfl ?_)
  refine .bind (((h₁.complete sound).markResult.insertCopies sound).mono fun _ s₂ h₂ => ?_)
  refine .bind ((Joined.insertJumps sound h₂).mono fun _ s₃ h₃ => ?_)
  exact .get_bind (.pure ⟨h₃, rfl⟩)

theorem orderly_run' {α : Type} {x : LiftM α} {s : LiftState} (h : Orderly (x.run s))
    : Orderly (x.run' s) :=
  h.bind fun _ _ => .ok _

theorem orderly_simplify (code : List Inst)
    : Orderly (simplify code) := by
  unfold simplify
  split
  · exact .ok _
  · exact .error rfl

theorem orderly_lift {m : Method} (once : m.LabelsOnce) (settings : Settings)
    : Orderly (m.lift settings) := by
  refine Orderly.bind ?_ fun code _ => ?_
  · refine (Plan.orderly_ofMethod m settings).bind fun p hp => orderly_run' ?_
    exact (leads_liftCode (Plan.sound_ofMethod once hp).2.2).1
  · split
    · exact (orderly_simplify code).bind fun _ _ => .ok _
    · exact .ok _

/-- Where each label is placed at most once, lifting never misses the frame of a node: a live node
that is no label has one predecessor, a live node that is not the entry comes after one of its
predecessors, and in the end all live nodes have frames.
-/
theorem lifting_finds_every_frame {m : Method} (once : m.LabelsOnce) (settings : Settings)
    : (∀ n, m.lift settings ≠ .error (.frameOutOfOrder n))
      ∧ (∀ n, m.lift settings ≠ .error (.noSinglePredecessor n))
      ∧ ∀ p, Plan.ofMethod m settings = .ok p →
          (∀ n node, p.graph.graph.IsLive n → m.node? n = some node → node.label? = none →
            ∃ u, p.graph.graph.predecessors n = [u])
          ∧ (∀ n, p.graph.graph.IsLive n → n ≠ NodeGraph.entry →
            ∃ before after, p.graph.graph.order = before ++ n :: after
              ∧ ∃ u ∈ p.graph.graph.predecessors n, u ∈ before)
          ∧ ∀ code s, (LiftM.liftCode p).run (.initial p) = .ok (code, s) →
            ∀ n, p.graph.graph.IsLive n → (s.frameOf? n).isSome = true := by
  have hlift := orderly_lift once settings
  refine ⟨fun n h => (nomatch hlift _ h), fun n h => (nomatch hlift _ h), fun p hp => ?_⟩
  obtain ⟨rfl, -, sound⟩ := Plan.sound_ofMethod once hp
  have pruned := sound.models.pruned
  refine ⟨fun n node live hn hl => ?_, fun n live hne => ?_, fun code s hx n live => ?_⟩
  · exact ⟨n - 1, sound.models.predecessors_eq (pruned.isLive_iff.mp live) hn hl⟩
  · obtain ⟨before, after, horder⟩ :=
      List.mem_iff_append.mp (pruned.mem_order.mpr (pruned.isLive_iff.mp live))
    refine ⟨before, after, horder, ?_⟩
    exact (NodeGraph.enteredFrom_of_order horder).resolve_left hne
  · exact ((leads_liftCode sound).2 code s hx).1.frames (pruned.isLive_iff.mp live)

-- A loop that is entered at two nodes

/-- A method with a loop that is also entered in the middle. The end of its protected range is
dead.
-/
def entersMiddle : Method :=
  { staticMethod ⟨[.base .int], some (.base .int)⟩
      [.plain (.load .int 0), .branch (.ifZero .eq ⟨1⟩),
        .label ⟨0⟩, .plain .nop,
        .label ⟨1⟩, .plain (.increment 0 1), .plain (.load .int 0), .branch (.ifZero .ne ⟨0⟩),
        .plain (.load .int 0), .branch (.returnValue .int),
        .label ⟨2⟩,
        .label ⟨3⟩, .plain (.shuffle .pop), .plain (.pushByte 0), .branch (.returnValue .int)] with
    ranges := [{ start := ⟨0⟩, stop := ⟨2⟩, handler := ⟨3⟩, catchType := none }] }

def enteringGraph : MethodGraph :=
  { graph := ⟨#[[], [0], [1], [2, 8], [3], [2, 4], [5], [6], [7], [8], [9], [],
      [2, 3, 4, 5, 6, 7, 8, 9, 10], [12], [13], [14]], [11]⟩
    labels := [(⟨0⟩, 3), (⟨1⟩, 5), (⟨3⟩, 12)]
    handlers := [(12, [0])] }

def enteringPlan (settings : Settings) : Plan :=
  { method := entersMiddle
    settings
    graph := enteringGraph
    places := [(⟨0⟩, 3), (⟨1⟩, 5), (⟨2⟩, 11), (⟨3⟩, 12)]
    variableTable := []
    declared := [] }

theorem graph_entersMiddle
    : MethodGraph.ofMethod entersMiddle = .ok enteringGraph := by
  decide +kernel

theorem plan_entersMiddle (settings : Settings)
    : Plan.ofMethod entersMiddle settings = .ok (enteringPlan settings) := by
  simp only [Plan.ofMethod, graph_entersMiddle]
  rfl

/-- The middle of the loop is simulated from outside, before the node that jumps back to it. -/
theorem middle_simulated_from_outside
    : entersMiddle.LabelsOnce
      ∧ Plan.ofMethod entersMiddle rawSettings = .ok (enteringPlan rawSettings)
      ∧ enteringGraph.graph.IsLive 5
      ∧ ∃ before after, enteringGraph.graph.order = before ++ 5 :: after
        ∧ ∃ u ∈ enteringGraph.graph.predecessors 5, u ∈ before := by
  have once : entersMiddle.LabelsOnce := by decide
  have plan := plan_entersMiddle rawSettings
  have live : enteringGraph.graph.IsLive 5 := by decide
  have found := (lifting_finds_every_frame once rawSettings).2.2 _ plan
  exact ⟨once, plan, live, found.2.1 5 live (by decide)⟩

end StackLift
