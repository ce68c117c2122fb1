import StackLift.Proofs.DepthFirstWalk
import StackLift.Proofs.SimulationOrder

/-!
The order of simulation has every live node, and a live node that is not the entry comes after one
of its predecessors.
-/

namespace StackLift

namespace NodeGraph

variable {g : NodeGraph} {ready pending : List Nat}

-- Every live node gets ready

/-- A pending node that waits for no other pending node is ready. -/
def ReadyListed (g : NodeGraph) (ready pending : List Nat) : Prop :=
  ∀ v ∈ pending, g.Reaches v → (∀ u ∈ g.forwardPredecessors g.walk v, u ∉ pending) → v ∈ ready

theorem timeOf_le (walk : List WalkEvent) (e : WalkEvent)
    : timeOf walk e ≤ walk.length := by
  unfold timeOf
  cases h : walk.idxOf? e with
  | none => exact Nat.zero_le _
  | some i => exact Nat.le_of_lt (List.findIdx?_eq_some_iff_getElem.mp h).1

variable {v : Nat}

/-- Along forward predecessors the walk leaves later, so some pending node waits for no other. -/
theorem Closed.not_mem_pending (closed : g.Closed) (h : g.ReadyListed [] pending) (hv : g.Reaches v)
    : v ∉ pending := by
  induction hk : g.walk.length - timeOf g.walk (.leave v) using Nat.strongRecOn
    generalizing v with
  | _ k ih =>
      intro hm
      refine absurd (h v hm hv fun u hu => ?_) (by simp)
      obtain ⟨edge, hback⟩ := mem_forwardPredecessors.mp hu
      have hu := closed.reached edge
      have hlt := leave_lt_of_not_isBackEdge closed.size hu edge hback
      have hle := timeOf_le g.walk (.leave u)
      exact ih _ (by omega) hu rfl

theorem ReadyListed.take {u : Nat} (h : g.ReadyListed (u :: ready) pending)
    (hnodup : pending.Nodup)
    : g.ReadyListed
        (((g.successors u).filter fun v => !isBackEdge g.walk u v
          && (g.forwardPredecessors g.walk v).all (· ∉ pending.erase u)).reverse ++ ready)
        (pending.erase u) := by
  intro v hv hreach hfree
  obtain ⟨hne, hpending⟩ := hnodup.mem_erase_iff.mp hv
  by_cases waits : u ∈ g.forwardPredecessors g.walk v
  · obtain ⟨edge, hback⟩ := mem_forwardPredecessors.mp waits
    refine List.mem_append_left _ (List.mem_reverse.mpr (List.mem_filter.mpr ?_))
    exact ⟨mem_successors.mpr edge, by simpa [hback] using hfree⟩
  · refine List.mem_append_right _
      ((List.mem_cons.mp (h v hpending hreach fun w hw hm => ?_)).resolve_left hne)
    have hsame : w ≠ u := fun same => waits (same ▸ hw)
    exact hfree w hw (hnodup.mem_erase_iff.mpr ⟨hsame, hm⟩)

theorem ReadyListed.skip {u : Nat} (h : g.ReadyListed (u :: ready) pending) (hu : u ∉ pending)
    : g.ReadyListed ready pending :=
  fun v hv hreach hfree =>
    (List.mem_cons.mp (h v hv hreach hfree)).resolve_left fun same => hu (same ▸ hv)

theorem Closed.mem_release (closed : g.Closed) (hnodup : pending.Nodup)
    (h : g.ReadyListed ready pending) (hv : g.Reaches v) (hm : v ∈ pending)
    : v ∈ g.release g.walk ready pending := by
  fun_induction release g g.walk ready pending with
  | case1 pending => exact absurd hm (closed.not_mem_pending h hv)
  | case2 u ready pending hu left opened ih =>
      by_cases same : v = u
      · simp [same]
      · exact List.mem_cons_of_mem _
          (ih (hnodup.erase u) (h.take hnodup) (hnodup.mem_erase_iff.mpr ⟨same, hm⟩))
  | case3 u ready pending hu ih => exact ih hnodup (h.skip hu) hm

-- Nodes follow a predecessor

/-- The node is the entry or has a predecessor among the given nodes. -/
def EnteredFrom (g : NodeGraph) (done : List Nat) (v : Nat) : Prop :=
  v = entry ∨ ∃ u ∈ g.predecessors v, u ∈ done

theorem EnteredFrom.mono {done more : List Nat} (h : g.EnteredFrom done v) (hsub : done ⊆ more)
    : g.EnteredFrom more v :=
  h.imp id fun ⟨u, hu, hd⟩ => ⟨u, hu, hsub hd⟩

theorem enteredFrom_of_release {walk : List WalkEvent} {done before after : List Nat}
    (hready : ∀ u ∈ ready, g.EnteredFrom done u)
    (h : g.release walk ready pending = before ++ v :: after)
    : g.EnteredFrom (done ++ before) v := by
  fun_induction release g walk ready pending generalizing done before with
  | case1 => simp at h
  | case2 u ready pending hu =>
      rename_i left opened ih
      cases before with
      | nil =>
          cases h
          simpa using hready _ (by simp)
      | cons first before =>
          injection h with hfirst h
          subst hfirst
          have hnext : ∀ w ∈ opened.reverse ++ ready, g.EnteredFrom (done ++ [u]) w := by
            intro w hw
            rcases List.mem_append.mp hw with hw | hw
            · have edge := mem_successors.mp (List.mem_filter.mp (List.mem_reverse.mp hw)).1
              exact .inr ⟨u, edge, by simp⟩
            · exact (hready w (by simp [hw])).mono (List.subset_append_left ..)
          simpa using ih hnext h
  | case3 u ready pending hu ih => exact ih (fun w hw => hready w (by simp [hw])) h

variable {before after : List Nat}

/-- A node in the order is the entry or comes after one of its predecessors. -/
theorem enteredFrom_of_order (h : g.order = before ++ v :: after)
    : g.EnteredFrom before v := by
  have hentry : ∀ u ∈ [entry], g.EnteredFrom [] u := fun u hu => .inl (List.mem_singleton.mp hu)
  simpa using enteredFrom_of_release hentry h

/-- The first node is simulated before the second. -/
def Precedes (g : NodeGraph) (u v : Nat) : Prop :=
  ∃ before after, g.order = before ++ v :: after ∧ u ∈ before

theorem eq_takeWhile_order (h : g.order = before ++ v :: after)
    : before = g.order.takeWhile (· ≠ v) := by
  have hnodup := g.nodup_order
  rw [h] at hnodup
  have hbefore : ∀ u ∈ before, u ≠ v :=
    fun u hu => (List.nodup_append.mp hnodup).2.2 u hu v List.mem_cons_self
  rw [h, List.takeWhile_append_of_pos (by simpa using hbefore)]
  simp

theorem precedes_iff {u v : Nat} (h : g.order = before ++ v :: after)
    : g.Precedes u v ↔ u ∈ before := by
  constructor
  · intro ⟨before', after', h', hu⟩
    rwa [eq_takeWhile_order h, ← eq_takeWhile_order h']
  · exact fun hu => ⟨before, after, h, hu⟩

theorem reaches_of_mem_order (h : v ∈ g.order)
    : g.Reaches v := by
  -- By induction on the place in the order: the predecessor has an earlier one.
  obtain ⟨before, after, h⟩ := List.mem_iff_append.mp h
  clear * - h
  induction hk : before.length using Nat.strongRecOn generalizing v before after with
  | _ k ih =>
      rcases enteredFrom_of_order h with rfl | ⟨u, edge, hu⟩
      · exact .refl
      · obtain ⟨first, rest, rfl⟩ := List.mem_iff_append.mp hu
        refine (ih first.length (by simp [← hk]) first (rest ++ v :: after) ?_ rfl).step edge
        simpa using h

/-- The order has exactly the nodes that can be reached. -/
theorem Closed.mem_order (closed : g.Closed)
    : v ∈ g.order ↔ g.Reaches v := by
  refine ⟨reaches_of_mem_order, fun hv => ?_⟩
  refine closed.mem_release List.nodup_range (fun w _ hreach hfree => ?_) hv
    (List.mem_range.mpr (hv.lt_size closed.size))
  by_contra hne
  obtain ⟨u, edge, hback⟩ :=
    exists_forward_predecessor closed.size hreach fun same => hne (by simp [same])
  exact hfree u (mem_forwardPredecessors.mpr ⟨edge, hback⟩)
    (List.mem_range.mpr ((closed.reached edge).lt_size closed.size))

end NodeGraph

end StackLift
