import Mathlib.Data.List.Chain
import Mathlib.Data.List.Perm.Subperm
import StackLift.Flow.Dominator
import StackLift.Proofs.BlockQuotient
import StackLift.Proofs.EscapingExceptions
import StackLift.Proofs.Reachability

/-!
Dominance. An instruction is dominated by those that lie on every path to it from the first
instruction, and its dominators form a chain from itself to the first instruction.
-/

namespace StackLift

-- Sets of nodes

namespace NodeSet

theorem contains_insert {s : NodeSet} {node other : Nat}
    : (s.insert node).contains other = true
      ↔ s.contains other = true ∨ other = node ∧ node < s.marks.size := by
  simp only [insert, contains, Array.getD_eq_getD_getElem?, Array.getElem?_setIfInBounds]
  by_cases same : node = other
  · subst same
    by_cases inside : node < s.marks.size <;> simp [inside]
  · simp [same, Ne.symm same]

theorem contains_ofList {bound node : Nat} {nodes : List Nat}
    : (ofList bound nodes).contains node = true ↔ node ∈ nodes ∧ node < bound := by
  have hfold : ∀ (s : NodeSet), s.marks.size = bound →
      ((nodes.foldl insert s).contains node = true
        ↔ s.contains node = true ∨ node ∈ nodes ∧ node < bound) := by
    induction nodes with
    | nil => simp
    | cons n rest ih =>
        intro s hsize
        rw [List.foldl_cons, ih (s.insert n) (by simp [insert, hsize]), contains_insert, hsize,
          List.mem_cons]
        constructor
        · rintro ((h | ⟨rfl, h⟩) | ⟨h, hlt⟩)
          · exact .inl h
          · exact .inr ⟨.inl rfl, h⟩
          · exact .inr ⟨.inr h, hlt⟩
        · rintro (h | ⟨rfl | h, hlt⟩)
          · exact .inl (.inl h)
          · exact .inl (.inr ⟨rfl, hlt⟩)
          · exact .inr ⟨h, hlt⟩
  have hempty : (empty bound).contains node = false := by
    simp only [empty, contains, Array.getD_eq_getD_getElem?, Array.getElem?_replicate]
    split <;> rfl
  rw [ofList, hfold _ (by simp [empty]), hempty]
  simp

end NodeSet

-- Paths

namespace FlowGraph

/-- A path from the first instruction to another one, whose steps may be exceptions. -/
structure IsPath (g : FlowGraph) (path : List Nat) (a : Nat) : Prop where
  start : path.head? = g.entry?
  stop : path.getLast? = some a
  steps : path.IsChain fun u v => v ∈ g.allSuccessors u

/-- A path leads to the instruction. -/
def IsReached (g : FlowGraph) (a : Nat) : Prop :=
  ∃ path, g.IsPath path a

/-- The second instruction is reached, and all paths to it lead through the first one. -/
def Dominates (g : FlowGraph) (d a : Nat) : Prop :=
  g.IsReached a ∧ ∀ path, g.IsPath path a → d ∈ path

/-- Steps lead to instructions of the graph. -/
def Closed (g : FlowGraph) : Prop :=
  ∀ u, ∀ v ∈ g.allSuccessors u, v < g.size

variable {g : FlowGraph} {a b d e x : Nat} {path other before after : List Nat}

theorem entry?_eq_some
    : g.entry? = some e ↔ e = 0 ∧ 0 < g.size := by
  have hindices : g.entry? = (List.range g.size).head? := rfl
  rw [hindices, List.head?_range]
  split <;> simp <;> omega

namespace IsPath

theorem mem_stop (h : g.IsPath path a)
    : a ∈ path :=
  List.mem_of_getLast? h.stop

/-- The part of a path up to an instruction leads to it. -/
theorem upTo (h : g.IsPath (before ++ x :: after) a)
    : g.IsPath (before ++ [x]) x where
  start := by
    rw [← h.start]
    cases before <;> rfl
  stop := List.getLast?_concat
  steps := (List.isChain_split.mp h.steps).1

/-- Another path to an instruction can replace the part up to it. -/
theorem splice (h : g.IsPath (before ++ x :: after) a) (hx : g.IsPath other x)
    : g.IsPath (other ++ after) a where
  start := by
    rw [← hx.start, List.head?_append_of_ne_nil _ (List.ne_nil_of_mem hx.mem_stop)]
  stop := by
    have hstop := h.stop
    rw [List.getLast?_append_cons, List.getLast?_cons] at hstop
    rw [List.getLast?_append, hx.stop, ← hstop]
    cases after.getLast? <;> rfl
  steps := by
    have hrest := List.isChain_cons.mp (List.isChain_split.mp h.steps).2
    refine List.isChain_append.mpr ⟨hx.steps, hrest.2, fun u hu => ?_⟩
    rw [hx.stop, Option.mem_some_iff] at hu
    exact hu ▸ hrest.1

theorem step (h : g.IsPath path a) (edge : b ∈ g.allSuccessors a)
    : g.IsPath (path ++ [b]) b where
  start := by
    rw [← h.start, List.head?_append_of_ne_nil _ (List.ne_nil_of_mem h.mem_stop)]
  stop := List.getLast?_concat
  steps := by
    refine List.isChain_append.mpr ⟨h.steps, List.isChain_singleton b, ?_⟩
    simpa [h.stop] using edge

theorem of_entry (h : g.entry? = some e)
    : g.IsPath [e] e :=
  ⟨h.symm, rfl, List.isChain_singleton e⟩

end IsPath

/-- A row of instructions along edges, seen as steps between them. -/
theorem steps_of_isChain {P : Nat → Prop} {rest : List Nat}
    (steps : (a :: rest).IsChain fun u v => v ∈ g.allSuccessors u)
    (stop : (a :: rest).getLast? = some b) (hrow : ∀ x ∈ a :: rest, P x)
    : Relation.ReflTransGen (fun u v => v ∈ g.allSuccessors u ∧ P v) a b := by
  have hlast : (a :: rest).getLast (List.cons_ne_nil a rest) = b := by
    rw [List.getLast?_eq_getLast_of_ne_nil (List.cons_ne_nil a rest)] at stop
    exact Option.some.inj stop
  refine List.relationReflTransGen_of_exists_isChain_cons rest ?_ hlast
  exact steps.imp_of_mem_imp fun u v _ hv edge => ⟨edge, hrow v hv⟩

/-- Paths through some of the instructions, seen as steps between them. -/
theorem exists_path_iff {P : Nat → Prop}
    : (∃ path, g.IsPath path a ∧ ∀ x ∈ path, P x)
      ↔ ∃ e, g.entry? = some e ∧ P e
        ∧ Relation.ReflTransGen (fun u v => v ∈ g.allSuccessors u ∧ P v) e a := by
  constructor
  · rintro ⟨path, ⟨start, stop, steps⟩, hpath⟩
    cases path with
    | nil => cases stop
    | cons e rest =>
        exact ⟨e, start.symm, hpath e List.mem_cons_self, steps_of_isChain steps stop hpath⟩
  · rintro ⟨e, hentry, he, steps⟩
    induction steps with
    | refl => exact ⟨[e], .of_entry hentry, by simpa using he⟩
    | tail _ edge ih =>
        obtain ⟨path, hpath, hP⟩ := ih
        refine ⟨path ++ [_], hpath.step edge.1, fun x hx => ?_⟩
        rcases List.mem_append.mp hx with hx | hx
        · exact hP x hx
        · exact List.mem_singleton.mp hx ▸ edge.2

theorem closed_ofResolved (r : ResolvedCode) (h : Hierarchy)
    : (ofResolved r h).Closed := by
  intro u v hv
  rcases List.mem_append.mp (List.mem_eraseDups.mp hv) with hv | hv
  · exact (BlockGraph.lt_size_of_mem_successors hv).2
  · exact (mem_catchers.mp hv).2.1

theorem closed_of_ofCode {code : List Inst} {hierarchy : Hierarchy}
    (accepted : ofCode code hierarchy = .ok g)
    : g.Closed := by
  obtain ⟨r, -, hg⟩ := except_bind_eq_ok.mp accepted
  cases hg
  exact closed_ofResolved r hierarchy

theorem IsPath.lt_size_of_mem (closed : g.Closed) (h : g.IsPath path a) (hx : x ∈ path)
    : x < g.size := by
  obtain ⟨before, after, rfl⟩ := List.append_of_mem hx
  obtain ⟨e, hentry, -, steps⟩ := exists_path_iff (P := fun _ => True).mp ⟨_, h.upTo, by simp⟩
  obtain ⟨rfl, hsize⟩ := entry?_eq_some.mp hentry
  rcases Relation.ReflTransGen.cases_tail steps with rfl | ⟨u, -, edge⟩
  · exact hsize
  · exact closed u x edge.1

-- Dominance

theorem IsReached.dominates_self (h : g.IsReached a)
    : g.Dominates a a :=
  ⟨h, fun _ hpath => hpath.mem_stop⟩

theorem IsReached.exists_entry (h : g.IsReached a)
    : ∃ e, g.entry? = some e ∧ g.Dominates e a := by
  obtain ⟨path, hpath⟩ := h
  cases hentry : g.entry? with
  | none =>
      have hnil := hpath.start.trans hentry
      rw [List.head?_eq_none_iff.mp hnil] at hpath
      cases hpath.stop
  | some e =>
      refine ⟨e, rfl, ⟨path, hpath⟩, fun other hother => ?_⟩
      exact List.mem_of_head? (hother.start.trans hentry)

/-- Only the first instruction dominates the first instruction. -/
theorem Dominates.eq_entry (h : g.Dominates d e) (he : g.entry? = some e)
    : d = e :=
  List.mem_singleton.mp (h.2 [e] (.of_entry he))

theorem IsReached.exists_path_without (h : g.IsReached a) (hnot : ¬ g.Dominates d a)
    : ∃ path, g.IsPath path a ∧ d ∉ path := by
  by_contra hall
  refine hnot ⟨h, fun path hpath => ?_⟩
  by_contra hd
  exact hall ⟨path, hpath, hd⟩

namespace Dominates

/-- A dominator is itself reached, by the part of a path up to it. -/
theorem isReached (h : g.Dominates d a)
    : g.IsReached d := by
  obtain ⟨⟨path, hpath⟩, through⟩ := h
  obtain ⟨before, after, rfl⟩ := List.append_of_mem (through path hpath)
  exact ⟨_, hpath.upTo⟩

theorem trans (h : g.Dominates d b) (h' : g.Dominates b a)
    : g.Dominates d a := by
  refine ⟨h'.1, fun path hpath => ?_⟩
  obtain ⟨before, after, rfl⟩ := List.append_of_mem (h'.2 path hpath)
  have hd := h.2 _ hpath.upTo
  rw [List.append_cons]
  exact List.mem_append_left after hd

/-- Of two instructions that dominate each other, a path to one would lead through the other, and
the part up to that one through the first again, so it would have no end.
-/
theorem antisymm (h : g.Dominates a b) (h' : g.Dominates b a)
    : a = b := by
  by_contra hne
  have shorter : ∀ {x y path}, x ≠ y → g.Dominates x y → g.IsPath path y →
      ∃ other, g.IsPath other x ∧ other.length < path.length := by
    intro x y path hne h hpath
    obtain ⟨before, after, rfl⟩ := List.append_of_mem (h.2 path hpath)
    refine ⟨_, hpath.upTo, ?_⟩
    have hafter : after ≠ [] := by
      rintro rfl
      exact hne (Option.some.inj (List.getLast?_concat.symm.trans hpath.stop))
    have := List.length_pos_iff.mpr hafter
    simp only [List.length_append, List.length_cons, List.length_nil]
    omega
  have endless : ∀ n, ∀ path, g.IsPath path b → path.length ≠ n := by
    intro n
    induction n using Nat.strong_induction_on with
    | _ n ih =>
        rintro path hpath rfl
        obtain ⟨middle, hmiddle, hlt⟩ := shorter hne h hpath
        obtain ⟨other, hother, hlt'⟩ := shorter (Ne.symm hne) h' hmiddle
        exact ih other.length (Nat.lt_trans hlt' hlt) other hother rfl
  obtain ⟨path, hpath⟩ := h.1
  exact endless _ path hpath rfl

/-- A path with an instruction for the last time can be replaced up to there by one that avoids
another instruction, so that must lie on the rest.
-/
theorem mem_after (h : g.Dominates d a) (hnot : ¬ g.Dominates d b) (hb : g.IsReached b)
    (hpath : g.IsPath (before ++ b :: after) a)
    : d ∈ after := by
  obtain ⟨other, hother, havoids⟩ := hb.exists_path_without hnot
  have hspliced := h.2 _ (hpath.splice hother)
  exact (List.mem_append.mp hspliced).resolve_left havoids

/-- Of two dominators of an instruction, one dominates the other. -/
theorem total (h : g.Dominates d a) (h' : g.Dominates e a)
    : g.Dominates d e ∨ g.Dominates e d := by
  by_contra hneither
  obtain ⟨hde, hed⟩ := not_or.mp hneither
  -- Each of the two lies behind the other on the rest of a path, whichever comes last.
  have endless : ∀ n, ∀ before after, g.IsPath (before ++ d :: after) a → after.length ≠ n := by
    intro n
    induction n using Nat.strong_induction_on with
    | _ n ih =>
        rintro before after hpath rfl
        obtain ⟨middle, rest, rfl⟩ := List.append_of_mem (h'.mem_after hed h.isReached hpath)
        have hpath' : g.IsPath ((before ++ d :: middle) ++ e :: rest) a := by simpa using hpath
        obtain ⟨middle', rest', rfl⟩ := List.append_of_mem (h.mem_after hde h'.isReached hpath')
        refine ih rest'.length ?_ (before ++ d :: middle ++ e :: middle') rest' ?_ rfl
        · simp only [List.length_append, List.length_cons]
          omega
        · simpa using hpath'
  obtain ⟨path, hpath⟩ := h.1
  obtain ⟨before, after, rfl⟩ := List.append_of_mem (h.2 path hpath)
  exact endless _ before after hpath rfl

end Dominates

/-- The first instruction is the closest of the dominators of the second one, apart from that
itself.
-/
structure IsImmediate (g : FlowGraph) (d a : Nat) : Prop where
  dominates : g.Dominates d a
  ne : d ≠ a
  closest : ∀ {e}, g.Dominates e a → e ≠ a → g.Dominates e d

theorem IsImmediate.unique (h : g.IsImmediate b a) (h' : g.IsImmediate d a)
    : b = d :=
  (h'.closest h.dominates h.ne).antisymm (h.closest h'.dominates h'.ne)

/-- Of the other dominators, all of which lie on one path, one is dominated by the rest. -/
theorem IsReached.exists_immediate (h : g.IsReached a) (hne : g.entry? ≠ some a)
    : ∃ d, g.IsImmediate d a := by
  obtain ⟨e, hentry, he⟩ := h.exists_entry
  have hclosest : ∀ row : List Nat, ∃ d, g.Dominates d a ∧ d ≠ a
      ∧ ∀ x ∈ row, g.Dominates x a → x ≠ a → g.Dominates x d := by
    intro row
    induction row with
    | nil => exact ⟨e, he, fun same => hne (same ▸ hentry), nofun⟩
    | cons y row ih =>
        obtain ⟨d, hd, hda, hrow⟩ := ih
        by_cases hy : g.Dominates y a ∧ y ≠ a
        · rcases hy.1.total hd with hyd | hdy
          · refine ⟨d, hd, hda, List.forall_mem_cons.mpr ⟨fun _ _ => hyd, hrow⟩⟩
          · refine ⟨y, hy.1, hy.2, List.forall_mem_cons.mpr ⟨fun _ _ => ?_, fun x hx hxa hne => ?_⟩⟩
            · exact hy.1.isReached.dominates_self
            · exact (hrow x hx hxa hne).trans hdy
        · exact ⟨d, hd, hda, List.forall_mem_cons.mpr ⟨fun h h' => absurd ⟨h, h'⟩ hy, hrow⟩⟩
  obtain ⟨path, hpath⟩ := h
  obtain ⟨d, hd, hda, hrow⟩ := hclosest path
  exact ⟨d, hd, hda, fun hx hxa => hrow _ (hx.2 path hpath) hx hxa⟩

end FlowGraph

-- Walks along immediate dominators

namespace Dominators

open FlowGraph

variable {g : FlowGraph} {d : Dominators} {a x : Nat}

/-- The tree is that of the immediate dominators: its root is the first instruction, and above each
instruction stands its immediate dominator, if it has one.
-/
structure IsTreeOf (d : Dominators) (g : FlowGraph) : Prop where
  root : d.root? = g.entry?
  immediate : ∀ {i j}, d.immediate? i = some j ↔ g.IsImmediate j i

theorem walk_eq_cons (d : Dominators) (a : Nat)
    : d.walk a = a :: ((d.immediate? a).map d.walk).getD [] := by
  rw [walk]
  split
  next hnone => rw [hnone, Option.map_none, Option.getD_none]
  next b hb => rw [hb, Option.map_some, Option.getD_some]

theorem search_iff {i : Nat}
    : d.search i x a = true ↔ d.isReachable i = true ∧ x ∈ d.walk a := by
  fun_induction search d i x a with
  | case1 => simp [walk_eq_cons]
  | case2 candidate hne hnone => simp [walk_eq_cons d candidate, hnone, Ne.symm hne]
  | case3 candidate hne next hnext ih =>
      simp [walk_eq_cons d candidate, hnext, Ne.symm hne, ih]

namespace IsTreeOf

variable (tree : d.IsTreeOf g)

include tree

theorem contains_iff
    : d.contains a = true ↔ g.IsReached a := by
  rw [contains, Bool.or_eq_true, decide_eq_true_iff, Option.isSome_iff_exists, tree.root]
  simp only [tree.immediate]
  constructor
  · rintro (hentry | ⟨b, hb⟩)
    · exact ⟨_, .of_entry hentry⟩
    · exact hb.dominates.1
  · intro h
    by_cases hentry : g.entry? = some a
    · exact .inl hentry
    · exact .inr (h.exists_immediate hentry)

/-- Only the first instruction has no dominator but itself. -/
theorem entry?_eq_of_none (h : g.IsReached a) (hnone : d.immediate? a = none)
    : g.entry? = some a := by
  by_contra hne
  obtain ⟨b, hb⟩ := h.exists_immediate hne
  rw [tree.immediate.mpr hb] at hnone
  cases hnone

theorem mem_walk (h : g.IsReached a)
    : x ∈ d.walk a ↔ g.Dominates x a := by
  fun_induction walk d a with
  | case1 a hnone =>
      rw [List.mem_singleton]
      constructor
      · rintro rfl
        exact h.dominates_self
      · exact fun hx => hx.eq_entry (tree.entry?_eq_of_none h hnone)
  | case2 a b hb ih =>
      have immediate := tree.immediate.mp hb
      rw [List.mem_cons, ih immediate.dominates.isReached]
      constructor
      · rintro (rfl | hx)
        · exact h.dominates_self
        · exact hx.trans immediate.dominates
      · exact fun hx => or_iff_not_imp_left.mpr (immediate.closest hx)

/-- Going up in the tree, each instruction is dominated by the later ones and is none of them. -/
theorem pairwise_walk (h : g.IsReached a)
    : (d.walk a).Pairwise fun x y => g.Dominates y x ∧ x ≠ y := by
  fun_induction walk d a with
  | case1 a _ => exact List.pairwise_singleton _ a
  | case2 a b hb ih =>
      have immediate := tree.immediate.mp hb
      have hreached := immediate.dominates.isReached
      refine List.pairwise_cons.mpr ⟨fun x hx => ?_, ih hreached⟩
      have hxb := (tree.mem_walk hreached).mp hx
      refine ⟨hxb.trans immediate.dominates, ?_⟩
      rintro rfl
      exact immediate.ne (immediate.dominates.antisymm hxb)

theorem getLast?_walk (h : g.IsReached a)
    : (d.walk a).getLast? = g.entry? := by
  fun_induction walk d a with
  | case1 a hnone => exact (tree.entry?_eq_of_none h hnone).symm
  | case2 a b hb ih =>
      have hlast := ih (tree.immediate.mp hb).dominates.isReached
      obtain ⟨e, hentry, -⟩ := h.exists_entry
      rw [List.getLast?_cons, hlast, hentry, Option.getD_some]

theorem chain_eq_walk (h : g.IsReached a)
    : d.chain a = d.walk a := by
  rw [chain, if_pos (tree.contains_iff.mpr h)]

theorem chain_eq_nil (h : ¬ g.IsReached a)
    : d.chain a = [] := by
  rw [chain, if_neg (tree.contains_iff.not.mpr h)]

theorem mem_chain
    : x ∈ d.chain a ↔ g.Dominates x a := by
  by_cases h : g.IsReached a
  · rw [tree.chain_eq_walk h, tree.mem_walk h]
  · rw [tree.chain_eq_nil h]
    exact ⟨nofun, fun hx => absurd hx.1 h⟩

/-- The dominators of an instruction are itself and those of its immediate dominator. -/
theorem chain_eq_cons (h : g.IsReached a)
    : d.chain a = a :: ((d.immediate? a).map d.chain).getD [] := by
  rw [tree.chain_eq_walk h, walk_eq_cons]
  cases hb : d.immediate? a with
  | none => rfl
  | some b =>
      rw [Option.map_some, Option.map_some,
        tree.chain_eq_walk (tree.immediate.mp hb).dominates.isReached]

theorem isReachable_iff
    : d.isReachable a = true ↔ g.IsReached a := by
  rw [isReachable, Bool.not_eq_true', List.isEmpty_eq_false_iff]
  constructor
  · exact fun h => by_contra fun hnot => h (tree.chain_eq_nil hnot)
  · exact fun h => List.ne_nil_of_mem (tree.mem_chain.mpr h.dominates_self)

theorem isDominatedBy_iff
    : d.isDominatedBy a x = true ↔ g.Dominates x a := by
  rw [isDominatedBy, search_iff, tree.isReachable_iff]
  constructor
  · rintro ⟨h, hx⟩
    exact (tree.mem_walk h).mp hx
  · exact fun hx => ⟨hx.1, (tree.mem_walk hx.1).mpr hx⟩

end IsTreeOf

/-- Dominance is about all paths, exceptional steps included, and the dominators of an instruction
are listed from itself to the first instruction, if the tree is that of the immediate dominators.
-/
theorem dominance_is_exact (tree : d.IsTreeOf g) (a : Nat)
    : (∀ x, d.isDominatedBy a x = true ↔ g.IsReached a ∧ ∀ path, g.IsPath path a → x ∈ path)
      ∧ (d.isReachable a = true ↔ g.IsReached a)
      ∧ (∀ x, x ∈ d.chain a ↔ g.Dominates x a)
      ∧ (d.chain a).Nodup
      ∧ ((d.chain a).Pairwise fun x y => g.Dominates y x)
      ∧ (g.IsReached a → (d.chain a).getLast? = g.entry?
        ∧ d.chain a = a :: ((d.immediate? a).map d.chain).getD [])
      ∧ (¬ g.IsReached a → d.chain a = []) := by
  have hpairwise : (d.chain a).Pairwise fun x y => g.Dominates y x ∧ x ≠ y := by
    by_cases h : g.IsReached a
    · exact tree.chain_eq_walk h ▸ tree.pairwise_walk h
    · exact tree.chain_eq_nil h ▸ .nil
  refine ⟨fun x => tree.isDominatedBy_iff, tree.isReachable_iff, fun x => tree.mem_chain,
    hpairwise.imp And.right, hpairwise.imp And.left, fun h => ⟨?_, tree.chain_eq_cons h⟩,
    tree.chain_eq_nil⟩
  rw [tree.chain_eq_walk h, tree.getLast?_walk h]

-- Computed dominators

/-- A visit from the first instruction finds what paths through unseen instructions lead to. -/
theorem contains_visit_iff (closed : g.Closed) {unseen : NodeSet}
    (bounded : ∀ x, unseen.contains x = true → x < g.size)
    : (NodeSet.ofList g.size (visit g.allSuccessors [0] unseen)).contains a = true
      ↔ ∃ path, g.IsPath path a ∧ ∀ x ∈ path, unseen.contains x = true := by
  rw [NodeSet.contains_ofList, mem_visit_singleton, exists_path_iff]
  constructor
  · rintro ⟨⟨hstart, steps⟩, -⟩
    exact ⟨0, entry?_eq_some.mpr ⟨rfl, bounded 0 hstart⟩, hstart, steps⟩
  · rintro ⟨e, hentry, he, steps⟩
    obtain ⟨rfl, hsize⟩ := entry?_eq_some.mp hentry
    refine ⟨⟨he, steps⟩, ?_⟩
    rcases Relation.ReflTransGen.cases_tail steps with rfl | ⟨u, -, edge⟩
    · exact hsize
    · exact closed u a edge.1

theorem contains_reached_iff (closed : g.Closed)
    : (reached g).contains a = true ↔ g.IsReached a := by
  have hfull : ∀ x, (NodeSet.full g.size).contains x = true ↔ x < g.size :=
    fun x => NodeSet.contains_full
  rw [reached, reachableFrom, contains_visit_iff closed fun x => (hfull x).mp]
  constructor
  · rintro ⟨path, hpath, -⟩
    exact ⟨path, hpath⟩
  · rintro ⟨path, hpath⟩
    exact ⟨path, hpath, fun x hx => (hfull x).mpr (hpath.lt_size_of_mem closed hx)⟩

theorem contains_reachedWithout_iff (closed : g.Closed)
    : (reachedWithout g x).contains a = true ↔ ∃ path, g.IsPath path a ∧ x ∉ path := by
  have herase : ∀ y, ((NodeSet.full g.size).erase x).contains y = true ↔ y < g.size ∧ y ≠ x := by
    intro y
    rw [NodeSet.contains_erase, NodeSet.contains_full]
  rw [reachedWithout, contains_visit_iff closed fun y hy => ((herase y).mp hy).1]
  constructor
  · rintro ⟨path, hpath, havoids⟩
    exact ⟨path, hpath, fun hx => ((herase x).mp (havoids x hx)).2 rfl⟩
  · rintro ⟨path, hpath, havoids⟩
    refine ⟨path, hpath, fun y hy => (herase y).mpr ⟨hpath.lt_size_of_mem closed hy, ?_⟩⟩
    rintro rfl
    exact havoids hy

theorem mem_sets (closed : g.Closed)
    : x ∈ (sets g).getD a [] ↔ g.Dominates x a := by
  have hindices : ∀ i, i ∈ g.indices ↔ i < g.size := fun i => List.mem_range
  have hcomputed : x ∈ (sets g).getD a [] ↔ a < g.size ∧ x < g.size
      ∧ (reached g).contains a = true ∧ (reachedWithout g x).contains a = false := by
    simp only [sets, getD_map_indices]
    by_cases ha : a < g.size
    · by_cases hx : x < g.size <;> simp [ha, hx, hindices]
    · simp [ha]
  rw [hcomputed, contains_reached_iff closed, ← Bool.not_eq_true,
    contains_reachedWithout_iff closed, not_exists]
  constructor
  · rintro ⟨-, -, hreached, hwithout⟩
    exact ⟨hreached, fun path hpath => by_contra fun hx => hwithout path ⟨hpath, hx⟩⟩
  · rintro ⟨⟨path, hpath⟩, hthrough⟩
    refine ⟨hpath.lt_size_of_mem closed hpath.mem_stop,
      hpath.lt_size_of_mem closed (hthrough path hpath), ⟨path, hpath⟩, ?_⟩
    rintro other ⟨hother, hx⟩
    exact hx (hthrough other hother)

theorem nodup_sets (g : FlowGraph) (a : Nat)
    : ((sets g).getD a []).Nodup := by
  simp only [sets, getD_map_indices]
  split
  · exact List.nodup_range.filter _
  · exact List.nodup_nil

/-- The immediate dominator of an instruction is the dominator that has one dominator less. -/
theorem isImmediate_iff (closed : g.Closed) {b : Nat}
    : g.IsImmediate b a ↔ b ∈ (sets g).getD a []
      ∧ ((sets g).getD b []).length + 1 = ((sets g).getD a []).length := by
  -- The dominators of an instruction are then itself and those of its immediate dominator.
  have hmem : ∀ {x y}, x ∈ (sets g).getD y [] ↔ g.Dominates x y := mem_sets closed
  have hcons : g.Dominates b a → b ≠ a → (a :: (sets g).getD b []).Nodup
      ∧ a :: (sets g).getD b [] ⊆ (sets g).getD a [] := by
    intro hb hne
    refine ⟨List.nodup_cons.mpr ⟨fun ha => hne (hb.antisymm (hmem.mp ha)), nodup_sets g b⟩,
      List.cons_subset.mpr ⟨hmem.mpr hb.1.dominates_self, fun x hx => ?_⟩⟩
    exact hmem.mpr ((hmem.mp hx).trans hb)
  constructor
  · intro h
    obtain ⟨hnodup, hsubset⟩ := hcons h.dominates h.ne
    refine ⟨hmem.mpr h.dominates, ?_⟩
    have hperm : (a :: (sets g).getD b []).Perm ((sets g).getD a []) := by
      refine (List.perm_ext_iff_of_nodup hnodup (nodup_sets g a)).mpr fun x => ⟨@hsubset x, ?_⟩
      rw [List.mem_cons, hmem, hmem]
      exact fun hx => or_iff_not_imp_left.mpr (h.closest hx)
    exact hperm.length_eq
  · rintro ⟨hb, hlength⟩
    have hne : b ≠ a := by
      rintro rfl
      omega
    obtain ⟨hnodup, hsubset⟩ := hcons (hmem.mp hb) hne
    have hperm := (List.subperm_of_subset hnodup hsubset).perm_of_length_le hlength.ge
    refine ⟨hmem.mp hb, hne, fun hx hxa => hmem.mp ?_⟩
    exact (List.mem_cons.mp (hperm.mem_iff.mpr (hmem.mpr hx))).resolve_left hxa

theorem isTreeOf_ofGraph (closed : g.Closed)
    : (ofGraph g).IsTreeOf g where
  root := rfl
  immediate := by
    intro i j
    have himmediate : (ofGraph g).immediate? i
        = if i < g.size then closest? (sets g) i else none := getD_map_indices ..
    have hsize : g.IsImmediate j i → i < g.size := by
      rintro ⟨⟨⟨path, hpath⟩, -⟩, -, -⟩
      exact hpath.lt_size_of_mem closed hpath.mem_stop
    have hfound : ∀ {b}, closest? (sets g) i = some b → g.IsImmediate b i := by
      intro b hb
      refine (isImmediate_iff closed).mpr ⟨List.mem_of_find?_eq_some hb, ?_⟩
      simpa using List.find?_some hb
    rw [himmediate, Option.ite_none_right_eq_some]
    constructor
    · exact fun h => hfound h.2
    · intro h
      refine ⟨hsize h, ?_⟩
      obtain ⟨hmem, hlength⟩ := (isImmediate_iff closed).mp h
      obtain ⟨b, hb⟩ : ∃ b, closest? (sets g) i = some b :=
        Option.isSome_iff_exists.mp (List.find?_isSome.mpr ⟨j, hmem, decide_eq_true hlength⟩)
      exact hb.trans (congrArg some ((hfound hb).unique h))

/-- Two branches of a loop, the second of which divides under a handler, and a return after them. -/
def branchesInLoop : List Inst :=
  [.label ⟨0⟩, .branch ⟨.eq, .boolean, .constant (.int 0), .constant (.int 1)⟩ ⟨2⟩ ⟨1⟩,
    .label ⟨1⟩, .jump ⟨3⟩,
    .label ⟨2⟩, division,
    .label ⟨3⟩, .jump ⟨0⟩,
    .returns none,
    .label ⟨4⟩, .catches (.register (.fresh 1 .throwable)) ⟨4⟩ [⟨.throwable, ⟨1⟩, ⟨3⟩⟩],
    .throws (.register (.fresh 1 .throwable))]

/-- The handler is dominated by the branch, which is in a loop, and the return is never reached. -/
theorem dominance_in_branching_loop
    : ∃ g, FlowGraph.ofCode branchesInLoop .standard = .ok g ∧ (ofGraph g).chain 6 = [6, 5, 0]
        ∧ (ofGraph g).chain 4 = []
        ∧ (∀ path, g.IsPath path 6 → 5 ∈ path) ∧ (∃ path, g.IsPath path 6 ∧ 2 ∉ path)
        ∧ ¬ g.IsReached 4 := by
  obtain ⟨g, accepted, hhandler, hreturn⟩ :
      ∃ g, FlowGraph.ofCode branchesInLoop .standard = .ok g ∧ (ofGraph g).chain 6 = [6, 5, 0]
        ∧ (ofGraph g).chain 4 = [] := by decide +kernel
  have tree := isTreeOf_ofGraph (closed_of_ofCode accepted)
  obtain ⟨-, -, hmem, -⟩ := dominance_is_exact tree 6
  obtain ⟨-, hreached, -⟩ := dominance_is_exact tree 4
  rw [hhandler] at hmem
  have hdead : ¬ g.IsReached 4 := by simp [← hreached, isReachable, hreturn]
  refine ⟨g, accepted, hhandler, hreturn, ((hmem 5).mp (by simp)).2, ?_, hdead⟩
  refine ((hmem 6).mp (by simp)).1.exists_path_without fun h => ?_
  simpa using (hmem 2).mpr h

end Dominators

end StackLift
