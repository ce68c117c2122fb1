import StackLift.Flow.Block
import StackLift.Proofs.ResolvedFlow

/-!
The block graph is a quotient of the flow graph. Blocks are the longest runs of instructions of
which each is left for the next one only, and the edges between blocks are those between their
instructions, which enter a block at its first instruction and leave it from its last.
-/

namespace StackLift

open FlowGraph Block

-- Runs of instructions

namespace Block

theorem mem_members {b : Block} (h : b.start ≤ b.stop) {i : Nat}
    : i ∈ b.members ↔ b.start ≤ i ∧ i ≤ b.stop := by
  rw [members, length, List.mem_range'_1]
  omega

theorem start_mem_members (b : Block)
    : b.start ∈ b.members := by
  simp [members, length]

end Block

namespace FlowGraph

/-- Control can enter the instructions of a block only at the first one and leave them only after
the last one, other than by an exception, and all of them have the same catchers.
-/
structure IsRun (g : FlowGraph) (b : Block) : Prop where
  nonempty : b.start ≤ b.stop
  inside : b.stop < g.size
  catchers : ∀ i ∈ b.members, ∀ j ∈ b.members, g.catchers i = g.catchers j
  leaves : ∀ i ∈ b.members, i ≠ b.stop → ∀ inst, g.code.inst? i = some inst →
    inst.isBranching = false ∧ inst.isTerminating = false
  enters : ∀ i ∈ b.members, i ≠ b.start →
    (g.code.inst? i).any Inst.isCatch = false ∧ g.predecessors i = [i - 1]
      ∧ g.successors (i - 1) = [i]

/-- An instruction continues into the next one: they may stand in one block. -/
structure Continues (g : FlowGraph) (i : Nat) : Prop where
  leaves : ∀ inst, g.code.inst? i = some inst →
    inst.isBranching = false ∧ inst.isTerminating = false
  noCatch : (g.code.inst? (i + 1)).any Inst.isCatch = false
  predecessors : g.predecessors (i + 1) = [i]
  successors : g.successors i = [i + 1]
  catchers : g.catchers (i + 1) = g.catchers i

theorem isRun_iff {g : FlowGraph} {b : Block}
    : g.IsRun b ↔ b.start ≤ b.stop ∧ b.stop < g.size
        ∧ ∀ i, b.start ≤ i → i < b.stop → g.Continues i := by
  constructor
  · intro run
    refine ⟨run.nonempty, run.inside, fun i hstart hstop => ?_⟩
    have hi : i ∈ b.members := (mem_members run.nonempty).mpr ⟨hstart, Nat.le_of_lt hstop⟩
    have hnext : i + 1 ∈ b.members := (mem_members run.nonempty).mpr ⟨by omega, hstop⟩
    obtain ⟨noCatch, predecessors, successors⟩ := run.enters (i + 1) hnext (by omega)
    exact ⟨run.leaves i hi (Nat.ne_of_lt hstop), noCatch, predecessors, successors,
      run.catchers (i + 1) hnext i hi⟩
  · intro ⟨nonempty, inside, continues⟩
    have hfirst : ∀ i, b.start ≤ i → i ≤ b.stop → g.catchers i = g.catchers b.start := by
      intro i hstart
      induction i, hstart using Nat.le_induction with
      | base =>
          intro _
          rfl
      | succ i hstart ih =>
          intro hstop
          rw [(continues i hstart hstop).catchers, ih (Nat.le_of_succ_le hstop)]
    refine ⟨nonempty, inside, fun i hi j hj => ?_, fun i hi hne => ?_, fun i hi hne => ?_⟩
    · rw [mem_members nonempty] at hi hj
      rw [hfirst i hi.1 hi.2, hfirst j hj.1 hj.2]
    · rw [mem_members nonempty] at hi
      exact (continues i hi.1 (by omega)).leaves
    · rw [mem_members nonempty] at hi
      obtain ⟨i, rfl⟩ := Nat.exists_eq_add_of_le' (show 1 ≤ i by omega)
      have continues := continues i (by omega) (by omega)
      exact ⟨continues.noCatch, continues.predecessors, continues.successors⟩

end FlowGraph

-- Blocks next to each other

/-- The blocks follow each other without gaps, from a place to the end of the code. -/
inductive Tiles (size : Nat) : Nat → List Block → Prop
  | nil : Tiles size size []
  | cons {b : Block} {rest : List Block} : b.start ≤ b.stop → Tiles size (b.stop + 1) rest →
    Tiles size b.start (b :: rest)

namespace Tiles

variable {size first i k l : Nat} {blocks : List Block} {b c : Block}

variable (h : Tiles size first blocks)
include h

theorem le_size
    : first ≤ size := by
  induction h with
  | nil => exact Nat.le_refl _
  | cons _ _ ih => omega

theorem members_eq
    : blocks.flatMap members = List.range' first (size - first) := by
  induction h with
  | nil => simp
  | @cons b rest hb tiles ih =>
      have hle := tiles.le_size
      have hlength : size - b.start = b.length + (size - (b.stop + 1)) := by
        rw [length]
        omega
      have hstop : b.stop + 1 = b.start + 1 * b.length := by
        rw [length]
        omega
      rw [List.flatMap_cons, ih, hlength, ← List.range'_append, ← hstop]
      rfl

omit h in
theorem start_eq {rest : List Block} (h : Tiles size first (b :: rest))
    : b.start = first := by
  cases h
  rfl

theorem bounds (hb : b ∈ blocks)
    : first ≤ b.start ∧ b.start ≤ b.stop ∧ b.stop < size := by
  induction h with
  | nil => cases hb
  | cons hle tiles ih =>
      rcases List.mem_cons.mp hb with rfl | hb
      · exact ⟨Nat.le_refl _, hle, tiles.le_size⟩
      · have := ih hb
        omega

/-- Every instruction stands in a block. -/
theorem exists_block (hfirst : first ≤ i) (hi : i < size)
    : ∃ (k : Nat) (b : Block), blocks[k]? = some b ∧ b.start ≤ i ∧ i ≤ b.stop := by
  induction h with
  | nil => omega
  | @cons b rest _ _ ih =>
      by_cases hstop : i ≤ b.stop
      · exact ⟨0, b, rfl, hfirst, hstop⟩
      · obtain ⟨k, c, hk, hc⟩ := ih (by omega)
        exact ⟨k + 1, c, hk, hc⟩

theorem lt_of_lt (hk : blocks[k]? = some b) (hl : blocks[l]? = some c) (hlt : k < l)
    : b.stop < c.start := by
  induction h generalizing k l with
  | nil => simp at hk
  | cons hle tiles ih =>
      obtain ⟨l, rfl⟩ := Nat.exists_eq_add_of_le' (show 1 ≤ l by omega)
      rw [List.getElem?_cons_succ] at hl
      cases k with
      | zero =>
          cases hk
          exact (tiles.bounds (List.mem_of_getElem? hl)).1
      | succ k => exact ih hk hl (by omega)

/-- No instruction stands in two blocks. -/
theorem unique (hk : blocks[k]? = some b) (hl : blocks[l]? = some c) (hb : b.start ≤ i ∧ i ≤ b.stop)
    (hc : c.start ≤ i ∧ i ≤ c.stop)
    : k = l := by
  rcases Nat.lt_trichotomy k l with hlt | heq | hlt
  · have := h.lt_of_lt hk hl hlt
    omega
  · exact heq
  · have := h.lt_of_lt hl hk hlt
    omega

theorem next (hk : blocks[k]? = some b) (hnext : blocks[k + 1]? = some c)
    : c.start = b.stop + 1 := by
  induction h generalizing k with
  | nil => simp at hk
  | cons _ tiles ih =>
      cases k with
      | zero =>
          cases hk
          obtain ⟨_, rfl⟩ : ∃ rest, _ = c :: rest := by
            rw [List.getElem?_cons_succ, ← List.head?_eq_getElem?] at hnext
            exact List.head?_eq_some_iff.mp hnext
          exact tiles.start_eq
      | succ k => exact ih hk hnext

end Tiles

namespace BlockGraph

theorem tiles_blocksAt {size first : Nat} {rest : List Nat}
    (sorted : (first :: rest).Pairwise (· < ·)) (inside : ∀ i ∈ first :: rest, i < size)
    : Tiles size first (blocksAt size (first :: rest)) := by
  induction rest generalizing first with
  | nil =>
      have hsize := inside first (by simp)
      have hend : Tiles size (size - 1 + 1) [] := by
        rw [Nat.sub_add_cancel (by omega)]
        exact .nil
      exact .cons (b := ⟨first, size - 1⟩) (Nat.le_sub_one_of_lt hsize) hend
  | cons next rest ih =>
      obtain ⟨hnext, sorted⟩ := List.pairwise_cons.mp sorted
      have hlt := hnext next (by simp)
      have hrest := ih sorted fun i hi => inside i (List.mem_cons_of_mem _ hi)
      rw [← Nat.sub_add_cancel (show 1 ≤ next by omega)] at hrest
      refine .cons (b := ⟨first, next - 1⟩) (Nat.le_sub_one_of_lt hlt) ?_
      rwa [Nat.sub_add_cancel (show 1 ≤ next by omega)] at hrest ⊢

/-- A block starts at one of the given places and goes up to the next one. -/
theorem mem_blocksAt {size : Nat} {starts : List Nat} (sorted : starts.Pairwise (· < ·))
    (inside : ∀ i ∈ starts, i < size) {b : Block} (hb : b ∈ blocksAt size starts)
    : b.start ∈ starts ∧ ∀ i ∈ starts, i ≤ b.start ∨ b.stop < i := by
  fun_induction blocksAt size starts with
  | case1 => cases hb
  | case2 first =>
      cases List.mem_singleton.mp hb
      exact ⟨by simp, fun i hi => .inl (Nat.le_of_eq (List.mem_singleton.mp hi))⟩
  | case3 first next rest ih =>
      obtain ⟨hnext, sorted⟩ := List.pairwise_cons.mp sorted
      have hlt := hnext next (by simp)
      rcases List.mem_cons.mp hb with rfl | hb
      · refine ⟨by simp, List.forall_mem_cons.mpr ⟨.inl (Nat.le_refl _), fun i hi => .inr ?_⟩⟩
        rcases List.mem_cons.mp hi with rfl | hi
        · exact Nat.sub_one_lt_of_lt hlt
        · have := (List.pairwise_cons.mp sorted).1 i hi
          exact Nat.lt_trans (Nat.sub_one_lt_of_lt hlt) this
      · obtain ⟨hstart, hinner⟩ := ih sorted (fun i hi => inside i (List.mem_cons_of_mem _ hi)) hb
        refine ⟨List.mem_cons_of_mem _ hstart, List.forall_mem_cons.mpr ⟨.inl ?_, hinner⟩⟩
        exact Nat.le_of_lt (hnext _ hstart)

-- Blocks of a graph

section Graph

variable {r : ResolvedCode} {h : Hierarchy} {i k l : Nat} {b c : Block}

/-- Two instructions are in different blocks unless one continues into the other. -/
theorem startsBlock_eq_false_iff (hi : i + 1 < r.size)
    : startsBlock (.ofResolved r h) (i + 1) = false ↔ (ofResolved r h).Continues i := by
  obtain ⟨inst, hinst⟩ : ∃ inst, r.inst? i = some inst :=
    ⟨_, Array.getElem?_eq_getElem (Nat.lt_of_succ_lt hi)⟩
  have hcode : (ofResolved r h).code = r := rfl
  have hstarts : startsBlock (.ofResolved r h) (i + 1) = false
      ↔ (inst.isBranching = false ∧ inst.isTerminating = false)
        ∧ (r.inst? (i + 1)).any Inst.isCatch = false
        ∧ ((ofResolved r h).predecessors (i + 1)).length ≤ 1
        ∧ (ofResolved r h).catchers (i + 1) = (ofResolved r h).catchers i := by
    simp [startsBlock, previous?, hcode, hinst, and_assoc]
  rw [hstarts]
  constructor
  · intro ⟨leaves, noCatch, hlength, catchers⟩
    have hsuccessors : (ofResolved r h).successors i = [i + 1] := by
      simp [successors_eq, flow, hinst, leaves, hi]
    refine ⟨?_, noCatch, ?_, hsuccessors, catchers⟩
    · intro inst' hinst'
      cases hinst.symm.trans hinst'
      exact leaves
    · have hmem : i ∈ (ofResolved r h).predecessors (i + 1) :=
        mem_predecessors.mpr ⟨hi, Nat.lt_of_succ_lt hi, by simp [hsuccessors]⟩
      obtain ⟨j, hj⟩ := List.length_eq_one_iff.mp
        (Nat.le_antisymm hlength (List.length_pos_of_mem hmem))
      rw [hj] at hmem ⊢
      rw [List.mem_singleton.mp hmem]
  · intro continues
    exact ⟨continues.leaves inst hinst, continues.noCatch, by simp [continues.predecessors],
      continues.catchers⟩

variable (r h) in
/-- The places at which blocks start. -/
def starts : List Nat :=
  r.indices.filter (startsBlock (.ofResolved r h))

theorem mem_starts
    : i ∈ starts r h ↔ i < r.size ∧ startsBlock (.ofResolved r h) i = true := by
  simp [starts, ResolvedCode.indices]

theorem sorted_starts : (starts r h).Pairwise (· < ·) :=
  List.pairwise_lt_range.filter _

theorem toList_blocks
    : (ofGraph (.ofResolved r h)).blocks.toList = blocksAt r.size (starts r h) :=
  rfl

/-- The blocks cover the code. -/
theorem tiles_blocks
    : Tiles r.size 0 (ofGraph (.ofResolved r h)).blocks.toList := by
  rw [toList_blocks]
  have inside : ∀ i ∈ starts r h, i < r.size := fun i hi => (mem_starts.mp hi).1
  have sorted := sorted_starts (r := r) (h := h)
  by_cases hsize : r.size = 0
  · have hempty : starts r h = [] := by simp [starts, ResolvedCode.indices, hsize]
    rw [hempty, hsize]
    exact .nil
  · have hzero : 0 ∈ starts r h := mem_starts.mpr ⟨Nat.pos_of_ne_zero hsize, rfl⟩
    cases hstarts : starts r h with
    | nil => simp [hstarts] at hzero
    | cons first rest =>
        rw [hstarts] at hzero sorted inside
        obtain rfl : first = 0 := by
          rcases List.mem_cons.mp hzero with heq | hrest
          · exact heq.symm
          · have := (List.pairwise_cons.mp sorted).1 0 hrest
            omega
        exact tiles_blocksAt sorted inside

/-- A block starts nowhere inside another one. -/
theorem start_of_block (hb : b ∈ (ofGraph (.ofResolved r h)).blocks.toList)
    : startsBlock (.ofResolved r h) b.start = true
      ∧ ∀ i, b.start < i → i ≤ b.stop → startsBlock (.ofResolved r h) i = false := by
  have hbounds := tiles_blocks.bounds hb
  rw [toList_blocks] at hb
  obtain ⟨hstart, hinner⟩ := mem_blocksAt sorted_starts (fun i hi => (mem_starts.mp hi).1) hb
  refine ⟨(mem_starts.mp hstart).2, fun i hlt hle => ?_⟩
  by_contra hstarts
  have := hinner i (mem_starts.mpr ⟨by omega, by simpa using hstarts⟩)
  omega

theorem isRun_of_block (hb : b ∈ (ofGraph (.ofResolved r h)).blocks.toList)
    : (ofResolved r h).IsRun b := by
  obtain ⟨-, hle, hstop⟩ := tiles_blocks.bounds hb
  refine isRun_iff.mpr ⟨hle, hstop, fun i hstart hlt => ?_⟩
  exact (startsBlock_eq_false_iff (by omega)).mp
    ((start_of_block hb).2 (i + 1) (by omega) (by omega))

section

variable (hk : (ofGraph (.ofResolved r h)).blocks.toList[k]? = some b)
include hk

/-- Two blocks next to each other are no run. -/
theorem not_isRun_of_adjacent (hnext : (ofGraph (.ofResolved r h)).blocks.toList[k + 1]? = some c)
    : ¬ (ofResolved r h).IsRun ⟨b.start, c.stop⟩ := by
  intro run
  have hb := tiles_blocks.bounds (List.mem_of_getElem? hk)
  have hc := tiles_blocks.bounds (List.mem_of_getElem? hnext)
  have hadjacent := tiles_blocks.next hk hnext
  have continues := (isRun_iff.mp run).2.2 b.stop hb.2.1 (by simp only; omega)
  have hstart := (start_of_block (List.mem_of_getElem? hnext)).1
  rw [hadjacent, (startsBlock_eq_false_iff (by omega)).mpr continues] at hstart
  cases hstart

theorem blockOf_eq_of_mem (hi : b.start ≤ i ∧ i ≤ b.stop)
    : (ofGraph (.ofResolved r h)).blockOf i = k := by
  have hfound : (ofGraph (.ofResolved r h)).blocks.toList.findIdx? (fun b => b.contains i)
      = some k := by
    obtain ⟨hk', hget⟩ := List.getElem?_eq_some_iff.mp hk
    refine List.findIdx?_eq_some_iff_getElem.mpr ⟨hk', ?_, fun l hl => ?_⟩
    · simp [hget, contains, hi]
    · have hother := tiles_blocks.lt_of_lt (List.getElem?_eq_getElem (Nat.lt_trans hl hk')) hk hl
      simp only [contains, Bool.and_eq_true, decide_eq_true_eq]
      omega
  have hblocks : (ofGraph (.ofResolved r h)).blocks
      = (ofGraph (.ofResolved r h)).blocks.toList.toArray := rfl
  rw [blockOf, hblocks, List.findIdx?_toArray, hfound]
  rfl

omit hk in
theorem exists_blockOf (hi : i < r.size)
    : ∃ b, (ofGraph (.ofResolved r h)).blocks.toList[(ofGraph (.ofResolved r h)).blockOf i]?
        = some b ∧ b.start ≤ i ∧ i ≤ b.stop := by
  obtain ⟨k, b, hk, hb⟩ := (tiles_blocks (r := r) (h := h)).exists_block (Nat.zero_le i) hi
  exact ⟨b, by rwa [blockOf_eq_of_mem hk hb], hb⟩

/-- The block of an instruction is the one in which it stands. -/
theorem blockOf_eq_iff (hi : i < r.size)
    : (ofGraph (.ofResolved r h)).blockOf i = k ↔ b.start ≤ i ∧ i ≤ b.stop := by
  constructor
  · intro heq
    obtain ⟨c, hc, hbounds⟩ := exists_blockOf (h := h) hi
    rw [heq, hk] at hc
    cases hc
    exact hbounds
  · exact blockOf_eq_of_mem hk

/-- An instruction at which a block starts is the first one of its block. -/
theorem blockOf_eq_iff_of_startsBlock (hi : i < r.size)
    (hstarts : startsBlock (.ofResolved r h) i = true)
    : (ofGraph (.ofResolved r h)).blockOf i = k ↔ i = b.start := by
  have hb := List.mem_of_getElem? hk
  rw [blockOf_eq_iff hk hi]
  constructor
  · intro ⟨hstart, hstop⟩
    by_contra hne
    rw [(start_of_block hb).2 i (by omega) hstop] at hstarts
    cases hstarts
  · intro heq
    exact ⟨Nat.le_of_eq heq.symm, heq ▸ (tiles_blocks.bounds hb).2.1⟩

end

/-- The edges of a block lead to the blocks of the instructions to which those of the block lead. -/
theorem mem_blocksOf {q : BlockGraph} {edges : Block → List Nat}
    : l ∈ q.blocksOf (((q.blocks[k]?).map edges).getD [])
      ↔ ∃ b, q.blocks.toList[k]? = some b ∧ ∃ j ∈ edges b, q.blockOf j = l := by
  rw [Array.getElem?_toList]
  cases q.blocks[k]? with
  | none => simp [blocksOf]
  | some b => simp [blocksOf]

theorem mem_blocksOf_of_block {q : BlockGraph} {edges : Block → List Nat}
    (hk : q.blocks.toList[k]? = some b)
    : l ∈ q.blocksOf (((q.blocks[k]?).map edges).getD []) ↔ ∃ j ∈ edges b, q.blockOf j = l := by
  simp [mem_blocksOf, hk]

end Graph

-- Edges between blocks

section Edges

variable {code : List Inst} {r : ResolvedCode} {h : Hierarchy} {i j k l : Nat} {b c : Block}

theorem lt_size_of_mem_successors (hj : j ∈ (ofResolved r h).successors i)
    : i < r.size ∧ j < r.size := by
  rw [successors_eq, flow] at hj
  cases hinst : r.inst? i with
  | none => simp [hinst] at hj
  | some inst =>
      have hi : i < r.size := (Array.getElem?_eq_some_iff.mp hinst).1
      refine ⟨hi, ?_⟩
      simp only [hinst] at hj
      split at hj
      · cases hj
      · split at hj
        · obtain ⟨c, -, hc⟩ := (ResolvedCode.mem_jumpTargets hinst).mp (List.mem_eraseDups.mp hj)
          exact (ResolvedCode.target_eq_ok.mp hc).2
        · split at hj
          · rwa [List.mem_singleton.mp hj]
          · cases hj

section

variable (hk : (ofGraph (.ofResolved r h)).blocks.toList[k]? = some b)
  (hl : (ofGraph (.ofResolved r h)).blocks.toList[l]? = some c)
include hk hl

/-- Control enters a block only at its first instruction, and leaves it only after its last one. -/
theorem edge_of_successor (hj : j ∈ (ofResolved r h).successors b.stop)
    (hc : c.start ≤ j ∧ j ≤ c.stop)
    : j = c.start := by
  by_contra hne
  have run := isRun_of_block (List.mem_of_getElem? hl)
  have hmem : j ∈ c.members := (mem_members run.nonempty).mpr hc
  obtain ⟨hstop, hsize⟩ := lt_size_of_mem_successors hj
  have hpredecessor : b.stop ∈ (ofResolved r h).predecessors j :=
    mem_predecessors.mpr ⟨hsize, hstop, hj⟩
  rw [(run.enters j hmem hne).2.1, List.mem_singleton] at hpredecessor
  have hbounds := tiles_blocks.bounds (List.mem_of_getElem? hk)
  have hsame := tiles_blocks.unique (i := b.stop) hk hl ⟨hbounds.2.1, Nat.le_refl _⟩
    ⟨by omega, by omega⟩
  subst hsame
  cases hk.symm.trans hl
  omega

/-- Blocks follow each other as their instructions do. -/
theorem mem_block_successors
    : l ∈ (ofGraph (.ofResolved r h)).successors k
      ↔ ∃ i ∈ b.members, c.start ∈ (ofResolved r h).successors i := by
  have run := isRun_of_block (List.mem_of_getElem? hk)
  rw [successors, mem_blocksOf_of_block hk]
  constructor
  · intro ⟨j, hj, heq⟩
    have hc := (blockOf_eq_iff hl (lt_size_of_mem_successors hj).2).mp heq
    refine ⟨b.stop, (mem_members run.nonempty).mpr ⟨run.nonempty, Nat.le_refl _⟩, ?_⟩
    rwa [← edge_of_successor hk hl hj hc]
  · intro ⟨i, hi, hc⟩
    have hcbounds := tiles_blocks.bounds (List.mem_of_getElem? hl)
    have hstart := blockOf_eq_of_mem hl ⟨Nat.le_refl _, hcbounds.2.1⟩
    rw [mem_members run.nonempty] at hi
    by_cases hlast : i = b.stop
    · exact ⟨c.start, hlast ▸ hc, hstart⟩
    · -- Inside the block the instruction only leads to the next one, where no block starts.
      have hmem : i + 1 ∈ b.members :=
        (mem_members run.nonempty).mpr ⟨by omega, by omega⟩
      obtain ⟨-, -, hnext⟩ := run.enters (i + 1) hmem (by omega)
      rw [Nat.add_sub_cancel] at hnext
      rw [hnext, List.mem_singleton] at hc
      have hinner := (start_of_block (List.mem_of_getElem? hk)).2 (i + 1) (by omega) (by omega)
      rw [← hc, (start_of_block (List.mem_of_getElem? hl)).1] at hinner
      cases hinner

theorem mem_block_predecessors
    : k ∈ (ofGraph (.ofResolved r h)).predecessors l
      ↔ ∃ i ∈ b.members, c.start ∈ (ofResolved r h).successors i := by
  have hb := tiles_blocks.bounds (List.mem_of_getElem? hk)
  have hc := tiles_blocks.bounds (List.mem_of_getElem? hl)
  rw [predecessors, mem_blocksOf_of_block hl]
  constructor
  · intro ⟨j, hj, heq⟩
    obtain ⟨-, hsize, hj⟩ := mem_predecessors.mp hj
    exact ⟨j, (mem_members hb.2.1).mpr ((blockOf_eq_iff hk hsize).mp heq), hj⟩
  · intro ⟨i, hi, hj⟩
    rw [mem_members hb.2.1] at hi
    refine ⟨i, mem_predecessors.mpr ⟨by omega, by omega, hj⟩, ?_⟩
    exact blockOf_eq_of_mem hk hi

end

/-- A handler is the first instruction of its block. -/
theorem startsBlock_of_covers (covers : r.Covers j i)
    : startsBlock (.ofResolved r h) j = true := by
  obtain ⟨-, x, label, entries, hinst, -⟩ := covers
  have hcode : (ofResolved r h).code = r := rfl
  rw [startsBlock]
  split
  · rfl
  · simp [hcode, hinst, Inst.isCatch]

/-- A handler that covers one instruction of a block covers all of them. -/
theorem mem_block_catchers (resolves : ResolvedCode.Resolves code r)
    (hk : (ofGraph (.ofResolved r h)).blocks.toList[k]? = some b)
    (hl : (ofGraph (.ofResolved r h)).blocks.toList[l]? = some c) (hi : i ∈ b.members)
    : l ∈ (ofGraph (.ofResolved r h)).catchers k ↔ r.Covers c.start i := by
  have run := isRun_of_block (List.mem_of_getElem? hk)
  have hsize : i < r.size :=
    Nat.lt_of_le_of_lt ((mem_members run.nonempty).mp hi).2 run.inside
  rw [catchers, mem_blocksOf_of_block hk]
  change (∃ j ∈ (ofResolved r h).catchers b.start, _) ↔ _
  rw [run.catchers b.start b.start_mem_members i hi]
  constructor
  · intro ⟨j, hj, heq⟩
    have covers := (mem_catchers_iff_covers resolves hsize).mp hj
    rwa [← (blockOf_eq_iff_of_startsBlock hl covers.lt_size (startsBlock_of_covers covers)).mp heq]
  · intro covers
    have hc := tiles_blocks.bounds (List.mem_of_getElem? hl)
    exact ⟨c.start, (mem_catchers_iff_covers resolves hsize).mpr covers,
      blockOf_eq_of_mem hl ⟨Nat.le_refl _, hc.2.1⟩⟩

/-- All edges of the block graph are between blocks. -/
theorem lt_size_of_edge
    (hedge : l ∈ (ofGraph (.ofResolved r h)).successors k
      ∨ l ∈ (ofGraph (.ofResolved r h)).predecessors k
      ∨ l ∈ (ofGraph (.ofResolved r h)).catchers k)
    : k < (ofGraph (.ofResolved r h)).size ∧ l < (ofGraph (.ofResolved r h)).size := by
  have hsize : ∀ edges : Block → List Nat, (∀ b, ∀ j ∈ edges b, j < r.size) →
      l ∈ (ofGraph (.ofResolved r h)).blocksOf
        ((((ofGraph (.ofResolved r h)).blocks[k]?).map edges).getD []) →
      k < (ofGraph (.ofResolved r h)).size ∧ l < (ofGraph (.ofResolved r h)).size := by
    intro edges inside hl
    obtain ⟨b, hk, j, hj, rfl⟩ := mem_blocksOf.mp hl
    obtain ⟨c, hc, -⟩ := exists_blockOf (h := h) (inside b j hj)
    exact ⟨(List.getElem?_eq_some_iff.mp hk).1, (List.getElem?_eq_some_iff.mp hc).1⟩
  rcases hedge with hl | hl | hl
  · exact hsize _ (fun b j hj => (lt_size_of_mem_successors hj).2) hl
  · exact hsize _ (fun b j hj => (mem_predecessors.mp hj).2.1) hl
  · exact hsize _ (fun b j hj => (mem_catchers.mp hj).2.1) hl

end Edges

-- The quotient

/-- The blocks are the longest runs of the graph and cover it in order, and their edges are those of
their instructions.
-/
structure IsQuotient (q : BlockGraph) (g : FlowGraph) : Prop where
  cover : q.blocks.toList.flatMap members = g.indices
  runs : ∀ b ∈ q.blocks.toList, g.IsRun b
  longest : ∀ {k b c}, q.blocks.toList[k]? = some b → q.blocks.toList[k + 1]? = some c →
    ¬ g.IsRun ⟨b.start, c.stop⟩
  blockOf : ∀ {k b}, q.blocks.toList[k]? = some b → ∀ i ∈ g.indices,
    q.blockOf i = k ↔ i ∈ b.members
  successors : ∀ {k l b c}, q.blocks.toList[k]? = some b → q.blocks.toList[l]? = some c →
    (l ∈ q.successors k ↔ ∃ i ∈ b.members, c.start ∈ g.successors i)
  predecessors : ∀ {k l b c}, q.blocks.toList[k]? = some b → q.blocks.toList[l]? = some c →
    (l ∈ q.successors k ↔ k ∈ q.predecessors l)
  catchers : ∀ {k l b c}, q.blocks.toList[k]? = some b → q.blocks.toList[l]? = some c →
    (l ∈ q.catchers k ↔ ∃ i ∈ b.members, g.code.Covers c.start i)
      ∧ (l ∈ q.catchers k ↔ ∀ i ∈ b.members, g.code.Covers c.start i)
  throwers : ∀ {k l b c}, q.blocks.toList[k]? = some b → q.blocks.toList[l]? = some c →
    (k ∈ q.throwers l ↔ l ∈ q.catchers k)
  edges : ∀ {k l}, l ∈ q.successors k ∨ l ∈ q.predecessors k ∨ l ∈ q.catchers k
      ∨ k ∈ q.throwers l →
    k < q.size ∧ l < q.size

/-- The block graph of every flow graph is its quotient. -/
theorem block_graph_is_quotient {code : List Inst} {hierarchy : Hierarchy} {g : FlowGraph}
    (accepted : ofCode code hierarchy = .ok g)
    : (ofGraph g).IsQuotient g := by
  obtain ⟨r, hr, hg⟩ := except_bind_eq_ok.mp accepted
  cases hg
  have resolves := ResolvedCode.resolves_ofCode hr
  have hthrowers : ∀ k l, k ∈ (ofGraph (.ofResolved r hierarchy)).throwers l
      ↔ k < (ofGraph (.ofResolved r hierarchy)).size
        ∧ l ∈ (ofGraph (.ofResolved r hierarchy)).catchers k := by
    intro k l
    simp [throwers, indices]
  refine ⟨?_, fun b => isRun_of_block, not_isRun_of_adjacent, ?_, mem_block_successors, ?_, ?_, ?_,
    ?_⟩
  · rw [tiles_blocks.members_eq, Nat.sub_zero, ← List.range_eq_range']
    rfl
  · intro k b hk i hi
    rw [mem_members (tiles_blocks.bounds (List.mem_of_getElem? hk)).2.1]
    exact blockOf_eq_iff hk (List.mem_range.mp hi)
  · intro k l b c hk hl
    rw [mem_block_successors hk hl, mem_block_predecessors hk hl]
  · intro k l b c hk hl
    constructor
    · constructor
      · intro hcatcher
        exact ⟨b.start, b.start_mem_members,
          (mem_block_catchers resolves hk hl b.start_mem_members).mp hcatcher⟩
      · intro ⟨i, hi, covers⟩
        exact (mem_block_catchers resolves hk hl hi).mpr covers
    · constructor
      · intro hcatcher i hi
        exact (mem_block_catchers resolves hk hl hi).mp hcatcher
      · intro covers
        exact (mem_block_catchers resolves hk hl b.start_mem_members).mpr
          (covers b.start b.start_mem_members)
  · intro k l b c hk hl
    exact (hthrowers k l).trans (and_iff_right (List.getElem?_eq_some_iff.mp hk).1)
  · intro k l hedge
    apply lt_size_of_edge
    rcases hedge with hl | hl | hl | hk
    · exact .inl hl
    · exact .inr (.inl hl)
    · exact .inr (.inr hl)
    · exact .inr (.inr ((hthrowers k l).mp hk).2)

/-- A loop whose handler protects the instructions around it, itself included. -/
def guardedLoop : List Inst :=
  let touch := .enterMonitor (.register (.fresh 0 .object))
  [.label ⟨0⟩, touch, touch, .label ⟨1⟩,
    .catches (.register (.fresh 1 .throwable)) ⟨1⟩ [⟨.throwable, ⟨0⟩, ⟨2⟩⟩],
    touch, touch, .label ⟨2⟩, .jump ⟨0⟩]

/-- The handler stands alone, as it does not cover itself. -/
theorem guarded_loop_has_four_blocks
    : ∃ g, ofCode guardedLoop ⟨[]⟩ = .ok g
      ∧ (ofGraph g).blocks.toList = [⟨0, 1⟩, ⟨2, 2⟩, ⟨3, 4⟩, ⟨5, 5⟩]
      ∧ (ofGraph g).IsQuotient g := by
  obtain ⟨g, accepted, hblocks⟩ : ∃ g, ofCode guardedLoop ⟨[]⟩ = .ok g
      ∧ (ofGraph g).blocks.toList = [⟨0, 1⟩, ⟨2, 2⟩, ⟨3, 4⟩, ⟨5, 5⟩] := by decide +kernel
  exact ⟨g, accepted, hblocks, block_graph_is_quotient accepted⟩

end BlockGraph

end StackLift
