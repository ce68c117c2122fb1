import Mathlib.Data.Set.Insert
import StackLift.Lift.Store
import StackLift.Proofs.RenamedInstructions

/-!
The groups of registers that hold the same variable. However registers are made and united, their
links form a forest, in which each register named after a variable is the root of its group.
-/

namespace StackLift

namespace Registers

-- Forests of links

/-- Links that were added one after the other, each from a root to another one. -/
inductive Forest : List (Nat × Nat) → Prop
  | empty : Forest []
  | link {links : List (Nat × Nat)} {child parent : Nat} : Forest links →
    links.lookup child = none → links.lookup parent = none → child ≠ parent →
    Forest ((child, parent) :: links)

theorem lookup_cons_ite {α : Type} (key i : Nat) (a : α) (l : List (Nat × α))
    : ((key, a) :: l).lookup i = if i = key then some a else l.lookup i := by
  by_cases h : i = key <;> simp [List.lookup_cons, h, beq_false_of_ne]

variable {links : List (Nat × Nat)} {i child parent steps : Nat}

theorem follow_of_lookup (h : links.lookup i = none) (steps : Nat)
    : follow links steps i = i := by
  cases steps <;> simp [follow, h]

/-- A new link prolongs the chains that ended at its child. -/
theorem follow_link (hchild : links.lookup child = none) (hparent : links.lookup parent = none)
    (hne : child ≠ parent) (hend : links.lookup (follow links steps i) = none)
    : follow ((child, parent) :: links) (steps + 1) i
      = if follow links steps i = child then parent else follow links steps i := by
  have hroot : ((child, parent) :: links).lookup parent = none := by
    rw [lookup_cons_ite, if_neg hne.symm, hparent]
  induction steps generalizing i with
  | zero =>
      rw [follow] at hend
      by_cases h : i = child <;> simp [follow, lookup_cons_ite, h, hend]
  | succ steps ih =>
      rw [follow, lookup_cons_ite]
      cases hi : links.lookup i with
      | none =>
          rw [follow_of_lookup hi]
          by_cases h : i = child
          · simpa [h] using follow_of_lookup hroot _
          · simp [h]
      | some next =>
          have h : i ≠ child := fun h => by simp [← h, hi] at hchild
          simp only [follow, hi] at hend
          rw [if_neg h, follow, hi]
          exact ih hend

theorem Forest.lookup_follow (h : Forest links) (i : Nat)
    : links.lookup (follow links links.length i) = none := by
  induction h generalizing i with
  | empty => rfl
  | @link links child parent _ hchild hparent hne ih =>
      rw [List.length_cons, follow_link hchild hparent hne (ih i), lookup_cons_ite]
      by_cases h : follow links links.length i = child
      · simp [h, hne.symm, hparent]
      · simp [h, ih i]

theorem reaches_follow (links : List (Nat × Nat)) (steps i : Nat)
    : Relation.ReflTransGen (fun child parent => links.lookup child = some parent) i
        (follow links steps i) := by
  induction steps generalizing i with
  | zero => exact .refl
  | succ steps ih =>
      rw [follow]
      split
      next next hi => exact .head hi (ih next)
      next => exact .refl

/-- A chain of links that comes to a root has an end. -/
theorem acc_of_follow (h : links.lookup (follow links steps i) = none)
    : Acc (fun parent child => links.lookup child = some parent) i := by
  induction steps generalizing i with
  | zero => exact ⟨_, fun parent hp => by simp [follow, hp] at h⟩
  | succ steps ih => exact ⟨_, fun parent hp => ih (by simpa [follow, hp] using h)⟩

end Registers

-- Registers that are made and united

/-- The register is one of those that were made. Its type and kind may have changed since. -/
def Register.IsOneOf (made : Set Register) (r : Register) : Prop :=
  ∃ q ∈ made, q.index = r.index ∧ q.name = r.name

/-- The registers at some point of lifting, with all that were made so far. Registers are made for
results and for stores to variables, and any two of them may be united at any time.
-/
inductive Plan.Built (p : Plan) : Registers → Set Register → Prop
  | start : p.Built .empty ∅
  | fresh {rs : Registers} {made : Set Register} (type : TypeName) : p.Built rs made →
    p.Built (rs.fresh type).2 (insert (rs.fresh type).1 made)
  | store {rs : Registers} {made : Set Register} (node slot : Nat) (type : TypeName) :
    p.Built rs made →
    p.Built (p.variableRegister node slot (rs.fresh type).1 (rs.fresh type).2).2
      (insert (p.variableRegister node slot (rs.fresh type).1 (rs.fresh type).2).1 made)
  | unite {rs : Registers} {made : Set Register} {first second : Register} : p.Built rs made →
    first.IsOneOf made → second.IsOneOf made → p.Built (rs.unite first second) made
  | assign {rs : Registers} {made : Set Register} {target : Value} {source : Expr} :
    p.Built rs made → (∀ r, target.register? = some r → r.IsOneOf made) →
    (∀ r, source.register? = some r → r.IsOneOf made) → p.Built (rs.assign target source).2 made

namespace Registers

/-- What the maps hold about the registers that were made. -/
structure Grouped (rs : Registers) (made : Set Register) : Prop where
  forest : Forest rs.links
  names : ∀ r ∈ made, r.index < rs.next
    ∧ rs.name? r.index = if r.isNamed then some r.name else none
  indices : ∀ i < rs.next, ∃ r ∈ made, r.index = i
  unused : ∀ i, rs.next ≤ i → rs.name? i = none
  flags : ∀ flag ∈ rs.named, flag.1 < rs.next ∧ flag.2 = (rs.name? flag.1).isSome
  links : ∀ link ∈ rs.links, link.1 < rs.next ∧ (rs.name? link.1).isSome = false
    ∧ (rs.named.lookup link.2).isSome

variable {rs : Registers} {made : Set Register} {r first second : Register} {i : Nat}

namespace Grouped

theorem name?_of_isOneOf (h : rs.Grouped made) (hr : r.IsOneOf made)
    : r.index < rs.next ∧ rs.name? r.index = if r.isNamed then some r.name else none := by
  obtain ⟨⟨_, _, _, _⟩, hq, rfl, rfl⟩ := hr
  have hnames := h.names _ hq
  exact hnames

/-- A register with the next index is made. If it has a name, this is put down. -/
theorem make (h : rs.Grouped made) {names : List (Nat × String)} (hr : r.index = rs.next)
    (new : names.lookup rs.next = if r.isNamed then some r.name else none)
    (old : ∀ i, i ≠ rs.next → names.lookup i = rs.name? i)
    : Grouped { rs with next := rs.next + 1, names } (insert r made) where
  forest := h.forest
  names q hq := by
    rcases Set.mem_insert_iff.mp hq with rfl | hq
    · exact ⟨hr ▸ Nat.lt_succ_self _, hr ▸ new⟩
    · obtain ⟨hlt, hname⟩ := h.names q hq
      exact ⟨Nat.lt_succ_of_lt hlt, (old _ (Nat.ne_of_lt hlt)).trans hname⟩
  indices i hi := by
    rcases Nat.lt_succ_iff_lt_or_eq.mp hi with hi | rfl
    · obtain ⟨q, hq, hindex⟩ := h.indices i hi
      exact ⟨q, Set.mem_insert_of_mem r hq, hindex⟩
    · exact ⟨r, Set.mem_insert r made, hr⟩
  unused i hi := (old i (Nat.ne_of_gt hi)).trans (h.unused i (Nat.le_of_lt hi))
  flags flag hf := by
    obtain ⟨hlt, hflag⟩ := h.flags flag hf
    exact ⟨Nat.lt_succ_of_lt hlt, hflag.trans (congrArg _ (old _ (Nat.ne_of_lt hlt)).symm)⟩
  links link hl := by
    obtain ⟨hlt, hname, hflag⟩ := h.links link hl
    exact ⟨Nat.lt_succ_of_lt hlt, (congrArg _ (old _ (Nat.ne_of_lt hlt))).trans hname, hflag⟩

theorem isNamed_fresh (index : Nat) (type : TypeName)
    : (Register.fresh index type).isNamed = false := by
  simp [Register.isNamed, Register.fresh]

theorem fresh (h : rs.Grouped made) (hr : r.index = rs.next) (hname : r.isNamed = false)
    : Grouped { rs with next := rs.next + 1 } (insert r made) :=
  h.make hr ((h.unused _ le_rfl).trans (by simp [hname])) fun _ _ => rfl

theorem store {p : Plan} (plain : ∀ v ∈ p.variableTable, v.name.toList.head? ≠ some '%')
    (h : rs.Grouped made) (node slot : Nat) (type : TypeName)
    : (p.variableRegister node slot (rs.fresh type).1 (rs.fresh type).2).2.Grouped
        (insert (p.variableRegister node slot (rs.fresh type).1 (rs.fresh type).2).1 made) := by
  unfold Plan.variableRegister
  split
  next => exact h.fresh rfl (isNamed_fresh _ _)
  next v hv =>
    have hv : v ∈ p.variableTable := by
      unfold Plan.declaredVariable? at hv
      split at hv
      next hw =>
        cases hv
        exact List.mem_of_mem_filter (hw ▸ List.mem_singleton_self v)
      next => cases hv
    dsimp only
    split
    · refine h.make rfl ?_ fun i hi => ?_
      · simp [Registers.fresh, Register.fresh, Register.isNamed, plain v hv]
      · exact (lookup_cons_ite ..).trans (if_neg hi)
    · exact h.fresh rfl (isNamed_fresh _ _)

variable (h : rs.Grouped made)
include h

/-- The flag of a register says whether it has a name, whenever it is put down. -/
theorem record (hr : r.IsOneOf made)
    : Grouped { rs with named := (r.index, r.isNamed) :: rs.named } made := by
  obtain ⟨hlt, hname⟩ := h.name?_of_isOneOf hr
  have hflag : r.isNamed = (rs.name? r.index).isSome := by
    rw [hname]
    cases r.isNamed <;> rfl
  refine { h with
    flags := List.forall_mem_cons.mpr ⟨⟨hlt, hflag⟩, h.flags⟩
    links := fun link hl => ?_ }
  obtain ⟨hlt, hname, hrecorded⟩ := h.links link hl
  refine ⟨hlt, hname, ?_⟩
  rw [lookup_cons_ite]
  split
  · rfl
  · exact hrecorded

theorem lookup_root (i : Nat)
    : rs.links.lookup (rs.root i) = none :=
  h.forest.lookup_follow i

theorem of_recorded (hi : (rs.named.lookup i).isSome)
    : i < rs.next ∧ rs.isNamed i = (rs.name? i).isSome := by
  obtain ⟨flag, hflag⟩ := Option.isSome_iff_exists.mp hi
  obtain ⟨hlt, hname⟩ := h.flags _ (mem_of_lookup hflag)
  exact ⟨hlt, by rw [isNamed, hflag]; exact hname⟩

/-- The root is the register itself or the parent of another one, and so it was united before. -/
theorem root_cases (i : Nat)
    : rs.root i = i ∨ (rs.named.lookup (rs.root i)).isSome := by
  rcases Relation.ReflTransGen.cases_tail (reaches_follow rs.links rs.links.length i) with
    same | ⟨child, -, link⟩
  · exact .inl same
  · exact .inr (h.links (child, rs.root i) (mem_of_lookup link)).2.2

theorem recorded_root (hi : (rs.named.lookup i).isSome)
    : (rs.named.lookup (rs.root i)).isSome :=
  (h.root_cases i).elim (fun same => by rwa [same]) id

/-- The root of a recorded register becomes the child of another such root. -/
theorem link {j : Nat} (hi : (rs.named.lookup i).isSome) (hj : (rs.named.lookup j).isSome)
    (hne : rs.root i ≠ rs.root j) (nameless : (rs.name? (rs.root i)).isSome = false)
    : Grouped { rs with links := (rs.root i, rs.root j) :: rs.links } made :=
  { h with
    forest := .link h.forest (h.lookup_root i) (h.lookup_root j) hne
    links := List.forall_mem_cons.mpr
      ⟨⟨(h.of_recorded (h.recorded_root hi)).1, nameless, h.recorded_root hj⟩, h.links⟩ }

theorem root_of_named (hr : r.IsOneOf made) (named : r.isNamed)
    : rs.root r.index = r.index := by
  refine follow_of_lookup ?_ _
  by_contra hne
  obtain ⟨parent, hparent⟩ := Option.ne_none_iff_exists'.mp hne
  have := (h.links _ (mem_of_lookup hparent)).2.1
  simp [(h.name?_of_isOneOf hr).2, named] at this

theorem unite (hfirst : first.IsOneOf made) (hsecond : second.IsOneOf made)
    : (rs.unite first second).Grouped made := by
  have h := (h.record hfirst).record hsecond
  unfold Registers.unite
  generalize hrs : ({ rs with
    named := (second.index, second.isNamed) :: (first.index, first.isNamed) :: rs.named }
    : Registers) = rs at h ⊢
  dsimp only
  have recordedFirst : (rs.named.lookup first.index).isSome := by
    rw [← hrs]
    simp only [lookup_cons_ite]
    split <;> rfl
  have recordedSecond : (rs.named.lookup second.index).isSome := by
    rw [← hrs]
    simp
  rw [(h.of_recorded (h.recorded_root recordedFirst)).2,
    (h.of_recorded (h.recorded_root recordedSecond)).2]
  split
  next => exact h
  next apart =>
    simp only [Bool.or_eq_true, decide_eq_true_eq, Bool.and_eq_true, not_or, not_and,
      Bool.not_eq_true] at apart
    split
    next named =>
      -- A register with a name is a root, so the first root has a name in both cases.
      refine h.link recordedSecond recordedFirst (Ne.symm apart.1) (apart.2 ?_)
      refine (Bool.or_eq_true_iff.mp named).elim (fun hname => ?_) id
      rw [h.root_of_named hfirst hname, (h.name?_of_isOneOf hfirst).2, if_pos hname]
      rfl
    next unnamed =>
      exact h.link recordedFirst recordedSecond apart.1
        (Bool.or_eq_false_iff.mp (Bool.eq_false_iff.mpr unnamed)).2

end Grouped

end Registers

/-- What each step keeps holds at every point of lifting. -/
theorem Plan.Built.grouped {p : Plan} {rs : Registers} {made : Set Register}
    (plain : ∀ v ∈ p.variableTable, v.name.toList.head? ≠ some '%') (h : p.Built rs made)
    : rs.Grouped made := by
  induction h with
  | start => exact ⟨.empty, by simp, nofun, fun _ _ => rfl, nofun, nofun⟩
  | fresh type _ ih => exact ih.fresh rfl (Registers.Grouped.isNamed_fresh _ _)
  | store node slot type _ ih => exact ih.store plain node slot type
  | unite _ hfirst hsecond ih => exact ih.unite hfirst hsecond
  | assign _ htarget hsource ih =>
      simp only [Registers.assign]
      split
      next r q hq =>
        split
        · exact ih.unite (htarget r rfl) (hsource q hq)
        · exact ih
      next => exact ih

-- Names of groups

namespace Registers

/-- The register with the name of its group, unless it has one itself. -/
def displayed (rs : Registers) (r : Register) : Register :=
  if r.isNamed then r else { r with name := (rs.name? (rs.root r.index)).getD r.name }

theorem renamed_nameInst (rs : Registers) (i : Inst)
    : i.Renamed rs.displayed (rs.nameInst i) := by
  refine i.renamed_mapValues fun v => v.renamed_mapLeaves (fun r => ?_) fun v hv => ?_
  · simp only [nameLeaf, displayed]
    split
    · rfl
    · cases rs.name? (rs.root r.index) <;> rfl
  · cases v <;> first | rfl | cases hv

/-- Each group has a root, and no register with a name but its root, which names the group. -/
structure Sound (rs : Registers) (made : Set Register) : Prop where
  /-- Links never lead back, so that they come to an end. -/
  acyclic : WellFounded fun parent child => rs.links.lookup child = some parent
  /-- The root is where the links from a register end. -/
  root : ∀ i, rs.links.lookup (rs.root i) = none
    ∧ Relation.ReflTransGen (fun child parent => rs.links.lookup child = some parent) i (rs.root i)
  named : ∀ r : Register, r.IsOneOf made → r.isNamed → rs.root r.index = r.index
  apart : ∀ r q : Register, r.IsOneOf made → q.IsOneOf made → r.isNamed → q.isNamed →
    rs.root r.index = rs.root q.index → r.index = q.index
  /-- A register without a name is displayed with that of its root, if it has one. -/
  displayed : ∀ r : Register, r.IsOneOf made → ∃ q : Register, q.IsOneOf made
    ∧ q.index = rs.root r.index ∧ rs.displayed r
      = if r.isNamed then r else { r with name := if q.isNamed then q.name else r.name }

theorem Grouped.sound {rs : Registers} {made : Set Register} (h : rs.Grouped made)
    : rs.Sound made where
  acyclic := ⟨fun i => acc_of_follow (h.lookup_root i)⟩
  root i := ⟨h.lookup_root i, reaches_follow ..⟩
  named _ hr hname := h.root_of_named hr hname
  apart r q hr hq hrname hqname hroot := by
    rwa [h.root_of_named hr hrname, h.root_of_named hq hqname] at hroot
  displayed r hr := by
    have hlt : rs.root r.index < rs.next := (h.root_cases _).elim
      (fun same => same ▸ (h.name?_of_isOneOf hr).1) fun recorded => (h.of_recorded recorded).1
    obtain ⟨q, hq, hindex⟩ := h.indices _ hlt
    refine ⟨q, ⟨q, hq, rfl, rfl⟩, hindex, ?_⟩
    rw [Registers.displayed, ← hindex, (h.names q hq).2]
    cases q.isNamed <;> rfl

end Registers

end StackLift
