import Mathlib.Data.List.Find
import StackLift.Proofs.GuardedJumps
import StackLift.Proofs.SimulatedNodes

/-!
Copies that are made one after the other. If no copy overwrites what a later one reads, they act as
if they were made at once. Before a jump, copies do not change where it goes.
-/

namespace StackLift

open RegisterMachine

-- Sequences

/-- No copy overwrites what a later one reads, and copies to the same register copy the same. -/
structure Sequenced (copies : List Copy) : Prop where
  simple : ∀ c ∈ copies, c.2.isSimple = true
  ordered : copies.Pairwise fun c later => ¬ later.2.Same (.register c.1)
  single : ∀ c ∈ copies, ∀ c' ∈ copies, c.1.key = c'.1.key → c.2.Same c'.2

section

variable {D : Type} {I : Interpretation D} {registers registers' : RegisterFile D}
  {copies more : List Copy} {c : Copy} {x : RegisterKey} {v w : Value} {bound : Nat}

/-- Values that are the same have the same meaning. -/
theorem eval_of_same (h : v.Same w)
    : I.eval [] registers v = I.eval [] registers w := by
  rw [← RepeatedCopies.eval_anonymous, h, RepeatedCopies.eval_anonymous]

/-- A target gets the value that its source had before all copies. -/
theorem Sequenced.moves_of_mem (h : Sequenced copies) (hc : c ∈ copies)
    : I.moves copies registers c.1.key = I.eval [] registers c.2 := by
  induction copies generalizing registers c with
  | nil => cases hc
  | cons first rest ih =>
      obtain ⟨hfirst, hordered⟩ := List.pairwise_cons.mp h.ordered
      have hrest : Sequenced rest :=
        ⟨fun c hc => h.simple c (List.mem_cons_of_mem _ hc), hordered, fun c hc c' hc' =>
          h.single c (List.mem_cons_of_mem _ hc) c' (List.mem_cons_of_mem _ hc')⟩
      have hlater : ∀ c ∈ rest, I.moves (first :: rest) registers c.1.key
          = I.eval [] registers c.2 := by
        intro c hc
        refine (ih hrest hc).trans ?_
        exact RepeatedCopies.eval_update_of_not_same I [] [] registers
          (h.simple c (List.mem_cons_of_mem _ hc)) (hfirst c hc) _
      rcases List.mem_cons.mp hc with rfl | hc
      · by_cases hagain : ∃ c' ∈ rest, c'.1.key = c.1.key
        · obtain ⟨c', hc', hkey⟩ := hagain
          rw [← hkey, hlater c' hc']
          exact eval_of_same (h.single c' (List.mem_cons_of_mem _ hc') c hc hkey)
        · have hnot : ∀ c' ∈ rest, c'.1.key ≠ c.1.key := fun c' hc' hkey => hagain ⟨c', hc', hkey⟩
          exact (moves_of_not_target hnot).trans move_self
      · exact hlater c hc

theorem eval_of_below (hv : v.Below bound) (h : ∀ x, x.1 < bound → registers x = registers' x)
    : I.eval [] registers v = I.eval [] registers' v :=
  eval_of_within fun r hr => h r.key (hv.within r hr)

/-- Copies among registers below a bound do the same, whatever the other registers are. -/
theorem moves_of_below (hcopies : ∀ c ∈ copies, c.2.Below bound)
    (h : ∀ x, x.1 < bound → registers x = registers' x) (hx : x.1 < bound)
    : I.moves copies registers x = I.moves copies registers' x := by
  induction copies generalizing registers registers' with
  | nil => exact h x hx
  | cons c rest ih =>
      refine ih (fun c' hc' => hcopies c' (List.mem_cons_of_mem c hc')) fun y hy => ?_
      by_cases hkey : c.1.key = y
      · subst hkey
        rw [move_self, move_self]
        exact eval_of_below (hcopies c List.mem_cons_self) h
      · rw [move_of_ne hkey, move_of_ne hkey]
        exact h y hy

end

-- Jumps

/-- A jump that decides by registers below a bound; the keys of its cases are constants. -/
structure ReadyJump (bound : Nat) (jump : Inst) : Prop where
  jumps : jump.isBranching = true
  below : ∀ v ∈ jump.decisive, v.Within fun r => r.index < bound
  constant : ∀ {key cases default}, jump = .switch key cases default →
    ∀ case ∈ cases, ∃ k, case.1 = .constant k

/-- Jumps that decide the same go to the same label. -/
theorem Decides.effect {D : Type} {I : Interpretation D} {registers registers' : RegisterFile D}
    {bound : Nat} {jump jump' : Inst} (h : Decides I registers registers' jump jump')
    (hready : ReadyJump bound jump)
    : I.effect [] registers' jump' = I.effect [] registers jump := by
  cases h with
  | goto => rfl
  | branch hleft hright => simp only [Interpretation.effect, hleft, hright]
  | @switch key key' cases default hkey =>
      have hconstant : ∀ case ∈ cases,
          I.eval [] registers' case.1 = I.eval [] registers case.1 := by
        intro case hcase
        obtain ⟨k, hk⟩ := hready.constant rfl case hcase
        rw [hk]
        rfl
      have hfind : (cases.find? fun case => I.equal (I.eval [] registers' key')
          (I.eval [] registers' case.1))
          = cases.find? fun case => I.equal (I.eval [] registers key)
            (I.eval [] registers case.1) := by
        refine List.find?_congr fun case hcase => ?_
        rw [hkey, hconstant case hcase]
      simp only [Interpretation.effect, hfind]

/-- Saves do not change what the copies after them do to other registers. -/
theorem FreshSaves.moved {N next : Nat} {saves copies : List Copy} (h : FreshSaves N next saves)
    (hcopies : ∀ c ∈ copies, c.2.Below N) {D : Type} (I : Interpretation D)
    (registers : RegisterFile D) (x : RegisterKey) (hx : x.1 < N)
    : I.moves (saves ++ copies) registers x = I.moves copies registers x := by
  rw [moves_append]
  refine moves_of_below hcopies (fun y hy => moves_of_not_target fun s hs same => ?_) hx
  have hle := (h.fresh s hs).1
  have hindex : s.1.index = y.1 := congrArg Prod.fst same
  omega

-- Copied code

variable {N : Nat} {copies : List Copy} {c : Copy} {rs : Registers}

/-- The code of a node with copies at its end, before any jump out of it. -/
inductive CopiedCode (N next : Nat) (copies : List Copy) :
    Option Node → List Inst → List Inst → Prop
  | straight {content : Option Node} {base : List Inst} : (∀ b, content ≠ some (.branch b)) →
    CopiedCode N next copies content base (base ++ copies.map Copy.inst)
  | exit {b : Branch} {base : List Inst} : b.isTerminal = true → copies = [] →
    CopiedCode N next copies (some (.branch b)) base base
  | jump {b : Branch} {saves : List Copy} {jump jump' : Inst} {after : List Inst} :
    b.isTerminal = false → ReadyJump N jump → Guards N next copies saves jump jump' →
    (∀ c ∈ copies, c.1.index < N ∧ c.2.Below N) →
    CopiedCode N next copies (some (.branch b)) (jump :: after)
      ((saves ++ copies).map Copy.inst ++ jump' :: after)

namespace CopiedCode

variable {content : Option Node} {base code : List Inst}

theorem mono {next next' : Nat} (h : CopiedCode N next copies content base code)
    (hle : next ≤ next')
    : CopiedCode N next' copies content base code := by
  cases h with
  | straight hb => exact .straight hb
  | exit hb hcopies => exact .exit hb hcopies
  | jump hb hready hguards hcopies => exact .jump hb hready (hguards.mono hle) hcopies

/-- One more copy in the code of a node that control leaves. -/
theorem insertCopy (h : CopiedCode N rs.next copies content base code)
    (hcontent : ∀ b, content = some (.branch b) → b.isTerminal = false) (ht : c.1.index < N)
    (hsource : c.2.Below N)
    : CopiedCode N (StackLift.insertCopy rs content (.register c.1) c.2 code).2.next
        (copies ++ [c]) content base
        (StackLift.insertCopy rs content (.register c.1) c.2 code).1 := by
  cases h with
  | @straight content base hb =>
      have hcode : base ++ copies.map Copy.inst ++ [c.inst]
          = base ++ (copies ++ [c]).map Copy.inst := by simp
      have hsame : ∀ rs' : Registers, CopiedCode N rs'.next (copies ++ [c]) content base
          (base ++ copies.map Copy.inst ++ [c.inst]) := by
        intro rs'
        rw [hcode]
        exact .straight hb
      cases content with
      | none => exact hsame _
      | some node =>
          cases node with
          | branch b => exact absurd rfl (hb b)
          | _ => exact hsame _
  | exit hb => exact absurd (hcontent _ rfl) (by simp [hb])
  | @jump b saves jump jump' after hb hready hguards hcopies =>
      obtain ⟨saves', jump'', hcode, hguards'⟩ :=
        hguards.insertCopy hready.below hb ht (rfl : _ = _ ++ jump' :: after)
      rw [hcode]
      exact .jump hb hready hguards' (List.forall_mem_append.mpr
        ⟨hcopies, List.forall_mem_singleton.mpr ⟨ht, hsource⟩⟩)

end CopiedCode

end StackLift
