import StackLift.Proofs.CodeRuns

/-!
Copies that are inserted before a jump leave its decision as it is, however many of them there are
and whatever they copy.
-/

namespace StackLift

open RegisterMachine

variable {p : Plan} {node N : Nat} {s : LiftState} {b : Branch} {jump jump' : Inst}
  {after : List Inst} {done copies saves : List Copy}

namespace LiftM

theorem run_copy (p : Plan) (target source : Value) (h : node < s.code.size)
    : ∃ s', (copy p node target source).run s = .ok ((), s')
        ∧ s'.codeOf node
          = (insertCopy s.registers (p.node? node) target source (s.codeOf node)).1
        ∧ s'.registers
          = (insertCopy s.registers (p.node? node) target source (s.codeOf node)).2 := by
  refine ⟨_, rfl, ?_, rfl⟩
  exact (codeOf_modify rfl node).trans (if_pos ⟨rfl, h⟩)

/-- Inserting copies keeps the jump guarded, by induction on the copies. -/
theorem run_copies (hnode : p.node? node = some (.branch b)) (hb : b.isTerminal = false)
    (hbelow : ∀ v ∈ jump.decisive, v.Within fun r => r.index < N)
    (ht : ∀ c ∈ copies, c.1.index < N)
    (hcode : s.codeOf node = (saves ++ done).map Copy.inst ++ jump' :: after)
    (h : Guards N s.registers.next done saves jump jump')
    : ∃ s' saves' jump'',
        (copies.forM fun c => copy p node (.register c.1) c.2).run s = .ok ((), s')
        ∧ s'.codeOf node = (saves' ++ (done ++ copies)).map Copy.inst ++ jump'' :: after
        ∧ Guards N s'.registers.next (done ++ copies) saves' jump jump'' := by
  induction copies generalizing s done saves jump' with
  | nil => exact ⟨s, saves, jump', rfl, by rwa [List.append_nil], by rwa [List.append_nil]⟩
  | cons c rest ih =>
      obtain ⟨hc, hrest⟩ := List.forall_mem_cons.mp ht
      have hsize : node < s.code.size := by
        by_contra hlt
        simp [LiftState.codeOf, hlt] at hcode
      obtain ⟨s', hrun, hcode', hregisters⟩ := run_copy p (.register c.1) c.2 hsize
      obtain ⟨saves', jump'', hinserted, hguards⟩ := h.insertCopy hbelow hb hc hcode
      rw [hnode] at hcode' hregisters
      rw [← hregisters] at hguards
      obtain ⟨s'', saves'', last, hruns, hcode'', hguards'⟩ :=
        ih hrest (hcode'.trans hinserted) hguards
      rw [List.append_assoc, List.singleton_append] at hcode'' hguards'
      refine ⟨s'', saves'', last, ?_, hcode'', hguards'⟩
      show (copy p node (.register c.1) c.2 >>= fun _ => _).run s = _
      rw [StateT.run_bind, hrun]
      exact hruns

end LiftM

/-- At a node with a jump, copies are made to registers that were there before. The node then saves
some values in new registers, makes the copies in their order and jumps, with the same operator,
cases and labels. When a run comes to the jump, what decides there means what it meant at the start
in the jump without the copies.
-/
theorem copies_keep_decision (content : p.node? node = some (.branch b))
    (leaves : b.isTerminal = false) (jumps : jump.isBranching = true)
    (code : s.codeOf node = jump :: after)
    (known : ∀ v ∈ jump.decisive, v.Within fun r => r.index < s.registers.next)
    (targets : ∀ c ∈ copies, c.1.index < s.registers.next)
    : ∃ s' saves jump',
        (copies.forM fun c => LiftM.copy p node (.register c.1) c.2).run s = .ok ((), s')
        ∧ s'.codeOf node = (saves ++ copies).map Copy.inst ++ jump' :: after
        ∧ (∀ c ∈ saves, s.registers.next ≤ c.1.index)
        ∧ ∀ {D : Type} (I : Interpretation D) (registers : RegisterFile D), ∃ registers',
            Runs I (s'.codeOf node) (.start (s'.codeOf node) registers)
              (.start (jump' :: after) registers')
            ∧ Decides I registers registers' jump jump' := by
  have hstart : s.codeOf node = ([] ++ []).map Copy.inst ++ jump :: after := code
  obtain ⟨s', saves, jump', hrun, hcode, hguards⟩ :=
    LiftM.run_copies content leaves known targets hstart (.none (Nat.le_refl _) jumps known)
  rw [List.nil_append] at hcode hguards
  refine ⟨s', saves, jump', hrun, hcode, fun c hc => (hguards.apart.fresh c hc).1,
    fun I registers => ⟨I.moves (saves ++ copies) registers, ?_, ?_⟩⟩
  · have hmade : Runs I (s'.codeOf node)
        (.start (((saves ++ copies).map Copy.inst).map id ++ jump' :: after) registers) _ :=
      Runs.copies (fun _ _ _ _ => rfl) (saves ++ copies)
    rwa [List.map_id, ← hcode] at hmade
  · exact hguards.decides (hguards.apart.saved targets I registers)

-- A comparison whose operands are swapped

def comparingPlan : Plan :=
  { method := staticMethod ⟨[], none⟩ [.branch (.ifInt .lt ⟨0⟩)]
    settings := rawSettings
    graph := ⟨⟨#[[], [0]], []⟩, [], []⟩
    places := []
    variableTable := []
    declared := [] }

/-- Compares an element of an array with a bound. -/
def elementBelow (index bound : Nat) : Inst :=
  let array := Value.argument (.make 0 none (.array .int 1))
  .branch ⟨.lt, .int, .element array (.register (.fresh index .int)) .int,
    .register (.fresh bound .int)⟩ ⟨0⟩ ⟨1⟩

def intCopy (target source : Nat) : Copy :=
  (.fresh target .int, .register (.fresh source .int))

def comparing : LiftState :=
  { LiftState.initial comparingPlan with
    code := #[[], [elementBelow 0 1, .label ⟨1⟩]]
    registers := { Registers.empty with next := 2 } }

/-- Two copies swap the index and the bound. Both are saved, and the comparison reads what was
saved.
-/
theorem swapped_operands_keep_decision
    : ∃ s', ([intCopy 0 1, intCopy 1 0].forM fun c =>
            LiftM.copy comparingPlan 1 (.register c.1) c.2).run comparing = .ok ((), s')
        ∧ s'.codeOf 1 = [intCopy 3 1, intCopy 2 0, intCopy 0 1, intCopy 1 0].map Copy.inst
            ++ [elementBelow 2 3, .label ⟨1⟩]
        ∧ ∀ {D : Type} (I : Interpretation D) (registers : RegisterFile D), ∃ registers',
            Runs I (s'.codeOf 1) (.start (s'.codeOf 1) registers)
              (.start [elementBelow 2 3, .label ⟨1⟩] registers')
            ∧ Decides I registers registers' (elementBelow 0 1) (elementBelow 2 3) := by
  have known : ∀ v ∈ (elementBelow 0 1).decisive, v.Within fun r => r.index < 2 := by
    simp [elementBelow, Inst.decisive, Value.Within, Value.subvalues, Register.fresh]
  obtain ⟨s', saves, jump', hrun, hcode, -, hdecides⟩ := @copies_keep_decision comparingPlan 1
    comparing (.ifInt .lt ⟨0⟩) (elementBelow 0 1) [.label ⟨1⟩] [intCopy 0 1, intCopy 1 0] rfl rfl
    rfl rfl known (by decide)
  have hresult : s'.codeOf 1 = [intCopy 3 1, intCopy 2 0, intCopy 0 1, intCopy 1 0].map Copy.inst
      ++ [elementBelow 2 3, .label ⟨1⟩] := by
    cases hrun
    decide +kernel
  obtain ⟨rfl, -⟩ := List.cons.inj (List.append_inj_right' (hcode.symm.trans hresult) rfl)
  exact ⟨s', hrun, hresult, hdecides⟩

end StackLift
