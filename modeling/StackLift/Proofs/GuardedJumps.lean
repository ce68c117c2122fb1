import StackLift.Proofs.CopyCircles
import StackLift.Proofs.LiftedRegisters

/-!
Copies in front of a jump. What the jump reads of their targets is saved in fresh registers before
all copies, so the jump decides as it would without them.
-/

namespace StackLift

open RegisterMachine Function

-- Copies

/-- A copy of a value to a register. -/
abbrev Copy := Register × Value

def Copy.inst (c : Copy) : Inst :=
  .assign (.register c.1) (.value c.2)

namespace RegisterMachine.Interpretation

variable {D : Type} (I : Interpretation D)

def move (registers : RegisterFile D) (c : Copy) : RegisterFile D :=
  update registers c.1.key (I.eval [] registers c.2)

/-- The registers after copies that are made one after the other. -/
def moves (copies : List Copy) (registers : RegisterFile D) : RegisterFile D :=
  copies.foldl I.move registers

end RegisterMachine.Interpretation

section

variable {D : Type} {I : Interpretation D} {registers registers' : RegisterFile D}
  {copies more : List Copy} {c : Copy} {x : RegisterKey} {v : Value}

theorem moves_append
    : I.moves (copies ++ more) registers = I.moves more (I.moves copies registers) :=
  List.foldl_append

theorem move_of_ne (h : c.1.key ≠ x)
    : I.move registers c x = registers x :=
  update_of_ne (Ne.symm h) _ _

theorem move_self
    : I.move registers c c.1.key = I.eval [] registers c.2 :=
  update_self ..

/-- A register that is no target keeps its value. -/
theorem moves_of_not_target (h : ∀ c ∈ copies, c.1.key ≠ x)
    : I.moves copies registers x = registers x := by
  induction copies generalizing registers with
  | nil => rfl
  | cons c rest ih =>
      refine (ih fun c' hc' => h c' (List.mem_cons_of_mem c hc')).trans ?_
      exact move_of_ne (h c List.mem_cons_self)

/-- The meaning of a value depends on its registers. -/
theorem eval_of_within (h : v.Within fun r => registers' r.key = registers r.key)
    : I.eval [] registers' v = I.eval [] registers v := by
  have hcarries : Carries id registers registers' (keysOf v.subvalues) := by
    intro x hx
    obtain ⟨r, hr, rfl⟩ := mem_keysOf.mp hx
    exact h r hr
  have heval := eval_mapLeaves I [] renames_id hcarries
  rwa [Value.mapLeaves_id] at heval

end

-- Decisions

/-- The values that decide where a jump goes. -/
def Inst.decisive : Inst → List Value
  | .branch condition _ _ => [condition.left, condition.right]
  | .switch key _ _ => [key]
  | _ => []

/-- In the second registers, the second jump decides as the first one does in the first registers.
It has the same operator, cases and labels, and what decides has the same meaning.
-/
inductive Decides {D : Type} (I : Interpretation D) (registers registers' : RegisterFile D) :
    Inst → Inst → Prop
  | goto {target : CodeLabel} : Decides I registers registers' (.jump target) (.jump target)
  | branch {op : BinaryOp} {type : TypeName} {left right left' right' : Value}
    {onTrue onFalse : CodeLabel} :
    I.eval [] registers' left' = I.eval [] registers left →
    I.eval [] registers' right' = I.eval [] registers right →
    Decides I registers registers' (.branch ⟨op, type, left, right⟩ onTrue onFalse)
      (.branch ⟨op, type, left', right'⟩ onTrue onFalse)
  | switch {key key' : Value} {cases : List (Value × CodeLabel)} {default : CodeLabel} :
    I.eval [] registers' key' = I.eval [] registers key →
    Decides I registers registers' (.switch key cases default) (.switch key' cases default)

namespace Decides

variable {D : Type} {I : Interpretation D} {registers registers' registers'' : RegisterFile D}
  {jump jump' jump'' : Inst}

theorem trans (h : Decides I registers registers' jump jump')
    (h' : Decides I registers' registers'' jump' jump'')
    : Decides I registers registers'' jump jump'' := by
  cases h with
  | goto =>
      cases h'
      exact .goto
  | branch hleft hright =>
      cases h' with
      | branch hleft' hright' => exact .branch (hleft'.trans hleft) (hright'.trans hright)
  | switch hkey =>
      cases h' with
      | switch hkey' => exact .switch (hkey'.trans hkey)

/-- A jump decides the same where what decides has not changed. -/
theorem of_within (hjump : jump.isBranching = true)
    (h : ∀ v ∈ jump.decisive, v.Within fun r => registers' r.key = registers r.key)
    : Decides I registers registers' jump jump := by
  have heval : ∀ v ∈ jump.decisive, I.eval [] registers' v = I.eval [] registers v :=
    fun v hv => eval_of_within (h v hv)
  cases jump with
  | jump => exact .goto
  | branch condition =>
      obtain ⟨hleft, hright⟩ := List.forall_mem_cons.mp heval
      exact .branch hleft (hright _ List.mem_cons_self)
  | switch => exact .switch (heval _ List.mem_cons_self)
  | _ => cases hjump

end Decides

-- Saved registers

variable {N next : Nat} {copies saves : List Copy} {jump jump' : Inst} {c : Copy} {rs : Registers}
  {target : Register}

theorem Value.occursIn_iff {v : Value}
    : (Value.register target).occursIn v = true ↔ target.key ∈ keysOf v.subvalues := by
  unfold Value.occursIn
  rw [List.any_eq_true, mem_keysOf]
  constructor
  · rintro ⟨u, hu, hsame⟩
    obtain ⟨r, rfl, hk⟩ := Value.same_register_iff.mp (of_decide_eq_true hsame)
    exact ⟨r, hu, hk⟩
  · rintro ⟨r, hr, hk⟩
    exact ⟨.register r, hr, decide_eq_true (Value.same_register_iff.mpr ⟨r, rfl, hk⟩)⟩

/-- The substitution of a register by another one. -/
def saving (target q : Register) : Substitution :=
  ValueMap.insert [] (.register target) (.register q)

theorem saving_onRegisters (target q : Register)
    : (saving target q).OnRegisters := by
  intro entry hentry
  rcases Substitution.mem_insert hentry with rfl | hentry
  · exact ⟨target, q, rfl, rfl⟩
  · cases hentry

theorem keyImage_saving (target q : Register) (x : RegisterKey)
    : (saving target q).keyImage x = if x = target.key then q.key else x :=
  Substitution.keyImage_insert [] target q x

variable {q : Register}

/-- A branch after the substitution decides as it does before it, where the second register has the
value of the first one.
-/
theorem decides_saving {D : Type} (I : Interpretation D) {registers registers' : RegisterFile D}
    (hq : registers' q.key = registers target.key)
    (h : ∀ x ≠ target.key, registers' x = registers x) (condition : BinaryExpr)
    (onTrue onFalse : CodeLabel)
    : Decides I registers registers' (.branch condition onTrue onFalse)
        ((saving target q).inst (.branch condition onTrue onFalse)) := by
  have hon := saving_onRegisters target q
  have heval : ∀ v : Value, I.eval [] registers' (v.mapLeaves (saving target q).leaf)
      = I.eval [] registers v := by
    intro v
    refine eval_mapLeaves I [] (Substitution.renames_leaf hon) fun x _ => ?_
    rw [keyImage_saving]
    split
    next same => rw [hq, same]
    next hne => exact h x hne
  rw [Substitution.inst_eq_rename hon]
  exact .branch (heval condition.left) (heval condition.right)

/-- The saves were made, and apart from targets of copies no register below the bound has changed.
-/
structure Saved {D : Type} (I : Interpretation D) (N : Nat) (copies saves : List Copy)
    (registers registers' : RegisterFile D) : Prop where
  made : ∀ s ∈ saves, registers' s.1.key = I.eval [] registers s.2
  kept : ∀ x : RegisterKey, x.1 < N → (∀ c ∈ copies, c.1.key ≠ x) → registers' x = registers x

/-- Saves go to different registers from the first bound on, and read registers below it. -/
structure FreshSaves (N next : Nat) (saves : List Copy) : Prop where
  bound : N ≤ next
  fresh : ∀ s ∈ saves, N ≤ s.1.index ∧ s.1.index < next
  older : ∀ s ∈ saves, s.2.Within fun r => r.index < N
  distinct : saves.Pairwise fun s s' => s.1.key ≠ s'.1.key

/-- Once the saves were made, the second jump decides as the first one did, whatever the copies put
into their targets.
-/
structure Guards (N next : Nat) (copies saves : List Copy) (jump jump' : Inst) : Prop where
  apart : FreshSaves N next saves
  jumps : jump'.isBranching = true
  /-- The key of a switch is saved at most once. -/
  key : ∀ {key : Value} {cases : List (Value × CodeLabel)} {default : CodeLabel},
    jump' = .switch key cases default →
    jump' = jump ∧ saves = [] ∨ ∃ q : Register, key = .register q ∧ N ≤ q.index
  decides : ∀ {D : Type} {I : Interpretation D} {registers registers' : RegisterFile D},
    Saved I N copies saves registers registers' → Decides I registers registers' jump jump'

/-- A save to the next register goes in front. -/
theorem FreshSaves.cons (h : FreshSaves N next saves) {v : Value} (hq : q.index = next)
    (hv : v.Within fun r => r.index < N)
    : FreshSaves N (next + 1) ((q, v) :: saves) where
  bound := Nat.le_succ_of_le h.bound
  fresh := by
    refine List.forall_mem_cons.mpr ⟨⟨hq ▸ h.bound, hq ▸ Nat.lt_succ_self _⟩, fun s hs => ?_⟩
    exact ⟨(h.fresh s hs).1, Nat.lt_succ_of_lt (h.fresh s hs).2⟩
  older := List.forall_mem_cons.mpr ⟨hv, h.older⟩
  distinct := by
    refine List.pairwise_cons.mpr ⟨fun s hs same => ?_, h.distinct⟩
    have hlt := (h.fresh s hs).2
    have hindex : q.index = s.1.index := Register.index_eq_of_key same
    omega

/-- No save overwrites what another one reads or what it was made to. -/
theorem FreshSaves.made (h : FreshSaves N next saves) {D : Type} {I : Interpretation D}
    {registers : RegisterFile D}
    : ∀ s ∈ saves, I.moves saves registers s.1.key = I.eval [] registers s.2 := by
  induction saves generalizing registers with
  | nil => simp
  | cons first rest ih =>
      obtain ⟨hfirst, hdistinct⟩ := List.pairwise_cons.mp h.distinct
      obtain ⟨holder, hrest⟩ := List.forall_mem_cons.mp h.older
      have hfresh := List.forall_mem_cons.mp h.fresh
      refine List.forall_mem_cons.mpr ⟨?_, fun s hs => ?_⟩
      · exact (moves_of_not_target fun s hs => (hfirst s hs).symm).trans move_self
      · refine (ih ⟨h.bound, hfresh.2, hrest, hdistinct⟩ s hs).trans (eval_of_within fun r hr => ?_)
        refine move_of_ne fun same => ?_
        have hindex := Register.index_eq_of_key same
        have hlt : r.index < N := hrest s hs r hr
        have hle := hfresh.1.1
        omega

/-- Copies after the saves leave the registers that the saves went to. -/
theorem FreshSaves.saved (h : FreshSaves N next saves) (hcopies : ∀ c ∈ copies, c.1.index < N)
    {D : Type} (I : Interpretation D) (registers : RegisterFile D)
    : Saved I N copies saves registers (I.moves (saves ++ copies) registers) where
  made s hs := by
    rw [moves_append, moves_of_not_target fun c hc same => ?_]
    · exact h.made s hs
    · have hindex := Register.index_eq_of_key same
      have hlt := hcopies c hc
      have hle := (h.fresh s hs).1
      omega
  kept x hx hnot := by
    rw [moves_append, moves_of_not_target hnot]
    refine moves_of_not_target fun s hs same => ?_
    have hle := (h.fresh s hs).1
    have hindex : s.1.index = x.1 := congrArg Prod.fst same
    omega

/-- The registers before the last copy. -/
theorem Saved.restore {D : Type} {I : Interpretation D} {registers registers' : RegisterFile D}
    (h : Saved I N (copies ++ [c]) saves registers registers') (ht : c.1.index < N)
    (hfresh : FreshSaves N next saves)
    : Saved I N copies saves registers
        (update registers' c.1.key (registers c.1.key)) where
  made s hs := by
    have hne : s.1.key ≠ c.1.key := by
      intro same
      have hindex := Register.index_eq_of_key same
      have hle := (hfresh.fresh s hs).1
      omega
    rw [update_of_ne hne]
    exact h.made s hs
  kept x hx hcopies := by
    by_cases hxc : x = c.1.key
    · rw [hxc, update_self]
    · rw [update_of_ne hxc]
      refine h.kept x hx (List.forall_mem_append.mpr ⟨hcopies, ?_⟩)
      exact List.forall_mem_singleton.mpr (Ne.symm hxc)

namespace Guards

theorem none (hN : N ≤ next) (hjump : jump.isBranching = true)
    (hbelow : ∀ v ∈ jump.decisive, v.Within fun r => r.index < N)
    : Guards N next [] [] jump jump where
  apart := ⟨hN, by simp, by simp, .nil⟩
  jumps := hjump
  key _ := .inl ⟨rfl, rfl⟩
  decides hsaved := by
    refine .of_within hjump fun v hv r hr => ?_
    exact hsaved.kept r.key (hbelow v hv r hr) (by simp)

theorem mono {next' : Nat} (h : Guards N next copies saves jump jump') (hle : next ≤ next')
    : Guards N next' copies saves jump jump' where
  apart := { h.apart with
    bound := h.apart.bound.trans hle
    fresh := fun s hs =>
      ⟨(h.apart.fresh s hs).1, Nat.lt_of_lt_of_le (h.apart.fresh s hs).2 hle⟩ }
  jumps := h.jumps
  key := h.key
  decides := h.decides

/-- One more copy, whose target does not decide. -/
theorem plain (h : Guards N next copies saves jump jump') (ht : c.1.index < N)
    (hread : ∀ v ∈ jump'.decisive, c.1.key ∉ keysOf v.subvalues)
    : Guards N next (copies ++ [c]) saves jump jump' where
  apart := h.apart
  jumps := h.jumps
  key := h.key
  decides {D I registers registers'} hsaved := by
    refine (h.decides (hsaved.restore ht h.apart)).trans (.of_within h.jumps fun v hv r hr => ?_)
    have hne : r.key ≠ c.1.key := fun same => hread v hv (same ▸ mem_keysOf.mpr ⟨r, hr, rfl⟩)
    exact (update_of_ne hne ..).symm

/-- One more copy, whose target a branch reads. The target is saved, and the branch reads it from
there.
-/
theorem save {condition : BinaryExpr} {onTrue onFalse : CodeLabel}
    (h : Guards N next copies saves jump (.branch condition onTrue onFalse)) (ht : c.1.index < N)
    (hq : q.index = next)
    : Guards N (next + 1) (copies ++ [c]) ((q, .register c.1) :: saves) jump
        ((saving c.1 q).inst (.branch condition onTrue onFalse)) where
  apart := h.apart.cons hq (Value.within_register.mpr ht)
  jumps := rfl
  key he := by cases he
  decides {D I registers registers'} hsaved := by
    have hrest : Saved I N (copies ++ [c]) saves registers registers' :=
      ⟨fun s hs => hsaved.made s (List.mem_cons_of_mem _ hs), hsaved.kept⟩
    refine (h.decides (hrest.restore ht h.apart)).trans ?_
    refine decides_saving I ?_ (fun x hx => ?_) condition onTrue onFalse
    · rw [update_self]
      exact hsaved.made _ List.mem_cons_self
    · rw [update_of_ne hx]

/-- One more copy, whose target the key of a switch reads. The key is saved as a whole. -/
theorem saveKey {key : Value} {cases : List (Value × CodeLabel)} {default : CodeLabel}
    (h : Guards N next copies saves jump (.switch key cases default))
    (hbelow : ∀ v ∈ jump.decisive, v.Within fun r => r.index < N) (ht : c.1.index < N)
    (hread : c.1.key ∈ keysOf key.subvalues) (hq : q.index = next)
    : Guards N (next + 1) (copies ++ [c]) ((q, key) :: saves) jump
        (.switch (.register q) cases default) := by
  rcases h.key rfl with ⟨rfl, rfl⟩ | ⟨r, rfl, hr⟩
  · exact {
      apart := h.apart.cons hq (hbelow key List.mem_cons_self)
      jumps := rfl
      key := fun he => by
        cases he
        exact .inr ⟨q, rfl, hq ▸ h.apart.bound⟩
      decides := fun hsaved => .switch (hsaved.made _ List.mem_cons_self) }
  · -- A key that was saved before is no target of a copy.
    have hindex := Register.index_eq_of_key (List.mem_singleton.mp hread)
    omega

/-- One more copy before the jump. -/
theorem beforeJump (h : Guards N rs.next copies saves jump jump')
    (hbelow : ∀ v ∈ jump.decisive, v.Within fun r => r.index < N) (ht : c.1.index < N)
    (after : List Inst)
    : ∃ saves' jump'',
        (StackLift.beforeJump rs (.register c.1) c.inst ((saves ++ copies).map Copy.inst) jump'
          after).1 = (saves' ++ (copies ++ [c])).map Copy.inst ++ jump'' :: after
        ∧ Guards N (StackLift.beforeJump rs (.register c.1) c.inst
          ((saves ++ copies).map Copy.inst) jump' after).2.next (copies ++ [c]) saves' jump
          jump'' := by
  have hplain : (∀ v ∈ jump'.decisive, c.1.key ∉ keysOf v.subvalues) → ∃ saves' jump'',
      (saves ++ copies).map Copy.inst ++ c.inst :: jump' :: after
        = (saves' ++ (copies ++ [c])).map Copy.inst ++ jump'' :: after
      ∧ Guards N rs.next (copies ++ [c]) saves' jump jump'' := fun hread =>
    ⟨saves, jump', by simp, h.plain ht hread⟩
  unfold StackLift.beforeJump
  split
  next key cases default =>
    split
    next hoccurs =>
      refine ⟨(.fresh rs.next key.type, key) :: saves,
        .switch (.register (.fresh rs.next key.type)) cases default, ?_, ?_⟩
      · simp [Registers.fresh, Copy.inst]
      · rw [Registers.next_assign]
        exact h.saveKey hbelow ht (Value.occursIn_iff.mp hoccurs) rfl
    next hoccurs =>
      refine hplain fun v hv => ?_
      rw [List.mem_singleton.mp hv]
      exact mt Value.occursIn_iff.mpr hoccurs
  next condition onTrue onFalse =>
    split
    next hoccurs =>
      refine ⟨(.fresh rs.next c.1.type, .register c.1) :: saves,
        (saving c.1 (.fresh rs.next c.1.type)).inst (.branch condition onTrue onFalse), ?_, ?_⟩
      · simp [Registers.fresh, Copy.inst, saving, Value.type]
      · rw [Registers.next_assign]
        exact h.save ht rfl
    next hoccurs =>
      simp only [Bool.or_eq_true, Value.occursIn_iff, not_or] at hoccurs
      refine hplain (List.forall_mem_cons.mpr ⟨hoccurs.1, ?_⟩)
      exact List.forall_mem_singleton.mpr hoccurs.2
  next hswitch hbranch =>
    refine hplain fun v hv => ?_
    cases jump' with
    | branch => exact absurd rfl (hbranch _ _ _)
    | switch => exact absurd rfl (hswitch _ _ _)
    | _ => cases hv

end Guards

-- Insertion

theorem insertCopy_jumping (rs : Registers) {b : Branch} (target source : Value)
    {before after : List Inst} {jump : Inst} (hb : b.isTerminal = false)
    (hbefore : ∀ i ∈ before, i.isBranching = false) (hjump : jump.isBranching = true)
    : insertCopy rs (some (.branch b)) target source (before ++ jump :: after)
        = beforeJump (rs.assign target (.value source)).2 target
            (rs.assign target (.value source)).1 before jump after := by
  have hnot : ∀ i ∈ before, (!i.isBranching) = true := fun i hi => by simp [hbefore i hi]
  simp [insertCopy, Node.isTerminal, Node.isBranching, hb, List.dropWhile_append_of_pos hnot,
    List.takeWhile_append_of_pos hnot, hjump]

/-- One more copy in the code of a node that ends with a jump. -/
theorem Guards.insertCopy (h : Guards N rs.next copies saves jump jump')
    (hbelow : ∀ v ∈ jump.decisive, v.Within fun r => r.index < N) {b : Branch}
    (hb : b.isTerminal = false) (ht : c.1.index < N) {code after : List Inst}
    (hcode : code = (saves ++ copies).map Copy.inst ++ jump' :: after)
    : ∃ saves' jump'',
        (StackLift.insertCopy rs (some (.branch b)) (.register c.1) c.2 code).1
          = (saves' ++ (copies ++ [c])).map Copy.inst ++ jump'' :: after
        ∧ Guards N (StackLift.insertCopy rs (some (.branch b)) (.register c.1) c.2 code).2.next
          (copies ++ [c]) saves' jump jump'' := by
  have hstraight : ∀ i ∈ (saves ++ copies).map Copy.inst, i.isBranching = false := by
    intro i hi
    obtain ⟨c, -, rfl⟩ := List.mem_map.mp hi
    rfl
  have hnext : (rs.assign (.register c.1) (.value c.2)).2.next = rs.next :=
    Registers.next_assign ..
  rw [hcode, insertCopy_jumping rs _ _ hb hstraight h.jumps]
  exact beforeJump (hnext ▸ h) hbelow ht after

end StackLift
