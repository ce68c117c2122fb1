import Mathlib.Data.List.Forall2
import StackLift.Proofs.Substitutions

/-!
A substitution of registers for registers renames them wherever an instruction has them, and changes
nothing else. Two of them that follow each other are one.

Renamed instructions are given by rules, one for each form of value, call, expression and
instruction, which do not mention how a substitution walks through them.
-/

namespace StackLift

open ValueMap

-- Rules of renaming

/-- The second value is the first with its registers renamed. -/
inductive Value.Renamed (ρ : Register → Register) : Value → Value → Prop
  | this (type : TypeName) : Renamed ρ (.this type) (.this type)
  | argument (a : Argument) : Renamed ρ (.argument a) (.argument a)
  | register (r : Register) : Renamed ρ (.register r) (.register (ρ r))
  | constant (c : Constant) : Renamed ρ (.constant c) (.constant c)
  | staticField (owner : TypeName) (name : String) (type : TypeName)
    : Renamed ρ (.staticField owner name type) (.staticField owner name type)
  | field (owner : TypeName) (name : String) (type : TypeName) {object object' : Value}
    : Renamed ρ object object'
      → Renamed ρ (.field object owner name type) (.field object' owner name type)
  | element (type : TypeName) {array array' index index' : Value}
    : Renamed ρ array array' → Renamed ρ index index'
      → Renamed ρ (.element array index type) (.element array' index' type)

/-- The second call is the first with the registers of its receiver and arguments renamed. -/
inductive Call.Renamed (ρ : Register → Register) : Call → Call → Prop
  | method (c : MethodCall) {receiver : Option Value} {arguments : List Value}
    : Option.Rel (Value.Renamed ρ) c.receiver receiver
      → List.Forall₂ (Value.Renamed ρ) c.arguments arguments
      → Renamed ρ (.method c) (.method { c with receiver, arguments })
  | dynamic (c : DynamicCall) {arguments : List Value}
    : List.Forall₂ (Value.Renamed ρ) c.arguments arguments
      → Renamed ρ (.dynamic c) (.dynamic { c with arguments })

/-- The second expression is the first with the registers of its operands renamed. -/
inductive BinaryExpr.Renamed (ρ : Register → Register) : BinaryExpr → BinaryExpr → Prop
  | operands (e : BinaryExpr) {left right : Value}
    : Value.Renamed ρ e.left left → Value.Renamed ρ e.right right
      → Renamed ρ e { e with left, right }

/-- The second expression is the first with its registers renamed. -/
inductive Expr.Renamed (ρ : Register → Register) : Expr → Expr → Prop
  | binary {e e' : BinaryExpr} : e.Renamed ρ e' → Renamed ρ (.binary e) (.binary e')
  | negate (type : TypeName) {v v' : Value}
    : v.Renamed ρ v' → Renamed ρ (.negate type v) (.negate type v')
  | length {v v' : Value} : v.Renamed ρ v' → Renamed ρ (.length v) (.length v')
  | cast (type : TypeName) {v v' : Value}
    : v.Renamed ρ v' → Renamed ρ (.cast type v) (.cast type v')
  | instanceOf (target : TypeName) {v v' : Value}
    : v.Renamed ρ v' → Renamed ρ (.instanceOf v target) (.instanceOf v' target)
  | new (type : TypeName) : Renamed ρ (.new type) (.new type)
  | newArray (type : TypeName) {vs vs' : List Value}
    : List.Forall₂ (Value.Renamed ρ) vs vs'
      → Renamed ρ (.newArray type vs) (.newArray type vs')
  | call {c c' : Call} : c.Renamed ρ c' → Renamed ρ (.call c) (.call c')
  | value {v v' : Value} : v.Renamed ρ v' → Renamed ρ (.value v) (.value v')

/-- The second instruction is the first with its registers renamed. -/
inductive Inst.Renamed (ρ : Register → Register) : Inst → Inst → Prop
  | assign {target target' : Value} {source source' : Expr}
    : target.Renamed ρ target' → source.Renamed ρ source'
      → Renamed ρ (.assign target source) (.assign target' source')
  | enterMonitor {v v' : Value} : v.Renamed ρ v' → Renamed ρ (.enterMonitor v) (.enterMonitor v')
  | exitMonitor {v v' : Value} : v.Renamed ρ v' → Renamed ρ (.exitMonitor v) (.exitMonitor v')
  | call {c c' : Call} : c.Renamed ρ c' → Renamed ρ (.call c) (.call c')
  | label (l : CodeLabel) : Renamed ρ (.label l) (.label l)
  | line (number : Nat) (start : CodeLabel) : Renamed ρ (.line number start) (.line number start)
  | returns {v v' : Option Value}
    : Option.Rel (Value.Renamed ρ) v v' → Renamed ρ (.returns v) (.returns v')
  | throws {v v' : Value} : v.Renamed ρ v' → Renamed ρ (.throws v) (.throws v')
  | catches (handler : CodeLabel) (entries : List CatchEntry) {v v' : Value}
    : v.Renamed ρ v' → Renamed ρ (.catches v handler entries) (.catches v' handler entries)
  | jump (target : CodeLabel) : Renamed ρ (.jump target) (.jump target)
  | branch (onTrue onFalse : CodeLabel) {e e' : BinaryExpr}
    : e.Renamed ρ e' → Renamed ρ (.branch e onTrue onFalse) (.branch e' onTrue onFalse)
  | switch (default : CodeLabel) {key key' : Value} {cases cases' : List (Value × CodeLabel)}
    : key.Renamed ρ key'
      → List.Forall₂ (fun c c' => c.1.Renamed ρ c'.1 ∧ c.2 = c'.2) cases cases'
      → Renamed ρ (.switch key cases default) (.switch key' cases' default)

/-- Renames a register; every other value stays as it is. -/
def Value.mapRegister (ρ : Register → Register) : Value → Value
  | .register r => .register (ρ r)
  | v => v

/-- The receiver, argument or register that an instruction assigns. -/
def Inst.assignedVariable? : Inst → Option Value
  | .assign target _ => if target.isVariable then some target else none
  | _ => none

/-- The register that an instruction binds to the exception. -/
def Inst.caught? : Inst → Option Register
  | .catches exception _ _ => exception.register?
  | _ => none

-- Variables of renamed instructions

/-- The variables among the second values are those among the first, renamed. -/
def VariablesRenamed (ρ : Register → Register) (vs ws : List Value) : Prop :=
  ws.filter Value.isVariable = (vs.filter Value.isVariable).map (Value.mapRegister ρ)

variable {ρ : Register → Register}

theorem VariablesRenamed.append {vs ws vs' ws' : List Value} (h : VariablesRenamed ρ vs ws)
    (h' : VariablesRenamed ρ vs' ws')
    : VariablesRenamed ρ (vs ++ vs') (ws ++ ws') := by
  simp only [VariablesRenamed, List.filter_append, List.map_append] at *
  rw [h, h']

theorem VariablesRenamed.flatMap {α : Type} {R : α → α → Prop} (f : α → List Value)
    (hf : ∀ a b, R a b → VariablesRenamed ρ (f a) (f b)) {as bs : List α}
    (h : List.Forall₂ R as bs)
    : VariablesRenamed ρ (as.flatMap f) (bs.flatMap f) := by
  induction h with
  | nil => rfl
  | cons hab _ ih => exact (hf _ _ hab).append ih

namespace Value.Renamed

variable {v w : Value}

theorem isVariable (h : v.Renamed ρ w)
    : w.isVariable = v.isVariable := by
  cases h <;> rfl

theorem eq_mapRegister (h : v.Renamed ρ w) (hv : v.isVariable)
    : w = v.mapRegister ρ := by
  cases h with
  | this | argument | register => rfl
  | _ => cases hv

theorem operands (h : v.Renamed ρ w)
    : List.Forall₂ (Value.Renamed ρ) v.operands w.operands := by
  cases h with
  | field owner name type ho => exact .cons ho .nil
  | element type ha hi => exact .cons ha (.cons hi .nil)
  | _ => exact .nil

theorem subvalues (h : v.Renamed ρ w)
    : VariablesRenamed ρ v.subvalues w.subvalues := by
  induction h with
  | field owner name type _ ih => exact ih
  | element type _ _ iha ihi => exact iha.append ihi
  | _ => rfl

end Value.Renamed

theorem VariablesRenamed.values {vs ws : List Value}
    (h : List.Forall₂ (Value.Renamed ρ) vs ws)
    : VariablesRenamed ρ (vs.flatMap Value.subvalues) (ws.flatMap Value.subvalues) :=
  .flatMap Value.subvalues (fun _ _ => Value.Renamed.subvalues) h

theorem Call.Renamed.operands {c d : Call} (h : c.Renamed ρ d)
    : List.Forall₂ (Value.Renamed ρ) c.operands d.operands := by
  cases h with
  | method c hr ha =>
      cases c with
      | mk kind owner name argumentTypes resultType receiver arguments isInterface =>
          cases hr with
          | none => exact ha
          | some hv => exact .cons hv ha
  | dynamic c ha => exact ha

theorem Expr.Renamed.subvalues {e f : Expr} (h : e.Renamed ρ f)
    : VariablesRenamed ρ e.subvalues f.subvalues := by
  cases h with
  | binary h =>
      cases h with
      | operands hl hr => exact .values (.cons hl (.cons hr .nil))
  | negate _ h | length h | cast _ h | instanceOf _ h => exact .values (.cons h .nil)
  | new type => rfl
  | newArray type h => exact .values h
  | call h => exact .values h.operands
  | value h => exact h.subvalues

namespace Inst.Renamed

theorem operands {i j : Inst} (h : i.Renamed ρ j)
    : List.Forall₂ (Expr.Renamed ρ) i.operands j.operands := by
  have hvalues {vs ws : List Value} (h : List.Forall₂ (Value.Renamed ρ) vs ws)
      : List.Forall₂ (Expr.Renamed ρ) (vs.map .value) (ws.map .value) :=
    List.forall₂_map_left_iff.mpr (List.forall₂_map_right_iff.mpr (h.imp fun _ _ => .value))
  cases h with
  | assign ht hs => exact .cons (.value ht) (.cons hs .nil)
  | enterMonitor h | exitMonitor h | throws h | catches _ _ h => exact .cons (.value h) .nil
  | call h => exact hvalues h.operands
  | label | line | jump => exact .nil
  | returns h =>
      cases h with
      | none => exact .nil
      | some h => exact .cons (.value h) .nil
  | branch _ _ h =>
      cases h with
      | operands hl hr => exact .cons (.value hl) (.cons (.value hr) .nil)
  | switch _ hk hc =>
      refine .cons (.value hk) ?_
      exact List.forall₂_map_left_iff.mpr
        (List.forall₂_map_right_iff.mpr (hc.imp fun _ _ h => .value h.1))

/-- The variables that a renamed instruction reads, in their order. -/
theorem reads {i j : Inst} (h : i.Renamed ρ j)
    : j.reads = i.reads.map (Value.mapRegister ρ) := by
  have hall : VariablesRenamed ρ i.subvalues j.subvalues :=
    VariablesRenamed.flatMap Expr.subvalues (fun _ _ => Expr.Renamed.subvalues) h.operands
  cases h with
  | assign ht hs =>
      exact (VariablesRenamed.values ht.operands).append hs.subvalues
  | catches => rfl
  | _ => exact hall

theorem assignedVariable? {i j : Inst} (h : i.Renamed ρ j)
    : j.assignedVariable? = i.assignedVariable?.map (Value.mapRegister ρ) := by
  cases h with
  | @assign target _ _ _ ht _ =>
      cases hv : target.isVariable with
      | false => simp [Inst.assignedVariable?, ht.isVariable, hv]
      | true =>
          rw [Inst.assignedVariable?, Inst.assignedVariable?, if_pos (ht.isVariable.trans hv),
            if_pos hv, ht.eq_mapRegister hv, Option.map_some]
  | _ => rfl

theorem caught? {i j : Inst} (h : i.Renamed ρ j)
    : j.caught? = i.caught?.map ρ := by
  cases h with
  | catches _ _ h => cases h <;> rfl
  | _ => rfl

end Inst.Renamed

-- Substitutions rename

section MappedValues

variable {f : Value → Value}

section

variable (hf : ∀ v : Value, v.Renamed ρ (f v))
include hf

theorem rel_renamed_map (v : Option Value)
    : Option.Rel (Value.Renamed ρ) v (v.map f) := by
  cases v with
  | none => exact .none
  | some v => exact .some (hf v)

theorem forall₂_renamed_map (vs : List Value)
    : List.Forall₂ (Value.Renamed ρ) vs (vs.map f) :=
  List.forall₂_map_right_iff.mpr (List.forall₂_same.mpr fun v _ => hf v)

theorem Call.renamed_mapValues (c : Call)
    : c.Renamed ρ (c.mapValues f) := by
  cases c with
  | method c => exact .method c (rel_renamed_map hf _) (forall₂_renamed_map hf _)
  | dynamic c => exact .dynamic c (forall₂_renamed_map hf _)

theorem Expr.renamed_mapValues (e : Expr)
    : e.Renamed ρ (e.mapValues f) := by
  cases e with
  | binary e => exact .binary (.operands e (hf _) (hf _))
  | new type => exact .new type
  | newArray type dimensions => exact .newArray type (forall₂_renamed_map hf dimensions)
  | call c => exact .call (c.renamed_mapValues hf)
  | _ =>
      constructor
      exact hf _

theorem Inst.renamed_mapValues (i : Inst)
    : i.Renamed ρ (i.mapValues f) := by
  cases i with
  | assign target source => exact .assign (hf target) (source.renamed_mapValues hf)
  | call c => exact .call (c.renamed_mapValues hf)
  | returns value => exact .returns (rel_renamed_map hf value)
  | branch e onTrue onFalse => exact .branch onTrue onFalse (.operands e (hf _) (hf _))
  | switch key cases default =>
      refine .switch default (hf key) ?_
      exact List.forall₂_map_right_iff.mpr (List.forall₂_same.mpr fun c _ => ⟨hf c.1, rfl⟩)
  | label | line | jump => constructor
  | _ =>
      constructor
      exact hf _

end

theorem Value.renamed_mapLeaves (register : ∀ r, f (.register r) = .register (ρ r))
    (other : ∀ v, v.register? = none → f v = v) (v : Value)
    : v.Renamed ρ (v.mapLeaves f) := by
  induction v with
  | register r => simpa only [mapLeaves, register] using .register r
  | staticField owner name type => exact .staticField owner name type
  | field object owner name type ih => exact .field owner name type ih
  | element array index type iha ihi => exact .element type iha ihi
  | this type => simpa only [mapLeaves, other (.this type) rfl] using .this type
  | argument a => simpa only [mapLeaves, other (.argument a) rfl] using .argument a
  | constant c => simpa only [mapLeaves, other (.constant c) rfl] using .constant c

end MappedValues

namespace Substitution

variable {s t u : Substitution}

/-- The register that a register is replaced by, itself unless it has an image. -/
def image (s : Substitution) (r : Register) : Register :=
  ((find? s (.register r)).bind Value.register?).getD r

theorem OnRegisters.leaf_register (hs : s.OnRegisters) (r : Register)
    : s.leaf (.register r) = .register (s.image r) := by
  cases hf : find? s (.register r) with
  | none => simp [leaf, image, hf]
  | some v =>
      obtain ⟨_, q, -, rfl⟩ := hs _ (mem_of_find?_eq_some hf)
      simp [leaf, image, hf, Value.register?]

theorem OnRegisters.renamed_inst (hs : s.OnRegisters) (i : Inst)
    : i.Renamed s.image (s.inst i) := by
  refine i.renamed_mapValues fun v => ?_
  rw [value_eq_mapLeaves hs.forRegisters]
  exact v.renamed_mapLeaves hs.leaf_register (leaf_eq_self hs.forRegisters)

-- Substitutions that follow each other

/-- The substitution whose images are those that the second has for the images of the first. -/
def followedBy (s t : Substitution) : Substitution :=
  s.foldr (fun entry m => insert m entry.1 (t.leaf entry.2)) t

theorem OnRegisters.tail {entry : Value × Value} (hs : OnRegisters (entry :: s))
    : s.OnRegisters :=
  fun e he => hs e (List.mem_cons_of_mem _ he)

section

variable (hs : s.OnRegisters)
include hs

/-- Keys have no names. -/
theorem OnRegisters.anonymous_key {entry : Value × Value} (h : entry ∈ s)
    : entry.1.anonymous = entry.1 := by
  obtain ⟨r, _, hk, -⟩ := hs entry h
  rw [hk]
  rfl

theorem find?_followedBy (v : Value)
    : find? (s.followedBy t) v
      = ((find? s v).map t.leaf).or (find? t v) := by
  induction s with
  | nil => rfl
  | cons entry s ih =>
      have hkey := hs.anonymous_key List.mem_cons_self
      obtain ⟨k, w⟩ := entry
      change find? (insert (followedBy s t) k (t.leaf w)) v = _
      rw [find?_insert, hkey, ih hs.tail]
      by_cases h : v.anonymous = k
      · simp [find?, h]
      · simp [find?, List.lookup_cons, beq_false_of_ne h, h]

theorem OnRegisters.followedBy (ht : t.OnRegisters)
    : (s.followedBy t).OnRegisters := by
  induction s with
  | nil => exact ht
  | cons entry s ih =>
      intro e he
      rcases mem_insert he with rfl | he
      · obtain ⟨r, q, hk, hq⟩ := hs entry List.mem_cons_self
        refine ⟨r, t.image q, ?_, ?_⟩
        · rw [hs.anonymous_key List.mem_cons_self, hk]
        · rw [hq, ht.leaf_register]
      · exact ih hs.tail e he

theorem image_followedBy (ht : t.OnRegisters) (r : Register)
    : (s.followedBy t).image r = t.image (s.image r) := by
  have hfind := find?_followedBy hs (t := t) (.register r)
  cases hr : find? s (.register r) with
  | none => simp [image, hfind, hr]
  | some v =>
      obtain ⟨_, q, -, rfl⟩ := hs _ (mem_of_find?_eq_some hr)
      have hleaf := ht.leaf_register q
      rw [image, hfind, hr, Option.map_some, hleaf]
      simp [image, hr, Value.register?]

/-- Only the images of registers matter. -/
theorem leaf_comp (ht : t.OnRegisters) (hu : u.OnRegisters)
    (h : ∀ r, u.image r = t.image (s.image r))
    : u.leaf = t.leaf ∘ s.leaf := by
  funext v
  rw [Function.comp_apply]
  cases hv : v.register? with
  | none =>
      rw [leaf_eq_self hs.forRegisters v hv, leaf_eq_self ht.forRegisters v hv,
        leaf_eq_self hu.forRegisters v hv]
  | some r =>
      obtain rfl := Value.eq_of_register? hv
      rw [hs.leaf_register, ht.leaf_register, hu.leaf_register, h]

theorem inst_inst (ht : t.OnRegisters) (hu : u.OnRegisters)
    (h : ∀ r, u.image r = t.image (s.image r)) (i : Inst)
    : t.inst (s.inst i) = u.inst i := by
  rw [inst_eq_rename hs, inst_eq_rename ht, inst_eq_rename hu, leaf_comp hs ht hu h]
  exact (renames_leaf hs).replaces.rename_rename t.leaf i

end

/-- A substitution of registers for registers renames what an instruction reads, assigns and
catches, and keeps all the rest of it. Substitutions that follow each other are one substitution,
which sends each register to the image of its image.
-/
theorem substitution_renames (hs : s.OnRegisters)
    : (∀ i : Inst, i.Renamed s.image (s.inst i)
        ∧ (s.inst i).reads = i.reads.map (Value.mapRegister s.image)
        ∧ (s.inst i).assignedVariable? = i.assignedVariable?.map (Value.mapRegister s.image)
        ∧ (s.inst i).caught? = i.caught?.map s.image)
      ∧ ∀ t : Substitution, t.OnRegisters →
        ((s.followedBy t).OnRegisters
          ∧ ∀ r, (s.followedBy t).image r = t.image (s.image r))
        ∧ ∀ u : Substitution, u.OnRegisters → (∀ r, u.image r = t.image (s.image r)) →
          ∀ i, t.inst (s.inst i) = u.inst i := by
  refine ⟨fun i => ?_, fun t ht => ⟨⟨hs.followedBy ht, image_followedBy hs ht⟩, ?_⟩⟩
  · have h := hs.renamed_inst i
    exact ⟨h, h.reads, h.assignedVariable?, h.caught?⟩
  · intro u hu h i
    exact inst_inst hs ht hu h i

/-- The first two integer registers trade places. -/
def trade : Substitution :=
  [((Value.register (.fresh 0 .int)).anonymous, .register (.fresh 1 .int)),
    ((Value.register (.fresh 1 .int)).anonymous, .register (.fresh 0 .int))]

theorem onRegisters_trade : trade.OnRegisters := by
  intro entry he
  rcases List.mem_cons.mp he with rfl | he
  · exact ⟨.fresh 0 .int, .fresh 1 .int, rfl, rfl⟩
  · obtain rfl := List.mem_singleton.mp he
    exact ⟨.fresh 1 .int, .fresh 0 .int, rfl, rfl⟩

/-- Stores the successor of the first register in an element of it. -/
def storeSuccessor : Inst :=
  .assign (.element (.register (.fresh 0 .int)) (.register (.fresh 1 .int)) .int)
    (.binary ⟨.add, .int, .register (.fresh 0 .int), .constant (.int 1)⟩)

/-- Registers that trade places twice are back where they were. -/
theorem storeSuccessor_traded
    : trade.OnRegisters
      ∧ storeSuccessor.Renamed trade.image (trade.inst storeSuccessor)
      ∧ (trade.inst storeSuccessor).reads
        = [.register (.fresh 1 .int), .register (.fresh 0 .int), .register (.fresh 1 .int)]
      ∧ trade.inst (trade.inst storeSuccessor) = storeSuccessor := by
  have h := substitution_renames onRegisters_trade
  have htwice := (h.2 trade onRegisters_trade).2 _ (onRegisters_trade.followedBy onRegisters_trade)
    (image_followedBy onRegisters_trade onRegisters_trade) storeSuccessor
  refine ⟨onRegisters_trade, (h.1 storeSuccessor).1, ?_, htwice.trans (by decide +kernel)⟩
  rw [(h.1 storeSuccessor).2.1]
  decide +kernel

end Substitution

end StackLift
