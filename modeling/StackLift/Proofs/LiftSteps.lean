import StackLift.Proofs.Control
import StackLift.Proofs.LiftLogic

/-!
What the steps of lifting write, and how they can fail. A step that simulates an instruction adds
code to its node through which control goes straight on.
-/

namespace StackLift

variable {α β : Type}

-- Failures

/-- The simulation came to a node before the nodes that lead to it. -/
def Error.isOrderFault : Error → Bool
  | .frameOutOfOrder _ | .noSinglePredecessor _ => true
  | _ => false

/-- The failure, if any, has nothing to do with the order of simulation. -/
def Orderly (x : Except Error α) : Prop :=
  ∀ e, x = .error e → e.isOrderFault = false

namespace Orderly

theorem ok (a : α)
    : Orderly (.ok a) :=
  fun _ h => nomatch h

theorem error {e : Error} (h : e.isOrderFault = false)
    : Orderly (.error e : Except Error α) :=
  fun _ he => (Except.error.inj he) ▸ h

theorem bind {x : Except Error α} {f : α → Except Error β} (hx : Orderly x)
    (hf : ∀ a, x = .ok a → Orderly (f a))
    : Orderly (x >>= f) := by
  cases x with
  | error e => exact .error (hx e rfl)
  | ok a => exact hf a rfl

theorem mapM {f : α → Except Error β} {l : List α} (h : ∀ a ∈ l, Orderly (f a))
    : Orderly (l.mapM f) := by
  induction l with
  | nil => exact .ok []
  | cons a rest ih =>
      rw [List.mapM_cons]
      refine (h a (by simp)).bind fun b _ => ?_
      exact (ih fun c hc => h c (by simp [hc])).bind fun bs _ => .ok (b :: bs)

theorem foldlM {f : β → α → Except Error β} {l : List α} (h : ∀ b, ∀ a ∈ l, Orderly (f b a)) {b : β}
    : Orderly (l.foldlM f b) := by
  induction l generalizing b with
  | nil => exact .ok b
  | cons a rest ih =>
      rw [List.foldlM_cons]
      exact (h b a (by simp)).bind fun b' _ => ih fun b'' c hc => h b'' c (by simp [hc])

theorem lookUp (labels : List (Label × Nat)) (l : Label)
    : Orderly (MethodGraph.lookUp labels l) := by
  unfold MethodGraph.lookUp
  split
  · exact .ok _
  · exact .error rfl

variable (f : Frame) (node : Nat)

theorem pop
    : Orderly (f.pop node) := by
  unfold Frame.pop
  split
  · exact .ok _
  · exact .error rfl

theorem popMany (count : Nat)
    : Orderly (f.popMany node count) := by
  unfold Frame.popMany
  split
  · exact .ok _
  · exact .error rfl

theorem getLocal (slot : Nat)
    : Orderly (f.getLocal node slot) := by
  unfold Frame.getLocal
  split
  · exact .ok _
  · exact .error rfl

theorem shuffle (s : Shuffle)
    : Orderly (f.shuffle node s) := by
  unfold Frame.shuffle
  split
  · exact .ok _
  · exact .error rfl

theorem constant (c : LoadableConstant)
    : Orderly c.constant := by
  cases c <;> first | exact .ok _ | exact .error rfl

theorem bootstrapArgument (c : LoadableConstant)
    : Orderly c.bootstrapArgument := by
  cases c <;> first | exact .ok _ | exact .error rfl

theorem constantEffect (c : LoadableConstant)
    : Orderly (c.effect f) := by
  unfold LoadableConstant.effect
  split
  · exact (mapM fun c _ => constant c).bind fun _ _ => .ok _
  all_goals exact (constant _).bind fun _ _ => .ok _

theorem callEffect (method : MethodRef) (kind : InvokeKind)
    : Orderly (method.effect kind node f) := by
  refine (popMany f node _).bind fun ⟨arguments, g⟩ _ => ?_
  dsimp only
  split
  · exact .ok _
  · exact (pop g node).bind fun _ _ => .ok _

theorem dynamicEffect (site : CallSite)
    : Orderly (site.effect node f) :=
  (mapM fun c _ => bootstrapArgument c).bind fun _ _ =>
    (popMany f node _).bind fun _ _ => .ok _

theorem effect (i : Instruction)
    : Orderly (i.effect node f) := by
  cases i with
  | pushConstant c => exact constantEffect f c
  | load kind slot => exact (getLocal f node slot).bind fun _ _ => .ok _
  | increment slot amount => exact (getLocal f node slot).bind fun _ _ => .ok _
  | shuffle s => exact (shuffle f node s).bind fun _ _ => .ok _
  | invoke kind method => exact callEffect f node method kind
  | invokeDynamic site => exact dynamicEffect f node site
  | newMultiArray type dimensions => exact (popMany f node dimensions).bind fun _ _ => .ok _
  | arrayStore kind =>
      exact (pop f node).bind fun _ _ => (pop _ node).bind fun _ _ =>
        (pop _ node).bind fun _ _ => .ok _
  | nop | pushNull | pushInt | pushLong | pushFloat | pushDouble | pushByte | pushShort
  | getStatic | new => exact .ok _
  | store | putStatic | enterMonitor | exitMonitor | negate | convert | getField | newArray
  | newObjectArray | arrayLength | checkCast | instanceOf =>
      exact (pop f node).bind fun _ _ => .ok _
  | putField | arrayLoad | arithmetic | shift | bitwise | compareLong | compareFloat
  | compareDouble => exact (pop f node).bind fun _ _ => (pop _ node).bind fun _ _ => .ok _

end Orderly

namespace LiftM

-- Steps

/-- From the state, the step fails orderly or leads to a result and a state as described. -/
def Leads (x : LiftM α) (s : LiftState) (Q : α → LiftState → Prop) : Prop :=
  Orderly (x.run s) ∧ ∀ a s', x.run s = .ok (a, s') → Q a s'

namespace Leads

variable {x : LiftM α} {f : α → LiftM β} {s : LiftState} {Q Q' : α → LiftState → Prop}
  {R : β → LiftState → Prop}

theorem mono (h : x.Leads s Q) (hQ : ∀ a s', Q a s' → Q' a s')
    : x.Leads s Q' :=
  ⟨h.1, fun a s' hx => hQ a s' (h.2 a s' hx)⟩

theorem of_run {a : α} {s' : LiftState} (hx : x.run s = .ok (a, s')) (h : Q a s')
    : x.Leads s Q := by
  refine ⟨hx ▸ .ok _, fun b t ht => ?_⟩
  cases hx.symm.trans ht
  exact h

theorem pure {a : α} (h : Q a s)
    : (Pure.pure a : LiftM α).Leads s Q :=
  of_run rfl h

theorem bind (h : x.Leads s fun a s' => (f a).Leads s' R)
    : (x >>= f).Leads s R := by
  constructor
  · rw [StateT.run_bind]
    exact h.1.bind fun ⟨a, s'⟩ hx => (h.2 a s' hx).1
  · intro b s₂ hb
    obtain ⟨a, s₁, hx, hb⟩ := run_bind_eq_ok.mp hb
    exact (h.2 a s₁ hx).2 b s₂ hb

/-- A result that is made at the end does not change the state. -/
theorem returning {P : LiftState → Prop} {b : α → β} (h : x.Leads s fun _ s' => P s')
    : (x >>= fun a => Pure.pure (b a)).Leads s fun _ s' => P s' :=
  bind (h.mono fun _ _ hs' => pure hs')

theorem throw {e : Error} (h : e.isOrderFault = false)
    : (throw e : LiftM α).Leads s Q :=
  ⟨.error h, fun _ _ hx => nomatch hx⟩

theorem get_bind {f : LiftState → LiftM β} (h : (f s).Leads s R)
    : (get >>= f).Leads s R :=
  h

theorem lift_bind {x : Except Error α} (hx : Orderly x)
    (hf : ∀ a, x = .ok a → (f a).Leads s R)
    : ((liftM x : LiftM α) >>= f).Leads s R := by
  cases x with
  | error e => exact ⟨.error (hx e rfl), fun _ _ h => nomatch h⟩
  | ok a => exact hf a rfl

/-- A relation between the elements that were taken and the state. -/
theorem forM {l done : List β} {f : β → LiftM PUnit} {I : List β → LiftState → Prop}
    (h : ∀ before b after s, l = before ++ b :: after → I (done ++ before) s →
      (f b).Leads s fun _ s' => I (done ++ before ++ [b]) s')
    (hs : I done s)
    : (l.forM f).Leads s fun _ s' => I (done ++ l) s' := by
  induction l generalizing done s with
  | nil => exact pure (by simpa using hs)
  | cons b rest ih =>
      change (f b >>= fun _ => rest.forM f).Leads s _
      refine bind ((h [] b rest s rfl (by simpa using hs)).mono fun _ s₁ hs₁ => ?_)
      refine (@ih s₁ (done ++ [b]) ?_ (by simpa using hs₁)).mono fun _ s₂ hs₂ => by
        simpa using hs₂
      intro before c after s₂ heq hs₂
      subst heq
      simpa using h (b :: before) c after s₂ rfl (by simpa using hs₂)

theorem forM_keeps {l : List β} {f : β → LiftM PUnit} {I : LiftState → Prop}
    (h : ∀ b ∈ l, ∀ s, I s → (f b).Leads s fun _ s' => I s') (hs : I s)
    : (l.forM f).Leads s fun _ s' => I s' :=
  @forM β s l [] f (fun _ => I) (fun before b after s hl => h b (by simp [hl]) s) hs

end Leads

-- Straight code

/-- The step adds code to a node, but makes no label and keeps no frame. -/
structure Emits (node : Nat) (insts : List Inst) (s s' : LiftState) : Prop where
  frames : s'.frames = s.frames
  labels : s'.labels = s.labels
  nextLabel : s'.nextLabel = s.nextLabel
  code : s'.code = s.code.modify node (· ++ insts)

theorem modify_append_nil (code : Array (List Inst)) (node : Nat)
    : code.modify node (· ++ []) = code := by
  refine Array.ext_getElem? fun n => ?_
  simp [Array.getElem?_modify]

theorem modify_append_append (code : Array (List Inst)) (node : Nat) (first second : List Inst)
    : (code.modify node (· ++ first)).modify node (· ++ second)
      = code.modify node (· ++ (first ++ second)) := by
  refine Array.ext_getElem? fun n => ?_
  by_cases same : node = n <;> simp [Array.getElem?_modify, same, Function.comp_def]

theorem Emits.trans {node : Nat} {first second : List Inst} {s₁ s₂ s₃ : LiftState}
    (h : Emits node first s₁ s₂) (h' : Emits node second s₂ s₃)
    : Emits node (first ++ second) s₁ s₃ where
  frames := h'.frames.trans h.frames
  labels := h'.labels.trans h.labels
  nextLabel := h'.nextLabel.trans h.nextLabel
  code := by rw [h'.code, h.code, modify_append_append]

/-- From the state, the step adds to the node only code through which control goes straight on. -/
def Straight (node : Nat) (x : LiftM α) (s : LiftState) : Prop :=
  x.Leads s fun _ s' => ∃ insts, (∀ i ∈ insts, i.control = .step) ∧ Emits node insts s s'

variable {node : Nat} {s : LiftState}

namespace Straight

variable {x : LiftM α} {f : α → LiftM β}

/-- A step that writes no code. -/
theorem quiet {a : α} {s' : LiftState} (hx : x.run s = .ok (a, s'))
    (frames : s'.frames = s.frames) (labels : s'.labels = s.labels)
    (nextLabel : s'.nextLabel = s.nextLabel) (code : s'.code = s.code)
    : Straight node x s :=
  .of_run hx ⟨[], by simp, ⟨frames, labels, nextLabel, by rw [code, modify_append_nil]⟩⟩

theorem pure (a : α)
    : Straight node (Pure.pure a) s :=
  quiet rfl rfl rfl rfl rfl

theorem throw {e : Error} (h : e.isOrderFault = false)
    : Straight node (throw e : LiftM α) s :=
  Leads.throw h

theorem bind (hx : Straight node x s) (hf : ∀ a s, Straight node (f a) s)
    : Straight node (x >>= f) s := by
  refine Leads.bind (hx.mono fun a s₁ ⟨insts, hi, he⟩ => ?_)
  refine (hf a s₁).mono fun b s₂ ⟨more, hm, he'⟩ => ⟨insts ++ more, fun i hmem => ?_, he.trans he'⟩
  exact (List.mem_append.mp hmem).elim (hi i) (hm i)

theorem get_bind {f : LiftState → LiftM β} (hf : Straight node (f s) s)
    : Straight node (get >>= f) s :=
  hf

theorem lift_bind {x : Except Error α} (hx : Orderly x)
    (hf : ∀ a, x = .ok a → Straight node (f a) s)
    : Straight node ((liftM x : LiftM α) >>= f) s :=
  Leads.lift_bind hx hf

theorem mapM {f : α → LiftM β} {l : List α} (h : ∀ a ∈ l, ∀ s, Straight node (f a) s)
    : Straight node (l.mapM f) s := by
  induction l generalizing s with
  | nil => exact pure []
  | cons a rest ih =>
      rw [List.mapM_cons]
      refine (h a (by simp) s).bind fun b s₁ => ?_
      exact (ih fun c hc => h c (by simp [hc])).bind fun bs s₂ => pure (b :: bs)

end Straight

-- Instructions

theorem straight_emit {i : Inst} (h : i.control = .step)
    : Straight node (emit node i) s :=
  .of_run rfl ⟨[i], by simpa using h, ⟨rfl, rfl, rfl, rfl⟩⟩

theorem straight_freshRegister (type : TypeName)
    : Straight node (freshRegister type) s :=
  .quiet rfl rfl rfl rfl rfl

theorem straight_assign (target : Value) (source : Expr)
    : Straight node (assign node target source) s :=
  .of_run rfl ⟨[.assign target source], by simp [Inst.control], ⟨rfl, rfl, rfl, rfl⟩⟩

theorem straight_compute (e : Expr)
    : Straight node (compute node e) s :=
  (straight_freshRegister e.type).bind fun r _ =>
    (straight_assign (.register r) e).bind fun _ _ => .pure r

theorem straight_storeFresh (p : Plan) (slot : Nat) (f : Frame) (type : TypeName) (value : Value)
    : Straight node (storeFresh p node slot f type value) s := by
  refine (straight_freshRegister type).bind fun r s₁ => .get_bind ?_
  have hset : Straight node
      (set { s₁ with registers := (p.variableRegister node slot r s₁.registers).2 } : LiftM PUnit)
      s₁ := .quiet rfl rfl rfl rfl rfl
  exact hset.bind fun _ s₂ => (straight_assign _ _).bind fun _ s₃ => .pure _

theorem straight_store (p : Plan) (slot : Nat) (f : Frame) (value : Value)
    : Straight node (store p node slot f value) s := by
  unfold store
  dsimp only
  split
  · exact straight_storeFresh p slot f _ value
  · exact .pure _
  · split
    · split
      · exact .pure _
      · refine Straight.bind (.quiet rfl rfl rfl rfl rfl) fun same s₁ => ?_
        split
        · exact (straight_assign _ _).bind fun _ s₂ => .pure f
        · exact straight_storeFresh p slot f _ value
    · exact straight_storeFresh p slot f _ value

theorem straight_perform (p : Plan) (e : Effect) (h : ∀ f i, e = .emit f i → i.control = .step)
    : Straight node (perform p node e) s := by
  cases e with
  | move f => exact .pure f
  | compute f e => exact (straight_compute e).bind fun r s₁ => .pure _
  | emit f i => exact (straight_emit (h f i rfl)).bind fun _ s₁ => .pure f
  | store f slot value => exact straight_store p slot f value
  | update f slot e => exact (straight_compute e).bind fun r s₁ => straight_store p slot f _
  | computeTwice f first second =>
      exact (straight_compute first).bind fun r s₁ =>
        (straight_compute _).bind fun r' s₂ => .pure _

end LiftM

end StackLift
