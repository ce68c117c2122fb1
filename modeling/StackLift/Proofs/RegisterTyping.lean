import StackLift.Proofs.LiftedCode

/-!
The types of registers in lifted code. Registers with one index have one type, as long as stack map
frames do not give a register two different types.
-/

namespace StackLift

/-- All registers that occur in an instruction. -/
def Inst.registers (i : Inst) : List Register :=
  i.subvalues.filterMap Value.register?

theorem Inst.mem_registers {i : Inst} {r : Register}
    : r ∈ i.registers ↔ .register r ∈ i.subvalues := by
  refine List.mem_filterMap.trans ⟨fun ⟨v, hv, hr⟩ => ?_, fun h => ⟨_, h, rfl⟩⟩
  cases v <;> cases hr
  exact hv

/-- All occurrences of registers with the same index carry the same type. -/
def TypedOnce (code : List Inst) : Prop :=
  ∀ r ∈ code.flatMap Inst.registers, ∀ q ∈ code.flatMap Inst.registers,
    r.index = q.index → r.type = q.type

instance (code : List Inst) : Decidable (TypedOnce code) :=
  inferInstanceAs (Decidable (∀ r ∈ code.flatMap Inst.registers,
    ∀ q ∈ code.flatMap Inst.registers, r.index = q.index → r.type = q.type))

/-- No stack map frames of the method give a register two different types. -/
def Method.RetypesOnce (m : Method) (settings : Settings) : Prop :=
  match Plan.ofMethod m settings with
  | .ok p => p.RetypesOnce
  | .error _ => True

instance (m : Method) (settings : Settings) : Decidable (m.RetypesOnce settings) :=
  match h : Plan.ofMethod m settings with
  | .ok p => decidable_of_iff p.RetypesOnce (by simp [Method.RetypesOnce, h])
  | .error _ => isTrue (by simp [Method.RetypesOnce, h])

theorem Plan.method_ofMethod {m : Method} {settings : Settings} {p : Plan}
    (h : Plan.ofMethod m settings = .ok p)
    : p.method = m ∧ p.graph.graph.Rooted (p.method.nodes.length + 1) := by
  obtain ⟨graph, hgraph, h⟩ := except_bind_eq_ok.mp h
  obtain ⟨_, -, h⟩ := except_bind_eq_ok.mp h
  obtain ⟨_, -, h⟩ := except_bind_eq_ok.mp h
  cases h
  exact ⟨rfl, MethodGraph.rooted_ofMethod hgraph⟩

/-- What is known about the registers of the code before simplification. -/
theorem registers_of_liftRaw {m : Method} {settings : Settings} {code : List Inst}
    (once : m.RetypesOnce settings) (h : m.liftRaw settings = .ok code)
    : ∃ w : Inventory, (∀ i ∈ code, i.Within w.Settled)
        ∧ (m.ranges = [] → ∀ i < w.made, AssignsFromOlder code i) := by
  obtain ⟨p, hp, h⟩ := except_bind_eq_ok.mp h
  have once : p.RetypesOnce := by simpa [Method.RetypesOnce, hp] using once
  obtain ⟨hm, hroot⟩ := Plan.method_ofMethod hp
  exact hm ▸ registers_of_liftCode once hroot h

theorem typedOnce_of_settled {w : Inventory} {code : List Inst}
    (h : ∀ i ∈ code, i.Within w.Settled)
    : TypedOnce code := by
  have settled : ∀ r ∈ code.flatMap Inst.registers, w.Settled r := by
    intro r hr
    obtain ⟨i, hi, hr⟩ := List.mem_flatMap.mp hr
    exact (h i hi).registers r (Inst.mem_registers.mp hr)
  intro r hr q hq hindex
  rw [(settled r hr).2, (settled q hq).2, hindex]

/-- In code that is not simplified, all registers with one index have one type, unless stack map
frames give a register two different types.
-/
theorem lifted_registers_typed_once {m : Method} {settings : Settings} {code : List Inst}
    (raw : settings.simplify = false) (once : m.RetypesOnce settings)
    (h : m.lift settings = .ok code)
    : TypedOnce code := by
  rw [lift_eq_liftRaw raw] at h
  obtain ⟨w, hw, -⟩ := registers_of_liftRaw once h
  exact typedOnce_of_settled hw

-- Frames that declare types for one register

def ownerClass : ClassName := ⟨"a/B", rfl⟩

/-- A method with the given nodes and no tables. -/
def staticMethod (descriptor : MethodDescriptor) (nodes : List Node) : Method :=
  { owner := ownerClass
    name := ⟨"t", rfl⟩
    descriptor
    flags := .staticMethod
    parameterNames := descriptor.parameters.map fun _ => none
    nodes
    ranges := []
    variableTable := [] }

def rawSettings : Settings :=
  { keepNames := false, simplify := false, firstLine := false }

def listClass : ClassName := ⟨"java/util/List", rfl⟩

def objectClass : ClassName := ⟨"java/lang/Object", rfl⟩

/-- A stack map frame that declares the type of the only slot. -/
def declaring (name : ClassName) : Node :=
  .frame { kind := .full, locals := [.object (.object name)], stack := [], chopped := 0 }

def arrayListClass : ClassName := ⟨"java/util/ArrayList", rfl⟩

def makeList : MethodRef :=
  { owner := .object ownerClass
    name := ⟨"make", rfl⟩
    descriptor := ⟨[], some (.ref (.object arrayListClass))⟩
    isInterface := false }

/-- A method that makes a list and returns it after two stack map frames. -/
def declaredTwice (first second : ClassName) : Method :=
  staticMethod ⟨[], some (.ref (.object objectClass))⟩
    [.plain (.invoke .staticCall makeList), .plain (.store .reference 0), declaring first,
      declaring second, .plain (.load .reference 0), .branch (.returnValue .reference)]

/-- The nodes follow one another. -/
def straightGraph : MethodGraph :=
  { graph := ⟨#[[], [0], [1], [2], [3], [4], [5]], []⟩, labels := [], handlers := [] }

/-- The lifted method, with the types of the stored and of the returned register. -/
def declaredCode (stored returned : ClassName) : List Inst :=
  let made := Register.fresh 0 (.ofRef (.object arrayListClass))
  [.assign (.register { made with kind := .result }) (.call (makeList.call .staticCall none [])),
    .assign (.register (.fresh 1 (.ofClass stored))) (.value (.register made)),
    .returns (some (.register (.fresh 1 (.ofClass returned))))]

/-- Two frames that give a register the same type change all its occurrences. -/
theorem declared_list_typed_once
    : (declaredTwice listClass listClass).RetypesOnce rawSettings
      ∧ (declaredTwice listClass listClass).lift rawSettings
        = .ok (declaredCode listClass listClass)
      ∧ TypedOnce (declaredCode listClass listClass) := by
  have once : (declaredTwice listClass listClass).RetypesOnce rawSettings := by decide +kernel
  have lifted : (declaredTwice listClass listClass).lift rawSettings
      = .ok (declaredCode listClass listClass) := by decide +kernel
  exact ⟨once, lifted, lifted_registers_typed_once rfl once lifted⟩

/-- Two frames that give a register different types leave it with both of them. -/
theorem declared_list_typed_twice
    : (declaredTwice listClass objectClass).lift rawSettings
        = .ok (declaredCode listClass objectClass)
      ∧ ¬ TypedOnce (declaredCode listClass objectClass) := by
  exact ⟨by decide +kernel, by decide +kernel⟩

end StackLift
