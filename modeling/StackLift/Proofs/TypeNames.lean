import StackLift.Proofs.DescriptorGrammar
import StackLift.Proofs.OperandWidths

/-!
Names of types against the types themselves. A type can be told from its name, with its width, its
kind and its elements, unless a class has the name of a primitive type, `void` or `null`. So the
slots that the parameters of a method take by their widths are those that their names give them.
-/

namespace StackLift

open FieldType DeclaredTypes

/-- Every field type is a base type, a class or an array of field types. -/
@[elab_as_elim]
theorem FieldType.arrayInduction {motive : FieldType → Prop} (base : ∀ type, motive (.base type))
    (object : ∀ name, motive (.ref (.object name)))
    (array : ∀ component : FieldType, motive component → motive (.ref component.arrayOf))
    (d : FieldType)
    : motive d := by
  rcases d with type | (name | ⟨extra, name⟩ | ⟨extra, type⟩)
  · exact base type
  · exact object name
  · induction extra with
    | zero => exact array (.ref (.object name)) (object name)
    | succ n ih => exact array (.ref (.objectArray n name)) ih
  · induction extra with
    | zero => exact array (.base type) (base type)
    | succ n ih => exact array (.ref (.primitiveArray n type)) ih

theorem FieldType.isDistinct_arrayOf (component : FieldType)
    : (ref component.arrayOf).isDistinct = component.isDistinct := by
  rcases component with type | (name | ⟨extra, name⟩ | ⟨extra, type⟩) <;> rfl

namespace TypeName

variable {t u : TypeName} {name other : ClassName} {d e component : FieldType}

-- Classes

theorem toList_ofClass (name : ClassName)
    : (ofClass name).text.toList = name.text.toList.map fun c => if c = '/' then '.' else c := by
  simp [ofClass, ClassName.dotted]

/-- A class name holds no dots, so the dots of its written form are its slashes. -/
theorem ofClass_injective (h : ofClass name = ofClass other)
    : name = other := by
  have hback : ∀ name : ClassName,
      (ofClass name).text.toList.map (fun c => if c = '.' then '/' else c) = name.text.toList := by
    intro name
    rw [toList_ofClass, List.map_map]
    refine (List.map_congr_left fun c hc => ?_).trans (List.map_id _)
    have hdot : c ≠ '.' := by
      rintro rfl
      exact name.isClassName.not_delimiter (by decide) hc
    by_cases hslash : c = '/' <;> simp [hslash, hdot]
  have htext := String.toList_inj.mp ((hback name).symm.trans (h ▸ hback other))
  cases name
  cases other
  cases htext
  rfl

theorem ofClass_eq_iff {keyword : String} (hdot : '.' ∉ keyword.toList)
    (hslash : '/' ∉ keyword.toList)
    : ofClass name = ⟨keyword⟩ ↔ name.text = keyword := by
  constructor
  · intro h
    by_contra hne
    exact ofClass_ne hne hdot h
  · rintro rfl
    rw [eq_iff_toList, toList_ofClass]
    refine (List.map_congr_left fun c hc => if_neg ?_).trans (List.map_id _)
    rintro rfl
    exact hslash hc

/-- Exactly the classes without a distinct name are read as primitive types. -/
theorem isPrimitive_ofClass (name : ClassName)
    : (ofClass name).isPrimitive = !name.isDistinct := by
  have hkeyword := @ofClass_eq_iff name
  rw [Bool.eq_iff_iff]
  simp only [isPrimitive, boolean, byte, char, short, int, long, float, double, void, null,
    ClassName.isDistinct, List.contains_eq_mem, decide_eq_true_eq, List.mem_cons, List.not_mem_nil,
    or_false, Bool.not_eq_true', decide_eq_false_iff_not, not_not]
  simp (disch := decide) only [hkeyword]

theorem isArray_ofClass (name : ClassName)
    : (ofClass name).isArray = false := by
  rw [← Bool.not_eq_true, isArray, List.isSuffixOf_iff_suffix]
  intro hsuffix
  have hmem : '[' ∈ (ofClass name).text.toList := hsuffix.subset List.mem_cons_self
  rw [toList_ofClass] at hmem
  obtain ⟨c, hc, heq⟩ := List.mem_map.mp hmem
  split at heq
  · cases heq
  · exact name.isClassName.not_delimiter (by decide) (heq ▸ hc)

theorem ofBase_injective {type other : BaseType} (h : ofBase type = ofBase other)
    : type = other := by
  revert h
  cases type <;> cases other <;> decide

-- Arrays

theorem array_array (t : TypeName) (m n : Nat)
    : (t.array m).array n = t.array (m + n) := by
  simp only [array, List.replicate_add, String.join_append, String.append_assoc]

theorem ofField_arrayOf (component : FieldType)
    : ofField (.ref component.arrayOf) = (ofField component).array 1 := by
  rcases component with type | (name | ⟨extra, name⟩ | ⟨extra, type⟩)
  · rfl
  · rfl
  · exact (array_array (ofClass name) (extra + 1) 1).symm
  · exact (array_array (ofBase type) (extra + 1) 1).symm

theorem array_one_injective (h : t.array 1 = u.array 1)
    : t = u := by
  rw [eq_iff_toList] at h ⊢
  simpa [array] using h

theorem elementType_array_one (t : TypeName)
    : (t.array 1).elementType = t := by
  have hnull : t.array 1 ≠ null := by
    intro h
    have := h ▸ isArray_array t 0
    exact absurd this (by decide)
  rw [elementType, elementType?, if_neg hnull, if_pos (isArray_array t 0), Option.getD_some,
    eq_iff_toList]
  simp [array]

-- Field types

theorem isArray_ofBase (type : BaseType)
    : (ofBase type).isArray = false := by
  cases type <;> decide

theorem isPrimitive_ofBase (type : BaseType)
    : (ofBase type).isPrimitive = true := by
  cases type <;> decide

theorem isPrimitive_of_isArray (h : t.isArray = true)
    : t.isPrimitive = false := by
  rw [isPrimitive, List.contains_eq_mem, decide_eq_false_iff_not]
  intro hmem
  have hnone : ∀ u ∈ [boolean, byte, char, short, int, long, float, double, void, null],
      u.isArray = false := by decide
  exact absurd h (Bool.eq_false_iff.mp (hnone t hmem))

theorem isArray_ofField_arrayOf (component : FieldType)
    : (ofField (.ref component.arrayOf)).isArray = true :=
  ofField_arrayOf component ▸ isArray_array _ 0

theorem isArray_ofField_iff
    : (ofField d).isArray = true ↔ ∃ component : FieldType, d = .ref component.arrayOf := by
  cases d using arrayInduction with
  | base type => simp [ofField, isArray_ofBase]
  | object name =>
      simp only [ofField, ofRef, isArray_ofClass, Bool.false_eq_true, false_iff, not_exists]
      rintro (type | (other | ⟨extra, other⟩ | ⟨extra, type⟩)) <;> simp [arrayOf]
  | array component _ => exact iff_of_true (isArray_ofField_arrayOf component) ⟨component, rfl⟩

theorem isPrimitive_ofField_iff (hd : d.isDistinct = true)
    : (ofField d).isPrimitive = true ↔ ∃ type, d = .base type := by
  cases d using arrayInduction with
  | base type => exact iff_of_true (isPrimitive_ofBase type) ⟨type, rfl⟩
  | object name =>
      have hname : name.isDistinct = true := hd
      simp [ofField, ofRef, isPrimitive_ofClass, hname]
  | array component _ =>
      simp [isPrimitive_of_isArray (isArray_ofField_arrayOf component)]

/-- The induction is on the dimensions; without any, a base type and a class are told apart by the
name of the class.
-/
theorem ofField_injective (hd : d.isDistinct = true) (he : e.isDistinct = true)
    (h : ofField d = ofField e)
    : d = e := by
  induction d using arrayInduction generalizing e with
  | base type =>
      obtain ⟨other, rfl⟩ := (isPrimitive_ofField_iff he).mp (h ▸ isPrimitive_ofBase type)
      exact congrArg base (ofBase_injective h)
  | object name =>
      cases e using arrayInduction with
      | base type =>
          obtain ⟨other, hother⟩ := (isPrimitive_ofField_iff hd).mp (h ▸ isPrimitive_ofBase type)
          cases hother
      | object other => rw [ofClass_injective h]
      | array component _ =>
          have harray := h ▸ isArray_ofField_arrayOf component
          exact absurd harray (by simp [ofField, ofRef, isArray_ofClass])
  | array component ih =>
      obtain ⟨other, rfl⟩ := isArray_ofField_iff.mp (h ▸ isArray_ofField_arrayOf component)
      rw [isDistinct_arrayOf] at hd he
      rw [ofField_arrayOf, ofField_arrayOf] at h
      rw [ih hd he (array_one_injective h)]

theorem isWide_ofField_iff (hd : d.isDistinct = true)
    : (ofField d).isWide = true ↔ d.width = 2 := by
  cases d with
  | base type => cases type <;> decide
  | ref type =>
      refine iff_of_false (fun hwide => ?_) (by simp [width])
      have hprimitive : (ofField (.ref type)).isPrimitive = true := by
        rcases eq_of_isWide hwide with h | h <;> rw [h] <;> decide
      obtain ⟨base, hbase⟩ := (isPrimitive_ofField_iff hd).mp hprimitive
      cases hbase

theorem map_ofField_injective {ds es : List FieldType} (hds : ∀ d ∈ ds, d.isDistinct = true)
    (hes : ∀ e ∈ es, e.isDistinct = true) (h : ds.map ofField = es.map ofField)
    : ds = es := by
  induction ds generalizing es with
  | nil => exact (List.map_eq_nil_iff.mp h.symm).symm
  | cons d ds ih =>
      obtain ⟨e, rest, rfl, hhead, htail⟩ := List.map_eq_cons_iff.mp h.symm
      rw [List.forall_mem_cons] at hds hes
      rw [ofField_injective hds.1 hes.1 hhead.symm, ih hds.2 hes.2 htail.symm]

theorem ofField_ne_void (hd : d.isDistinct = true)
    : ofField d ≠ void := by
  intro h
  obtain ⟨type, rfl⟩ := (isPrimitive_ofField_iff hd).mp (h ▸ rfl)
  revert h
  cases type <;> decide

end TypeName

-- Constants

theorem MethodDescriptor.eq_of_types {d e : MethodDescriptor} (hd : d.isDistinct = true)
    (he : e.isDistinct = true) (hparameters : d.parameterTypes = e.parameterTypes)
    (hresult : d.resultType = e.resultType)
    : d = e := by
  obtain ⟨hd, hd'⟩ := Bool.and_eq_true_iff.mp hd
  obtain ⟨he, he'⟩ := Bool.and_eq_true_iff.mp he
  rw [List.all_eq_true] at hd he
  rw [Option.all_eq_true] at hd' he'
  rcases d with ⟨parameters, returnType⟩
  rcases e with ⟨parameters', returnType'⟩
  have hsame : parameters = parameters' := TypeName.map_ofField_injective hd he hparameters
  have hreturn : returnType = returnType' := by
    rcases returnType with _ | t <;> rcases returnType' with _ | u
    · rfl
    · exact absurd hresult.symm (TypeName.ofField_ne_void (he' u rfl))
    · exact absurd hresult (TypeName.ofField_ne_void (hd' t rfl))
    · exact congrArg some (TypeName.ofField_injective (hd' t rfl) (he' u rfl) hresult)
  rw [hsame, hreturn]

/-- A constant stands for one literal only. -/
theorem Constant.StandsFor.unique {c : Constant} {k k' : StackMachine.Literal} (h : c.StandsFor k)
    (h' : c.StandsFor k')
    : k = k' := by
  cases h with
  | @classRef type hd =>
      generalize hc : Constant.classRef (.ofRef type) = c at h'
      cases h' with
      | classRef hd' =>
          cases TypeName.ofField_injective hd hd' (Constant.classRef.inj hc)
          rfl
      | _ => cases hc
  | @methodType d hd =>
      generalize hc : Constant.methodType d.parameterTypes d.resultType = c at h'
      cases h' with
      | methodType hd' =>
          obtain ⟨hparameters, hresult⟩ := Constant.methodType.inj hc
          rw [MethodDescriptor.eq_of_types hd hd' hparameters hresult]
      | _ => cases hc
  | _ =>
      cases h'
      rfl

-- Slots

/-- Which slots hold a value if values of the given widths are put one after the other. -/
def occupied (widths : List Nat) : List Bool :=
  widths.flatMap fun width => true :: List.replicate (width - 1) false

def TypeName.width (t : TypeName) : Nat :=
  if t.isWide then 2 else 1

theorem FieldType.width_pos (d : FieldType)
    : 0 < d.width := by
  cases d with
  | base type => cases type <;> decide
  | ref type => exact Nat.one_pos

theorem TypeName.width_ofField {d : FieldType} (hd : d.isDistinct = true)
    : (ofField d).width = d.width := by
  rw [TypeName.width]
  split
  next hwide => exact ((isWide_ofField_iff hd).mp hwide).symm
  next hwide =>
    have hne : d.width ≠ 2 := fun h => hwide ((isWide_ofField_iff hd).mpr h)
    cases d with
    | base type => cases type <;> first | rfl | exact absurd rfl hne
    | ref type => rfl

theorem getElem?_occupied_cons {width slot : Nat} {widths : List Nat} (hwidth : 0 < width)
    : (occupied (width :: widths))[slot]?
      = if slot < width then some (decide (slot = 0)) else (occupied widths)[slot - width]? := by
  have hlength : (true :: List.replicate (width - 1) false).length = width := by
    simp only [List.length_cons, List.length_replicate]
    omega
  rw [occupied, List.flatMap_cons]
  split
  next hslot =>
    rw [List.getElem?_append_left (hlength.symm ▸ hslot)]
    cases slot with
    | zero => rfl
    | succ n =>
        rw [List.getElem?_cons_succ, List.getElem?_replicate, if_pos (by omega)]
        rfl
  next hslot =>
    rw [List.getElem?_append_right (hlength.symm ▸ Nat.le_of_not_lt hslot), hlength]
    rfl

/-- Listed types take the slots that their names say. -/
theorem DeclaredTypes.isSome_spread (listed : List TypeName) (slot : Nat)
    : ((spread listed)[slot]?).join.isSome
      = ((occupied (listed.map TypeName.width))[slot]?).getD false := by
  have hslots : (listed.flatMap fun t => if t.isWide then [some t, none] else [some t]).map
      Option.isSome = occupied (listed.map TypeName.width) := by
    rw [occupied, List.map_flatMap, List.flatMap_map]
    refine congrArg (List.flatMap · listed) (funext fun t => ?_)
    rw [TypeName.width]
    split <;> rfl
  rw [spread, join_getElem?_trimLocals, ← hslots, List.getElem?_map]
  cases (listed.flatMap fun t => if t.isWide then [some t, none] else [some t])[slot]? <;> rfl

theorem Frame.hasLocal_putLocal (f : Frame) (slot : Nat) (v : Value) (i : Nat)
    : (f.putLocal slot v).hasLocal i = (decide (i = slot) || f.hasLocal i) := by
  rw [Frame.hasLocal, Frame.local?_putLocal]
  by_cases hi : i = slot <;> simp [hi, Frame.hasLocal]

/-- Parameters take the slots that their widths say. -/
theorem Plan.hasLocal_putParameters (p : Plan) {f : Frame} {slot index : Nat}
    {types : List FieldType} (hfree : ∀ i, slot ≤ i → f.hasLocal i = false) (i : Nat)
    : (p.putParameters f slot index types).hasLocal i
      = if i < slot then f.hasLocal i
        else ((occupied (types.map width))[i - slot]?).getD false := by
  induction types generalizing f slot index with
  | nil =>
      split
      next => rfl
      next hi => simpa [Plan.putParameters, occupied] using hfree i (Nat.le_of_not_lt hi)
  | cons type rest ih =>
      have hwidth := type.width_pos
      rw [Plan.putParameters, ih fun j hj => by
        rw [Frame.hasLocal_putLocal, hfree j (by omega), Bool.or_false, decide_eq_false_iff_not]
        omega]
      rw [List.map_cons, getElem?_occupied_cons hwidth, Frame.hasLocal_putLocal]
      by_cases hlt : i < slot
      · have hne : i ≠ slot := Nat.ne_of_lt hlt
        simp [hlt, hne, Nat.lt_add_right]
      · by_cases hinside : i < slot + type.width
        · have hoffset : i - slot < type.width := by omega
          have hfirst : i = slot ↔ i - slot = 0 := by omega
          simp [hlt, hinside, hoffset, hfirst, hfree i (Nat.le_of_not_lt hlt)]
        · have hoffset : ¬ i - slot < type.width := by omega
          simp [hlt, hinside, hoffset, Nat.sub_sub]

theorem TypeName.width_of_isIntLike {t : TypeName} (h : t.isIntLike = true)
    : t.width = 1 := by
  have hnarrow : ∀ u ∈ [boolean, byte, char, short, int], u.width = 1 := by decide
  exact hnarrow t (by simpa [isIntLike] using h)

/-- The names of the locals at the entry tell the widths of the receiver and the parameters. -/
theorem DeclaredTypes.widths_entryLocals {m : Method}
    (howner : m.isStatic = false → m.owner.isDistinct = true)
    (hparameters : ∀ type ∈ m.descriptor.parameters, type.isDistinct = true)
    : (entryLocals m).map TypeName.width
      = (if m.isStatic then [] else [1]) ++ m.descriptor.parameters.map width := by
  rw [entryLocals, List.map_append, MethodDescriptor.parameterTypes, List.map_map, List.map_map]
  congr 1
  · split
    next => rfl
    next hstatic =>
      split
      next => rfl
      next =>
        have hreceiver : (ref (.object m.owner)).isDistinct = true :=
          howner (Bool.eq_false_iff.mpr hstatic)
        have hwidth := TypeName.width_ofField hreceiver
        exact congrArg (fun width => [width]) hwidth
  · refine List.map_congr_left fun type htype => ?_
    have hwidth := TypeName.width_ofField (hparameters type htype)
    rw [Function.comp_apply, Function.comp_apply]
    split
    next hint => rw [← hwidth, TypeName.width_of_isIntLike hint, TypeName.width_of_isIntLike rfl]
    next => exact hwidth

/-- The slots that hold a value at the entry of a method are those that the names of its types give
to the locals at the entry.
-/
theorem Plan.hasLocal_entryFrame (p : Plan)
    (howner : p.method.isStatic = false → p.method.owner.isDistinct = true)
    (hparameters : ∀ type ∈ p.method.descriptor.parameters, type.isDistinct = true) (slot : Nat)
    : p.entryFrame.hasLocal slot
      = ((spread (entryLocals p.method))[slot]?).join.isSome := by
  have hempty : ∀ i, Frame.empty.hasLocal i = false := fun i => rfl
  rw [isSome_spread, widths_entryLocals howner hparameters,
    Plan.entryFrame]
  cases p.method.isStatic with
  | true => simpa using p.hasLocal_putParameters (fun i (_ : 0 ≤ i) => hempty i) slot
  | false =>
      have hreceiver := fun i => Frame.empty.hasLocal_putLocal 0 (.this (.ofClass p.method.owner)) i
      rw [if_neg Bool.false_ne_true, p.hasLocal_putParameters fun i hi => ?_, hreceiver, hempty]
      · simp only [Bool.false_eq_true, if_false, List.singleton_append]
        rw [getElem?_occupied_cons Nat.one_pos]
        by_cases hslot : slot < 1 <;> simp [hslot]
      · rw [hreceiver, hempty, Bool.or_false, decide_eq_false_iff_not]
        exact Nat.ne_of_gt hi

-- Result

/-- Types with distinct names are told apart by their names, which also tell their widths and which
of them are primitive. Arrays and their elements are known by any names. The slots of the locals at
the entry of a method are the same by widths and by distinct names.
-/
theorem type_names_lose_nothing {d e : FieldType} (hd : d.isDistinct = true)
    (he : e.isDistinct = true)
    : (TypeName.ofField d = TypeName.ofField e → d = e)
      ∧ ((TypeName.ofField d).isWide = true ↔ d.width = 2)
      ∧ ((TypeName.ofField d).isPrimitive = true ↔ ∃ type, d = .base type)
      ∧ (∀ c : FieldType, (TypeName.ofField c).isArray = true
          ↔ ∃ component : FieldType, c = .ref component.arrayOf)
      ∧ (∀ component : FieldType, (TypeName.ofField (.ref component.arrayOf)).elementType
          = TypeName.ofField component)
      ∧ ∀ p : Plan, (p.method.isStatic = false → p.method.owner.isDistinct = true) →
          (∀ type ∈ p.method.descriptor.parameters, type.isDistinct = true) → ∀ slot,
            p.entryFrame.hasLocal slot
              = ((spread
                  (entryLocals p.method))[slot]?).join.isSome := by
  refine ⟨TypeName.ofField_injective hd he, TypeName.isWide_ofField_iff hd,
    TypeName.isPrimitive_ofField_iff hd, fun c => TypeName.isArray_ofField_iff, fun component => ?_,
    Plan.hasLocal_entryFrame⟩
  rw [TypeName.ofField_arrayOf, TypeName.elementType_array_one]

/-- A class name may end in a bracket, as the name of an array does. -/
def bracketClass : ClassName :=
  ⟨"a/long]", by decide⟩

theorem names_of_bracket_class_differ
    : (ref (.objectArray 1 bracketClass)).isDistinct = true
      ∧ (ref (.object bracketClass)).isDistinct = true
      ∧ TypeName.ofField (.ref (.objectArray 1 bracketClass))
        ≠ TypeName.ofField (.ref (.object bracketClass))
      ∧ (TypeName.ofField (.ref (.objectArray 1 bracketClass))).elementType
        = TypeName.ofField (.ref (.objectArray 0 bracketClass)) := by
  have hd : (ref (.objectArray 1 bracketClass)).isDistinct = true := by decide
  have he : (ref (.object bracketClass)).isDistinct = true := by decide
  obtain ⟨injective, -, -, -, element, -⟩ := type_names_lose_nothing hd he
  refine ⟨hd, he, fun same => ?_, element (.ref (.objectArray 0 bracketClass))⟩
  cases injective same

/-- A class may have the name of a primitive type. -/
def longClass : ClassName :=
  ⟨"long", by decide⟩

/-- The class is taken for the primitive type of its name, which moves the slot of the next
parameter.
-/
theorem class_named_long_is_mistaken
    : TypeName.ofField (.ref (.object longClass)) = TypeName.ofField (.base .long)
      ∧ ref (.object longClass) ≠ .base .long
      ∧ (TypeName.ofField (.ref (.object longClass))).isWide = true
      ∧ (ref (.object longClass)).width = 1
      ∧ (TypeName.ofField (.ref (.object longClass))).isPrimitive = true
      ∧ (occupied ([.ref (.object longClass), .base .int].map width))[1]? = some true
      ∧ ((spread ([.ref (.object longClass), .base .int].map
          TypeName.ofField))[1]?).join = none := by
  refine ⟨?_, by decide, ?_, rfl, ?_, rfl, ?_⟩ <;> decide

end StackLift
