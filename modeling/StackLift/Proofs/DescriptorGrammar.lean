import StackLift.Descriptor.Reader
import StackLift.Proofs.TextCuts

/-!
Descriptors are read exactly as they are written. The grammar of descriptors is stated on texts
alone. A reader takes off the front of a text what the renderer writes, so it accepts exactly the
texts of the grammar.
-/

namespace StackLift

open MethodDescriptor

-- Grammar

/-- A segment of a class name is not empty and holds no delimiter. -/
def IsSegment (text : List Char) : Prop :=
  text ≠ [] ∧ ∀ c ∈ text, c ∉ ['.', ';', '[', '/']

/-- Segments with slashes between them. -/
inductive IsClassName : List Char → Prop where
  | last {segment : List Char} : IsSegment segment → IsClassName segment
  | cons {segment rest : List Char} : IsSegment segment → IsClassName rest →
      IsClassName (segment ++ '/' :: rest)

mutual

inductive IsFieldDescriptor : List Char → Prop where
  | base {c : Char} : c ∈ ['B', 'C', 'D', 'F', 'I', 'J', 'S', 'Z'] → IsFieldDescriptor [c]
  | ref {text : List Char} : IsRefDescriptor text → IsFieldDescriptor text

inductive IsRefDescriptor : List Char → Prop where
  | object {name : List Char} : IsClassName name → IsRefDescriptor ('L' :: (name ++ [';']))
  | array {component : List Char} : IsFieldDescriptor component →
      IsRefDescriptor ('[' :: component)

end

inductive IsParameterList : List Char → Prop where
  | nil : IsParameterList []
  | cons {first rest : List Char} : IsFieldDescriptor first → IsParameterList rest →
      IsParameterList (first ++ rest)

inductive IsMethodDescriptor : List Char → Prop where
  | void {parameters : List Char} : IsParameterList parameters →
      IsMethodDescriptor ('(' :: (parameters ++ [')', 'V']))
  | returns {parameters result : List Char} : IsParameterList parameters →
      IsFieldDescriptor result → IsMethodDescriptor ('(' :: (parameters ++ ')' :: result))

-- Class names

theorem isNameDelimiter_iff {c : Char}
    : isNameDelimiter c = true ↔ c ∈ ['.', ';', '[', '/'] := by
  simp [isNameDelimiter, or_assoc]

variable {text : List Char}

theorem MemberName.fault?_eq_none_iff
    : MemberName.fault? text = none ↔ IsSegment text := by
  unfold MemberName.fault?
  split
  next delimited =>
    obtain ⟨c, hc, hd⟩ := List.any_eq_true.mp delimited
    simp only [reduceCtorEq, false_iff]
    exact fun h => h.2 c hc (isNameDelimiter_iff.mp hd)
  next free =>
    have hfree : ∀ c ∈ text, c ∉ ['.', ';', '[', '/'] := fun c hc hd =>
      free (List.any_eq_true.mpr ⟨c, hc, isNameDelimiter_iff.mpr hd⟩)
    cases text with
    | nil => simp [IsSegment]
    | cons c rest => simpa [IsSegment] using hfree

theorem IsSegment.not_slash (h : IsSegment text)
    : '/' ∉ text :=
  fun hm => h.2 _ hm (by simp)

/-- A text is a class name iff the parts between its slashes are segments. -/
theorem isClassName_iff {text : List Char}
    : IsClassName text ↔ ∀ part ∈ Text.split '/' text, IsSegment part := by
  constructor
  · intro h
    induction h with
    | last hs => simp [Text.split_of_not_mem hs.not_slash, hs]
    | cons hs _ ih =>
        simpa [Text.split_append_cons, Text.split_of_not_mem hs.not_slash, hs] using ih
  · intro h
    by_cases slash : '/' ∈ text
    · obtain ⟨first, rest, rfl, hfirst⟩ := List.eq_append_cons_of_mem slash
      rw [Text.split_append_cons, Text.split_of_not_mem hfirst, List.singleton_append] at h
      obtain ⟨hs, hrest⟩ := List.forall_mem_cons.mp h
      exact .cons hs (isClassName_iff.mpr hrest)
    · rw [Text.split_of_not_mem slash] at h
      exact .last (h text (by simp))
termination_by text.length

theorem ClassName.fault?_eq_none_iff
    : ClassName.fault? text = none ↔ IsClassName text := by
  rw [isClassName_iff]
  unfold ClassName.fault?
  split
  next hempty => simp [List.isEmpty_iff.mp hempty, Text.split, IsSegment]
  next => simp [List.findSome?_eq_none_iff, MemberName.fault?_eq_none_iff]

theorem ClassName.isClassName (name : ClassName)
    : IsClassName name.text.toList :=
  ClassName.fault?_eq_none_iff.mp name.valid

theorem ClassName.ofString_eq_ok {text : String} {name : ClassName}
    : ClassName.ofString text = .ok name ↔ text = name.text := by
  obtain ⟨written, valid⟩ := name
  unfold ClassName.ofString
  split
  next => simp
  next fault found =>
    simp only [reduceCtorEq, false_iff]
    intro same
    subst same
    exact Option.some_ne_none _ (found.symm.trans valid)

theorem IsClassName.exists_className (h : IsClassName text)
    : ∃ name : ClassName, name.text.toList = text := by
  refine ⟨⟨String.ofList text, ?_⟩, String.toList_ofList⟩
  rw [String.toList_ofList]
  exact ClassName.fault?_eq_none_iff.mpr h

/-- A class name holds no delimiter but slashes. -/
theorem IsClassName.not_delimiter (h : IsClassName text) {c : Char} (hc : c ∈ ['.', ';', '['])
    : c ∉ text := by
  have hsegment : ∀ {segment}, IsSegment segment → c ∉ segment := fun hs hm =>
    hs.2 c hm (List.mem_append_left ['/'] hc)
  induction h with
  | last hs => exact hsegment hs
  | cons hs _ ih =>
      have hslash : c ≠ '/' := fun same => absurd (same ▸ hc) (by decide)
      simp [hsegment hs, hslash, ih]

-- Readers take off what the renderers write

variable {text rest : List Char}

theorem ClassName.read_eq_ok {name : ClassName}
    : ClassName.read text = .ok (name, rest) ↔ text = name.render ++ rest := by
  constructor
  · intro h
    unfold ClassName.read at h
    split at h
    next tail =>
      split at h
      next => cases h
      next c after cut =>
        obtain ⟨htail, hc⟩ := Text.dropWhile_eq_cons_iff.mp cut
        split at h
        next found =>
          cases h
          rw [ClassName.render, ← ClassName.ofString_eq_ok.mp found, String.toList_ofList]
          have hc : c = ';' := by simpa using hc
          simpa [hc] using htail
        next => cases h
    next => cases h
  · intro h
    have free : ∀ d ∈ name.text.toList, decide (d ≠ ';') = true := fun d hd =>
      decide_eq_true fun same => name.isClassName.not_delimiter (by decide) (same ▸ hd)
    have htake := @Text.takeWhile_append_cons rest _ _ ';' free (by simp)
    have hdrop := Text.dropWhile_eq_cons_iff.mpr ⟨by rw [htake], by simp⟩
    have hread : ClassName.ofString name.text = .ok name := ClassName.ofString_eq_ok.mpr rfl
    rw [h]
    simp only [ClassName.render, List.cons_append, List.append_assoc, List.nil_append,
      ClassName.read, hdrop, htake, String.ofList_toList, hread]

theorem BaseType.ofLetter?_eq_some {c : Char} {type : BaseType}
    : BaseType.ofLetter? c = some type ↔ c = type.letter := by
  constructor
  · intro h
    unfold BaseType.ofLetter? at h
    split at h <;> cases h <;> rfl
  · intro h
    subst h
    cases type <;> rfl

theorem BaseType.read_eq_ok {type : BaseType}
    : BaseType.read text = .ok (type, rest) ↔ text = type.render ++ rest := by
  cases text with
  | nil => simp [BaseType.read, BaseType.render]
  | cons c tail =>
      simp only [BaseType.read, BaseType.render, List.cons_append, List.nil_append,
        List.cons.injEq, ← BaseType.ofLetter?_eq_some]
      cases BaseType.ofLetter? c <;> simp

/-- An element type is written with another letter first than a bracket. -/
theorem RefType.readElement_eq_ok {extra : Nat} {type : RefType}
    : RefType.readElement extra text = .ok (type, rest)
      ↔ (∃ name, type = .objectArray extra name ∧ text = name.render ++ rest)
        ∨ ∃ base, type = .primitiveArray extra base ∧ text = base.render ++ rest := by
  constructor
  · intro h
    unfold RefType.readElement at h
    split at h
    · split at h
      next found =>
        cases h
        exact .inl ⟨_, rfl, ClassName.read_eq_ok.mp found⟩
      next => cases h
    · split at h
      next found =>
        cases h
        exact .inr ⟨_, rfl, BaseType.read_eq_ok.mp found⟩
      next => cases h
  · intro h
    rcases h with ⟨name, rfl, written⟩ | ⟨base, rfl, written⟩
    · have hread := ClassName.read_eq_ok.mpr written
      rw [written] at hread ⊢
      simp only [ClassName.render, List.cons_append] at hread ⊢
      simp only [RefType.readElement, hread]
    · have hread := BaseType.read_eq_ok.mpr written
      rw [written] at hread ⊢
      unfold RefType.readElement
      split
      next tail same => cases base <;> cases same
      next => simp only [hread]

theorem RefType.read_brackets (extra : Nat) {c : Char} (hc : c ≠ '[') (tail : List Char)
    : RefType.read (List.replicate (extra + 1) '[' ++ c :: tail)
      = RefType.readElement extra (c :: tail) := by
  have brackets : ∀ d ∈ List.replicate extra '[', decide (d = '[') = true := fun d hd =>
    decide_eq_true (List.eq_of_mem_replicate hd)
  have htake := @Text.takeWhile_append_cons tail _ _ c brackets (by simp [hc])
  have hdrop := Text.dropWhile_eq_cons_iff.mpr ⟨by rw [htake], decide_eq_false hc⟩
  rw [List.replicate_succ, List.cons_append]
  simp only [RefType.read, htake, hdrop, List.length_replicate]

theorem RefType.read_eq_ok {type : RefType}
    : RefType.read text = .ok (type, rest) ↔ text = type.render ++ rest := by
  constructor
  · intro h
    unfold RefType.read at h
    split at h
    next => cases h
    next =>
      split at h
      next found =>
        cases h
        exact ClassName.read_eq_ok.mp found
      next => cases h
    next tail =>
      have brackets : tail.takeWhile (· = '[')
          = List.replicate (tail.takeWhile (· = '[')).length '[' :=
        List.eq_replicate_of_mem fun d hd => by simpa using List.mem_takeWhile_imp hd
      have whole : '[' :: tail = List.replicate ((tail.takeWhile (· = '[')).length + 1) '['
          ++ tail.dropWhile (· = '[') := by
        rw [List.replicate_succ, ← brackets, List.cons_append, List.takeWhile_append_dropWhile]
      rw [whole]
      rcases RefType.readElement_eq_ok.mp h with ⟨name, rfl, written⟩ | ⟨base, rfl, written⟩
      · rw [written, RefType.render, List.append_assoc]
      · rw [written, RefType.render, List.append_assoc]
    next => cases h
  · intro h
    rw [h]
    cases type with
    | object name =>
        have hread := @ClassName.read_eq_ok (name.render ++ rest) rest name |>.mpr rfl
        simp only [ClassName.render, List.cons_append] at hread
        simp only [RefType.render, ClassName.render, List.cons_append, RefType.read, hread]
    | objectArray extra name =>
        rw [RefType.render, List.append_assoc, ClassName.render, List.cons_append,
          RefType.read_brackets extra (by decide)]
        exact RefType.readElement_eq_ok.mpr (.inl ⟨name, rfl, rfl⟩)
    | primitiveArray extra base =>
        have hletter : base.letter ≠ '[' := by cases base <;> decide
        rw [RefType.render, List.append_assoc, BaseType.render, List.cons_append,
          RefType.read_brackets extra hletter]
        exact RefType.readElement_eq_ok.mpr (.inr ⟨base, rfl, rfl⟩)

/-- A reference type starts with a letter that is no base type. -/
theorem RefType.render_eq_cons (type : RefType)
    : ∃ c tail, type.render = c :: tail ∧ (c = 'L' ∨ c = '[') := by
  cases type with
  | object name => exact ⟨_, _, rfl, .inl rfl⟩
  | objectArray extra name => exact ⟨_, _, rfl, .inr rfl⟩
  | primitiveArray extra base => exact ⟨_, _, rfl, .inr rfl⟩

theorem FieldType.read_eq_ok {type : FieldType}
    : FieldType.read text = .ok (type, rest) ↔ text = type.render ++ rest := by
  constructor
  · intro h
    unfold FieldType.read at h
    split at h
    next => cases h
    next c tail =>
      split at h
      next base found =>
        cases h
        rw [BaseType.ofLetter?_eq_some.mp found]
        rfl
      next =>
        split at h
        next =>
          split at h
          next found =>
            cases h
            exact RefType.read_eq_ok.mp found
          next => cases h
        next => cases h
  · intro h
    rw [h]
    cases type with
    | base base =>
        have hletter := @BaseType.ofLetter?_eq_some base.letter base |>.mpr rfl
        simp [FieldType.render, BaseType.render, FieldType.read, hletter]
    | ref type =>
        obtain ⟨c, tail, hrender, hc⟩ := type.render_eq_cons
        have hread := @RefType.read_eq_ok (type.render ++ rest) rest type |>.mpr rfl
        have hletter : BaseType.ofLetter? c = none := by
          rcases hc with rfl | rfl <;> rfl
        rw [FieldType.render]
        rw [hrender, List.cons_append] at hread ⊢
        simp [FieldType.read, hletter, hc, hread]

theorem FieldType.head?_render (type : FieldType) (rest : List Char)
    : (type.render ++ rest).head? ≠ some ')' := by
  cases type with
  | base base => cases base <;> simp [FieldType.render, BaseType.render, BaseType.letter]
  | ref type =>
      obtain ⟨c, tail, hrender, hc⟩ := type.render_eq_cons
      rcases hc with rfl | rfl <;> simp [FieldType.render, hrender]

theorem MethodDescriptor.readParameters_eq_ok {types : List FieldType}
    : readParameters text = .ok (types, rest)
      ↔ text = types.flatMap FieldType.render ++ ')' :: rest := by
  constructor
  · intro h
    fun_induction readParameters text generalizing types with
    | case1 text closed =>
        cases h
        cases text with
        | nil => cases closed
        | cons c tail => simpa using closed
    | case2 => cases h
    | case3 => cases h
    | case4 text opened type tail found others _ others_read ih =>
        cases h
        rw [FieldType.read_eq_ok.mp found, ih others_read, List.flatMap_cons, List.append_assoc]
  · intro h
    induction types generalizing text with
    | nil =>
        rw [h, readParameters]
        simp
    | cons type types ih =>
        rw [List.flatMap_cons, List.append_assoc] at h
        have hhead := type.head?_render (types.flatMap FieldType.render ++ ')' :: rest)
        have hread := FieldType.read_eq_ok.mpr h
        rw [← h] at hhead
        rw [readParameters, if_neg hhead]
        split
        next fault failed => cases hread.symm.trans failed
        next type' tail found =>
          cases hread.symm.trans found
          rw [ih rfl]

/-- The written form of a result type. -/
def MethodDescriptor.renderResult : Option FieldType → List Char
  | none => ['V']
  | some type => type.render

theorem MethodDescriptor.render_eq (d : MethodDescriptor)
    : d.render
      = '(' :: (d.parameters.flatMap FieldType.render
        ++ ')' :: renderResult d.returnType) := by
  obtain ⟨parameters, _ | result⟩ := d <;> rfl

theorem MethodDescriptor.readResult_eq_ok {result : Option FieldType}
    : readResult text = .ok (result, rest)
      ↔ text = renderResult result ++ rest := by
  constructor
  · intro h
    unfold readResult at h
    split at h
    next =>
      cases h
      rfl
    next =>
      split at h
      next found =>
        cases h
        exact FieldType.read_eq_ok.mp found
      next => cases h
  · intro h
    cases result with
    | none =>
        rw [h]
        rfl
    | some type =>
        have hread := FieldType.read_eq_ok.mpr h
        unfold readResult
        split
        next tail =>
          have hvoid : FieldType.read ('V' :: tail) = .error (.invalidField 'V') := rfl
          cases hvoid.symm.trans hread
        next => simp only [hread]

theorem MethodDescriptor.read_eq_ok {d : MethodDescriptor}
    : read text = .ok (d, rest) ↔ text = d.render ++ rest := by
  rw [render_eq]
  constructor
  · intro h
    unfold read at h
    split at h
    next =>
      split at h
      next => cases h
      next parameters_read =>
        split at h
        next => cases h
        next result_read =>
          cases h
          rw [readParameters_eq_ok.mp parameters_read,
            readResult_eq_ok.mp result_read]
          simp
    next => cases h
  · intro h
    rw [h]
    simp only [List.cons_append, List.append_assoc, read,
      readParameters_eq_ok.mpr rfl, readResult_eq_ok.mpr rfl]

-- The grammar describes what the renderers write

/-- The array type with the given component type. -/
def FieldType.arrayOf : FieldType → RefType
  | .base type => .primitiveArray 0 type
  | .ref (.object name) => .objectArray 0 name
  | .ref (.objectArray extra name) => .objectArray (extra + 1) name
  | .ref (.primitiveArray extra type) => .primitiveArray (extra + 1) type

theorem FieldType.render_arrayOf (type : FieldType)
    : type.arrayOf.render = '[' :: type.render := by
  rcases type with base | (name | ⟨extra, name⟩ | ⟨extra, base⟩) <;> rfl

theorem BaseType.exists_letter {c : Char} (h : c ∈ ['B', 'C', 'D', 'F', 'I', 'J', 'S', 'Z'])
    : ∃ type : BaseType, c = type.letter := by
  simp only [List.mem_cons, List.not_mem_nil, or_false] at h
  rcases h with rfl | rfl | rfl | rfl | rfl | rfl | rfl | rfl
  · exact ⟨.byte, rfl⟩
  · exact ⟨.char, rfl⟩
  · exact ⟨.double, rfl⟩
  · exact ⟨.float, rfl⟩
  · exact ⟨.int, rfl⟩
  · exact ⟨.long, rfl⟩
  · exact ⟨.short, rfl⟩
  · exact ⟨.boolean, rfl⟩

mutual

theorem IsFieldDescriptor.exists_render
    : ∀ {text : List Char}, IsFieldDescriptor text → ∃ type : FieldType, text = type.render
  | _, .base letter =>
      let ⟨type, same⟩ := BaseType.exists_letter letter
      ⟨.base type, congrArg (· :: []) same⟩
  | _, .ref href =>
      let ⟨type, written⟩ := href.exists_render
      ⟨.ref type, written⟩

theorem IsRefDescriptor.exists_render
    : ∀ {text : List Char}, IsRefDescriptor text → ∃ type : RefType, text = type.render
  | _, .object hname =>
      let ⟨name, same⟩ := hname.exists_className
      ⟨.object name, by rw [RefType.render, ClassName.render, same]⟩
  | _, .array hcomponent =>
      let ⟨type, written⟩ := hcomponent.exists_render
      ⟨type.arrayOf, written ▸ type.render_arrayOf.symm⟩

end

theorem BaseType.isFieldDescriptor_render (base : BaseType)
    : IsFieldDescriptor base.render :=
  .base (by cases base <;> decide)

theorem isRefDescriptor_brackets {element : List Char} (h : IsFieldDescriptor element) (extra : Nat)
    : IsRefDescriptor (List.replicate (extra + 1) '[' ++ element) := by
  induction extra with
  | zero => exact .array h
  | succ extra ih => exact .array (.ref ih)

theorem RefType.isRefDescriptor_render (type : RefType)
    : IsRefDescriptor type.render := by
  cases type with
  | object name => exact .object name.isClassName
  | objectArray extra name =>
      exact isRefDescriptor_brackets (.ref (.object name.isClassName)) extra
  | primitiveArray extra base => exact isRefDescriptor_brackets base.isFieldDescriptor_render extra

theorem FieldType.isFieldDescriptor_render (type : FieldType)
    : IsFieldDescriptor type.render := by
  cases type with
  | base base => exact base.isFieldDescriptor_render
  | ref type => exact .ref type.isRefDescriptor_render

theorem isParameterList_iff
    : IsParameterList text ↔ ∃ types : List FieldType, text = types.flatMap FieldType.render := by
  constructor
  · intro h
    induction h with
    | nil => exact ⟨[], rfl⟩
    | cons hfirst _ ih =>
        obtain ⟨type, rfl⟩ := hfirst.exists_render
        obtain ⟨types, rfl⟩ := ih
        exact ⟨type :: types, rfl⟩
  · intro ⟨types, written⟩
    subst written
    induction types with
    | nil => exact .nil
    | cons type types ih => exact .cons type.isFieldDescriptor_render ih

theorem isMethodDescriptor_iff
    : IsMethodDescriptor text ↔ ∃ d : MethodDescriptor, text = d.render := by
  constructor
  · intro h
    cases h with
    | void hparameters =>
        obtain ⟨types, rfl⟩ := isParameterList_iff.mp hparameters
        exact ⟨⟨types, none⟩, rfl⟩
    | returns hparameters hresult =>
        obtain ⟨types, rfl⟩ := isParameterList_iff.mp hparameters
        obtain ⟨type, rfl⟩ := hresult.exists_render
        exact ⟨⟨types, some type⟩, rfl⟩
  · intro ⟨d, written⟩
    subst written
    have hparameters := isParameterList_iff.mpr ⟨d.parameters, rfl⟩
    obtain ⟨types, _ | result⟩ := d
    · exact .void hparameters
    · exact .returns hparameters result.isFieldDescriptor_render

-- Whole texts

/-- A reader accepts exactly the texts of a grammar, and its values stand for their written forms.
-/
structure ReadsAsWritten {α : Type} (read : DescriptorReader α) (render : α → List Char)
    (IsDescriptor : List Char → Prop) : Prop where
  accepts : ∀ s : String, (∃ d, read.whole s = .ok d) ↔ IsDescriptor s.toList
  rendered : ∀ (s : String) (d : α), read.whole s = .ok d → String.ofList (render d) = s
  restored : ∀ d : α, read.whole (String.ofList (render d)) = .ok d

theorem DescriptorReader.whole_eq_ok {α : Type} {read : DescriptorReader α} {s : String} {d : α}
    : read.whole s = .ok d ↔ read s.toList = .ok (d, []) := by
  unfold DescriptorReader.whole
  split <;> simp_all

/-- It is enough to know what a reader takes off the front of a text. -/
theorem ReadsAsWritten.of_read {α : Type} {read : DescriptorReader α} {render : α → List Char}
    {IsDescriptor : List Char → Prop}
    (hread : ∀ {text rest d}, read text = .ok (d, rest) ↔ text = render d ++ rest)
    (hgrammar : ∀ {text}, IsDescriptor text ↔ ∃ d, text = render d)
    : ReadsAsWritten read render IsDescriptor where
  accepts s := by simp [DescriptorReader.whole_eq_ok, hread, hgrammar]
  rendered s d h := by
    rw [DescriptorReader.whole_eq_ok, hread, List.append_nil] at h
    rw [← h, String.ofList_toList]
  restored d := by simp [DescriptorReader.whole_eq_ok, hread]

/-- Method, field and reference descriptors are accepted exactly if they follow the grammar, and
reading and rendering undo each other. Every class name of the grammar is a name that a descriptor
can hold.
-/
theorem descriptors_read_as_written
    : ReadsAsWritten read render IsMethodDescriptor
      ∧ ReadsAsWritten FieldType.read FieldType.render IsFieldDescriptor
      ∧ ReadsAsWritten RefType.read RefType.render IsRefDescriptor
      ∧ ∀ text, (∃ name : ClassName, name.text.toList = text) ↔ IsClassName text := by
  refine ⟨.of_read read_eq_ok isMethodDescriptor_iff,
    .of_read FieldType.read_eq_ok ?_, .of_read RefType.read_eq_ok ?_, fun _ => ?_⟩
  · exact ⟨IsFieldDescriptor.exists_render, fun ⟨type, written⟩ =>
      written ▸ type.isFieldDescriptor_render⟩
  · exact ⟨IsRefDescriptor.exists_render, fun ⟨type, written⟩ =>
      written ▸ type.isRefDescriptor_render⟩
  · exact ⟨fun ⟨name, same⟩ => same ▸ name.isClassName, IsClassName.exists_className⟩

end StackLift
