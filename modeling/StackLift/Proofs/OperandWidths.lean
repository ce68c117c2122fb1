import StackLift.Proofs.FrameMatching
import StackLift.Proofs.RegisterTyping

/-!
The widths of stack entries. The result of an instruction is as wide as the type of the register
that is made for it, and the types of array elements, fields and results of calls come from names.
Where these names tell the width, every instruction takes and leaves entries of the widths that the
stack machine prescribes.
-/

namespace StackLift

open StackMachine Instruction MethodDescriptor

variable {p : Plan} {node : Nat} {s : LiftState} {f : Frame}

-- Prescribed widths

/-- Which of the entries that an instruction takes from the stack are wide, and which of those that
it leaves in their place, the top first.
-/
structure StackUse where
  taken : List Bool
  given : List Bool

def ElementKind.isWide : ElementKind → Bool
  | .long | .double => true
  | _ => false

def LoadableConstant.isWide : LoadableConstant → Bool
  | .long _ | .double _ => true
  | .dynamic _ type _ _ => type.valueKind.isWide
  | _ => false

namespace MethodDescriptor

/-- The last argument is on top. -/
def taken (d : MethodDescriptor) : List Bool :=
  (d.parameters.map fun type => type.valueKind.isWide).reverse

def given (d : MethodDescriptor) : List Bool :=
  (d.returnType.map fun type => type.valueKind.isWide).toList

end MethodDescriptor

/-- The ways in which an instruction may use the stack. Only shuffles have several. -/
def Instruction.stackUses : Instruction → List StackUse
  | .nop | .increment .. => [⟨[], []⟩]
  | .pushNull | .pushInt _ | .pushFloat _ | .pushByte _ | .pushShort _ => [⟨[], [false]⟩]
  | .pushLong _ | .pushDouble _ => [⟨[], [true]⟩]
  | .pushConstant c => [⟨[], [c.isWide]⟩]
  | .load kind _ => [⟨[], [kind.isWide]⟩]
  | .store kind _ => [⟨[kind.isWide], []⟩]
  | .arrayLoad kind => [⟨[false, false], [kind.isWide]⟩]
  | .arrayStore kind => [⟨[kind.isWide, false, false], []⟩]
  | .shuffle sh =>
    (forms sh).map fun form => ⟨form.taken, form.given.filterMap fun i => form.taken[i]?⟩
  | .arithmetic _ kind =>
    let wide := kind.valueKind.isWide
    [⟨[wide, wide], [wide]⟩]
  | .bitwise _ kind =>
    let wide := kind.valueKind.isWide
    [⟨[wide, wide], [wide]⟩]
  | .shift _ kind =>
    let wide := kind.valueKind.isWide
    [⟨[false, wide], [wide]⟩]
  | .negate kind => [⟨[kind.valueKind.isWide], [kind.valueKind.isWide]⟩]
  | .convert c => [⟨[c.source.isWide], [c.result.isWide]⟩]
  | .compareLong | .compareDouble _ => [⟨[true, true], [false]⟩]
  | .compareFloat _ => [⟨[false, false], [false]⟩]
  | .getStatic field => [⟨[], [field.descriptor.valueKind.isWide]⟩]
  | .putStatic field => [⟨[field.descriptor.valueKind.isWide], []⟩]
  | .getField field => [⟨[false], [field.descriptor.valueKind.isWide]⟩]
  | .putField field => [⟨[field.descriptor.valueKind.isWide, false], []⟩]
  | .invoke kind method =>
    let receiver := if kind = .staticCall then [] else [false]
    [⟨method.descriptor.taken ++ receiver, method.descriptor.given⟩]
  | .invokeDynamic site => [⟨site.descriptor.taken, site.descriptor.given⟩]
  | .new _ => [⟨[], [false]⟩]
  | .newArray _ | .newObjectArray _ | .arrayLength | .checkCast _ | .instanceOf _ =>
    [⟨[false], [false]⟩]
  | .newMultiArray _ dimensions => [⟨List.replicate dimensions false, [false]⟩]
  | .enterMonitor | .exitMonitor => [⟨[false], []⟩]

/-- The slot that an instruction reads, and whether its value has to be wide. -/
def Instruction.reads? : Instruction → Option (Nat × Bool)
  | .load kind slot => some (slot, kind.isWide)
  | .increment slot _ => some (slot, false)
  | _ => none

-- Names that tell a width

/-- The name of the class is not read as that of a type that is wide or has no values. -/
def ClassName.isPlain (name : ClassName) : Bool :=
  name.text ∉ ["long", "double", "void"]

def RefType.isPlain : RefType → Bool
  | .object name => name.isPlain
  | _ => true

def FieldType.isPlain : FieldType → Bool
  | .base _ => true
  | .ref type => type.isPlain

namespace TypeName

def isWideArray (t : TypeName) : Bool :=
  t = array long 1 || t = array double 1

end TypeName

/-- The types that the result of an instruction takes its width from: an array operand is known as
an array of `long` or `double` exactly for loads of such elements, a shifted `long` has no `float`
for its count, and no class has the name of a primitive type.
-/
def Instruction.TellsWidth (f : Frame) : Instruction → Prop
  | .arrayLoad kind => ∀ array ∈ f.stack[1]?, array.type.isWideArray = kind.isWide
  | .shift _ .long => ∀ count ∈ f.stack[0]?, count.type ≠ .float
  | .getStatic field | .getField field => field.descriptor.isPlain = true
  | .invoke _ method => ∀ type ∈ method.descriptor.returnType, type.isPlain = true
  | .invokeDynamic site => ∀ type ∈ site.descriptor.returnType, type.isPlain = true
  | .new name => name.isPlain = true
  | .newMultiArray type _ | .checkCast type => type.isPlain = true
  | _ => True

namespace TypeName

variable {t u : TypeName}

theorem eq_iff_toList
    : t = u ↔ t.text.toList = u.text.toList := by
  rw [String.toList_inj]
  exact ⟨congrArg text, fun h => by cases t; cases u; cases h; rfl⟩

theorem ofClass_ne {name : ClassName} {keyword : String} (h : name.text ≠ keyword)
    (hkeyword : '.' ∉ keyword.toList)
    : ofClass name ≠ ⟨keyword⟩ := by
  intro same
  have hdotted : name.text.toList.map (fun c => if c = '/' then '.' else c) = keyword.toList := by
    simpa [ofClass, ClassName.dotted] using eq_iff_toList.mp same
  have hfix : ∀ c ∈ name.text.toList, (if c = '/' then '.' else c) = c := by
    intro c hc
    split
    next hslash =>
      exact absurd (hdotted ▸ List.mem_map.mpr ⟨c, hc, if_pos hslash⟩) hkeyword
    next => rfl
  rw [List.map_congr_left hfix, List.map_id'] at hdotted
  exact h (String.toList_inj.mp hdotted)

theorem isWide_eq_false (hlong : t ≠ long) (hdouble : t ≠ double)
    : t.isWide = false := by
  simp [isWide, hlong, hdouble]

theorem eq_of_isWide (h : t.isWide = true)
    : t = long ∨ t = double := by
  simpa [isWide] using h

theorem isArray_array (t : TypeName) (n : Nat)
    : (t.array (n + 1)).isArray = true := by
  have hjoin : String.join (List.replicate (n + 1) "[]")
      = String.join (List.replicate n "[]") ++ "[]" := by
    rw [List.replicate_succ', String.join_append]
    simp
  simp only [isArray, array, hjoin, List.isSuffixOf_iff_suffix]
  exact ⟨(t.text ++ String.join (List.replicate n "[]")).toList, by simp⟩

theorem isWide_of_isArray (h : t.isArray = true)
    : t.isWide = false ∧ t ≠ void := by
  have hne : ∀ {u}, u.isArray = false → t ≠ u := by
    rintro u hu rfl
    rw [h] at hu
    cases hu
  exact ⟨isWide_eq_false (hne (by decide)) (hne (by decide)), hne (by decide)⟩

/-- References whose classes have no name of a primitive type are narrow. -/
theorem isWide_ofRef {r : RefType} (h : r.isPlain = true)
    : (ofRef r).isWide = false ∧ ofRef r ≠ void := by
  cases r with
  | object name =>
      simp only [RefType.isPlain, ClassName.isPlain, decide_eq_true_eq, List.mem_cons,
        List.not_mem_nil, or_false, not_or] at h
      obtain ⟨hlong, hdouble, hvoid⟩ := h
      exact ⟨isWide_eq_false (ofClass_ne hlong (by decide)) (ofClass_ne hdouble (by decide)),
        ofClass_ne hvoid (by decide)⟩
  | objectArray n | primitiveArray n => exact isWide_of_isArray (isArray_array _ n)

theorem isWide_ofField {type : FieldType} (h : type.isPlain = true)
    : (ofField type).isWide = type.valueKind.isWide ∧ ofField type ≠ void := by
  cases type with
  | base type => cases type <;> exact ⟨rfl, by decide⟩
  | ref type => exact isWide_ofRef h

/-- Only arrays of `long` and `double` have wide elements. -/
theorem isWide_elementType (h : t.isWide = false)
    : t.elementType.isWide = t.isWideArray := by
  by_cases hnull : t = null
  · rw [hnull]
    decide
  by_cases harray : t.isArray = true
  · obtain ⟨start, hstart⟩ := List.isSuffixOf_iff_suffix.mp harray
    have helement : t.elementType = ⟨String.ofList start⟩ := by
      simp [elementType, elementType?, hnull, harray, ← hstart]
    have hsame : ∀ k : TypeName, ⟨String.ofList start⟩ = k ↔ t = k.array 1 := by
      intro k
      rw [eq_iff_toList, eq_iff_toList, ← hstart]
      simp [array]
    simp only [isWide, isWideArray, helement, hsame]
  · have hne : ∀ k : TypeName, t ≠ k.array 1 := by
      rintro k rfl
      exact harray (isArray_array k 0)
    have helement : t.elementType = t := by simp [elementType, elementType?, hnull, harray]
    simp [helement, h, isWideArray, hne]

/-- Operands of one width have a result of this width. -/
theorem isWide_binaryResult {wide : Bool} (ht : t.isWide = wide) (hu : u.isWide = wide)
    : (t.binaryResult u).isWide = wide := by
  cases wide with
  | true =>
      rcases eq_of_isWide ht with rfl | rfl <;> rcases eq_of_isWide hu with rfl | rfl <;> rfl
  | false =>
      unfold binaryResult wider
      repeat' split
      all_goals first | rfl | assumption

theorem promotionRank_le (h : t.isWide = false) (hfloat : t ≠ float)
    : t.promotionRank ≤ 3 := by
  have hlong : t ≠ long := fun same => by simp [same, isWide] at h
  have hdouble : t ≠ double := fun same => by simp [same, isWide] at h
  unfold promotionRank
  repeat' split
  all_goals first | contradiction | decide

theorem isWide_shift (ht : t.isWide = true) (hu : u.isWide = false) (hfloat : u ≠ float)
    : (t.binaryResult u).isWide = true := by
  have hrank := promotionRank_le hu hfloat
  have hwider : t.wider u = t := if_pos (by
    rcases eq_of_isWide ht with rfl | rfl
    · exact Nat.le_trans hrank (by decide)
    · exact Nat.le_trans hrank (by decide))
  unfold binaryResult
  rw [hwider]
  rcases eq_of_isWide ht with rfl | rfl <;> rfl

theorem isWide_wider_int
    : (t.wider int).isWide = t.isWide := by
  unfold wider
  split
  next => rfl
  next hrank =>
    refine (isWide_eq_false ?_ ?_).symm <;> rintro rfl <;> exact absurd (by decide) hrank

end TypeName

-- Effects

/-- Which entries of the stack are wide. -/
def Frame.widths (f : Frame) : List Bool :=
  f.stack.map Value.isWide

/-- Which entries of the stack are wide after an effect that makes at most one register. -/
def Effect.widths? : Effect → Option (List Bool)
  | .move f | .emit f _ | .store f _ _ | .update f _ _ => some f.widths
  | .compute f e => some (e.type.isWide :: f.widths)
  | .computeTwice .. => none

namespace LiftM

/-- A store always succeeds and leaves the stack as it is. -/
theorem exists_store (p : Plan) (node slot : Nat) (f : Frame) (value : Value) (s : LiftState)
    : ∃ f' s', (store p node slot f value).run s = .ok (f', s') ∧ f'.stack = f.stack := by
  unfold store
  dsimp only
  split
  next => exact ⟨_, _, rfl, rfl⟩
  next => exact ⟨_, _, rfl, rfl⟩
  next old _ _ =>
    split
    next =>
      split
      next => exact ⟨_, _, rfl, rfl⟩
      next =>
        obtain ⟨same, hsame⟩ : ∃ same, (isSameVariable (p.variableAt? slot node) old).run s
            = .ok (same, s) := ⟨_, rfl⟩
        simp only [StateT.run_bind, hsame]
        cases same <;> exact ⟨_, _, rfl, rfl⟩
    next => exact ⟨_, _, rfl, rfl⟩

theorem exists_perform {e : Effect} {widths : List Bool} (h : e.widths? = some widths)
    : ∃ f' s', (perform p node e).run s = .ok (f', s') ∧ f'.widths = widths := by
  cases e with
  | move f | emit f =>
      cases h
      exact ⟨_, _, rfl, rfl⟩
  | compute f e =>
      cases h
      exact ⟨_, _, rfl, rfl⟩
  | store f slot value =>
      cases h
      obtain ⟨f', s', hrun, hstack⟩ := exists_store p node slot f value s
      exact ⟨f', s', hrun, congrArg (List.map Value.isWide) hstack⟩
  | update f slot e =>
      cases h
      obtain ⟨r, s₁, hcompute⟩ : ∃ r s₁, (compute node e).run s = .ok (r, s₁) := ⟨_, _, rfl⟩
      obtain ⟨f', s', hrun, hstack⟩ := exists_store p node slot f (.register r) s₁
      refine ⟨f', s', ?_, congrArg (List.map Value.isWide) hstack⟩
      exact run_bind_eq_ok.mpr ⟨r, s₁, hcompute, hrun⟩
  | computeTwice => cases h

end LiftM

-- Operands

variable {widths rest : List Bool} {wide wide' : Bool}

theorem Frame.exists_pop (node : Nat) (h : f.widths = wide :: rest)
    : ∃ v f', f.pop node = .ok (v, f') ∧ f.stack = v :: f'.stack ∧ v.isWide = wide
        ∧ f'.widths = rest := by
  obtain ⟨v, below, hstack, hv, hbelow⟩ := List.map_eq_cons_iff.mp h
  refine ⟨v, { f with stack := below }, ?_, hstack, hv, hbelow⟩
  simp [Frame.pop, hstack]

theorem Frame.exists_popMany (node : Nat) (h : f.widths = widths ++ rest)
    : ∃ values f', f.popMany node widths.length = .ok (values, f') ∧ f'.widths = rest := by
  have hlength : widths.length ≤ f.stack.length := by
    have := congrArg List.length h
    simp only [Frame.widths, List.length_map, List.length_append] at this
    omega
  refine ⟨_, _, if_pos hlength, ?_⟩
  show (f.stack.drop widths.length).map Value.isWide = rest
  rw [List.map_drop, show f.stack.map Value.isWide = widths ++ rest from h, List.drop_left]

namespace Instruction

/-- A successful effect leaves entries of the given widths. -/
def Gives (node : Nat) (f : Frame) (i : Instruction) (widths : List Bool) : Prop :=
  ∃ e, i.effect node f = .ok e ∧ e.widths? = some widths

variable {i : Instruction}

theorem gives_unary (result : Value → Expr)
    (hi : i.effect node f = unary node f result) (h : f.widths = wide :: rest)
    (hresult : ∀ v ∈ f.stack[0]?, v.isWide = wide → (result v).type.isWide = wide')
    : Gives node f i (wide' :: rest) := by
  obtain ⟨v, f', hpop, hstack, hv, hrest⟩ := Frame.exists_pop node h
  refine ⟨.compute f' (result v), hi.trans (except_bind_eq_ok.mpr ⟨_, hpop, rfl⟩), ?_⟩
  rw [Effect.widths?, hrest, hresult v (by simp [hstack]) hv]

theorem gives_binary (result : Value → Value → Expr) {left right : Bool}
    (hi : i.effect node f = binary node f result) (h : f.widths = right :: left :: rest)
    (hresult : ∀ v ∈ f.stack[1]?, ∀ w ∈ f.stack[0]?, v.isWide = left → w.isWide = right →
      (result v w).type.isWide = wide')
    : Gives node f i (wide' :: rest) := by
  obtain ⟨w, f₁, hpop, hstack, hw, h₁⟩ := Frame.exists_pop node h
  obtain ⟨v, f₂, hpop', hstack', hv, h₂⟩ := Frame.exists_pop node h₁
  refine ⟨.compute f₂ (result v w), hi.trans (except_bind_eq_ok.mpr ⟨_, hpop,
    except_bind_eq_ok.mpr ⟨_, hpop', rfl⟩⟩), ?_⟩
  rw [Effect.widths?, h₂, hresult v (by simp [hstack, hstack']) w (by simp [hstack]) hv hw]

/-- A call leaves its result, if it has one. -/
theorem widths?_call {call : Call} {d : MethodDescriptor} (hresult : call.resultType = d.resultType)
    (hplain : ∀ type ∈ d.returnType, type.isPlain = true) (h : f.widths = rest)
    : (call.effect f).widths? = some (d.given ++ rest) := by
  unfold Call.effect
  rw [hresult]
  cases hreturn : d.returnType with
  | none =>
      have hvoid : d.resultType = .void := by simp [resultType, hreturn]
      simp [hvoid, Effect.widths?, given, hreturn, h]
  | some type =>
      obtain ⟨hwide, hvoid⟩ := TypeName.isWide_ofField (hplain type (by simp [hreturn]))
      have htype : d.resultType = .ofField type := by simp [resultType, hreturn]
      simp [htype, hvoid, Effect.widths?, Expr.type, hresult, given, hreturn, h,
        hwide]

theorem lt_of_mem_given {sh : Shuffle}
    : ∀ form ∈ forms sh, ∀ i ∈ form.given, i < form.taken.length := by
  cases sh <;> decide

theorem gives_shuffle {sh : Shuffle} {form : Form} (hform : form ∈ forms sh)
    (h : f.widths = form.taken ++ rest)
    : Gives node f (.shuffle sh) (form.given.filterMap (fun i => form.taken[i]?) ++ rest) := by
  obtain ⟨top, below, hstack, htop, hbelow⟩ := List.map_eq_append_iff.mp h
  have happly : sh.apply f.stack = some (form.apply f.stack) := by
    rw [hstack]
    exact Shuffle.apply_of_form hform htop
  refine ⟨.move { f with stack := form.apply f.stack }, except_bind_eq_ok.mpr ⟨_, ?_, rfl⟩, ?_⟩
  · simp only [Frame.shuffle, happly]
  · have hgiven : (form.given.filterMap fun i => f.stack[i]?).map Value.isWide
        = form.given.filterMap fun i => form.taken[i]? := by
      rw [List.map_filterMap]
      refine List.filterMap_congr fun i hi => ?_
      rw [← List.getElem?_map, show f.stack.map Value.isWide = _ from h,
        List.getElem?_append_left (lt_of_mem_given form hform i hi)]
    have hdrop : (f.stack.drop form.taken.length).map Value.isWide = rest := by
      rw [List.map_drop, show f.stack.map Value.isWide = _ from h, List.drop_left]
    rw [Effect.widths?, Frame.widths, Form.apply, List.map_append, hgiven, hdrop]

theorem mapM_bootstrapArgument (arguments : List LoadableConstant)
    : (∃ r, arguments.mapM LoadableConstant.bootstrapArgument = .ok r)
      ∨ ∃ name, arguments.mapM LoadableConstant.bootstrapArgument
        = .error (.dynamicBootstrapArgument name) := by
  induction arguments with
  | nil => exact .inl ⟨[], rfl⟩
  | cons c rest ih =>
      rw [List.mapM_cons]
      cases c with
      | dynamic name => exact .inr ⟨name, rfl⟩
      | _ =>
          rcases ih with ⟨r, hr⟩ | ⟨name, hname⟩
          · exact .inl ⟨_, except_bind_eq_ok.mpr ⟨_, rfl, except_bind_eq_ok.mpr ⟨r, hr, rfl⟩⟩⟩
          · refine .inr ⟨name, ?_⟩
            rw [hname]
            rfl

theorem length_taken (d : MethodDescriptor)
    : d.taken.length = d.parameters.length := by
  simp [taken]

theorem gives_invoke {kind : InvokeKind} {method : MethodRef}
    (h : f.widths = method.descriptor.taken ++ (if kind = .staticCall then [] else [false]) ++ rest)
    (hplain : ∀ type ∈ method.descriptor.returnType, type.isPlain = true)
    : Gives node f (.invoke kind method) (method.descriptor.given ++ rest) := by
  rw [List.append_assoc] at h
  obtain ⟨values, f₁, hpop, h₁⟩ := Frame.exists_popMany node h
  rw [length_taken] at hpop
  by_cases hstatic : kind = .staticCall
  · rw [if_pos hstatic, List.nil_append] at h₁
    refine ⟨(method.call kind none values).effect f₁,
      except_bind_eq_ok.mpr ⟨_, hpop, if_pos hstatic⟩, widths?_call rfl hplain h₁⟩
  · rw [if_neg hstatic] at h₁
    obtain ⟨receiver, f₂, hreceiver, -, -, h₂⟩ := Frame.exists_pop node h₁
    refine ⟨(method.call kind (some receiver) values).effect f₂,
      except_bind_eq_ok.mpr ⟨_, hpop, (if_neg hstatic).trans ?_⟩, widths?_call rfl hplain h₂⟩
    exact except_bind_eq_ok.mpr ⟨_, hreceiver, rfl⟩

theorem gives_invokeDynamic {site : CallSite} (h : f.widths = site.descriptor.taken ++ rest)
    (hplain : ∀ type ∈ site.descriptor.returnType, type.isPlain = true)
    : Gives node f (.invokeDynamic site) (site.descriptor.given ++ rest)
      ∨ ∃ name, effect node f (.invokeDynamic site) = .error (.dynamicBootstrapArgument name) := by
  rcases mapM_bootstrapArgument site.arguments with ⟨arguments, harguments⟩ | ⟨name, hname⟩
  · obtain ⟨values, f₁, hpop, h₁⟩ := Frame.exists_popMany node h
    rw [length_taken] at hpop
    exact .inl ⟨_, except_bind_eq_ok.mpr ⟨_, harguments, except_bind_eq_ok.mpr ⟨_, hpop, rfl⟩⟩,
      widths?_call rfl hplain h₁⟩
  · refine .inr ⟨name, ?_⟩
    simp only [effect, CallSite.effect, hname]
    rfl

/-- An instruction that is no call site and finds the entries it takes leaves those it gives. -/
theorem gives_of_tellsWidth {use : StackUse} (huse : use ∈ i.stackUses)
    (h : f.widths = use.taken ++ rest)
    (hread : ∀ read ∈ i.reads?, ∃ v, f.local? read.1 = some v ∧ v.isWide = read.2)
    (tells : i.TellsWidth f) (hsite : ∀ {site}, i ≠ .invokeDynamic site)
    (hdynamic : ∀ {name type bootstrap arguments},
      i ≠ .pushConstant (.dynamic name type bootstrap arguments))
    : Gives node f i (use.given ++ rest) := by
  cases i with
  | shuffle sh =>
      obtain ⟨form, hform, rfl⟩ := List.mem_map.mp huse
      exact gives_shuffle hform h
  | invokeDynamic site => exact absurd rfl hsite
  | invoke kind method =>
      obtain rfl := List.mem_singleton.mp huse
      exact gives_invoke h tells
  | nop =>
      obtain rfl := List.mem_singleton.mp huse
      exact ⟨_, rfl, congrArg some h⟩
  | pushNull | pushInt | pushLong | pushFloat | pushDouble | pushByte | pushShort =>
      obtain rfl := List.mem_singleton.mp huse
      exact ⟨_, rfl, congrArg (fun l => some (_ :: l)) h⟩
  | pushConstant c =>
      obtain rfl := List.mem_singleton.mp huse
      cases c with
      | dynamic => exact absurd rfl hdynamic
      | _ => exact ⟨_, rfl, congrArg (fun l => some (_ :: l)) h⟩
  | load kind slot =>
      obtain rfl := List.mem_singleton.mp huse
      obtain ⟨v, hv, hwide⟩ := hread _ rfl
      refine ⟨.move (f.push v), except_bind_eq_ok.mpr ⟨v, ?_, rfl⟩, ?_⟩
      · simp only [Frame.getLocal, hv]
      · exact congrArg₂ (fun w l => some (w :: l)) hwide h
  | increment slot amount =>
      obtain rfl := List.mem_singleton.mp huse
      obtain ⟨v, hv, -⟩ := hread _ rfl
      refine ⟨_, except_bind_eq_ok.mpr ⟨v, ?_, rfl⟩, congrArg some h⟩
      simp only [Frame.getLocal, hv]
  | getStatic field =>
      obtain rfl := List.mem_singleton.mp huse
      refine ⟨_, rfl, congrArg₂ (fun w l => some (w :: l)) ?_ h⟩
      exact (TypeName.isWide_ofField tells).1
  | new name =>
      obtain rfl := List.mem_singleton.mp huse
      refine ⟨_, rfl, congrArg₂ (fun w l => some (w :: l)) ?_ h⟩
      exact (@TypeName.isWide_ofRef (.object name) tells).1
  | store | putStatic | enterMonitor | exitMonitor =>
      obtain rfl := List.mem_singleton.mp huse
      obtain ⟨v, f', hpop, -, -, hrest⟩ := Frame.exists_pop node h
      exact ⟨_, except_bind_eq_ok.mpr ⟨_, hpop, rfl⟩, congrArg some hrest⟩
  | putField =>
      obtain rfl := List.mem_singleton.mp huse
      obtain ⟨v, f₁, hpop, -, -, h₁⟩ := Frame.exists_pop node h
      obtain ⟨w, f₂, hpop', -, -, h₂⟩ := Frame.exists_pop node h₁
      exact ⟨_, except_bind_eq_ok.mpr ⟨_, hpop, except_bind_eq_ok.mpr ⟨_, hpop', rfl⟩⟩,
        congrArg some h₂⟩
  | arrayStore =>
      obtain rfl := List.mem_singleton.mp huse
      obtain ⟨v, f₁, hpop₁, -, -, h₁⟩ := Frame.exists_pop node h
      obtain ⟨w, f₂, hpop₂, -, -, h₂⟩ := Frame.exists_pop node h₁
      obtain ⟨u, f₃, hpop₃, -, -, h₃⟩ := Frame.exists_pop node h₂
      exact ⟨_, except_bind_eq_ok.mpr ⟨_, hpop₁, except_bind_eq_ok.mpr ⟨_, hpop₂,
        except_bind_eq_ok.mpr ⟨_, hpop₃, rfl⟩⟩⟩, congrArg some h₃⟩
  | newMultiArray type dimensions =>
      obtain rfl := List.mem_singleton.mp huse
      obtain ⟨values, f', hpop, hrest⟩ := Frame.exists_popMany node h
      rw [List.length_replicate] at hpop
      refine ⟨_, except_bind_eq_ok.mpr ⟨_, hpop, rfl⟩,
        congrArg₂ (fun w l => some (w :: l)) ?_ hrest⟩
      exact (TypeName.isWide_ofRef tells).1
  | arrayLoad kind =>
      obtain rfl := List.mem_singleton.mp huse
      refine gives_binary (fun v w => .value (elementOf v w)) rfl h fun v hv w _ hwide _ => ?_
      exact (TypeName.isWide_elementType hwide).trans (tells v hv)
  | arithmetic op | bitwise op =>
      obtain rfl := List.mem_singleton.mp huse
      exact gives_binary (operation op.binaryOp) rfl h fun v _ w _ hv hw =>
        TypeName.isWide_binaryResult hv hw
  | shift op kind =>
      obtain rfl := List.mem_singleton.mp huse
      refine gives_binary (operation op.binaryOp) rfl h fun v _ w hcount hv hw => ?_
      cases kind with
      | int => exact TypeName.isWide_binaryResult hv hw
      | long => exact TypeName.isWide_shift hv hw (tells w hcount)
  | compareLong | compareFloat | compareDouble =>
      obtain rfl := List.mem_singleton.mp huse
      exact gives_binary (comparison _) rfl h fun _ _ _ _ _ _ => rfl
  | negate kind =>
      obtain rfl := List.mem_singleton.mp huse
      exact gives_unary (fun v => .negate (v.type.wider .int) v) rfl h fun v _ hv =>
        TypeName.isWide_wider_int.trans hv
  | convert c =>
      obtain rfl := List.mem_singleton.mp huse
      exact gives_unary (.cast (.ofBase c.target)) rfl h fun v _ _ => by cases c <;> rfl
  | getField field =>
      obtain rfl := List.mem_singleton.mp huse
      exact gives_unary (fun v => .value (field.ofObject v)) rfl h fun v _ _ =>
        (TypeName.isWide_ofField tells).1
  | newArray | newObjectArray =>
      obtain rfl := List.mem_singleton.mp huse
      exact gives_unary (fun v => .newArray (.array _ 1) [v]) rfl h fun v _ _ =>
        (TypeName.isWide_of_isArray (TypeName.isArray_array _ 0)).1
  | checkCast type =>
      obtain rfl := List.mem_singleton.mp huse
      exact gives_unary (.cast (.ofRef type)) rfl h fun v _ _ => (TypeName.isWide_ofRef tells).1
  | arrayLength =>
      obtain rfl := List.mem_singleton.mp huse
      exact gives_unary .length rfl h fun _ _ _ => rfl
  | instanceOf type =>
      obtain rfl := List.mem_singleton.mp huse
      exact gives_unary (fun v => .instanceOf v (.ofRef type)) rfl h fun _ _ _ => rfl

end Instruction

/-- Where the names of types tell the width of the result, simulating an instruction that finds
entries of the prescribed widths succeeds and leaves entries of the prescribed widths. Only the
static arguments of a call site may make it fail.
-/
theorem simulation_keeps_widths {i : Instruction} {use : StackUse} (huse : use ∈ i.stackUses)
    (h : f.widths = use.taken ++ rest)
    (hread : ∀ read ∈ i.reads?, ∃ v, f.local? read.1 = some v ∧ v.isWide = read.2)
    (tells : i.TellsWidth f)
    (hdynamic : ∀ {name type bootstrap arguments},
      i ≠ .pushConstant (.dynamic name type bootstrap arguments))
    : (∃ f' s', (LiftM.simulate p node (.plain i) f).run s = .ok (f', s')
        ∧ f'.widths = use.given ++ rest)
      ∨ ∃ site name, i = .invokeDynamic site
        ∧ (LiftM.simulate p node (.plain i) f).run s
          = .error (.dynamicBootstrapArgument name) := by
  have performed (hgives : i.Gives node f (use.given ++ rest))
      : ∃ f' s', (LiftM.simulate p node (.plain i) f).run s = .ok (f', s')
        ∧ f'.widths = use.given ++ rest := by
    obtain ⟨e, heffect, hwidths⟩ := hgives
    obtain ⟨f', s', hrun, hf'⟩ := LiftM.exists_perform (p := p) (s := s) hwidths
    refine ⟨f', s', LiftM.run_bind_eq_ok.mpr ⟨e, s, ?_, hrun⟩, hf'⟩
    rw [heffect]
    rfl
  by_cases hsite : ∃ site, i = .invokeDynamic site
  · obtain ⟨site, rfl⟩ := hsite
    obtain rfl := List.mem_singleton.mp huse
    rcases gives_invokeDynamic h tells with hgives | ⟨name, hname⟩
    · exact .inl (performed hgives)
    · refine .inr ⟨site, name, rfl, ?_⟩
      show StateT.run (do LiftM.perform p node (← liftM (effect node f _))) s = _
      rw [hname]
      rfl
  · refine .inl (performed (gives_of_tellsWidth huse h hread tells ?_ hdynamic))
    exact fun {site} same => hsite ⟨site, same⟩

/-- An array of numbers on top of a wide entry, with an index into it. -/
def indexedDoubles : Frame :=
  ⟨[], [.constant (.int 0), .register (.fresh 0 (.array .double 1)), .constant (.long 1)]⟩

def loadingPlan : Plan :=
  { method := staticMethod ⟨[], none⟩ [.plain (.arrayLoad .double)]
    settings := rawSettings
    graph := straightGraph
    places := []
    variableTable := []
    declared := [] }

theorem simulation_of_double_load_keeps_widths
    : indexedDoubles.widths = [false, false, true]
      ∧ TellsWidth indexedDoubles (.arrayLoad .double)
      ∧ ∃ f' s', (LiftM.simulate loadingPlan 1 (.plain (.arrayLoad .double)) indexedDoubles).run
          (.initial loadingPlan) = .ok (f', s') ∧ f'.widths = [true, true] := by
  have hwidths : indexedDoubles.widths = [false, false] ++ [true] := by decide
  have tells : TellsWidth indexedDoubles (.arrayLoad .double) := by
    rintro array harray
    cases harray
    decide
  refine ⟨hwidths, tells, ?_⟩
  rcases @simulation_keeps_widths loadingPlan 1 (.initial loadingPlan) indexedDoubles [true]
    (.arrayLoad .double) _ (List.mem_singleton.mpr rfl) hwidths (by simp [reads?]) tells
    nofun with hok | ⟨site, name, hsite, -⟩
  · exact hok
  · cases hsite

/-- The literal `null` in place of an array, with an index into it. -/
def indexedNull : Frame :=
  ⟨[], [.constant (.int 0), .constant .null]⟩

/-- An element of `null` is narrow for every load, so popping it as a wide one fails. -/
theorem simulation_of_long_load_from_null_is_narrow
    : ⟨[false, false], [true]⟩ ∈ stackUses (.arrayLoad .long)
      ∧ indexedNull.widths = [false, false]
      ∧ ∃ f' s', (LiftM.simulate loadingPlan 3 (.plain (.arrayLoad .long)) indexedNull).run
          (.initial loadingPlan) = .ok (f', s')
        ∧ f'.widths = [false]
        ∧ (LiftM.simulate loadingPlan 4 (.plain (.shuffle .pop2)) f').run s'
          = .error (.emptyStack 4) :=
  ⟨List.mem_singleton.mpr rfl, by decide, _, _, rfl, by decide, rfl⟩

end StackLift
