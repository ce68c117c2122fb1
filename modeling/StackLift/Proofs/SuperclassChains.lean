import Mathlib.Data.List.Induction
import Mathlib.Data.List.Nodup
import Mathlib.Data.Nat.Find
import Mathlib.Logic.Relation
import StackLift.Flow.Hierarchy
import StackLift.Proofs.Outcomes

/-!
Queries to a hierarchy follow the superclasses that were declared last, also where they lead back to
where they started. The classes on the way to the first occurrence of a class are declared and all
different, so a walk through as many classes as there are declared ones comes to every class that
can be reached.
-/

namespace StackLift

namespace Hierarchy

variable {h : Hierarchy} {c d : TypeName}

-- Walks along superclasses

/-- The class to which a number of superclass links lead. -/
def climb (h : Hierarchy) : (links : Nat) → TypeName → Option TypeName
  | 0, name => some name
  | links + 1, name => (h.superclass? name).bind (h.climb links)

theorem climb_add (m n : Nat) (c : TypeName)
    : h.climb (m + n) c = (h.climb m c).bind (h.climb n) := by
  induction m generalizing c with
  | zero => simp [climb]
  | succ m ih =>
      rw [Nat.succ_add, climb, climb, Option.bind_assoc]
      exact congrArg _ (funext ih)

theorem mem_chain_iff {length : Nat}
    : d ∈ h.chain length c ↔ ∃ links < length, h.climb links c = some d := by
  induction length generalizing c with
  | zero => simp [chain]
  | succ length ih =>
      rw [Nat.exists_lt_succ_left]
      cases hc : h.superclass? c with
      | none => simp [chain, climb, hc, eq_comm]
      | some superclass => simp [chain, climb, hc, ih, eq_comm]

/-- A class with a superclass is declared. -/
theorem mem_classes_of_superclass? (hd : h.superclass? c = some d)
    : c ∈ h.classes.map Prod.fst := by
  obtain ⟨entry, hentry, -⟩ := Option.bind_eq_some_iff.mp hd
  exact List.mem_map_of_mem (mem_of_lookup hentry)

/-- The way to the first occurrence of a class has no more links than there are declared classes: if
it came to another class twice, the second part alone would lead to an earlier occurrence.
-/
theorem links_le_of_first {links : Nat} (hlast : h.climb links c = some d)
    (hfirst : ∀ m < links, h.climb m c ≠ some d)
    : links ≤ h.classes.length := by
  have hnodup : ((List.range links).map (h.climb · c)).Nodup := by
    refine List.nodup_range.map_on fun i hi j hj hij => ?_
    wlog hlt : i < j generalizing i j with hother
    · rcases Nat.lt_or_eq_of_le (Nat.le_of_not_lt hlt) with hgt | heq
      · exact (hother j hj i hi hij.symm hgt).symm
      · exact heq.symm
    rw [List.mem_range] at hj
    have hshort : h.climb (i + (links - j)) c = some d := by
      rw [climb_add, hij, ← climb_add, Nat.add_sub_cancel' (Nat.le_of_lt hj), hlast]
    exact absurd hshort (hfirst _ (by omega))
  have hdeclared : (List.range links).map (h.climb · c)
      ⊆ h.classes.map (some ∘ Prod.fst) := by
    intro name hname
    obtain ⟨m, hm, rfl⟩ := List.mem_map.mp hname
    rw [List.mem_range] at hm
    obtain ⟨rest, rfl⟩ : ∃ rest, links = m + (rest + 1) := ⟨links - m - 1, by omega⟩
    rw [climb_add] at hlast
    obtain ⟨e, he, hlast⟩ := Option.bind_eq_some_iff.mp hlast
    obtain ⟨superclass, hsuperclass, -⟩ := Option.bind_eq_some_iff.mp hlast
    rw [he, ← List.map_map]
    exact List.mem_map_of_mem (mem_classes_of_superclass? hsuperclass)
  simpa using hnodup.length_le_of_subset hdeclared

theorem reflTransGen_iff_climb
    : Relation.ReflTransGen (fun c d => h.superclass? c = some d) c d
      ↔ ∃ links, h.climb links c = some d := by
  constructor
  · intro hreach
    induction hreach using Relation.ReflTransGen.head_induction_on with
    | refl => exact ⟨0, rfl⟩
    | head hlink _ ih =>
        obtain ⟨links, hlinks⟩ := ih
        exact ⟨links + 1, by simp [climb, hlink, hlinks]⟩
  · rintro ⟨links, hlinks⟩
    induction links generalizing c with
    | zero => exact Option.some.inj hlinks ▸ .refl
    | succ links ih =>
        obtain ⟨superclass, hsuperclass, hlinks⟩ := Option.bind_eq_some_iff.mp hlinks
        exact .head hsuperclass (ih hlinks)

/-- The ancestors of a class are the classes that superclass links lead to. -/
theorem mem_ancestors_iff
    : d ∈ h.ancestors c ↔ Relation.ReflTransGen (fun c d => h.superclass? c = some d) c d := by
  rw [reflTransGen_iff_climb, ancestors, mem_chain_iff]
  constructor
  · rintro ⟨links, -, hlinks⟩
    exact ⟨links, hlinks⟩
  · intro hreach
    refine ⟨Nat.find hreach, Nat.lt_succ_of_le ?_, Nat.find_spec hreach⟩
    exact links_le_of_first (Nat.find_spec hreach) fun m hm => Nat.find_min hreach hm

-- The nearest class with a method

/-- The first class on the chain of superclasses for which a value is given has the given one. -/
inductive Nearest {α : Type} (superclass? : TypeName → Option TypeName)
    (own? : TypeName → Option α) : TypeName → α → Prop
  | own {c a} : own? c = some a → Nearest superclass? own? c a
  | inherited {c d a} : own? c = none → superclass? c = some d → Nearest superclass? own? d a →
    Nearest superclass? own? c a

variable {α : Type} {own? : TypeName → Option α} {a : α}

theorem nearest_of_findSome?_chain {length : Nat}
    (ha : (h.chain length c).findSome? own? = some a)
    : Nearest h.superclass? own? c a := by
  induction length generalizing c with
  | zero => cases ha
  | succ length ih =>
      cases hown : own? c with
      | some b =>
          simp only [chain, List.findSome?_cons, hown] at ha
          exact .own (hown.trans ha)
      | none =>
          simp only [chain, List.findSome?_cons, hown] at ha
          cases hc : h.superclass? c with
          | none => simp [hc] at ha
          | some superclass =>
              simp only [hc] at ha
              exact .inherited hown hc (ih ha)

theorem Nearest.exists_climb (ha : Nearest h.superclass? own? c a)
    : ∃ links d, h.climb links c = some d ∧ own? d = some a
        ∧ ∀ m < links, ∀ e, h.climb m c = some e → own? e = none := by
  induction ha with
  | @own c a hown => exact ⟨0, c, rfl, hown, fun m hm => absurd hm (Nat.not_lt_zero m)⟩
  | inherited hown hc _ ih =>
      obtain ⟨links, d, hlinks, hd, hbefore⟩ := ih
      refine ⟨links + 1, d, by simp [climb, hc, hlinks], hd, fun m hm e he => ?_⟩
      cases m with
      | zero => exact Option.some.inj he ▸ hown
      | succ m =>
          rw [climb, hc] at he
          exact hbefore m (Nat.lt_of_succ_lt_succ hm) e he

theorem findSome?_chain {links length : Nat} (hlt : links < length)
    (hd : h.climb links c = some d) (ha : own? d = some a)
    (hbefore : ∀ m < links, ∀ e, h.climb m c = some e → own? e = none)
    : (h.chain length c).findSome? own? = some a := by
  induction links generalizing c length with
  | zero =>
      obtain ⟨length, rfl⟩ := Nat.exists_eq_add_one.mpr hlt
      cases hd
      simp [chain, ha]
  | succ links ih =>
      obtain ⟨length, rfl⟩ := Nat.exists_eq_add_one.mpr (Nat.zero_lt_of_lt hlt)
      obtain ⟨superclass, hc, hd⟩ := Option.bind_eq_some_iff.mp hd
      have hown : own? c = none := hbefore 0 (Nat.succ_pos _) c rfl
      simp only [chain, List.findSome?_cons, hown, hc]
      refine ih (Nat.lt_of_succ_lt_succ hlt) hd fun m hm e he => ?_
      exact hbefore (m + 1) (Nat.succ_lt_succ hm) e (by simp [climb, hc, he])

/-- The ancestors of a class are enough to find the nearest class with a value: before it no class
has one, so it occurs there for the first time.
-/
theorem findSome?_ancestors_iff
    : (h.ancestors c).findSome? own? = some a ↔ Nearest h.superclass? own? c a := by
  refine ⟨nearest_of_findSome?_chain, fun ha => ?_⟩
  obtain ⟨links, d, hlinks, hd, hbefore⟩ := ha.exists_climb
  have hle : links ≤ h.classes.length := by
    refine links_le_of_first hlinks fun m hm he => ?_
    cases (hbefore m hm d he).symm.trans hd
  exact findSome?_chain (Nat.lt_succ_of_le hle) hlinks hd hbefore

section Methods

variable {owner : TypeName} {key : MethodKey} {exceptions : List TypeName}

theorem methodExceptions_eq_ok_iff
    : h.methodExceptions owner key = .ok exceptions
      ↔ Nearest h.superclass? (h.declared? key) owner exceptions := by
  rw [← findSome?_ancestors_iff, methodExceptions]
  split
  next found hfound => rw [hfound, Except.ok.injEq, Option.some.injEq]
  next hnone => split <;> simp [hnone]

theorem methodExceptions_eq_error
    (hnone : ∀ exceptions, ¬ Nearest h.superclass? (h.declared? key) owner exceptions)
    : h.methodExceptions owner key
      = if h.contains owner then .error (.methodNotFound owner key.name key.arguments)
        else .error (.classNotFound owner) := by
  rw [methodExceptions]
  split
  next found hfound => exact absurd (findSome?_ancestors_iff.mp hfound) (hnone found)
  next => rfl

/-- A class that is not declared has no methods and inherits none. -/
theorem not_nearest_of_not_contains (hc : h.contains owner = false)
    : ¬ Nearest h.superclass? (h.declared? key) owner exceptions := by
  have hclass : h.class? owner = none := by simpa [contains] using hc
  rintro (hown | ⟨-, hsuperclass, -⟩)
  · simp [declared?, hclass] at hown
  · simp [superclass?, hclass] at hsuperclass

theorem methodExceptions_eq_classNotFound_iff
    : h.methodExceptions owner key = .error (.classNotFound owner)
      ↔ h.contains owner = false := by
  constructor
  · intro herror
    have hnone : ∀ exceptions, ¬ Nearest h.superclass? (h.declared? key) owner exceptions :=
      fun exceptions hn => by cases (methodExceptions_eq_ok_iff.mpr hn).symm.trans herror
    rw [methodExceptions_eq_error hnone] at herror
    split at herror
    · cases herror
    · simpa using ‹¬ h.contains owner = true›
  · intro hc
    rw [methodExceptions_eq_error fun _ => not_nearest_of_not_contains hc, hc]
    rfl

end Methods

-- Declarations

/-- The declaration of a class or of a method. -/
inductive Declaration where
  | ofClass (name : TypeName) (superclass : Option TypeName)
  | ofMethod (owner : TypeName) (key : MethodKey) (exceptions : List TypeName)

def declare (h : Hierarchy) : Declaration → Hierarchy
  | .ofClass name superclass => h.addClass name superclass
  | .ofMethod owner key exceptions => h.addMethod owner key exceptions

/-- The standard hierarchy with further declarations, the last one last. -/
def declaring (ds : List Declaration) : Hierarchy :=
  ds.foldl declare standard

@[simp] theorem declaring_concat (ds : List Declaration) (x : Declaration)
    : declaring (ds ++ [x]) = (declaring ds).declare x := by
  simp [declaring]

namespace Declaration

/-- The class that is declared, or whose method is. -/
def subject : Declaration → TypeName
  | .ofClass name _ => name
  | .ofMethod owner _ _ => owner

/-- What the declaration says about the superclass of a class. -/
def superclassOf? (c : TypeName) : Declaration → Option (Option TypeName)
  | .ofClass name superclass => if name = c then some superclass else none
  | .ofMethod .. => none

/-- What the declaration says about the exceptions of a method of a class. -/
def exceptionsOf? (c : TypeName) (key : MethodKey) : Declaration → Option (List TypeName)
  | .ofMethod owner declared exceptions =>
    if owner = c ∧ declared = key then some exceptions else none
  | .ofClass .. => none

end Declaration

/-- The class is a standard one or has been declared, or one of its methods has. -/
def Declared (ds : List Declaration) (c : TypeName) : Prop :=
  standard.contains c = true ∨ ∃ x ∈ ds, x.subject = c

/-- The superclass of a class: the one that was declared last, and `java.lang.Object` if only
methods of the class were declared.
-/
def superclassAfter (ds : List Declaration) (c : TypeName) : Option TypeName :=
  match ds.reverse.findSome? (Declaration.superclassOf? c) with
  | some superclass => superclass
  | none =>
    if standard.contains c then standard.superclass? c
    else if ds.any (·.subject = c) then some .object
    else none

/-- The exceptions that were declared last for a method of a class. -/
def exceptionsAfter (ds : List Declaration) (key : MethodKey) (c : TypeName)
    : Option (List TypeName) :=
  ds.reverse.findSome? (Declaration.exceptionsOf? c key)

theorem lookup_filter_ne {β : Type} {l : List (TypeName × β)} (hne : c ≠ d)
    : (l.filter fun x => x.1 ≠ d).lookup c = l.lookup c := by
  induction l with
  | nil => rfl
  | cons x rest ih =>
      obtain ⟨name, b⟩ := x
      by_cases hname : name = d
      · subst hname
        simpa [List.lookup_cons, beq_false_of_ne hne] using ih
      · simp only [ne_eq, hname, not_false_eq_true, decide_true, List.filter_cons_of_pos,
          List.lookup_cons]
        cases c == name <;> simp_all

theorem class?_setClass (h : Hierarchy) (c d : TypeName) (entry : ClassEntry)
    : (h.setClass c entry).class? d = if d = c then some entry else h.class? d := by
  by_cases hd : d = c
  · simp [class?, setClass, hd]
  · simp only [class?, setClass, List.lookup_cons, beq_false_of_ne hd, if_neg hd]
    exact lookup_filter_ne hd

theorem superclass?_addClass (h : Hierarchy) (c d : TypeName) (superclass : Option TypeName)
    : (h.addClass c superclass).superclass? d = if d = c then superclass else h.superclass? d := by
  rw [superclass?, addClass, class?_setClass]
  split <;> rfl

theorem superclass?_addMethod (h : Hierarchy) (c d : TypeName) (key : MethodKey)
    (exceptions : List TypeName)
    : (h.addMethod c key exceptions).superclass? d
      = if d = c ∧ h.contains c = false then some .object else h.superclass? d := by
  rw [superclass?, addMethod, class?_setClass]
  by_cases hd : d = c
  · subst hd
    cases hentry : h.class? d with
    | none => simp [contains, hentry]
    | some entry => simp [contains, superclass?, hentry]
  · simp [hd, superclass?]

theorem contains_declare (h : Hierarchy) (x : Declaration) (c : TypeName)
    : (h.declare x).contains c = true ↔ c = x.subject ∨ h.contains c = true := by
  cases x with
  | ofClass name superclass =>
      by_cases hc : c = name <;> simp [declare, contains, addClass, class?_setClass, hc,
        Declaration.subject]
  | ofMethod owner key exceptions =>
      by_cases hc : c = owner <;> simp [declare, contains, addMethod, class?_setClass, hc,
        Declaration.subject]

theorem declared?_addClass (h : Hierarchy) (c d : TypeName) (superclass : Option TypeName)
    (key : MethodKey)
    : (h.addClass c superclass).declared? key d = h.declared? key d := by
  rw [declared?, addClass, class?_setClass]
  by_cases hd : d = c
  · subst hd
    cases hentry : h.class? d <;> simp [declared?, hentry]
  · simp [hd, declared?]

theorem declared?_addMethod (h : Hierarchy) (c d : TypeName) (key added : MethodKey)
    (exceptions : List TypeName)
    : (h.addMethod c added exceptions).declared? key d
      = if d = c ∧ key = added then some exceptions else h.declared? key d := by
  rw [declared?, addMethod, class?_setClass]
  by_cases hd : d = c
  · subst hd
    by_cases hk : key = added
    · simp [hk]
    · cases hentry : h.class? d <;>
        simp [declared?, hentry, List.lookup_cons, beq_false_of_ne hk, hk]
  · simp [hd, declared?]

variable {ds : List Declaration}

theorem contains_declaring
    : (declaring ds).contains c = true ↔ Declared ds c := by
  induction ds using List.reverseRecOn with
  | nil => simp [declaring, Declared]
  | append_singleton ds x ih =>
      rw [declaring_concat, contains_declare, ih, Declared, Declared, eq_comm, or_left_comm]
      simp only [List.mem_append, List.mem_singleton, or_and_right, exists_or, exists_eq_left]
      rw [or_comm (a := x.subject = c)]

theorem superclassAfter_concat_ofClass (ds : List Declaration) (c d : TypeName)
    (superclass : Option TypeName)
    : superclassAfter (ds ++ [.ofClass c superclass]) d
      = if d = c then superclass else superclassAfter ds d := by
  by_cases hd : c = d
  · simp [superclassAfter, Declaration.superclassOf?, hd]
  · simp [superclassAfter, Declaration.superclassOf?, Declaration.subject, hd, Ne.symm hd]

/-- Nothing is said about the superclass of a class that is not declared. -/
theorem findSome?_superclassOf?_eq_none (hc : ¬ Declared ds c)
    : ds.reverse.findSome? (Declaration.superclassOf? c) = none := by
  refine List.findSome?_eq_none_iff.mpr fun x hx => ?_
  have hsubject : x.subject ≠ c := fun heq => hc (.inr ⟨x, List.mem_reverse.mp hx, heq⟩)
  cases x with
  | ofClass name superclass => exact if_neg hsubject
  | ofMethod => rfl

/-- A method makes its owner a direct subclass of `java.lang.Object` if it was not declared. -/
theorem superclassAfter_concat_ofMethod (ds : List Declaration) (c d : TypeName) (key : MethodKey)
    (exceptions : List TypeName)
    : superclassAfter (ds ++ [.ofMethod c key exceptions]) d
      = if d = c ∧ (declaring ds).contains c = false then some .object
        else superclassAfter ds d := by
  by_cases hd : d = c
  · subst hd
    cases hdeclared : (declaring ds).contains d with
    | false =>
        have hnot : ¬ Declared ds d := fun h => by simp [contains_declaring.mpr h] at hdeclared
        have hstandard : ¬ standard.contains d = true := fun h => hnot (.inl h)
        simp [superclassAfter, List.findSome?_cons, Declaration.superclassOf?,
          findSome?_superclassOf?_eq_none hnot, hstandard, Declaration.subject]
    | true =>
        rcases contains_declaring.mp hdeclared with hstandard | ⟨x, hx, hsubject⟩
        · simp [superclassAfter, List.findSome?_cons, Declaration.superclassOf?, hstandard]
        · have hany : ds.any (·.subject = d) = true := by simpa using ⟨x, hx, hsubject⟩
          simp only [superclassAfter, List.reverse_append, List.reverse_singleton,
            List.singleton_append, List.findSome?_cons, Declaration.superclassOf?, List.any_append,
            hany, Bool.true_or, Bool.true_eq_false, and_false, if_false]
  · simp [superclassAfter, List.findSome?_cons, Declaration.superclassOf?, Declaration.subject, hd,
      Ne.symm hd]

theorem superclass?_declaring (ds : List Declaration)
    : (declaring ds).superclass? = superclassAfter ds := by
  funext c
  induction ds using List.reverseRecOn with
  | nil =>
      cases hc : standard.contains c with
      | true => simp [declaring, superclassAfter, hc]
      | false =>
          have hnone : standard.class? c = none := by simpa [contains] using hc
          simp [declaring, superclassAfter, hc, superclass?, hnone]
  | append_singleton ds x ih =>
      rw [declaring_concat]
      cases x with
      | ofClass name superclass =>
          rw [declare, superclass?_addClass, superclassAfter_concat_ofClass, ih]
      | ofMethod owner key exceptions =>
          rw [declare, superclass?_addMethod, superclassAfter_concat_ofMethod, ih]

/-- The standard classes have no methods. -/
theorem declared?_standard (key : MethodKey) (c : TypeName)
    : standard.declared? key c = none := by
  have hmethods : ∀ entry ∈ standard.classes, entry.2.methods = [] := by decide +kernel
  refine Option.bind_eq_none_iff.mpr fun entry hentry => ?_
  rw [hmethods _ (mem_of_lookup hentry)]
  rfl

theorem declared?_declaring (ds : List Declaration) (key : MethodKey)
    : (declaring ds).declared? key = exceptionsAfter ds key := by
  funext c
  induction ds using List.reverseRecOn with
  | nil => exact declared?_standard key c
  | append_singleton ds x ih =>
      rw [declaring_concat, exceptionsAfter, List.reverse_append, List.reverse_singleton,
        List.singleton_append, List.findSome?_cons]
      cases x with
      | ofClass name superclass => rw [declare, declared?_addClass, ih]; rfl
      | ofMethod owner added exceptions =>
          rw [declare, declared?_addMethod, ih]
          by_cases hkey : owner = c ∧ added = key
          · simp [Declaration.exceptionsOf?, hkey]
          · have hsymm : ¬ (c = owner ∧ key = added) := fun h => hkey ⟨h.1.symm, h.2.symm⟩
            rw [if_neg hsymm, Declaration.exceptionsOf?, if_neg hkey, exceptionsAfter]

-- Subclasses

section Order

variable {a b e : TypeName}

theorem isSubclass_iff (he : e ≠ .object)
    : h.isSubclass a e = true
      ↔ Relation.ReflTransGen (fun c d => h.superclass? c = some d) a e := by
  rw [isSubclass, if_neg he, decide_eq_true_eq, mem_ancestors_iff]

theorem isSubclass_object
    : h.isSubclass a .object = true ↔ a.isPrimitive = false := by
  simp [isSubclass]

theorem isSubclass_refl (h : Hierarchy) (a : TypeName)
    : h.isSubclass a a = true := by
  by_cases ha : a = .object
  · subst ha
    exact isSubclass_object.mpr rfl
  · exact (isSubclass_iff ha).mpr .refl

/-- The chains of `java.lang.Object` and of the primitive types end with them, but for a primitive
type that is a subclass of `java.lang.Object`, which it takes methods to be.
-/
structure Rooted (h : Hierarchy) : Prop where
  object : h.superclass? .object = none
  primitive : ∀ {p d}, p.isPrimitive = true → h.superclass? p = some d → d = .object

theorem Rooted.eq_object (hr : h.Rooted)
    (hreach : Relation.ReflTransGen (fun c d => h.superclass? c = some d) .object e)
    : e = .object := by
  rcases hreach.cases_head with heq | ⟨d, hd, -⟩
  · exact heq.symm
  · cases hr.object.symm.trans hd

/-- Only primitive types are below a primitive type, and none but them is kept away from
`java.lang.Object`, so the classes below a class that is no primitive type are none either.
-/
theorem Rooted.not_isPrimitive (hr : h.Rooted) (hb : b.isPrimitive = false) (hbe : b ≠ .object)
    (hreach : Relation.ReflTransGen (fun c d => h.superclass? c = some d) a b)
    : a.isPrimitive = false := by
  by_contra hprimitive
  rcases hreach.cases_head with rfl | ⟨d, hd, hrest⟩
  · exact hprimitive hb
  · obtain rfl := hr.primitive (by simpa using hprimitive) hd
    exact hbe (hr.eq_object hrest)

theorem Rooted.isSubclass_trans (hr : h.Rooted) (hab : h.isSubclass a b = true)
    (hbe : h.isSubclass b e = true)
    : h.isSubclass a e = true := by
  by_cases he : e = .object
  · subst he
    rw [isSubclass_object] at hbe ⊢
    by_cases hb : b = .object
    · subst hb
      exact isSubclass_object.mp hab
    · exact hr.not_isPrimitive hbe hb ((isSubclass_iff hb).mp hab)
  · have hreach := (isSubclass_iff he).mp hbe
    have hb : b ≠ .object := fun heq => he (hr.eq_object (heq ▸ hreach))
    exact (isSubclass_iff he).mpr (((isSubclass_iff hb).mp hab).trans hreach)

end Order

/-- No declaration gives `java.lang.Object` or a primitive type a superclass. -/
def RootsKept (ds : List Declaration) : Prop :=
  ∀ name superclass, .ofClass name (some superclass) ∈ ds →
    name ≠ .object ∧ name.isPrimitive = false

/-- A class that no declaration gives a superclass has the one it has without declarations, or none.
-/
theorem superclassAfter_of_not_given
    (hc : ∀ superclass, .ofClass c (some superclass) ∉ ds) (hd : superclassAfter ds c = some d)
    : (if standard.contains c then standard.superclass? c else some .object) = some d := by
  unfold superclassAfter at hd
  split at hd
  next superclass hsome =>
    obtain ⟨x, hx, hsome⟩ := List.exists_of_findSome?_eq_some hsome
    cases x with
    | ofMethod => cases hsome
    | ofClass name superclass =>
        obtain ⟨rfl, rfl⟩ : name = c ∧ superclass = some d := by
          rw [Declaration.superclassOf?, Option.ite_none_right_eq_some] at hsome
          exact ⟨hsome.1, (Option.some.inj hsome.2).trans hd⟩
        exact absurd (List.mem_reverse.mp hx) (hc d)
  next =>
    split at hd
    next hstandard => rwa [if_pos hstandard]
    next hstandard =>
      rw [if_neg hstandard]
      split at hd
      · exact hd
      · cases hd

theorem RootsKept.rooted (hds : RootsKept ds)
    : (declaring ds).Rooted where
  object := by
    rw [superclass?_declaring]
    by_contra hsome
    obtain ⟨d, hd⟩ := Option.ne_none_iff_exists'.mp hsome
    have hstandard : standard.contains .object = true ∧ standard.superclass? .object = none := by
      decide +kernel
    have hgiven := superclassAfter_of_not_given (fun s hs => (hds _ s hs).1 rfl) hd
    rw [if_pos hstandard.1, hstandard.2] at hgiven
    cases hgiven
  primitive {p d} hp hd := by
    rw [superclass?_declaring] at hd
    have hstandard : standard.contains p = false := by
      have hall : ∀ p ∈ [TypeName.boolean, .byte, .char, .short, .int, .long, .float, .double,
          .void, .null], standard.contains p = false := by decide +kernel
      exact hall p (List.contains_iff_mem.mp hp)
    have hgiven := superclassAfter_of_not_given
      (fun s hs => by simp [(hds _ s hs).2] at hp) hd
    simpa [hstandard, eq_comm] using hgiven

-- Queries after declarations

/-- The queries to a hierarchy after any declarations: the first class is a subclass of the second
one, other than `java.lang.Object`, if superclass links lead to it; the exceptions of a method are
those declared last by the nearest class that declares it, and the error says whether its owner is
declared. As long as the roots are kept, subclasses are a preorder.
-/
theorem queries_follow_superclasses (ds : List Declaration)
    : (∀ sub sup, sup ≠ .object →
        ((declaring ds).isSubclass sub sup = true
          ↔ Relation.ReflTransGen (fun c d => superclassAfter ds c = some d) sub sup))
      ∧ (∀ owner key exceptions, (declaring ds).methodExceptions owner key = .ok exceptions
          ↔ Nearest (superclassAfter ds) (exceptionsAfter ds key) owner exceptions)
      ∧ (∀ owner key, (declaring ds).methodExceptions owner key = .error (.classNotFound owner)
          ↔ ¬ Declared ds owner)
      ∧ (∀ owner key, Declared ds owner →
          (∀ exceptions, ¬ Nearest (superclassAfter ds) (exceptionsAfter ds key) owner exceptions) →
          (declaring ds).methodExceptions owner key
            = .error (.methodNotFound owner key.name key.arguments))
      ∧ (RootsKept ds → (∀ c, (declaring ds).isSubclass c c = true)
          ∧ ∀ a b c, (declaring ds).isSubclass a b = true → (declaring ds).isSubclass b c = true →
            (declaring ds).isSubclass a c = true) := by
  rw [← superclass?_declaring]
  simp only [← declared?_declaring]
  refine ⟨fun sub sup => isSubclass_iff, fun owner key exceptions => methodExceptions_eq_ok_iff,
    fun owner key => ?_, fun owner key hdeclared hnone => ?_, fun hds => ?_⟩
  · rw [methodExceptions_eq_classNotFound_iff, ← contains_declaring, Bool.not_eq_true]
  · rw [methodExceptions_eq_error hnone, if_pos (contains_declaring.mpr hdeclared)]
  · exact ⟨isSubclass_refl _, fun a b c => hds.rooted.isSubclass_trans⟩

/-- Two classes that extend each other, and a method that one of them declares twice. -/
def circle : List Declaration :=
  [.ofMethod ⟨"a.B"⟩ ⟨"read", [.int]⟩ [.exception],
    .ofClass ⟨"a.C"⟩ (some ⟨"a.B"⟩), .ofClass ⟨"a.B"⟩ (some ⟨"a.C"⟩),
    .ofMethod ⟨"a.B"⟩ ⟨"read", [.int]⟩ [⟨"java.io.IOException"⟩],
    .ofMethod .int ⟨"read", []⟩ []]

/-- Each class of the circle is a subclass of the other one, and so of itself, but of no exception
class, and both share the last declaration of the method. That a method is declared for a primitive
type does no harm.
-/
theorem queries_of_circle
    : (declaring circle).isSubclass ⟨"a.C"⟩ ⟨"a.B"⟩ = true
      ∧ (declaring circle).isSubclass ⟨"a.B"⟩ ⟨"a.C"⟩ = true
      ∧ (declaring circle).isSubclass ⟨"a.B"⟩ .throwable = false
      ∧ (declaring circle).methodExceptions ⟨"a.C"⟩ ⟨"read", [.int]⟩
        = .ok [⟨"java.io.IOException"⟩]
      ∧ (declaring circle).methodExceptions ⟨"a.C"⟩ ⟨"read", []⟩
        = .error (.methodNotFound ⟨"a.C"⟩ "read" [])
      ∧ (declaring circle).methodExceptions ⟨"a.D"⟩ ⟨"read", []⟩ = .error (.classNotFound ⟨"a.D"⟩)
      ∧ (declaring circle).isSubclass ⟨"a.C"⟩ ⟨"a.C"⟩ = true := by
  obtain ⟨subclass, method, owner, missing, preorder⟩ := queries_follow_superclasses circle
  have hup : superclassAfter circle ⟨"a.C"⟩ = some ⟨"a.B"⟩ := rfl
  have hback : superclassAfter circle ⟨"a.B"⟩ = some ⟨"a.C"⟩ := rfl
  have hbelow := (subclass _ _ (by decide)).mpr (.single hup)
  have habove := (subclass _ _ (by decide)).mpr (.single hback)
  refine ⟨hbelow, habove, by decide +kernel, (method _ _ _).mpr (.inherited rfl hup
      (.own rfl)),
    missing _ _ (.inr ⟨.ofClass ⟨"a.C"⟩ (some ⟨"a.B"⟩), by simp [circle], rfl⟩)
      fun exceptions hnearest => ?_,
    (owner _ _).mpr fun hdeclared => ?_, (preorder ?_).2 _ _ _ hbelow habove⟩
  · have hnone : ((declaring circle).methodExceptions ⟨"a.C"⟩ ⟨"read", []⟩).toOption = none := by
      decide +kernel
    rw [(method _ _ _).mpr hnearest] at hnone
    cases hnone
  · have hnone : (declaring circle).contains ⟨"a.D"⟩ = false := by decide +kernel
    rw [contains_declaring.mpr hdeclared] at hnone
    cases hnone
  · intro name superclass hmem
    have hnames : ∀ x ∈ circle, ∀ s ∈ x.superclassOf? x.subject, x.subject ≠ .object
        ∧ x.subject.isPrimitive = false := by decide +kernel
    exact hnames _ hmem (some superclass) (if_pos rfl)

end Hierarchy

end StackLift
