import StackLift.Error

/-!
Classes with their superclasses and the checked exceptions that their methods declare. Declarations
are not checked, so a chain of superclasses may lead back to itself.
-/

namespace StackLift

/-- What a method is called by. -/
structure MethodKey where
  name : String
  arguments : List TypeName
deriving DecidableEq

/-- A declared class. -/
structure ClassEntry where
  superclass : Option TypeName
  /-- The methods with the exceptions they declare, the last declaration first. -/
  methods : List (MethodKey × List TypeName)

/-- Declared classes, each of them once. -/
structure Hierarchy where
  classes : List (TypeName × ClassEntry)

namespace Hierarchy

def class? (h : Hierarchy) (name : TypeName) : Option ClassEntry :=
  h.classes.lookup name

def contains (h : Hierarchy) (name : TypeName) : Bool :=
  (h.class? name).isSome

def superclass? (h : Hierarchy) (name : TypeName) : Option TypeName :=
  (h.class? name).bind ClassEntry.superclass

/-- Replaces the entry of a class, or adds one. -/
def setClass (h : Hierarchy) (name : TypeName) (entry : ClassEntry) : Hierarchy :=
  { classes := (name, entry) :: h.classes.filter fun c => c.1 ≠ name }

/-- Declares a class. A class that is declared again keeps its methods. -/
def addClass (h : Hierarchy) (name : TypeName) (superclass : Option TypeName) : Hierarchy :=
  h.setClass name { superclass, methods := ((h.class? name).map ClassEntry.methods).getD [] }

/-- Declares a method and its exceptions. An owner that was not declared is a direct subclass of
`java.lang.Object`.
-/
def addMethod (h : Hierarchy) (owner : TypeName) (key : MethodKey) (exceptions : List TypeName) :
    Hierarchy :=
  let entry := (h.class? owner).getD { superclass := some .object, methods := [] }
  h.setClass owner { entry with methods := (key, exceptions) :: entry.methods }

/-- The exception classes of the standard library that instructions can raise. -/
def standard : Hierarchy :=
  let edges : List (TypeName × TypeName) :=
    [(.throwable, .object), (.exception, .throwable), (.error, .throwable),
     (.runtimeException, .exception), (.nullPointerException, .runtimeException),
     (.arithmeticException, .runtimeException), (.classCastException, .runtimeException),
     (.negativeArraySizeException, .runtimeException),
     (.indexOutOfBoundsException, .runtimeException),
     (⟨"java.lang.ArrayIndexOutOfBoundsException"⟩, .indexOutOfBoundsException),
     (⟨"java.lang.IllegalArgumentException"⟩, .runtimeException),
     (⟨"java.lang.IllegalStateException"⟩, .runtimeException),
     (⟨"java.lang.ReflectiveOperationException"⟩, .exception),
     (⟨"java.io.IOException"⟩, .exception), (⟨"java.lang.InterruptedException"⟩, .exception),
     (⟨"java.lang.VirtualMachineError"⟩, .error),
     (⟨"java.lang.OutOfMemoryError"⟩, ⟨"java.lang.VirtualMachineError"⟩),
     (⟨"java.lang.StackOverflowError"⟩, ⟨"java.lang.VirtualMachineError"⟩),
     (⟨"java.lang.LinkageError"⟩, .error)]
  edges.foldl (fun h (name, superclass) => h.addClass name (some superclass))
    { classes := [(.object, { superclass := none, methods := [] })] }

/-- At most as many classes as given, each the superclass of the one before it. -/
def chain (h : Hierarchy) : (length : Nat) → TypeName → List TypeName
  | 0, _ => []
  | length + 1, name =>
    name :: match h.superclass? name with
      | some superclass => h.chain length superclass
      | none => []

/-- A class and its superclasses. Only the last one may be undeclared, so a longer chain would only
repeat classes.
-/
def ancestors (h : Hierarchy) (name : TypeName) : List TypeName :=
  h.chain (h.classes.length + 1) name

/-- Is the first class the second or one of its subclasses? Everything but the primitive types is a
subclass of `java.lang.Object`.
-/
def isSubclass (h : Hierarchy) (sub sup : TypeName) : Bool :=
  if sup = .object then !sub.isPrimitive else sup ∈ h.ancestors sub

/-- The exceptions that a class declares for a method. -/
def declared? (h : Hierarchy) (key : MethodKey) (name : TypeName) : Option (List TypeName) :=
  (h.class? name).bind fun entry => entry.methods.lookup key

/-- The exceptions that a method declares in its owner or the nearest superclass that has it. -/
def methodExceptions (h : Hierarchy) (owner : TypeName) (key : MethodKey) :
    Except Error (List TypeName) :=
  match (h.ancestors owner).findSome? (h.declared? key) with
  | some exceptions => .ok exceptions
  | none =>
    if h.contains owner then .error (.methodNotFound owner key.name key.arguments)
    else .error (.classNotFound owner)

end Hierarchy

end StackLift
