import Mathlib.Data.List.Basic
import StackLift.Listing.Reader

/-!
The label names that statements mention. The names of a method are numbered by their first mention,
so the number of a name does not change when more names are mentioned.
-/

namespace StackLift

-- Labels of what was read

def VerificationType.label? : VerificationType → Option Label
  | .uninitialized label => some label
  | _ => none

def StackMapFrame.labels (f : StackMapFrame) : List Label :=
  (f.locals ++ f.stack).filterMap VerificationType.label?

/-- The labels that occur in a node. -/
def Node.labels : Node → List Label
  | .label l => [l]
  | .line _ start => [start]
  | .frame f => f.labels
  | .plain _ => []
  | .branch b => b.targets

def ProtectedRange.labels (r : ProtectedRange) : List Label :=
  [r.start, r.stop, r.handler]

def VariableEntry.labels (e : VariableEntry) : List Label :=
  [e.start, e.stop]

namespace Listing

-- Label names of statements

/-- The text of a token that is no string literal. -/
def Token.word? : Token → Option String
  | .word text => some text
  | .string _ => none

/-- A line of a method body that is not blank: its first word and the tokens after it. -/
structure Statement where
  head : String
  operands : List Token

/-- The key and the label name of a switch case. -/
def switchCase? (text : String) : Option (Int32 × String) := do
  let (key, target) ← Text.splitFirst? ':' text
  let key ← IntRange.signed32.read? key
  return (.ofInt key, target)

namespace Statement

def words (s : Statement) : List String :=
  s.operands.filterMap Token.word?

/-- The cases of a lookup switch, after its default. -/
def cases (s : Statement) : List (Int32 × String) :=
  (s.words.drop 1).filterMap switchCase?

/-- The label names that a statement mentions, from left to right. -/
def mentions (s : Statement) : List String :=
  match Text.dropSuffix? ":" s.head with
  | some name => [name]
  | none =>
    match s.head with
    | "try" => s.words.take 3
    | "local" => (s.words.drop 2).take 2
    | "line" => (s.words.drop 1).take 1
    | "frame" =>
      if s.words.head? = some "chop" then []
      else (s.words.drop 1).filterMap LineReader.uninitializedLabel?
    | "tableswitch" => s.words.drop 1
    | "lookupswitch" => s.words.take 1 ++ s.cases.map Prod.snd
    | opcode => if opcode ∈ jumpMnemonics.map Prod.fst then s.words.take 1 else []

end Statement

/-- The labels of what a line adds. -/
def LineReader.Line.labels : LineReader.Line → List Label
  | .node n => n.labels
  | .parameters _ => []
  | .range r => r.labels
  | .entry e => e.labels

/-- The labels of what a line adds are those that its statement mentions, in the order of the text.
Only the cases of a lookup switch have another order.
-/
def LineReader.Line.Written (s : Statement) (ls : List Label) : LineReader.Line → Prop
  | .node (.branch (.lookupSwitch default cases)) => ∃ name, ∃ written : List (Int32 × Label),
      s.mentions = name :: s.cases.map Prod.snd ∧ ls = default :: written.map Prod.snd
        ∧ written.map Prod.fst = s.cases.map Prod.fst ∧ cases = LineReader.sortCases written
  | line => line.labels = ls

/-- The label that a line places. -/
def LineReader.Line.placed : LineReader.Line → List Label
  | .node n => n.label?.toList
  | _ => []

-- Several mentions

namespace Labels

variable {labels labels₁ labels₂ : Labels}

/-- The labels of names that are mentioned one after the other. -/
def mentionAll (labels : Labels) : List String → List Label × Labels
  | [] => ([], labels)
  | name :: rest =>
    let (first, labels) := labels.mention name
    let (others, labels) := labels.mentionAll rest
    (first :: others, labels)

variable {name : String}

theorem mentionAll_cons {rest : List String} {first : Label} {others : List Label}
    (hfirst : labels.mention name = (first, labels₁))
    (hothers : labels₁.mentionAll rest = (others, labels₂))
    : labels.mentionAll (name :: rest) = (first :: others, labels₂) := by
  simp only [mentionAll, hfirst, hothers]

theorem mentionAll_append {names names' : List String} {ls ls' : List Label}
    (h : labels.mentionAll names = (ls, labels₁)) (h' : labels₁.mentionAll names' = (ls', labels₂))
    : labels.mentionAll (names ++ names') = (ls ++ ls', labels₂) := by
  induction names generalizing labels ls with
  | nil =>
      cases h
      exact h'
  | cons name rest ih =>
      simp only [mentionAll] at h
      cases h
      exact mentionAll_cons rfl (ih rfl)

theorem mention_placed {l : Label} (h : labels.mention name = (l, labels₁))
    : labels₁.placed = labels.placed := by
  unfold mention at h
  split at h <;> cases h <;> rfl

theorem mentionAll_placed {names : List String} {ls : List Label}
    (h : labels.mentionAll names = (ls, labels₁))
    : labels₁.placed = labels.placed := by
  induction names generalizing labels ls with
  | nil =>
      cases h
      rfl
  | cons name rest ih =>
      simp only [mentionAll] at h
      cases h
      exact (ih rfl).trans (mention_placed rfl)

-- Numbers

/-- The label of a name: its place among the names of the method. -/
def number (names : List String) (name : String) : Label :=
  ⟨names.idxOf name⟩

theorem number_of_prefix {names all : List String} (hname : name ∈ names) (hall : names <+: all)
    : number all name = number names name := by
  obtain ⟨more, rfl⟩ := hall
  rw [number, List.idxOf_append_of_mem hname, number]

theorem mention_of_mem (h : name ∈ labels.names)
    : labels.mention name = (number labels.names name, labels) := by
  have hfound : labels.names.findIdx? (· = name) = some (labels.names.findIdx (· = name)) :=
    List.findIdx?_eq_some_of_exists ⟨name, h, by simp⟩
  have hplace : labels.names.findIdx (· = name) = labels.names.idxOf name := rfl
  rw [mention, hfound, hplace]
  rfl

theorem mention_of_not_mem (h : name ∉ labels.names)
    : labels.mention name
      = (number (labels.names ++ [name]) name,
        { labels with names := labels.names ++ [name] }) := by
  have hnone : labels.names.findIdx? (· = name) = none := by
    refine List.findIdx?_eq_none_iff.mpr fun other hother => decide_eq_false ?_
    exact fun same => h (same ▸ hother)
  have hplace : (labels.names ++ [name]).idxOf name = labels.names.length := by
    simp [List.idxOf_append, h]
  rw [mention, hnone, number, hplace]

/-- The names are those mentioned so far, in the order of their first mention. -/
theorem mention_names {before : List String} {l : Label}
    (hbefore : labels.names = before.eraseDups) (h : labels.mention name = (l, labels₁))
    : labels₁.names = (before ++ [name]).eraseDups ∧ name ∈ labels₁.names
      ∧ l = number labels₁.names name := by
  have hmem : name ∈ labels.names ↔ name ∈ before := by rw [hbefore, List.mem_eraseDups]
  by_cases hname : name ∈ labels.names
  · rw [mention_of_mem hname] at h
    cases h
    refine ⟨?_, hname, rfl⟩
    rw [hbefore, List.eraseDups_append]
    simp [List.removeAll, hmem.mp hname]
  · rw [mention_of_not_mem hname] at h
    cases h
    refine ⟨?_, by simp, rfl⟩
    rw [hbefore, List.eraseDups_append]
    simp [List.removeAll, mt hmem.mpr hname, List.eraseDups_cons]

theorem names_prefix_mention {l : Label} (h : labels.mention name = (l, labels₁))
    : labels.names <+: labels₁.names := by
  by_cases hname : name ∈ labels.names
  · rw [mention_of_mem hname] at h
    cases h
    exact List.prefix_rfl
  · rw [mention_of_not_mem hname] at h
    cases h
    exact List.prefix_append _ _

theorem names_prefix_mentionAll {names : List String} {ls : List Label}
    (h : labels.mentionAll names = (ls, labels₁))
    : labels.names <+: labels₁.names := by
  induction names generalizing labels ls with
  | nil =>
      cases h
      exact List.prefix_rfl
  | cons name rest ih =>
      simp only [mentionAll] at h
      cases h
      exact (names_prefix_mention rfl).trans (ih rfl)

/-- Each name keeps the number of its first mention. -/
theorem mentionAll_names {before names : List String} {ls : List Label}
    (hbefore : labels.names = before.eraseDups) (h : labels.mentionAll names = (ls, labels₁))
    : labels₁.names = (before ++ names).eraseDups
      ∧ ∀ all, labels₁.names <+: all → ls = names.map (number all) := by
  induction names generalizing labels ls before with
  | nil =>
      cases h
      exact ⟨by rw [hbefore, List.append_nil], fun _ _ => rfl⟩
  | cons name rest ih =>
      obtain ⟨first, labels', hfirst⟩ : ∃ first labels', labels.mention name = (first, labels') :=
        ⟨_, _, rfl⟩
      obtain ⟨others, labels'', hothers⟩ : ∃ others labels'', labels'.mentionAll rest
          = (others, labels'') := ⟨_, _, rfl⟩
      rw [mentionAll_cons hfirst hothers] at h
      cases h
      obtain ⟨hnames, hmem, hnumber⟩ := mention_names hbefore hfirst
      obtain ⟨hall, hnumbers⟩ := ih hnames hothers
      refine ⟨by rw [hall, List.append_assoc, List.singleton_append], fun all hprefix => ?_⟩
      have hprefix' := (names_prefix_mentionAll hothers).trans hprefix
      rw [List.map_cons, ← hnumbers all hprefix, number_of_prefix hmem hprefix', hnumber]

end Labels

/-- A line is read from a statement: the labels that the statement mentions are numbered, a label is
placed only if it was not placed before, and there is a name for each parameter.
-/
structure LineReader.Line.ReadFrom (parameterCount : Nat) (s : Statement) (labels labels' : Labels)
    (line : LineReader.Line) : Prop where
  placed : labels'.placed = labels.placed ++ line.placed
  fresh : ∀ l ∈ line.placed, l ∉ labels.placed
  written : ∃ ls, labels.mentionAll s.mentions = (ls, { labels' with placed := labels.placed })
    ∧ line.Written s ls
  parameters : ∀ names, line = .parameters names → names.length = parameterCount

end Listing

end StackLift
