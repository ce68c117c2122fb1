import StackLift.Proofs.DescriptorGrammar
import StackLift.Proofs.LabelMentions
import StackLift.Proofs.ListingComposition
import StackLift.Proofs.MethodFlow

/-!
Accepted listings are well formed. The labels of each method are numbered by their first mention in
its text, and what a statement adds to the method has the numbers of the names that it mentions.
-/

namespace StackLift

-- Labels and names of a method

/-- The labels that occur in a method. -/
def Method.labels (m : Method) : List Label :=
  m.nodes.flatMap Node.labels ++ m.ranges.flatMap ProtectedRange.labels
    ++ m.variableTable.flatMap VariableEntry.labels

/-- A name that occurs in a method. -/
inductive Name where
  | ofClass (name : ClassName)
  | ofMember (name : MemberName)

/-- The text of the name has the form of its kind. -/
def Name.IsValid : Name → Prop
  | .ofClass name => IsClassName name.text.toList
  | .ofMember name => IsSegment name.text.toList

theorem Name.isValid (name : Name)
    : name.IsValid := by
  cases name with
  | ofClass name => exact name.isClassName
  | ofMember name => exact MemberName.fault?_eq_none_iff.mp name.valid

def RefType.names : RefType → List Name
  | .object name => [.ofClass name]
  | .objectArray _ element => [.ofClass element]
  | .primitiveArray _ _ => []

def FieldType.names : FieldType → List Name
  | .base _ => []
  | .ref type => type.names

def MethodDescriptor.names (d : MethodDescriptor) : List Name :=
  (d.parameters ++ d.returnType.toList).flatMap FieldType.names

def Handle.names (h : Handle) : List Name :=
  .ofClass h.owner :: .ofMember h.name
    :: match h.descriptor with
      | .field type => type.names
      | .method descriptor => descriptor.names

mutual

def LoadableConstant.names : LoadableConstant → List Name
  | .classRef type => type.names
  | .methodType descriptor => descriptor.names
  | .handle target => target.names
  | .dynamic name descriptor bootstrap arguments =>
    .ofMember name :: (descriptor.names ++ bootstrap.names ++ LoadableConstant.allNames arguments)
  | _ => []

def LoadableConstant.allNames : List LoadableConstant → List Name
  | [] => []
  | constant :: rest => constant.names ++ LoadableConstant.allNames rest

end

def Instruction.names : Instruction → List Name
  | .pushConstant constant => constant.names
  | .getStatic field | .putStatic field | .getField field | .putField field =>
    .ofClass field.owner :: .ofMember field.name :: field.descriptor.names
  | .invoke _ method => .ofMember method.name :: (method.owner.names ++ method.descriptor.names)
  | .invokeDynamic site =>
    .ofMember site.name :: (site.descriptor.names ++ site.bootstrap.names
      ++ LoadableConstant.allNames site.arguments)
  | .new name => [.ofClass name]
  | .newObjectArray type | .newMultiArray type _ | .checkCast type | .instanceOf type => type.names
  | _ => []

def VerificationType.names : VerificationType → List Name
  | .object type => type.names
  | _ => []

def Node.names : Node → List Name
  | .frame f => (f.locals ++ f.stack).flatMap VerificationType.names
  | .plain instruction => instruction.names
  | _ => []

/-- The class and member names that occur in a method. -/
def Method.names (m : Method) : List Name :=
  .ofClass m.owner :: .ofMember m.name :: (m.descriptor.names
    ++ m.parameterNames.reduceOption.map .ofMember
    ++ m.nodes.flatMap Node.names
    ++ m.ranges.filterMap (fun r => r.catchType.map .ofClass)
    ++ m.variableTable.flatMap fun e => .ofMember e.name :: e.descriptor.names)

namespace Listing

open LineReader (Line sortCases)
open Labels (number)

-- Sorted cases

/-- The cases are sorted by their keys, and those with the same key have the order in which they
are written.
-/
structure SortsCases (written sorted : List (Int32 × Label)) : Prop where
  ascending : sorted.Pairwise fun a b => a.1 ≤ b.1
  stable : ∀ key, sorted.filter (·.1 = key) = written.filter (·.1 = key)

theorem sortsCases_sortCases (written : List (Int32 × Label))
    : SortsCases written (sortCases written) := by
  have htrans : ∀ a b c : Int32 × Label, decide (a.1 ≤ b.1) = true → decide (b.1 ≤ c.1) = true →
      decide (a.1 ≤ c.1) = true := by
    intro a b c hab hbc
    exact decide_eq_true (Int32.le_trans (of_decide_eq_true hab) (of_decide_eq_true hbc))
  have htotal : ∀ a b : Int32 × Label, (decide (a.1 ≤ b.1) || decide (b.1 ≤ a.1)) = true := by
    intro a b
    simpa using Int32.le_total a.1 b.1
  refine ⟨?_, fun key => ?_⟩
  · have hsorted := List.pairwise_mergeSort htrans htotal written
    exact hsorted.imp of_decide_eq_true
  · -- The written cases with the key are sorted as they stand, so sorting keeps their order.
    have hsame : (written.filter (·.1 = key)).Pairwise fun a b => decide (a.1 ≤ b.1) = true := by
      refine List.pairwise_of_forall_mem_list fun a ha b hb => decide_eq_true ?_
      have hkey : a.1 = key ∧ b.1 = key := by simp_all [List.mem_filter]
      rw [hkey.1, hkey.2]
      exact Int32.le_refl key
    have hkept : (written.filter (·.1 = key)).Sublist (sortCases written) :=
      List.sublist_mergeSort htrans htotal hsame List.filter_sublist
    have hfiltered := hkept.filter (·.1 = key)
    rw [List.filter_filter] at hfiltered
    simp only [Bool.and_self] at hfiltered
    have hperm := (List.mergeSort_perm written fun a b => decide (a.1 ≤ b.1)).filter (·.1 = key)
    exact (hfiltered.eq_of_length hperm.length_eq.symm).symm

theorem SortsCases.mem_iff {written sorted : List (Int32 × Label)} (h : SortsCases written sorted)
    (c : Int32 × Label)
    : c ∈ sorted ↔ c ∈ written := by
  have hfiltered : c ∈ sorted.filter (·.1 = c.1) ↔ c ∈ written.filter (·.1 = c.1) := by
    rw [h.stable]
  simpa using hfiltered

-- Methods of a listing

/-- The label names of a method body, in the order of their first mention. -/
def labelNames (body : List Statement) : List String :=
  (body.flatMap Statement.mentions).eraseDups

namespace LineReader.Line

/-- The labels of what a line adds are the numbers of the names that its statement mentions. A
lookup switch has the cases of its statement, sorted.
-/
def Numbered (number : String → Label) (s : Statement) : Line → Prop
  | .node (.branch (.lookupSwitch default cases)) => ∃ name,
      s.mentions = name :: s.cases.map Prod.snd ∧ default = number name
        ∧ SortsCases (s.cases.map fun c => (c.1, number c.2)) cases
  | line => line.labels = s.mentions.map number

def node? : Line → Option Node
  | .node n => some n
  | _ => none

def range? : Line → Option ProtectedRange
  | .range r => some r
  | _ => none

def entry? : Line → Option VariableEntry
  | .entry e => some e
  | _ => none

variable {s : Statement} {line : Line} {ls : List Label} {number : String → Label}

theorem Written.numbered (h : line.Written s ls) (hls : ls = s.mentions.map number)
    : line.Numbered number s := by
  unfold Written at h
  split at h
  next default cases =>
    obtain ⟨name, written, hmentions, hlabels, hkeys, rfl⟩ := h
    rw [hmentions, List.map_cons, List.map_map, hlabels] at hls
    obtain ⟨hdefault, hnames⟩ := List.cons.inj hls
    have hwritten : written = s.cases.map fun c => (c.1, number c.2) := by
      rw [List.zip_of_prod hkeys hnames]
      exact (List.zip_of_prod (by simp [Function.comp_def]) (by simp [Function.comp_def])).symm
    exact ⟨name, hmentions, hdefault, hwritten ▸ sortsCases_sortCases written⟩
  next hother =>
    unfold Numbered
    split
    next default cases => exact (hother default cases rfl).elim
    next => rw [h, hls]

theorem Numbered.mem_labels (h : line.Numbered number s) (l : Label)
    : l ∈ line.labels ↔ ∃ name ∈ s.mentions, number name = l := by
  unfold Numbered at h
  split at h
  next default cases =>
    obtain ⟨name, hmentions, rfl, hsorted⟩ := h
    have hcases : l ∈ cases.map Prod.snd ↔ ∃ target ∈ s.cases.map Prod.snd, number target = l := by
      simp only [List.mem_map, hsorted.mem_iff, exists_exists_and_eq_and]
    rw [hmentions, List.exists_mem_cons_iff, ← hcases, eq_comm]
    exact List.mem_cons
  next => rw [h, List.mem_map]

end LineReader.Line

/-- The tables of a method hold what its lines add, in the order of the lines. -/
structure Assembled (lines : List Line) (m : Method) : Prop where
  nodes : m.nodes = lines.filterMap Line.node?
  ranges : m.ranges = lines.filterMap Line.range?
  variableTable : m.variableTable = lines.filterMap Line.entry?

theorem Assembled.add {lines : List Line} {draft : Draft} (h : Assembled lines draft.method)
    (line : Line)
    : Assembled (lines ++ [line]) (draft.add line).method := by
  obtain ⟨hnodes, hranges, htable⟩ := h
  cases line <;> constructor <;>
    simp [Draft.add, Line.node?, Line.range?, Line.entry?, hnodes, hranges, htable]

theorem Assembled.mem_labels {lines : List Line} {m : Method} (h : Assembled lines m) (l : Label)
    : l ∈ m.labels ↔ ∃ line ∈ lines, l ∈ line.labels := by
  simp only [Method.labels, h.nodes, h.ranges, h.variableTable, List.mem_append, List.mem_flatMap,
    List.mem_filterMap]
  constructor
  · rintro ((⟨a, ⟨line, hmem, ha⟩, hl⟩ | ⟨a, ⟨line, hmem, ha⟩, hl⟩) | ⟨a, ⟨line, hmem, ha⟩, hl⟩) <;>
      cases line <;> cases ha <;> exact ⟨_, hmem, hl⟩
  · intro ⟨line, hmem, hl⟩
    cases line with
    | node n => exact .inl (.inl ⟨n, ⟨_, hmem, rfl⟩, hl⟩)
    | parameters names => cases hl
    | range r => exact .inl (.inr ⟨r, ⟨_, hmem, rfl⟩, hl⟩)
    | entry e => exact .inr ⟨e, ⟨_, hmem, rfl⟩, hl⟩

variable {body : List Statement}

theorem mem_labels_of_numbered {names : String → Label} {lines : List Line}
    (h : List.Forall₂ (fun s (line : Line) => line.Numbered names s) body lines) (l : Label)
    : (∃ line ∈ lines, l ∈ line.labels)
      ↔ ∃ name ∈ body.flatMap Statement.mentions, names name = l := by
  induction h with
  | nil => simp
  | cons hline _ ih =>
      simp only [List.exists_mem_cons_iff, List.flatMap_cons, List.mem_append, or_and_right,
        exists_or, hline.mem_labels, ih]

/-- The numbers of names are all numbers below the count of the different ones. -/
theorem exists_number_iff (names : List String) (l : Label)
    : (∃ name ∈ names, number names.eraseDups name = l) ↔ l.index < names.eraseDups.length := by
  constructor
  · intro ⟨name, hmem, hl⟩
    rw [← hl]
    exact List.idxOf_lt_length_iff.mpr (List.mem_eraseDups.mpr hmem)
  · intro hl
    refine ⟨names.eraseDups[l.index], List.mem_eraseDups.mp (List.getElem_mem hl), ?_⟩
    rw [number, (nodup_eraseDups names).idxOf_getElem]

/-- A draft of a method holds what the statements add that were read. -/
structure Draft.BuiltFrom (body : List Statement) (draft : Draft) : Prop where
  names : draft.labels.names = labelNames body
  placed : draft.labels.placed = draft.method.nodes.filterMap Node.label?
  once : draft.labels.placed.Nodup
  parameters : draft.method.parameterNames.length = draft.method.descriptor.parameters.length
  lines : ∃ lines, Assembled lines draft.method ∧ ∀ all, draft.labels.names <+: all →
    List.Forall₂ (fun s (line : Line) => line.Numbered (number all) s) body lines

theorem Draft.label?_add (draft : Draft) (line : Line)
    : (draft.add line).method.nodes.filterMap Node.label?
      = draft.method.nodes.filterMap Node.label? ++ line.placed := by
  cases line with
  | node n => cases h : n.label? <;> simp [Draft.add, Line.placed, h]
  | _ => simp [Draft.add, Line.placed]

theorem Draft.BuiltFrom.readLine {draft next : Draft} (h : draft.BuiltFrom body) {head : String}
    {operands : List Token} (hread : draft.readLine head operands = .ok next)
    : next.BuiltFrom (body ++ [⟨head, operands⟩]) := by
  unfold Draft.readLine at hread
  split at hread
  next => cases hread
  next line labels' _ hline =>
    cases hread
    obtain ⟨hplaced, hfresh, ⟨ls, hmentions, hwritten⟩, hparameters⟩ :=
      LineReader.line_readFrom hline
    obtain ⟨hnames, hnumbers⟩ := Labels.mentionAll_names h.names hmentions
    obtain ⟨lines, hassembled, hnumbered⟩ := h.lines
    refine ⟨?_, ?_, ?_, ?_, lines ++ [line], hassembled.add line, fun all hall => ?_⟩
    · simpa [labelNames] using hnames
    · rw [Draft.label?_add, ← h.placed]
      exact hplaced
    · have hone : line.placed.Nodup := by
        cases line with
        | node n => cases h : n.label? <;> simp [Line.placed, h]
        | _ => exact List.nodup_nil
      show labels'.placed.Nodup
      rw [hplaced]
      refine List.nodup_append.mpr ⟨h.once, hone, fun a ha b hb same => ?_⟩
      exact hfresh b hb (same ▸ ha)
    · cases line with
      | parameters names => exact hparameters names rfl
      | _ => exact h.parameters
    · have hprefix := (Labels.names_prefix_mentionAll hmentions).trans hall
      refine List.rel_append (hnumbered all hprefix) (.cons ?_ .nil)
      exact hwritten.numbered (hnumbers all hall)

theorem builtFrom_header {tokens rest : List Token} {draft : Draft}
    (h : Draft.header tokens = .ok (draft, rest))
    : draft.BuiltFrom [] := by
  obtain ⟨words, _, -, h⟩ := OperandReader.bind_eq_ok.mp h
  obtain ⟨signature, _, -, h⟩ := OperandReader.bind_eq_ok.mp h
  obtain ⟨flags, _, -, h⟩ := OperandReader.bind_eq_ok.mp h
  obtain ⟨member, _, -, h⟩ := OperandReader.bind_eq_ok.mp h
  obtain ⟨owner, _, -, h⟩ := OperandReader.bind_eq_ok.mp h
  obtain ⟨descriptor, _, -, h⟩ := OperandReader.bind_eq_ok.mp h
  obtain ⟨owner', _, -, h⟩ := OperandReader.bind_eq_ok.mp h
  obtain ⟨name, _, -, h⟩ := OperandReader.bind_eq_ok.mp h
  cases h
  exact ⟨rfl, rfl, List.nodup_nil, by simp, [], ⟨rfl, rfl, rfl⟩, fun _ _ => .nil⟩

/-- A method is what its body says: its labels are the numbers of the label names in the order of
their first mention, each statement adds a line with the labels that it mentions, and every name in
it is valid.
-/
structure WellFormed (body : List Statement) (m : Method) : Prop where
  placedOnce : m.LabelsOnce
  numbered : ∃ lines, Assembled lines m
    ∧ List.Forall₂ (fun s (line : Line) => line.Numbered (number (labelNames body)) s) body lines
  labels : ∀ l, l ∈ m.labels ↔ l.index < (labelNames body).length
  parameters : m.parameterNames.length = m.descriptor.parameters.length
  names : ∀ name ∈ m.names, name.IsValid

theorem Draft.BuiltFrom.wellFormed {draft : Draft} (h : draft.BuiltFrom body)
    : WellFormed body draft.method := by
  obtain ⟨lines, hassembled, hnumbered⟩ := h.lines
  have hlines := hnumbered _ List.prefix_rfl
  rw [h.names] at hlines
  refine ⟨?_, ⟨lines, hassembled, hlines⟩, fun l => ?_, h.parameters,
    fun name _ => name.isValid⟩
  · unfold Method.LabelsOnce
    rw [← h.placed]
    exact h.once
  · rw [hassembled.mem_labels, mem_labels_of_numbered hlines]
    exact exists_number_iff _ l

-- Listings

/-- The lines of a method without blank ones: a header, the statements of the body, and the end. -/
structure MethodText where
  header : List Token
  body : List Statement

def MethodText.opening (header : List Token) (body : List Statement) : List (List Token) :=
  (.word "method" :: header) :: body.map fun s => .word s.head :: s.operands

def MethodText.lines (text : MethodText) : List (List Token) :=
  opening text.header text.body ++ [[Token.word "end"]]

/-- No statement of a body starts or ends a method. -/
def IsBody (body : List Statement) : Prop :=
  ∀ s ∈ body, s.head ≠ "method" ∧ s.head ≠ "end"

/-- The lines that were read are those of the methods, and then those of the open method. -/
def Progress.ReadFrom (lines : List (List Token)) (progress : Progress) : Prop :=
  ∃ texts : List MethodText, List.Forall₂ (fun t m => WellFormed t.body m) texts progress.methods
    ∧ (∀ t ∈ texts, IsBody t.body)
    ∧ match progress.current with
      | none => lines.filter (· ≠ []) = texts.flatMap MethodText.lines
      | some draft => ∃ header body, draft.BuiltFrom body ∧ IsBody body
          ∧ lines.filter (· ≠ [])
            = texts.flatMap MethodText.lines ++ MethodText.opening header body

variable {progress next : Progress}

/-- A line is blank, starts a method, ends one, or adds to the open one. -/
theorem readTokens_cases {tokens : List Token} (h : readTokens progress tokens = .ok next)
    : (tokens = [] ∧ next = progress)
      ∨ (∃ operands draft rest, tokens = .word "method" :: operands ∧ progress.current = none
          ∧ Draft.header operands = .ok (draft, rest)
          ∧ next = { progress with current := some draft })
      ∨ (∃ draft, tokens = [.word "end"] ∧ progress.current = some draft
          ∧ next = { methods := progress.methods ++ [draft.method], current := none })
      ∨ ∃ head operands draft draft', tokens = .word head :: operands
          ∧ (head ≠ "method" ∧ head ≠ "end") ∧ progress.current = some draft
          ∧ draft.readLine head operands = .ok draft'
          ∧ next = { progress with current := some draft' } := by
  unfold readTokens at h
  split at h
  next =>
    cases h
    exact .inl ⟨rfl, rfl⟩
  next => cases h
  next head operands =>
    split at h
    next hmethod =>
      split at h
      next => cases h
      next hclosed =>
        split at h
        next => cases h
        next draft rest hheader =>
          cases h
          exact .inr (.inl ⟨operands, draft, rest, by rw [hmethod], hclosed, hheader, rfl⟩)
    next hmethod =>
      split at h
      next hend =>
        split at h
        next => cases h
        next => cases h
        next draft hfinish hopen =>
          cases h
          have hoperands := OperandReader.finish_eq_ok hfinish
          exact .inr (.inr (.inl ⟨draft, by rw [hend, hoperands], hopen, rfl⟩))
      next hend =>
        split at h
        next => cases h
        next draft hopen =>
          split at h
          next => cases h
          next draft' hline =>
            cases h
            exact .inr (.inr (.inr
              ⟨head, operands, draft, draft', rfl, ⟨hmethod, hend⟩, hopen, hline, rfl⟩))

theorem Progress.ReadFrom.readTokens {lines : List (List Token)} (h : progress.ReadFrom lines)
    {tokens : List Token} (hread : readTokens progress tokens = .ok next)
    : next.ReadFrom (lines ++ [tokens]) := by
  obtain ⟨texts, hmethods, hbodies, hlines⟩ := h
  obtain ⟨rfl, rfl⟩ | ⟨header, draft, _, rfl, hclosed, hheader, rfl⟩ | ⟨draft, rfl, hopen, rfl⟩
    | ⟨head, operands, draft, draft', rfl, hhead, hopen, hline, rfl⟩ := readTokens_cases hread
  · exact ⟨texts, hmethods, hbodies, by simpa using hlines⟩
  · simp only [hclosed] at hlines
    refine ⟨texts, hmethods, hbodies, header, [], builtFrom_header hheader, by simp [IsBody], ?_⟩
    rw [List.filter_append, hlines]
    rfl
  · simp only [hopen] at hlines
    obtain ⟨header, body, hbuilt, hbody, hlines⟩ := hlines
    refine ⟨texts ++ [⟨header, body⟩], ?_, ?_, ?_⟩
    · exact List.rel_append hmethods (.cons hbuilt.wellFormed .nil)
    · simpa [or_imp, forall_and] using ⟨hbodies, hbody⟩
    · rw [List.filter_append, hlines]
      simp [MethodText.lines]
  · simp only [hopen] at hlines
    obtain ⟨header, body, hbuilt, hbody, hlines⟩ := hlines
    refine ⟨texts, hmethods, hbodies, header, body ++ [⟨head, operands⟩], hbuilt.readLine hline,
      ?_, ?_⟩
    · intro s hs
      obtain hs | hs := List.mem_append.mp hs
      · exact hbody s hs
      · exact List.mem_singleton.mp hs ▸ hhead
    · rw [List.filter_append, hlines]
      simp [MethodText.opening]

theorem readFrom_readLines {lines : List (List Token)} {before : Nat} {texts : List (List Char)}
    (h : progress.ReadFrom lines) (hread : readLines before progress texts = .ok next)
    : ∃ more, texts.mapM tokenize = .ok more ∧ next.ReadFrom (lines ++ more) := by
  induction texts generalizing lines progress before with
  | nil =>
      cases hread
      exact ⟨[], rfl, by rwa [List.append_nil]⟩
  | cons text texts ih =>
      rw [readLines] at hread
      split at hread
      next => cases hread
      next found =>
        unfold readLine at found
        split at found
        next => cases found
        next tokens htokens =>
          obtain ⟨more, hmore, hnext⟩ := ih (h.readTokens found) hread
          refine ⟨tokens :: more, ?_, by simpa using hnext⟩
          rw [List.mapM_cons, htokens, hmore]
          rfl

/-- The lines of an accepted listing are those of its methods, and each method is well formed. -/
theorem accepted_listings_are_well_formed {source : String} {methods : List Method}
    (h : read source = .ok methods)
    : ∃ lines texts, (Text.lines source).mapM tokenize = .ok lines
        ∧ lines.filter (· ≠ []) = texts.flatMap MethodText.lines
        ∧ (∀ t ∈ texts, IsBody t.body)
        ∧ List.Forall₂ (fun t m => WellFormed t.body m) texts methods := by
  have hstart : Progress.start.ReadFrom [] := ⟨[], .nil, by simp, rfl⟩
  obtain ⟨lines, htokens, texts, hmethods, hbodies, hlines⟩ :=
    readFrom_readLines hstart (read_eq_ok.mp h)
  exact ⟨lines, texts, htokens, hlines, hbodies, hmethods⟩

/-- A switch with two equal keys out of order, and labels that are mentioned before their place. -/
def switchListing : String :=
  "method static a/B.f(I)V\nparams n\ntry b c d a/E\n\nb:\niload 0\nlookupswitch c 2:d 1:b 2:c\n"
    ++ "c:\nreturn\nd:\nframe full int | a/E\npop\nreturn\nend\n"

theorem switch_listing_is_well_formed
    : ∃ methods, read switchListing = .ok methods
      ∧ ∃ lines texts, (Text.lines switchListing).mapM tokenize = .ok lines
        ∧ lines.filter (· ≠ []) = texts.flatMap MethodText.lines
        ∧ (∀ t ∈ texts, IsBody t.body)
        ∧ List.Forall₂ (fun t m => WellFormed t.body m) texts methods := by
  obtain ⟨methods, hread⟩ : ∃ methods, read switchListing = .ok methods := by decide +kernel
  exact ⟨methods, hread, accepted_listings_are_well_formed hread⟩

end Listing

end StackLift
