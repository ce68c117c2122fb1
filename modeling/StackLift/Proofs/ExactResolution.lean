import StackLift.Proofs.Control
import StackLift.Proofs.ResolvedFlow

/-!
Taking the markers out of a code is exact. It succeeds if every jump has an instruction to lead to
and every bound of a protected range is placed, and then instructions, lines, labels and protected
ranges are those of the code with its markers.
-/

namespace StackLift

-- Placements and lines

/-- The last placement of a label, with the code before and after it. -/
structure LastPlacement (code : List Inst) (l : CodeLabel) (before after : List Inst) : Prop where
  split : code = before ++ .label l :: after
  last : .label l ∉ after

/-- As many instructions that are no markers stand before the last placement of a label. -/
def HasPosition (code : List Inst) (l : CodeLabel) (place : Nat) : Prop :=
  ∃ before after, LastPlacement code l before after ∧ executed before = place

/-- The instruction is the first one after the last placement of a label that is no marker, and the
given number of them stand before it.
-/
def FirstAfter (code : List Inst) (l : CodeLabel) (i : Inst) (place : Nat) : Prop :=
  ∃ before markers rest, LastPlacement code l before (markers ++ i :: rest)
    ∧ (∀ k ∈ markers, k.isMarker = true) ∧ i.isMarker = false
    ∧ executed (before ++ .label l :: markers) = place

def Inst.lineNumber? : Inst → Option Nat
  | .line number _ => some number
  | _ => none

/-- The line of the last line mark in a code. -/
def lastLine? (code : List Inst) : Option Nat :=
  (code.filterMap Inst.lineNumber?).getLast?

variable {code : List Inst}

theorem exists_lastPlacement {l : CodeLabel} (h : .label l ∈ code)
    : ∃ before after, LastPlacement code l before after := by
  induction code with
  | nil => cases h
  | cons i rest ih =>
      by_cases hrest : .label l ∈ rest
      · obtain ⟨before, after, hsplit, hlast⟩ := ih hrest
        exact ⟨i :: before, after, by rw [hsplit, List.cons_append], hlast⟩
      · obtain rfl : .label l = i := (List.mem_cons.mp h).resolve_right hrest
        exact ⟨[], rest, rfl, hrest⟩

variable {q : Nat}

theorem HasPosition.le_executed {l : CodeLabel} (h : HasPosition code l q)
    : q ≤ executed code := by
  obtain ⟨before, after, hlast, rfl⟩ := h
  rw [hlast.split, executed_append]
  exact Nat.le_add_right ..

theorem lastLine?_cons (i : Inst) (code : List Inst)
    : lastLine? (i :: code) = (lastLine? code).or i.lineNumber? := by
  rw [lastLine?, lastLine?, List.filterMap_cons]
  cases i.lineNumber? with
  | none => simp
  | some number =>
      cases h : (code.filterMap Inst.lineNumber?).getLast? <;> simp [List.getLast?_cons, h]

theorem executed_eq_zero_iff
    : executed code = 0 ↔ ∀ i ∈ code, i.isMarker = true := by
  simp [executed]

/-- The first instruction of a code that is no marker. -/
theorem exists_first (h : ∃ i ∈ code, i.isMarker = false)
    : ∃ markers i rest, code = markers ++ i :: rest ∧ (∀ k ∈ markers, k.isMarker = true)
        ∧ i.isMarker = false := by
  induction code with
  | nil => simp at h
  | cons j code ih =>
      cases hj : j.isMarker with
      | false => exact ⟨[], j, code, rfl, by simp, hj⟩
      | true =>
          have hcode : ∃ i ∈ code, i.isMarker = false := by simpa [hj] using h
          obtain ⟨markers, i, rest, rfl, hmarkers, hi⟩ := ih hcode
          exact ⟨j :: markers, i, rest, rfl, List.forall_mem_cons.mpr ⟨hj, hmarkers⟩, hi⟩

namespace ResolvedCode

variable {code : List Inst} {l : CodeLabel} {r : ResolvedCode}

theorem label_mem_of_mem_places {place q : Nat} (h : (l, q) ∈ places place code)
    : .label l ∈ code := by
  fun_induction places with
  | case1 => cases h
  | case2 place l' rest ih =>
      rcases List.mem_cons.mp h with heq | h
      · cases heq
        exact List.mem_cons_self
      · exact List.mem_cons_of_mem _ (ih h)
  | case3 place number start rest ih => exact List.mem_cons_of_mem _ (ih h)
  | case4 place i rest _ _ ih => exact List.mem_cons_of_mem _ (ih h)

theorem lookup_places_eq_none (place : Nat) (h : .label l ∉ code)
    : (places place code).reverse.lookup l = none := by
  rw [List.lookup_eq_none_iff]
  intro entry hentry
  have hne : l ≠ entry.1 := by
    rintro rfl
    exact h (label_mem_of_mem_places (List.mem_reverse.mp hentry))
  simpa using hne

variable {before after : List Inst}

theorem position_of_lastPlacement (h : LastPlacement code l before after)
    : position (places 0 code).reverse l = .ok (executed before) := by
  have hlookup : (places 0 code).reverse.lookup l = some (executed before) := by
    rw [h.split, places_append, places, List.reverse_append, List.reverse_cons, List.append_assoc,
      List.lookup_append, lookup_places_eq_none _ h.last]
    simp
  rw [position, hlookup]

/-- The last placement of a label gives its position. -/
theorem position_eq_ok_iff
    : position (places 0 code).reverse l = .ok q ↔ HasPosition code l q := by
  constructor
  · intro h
    by_cases hplaced : .label l ∈ code
    · obtain ⟨before, after, hlast⟩ := exists_lastPlacement hplaced
      rw [position_of_lastPlacement hlast] at h
      exact ⟨before, after, hlast, Except.ok.inj h⟩
    · rw [position, lookup_places_eq_none 0 hplaced] at h
      cases h
  · rintro ⟨before, after, hlast, rfl⟩
    exact position_of_lastPlacement hlast

theorem exists_position_iff
    : (∃ q, position (places 0 code).reverse l = .ok q) ↔ .label l ∈ code := by
  simp only [position_eq_ok_iff, HasPosition]
  constructor
  · rintro ⟨q, before, after, hlast, -⟩
    simp [hlast.split]
  · intro h
    obtain ⟨before, after, hlast⟩ := exists_lastPlacement h
    exact ⟨_, before, after, hlast, rfl⟩

/-- A label has a target if an instruction that is no marker stands after its last placement. -/
theorem exists_firstAfter_iff
    : (HasPosition code l q ∧ q < executed code) ↔ ∃ i, FirstAfter code l i q := by
  have hlabel : ∀ after : List Inst, executed (.label l :: after) = executed after := fun _ => rfl
  constructor
  · rintro ⟨⟨before, after, hlast, rfl⟩, hlt⟩
    rw [hlast.split, executed_append, hlabel] at hlt
    have hafter : ∃ i ∈ after, i.isMarker = false := by
      by_contra hnone
      have hzero : executed after = 0 := executed_eq_zero_iff.mpr (by simpa using hnone)
      omega
    obtain ⟨markers, i, rest, rfl, hmarkers, hi⟩ := exists_first hafter
    refine ⟨i, before, markers, rest, hlast, hmarkers, hi, ?_⟩
    rw [executed_append, hlabel, executed_eq_zero_iff.mpr hmarkers, Nat.add_zero]
  · rintro ⟨i, before, markers, rest, hlast, hmarkers, hi, rfl⟩
    rw [executed_append, hlabel, executed_eq_zero_iff.mpr hmarkers, Nat.add_zero]
    refine ⟨⟨before, _, hlast, rfl⟩, ?_⟩
    have hone : executed (i :: rest) = executed rest + 1 := by simp [executed, hi]
    rw [hlast.split, executed_append, hlabel, executed_append, hone]
    omega

-- Instructions and lines

theorem length_linesAfter (line : Option Nat) (code : List Inst)
    : (linesAfter line code).length = executed code := by
  induction code generalizing line with
  | nil => rfl
  | cons i rest ih => cases i <;> simp [linesAfter, ih, executed, Inst.isMarker]

theorem linesAfter_append (line : Option Nat) (code other : List Inst)
    : linesAfter line (code ++ other)
      = linesAfter line code ++ linesAfter ((lastLine? code).or line) other := by
  induction code generalizing line with
  | nil => rfl
  | cons i rest ih =>
      rw [lastLine?_cons, Option.or_assoc]
      cases i <;> simp [linesAfter, ih, Inst.lineNumber?]

variable {i : Inst}

/-- The line of an instruction is that of the last line mark before it. -/
theorem getElem?_linesAfter (hi : i.isMarker = false)
    : (linesAfter none (before ++ i :: after))[executed before]? = some (lastLine? before) := by
  rw [linesAfter_append, List.getElem?_append_right (Nat.le_of_eq (length_linesAfter ..)),
    length_linesAfter, Nat.sub_self, Option.or_none]
  cases i <;> first | rfl | cases hi

theorem getElem?_filter (hi : i.isMarker = false)
    : ((before ++ i :: after).filter fun i => !i.isMarker)[executed before]? = some i := by
  simp [executed, hi]

-- Resolving

/-- What a code needs to be resolved: after the last placement of every label that is named by a
jump stands an instruction that is no marker, and the bounds of protected ranges are placed.
-/
structure Resolvable (code : List Inst) : Prop where
  jumps : ∀ i ∈ code, ∀ l ∈ i.control.targets,
    ∃ before after, LastPlacement code l before after ∧ ∃ k ∈ after, k.isMarker = false
  bounds : ∀ x handler entries, .catches x handler entries ∈ code → ∀ e ∈ entries,
    .label e.start ∈ code ∧ .label e.stop ∈ code

/-- The code without its markers. An instruction has as its place the number of the others before
it, and its line is that of the last line mark before it. A handler protects what lies between the
positions of the bounds of its entries, without repeats and without itself.
-/
structure IsResolved (code : List Inst) (r : ResolvedCode) : Prop where
  insts : r.insts.toList = code.filter fun i => !i.isMarker
  located : ∀ {before i after}, code = before ++ i :: after → i.isMarker = false →
    r.inst? (executed before) = some i ∧ r.line? (executed before) = lastLine? before
  targets : ∀ {l q}, r.labelTarget l = .ok q
    ↔ ∃ i, FirstAfter code l i q ∧ r.inst? q = some i
  covered : ∀ {place x handler entries}, r.inst? place = some (.catches x handler entries) →
    (r.protectedBy place).Nodup ∧ ∀ q, q ∈ r.protectedBy place ↔ q < r.size ∧ q ≠ place
      ∧ ∃ e ∈ entries, ∃ start stop, HasPosition code e.start start ∧ HasPosition code e.stop stop
        ∧ start ≤ q ∧ q < stop
  others : ∀ {place}, (r.inst? place).any Inst.isCatch = false → r.protectedBy place = []

theorem lines_of_ofCode (h : ofCode code = .ok r)
    : r.lines = (linesAfter none code).toArray := by
  obtain ⟨_, -, h⟩ := except_bind_eq_ok.mp h
  obtain ⟨_, -, h⟩ := except_bind_eq_ok.mp h
  cases h
  rfl

theorem size_covered_of_ofCode (h : ofCode code = .ok r)
    : r.covered.size = r.size := by
  obtain ⟨_, -, h⟩ := except_bind_eq_ok.mp h
  obtain ⟨covered, hcovered, h⟩ := except_bind_eq_ok.mp h
  cases h
  have hlength := (mapM_eq_ok.mp hcovered).length_eq
  simpa [size] using hlength.symm

theorem nodup_coveredBy {labels : List (CodeLabel × Nat)} {place : Nat} {covered : List Nat}
    (h : coveredBy labels place i = .ok covered)
    : covered.Nodup := by
  cases i with
  | catches x handler entries =>
      obtain ⟨ranges, -, h⟩ := except_bind_eq_ok.mp h
      cases h
      exact nodup_eraseDups _
  | _ =>
      cases h
      exact List.nodup_nil

/-- The bounds of the ranges that a handler protects have positions. -/
theorem exists_bounds_of_coveredBy {labels : List (CodeLabel × Nat)} {x : Value}
    {handler : CodeLabel} {entries : List CatchEntry} {place : Nat} {covered : List Nat}
    (h : coveredBy labels place (.catches x handler entries) = .ok covered) {e : CatchEntry}
    (he : e ∈ entries)
    : (∃ q, position labels e.start = .ok q) ∧ ∃ q, position labels e.stop = .ok q := by
  obtain ⟨ranges, hranges, -⟩ := except_bind_eq_ok.mp h
  obtain ⟨_, -, he⟩ := (mem_of_mapM hranges).1 e he
  obtain ⟨start, hstart, he⟩ := except_bind_eq_ok.mp he
  obtain ⟨stop, hstop, -⟩ := except_bind_eq_ok.mp he
  exact ⟨⟨start, hstart⟩, stop, hstop⟩

section

variable (resolves : Resolves code r)
include resolves

theorem Resolves.size_eq
    : r.size = executed code := by
  rw [size, resolves.insts]
  rfl

theorem Resolves.position_eq_ok_iff
    : position r.labels l = .ok q ↔ HasPosition code l q := by
  rw [resolves.labels, ResolvedCode.position_eq_ok_iff]

theorem Resolves.labelTarget_eq_ok_iff
    : r.labelTarget l = .ok q ↔ ∃ i, FirstAfter code l i q := by
  rw [labelTarget, target_eq_ok, resolves.position_eq_ok_iff, resolves.size_eq,
    exists_firstAfter_iff]

theorem Resolves.inst?_eq (hsplit : code = before ++ i :: after) (hi : i.isMarker = false)
    : r.inst? (executed before) = some i := by
  rw [inst?, resolves.insts, List.getElem?_toArray, hsplit, getElem?_filter hi]

theorem Resolves.inst?_of_firstAfter (h : FirstAfter code l i q)
    : r.inst? q = some i := by
  obtain ⟨before, markers, rest, hlast, -, hi, rfl⟩ := h
  have hsplit : code = (before ++ .label l :: markers) ++ i :: rest := by simp [hlast.split]
  exact resolves.inst?_eq hsplit hi

end

theorem resolvable_of_ofCode (h : ofCode code = .ok r)
    : Resolvable code := by
  have resolves := resolves_ofCode h
  constructor
  · intro i hi l hl
    obtain ⟨q, hq⟩ := resolves.jumps i hi l (i.targets_control ▸ hl)
    obtain ⟨k, before, markers, rest, hlast, -, hk, -⟩ := resolves.labelTarget_eq_ok_iff.mp hq
    exact ⟨before, _, hlast, k, by simp, hk⟩
  · intro x handler entries hmem e he
    obtain ⟨before, after, hsplit⟩ := List.mem_iff_append.mp hmem
    have hcovered := resolves.covered (resolves.inst?_eq hsplit rfl)
    simpa only [resolves.labels, exists_position_iff] using exists_bounds_of_coveredBy hcovered he

theorem exists_ofCode_of_resolvable (h : Resolvable code)
    : ∃ r, ofCode code = .ok r := by
  refine exists_ofCode (fun i hi l hl => ?_) fun x handler entries hmem e he l hl => ?_
  · obtain ⟨before, after, hlast, k, hk, hexecutes⟩ := h.jumps i hi l (i.targets_control ▸ hl)
    refine ⟨_, position_of_lastPlacement hlast, ?_⟩
    have hpos : executed after ≠ 0 := fun hzero => by
      rw [executed_eq_zero_iff.mp hzero k hk] at hexecutes
      cases hexecutes
    have hlabel : executed (.label l :: after) = executed after := rfl
    rw [hlast.split, executed_append, hlabel]
    omega
  · rw [exists_position_iff]
    obtain ⟨hstart, hstop⟩ := h.bounds x handler entries hmem e he
    rcases List.mem_pair.mp hl with rfl | rfl
    · exact hstart
    · exact hstop

theorem isResolved_of_ofCode (h : ofCode code = .ok r)
    : IsResolved code r := by
  have resolves := resolves_ofCode h
  constructor
  · rw [resolves.insts]
  · intro before i after hsplit hi
    refine ⟨resolves.inst?_eq hsplit hi, ?_⟩
    rw [line?, lines_of_ofCode h, List.getElem?_toArray, hsplit, getElem?_linesAfter hi]
    rfl
  · intro l q
    rw [resolves.labelTarget_eq_ok_iff]
    constructor
    · rintro ⟨i, hi⟩
      exact ⟨i, hi, resolves.inst?_of_firstAfter hi⟩
    · rintro ⟨i, hi, -⟩
      exact ⟨i, hi⟩
  · intro place x handler entries hinst
    have hcovered := resolves.covered hinst
    refine ⟨nodup_coveredBy hcovered, fun q => ?_⟩
    rw [mem_coveredBy hcovered]
    simp only [Inst.catches.injEq, resolves.position_eq_ok_iff]
    constructor
    · rintro ⟨hne, _, _, _, ⟨rfl, rfl, rfl⟩, e, he, start, stop, hstart, hstop, hle, hlt⟩
      refine ⟨?_, hne, e, he, start, stop, hstart, hstop, hle, hlt⟩
      rw [resolves.size_eq]
      exact Nat.lt_of_lt_of_le hlt hstop.le_executed
    · rintro ⟨-, hne, e, he, hrange⟩
      exact ⟨hne, x, handler, entries, ⟨rfl, rfl, rfl⟩, e, he, hrange⟩
  · intro place hother
    cases hinst : r.inst? place with
    | none =>
        have hsize : r.covered.size ≤ place := by
          rw [size_covered_of_ofCode h]
          exact Array.getElem?_eq_none_iff.mp hinst
        rw [protectedBy, Array.getD_eq_getD_getElem?, Array.getElem?_eq_none hsize]
        rfl
    | some i =>
        have hcovered := resolves.covered hinst
        rw [hinst, Option.any_some] at hother
        cases i with
        | catches x handler entries => cases hother
        | _ => exact (Except.ok.inj hcovered).symm

/-- Taking the markers out of a code succeeds exactly if every jump leads to an instruction and all
bounds of protected ranges are placed, and it keeps instructions, lines, labels and ranges.
-/
theorem resolving_is_exact (code : List Inst)
    : ((∃ r, ofCode code = .ok r) ↔ Resolvable code)
      ∧ ∀ r, ofCode code = .ok r → IsResolved code r := by
  refine ⟨⟨?_, exists_ofCode_of_resolvable⟩, fun r => isResolved_of_ofCode⟩
  rintro ⟨r, hr⟩
  exact resolvable_of_ofCode hr

/-- A loop whose label is placed twice. The handler lies in two of its own ranges, and the third one
ends before it starts.
-/
def relabelledLoop : List Inst :=
  let touch := .enterMonitor (.register (.fresh 0 .object))
  [.label ⟨0⟩, touch, .line 7 ⟨0⟩, .label ⟨0⟩, touch, .label ⟨1⟩,
    .catches (.register (.fresh 1 .throwable)) ⟨1⟩
      [⟨.throwable, ⟨0⟩, ⟨2⟩⟩, ⟨.throwable, ⟨2⟩, ⟨1⟩⟩, ⟨.throwable, ⟨1⟩, ⟨2⟩⟩],
    .jump ⟨0⟩, .label ⟨2⟩]

/-- The jump leads to the last placement of the label, and the handler does not protect itself. -/
theorem resolving_of_relabelled_loop
    : Resolvable relabelledLoop ∧ ∃ r, ofCode relabelledLoop = .ok r ∧ IsResolved relabelledLoop r
        ∧ r.jumpTargets 3 = [1] ∧ r.protectedBy 2 = [1, 3]
        ∧ r.lines.toList = [none, some 7, some 7, some 7] := by
  obtain ⟨r, accepted, hparts⟩ : ∃ r, ofCode relabelledLoop = .ok r
      ∧ r.jumpTargets 3 = [1] ∧ r.protectedBy 2 = [1, 3]
      ∧ r.lines.toList = [none, some 7, some 7, some 7] := by decide +kernel
  obtain ⟨hresolvable, hresolved⟩ := resolving_is_exact relabelledLoop
  exact ⟨hresolvable.mp ⟨r, accepted⟩, r, accepted, hresolved r accepted, hparts⟩

end ResolvedCode

end StackLift
