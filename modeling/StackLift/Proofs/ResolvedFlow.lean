import Mathlib.Data.List.Forall2
import StackLift.Flow.Graph
import StackLift.Proofs.LiftLogic

/-!
Code without its markers and its flow graph: what resolving a code gives, and what the lists of the
graph hold.
-/

namespace StackLift

-- Lists of results

section

variable {α β ε : Type} {f : α → Except ε β} {l : List α} {r : List β}

theorem mem_of_forall₂ {R : α → β → Prop} (h : List.Forall₂ R l r)
    : (∀ a ∈ l, ∃ b ∈ r, R a b) ∧ ∀ b ∈ r, ∃ a ∈ l, R a b := by
  induction h with
  | nil => simp
  | @cons a b _ _ hab _ ih =>
      constructor
      · refine List.forall_mem_cons.mpr ⟨⟨b, by simp, hab⟩, fun a' ha' => ?_⟩
        obtain ⟨b', hb', h'⟩ := ih.1 a' ha'
        exact ⟨b', by simp [hb'], h'⟩
      · refine List.forall_mem_cons.mpr ⟨⟨a, by simp, hab⟩, fun b' hb' => ?_⟩
        obtain ⟨a', ha', h'⟩ := ih.2 b' hb'
        exact ⟨a', by simp [ha'], h'⟩

theorem mapM_eq_ok
    : l.mapM f = .ok r ↔ List.Forall₂ (fun a b => f a = .ok b) l r := by
  induction l generalizing r with
  | nil =>
      rw [List.mapM_nil]
      constructor
      · rintro ⟨⟩
        exact .nil
      · rintro ⟨⟩
        rfl
  | cons a rest ih =>
      rw [List.mapM_cons, except_bind_eq_ok, List.forall₂_cons_left_iff]
      constructor
      · rintro ⟨b, hb, h⟩
        obtain ⟨bs, hbs, h⟩ := except_bind_eq_ok.mp h
        exact ⟨b, bs, hb, ih.mp hbs, (Except.ok.inj h).symm⟩
      · rintro ⟨b, bs, hb, hbs, rfl⟩
        exact ⟨b, hb, except_bind_eq_ok.mpr ⟨bs, ih.mpr hbs, rfl⟩⟩

theorem getElem?_of_mapM (h : l.mapM f = .ok r) {i : Nat} {a : α} (ha : l[i]? = some a)
    : ∃ b, r[i]? = some b ∧ f a = .ok b := by
  obtain ⟨hlength, hget⟩ := List.forall₂_iff_get.mp (mapM_eq_ok.mp h)
  obtain ⟨hi, rfl⟩ := List.getElem?_eq_some_iff.mp ha
  exact ⟨_, List.getElem?_eq_getElem (hlength ▸ hi), hget i hi (hlength ▸ hi)⟩

theorem mem_of_mapM (h : l.mapM f = .ok r)
    : (∀ a ∈ l, ∃ b ∈ r, f a = .ok b) ∧ ∀ b ∈ r, ∃ a ∈ l, f a = .ok b :=
  mem_of_forall₂ (mapM_eq_ok.mp h)

theorem exists_mapM_eq_ok (h : ∀ a ∈ l, ∃ b, f a = .ok b)
    : ∃ r, l.mapM f = .ok r := by
  induction l with
  | nil => exact ⟨[], rfl⟩
  | cons a rest ih =>
      obtain ⟨b, hb⟩ := h a (by simp)
      obtain ⟨bs, hbs⟩ := ih fun a ha => h a (List.mem_cons_of_mem _ ha)
      exact ⟨b :: bs, mapM_eq_ok.mpr (.cons hb (mapM_eq_ok.mp hbs))⟩

end

-- Code without its markers

/-- The number of instructions that are no markers. -/
def executed (code : List Inst) : Nat :=
  (code.filter fun i => !i.isMarker).length

theorem executed_append (code other : List Inst)
    : executed (code ++ other) = executed code + executed other := by
  simp [executed]

namespace ResolvedCode

variable {code : List Inst} {c : CodeLabel} {r : ResolvedCode}

theorem places_append (place : Nat) (code other : List Inst)
    : places place (code ++ other) = places place code ++ places (place + executed code) other := by
  induction code generalizing place with
  | nil => rfl
  | cons i rest ih =>
      cases i <;> simp [places, ih, executed, Inst.isMarker, Nat.add_assoc, Nat.add_comm 1]

variable {labels : List (CodeLabel × Nat)}

theorem target_eq_ok {size q : Nat}
    : target labels size c = .ok q ↔ position labels c = .ok q ∧ q < size := by
  rw [target, except_bind_eq_ok]
  constructor
  · rintro ⟨place, hplace, h⟩
    split at h <;> cases h
    exact ⟨hplace, ‹_›⟩
  · rintro ⟨hplace, hq⟩
    exact ⟨q, hplace, if_pos hq⟩

theorem exists_coveredBy {i : Inst} (place : Nat)
    (bounds : ∀ x handler entries, i = .catches x handler entries → ∀ e ∈ entries,
      ∀ c ∈ [e.start, e.stop], ∃ q, position labels c = .ok q)
    : ∃ covered, coveredBy labels place i = .ok covered := by
  cases i with
  | catches x handler entries =>
      obtain ⟨ranges, hranges⟩ := exists_mapM_eq_ok (l := entries) (f := fun e => do
          let start ← position labels e.start
          let stop ← position labels e.stop
          return List.range' start (stop - start)) fun e he => by
        obtain ⟨start, hstart⟩ := bounds x handler entries rfl e he e.start (by simp)
        obtain ⟨stop, hstop⟩ := bounds x handler entries rfl e he e.stop (by simp)
        exact ⟨_, except_bind_eq_ok.mpr ⟨start, hstart, except_bind_eq_ok.mpr ⟨stop, hstop, rfl⟩⟩⟩
      exact ⟨_, except_bind_eq_ok.mpr ⟨ranges, hranges, rfl⟩⟩
  | _ => exact ⟨[], rfl⟩

/-- A handler protects what lies between the bounds of its entries, but not itself. -/
theorem mem_coveredBy {i : Inst} {place q : Nat} {covered : List Nat}
    (h : coveredBy labels place i = .ok covered)
    : q ∈ covered ↔ q ≠ place ∧ ∃ x handler entries, i = .catches x handler entries
        ∧ ∃ e ∈ entries, ∃ start stop, position labels e.start = .ok start
          ∧ position labels e.stop = .ok stop ∧ start ≤ q ∧ q < stop := by
  cases i with
  | catches x handler entries =>
      obtain ⟨ranges, hranges, h⟩ := except_bind_eq_ok.mp h
      cases h
      rw [List.mem_eraseDups, List.mem_filter, List.mem_flatten, decide_eq_true_iff, and_comm]
      refine and_congr_right fun _ => ⟨?_, ?_⟩
      · rintro ⟨range, hrange, hq⟩
        obtain ⟨e, he, h⟩ := (mem_of_mapM hranges).2 range hrange
        obtain ⟨start, hstart, h⟩ := except_bind_eq_ok.mp h
        obtain ⟨stop, hstop, h⟩ := except_bind_eq_ok.mp h
        cases h
        obtain ⟨hfrom, hto⟩ := List.mem_range'_1.mp hq
        exact ⟨x, handler, entries, rfl, e, he, start, stop, hstart, hstop, hfrom, by omega⟩
      · rintro ⟨_, _, _, ⟨⟩, e, he, start, stop, hstart, hstop, hfrom, hto⟩
        obtain ⟨range, hrange, h⟩ := (mem_of_mapM hranges).1 e he
        rw [hstart, hstop] at h
        cases h
        exact ⟨_, hrange, List.mem_range'_1.mpr ⟨hfrom, by omega⟩⟩
  | _ =>
      cases h
      simp

/-- What resolving a code gives. -/
structure Resolves (code : List Inst) (r : ResolvedCode) : Prop where
  insts : r.insts = (code.filter fun i => !i.isMarker).toArray
  labels : r.labels = (places 0 code).reverse
  jumps : ∀ i ∈ code, ∀ c ∈ i.targets, ∃ q, r.labelTarget c = .ok q
  covered : ∀ {q i}, r.inst? q = some i → coveredBy r.labels q i = .ok (r.protectedBy q)

theorem resolves_ofCode (h : ofCode code = .ok r)
    : Resolves code r := by
  obtain ⟨jumps, hjumps, h⟩ := except_bind_eq_ok.mp h
  obtain ⟨covered, hcovered, h⟩ := except_bind_eq_ok.mp h
  cases h
  refine ⟨rfl, rfl, fun i hi c hc => ?_, fun {q i} hq => ?_⟩
  · have hi : i ∈ code.filter fun i => !i.isMarker := by
      refine List.mem_filter.mpr ⟨hi, ?_⟩
      cases i <;> first | rfl | cases hc
    obtain ⟨_, -, hi⟩ := (mem_of_mapM hjumps).1 i hi
    obtain ⟨q, -, hq⟩ := (mem_of_mapM hi).1 c hc
    exact ⟨q, by simpa [labelTarget, size] using hq⟩
  · have hq : (code.filter fun i => !i.isMarker).zipIdx[q]? = some (i, q) := by
      simpa [inst?] using hq
    obtain ⟨places, hplaces, hq⟩ := getElem?_of_mapM hcovered hq
    simpa [protectedBy, hplaces] using hq

/-- Code is accepted if its jumps lead to instructions and the bounds of its protected ranges are
placed.
-/
theorem exists_ofCode
    (jumps : ∀ i ∈ code, ∀ c ∈ i.targets, ∃ q, position (places 0 code).reverse c = .ok q
      ∧ q < executed code)
    (bounds : ∀ x handler entries, .catches x handler entries ∈ code → ∀ e ∈ entries,
      ∀ c ∈ [e.start, e.stop], ∃ q, position (places 0 code).reverse c = .ok q)
    : ∃ r, ofCode code = .ok r := by
  obtain ⟨_, hjumps⟩ := exists_mapM_eq_ok (l := code.filter fun i => !i.isMarker)
    (f := fun i => i.targets.mapM (target (places 0 code).reverse (executed code))) fun i hi => by
      refine exists_mapM_eq_ok fun c hc => ?_
      obtain ⟨q, hq⟩ := jumps i (List.mem_filter.mp hi).1 c hc
      exact ⟨q, target_eq_ok.mpr hq⟩
  obtain ⟨_, hcovered⟩ := exists_mapM_eq_ok (l := (code.filter fun i => !i.isMarker).zipIdx)
    (f := fun e => coveredBy (places 0 code).reverse e.2 e.1) fun e he =>
      exists_coveredBy e.2 fun x handler entries heq => bounds x handler entries
        (heq ▸ (List.mem_filter.mp (List.fst_mem_of_mem_zipIdx he)).1)
  exact ⟨_, except_bind_eq_ok.mpr ⟨_, hjumps, except_bind_eq_ok.mpr ⟨_, hcovered, rfl⟩⟩⟩

/-- A place lies between the bounds of an entry of a handler. -/
def InRange (r : ResolvedCode) (e : CatchEntry) (i : Nat) : Prop :=
  ∃ start stop, position r.labels e.start = .ok start ∧ position r.labels e.stop = .ok stop
    ∧ start ≤ i ∧ i < stop

theorem inRange_iff {e : CatchEntry} {i start stop : Nat}
    (hstart : position r.labels e.start = .ok start) (hstop : position r.labels e.stop = .ok stop)
    : r.InRange e i ↔ start ≤ i ∧ i < stop := by
  simp [InRange, hstart, hstop]

/-- The handler at a place covers an instruction: that lies in the range of one of its entries. A
handler does not cover itself.
-/
def Covers (r : ResolvedCode) (handler i : Nat) : Prop :=
  i ≠ handler ∧ ∃ x label entries, r.inst? handler = some (.catches x label entries)
    ∧ ∃ e ∈ entries, r.InRange e i

theorem Covers.lt_size {handler i : Nat} (h : r.Covers handler i)
    : handler < r.size := by
  obtain ⟨-, x, label, entries, hinst, -⟩ := h
  exact (Array.getElem?_eq_some_iff.mp hinst).1

theorem Resolves.mem_protectedBy (h : Resolves code r) {handler i : Nat} (hsize : handler < r.size)
    : i ∈ r.protectedBy handler ↔ r.Covers handler i := by
  obtain ⟨inst, hinst⟩ : ∃ inst, r.inst? handler = some inst := ⟨_, Array.getElem?_eq_getElem hsize⟩
  rw [mem_coveredBy (h.covered hinst), Covers, hinst]
  simp only [Option.some.injEq, InRange]

theorem mem_jumpTargets {i j : Nat} {inst : Inst} (h : r.inst? i = some inst)
    : j ∈ r.jumpTargets i ↔ ∃ c ∈ inst.targets, r.labelTarget c = .ok j := by
  have htarget : ∀ c, (r.labelTarget c).toOption = some j ↔ r.labelTarget c = .ok j := by
    intro c
    cases r.labelTarget c <;> simp [Except.toOption]
  simp [jumpTargets, h, htarget]

end ResolvedCode

-- Flow graphs

namespace FlowGraph

variable {r : ResolvedCode} {h : Hierarchy} {i c : Nat}

theorem successors_eq (r : ResolvedCode) (h : Hierarchy) (i : Nat)
    : (ofResolved r h).successors i = flow r i := by
  by_cases hi : i < r.size
  · simp [successors, ofResolved, ResolvedCode.indices, hi]
  · have hnone : r.inst? i = none := Array.getElem?_eq_none (Nat.le_of_not_lt hi)
    simp [successors, ofResolved, ResolvedCode.indices, hi, flow, hnone]

theorem mem_predecessors {j : Nat}
    : j ∈ (ofResolved r h).predecessors i
      ↔ i < r.size ∧ j < r.size ∧ i ∈ (ofResolved r h).successors j := by
  by_cases hi : i < r.size
  · simp [predecessors, successors, ofResolved, ResolvedCode.indices, hi]
  · simp [predecessors, ofResolved, ResolvedCode.indices, hi]

theorem mem_catchers
    : c ∈ (ofResolved r h).catchers i ↔ i < r.size ∧ c < r.size ∧ i ∈ r.protectedBy c := by
  by_cases hi : i < r.size <;> simp [catchers, ofResolved, ResolvedCode.indices, hi]

/-- The catchers of an instruction are the handlers that cover it. -/
theorem mem_catchers_iff_covers {code : List Inst} (resolves : ResolvedCode.Resolves code r)
    (hi : i < r.size)
    : c ∈ (ofResolved r h).catchers i ↔ r.Covers c i := by
  rw [mem_catchers, and_iff_right hi]
  constructor
  · intro ⟨hc, hcovered⟩
    exact (resolves.mem_protectedBy hc).mp hcovered
  · intro covers
    exact ⟨covers.lt_size, (resolves.mem_protectedBy covers.lt_size).mpr covers⟩

end FlowGraph

end StackLift
