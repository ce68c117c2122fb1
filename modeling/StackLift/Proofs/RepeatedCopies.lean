import Mathlib.Data.List.Induction
import StackLift.Proofs.Substitutions

/-!
Which copies are dropped as repeated, and where the instructions that are left stand. A copy is
repeated if the same copy was made since the last label and none of its sides was assigned since.
-/

namespace StackLift

-- Places of the instructions that are left

namespace RepeatedCopies

variable {code : List Inst} {i : Inst} {place : Nat}

/-- The places of a code whose instructions are kept. -/
def keptPlaces (code : List Inst) : List Nat :=
  (List.range code.length).filter fun place =>
    !code[place]?.any (isRepeated (knownBefore (code.take place)))

/-- The place of an instruction after the repeated copies in front of it are dropped. -/
def newPlace (code : List Inst) (place : Nat) : Nat :=
  (dropRepeatedCopies (code.take place)).length

theorem drop_concat (known : Known) (before : List Inst) (i : Inst)
    : drop known (before ++ [i])
      = drop known before ++ if isRepeated (before.foldl after known) i then [] else [i] := by
  induction before generalizing known with
  | nil => rfl
  | cons j before ih =>
      simp only [List.cons_append, drop, List.foldl_cons, ih]
      split <;> rfl

theorem dropRepeatedCopies_concat (before : List Inst) (i : Inst)
    : dropRepeatedCopies (before ++ [i])
      = dropRepeatedCopies before ++ if isRepeated (knownBefore before) i then [] else [i] :=
  drop_concat [] before i

theorem take_succ_eq_concat (h : code[place]? = some i)
    : code.take (place + 1) = code.take place ++ [i] := by
  rw [List.take_add_one, h, Option.toList_some]

theorem knownBefore_succ (hi : code[place]? = some i)
    : knownBefore (code.take (place + 1)) = after (knownBefore (code.take place)) i := by
  rw [take_succ_eq_concat hi, knownBefore_concat]

theorem keptPlaces_concat (before : List Inst) (i : Inst)
    : keptPlaces (before ++ [i])
      = keptPlaces before ++ if isRepeated (knownBefore before) i then [] else [before.length] := by
  have hlast : (before ++ [i])[before.length]? = some i := by simp
  rw [keptPlaces, List.length_append, List.length_singleton, List.range_succ, List.filter_append]
  congr 1
  -- What is known in front of a place depends on the code before it only.
  · refine List.filter_congr fun place hp => ?_
    have hlt := List.mem_range.mp hp
    rw [List.getElem?_append_left hlt, List.take_append_of_le_length hlt.le]
  · cases hr : isRepeated (knownBefore before) i <;> simp [hr]

theorem mem_keptPlaces
    : place ∈ keptPlaces code
      ↔ ∃ i, code[place]? = some i ∧ isRepeated (knownBefore (code.take place)) i = false := by
  rw [keptPlaces, List.mem_filter, List.mem_range]
  constructor
  · rintro ⟨hlt, hr⟩
    have hi := List.getElem?_eq_getElem hlt
    exact ⟨_, hi, by simpa [hi] using hr⟩
  · rintro ⟨i, hi, hr⟩
    exact ⟨(List.getElem?_eq_some_iff.mp hi).1, by simp [hi, hr]⟩

theorem isRepeated_of_not_mem (hlt : place < code.length) (h : place ∉ keptPlaces code)
    : ∃ i, code[place]? = some i ∧ isRepeated (knownBefore (code.take place)) i := by
  have hi := List.getElem?_eq_getElem hlt
  refine ⟨_, hi, ?_⟩
  by_contra hr
  exact h (mem_keptPlaces.mpr ⟨_, hi, by simpa using hr⟩)

theorem pairwise_keptPlaces (code : List Inst)
    : (keptPlaces code).Pairwise (· < ·) :=
  List.pairwise_lt_range.filter _

/-- The instructions at the kept places are those that are left. -/
theorem map_keptPlaces (code : List Inst)
    : (keptPlaces code).map (code[·]?) = (dropRepeatedCopies code).map some := by
  induction code using List.reverseRecOn with
  | nil => rfl
  | append_singleton before i ih =>
      have hbefore : (keptPlaces before).map ((before ++ [i])[·]?)
          = (keptPlaces before).map (before[·]?) := by
        refine List.map_congr_left fun place hp => ?_
        obtain ⟨_, hi, -⟩ := mem_keptPlaces.mp hp
        exact List.getElem?_append_left (List.getElem?_eq_some_iff.mp hi).1
      rw [keptPlaces_concat, dropRepeatedCopies_concat, List.map_append, List.map_append, hbefore,
        ih]
      split <;> simp

theorem length_keptPlaces (code : List Inst)
    : (keptPlaces code).length = (dropRepeatedCopies code).length := by
  simpa using congrArg List.length (map_keptPlaces code)

theorem keptPlaces_prefix (before rest : List Inst)
    : keptPlaces before <+: keptPlaces (before ++ rest) := by
  induction rest using List.reverseRecOn with
  | nil => simp
  | append_singleton rest i ih =>
      rw [← List.append_assoc, keptPlaces_concat]
      exact ih.trans (List.prefix_append _ _)

theorem newPlace_succ_of_repeated (hi : code[place]? = some i)
    (hr : isRepeated (knownBefore (code.take place)) i)
    : newPlace code (place + 1) = newPlace code place := by
  rw [newPlace, take_succ_eq_concat hi, dropRepeatedCopies_concat, if_pos hr, List.append_nil,
    newPlace]

theorem newPlace_succ_of_kept (hi : code[place]? = some i)
    (hr : isRepeated (knownBefore (code.take place)) i = false)
    : newPlace code (place + 1) = newPlace code place + 1 := by
  rw [newPlace, take_succ_eq_concat hi, dropRepeatedCopies_concat, if_neg (by simp [hr]),
    List.length_append, List.length_singleton, newPlace]

theorem newPlace_of_length_le (h : code.length ≤ place)
    : newPlace code place = (dropRepeatedCopies code).length := by
  rw [newPlace, List.take_of_length_le h]

theorem keptPlaces_newPlace (hi : code[place]? = some i)
    (hr : isRepeated (knownBefore (code.take place)) i = false)
    : (keptPlaces code)[newPlace code place]? = some place := by
  have hlt := (List.getElem?_eq_some_iff.mp hi).1
  have hprefix := keptPlaces_prefix (code.take (place + 1)) (code.drop (place + 1))
  rw [List.take_append_drop, take_succ_eq_concat hi, keptPlaces_concat, if_neg (by simp [hr]),
    List.length_take_of_le hlt.le] at hprefix
  obtain ⟨rest, hrest⟩ := hprefix
  rw [← hrest, newPlace, ← length_keptPlaces]
  simp

/-- An instruction that is kept stands at its new place. -/
theorem getElem?_newPlace (hi : code[place]? = some i)
    (hr : isRepeated (knownBefore (code.take place)) i = false)
    : (dropRepeatedCopies code)[newPlace code place]? = some i := by
  have hmap := congrArg (·[newPlace code place]?) (map_keptPlaces code)
  simpa [List.getElem?_map, keptPlaces_newPlace hi hr, hi, eq_comm] using hmap

theorem newPlace_concat {before : List Inst} (h : place ≤ before.length) (i : Inst)
    : newPlace (before ++ [i]) place = newPlace before place := by
  rw [newPlace, List.take_append_of_le_length h, newPlace]

/-- Labels are kept, the first of each comes to its new place. -/
theorem idxOf?_label (code : List Inst) (l : CodeLabel)
    : (dropRepeatedCopies code).idxOf? (.label l)
      = (code.idxOf? (.label l)).map (newPlace code) := by
  induction code using List.reverseRecOn with
  | nil => rfl
  | append_singleton before i ih =>
      simp only [List.idxOf?] at ih ⊢
      rw [dropRepeatedCopies_concat, List.findIdx?_append, List.findIdx?_append, ih]
      cases hbefore : before.findIdx? (· == .label l) with
      | some place =>
          have hlt : place < before.length := (List.findIdx?_eq_some_iff_getElem.mp hbefore).1
          simp [newPlace_concat hlt.le]
      | none =>
          by_cases hi : i = .label l
          · subst hi
            simp [isRepeated, copy?, newPlace]
          · split <;> simp [hi]

end RepeatedCopies

-- Which copies are repeated

/-- Between two places there is no label and no assignment to one of the values. -/
def Undisturbed (code : List Inst) (first place : Nat) (target source : Value) : Prop :=
  ∀ between, first < between → between < place → ∀ i, code[between]? = some i →
    i.label? = none ∧ ∀ sides ∈ i.assign?, ¬ sides.1.Same target ∧ ¬ sides.1.Same source

/-- The instruction at a place copies a simple value into another one, as an instruction in front of
it did, and nothing in between disturbs the first copy.
-/
def RepeatsCopy (code : List Inst) (place : Nat) : Prop :=
  ∃ first < place, ∃ target source target' source',
    code[place]? = some (.assign target (.value source))
    ∧ code[first]? = some (.assign target' (.value source'))
    ∧ target.isSimple ∧ source.isSimple ∧ ¬ source.Same target
    ∧ target'.Same target ∧ source'.Same source
    ∧ Undisturbed code first place target source

theorem Undisturbed.congr {code : List Inst} {first place : Nat}
    {target target' source source' : Value} (h : Undisturbed code first place target source)
    (ht : target.Same target') (hs : source.Same source')
    : Undisturbed code first place target' source' := by
  intro between hfirst hplace i hi
  have ht : target.anonymous = target'.anonymous := ht
  have hs : source.anonymous = source'.anonymous := hs
  simpa only [Value.Same, ht, hs] using h between hfirst hplace i hi

namespace RepeatedCopies

variable {code : List Inst} {known : Known} {i : Inst} {place first : Nat}

theorem copy?_assign {target source : Value} (ht : target.isSimple) (hs : source.isSimple)
    : copy? (.assign target (.value source)) = some (target, source) := by
  simp [copy?, ht, hs]

variable {entry : Value × Value}

theorem mem_after_iff
    : entry ∈ after known i
      ↔ (entry ∈ known ∧ i.label? = none
          ∧ ∀ sides ∈ i.assign?, sides.1.anonymous ≠ entry.1 ∧ ¬ sides.1.Same entry.2)
        ∨ ∃ target, copy? i = some (target, entry.2) ∧ entry.1 = target.anonymous := by
  constructor
  · intro h
    rcases mem_after h with ⟨hm, hother⟩ | ⟨target, source, hc, rfl⟩
    · refine .inl ⟨hm, ?_, ?_⟩
      · cases i with
        | label => cases h
        | _ => rfl
      · intro sides hs
        cases i with
        | assign target source =>
            obtain rfl := Option.some.inj hs
            obtain ⟨hsource, hkey⟩ := hother target source rfl
            exact ⟨hkey.symm, fun hsame => hsource hsame.symm⟩
        | _ => cases hs
    · exact .inr ⟨target, hc, rfl⟩
  · rintro (⟨hm, hl, hother⟩ | ⟨target, hc, hkey⟩)
    · cases i with
      | label => cases hl
      | assign target source =>
          obtain ⟨hkey, hsource⟩ := hother (target, source) rfl
          have herase : entry ∈ ValueMap.erase (forgetCopiesOf known target) target := by
            refine List.mem_filter.mpr ⟨List.mem_filter.mpr ⟨hm, ?_⟩, by simpa using hkey.symm⟩
            simpa using fun hsame : entry.2.Same target => hsource hsame.symm
          simp only [after]
          split
          · exact List.mem_cons_of_mem _ herase
          · exact herase
      | _ => exact hm
    · obtain ⟨rfl, -, -⟩ := copy?_eq_some hc
      simp only [after, hc]
      exact List.mem_cons.mpr (.inl (Prod.ext hkey rfl))

theorem undisturbed_succ {target source : Value} (hi : code[place]? = some i)
    (hfirst : first < place)
    : Undisturbed code first (place + 1) target source
      ↔ Undisturbed code first place target source ∧ i.label? = none
        ∧ ∀ sides ∈ i.assign?, ¬ sides.1.Same target ∧ ¬ sides.1.Same source := by
  constructor
  · intro h
    exact ⟨fun between hf hp => h between hf (by omega), h place hfirst (by omega) i hi⟩
  · rintro ⟨h, hlast⟩ between hf hp j hj
    rcases Nat.lt_succ_iff_lt_or_eq.mp hp with hp | rfl
    · exact h between hf hp j hj
    · obtain rfl := Option.some.inj (hi.symm.trans hj)
      exact hlast

/-- What is known are the copies that nothing has disturbed. -/
theorem mem_knownBefore_iff (hplace : place ≤ code.length)
    : entry ∈ knownBefore (code.take place)
      ↔ ∃ first < place, ∃ j target, code[first]? = some j
          ∧ copy? j = some (target, entry.2) ∧ entry.1 = target.anonymous
          ∧ Undisturbed code first place target entry.2 := by
  induction place with
  | zero => simp [knownBefore]
  | succ place ih =>
      have hi := List.getElem?_eq_getElem hplace
      rw [knownBefore_succ hi, mem_after_iff, ih (by omega)]
      constructor
      · rintro (⟨⟨first, hf, j, target, hj, hc, hkey, hu⟩, hl, ha⟩ | ⟨target, hc, hkey⟩)
        · refine ⟨first, by omega, j, target, hj, hc, hkey, ?_⟩
          rw [hkey] at ha
          exact (undisturbed_succ hi hf).mpr ⟨hu, hl, ha⟩
        · exact ⟨place, by omega, _, target, hi, hc, hkey, fun _ _ _ => by omega⟩
      · rintro ⟨first, hf, j, target, hj, hc, hkey, hu⟩
        rcases Nat.lt_succ_iff_lt_or_eq.mp hf with hf | rfl
        · obtain ⟨hu, hl, ha⟩ := (undisturbed_succ hi hf).mp hu
          refine .inl ⟨⟨first, hf, j, target, hj, hc, hkey, hu⟩, hl, ?_⟩
          rw [hkey]
          exact ha
        · obtain rfl := Option.some.inj (hi.symm.trans hj)
          exact .inr ⟨target, hc, hkey⟩

theorem key_ne_of_undisturbed {place between : Nat} {target source target' source' : Value}
    (h : Undisturbed code first place target source) (hfirst : first < between)
    (hplace : between < place) (hi : code[between]? = some i)
    (hc : copy? i = some (target', source'))
    : target'.anonymous ≠ target.anonymous := by
  obtain ⟨rfl, -, -⟩ := copy?_eq_some hc
  exact ((h between hfirst hplace _ hi).2 _ rfl).1

/-- One value is known for each variable. -/
theorem knownBefore_unique (hplace : place ≤ code.length) {key v w : Value}
    (hv : (key, v) ∈ knownBefore (code.take place))
    (hw : (key, w) ∈ knownBefore (code.take place))
    : v = w := by
  obtain ⟨first, hf, i, target, hi, hc, hkey, hu⟩ := (mem_knownBefore_iff hplace).mp hv
  obtain ⟨first', hf', i', target', hi', hc', hkey', hu'⟩ := (mem_knownBefore_iff hplace).mp hw
  -- The later of two copies into one variable disturbs the earlier one.
  rcases Nat.lt_trichotomy first first' with hlt | rfl | hgt
  · exact absurd (hkey'.symm.trans hkey) (key_ne_of_undisturbed hu hlt hf' hi' hc')
  · obtain rfl := Option.some.inj (hi.symm.trans hi')
    exact (Prod.mk.inj (Option.some.inj (hc.symm.trans hc'))).2
  · exact absurd (hkey.symm.trans hkey') (key_ne_of_undisturbed hu' hgt hf hi hc)

theorem mem_forgetCopiesOf {v : Value}
    : entry ∈ forgetCopiesOf known v ↔ entry ∈ known ∧ ¬ entry.2.Same v := by
  simp [forgetCopiesOf]

/-- A copy is repeated if its target is known to hold the same value. A copy of a variable into
itself is not.
-/
theorem isRepeated_iff_mem (hplace : place ≤ code.length)
    : isRepeated (knownBefore (code.take place)) i
      ↔ ∃ target source v, copy? i = some (target, source) ∧ ¬ source.Same target
          ∧ (target.anonymous, v) ∈ knownBefore (code.take place) ∧ v.Same source := by
  constructor
  · intro h
    cases hc : copy? i with
    | none => simp [isRepeated, hc] at h
    | some copy =>
        obtain ⟨target, source⟩ := copy
        simp only [isRepeated, hc, holds, Option.any_eq_true, decide_eq_true_eq] at h
        obtain ⟨v, hv, hsame⟩ := h
        obtain ⟨hm, hnot⟩ := mem_forgetCopiesOf.mp (Substitution.mem_of_find?_eq_some hv)
        exact ⟨target, source, v, rfl, fun h => hnot (hsame.trans h), hm, hsame⟩
  · rintro ⟨target, source, v, hc, hnot, hm, hsame⟩
    have hforget : (target.anonymous, v) ∈ forgetCopiesOf (knownBefore (code.take place)) target :=
      mem_forgetCopiesOf.mpr ⟨hm, fun h => hnot (hsame.symm.trans h)⟩
    simp only [isRepeated, hc, holds]
    cases hfind : ValueMap.find? (forgetCopiesOf (knownBefore (code.take place)) target) target with
    | none => simpa using List.lookup_eq_none_iff.mp hfind _ hforget
    | some w =>
        have hw := mem_forgetCopiesOf.mp (Substitution.mem_of_find?_eq_some hfind)
        obtain rfl := knownBefore_unique hplace hm hw.1
        simpa using hsame

theorem isRepeated_iff (hi : code[place]? = some i)
    : isRepeated (knownBefore (code.take place)) i ↔ RepeatsCopy code place := by
  have hplace : place ≤ code.length := (List.getElem?_eq_some_iff.mp hi).1.le
  rw [isRepeated_iff_mem hplace]
  constructor
  · rintro ⟨target, source, v, hc, hnot, hm, hsame⟩
    obtain ⟨first, hf, j, target', hj, hc', hkey, hu⟩ := (mem_knownBefore_iff hplace).mp hm
    obtain ⟨rfl, ht, hs⟩ := copy?_eq_some hc
    obtain ⟨rfl, -, -⟩ := copy?_eq_some hc'
    exact ⟨first, hf, target, source, target', v, hi, hj, ht, hs, hnot, hkey.symm, hsame,
      hu.congr hkey.symm hsame⟩
  · rintro ⟨first, hf, target, source, target', source', hi', hj, ht, hs, hnot, ht', hs', hu⟩
    obtain rfl := Option.some.inj (hi.symm.trans hi')
    have hc' := copy?_assign (ht'.isSimple.trans ht) (hs'.isSimple.trans hs)
    have hm : (target.anonymous, source') ∈ knownBefore (code.take place) :=
      (mem_knownBefore_iff hplace).mpr
        ⟨first, hf, _, target', hj, hc', ht'.symm, hu.congr ht'.symm hs'.symm⟩
    exact ⟨target, source, source', copy?_assign ht hs, hnot, hm, hs'⟩

end RepeatedCopies

end StackLift
