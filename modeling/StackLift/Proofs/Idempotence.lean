import StackLift.Proofs.Simplification
import StackLift.Proofs.SimplificationEnds

/-!
Simplification is idempotent. The rounds stop at a code that equals the next one up to display names
and origins of registers, but no pass changes these without dropping an instruction: in the code at
which they stop, no pass finds anything to do.
-/

namespace StackLift

open CopyChains FoldedCopies Value

-- Passes that change nothing

variable {code : List Inst}

theorem RepeatedCopies.drop_eq_self_iff {known : Known}
    : drop known code = code
      ↔ ∀ before i rest, code = before ++ i :: rest →
        ¬ isRepeated (before.foldl after known) i := by
  induction code generalizing known with
  | nil =>
      constructor
      · intro _ before i rest h
        simp at h
      · intro _
        rfl
  | cons j tail ih =>
      rw [drop]
      split
      · rename_i hrepeated
        constructor
        · intro h
          have hle := (thinned_drop (after known j) tail).sublist.length_le
          have hlen := congrArg List.length h
          simp only [List.length_cons] at hlen
          omega
        · intro h
          exact absurd hrepeated (h [] j tail rfl)
      · rename_i hkept
        rw [List.cons.injEq, and_iff_right rfl, ih]
        constructor
        · intro h before i rest hcode
          cases before with
          | nil =>
              cases hcode
              exact hkept
          | cons k before =>
              cases hcode
              exact h before i rest rfl
        · intro h before i rest hcode
          exact h (j :: before) i rest (congrArg (j :: ·) hcode)

theorem whileShorter_eq_self_iff {step : List Inst → List Inst}
    : whileShorter step code = code ↔ code.length ≤ (step code).length := by
  constructor
  · intro h
    by_contra hlt
    rw [whileShorter, if_pos (Nat.lt_of_not_le hlt)] at h
    have hle : (whileShorter step (step code)).length ≤ (step code).length :=
      Shrinks.whileShorter.length_le
    rw [h] at hle
    exact hlt hle
  · intro h
    rw [whileShorter, if_neg (Nat.not_lt_of_le h)]

theorem dropDeadCopies_eq_self_iff
    : dropDeadCopies code = code ↔ ∀ i ∈ code, ¬ isDeadCopy (readsOf code) i := by
  rw [dropDeadCopies, whileShorter_eq_self_iff]
  constructor
  · intro h i hi
    have heq := List.filter_sublist.eq_of_length_le h
    simpa using List.filter_eq_self.mp heq i hi
  · intro h
    have heq : dropUnreadCopies code = code :=
      List.filter_eq_self.mpr fun i hi => by simpa using h i hi
    exact heq.symm ▸ Nat.le_refl _

theorem dropSelfCopies_eq_self_iff
    : code.filter (fun i => !isSelfCopy i) = code ↔ ∀ i ∈ code, ¬ isSelfCopy i := by
  simp [List.filter_eq_self]

namespace FoldedCopies

/-- The entry is a copy that can be folded. -/
def IsFoldableAt (code : List Inst) (entry : Inst × Nat) : Prop :=
  ∃ target source, copy? entry.1 = some (target, source)
    ∧ isFoldable code (readsOf code) target source entry.2

variable {code : List Inst}

theorem places_consider (code : List Inst) (reads : List Read) (fold : Folding)
    (entry : Inst × Nat)
    : (consider code reads fold entry).places = fold.places
      ∨ (consider code reads fold entry).places = entry.2 :: fold.places := by
  unfold consider
  split
  · exact .inl rfl
  · split
    · exact .inr rfl
    · exact .inl rfl

theorem places_foldl_ne_nil {reads : List Read} {fold : Folding} (entries : List (Inst × Nat))
    (h : fold.places ≠ [])
    : (entries.foldl (consider code reads) fold).places ≠ [] := by
  refine List.foldlRecOn entries _ (motive := fun fold : Folding => fold.places ≠ []) h ?_
  intro fold h entry _
  rcases places_consider code reads fold entry with heq | heq
  · rwa [heq]
  · rw [heq]
    exact List.cons_ne_nil _ _

/-- Nothing is folded exactly if there is no copy that can be: the first one would be. -/
theorem places_folding_eq_nil_iff
    : (folding code).places = [] ↔ ∀ entry ∈ code.zipIdx, ¬ IsFoldableAt code entry := by
  rw [folding]
  induction code.zipIdx with
  | nil => simp
  | cons entry entries ih =>
      rw [List.foldl_cons, List.forall_mem_cons]
      by_cases hfold : IsFoldableAt code entry
      · obtain ⟨target, source, hcopy, hfoldable⟩ := id hfold
        refine iff_of_false (places_foldl_ne_nil entries ?_) fun h => h.1 hfold
        simp [consider, hcopy, hfoldable]
      · rw [and_iff_right hfold, ← ih]
        have hsame : consider code (readsOf code) ⟨[], [], []⟩ entry = ⟨[], [], []⟩ := by
          unfold consider
          split
          · rfl
          · rename_i target source hcopy
            have hnot : ¬ isFoldable code (readsOf code) target source entry.2 := fun h =>
              hfold ⟨target, source, hcopy, h⟩
            simp [hnot]
        rw [hsame]

/-- A folded copy stands somewhere in the code. -/
theorem exists_entry_of_mem_places {place : Nat} (h : place ∈ (folding code).places)
    : ∃ entry ∈ code.zipIdx, entry.2 = place := by
  revert h
  refine List.foldlRecOn code.zipIdx _ (motive := fun fold : Folding =>
    place ∈ fold.places → ∃ entry ∈ code.zipIdx, entry.2 = place) nofun ?_
  intro fold ih entry hentry h
  rcases places_consider code (readsOf code) fold entry with heq | heq
  · exact ih (heq ▸ h)
  · rw [heq, List.mem_cons] at h
    rcases h with rfl | h
    · exact ⟨entry, hentry, rfl⟩
    · exact ih h

end FoldedCopies

theorem foldCopies_eq_self_iff
    : foldCopies code = code
      ↔ ∀ entry ∈ code.zipIdx, ¬ IsFoldableAt code entry := by
  rw [foldCopies, whileShorter_eq_self_iff, ← places_folding_eq_nil_iff]
  have hlength : (step code).length = (code.zipIdx.filter fun entry =>
      entry.2 ∉ (folding code).places).length := by
    simp [step]
  rw [hlength]
  constructor
  · intro h
    rw [List.eq_nil_iff_forall_not_mem]
    intro place hplace
    obtain ⟨entry, hentry, rfl⟩ := exists_entry_of_mem_places hplace
    rw [← List.length_zipIdx (l := code)] at h
    have heq := List.filter_sublist.eq_of_length_le h
    have hkept := List.filter_eq_self.mp heq entry hentry
    exact of_decide_eq_true hkept hplace
  · intro h
    simp [h]

theorem normalizeTypes_eq_self_iff
    : normalizeTypes code = code ↔ ∀ x ∈ code.flatMap Inst.keys, retypedKey code x = x := by
  constructor
  · intro h x hx
    have hkeys : (code.flatMap Inst.keys).map (retypedKey code)
        = (code.flatMap Inst.keys).map id := by
      rw [← keys_normalizeTypes, h, List.map_id]
    exact List.map_inj_left.mp hkeys x hx
  · intro h
    by_contra hne
    obtain ⟨r, type, hr, hd, htype⟩ := exists_retyped hne
    have hkey := congrArg Prod.snd (h r.key hr)
    simp only [retypedKey, Register.key, hd, Option.getD_some] at hkey
    exact htype hkey

-- Links of renamed codes

/-- Every definition was made by an assignment. -/
theorem sources_ne_nil {d : Definition} (h : d ∈ definitions code)
    : d.sources ≠ [] := by
  induction code using List.reverseRecOn generalizing d with
  | nil => cases h
  | append_singleton code i ih =>
      simp only [definitions, List.foldl_append, List.foldl_cons, List.foldl_nil] at h
      split at h
      · rcases mem_addSource (collects_definitions code).distinct h with
          ⟨hm, -⟩ | ⟨-, ⟨d₀, -, -, hs⟩ | ⟨-, hs⟩⟩
        · exact ih hm
        · simp [hs]
        · simp [hs]
      · exact ih h

/-- A register that only copies another one, which is assigned at most once, is replaced. -/
theorem IsLink.links_ne_nil {t s : RegisterKey} (h : IsLink code t s)
    : links (definitions code) ≠ [] := by
  have collects := collects_definitions code
  obtain ⟨r, q, hcopy, rfl, rfl⟩ := h.copied
  have hsource : Expr.value (.register q) ∈ sourcesOf code r.key :=
    mem_sourcesOf.mpr ⟨r, hcopy, rfl⟩
  obtain ⟨d, hd, hkey⟩ := collects.complete r.key (List.ne_nil_of_mem hsource)
  have hcopies : ∀ e ∈ d.sources, ∃ q', e = .value (.register q') ∧ q'.key = q.key := by
    intro e he
    rw [collects.sources d hd, hkey] at he
    obtain ⟨r', hr', hk⟩ := mem_sourcesOf.mp he
    exact h.copies hr' hk
  obtain ⟨first, rest, hsources⟩ := List.exists_cons_of_ne_nil (sources_ne_nil hd)
  obtain ⟨q', rfl, hq'⟩ := hcopies first (by simp [hsources])
  have hcopied : copied? d = some q' := by
    simp only [copied?, hsources]
    refine if_pos (List.all_eq_true.mpr fun e he => decide_eq_true ?_)
    obtain ⟨p, rfl, hp⟩ := hcopies e (by simp [hsources, he])
    exact Expr.same_register_iff.mpr ⟨p, rfl, hp.trans hq'.symm⟩
  have hone : hasOneSource (definitions code) q' := by
    rw [hasOneSource, Option.all_eq_true]
    intro d' hfound
    have hd' := List.mem_of_find?_eq_some hfound
    have hfits := List.find?_some hfound
    have hsame := Register.same_iff.mp (of_decide_eq_true hfits)
    have hle := h.once
    rw [← hq', ← hsame, ← collects.sources d' hd'] at hle
    have hpos := List.length_pos_iff.mpr (sources_ne_nil hd')
    exact decide_eq_true (by omega)
  refine List.ne_nil_of_mem (a := (d.register, q')) (List.mem_filterMap.mpr ⟨d, hd, ?_⟩)
  simp [hcopied, hone]

theorem links_eq_nil_iff
    : links (definitions code) = [] ↔ ∀ t s, ¬ IsLink code t s := by
  constructor
  · intro h t s link
    exact link.links_ne_nil h
  · intro h
    rw [List.eq_nil_iff_forall_not_mem]
    intro link hm
    exact h _ _ (isLink_of_mem_links hm)

/-- A renaming that keeps the registers of a code apart. -/
def KeepsApart (σ : RegisterKey → RegisterKey) (code : List Inst) : Prop :=
  Set.InjOn σ {x | x ∈ code.flatMap Inst.keys}

theorem mem_keys_of_assign {r : Register} {e : Expr} (h : .assign (.register r) e ∈ code)
    : r.key ∈ code.flatMap Inst.keys := by
  refine List.mem_flatMap.mpr ⟨_, h, Inst.mem_keys.mpr ⟨r, ?_, rfl⟩⟩
  simp [Inst.subvalues, Inst.operands, Expr.subvalues, subvalues]

theorem mem_keys_of_copy {r q : Register} (h : .assign (.register r) (.value (.register q)) ∈ code)
    : q.key ∈ code.flatMap Inst.keys := by
  refine List.mem_flatMap.mpr ⟨_, h, Inst.mem_keys.mpr ⟨q, ?_, rfl⟩⟩
  simp [Inst.subvalues, Inst.operands, Expr.subvalues, subvalues]

section Renamed

variable {f : Value → Value} {σ : RegisterKey → RegisterKey} {code : List Inst}

theorem keys_map_rename (hf : Renames f σ) (code : List Inst)
    : (code.map (Inst.rename f)).flatMap Inst.keys = (code.flatMap Inst.keys).map σ := by
  rw [List.flatMap_map, List.map_flatMap]
  exact congrArg code.flatMap (funext hf.keys_rename)

/-- A renamed register has as many assignments as before. -/
theorem length_sourcesOf_rename (hf : Renames f σ) (apart : KeepsApart σ code) {x : RegisterKey}
    (hx : x ∈ code.flatMap Inst.keys)
    : (sourcesOf (code.map (Inst.rename f)) (σ x)).length = (sourcesOf code x).length := by
  suffices h : ∀ part : List Inst, part ⊆ code →
      (sourcesOf (part.map (Inst.rename f)) (σ x)).length = (sourcesOf part x).length from
    h code fun _ hi => hi
  intro part
  induction part with
  | nil =>
      intro _
      rfl
  | cons i rest ih =>
      intro hsub
      obtain ⟨hi, hrest⟩ := List.cons_subset.mp hsub
      have hrest := ih hrest
      have hhead : (sourcesOf [i.rename f] (σ x)).length = (sourcesOf [i] x).length := by
        by_cases hassign : ∃ r e, i = .assign (.register r) e
        · obtain ⟨r, e, rfl⟩ := hassign
          obtain ⟨r', hr', hk⟩ := hf.register r
          have hsame : r'.key = σ x ↔ r.key = x := by
            rw [hk]
            exact ⟨fun h => apart (mem_keys_of_assign hi) hx h, fun h => h ▸ rfl⟩
          simp only [Inst.rename, Inst.mapValues, mapLeaves, hr', sourcesOf_assign, hsame]
          split <;> rfl
        · have hnone : ∀ {j : Inst} {y : RegisterKey}, (¬ ∃ r e, j = .assign (.register r) e) →
              sourcesOf [j] y = [] := by
            intro j y hj
            refine List.eq_nil_iff_forall_not_mem.mpr fun e he => ?_
            obtain ⟨r, hr, -⟩ := mem_sourcesOf.mp he
            exact hj ⟨r, e, (List.mem_singleton.mp hr).symm⟩
          rw [hnone hassign, hnone]
          rintro ⟨r', e', h⟩
          obtain ⟨r, e, hi, -⟩ := rename_eq_assign hf h
          exact hassign ⟨r, e, hi⟩
      have hcons : ∀ (i : Inst) (rest : List Inst) (y : RegisterKey),
          sourcesOf (i :: rest) y = sourcesOf [i] y ++ sourcesOf rest y := fun i rest =>
        sourcesOf_append [i] rest
      rw [List.map_cons, hcons, hcons i, List.length_append, List.length_append, hhead, hrest]

/-- Copies between registers that are kept apart stay such copies. -/
theorem IsLink.rename (hf : Renames f σ) (apart : KeepsApart σ code) {t s : RegisterKey}
    (h : IsLink code t s)
    : IsLink (code.map (Inst.rename f)) (σ t) (σ s) := by
  obtain ⟨r, q, hcopy, rfl, rfl⟩ := h.copied
  refine ⟨?_, ?_, ?_⟩
  · intro r' e' hassign hk
    obtain ⟨i, hi, heq⟩ := List.mem_map.mp hassign
    obtain ⟨r₀, e₀, rfl, hr₀, rfl⟩ := rename_eq_assign hf heq
    have hkey : r₀.key = r.key :=
      apart (mem_keys_of_assign hi) (mem_keys_of_assign hcopy) (hr₀.symm.trans hk)
    obtain ⟨q₀, rfl, hq₀⟩ := h.copies hi hkey
    obtain ⟨q', hq', hqk⟩ := hf.register q₀
    exact ⟨q', by simp only [Expr.mapValues, mapLeaves, hq'], hqk.trans (by rw [hq₀])⟩
  · obtain ⟨r', hr', hrk⟩ := hf.register r
    obtain ⟨q', hq', hqk⟩ := hf.register q
    refine ⟨r', q', List.mem_map.mpr ⟨_, hcopy, ?_⟩, hrk, hqk⟩
    simp only [Inst.rename, Inst.mapValues, Expr.mapValues, mapLeaves, hr', hq']
  · rw [length_sourcesOf_rename hf apart (mem_keys_of_copy hcopy)]
    exact h.once

end Renamed

-- Replacements that drop nothing

theorem thin_eq_map_of_length {f : Value → Value} {dropped : List Inst → Bool}
    (h : (thin f dropped code).length = code.length)
    : thin f dropped code = code.map (Inst.rename f) := by
  induction code with
  | nil => rfl
  | cons i rest ih =>
      have hle := length_thin_le f dropped rest
      rw [thin] at h ⊢
      split at h
      · rw [List.length_cons] at h
        omega
      · rename_i hkept
        rw [if_neg hkept, List.map_cons, ih (Nat.succ.inj h)]

/-- Applying links without dropping an instruction renames the registers. -/
theorem applyLinks_eq_map_of_length
    (h : (applyLinks (links (definitions code)) code).length = code.length)
    : applyLinks (links (definitions code)) code
      = code.map (Inst.rename (mapping (links (definitions code))).leaf) := by
  rw [applyLinks_eq_thin] at h ⊢
  exact thin_eq_map_of_length h

theorem length_applyLinks_le (ls : List (Register × Register)) (code : List Inst)
    : (applyLinks ls code).length ≤ code.length := by
  rw [applyLinks_eq_thin]
  exact length_thin_le _ _ code

theorem length_replaceChains?_le {steps : Nat} {code next : List Inst}
    (h : replaceChains? steps code = some next)
    : next.length ≤ code.length := by
  induction steps generalizing code with
  | zero => cases h
  | succ steps ih =>
      simp only [replaceChains?] at h
      split at h
      · cases h
        exact Nat.le_refl _
      · split at h
        · cases h
          exact length_applyLinks_le _ _
        · exact (ih h).trans (length_applyLinks_le _ _)

theorem Value.keysOf_anonymous (v : Value)
    : keysOf v.anonymous.subvalues = (keysOf v.subvalues).map id := by
  rw [List.map_id]
  unfold anonymous
  induction v with
  | field object owner name type ih =>
      simpa [mapLeaves, subvalues, register?] using ih
  | element array index type iha ihi =>
      simp [mapLeaves, subvalues, register?, iha, ihi]
  | _ => rfl

/-- The same registers stand at the same places of codes that differ in display names only. -/
theorem SameCode.keys_eq {code other : List Inst} (h : SameCode code other)
    : code.flatMap Inst.keys = other.flatMap Inst.keys := by
  have hkeys : ∀ code : List Inst, (code.map Inst.anonymous).flatMap Inst.keys
      = code.flatMap Inst.keys := by
    intro code
    rw [List.flatMap_map]
    refine congrArg code.flatMap (funext fun i => ?_)
    exact (i.keys_mapValues keysOf_anonymous).trans (List.map_id _)
  rw [← hkeys code, h, hkeys other]

theorem SameCode.length_eq {code other : List Inst} (h : SameCode code other)
    : code.length = other.length := by
  simpa using congrArg List.length h

/-- The last link drops its copies, or it gives its target another register. So a code with links
never stays the same.
-/
theorem not_sameCode_applyLinks (hne : links (definitions code) ≠ [])
    : ¬ SameCode (applyLinks (links (definitions code)) code) code := by
  intro hsame
  have hmap := applyLinks_eq_map_of_length hsame.length_eq
  have hkeys := hsame.keys_eq
  have hf := Substitution.renames_leaf (onRegisters_mapping (links (definitions code)))
  rw [hmap, keys_map_rename hf] at hkeys
  have hfixed : ∀ x ∈ code.flatMap Inst.keys,
      (mapping (links (definitions code))).keyImage x = x := fun x hx =>
    List.map_inj_left.mp (hkeys.trans (List.map_id _).symm) x hx
  obtain ⟨before, last, hlast⟩ := List.eq_nil_or_concat (links (definitions code))
    |>.resolve_left hne
  have hm : last ∈ links (definitions code) := by simp [hlast]
  have hshort := length_applyLinks_lt_of_link hm
  have himage : (mapping (links (definitions code))).keyImage last.1.key = linkImage last := by
    rw [hlast, List.concat_eq_append, keyImage_mapping_concat, if_pos (.inl rfl)]
  refine Nat.ne_of_lt (hshort ?_) hsame.length_eq
  by_cases hnamed : last.1.isNamed
  · right
    rw [Unites, himage, hlast, List.concat_eq_append, keyImage_mapping_concat,
      if_pos (.inr ⟨hnamed, rfl⟩)]
  · left
    obtain ⟨r, q, hcopy, hr, hq⟩ := (isLink_of_mem_links hm).copied
    have hself : linkImage last = last.1.key :=
      himage.symm.trans (hfixed _ (hr ▸ mem_keys_of_assign hcopy))
    rw [linkImage, if_neg hnamed] at hself
    exact ⟨last, hm, hself.symm, hself⟩

/-- Replacements that drop nothing rename registers. If they keep them apart, links stay links, and
so there was none: replacements stop only where there are no links.
-/
theorem replaceChains?_renames {steps : Nat} {code next : List Inst}
    (h : replaceChains? steps code = some next) (hlength : next.length = code.length)
    : ∃ σ, next.flatMap Inst.keys = (code.flatMap Inst.keys).map σ
        ∧ (KeepsApart σ code → links (definitions code) = [] ∧ next = code) := by
  induction steps generalizing code with
  | zero => cases h
  | succ steps ih =>
      by_cases hlinks : links (definitions code) = []
      · rw [replaceChains?, hlinks] at h
        cases h
        exact ⟨id, (List.map_id _).symm, fun _ => ⟨hlinks, rfl⟩⟩
      rw [replaceChains?_succ hlinks (not_sameCode_applyLinks hlinks)] at h
      have hle := length_applyLinks_le (links (definitions code)) code
      have hnext := length_replaceChains?_le h
      have hlength : (applyLinks (links (definitions code)) code).length = code.length := by omega
      have hmap := applyLinks_eq_map_of_length hlength
      have hf := Substitution.renames_leaf (onRegisters_mapping (links (definitions code)))
      obtain ⟨σ, hkeys, hapart⟩ := ih h (by omega)
      rw [hmap, keys_map_rename hf, List.map_map] at hkeys
      refine ⟨_, hkeys, fun apart => ?_⟩
      have happlied : KeepsApart σ (applyLinks (links (definitions code)) code) := by
        intro x hx y hy hxy
        simp only [hmap, keys_map_rename hf, Set.mem_ofPred_eq, List.mem_map] at hx hy
        obtain ⟨x, hx, rfl⟩ := hx
        obtain ⟨y, hy, rfl⟩ := hy
        rw [apart hx hy hxy]
      have hnone := links_eq_nil_iff.mp (hapart happlied).1
      obtain ⟨link, hm⟩ := List.exists_mem_of_ne_nil _ hlinks
      have hlink := (isLink_of_mem_links hm).rename hf apart.of_comp
      rw [hmap] at hnone
      exact absurd hlink (hnone _ _)

-- The last round

/-- No pass of simplification finds anything to do in the code. -/
structure FullySimplified (code : List Inst) : Prop where
  noRepeatedCopy : ∀ before i rest, code = before ++ i :: rest →
    ¬ RepeatedCopies.isRepeated (RepeatedCopies.knownBefore before) i
  noDeadCopy : ∀ i ∈ code, ¬ isDeadCopy (readsOf code) i
  noLink : ∀ t s, ¬ IsLink code t s
  noFoldableCopy : ∀ entry ∈ code.zipIdx, ¬ IsFoldableAt code entry
  noSelfCopy : ∀ i ∈ code, ¬ isSelfCopy i
  typed : ∀ x ∈ code.flatMap Inst.keys, retypedKey code x = x

/-- A round that gives the same code, up to display names, gives this code. -/
theorem fullySimplified_of_round {steps : Nat} {code next : List Inst}
    (h : simplifyRound? steps code = some next) (hsame : SameCode next code)
    : next = code ∧ FullySimplified code := by
  obtain ⟨mid, hmid, rfl⟩ := simplifyRound?_eq_some.mp h
  have hlength := hsame.length_eq
  rw [length_normalizeTypes] at hlength
  -- No pass has dropped an instruction.
  have hrepeated := Shrinks.dropRepeatedCopies code
  have hdead : Shrinks (dropRepeatedCopies code) (dropDeadCopies (dropRepeatedCopies code)) :=
    .whileShorter
  have hchains := length_replaceChains?_le hmid
  have hfolded : Shrinks mid (foldCopies mid) := .whileShorter
  have hself : Shrinks (foldCopies mid) ((foldCopies mid).filter fun i => !isSelfCopy i) :=
    .of_sublist List.filter_sublist
  have hself_le := hself.length_le
  have hfolded_le := hfolded.length_le
  have hdead_le := hdead.length_le
  have hrepeated_le := hrepeated.length_le
  have hself := hself.resolve_right (by omega)
  have hfolded := hfolded.resolve_right (by omega)
  have hdead := hdead.resolve_right (by omega)
  have hrepeated := hrepeated.resolve_right (by omega)
  rw [hfolded] at hself hsame hlength ⊢
  rw [hself] at hsame hlength ⊢
  rw [hrepeated] at hdead hmid
  rw [hdead] at hmid
  obtain ⟨σ, hkeys, hapart⟩ := replaceChains?_renames hmid hlength
  have hretyped := hsame.keys_eq
  rw [keys_normalizeTypes, hkeys, List.map_map] at hretyped
  have hinverse : ∀ x ∈ code.flatMap Inst.keys, retypedKey mid (σ x) = x := fun x hx =>
    List.map_inj_left.mp (hretyped.trans (List.map_id _).symm) x hx
  have apart : KeepsApart σ code := by
    intro x hx y hy hxy
    rw [← hinverse x hx, hxy, hinverse y hy]
  obtain ⟨hlinks, rfl⟩ := hapart apart
  have htyped : ∀ x ∈ mid.flatMap Inst.keys, retypedKey mid x = x := by
    have heq := hsame.keys_eq
    rw [keys_normalizeTypes] at heq
    exact fun x hx => List.map_inj_left.mp (heq.trans (List.map_id _).symm) x hx
  exact ⟨normalizeTypes_eq_self_iff.mpr htyped,
    { noRepeatedCopy := RepeatedCopies.drop_eq_self_iff.mp hrepeated
      noDeadCopy := dropDeadCopies_eq_self_iff.mp hdead
      noLink := links_eq_nil_iff.mp hlinks
      noFoldableCopy := foldCopies_eq_self_iff.mp hfolded
      noSelfCopy := dropSelfCopies_eq_self_iff.mp hself
      typed := htyped }⟩

theorem fullySimplified_of_rounds {steps done rounds : Nat}
    {result : Simplified} (h : simplifyRounds? steps done rounds code = some result)
    : FullySimplified result.code := by
  induction rounds generalizing done code with
  | zero => cases h
  | succ rounds ih =>
      simp only [simplifyRounds?, Option.bind_eq_bind, Option.bind_eq_some_iff] at h
      obtain ⟨next, hnext, h⟩ := h
      split at h
      · rename_i hsame
        cases h
        obtain ⟨rfl, simplified⟩ := fullySimplified_of_round hnext hsame
        exact simplified
      · exact ih h

namespace FullySimplified

variable {code : List Inst}

theorem dropRepeatedCopies_eq (h : FullySimplified code)
    : dropRepeatedCopies code = code :=
  RepeatedCopies.drop_eq_self_iff.mpr h.noRepeatedCopy

theorem replaceChains?_eq (h : FullySimplified code) (steps : Nat)
    : replaceChains? (steps + 1) code = some code := by
  rw [replaceChains?, links_eq_nil_iff.mpr h.noLink]

theorem simplifyRound?_eq (h : FullySimplified code) (steps : Nat)
    : simplifyRound? (steps + 1) code = some code := by
  refine simplifyRound?_eq_some.mpr ⟨code, ?_, ?_⟩
  · rw [h.dropRepeatedCopies_eq, dropDeadCopies_eq_self_iff.mpr h.noDeadCopy, h.replaceChains?_eq]
  · rw [foldCopies_eq_self_iff.mpr h.noFoldableCopy, dropSelfCopies_eq_self_iff.mpr h.noSelfCopy,
      normalizeTypes_eq_self_iff.mpr h.typed]

theorem simplifyWithin?_eq (h : FullySimplified code) (limit : Nat)
    : simplifyWithin? (limit + 1) code = some { code, rounds := 1 } := by
  simp [simplifyWithin?, simplifyRounds?, h.simplifyRound?_eq, SameCode]

end FullySimplified

/-- In a simplified code no pass finds anything to do, each of them leaves it as it is, display
names and origins of registers included, and simplifying it again takes one round within every
limit.
-/
theorem simplification_is_idempotent {limit : Nat} {code : List Inst} {result : Simplified}
    (h : simplifyWithin? limit code = some result)
    : FullySimplified result.code
      ∧ dropRepeatedCopies result.code = result.code
      ∧ dropDeadCopies result.code = result.code
      ∧ (∀ steps, replaceChains? (steps + 1) result.code = some result.code)
      ∧ foldCopies result.code = result.code
      ∧ result.code.filter (fun i => !isSelfCopy i) = result.code
      ∧ normalizeTypes result.code = result.code
      ∧ (∀ again, simplifyWithin? (again + 1) result.code
        = some { code := result.code, rounds := 1 })
      ∧ simplify result.code = .ok { code := result.code, rounds := 1 } := by
  have simplified := fullySimplified_of_rounds h
  refine ⟨simplified, simplified.dropRepeatedCopies_eq,
    dropDeadCopies_eq_self_iff.mpr simplified.noDeadCopy, simplified.replaceChains?_eq,
    foldCopies_eq_self_iff.mpr simplified.noFoldableCopy,
    dropSelfCopies_eq_self_iff.mpr simplified.noSelfCopy,
    normalizeTypes_eq_self_iff.mpr simplified.typed, simplified.simplifyWithin?_eq, ?_⟩
  have hlimit : simplifyLimit result.code
      = result.code.length * (result.code.length + 8) + 8 * result.code.length + 63 + 1 := by
    unfold simplifyLimit
    ring
  rw [simplify, hlimit, simplified.simplifyWithin?_eq]

/-- A variable of a method. -/
def variableX : Value :=
  .register { index := 1, type := .int, name := "x", kind := .named }

/-- Uses the variable and returns. -/
def useX : List Inst :=
  [.call (sampleCall "g" .void [variableX]), .returns none]

/-- The copy of a result into a variable is dropped, and the variable keeps its name when the code
is simplified again.
-/
theorem copied_result_simplified_once
    : simplifyWithin? 5
          (callInto 0 :: .assign variableX (.value (.register (.fresh 0 .int))) :: useX)
        = some ⟨.assign variableX (.call (sampleCall "f" .int [])) :: useX, 2⟩
      ∧ FullySimplified (.assign variableX (.call (sampleCall "f" .int [])) :: useX)
      ∧ simplify (.assign variableX (.call (sampleCall "f" .int [])) :: useX)
        = .ok ⟨.assign variableX (.call (sampleCall "f" .int [])) :: useX, 1⟩ := by
  have hsimplified : simplifyWithin? 5
      (callInto 0 :: .assign variableX (.value (.register (.fresh 0 .int))) :: useX)
        = some ⟨.assign variableX (.call (sampleCall "f" .int [])) :: useX, 2⟩ := by decide +kernel
  obtain ⟨simplified, -, -, -, -, -, -, -, hagain⟩ := simplification_is_idempotent hsimplified
  exact ⟨hsimplified, simplified, hagain⟩

end StackLift
