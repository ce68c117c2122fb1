import Mathlib.Data.Fintype.Card
import Mathlib.Data.Set.Finite.List
import Mathlib.Order.WellFounded
import StackLift.Proofs.CopyChains

/-!
Replacing copied registers makes a code shorter, unless registers copy each other in a circle of
more than two. Then the registers only change places.
-/

namespace StackLift

open CopyChains

/-- The first register is to be replaced by the second one. -/
def Linked (code : List Inst) (x y : RegisterKey) : Prop :=
  ∃ link ∈ links (definitions code), link.1.key = x ∧ link.2.key = y

/-- Following links leads back to a register, without the links of a pair. -/
def CopiesInCircle (code : List Inst) : Prop :=
  ∃ x, Relation.TransGen (fun x y => Linked code x y ∧ ¬ Linked code y x) x x

-- Images of linked registers

theorem Substitution.keyImage_insert (m : Substitution) (r q : Register) (x : RegisterKey)
    : keyImage (ValueMap.insert m (.register r) (.register q)) x
      = if x = r.key then q.key else m.keyImage x := by
  have hfind : List.lookup x.value (ValueMap.insert m (.register r) (.register q))
      = if x.value.anonymous = (Value.register r).anonymous then some (.register q)
        else m.lookup x.value :=
    find?_insert m (.register r) (.register q) x.value
  have hkey : x.value.anonymous = (Value.register r).anonymous ↔ x = r.key :=
    Value.registers_same_iff
  unfold keyImage
  rw [hfind]
  by_cases hx : x = r.key
  · rw [if_pos (hkey.mpr hx), if_pos hx]
  · rw [if_neg (mt hkey.mp hx), if_neg hx]

/-- The register that a link by itself gives its target. -/
def linkImage (link : Register × Register) : RegisterKey :=
  if link.1.isNamed then (link.1.index, link.2.type) else link.2.key

section Images

variable {ls : List (Register × Register)} {link : Register × Register} {x : RegisterKey}

/-- The last link determines the image of its target, and that of its source if the target is named.
-/
theorem keyImage_mapping_concat
    : (mapping (ls ++ [link])).keyImage x
      = if x = link.1.key ∨ (link.1.isNamed ∧ x = link.2.key) then linkImage link
        else (mapping ls).keyImage x := by
  obtain ⟨t, s⟩ := link
  have hkey : (t.withType s.type).key = (t.index, s.type) := rfl
  cases hn : t.isNamed
  · simp [mapping, linkImage, hn, Substitution.keyImage_insert]
  · simp only [mapping, List.foldl_append, List.foldl_cons, List.foldl_nil, hn, if_true,
      Substitution.keyImage_insert, linkImage, true_and, hkey]
    by_cases ht : x = t.key <;> by_cases hs : x = s.key <;> simp [ht, hs]

/-- Target and source of the link get the same image. -/
def Unites (ls : List (Register × Register)) (link : Register × Register) : Prop :=
  (mapping ls).keyImage link.1.key = (mapping ls).keyImage link.2.key

/-- The key is the target of a link with a named target. -/
def NamedTarget (ls : List (Register × Register)) (x : RegisterKey) : Prop :=
  ∃ link ∈ ls, link.1.isNamed ∧ link.1.key = x

/-- What becomes of a register: it stays if no link is about it, or its own link replaces it.
Otherwise it was given up as the source of a named register, and following named registers from
there leads to a link whose two sides get the same image.
-/
inductive Replacement (ls : List (Register × Register)) (x : RegisterKey) : Prop
  | stays (image : (mapping ls).keyImage x = x) (target : ∀ link ∈ ls, link.1.key ≠ x)
      (source : ∀ link ∈ ls, link.1.isNamed → link.2.key ≠ x)
  | own (link : Register × Register) (mem : link ∈ ls) (target : link.1.key = x)
      (image : (mapping ls).keyImage x = linkImage link)
  | given (link : Register × Register) (mem : link ∈ ls) (named : link.1.isNamed)
      (unites : Unites ls link) (source : link.2.key = x ∨ NamedTarget ls link.2.key)

/-- A link that unites its two sides still does so after another link that touches neither. -/
theorem Unites.concat {last : Register × Register} (h : Unites ls link)
    (ht : ¬ (link.1.key = last.1.key ∨ (last.1.isNamed ∧ link.1.key = last.2.key)))
    (hs : ¬ (link.2.key = last.1.key ∨ (last.1.isNamed ∧ link.2.key = last.2.key)))
    : Unites (ls ++ [last]) link := by
  rw [Unites, keyImage_mapping_concat, keyImage_mapping_concat, if_neg ht, if_neg hs]
  exact h

theorem NamedTarget.concat (h : NamedTarget ls x) (last : Register × Register)
    : NamedTarget (ls ++ [last]) x := by
  obtain ⟨link, hm, hn⟩ := h
  exact ⟨link, List.mem_append_left _ hm, hn⟩

/-- By induction from the last link, which is the one that replaces earlier images. -/
theorem replacement (hd : (ls.map fun link => link.1.key).Nodup) (x : RegisterKey)
    : Replacement ls x := by
  induction ls using List.reverseRecOn with
  | nil => exact .stays rfl nofun nofun
  | append_singleton ls last ih =>
      rw [List.map_append, List.nodup_append] at hd
      obtain ⟨hd, -, hnew⟩ := hd
      have hnew : ∀ link ∈ ls, link.1.key ≠ last.1.key := fun link hm =>
        hnew _ (List.mem_map_of_mem hm) _ (by simp)
      have hnamed : ∀ {y}, NamedTarget ls y → y ≠ last.1.key := by
        rintro y ⟨link, hm, -, rfl⟩
        exact hnew link hm
      have hlast : last ∈ ls ++ [last] := List.mem_append_right _ (List.mem_singleton_self last)
      by_cases hx : x = last.1.key
      · refine .own last hlast hx.symm ?_
        rw [keyImage_mapping_concat, if_pos (.inl hx)]
      by_cases hxs : last.1.isNamed ∧ x = last.2.key
      · refine .given last hlast hxs.1 ?_ (.inl hxs.2.symm)
        rw [Unites, keyImage_mapping_concat, keyImage_mapping_concat, if_pos (.inl rfl),
          if_pos (.inr ⟨hxs.1, rfl⟩)]
      have hkeep : (mapping (ls ++ [last])).keyImage x = (mapping ls).keyImage x := by
        rw [keyImage_mapping_concat, if_neg (not_or.mpr ⟨hx, hxs⟩)]
      cases ih hd with
      | stays image target source =>
          refine .stays (hkeep.trans image) ?_ ?_
          · refine List.forall_mem_append.mpr ⟨target, ?_⟩
            simpa using Ne.symm hx
          · refine List.forall_mem_append.mpr ⟨source, ?_⟩
            simpa using fun hn hs => hxs ⟨hn, hs.symm⟩
      | own link mem target image =>
          exact .own link (List.mem_append_left _ mem) target (hkeep.trans image)
      | given link mem named unites source =>
          have htarget := hnew link mem
          have hsource : link.2.key ≠ last.1.key :=
            source.elim (fun hs => hs ▸ hx) hnamed
          by_cases hover : last.1.isNamed ∧ (link.1.key = last.2.key ∨ link.2.key = last.2.key)
          · -- The last link gives up one side of the link, and is itself one that unites.
            refine .given last hlast hover.1 ?_ ?_
            · rw [Unites, keyImage_mapping_concat, keyImage_mapping_concat, if_pos (.inl rfl),
                if_pos (.inr ⟨hover.1, rfl⟩)]
            · rcases hover.2 with hs | hs
              · exact .inr (NamedTarget.concat ⟨link, mem, named, hs⟩ last)
              · exact source.imp (fun h => hs ▸ h) fun h => (hs ▸ h).concat last
          · refine .given link (List.mem_append_left _ mem) named ?_
              (source.imp id fun h => h.concat last)
            exact unites.concat
              (not_or.mpr ⟨htarget, fun h => hover ⟨h.1, .inl h.2⟩⟩)
              (not_or.mpr ⟨hsource, fun h => hover ⟨h.1, .inr h.2⟩⟩)

/-- If no link unites its two sides, the source of each link is the target of another one. -/
theorem exists_unites_or_next (hd : (ls.map fun link => link.1.key).Nodup) (hm : link ∈ ls)
    : (∃ link ∈ ls, Unites ls link) ∨ ∃ next ∈ ls, next.1.key = link.2.key := by
  cases replacement hd link.1.key with
  | stays _ target _ => exact absurd rfl (target link hm)
  | given other mem _ unites _ => exact .inl ⟨other, mem, unites⟩
  | own other mem target image =>
      obtain rfl : other = link := List.inj_on_of_nodup_map hd mem hm target
      cases replacement hd other.2.key with
      | stays simage _ source =>
          have hn : other.1.isNamed = false := by
            simpa using fun hn => source other hm hn rfl
          refine .inl ⟨other, hm, ?_⟩
          rw [Unites, image, simage, linkImage, hn]
          rfl
      | given link mem _ unites _ => exact .inl ⟨link, mem, unites⟩
      | own next mem target _ => exact .inr ⟨next, mem, target⟩

end Images

-- Shorter codes

/-- A link replaces the register of a definition. -/
theorem fst_of_link {ds : List Definition} {d : Definition} {link : Register × Register}
    (h : (match copied? d with
      | some source => if hasOneSource ds source then some (d.register, source) else none
      | none => none) = some link)
    : link.1 = d.register := by
  split at h
  · simp only [Option.ite_none_right_eq_some, Option.some.injEq] at h
    rw [← h.2]
  · cases h

theorem nodup_links {ds : List Definition} (h : (ds.map fun d => d.register.key).Nodup)
    : ((links ds).map fun link => link.1.key).Nodup := by
  refine List.pairwise_map.mpr ((List.pairwise_map.mp h).filterMap _ ?_)
  intro d d' hne link hl link' hl'
  rwa [fst_of_link hl, fst_of_link hl']

variable {code : List Inst}

/-- Without a circle, some link has two sides that get the same image or replace each other. -/
theorem exists_dropped_link (h : ¬ CopiesInCircle code) (hne : links (definitions code) ≠ [])
    : ∃ link ∈ links (definitions code),
        Linked code link.2.key link.1.key ∨ Unites (links (definitions code)) link := by
  by_contra hnone
  have hall : ∀ link ∈ links (definitions code), ¬ Linked code link.2.key link.1.key
      ∧ ¬ Unites (links (definitions code)) link := fun link hm =>
    not_or.mp fun hl => hnone ⟨link, hm, hl⟩
  have hd := nodup_links (collects_definitions code).distinct
  have hnext : ∀ link ∈ links (definitions code), ∃ next ∈ links (definitions code),
      next.1.key = link.2.key := fun link hm =>
    (exists_unites_or_next hd hm).resolve_left fun ⟨other, ho, hu⟩ => (hall other ho).2 hu
  -- Every link leads to another one, so the links, which are finitely many, lead back somewhere.
  let Later (a b : {link // link ∈ links (definitions code)}) : Prop :=
    Relation.TransGen (fun x y => Linked code x y ∧ ¬ Linked code y x) b.1.1.key a.1.1.key
  have : IsTrans _ Later := ⟨fun a b c hab hbc => hbc.trans hab⟩
  have : Std.Irrefl Later := ⟨fun a ha => h ⟨_, ha⟩⟩
  have : Finite {link // link ∈ links (definitions code)} :=
    (List.finite_toSet (links (definitions code))).to_subtype
  obtain ⟨last, -, hlast⟩ := (Finite.wellFounded_of_trans_of_irrefl Later).has_min Set.univ
    (by
      obtain ⟨link, hm⟩ := List.exists_mem_of_ne_nil _ hne
      exact ⟨⟨link, hm⟩, trivial⟩)
  obtain ⟨next, hm, hk⟩ := hnext last.1 last.2
  refine hlast ⟨next, hm⟩ trivial (.single ⟨⟨last.1, last.2, rfl, hk.symm⟩, ?_⟩)
  rw [hk]
  exact (hall last.1 last.2).1

theorem length_thin_le (f : Value → Value) (dropped : List Inst → Bool) (code : List Inst)
    : (thin f dropped code).length ≤ code.length := by
  induction code with
  | nil => exact Nat.le_refl 0
  | cons i rest ih =>
      simp only [thin]
      split
      · exact Nat.le_succ_of_le ih
      · exact Nat.succ_le_succ ih

theorem length_thin_lt {f : Value → Value} {dropped : List Inst → Bool}
    {i : Inst} {rest : List Inst} (hs : i :: rest <:+ code) (hd : dropped (i :: rest))
    : (thin f dropped code).length < code.length := by
  induction code with
  | nil => cases List.suffix_nil.mp hs
  | cons j tail ih =>
      rcases List.suffix_cons_iff.mp hs with he | hs
      · rw [← he, thin, if_pos hd]
        exact Nat.lt_succ_of_le (length_thin_le f dropped rest)
      · simp only [thin]
        split
        · exact Nat.lt_succ_of_lt (ih hs)
        · exact Nat.succ_lt_succ (ih hs)

/-- The copies of a link are dropped if its two sides replace each other or get the same image. -/
theorem length_applyLinks_lt_of_link {link : Register × Register}
    (hm : link ∈ links (definitions code))
    (hdropped : Linked code link.2.key link.1.key ∨ Unites (links (definitions code)) link)
    : (applyLinks (links (definitions code)) code).length < code.length := by
  obtain ⟨r, q, hcopy, hr, hq⟩ := (isLink_of_mem_links hm).copied
  obtain ⟨before, rest, hcode⟩ := List.append_of_mem hcopy
  have hs : .assign (.register r) (.value (.register q)) :: rest <:+ code := ⟨before, hcode.symm⟩
  rw [applyLinks_eq_thin]
  refine length_thin_lt hs ?_
  simp only [List.head?_cons, Option.any_some, Bool.or_eq_true]
  rcases hdropped with ⟨back, hback, hs, ht⟩ | hunites
  · left
    simp only [isMutualCopy, links?, Bool.and_eq_true, List.any_eq_true, decide_eq_true_eq]
    exact ⟨⟨_, hm, Value.registers_same_iff.mpr hr.symm, Value.registers_same_iff.mpr hq.symm⟩,
      ⟨back, hback, Value.registers_same_iff.mpr (hs.trans hq.symm),
        Value.registers_same_iff.mpr (ht.trans hr.symm)⟩⟩
  · right
    have hf := Substitution.renames_leaf (onRegisters_mapping (links (definitions code)))
    obtain ⟨r', hr', hrk⟩ := hf.register r
    obtain ⟨q', hq', hqk⟩ := hf.register q
    simp only [Inst.rename, Inst.mapValues, Expr.mapValues, Value.mapLeaves, hr', hq', isSelfCopy,
      decide_eq_true_eq]
    rw [Value.registers_same_iff, hqk, hrk, hr, hq]
    exact hunites.symm

/-- Replacing copied registers drops an instruction, unless registers copy each other in a circle.
-/
theorem length_applyLinks_lt (h : ¬ CopiesInCircle code) (hne : links (definitions code) ≠ [])
    : (applyLinks (links (definitions code)) code).length < code.length := by
  obtain ⟨link, hm, hdropped⟩ := exists_dropped_link h hne
  exact length_applyLinks_lt_of_link hm hdropped

-- The end of the replacements

/-- A result does not change with more steps. -/
theorem replaceChains?_mono {steps more : Nat} (hle : steps ≤ more) {code result : List Inst}
    (h : replaceChains? steps code = some result)
    : replaceChains? more code = some result := by
  induction steps generalizing more code with
  | zero => cases h
  | succ steps ih =>
      obtain ⟨more, rfl⟩ := Nat.exists_eq_add_of_le' (Nat.le_trans (Nat.le_add_left 1 steps) hle)
      simp only [replaceChains?] at h ⊢
      split at h
      · rename_i hl
        simpa only [hl] using h
      · split at h
        · rename_i hsame
          simpa only [hsame, if_true] using h
        · rename_i hdiff
          simpa only [hdiff, if_false] using ih (Nat.le_of_succ_le_succ hle) h

theorem replaceChains?_succ {steps : Nat} (hl : links (definitions code) ≠ [])
    (hd : ¬ SameCode (applyLinks (links (definitions code)) code) code)
    : replaceChains? (steps + 1) code
      = replaceChains? steps (applyLinks (links (definitions code)) code) := by
  simp only [replaceChains?, hd, if_false]

/-- Where no code copies in a circle, replacements come to an end before their number exceeds the
length of the code. Each of them makes the code shorter.
-/
theorem replaceChains?_ends {P : List Inst → Prop}
    (hcircle : ∀ {code}, P code → ¬ CopiesInCircle code)
    (hstep : ∀ {code}, P code → links (definitions code) ≠ [] →
      P (applyLinks (links (definitions code)) code))
    {steps : Nat} (h : P code) (hs : code.length < steps)
    : ∃ result, replaceChains? steps code = some result ∧ P result
        ∧ (result = code ∨ result.length < code.length) := by
  induction steps generalizing code with
  | zero => cases hs
  | succ steps ih =>
      by_cases hl : links (definitions code) = []
      · exact ⟨code, by simp [replaceChains?, hl], h, .inl rfl⟩
      · have hlt := length_applyLinks_lt (hcircle h) hl
        obtain ⟨result, hr, hP, hlen⟩ := ih (hstep h hl) (by omega)
        have hdiff : ¬ SameCode (applyLinks (links (definitions code)) code) code := by
          intro hsame
          have := congrArg List.length hsame
          simp only [List.length_map] at this
          omega
        refine ⟨result, (replaceChains?_succ hl hdiff).trans hr, hP, .inr ?_⟩
        rcases hlen with rfl | hlen
        · exact hlt
        · omega

end StackLift
