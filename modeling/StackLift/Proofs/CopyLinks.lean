import Mathlib.Data.List.Induction
import StackLift.Proofs.Substitutions

/-!
The links between registers that a code gives: what the collected definitions say about its
assignments.
-/

namespace StackLift

open CopyChains Register

theorem Register.same_iff {r q : Register}
    : r.Same q ↔ r.key = q.key := by
  simp [Same, key]

/-- The expressions that a code assigns to a register, in its order. -/
def sourcesOf (code : List Inst) (x : RegisterKey) : List Expr :=
  code.filterMap fun i =>
    match i with
    | .assign (.register r) e => if r.key = x then some e else none
    | _ => none

variable {code : List Inst}

theorem mem_sourcesOf {x : RegisterKey} {e : Expr}
    : e ∈ sourcesOf code x ↔ ∃ r, .assign (.register r) e ∈ code ∧ r.key = x := by
  simp only [sourcesOf, List.mem_filterMap]
  constructor
  · rintro ⟨i, hi, he⟩
    cases i with
    | assign target source =>
        cases target with
        | register r =>
            simp only [Option.ite_none_right_eq_some, Option.some.injEq] at he
            obtain ⟨hk, rfl⟩ := he
            exact ⟨r, hi, hk⟩
        | _ => cases he
    | _ => cases he
  · rintro ⟨r, hr, hk⟩
    exact ⟨_, hr, by simp [hk]⟩

/-- A register that is assigned at most once is assigned at one place. -/
theorem suffix_eq_of_sourcesOf {x : RegisterKey}
    (h : (sourcesOf code x).length ≤ 1) {r r' : Register} {e e' : Expr}
    {tail tail' : List Inst} (hs : .assign (.register r) e :: tail <:+ code)
    (hs' : .assign (.register r') e' :: tail' <:+ code) (hr : r.key = x) (hr' : r'.key = x)
    : Inst.assign (.register r) e :: tail = .assign (.register r') e' :: tail' := by
  -- Two different places would give two sources.
  have later : ∀ {r r' : Register} {e e' : Expr} {tail tail' : List Inst},
      .assign (.register r) e :: tail <:+ code → .assign (.register r') e' :: tail' <:+ tail →
      r.key = x → r'.key = x → False := by
    intro r r' e e' tail tail' hs hs' hr hr'
    have hlen := (hs.sublist.filterMap fun i =>
      match i with
      | .assign (.register r) e => if r.key = x then some e else none
      | _ => none).length_le
    have hmem : e' ∈ sourcesOf tail x :=
      mem_sourcesOf.mpr ⟨r', hs'.subset List.mem_cons_self, hr'⟩
    have hpos := List.length_pos_of_mem hmem
    simp only [sourcesOf] at h hpos
    simp only [List.filterMap_cons, hr, if_true, List.length_cons] at hlen
    omega
  rcases List.suffix_or_suffix_of_suffix hs hs' with hsuf | hsuf
  · rcases List.suffix_cons_iff.mp hsuf with he | hsuf
    · exact he
    · exact (later hs' hsuf hr' hr).elim
  · rcases List.suffix_cons_iff.mp hsuf with he | hsuf
    · exact he.symm
    · exact (later hs hsuf hr hr').elim

-- Collected definitions

/-- The definitions have different registers, and each has the sources that the code assigns to its
register.
-/
structure Collects (ds : List Definition) (code : List Inst) : Prop where
  distinct : (ds.map fun d => d.register.key).Nodup
  sources : ∀ d ∈ ds, d.sources = sourcesOf code d.register.key
  complete : ∀ x, sourcesOf code x ≠ [] → ∃ d ∈ ds, d.register.key = x

theorem keys_addSource (r : Register) (e : Expr) (ds : List Definition)
    : (addSource r e ds).map (fun d => d.register.key)
      = if r.key ∈ ds.map fun d => d.register.key then ds.map fun d => d.register.key
        else (ds.map fun d => d.register.key) ++ [r.key] := by
  induction ds with
  | nil => simp [addSource]
  | cons d ds ih =>
      by_cases hd : d.register.key = r.key
      · simp [addSource, same_iff, hd]
      · simp only [addSource, same_iff, hd, if_false, List.map_cons, ih, List.mem_cons,
          Ne.symm hd, false_or]
        split <;> simp

variable {ds : List Definition}

/-- Each definition after adding a source was there before, possibly with one source less. -/
theorem mem_addSource {r : Register} {e : Expr} {d : Definition}
    (hd : (ds.map fun d => d.register.key).Nodup) (h : d ∈ addSource r e ds)
    : (d ∈ ds ∧ d.register.key ≠ r.key)
      ∨ (d.register.key = r.key
          ∧ ((∃ d₀ ∈ ds, d₀.register.key = r.key ∧ d.sources = d₀.sources ++ [e])
            ∨ (r.key ∉ ds.map (fun d => d.register.key) ∧ d.sources = [e]))) := by
  induction ds with
  | nil =>
      simp only [addSource, List.mem_singleton] at h
      subst h
      exact .inr ⟨rfl, .inr ⟨by simp, rfl⟩⟩
  | cons d₁ ds ih =>
      simp only [List.map_cons, List.nodup_cons] at hd
      by_cases h₁ : d₁.register.key = r.key
      · simp only [addSource, same_iff, h₁, if_true, List.mem_cons] at h
        rcases h with rfl | h
        · exact .inr ⟨h₁, .inl ⟨d₁, List.mem_cons_self, h₁, rfl⟩⟩
        · refine .inl ⟨List.mem_cons_of_mem _ h, fun hk => hd.1 ?_⟩
          exact List.mem_map.mpr ⟨d, h, hk.trans h₁.symm⟩
      · simp only [addSource, same_iff, h₁, if_false, List.mem_cons] at h
        rcases h with rfl | h
        · exact .inl ⟨List.mem_cons_self, h₁⟩
        · rcases ih hd.2 h with ⟨hm, hk⟩ | ⟨hk, ⟨d₀, hm, hk₀, hs⟩ | ⟨hn, hs⟩⟩
          · exact .inl ⟨List.mem_cons_of_mem _ hm, hk⟩
          · exact .inr ⟨hk, .inl ⟨d₀, List.mem_cons_of_mem _ hm, hk₀, hs⟩⟩
          · exact .inr ⟨hk, .inr ⟨by simp [Ne.symm h₁] at hn ⊢; exact hn, hs⟩⟩

theorem sourcesOf_append (code more : List Inst) (x : RegisterKey)
    : sourcesOf (code ++ more) x = sourcesOf code x ++ sourcesOf more x :=
  List.filterMap_append

theorem sourcesOf_assign (r : Register) (e : Expr) (x : RegisterKey)
    : sourcesOf [.assign (.register r) e] x = if r.key = x then [e] else [] := by
  by_cases h : r.key = x <;> simp [sourcesOf, h]

theorem Collects.addSource (h : Collects ds code) (r : Register) (e : Expr)
    : Collects (addSource r e ds) (code ++ [Inst.assign (.register r) e]) where
  distinct := by
    rw [keys_addSource]
    split
    · exact h.distinct
    · rename_i hn
      exact List.nodup_append.mpr ⟨h.distinct, by simp, by simpa using hn⟩
  sources d hd := by
    rw [sourcesOf_append, sourcesOf_assign]
    rcases mem_addSource h.distinct hd with
      ⟨hm, hk⟩ | ⟨hk, ⟨d₀, hm, hk₀, hs⟩ | ⟨hn, hs⟩⟩
    · rw [if_neg (Ne.symm hk), List.append_nil, h.sources d hm]
    · rw [if_pos hk.symm, hs, h.sources d₀ hm, hk₀, hk]
    · have hempty : sourcesOf code r.key = [] := by
        by_contra hne
        obtain ⟨d₀, hm, hk₀⟩ := h.complete r.key hne
        exact hn (List.mem_map.mpr ⟨d₀, hm, hk₀⟩)
      rw [if_pos hk.symm, hs, hk, hempty, List.nil_append]
  complete x hx := by
    have hkey : x ∈ (CopyChains.addSource r e ds).map fun d => d.register.key := by
      rw [keys_addSource]
      rw [sourcesOf_append, sourcesOf_assign] at hx
      by_cases hr : r.key = x
      · split <;> simp_all
      · simp only [hr, if_false, List.append_nil] at hx
        obtain ⟨d, hd, hk⟩ := h.complete x hx
        have hm : x ∈ ds.map fun d => d.register.key := List.mem_map.mpr ⟨d, hd, hk⟩
        split
        · exact hm
        · exact List.mem_append_left _ hm
    obtain ⟨d, hd, hk⟩ := List.mem_map.mp hkey
    exact ⟨d, hd, hk⟩

/-- Other instructions give no sources. -/
theorem Collects.skip (h : Collects ds code) {i : Inst} (hi : ∀ r e, i ≠ .assign (.register r) e)
    : Collects ds (code ++ [i]) := by
  have hnone : ∀ x, sourcesOf (code ++ [i]) x = sourcesOf code x := by
    intro x
    have hempty : sourcesOf [i] x = [] := by
      refine List.eq_nil_iff_forall_not_mem.mpr fun e he => ?_
      obtain ⟨r, hr, -⟩ := mem_sourcesOf.mp he
      exact hi r e (List.mem_singleton.mp hr).symm
    rw [sourcesOf_append, hempty, List.append_nil]
  exact ⟨h.distinct, fun d hd => by rw [hnone, h.sources d hd],
    fun x hx => h.complete x (hnone x ▸ hx)⟩

/-- The collected definitions of a code, by induction from its end. -/
theorem collects_definitions (code : List Inst)
    : Collects (definitions code) code := by
  induction code using List.reverseRecOn with
  | nil => exact ⟨by simp [definitions], nofun, fun x hx => absurd rfl hx⟩
  | append_singleton code i ih =>
      simp only [definitions, List.foldl_append, List.foldl_cons, List.foldl_nil]
      split
      · exact ih.addSource _ _
      · rename_i hi
        exact ih.skip fun r e he => hi r e he

-- Links

/-- All assignments of the first register copy the second one, which is assigned at most once. -/
structure IsLink (code : List Inst) (t s : RegisterKey) : Prop where
  copies : ∀ {r : Register} {e : Expr}, .assign (.register r) e ∈ code → r.key = t →
    ∃ q : Register, e = .value (.register q) ∧ q.key = s
  copied : ∃ r q : Register, .assign (.register r) (.value (.register q)) ∈ code
    ∧ r.key = t ∧ q.key = s
  once : (sourcesOf code s).length ≤ 1

theorem Expr.same_register_iff {e : Expr} {r : Register}
    : e.Same (.value (.register r)) ↔ ∃ q, e = .value (.register q) ∧ q.key = r.key := by
  cases e with
  | value v =>
      simp only [Expr.Same, Expr.anonymous, Expr.mapValues, Expr.value.injEq]
      exact Value.same_register_iff
  | _ => simp [Expr.Same, Expr.anonymous, Expr.mapValues]

theorem Expr.eq_of_register? {e : Expr} {q : Register} (h : e.register? = some q)
    : e = .value (.register q) := by
  cases e with
  | value v => cases v <;> simp_all [Expr.register?, Expr.value?, Value.register?]
  | _ => cases h

theorem isLink_of_mem_links {t s : Register} (h : (t, s) ∈ links (definitions code))
    : IsLink code t.key s.key := by
  have hc := collects_definitions code
  obtain ⟨d, hd, hl⟩ := List.mem_filterMap.mp h
  cases hcop : copied? d with
  | none => simp [hcop] at hl
  | some source =>
      simp only [hcop, Option.ite_none_right_eq_some, Option.some.injEq, Prod.mk.injEq] at hl
      obtain ⟨hone, rfl, rfl⟩ := hl
      have hsources := hc.sources d hd
      cases hds : d.sources with
      | nil => simp [copied?, hds] at hcop
      | cons first rest =>
          simp only [copied?, hds, Option.ite_none_right_eq_some, List.all_eq_true,
            decide_eq_true_eq] at hcop
          obtain ⟨hall, hreg⟩ := hcop
          obtain rfl := Expr.eq_of_register? hreg
          rw [hds] at hsources
          refine ⟨?_, ?_, ?_⟩
          · intro r e hr hk
            have hm : e ∈ sourcesOf code d.register.key := mem_sourcesOf.mpr ⟨r, hr, hk⟩
            rw [← hsources, List.mem_cons] at hm
            rcases hm with rfl | hm
            · exact ⟨source, rfl, rfl⟩
            · exact Expr.same_register_iff.mp (hall e hm)
          · have hm : .value (.register source) ∈ sourcesOf code d.register.key :=
              hsources ▸ List.mem_cons_self
            obtain ⟨r, hr, hk⟩ := mem_sourcesOf.mp hm
            exact ⟨r, source, hr, hk, rfl⟩
          · by_cases hempty : sourcesOf code source.key = []
            · simp [hempty]
            · obtain ⟨d', hd', hk'⟩ := hc.complete source.key hempty
              simp only [hasOneSource, Option.all_eq_true, decide_eq_true_eq] at hone
              obtain ⟨d'', hf⟩ : ∃ d'', (definitions code).find?
                  (fun d => d.register.Same source) = some d'' := by
                rw [← Option.isSome_iff_exists, List.find?_isSome]
                exact ⟨d', hd', by simpa [same_iff] using hk'⟩
              have hsame := List.find?_some hf
              simp only [decide_eq_true_eq, same_iff] at hsame
              rw [← hsame, ← hc.sources d'' (List.mem_of_find?_eq_some hf), hone d'' hf]

end StackLift
