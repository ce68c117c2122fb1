import StackLift.Proofs.Outcomes
import StackLift.Proofs.StatementLabels

/-!
Reading a line mentions the label names of its statement, from left to right, and nothing else that
it reads changes the labels.
-/

namespace StackLift.Listing

-- Operands

namespace OperandReader

variable {α β : Type} {tokens rest : List Token}

theorem bind_eq_ok {x : OperandReader α} {f : α → OperandReader β} {b : β}
    : (x >>= f) tokens = .ok (b, rest)
      ↔ ∃ a mid, x tokens = .ok (a, mid) ∧ f a mid = .ok (b, rest) := by
  refine Iff.trans except_bind_eq_ok ?_
  exact ⟨fun ⟨⟨a, mid⟩, hx, hf⟩ => ⟨a, mid, hx, hf⟩, fun ⟨a, mid, hx, hf⟩ => ⟨(a, mid), hx, hf⟩⟩

theorem word_eq_ok {what text : String}
    : word what tokens = .ok (text, rest) ↔ tokens = .word text :: rest := by
  cases tokens with
  | nil => simp [word]
  | cons token others => cases token <;> simp [word]

theorem orFail_eq_ok {value? : Option α} {fault : Fault} {a : α}
    : orFail value? fault tokens = .ok (a, rest) ↔ value? = some a ∧ tokens = rest := by
  cases value? with
  | none => simp [orFail, fail]
  | some value =>
      simp only [orFail, Option.some.injEq]
      exact ⟨fun h => by cases h; exact ⟨rfl, rfl⟩, fun ⟨ha, hr⟩ => by rw [ha, hr]; rfl⟩

theorem number_eq_ok {range : IntRange} {what : String} {n : Int}
    (h : number range what tokens = .ok (n, rest))
    : ∃ text, tokens = .word text :: rest ∧ range.read? text = some n := by
  obtain ⟨text, mid, hword, h⟩ := bind_eq_ok.mp h
  obtain ⟨hread, rfl⟩ := orFail_eq_ok.mp h
  exact ⟨text, word_eq_ok.mp hword, hread⟩

theorem finish_eq_ok {u : Unit} (h : finish tokens = .ok (u, rest))
    : tokens = [] := by
  unfold finish at h
  split at h <;> cases h
  rfl

theorem memberName_rest {text : String} {name : MemberName}
    (h : memberName text tokens = .ok (name, rest))
    : tokens = rest := by
  unfold memberName at h
  cases hread : MemberName.ofString text with
  | error fault =>
      rw [hread] at h
      cases h
  | ok value =>
      rw [hread] at h
      cases h
      rfl

theorem descriptor_rest {read : String → Except DescriptorError α} {text : String} {a : α}
    (h : descriptor read text tokens = .ok (a, rest))
    : tokens = rest := by
  unfold descriptor at h
  cases hread : read text with
  | error cause =>
      rw [hread] at h
      cases h
  | ok value =>
      rw [hread] at h
      cases h
      rfl

end OperandReader

-- Lines

namespace LineReader

variable {α β : Type} {labels labels' : Labels} {tokens rest : List Token}

theorem bind_eq_ok {x : LineReader α} {f : α → LineReader β} {b : β}
    : (x >>= f) labels tokens = .ok ((b, labels'), rest)
      ↔ ∃ a labels₁ mid, x labels tokens = .ok ((a, labels₁), mid)
        ∧ f a labels₁ mid = .ok ((b, labels'), rest) := by
  refine Iff.trans except_bind_eq_ok ?_
  exact ⟨fun ⟨⟨⟨a, l⟩, mid⟩, hx, hf⟩ => ⟨a, l, mid, hx, hf⟩,
    fun ⟨a, l, mid, hx, hf⟩ => ⟨((a, l), mid), hx, hf⟩⟩

theorem map_eq_ok {x : LineReader α} {f : α → β} {b : β}
    : (f <$> x) labels tokens = .ok ((b, labels'), rest)
      ↔ ∃ a, x labels tokens = .ok ((a, labels'), rest) ∧ f a = b := by
  rw [map_eq_pure_bind, bind_eq_ok]
  constructor
  · intro ⟨a, _, _, hx, hf⟩
    cases hf
    exact ⟨a, hx, rfl⟩
  · intro ⟨a, hx, hf⟩
    exact ⟨a, labels', rest, hx, hf ▸ rfl⟩

variable {x : OperandReader α}

theorem lift_eq_ok {a : α}
    : (liftM x : LineReader α) labels tokens = .ok ((a, labels'), rest)
      ↔ labels = labels' ∧ x tokens = .ok (a, rest) := by
  refine Iff.trans except_bind_eq_ok ?_
  constructor
  · intro ⟨⟨b, mid⟩, hx, hf⟩
    cases hf
    exact ⟨rfl, hx⟩
  · intro ⟨hl, hx⟩
    exact ⟨(a, rest), hx, hl ▸ rfl⟩

/-- A reader that mentions no labels leaves them as they are. -/
theorem lift_bind_eq_ok {f : α → LineReader β} {b : β}
    : (liftM x >>= f) labels tokens = .ok ((b, labels'), rest)
      ↔ ∃ a mid, x tokens = .ok (a, mid) ∧ f a labels mid = .ok ((b, labels'), rest) := by
  rw [bind_eq_ok]
  constructor
  · intro ⟨a, _, mid, hx, hf⟩
    obtain ⟨rfl, hread⟩ := lift_eq_ok.mp hx
    exact ⟨a, mid, hread, hf⟩
  · intro ⟨a, mid, hx, hf⟩
    exact ⟨a, labels, mid, lift_eq_ok.mpr ⟨rfl, hx⟩, hf⟩

theorem label_eq_ok {name : String} {l : Label}
    : label name labels tokens = .ok ((l, labels'), rest)
      ↔ labels.mention name = (l, labels') ∧ tokens = rest := by
  constructor
  · intro h
    have hpair := Except.ok.inj h
    exact ⟨congrArg Prod.fst hpair, congrArg Prod.snd hpair⟩
  · intro ⟨hl, hr⟩
    rw [hr]
    exact congrArg (fun found => Except.ok (found, rest)) hl

theorem labelOperand_eq_ok {l : Label}
    (h : labelOperand labels tokens = .ok ((l, labels'), rest))
    : ∃ name, tokens = .word name :: rest ∧ labels.mention name = (l, labels') := by
  obtain ⟨name, mid, hword, h⟩ := lift_bind_eq_ok.mp h
  obtain ⟨hl, rfl⟩ := label_eq_ok.mp h
  exact ⟨name, OperandReader.word_eq_ok.mp hword, hl⟩

theorem labelsWithin_eq_ok {fuel : Nat} {ls : List Label}
    (h : labelsWithin fuel labels tokens = .ok ((ls, labels'), rest))
    : ∃ names, tokens = names.map .word ++ rest ∧ labels.mentionAll names = (ls, labels') := by
  induction fuel generalizing labels tokens ls with
  | zero =>
      cases h
      exact ⟨[], rfl, rfl⟩
  | succ fuel ih =>
      obtain ⟨ended, mid, hended, h⟩ := lift_bind_eq_ok.mp h
      cases hended
      split at h
      next =>
        cases h
        exact ⟨[], rfl, rfl⟩
      next =>
        obtain ⟨first, labels₁, mid, hfirst, h⟩ := bind_eq_ok.mp h
        obtain ⟨others, labels₂, mid', hothers, h⟩ := bind_eq_ok.mp h
        cases h
        obtain ⟨name, rfl, hname⟩ := labelOperand_eq_ok hfirst
        obtain ⟨names, rfl, hnames⟩ := ih hothers
        exact ⟨name :: names, rfl, Labels.mentionAll_cons hname hnames⟩

theorem labelOperands_eq_ok {ls : List Label}
    (h : labelOperands labels tokens = .ok ((ls, labels'), rest))
    : ∃ names, tokens = names.map .word ++ rest ∧ labels.mentionAll names = (ls, labels') := by
  obtain ⟨fuel, _, mid, hfuel, h⟩ := bind_eq_ok.mp h
  cases hfuel
  exact labelsWithin_eq_ok h

-- Stack map frames

theorem verificationType_eq_ok {t : VerificationType}
    (h : verificationType labels tokens = .ok ((t, labels'), rest))
    : ∃ text, tokens = .word text :: rest
        ∧ labels.mentionAll (uninitializedLabel? text).toList = (t.label?.toList, labels') := by
  obtain ⟨text, mid, hword, h⟩ := lift_bind_eq_ok.mp h
  refine ⟨text, ?_⟩
  rw [OperandReader.word_eq_ok.mp hword]
  split at h
  case h_8 =>
    cases hname : uninitializedLabel? text with
    | some name =>
        rw [hname] at h
        obtain ⟨l, hl, rfl⟩ := map_eq_ok.mp h
        obtain ⟨hmention, rfl⟩ := label_eq_ok.mp hl
        exact ⟨rfl, Labels.mentionAll_cons hmention rfl⟩
    | none =>
        rw [hname] at h
        obtain ⟨type, htype, rfl⟩ := map_eq_ok.mp h
        obtain ⟨rfl, hread⟩ := lift_eq_ok.mp htype
        exact ⟨by rw [OperandReader.descriptor_rest hread], rfl⟩
  all_goals
    cases h
    exact ⟨rfl, rfl⟩

theorem filterMap_cons_toList (f : α → Option β) (a : α) (rest : List α)
    : (a :: rest).filterMap f = (f a).toList ++ rest.filterMap f := by
  cases h : f a <;> simp [h]

theorem typesWithin_eq_ok {divided : Bool} {fuel : Nat} {ts : List VerificationType}
    (h : typesWithin divided fuel labels tokens = .ok ((ts, labels'), rest))
    : ∃ texts : List String, tokens = texts.map .word ++ rest
        ∧ labels.mentionAll (texts.filterMap uninitializedLabel?)
          = (ts.filterMap VerificationType.label?, labels') := by
  induction fuel generalizing labels tokens ts with
  | zero =>
      cases h
      exact ⟨[], rfl, rfl⟩
  | succ fuel ih =>
      obtain ⟨ended, mid, hended, h⟩ := lift_bind_eq_ok.mp h
      cases hended
      split at h
      next =>
        cases h
        exact ⟨[], rfl, rfl⟩
      next =>
        obtain ⟨barred, mid, hbarred, h⟩ := lift_bind_eq_ok.mp h
        cases hbarred
        split at h
        next =>
          cases h
          exact ⟨[], rfl, rfl⟩
        next =>
          obtain ⟨first, labels₁, mid, hfirst, h⟩ := bind_eq_ok.mp h
          obtain ⟨others, labels₂, mid', hothers, h⟩ := bind_eq_ok.mp h
          cases h
          obtain ⟨text, rfl, htext⟩ := verificationType_eq_ok hfirst
          obtain ⟨texts, rfl, htexts⟩ := ih hothers
          refine ⟨text :: texts, rfl, ?_⟩
          rw [filterMap_cons_toList, filterMap_cons_toList]
          exact Labels.mentionAll_append htext htexts

theorem types_eq_ok {divided : Bool} {ts : List VerificationType}
    (h : types divided labels tokens = .ok ((ts, labels'), rest))
    : ∃ texts : List String, tokens = texts.map .word ++ rest
        ∧ labels.mentionAll (texts.filterMap uninitializedLabel?)
          = (ts.filterMap VerificationType.label?, labels') := by
  obtain ⟨fuel, _, mid, hfuel, h⟩ := bind_eq_ok.mp h
  cases hfuel
  exact typesWithin_eq_ok h

theorem frameKind?_eq_chop {text : String} {kind : FrameKind} (h : frameKind? text = some kind)
    : text = "chop" ↔ kind = .chop := by
  unfold frameKind? at h
  split at h <;> cases h <;> simp

/-- The types of a full frame: the locals, and after a bar the stack. -/
theorem dividedTypes_eq_ok {kind : FrameKind} {f : StackMapFrame}
    (h : (do
      let locals ← types true
      if ← OperandReader.startsWith "|" then
        let _ ← OperandReader.next?
        let stack ← types false
        pure { kind, locals, stack, chopped := 0 }
      else
        pure { kind, locals, stack := [], chopped := 0 } : LineReader StackMapFrame) labels tokens
      = .ok ((f, labels'), rest))
    : ∃ texts : List String, tokens = texts.map .word ++ rest
        ∧ labels.mentionAll (texts.filterMap uninitializedLabel?) = (f.labels, labels') := by
  obtain ⟨locals, labels₁, mid, hlocals, h⟩ := bind_eq_ok.mp h
  obtain ⟨texts, htokens, hmentions⟩ := types_eq_ok hlocals
  obtain ⟨barred, _, hbarred, h⟩ := lift_bind_eq_ok.mp h
  cases hbarred
  split at h
  next hbar =>
    obtain ⟨bar, mid', hnext, h⟩ := lift_bind_eq_ok.mp h
    cases hnext
    obtain ⟨stack, labels₂, mid'', hstack, h⟩ := bind_eq_ok.mp h
    cases h
    obtain ⟨others, hothers, hmore⟩ := types_eq_ok hstack
    obtain ⟨tail, rfl⟩ := List.head?_eq_some_iff.mp (of_decide_eq_true hbar)
    refine ⟨texts ++ "|" :: others, ?_, ?_⟩
    · simpa [htokens] using hothers
    · have hskip : uninitializedLabel? "|" = none := rfl
      rw [List.filterMap_append, List.filterMap_cons_none hskip, StackMapFrame.labels,
        List.filterMap_append]
      exact Labels.mentionAll_append hmentions hmore
  next =>
    cases h
    exact ⟨texts, htokens, by simpa [StackMapFrame.labels] using hmentions⟩

theorem stackMapFrame_eq_ok {f : StackMapFrame}
    (h : stackMapFrame labels tokens = .ok ((f, labels'), rest))
    : ∃ texts : List String, tokens = texts.map .word ++ rest
        ∧ labels.mentionAll (if texts.head? = some "chop" then []
            else (texts.drop 1).filterMap uninitializedLabel?)
          = (f.labels, labels') := by
  obtain ⟨text, mid, hword, h⟩ := lift_bind_eq_ok.mp h
  obtain ⟨kind, _, hkind, h⟩ := lift_bind_eq_ok.mp h
  obtain ⟨hknown, rfl⟩ := OperandReader.orFail_eq_ok.mp hkind
  have hchop := frameKind?_eq_chop hknown
  have htypes : kind ≠ .chop → (∃ texts : List String, mid = texts.map .word ++ rest
        ∧ labels.mentionAll (texts.filterMap uninitializedLabel?) = (f.labels, labels')) →
      ∃ texts : List String, tokens = texts.map .word ++ rest
        ∧ labels.mentionAll (if texts.head? = some "chop" then []
            else (texts.drop 1).filterMap uninitializedLabel?) = (f.labels, labels') := by
    intro hother ⟨texts, hmid, hmentions⟩
    refine ⟨text :: texts, ?_, ?_⟩
    · rw [OperandReader.word_eq_ok.mp hword, hmid]
      rfl
    · rw [List.head?_cons, if_neg fun same => hother (hchop.mp (Option.some.inj same))]
      exact hmentions
  cases kind with
  | full => exact htypes (by simp) (dividedTypes_eq_ok h)
  | new => exact htypes (by simp) (dividedTypes_eq_ok h)
  | append =>
      obtain ⟨locals, labels₁, mid', hlocals, h⟩ := bind_eq_ok.mp h
      cases h
      obtain ⟨texts, hmid, hmentions⟩ := types_eq_ok hlocals
      exact htypes (by simp) ⟨texts, hmid, by simpa [StackMapFrame.labels] using hmentions⟩
  | chop =>
      obtain ⟨count, mid', hcount, h⟩ := lift_bind_eq_ok.mp h
      cases h
      obtain ⟨digits, hdigits, -⟩ := OperandReader.number_eq_ok hcount
      refine ⟨[text, digits], ?_, ?_⟩
      · rw [OperandReader.word_eq_ok.mp hword, hdigits]
        rfl
      · rw [List.head?_cons, if_pos (by rw [hchop.mpr rfl])]
        rfl
  | same =>
      cases h
      exact htypes (by simp) ⟨[], rfl, rfl⟩
  | same1 =>
      obtain ⟨entry, labels₁, mid', hentry, h⟩ := bind_eq_ok.mp h
      cases h
      obtain ⟨word, hmid, hmentions⟩ := verificationType_eq_ok hentry
      refine htypes (by simp) ⟨[word], hmid, ?_⟩
      rw [StackMapFrame.labels, List.nil_append, filterMap_cons_toList, filterMap_cons_toList]
      simpa using hmentions

-- Instructions

theorem switchCase_eq_ok {c : Int32 × Label}
    (h : switchCase labels tokens = .ok ((c, labels'), rest))
    : ∃ text name, tokens = .word text :: rest ∧ switchCase? text = some (c.1, name)
        ∧ labels.mention name = (c.2, labels') := by
  obtain ⟨text, mid, hword, h⟩ := lift_bind_eq_ok.mp h
  obtain ⟨⟨digits, name⟩, _, hsplit, h⟩ := lift_bind_eq_ok.mp h
  obtain ⟨hparts, rfl⟩ := OperandReader.orFail_eq_ok.mp hsplit
  obtain ⟨key, _, hkey, h⟩ := lift_bind_eq_ok.mp h
  obtain ⟨hread, rfl⟩ := OperandReader.orFail_eq_ok.mp hkey
  obtain ⟨target, labels₁, _, htarget, h⟩ := bind_eq_ok.mp h
  obtain ⟨hmention, rfl⟩ := label_eq_ok.mp htarget
  cases h
  refine ⟨text, name, OperandReader.word_eq_ok.mp hword, ?_, hmention⟩
  simp [switchCase?, hparts, hread]

theorem casesWithin_eq_ok {fuel : Nat} {cs : List (Int32 × Label)}
    (h : casesWithin fuel labels tokens = .ok ((cs, labels'), rest))
    : ∃ texts : List String, tokens = texts.map .word ++ rest
        ∧ cs.map Prod.fst = (texts.filterMap switchCase?).map Prod.fst
        ∧ labels.mentionAll ((texts.filterMap switchCase?).map Prod.snd)
          = (cs.map Prod.snd, labels') := by
  induction fuel generalizing labels tokens cs with
  | zero =>
      cases h
      exact ⟨[], rfl, rfl, rfl⟩
  | succ fuel ih =>
      obtain ⟨ended, mid, hended, h⟩ := lift_bind_eq_ok.mp h
      cases hended
      split at h
      next =>
        cases h
        exact ⟨[], rfl, rfl, rfl⟩
      next =>
        obtain ⟨first, labels₁, mid, hfirst, h⟩ := bind_eq_ok.mp h
        obtain ⟨others, labels₂, mid', hothers, h⟩ := bind_eq_ok.mp h
        cases h
        obtain ⟨text, name, rfl, hcase, hname⟩ := switchCase_eq_ok hfirst
        obtain ⟨texts, rfl, hkeys, hnames⟩ := ih hothers
        refine ⟨text :: texts, rfl, ?_, ?_⟩
        · rw [List.filterMap_cons_some hcase, List.map_cons, List.map_cons, hkeys]
        · rw [List.filterMap_cons_some hcase, List.map_cons, List.map_cons]
          exact Labels.mentionAll_cons hname hnames

/-- The first words of the statements that mention labels, apart from labels at their place. -/
def mentioningHeads : List String :=
  ["try", "local", "line", "frame", "tableswitch", "lookupswitch"] ++ jumpMnemonics.map Prod.fst

theorem mentions_eq_nil {head : String} {operands : List Token}
    (hplain : Text.dropSuffix? ":" head = none) (hhead : head ∉ mentioningHeads)
    : Statement.mentions ⟨head, operands⟩ = [] := by
  unfold Statement.mentions
  rw [hplain]
  dsimp only
  split
  case h_7 => exact if_neg fun hjump => hhead (List.mem_append_right _ hjump)
  all_goals exact absurd (List.mem_append_left _ (by decide)) hhead

theorem mentions_of_jump {head : String} {operands : List Token}
    (hplain : Text.dropSuffix? ":" head = none) (hhead : head ∈ jumpMnemonics.map Prod.fst)
    : Statement.mentions ⟨head, operands⟩
      = (Statement.words ⟨head, operands⟩).take 1 := by
  unfold Statement.mentions
  rw [hplain]
  dsimp only
  split
  case h_7 => exact if_pos hhead
  all_goals exact absurd hhead (by decide)

theorem words_map_word (head : String) (texts : List String)
    : Statement.words ⟨head, texts.map .word⟩ = texts := by
  simp [Statement.words, List.filterMap_map, Function.comp_def, Token.word?]

/-- A reader of instructions reads the labels that the statement mentions, and no label at its
place.
-/
def ReadsMentions (opcode : String) (x : LineReader Node) : Prop :=
  ∀ (labels labels' : Labels) (tokens : List Token) (node : Node),
    x labels tokens = .ok ((node, labels'), []) →
      node.label? = none
        ∧ ∃ ls, labels.mentionAll (Statement.mentions ⟨opcode, tokens⟩) = (ls, labels')
        ∧ (Line.node node).Written ⟨opcode, tokens⟩ ls

/-- The reader mentions no labels and gives an instruction. -/
def Silent (x : LineReader Node) : Prop :=
  ∀ (labels labels' : Labels) (tokens rest : List Token) (node : Node),
    x labels tokens = .ok ((node, labels'), rest) → labels' = labels ∧ ∃ i, node = .plain i

theorem Silent.pure (i : Instruction)
    : Silent (pure (.plain i)) := by
  intro labels labels' tokens rest node h
  cases h
  exact ⟨rfl, i, rfl⟩

theorem Silent.bind {f : α → LineReader Node} (hf : ∀ a, Silent (f a))
    : Silent (liftM x >>= f) := by
  intro labels labels' tokens rest node h
  obtain ⟨a, mid, -, h⟩ := lift_bind_eq_ok.mp h
  exact hf a _ _ _ _ _ h

variable {opcode : String} {count : Nat}

theorem Silent.readsMentions {x : LineReader Node} (silent : Silent x)
    (hplain : Text.dropSuffix? ":" opcode = none) (hhead : opcode ∉ mentioningHeads)
    : ReadsMentions opcode x := by
  intro labels labels' tokens node h
  obtain ⟨rfl, i, rfl⟩ := silent _ _ _ _ _ h
  rw [mentions_eq_nil hplain hhead]
  exact ⟨rfl, [], rfl, rfl⟩

theorem readsMentions_tableSwitch (hplain : Text.dropSuffix? ":" "tableswitch" = none)
    : ReadsMentions "tableswitch" (do
        let low ← OperandReader.number .signed32 "lowest switch key"
        let default ← labelOperand
        let targets ← labelOperands
        pure (.branch (.tableSwitch default (.ofInt low) targets))) := by
  intro labels labels' tokens node h
  obtain ⟨low, mid, hlow, h⟩ := lift_bind_eq_ok.mp h
  obtain ⟨default, labels₁, mid₁, hdefault, h⟩ := bind_eq_ok.mp h
  obtain ⟨targets, labels₂, mid₂, htargets, h⟩ := bind_eq_ok.mp h
  cases h
  obtain ⟨digits, hdigits, -⟩ := OperandReader.number_eq_ok hlow
  obtain ⟨name, hword, hname⟩ := labelOperand_eq_ok hdefault
  obtain ⟨names, hothers, hnames⟩ := labelOperands_eq_ok htargets
  have htokens : tokens = (digits :: name :: names).map .word := by simp [hdigits, hword, hothers]
  have hwords := words_map_word "tableswitch" (digits :: name :: names)
  have hmentions : Statement.mentions ⟨"tableswitch", (digits :: name :: names).map .word⟩
      = name :: names := by
    simp only [Statement.mentions, hplain, hwords, List.drop_succ_cons, List.drop_zero]
  rw [htokens, hmentions]
  exact ⟨rfl, default :: targets, Labels.mentionAll_cons hname hnames, rfl⟩

theorem readsMentions_lookupSwitch (hplain : Text.dropSuffix? ":" "lookupswitch" = none)
    : ReadsMentions "lookupswitch" (do
        let default ← labelOperand
        let cases ← casesWithin (← remaining)
        pure (.branch (.lookupSwitch default (sortCases cases)))) := by
  intro labels labels' tokens node h
  obtain ⟨default, labels₁, mid₁, hdefault, h⟩ := bind_eq_ok.mp h
  obtain ⟨fuel, _, mid₂, hfuel, h⟩ := bind_eq_ok.mp h
  cases hfuel
  obtain ⟨written, labels₂, mid₃, hcases, h⟩ := bind_eq_ok.mp h
  cases h
  obtain ⟨name, hword, hname⟩ := labelOperand_eq_ok hdefault
  obtain ⟨texts, hothers, hkeys, hnames⟩ := casesWithin_eq_ok hcases
  have htokens : tokens = (name :: texts).map .word := by simp [hword, hothers]
  have hwords := words_map_word "lookupswitch" (name :: texts)
  have hcases : Statement.cases ⟨"lookupswitch", (name :: texts).map .word⟩
      = texts.filterMap switchCase? :=
    congrArg (fun words => (words.drop 1).filterMap switchCase?) hwords
  have hmentions : Statement.mentions ⟨"lookupswitch", (name :: texts).map .word⟩
      = name :: (texts.filterMap switchCase?).map Prod.snd := by
    simp only [Statement.mentions, hplain, hwords, Statement.cases]
    rfl
  rw [htokens, hmentions]
  exact ⟨rfl, default :: written.map Prod.snd, Labels.mentionAll_cons hname hnames, name, written,
    by rw [hmentions, hcases], rfl, by rw [hcases, hkeys], rfl⟩

section

variable (hplain : Text.dropSuffix? ":" opcode = none)
include hplain

theorem readsMentions_special
    : ReadsMentions opcode (special opcode) := by
  unfold special
  split
  case h_1 | h_2 | h_3 | h_4 | h_5 | h_7 =>
    exact Silent.readsMentions (.bind fun _ => .pure _) hplain (by decide)
  case h_6 | h_8 | h_9 | h_10 =>
    exact Silent.readsMentions (.bind fun _ => .bind fun _ => .pure _) hplain (by decide)
  case h_11 => exact readsMentions_tableSwitch hplain
  case h_12 => exact readsMentions_lookupSwitch hplain
  case h_13 =>
    intro labels labels' tokens node h
    cases h

theorem readsMentions_terminal {b : Branch} (h : terminalMnemonics.lookup opcode = some b)
    : ReadsMentions opcode (pure (.branch b)) := by
  have hterminal : ∀ e ∈ terminalMnemonics, e.1 ∉ mentioningHeads ∧ e.2.isTerminal = true := by
    decide +kernel
  obtain ⟨hhead, hb⟩ := hterminal _ (mem_of_lookup h)
  intro labels labels' tokens node hread
  cases hread
  rw [mentions_eq_nil hplain hhead]
  refine ⟨rfl, [], rfl, ?_⟩
  cases b with
  | returnValue | returnVoid | throw => rfl
  | _ => cases hb

theorem readsMentions_jump {make : Label → Branch} (h : jumpMnemonics.lookup opcode = some make)
    : ReadsMentions opcode (do pure (.branch (make (← labelOperand)))) := by
  have hmem := mem_of_lookup h
  intro labels labels' tokens node hread
  obtain ⟨l, labels₁, mid, hl, hread⟩ := bind_eq_ok.mp hread
  cases hread
  obtain ⟨name, rfl, hname⟩ := labelOperand_eq_ok hl
  rw [mentions_of_jump hplain (List.mem_map_of_mem hmem)]
  refine ⟨rfl, [l], Labels.mentionAll_cons hname rfl, ?_⟩
  have hmake : ∀ e ∈ jumpMnemonics,
      (Line.node (.branch (e.2 l))).Written ⟨opcode, [.word name]⟩ [l] := by
    simp [jumpMnemonics, Line.Written, Line.labels, Node.labels, Branch.targets]
  exact hmake _ hmem

theorem readsMentions_instruction
    : ReadsMentions opcode (instruction opcode) := by
  have hoperand : ∀ {α β : Type} {table : List (String × α)} {a : α} {x : OperandReader β}
      {make : β → Instruction}, table.lookup opcode = some a →
      (∀ head ∈ table.map Prod.fst, head ∉ mentioningHeads) →
      ReadsMentions opcode (liftM x >>= fun b => pure (.plain (make b))) :=
    fun h hall => Silent.readsMentions (.bind fun _ => .pure _) hplain
      (hall _ (List.mem_map_of_mem (mem_of_lookup h)))
  have hplainHeads : ∀ head ∈ plainMnemonics.map Prod.fst, head ∉ mentioningHeads := by
    decide +kernel
  unfold instruction
  split
  next i h =>
    exact (Silent.pure i).readsMentions hplain
      (hplainHeads _ (List.mem_map_of_mem (mem_of_lookup h)))
  split
  next b h => exact readsMentions_terminal hplain h
  split
  next make h => exact hoperand h (by decide +kernel)
  split
  next make h => exact hoperand h (by decide +kernel)
  split
  next kind h => exact hoperand h (by decide +kernel)
  split
  next make h => exact hoperand h (by decide +kernel)
  split
  next make h => exact readsMentions_jump hplain h
  exact readsMentions_special hplain

end

-- Directives

theorem catchType_labels {name : Option ClassName}
    (h : catchType labels tokens = .ok ((name, labels'), rest))
    : labels' = labels := by
  obtain ⟨token, mid, -, h⟩ := lift_bind_eq_ok.mp h
  split at h
  · cases h
    rfl
  · cases h
    rfl
  · obtain ⟨found, hfound, -⟩ := map_eq_ok.mp h
    exact (lift_eq_ok.mp hfound).1.symm
  · cases h

theorem protectedRange_eq_ok {r : ProtectedRange}
    (h : protectedRange labels tokens = .ok ((r, labels'), rest))
    : ∃ start stop handler more, tokens = .word start :: .word stop :: .word handler :: more
        ∧ labels.mentionAll [start, stop, handler] = (r.labels, labels') := by
  obtain ⟨start, labels₁, mid₁, hstart, h⟩ := bind_eq_ok.mp h
  obtain ⟨stop, labels₂, mid₂, hstop, h⟩ := bind_eq_ok.mp h
  obtain ⟨handler, labels₃, mid₃, hhandler, h⟩ := bind_eq_ok.mp h
  obtain ⟨caught, labels₄, mid₄, hcaught, h⟩ := bind_eq_ok.mp h
  cases h
  obtain ⟨first, hfirst, hmention⟩ := labelOperand_eq_ok hstart
  obtain ⟨second, hsecond, hmention'⟩ := labelOperand_eq_ok hstop
  obtain ⟨third, hthird, hmention''⟩ := labelOperand_eq_ok hhandler
  refine ⟨first, second, third, mid₃, by rw [hfirst, hsecond, hthird], ?_⟩
  rw [catchType_labels hcaught]
  exact Labels.mentionAll_cons hmention
    (Labels.mentionAll_cons hmention' (Labels.mentionAll_cons hmention'' rfl))

theorem slot_eq_ok {slot : Nat} (h : OperandReader.slot tokens = .ok (slot, rest))
    : ∃ text, tokens = .word text :: rest := by
  obtain ⟨⟨n, mid⟩, hn, h⟩ := except_bind_eq_ok.mp h
  cases h
  obtain ⟨text, htokens, -⟩ := OperandReader.number_eq_ok hn
  exact ⟨text, htokens⟩

theorem variableEntry_eq_ok {e : VariableEntry}
    (h : variableEntry labels tokens = .ok ((e, labels'), rest))
    : ∃ name type start stop slot : String,
        tokens = [name, type, start, stop, slot].map .word ++ rest
        ∧ labels.mentionAll [start, stop] = (e.labels, labels') := by
  obtain ⟨name, mid₁, hname, h⟩ := lift_bind_eq_ok.mp h
  obtain ⟨member, mid₂, hmember, h⟩ := lift_bind_eq_ok.mp h
  obtain ⟨type, mid₃, htype, h⟩ := lift_bind_eq_ok.mp h
  obtain ⟨descriptor, mid₄, hdescriptor, h⟩ := lift_bind_eq_ok.mp h
  obtain ⟨start, labels₁, mid₅, hstart, h⟩ := bind_eq_ok.mp h
  obtain ⟨stop, labels₂, mid₆, hstop, h⟩ := bind_eq_ok.mp h
  obtain ⟨slot, mid₇, hslot, h⟩ := lift_bind_eq_ok.mp h
  cases h
  obtain ⟨first, hfirst, hmention⟩ := labelOperand_eq_ok hstart
  obtain ⟨second, hsecond, hmention'⟩ := labelOperand_eq_ok hstop
  obtain ⟨digits, hdigits⟩ := slot_eq_ok hslot
  refine ⟨name, type, first, second, digits, ?_, ?_⟩
  · rw [OperandReader.word_eq_ok.mp hname, OperandReader.memberName_rest hmember,
      OperandReader.word_eq_ok.mp htype, OperandReader.descriptor_rest hdescriptor, hfirst, hsecond,
      hdigits]
    rfl
  · exact Labels.mentionAll_cons hmention (Labels.mentionAll_cons hmention' rfl)

variable {node : Node}

theorem lineMark_eq_ok (h : lineMark labels tokens = .ok ((node, labels'), rest))
    : ∃ digits name : String, tokens = [digits, name].map .word ++ rest
        ∧ ∃ k l, node = .line k l ∧ labels.mentionAll [name] = ([l], labels') := by
  obtain ⟨number, mid, hnumber, h⟩ := lift_bind_eq_ok.mp h
  obtain ⟨start, labels₁, mid₁, hstart, h⟩ := bind_eq_ok.mp h
  cases h
  obtain ⟨digits, hdigits, -⟩ := OperandReader.number_eq_ok hnumber
  obtain ⟨name, hname, hmention⟩ := labelOperand_eq_ok hstart
  exact ⟨digits, name, by rw [hdigits, hname]; rfl, _, start, rfl,
    Labels.mentionAll_cons hmention rfl⟩

theorem placedLabel_eq_ok {name : String}
    (h : placedLabel name labels tokens = .ok ((node, labels'), rest))
    : ∃ l labels₁, labels.mention name = (l, labels₁) ∧ l ∉ labels₁.placed ∧ node = .label l
        ∧ labels' = { labels₁ with placed := labels₁.placed ++ [l] } := by
  obtain ⟨l, labels₁, mid, hl, h⟩ := bind_eq_ok.mp h
  obtain ⟨found, labels₂, mid', hfound, h⟩ := bind_eq_ok.mp h
  cases hfound
  split at h
  next => cases h
  next hnew =>
    obtain ⟨_, labels₃, mid'', hset, h⟩ := bind_eq_ok.mp h
    cases hset
    cases h
    refine ⟨l, labels₁, (label_eq_ok.mp hl).1, ?_, rfl, rfl⟩
    simpa using hnew

theorem parameterNames_length {wanted : Nat} {names : List (Option MemberName)}
    (h : parameterNames wanted tokens = .ok (names, rest))
    : names.length = wanted := by
  obtain ⟨found, mid, -, h⟩ := OperandReader.bind_eq_ok.mp h
  split at h
  next hwanted =>
    cases h
    exact hwanted
  next => cases h

-- Lines

/-- Nothing is left after the line. -/
theorem of_finish {x : LineReader α} {a : α}
    (h : (x >>= fun a => liftM OperandReader.finish >>= fun _ => pure a) labels tokens
      = .ok ((a, labels'), rest))
    : x labels tokens = .ok ((a, labels'), []) := by
  obtain ⟨found, labels₁, mid, hx, h⟩ := bind_eq_ok.mp h
  obtain ⟨_, mid', hfinish, h⟩ := lift_bind_eq_ok.mp h
  cases h
  rwa [OperandReader.finish_eq_ok hfinish] at hx

/-- A line that places no label and is not about parameters. -/
theorem readFrom_of_mentions {s : Statement} {l : Line} {ls : List Label}
    (hplaced : l.placed = []) (hother : ∀ names, l ≠ .parameters names)
    (hmentions : labels.mentionAll s.mentions = (ls, labels')) (hwritten : l.Written s ls)
    : l.ReadFrom count s labels labels' where
  placed := by rw [hplaced, List.append_nil, Labels.mentionAll_placed hmentions]
  fresh := by simp [hplaced]
  written := ⟨ls, by rw [hmentions, ← Labels.mentionAll_placed hmentions], hwritten⟩
  parameters names same := absurd same (hother names)

theorem readFrom_placedLabel {head name : String} (hname : Text.dropSuffix? ":" head = some name)
    (h : placedLabel name labels tokens = .ok ((node, labels'), rest))
    : (Line.node node).ReadFrom count ⟨head, tokens⟩ labels labels' := by
  obtain ⟨l, labels₁, hl, hnew, rfl, rfl⟩ := placedLabel_eq_ok h
  have hkept := Labels.mention_placed hl
  have hmentions : Statement.mentions ⟨head, tokens⟩ = [name] := by
    simp only [Statement.mentions, hname]
  refine ⟨by rw [← hkept]; rfl, ?_, ⟨[l], ?_, rfl⟩, nofun⟩
  · intro l' hl'
    rw [List.mem_singleton.mp hl', ← hkept]
    exact hnew
  · rw [hmentions, ← hkept]
    exact Labels.mentionAll_cons hl rfl

theorem readFrom_range {r : ProtectedRange} (hplain : Text.dropSuffix? ":" "try" = none)
    (h : protectedRange labels tokens = .ok ((r, labels'), rest))
    : (Line.range r).ReadFrom count ⟨"try", tokens⟩ labels labels' := by
  obtain ⟨start, stop, handler, more, rfl, hread⟩ := protectedRange_eq_ok h
  have hmentions : Statement.mentions ⟨"try", .word start :: .word stop :: .word handler :: more⟩
      = [start, stop, handler] := by
    simp [Statement.mentions, hplain, Statement.words, Token.word?]
  exact readFrom_of_mentions rfl nofun (hmentions ▸ hread) rfl

theorem readFrom_entry {e : VariableEntry} (hplain : Text.dropSuffix? ":" "local" = none)
    (h : variableEntry labels tokens = .ok ((e, labels'), []))
    : (Line.entry e).ReadFrom count ⟨"local", tokens⟩ labels labels' := by
  obtain ⟨name, type, start, stop, slot, rfl, hread⟩ := variableEntry_eq_ok h
  have hmentions : Statement.mentions
      ⟨"local", [name, type, start, stop, slot].map .word ++ []⟩ = [start, stop] := by
    simp only [Statement.mentions, hplain, List.append_nil, words_map_word]
    rfl
  exact readFrom_of_mentions rfl nofun (hmentions ▸ hread) rfl

theorem readFrom_lineMark (hplain : Text.dropSuffix? ":" "line" = none)
    (h : lineMark labels tokens = .ok ((node, labels'), []))
    : (Line.node node).ReadFrom count ⟨"line", tokens⟩ labels labels' := by
  obtain ⟨digits, name, rfl, k, l, rfl, hread⟩ := lineMark_eq_ok h
  have hmentions : Statement.mentions ⟨"line", [digits, name].map .word ++ []⟩ = [name] := by
    simp only [Statement.mentions, hplain, List.append_nil, words_map_word]
    rfl
  refine readFrom_of_mentions rfl nofun ?_ rfl
  rw [hmentions]
  exact hread

theorem readFrom_frame {f : StackMapFrame} (hplain : Text.dropSuffix? ":" "frame" = none)
    (h : stackMapFrame labels tokens = .ok ((f, labels'), []))
    : (Line.node (.frame f)).ReadFrom count ⟨"frame", tokens⟩ labels labels' := by
  obtain ⟨texts, rfl, hread⟩ := stackMapFrame_eq_ok h
  have hmentions : Statement.mentions ⟨"frame", texts.map .word ++ []⟩
      = if texts.head? = some "chop" then []
        else (texts.drop 1).filterMap uninitializedLabel? := by
    simp only [Statement.mentions, hplain, List.append_nil, words_map_word]
  exact readFrom_of_mentions rfl nofun (hmentions ▸ hread) rfl

theorem line_readFrom {head : String} {l : Line}
    (h : line count head labels tokens = .ok ((l, labels'), rest))
    : l.ReadFrom count ⟨head, tokens⟩ labels labels' := by
  unfold line at h
  cases hplain : Text.dropSuffix? ":" head with
  | some name =>
      rw [hplain] at h
      obtain ⟨node, hnode, rfl⟩ := map_eq_ok.mp (of_finish h)
      exact readFrom_placedLabel hplain hnode
  | none =>
      rw [hplain] at h
      dsimp only at h
      split at h <;> replace h := of_finish h
      · obtain ⟨names, hnames, rfl⟩ := map_eq_ok.mp h
        obtain ⟨rfl, hread⟩ := lift_eq_ok.mp hnames
        refine ⟨(List.append_nil _).symm, nofun, ⟨[], ?_, rfl⟩, fun _ same => ?_⟩
        · rw [mentions_eq_nil hplain (by decide)]
          rfl
        · cases same
          exact parameterNames_length hread
      · obtain ⟨r, hr, rfl⟩ := map_eq_ok.mp h
        exact readFrom_range hplain hr
      · obtain ⟨e, he, rfl⟩ := map_eq_ok.mp h
        exact readFrom_entry hplain he
      · obtain ⟨node, hnode, rfl⟩ := map_eq_ok.mp h
        exact readFrom_lineMark hplain hnode
      · obtain ⟨f, hf, rfl⟩ := map_eq_ok.mp h
        exact readFrom_frame hplain hf
      · obtain ⟨node, hnode, rfl⟩ := map_eq_ok.mp h
        obtain ⟨hnone, ls, hmentions, hwritten⟩ := readsMentions_instruction hplain _ _ _ _ hnode
        refine readFrom_of_mentions ?_ nofun hmentions hwritten
        rw [Line.placed, hnone, Option.toList_none]

end LineReader

end StackLift.Listing
