import StackLift.Listing.Reader
import StackLift.Proofs.Outcomes
import StackLift.Proofs.TextCuts

/-!
Listings compose. Reading a line depends on the lines before it only through the open method, so a
listing that leaves no method open can be put before another one.
-/

namespace StackLift.Listing

-- A carriage return at the end of a line

theorem literal_escape {d e : Char} (hd : unescape? d = some e) (rest : List Char)
    : literal ('\\' :: d :: rest) = (literal rest).map fun found => (e :: found.1, found.2) := by
  simp only [literal, hd, if_neg (show ¬ '\\' = '"' by decide), if_true]
  cases literal rest <;> rfl

theorem literal_plain {c : Char} (hquote : c ≠ '"') (hescape : c ≠ '\\') (d : Char)
    (rest : List Char)
    : literal (c :: d :: rest)
      = (literal (d :: rest)).map fun found => (c :: found.1, found.2) := by
  rw [literal, if_neg hquote, if_neg hescape]
  cases literal (d :: rest) <;> rfl

/-- A literal is closed before the last character unless that is its quote. -/
theorem literal_of_append_return {text content after : List Char}
    (h : literal (text ++ ['\r']) = .ok (content, after))
    : ∃ before, after = before ++ ['\r'] ∧ literal text = .ok (content, before) := by
  match text with
  | [] => cases h
  | [c] =>
      by_cases hquote : c = '"'
      · subst hquote
        cases h
        exact ⟨[], rfl, rfl⟩
      · by_cases hescape : c = '\\'
        · subst hescape
          cases h
        · rw [List.singleton_append, literal_plain hquote hescape] at h
          cases h
  | c :: d :: rest =>
      rw [List.cons_append, List.cons_append] at h
      by_cases hquote : c = '"'
      · subst hquote
        cases h
        exact ⟨_, rfl, rfl⟩
      · by_cases hescape : c = '\\'
        · subst hescape
          cases hd : unescape? d with
          | none => simp [literal, hd] at h
          | some e =>
              rw [literal_escape hd] at h
              obtain ⟨⟨content', after'⟩, hrest, hfound⟩ := except_map_eq_ok.mp h
              cases hfound
              obtain ⟨before, rfl, hbefore⟩ := literal_of_append_return hrest
              exact ⟨before, rfl, by rw [literal_escape hd, hbefore]; rfl⟩
        · rw [literal_plain hquote hescape] at h
          obtain ⟨⟨content', after'⟩, hrest, hfound⟩ := except_map_eq_ok.mp h
          cases hfound
          obtain ⟨before, rfl, hbefore⟩ := @literal_of_append_return (d :: rest) _ _ hrest
          exact ⟨before, rfl, by rw [literal_plain hquote hescape, hbefore]; rfl⟩
termination_by text.length

theorem isBlank_return
    : Text.isBlank '\r' = true := by
  decide

theorem tokenize_blank {c : Char} (hc : Text.isBlank c = true) (rest : List Char)
    : tokenize (c :: rest) = tokenize rest := by
  rw [tokenize, if_pos hc]

theorem tokenize_literal (rest : List Char)
    : tokenize ('"' :: rest)
      = literal rest >>= fun found =>
          (tokenize found.2).map (.string (String.ofList found.1) :: ·) := by
  rw [tokenize, if_neg (by decide), if_pos rfl]
  split
  next failed => rw [failed]; rfl
  next content after found =>
    rw [found]
    show _ = (tokenize after).map _
    cases tokenize after <;> rfl

theorem tokenize_comment (rest : List Char)
    : tokenize ('/' :: '/' :: rest) = .ok [] := by
  rw [tokenize, if_neg (by decide), if_neg (by decide), if_pos (by simp)]

theorem tokenize_word {c : Char} {rest : List Char} (hblank : Text.isBlank c ≠ true)
    (hquote : c ≠ '"') (hcomment : ¬ (c = '/' ∧ rest.head? = some '/'))
    : tokenize (c :: rest)
      = (tokenize (rest.dropWhile isWordChar)).map
          (.word (String.ofList (c :: rest.takeWhile isWordChar)) :: ·) := by
  rw [tokenize, if_neg hblank, if_neg hquote, if_neg (by simpa using hcomment)]
  cases tokenize (rest.dropWhile isWordChar) <;> rfl

/-- A word ends before a carriage return. -/
theorem isWordChar_append_return (text : List Char)
    : (text ++ ['\r']).takeWhile isWordChar = text.takeWhile isWordChar
      ∧ (text ++ ['\r']).dropWhile isWordChar = text.dropWhile isWordChar ++ ['\r'] := by
  have hreturn : isWordChar '\r' = false := by simp [isWordChar, isBlank_return]
  induction text with
  | nil => simp [hreturn]
  | cons c text ih => by_cases hc : isWordChar c <;> simp [hc, ih]

theorem tokenize_of_append_return {line : List Char} {tokens : List Token}
    (h : tokenize (line ++ ['\r']) = .ok tokens)
    : tokenize line = .ok tokens := by
  cases hline : line with
  | nil =>
      subst hline
      rwa [List.nil_append, tokenize_blank isBlank_return] at h
  | cons c rest =>
      rw [hline, List.cons_append] at h
      by_cases hblank : Text.isBlank c = true
      · rw [tokenize_blank hblank] at h ⊢
        exact tokenize_of_append_return h
      · by_cases hquote : c = '"'
        · subst hquote
          rw [tokenize_literal] at h ⊢
          obtain ⟨⟨content, after⟩, hliteral, h⟩ := except_bind_eq_ok.mp h
          obtain ⟨before, rfl, hrest⟩ := literal_of_append_return hliteral
          rw [hrest]
          obtain ⟨later, hlater, rfl⟩ := except_map_eq_ok.mp h
          exact except_map_eq_ok.mpr ⟨later, tokenize_of_append_return hlater, rfl⟩
        · by_cases hcomment : c = '/' ∧ rest.head? = some '/'
          · obtain ⟨rfl, hslash⟩ := hcomment
            obtain ⟨tail, rfl⟩ := List.head?_eq_some_iff.mp hslash
            rw [List.cons_append, tokenize_comment] at h
            rw [tokenize_comment, h]
          · have hcomment' : ¬ (c = '/' ∧ (rest ++ ['\r']).head? = some '/') := by
              cases rest <;> simp_all
            obtain ⟨htake, hdrop⟩ := isWordChar_append_return rest
            rw [tokenize_word hblank hquote hcomment', htake, hdrop] at h
            rw [tokenize_word hblank hquote hcomment]
            obtain ⟨later, hlater, rfl⟩ := except_map_eq_ok.mp h
            exact except_map_eq_ok.mpr ⟨later, tokenize_of_append_return hlater, rfl⟩
termination_by line.length
decreasing_by
  · rw [hline]
    exact Nat.lt_succ_self _
  · rw [hline]
    exact Nat.lt_succ_of_le (literal_length hrest)
  · rw [hline]
    exact Nat.lt_succ_of_le (List.dropWhile_sublist isWordChar).length_le

theorem readLine_dropReturn {progress next : Progress} {line : List Char}
    (h : readLine progress line = .ok next)
    : readLine progress (Text.dropReturn line) = .ok next := by
  unfold Text.dropReturn
  split
  next returned =>
    obtain ⟨before, hline⟩ := List.getLast?_eq_some_iff.mp returned
    unfold readLine at h ⊢
    split at h
    next => cases h
    next tokens tokenized =>
      rw [hline] at tokenized
      rw [hline, List.dropLast_concat, tokenize_of_append_return tokenized]
      exact h
  next => exact h

-- Lines after others

/-- The progress with methods that were read before. -/
def Progress.after (methods : List Method) (progress : Progress) : Progress :=
  { progress with methods := methods ++ progress.methods }

theorem readTokens_after (methods : List Method) (progress : Progress) (tokens : List Token)
    : readTokens (progress.after methods) tokens
      = (readTokens progress tokens).map (·.after methods) := by
  obtain ⟨done, current⟩ := progress
  cases tokens with
  | nil => rfl
  | cons token operands =>
      cases token with
      | string text => rfl
      | word head =>
          simp only [readTokens, Progress.after]
          split
          · cases current with
            | some draft => rfl
            | none => cases Draft.header operands <;> rfl
          · split
            · cases OperandReader.finish operands with
              | error e => rfl
              | ok rest =>
                  cases current with
                  | none => rfl
                  | some draft => simp [Except.map]
            · cases current with
              | none => rfl
              | some draft =>
                  dsimp only
                  cases draft.readLine head operands <;> rfl

theorem readLine_after (methods : List Method) (progress : Progress) (line : List Char)
    : readLine (progress.after methods) line = (readLine progress line).map (·.after methods) := by
  unfold readLine
  cases tokenize line with
  | error fault => rfl
  | ok tokens => exact readTokens_after methods progress tokens

/-- The error with the lines before it counted. -/
def later (count : Nat) : Error → Error
  | .malformedLine line fault => .malformedLine (line + count) fault
  | e => e

theorem later_onLine (count number : Nat) (e : LineError)
    : later count (e.onLine number) = e.onLine (number + count) := by
  cases e <;> rfl

/-- What lines are read as does not depend on the number of lines and methods before them. -/
theorem readLines_after (methods : List Method) (count before : Nat) (progress : Progress)
    (lines : List (List Char))
    : readLines (before + count) (progress.after methods) lines
      = ((readLines before progress lines).map (·.after methods)).mapError (later count) := by
  induction lines generalizing before progress with
  | nil => rfl
  | cons line rest ih =>
      rw [readLines, readLine_after, readLines]
      cases readLine progress line with
      | error e =>
          show Except.error _ = Except.error _
          rw [later_onLine, Nat.add_right_comm]
      | ok next =>
          show readLines (before + count + 1) (next.after methods) rest = _
          rw [Nat.add_right_comm]
          exact ih (before + 1) next

theorem readLines_append (before : Nat) (progress : Progress) (lines rest : List (List Char))
    : readLines before progress (lines ++ rest)
      = readLines before progress lines >>= fun next =>
          readLines (before + lines.length) next rest := by
  induction lines generalizing before progress with
  | nil => rfl
  | cons line lines ih =>
      rw [List.cons_append, readLines, readLines]
      cases readLine progress line with
      | error e => rfl
      | ok next =>
          rw [List.length_cons, Nat.add_comm lines.length, ← Nat.add_assoc]
          exact ih (before + 1) next

-- Listings

variable {methods : List Method}

theorem read_eq_ok {source : String}
    : read source = .ok methods
      ↔ readLines 0 .start (Text.lines source) = .ok { methods, current := none } := by
  unfold read
  dsimp only
  split
  next failed => simp [failed]
  next progress done =>
    obtain ⟨found, current⟩ := progress
    cases current <;> simp [done]

theorem readLine_empty (progress : Progress)
    : readLine progress [] = .ok progress := by
  rw [readLine, tokenize]
  rfl

/-- A line feed after a listing changes nothing: it ends the last line or adds an empty one. -/
theorem readLines_newline {source : String} (h : read source = .ok methods)
    : readLines 0 .start (Text.lines (source ++ "\n")) = .ok { methods, current := none } := by
  obtain ⟨before, last, hlines, hended⟩ := Text.exists_lines source
  rw [read_eq_ok, hlines, readLines_append] at h
  obtain ⟨next, hbefore, h⟩ := except_bind_eq_ok.mp h
  have hlast : readLine next last = .ok { methods, current := none } := by
    cases last with
    | nil =>
        cases h
        exact readLine_empty _
    | cons c rest =>
        rw [List.isEmpty_cons, if_neg Bool.false_ne_true, readLines] at h
        split at h
        next => cases h
        next found =>
          cases h
          exact found
  rw [hended, readLines_append, hbefore]
  show readLines _ next [Text.dropReturn last] = _
  rw [readLines, readLine_dropReturn hlast]
  rfl

/-- The listing that follows another one is read as it is alone. -/
theorem read_append {a b : String} (h : read a = .ok methods)
    : read (a ++ "\n" ++ b)
      = ((read b).map (methods ++ ·)).mapError (later (Text.lines (a ++ "\n")).length) := by
  have hread : readLines 0 .start (Text.lines (a ++ "\n" ++ b))
      = ((readLines 0 .start (Text.lines b)).map (·.after methods)).mapError
          (later (Text.lines (a ++ "\n")).length) := by
    have hstart : Progress.start.after methods = { methods, current := none } := by
      simp [Progress.start, Progress.after]
    rw [Text.lines_append, readLines_append, readLines_newline h, ← hstart]
    exact readLines_after methods _ 0 .start (Text.lines b)
  unfold read
  dsimp only
  rw [hread]
  cases readLines 0 .start (Text.lines b) with
  | error e => rfl
  | ok progress =>
      obtain ⟨found, current⟩ := progress
      cases current with
      | none => rfl
      | some draft =>
          rw [Text.lines_append, List.length_append, Nat.add_comm]
          rfl

/-- A listing after one that is accepted adds its methods, and fails as it does alone: a malformed
line is counted on from the lines before it, and a bad descriptor is reported as it is.
-/
theorem listings_compose (a b : String) (ms : List Method) (h : read a = .ok ms)
    : (∀ ns, read b = .ok ns → read (a ++ "\n" ++ b) = .ok (ms ++ ns))
      ∧ (∀ k fault, read b = .error (.malformedLine k fault) →
          read (a ++ "\n" ++ b)
            = .error (.malformedLine (k + (Text.lines (a ++ "\n")).length) fault))
      ∧ ∀ text cause, read b = .error (.badDescriptor text cause) →
          read (a ++ "\n" ++ b) = .error (.badDescriptor text cause) := by
  refine ⟨fun ns hb => ?_, fun k fault hb => ?_, fun text cause hb => ?_⟩
  · rw [read_append h, hb]
    rfl
  · rw [read_append h, hb]
    rfl
  · rw [read_append h, hb]
    rfl

/-- A method with a label, whose last line has no line feed. -/
def labelledListing : String :=
  "method a/B.f()V\nx:\nend\r"

/-- A method with labels of its own. -/
def relabelledListing : String :=
  "\nmethod a/B.g()V\ny:\nx:\nend"

theorem labelled_methods_compose
    : (∃ ms ns, read labelledListing = .ok ms ∧ read relabelledListing = .ok ns
        ∧ read (labelledListing ++ "\n" ++ relabelledListing) = .ok (ms ++ ns))
      ∧ read "end" = .error (.malformedLine 1 .endOutsideMethod)
      ∧ read (labelledListing ++ "\n" ++ "end") = .error (.malformedLine 4 .endOutsideMethod) := by
  obtain ⟨ms, hms⟩ : ∃ ms, read labelledListing = .ok ms := by decide +kernel
  obtain ⟨ns, hns⟩ : ∃ ns, read relabelledListing = .ok ns := by decide +kernel
  have hend : read "end" = .error (.malformedLine 1 .endOutsideMethod) := by
    have hfault : (read "end").map List.length = .error (.malformedLine 1 .endOutsideMethod) := by
      decide +kernel
    cases hread : read "end" with
    | error e => simpa [hread, Except.map] using hfault
    | ok methods => simp [hread, Except.map] at hfault
  have hcount : (Text.lines (labelledListing ++ "\n")).length = 3 := by decide +kernel
  refine ⟨⟨ms, ns, hms, hns, (listings_compose _ _ ms hms).1 ns hns⟩, hend, ?_⟩
  have := (listings_compose labelledListing "end" ms hms).2.1 1 _ hend
  rwa [hcount] at this

end StackLift.Listing
