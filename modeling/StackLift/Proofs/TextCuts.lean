import Mathlib.Data.List.TakeWhile
import StackLift.Text.Split

/-!
Where texts are cut: at separators, at the end of a run of characters, and at the ends of lines.
-/

namespace StackLift.Text

variable {separator : Char} {text rest : List Char}

-- Runs of characters

theorem dropWhile_eq_cons_iff {p : Char → Bool} {c : Char}
    : text.dropWhile p = c :: rest ↔ text = text.takeWhile p ++ c :: rest ∧ p c = false := by
  constructor
  · intro h
    refine ⟨?_, ?_⟩
    · rw [← h, List.takeWhile_append_dropWhile]
    · have := List.head?_dropWhile_not p text
      simpa [h] using this
  · intro ⟨h, hc⟩
    rw [h, List.dropWhile_append_of_pos fun d hd => List.mem_takeWhile_imp hd, List.dropWhile_cons,
      hc]
    rfl

theorem takeWhile_append_cons {p : Char → Bool} {first : List Char} {c : Char}
    (hfirst : ∀ d ∈ first, p d = true) (hc : p c = false)
    : (first ++ c :: rest).takeWhile p = first := by
  rw [List.takeWhile_append_of_pos hfirst]
  simp [hc]

-- Separators

theorem split_ne_nil (separator : Char) (text : List Char)
    : split separator text ≠ [] := by
  fun_induction split separator text <;> simp

theorem split_of_not_mem (h : separator ∉ text)
    : split separator text = [text] := by
  induction text with
  | nil => rfl
  | cons c rest ih =>
      obtain ⟨hc, hrest⟩ := List.ne_and_not_mem_of_not_mem_cons h
      simp [split, Ne.symm hc, ih hrest]

theorem split_append_cons (separator : Char) (text rest : List Char)
    : split separator (text ++ separator :: rest)
      = split separator text ++ split separator rest := by
  induction text with
  | nil => simp [split]
  | cons c text ih =>
      by_cases hc : c = separator
      · simp [split, hc, ih]
      · cases hparts : split separator text with
        | nil => exact absurd hparts (split_ne_nil separator text)
        | cons part parts => simp [split, hc, ih, hparts]

-- Lines

theorem linesOfParts_append (parts : List (List Char)) {others : List (List Char)}
    (hothers : others ≠ [])
    : linesOfParts (parts ++ others) = parts.map dropReturn ++ linesOfParts others := by
  induction parts with
  | nil => rfl
  | cons part parts ih =>
      rw [List.map_cons, List.cons_append, List.cons_append, ← ih]
      cases hrest : parts ++ others with
      | nil => exact absurd (List.append_eq_nil_iff.mp hrest).2 hothers
      | cons next rest => rfl

/-- Every part of a text that ends with a line feed is a line. -/
theorem lines_append_newline (a : String)
    : lines (a ++ "\n") = (split '\n' a.toList).map dropReturn := by
  have hnewline : "\n".toList = ['\n'] := rfl
  rw [lines, String.toList_append, hnewline, split_append_cons,
    linesOfParts_append _ (split_ne_nil _ _)]
  simp [split, linesOfParts]

theorem lines_append (a b : String)
    : lines (a ++ "\n" ++ b) = lines (a ++ "\n") ++ lines b := by
  have hnewline : "\n".toList = ['\n'] := rfl
  rw [lines_append_newline, lines, String.toList_append, String.toList_append, hnewline,
    List.append_assoc, List.singleton_append, split_append_cons,
    linesOfParts_append _ (split_ne_nil _ _), lines]

/-- A line feed at the end of a text ends its last part, which may be empty, and changes no other
line.
-/
theorem exists_lines (a : String)
    : ∃ (before : List (List Char)) (last : List Char),
        lines a = before ++ (if last.isEmpty then [] else [last])
        ∧ lines (a ++ "\n") = before ++ [dropReturn last] := by
  obtain ⟨parts, last, hparts⟩ :=
    (List.eq_nil_or_concat _).resolve_left (split_ne_nil '\n' a.toList)
  refine ⟨parts.map dropReturn, last, ?_, ?_⟩
  · rw [lines, hparts, List.concat_eq_append, linesOfParts_append _ (by simp)]
    rfl
  · simp [lines_append_newline, hparts]

end StackLift.Text
