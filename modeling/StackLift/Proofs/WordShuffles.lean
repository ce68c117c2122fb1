import Mathlib.Data.List.Basic
import StackLift.Frame.Shuffle

/-!
Shuffles as operations on words. A wide stack entry takes two words and every other entry takes one.
On words, each instruction copies, drops or exchanges blocks of a fixed length at the top. Where no
entry lies across the end of a block, it does the same to the entries.
-/

namespace StackLift

open Shuffle

-- Words

/-- A word of a stack entry. -/
structure Word where
  entry : Value
  /-- It is the second word of a wide entry. -/
  isSecond : Bool
deriving DecidableEq

def Value.words (v : Value) : List Word :=
  if v.isWide then [⟨v, false⟩, ⟨v, true⟩] else [⟨v, false⟩]

/-- The words of a stack, the top first. -/
def wordsOf (stack : List Value) : List Word :=
  stack.flatMap Value.words

namespace Shuffle

variable {α : Type}

/-- The words after the instruction, if there are enough of them. -/
def onWords : Shuffle → List α → Option (List α)
  | .pop, _ :: s => some s
  | .pop2, _ :: _ :: s => some s
  | .dup, a :: s => some (a :: a :: s)
  | .dupX1, a :: b :: s => some (a :: b :: a :: s)
  | .dupX2, a :: b :: c :: s => some (a :: b :: c :: a :: s)
  | .dup2, a :: b :: s => some (a :: b :: a :: b :: s)
  | .dup2X1, a :: b :: c :: s => some (a :: b :: c :: a :: b :: s)
  | .dup2X2, a :: b :: c :: d :: s => some (a :: b :: c :: d :: a :: b :: s)
  | .swap, a :: b :: s => some (b :: a :: s)
  | _, _ => none

/-- The number of words in the block at the top, which is dropped, copied or exchanged. -/
def upper : Shuffle → Nat
  | .pop | .dup | .dupX1 | .dupX2 | .swap => 1
  | .pop2 | .dup2 | .dup2X1 | .dup2X2 => 2

/-- The number of words in the block below which it is put. -/
def lower : Shuffle → Nat
  | .pop | .pop2 | .dup | .dup2 => 0
  | .dupX1 | .dup2X1 | .swap => 1
  | .dupX2 | .dup2X2 => 2

/-- The number of words that the instruction touches. -/
def touched (s : Shuffle) : Nat :=
  s.upper + s.lower

/-- An entry lies across the end of one of the blocks. -/
def splits (s : Shuffle) (stack : List Value) : Bool :=
  [s.upper, s.touched].any fun cut => (wordsOf stack)[cut]?.any Word.isSecond

/-- What takes the place of the two blocks. -/
def arrange (s : Shuffle) (a b : List α) : List α :=
  match s with
  | .pop | .pop2 => []
  | .dup | .dupX1 | .dupX2 | .dup2 | .dup2X1 | .dup2X2 => a ++ b ++ a
  | .swap => b ++ a

end Shuffle

variable {v : Value} {stack rest a b : List Value} {s : Shuffle}

theorem wordsOf_cons
    : wordsOf (v :: stack) = v.words ++ wordsOf stack :=
  List.flatMap_cons

theorem wordsOf_append
    : wordsOf (a ++ b) = wordsOf a ++ wordsOf b :=
  List.flatMap_append

theorem words_of_wide (h : v.isWide = true)
    : v.words = [⟨v, false⟩, ⟨v, true⟩] :=
  if_pos h

theorem words_of_narrow (h : v.isWide = false)
    : v.words = [⟨v, false⟩] :=
  if_neg (Bool.eq_false_iff.mp h)

/-- A stack can be cut between any two words that are not of the same entry. -/
theorem exists_cut {cut : Nat} (hcut : cut ≤ (wordsOf stack).length)
    (whole : (wordsOf stack)[cut]?.any Word.isSecond = false)
    : ∃ a rest, stack = a ++ rest ∧ (wordsOf a).length = cut := by
  induction stack generalizing cut with
  | nil => exact ⟨[], [], rfl, (Nat.le_zero.mp hcut).symm⟩
  | cons v stack ih =>
      rw [wordsOf_cons] at hcut whole
      cases hwide : v.isWide with
      | true =>
          rw [words_of_wide hwide] at hcut whole
          match cut with
          | 0 => exact ⟨[], v :: stack, rfl, rfl⟩
          | 1 => cases whole
          | n + 2 =>
              obtain ⟨a, rest, rfl, ha⟩ := @ih n (by simpa using hcut) (by simpa using whole)
              exact ⟨v :: a, rest, rfl, by simp [wordsOf_cons, words_of_wide hwide, ha]⟩
      | false =>
          rw [words_of_narrow hwide] at hcut whole
          match cut with
          | 0 => exact ⟨[], v :: stack, rfl, rfl⟩
          | n + 1 =>
              obtain ⟨a, rest, rfl, ha⟩ := @ih n (by simpa using hcut) (by simpa using whole)
              exact ⟨v :: a, rest, rfl, by simp [wordsOf_cons, words_of_narrow hwide, ha]⟩

-- Blocks

theorem length_wordsOf_cons
    : (wordsOf (v :: stack)).length = (if v.isWide then 2 else 1) + (wordsOf stack).length := by
  rw [wordsOf_cons, List.length_append, Value.words]
  split <;> rfl

theorem eq_nil_of_no_words (h : (wordsOf a).length = 0)
    : a = [] := by
  cases a with
  | nil => rfl
  | cons v a =>
      rw [length_wordsOf_cons] at h
      split at h <;> omega

theorem eq_singleton_of_one_word (h : (wordsOf a).length = 1)
    : ∃ v, a = [v] ∧ v.isWide = false := by
  cases a with
  | nil => cases h
  | cons v a =>
      rw [length_wordsOf_cons] at h
      split at h
      next => omega
      next hwide =>
        obtain rfl := eq_nil_of_no_words (a := a) (by omega)
        exact ⟨v, rfl, Bool.eq_false_iff.mpr hwide⟩

theorem eq_of_two_words (h : (wordsOf a).length = 2)
    : (∃ v, a = [v] ∧ v.isWide = true)
      ∨ ∃ v w, a = [v, w] ∧ v.isWide = false ∧ w.isWide = false := by
  cases a with
  | nil => cases h
  | cons v a =>
      rw [length_wordsOf_cons] at h
      split at h
      next hwide =>
        obtain rfl := eq_nil_of_no_words (a := a) (by omega)
        exact .inl ⟨v, rfl, hwide⟩
      next hwide =>
        obtain ⟨w, rfl, hw⟩ := eq_singleton_of_one_word (a := a) (by omega)
        exact .inr ⟨v, w, rfl, Bool.eq_false_iff.mpr hwide, hw⟩

theorem eq_of_three_words (h : (wordsOf a).length = 3)
    : (∃ v w, a = [v, w] ∧ v.isWide = !w.isWide)
      ∨ ∃ u v w, a = [u, v, w] ∧ u.isWide = false ∧ v.isWide = false ∧ w.isWide = false := by
  cases a with
  | nil => cases h
  | cons v a =>
      rw [length_wordsOf_cons] at h
      split at h
      next hwide =>
        obtain ⟨w, rfl, hw⟩ := eq_singleton_of_one_word (a := a) (by omega)
        exact .inl ⟨v, w, rfl, by simp [hwide, hw]⟩
      next hwide =>
        have hnarrow := Bool.eq_false_iff.mpr hwide
        rcases eq_of_two_words (a := a) (by omega) with ⟨w, rfl, hw⟩ | ⟨w, x, rfl, hw, hx⟩
        · exact .inl ⟨v, w, rfl, by simp [hnarrow, hw]⟩
        · exact .inr ⟨v, w, x, rfl, hnarrow, hw, hx⟩

namespace Shuffle

/-- On entries that fill the blocks, an instruction arranges the blocks. -/
theorem apply_blocks (ha : (wordsOf a).length = s.upper) (hb : (wordsOf b).length = s.lower)
    : s.apply (a ++ (b ++ rest)) = some (s.arrange a b ++ rest) := by
  cases s with
  | pop | dup =>
      obtain ⟨v, rfl, hv⟩ := eq_singleton_of_one_word ha
      obtain rfl := eq_nil_of_no_words hb
      rfl
  | pop2 | dup2 =>
      obtain rfl := eq_nil_of_no_words hb
      rcases eq_of_two_words ha with ⟨v, rfl, hv⟩ | ⟨v, w, rfl, hv, hw⟩
      · simp [apply, arrange, hv]
      · simp [apply, arrange, twice, hv]
  | dupX1 | swap =>
      obtain ⟨v, rfl, hv⟩ := eq_singleton_of_one_word ha
      obtain ⟨w, rfl, hw⟩ := eq_singleton_of_one_word hb
      rfl
  | dupX2 =>
      obtain ⟨v, rfl, hv⟩ := eq_singleton_of_one_word ha
      rcases eq_of_two_words hb with ⟨w, rfl, hw⟩ | ⟨w, x, rfl, hw, hx⟩
      · simp [apply, arrange, hw]
      · simp [apply, arrange, under3, hw]
  | dup2X1 =>
      obtain ⟨x, rfl, hx⟩ := eq_singleton_of_one_word hb
      rcases eq_of_two_words ha with ⟨v, rfl, hv⟩ | ⟨v, w, rfl, hv, hw⟩
      · simp [apply, arrange, hv]
      · simp [apply, arrange, pairUnder1, hv]
  | dup2X2 =>
      rcases eq_of_two_words ha with ⟨v, rfl, hv⟩ | ⟨v, w, rfl, hv, hw⟩
      · rcases eq_of_two_words hb with ⟨x, rfl, hx⟩ | ⟨x, y, rfl, hx, hy⟩
        · simp [apply, arrange, hv, hx]
        · simp [apply, arrange, under3, hv, hx]
      · rcases eq_of_two_words hb with ⟨x, rfl, hx⟩ | ⟨x, y, rfl, hx, hy⟩
        · simp [apply, arrange, hv, hx]
        · simp [apply, arrange, pairUnder2, hv, hx]

/-- Words are arranged in the same way as entries. -/
theorem onWords_blocks {α : Type} {a b rest : List α} (ha : a.length = s.upper)
    (hb : b.length = s.lower)
    : s.onWords (a ++ (b ++ rest)) = some (s.arrange a b ++ rest) := by
  cases s with
  | pop | dup =>
      obtain ⟨v, rfl⟩ := List.length_eq_one_iff.mp ha
      obtain rfl := List.length_eq_zero_iff.mp hb
      rfl
  | pop2 | dup2 =>
      obtain ⟨v, w, rfl⟩ := List.length_eq_two.mp ha
      obtain rfl := List.length_eq_zero_iff.mp hb
      rfl
  | dupX1 | swap =>
      obtain ⟨v, rfl⟩ := List.length_eq_one_iff.mp ha
      obtain ⟨x, rfl⟩ := List.length_eq_one_iff.mp hb
      rfl
  | dupX2 =>
      obtain ⟨v, rfl⟩ := List.length_eq_one_iff.mp ha
      obtain ⟨x, y, rfl⟩ := List.length_eq_two.mp hb
      rfl
  | dup2X1 =>
      obtain ⟨v, w, rfl⟩ := List.length_eq_two.mp ha
      obtain ⟨x, rfl⟩ := List.length_eq_one_iff.mp hb
      rfl
  | dup2X2 =>
      obtain ⟨v, w, rfl⟩ := List.length_eq_two.mp ha
      obtain ⟨x, y, rfl⟩ := List.length_eq_two.mp hb
      rfl

theorem wordsOf_arrange
    : wordsOf (s.arrange a b) = s.arrange (wordsOf a) (wordsOf b) := by
  cases s <;> simp [arrange, wordsOf]

/-- An instruction that finds too few words fails: each shape that its stack can have then ends
before an entry that it takes.
-/
theorem apply_eq_none (h : (wordsOf stack).length < s.touched)
    : s.apply stack = none := by
  match hwords : (wordsOf stack).length with
  | 0 =>
      obtain rfl := eq_nil_of_no_words hwords
      cases s <;> rfl
  | 1 =>
      obtain ⟨v, rfl, hv⟩ := eq_singleton_of_one_word hwords
      rw [hwords] at h
      cases s with
      | pop | dup => exact absurd h (by decide)
      | _ => simp [apply, twice, hv]
  | 2 =>
      rw [hwords] at h
      rcases eq_of_two_words hwords with ⟨v, rfl, hv⟩ | ⟨v, w, rfl, hv, hw⟩
      · cases s with
        | dupX2 | dup2X1 | dup2X2 => rfl
        | _ => exact absurd h (by decide)
      · cases s with
        | dupX2 | dup2X1 | dup2X2 => simp [apply, under3, pairUnder1, hv, hw]
        | _ => exact absurd h (by decide)
  | 3 =>
      rw [hwords] at h
      obtain rfl : s = .dup2X2 := by
        cases s with
        | dup2X2 => rfl
        | _ => exact absurd h (by decide)
      rcases eq_of_three_words hwords with ⟨v, w, rfl, hv⟩ | ⟨u, v, w, rfl, hu, hv, hw⟩
      · cases hw : w.isWide <;> simp [apply, under3, hv, hw]
      · simp [apply, pairUnder2, hu, hw]
  | n + 4 =>
      have hmost : s.touched ≤ 4 := by cases s <;> decide
      omega

theorem onWords_eq_none {α : Type} {words : List α} (h : words.length < s.touched)
    : s.onWords words = none := by
  fun_cases onWords s words
  case case10 => rfl
  all_goals
    simp only [touched, upper, lower, List.length_cons] at h
    omega

/-- A stack with enough words, none of whose entries is split, starts with entries that fill the two
blocks.
-/
theorem exists_blocks (whole : s.splits stack = false) (h : s.touched ≤ (wordsOf stack).length)
    : ∃ a b rest, stack = a ++ (b ++ rest) ∧ (wordsOf a).length = s.upper
        ∧ (wordsOf b).length = s.lower := by
  obtain ⟨hupper, htouched⟩ : (wordsOf stack)[s.upper]?.any Word.isSecond = false
      ∧ (wordsOf stack)[s.touched]?.any Word.isSecond = false := by
    simpa [splits] using whole
  obtain ⟨a, below, rfl, ha⟩ := exists_cut (Nat.le_trans (Nat.le_add_right _ _) h) hupper
  rw [wordsOf_append, touched, ← ha, List.getElem?_append_right (Nat.le_add_right _ _),
    Nat.add_sub_cancel_left] at htouched
  rw [wordsOf_append, List.length_append, touched, ha] at h
  obtain ⟨b, rest, rfl, hb⟩ := exists_cut (Nat.le_of_add_le_add_left h) htouched
  exact ⟨a, b, rest, rfl, ha, hb⟩

end Shuffle

-- Frames

/-- A shuffle that splits no entry does to the words of the stack what its instruction prescribes,
and leaves the words below and the locals as they are. It fails exactly where there are too few
words.
-/
theorem shuffles_refine_words {f : Frame} (node : Nat) (whole : s.splits f.stack = false)
    : ((∃ after, f.shuffle node s = .ok after) ↔ s.touched ≤ (wordsOf f.stack).length)
      ∧ (f.shuffle node s).toOption.map (fun after => wordsOf after.stack)
        = s.onWords (wordsOf f.stack)
      ∧ (∀ after, f.shuffle node s = .ok after →
          after.locals = f.locals ∧ (wordsOf f.stack).drop s.touched <:+ wordsOf after.stack)
      ∧ ((wordsOf f.stack).length < s.touched → f.shuffle node s = .error (.emptyStack node)) := by
  by_cases h : s.touched ≤ (wordsOf f.stack).length
  · obtain ⟨a, b, rest, hstack, ha, hb⟩ := exists_blocks whole h
    have hshuffle : f.shuffle node s = .ok { f with stack := s.arrange a b ++ rest } := by
      rw [Frame.shuffle, hstack, apply_blocks ha hb]
    have hwords : wordsOf f.stack = wordsOf a ++ (wordsOf b ++ wordsOf rest) := by
      rw [hstack, wordsOf_append, wordsOf_append]
    refine ⟨⟨fun _ => h, fun _ => ⟨_, hshuffle⟩⟩, ?_, ?_, fun hshort => absurd h (by omega)⟩
    · rw [hshuffle, hwords, onWords_blocks ha hb, ← wordsOf_arrange,
        ← wordsOf_append]
      rfl
    · intro after hafter
      cases hshuffle.symm.trans hafter
      refine ⟨rfl, ?_⟩
      rw [hwords, wordsOf_append, touched, ← ha, ← hb, ← List.append_assoc,
        ← List.length_append, List.drop_left]
      exact List.suffix_append _ _
  · have hshort : (wordsOf f.stack).length < s.touched := Nat.lt_of_not_le h
    have hshuffle : f.shuffle node s = .error (.emptyStack node) := by
      rw [Frame.shuffle, apply_eq_none hshort]
    rw [hshuffle, onWords_eq_none hshort]
    simp [h, Except.toOption]

/-- Two narrow entries above a wide one. -/
def pairOverWide : Frame :=
  { locals := [some (.this .object)]
    stack := [.register (.fresh 0 .int), .register (.fresh 1 .int), .register (.fresh 2 .long),
      .register (.fresh 3 .int)] }

/-- The pair is copied below both words of the wide entry. -/
theorem shuffle_of_pair_over_wide
    : dup2X2.splits pairOverWide.stack = false
      ∧ dup2X2.touched ≤ (wordsOf pairOverWide.stack).length
      ∧ (∃ after, pairOverWide.shuffle 7 .dup2X2 = .ok after)
      ∧ (pairOverWide.shuffle 7 .dup2X2).toOption.map (fun after => wordsOf after.stack)
        = dup2X2.onWords (wordsOf pairOverWide.stack) := by
  have whole : dup2X2.splits pairOverWide.stack = false := by decide
  have enough : dup2X2.touched ≤ (wordsOf pairOverWide.stack).length := by decide
  obtain ⟨succeeds, words, -, -⟩ := shuffles_refine_words 7 whole
  exact ⟨whole, enough, succeeds.mpr enough, words⟩

end StackLift
