import Mathlib.Data.List.DropRight

/-! # The words of a text

A text is split into words at gaps, of any number of characters. The words stay the same when gaps are
dropped at its ends (`Trunk.Words.words_dropWhile`, `Trunk.Words.words_rdropWhile`), when a gap is
replaced by another one (`Trunk.Words.words_map`), and when a gap is written more or less often
(`Trunk.Words.words_cons_gap`). Texts that agree in the word they begin with, and in the words behind
it, still agree with a character in front (`Trunk.Words.Alike.cons`).
-/

namespace Trunk.Words

variable {α : Type*} {gap : α → Bool} {char : α} {text other : List α}

/-- The words of a text. -/
def words (gap : α → Bool) (text : List α) : List (List α) :=
  (text.splitOnP gap).filter fun word => !word.isEmpty

/-- The word that a text begins with; empty where it begins with a gap. -/
def front (gap : α → Bool) (text : List α) : List α := text.takeWhile fun char => !gap char

/-- What is behind the word that a text begins with. -/
def behind (gap : α → Bool) (text : List α) : List α := text.dropWhile fun char => !gap char

theorem words_nil : words gap [] = [] := rfl

theorem words_cons_gap (isGap : gap char = true) : words gap (char :: text) = words gap text := by
  rw [words, List.splitOnP_cons_eq_if_modifyHead, if_pos isGap, List.filter_cons_of_neg]
  · rfl
  · exact Bool.false_ne_true

theorem splitOnP_eq_front (gap : α → Bool) (text : List α) :
    ∃ rest, text.splitOnP gap = front gap text :: rest ∧
      (rest.filter fun word => !word.isEmpty) = words gap (behind gap text) := by
  induction text with
  | nil => exact ⟨[], rfl, rfl⟩
  | cons char text ih =>
      obtain ⟨rest, split, later⟩ := ih
      unfold front at split ⊢
      unfold behind at later ⊢
      rw [List.splitOnP_cons_eq_if_modifyHead]
      cases isGap : gap char with
      | true =>
          refine ⟨text.splitOnP gap, ?_, ?_⟩
          · rw [if_pos rfl, List.takeWhile_cons_of_neg]
            rw [isGap]
            exact Bool.false_ne_true
          · rw [List.dropWhile_cons_of_neg, words_cons_gap isGap]
            · rfl
            · rw [isGap]
              exact Bool.false_ne_true
      | false =>
          refine ⟨rest, ?_, ?_⟩
          · rw [if_neg Bool.false_ne_true, split, List.takeWhile_cons_of_pos]
            · rfl
            · rw [isGap]
              rfl
          · rw [later, List.dropWhile_cons_of_pos]
            rw [isGap]
            rfl

/-- The words of a text are the one it begins with and those behind it. -/
theorem words_eq_front (gap : α → Bool) (text : List α) :
    words gap text =
      if (front gap text).isEmpty then words gap (behind gap text)
      else front gap text :: words gap (behind gap text) := by
  obtain ⟨rest, split, later⟩ := splitOnP_eq_front gap text
  rw [words, split, List.filter_cons, later]
  cases (front gap text).isEmpty with
  | true => rfl
  | false => rfl

/-! ## Texts that agree -/

/-- Texts begin with the same word, and have the same words behind it. -/
structure Alike (gap : α → Bool) (text other : List α) : Prop where
  first : front gap text = front gap other
  later : words gap (behind gap text) = words gap (behind gap other)

theorem Alike.refl (gap : α → Bool) (text : List α) : Alike gap text text := ⟨rfl, rfl⟩

theorem Alike.trans {third : List α} (first : Alike gap text other) (second : Alike gap other third) :
    Alike gap text third :=
  ⟨first.first.trans second.first, first.later.trans second.later⟩

theorem Alike.words (alike : Alike gap text other) : words gap text = words gap other := by
  rw [words_eq_front, words_eq_front gap other, alike.first, alike.later]

/-- Behind gaps only the words count. -/
theorem alike_cons_gap {char' : α} (isGap : gap char = true) (isGap' : gap char' = true)
    (same : words gap text = words gap other) : Alike gap (char :: text) (char' :: other) := by
  have starts : ∀ {char : α} (text : List α), gap char = true →
      front gap (char :: text) = [] ∧ behind gap (char :: text) = char :: text := by
    intro char text isGap
    unfold front behind
    rw [List.takeWhile_cons, List.dropWhile_cons, isGap]
    exact ⟨rfl, rfl⟩
  obtain ⟨first, rest⟩ := starts text isGap
  obtain ⟨first', rest'⟩ := starts other isGap'
  refine ⟨first.trans first'.symm, ?_⟩
  rw [rest, rest', words_cons_gap isGap, words_cons_gap isGap', same]

/-- A character in front keeps texts alike. -/
theorem Alike.cons (alike : Alike gap text other) (char : α) :
    Alike gap (char :: text) (char :: other) := by
  cases isGap : gap char with
  | true => exact alike_cons_gap isGap isGap alike.words
  | false =>
      have starts : ∀ text, front gap (char :: text) = char :: front gap text ∧
          behind gap (char :: text) = behind gap text := by
        intro text
        unfold front behind
        rw [List.takeWhile_cons, List.dropWhile_cons, isGap]
        exact ⟨rfl, rfl⟩
      refine ⟨?_, ?_⟩
      · rw [(starts text).1, (starts other).1, alike.first]
      · rw [(starts text).2, (starts other).2, alike.later]

/-- Gaps at the end make no difference. -/
theorem alike_concat_gap (isGap : gap char = true) (text : List α) :
    Alike gap (text ++ [char]) text := by
  induction text with
  | nil =>
      refine ⟨?_, ?_⟩
      · unfold front
        rw [List.nil_append, List.takeWhile_cons, isGap]
        rfl
      · unfold behind
        rw [List.nil_append, List.dropWhile_cons, isGap]
        exact words_cons_gap isGap
  | cons other rest ih => exact ih.cons other

/-! ## Texts that are trimmed, and whose gaps are replaced -/

variable {blank : α → Bool}

theorem words_dropWhile (gaps : ∀ char, blank char = true → gap char = true) (text : List α) :
    words gap (text.dropWhile blank) = words gap text := by
  induction text with
  | nil => rfl
  | cons char rest ih =>
      rw [List.dropWhile_cons]
      split
      · rename_i isBlank
        rw [ih, words_cons_gap (gaps char isBlank)]
      · rfl

theorem words_rdropWhile (gaps : ∀ char, blank char = true → gap char = true) (text : List α) :
    words gap (text.rdropWhile blank) = words gap text := by
  induction text using List.reverseRecOn with
  | nil => rfl
  | append_singleton rest char ih =>
      rw [List.rdropWhile_concat]
      split
      · rename_i isBlank
        rw [ih, (alike_concat_gap (gaps char isBlank) rest).words]
      · rfl

theorem alike_map {change : α → α} (gaps : ∀ char, gap char = true → gap (change char) = true)
    (others : ∀ char, gap char = false → change char = char) (text : List α) :
    Alike gap (text.map change) text := by
  induction text with
  | nil => exact .refl gap []
  | cons char rest ih =>
      rw [List.map_cons]
      cases isGap : gap char with
      | true => exact alike_cons_gap (gaps char isGap) isGap ih.words
      | false =>
          rw [others char isGap]
          exact ih.cons char

theorem words_map {change : α → α} (gaps : ∀ char, gap char = true → gap (change char) = true)
    (others : ∀ char, gap char = false → change char = char) (text : List α) :
    words gap (text.map change) = words gap text :=
  (alike_map gaps others text).words

/-- The first word stands behind the gaps in front of it. -/
theorem words_eq_dropWhile (gap : α → Bool) (text : List α) :
    words gap text =
      if (front gap (text.dropWhile gap)).isEmpty then []
      else front gap (text.dropWhile gap) :: words gap (behind gap (text.dropWhile gap)) := by
  rw [← words_dropWhile (fun _ isGap => isGap) text, words_eq_front]
  split
  · rename_i none
    unfold front at none
    unfold behind
    cases left : text.dropWhile gap with
    | nil => rfl
    | cons char rest =>
        have first : gap char = false := by
          have head := List.head?_dropWhile_not gap text
          rw [left] at head
          simpa only [List.head?_cons, Bool.not_eq_true] using head
        rw [left, List.takeWhile_cons, first] at none
        cases none
  · rfl

theorem length_le_of_mem_splitOnP {part : List α} (member : part ∈ text.splitOnP gap) :
    part.length ≤ text.length := by
  induction text generalizing part with
  | nil =>
      rw [List.splitOnP_nil, List.mem_singleton] at member
      rw [member]
  | cons char rest ih =>
      rw [List.splitOnP_cons_eq_if_modifyHead] at member
      obtain ⟨first, later, split⟩ := List.exists_cons_of_ne_nil (List.splitOnP_ne_nil gap rest)
      rw [split] at member ih
      split at member
      · rcases List.mem_cons.mp member with rfl | inside
        · exact Nat.zero_le _
        · exact (ih inside).trans (Nat.le_succ _)
      · rw [List.modifyHead_cons] at member
        rcases List.mem_cons.mp member with rfl | inside
        · exact Nat.succ_le_succ (ih (List.mem_cons_self ..))
        · exact (ih (List.mem_cons_of_mem _ inside)).trans (Nat.le_succ _)

/-- A word is not longer than the text. -/
theorem length_le_of_mem_words {word : List α} (member : word ∈ words gap text) :
    word.length ≤ text.length :=
  length_le_of_mem_splitOnP (List.mem_of_mem_filter member)

end Trunk.Words
