import Trunk.Luci.Segments

/-! # White space around tags

A marker of a tag takes the white space of the texts next to it. The parser forgets the marker at
the start of a tag only at the next tag, so the last tag takes the white space at the end of the
text behind it too (`Trunk.Luci.stripping_local_iff`).
-/

namespace Trunk.Luci

open CString

variable {pairs : List (List UInt8 × List UInt8)} {last : Option (List UInt8)} {before after : Bool}
  {text : List UInt8}

/-- The texts without the white space that the tags next to them take. -/
def stripped (after : Bool) :
    List (List UInt8 × List UInt8) → Option (List UInt8) → List (List UInt8)
  | [], none => []
  | [], some last => if last = [] then [] else [trimStart after last]
  | (text, tag) :: pairs, last =>
      trimEnd (marksBefore tag) (trimStart after text) :: stripped (marksAfter tag) pairs last

/-- The code of a template is that of its texts, stripped by the tags next to them, with the code of
the tags between them. -/
def StrippingLocal (translate : List UInt8 → Lookup) (data : List UInt8) : Prop :=
  ∃ tags : List (List UInt8), tags.length = (cut data).1.length ∧
    loadTemplate translate data =
      .ok { code := bytesOf " " :: weave (stripped false (cut data).1 (cut data).2) tags,
            unexpected := (cut data).2.isNone }

/-- A text ends with white space. -/
def endsBlank (text : List UInt8) : Prop := ∃ c ∈ text.getLast?, isSpace c = true

/-- The last tag has a marker at its start, and the text behind it has white space at its end. -/
def Lingers (pairs : List (List UInt8 × List UInt8)) (last : Option (List UInt8)) : Prop :=
  ∃ pair ∈ pairs.getLast?, ∃ text ∈ last,
    marksBefore pair.2 = true ∧ endsBlank (trimStart (marksAfter pair.2) text)

theorem trimEnd_eq_self_iff : trimEnd before text = text ↔ ¬(before = true ∧ endsBlank text) := by
  unfold trimEnd endsBlank
  cases before with
  | false => simp only [Bool.false_eq_true, ↓reduceIte, false_and, not_false_eq_true]
  | true =>
      rw [if_pos rfl, List.rdropWhile_eq_self_iff]
      constructor
      · rintro kept ⟨-, c, final, space⟩
        obtain ⟨some, same⟩ := List.mem_getLast?_eq_getLast final
        exact kept some (same ▸ space)
      · intro kept some space
        exact kept ⟨rfl, _, List.getLast_mem_getLast? some, space⟩

theorem trimEnd_prefix_of (before : Bool) (text : List UInt8) :
    ∃ taken, trimEnd before text ++ taken = text := by
  unfold trimEnd
  split
  · exact List.rdropWhile_prefix _ _
  · exact ⟨[], List.append_nil text⟩

theorem luastrByte_ne_nil (escapeXml : Bool) (c : UInt8) : luastrByte escapeXml c ≠ [] := by
  unfold luastrByte escape
  repeat' split
  all_goals simp

theorem length_textPiece (some : text ≠ []) :
    (textPiece text).length = 9 + (text.flatMap (luastrByte false)).length := by
  have head : (genHead .text).length = 7 := by decide
  have tail : (genTail .text).length = 2 := by decide
  rw [textPiece, if_neg some, luastrEscape, List.nil_append, List.length_append, List.length_append,
    head, tail]
  omega

theorem length_textPiece_le (text : List UInt8) :
    (textPiece text).length ≤ 9 + (text.flatMap (luastrByte false)).length := by
  by_cases empty : text = []
  · rw [empty]
    decide
  · exact Nat.le_of_eq (length_textPiece empty)

/-- Code for less of a text is different code. -/
theorem textPiece_trimEnd_iff :
    textPiece (trimEnd before text) = textPiece text ↔ trimEnd before text = text := by
  refine ⟨?_, congrArg textPiece⟩
  obtain ⟨taken, whole⟩ := trimEnd_prefix_of before text
  intro same
  cases taken with
  | nil => rwa [List.append_nil] at whole
  | cons c taken =>
      -- what is taken makes the code longer
      have some : text ≠ [] := by
        rw [← whole]
        exact List.append_ne_nil_of_right_ne_nil _ (List.cons_ne_nil c taken)
      have longer := List.length_pos_of_ne_nil (luastrByte_ne_nil false c)
      have most := length_textPiece_le (trimEnd before text)
      have all := length_textPiece some
      rw [← same, ← whole, List.flatMap_append, List.flatMap_cons, List.length_append,
        List.length_append, whole] at all
      omega

/-- The code of a template determines that of its texts. -/
theorem map_textPiece_of_weave {texts texts' tags tags' : List (List UInt8)}
    (count : texts.length = texts'.length) (same : tags.length = tags'.length)
    (woven : weave texts tags = weave texts' tags') :
    texts.map textPiece = texts'.map textPiece := by
  induction texts generalizing texts' tags tags' with
  | nil =>
      obtain rfl := List.eq_nil_of_length_eq_zero count.symm
      rfl
  | cons text texts ih =>
      obtain ⟨text', texts', rfl⟩ := List.exists_cons_of_length_eq_add_one count.symm
      cases tags with
      | nil =>
          obtain rfl := List.eq_nil_of_length_eq_zero same.symm
          exact woven
      | cons tag tags =>
          obtain ⟨tag', tags', rfl⟩ := List.exists_cons_of_length_eq_add_one same.symm
          obtain ⟨first, rest⟩ := List.cons.inj woven
          rw [List.map_cons, List.map_cons, first,
            ih (Nat.succ.inj count) (Nat.succ.inj same) (List.cons.inj rest).2]

theorem weave_congr {texts texts' tags : List (List UInt8)}
    (same : texts.map textPiece = texts'.map textPiece) : weave texts tags = weave texts' tags := by
  induction texts generalizing texts' tags with
  | nil =>
      obtain rfl := List.map_eq_nil_iff.mp same.symm
      rfl
  | cons text texts ih =>
      obtain ⟨text', texts', rfl, first, rest⟩ := List.map_eq_cons_iff.mp same.symm
      cases tags with
      | nil => exact same
      | cons tag tags => rw [weave, weave, first, ih rest.symm]

theorem length_emitted (before after : Bool) (pairs : List (List UInt8 × List UInt8))
    (last : Option (List UInt8)) :
    (emitted before after pairs last).length = (stripped after pairs last).length := by
  induction pairs generalizing before after with
  | nil =>
      cases last with
      | none => rfl
      | some last =>
          rw [emitted, stripped]
          split <;> rfl
  | cons pair pairs ih => exact congrArg (· + 1) (ih _ _)

/-- The text at the end, by the marker that the parser has seen last. -/
theorem emitted_last_iff :
    (emitted before after [] last).map textPiece = (stripped after [] last).map textPiece ↔
      ¬∃ text ∈ last, before = true ∧ endsBlank (trimStart after text) := by
  cases last with
  | none => exact iff_of_true rfl fun ⟨_, absent, _⟩ => nomatch absent
  | some text =>
      simp only [Option.mem_some_iff, exists_eq_left', emitted, stripped]
      rw [← trimEnd_eq_self_iff, ← textPiece_trimEnd_iff]
      split
      case isTrue empty =>
        refine iff_of_true rfl ?_
        rw [empty]
        cases before <;> cases after <;> rfl
      case isFalse => exact ⟨fun same => (List.cons.inj same).1, fun same => by rw [List.map_singleton, same]; rfl⟩

/-- The reader strips each text by the tags next to it exactly if no marker lingers. -/
theorem emitted_iff (some : pairs ≠ []) :
    (emitted before after pairs last).map textPiece = (stripped after pairs last).map textPiece ↔
      ¬Lingers pairs last := by
  induction pairs generalizing before after with
  | nil => exact absurd rfl some
  | cons pair pairs ih =>
      have tails : (emitted before after (pair :: pairs) last).map textPiece =
          (stripped after (pair :: pairs) last).map textPiece ↔
          (emitted (marksBefore pair.2) (marksAfter pair.2) pairs last).map textPiece =
            (stripped (marksAfter pair.2) pairs last).map textPiece :=
        ⟨fun same => (List.cons.inj same).2, fun same => congrArg (textPiece _ :: ·) same⟩
      rw [tails]
      cases pairs with
      | nil =>
          rw [emitted_last_iff, Lingers]
          simp only [List.getLast?_singleton, Option.mem_some_iff, exists_eq_left']
      | cons next pairs =>
          rw [ih (List.cons_ne_nil next pairs), Lingers, Lingers, List.getLast?_cons_cons]

end Trunk.Luci
