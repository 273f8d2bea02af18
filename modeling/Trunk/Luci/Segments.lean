import Mathlib.Data.List.DropRight
import Trunk.Luci.Template

/-! # Texts and tags

A template is a list of texts, each with the tag behind it, and a text at the end, unless the last
tag has no end (`Trunk.Luci.cut`). The run of the reader returns the code of the texts and tags in
order: a text loses the white space at its start if the tag in front of it has a marker at its end,
and the one at its end if the parser has seen a marker at the start of a tag last
(`Trunk.Luci.loadTemplate_eq`).
-/

namespace Trunk.Luci

open CString Loop

variable {data rest text tag : List UInt8} {s e index more : Nat} {test : UInt8 → Bool}

/-- White space at the start of a text is taken away. -/
def trimStart (marked : Bool) (text : List UInt8) : List UInt8 :=
  if marked then text.dropWhile isSpace else text

/-- White space at the end of a text is taken away. -/
def trimEnd (marked : Bool) (text : List UInt8) : List UInt8 :=
  if marked then text.rdropWhile isSpace else text

/-- A tag begins with `<%-`. -/
def marksBefore (tag : List UInt8) : Bool := tag.head? = some (ascii '-')

/-- A tag ends with `-%>`. -/
def marksAfter (tag : List UInt8) : Bool := tag.getLast? = some (ascii '-')

theorem length_of_strfind {needle : List UInt8} (found : strfind needle rest = some index) :
    index + needle.length ≤ rest.length ∧ rest ≠ [] := by
  induction rest generalizing index with
  | nil => cases found
  | cons c rest ih =>
      refine ⟨?_, List.cons_ne_nil _ _⟩
      rw [strfind] at found
      split at found
      · rename_i here
        obtain rfl := Option.some.inj found
        rw [Nat.zero_add]
        exact (List.isPrefixOf_iff_prefix.mp here).length_le
      · obtain ⟨before, later, rfl⟩ := Option.map_eq_some_iff.mp found
        rw [List.length_cons]
        have bound := (ih later).1
        omega

/-- The texts of a template with the tags behind them, and the text at the end, if the last tag has
an end. -/
def cut (rest : List UInt8) : List (List UInt8 × List UInt8) × Option (List UInt8) :=
  match found : strfind (bytesOf "<%") rest with
  | none => ([], some rest)
  | some i =>
      match strfind (bytesOf "%>") (rest.drop (i + 2)) with
      | none => ([], none)
      | some j =>
          let later := cut ((rest.drop (i + 2)).drop (j + 2))
          ((rest.take i, (rest.drop (i + 2)).take j) :: later.1, later.2)
termination_by rest.length
decreasing_by
  have nonempty := List.length_pos_of_ne_nil (length_of_strfind found).2
  rw [List.length_drop, List.length_drop]
  omega

theorem cut_none (missing : strfind (bytesOf "<%") rest = none) : cut rest = ([], some rest) := by
  rw [cut]
  split
  · rfl
  · rename_i found
    rw [missing] at found
    cases found

theorem cut_pair {i j : Nat} (opened : strfind (bytesOf "<%") rest = some i)
    (closed : strfind (bytesOf "%>") (rest.drop (i + 2)) = some j) :
    cut rest = ((rest.take i, (rest.drop (i + 2)).take j) ::
        (cut ((rest.drop (i + 2)).drop (j + 2))).1, (cut ((rest.drop (i + 2)).drop (j + 2))).2) := by
  rw [cut]
  split
  · rename_i found
    rw [opened] at found
    cases found
  · rename_i found
    obtain rfl := Option.some.inj (opened.symm.trans found)
    rw [closed]

/-- The code for a text. -/
def textPiece (text : List UInt8) : List UInt8 :=
  if text = [] then bytesOf " "
  else genHead .text ++ luastrEscape [] text false ++ genTail .text

/-- The texts that the reader returns code for, where the markers of the last tag are given. -/
def emitted (before after : Bool) :
    List (List UInt8 × List UInt8) → Option (List UInt8) → List (List UInt8)
  | [], none => []
  | [], some last => if last = [] then [] else [trimEnd before (trimStart after last)]
  | (text, tag) :: pairs, last =>
      trimEnd (marksBefore tag) (trimStart after text) ::
        emitted (marksBefore tag) (marksAfter tag) pairs last

/-- The code of texts, with that of tags between them. -/
def weave : List (List UInt8) → List (List UInt8) → List (List UInt8)
  | text :: texts, code :: codes => textPiece text :: code :: weave texts codes
  | texts, _ => texts.map textPiece

section Pointers

/-- Where a pointer stops that goes ahead. -/
theorem skipAhead_spec (data : List UInt8) (test : UInt8 → Bool) (more s : Nat) :
    s ≤ skipAhead data test more s ∧ skipAhead data test more s ≤ s + more ∧
      (∀ index, s ≤ index → index < skipAhead data test more s → test (byteOf data index) = true) ∧
      (skipAhead data test more s < s + more →
        test (byteOf data (skipAhead data test more s)) = false) := by
  induction more generalizing s with
  | zero =>
      refine ⟨Nat.le_refl _, Nat.le_refl _, ?_, fun less => absurd less (Nat.lt_irrefl _)⟩
      intro index least most
      exact absurd (Nat.lt_of_le_of_lt least most) (Nat.lt_irrefl _)
  | succ more ih =>
      rw [skipAhead]
      by_cases passes : test (byteOf data s) = true
      · rw [if_pos passes]
        obtain ⟨ahead, bound, passed, stop⟩ := ih (s + 1)
        refine ⟨by omega, by omega, ?_, fun less => stop (by omega)⟩
        intro index least most
        by_cases first : index = s
        · rw [first]
          exact passes
        · exact passed index (by omega) most
      · rw [if_neg passes]
        refine ⟨Nat.le_refl _, by omega, ?_, fun _ => Bool.not_eq_true _ |>.mp passes⟩
        intro index least most
        exact absurd (Nat.lt_of_le_of_lt least most) (Nat.lt_irrefl _)

/-- The bytes between two pointers. -/
def slice (data : List UInt8) (s e : Nat) : List UInt8 := (data.drop s).take (e - s)

theorem slice_self (data : List UInt8) (s : Nat) : slice data s s = [] := by
  rw [slice, Nat.sub_self, List.take_zero]

theorem length_slice (s : Nat) (inside : e ≤ data.length) : (slice data s e).length = e - s := by
  rw [slice, List.length_take, List.length_drop]
  omega

theorem slice_succ (before : s ≤ e) (inside : e < data.length) :
    slice data s (e + 1) = slice data s e ++ [byteOf data e] := by
  have next : e + 1 - s = e - s + 1 := by omega
  have there : e - s < (data.drop s).length := by
    rw [List.length_drop]
    omega
  have place : s + (e - s) = e := by omega
  rw [slice, slice, next, List.take_succ_eq_append_getElem there, List.getElem_drop]
  simp only [place, byteOf, List.getElem?_eq_getElem inside, Option.getD_some]

theorem slice_cons (before : s < e) (inside : s < data.length) :
    slice data s e = byteOf data s :: slice data (s + 1) e := by
  have next : e - s = e - (s + 1) + 1 := by omega
  rw [slice, slice, next, List.drop_eq_getElem_cons inside, List.take_succ_cons, byteOf,
    List.getElem?_eq_getElem inside]
  rfl

/-- A pointer that goes ahead over white space leaves the text without it. -/
theorem slice_skipAhead (before : s ≤ e) (inside : e ≤ data.length)
    (stop : isSpace (byteOf data e) = false) :
    skipAhead data isSpace (e + 1 - s) s ≤ e ∧
      slice data (skipAhead data isSpace (e + 1 - s) s) e = (slice data s e).dropWhile isSpace := by
  obtain ⟨count, rfl⟩ := Nat.exists_eq_add_of_le before
  induction count generalizing s with
  | zero =>
      have one : s + 0 + 1 - s = 0 + 1 := by omega
      rw [Nat.add_zero] at stop
      rw [one, skipAhead, stop, if_neg (by decide), Nat.add_zero, slice_self]
      exact ⟨Nat.le_refl _, rfl⟩
  | succ count ih =>
      have shift : s + (count + 1) = s + 1 + count := by omega
      have steps : s + 1 + count + 1 - s = s + 1 + count + 1 - (s + 1) + 1 := by omega
      rw [shift] at inside stop ⊢
      have first := @slice_cons data s (s + 1 + count) (by omega) (by omega)
      rw [steps, skipAhead, first]
      by_cases space : isSpace (byteOf data s) = true
      · rw [if_pos space, List.dropWhile_cons_of_pos space]
        exact ih (by omega) inside stop
      · rw [if_neg space, List.dropWhile_cons_of_neg space]
        exact ⟨by omega, first⟩

/-- A pointer that goes back over white space leaves the text without it. -/
theorem slice_trimBack (before : s ≤ e) (inside : e ≤ data.length) :
    s ≤ trimBack data s e ∧ trimBack data s e ≤ e ∧
      slice data s (trimBack data s e) = (slice data s e).rdropWhile isSpace := by
  induction e with
  | zero =>
      obtain rfl := Nat.le_zero.mp before
      rw [trimBack, slice_self]
      exact ⟨Nat.le_refl _, Nat.le_refl _, rfl⟩
  | succ e ih =>
      rw [trimBack]
      by_cases first : s = e + 1
      · rw [first, if_neg (by simp), slice_self]
        exact ⟨Nat.le_refl _, Nat.le_refl _, rfl⟩
      · rw [slice_succ (by omega) (by omega)]
        by_cases space : isSpace (byteOf data e) = true
        · obtain ⟨least, most, same⟩ := ih (by omega) (by omega)
          rw [if_pos (by simp only [Bool.and_eq_true, decide_eq_true_eq]; exact ⟨by omega, space⟩),
            List.rdropWhile_concat_pos _ _ _ space]
          exact ⟨least, by omega, same⟩
        · rw [if_neg (by simp only [Bool.and_eq_true, decide_eq_true_eq]; exact fun both => space both.2),
            List.rdropWhile_concat_neg _ _ _ space]
          exact ⟨before, Nat.le_refl _, slice_succ (by omega) (by omega)⟩

end Pointers

section Tags

variable {k j : Nat}

theorem byteOf_drop (data : List UInt8) (k index : Nat) :
    byteOf (data.drop k) index = byteOf data (k + index) := by
  rw [byteOf, byteOf, List.getElem?_drop]

/-- Where a needle of two bytes is found. -/
theorem byteOf_of_strfind {first second : UInt8} (found : strfind [first, second] rest = some index) :
    byteOf rest index = first ∧ byteOf rest (index + 1) = second ∧ index + 2 ≤ rest.length := by
  refine ⟨?_, ?_, (length_of_strfind found).1⟩ <;>
    induction rest generalizing index with
    | nil => cases found
    | cons c rest ih =>
        rw [strfind] at found
        split at found
        · rename_i here
          obtain rfl := Option.some.inj found
          obtain ⟨behind, whole⟩ := List.isPrefixOf_iff_prefix.mp here
          rw [← whole]
          rfl
        · obtain ⟨before, later, rfl⟩ := Option.map_eq_some_iff.mp found
          exact ih later

/-- The parser before the next text. -/
def Parser.outside (k : Nat) (before after : Bool) (prv cur : Chunk) : Parser where
  off := k
  inExpr := false
  stripBefore := before
  stripAfter := after
  prvChunk := prv
  curChunk := cur

theorem templateFormatChunk_eq {translate : List UInt8 → Lookup} {parser : Parser}
    (other : parser.prvChunk.type ≠ .text) :
    templateFormatChunk translate data parser = formatChunk translate data parser.prvChunk := by
  have same : strippedChunk data parser = parser.prvChunk := if_neg fun both => other both.2
  rw [templateFormatChunk, same]

theorem formatChunk_text {translate : List UInt8 → Lookup} (before : s ≤ e)
    (inside : e ≤ data.length) :
    formatChunk translate data { s := s, e := e, type := .text } =
      .ok (.piece (textPiece (slice data s e))) := by
  unfold formatChunk textPiece
  by_cases empty : s = e
  · rw [if_pos empty, empty, slice_self, if_pos rfl]
    rfl
  · have bytes : chunkBytes data { s := s, e := e, type := .text } = .ok (slice data s e) :=
      if_pos before
    have some : slice data s e ≠ [] := by
      intro none
      have length := length_slice s inside
      rw [none, List.length_nil] at length
      omega
    have code : genHead .text ++ chunkBody translate .text (slice data s e) ++ genTail .text ≠ [] := by
      intro none
      have front := (List.append_eq_nil_iff.mp (List.append_eq_nil_iff.mp none).1).1
      exact absurd front (by decide)
    rw [if_neg empty, if_neg some, bytes]
    change Except.ok (Answer.piece (if _ = [] then _ else _)) = _
    rw [if_neg code]
    rfl

/-- The code of a text, by the marker that the parser has seen last. -/
theorem templateFormatChunk_text {translate : List UInt8 → Lookup} {parser : Parser}
    (prv : parser.prvChunk = { s := s, e := e, type := .text }) (before : s ≤ e)
    (inside : e ≤ data.length) :
    templateFormatChunk translate data parser =
      .ok (.piece (textPiece (trimEnd parser.stripBefore (slice data s e)))) := by
  unfold templateFormatChunk strippedChunk trimEnd
  rw [prv]
  cases parser.stripBefore with
  | true =>
      obtain ⟨least, most, same⟩ := slice_trimBack before inside
      rw [if_pos ⟨rfl, rfl⟩, if_pos rfl, formatChunk_text least (by omega), same]
  | false =>
      simp only [Bool.false_eq_true, false_and, ↓reduceIte]
      exact formatChunk_text before inside

theorem slice_eq (data : List UInt8) (k index : Nat) :
    slice data k (k + index) = (data.drop k).take index := by
  rw [slice, Nat.add_sub_cancel_left]

/-- A text is read: the code of the chunk before is returned. -/
theorem templateReader_text (translate : List UInt8 → Lookup) (before after : Bool) (prv : Chunk)
    {cur : Chunk} (found : strfind (bytesOf "<%") (data.drop k) = some index) (other : cur.type ≠ .text) :
    ∃ start ≤ k + index,
      slice data start (k + index) = trimStart after ((data.drop k).take index) ∧
      templateReader translate data (.outside k before after prv cur) = do
        return (← formatChunk translate data cur,
          { Parser.outside (k + index + 2) before after cur
              { s := start, e := k + index, type := .text } with inExpr := true }) := by
  obtain ⟨first, -, inside⟩ := byteOf_of_strfind found
  rw [byteOf_drop] at first
  rw [List.length_drop] at inside
  have here : k < data.length := by omega
  have stop : isSpace (byteOf data (k + index)) = false := by
    rw [first]
    decide
  obtain ⟨most, same⟩ := slice_skipAhead (Nat.le_add_right k index) (by omega) stop
  rw [slice_eq] at same
  refine ⟨if after then skipAhead data isSpace (k + index + 1 - k) k else k, ?_, ?_, ?_⟩
  · split
    · exact most
    · exact Nat.le_add_right _ _
  · unfold trimStart
    split
    · exact same
    · exact slice_eq data k index
  · unfold templateReader Parser.outside
    simp only [Bool.false_eq_true, ↓reduceIte, found]
    unfold templateText
    simp only [here, ↓reduceIte]
    rw [templateFormatChunk_eq (by exact other)]

/-- The first byte of a tag, or of its end. -/
theorem marksBefore_eq (last : byteOf data (k + j) = ascii '%') (inside : k + j < data.length) :
    marksBefore (slice data k (k + j)) = decide (byteOf data k = ascii '-') := by
  unfold marksBefore
  cases j with
  | zero =>
      rw [Nat.add_zero] at last
      rw [Nat.add_zero, slice_self, last]
      decide
  | succ j =>
      rw [slice_cons (by omega) (by omega), List.head?_cons]
      simp only [Option.some_inj]

/-- The last byte of a tag, or of its start. -/
theorem marksAfter_eq (first : byteOf data (k - 1) = ascii '%') (inside : k + j ≤ data.length) :
    marksAfter (slice data k (k + j)) = decide (byteOf data (k + j - 1) = ascii '-') := by
  unfold marksAfter
  cases j with
  | zero =>
      rw [Nat.add_zero, slice_self, first]
      decide
  | succ j =>
      have place : k + (j + 1) - 1 = k + j := by omega
      rw [← Nat.add_assoc, slice_succ (by omega) (by omega), List.getLast?_concat]
      simp only [Option.some_inj, Nat.add_sub_cancel]

theorem tagType_le (c : UInt8) : (tagType c).2 ≤ 1 := by
  unfold tagType
  repeat' split
  all_goals decide

/-- A byte behind a tag: that of its end, or the one behind the template. -/
def EndsTag (c : UInt8) : Prop := c = ascii '%' ∨ c = 0

theorem EndsTag.not_blank {c : UInt8} (ends : EndsTag c) : isBlank c = false := by
  rcases ends with rfl | rfl <;> decide

/-- A byte that stands for a type is no blank, no marker, and not behind the tag. -/
theorem tagType_zero {c : UInt8} (plain : EndsTag c ∨ c = ascii '-') : (tagType c).2 = 0 := by
  rcases plain with (rfl | rfl) | rfl <;> decide

theorem tagType_ne (c : UInt8) : (tagType c).1 ≠ .text ∧ (tagType c).1 ≠ .eof := by
  unfold tagType
  repeat' split
  all_goals decide

/-- Where the code of a tag starts. -/
theorem tagStart_bounds (last : EndsTag (byteOf data (k + j))) (more : 0 < j) :
    k + 1 ≤ skipAhead data isBlank (k + j - k) (k + 1) ∧
      skipAhead data isBlank (k + j - k) (k + 1) ≤ k + j ∧
      (2 ≤ j → byteOf data (k + j - 1) = ascii '-' →
        skipAhead data isBlank (k + j - k) (k + 1) ≤ k + j - 1) := by
  obtain ⟨least, -, passed, -⟩ := skipAhead_spec data isBlank (k + j - k) (k + 1)
  refine ⟨least, ?_, ?_⟩
  · by_contra beyond
    have blank := passed (k + j) (by omega) (by omega)
    rw [last.not_blank] at blank
    cases blank
  · intro two marked
    by_contra beyond
    have blank := passed (k + j - 1) (by omega) (by omega)
    rw [marked] at blank
    exact absurd blank (by decide)

/-- A marker at the end of a tag is all that is taken from it. -/
theorem skipBack_marker {start : Nat} (two : 2 ≤ k)
    (marked : byteOf data (k + j - 1) = ascii '-') :
    skipBack data start (k + j - 1) = k + j - 1 := by
  obtain ⟨below, place⟩ : ∃ below, k + j - 1 = below + 1 := ⟨k + j - 2, by omega⟩
  rw [place] at marked ⊢
  rw [skipBack, marked, if_neg]
  simp only [Bool.and_eq_true, not_and]
  exact fun _ => by decide

/-- A byte that stands for a type is before the end of the tag. -/
theorem tagType_bound {start last : Nat} (most : start ≤ last)
    (plain : EndsTag (byteOf data last) ∨ byteOf data last = ascii '-') :
    start + (tagType (byteOf data start)).2 ≤ last := by
  rcases Nat.eq_or_lt_of_le most with same | less
  · rw [same, tagType_zero plain, Nat.add_zero]
  · have one := tagType_le (byteOf data start)
    omega

/-- A chunk of a tag ends behind its start, but for the tag with one marker only. -/
theorem templateCode_bounds {parser : Parser} (off : parser.off = k) (two : 2 ≤ k)
    (first : byteOf data (k - 1) = ascii '%') (last : EndsTag (byteOf data (k + j)))
    (inside : k + j ≤ data.length) :
    (templateCode data parser (k + j)).curChunk.s ≤ (templateCode data parser (k + j)).curChunk.e ↔
      slice data k (k + j) ≠ [ascii '-'] := by
  have marks := marksAfter_eq (j := j) first inside
  unfold templateCode
  dsimp only
  rw [off]
  by_cases after : byteOf data (k + j - 1) = ascii '-'
  · have more : 0 < j := by
      rcases Nat.eq_zero_or_pos j with rfl | more
      · rw [Nat.add_zero, first] at after
        exact absurd after (by decide)
      · exact more
    rw [if_pos after, skipBack_marker two after]
    by_cases before : byteOf data k = ascii '-'
    · rw [if_pos before]
      obtain ⟨least, most, marked⟩ := tagStart_bounds (k := k) last more
      by_cases one : j = 1
      · subst one
        have tag : slice data k (k + 1) = [ascii '-'] := by
          rw [slice_succ (Nat.le_refl k) (by omega), slice_self, before]
          rfl
        refine iff_of_false ?_ (fun other => other tag)
        omega
      · refine iff_of_true (tagType_bound (marked (by omega) after) (Or.inr after)) ?_
        intro tag
        have length := length_slice k (show k + j ≤ data.length by omega)
        rw [tag, List.length_singleton] at length
        omega
    · rw [if_neg before]
      have two : 2 ≤ j := by
        by_contra few
        have place : k + j - 1 = k := by omega
        rw [place] at after
        exact before after
      have one := tagType_le (byteOf data k)
      refine iff_of_true (by omega) ?_
      intro tag
      have length := length_slice k (show k + j ≤ data.length by omega)
      rw [tag, List.length_singleton] at length
      omega
  · rw [if_neg after]
    refine iff_of_true (tagType_bound ?_ (Or.inl last)) ?_
    · by_cases before : byteOf data k = ascii '-'
      · rw [if_pos before]
        have more : 0 < j := by
          rcases Nat.eq_zero_or_pos j with rfl | more
          · rw [Nat.add_zero, before] at last
            rcases last with last | last <;> exact absurd last (by decide)
          · exact more
        exact (tagStart_bounds last more).2.1
      · rw [if_neg before]
        exact Nat.le_add_right k j
    · intro tag
      rw [tag, decide_eq_false after] at marks
      exact absurd marks (by decide)

/-- A tag is read: the code of the text in front of it is returned. -/
theorem templateReader_tag (translate : List UInt8 → Lookup) (before after : Bool) (prv : Chunk)
    {start stop : Nat} (found : strfind (bytesOf "%>") (data.drop k) = some j) (two : 2 ≤ k)
    (first : byteOf data (k - 1) = ascii '%') (least : start ≤ stop) (most : stop ≤ data.length) :
    ∃ c : Chunk, c.type ≠ .text ∧ c.type ≠ .eof ∧
      (c.s ≤ c.e ↔ (data.drop k).take j ≠ [ascii '-']) ∧
      templateReader translate data
        { Parser.outside k before after prv { s := start, e := stop, type := .text } with
          inExpr := true } =
        .ok (.piece (textPiece (trimEnd (marksBefore ((data.drop k).take j))
            (slice data start stop))),
          .outside (k + j + 2) (marksBefore ((data.drop k).take j))
            (marksAfter ((data.drop k).take j)) { s := start, e := stop, type := .text } c) := by
  obtain ⟨last, -, inside⟩ := byteOf_of_strfind found
  rw [byteOf_drop] at last
  rw [List.length_drop] at inside
  have behind : k + j < data.length := by omega
  rw [← slice_eq, marksBefore_eq last behind, marksAfter_eq first (Nat.le_of_lt behind)]
  refine ⟨(templateCode data
    { Parser.outside k before after { s := start, e := stop, type := .text }
        { s := start, e := stop, type := .text } with inExpr := true } (k + j)).curChunk,
    (tagType_ne _).1, (tagType_ne _).2,
    templateCode_bounds rfl two first (Or.inl last) (Nat.le_of_lt behind), ?_⟩
  unfold templateReader
  simp only [↓reduceIte, Parser.outside, found]
  rw [templateFormatChunk_text rfl least most]
  rfl

/-- The code of a chunk that is no text, and not the end. -/
theorem formatChunk_code (translate : List UInt8 → Lookup) (data : List UInt8) {c : Chunk}
    (other : c.type ≠ .eof) :
    (c.s ≤ c.e → ∃ code, formatChunk translate data c = .ok (.piece code)) ∧
      (¬c.s ≤ c.e → formatChunk translate data c = .error .outside) := by
  unfold formatChunk chunkBytes
  constructor
  · intro ordered
    rw [if_neg other, if_pos ordered]
    split
    · exact ⟨_, rfl⟩
    · exact ⟨_, rfl⟩
  · intro reversed
    have differ : c.s ≠ c.e := fun same => reversed (Nat.le_of_eq same)
    rw [if_neg differ, if_neg reversed]
    rfl

/-- The text at the end is read: the code of the chunk before is returned. -/
theorem templateReader_last (translate : List UInt8 → Lookup) (before after : Bool) (prv : Chunk)
    {cur : Chunk} (missing : strfind (bytesOf "<%") (data.drop k) = none) (here : k < data.length)
    (other : cur.type ≠ .text) :
    ∃ start ≤ data.length,
      slice data start data.length = trimStart after (data.drop k) ∧
      templateReader translate data (.outside k before after prv cur) = do
        return (← formatChunk translate data cur,
          .outside data.length before after cur
            { s := start, e := data.length, type := .text }) := by
  have stop : isSpace (byteOf data data.length) = false := by
    rw [byteOf, List.getElem?_eq_none (Nat.le_refl _)]
    decide
  have whole : slice data k data.length = data.drop k := by
    rw [slice, List.take_of_length_le (by rw [List.length_drop])]
  obtain ⟨most, same⟩ := slice_skipAhead (Nat.le_of_lt here) (Nat.le_refl _) stop
  rw [whole] at same
  refine ⟨if after then skipAhead data isSpace (data.length + 1 - k) k else k, ?_, ?_, ?_⟩
  · split
    · exact most
    · exact Nat.le_of_lt here
  · unfold trimStart
    split
    · exact same
    · exact whole
  · unfold templateReader Parser.outside
    simp only [Bool.false_eq_true, ↓reduceIte, missing]
    unfold templateText
    simp only [here, ↓reduceIte]
    rw [templateFormatChunk_eq (by exact other)]

/-- Behind the template the end is read: the code of the chunk before is returned. -/
theorem templateReader_end {translate : List UInt8 → Lookup} {before after : Bool}
    {prv cur : Chunk} :
    templateReader translate data (.outside data.length before after prv cur) = do
      let parser := .outside data.length before after cur
        { s := data.length, e := data.length, type := .eof }
      return (← templateFormatChunk translate data parser, parser) := by
  have empty : data.drop data.length = [] := List.drop_length
  have none : strfind (bytesOf "<%") (data.drop data.length) = none := by rw [empty, strfind]
  unfold templateReader Parser.outside
  simp only [Bool.false_eq_true, ↓reduceIte, none]
  unfold templateText
  simp only [Nat.lt_irrefl, ↓reduceIte]

end Tags

section Run

variable {translate : List UInt8 → Lookup} {k fuel : Nat} {before after : Bool}

theorem loadRound_piece {parser next : Parser} {code : List UInt8}
    (read : templateReader translate data parser = .ok (.piece code, next))
    (codes : List (List UInt8)) :
    loadRound translate data { parser := parser, code := codes } =
      .ok (.again { parser := next, code := codes ++ [code] }) := by
  unfold loadRound
  rw [read]
  rfl

theorem loadRound_error {parser : Parser}
    (read : templateReader translate data parser = .error .outside) (codes : List (List UInt8)) :
    loadRound translate data { parser := parser, code := codes } = .error .outside := by
  unfold loadRound
  rw [read]
  rfl

/-- Behind the end of a template there is nothing. -/
theorem loadRound_finished {prv : Chunk} (codes : List (List UInt8)) :
    loadRound translate data
        { parser := .outside data.length before after prv
            { s := data.length, e := data.length, type := .eof }, code := codes } =
      .ok (.done { code := codes, unexpected := false }) := by
  unfold loadRound
  rw [templateReader_end]
  dsimp only
  rw [templateFormatChunk_eq (by exact ChunkType.noConfusion), formatChunk]
  simp only [Parser.outside, ↓reduceIte]
  rfl

/-- A tag without an end is reported. -/
theorem loadRound_unexpected {prv cur : Chunk}
    (missing : strfind (bytesOf "%>") (data.drop k) = none) (codes : List (List UInt8)) :
    loadRound translate data
        { parser := { Parser.outside k before after prv cur with inExpr := true }, code := codes } =
      .ok (.done { code := codes, unexpected := true }) := by
  unfold loadRound templateReader Parser.outside
  simp only [↓reduceIte, missing]
  rfl

/-- No tag consists of one marker only. -/
def sound (pairs : List (List UInt8 × List UInt8)) : Prop := ∀ pair ∈ pairs, pair.2 ≠ [ascii '-']

variable {prv cur : Chunk} {code : List UInt8}

/-- A template ends with a text. -/
theorem iterate_last (inside : k ≤ data.length) (other : cur.type ≠ .text)
    (ready : formatChunk translate data cur = .ok (.piece code))
    (missing : strfind (bytesOf "<%") (data.drop k) = none)
    (enough : 2 * (data.length - k) + 2 ≤ fuel) (codes : List (List UInt8)) :
    iterate (loadRound translate data) .outside fuel
        { parser := .outside k before after prv cur, code := codes } =
      .ok { code := codes ++ code :: (emitted before after [] (some (data.drop k))).map textPiece,
            unexpected := false } := by
  obtain ⟨fuel, rfl⟩ : ∃ less, fuel = less + 1 + 1 := ⟨fuel - 2, by omega⟩
  by_cases empty : k = data.length
  · subst empty
    have read : templateReader translate data (.outside data.length before after prv cur) =
        .ok (.piece code, .outside data.length before after cur
          { s := data.length, e := data.length, type := .eof }) := by
      rw [templateReader_end]
      dsimp only
      rw [templateFormatChunk_eq (by exact other)]
      change (do return (← formatChunk translate data cur, _)) = _
      rw [ready]
      rfl
    rw [iterate_again (loadRound_piece read codes), iterate_done (loadRound_finished _),
      List.drop_length, emitted, if_pos rfl]
    rfl
  · obtain ⟨start, least, same, read⟩ := templateReader_last translate before after prv missing (by omega) other
    rw [ready] at read
    obtain ⟨fuel, rfl⟩ : ∃ less, fuel = less + 1 := ⟨fuel - 1, by omega⟩
    have text : templateReader translate data (.outside data.length before after cur
          { s := start, e := data.length, type := .text }) =
        .ok (.piece (textPiece (trimEnd before (trimStart after (data.drop k)))),
          .outside data.length before after { s := start, e := data.length, type := .text }
            { s := data.length, e := data.length, type := .eof }) := by
      rw [templateReader_end]
      dsimp only
      rw [templateFormatChunk_text rfl least (Nat.le_refl _), same]
      rfl
    have some : data.drop k ≠ [] := by
      intro none
      have length := @List.length_drop _ k data
      rw [none, List.length_nil] at length
      omega
    rw [iterate_again (loadRound_piece read codes), iterate_again (loadRound_piece text _),
      iterate_done (loadRound_finished _), emitted, if_neg some, List.append_assoc]
    rfl

/-- A text and the tag behind it are read in two calls. -/
theorem iterate_pair {i j : Nat} (prv : Chunk) (before after : Bool) (fuel : Nat) (other : cur.type ≠ .text)
    (ready : formatChunk translate data cur = .ok (.piece code))
    (opened : strfind (bytesOf "<%") (data.drop k) = some i)
    (closed : strfind (bytesOf "%>") (data.drop (k + i + 2)) = some j)
    (codes : List (List UInt8)) :
    ∃ prv' c : Chunk, c.type ≠ .text ∧ c.type ≠ .eof ∧
      (c.s ≤ c.e ↔ (data.drop (k + i + 2)).take j ≠ [ascii '-']) ∧
      iterate (loadRound translate data) .outside (fuel + 1 + 1)
          { parser := .outside k before after prv cur, code := codes } =
        iterate (loadRound translate data) .outside fuel
          { parser := .outside (k + i + 2 + j + 2)
              (marksBefore ((data.drop (k + i + 2)).take j))
              (marksAfter ((data.drop (k + i + 2)).take j)) prv' c,
            code := codes ++ [code] ++ [textPiece (trimEnd
              (marksBefore ((data.drop (k + i + 2)).take j))
              (trimStart after ((data.drop k).take i)))] } := by
  obtain ⟨-, percent, inside⟩ := byteOf_of_strfind opened
  rw [byteOf_drop] at percent
  rw [List.length_drop] at inside
  obtain ⟨start, least, same, text⟩ := templateReader_text translate before after prv opened other
  rw [ready] at text
  obtain ⟨c, noText, noEnd, ordered, tag⟩ := templateReader_tag translate before after cur closed (by omega) percent least (by omega)
  rw [same] at tag
  refine ⟨{ s := start, e := k + i, type := .text }, c, noText, noEnd, ordered, ?_⟩
  rw [iterate_again (loadRound_piece text codes), iterate_again (loadRound_piece tag _)]

/-- A text in front of a tag without an end. -/
theorem iterate_unclosed {i : Nat} (other : cur.type ≠ .text)
    (ready : formatChunk translate data cur = .ok (.piece code))
    (opened : strfind (bytesOf "<%") (data.drop k) = some i)
    (unclosed : strfind (bytesOf "%>") (data.drop (k + i + 2)) = none)
    (codes : List (List UInt8)) :
    iterate (loadRound translate data) .outside (fuel + 1 + 1)
        { parser := .outside k before after prv cur, code := codes } =
      .ok { code := codes ++ [code], unexpected := true } := by
  obtain ⟨start, -, -, text⟩ := templateReader_text translate before after prv opened other
  rw [ready] at text
  rw [iterate_again (loadRound_piece text codes), iterate_done (loadRound_unexpected unclosed _)]

/-- A chunk with its end in front of its start is a fault of the next call. -/
theorem iterate_fault (inside : k ≤ data.length) (other : cur.type ≠ .text)
    (fault : formatChunk translate data cur = .error .outside) (codes : List (List UInt8)) :
    iterate (loadRound translate data) .outside (fuel + 1)
        { parser := .outside k before after prv cur, code := codes } = .error .outside := by
  apply iterate_error
  apply loadRound_error
  cases opened : strfind (bytesOf "<%") (data.drop k) with
  | some i =>
      obtain ⟨start, -, -, text⟩ := templateReader_text translate before after prv opened other
      rw [text, fault]
      rfl
  | none =>
      rcases Nat.eq_or_lt_of_le inside with rfl | here
      · rw [templateReader_end]
        dsimp only
        rw [templateFormatChunk_eq (by exact other)]
        change (do return (← formatChunk translate data cur, _)) = _
        rw [fault]
        rfl
      · obtain ⟨start, -, -, text⟩ := templateReader_last translate before after prv opened here other
        rw [text, fault]
        rfl

/-- The rest of a run, from a text on: the code of the chunk before comes first. -/
theorem iterate_loadRound (prv : Chunk) (before after : Bool) (fuel : Nat) (inside : k ≤ data.length) (other : cur.type ≠ .text)
    (ready : formatChunk translate data cur = .ok (.piece code))
    (enough : 2 * (data.length - k) + 2 ≤ fuel) (codes : List (List UInt8)) :
    (sound (cut (data.drop k)).1 → ∃ tags : List (List UInt8),
      tags.length = (cut (data.drop k)).1.length ∧
      iterate (loadRound translate data) .outside fuel
          { parser := .outside k before after prv cur, code := codes } =
        .ok { code := codes ++ code ::
                weave (emitted before after (cut (data.drop k)).1 (cut (data.drop k)).2) tags,
              unexpected := (cut (data.drop k)).2.isNone }) ∧
    (¬sound (cut (data.drop k)).1 →
      iterate (loadRound translate data) .outside fuel
          { parser := .outside k before after prv cur, code := codes } = .error .outside) := by
  -- a pair takes two calls, and the rest of the template is shorter by four bytes at least
  induction bound : data.length - k using Nat.strongRecOn generalizing
    k cur code prv before after codes fuel with
  | ind most ih =>
      rw [cut]
      split
      case h_1 missing =>
        refine ⟨fun _ => ⟨[], rfl, ?_⟩, fun unsound => absurd (List.forall_mem_nil _) unsound⟩
        rw [iterate_last inside other ready missing enough, weave]
        · rfl
        · intro _ _ _ _ _ codes
          cases codes
      case h_2 i opened =>
        obtain ⟨fuel, rfl⟩ : ∃ less, fuel = less + 1 + 1 := ⟨fuel - 2, by omega⟩
        have shift : (data.drop k).drop (i + 2) = data.drop (k + i + 2) := by
          rw [List.drop_drop, ← Nat.add_assoc]
        rw [shift]
        split
        case h_1 unclosed =>
          refine ⟨fun _ => ⟨[], rfl, ?_⟩, fun unsound => absurd (List.forall_mem_nil _) unsound⟩
          rw [iterate_unclosed other ready opened unclosed]
          rfl
        case h_2 j closed =>
          have further : (data.drop (k + i + 2)).drop (j + 2) = data.drop (k + i + 2 + j + 2) := by
            rw [List.drop_drop, ← Nat.add_assoc]
          obtain ⟨-, -, room⟩ := byteOf_of_strfind closed
          rw [List.length_drop] at room
          obtain ⟨prv', c, noText, noEnd, ordered, calls⟩ :=
            iterate_pair prv before after fuel other ready opened closed codes
          rw [further, calls]
          obtain ⟨piece, fault⟩ := formatChunk_code translate data noEnd
          by_cases lone : (data.drop (k + i + 2)).take j = [ascii '-']
          · obtain ⟨fuel, rfl⟩ : ∃ less, fuel = less + 1 := ⟨fuel - 1, by omega⟩
            refine ⟨fun safe => absurd lone (safe _ List.mem_cons_self), fun _ => ?_⟩
            exact iterate_fault (by omega) noText (fault fun least => ordered.mp least lone) _
          · obtain ⟨next, ready'⟩ := piece (ordered.mpr lone)
            obtain ⟨safe, faulty⟩ := ih (data.length - (k + i + 2 + j + 2)) (by omega) prv'
              (marksBefore ((data.drop (k + i + 2)).take j))
              (marksAfter ((data.drop (k + i + 2)).take j)) fuel (by omega) noText ready' (by omega) (codes ++ [code] ++ [textPiece (trimEnd
                (marksBefore ((data.drop (k + i + 2)).take j))
                (trimStart after ((data.drop k).take i)))]) rfl
            constructor
            · intro sounds
              obtain ⟨tags, length, run⟩ := safe fun pair member =>
                sounds pair (List.mem_cons_of_mem _ member)
              refine ⟨next :: tags, congrArg (· + 1) length, ?_⟩
              rw [run]
              simp only [List.append_assoc, List.cons_append, List.nil_append, emitted, weave]
            · intro unsound
              refine faulty fun sounds => unsound ?_
              intro pair member
              rcases List.mem_cons.mp member with rfl | member
              · exact lone
              · exact sounds pair member

/-- The whole run of the reader. -/
theorem loadTemplate_run (translate : List UInt8 → Lookup) (data : List UInt8) :
    (sound (cut data).1 → ∃ tags : List (List UInt8), tags.length = (cut data).1.length ∧
      loadTemplate translate data =
        .ok { code := bytesOf " " :: weave (emitted false false (cut data).1 (cut data).2) tags,
              unexpected := (cut data).2.isNone }) ∧
    (¬sound (cut data).1 → loadTemplate translate data = .error .outside) := by
  have first : templateOpen.curChunk.type ≠ .text := ChunkType.noConfusion
  have ready : formatChunk translate data templateOpen.curChunk = .ok (.piece (bytesOf " ")) := rfl
  have enough : 2 * (data.length - 0) + 2 ≤ Load.size data { parser := templateOpen, code := [] } :=
    Nat.le_refl _
  have run := iterate_loadRound templateOpen.prvChunk false false _ (Nat.zero_le _) first ready
    enough []
  rw [List.drop_zero] at run
  exact run

/-- What a template is turned into: code for its texts, with that for its tags between them. -/
theorem loadTemplate_eq (translate : List UInt8 → Lookup) (sounds : sound (cut data).1) :
    ∃ tags : List (List UInt8), tags.length = (cut data).1.length ∧
      loadTemplate translate data =
        .ok { code := bytesOf " " :: weave (emitted false false (cut data).1 (cut data).2) tags,
              unexpected := (cut data).2.isNone } :=
  (loadTemplate_run translate data).1 sounds

/-- A tag that consists of one marker only is a fault. -/
theorem loadTemplate_fault (translate : List UInt8 → Lookup) (unsound : ¬sound (cut data).1) :
    loadTemplate translate data = .error .outside :=
  (loadTemplate_run translate data).2 unsound

end Run

end Trunk.Luci
