import Trunk.Partool.Block

/-! # Lines of variables

Which variables survive a line. What `part_line_read` extracts from a line is always
plain (`Trunk.Partool.partParseLine_plain`), and the line that `part_write_line` makes of
a plain variable gives it back (`Trunk.Partool.Plain.partParseLine_eq`).
-/

namespace Trunk.Partool

open CString Text

variable {c : PartCursor} {line : List UInt8}

/-- A variable that its line can carry. -/
structure Plain (c : PartCursor) : Prop where
  name_nonempty : c.k.bytes ≠ []
  name_chars : ∀ byte ∈ c.k.bytes, byte ≠ ascii '\t' ∧ byte ≠ ascii ' ' ∧ byte ≠ ascii '\n'
  name_first : ∀ byte, c.k.bytes.head? = some byte → byte ≠ ascii '#' ∧ byte ≠ ascii '\r'
  value_nonempty : c.v.bytes ≠ []
  value_chars : ascii '\n' ∉ c.v.bytes
  value_single : Single isSeparator c.v.bytes
  value_first : ∀ byte, c.v.bytes.head? = some byte → byte ≠ ascii '\t' ∧ byte ≠ ascii ' '
  value_last : ∀ byte, c.v.bytes.getLast? = some byte →
    byte ≠ ascii '\t' ∧ byte ≠ ascii ' ' ∧ byte ≠ ascii '\r'
  length_le : c.k.bytes.length + 1 + c.v.bytes.length ≤ 1022

theorem isSeparator_eq_false_iff (byte : UInt8) :
    isSeparator byte = false ↔ byte ≠ ascii '\t' ∧ byte ≠ ascii ' ' := by
  simp only [isSeparator, Bool.or_eq_false_iff, decide_eq_false_iff_not, ne_eq]

theorem isBlank_eq_false_iff (byte : UInt8) :
    isBlank byte = false ↔ byte ≠ ascii '\t' ∧ byte ≠ ascii ' ' ∧ byte ≠ ascii '\r' ∧
      byte ≠ ascii '\n' := by
  simp only [isBlank, Bool.or_eq_false_iff, decide_eq_false_iff_not, ne_eq, and_assoc]

theorem isSeparator_of_isBlank {byte : UInt8} (plain : isBlank byte = false) :
    isSeparator byte = false := by
  have chars := (isBlank_eq_false_iff byte).mp plain
  exact (isSeparator_eq_false_iff byte).mpr ⟨chars.1, chars.2.1⟩

/-- Cutting a line at its first separator. -/
theorem partGetValueFromLine_eq_some {name value : List UInt8}
    (cut : partGetValueFromLine line = some (name, value)) :
    ∃ separator, line = name ++ separator :: value ∧ isSeparator separator = true ∧
      ∀ byte ∈ name, isSeparator byte = false := by
  unfold partGetValueFromLine at cut
  split at cut
  · cases cut
  · rename_i separator rest found
    obtain ⟨rfl, rfl⟩ := Prod.mk.inj (Option.some.inj cut)
    have whole := List.takeWhile_append_dropWhile (p := fun byte => !isSeparator byte) (l := line)
    rw [found] at whole
    refine ⟨separator, whole.symm, ?_, fun byte member => ?_⟩
    · have stop := List.head?_dropWhile_not (fun byte => !isSeparator byte) line
      rw [found] at stop
      simpa using stop
    · simpa using List.mem_takeWhile_imp member

theorem partGetValueFromLine_append {name value : List UInt8} {separator : UInt8}
    (plain : ∀ byte ∈ name, isSeparator byte = false) (kind : isSeparator separator = true) :
    partGetValueFromLine (name ++ separator :: value) = some (name, value) := by
  have drop : (name ++ separator :: value).dropWhile (fun byte => !isSeparator byte) =
      separator :: value := by
    rw [List.dropWhile_append_of_pos (by simpa using plain), List.dropWhile_cons, kind]
    rfl
  have take : (name ++ separator :: value).takeWhile (fun byte => !isSeparator byte) = name := by
    rw [List.takeWhile_append_of_pos (by simpa using plain), List.takeWhile_cons, kind]
    simp
  simp only [partGetValueFromLine, drop, take]

theorem single_append {name rest : List UInt8} (plain : ∀ byte ∈ name, isSeparator byte = false)
    (single : Single isSeparator rest) : Single isSeparator (name ++ rest) := by
  induction name with
  | nil => exact single
  | cons byte name ih =>
      apply single_cons (plain byte (List.mem_cons_self ..))
      exact ih fun other member => plain other (List.mem_cons_of_mem _ member)

/-- The text of a variable's line, without the line end. -/
def lineText (c : PartCursor) : List UInt8 := c.k.bytes ++ partSeperator :: c.v.bytes

theorem lineBytes_eq (c : PartCursor) : lineBytes c = lineText c ++ [partCrlf] := by
  simp only [lineBytes, lineText, List.append_assoc, List.singleton_append]

theorem lineText_length (c : PartCursor) :
    (lineText c).length = c.k.bytes.length + 1 + c.v.bytes.length := by
  simp only [lineText, List.length_append, List.length_cons]
  omega

theorem lineBytes_length (c : PartCursor) :
    (lineBytes c).length = c.k.bytes.length + c.v.bytes.length + 2 := by
  rw [lineBytes_eq, List.length_append, lineText_length, List.length_singleton]
  omega

theorem Plain.name_separator (plain : Plain c) :
    ∀ byte ∈ c.k.bytes, isSeparator byte = false := by
  intro byte member
  have chars := plain.name_chars byte member
  exact (isSeparator_eq_false_iff byte).mpr ⟨chars.1, chars.2.1⟩

theorem Plain.lineText_head? (plain : Plain c) : (lineText c).head? = c.k.bytes.head? := by
  obtain ⟨first, rest, name⟩ := List.exists_cons_of_ne_nil plain.name_nonempty
  rw [lineText, name]
  rfl

theorem Plain.lineText_getLast? (plain : Plain c) :
    (lineText c).getLast? = c.v.bytes.getLast? := by
  rw [lineText, List.getLast?_append, List.getLast?_cons,
    List.getLast?_eq_some_getLast plain.value_nonempty]
  rfl

theorem Plain.lineText_trimmed (plain : Plain c) : Trimmed isBlank (lineText c) := by
  constructor
  · intro byte first
    rw [plain.lineText_head?] at first
    have chars := plain.name_chars byte (List.mem_of_mem_head? first)
    exact (isBlank_eq_false_iff byte).mpr
      ⟨chars.1, chars.2.1, (plain.name_first byte first).2, chars.2.2⟩
  · intro byte last
    rw [plain.lineText_getLast?] at last
    have chars := plain.value_last byte last
    refine (isBlank_eq_false_iff byte).mpr ⟨chars.1, chars.2.1, chars.2.2, ?_⟩
    rintro rfl
    exact plain.value_chars (List.mem_of_getLast? last)

theorem Plain.lineText_single (plain : Plain c) : Single isSeparator (lineText c) := by
  apply single_append plain.name_separator
  rw [Single, List.isChain_cons]
  refine ⟨fun next first both => ?_, plain.value_single⟩
  rw [(isSeparator_eq_false_iff next).mpr (plain.value_first next first)] at both
  exact Bool.false_ne_true both.2

/-- The line of a plain variable gives the variable back. -/
theorem Plain.partParseLine_eq (plain : Plain c) : partParseLine (lineText c) = some c := by
  have trimmed := plain.lineText_trimmed
  have head : (lineText c).head? ≠ some partComment := by
    rw [plain.lineText_head?]
    exact fun comment => (plain.name_first _ comment).1 rfl
  have nonempty : (lineText c).isEmpty = false := by
    rw [List.isEmpty_eq_false_iff, ← List.length_pos_iff, lineText_length]
    omega
  have reduced : stringReduce isSeparator (lineText c) = lineText c :=
    (plain.lineText_single.reduceFrom_eq fun byte last =>
      isSeparator_of_isBlank (trimmed.last byte last)).1
  have cut : partGetValueFromLine (lineText c) = some (c.k.bytes, c.v.bytes) :=
    partGetValueFromLine_append plain.name_separator rfl
  simp only [partParseLine, trimmed.stringStrimBothEnds_eq, head, nonempty, reduced, cut,
    Bool.false_eq_true, ↓reduceIte, Option.map_some, CStr.ofBuffer_eq c.k.noNul,
    CStr.ofBuffer_eq c.v.noNul]

/-- What a line is before it is cut: trimmed, and with its separators reduced. -/
structure Cleaned (line text : List UInt8) : Prop where
  members : ∀ byte ∈ text, byte ∈ line
  length_le : text.length ≤ line.length
  single : Single isSeparator text
  trimmed : Trimmed isBlank text

/-- The ends of the trimmed text are no blanks, so reducing keeps them. -/
theorem stringReduce_ends {text : List UInt8} (trimmed : Trimmed isBlank text) :
    (stringReduce isSeparator text).head? = text.head? ∧
      (stringReduce isSeparator text).getLast? = text.getLast? := by
  cases first : text.head? with
  | none =>
      rw [List.head?_eq_none_iff] at first
      subst text
      exact ⟨rfl, rfl⟩
  | some start =>
      have nonempty : text ≠ [] := by
        rintro rfl
        cases first
      have last := List.getLast?_eq_some_getLast nonempty
      rw [last]
      exact ⟨stringReduce_head? first (isSeparator_of_isBlank (trimmed.first start first)),
        reduceFrom_getLast? none last (isSeparator_of_isBlank (trimmed.last _ last))⟩

theorem cleaned_stringReduce (line : List UInt8) :
    Cleaned line (stringReduce isSeparator (stringStrimBothEnds isBlank line)) := by
  have trimmed : Trimmed isBlank (stringStrimBothEnds isBlank line) := stringStrimBothEnds_trimmed
  have inside : stringStrimBothEnds isBlank line <:+: line := stringStrimBothEnds_infix
  obtain ⟨head, last⟩ := stringReduce_ends trimmed
  refine ⟨fun byte member => ?_, stringReduce_length_le.trans inside.length_le,
    stringReduce_single, fun byte first => ?_, fun byte final => ?_⟩
  · rcases mem_reduceFrom none _ member with none | listed
    · cases none
    · exact inside.subset listed
  · exact trimmed.first byte (head ▸ first)
  · exact trimmed.last byte (last ▸ final)

/-- A cleaned line that is cut at a separator has a plain name and a plain value. -/
theorem Cleaned.plain {name value : CStr} {separator : UInt8}
    (clean : Cleaned line (name.bytes ++ separator :: value.bytes)) (noCrlf : partCrlf ∉ line)
    (short : line.length < partMaxLine) (kind : isSeparator separator = true)
    (plainName : ∀ byte ∈ name.bytes, isSeparator byte = false)
    (notComment : (name.bytes ++ separator :: value.bytes).head? ≠ some partComment) :
    Plain ⟨name, value⟩ := by
  have inName : ∀ byte ∈ name.bytes, byte ∈ line :=
    fun byte member => clean.members byte (List.mem_append_left _ member)
  have inValue : ∀ byte ∈ value.bytes, byte ∈ line :=
    fun byte member => clean.members byte (List.mem_append_right _ (List.mem_cons_of_mem _ member))
  obtain ⟨adjacent, valueSingle⟩ := List.isChain_cons.mp (List.isChain_append.mp clean.single).2.1
  -- a name or a value that is empty would leave the separator at an end
  have nameNonempty : name.bytes ≠ [] := by
    intro empty
    have blank := clean.trimmed.first separator (by rw [empty]; rfl)
    rw [isSeparator_of_isBlank blank] at kind
    cases kind
  have valueNonempty : value.bytes ≠ [] := by
    intro empty
    have blank := clean.trimmed.last separator (by rw [empty, List.getLast?_append]; rfl)
    rw [isSeparator_of_isBlank blank] at kind
    cases kind
  refine {
    name_nonempty := nameNonempty
    name_chars := ?_
    name_first := ?_
    value_nonempty := valueNonempty
    value_chars := fun crlf => noCrlf (inValue _ crlf)
    value_single := valueSingle
    value_first := ?_
    value_last := ?_
    length_le := ?_ }
  · intro byte member
    have separators := (isSeparator_eq_false_iff byte).mp (plainName byte member)
    refine ⟨separators.1, separators.2, ?_⟩
    rintro rfl
    exact noCrlf (inName _ member)
  · intro byte head
    have first : (name.bytes ++ separator :: value.bytes).head? = some byte := by
      rw [List.head?_append, head, Option.some_or]
    refine ⟨?_, ((isBlank_eq_false_iff byte).mp (clean.trimmed.first byte first)).2.2.1⟩
    rintro rfl
    exact notComment first
  · intro byte head
    rw [← isSeparator_eq_false_iff, ← Bool.not_eq_true]
    exact fun both => adjacent byte head ⟨kind, both⟩
  · intro byte tail
    have last : (name.bytes ++ separator :: value.bytes).getLast? = some byte := by
      rw [List.getLast?_append, List.getLast?_cons, tail]
      rfl
    have chars := (isBlank_eq_false_iff byte).mp (clean.trimmed.last byte last)
    exact ⟨chars.1, chars.2.1, chars.2.2.1⟩
  · have length := clean.length_le
    simp only [List.length_append, List.length_cons, partMaxLine] at length short
    simp only
    omega

/-- What is extracted from a line of a file is plain. -/
theorem partParseLine_plain (noNul : 0 ∉ line) (noCrlf : partCrlf ∉ line)
    (short : line.length < partMaxLine) (parsed : partParseLine line = some c) : Plain c := by
  have clean := cleaned_stringReduce line
  have trimmed : Trimmed isBlank (stringStrimBothEnds isBlank line) := stringStrimBothEnds_trimmed
  have head := (stringReduce_ends trimmed).1
  unfold partParseLine at parsed
  dsimp only at parsed
  split at parsed
  · cases parsed
  split at parsed
  · cases parsed
  rename_i notComment _
  obtain ⟨⟨name, value⟩, cut, rfl⟩ := Option.map_eq_some_iff.mp parsed
  obtain ⟨separator, whole, kind, plainName⟩ := partGetValueFromLine_eq_some cut
  rw [← head, whole] at notComment
  rw [whole] at clean
  have nameNul : 0 ∉ name := fun zero => noNul (clean.members 0 (List.mem_append_left _ zero))
  have valueNul : 0 ∉ value := fun zero =>
    noNul (clean.members 0 (List.mem_append_right _ (List.mem_cons_of_mem _ zero)))
  rw [CStr.ofBuffer_eq nameNul, CStr.ofBuffer_eq valueNul]
  exact clean.plain noCrlf short kind plainName notComment

end Trunk.Partool
