import Trunk.Partool.RoundTrip

/-! # Saving what was read

Whatever the variables are, the ones that come back from their block are plain, and their lines are
no longer than the lines they were read from (`Trunk.Partool.textLength_read_le`). So they fit, and
saving them once more changes nothing (`Trunk.Partool.resave_settles`). The block has to hold at
least the CRC and its line end: in a smaller one nothing is written at all.
-/

namespace Trunk.Partool

open CString Text Crc32

variable {past : UInt8} {list : List PartCursor} {c : PartCursor} {line written : List UInt8}

/-- What `part_line_read` finds in a block to which `part_line_wirte` wrote a list. -/
def resave (past : UInt8) (size : Nat) (list : List PartCursor) : Option (List PartCursor) := do
  let block ← partLineWirte { partBlockNew .normal size 0 with list := list }
  return (partLineRead past { block with list := [] }).list

/-- The variable of a line is not longer than the line. -/
theorem partParseLine_length_le (parsed : partParseLine line = some c) :
    c.k.bytes.length + 1 + c.v.bytes.length ≤ line.length := by
  have clean := cleaned_stringReduce line
  unfold partParseLine at parsed
  dsimp only at parsed
  split at parsed
  · cases parsed
  split at parsed
  · cases parsed
  obtain ⟨⟨name, value⟩, cut, rfl⟩ := Option.map_eq_some_iff.mp parsed
  obtain ⟨separator, whole, -, -⟩ := partGetValueFromLine_eq_some cut
  have length := clean.length_le
  rw [whole, List.length_append, List.length_cons] at length
  have shortName : (CStr.ofBuffer name).bytes.length ≤ name.length :=
    (List.takeWhile_prefix _).length_le
  have shortValue : (CStr.ofBuffer value).bytes.length ≤ value.length :=
    (List.takeWhile_prefix _).length_le
  dsimp only
  omega

/-- A line that ends is read, unless it is too long, and reading goes on behind it. -/
theorem partReadLine_ended (noCrlf : partCrlf ∉ line) {rest : List UInt8} (more : rest ≠ []) :
    partReadLine past (some (line ++ partCrlf :: rest)) partMaxLine =
      endLine partMaxLine line (some rest) := by
  rw [partReadLine_crlf past rest partMaxLine noCrlf,
    List.isEmpty_eq_false_iff.mpr more]
  rfl

/-- A text in which every line ends. -/
def Ended (written : List UInt8) : Prop := ∀ byte, written.getLast? = some byte → byte = partCrlf

theorem ended_flatMap_lineBytes (list : List PartCursor) : Ended (list.flatMap lineBytes) := by
  induction list with
  | nil => exact fun byte last => by cases last
  | cons c list ih =>
      intro byte last
      rw [List.flatMap_cons, List.getLast?_append] at last
      cases rest : (list.flatMap lineBytes).getLast? with
      | none =>
          rw [rest, lineBytes_eq, List.getLast?_concat] at last
          exact (Option.some.inj last).symm
      | some final =>
          rw [rest] at last
          exact ih byte (rest.trans last)

/-- The first line of such a text, and what follows it. -/
theorem Ended.split (ended : Ended written) (nonempty : written ≠ []) :
    ∃ line rest, written = line ++ partCrlf :: rest ∧ partCrlf ∉ line ∧ Ended rest := by
  have last := List.getLast?_eq_some_getLast nonempty
  have member : partCrlf ∈ written := by
    rw [← ended _ last]
    exact List.getLast_mem nonempty
  obtain ⟨line, rest, rfl, fresh⟩ := List.eq_append_cons_of_mem member
  refine ⟨line, rest, rfl, fresh, fun byte last => ended byte ?_⟩
  rw [List.getLast?_append, List.getLast?_cons, last]
  rfl

/-- The variables that are read from a text in which every line ends, with zeros behind it, take no
more room than the text. -/
theorem textLength_read_le (ended : Ended written) {room : Nat} (positive : room ≠ 0) :
    textLength ((partReadLines past (some (written ++ List.replicate room 0))).filterMap
      partParseLine) ≤ written.length := by
  induction bound : written.length using Nat.strongRecOn generalizing written with
  | _ length ih =>
      subst bound
      by_cases empty : written = []
      · rw [empty, List.nil_append, partReadLines_zeros]
        exact Nat.le_refl _
      obtain ⟨line, rest, rfl, noCrlf, later⟩ := ended.split empty
      have more : rest ++ List.replicate room (0 : UInt8) ≠ [] := by
        intro none
        have zeros := (List.append_eq_nil_iff.mp none).2
        rw [List.replicate_eq_nil_iff] at zeros
        exact positive zeros
      have read := @partReadLine_ended past line noCrlf _ more
      have fewer : rest.length < (line ++ partCrlf :: rest).length := by
        rw [List.length_append, List.length_cons]
        omega
      have follows := ih rest.length fewer later rfl
      rw [List.append_assoc, List.cons_append, partReadLines, read]
      by_cases long : partMaxLine ≤ line.length
      · rw [endLine, if_pos long, if_neg (by simp)]
        exact Nat.zero_le _
      · rw [endLine, if_neg long, if_pos (.inl rfl), List.filterMap_cons]
        dsimp only
        have short : (CStr.ofBuffer line).bytes.length ≤ line.length :=
          (List.takeWhile_prefix _).length_le
        rw [List.length_append, List.length_cons]
        cases parsed : partParseLine (CStr.ofBuffer line).bytes with
        | none =>
            dsimp only
            omega
        | some c =>
            have fits := partParseLine_length_le parsed
            dsimp only
            rw [textLength_cons, lineBytes_length]
            omega

/-- What is read from the payload of a list fits again. -/
theorem textLength_payload_le (past : UInt8) (room : Nat) (list : List PartCursor) :
    (partReadLines past (some (payload room list))).filterMap partParseLine = [] ∨
      textLength ((partReadLines past (some (payload room list))).filterMap partParseLine) + 1 ≤
        room := by
  rcases textLength_fitting room list with nothing | bound
  · left
    rw [payload, nothing, List.flatMap_nil, List.nil_append, partReadLines_zeros]
    rfl
  · right
    have read := @textLength_read_le past _ (ended_flatMap_lineBytes (fitting room list))
      (room - textLength (fitting room list)) (by omega)
    rw [length_flatMap_lineBytes] at read
    exact (Nat.add_le_add_right read 1).trans bound

/-- In a block with room for the CRC, a list is read back from its payload. -/
theorem resave_eq (past : UInt8) {size : Nat} (enough : headerLen ≤ size)
    (list : List PartCursor) :
    resave past size list =
      some ((partReadLines past (some (payload (size - headerLen) list))).filterMap
        partParseLine) := by
  have length : PartBlock.size { partBlockNew .normal size 0 with list := list } = size :=
    partBlockNew_size .normal size 0
  have written := partLineWirte_eq { partBlockNew .normal size 0 with list := list }
    (length.symm ▸ enough)
  rw [length] at written
  have header : (crcText (osCrc32 (payload (size - headerLen) list)) ++ [partCrlf]).length =
      headerLen := by
    rw [List.length_append, crcText_length]
    rfl
  rw [resave, written]
  simp only [Option.bind_eq_bind, Option.bind_some, Option.pure_def, partLineRead, List.nil_append,
    List.drop_left' header]

/-- In every block with room for the CRC, the list that comes back from a save comes back from the
next one too, whatever the byte is that lies behind the cache. -/
theorem resave_settles (past later : UInt8) (size : Nat) (enough : 9 ≤ size)
    (list : List PartCursor) :
    ∃ settled, resave past size list = some settled ∧
      resave later size settled = some settled := by
  refine ⟨_, resave_eq past enough list, ?_⟩
  rw [resave_eq later enough]
  refine congrArg some ((filterMap_payload_eq_self_iff _).mpr ⟨?_, textLength_payload_le ..⟩)
  exact fun c member => filterMap_partReadLines_plain _ member

/-- A value with a line end and a comment in it. -/
theorem resave_settles_lines :
    ∃ settled, resave 0 24 [⟨⟨[97], by decide⟩, ⟨[98, 10, 35, 99], by decide⟩⟩] = some settled ∧
      resave 0 24 settled = some settled :=
  resave_settles 0 0 24 (by decide) _

/-- A block of four bytes has no room for its CRC, and no list comes back from it. -/
theorem resave_fails_in_one_word :
    ¬ ∀ (size : Nat) (list : List PartCursor), ∃ settled,
      resave 0 size list = some settled ∧ resave 0 size settled = some settled := by
  intro settles
  obtain ⟨settled, saved, -⟩ := settles 4 []
  rw [resave, partLineWirte_eq_none] at saved
  · cases saved
  · decide

end Trunk.Partool
