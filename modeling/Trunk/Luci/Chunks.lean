import Trunk.Luci.Segments

/-! # Chunks of a template

Each call of the reader records a chunk, from which the next one makes code. The start and the end of
the chunk of a tag are moved independently of each other, and they pass each other in a tag that is a
single marker, with an end or without one (`Trunk.Luci.openTag`). The size of a template has no sign,
where what is left of it and the length of a chunk are passed as `int`. Elsewhere every chunk is in
the template, and the calls come to an end (`Trunk.Luci.contained_iff`).
-/

namespace Trunk.Luci

open CString Loop

variable {translate : List UInt8 → Lookup} {data rest : List UInt8} {k : Nat} {parser next : Parser}
  {answer : Answer}

/-- The `int` that a number is passed as. -/
def asInt (value : Int) : Int := (BitVec.ofInt 32 value).toInt

/-- `strfind` in the bytes that are left, which are counted in an `int`. -/
def findLeft (needle data : List UInt8) (off : Nat) : Option Nat :=
  let rem := asInt ((data.length : Int) - off)
  if rem ≤ 0 then none else strfind needle (data.drop off)

/-- `template_reader`, where the bytes that are left are counted in an `int`. -/
def templateReaderInt (translate : List UInt8 → Lookup) (data : List UInt8) (parser : Parser) :
    Except Fault (Answer × Parser) :=
  let off := parser.off
  let parser := { parser with prvChunk := parser.curChunk }
  if parser.inExpr then
    match findLeft (bytesOf "%>") data off with
    | some found => do
        let tag := off + found
        let parser := { templateCode data parser tag with off := tag + 2, inExpr := false }
        return (← templateFormatChunk translate data parser, parser)
    | none => .ok (.unexpected, templateCode data parser data.length)
  else
    match findLeft (bytesOf "<%") data off with
    | some found => do
        let tag := off + found
        let parser := { templateText data parser tag with off := tag + 2, inExpr := true }
        return (← templateFormatChunk translate data parser, parser)
    | none => do
        let parser := { templateText data parser data.length with off := data.length }
        return (← templateFormatChunk translate data parser, parser)

/-- A call of the reader, as Lua makes it. -/
def loadRoundInt (translate : List UInt8 → Lookup) (data : List UInt8) (load : Load) :
    Except Fault (Round Load Loaded) := do
  let (answer, parser) ← templateReaderInt translate data load.parser
  match answer with
  | .piece code => return .again { parser := parser, code := load.code ++ [code] }
  | .unexpected => return .done { code := load.code, unexpected := true }
  | .finished => return .done { code := load.code, unexpected := false }

/-- The parser before the first call. -/
def loadStart : Load where
  parser := templateOpen
  code := []

/-- A chunk is in the template, and its length is not negative as an `int`. -/
structure Chunk.Inside (data : List UInt8) (c : Chunk) : Prop where
  ordered : c.s ≤ c.e
  bounded : c.e ≤ data.length
  length : 0 ≤ asInt ((c.e : Int) - c.s)

/-- The chunk that a call records is in the template. -/
def Records (reader : Parser → Except Fault (Answer × Parser)) (data : List UInt8) (load : Load) :
    Prop :=
  ∀ answer next, reader load.parser = .ok (answer, next) → next.curChunk.Inside data

/-- The calls end, and each of them records a chunk that is in the template. -/
structure Contained (translate : List UInt8 → Lookup) (data : List UInt8) : Prop where
  ends : ∃ loaded,
    loop (loadRoundInt translate data) (Load.size data) .outside loadStart = .ok loaded
  records : Throughout (loadRoundInt translate data)
    (Records (templateReaderInt translate data) data) loadStart

/-- The tag without an end, if there is one. -/
def openTag (rest : List UInt8) : Option (List UInt8) :=
  match found : strfind (bytesOf "<%") rest with
  | none => none
  | some i =>
      match strfind (bytesOf "%>") (rest.drop (i + 2)) with
      | none => some (rest.drop (i + 2))
      | some j => openTag ((rest.drop (i + 2)).drop (j + 2))
termination_by rest.length
decreasing_by
  have nonempty := List.length_pos_of_ne_nil (length_of_strfind found).2
  rw [List.length_drop, List.length_drop]
  omega

theorem openTag_none (missing : strfind (bytesOf "<%") rest = none) : openTag rest = none := by
  rw [openTag]
  split
  · rfl
  · rename_i found
    rw [missing] at found
    cases found

theorem openTag_pair {i j : Nat} (opened : strfind (bytesOf "<%") rest = some i)
    (closed : strfind (bytesOf "%>") (rest.drop (i + 2)) = some j) :
    openTag rest = openTag ((rest.drop (i + 2)).drop (j + 2)) := by
  rw [openTag]
  split
  · rename_i found
    rw [opened] at found
    cases found
  · rename_i found
    obtain rfl := Option.some.inj (opened.symm.trans found)
    rw [closed]

theorem openTag_unclosed {i : Nat} (opened : strfind (bytesOf "<%") rest = some i)
    (unclosed : strfind (bytesOf "%>") (rest.drop (i + 2)) = none) :
    openTag rest = some (rest.drop (i + 2)) := by
  rw [openTag]
  split
  · rename_i found
    rw [opened] at found
    cases found
  · rename_i found
    obtain rfl := Option.some.inj (opened.symm.trans found)
    rw [unclosed]

theorem asInt_eq {value : Int} (least : 0 ≤ value) (most : value < 2 ^ 31) :
    asInt value = value := by
  unfold asInt
  apply BitVec.toInt_ofInt_eq_self (by decide)
  · omega
  · exact most

theorem asInt_neg {value : Int} (least : 2 ^ 31 ≤ value) (most : value < 2 ^ 32) :
    asInt value < 0 := by
  unfold asInt
  rw [BitVec.toInt_ofInt]
  have wrap : value.bmod (2 ^ 32) = value - 2 ^ 32 := by
    rw [Int.bmod_def]
    omega
  omega

section Small

variable (small : data.length < 2 ^ 31)
include small

theorem findLeft_eq (needle : List UInt8) (off : Nat) :
    findLeft needle data off = strfind needle (data.drop off) := by
  unfold findLeft
  dsimp only
  by_cases left : off < data.length
  · rw [asInt_eq (by omega) (by omega), if_neg (by omega)]
  · rw [List.drop_eq_nil_of_le (by omega)]
    split <;> rfl

theorem templateReaderInt_eq (translate : List UInt8 → Lookup) (parser : Parser) :
    templateReaderInt translate data parser = templateReader translate data parser := by
  unfold templateReaderInt
  dsimp only
  rw [findLeft_eq small, findLeft_eq small]
  rfl

theorem loadRoundInt_eq (translate : List UInt8 → Lookup) :
    loadRoundInt translate data = loadRound translate data := by
  funext load
  unfold loadRoundInt
  rw [templateReaderInt_eq small]
  rfl

theorem inside_iff {c : Chunk} (bounded : c.e ≤ data.length) : c.Inside data ↔ c.s ≤ c.e := by
  constructor
  · exact fun inside => inside.ordered
  · intro ordered
    refine ⟨ordered, bounded, ?_⟩
    rw [asInt_eq (by omega) (by omega)]
    omega

end Small

/-- The end of a tag only goes back. -/
theorem skipBack_le (data : List UInt8) (s e : Nat) : skipBack data s e ≤ e := by
  induction e with
  | zero => exact Nat.le_refl 0
  | succ e ih =>
      rw [skipBack]
      split
      · exact Nat.le_succ_of_le ih
      · exact Nat.le_refl _

theorem templateCode_le (data : List UInt8) (parser : Parser) (e : Nat) :
    (templateCode data parser e).curChunk.e ≤ e := by
  have back := skipBack_le data (if byteOf data parser.off = ascii '-' then
    skipAhead data isBlank (e - parser.off) (parser.off + 1) else parser.off) (e - 1)
  unfold templateCode
  dsimp only
  split
  · split_ifs at back ⊢ <;> omega
  · exact Nat.le_refl e

theorem templateText_e (data : List UInt8) (parser : Parser) (e : Nat) :
    (templateText data parser e).curChunk.e = e := by
  unfold templateText
  dsimp only
  split <;> rfl

theorem eq_of_format {format : Except Fault Answer}
    (read : (do return (← format, parser)) = Except.ok (answer, next)) : next = parser := by
  cases format with
  | error fault => cases read
  | ok code => exact (Prod.mk.inj (Except.ok.inj read)).2.symm

/-- No chunk that a call records goes behind the template. -/
theorem templateReader_bounded
    (read : templateReader translate data parser = .ok (answer, next)) :
    next.curChunk.e ≤ data.length := by
  unfold templateReader at read
  dsimp only at read
  by_cases tag : parser.inExpr = true
  · rw [if_pos tag] at read
    cases found : strfind (bytesOf "%>") (data.drop parser.off) with
    | none =>
        rw [found] at read
        obtain rfl := (Prod.mk.inj (Except.ok.inj read)).2
        exact templateCode_le data _ data.length
    | some index =>
        rw [found] at read
        obtain rfl := eq_of_format read
        have bound := (length_of_strfind found).1
        rw [List.length_drop] at bound
        have two : (bytesOf "%>").length = 2 := by decide
        have least := templateCode_le data { parser with prvChunk := parser.curChunk }
          (parser.off + index)
        refine Nat.le_trans least ?_
        omega
  · rw [if_neg tag] at read
    cases found : strfind (bytesOf "<%") (data.drop parser.off) with
    | none =>
        rw [found] at read
        obtain rfl := eq_of_format read
        exact Nat.le_of_eq (templateText_e data _ data.length)
    | some index =>
        rw [found] at read
        obtain rfl := eq_of_format read
        have bound := (length_of_strfind found).1
        rw [List.length_drop] at bound
        have two : (bytesOf "<%").length = 2 := by decide
        have same := templateText_e data { parser with prvChunk := parser.curChunk }
          (parser.off + index)
        refine Nat.le_trans (Nat.le_of_eq same) ?_
        omega

/-- The chunk of a tag without an end. -/
theorem openTag_records (small : data.length < 2 ^ 31) {k : Nat} {before after : Bool}
    {prv cur : Chunk} (two : 2 ≤ k) (inside : k ≤ data.length)
    (first : byteOf data (k - 1) = ascii '%')
    (missing : strfind (bytesOf "%>") (data.drop k) = none) (code : List (List UInt8)) :
    Records (templateReader translate data) data
        { parser := { Parser.outside k before after prv cur with inExpr := true }, code := code } ↔
      data.drop k ≠ [ascii '-'] := by
  obtain ⟨tag, off, read⟩ : ∃ tag : Parser, tag.off = k ∧ templateReader translate data
      { Parser.outside k before after prv cur with inExpr := true } =
      .ok (.unexpected, templateCode data tag data.length) := by
    refine ⟨{ Parser.outside k before after cur cur with inExpr := true }, rfl, ?_⟩
    unfold templateReader
    simp only [↓reduceIte, Parser.outside, missing]
  have length : k + (data.length - k) = data.length := by omega
  have behind : EndsTag (byteOf data (k + (data.length - k))) := by
    rw [length, byteOf, List.getElem?_eq_none (Nat.le_refl _)]
    exact .inr rfl
  have bounds := templateCode_bounds off two first behind (Nat.le_of_eq length)
  have whole : slice data k data.length = data.drop k := by
    rw [slice, List.take_of_length_le (by rw [List.length_drop])]
  rw [length, whole] at bounds
  rw [← bounds, ← inside_iff small (templateCode_le data _ data.length)]
  constructor
  · intro records
    exact records _ _ read
  · intro contained answer next read'
    obtain rfl := (Prod.mk.inj (Except.ok.inj (read.symm.trans read'))).2
    exact contained

section Run

variable {before after : Bool} {prv cur : Chunk} {code : List UInt8} {codes : List (List UInt8)}

theorem records_of_format {format : Except Fault Answer}
    (read : templateReader translate data parser = do return (← format, next))
    (inside : next.curChunk.Inside data) :
    Records (templateReader translate data) data { parser := parser, code := codes } := by
  intro answer next' read'
  dsimp only at read'
  rw [read] at read'
  obtain rfl := eq_of_format read'
  exact inside

theorem records_of_read (read : templateReader translate data parser = .ok (answer, next))
    (inside : next.curChunk.Inside data) :
    Records (templateReader translate data) data { parser := parser, code := codes } := by
  intro answer' next' read'
  obtain rfl := (Prod.mk.inj (Except.ok.inj (read.symm.trans read'))).2
  exact inside

variable (small : data.length < 2 ^ 31)
include small

/-- Behind the template the chunk of the end is recorded. -/
theorem records_end :
    Records (templateReader translate data) data
      { parser := .outside data.length before after prv cur, code := codes } :=
  records_of_format templateReader_end ((inside_iff small (Nat.le_refl _)).mpr (Nat.le_refl _))

theorem throughout_finished :
    Throughout (loadRound translate data) (Records (templateReader translate data) data)
      { parser := .outside data.length before after prv
          { s := data.length, e := data.length, type := .eof }, code := codes } := by
  have round := @loadRound_finished data translate before after prv codes
  rw [throughout_last]
  · exact records_end small
  · intro next again
    rw [round] at again
    cases again

/-- The calls for the text at the end. -/
theorem throughout_text_end (inside : k ≤ data.length) (other : cur.type ≠ .text)
    (ready : formatChunk translate data cur = .ok (.piece code))
    (missing : strfind (bytesOf "<%") (data.drop k) = none) :
    Throughout (loadRound translate data) (Records (templateReader translate data) data)
      { parser := .outside k before after prv cur, code := codes } := by
  by_cases empty : k = data.length
  · subst empty
    have read : templateReader translate data (.outside data.length before after prv cur) =
        .ok (.piece code, .outside data.length before after cur
          { s := data.length, e := data.length, type := .eof }) := by
      rw [templateReader_end]
      dsimp only
      rw [templateFormatChunk_eq (by exact other)]
      change (do return (← formatChunk translate data cur, _)) = _
      rw [ready]
      rfl
    rw [throughout_again (loadRound_piece read codes)]
    exact ⟨records_end small, throughout_finished small⟩
  · obtain ⟨start, least, -, read⟩ :=
      templateReader_last translate before after prv missing (by omega) other
    have records : Records (templateReader translate data) data
        { parser := .outside k before after prv cur, code := codes } :=
      records_of_format read ((inside_iff small (Nat.le_refl _)).mpr least)
    rw [ready] at read
    obtain ⟨piece, text⟩ : ∃ piece, templateReader translate data
        (.outside data.length before after cur { s := start, e := data.length, type := .text }) =
          .ok (.piece piece, .outside data.length before after
            { s := start, e := data.length, type := .text }
            { s := data.length, e := data.length, type := .eof }) := by
      refine ⟨textPiece (trimEnd before (slice data start data.length)), ?_⟩
      rw [templateReader_end]
      dsimp only
      rw [templateFormatChunk_text rfl least (Nat.le_refl _)]
      rfl
    rw [throughout_again (loadRound_piece read codes), throughout_again (loadRound_piece text _)]
    exact ⟨records, records_end small, throughout_finished small⟩

/-- From a text on, where no tag with an end is a single marker, every call records a chunk in the
template if the tag without an end is none either. -/
theorem throughout_records (prv : Chunk) (before after : Bool) (codes : List (List UInt8))
    (inside : k ≤ data.length) (other : cur.type ≠ .text)
    (ready : formatChunk translate data cur = .ok (.piece code))
    (sounds : sound (cut (data.drop k)).1) :
    Throughout (loadRound translate data) (Records (templateReader translate data) data)
        { parser := .outside k before after prv cur, code := codes } ↔
      openTag (data.drop k) ≠ some [ascii '-'] := by
  -- a pair takes two calls, and the rest of the template is shorter by four bytes at least
  induction bound : data.length - k using Nat.strongRecOn generalizing
    k cur code prv before after codes with
  | ind most ih =>
      cases opened : strfind (bytesOf "<%") (data.drop k) with
      | none =>
          rw [openTag_none opened]
          exact iff_of_true (throughout_text_end small inside other ready opened)
            (Option.some_ne_none _).symm
      | some i =>
          have shift : (data.drop k).drop (i + 2) = data.drop (k + i + 2) := by
            rw [List.drop_drop, ← Nat.add_assoc]
          obtain ⟨-, percent, room⟩ := byteOf_of_strfind opened
          rw [byteOf_drop] at percent
          rw [List.length_drop] at room
          obtain ⟨start, least, -, text⟩ :=
            templateReader_text translate before after prv opened other
          have stop : k + i ≤ data.length := by omega
          have records : Records (templateReader translate data) data
              { parser := .outside k before after prv cur, code := codes } :=
            records_of_format text
              ((inside_iff (c := { s := start, e := k + i, type := .text }) small stop).mpr least)
          rw [ready] at text
          rw [throughout_again (loadRound_piece text codes), and_iff_right records]
          cases closed : strfind (bytesOf "%>") (data.drop (k + i + 2)) with
          | none =>
              rw [openTag_unclosed opened (by rw [shift, closed]), shift, throughout_last,
                openTag_records small (by omega) (by omega) percent closed, Ne, Ne,
                Option.some_inj]
              intro next again
              rw [loadRound_unexpected closed] at again
              cases again
          | some j =>
              have further : (data.drop (k + i + 2)).drop (j + 2) =
                  data.drop (k + i + 2 + j + 2) := by
                rw [List.drop_drop, ← Nat.add_assoc]
              have cutting := cut_pair opened (show _ = some j by rw [shift, closed])
              rw [shift, further] at cutting
              rw [cutting] at sounds
              obtain ⟨-, -, room'⟩ := byteOf_of_strfind closed
              rw [List.length_drop] at room'
              obtain ⟨c, noText, noEnd, ordered, tag⟩ := templateReader_tag translate before after
                cur closed (by omega) percent least (by omega)
              have ordered' := ordered.mpr (sounds _ List.mem_cons_self)
              obtain ⟨next, ready'⟩ := (formatChunk_code translate data noEnd).1 ordered'
              have bounded := templateReader_bounded tag
              rw [throughout_again (loadRound_piece tag _),
                and_iff_right (records_of_read tag ((inside_iff small bounded).mpr ordered')),
                openTag_pair opened (by rw [shift, closed]), shift, further]
              exact ih _ (by omega) _ _ _ _ (by omega) noText ready'
                (fun pair member => sounds pair (List.mem_cons_of_mem _ member)) rfl

end Run

end Trunk.Luci
