import Trunk.Foundation.LuaString
import Trunk.Luci.Segments

/-! # Texts as strings of Lua

The code for a text is a call with a string of Lua. The string denotes the bytes of the text unless
there is a carriage return among them, which `luastr_escape` leaves as it is and Lua does not accept
in a string (`Trunk.Luci.texts_verbatim_iff`).
-/

namespace Trunk.Luci

open CString LuaString

variable {data rest text : List UInt8} {pairs : List (List UInt8 × List UInt8)}
  {last : Option (List UInt8)}

/-- The texts between the tags, and behind the last one. -/
def rawTexts (pairs : List (List UInt8 × List UInt8)) (last : Option (List UInt8)) :
    List (List UInt8) :=
  pairs.map Prod.fst ++ last.toList.filter (· ≠ [])

/-- No tag of a template has a marker. -/
def Unmarked (pairs : List (List UInt8 × List UInt8)) : Prop :=
  ∀ pair ∈ pairs, marksBefore pair.2 = false ∧ marksAfter pair.2 = false

/-- A piece of code is a call with a string that denotes a text. -/
def Denotes (text code : List UInt8) : Prop :=
  ∃ literal, code = bytesOf "write(\"" ++ literal ++ bytesOf "\")" ∧
    readString (literal ++ bytesOf "\")") = some (text, bytesOf ")")

/-- A template is turned into code, where each text that is not empty is denoted by its piece. -/
def TextsVerbatim (translate : List UInt8 → Lookup) (data : List UInt8) : Prop :=
  ∃ loaded, loadTemplate translate data = .ok loaded ∧
    ∀ (i : Nat) (text : List UInt8),
      (rawTexts (cut data).1 (cut data).2)[i]? = some text → text ≠ [] →
        ∃ code, loaded.code[2 * i + 1]? = some code ∧ Denotes text code

/-- What `luastr_escape` makes of a byte denotes the byte, unless it is a carriage return. -/
theorem readString_luastrByte {c : UInt8} (noReturn : c ≠ ascii '\r') (code : List UInt8) :
    readString (luastrByte false c ++ code) =
      (readString code).map fun found => (c :: found.1, found.2) := by
  by_cases backslash : c = ascii '\\'
  · rw [backslash]
    exact readString_escaped rfl
  by_cases quote : c = ascii '"'
  · rw [quote]
    exact readString_escaped rfl
  by_cases newline : c = ascii '\n'
  · rw [newline]
    exact readString_escaped rfl
  have itself : luastrByte false c = [c] := by
    rw [luastrByte, if_neg backslash, if_neg quote, if_neg newline, Bool.and_false,
      if_neg Bool.false_ne_true]
  have line : isNewline c = false :=
    Bool.or_eq_false_iff.mpr ⟨decide_eq_false newline, decide_eq_false noReturn⟩
  rw [itself]
  exact readString_plain quote line backslash

/-- A text without a carriage return is read back, one with a carriage return is not. -/
theorem readString_luastrEscape (text rest : List UInt8) :
    readString (luastrEscape [] text false ++ 34 :: rest) =
      if ascii '\r' ∈ text then none else some (text, rest) := by
  rw [luastrEscape, List.nil_append]
  induction text with
  | nil => exact readString_quote rest
  | cons c text ih =>
      rw [List.flatMap_cons, List.append_assoc]
      by_cases isReturn : c = ascii '\r'
      · rw [isReturn, if_pos List.mem_cons_self]
        exact readString_newline rfl
      · have same : ascii '\r' ∈ c :: text ↔ ascii '\r' ∈ text :=
          ⟨fun member => (List.mem_cons.mp member).resolve_left (Ne.symm isReturn),
            List.mem_cons_of_mem c⟩
        rw [readString_luastrByte isReturn, ih]
        simp only [same]
        split <;> rfl

/-- The code of a text denotes it exactly if there is no carriage return in it. -/
theorem denotes_textPiece_iff (some : text ≠ []) :
    Denotes text (textPiece text) ↔ ascii '\r' ∉ text := by
  have read := readString_luastrEscape text (bytesOf ")")
  rw [textPiece, if_neg some]
  constructor
  · rintro ⟨literal, same, denoted⟩ member
    have literal_eq := List.append_cancel_left (List.append_cancel_right same)
    rw [if_pos member, literal_eq] at read
    exact absurd (denoted.symm.trans read) (by simp)
  · intro clean
    rw [if_neg clean] at read
    exact ⟨_, rfl, read⟩

/-- Without markers the texts are taken as they are. -/
theorem emitted_unmarked (unmarked : Unmarked pairs) :
    emitted false false pairs last = rawTexts pairs last := by
  induction pairs with
  | nil =>
      cases last with
      | none => rfl
      | some text =>
          rw [emitted]
          split
          case isTrue empty =>
            rw [empty]
            rfl
          case isFalse some =>
            simp [rawTexts, trimEnd, trimStart, some]
  | cons pair pairs ih =>
      obtain ⟨before, after⟩ := unmarked pair List.mem_cons_self
      rw [emitted, before, after, ih fun other member => unmarked other (List.mem_cons_of_mem _ member)]
      rfl

theorem sound_of_unmarked (unmarked : Unmarked pairs) : sound pairs := by
  intro pair member lone
  have before := (unmarked pair member).1
  rw [lone] at before
  exact absurd before (by decide)

/-- The places of texts in code. -/
theorem weave_getElem? {texts tags : List (List UInt8)} (count : texts.length ≤ tags.length + 1)
    (i : Nat) : (weave texts tags)[2 * i]? = texts[i]?.map textPiece := by
  induction texts generalizing tags i with
  | nil => rfl
  | cons text texts ih =>
      cases tags with
      | nil =>
          obtain rfl : texts = [] := List.eq_nil_of_length_eq_zero (by simpa using count)
          cases i with
          | zero => rfl
          | succ i => simp [weave]
      | cons tag tags =>
          cases i with
          | zero => rfl
          | succ i =>
              have later := @ih tags (by simpa using count) i
              simpa [weave, Nat.mul_add] using later

theorem length_rawTexts_le (pairs : List (List UInt8 × List UInt8)) (last : Option (List UInt8)) :
    (rawTexts pairs last).length ≤ pairs.length + 1 := by
  have most : (last.toList.filter (· ≠ [])).length ≤ 1 :=
    Nat.le_trans (List.length_filter_le _ _) (by cases last <;> simp)
  rw [rawTexts, List.length_append, List.length_map]
  omega

/-- Where tags have no markers, every text is reproduced exactly if no text has a carriage return. -/
theorem texts_verbatim_iff (translate : List UInt8 → Lookup) (data : List UInt8)
    (unmarked : Unmarked (cut data).1) :
    TextsVerbatim translate data ↔
      ∀ text ∈ rawTexts (cut data).1 (cut data).2, ascii '\r' ∉ text := by
  obtain ⟨tags, count, run⟩ := loadTemplate_eq translate (sound_of_unmarked unmarked)
  rw [emitted_unmarked unmarked] at run
  have places := @weave_getElem? (rawTexts (cut data).1 (cut data).2) tags
    (count ▸ length_rawTexts_le _ _)
  constructor
  · rintro ⟨loaded, ended, verbatim⟩ text member
    obtain rfl := Except.ok.inj (run.symm.trans ended)
    obtain ⟨i, place⟩ := List.mem_iff_getElem?.mp member
    by_cases empty : text = []
    · rw [empty]
      exact List.not_mem_nil
    · obtain ⟨code, found, denoted⟩ := verbatim i text place empty
      rw [List.getElem?_cons_succ, places i, place] at found
      obtain rfl := Option.some.inj found
      exact (denotes_textPiece_iff empty).mp denoted
  · intro clean
    refine ⟨_, run, ?_⟩
    intro i text place some
    refine ⟨textPiece text, ?_, ?_⟩
    · rw [List.getElem?_cons_succ, places i, place]
      rfl
    · exact (denotes_textPiece_iff some).mpr (clean text (List.mem_of_getElem? place))

/-- The template `a<%x%>b`. -/
theorem texts_verbatim_plain :
    Unmarked (cut (bytesOf "a<%x%>b")).1 ∧
      (TextsVerbatim (fun _ => .unloaded) (bytesOf "a<%x%>b") ↔
        ∀ text ∈ rawTexts (cut (bytesOf "a<%x%>b")).1 (cut (bytesOf "a<%x%>b")).2,
          ascii '\r' ∉ text) := by
  have pieces : cut (bytesOf "a<%x%>b") = ([(bytesOf "a", bytesOf "x")], some (bytesOf "b")) := by
    rw [cut_pair (i := 1) (j := 1) (by decide) (by decide), cut_none (by decide)]
    rfl
  have unmarked : Unmarked (cut (bytesOf "a<%x%>b")).1 := by
    rw [pieces]
    intro pair member
    obtain rfl := List.mem_singleton.mp member
    decide
  exact ⟨unmarked, texts_verbatim_iff _ _ unmarked⟩

/-- A template of a letter and a carriage return. -/
theorem texts_not_verbatim :
    Unmarked (cut (bytesOf "a\r")).1 ∧ ¬TextsVerbatim (fun _ => .unloaded) (bytesOf "a\r") := by
  have pieces : cut (bytesOf "a\r") = ([], some (bytesOf "a\r")) := cut_none (by decide)
  refine ⟨by rw [pieces]; exact List.forall_mem_nil _, ?_⟩
  rintro ⟨loaded, ended, verbatim⟩
  have run : loadTemplate (fun _ => .unloaded) (bytesOf "a\r") =
      .ok { code := [bytesOf " ", textPiece (bytesOf "a\r")], unexpected := false } := by
    decide +kernel
  obtain rfl := Except.ok.inj (run.symm.trans ended)
  rw [pieces] at verbatim
  obtain ⟨code, found, denoted⟩ := verbatim 0 (bytesOf "a\r") (by decide) (by decide)
  obtain rfl := Option.some.inj found
  exact (denotes_textPiece_iff (by decide)).mp denoted (by decide)

end Trunk.Luci
