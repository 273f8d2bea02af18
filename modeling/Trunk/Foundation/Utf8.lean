import Mathlib.Data.List.Basic

/-! # Well-formed UTF-8

A text is well formed if it is the encoding of a list of characters, which are the Unicode scalar
values. The encodings of single characters are the sequences of the table of RFC 3629
(`Trunk.Utf8.isSequence_iff`): no overlong form, no surrogate, nothing above U+10FFFF.
-/

namespace Trunk.Utf8

variable {text front back : List UInt8} {first second third fourth byte : UInt8}

/-- A text is the encoding of a list of characters. -/
def WellFormed (text : List UInt8) : Prop :=
  ∃ characters : List Char, text = characters.flatMap String.utf8EncodeChar

/-- A continuation byte. -/
def Tail (byte : UInt8) : Prop := 0x80 ≤ byte.toNat ∧ byte.toNat ≤ 0xBF

/-- The sequences of the table of RFC 3629. -/
def IsSequence : List UInt8 → Prop
  | [a] => a.toNat ≤ 0x7F
  | [a, b] => 0xC2 ≤ a.toNat ∧ a.toNat ≤ 0xDF ∧ Tail b
  | [a, b, c] => 0xE0 ≤ a.toNat ∧ a.toNat ≤ 0xEF ∧ Tail b ∧ Tail c ∧
      (a.toNat = 0xE0 → 0xA0 ≤ b.toNat) ∧ (a.toNat = 0xED → b.toNat ≤ 0x9F)
  | [a, b, c, d] => 0xF0 ≤ a.toNat ∧ a.toNat ≤ 0xF4 ∧ Tail b ∧ Tail c ∧ Tail d ∧
      (a.toNat = 0xF0 → 0x90 ≤ b.toNat) ∧ (a.toNat = 0xF4 → b.toNat ≤ 0x8F)
  | _ => False

theorem wellFormed_nil : WellFormed [] := ⟨[], rfl⟩

theorem WellFormed.append (first : WellFormed front) (second : WellFormed back) :
    WellFormed (front ++ back) := by
  obtain ⟨characters, rfl⟩ := first
  obtain ⟨others, rfl⟩ := second
  exact ⟨characters ++ others, List.flatMap_append.symm⟩

theorem toNat_ofNat_lt {value : Nat} (small : value < 256) : (UInt8.ofNat value).toNat = value := by
  rw [UInt8.toNat_ofNat', Nat.mod_eq_of_lt small]

/-- The encoding of a character is in the table. -/
theorem isSequence_encode (character : Char) : IsSequence (String.utf8EncodeChar character) := by
  have valid : character.val.toNat < 0xD800 ∨ 0xDFFF < character.val.toNat ∧
      character.val.toNat < 0x110000 := character.valid
  unfold String.utf8EncodeChar
  dsimp only
  generalize character.val.toNat = value at valid
  split
  · rw [IsSequence, toNat_ofNat_lt (by omega)]
    assumption
  · split
    · rw [IsSequence, Tail, toNat_ofNat_lt (by omega), toNat_ofNat_lt (by omega)]
      omega
    · split
      · rw [IsSequence, Tail, Tail, toNat_ofNat_lt (by omega), toNat_ofNat_lt (by omega),
          toNat_ofNat_lt (by omega)]
        omega
      · rw [IsSequence, Tail, Tail, Tail, toNat_ofNat_lt (by omega), toNat_ofNat_lt (by omega),
          toNat_ofNat_lt (by omega), toNat_ofNat_lt (by omega)]
        omega

theorem ofNat_eq {value : Nat} (same : value = byte.toNat) : byte = UInt8.ofNat value := by
  rw [same, UInt8.ofNat_toNat]

theorem toNat_ofNatAux {value : Nat} (valid : value.isValidChar) :
    (Char.ofNatAux value valid).val.toNat = value := rfl

/-- Every sequence of the table encodes a character. -/
theorem exists_encode (sequence : IsSequence text) :
    ∃ character, text = String.utf8EncodeChar character := by
  unfold IsSequence Tail at sequence
  match text, sequence with
  | [a], sequence =>
      have valid : a.toNat.isValidChar := .inl (by omega)
      refine ⟨.ofNatAux a.toNat valid, ?_⟩
      unfold String.utf8EncodeChar
      rw [toNat_ofNatAux, if_pos sequence, UInt8.ofNat_toNat]
  | [a, b], sequence =>
      have bound := a.toNat_lt
      have valid : ((a.toNat - 0xC0) * 64 + (b.toNat - 0x80)).isValidChar := .inl (by omega)
      refine ⟨.ofNatAux _ valid, ?_⟩
      unfold String.utf8EncodeChar
      rw [toNat_ofNatAux]
      dsimp only
      rw [if_neg (by omega), if_pos (by omega)]
      exact List.cons_eq_cons.mpr ⟨ofNat_eq (by omega),
        List.cons_eq_cons.mpr ⟨ofNat_eq (by omega), rfl⟩⟩
  | [a, b, c], sequence =>
      have valid : ((a.toNat - 0xE0) * 4096 + (b.toNat - 0x80) * 64 + (c.toNat - 0x80)).isValidChar := by
        unfold Nat.isValidChar
        omega
      refine ⟨.ofNatAux _ valid, ?_⟩
      unfold String.utf8EncodeChar
      rw [toNat_ofNatAux]
      dsimp only
      rw [if_neg (by omega), if_neg (by omega), if_pos (by omega)]
      exact List.cons_eq_cons.mpr ⟨ofNat_eq (by omega), List.cons_eq_cons.mpr ⟨ofNat_eq (by omega),
        List.cons_eq_cons.mpr ⟨ofNat_eq (by omega), rfl⟩⟩⟩
  | [a, b, c, d], sequence =>
      have valid : ((a.toNat - 0xF0) * 262144 + (b.toNat - 0x80) * 4096 + (c.toNat - 0x80) * 64 +
          (d.toNat - 0x80)).isValidChar := by
        unfold Nat.isValidChar
        omega
      refine ⟨.ofNatAux _ valid, ?_⟩
      unfold String.utf8EncodeChar
      rw [toNat_ofNatAux]
      dsimp only
      rw [if_neg (by omega), if_neg (by omega), if_neg (by omega)]
      exact List.cons_eq_cons.mpr ⟨ofNat_eq (by omega), List.cons_eq_cons.mpr ⟨ofNat_eq (by omega),
        List.cons_eq_cons.mpr ⟨ofNat_eq (by omega),
          List.cons_eq_cons.mpr ⟨ofNat_eq (by omega), rfl⟩⟩⟩⟩

/-- The table has exactly the encodings of characters. -/
theorem isSequence_iff : IsSequence text ↔ ∃ character, text = String.utf8EncodeChar character := by
  constructor
  · exact exists_encode
  · rintro ⟨character, rfl⟩
    exact isSequence_encode character

theorem wellFormed_of_isSequence (sequence : IsSequence text) : WellFormed text := by
  obtain ⟨character, rfl⟩ := exists_encode sequence
  exact ⟨[character], (List.flatMap_singleton ..).symm⟩

/-- All bytes of a sequence but the first are continuation bytes. -/
theorem IsSequence.tail (sequence : IsSequence (first :: back)) (member : byte ∈ back) :
    Tail byte := by
  match back, sequence with
  | [], _ => exact absurd member List.not_mem_nil
  | [b], ⟨_, _, tail⟩ =>
      rw [List.mem_singleton.mp member]
      exact tail
  | [b, c], ⟨_, _, tail, tail', _⟩ =>
      simp only [List.mem_cons, List.not_mem_nil, or_false] at member
      rcases member with rfl | rfl <;> assumption
  | [b, c, d], ⟨_, _, tail, tail', tail'', _⟩ =>
      simp only [List.mem_cons, List.not_mem_nil, or_false] at member
      rcases member with rfl | rfl | rfl <;> assumption

/-- The byte 0xF4 and the bytes above it begin a sequence or do not occur. -/
theorem IsSequence.high (sequence : IsSequence (front ++ first :: back))
    (above : 0xF4 ≤ first.toNat) :
    first.toNat = 0xF4 ∧ ∃ second rest, back = second :: rest ∧ second.toNat ≤ 0x8F := by
  cases front with
  | cons byte front =>
      have tail := sequence.tail (List.mem_append_right front (List.mem_cons_self ..))
      unfold Tail at tail
      omega
  | nil =>
      match back, sequence with
      | [], small =>
          simp only [List.nil_append, IsSequence] at small
          omega
      | [b], ⟨_, small, _⟩ => omega
      | [b, c], ⟨_, small, _⟩ => omega
      | [b, c, d], ⟨_, small, _, _, _, _, limit⟩ =>
          have equal : first.toNat = 0xF4 := by omega
          exact ⟨equal, b, [c, d], rfl, limit equal⟩

/-- In a well-formed text the byte 0xF4 is followed by one that keeps the character below
U+110000, and no byte above it occurs. -/
theorem WellFormed.high (good : WellFormed text) (split : text = front ++ first :: second :: back)
    (above : 0xF4 ≤ first.toNat) : first.toNat = 0xF4 ∧ second.toNat ≤ 0x8F := by
  obtain ⟨characters, rfl⟩ := good
  induction characters generalizing front with
  | nil => cases front <;> cases split
  | cons character characters ih =>
      have sequence := isSequence_encode character
      rw [List.flatMap_cons] at split
      rcases List.append_eq_append_iff.mp split with ⟨more, -, later⟩ | ⟨more, whole, later⟩
      · exact ih later
      · cases more with
        | nil => exact @ih [] later.symm
        | cons byte more =>
            obtain ⟨rfl, rest⟩ := List.cons_eq_cons.mp later
            rw [whole] at sequence
            obtain ⟨equal, next, behind, rfl, small⟩ := sequence.high above
            obtain ⟨rfl, -⟩ := List.cons_eq_cons.mp rest
            exact ⟨equal, small⟩

end Trunk.Utf8
