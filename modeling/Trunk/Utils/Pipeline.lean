import Trunk.Utils.CString

/-! # Commands that filter text

The commands that programs are piped through before `popen` reads what is left: `grep` of a
literal, `awk '{print $n}'`, `cut -f2` and `sed -n 'np'`. A text is the list of its lines,
without their newlines. A command that treats every line by itself is a function on lines.
-/

namespace Trunk.Pipeline

open CString

/-- A line without its newline. -/
abbrev Line := List UInt8

/-- `grep`, for a pattern that is a literal: whether a line holds it. -/
def grep (pattern : Line) : Line → Bool
  | [] => pattern.isEmpty
  | byte :: rest => pattern.isPrefixOf (byte :: rest) || grep pattern rest

/-- The characters that part the fields of `awk`, inside a line. -/
def isBlank (byte : UInt8) : Bool := byte = ascii ' ' || byte = ascii '\t'

/-- `awk '{print $number}'`. A field that is not there is empty. -/
def awk : Nat → Line → Line
  | 0, line => line
  | 1, line => (line.dropWhile isBlank).takeWhile fun byte => !isBlank byte
  | number + 2, line =>
      awk (number + 1) ((line.dropWhile isBlank).dropWhile fun byte => !isBlank byte)

/-- `cut -f2` with a delimiter: a line without the delimiter stays whole. -/
def cut (delimiter : UInt8) (line : Line) : Line :=
  if delimiter ∈ line then
    ((line.dropWhile fun byte => byte ≠ delimiter).drop 1).takeWhile fun byte => byte ≠ delimiter
  else line

/-- `sed -n 'np'`, where lines are counted from one. -/
def sed (number : Nat) (lines : List Line) : Option Line :=
  match number with
  | 0 => none
  | number + 1 => lines[number]?

/-- The size of the buffers that `popen` is read into, `SPRINT_MAX_LEN`. -/
def sprintMaxLen : Nat := 256

/-- What is in the cleared buffer after `fgets` of a first line and the cut of its last byte,
which is the newline if the line fits. Without a line the buffer stays empty. -/
def fgetsLine (line : Option Line) : Line := (line.getD []).take (sprintMaxLen - 2)

@[simp] theorem fgetsLine_none : fgetsLine none = [] := rfl

/-- A line holds its start. -/
theorem grep_append (pattern rest : Line) : grep pattern (pattern ++ rest) = true := by
  have start : pattern.isPrefixOf (pattern ++ rest) = true :=
    List.isPrefixOf_iff_prefix.mpr (List.prefix_append pattern rest)
  cases whole : pattern ++ rest with
  | nil =>
      obtain ⟨rfl, -⟩ := List.append_eq_nil_iff.mp whole
      rfl
  | cons byte line => rw [grep, ← whole, start, Bool.true_or]

/-- The second field of two words with blanks between and behind. -/
theorem awk_second {first second rest : Line} {blank : UInt8} (space : isBlank blank = true)
    (firstPlain : ∀ byte ∈ first, isBlank byte = false)
    (secondPlain : ∀ byte ∈ second, isBlank byte = false) (firstHead : first ≠ [])
    (secondHead : second ≠ []) (stop : ∀ byte ∈ rest.head?, isBlank byte = true) :
    awk 2 (first ++ blank :: (second ++ rest)) = second := by
  have skip : ∀ {word tail : Line}, word ≠ [] → (∀ byte ∈ word, isBlank byte = false) →
      (word ++ tail).dropWhile isBlank = word ++ tail := by
    intro word tail nonempty plain
    obtain ⟨byte, word, rfl⟩ := List.exists_cons_of_ne_nil nonempty
    rw [List.cons_append, List.dropWhile_cons_of_neg]
    rw [plain byte (List.mem_cons_self ..)]
    nofun
  have kept : ∀ {word : Line}, (∀ byte ∈ word, isBlank byte = false) →
      ∀ byte ∈ word, (!isBlank byte) = true := by
    intro word plain byte member
    rw [plain byte member]
    rfl
  rw [awk, awk, skip firstHead firstPlain, List.dropWhile_append_of_pos (kept firstPlain),
    List.dropWhile_cons_of_neg (by simp [space]), List.dropWhile_cons_of_pos space,
    skip secondHead secondPlain, List.takeWhile_append_of_pos (kept secondPlain)]
  cases rest with
  | nil => simp
  | cons byte rest =>
      rw [List.takeWhile_cons_of_neg (by simp [stop byte rfl]), List.append_nil]

end Trunk.Pipeline
