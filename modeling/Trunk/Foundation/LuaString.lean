import Mathlib.Logic.Basic

/-! # The strings of Lua 5.1

The reader of a quoted string, one byte after the other: a backslash starts an escape, a line that
ends before the string does is an error (`Trunk.LuaString.readString`).
-/

namespace Trunk.LuaString

/-- What the reader is in the middle of. -/
inductive Pending where
  | plain
  | escaped
  | number (count value : Nat)
  | newline (first : UInt8)
  deriving DecidableEq, Repr

/-- What a byte does: it ends the string, it is an error, or the reader goes on. -/
inductive Step where
  | close (saved : List UInt8)
  | bad
  | next (saved : List UInt8) (pending : Pending)
  deriving DecidableEq, Repr

/-- A line feed or a carriage return. -/
def isNewline (c : UInt8) : Bool := c = 10 || c = 13

def isDigit (c : UInt8) : Bool := 48 ≤ c && c ≤ 57

/-- A byte outside an escape, where some bytes are saved already. -/
def plainByte (saved : List UInt8) (c : UInt8) : Step :=
  if c = 34 then .close saved
  else if isNewline c then .bad
  else if c = 92 then .next saved .escaped
  else .next (saved ++ [c]) .plain

/-- A byte behind a backslash. -/
def escapedByte (c : UInt8) : Step :=
  match c with
  | 97 => .next [7] .plain
  | 98 => .next [8] .plain
  | 102 => .next [12] .plain
  | 110 => .next [10] .plain
  | 114 => .next [13] .plain
  | 116 => .next [9] .plain
  | 118 => .next [11] .plain
  | _ =>
      if isNewline c then .next [10] (.newline c)
      else if isDigit c then .next [] (.number 1 (c.toNat - 48))
      else .next [c] .plain

/-- The reader takes a byte. -/
def step : Pending → UInt8 → Step
  | .plain, c => plainByte [] c
  | .escaped, c => escapedByte c
  | .number count value, c =>
      if count < 3 ∧ isDigit c then .next [] (.number (count + 1) (10 * value + (c.toNat - 48)))
      else if 255 < value then .bad
      else plainByte [UInt8.ofNat value] c
  | .newline first, c => if isNewline c ∧ c ≠ first then .next [] .plain else plainByte [] c

/-- The rest of a string, and what follows it. -/
def readRest (pending : Pending) : List UInt8 → Option (List UInt8 × List UInt8)
  | [] => none
  | c :: rest =>
      match step pending c with
      | .close saved => some (saved, rest)
      | .bad => none
      | .next saved pending =>
          (readRest pending rest).map fun found => (saved ++ found.1, found.2)

/-- A string behind its opening quote, and what follows its closing one. -/
def readString (code : List UInt8) : Option (List UInt8 × List UInt8) := readRest .plain code

variable {code : List UInt8} {c : UInt8}

theorem readString_quote (rest : List UInt8) : readString (34 :: rest) = some ([], rest) := rfl

/-- A byte that stands for itself. -/
theorem readString_plain (noQuote : c ≠ 34) (noNewline : isNewline c = false) (noEscape : c ≠ 92) :
    readString (c :: code) = (readString code).map fun found => (c :: found.1, found.2) := by
  have taken : step .plain c = .next [c] .plain := by
    rw [step, plainByte, if_neg noQuote, noNewline, if_neg (by decide), if_neg noEscape]
    rfl
  rw [readString, readRest, taken]
  rfl

/-- A byte behind a backslash that stands for one byte. -/
theorem readString_escaped {saved : UInt8} (taken : escapedByte c = .next [saved] .plain) :
    readString (92 :: c :: code) =
      (readString code).map fun found => (saved :: found.1, found.2) := by
  have start : step .plain 92 = .next [] .escaped := rfl
  have escaped : step .escaped c = .next [saved] .plain := taken
  rw [readString, readRest, start]
  dsimp only
  rw [readRest, escaped, Option.map_map]
  rfl

/-- A line must not end inside a string. -/
theorem readString_newline (newline : isNewline c = true) : readString (c :: code) = none := by
  have noQuote : c ≠ 34 := by
    rintro rfl
    exact absurd newline (by decide)
  have taken : step .plain c = .bad := by
    rw [step, plainByte, if_neg noQuote, if_pos newline]
  rw [readString, readRest, taken]

end Trunk.LuaString
