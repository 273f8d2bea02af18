import Trunk.Foundation.Loop
import Trunk.Utils.CString

/-! # Texts of templates

The model of `template_utils.c`: the validation of UTF-8, the escaping of XML text and of Lua
strings, and the removal of tags. A text is the list of its bytes, and a read outside it is a fault.
Memory is always allocated, so a buffer is the list of the bytes that it holds.
-/

namespace Trunk.Luci

open CString Loop

/-- A byte outside a text is read. -/
inductive Fault where
  | outside
  deriving DecidableEq, Repr

/-- A byte of a text is read. -/
def fetch (s : List UInt8) (index : Nat) : Except Fault UInt8 :=
  match s[index]? with
  | some byte => .ok byte
  | none => .error .outside

/-- `memcpy` from a text. -/
def fetchMany (s : List UInt8) (index : Nat) : Nat → Except Fault (List UInt8)
  | 0 => .ok []
  | count + 1 => do
      let byte ← fetch s index
      let rest ← fetchMany s (index + 1) count
      return byte :: rest

/-- Tests of bytes behind a place, up to the first one that fails. -/
def every (s : List UInt8) (ptr : Nat) : List (Nat × (UInt8 → Bool)) → Except Fault Bool
  | [] => .ok true
  | (index, test) :: rest => do
      if test (← fetch s (ptr + index)) then every s ptr rest else return false

section Utf8

/-- `mb_num_chars`. -/
def mbNumChars (c : UInt8) : Nat :=
  if c &&& 0xE0 = 0xC0 then 2
  else if c &&& 0xF0 = 0xE0 then 3
  else if c &&& 0xF8 = 0xF0 then 4
  else if c &&& 0xFC = 0xF8 then 5
  else if c &&& 0xFE = 0xFC then 6
  else 1

/-- `mb_is_cont`. -/
def mbIsCont (c : UInt8) : Bool := 0x80 ≤ c && c ≤ 0xBF

/-- `mb_is_shortest`. The cases of five and six bytes are not reached. -/
def mbIsShortest (s : List UInt8) (ptr n : Nat) : Except Fault Bool :=
  let isTail (index : Nat) : Nat × (UInt8 → Bool) := (index, (· >>> 6 = 0x02))
  match n with
  | 2 => not <$> every s ptr [(0, (· >>> 1 = 0x60)), isTail 1]
  | 3 => not <$> every s ptr [(0, (· = 0xE0)), (1, (· >>> 5 = 0x04)), isTail 2]
  | 4 => not <$> every s ptr [(0, (· = 0xF0)), (1, (· >>> 4 = 0x08)), isTail 2, isTail 3]
  | 5 => not <$> every s ptr [(0, (· = 0xF8)), (1, (· >>> 3 = 0x10)), isTail 2, isTail 3, isTail 4]
  | 6 => not <$> every s ptr
      [(0, (· = 0xF8)), (1, (· >>> 2 = 0x20)), isTail 2, isTail 3, isTail 4, isTail 5]
  | _ => .ok true

/-- `mb_is_surrogate`. -/
def mbIsSurrogate (s : List UInt8) (ptr n : Nat) : Except Fault Bool :=
  if n = 3 then every s ptr [(0, (· = 0xED)), (1, (0xA0 ≤ ·)), (1, (· ≤ 0xBF))] else .ok false

/-- `mb_is_illegal`. -/
def mbIsIllegal (s : List UInt8) (ptr n : Nat) : Except Fault Bool :=
  if n = 3 then every s ptr [(0, (· = 0xEF)), (1, (· = 0xBF)), (2, (0xBE ≤ ·)), (2, (· ≤ 0xBF))]
  else .ok false

/-- The loop that counts the continuation bytes behind a place, up to a number of them. -/
def countCont (s : List UInt8) (ptr l : Nat) : Nat → Nat → Except Fault Nat
  | 0, v => .ok v
  | more + 1, v =>
      if v < l then do
        if mbIsCont (← fetch s (ptr + v)) then countCont s ptr l more (v + 1) else return v
      else .ok v

/-- The number of bytes that `_validate_utf8` takes, where it leaves the pointer, and the buffer. -/
structure Validated where
  count : Nat
  ptr : Nat
  buf : List UInt8
  deriving DecidableEq, Repr

/-- The test of a sequence with as many continuation bytes as its first byte announces. -/
def isLegal (s : List UInt8) (ptr n : Nat) : Except Fault Bool := do
  if ← mbIsShortest s ptr n then
    if ← mbIsSurrogate s ptr n then return false
    else return !(← mbIsIllegal s ptr n)
  else return false

/-- What is written for a multi byte sequence: its bytes, or a question mark. -/
def sequenceBytes (s : List UInt8) (ptr n v : Nat) : Except Fault (List UInt8) :=
  if n = 6 ∨ n = 5 then .ok [ascii '?']
  else if v = n then do
    if ← isLegal s ptr n then fetchMany s ptr n else return [ascii '?']
  else .ok [ascii '?']

/-- `_validate_utf8`. -/
def validateUtf8 (s : List UInt8) (ptr l : Nat) (buf : List UInt8) : Except Fault Validated := do
  let c ← fetch s ptr
  if 0x01 ≤ c ∧ c ≤ 0x7F then return { count := 1, ptr := ptr + 1, buf := buf ++ [c] }
  else
    let n := mbNumChars c
    if 1 < n then
      let v ← countCont s ptr l n 1
      let written ← sequenceBytes s ptr n v
      return { count := v, ptr := ptr + v, buf := buf ++ written }
    else return { count := 1, ptr := ptr + 1, buf := buf ++ [ascii '?'] }

/-- The variables of the loops over a text. -/
structure Scan where
  ptr : Nat
  o : Nat
  buf : List UInt8
  deriving DecidableEq, Repr

/-- The number of rounds that are left is at most the number of bytes, and the last test. -/
def Scan.size (s : List UInt8) (scan : Scan) : Nat := s.length - scan.o + 1

/-- Before the first round. -/
def Scan.start : Scan := { ptr := 0, o := 0, buf := [] }

/-- The branch of `utf8` and of `pcdata` that calls `_validate_utf8`. -/
def validateRound (s : List UInt8) (scan : Scan) : Except Fault (Round Scan (List UInt8)) := do
  let v ← validateUtf8 s scan.ptr (s.length - scan.o) scan.buf
  if v.count = 0 then return .done v.buf
  else return .again { ptr := v.ptr, o := scan.o + (v.count - 1) + 1, buf := v.buf }

/-- A round of `utf8`. -/
def utf8Round (s : List UInt8) (scan : Scan) : Except Fault (Round Scan (List UInt8)) :=
  if scan.o < s.length then do
    let c ← fetch s scan.ptr
    if 0x01 ≤ c ∧ c ≤ 0x7F then
      return .again { ptr := scan.ptr + 1, o := scan.o + 1, buf := scan.buf ++ [c] }
    else validateRound s scan
  else .ok (.done scan.buf)

/-- `utf8`. -/
def utf8 (s : List UInt8) : Except Fault (List UInt8) :=
  loop (utf8Round s) (Scan.size s) .outside .start

end Utf8

section Xml

/-- `"&#%i;"`. -/
def escape (c : UInt8) : List UInt8 :=
  "&#".toList.map ascii ++ (toString c.toNat).toList.map ascii ++ [ascii ';']

/-- The bytes that no XML text has. -/
def isInvalidXml (c : UInt8) : Bool :=
  c ≤ 0x08 || (0x0B ≤ c && c ≤ 0x0C) || (0x0E ≤ c && c ≤ 0x1F) || c = 0x7F

/-- The bytes that are escaped. -/
def isMarkup (c : UInt8) : Bool := c = 0x26 || c = 0x27 || c = 0x22 || c = 0x3C || c = 0x3E

/-- A round of `pcdata`. -/
def pcdataRound (s : List UInt8) (scan : Scan) : Except Fault (Round Scan (List UInt8)) :=
  if scan.o < s.length then do
    let c ← fetch s scan.ptr
    if isInvalidXml c then return .again { scan with ptr := scan.ptr + 1, o := scan.o + 1 }
    else if isMarkup c then
      return .again { ptr := scan.ptr + 1, o := scan.o + 1, buf := scan.buf ++ escape c }
    else if c ≤ 0x7F then
      return .again { ptr := scan.ptr + 1, o := scan.o + 1, buf := scan.buf ++ [c] }
    else validateRound s scan
  else .ok (.done scan.buf)

/-- `pcdata`. -/
def pcdata (s : List UInt8) : Except Fault (List UInt8) :=
  loop (pcdataRound s) (Scan.size s) .outside .start

/-- `isalpha`. -/
def isAlpha (c : UInt8) : Bool :=
  (ascii 'A' ≤ c && c ≤ ascii 'Z') || (ascii 'a' ≤ c && c ≤ ascii 'z')

/-- The loop that looks for the end of a tag. -/
def findTag (s : List UInt8) : Nat → Nat → Except Fault (Option Nat)
  | 0, _ => .ok none
  | more + 1, tag => do
      if (← fetch s tag) = ascii '>' then return some tag else findTag s more (tag + 1)

/-- The variables of `striptags`. -/
structure Strip where
  ptr : Nat
  prev : UInt8
  buf : List UInt8
  deriving DecidableEq, Repr

/-- A blank that does not follow another one is put into the buffer. -/
def Strip.blank (strip : Strip) (c : UInt8) : List UInt8 :=
  if isSpace strip.prev then strip.buf else strip.buf ++ [c]

/-- A tag begins at a place. -/
def opensTag (s : List UInt8) (ptr : Nat) (c : UInt8) : Except Fault Bool :=
  if c = ascii '<' ∧ ptr + 2 < s.length then do
    let next ← fetch s (ptr + 1)
    return next = ascii '/' || isAlpha next
  else .ok false

/-- A round of `striptags`. -/
def striptagsRound (s : List UInt8) (strip : Strip) : Except Fault (Round Strip (List UInt8)) :=
  if strip.ptr < s.length then do
    let c ← fetch s strip.ptr
    if ← opensTag s strip.ptr c then
      match ← findTag s (s.length - strip.ptr) strip.ptr with
      | some tag =>
          return .again { ptr := tag + 1, prev := ascii ' ', buf := strip.blank (ascii ' ') }
      | none => return .again { strip with ptr := strip.ptr + 1 }
    else if isSpace c then
      return .again { ptr := strip.ptr + 1, prev := c, buf := strip.blank c }
    else
      return .again
        { ptr := strip.ptr + 1, prev := c,
          buf := strip.buf ++ if isMarkup c then escape c else [c] }
  else .ok (.done strip.buf)

/-- `striptags`. -/
def striptags (s : List UInt8) : Except Fault (List UInt8) :=
  loop (striptagsRound s) (fun strip => s.length - strip.ptr + 1) .outside
    { ptr := 0, prev := ascii ' ', buf := [] }

end Xml

/-- What `luastr_escape` makes of a byte. -/
def luastrByte (escapeXml : Bool) (c : UInt8) : List UInt8 :=
  if c = ascii '\\' then [ascii '\\', ascii '\\']
  else if c = ascii '"' then
    if escapeXml then "&#34;".toList.map ascii else [ascii '\\', ascii '"']
  else if c = ascii '\n' then [ascii '\\', ascii 'n']
  else if isMarkup c && escapeXml then escape c
  else [c]

/-- `luastr_escape`. -/
def luastrEscape (out s : List UInt8) (escapeXml : Bool) : List UInt8 :=
  out ++ s.flatMap (luastrByte escapeXml)

end Trunk.Luci
