import Trunk.Luci.Lmo

/-! # The compiler of translations

The model of `po2lmo.c`: a file is read by `fgets` into a buffer of 4096 bytes, the strings of its
lines go into buffers of the same size, and an entry is written when a line has no string. What the
buffer for the lines that continue a string holds at first is a parameter.
-/

namespace Trunk.Luci

open CString Loop Network

/-- The compiler ends with an error, an access is outside a buffer, or a number is too large. -/
inductive Halt where
  | die
  | outside
  | overflow
  deriving DecidableEq, Repr

/-- `lmo_entry_t`. -/
structure LmoEntry where
  keyId : UInt32
  valId : UInt32
  offset : Nat
  length : Nat
  deriving DecidableEq, Repr

/-- The values that `state` has between lines. -/
inductive Stage where
  | idle
  | inKey
  | afterKey
  | inVal
  deriving DecidableEq, Repr

/-- The variables of `main`. -/
structure Po where
  stage : Stage
  key : List UInt8
  val : List UInt8
  tmp : List UInt8
  offset : Nat
  array : List LmoEntry
  out : List UInt8
  deriving DecidableEq, Repr

/-- `fgets`, with a buffer of some size. -/
def fgets (size : Nat) (rest : List UInt8) : Option (List UInt8 × List UInt8) :=
  if rest = [] then none
  else
    let count := min ((rest.takeWhile (· ≠ ascii '\n')).length + 1) (size - 1)
    some (rest.take count, rest.drop count)

/-- The loop of `extract_string`: what `dest` holds, and `off`. -/
def extractFrom (dest : List UInt8) (off : Option Nat) (esc : Bool) (pos : Nat) :
    List UInt8 → List UInt8 × Option Nat
  | [] => (dest, off)
  | c :: rest =>
      match off with
      | none =>
          if c = ascii '"' then extractFrom dest (some (pos + 1)) esc (pos + 1) rest
          else extractFrom dest none esc (pos + 1) rest
      | some start =>
          if esc then
            let start := if c = ascii '"' ∨ c = ascii '\\' then start + 1 else start
            extractFrom (dest.set (pos - start) c) (some start) false (pos + 1) rest
          else if c = ascii '\\' then
            extractFrom (dest.set (pos - start) c) (some start) true (pos + 1) rest
          else if c ≠ ascii '"' then
            extractFrom (dest.set (pos - start) c) (some start) false (pos + 1) rest
          else (dest.set (pos - start) 0, some start)

/-- The string that a buffer holds. -/
def held (buffer : List UInt8) : Except Halt (List UInt8) :=
  if 0 ∈ buffer then .ok (buffer.takeWhile (· ≠ 0)) else .error .outside

/-- `extract_string`: what `dest` holds, and the length that is returned. -/
def extractString (src dest : List UInt8) (len : Nat) :
    Except Halt (List UInt8 × Option Nat) :=
  let (dest, off) := extractFrom dest none false 0 ((src.takeWhile (· ≠ 0)).take len)
  match off with
  | none => .ok (dest, none)
  | some _ => do return (dest, some (← held dest).length)

/-- `strcat`. -/
def strcat (dest src : List UInt8) : Except Halt (List UInt8) := do
  let text := (← held dest) ++ (← held src)
  if text.length < dest.length then return text ++ 0 :: dest.drop (text.length + 1)
  else .error .outside

/-- `memset` of a buffer. -/
def zeroed : List UInt8 := List.replicate 4096 0

/-- An entry is written, if it has a key and a text with another hash. -/
def writeEntry (signed : Bool) (po : Po) : Except Halt Po := do
  let key ← held po.key
  let val ← held po.val
  let keyId := sfhHash signed key
  let valId := sfhHash signed val
  if 0 < key.length ∧ 0 < val.length ∧ keyId ≠ valId then
    let length := val.length + (4 - val.length % 4) % 4
    if 2 ^ 31 ≤ po.offset + length then .error .overflow
    else
      return { po with
        array := po.array ++
          [{ keyId := keyId, valId := valId, offset := po.offset, length := val.length }]
        out := po.out ++ po.val.take length
        offset := po.offset + length }
  else return po

/-- `state == 4`. -/
def endEntry (signed : Bool) (po : Po) : Except Halt Po := do
  let po ← writeEntry signed po
  return { po with stage := .idle, key := zeroed, val := zeroed }

/-- A line in front of an entry. -/
def idleLine (po : Po) (line : List UInt8) : Except Halt Po :=
  if (bytesOf "msgid \"").isPrefixOf line then do
    let (key, length) ← extractString line po.key 4096
    match length with
    | none => .error .die
    | some 0 => return { po with key := key, stage := .inKey }
    | some _ => return { po with key := key, stage := .afterKey }
  else .ok po

/-- A line with the start of a text. -/
def valLine (signed : Bool) (po : Po) (line : List UInt8) : Except Halt Po := do
  let (val, length) ← extractString line po.val 4096
  match length with
  | none => endEntry signed { po with val := val }
  | some _ => return { po with val := val, stage := .inVal }

/-- A line that continues a key. -/
def keyLine (po : Po) (line : List UInt8) : Except Halt Po := do
  let (tmp, length) ← extractString line po.tmp 4096
  match length with
  | none => return { po with tmp := tmp, stage := .afterKey }
  | some _ => return { po with tmp := tmp, key := ← strcat po.key tmp }

/-- A line that continues a text. -/
def moreLine (signed : Bool) (po : Po) (line : List UInt8) : Except Halt Po := do
  let (tmp, length) ← extractString line po.tmp 4096
  match length with
  | none => endEntry signed { po with tmp := tmp }
  | some _ => return { po with tmp := tmp, val := ← strcat po.val tmp }

/-- The body of the loop over the lines. -/
def poLine (signed : Bool) (po : Po) (line : List UInt8) : Except Halt Po :=
  match po.stage with
  | .idle => idleLine po line
  | .inKey => if (bytesOf "msgstr \"").isPrefixOf line then valLine signed po line else keyLine po line
  | .afterKey => valLine signed po line
  | .inVal => moreLine signed po line

/-- The variables of `main`, and what is left of the file. -/
structure PoScan where
  po : Po
  rest : List UInt8
  deriving DecidableEq, Repr

/-- A round of the loop over the lines. At the end of the file there is one more for an entry that
is open. -/
def poRound (signed : Bool) (scan : PoScan) : Except Halt (Round PoScan Po) :=
  match fgets 4096 scan.rest with
  | some (line, rest) => do return .again { po := ← poLine signed scan.po line, rest := rest }
  | none =>
      if scan.po.stage = .afterKey ∨ scan.po.stage = .inVal then do
        return .again { scan with po := ← poLine signed scan.po [] }
      else .ok (.done scan.po)

/-- The rounds that are left at most. -/
def PoScan.size (scan : PoScan) : Nat :=
  2 * scan.rest.length + (if scan.po.stage = .afterKey ∨ scan.po.stage = .inVal then 1 else 0) + 1

/-- The variables of `main` at first. -/
def poStart (tmp : List UInt8) : Po where
  stage := .idle
  key := zeroed
  val := zeroed
  tmp := tmp
  offset := 0
  array := []
  out := []

/-- The loop over the lines of a file. -/
def poLines (signed : Bool) (po : Po) (rest : List UInt8) : Except Halt Po :=
  loop (poRound signed) PoScan.size .outside { po := po, rest := rest }

/-- `print_uint32`. -/
def printUint32 (x : Nat) : List UInt8 := bytes 4 x

/-- An entry of the index. -/
def printEntry (e : LmoEntry) : List UInt8 :=
  printUint32 e.keyId.toNat ++ printUint32 e.valId.toNat ++ printUint32 e.offset ++
    printUint32 e.length

/-- `cmp_index`. -/
def cmpIndex (a b : LmoEntry) : Bool := a.keyId ≤ b.keyId

/-- `print_index`. -/
def printIndex (array : List LmoEntry) : List UInt8 := (array.mergeSort cmpIndex).flatMap printEntry

/-- `main`: the file that is written. It is removed if it has no texts. -/
def po2lmo (signed : Bool) (tmp file : List UInt8) : Except Halt (Option (List UInt8)) := do
  let po ← poLines signed (poStart tmp) file
  if 0 < po.offset then
    return some (po.out ++ printIndex po.array ++ printUint32 po.offset)
  else return none

end Trunk.Luci
