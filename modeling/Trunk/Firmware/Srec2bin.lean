import Trunk.Foundation.Network
import Trunk.Utils.CString

/-! # S-records to binary records

The model of `srec2bin`: the lines of the S-record file go through a buffer of 256 bytes, the bytes
of S3 lines and the start address of S7 lines go into records that are merged while the addresses
follow each other, and the length of a record is written back when it ends. The first line that is
refused ends the reading. Files are opened, read and written without errors.
-/

namespace Trunk.Firmware.Srec2bin

open CString Network

/-- The globals of the program that the output depends on, and the output file. -/
structure Conv where
  addressCurrent : Nat
  recStart : Bool
  recLength : Nat
  checkSum : Nat
  fOut : List UInt8
  deriving DecidableEq, Repr

/-- The bytes of `binOut32`. -/
def out32 (data : Nat) : List UInt8 := ByteOrder.little.memory 4 data

/-- `binOut32`. -/
def binOut32 (conv : Conv) (data : Nat) : Conv := { conv with fOut := conv.fOut ++ out32 data }

/-- `binOut8`. -/
def binOut8 (conv : Conv) (data : UInt8) : Conv :=
  { conv with fOut := conv.fOut ++ [data], recLength := (conv.recLength + 1) % 2 ^ 32 }

/-- `binRecStart`. -/
def binRecStart (conv : Conv) (address : Nat) : Conv :=
  binOut32 (binOut32 { conv with recLength := 0, checkSum := address, recStart := true } 0) address

/-- `binRecEnd`: the length is written over the first word of the record. -/
def binRecEnd (conv : Conv) : Conv :=
  if conv.recStart = false then conv
  else
    let place := conv.fOut.length - conv.recLength - 8
    let fOut := conv.fOut.take place ++ out32 conv.recLength ++ conv.fOut.drop (place + 4)
    let checkSum := (2 ^ 32 - (conv.checkSum + conv.recLength) % 2 ^ 32) % 2 ^ 32
    binOut32 { conv with recStart := false, checkSum := checkSum, fOut := fOut } checkSum

/-- The records are merged if an address follows the current one. -/
def binRecNext (conv : Conv) (address : Nat) : Conv :=
  let conv :=
    if address ≠ (conv.addressCurrent + 1) % 2 ^ 32 then binRecStart (binRecEnd conv) address
    else conv
  { conv with addressCurrent := address }

/-- `binRecOutProgramStart`. -/
def binRecOutProgramStart (conv : Conv) (address : Nat) : Conv := binRecNext conv address

/-- `binRecOutByte`. -/
def binRecOutByte (conv : Conv) (address : Nat) (data : UInt8) : Conv :=
  let conv := binRecNext conv address
  binOut8 { conv with checkSum := (conv.checkSum + data.toNat) % 2 ^ 32 } data

/-- `isxdigit`. -/
def isxdigit (c : UInt8) : Bool :=
  (ascii '0' ≤ c && c ≤ ascii '9') || (ascii 'A' ≤ c && c ≤ ascii 'F') ||
    (ascii 'a' ≤ c && c ≤ ascii 'f')

/-- What `gh` adds for a character. It adds nothing for one that is no digit. -/
def nibble (c : UInt8) : Nat :=
  if ascii '0' ≤ c ∧ c ≤ ascii '9' then c.toNat - 0x30
  else if ascii 'A' ≤ c ∧ c ≤ ascii 'F' then c.toNat - 0x37
  else if ascii 'a' ≤ c ∧ c ≤ ascii 'f' then c.toNat - 0x57
  else 0

/-- `gh`. -/
def gh (cp : List UInt8) (nibs : Nat) : Nat :=
  (cp.take nibs).foldl (fun j c => (j * 16 + nibble c) % 2 ^ 32) 0

/-- The sum of `checksum`: the bytes from the front, as many as are left. -/
def cksum : Nat → List UInt8 → Nat
  | 0, _ => 0
  | count + 1, scp => gh scp 2 + cksum count (scp.drop 2)

/-- `checksum`. -/
def checksum (cp : List UInt8) (count : Nat) : Bool :=
  cp.all isxdigit && (count + cksum count cp) % 256 = 0x0ff

/-- The loop over the data of an S3 line. -/
def outData : Nat → Conv → Nat → List UInt8 → Conv
  | 0, conv, _, _ => conv
  | count + 1, conv, adr, pSrecLine =>
      outData count (binRecOutByte conv adr (UInt8.ofNat (gh pSrecLine 2))) ((adr + 1) % 2 ^ 32)
        (pSrecLine.drop 2)

/-- The `switch` of `srecLine`, behind the count: whether the line is accepted, the state and
`s1s2s3_total`. -/
def srecSwitch (conv : Conv) (total : Nat) (ch : UInt8) (count : Nat) (pSrecLine : List UInt8) :
    Bool × Conv × Nat :=
  if ch = ascii '0' then
    if count < 3 then (false, conv, total)
    else if gh pSrecLine 4 ≠ 0 then (false, conv, total)
    else (true, conv, total)
  else if ch = ascii '3' then
    if count < 5 then (false, conv, total)
    else (true, outData (count - 5) conv (gh pSrecLine 8) (pSrecLine.drop 8), total + 1)
  else if ch = ascii '5' then
    if count < 3 then (false, conv, total)
    -- The number of the line is combined with the number of lines, not compared with it.
    else if gh pSrecLine 4 ||| total ≠ 0 then (false, conv, total)
    else (true, conv, total)
  else if ch = ascii '7' then
    if count < 5 then (false, conv, total)
    else if count - 4 ≠ 1 then (false, conv, total)
    else (true, binRecOutProgramStart conv (gh pSrecLine 8), total)
  else if ch = ascii '1' ∨ ch = ascii '2' ∨ ch = ascii '4' ∨ ch = ascii '6' ∨ ch = ascii '8' ∨
      ch = ascii '9' then (false, conv, total)
  else (true, conv, total)

/-- `srecLine`. -/
def srecLine (conv : Conv) (total : Nat) : List UInt8 → Bool × Conv × Nat
  | [] => (false, conv, total)
  | s :: pSrecLine =>
      if s ≠ ascii 'S' then (false, conv, total)
      else if pSrecLine.length < 4 then (false, conv, total)
      else
        let ch := pSrecLine.headD 0
        let count := gh pSrecLine.tail 2
        let pSrecLine := pSrecLine.drop 3
        if count * 2 ≠ pSrecLine.length then (false, conv, total)
        else if checksum pSrecLine count = false then (false, conv, total)
        else srecSwitch conv total ch count pSrecLine

/-- `readline` into a buffer of 256 bytes, and the string that is left there. -/
def readline (line : List UInt8) : List UInt8 :=
  (CStr.ofBuffer ((line.filter fun c => c ≠ ascii '\r').take 255)).bytes

/-- The loop of `srec2bin` over the lines. An empty line is passed over. -/
def srecLoop : Conv → Nat → List (List UInt8) → Conv
  | conv, _, [] => conv
  | conv, total, line :: lines =>
      if readline line = [] then srecLoop conv total lines
      else
        let (sts, conv, total) := srecLine conv total (readline line)
        if sts then srecLoop conv total lines else conv

/-- `TAG_BIG` and `TAG_LITTLE`. -/
def tag (bigEndian : Bool) : Nat := if bigEndian then 0xDEADBE42 else 0xFEEDFA42

/-- The state before the first line. -/
def begin_ (bigEndian : Bool) : Conv := binOut32 ⟨0xFFFFFFFF, false, 0, 0, []⟩ (tag bigEndian)

/-- `srec2bin`: the output file for an input file. -/
def srec2bin (bigEndian : Bool) (text : List UInt8) : List UInt8 :=
  (binRecEnd (srecLoop (begin_ bigEndian) 0 (text.splitOn (ascii '\n')))).fOut

end Trunk.Firmware.Srec2bin
