import Trunk.Foundation.Writes
import Trunk.Mtd.Trx

/-! # TRX images

The model of `trx.c`, which builds an image in a buffer, one option after the other. An access
outside the buffer is an ending of its own. A `size_t` and an `unsigned long` have `width` bits.

The options come with the numbers of their texts where the whole text is one, and the files with
what is read of them. Memory that is allocated holds what it holds: it is a parameter, as is whether
the output can be written.
-/

namespace Trunk.Firmware.Trx

open Memory Mtd.Trx Network Writes

/-- `TRX_MAX_LEN`. -/
def trxMaxLen : Nat := 0x720000

/-- What is found under the name of a file: bytes, and then its end or an error. -/
inductive Input where
  | missing
  | stream (content : List UInt8) (ends : Bool)
  deriving DecidableEq

/-- The options of the command line. A name without an option is a `file`. Other memory may be
found for `-m`. -/
inductive Opt (width : Nat) where
  | version2
  | fsmark (input : Input)
  | append (input : Input)
  | file (input : Input)
  | outfile (opens : Bool)
  | maxlen (number : Option (Fin (2 ^ width))) (fresh : Option (Nat → UInt8))
  | align (number : Option (Fin (2 ^ width)))
  | absolute (number : Option (Fin (2 ^ width)))
  | relative (number : Option Int)
  | unknown

/-- How the program ends without an image. -/
inductive Ended where
  | exit
  | outside
  deriving DecidableEq, Repr

/-- The variables of `main`. The buffer has `maxlen` bytes, and `files` is `i`. -/
structure State where
  buf : List UInt8
  curLen : UInt32
  fsmark : UInt32
  files : Nat
  version : UInt32
  opened : Bool

/-- Bytes are written into the buffer. -/
def write (s : State) (place : Nat) (content : List UInt8) : Except Ended State :=
  match put s.buf ⟨place, content⟩ with
  | some buf => .ok { s with buf }
  | none => .error .outside

/-- `memset(buf + cur_len, 0, n)`, and `cur_len` goes on. -/
def clear (s : State) (n : Nat) : Except Ended State := do
  let s ← write s s.curLen.toNat (List.replicate n 0)
  return { s with curLen := s.curLen + UInt32.ofNat n }

/-- A field of the header is written. -/
def setField (order : ByteOrder) (s : State) (place : Nat) (value : UInt32) : Except Ended State :=
  write s place (order.memory 4 (store32Le order value).toNat)

section Options

variable {width : Nat} (order : ByteOrder)

/-- `maxlen - cur_len`. -/
def room (width : Nat) (s : State) : Nat :=
  (s.buf.length + 2 ^ width - s.curLen.toNat) % 2 ^ width

/-- A file is read, up to its end, and filled up to a multiple of four. -/
def readFile (width : Nat) (s : State) : Input → Except Ended State
  | .missing => .error .exit
  | .stream content ends => do
      let n := (content.take (room width s)).length
      let s' ← write s s.curLen.toNat (content.take (room width s))
      -- the end is met behind the last byte only
      if ¬ ends ∨ room width s ≤ content.length then .error .exit
      else if n % 4 ≠ 0 then do
        let s' ← write s' (s.curLen.toNat + n) (List.replicate (4 - n % 4) 0)
        return { s' with curLen := s.curLen + UInt32.ofNat (n + (4 - n % 4)), opened := true }
      else return { s' with curLen := s.curLen + UInt32.ofNat n, opened := true }

/-- `realloc`. -/
def realloc (buf : List UInt8) (maxlen : Nat) (fresh : Nat → UInt8) : List UInt8 :=
  buf.take maxlen ++ (List.range' buf.length (maxlen - buf.length)).map fresh

/-- `maxlen`, rounded up to a multiple of 4096. -/
def roundMaxlen (width number : Nat) : Nat :=
  if number % 0x1000 ≠ 0 then (number + (0x1000 - number % 0x1000)) % 2 ^ width else number

/-- `cur_len & (n - 1)`. -/
def misaligned (width : Nat) (s : State) (n : Nat) : Nat :=
  s.curLen.toNat &&& ((n + 2 ^ width - 1) % 2 ^ width)

/-- A round of the loop over the options. -/
def step (s : State) : Opt width → Except Ended State
  | .version2 =>
      .ok (if s.curLen ≠ 28 then s else { s with version := 2, curLen := s.curLen + 4 })
  | .fsmark input => readFile width { s with fsmark := s.curLen } input
  | .append input => readFile width s input
  | .file input => do
      let s ← setField order s (16 + 4 * s.files) s.curLen
      readFile width { s with files := s.files + 1 } input
  | .outfile opens => if opens then .ok s else .error .exit
  | .maxlen (some number) (some fresh) =>
      if roundMaxlen width number < 0x1000 then .error .exit
      else .ok { s with buf := realloc s.buf (roundMaxlen width number) fresh }
  | .align (some number) =>
      if misaligned width s number ≠ 0 then
        clear s ((number + 2 ^ width - misaligned width s number) % 2 ^ width)
      else .ok s
  | .absolute (some number) =>
      if number < s.curLen.toNat then .ok s
      else do
        let s' ← write s s.curLen.toNat (List.replicate (number - s.curLen.toNat) 0)
        return { s' with curLen := UInt32.ofNat number }
  | .relative (some number) =>
      if number < 0 then
        .ok (if (s.curLen.toNat : Int) < -number then { s with curLen := 0 }
          else { s with curLen := s.curLen + UInt32.ofInt number })
      else clear s number.toNat
  | _ => .error .exit

/-- The loop over the options. -/
def options (s : State) (opts : List (Opt width)) : Except Ended State := opts.foldlM (step order) s

/-- A part of the buffer is read. -/
def read (s : State) (place length : Nat) : Except Ended (List UInt8) :=
  match load s.buf place length with
  | some bytes => .ok bytes
  | none => .error .outside

/-- `p->offsets[3]`. -/
def offset3 (s : State) : Except Ended UInt32 := do
  let bytes ← read s 28 4
  return store32Le order (UInt32.ofNat (order.word bytes))

/-- The length and the CRC are written into the header. -/
def sealHeader (width : Nat) (s : State) : Except Ended State := do
  let last := if s.fsmark ≠ 0 then s.fsmark else s.curLen
  let scan ← read s 12 ((last.toNat + 2 ^ width - 12) % 2 ^ width)
  let s ← setField order s 8 (crc32buf scan)
  setField order s 4 last

/-- The CRC of a second version is that of an image with flags that are set. -/
def sealVersion2 (width : Nat) (s : State) : Except Ended State := do
  let offset ← offset3 order s
  if (s.curLen - offset).toNat < 32 then .error .exit
  else do
    let binheader ← read s offset.toNat 32
    let s ← write s (offset.toNat + 22) (List.replicate 8 0xff)
    let s ← sealHeader order width s
    let offset ← offset3 order s
    write s offset.toNat binheader

/-- The image is filled up to a multiple of 4096. -/
def fillUp (s : State) : Except Ended State :=
  if s.curLen.toNat % 0x1000 ≠ 0 then clear s (0x1000 - s.curLen.toNat % 0x1000) else .ok s

/-- The length and the CRC, for the version of the header. -/
def sealImage (width : Nat) (s : State) : Except Ended State :=
  if s.version = 2 then sealVersion2 order width s else sealHeader order width s

/-- `main` behind the loop. -/
def finish (width : Nat) (written : Bool) (s : State) : Except Ended (List UInt8) := do
  let s ← setField order s 12 (s.version <<< 16)
  if ¬ s.opened then .error .exit
  else do
    let s ← fillUp s
    let s ← sealImage order width s
    if s.curLen = 0 then .error .exit
    else do
      let image ← read s 0 s.curLen.toNat
      if written then return image else .error .exit

/-- The state in front of the loop, with the memory that `malloc` finds. -/
def start (fresh : Nat → UInt8) : Except Ended State :=
  setField order ⟨(List.range trxMaxLen).map fresh, 28, 0, 0, 1, false⟩ 0 trxMagic

/-- `main`: the image. -/
def main (fresh : Nat → UInt8) (written : Bool) (opts : List (Opt width)) :
    Except Ended (List UInt8) := do
  let s ← start order fresh
  let s ← options order s opts
  finish order width written s

end Options

end Trunk.Firmware.Trx
