import Trunk.Foundation.Memory
import Trunk.Nvram.Table

/-! # The NVRAM image

The image that `nvram.c` maps: a header of five words, found by its magic word, and behind it
the texts `name=value` with their terminators, up to an empty text. `nvram_commit` writes the
image from the table and reads the table back from it by `_nvram_rehash`, as `nvram_open` does.

Words are in the order of the machine, which is either one on the targets of the package. A
mapping is the list of its bytes, and an access outside it has no result. The address of the
mapping is a parameter: the padding of the text is computed from it.
-/

namespace Trunk.Nvram

open CString Memory

/-- The order of the bytes of a word. -/
inductive Endian where
  | little
  | big
  deriving DecidableEq, Repr

/-- The bytes of a word, the lowest first. -/
def wordBytes (word : UInt32) : List UInt8 :=
  [UInt8.ofNat word.toNat, UInt8.ofNat (word.toNat / 2 ^ 8), UInt8.ofNat (word.toNat / 2 ^ 16),
    UInt8.ofNat (word.toNat / 2 ^ 24)]

/-- The word of four bytes, the lowest first. -/
def bytesWord : List UInt8 → UInt32
  | [a, b, c, d] =>
      UInt32.ofNat (a.toNat + 2 ^ 8 * b.toNat + 2 ^ 16 * c.toNat + 2 ^ 24 * d.toNat)
  | _ => 0

/-- The bytes of a word in memory. -/
def Endian.bytes (endian : Endian) (word : UInt32) : List UInt8 :=
  match endian with
  | .little => wordBytes word
  | .big => (wordBytes word).reverse

/-- The word that four bytes in memory hold. -/
def Endian.word (endian : Endian) (bytes : List UInt8) : UInt32 :=
  match endian with
  | .little => bytesWord bytes
  | .big => bytesWord bytes.reverse

/-- `struct nvram_header`. -/
structure Header where
  magic : UInt32
  len : UInt32
  crcVerInit : UInt32
  configRefresh : UInt32
  configNcdl : UInt32
  deriving DecidableEq, Repr

/-- `NVRAM_MAGIC`. -/
def nvramMagic : UInt32 := 0x48534C46

/-- `NVRAM_VERSION`. -/
def nvramVersion : UInt32 := 1

/-- `SDRAM_INIT`. -/
def sdramInit : UInt32 := 0x419

/-- `SDRAM_CONFIG`. -/
def sdramConfig : UInt32 := 0

/-- `SDRAM_REFRESH`. -/
def sdramRefresh : UInt32 := 0x8040

/-- `sizeof(nvram_header_t)`. -/
def headerSize : Nat := 20

/-- The bytes of a header. -/
def Header.bytes (endian : Endian) (header : Header) : List UInt8 :=
  endian.bytes header.magic ++ endian.bytes header.len ++ endian.bytes header.crcVerInit ++
    endian.bytes header.configRefresh ++ endian.bytes header.configNcdl

/-- `nvram_header`: the header as it stands in the mapping. -/
def nvramHeader (endian : Endian) (h : Handle) : Header :=
  let word (index : Nat) := endian.word ((h.mmap.drop (h.offset + 4 * index)).take 4)
  { magic := word 0, len := word 1, crcVerInit := word 2, configRefresh := word 3,
    configNcdl := word 4 }

/-- `crc8_table`. -/
def crc8Table : Array UInt8 := #[
    0x00, 0xF7, 0xB9, 0x4E, 0x25, 0xD2, 0x9C, 0x6B, 0x4A, 0xBD, 0xF3, 0x04, 0x6F, 0x98, 0xD6, 0x21,
    0x94, 0x63, 0x2D, 0xDA, 0xB1, 0x46, 0x08, 0xFF, 0xDE, 0x29, 0x67, 0x90, 0xFB, 0x0C, 0x42, 0xB5,
    0x7F, 0x88, 0xC6, 0x31, 0x5A, 0xAD, 0xE3, 0x14, 0x35, 0xC2, 0x8C, 0x7B, 0x10, 0xE7, 0xA9, 0x5E,
    0xEB, 0x1C, 0x52, 0xA5, 0xCE, 0x39, 0x77, 0x80, 0xA1, 0x56, 0x18, 0xEF, 0x84, 0x73, 0x3D, 0xCA,
    0xFE, 0x09, 0x47, 0xB0, 0xDB, 0x2C, 0x62, 0x95, 0xB4, 0x43, 0x0D, 0xFA, 0x91, 0x66, 0x28, 0xDF,
    0x6A, 0x9D, 0xD3, 0x24, 0x4F, 0xB8, 0xF6, 0x01, 0x20, 0xD7, 0x99, 0x6E, 0x05, 0xF2, 0xBC, 0x4B,
    0x81, 0x76, 0x38, 0xCF, 0xA4, 0x53, 0x1D, 0xEA, 0xCB, 0x3C, 0x72, 0x85, 0xEE, 0x19, 0x57, 0xA0,
    0x15, 0xE2, 0xAC, 0x5B, 0x30, 0xC7, 0x89, 0x7E, 0x5F, 0xA8, 0xE6, 0x11, 0x7A, 0x8D, 0xC3, 0x34,
    0xAB, 0x5C, 0x12, 0xE5, 0x8E, 0x79, 0x37, 0xC0, 0xE1, 0x16, 0x58, 0xAF, 0xC4, 0x33, 0x7D, 0x8A,
    0x3F, 0xC8, 0x86, 0x71, 0x1A, 0xED, 0xA3, 0x54, 0x75, 0x82, 0xCC, 0x3B, 0x50, 0xA7, 0xE9, 0x1E,
    0xD4, 0x23, 0x6D, 0x9A, 0xF1, 0x06, 0x48, 0xBF, 0x9E, 0x69, 0x27, 0xD0, 0xBB, 0x4C, 0x02, 0xF5,
    0x40, 0xB7, 0xF9, 0x0E, 0x65, 0x92, 0xDC, 0x2B, 0x0A, 0xFD, 0xB3, 0x44, 0x2F, 0xD8, 0x96, 0x61,
    0x55, 0xA2, 0xEC, 0x1B, 0x70, 0x87, 0xC9, 0x3E, 0x1F, 0xE8, 0xA6, 0x51, 0x3A, 0xCD, 0x83, 0x74,
    0xC1, 0x36, 0x78, 0x8F, 0xE4, 0x13, 0x5D, 0xAA, 0x8B, 0x7C, 0x32, 0xC5, 0xAE, 0x59, 0x17, 0xE0,
    0x2A, 0xDD, 0x93, 0x64, 0x0F, 0xF8, 0xB6, 0x41, 0x60, 0x97, 0xD9, 0x2E, 0x45, 0xB2, 0xFC, 0x0B,
    0xBE, 0x49, 0x07, 0xF0, 0x9B, 0x6C, 0x22, 0xD5, 0xF4, 0x03, 0x4D, 0xBA, 0xD1, 0x26, 0x68, 0x9F]

/-- `hndcrc8`. -/
def hndcrc8 (data : List UInt8) (crc : UInt8) : UInt8 :=
  data.foldl (fun crc byte => crc8Table.getD (crc ^^^ byte).toNat 0) crc

/-- `strlen` and what stands behind the terminator; none where the mapping has no
terminator. -/
def cstring (area : List UInt8) : Option (CStr × List UInt8) :=
  if 0 ∈ area then some (CStr.ofBuffer area, (area.dropWhile fun byte => byte ≠ 0).tail) else none

/-- The part of a text before its first equals sign. -/
def nameOf (string : CStr) : CStr where
  bytes := string.bytes.takeWhile fun byte => byte ≠ ascii '='
  noNul member := string.noNul (List.takeWhile_subset _ member)

/-- The part of a text behind its first equals sign. -/
def valueOf (string : CStr) : CStr where
  bytes := (string.bytes.dropWhile fun byte => byte ≠ ascii '=').tail
  noNul member := string.noNul ((List.dropWhile_suffix _).subset (List.mem_of_mem_tail member))

/-- The loop of `_nvram_rehash` from a name on. It goes on by two bytes at least, so the number
of bytes bounds its rounds. -/
def parse : Nat → List UInt8 → Handle → Option Handle
  | 0, _, _ => none
  | fuel + 1, area, h =>
      match cstring area with
      | none => none
      | some (string, rest) =>
          if string.bytes = [] then some h
          else if ascii '=' ∈ string.bytes then
            parse fuel rest (nvramSet h (nameOf string) (valueOf string)).2
          else some h

/-- The character of a hexadecimal digit of `%X`. -/
def upperDigit (value : Nat) : UInt8 :=
  if value < 10 then ascii '0' + UInt8.ofNat value else ascii 'A' + UInt8.ofNat (value - 10)

/-- What `0x%0*X` writes for a number of so many digits. -/
def upperHex (digits number : Nat) : CStr :=
  CStr.ofBuffer (ascii '0' :: ascii 'x' ::
    (List.range digits).reverse.map fun place => upperDigit (number / 16 ^ place % 16))

/-- A name that the code spells out. -/
def literal (text : String) : CStr := CStr.ofBuffer (text.toList.map ascii)

/-- A special parameter is set where the image had none. -/
def inject (name : CStr) (value : CStr) (h : Handle) : Handle :=
  match nvramGet h name with
  | some _ => h
  | none => (nvramSet h name value).2

/-- `_nvram_rehash`. -/
def nvramRehash (endian : Endian) (h : Handle) : Option Handle := do
  let header := nvramHeader endian h
  let area := h.mmap.drop (h.offset + headerSize)
  let h ← parse area.length area (nvramFree h)
  let h := inject (literal "sdram_init") (upperHex 4 (header.crcVerInit >>> 16).toNat) h
  let h := inject (literal "sdram_config") (upperHex 4 (header.configRefresh &&& 0xffff).toNat) h
  let h := inject (literal "sdram_refresh") (upperHex 4 (header.configRefresh >>> 16).toNat) h
  return inject (literal "sdram_ncdl") (upperHex 8 header.configNcdl.toNat) h

/-- What `sprintf` writes for a tuple, with its terminator. -/
def Tuple.text (t : Tuple) : List UInt8 :=
  t.name.bytes ++ ascii '=' :: t.value.bytes ++ [0]

/-- The inner loop of `nvram_commit` over a chain, with the text that is written. It ends at the
first tuple that does not leave space for a double NUL. -/
def writeChain : List UInt8 → List Tuple → List UInt8
  | text, [] => text
  | text, t :: chain =>
      if headerSize + text.length + t.text.length > nvramSpace - 2 then text
      else writeChain (text ++ t.text) chain

/-- The text that `nvram_commit` writes out of the table. -/
def writeTuples (h : Handle) : List UInt8 :=
  (List.finRange 257).foldl (fun text slot => writeChain text (h.nvramHash slot)) []

/-- The number of NULs that pad the text from an address on: `(int)ptr % 4` has the sign of the
address. -/
def padding (ptr : UInt32) : Nat :=
  let rest := ptr.toInt32.toInt.tmod 4
  if rest = 0 then 0 else (4 - rest).toNat

/-- `strtoul(text, NULL, 0) & 0xffff`. -/
def sdramWord (text : CStr) : UInt32 := UInt32.ofNat (strtoulFront 32 text.bytes) &&& 0xffff

/-- The header that `nvram_commit` regenerates, without length and checksum. -/
def regenerate (h : Handle) : Header :=
  match nvramGet h (literal "sdram_init"), nvramGet h (literal "sdram_config"),
      nvramGet h (literal "sdram_refresh"), nvramGet h (literal "sdram_ncdl") with
  | some init, some config, some refresh, some ncdl =>
      { magic := nvramMagic, len := 0
        crcVerInit := nvramVersion <<< 8 ||| sdramWord init <<< 16
        configRefresh := sdramWord config ||| sdramWord refresh <<< 16
        configNcdl := UInt32.ofNat (strtoulFront 32 ncdl.bytes) }
  | _, _, _, _ =>
      { magic := nvramMagic, len := 0
        crcVerInit := nvramVersion <<< 8 ||| sdramInit <<< 16
        configRefresh := sdramConfig ||| sdramRefresh <<< 16
        configNcdl := 0 }

/-- `NVRAM_ROUNDUP(x, 4)`. -/
def roundup (x : Nat) : Nat := (x + 3) / 4 * 4

/-- `nvram_commit` up to the write out: the image that it makes of a mapping at an address. -/
def commitImage (endian : Endian) (address : UInt32) (h : Handle) : Option (List UInt8) := do
  let header := regenerate h
  let start := h.offset + headerSize
  let text := writeTuples h
  let cleared ← store h.mmap start (List.replicate (nvramSpace - headerSize) 0xff)
  let written ← store cleared start (text ++ [0])
  let ptr := start + text.length + 1
  let padded ← store written ptr (List.replicate (padding (address + UInt32.ofNat ptr)) 0)
  let len := roundup (headerSize + text.length + 2)
  let tmp : Header := { header with magic := 0 }
  let data ← load padded start (len - headerSize)
  let crc := hndcrc8 data (hndcrc8 ((tmp.bytes endian).drop 9) 0xff)
  let header := { header with
    len := UInt32.ofNat len
    crcVerInit := header.crcVerInit ||| crc.toUInt32 }
  store padded h.offset (header.bytes endian)

/-- `nvram_commit`. -/
def nvramCommit (endian : Endian) (address : UInt32) (h : Handle) : Option Handle := do
  let image ← commitImage endian address h
  nvramRehash endian { h with mmap := image }

/-- The search of `nvram_open` for the magic word, from a word on. -/
def findMagic (endian : Endian) (area : List UInt8) : Nat → Nat → Option (Option Nat)
  | 0, _ => some none
  | count + 1, index => do
      if endian.word (← load area (4 * index) 4) = nvramMagic then return some (4 * index)
      else findMagic endian area count (index + 1)

/-- The offset of the header, as `nvram_open` finds it. The size is unsigned, and the bound of
the search wraps below `NVRAM_SPACE`. -/
def headerOffset (endian : Endian) (area : List UInt8) : Option (Option Nat) :=
  findMagic endian area ((2 ^ 32 + area.length - nvramSpace) % 2 ^ 32 / 4 + 1) 0

/-- `nvram_open` with a mapping of `nvram_erase_size` bytes: `some none` where it returns
`NULL`. -/
def nvramOpen (endian : Endian) (area : List UInt8) : Option (Option Handle) := do
  match ← headerOffset endian area with
  | none => return none
  | some offset =>
      let h : Handle :=
        { mmap := area, offset := offset, nvramHash := fun _ => [], nvramDead := [] }
      if (nvramHeader endian h).magic = nvramMagic then return some (← nvramRehash endian h)
      else return none

end Trunk.Nvram
