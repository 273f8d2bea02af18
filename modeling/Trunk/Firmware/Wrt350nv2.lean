import Mathlib.Algebra.Order.Group.Int
import Trunk.Foundation.Memory
import Trunk.Foundation.Network

/-! # The WRT350Nv2 image builder

The model of `wrt350nv2-builder`: the parts that a parameter file names, the checks of `main` on
them, and the flash image that `create_bin_file` writes. A line of the parameter file is given by
what `sscanf` reads from it, and a file by its content, which is read completely. A write outside
the buffer has no result.
-/

namespace Trunk.Firmware.Wrt350nv2

open Memory Network

/-! ## The offsets of `upgrade.h` -/

def flashSize : Nat := 0x800000

def bootAddrBaseOff : Nat := 0x7c0000

def bootSize : Nat := 0x40000

def pidOffset : Nat := bootSize - 0x46

def nodeBaseOff : Nat := flashSize - 0x60

def snOff : Nat := flashSize - 0x80

def productIdOffset : Nat := 0x75ffe0

def protocolIdOffset : Nat := productIdOffset + 0x02

def fwVersionOffset : Nat := productIdOffset + 0x04

def signOffset : Nat := productIdOffset + 0x08

/-- `ROOTFS_END_OFFSET`. -/
def rootfsEndOffset : Nat := 0x760000

/-- `ROOTFS_MIN_OFFSET`. -/
def rootfsMinOffset : Nat := 0x640000

/-! ## The parameter file -/

/-- An `int` of 32 bits. -/
def int32 (value : Int) : Int := (value + 2 ^ 31) % 2 ^ 32 - 2 ^ 31

/-- `mtd_info`, for a part whose line was read: the size of the line and the content of the file. -/
structure MtdInfo where
  size : Int
  file : List UInt8
  deriving DecidableEq, Repr

/-- `mtd_kernel`, `mtd_rootfs`, `mtd_image` and `mtd_uboot`, as far as they have a file name, and
`fw_version`. -/
structure Parts where
  kernel : Option MtdInfo
  rootfs : Option MtdInfo
  image : Option MtdInfo
  uboot : Option MtdInfo
  fwVersion : List UInt8
  deriving DecidableEq, Repr

/-- The names of the parts. -/
inductive MtdName where
  | kernel
  | rootfs
  | uboot
  | image
  deriving DecidableEq, Repr

namespace Parts

def get (parts : Parts) : MtdName → Option MtdInfo
  | .kernel => parts.kernel
  | .rootfs => parts.rootfs
  | .uboot => parts.uboot
  | .image => parts.image

def set (parts : Parts) (mtd : MtdInfo) : MtdName → Parts
  | .kernel => { parts with kernel := some mtd }
  | .rootfs => { parts with rootfs := some mtd }
  | .uboot => { parts with uboot := some mtd }
  | .image => { parts with image := some mtd }

/-- `mtd_kernel.size`. -/
def kernelSize (parts : Parts) : Int := parts.kernel.elim 0 MtdInfo.size

end Parts

/-- A line of the parameter file that has an effect: a part, with its size and its file, if that can
be opened, or the version. -/
inductive Line where
  | mtd (name : MtdName) (value : Int) (file : Option (List UInt8))
  | version (value : Int)
  deriving DecidableEq, Repr

/-- A round of `parse_par_file`. There is no result if it ends with an exit code. -/
def parseLine (parts : Parts) : Line → Option Parts
  | .mtd name value file =>
      if (parts.get name).isSome then none
      else
        match file with
        | none => none
        | some file =>
            if file.length < 2 then none else some (parts.set ⟨int32 value, file⟩ name)
  | .version value =>
      some { parts with
        fwVersion := [UInt8.ofNat (int32 value / 256 % 256).toNat,
          UInt8.ofNat (int32 value % 256).toNat] }

/-- The parts before the parameter file is read. -/
def noParts : Parts := ⟨none, none, none, none, [0x20, 0x20]⟩

/-- `parse_par_file`. -/
def parseParFile (lines : List Line) : Option Parts := lines.foldlM parseLine noParts

/-! ## The checks -/

/-- The magic number check. -/
def magicCheck (ignoremagic : Bool) (known : List (List UInt8)) (file : List UInt8) : Bool :=
  known.contains (file.take 2) || ignoremagic

/-- The general size check, where zero means that there is none. -/
def sizeCheck (sizecheck : Int) (file : List UInt8) : Bool :=
  sizecheck = 0 || (0 < sizecheck && (file.length : Int) ≤ sizecheck)

/-- A part without a file is not checked. -/
def checkMtd (mtd : Option MtdInfo) (check : List UInt8 → Bool) : Bool :=
  mtd.elim true fun mtd => check mtd.file

/-- The checks of `main`, the part of a case of the loop each, and then on the parts together. -/
def mainChecks (ignoremagic : Bool) (parts : Parts) : Bool :=
  (checkMtd parts.image fun file =>
    magicCheck ignoremagic [[0x27, 0x05]] file && 0x00200000 ≤ file.length &&
      sizeCheck rootfsEndOffset file) &&
  (checkMtd parts.kernel fun file =>
    magicCheck ignoremagic [[0x27, 0x05]] file && 0x00080000 ≤ file.length &&
      sizeCheck (int32 (parts.kernelSize - 16)) file) &&
  (checkMtd parts.rootfs fun file =>
    magicCheck ignoremagic [[0x68, 0x73], [0x85, 0x19]] file &&
      sizeCheck (int32 (productIdOffset - parts.kernelSize)) file) &&
  (checkMtd parts.uboot fun file => sizeCheck (snOff - bootAddrBaseOff : Nat) file) &&
  (parts.image.isSome || (parts.kernel.isSome && parts.rootfs.isSome)) &&
  !(parts.image.isSome && (parts.kernel.isSome || parts.rootfs.isSome))

/-! ## The image -/

/-- A write into the buffer. -/
structure Write where
  place : Int
  content : List UInt8
  deriving DecidableEq, Repr

/-- The writes of `create_bin_file` for a part: the size of the file, if it is added, the content,
and random bytes up to where the image is to be filled. -/
def mtdWrites (random : Nat → UInt8) (offset : Int) (file : List UInt8) (addsize padsize : Int) :
    List Write :=
  let sizeField : List Write :=
    if addsize = 0 then [] else [⟨offset - 16, bytes 4 (addsize % 2 ^ 32).toNat⟩]
  -- The padding starts on the next border of 64 KiB.
  let skip := if 0 < padsize then padsize % 0x10000 else 0
  let padding : List Write :=
    if 0 < padsize - skip then
      [⟨skip + offset + file.length, (List.range (padsize - skip).toNat).map random⟩]
    else []
  sizeField ++ [⟨offset, file⟩] ++ padding

/-- The writes of the loop over the parts. -/
def partWrites (random : Nat → UInt8) (parts : Parts) : List Write :=
  (parts.image.elim [] fun mtd =>
    mtdWrites random 0 mtd.file 0 (int32 (rootfsMinOffset - mtd.file.length))) ++
  (parts.kernel.elim [] fun mtd => mtdWrites random 0 mtd.file 0 0) ++
  (parts.rootfs.elim [] fun mtd =>
    mtdWrites random parts.kernelSize mtd.file (int32 mtd.file.length)
      (int32 (rootfsMinOffset - parts.kernelSize - mtd.file.length))) ++
  (parts.uboot.elim [] fun mtd =>
    mtdWrites random bootAddrBaseOff mtd.file (int32 mtd.file.length) 0)

def productId : List UInt8 := [0x00, 0x03]

def protocolId : List UInt8 := [0x00, 0x00]

def rootfsUnknown : List UInt8 := [0x90, 0xF7]

def sign : List UInt8 := [0x65, 0x52, 0x63, 0x4F, 0x6D, 0x4D, 0x00, 0x00]

def pid : List UInt8 :=
  [0x73, 0x45, 0x72, 0x43, 0x6F, 0x4D, 0x6D, 0x00, 0x01, 0x00, 0x00, 0x59, 0x42, 0x50, 0x00, 0x01,
    0x10, 0x00, 0x00, 0x00, 0x00, 0x00, 0x00, 0x00, 0x00, 0x00, 0x00, 0x00, 0x00, 0x00, 0x00, 0x00,
    0x00, 0x00, 0x00, 0x00, 0x00, 0x00, 0x00, 0x00, 0x00, 0x00, 0x00, 0x00, 0x00, 0x00, 0x03, 0x00,
    0x00, 0x00, 0x00, 0x00, 0x00, 0x00, 0x03, 0x00, 0x00, 0x12, 0x34, 0x00, 0x00, 0x00, 0x04, 0x73,
    0x45, 0x72, 0x43, 0x6F, 0x4D, 0x6D]

/-- The writes of the special contents. -/
def specialWrites (fwVersion : List UInt8) : List Write :=
  [⟨productIdOffset, productId⟩, ⟨protocolIdOffset, protocolId⟩, ⟨fwVersionOffset, fwVersion⟩,
    ⟨fwVersionOffset + 2, rootfsUnknown⟩, ⟨signOffset, sign⟩,
    ⟨bootAddrBaseOff + pidOffset, pid⟩, ⟨bootAddrBaseOff + pidOffset + 57, fwVersion⟩]

/-- A write, if it is inside the buffer. -/
def write (buffer : List UInt8) (w : Write) : Option (List UInt8) :=
  if w.place < 0 then none else store buffer w.place.toNat w.content

/-- The sum of the bytes. -/
def csum (buffer : List UInt8) : Nat := (buffer.map UInt8.toNat).sum

/-- The place of the checksum byte. -/
def checksumOffset : Nat := nodeBaseOff + 25

/-- `create_bin_file`, with the bytes of `/dev/urandom`. -/
def createBinFile (random : Nat → UInt8) (parts : Parts) : Option (List UInt8) := do
  let buffer ← (partWrites random parts ++ specialWrites parts.fwVersion).foldlM write
    (List.replicate flashSize 0)
  store buffer checksumOffset [-UInt8.ofNat (csum buffer)]

end Trunk.Firmware.Wrt350nv2
