import Trunk.Foundation.Memory
import Trunk.Foundation.Network

/-! # The firmware splitters

The model of `mtdsplit.c` and of the uImage, LZMA and Seama parsers, which cut a firmware partition
into a kernel and a root file system. A size is 32 bits wide, a read of the device succeeds exactly
inside it, and memory is allocated whenever it is asked for. A parser that does not return has no
outcome.
-/

namespace Trunk.Mtdsplit

open Memory Network

/-- `struct mtd_info`: a device of whole erase blocks. -/
structure MtdInfo where
  content : List UInt8
  erasesize : Nat
  blocks : Nat
  order : ByteOrder
  positive : 0 < erasesize
  whole : content.length = blocks * erasesize
  small : content.length ≤ 2 ^ 31

namespace MtdInfo

/-- `master->size`. -/
def size (mtd : MtdInfo) : Nat := mtd.content.length

end MtdInfo

/-- The errors that the parsers return. -/
inductive Errno where
  | einval
  | enodev
  | eio
  deriving DecidableEq, Repr

/-- `mtd_read`. -/
def mtdRead (mtd : MtdInfo) (offset length : Nat) : Except Errno (List UInt8) :=
  match load mtd.content offset length with
  | some content => .ok content
  | none => .error .einval

/-- `SQUASHFS_MAGIC`. -/
def squashfsMagic : Nat := 0x73717368

/-- The first word of a jffs2 clean marker, in the order of the processor. -/
def jffs2Magic : Nat := 0x19852003

/-- `mtd_check_rootfs_magic`. -/
def mtdCheckRootfsMagic (mtd : MtdInfo) (offset : Nat) : Except Errno Unit :=
  match mtdRead mtd offset 4 with
  | .error err => .error err
  | .ok magic =>
      if ByteOrder.little.word magic ≠ squashfsMagic ∧ mtd.order.word magic ≠ jffs2Magic then
        .error .einval
      else .ok ()

/-- `mtd_next_eb`. -/
def mtdNextEb (mtd : MtdInfo) (offset : Nat) : Nat :=
  (offset / mtd.erasesize * mtd.erasesize + mtd.erasesize) % 2 ^ 32

/-- The loop of `mtd_find_rootfs_from`. The first number bounds the rounds. -/
def findRootfs (mtd : MtdInfo) (limit : Nat) : Nat → Nat → Option (Except Errno Nat)
  | 0, _ => none
  | fuel + 1, offset =>
      if limit ≤ offset then some (.error .enodev)
      else
        match mtdCheckRootfsMagic mtd offset with
        | .error _ => findRootfs mtd limit fuel (mtdNextEb mtd offset)
        | .ok () => some (.ok offset)

/-- `mtd_find_rootfs_from`. -/
def mtdFindRootfsFrom (mtd : MtdInfo) (from_ limit : Nat) : Option (Except Errno Nat) :=
  findRootfs mtd limit (limit + 1) from_

/-- `KERNEL_PART_NAME` and `ROOTFS_PART_NAME`. -/
inductive PartName where
  | kernel
  | rootfs
  deriving DecidableEq, Repr

/-- `struct mtd_partition`. -/
structure MtdPartition where
  name : PartName
  offset : Nat
  size : Nat
  deriving DecidableEq, Repr

/-! ## uImage -/

/-- `sizeof(struct uimage_header)`. -/
def uimageHeaderLen : Nat := 64

/-- `be32_to_cpu` of a field of a header. -/
def be32 (header : List UInt8) (offset : Nat) : Nat := number ((header.drop offset).take 4)

/-- `be32_to_cpu(header->ih_magic)`. -/
def ihMagic (header : List UInt8) : Nat := be32 header 0

/-- `be32_to_cpu(header->ih_size)`. -/
def ihSize (header : List UInt8) : Nat := be32 header 12

/-- `header->ih_os`. -/
def ihOs (header : List UInt8) : UInt8 := header.getD 28 0

/-- `header->ih_type`. -/
def ihType (header : List UInt8) : UInt8 := header.getD 30 0

/-- `uimage_verify_default`. -/
def uimageVerifyDefault (header : List UInt8) : Bool :=
  ihMagic header = 0x27051956 && ihOs header = 5 && ihType header = 2

/-- `uimage_verify_wndr3700`. -/
def uimageVerifyWndr3700 (header : List UInt8) : Bool :=
  [0x32303631, 0x32303033, 0x32323030, 0x33373030, 0x33373031].contains (ihMagic header) &&
    ihOs header = 5 && ihType header = 7

/-- The loop over the erase blocks, with `uimage_size` as the round before left it: the block where
it ends, and the size. -/
def findUimage (mtd : MtdInfo) (verify : List UInt8 → Bool) : Nat → Nat → Nat → Option (Nat × Nat)
  | 0, _, _ => none
  | fuel + 1, offset, uimageSize =>
      if mtd.size ≤ offset then some (offset, uimageSize)
      else
        match mtdRead mtd offset uimageHeaderLen with
        | .error _ => findUimage mtd verify fuel ((offset + mtd.erasesize) % 2 ^ 32) 0
        | .ok header =>
            if verify header = false then
              findUimage mtd verify fuel ((offset + mtd.erasesize) % 2 ^ 32) 0
            else
              let uimageSize := (uimageHeaderLen + ihSize header) % 2 ^ 32
              if mtd.size < (offset + uimageSize) % 2 ^ 32 then
                findUimage mtd verify fuel ((offset + mtd.erasesize) % 2 ^ 32) uimageSize
              else some (offset, uimageSize)

/-- The two partitions, and `rootfs_size`, behind a uImage at the start. -/
def rootfsBehind (mtd : MtdInfo) (uimageSize : Nat) :
    Option (Except Errno (List MtdPartition)) := do
  match ← mtdFindRootfsFrom mtd uimageSize mtd.size with
  | .error err => return .error err
  | .ok rootfsOffset =>
      let rootfsSize := mtd.size - rootfsOffset
      if rootfsSize = 0 then return .error .enodev
      else
        return .ok [⟨.kernel, 0, rootfsOffset⟩, ⟨.rootfs, rootfsOffset, rootfsSize⟩]

/-- The two partitions, if a root file system stands before the uImage. -/
def rootfsBefore (mtd : MtdInfo) (uimageOffset uimageSize : Nat) :
    Except Errno (List MtdPartition) :=
  match mtdCheckRootfsMagic mtd 0 with
  | .error err => .error err
  | .ok () =>
      if uimageOffset = 0 then .error .enodev
      else .ok [⟨.rootfs, 0, uimageOffset⟩, ⟨.kernel, uimageOffset, uimageSize⟩]

/-- `__mtdsplit_parse_uimage`. -/
def mtdsplitParseUimage (mtd : MtdInfo) (verify : List UInt8 → Bool) :
    Option (Except Errno (List MtdPartition)) := do
  let (uimageOffset, uimageSize) ← findUimage mtd verify (mtd.size + 1) 0 0
  if uimageSize = 0 then return .error .enodev
  else if uimageOffset = 0 then rootfsBehind mtd uimageSize
  else return rootfsBefore mtd uimageOffset uimageSize

/-! ## LZMA and Seama -/

/-- `is_power_of_2`. -/
def isPowerOf2 (t : Nat) : Bool := t ≠ 0 && t &&& (t - 1) = 0

/-- A kernel from the start of the device, and the root file system behind it. -/
def cutAt (mtd : MtdInfo) (rootfsOffset : Nat) : List MtdPartition :=
  [⟨.kernel, 0, rootfsOffset⟩, ⟨.rootfs, rootfsOffset, mtd.size - rootfsOffset⟩]

/-- `mtdsplit_parse_lzma`. -/
def mtdsplitParseLzma (mtd : MtdInfo) : Option (Except Errno (List MtdPartition)) :=
  match mtdRead mtd 0 13 with
  | .error err => some (.error err)
  | .ok hdr =>
      if 9 * 5 * 5 ≤ (hdr.getD 0 0).toNat then some (.error .einval)
      else if isPowerOf2 (ByteOrder.little.word ((hdr.drop 1).take 4)) = false then
        some (.error .einval)
      else if ByteOrder.little.word ((hdr.drop 9).take 4) ≠ 0 then some (.error .einval)
      else do
        match ← mtdFindRootfsFrom mtd mtd.erasesize mtd.size with
        | .error err => return .error err
        | .ok rootfsOffset => return .ok (cutAt mtd rootfsOffset)

/-- `SEAMA_MAGIC`. -/
def seamaMagic : Nat := 0x5EA3A417

/-- `SEAMA_MIN_ROOTFS_OFFS`. -/
def seamaMinRootfsOffs : Nat := 0x80000

/-- `sizeof(struct seama_header)`. -/
def seamaHeaderLen : Nat := 12

/-- `mtdsplit_parse_seama`. -/
def mtdsplitParseSeama (mtd : MtdInfo) : Option (Except Errno (List MtdPartition)) :=
  match mtdRead mtd 0 seamaHeaderLen with
  | .error err => some (.error err)
  | .ok hdr =>
      if be32 hdr 0 ≠ seamaMagic then some (.error .einval)
      else
        let kernelSize :=
          (seamaHeaderLen + be32 hdr 8 + number ((hdr.drop 6).take 2)) % 2 ^ 32
        if mtd.size < kernelSize then some (.error .einval)
        else
          match mtdCheckRootfsMagic mtd kernelSize with
          | .ok () => some (.ok (cutAt mtd kernelSize))
          | .error _ => do
              match ← mtdFindRootfsFrom mtd seamaMinRootfsOffs mtd.size with
              | .error err => return .error err
              | .ok rootfsOffset => return .ok (cutAt mtd rootfsOffset)

/-- The parsers. -/
inductive Parser where
  | uimageGeneric
  | uimageNetgear
  | lzma
  | seama
  deriving DecidableEq, Repr

/-- How a uImage parser verifies a header. -/
def Parser.verify? : Parser → Option (List UInt8 → Bool)
  | .uimageGeneric => some uimageVerifyDefault
  | .uimageNetgear => some uimageVerifyWndr3700
  | .lzma => none
  | .seama => none

/-- The `parse_fn` of a parser. -/
def Parser.parse (parser : Parser) (mtd : MtdInfo) : Option (Except Errno (List MtdPartition)) :=
  match parser with
  | .uimageGeneric => mtdsplitParseUimage mtd uimageVerifyDefault
  | .uimageNetgear => mtdsplitParseUimage mtd uimageVerifyWndr3700
  | .lzma => mtdsplitParseLzma mtd
  | .seama => mtdsplitParseSeama mtd

end Trunk.Mtdsplit
