import Mathlib.Algebra.Order.Group.Unbundled.Int
import Trunk.Foundation.Memory
import Trunk.Foundation.Network

/-! # SEAMA headers

The model of `seama_fix_md5`. The header is in front of the digest, the metadata and the image. An
access outside the buffer has no result. MD5 is a parameter, as is the number of the bits of a
`size_t`.
-/

namespace Trunk.Mtd.Seama

open Memory Network

/-- `SEAMA_MAGIC`. -/
def seamaMagic : Nat := 0x5EA3A417

/-- `sizeof(struct seama_hdr)`. -/
def sizeofSeamaHdr : Nat := 12

/-- `sizeof(digest)`. -/
def sizeofDigest : Nat := 16

/-- A field of the header, the highest byte first. -/
def field (buf : List UInt8) (place length : Nat) : Option Nat :=
  (load buf place length).map number

variable (width : Nat) (md5 : List UInt8 → Vector UInt8 16)

/-- The end of `seama_fix_md5`, of a header with these sizes: the image is hashed, and its size and
its digest are written. -/
def updateHeader (buf : List UInt8) (isize msize : Nat) : Option (Int × List UInt8) := do
  -- the subtraction wraps around
  let len := (buf.length + 2 ^ width - (sizeofSeamaHdr + sizeofDigest + msize)) % 2 ^ width
  let isize := if isize > len then len else isize
  let data ← load buf (sizeofSeamaHdr + sizeofDigest + msize) isize
  let digest := (md5 data).toList
  let old ← load buf sizeofSeamaHdr sizeofDigest
  if digest = old then return (-1, buf)
  let buf ← store buf 8 (bytes 4 isize)
  let buf ← store buf sizeofSeamaHdr digest
  return (0, buf)

/-- `seama_fix_md5`: what it returns, and the buffer it leaves. -/
def seamaFixMd5 (buf : List UInt8) : Option (Int × List UInt8) :=
  if buf.length < sizeofSeamaHdr then some (-1, buf)
  else do
    let magic ← field buf 0 4
    if magic ≠ seamaMagic then return (-1, buf)
    let isize ← field buf 8 4
    let msize ← field buf 6 2
    if isize = 0 then return (-1, buf)
    updateHeader width md5 buf isize msize

/-! ## The fields of a buffer -/

/-- The bytes of a buffer with a header. -/
def range (buf : List UInt8) (place length : Nat) : List UInt8 := (buf.drop place).take length

/-- `shdr->magic`. -/
def magicOf (buf : List UInt8) : Nat := number (range buf 0 4)

/-- `shdr->metasize`. -/
def metasizeOf (buf : List UInt8) : Nat := number (range buf 6 2)

/-- `shdr->size`. -/
def sizeOf (buf : List UInt8) : Nat := number (range buf 8 4)

/-- The place of the image, behind the header, the digest and the metadata. -/
def imageStart (buf : List UInt8) : Nat := sizeofSeamaHdr + sizeofDigest + metasizeOf buf

/-- What is left of a size where the buffer ends. -/
def boundedSize (buf : List UInt8) : Nat := min (sizeOf buf) (buf.length - imageStart buf)

/-- The bytes that are hashed. -/
def image (buf : List UInt8) : List UInt8 := range buf (imageStart buf) (boundedSize buf)

/-- A buffer with another size and another digest. -/
def rewritten (buf : List UInt8) (size : Nat) (digest : Vector UInt8 16) : List UInt8 :=
  buf.take 8 ++ bytes 4 size ++ digest.toList ++ buf.drop 28

section Fields

variable {width : Nat} {md5 : List UInt8 → Vector UInt8 16} {buf : List UInt8}

theorem load_range {place length : Nat} (inside : place + length ≤ buf.length) :
    load buf place length = some (range buf place length) :=
  load_eq_some_iff.mpr ⟨inside, rfl⟩

theorem field_range {place length : Nat} (inside : place + length ≤ buf.length) :
    field buf place length = some (number (range buf place length)) := by
  rw [field, load_range inside]
  rfl

theorem range_length {place length : Nat} (inside : place + length ≤ buf.length) :
    (range buf place length).length = length := by
  rw [range, List.length_take, List.length_drop]
  omega

theorem metasizeOf_lt (long : 12 ≤ buf.length) : metasizeOf buf < 2 ^ 16 := by
  have bound := number_lt (range buf 6 2)
  rw [range_length (by omega)] at bound
  exact bound

theorem sizeOf_lt (long : 12 ≤ buf.length) : sizeOf buf < 2 ^ 32 := by
  have bound := number_lt (range buf 8 4)
  rw [range_length (by omega)] at bound
  exact bound

/-- The fields are read from a buffer that is as long as a header. -/
theorem seamaFixMd5_eq (long : 12 ≤ buf.length) :
    seamaFixMd5 width md5 buf =
      if magicOf buf ≠ seamaMagic then some (-1, buf)
      else if sizeOf buf = 0 then some (-1, buf)
      else updateHeader width md5 buf (sizeOf buf) (metasizeOf buf) := by
  rw [seamaFixMd5, if_neg (by rw [sizeofSeamaHdr]; omega), field_range (by omega),
    field_range (by omega), field_range (by omega)]
  rfl

/-- Without a header or without a checksum nothing is done. -/
theorem seamaFixMd5_without (long : 12 ≤ buf.length)
    (without : magicOf buf ≠ seamaMagic ∨ sizeOf buf = 0) :
    seamaFixMd5 width md5 buf = some (-1, buf) := by
  rw [seamaFixMd5_eq long]
  rcases without with header | none
  · rw [if_pos header]
  · rw [if_pos none, ite_self]

/-- Where the header does not leave room for an image, the hash goes over bytes that are not in the
buffer: the size that is left wraps around. -/
theorem updateHeader_outside {size msize : Nat} (wide : 32 ≤ width)
    (short : buf.length < 28 + msize) (some' : 0 < size) (msize_lt : msize < 2 ^ 16) :
    updateHeader width md5 buf size msize = none := by
  have range : 2 ^ 32 ≤ 2 ^ width := Nat.pow_le_pow_right (by decide) wide
  have len : (buf.length + 2 ^ width - (sizeofSeamaHdr + sizeofDigest + msize)) % 2 ^ width =
      buf.length + 2 ^ width - (28 + msize) := by
    rw [sizeofSeamaHdr, sizeofDigest]
    exact Nat.mod_eq_of_lt (by omega)
  have outside : ∀ count, 0 < count →
      load buf (sizeofSeamaHdr + sizeofDigest + msize) count = none := by
    intro count pos
    refine Option.eq_none_iff_forall_ne_some.mpr fun data loaded => ?_
    obtain ⟨inside, -⟩ := load_eq_some_iff.mp loaded
    rw [sizeofSeamaHdr, sizeofDigest] at inside
    omega
  rw [updateHeader, len]
  dsimp only
  rw [outside]
  · rfl
  · split <;> omega

/-- The size and the digest are written one behind the other. -/
theorem store_rewritten (long : 28 ≤ buf.length) (size : Nat) (digest : Vector UInt8 16) :
    ((store buf 8 (bytes 4 size)).bind fun buf =>
      (store buf sizeofSeamaHdr digest.toList).bind fun buf => some ((0 : Int), buf)) =
      some (0, rewritten buf size digest) := by
  have four : (bytes 4 size).length = 4 := length_bytes 4 size
  have sixteen : digest.toList.length = 16 := Vector.length_toList
  obtain ⟨buf1, one⟩ := store_isSome (by omega : 8 + (bytes 4 size).length ≤ buf.length)
  have same := store_length one
  obtain ⟨buf2, two⟩ := store_isSome
    (by omega : 8 + (bytes 4 size).length + digest.toList.length ≤ buf1.length)
  obtain ⟨-, rfl⟩ := store_eq_some_iff.mp (store_consecutive one two)
  rw [four] at two
  rw [one, Option.bind_some]
  change (store buf1 (8 + 4) digest.toList).bind _ = _
  rw [two, rewritten, List.length_append, four, sixteen]
  simp only [Option.bind_some, List.append_assoc]

/-- Where it does, the image is hashed as far as the buffer goes. -/
theorem updateHeader_inside (long : buf.length < 2 ^ width) (room : imageStart buf ≤ buf.length) :
    updateHeader width md5 buf (sizeOf buf) (metasizeOf buf) =
      some (if (md5 (image buf)).toList = range buf 12 16 then (-1, buf)
        else (0, rewritten buf (boundedSize buf) (md5 (image buf)))) := by
  have room' := room
  rw [imageStart, sizeofSeamaHdr, sizeofDigest] at room'
  have len : (buf.length + 2 ^ width - (sizeofSeamaHdr + sizeofDigest + metasizeOf buf)) %
      2 ^ width = buf.length - imageStart buf := by
    rw [imageStart] at room ⊢
    rw [Nat.add_comm, Nat.add_sub_assoc room, Nat.add_mod_left, Nat.mod_eq_of_lt (by omega)]
  have isize : (if sizeOf buf > buf.length - imageStart buf then buf.length - imageStart buf
      else sizeOf buf) = boundedSize buf := by
    rw [boundedSize]
    split <;> omega
  have data : load buf (sizeofSeamaHdr + sizeofDigest + metasizeOf buf) (boundedSize buf) =
      some (image buf) := by
    refine load_range ?_
    change imageStart buf + boundedSize buf ≤ buf.length
    rw [boundedSize]
    omega
  have old : load buf sizeofSeamaHdr sizeofDigest = some (range buf 12 16) := load_range (by
    rw [sizeofSeamaHdr, sizeofDigest]
    omega)
  rw [updateHeader, len]
  dsimp only
  rw [isize, data]
  change (load buf sizeofSeamaHdr sizeofDigest).bind _ = _
  rw [old, Option.bind_some]
  split
  · rfl
  · exact store_rewritten (by omega) _ _

end Fields

/-! ## What a call leaves -/

section Rewritten

variable {width : Nat} {md5 : List UInt8 → Vector UInt8 16} {buf : List UInt8} {size : Nat}
  {digest : Vector UInt8 16}

theorem rewritten_length (long : 28 ≤ buf.length) :
    (rewritten buf size digest).length = buf.length := by
  rw [rewritten, List.length_append, List.length_append, List.length_append, List.length_take,
    length_bytes, List.length_drop, Vector.length_toList]
  omega

/-- The bytes in front of the size stay. -/
theorem rewritten_take (long : 28 ≤ buf.length) : (rewritten buf size digest).take 8 = buf.take 8 := by
  rw [rewritten, List.append_assoc, List.append_assoc,
    List.take_left' (by rw [List.length_take]; omega)]

/-- The bytes behind the digest stay. -/
theorem rewritten_drop (long : 28 ≤ buf.length) :
    (rewritten buf size digest).drop 28 = buf.drop 28 := by
  have front : (buf.take 8 ++ bytes 4 size ++ digest.toList).length = 28 := by
    rw [List.length_append, List.length_append, List.length_take, length_bytes,
      Vector.length_toList]
    omega
  rw [rewritten, List.drop_left' front]

theorem range_take {other : List UInt8} {place length : Nat} (inside : place + length ≤ 8)
    (same : other.take 8 = buf.take 8) : range other place length = range buf place length := by
  have cut : ∀ list : List UInt8, range list place length = range (list.take 8) place length := by
    intro list
    rw [range, range, List.drop_take, List.take_take, Nat.min_eq_left (by omega)]
  rw [cut, same, ← cut]

theorem range_drop {other : List UInt8} {place length : Nat} (behind : 28 ≤ place)
    (same : other.drop 28 = buf.drop 28) : range other place length = range buf place length := by
  obtain ⟨more, rfl⟩ := Nat.exists_eq_add_of_le behind
  rw [range, range, ← List.drop_drop, same, List.drop_drop]

theorem magicOf_rewritten (long : 28 ≤ buf.length) :
    magicOf (rewritten buf size digest) = magicOf buf := by
  rw [magicOf, magicOf, range_take (by decide) (rewritten_take long)]

theorem metasizeOf_rewritten (long : 28 ≤ buf.length) :
    metasizeOf (rewritten buf size digest) = metasizeOf buf := by
  rw [metasizeOf, metasizeOf, range_take (by decide) (rewritten_take long)]

theorem sizeOf_rewritten (long : 28 ≤ buf.length) (small : size < 2 ^ 32) :
    sizeOf (rewritten buf size digest) = size := by
  have front : (buf.take 8).length = 8 := by
    rw [List.length_take]
    omega
  have written : range (rewritten buf size digest) 8 4 = bytes 4 size := by
    rw [range, rewritten, List.append_assoc, List.append_assoc, List.drop_left' front,
      List.take_left' (length_bytes 4 size)]
  rw [sizeOf, written, number_bytes, Nat.mod_eq_of_lt small]

theorem digest_rewritten (long : 28 ≤ buf.length) :
    range (rewritten buf size digest) 12 16 = digest.toList := by
  have front : (buf.take 8 ++ bytes 4 size).length = 12 := by
    rw [List.length_append, List.length_take, length_bytes]
    omega
  rw [range, rewritten, List.append_assoc, List.drop_left' front,
    List.take_left' Vector.length_toList]

end Rewritten

/-- What is asked of a buffer that was changed: the size goes to the end of the buffer at most, the
digest is that of the image, and no other byte has changed. -/
structure Updated (buf after : List UInt8) : Prop where
  length : after.length = buf.length
  size : (sizeOf after : Int) = min (sizeOf buf : Int) (buf.length - 28 - metasizeOf buf)
  inside : 28 + metasizeOf buf + sizeOf after ≤ buf.length
  digest : range after 12 16 = (md5 (range after (28 + metasizeOf buf) (sizeOf after))).toList
  frame : ∀ place, place < 8 ∨ 28 ≤ place → after[place]? = buf[place]?

/-- What is asked of a call: all accesses are in the buffer, a failure changes nothing, and behind a
success a second call fails. -/
def Fixes (buf : List UInt8) : Prop :=
  ∃ result after, seamaFixMd5 width md5 buf = some (result, after) ∧
    (result = -1 ∧ after = buf ∨
      result = 0 ∧ Updated md5 buf after ∧ seamaFixMd5 width md5 after = some (-1, after))

section Fixing

variable {width : Nat} {md5 : List UInt8 → Vector UInt8 16} {buf : List UInt8}

theorem updated_rewritten (room : imageStart buf ≤ buf.length) :
    Updated md5 buf (rewritten buf (boundedSize buf) (md5 (image buf))) := by
  have room' := room
  rw [imageStart, sizeofSeamaHdr, sizeofDigest] at room'
  have long : 28 ≤ buf.length := by omega
  have small : boundedSize buf < 2 ^ 32 :=
    Nat.lt_of_le_of_lt (Nat.min_le_left _ _) (sizeOf_lt (by omega))
  have bounded : boundedSize buf = min (sizeOf buf) (buf.length - (28 + metasizeOf buf)) := rfl
  constructor
  · exact rewritten_length long
  · rw [sizeOf_rewritten long small, bounded]
    omega
  · rw [sizeOf_rewritten long small, bounded]
    omega
  · rw [digest_rewritten long, sizeOf_rewritten long small,
      range_drop (by omega) (rewritten_drop long)]
    rfl
  · rintro place (before | behind)
    · rw [← List.getElem?_take_of_lt before, rewritten_take long, List.getElem?_take_of_lt before]
    · obtain ⟨more, rfl⟩ := Nat.exists_eq_add_of_le behind
      rw [← List.getElem?_drop, rewritten_drop long, List.getElem?_drop]

/-- A header that was rewritten is fixed already. -/
theorem seamaFixMd5_rewritten (fits : buf.length < 2 ^ width)
    (room : imageStart buf ≤ buf.length) :
    seamaFixMd5 width md5 (rewritten buf (boundedSize buf) (md5 (image buf))) =
      some (-1, rewritten buf (boundedSize buf) (md5 (image buf))) := by
  have room' := room
  rw [imageStart, sizeofSeamaHdr, sizeofDigest] at room'
  have long : 28 ≤ buf.length := by omega
  have small : boundedSize buf < 2 ^ 32 :=
    Nat.lt_of_le_of_lt (Nat.min_le_left _ _) (sizeOf_lt (by omega))
  generalize after_eq : rewritten buf (boundedSize buf) (md5 (image buf)) = after
  have length : after.length = buf.length := by rw [← after_eq, rewritten_length long]
  have size : sizeOf after = boundedSize buf := by rw [← after_eq, sizeOf_rewritten long small]
  have start : imageStart after = imageStart buf := by
    rw [imageStart, imageStart, ← after_eq, metasizeOf_rewritten long]
  have bounded : boundedSize after = boundedSize buf := by
    rw [boundedSize, size, start, length, boundedSize, Nat.min_assoc, Nat.min_self]
  have same : image after = image buf := by
    rw [image, image, start, bounded, ← after_eq,
      range_drop (by rw [imageStart, sizeofSeamaHdr, sizeofDigest]; omega) (rewritten_drop long)]
  rw [seamaFixMd5_eq (by omega)]
  split
  · rfl
  · split
    · rfl
    · rw [updateHeader_inside (by omega) (by omega), same,
        if_pos (by rw [← after_eq, digest_rewritten long])]

/-- A call does what is asked exactly if there is no header, no checksum, or room for the header,
the digest and the metadata. -/
theorem seamaFixMd5_fixes_iff (long : 12 ≤ buf.length) (wide : 32 ≤ width)
    (fits : buf.length < 2 ^ width) :
    Fixes width md5 buf ↔
      magicOf buf ≠ seamaMagic ∨ sizeOf buf = 0 ∨ 28 + metasizeOf buf ≤ buf.length := by
  constructor
  · rintro ⟨result, after, ran, -⟩
    by_contra! bad
    obtain ⟨header, some', short⟩ := bad
    rw [seamaFixMd5_eq long, if_neg (not_not_intro header), if_neg some',
      updateHeader_outside wide short (Nat.pos_of_ne_zero some') (metasizeOf_lt long)] at ran
    cases ran
  · intro good
    by_cases without : magicOf buf ≠ seamaMagic ∨ sizeOf buf = 0
    · exact ⟨-1, buf, seamaFixMd5_without long without, .inl ⟨rfl, rfl⟩⟩
    · rw [not_or, not_not] at without
      obtain ⟨header, some'⟩ := without
      have room : imageStart buf ≤ buf.length :=
        (good.resolve_left (not_not_intro header)).resolve_left some'
      have ran : seamaFixMd5 width md5 buf = _ := seamaFixMd5_eq long
      rw [if_neg (not_not_intro header), if_neg some', updateHeader_inside fits room] at ran
      by_cases same : (md5 (image buf)).toList = range buf 12 16
      · rw [if_pos same] at ran
        exact ⟨-1, buf, ran, .inl ⟨rfl, rfl⟩⟩
      · rw [if_neg same] at ran
        exact ⟨0, _, ran, .inr ⟨rfl, updated_rewritten room, seamaFixMd5_rewritten fits room⟩⟩

/-- A buffer without a header is left as it is. -/
theorem seamaFixMd5_fixes_iff_erased :
    Fixes 32 (fun _ => Vector.replicate 16 0) (List.replicate 32 0xff) ↔
      magicOf (List.replicate 32 0xff) ≠ seamaMagic ∨ sizeOf (List.replicate 32 0xff) = 0 ∨
        28 + metasizeOf (List.replicate 32 0xff) ≤ (List.replicate 32 (0xff : UInt8)).length :=
  seamaFixMd5_fixes_iff (by decide) (by decide) (by decide)

/-- A header in a buffer of 28 bytes with one byte of metadata and one of an image. -/
def shortHeader : List UInt8 :=
  [0x5E, 0xA3, 0xA4, 0x17, 0, 0, 0, 1, 0, 0, 0, 1] ++ List.replicate 16 0

/-- The byte behind the metadata is hashed, which is not in the buffer. -/
theorem seamaFixMd5_reads_outside :
    ¬∀ (width : Nat) (md5 : List UInt8 → Vector UInt8 16) (buf : List UInt8), 12 ≤ buf.length →
      32 ≤ width → buf.length < 2 ^ width → Fixes width md5 buf := by
  intro claimed
  obtain ⟨result, after, ran, -⟩ := claimed 32 (fun _ => Vector.replicate 16 0) shortHeader
    (by decide) (by decide) (by decide)
  have header : magicOf shortHeader = seamaMagic := by decide
  have some' : sizeOf shortHeader ≠ 0 := by decide
  rw [seamaFixMd5_eq (by decide), if_neg (not_not_intro header), if_neg some',
    updateHeader_outside (by decide) (by decide) (by decide) (by decide)] at ran
  cases ran

end Fixing

end Trunk.Mtd.Seama
