import Mathlib.Data.Nat.Bitwise
import Trunk.Nvram.Loss

/-! # The image that a commit leaves

On a little-endian machine a commit writes inside the area of its image, the length and the text
are as `nvram_open` and `nvram info` expect them, and the checksum is the one that `do_info`
computes (`Trunk.Nvram.SelfConsistent`). The exception is the padding: `(int)ptr % 4` is negative
in the upper half of the address space, and there the padding is a word too long. It leaves the
area exactly if the text ends in the last word (`Trunk.Nvram.selfConsistent_iff`).
-/

namespace Trunk.Nvram

open CString Memory

variable {endian : Endian} {address : UInt32} {h : Handle} {image : List UInt8}

/-- `NVRAM_CRC_START_POSITION`. -/
def crcStartPosition : Nat := 9

/-- `do_info`: the checksum that it computes. -/
def doInfo (endian : Endian) (h : Handle) : Option UInt8 := do
  let header := nvramHeader endian h
  let data ← load h.mmap (h.offset + crcStartPosition)
    (header.len - UInt32.ofNat crcStartPosition).toNat
  return hndcrc8 data 0xff

/-- The handle with the area of its image alone, outside of which nothing can be accessed. -/
def Handle.alone (h : Handle) : Handle :=
  { h with mmap := (h.mmap.drop h.offset).take nvramSpace, offset := 0 }

/-- What a finished image has. -/
structure Finished (h : Handle) (image : List UInt8) : Prop where
  len_dvd : 4 ∣ (nvramHeader .little { h with mmap := image }).len.toNat
  le_len : 24 ≤ (nvramHeader .little { h with mmap := image }).len.toNat
  len_le : (nvramHeader .little { h with mmap := image }).len.toNat ≤ nvramSpace
  text : ∃ (strings : List CStr) (rest : List UInt8), (∀ string ∈ strings, string.bytes ≠ []) ∧
    load image (h.offset + headerSize)
        ((nvramHeader .little { h with mmap := image }).len.toNat - headerSize) =
      some (strings.flatMap (fun string => string.bytes ++ [0]) ++ 0 :: rest)
  crc : doInfo .little { h with mmap := image } =
    some (UInt8.ofNat ((nvramHeader .little { h with mmap := image }).crcVerInit &&& 0xff).toNat)

/-- A commit never leaves the area of its image, and what it writes there is finished. -/
def SelfConsistent (address : UInt32) (h : Handle) : Prop :=
  ∃ area image, commitImage .little (address + UInt32.ofNat h.offset) h.alone = some area ∧
    commitImage .little address h = some image ∧
    image = h.mmap.take h.offset ++ area ++ h.mmap.drop (h.offset + nvramSpace) ∧
    Finished h image

/-- The space that the variables of a chain take behind others, up to the first one for which no
space is left. -/
def packChain : Nat → List Tuple → Nat
  | used, [] => used
  | used, t :: chain =>
      if headerSize + used + (t.name.bytes.length + t.value.bytes.length + 2) > nvramSpace - 2 then
        used
      else packChain (used + (t.name.bytes.length + t.value.bytes.length + 2)) chain

/-- The space that the variables of a table take. -/
def packed (h : Handle) : Nat :=
  (List.finRange 257).foldl (fun used slot => packChain used (h.nvramHash slot)) 0

theorem length_writeChain (text : List UInt8) (chain : List Tuple) :
    (writeChain text chain).length = packChain text.length chain := by
  induction chain generalizing text with
  | nil => rfl
  | cons t chain ih =>
      rw [writeChain, packChain, Tuple.length_text]
      split
      · rfl
      · rw [ih, List.length_append, Tuple.length_text]

theorem length_writeTuples (h : Handle) : (writeTuples h).length = packed h := by
  have buckets : ∀ (slots : List (Fin 257)) (text : List UInt8),
      (slots.foldl (fun text slot => writeChain text (h.nvramHash slot)) text).length =
        slots.foldl (fun used slot => packChain used (h.nvramHash slot)) text.length := by
    intro slots
    induction slots with
    | nil => exact fun _ => rfl
    | cons slot slots ih =>
        intro text
        rw [List.foldl_cons, List.foldl_cons, ih, length_writeChain]
  exact buckets _ []

/-- The padding is a word too long in the upper half of the address space. -/
theorem padding_upper {ptr : UInt32} (upper : 2 ^ 31 ≤ ptr.toNat) :
    padding ptr = if ptr.toNat % 4 = 0 then 0 else 8 - ptr.toNat % 4 := by
  have bound := ptr.toNat_lt
  have negative : ptr.toInt32.toInt = -((2 ^ 32 - ptr.toNat : Nat) : Int) := by
    rw [← Int32.toInt_toBitVec, UInt32.toBitVec_toInt32, BitVec.toInt_eq_toNat_cond,
      UInt32.toNat_toBitVec, if_neg (by omega)]
    omega
  rw [padding, negative, Int.neg_tmod, Int.tmod_eq_emod_of_nonneg (Int.natCast_nonneg _)]
  split <;> split <;> omega

/-- The header of an image with the text that follows it. -/
def finalHeader (endian : Endian) (h : Handle) (data : List UInt8) : Header :=
  { regenerate h with
    len := UInt32.ofNat (roundup (headerSize + (writeTuples h).length + 2))
    crcVerInit := (regenerate h).crcVerInit |||
      (hndcrc8 data (hndcrc8 ((Header.bytes endian { regenerate h with magic := 0 }).drop 9)
        0xff)).toUInt32 }

/-- What a commit leaves of the header and of the text behind it. -/
theorem commitImage_sealed (made : commitImage endian address h = some image) :
    ∃ data, load image (h.offset + headerSize)
        (roundup (headerSize + (writeTuples h).length + 2) - headerSize) = some data ∧
      load image h.offset headerSize = some ((finalHeader endian h data).bytes endian) := by
  unfold commitImage at made
  simp only [Option.bind_eq_bind, Option.bind_eq_some_iff] at made
  obtain ⟨cleared, clear, written, write, padded, pad, data, read, final⟩ := made
  refine ⟨data, ?_, ?_⟩
  · rw [load_store_disjoint final (.inr (by rw [Header.length_bytes])), read]
  · have header := load_store_self final
    rw [Header.length_bytes] at header
    exact header

/-- The padding stays inside the mapping. -/
theorem commitImage_padding (made : commitImage endian address h = some image) :
    h.offset + headerSize + (writeTuples h).length + 1 +
      padding (address + UInt32.ofNat (h.offset + headerSize + (writeTuples h).length + 1)) ≤
        h.mmap.length := by
  unfold commitImage at made
  simp only [Option.bind_eq_bind, Option.bind_eq_some_iff] at made
  obtain ⟨cleared, clear, written, write, padded, pad, -⟩ := made
  have inside := (store_eq_some_iff.mp pad).1
  rw [List.length_replicate, store_length write, store_length clear] at inside
  exact inside

/-- The header is read from the mapping as it was written. -/
theorem nvramHeader_of_load {header : Header}
    (loaded : load h.mmap h.offset headerSize = some (header.bytes endian)) :
    nvramHeader endian h = header := by
  have whole := (load_eq_some_iff.mp loaded).2
  have word : ∀ index < 5, (h.mmap.drop (h.offset + 4 * index)).take 4 =
      ((header.bytes endian).drop (4 * index)).take 4 := by
    intro index few
    have header : headerSize = 20 := rfl
    rw [← whole, List.drop_take, List.drop_drop, List.take_take, Nat.min_eq_left (by omega)]
  have length := endian.length_bytes
  unfold nvramHeader
  simp only [word 0 (by decide), word 1 (by decide), word 2 (by decide), word 3 (by decide),
    word 4 (by decide)]
  simp only [Header.bytes, List.append_assoc, Nat.mul_zero, List.drop_zero,
    List.take_left' (length _), Endian.word_bytes]
  have skip : ∀ (words : List UInt32) (rest : List UInt8),
      (words.flatMap endian.bytes ++ rest).drop (4 * words.length) = rest := by
    intro words rest
    refine List.drop_left' ?_
    simp only [List.length_flatMap, length]
    rw [List.map_const', List.sum_replicate_nat, Nat.mul_comm]
  have one := skip [header.magic]
  have two := skip [header.magic, header.len]
  have three := skip [header.magic, header.len, header.crcVerInit]
  have four := skip [header.magic, header.len, header.crcVerInit, header.configRefresh]
  simp only [List.flatMap_cons, List.flatMap_nil, List.append_nil, List.append_assoc,
    List.length_cons, List.length_nil, Nat.zero_add] at one two three four
  rw [one, two, three, four, List.take_left' (length _), List.take_left' (length _),
    List.take_left' (length _), List.take_of_length_le (Nat.le_of_eq (length _))]
  simp only [Endian.word_bytes]

/-- The low byte of a word does not reach the bytes above it. -/
theorem or_byte_div (word : UInt32) (byte : UInt8) :
    (word ||| byte.toUInt32).toNat / 2 ^ 8 = word.toNat / 2 ^ 8 := by
  have small : byte.toNat >>> 8 = 0 := by
    rw [Nat.shiftRight_eq_div_pow]
    exact Nat.div_eq_of_lt byte.toNat_lt
  rw [UInt32.toNat_or, UInt8.toNat_toUInt32, ← Nat.shiftRight_eq_div_pow,
    Nat.shiftRight_or_distrib, small, Nat.or_zero, Nat.shiftRight_eq_div_pow]

theorem wordBytes_or_byte (word : UInt32) (byte : UInt8) :
    (wordBytes (word ||| byte.toUInt32)).drop 1 = (wordBytes word).drop 1 := by
  have above : ∀ number : Nat, number / 2 ^ 16 = number / 2 ^ 8 / 2 ^ 8 ∧
      number / 2 ^ 24 = number / 2 ^ 8 / 2 ^ 16 := by
    intro number
    omega
  simp only [wordBytes, List.drop_succ_cons, List.drop_zero, (above _).1, (above _).2, or_byte_div]

theorem or_byte_and (word : UInt32) (byte : UInt8) (clear : word.toNat % 2 ^ 8 = 0) :
    UInt8.ofNat ((word ||| byte.toUInt32) &&& 0xff).toNat = byte := by
  have mask : (0xff : UInt32).toNat = 2 ^ 8 - 1 := rfl
  rw [UInt32.toNat_and, mask, Nat.and_two_pow_sub_one_eq_mod, UInt32.toNat_or,
    UInt8.toNat_toUInt32, Nat.or_mod_two_pow, clear, Nat.zero_or, Nat.mod_eq_of_lt byte.toNat_lt]
  exact UInt8.ofNat_toNat

theorem shiftLeft_clear (word : UInt32) {shift : UInt32} (high : 8 ≤ shift.toNat)
    (few : shift.toNat < 32) : (word <<< shift).toNat % 2 ^ 8 = 0 := by
  rw [UInt32.toNat_shiftLeft, Nat.mod_eq_of_lt few, Nat.shiftLeft_eq,
    Nat.mod_mod_of_dvd _ (Nat.pow_dvd_pow 2 (by decide))]
  obtain ⟨more, split⟩ := Nat.exists_eq_add_of_le high
  rw [split, Nat.pow_add, Nat.mul_left_comm]
  exact Nat.mul_mod_right _ _

/-- The byte of the checksum is clear before the checksum is set. -/
theorem regenerate_clear (h : Handle) : (regenerate h).crcVerInit.toNat % 2 ^ 8 = 0 := by
  unfold regenerate
  split
  · rw [UInt32.toNat_or, Nat.or_mod_two_pow, shiftLeft_clear _ (by decide) (by decide),
      shiftLeft_clear _ (by decide) (by decide)]
    rfl
  · rw [UInt32.toNat_or, Nat.or_mod_two_pow, shiftLeft_clear _ (by decide) (by decide),
      shiftLeft_clear _ (by decide) (by decide)]
    rfl

/-- The checked part of a header is the words behind the byte of the checksum. -/
theorem drop_bytes (header : Header) :
    (header.bytes .little).drop crcStartPosition =
      (wordBytes header.crcVerInit).drop 1 ++ wordBytes header.configRefresh ++
        wordBytes header.configNcdl := rfl

/-- The header of a finished image is the one that was computed. -/
theorem nvramHeader_of_commit {data : List UInt8}
    (header : load image h.offset headerSize = some ((finalHeader endian h data).bytes endian)) :
    nvramHeader endian { h with mmap := image } = finalHeader endian h data :=
  nvramHeader_of_load (h := { h with mmap := image }) header

theorem finalHeader_len (endian : Endian) (h : Handle) (data : List UInt8) :
    (finalHeader endian h data).len.toNat = roundup (headerSize + (writeTuples h).length + 2) := by
  obtain ⟨-, -, -, bounded⟩ := writeTuples_kept h
  have space : nvramSpace = 0x8000 := rfl
  change (UInt32.ofNat _).toNat = _
  rw [UInt32.toNat_ofNat', Nat.mod_eq_of_lt]
  rw [roundup]
  omega

theorem roundup_bounds (h : Handle) :
    4 ∣ roundup (headerSize + (writeTuples h).length + 2) ∧
      headerSize + (writeTuples h).length + 2 ≤ roundup (headerSize + (writeTuples h).length + 2) ∧
      roundup (headerSize + (writeTuples h).length + 2) ≤ nvramSpace := by
  obtain ⟨-, -, -, bounded⟩ := writeTuples_kept h
  have space : nvramSpace = 0x8000 := rfl
  unfold roundup
  exact ⟨Nat.dvd_mul_left 4 _, by omega, by omega⟩

/-- The text that follows the header ends with an empty string. -/
theorem commitImage_text (made : commitImage endian address h = some image) {data : List UInt8}
    (read : load image (h.offset + headerSize)
      (roundup (headerSize + (writeTuples h).length + 2) - headerSize) = some data) :
    ∃ (strings : List CStr) (rest : List UInt8), (∀ string ∈ strings, string.bytes ≠ []) ∧
      data = strings.flatMap (fun string => string.bytes ++ [0]) ++ 0 :: rest := by
  obtain ⟨kept, -, text, -⟩ := writeTuples_kept h
  obtain ⟨-, above, -⟩ := roundup_bounds h
  have front := load_front read (show (writeTuples h ++ [0]).length ≤ _ by
    rw [List.length_append, List.length_singleton]
    omega)
  rw [(commitImage_written made).text] at front
  have strings : (kept.map Tuple.string).flatMap (fun string => string.bytes ++ [0]) =
      writeTuples h := by
    rw [text, List.flatMap_map]
    rfl
  have split := List.take_append_drop (writeTuples h ++ [0]).length data
  rw [← Option.some.inj front, List.append_assoc, List.singleton_append] at split
  refine ⟨kept.map Tuple.string, data.drop (writeTuples h ++ [0]).length, ?_, ?_⟩
  · intro string listed
    obtain ⟨t, -, rfl⟩ := List.mem_map.mp listed
    exact List.append_ne_nil_of_right_ne_nil _ (List.cons_ne_nil _ _)
  · rw [strings, split]

/-- The checksum of the writer, in two pieces, is that of the reader in one. -/
theorem hndcrc8_finalHeader (h : Handle) (data : List UInt8) :
    hndcrc8 (((finalHeader .little h data).bytes .little ++ data).drop crcStartPosition) 0xff =
      UInt8.ofNat ((finalHeader .little h data).crcVerInit &&& 0xff).toNat := by
  have checked : ((finalHeader .little h data).bytes .little).drop crcStartPosition =
      (Header.bytes .little { regenerate h with magic := 0 }).drop crcStartPosition := by
    rw [drop_bytes, drop_bytes, finalHeader, wordBytes_or_byte]
  rw [finalHeader, or_byte_and _ _ (regenerate_clear h), ← finalHeader,
    List.drop_append_of_le_length (by rw [Header.length_bytes]; decide), checked, hndcrc8,
    List.foldl_append]
  rfl

/-- The image that a commit leaves is finished. -/
theorem commitImage_finished (made : commitImage .little address h = some image) :
    Finished h image := by
  obtain ⟨data, read, sealed⟩ := commitImage_sealed made
  have header := nvramHeader_of_commit sealed
  have len := finalHeader_len .little h data
  obtain ⟨words, above, below⟩ := roundup_bounds h
  have size : headerSize = 20 := rfl
  have start : crcStartPosition = 9 := rfl
  have space : nvramSpace = 0x8000 := rfl
  refine ⟨?_, ?_, ?_, ?_, ?_⟩
  · rw [header, len]
    exact words
  · rw [header, len]
    omega
  · rw [header, len]
    exact below
  · rw [header, len, read]
    obtain ⟨strings, rest, nonempty, split⟩ := commitImage_text made read
    exact ⟨strings, rest, nonempty, congrArg some split⟩
  · have back := load_back (load_append sealed read) (show crcStartPosition ≤ _ by omega)
    have position : (UInt32.ofNat crcStartPosition).toNat = 9 := rfl
    have count : ((finalHeader .little h data).len - UInt32.ofNat crcStartPosition).toNat =
        headerSize + (roundup (headerSize + (writeTuples h).length + 2) - headerSize) -
          crcStartPosition := by
      rw [UInt32.toNat_sub_of_le _ _ (UInt32.le_iff_toNat_le.mpr (by omega)), len]
      omega
    rw [doInfo, header]
    dsimp only
    rw [count, back, ← hndcrc8_finalHeader]
    rfl

theorem alone_whole (h : Handle) :
    h.mmap = h.mmap.take h.offset ++ h.alone.mmap ++ h.mmap.drop (h.offset + nvramSpace) := by
  rw [Handle.alone, List.append_assoc, ← List.drop_drop, List.take_append_drop,
    List.take_append_drop]

theorem packed_alone (h : Handle) : packed h.alone = packed h := rfl

section Area

variable (inside : h.offset + nvramSpace ≤ h.mmap.length)

include inside

theorem length_alone : h.alone.mmap.length = nvramSpace := by
  simp only [Handle.alone, List.length_take, List.length_drop]
  omega

/-- A place in the area alone is the one behind the offset. -/
theorem alone_place (start : Nat) :
    (h.mmap.take h.offset).length + (h.alone.offset + start) = h.offset + start := by
  have offset : h.alone.offset = 0 := rfl
  rw [List.length_take]
  omega

/-- A commit that needs the area alone leaves the rest of the mapping as it is. -/
theorem commitImage_of_alone {area : List UInt8}
    (made : commitImage endian (address + UInt32.ofNat h.offset) h.alone = some area) :
    commitImage endian address h =
      some (h.mmap.take h.offset ++ area ++ h.mmap.drop (h.offset + nvramSpace)) := by
  unfold commitImage at made
  simp only [Option.bind_eq_bind, Option.bind_eq_some_iff] at made
  obtain ⟨cleared, clear, written, write, padded, pad, data, read, final⟩ := made
  have same : writeTuples h.alone = writeTuples h := rfl
  have same' : regenerate h.alone = regenerate h := rfl
  have offset : h.alone.offset = 0 := rfl
  have ptr : address + UInt32.ofNat h.offset +
      UInt32.ofNat (h.alone.offset + headerSize + (writeTuples h).length + 1) =
        address + UInt32.ofNat (h.offset + headerSize + (writeTuples h).length + 1) := by
    rw [UInt32.add_assoc, ← UInt32.ofNat_add, offset]
    exact congrArg (fun place => address + UInt32.ofNat place) (by omega)
  rw [same] at write pad read final
  rw [same'] at final
  rw [ptr] at pad
  have clear' := store_middle (h.mmap.take h.offset) (h.mmap.drop (h.offset + nvramSpace)) clear
  have write' := store_middle (h.mmap.take h.offset) (h.mmap.drop (h.offset + nvramSpace)) write
  have pad' := store_middle (h.mmap.take h.offset) (h.mmap.drop (h.offset + nvramSpace)) pad
  have read' := load_middle (h.mmap.take h.offset) (h.mmap.drop (h.offset + nvramSpace)) read
  have final' := store_middle (h.mmap.take h.offset) (h.mmap.drop (h.offset + nvramSpace)) final
  rw [← alone_whole, alone_place inside] at clear'
  rw [alone_place inside] at write' read'
  rw [Nat.add_assoc, Nat.add_assoc, alone_place inside, ← Nat.add_assoc, ← Nat.add_assoc] at pad'
  rw [← Nat.add_zero h.alone.offset, alone_place inside, Nat.add_zero] at final'
  simp only [commitImage, clear', write', pad', read', Option.bind_eq_bind, Option.bind_some]
  exact final'

end Area

/-- The padding stays in the area exactly if the address is low or a word is left. -/
theorem padding_fits {ptr : UInt32} {base used : Nat} (aligned : base % 4 = 0)
    (place : ptr.toNat = base + (headerSize + used + 1))
    (room : headerSize + used ≤ nvramSpace - 2) :
    headerSize + used + 1 + padding ptr ≤ nvramSpace ↔
      base + nvramSpace ≤ 2 ^ 31 ∨ headerSize + used + 1 ≤ nvramSpace - 4 := by
  have space : nvramSpace = 0x8000 := rfl
  by_cases lower : ptr.toNat < 2 ^ 31
  · rw [padding_eq lower]
    omega
  · rw [padding_upper (Nat.le_of_not_lt lower)]
    split <;> omega

/-- At every aligned address, and with any variables, a commit keeps to its area and leaves a
finished image exactly if the area is in the lower half of the address space or the text leaves
a word of the area. -/
theorem selfConsistent_iff {address : UInt32} {h : Handle}
    (aligned : (address.toNat + h.offset) % 4 = 0)
    (inside : h.offset + nvramSpace ≤ h.mmap.length)
    (mapped : address.toNat + h.mmap.length ≤ 2 ^ 32) :
    SelfConsistent address h ↔
      address.toNat + h.offset + nvramSpace ≤ 2 ^ 31 ∨
        headerSize + packed h + 1 ≤ nvramSpace - 4 := by
  obtain ⟨-, -, -, room⟩ := writeTuples_kept h
  have space : nvramSpace = 0x8000 := rfl
  have offset : h.alone.offset = 0 := rfl
  have ptr : (address + UInt32.ofNat h.offset + UInt32.ofNat (h.alone.offset + headerSize +
      (writeTuples h).length + 1)).toNat =
        address.toNat + h.offset + (headerSize + (writeTuples h).length + 1) := by
    rw [UInt32.toNat_add, UInt32.toNat_add, UInt32.toNat_ofNat', UInt32.toNat_ofNat']
    omega
  rw [← length_writeTuples, ← padding_fits aligned ptr room]
  constructor
  · rintro ⟨area, image, alone, -⟩
    have padded := commitImage_padding alone
    rw [length_alone inside, offset, Nat.zero_add] at padded
    rw [offset, Nat.zero_add]
    exact padded
  · intro padded
    have whole := length_alone inside
    obtain ⟨area, alone⟩ := @commitImage_isSome_of_padding .little
      (address + UInt32.ofNat h.offset) h.alone (by omega) room padded
    have made := commitImage_of_alone inside alone
    exact ⟨area, _, alone, made, rfl, commitImage_finished made⟩

/-- A handle with one variable, of a value of some length. -/
def oneVariable (length : Nat) : Handle where
  mmap := blank
  offset := 0
  nvramHash slot := if slot.val = 24 then [⟨literal "a", filler length⟩] else []
  nvramDead := []

theorem length_oneVariable (length : Nat) : (oneVariable length).mmap.length = nvramSpace :=
  length_blank

theorem packed_oneVariable {length : Nat} (fits : headerSize + (length + 3) ≤ nvramSpace - 2) :
    packed (oneVariable length) = length + 3 := by
  have name : (literal "a").bytes.length = 1 := by decide
  have empty : ∀ (slots : List (Fin 257)) (used : Nat), 24 ∉ slots →
      slots.foldl (fun used slot => packChain used ((oneVariable length).nvramHash slot)) used =
        used := by
    intro slots
    induction slots with
    | nil => exact fun _ _ => rfl
    | cons slot slots ih =>
        intro used absent
        rw [List.mem_cons, not_or] at absent
        have none : (oneVariable length).nvramHash slot = [] :=
          if_neg fun same => absent.1 (Fin.ext same.symm)
        rw [List.foldl_cons, none]
        exact ih used absent.2
  have here : (oneVariable length).nvramHash 24 = [⟨literal "a", filler length⟩] := by
    unfold oneVariable
    dsimp only
    rw [if_pos (by decide)]
  obtain ⟨first, second, split⟩ := List.append_of_mem (List.mem_finRange (24 : Fin 257))
  have unique := List.nodup_finRange 257
  rw [split, List.nodup_append, List.nodup_cons] at unique
  have before : (24 : Fin 257) ∉ first := fun member =>
    unique.2.2 24 member 24 (List.mem_cons_self ..) rfl
  have room : ¬ headerSize + 0 + (1 + length + 2) > nvramSpace - 2 := by omega
  rw [packed, split, List.foldl_append, empty first 0 before, List.foldl_cons,
    empty second _ unique.2.1.1, here]
  simp only [packChain, name, filler, List.length_replicate]
  rw [if_neg room]
  omega

/-- A short variable in the upper half of the address space. -/
theorem selfConsistent_short : SelfConsistent 0xb6f00000 (oneVariable 3) := by
  have offset : (oneVariable 3).offset = 0 := rfl
  refine (selfConsistent_iff (by decide) ?_ ?_).mpr (.inr ?_)
  · rw [length_oneVariable, offset, Nat.zero_add]
  · rw [length_oneVariable]
    decide
  · rw [packed_oneVariable (by decide)]
    decide

/-- A variable that ends with the area, in the upper half of the address space: the padding leaves
the area. -/
theorem not_selfConsistent_full : ¬ SelfConsistent 0xb6f00000 (oneVariable 32743) := by
  have offset : (oneVariable 32743).offset = 0 := rfl
  have alone : (oneVariable 32743).alone.offset = 0 := rfl
  have used : (writeTuples (oneVariable 32743).alone).length = 32746 := by
    rw [length_writeTuples, packed_alone, packed_oneVariable (by decide)]
  rintro ⟨area, image, made, -⟩
  have padded := commitImage_padding made
  rw [length_alone (by rw [length_oneVariable, offset, Nat.zero_add]), used, alone, offset] at padded
  exact absurd padded (by decide +kernel)

end Trunk.Nvram
