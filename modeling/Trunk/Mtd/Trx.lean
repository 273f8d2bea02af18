import Trunk.Foundation.Memory
import Trunk.Mtd.Header
import Trunk.Utils.Crc32

/-! # TRX headers

The model of `mtd_fixtrx` of `trx.c`, for a device that can be opened, with a `size_t` of `width`
bits. The fields of the header are little-endian. What is left behind is a header for the rest of its
erase block, exactly if the length in it was not that of the rest, or its CRC was right
(`Trunk.Mtd.Trx.mtdFixtrx_fixes_iff`).
-/

namespace Trunk.Mtd.Trx

open Crc32 Flash Memory Network

/-- `TRX_MAGIC`. -/
def trxMagic : UInt32 := 0x30524448

/-- `STORE32_LE`. -/
def store32Le : ByteOrder → UInt32 → UInt32
  | .big, x =>
      ((x &&& 0x000000FF) <<< 24) ||| ((x &&& 0x0000FF00) <<< 8) ||| ((x &&& 0x00FF0000) >>> 8) |||
        ((x &&& 0xFF000000) >>> 24)
  | .little, x => x

/-- `crc32buf`. -/
def crc32buf (buf : List UInt8) : UInt32 := crc32 0xFFFFFFFF buf

variable (order : ByteOrder)

/-- A field of the header. -/
def field (buf : List UInt8) (place : Nat) : Except Ended UInt32 := do
  let bytes ← readRange buf place 4
  return UInt32.ofNat (order.word bytes)

/-- A field of the header is written. -/
def setField (buf : List UInt8) (place : Nat) (value : UInt32) : Except Ended (List UInt8) :=
  writeRange buf place (order.memory 4 value.toNat)

/-- The length and the CRC are written into the header. -/
def setHeader (buf : List UInt8) (offset : Nat) : Except Ended (List UInt8) := do
  let buf ← setField order buf (offset + 4)
    (store32Le order (UInt32.ofNat (buf.length - offset)))
  let scan ← readRange buf (offset + 12) (buf.length - offset - 12)
  setField order buf (offset + 8) (store32Le order (crc32buf scan))

/-- `mtd_fixtrx`, in the buffer. -/
def fixHeader (buf : List UInt8) (offset : Nat) : Except Ended (List UInt8) := do
  let magic ← field order buf offset
  if magic ≠ store32Le order trxMagic then throw .exit
  let len ← field order buf (offset + 4)
  -- a header with this length is taken for fixed
  if len = store32Le order (UInt32.ofNat (buf.length - offset)) then throw .returned
  setHeader order buf offset

/-- `mtd_fixtrx`. -/
def mtdFixtrx (width : Nat) (d : Device) (offset : Nat) : Outcome :=
  let place := blockOffset width d.eraseSize offset
  let offset := offset - place
  if d.size < (place + d.eraseSize) % 2 ^ width then ⟨.exit, d, []⟩
  else
    let buf := d.read place d.eraseSize
    let reads := [(place, d.eraseSize)]
    if buf.length ≠ d.eraseSize then ⟨.exit, d, reads⟩
    else
      match fixHeader order buf offset with
      | .error ended => ⟨ended, d, reads⟩
      | .ok buf =>
          let (ended, d) := rewriteBlock d place buf
          ⟨ended, d, reads⟩


/-! ## The header in the buffer -/

/-- How a word stands in memory, the lowest byte first. -/
def littleEndian (value : UInt32) : List UInt8 := ByteOrder.little.memory 4 value.toNat

/-- A block with another length and another CRC in its header. -/
def rewritten (buf : List UInt8) (offset : Nat) : List UInt8 :=
  buf.take (offset + 4) ++ littleEndian (UInt32.ofNat (buf.length - offset)) ++
    littleEndian (crc32buf (buf.drop (offset + 12))) ++ buf.drop (offset + 12)

section Buffer

variable {order : ByteOrder} {buf : List UInt8} {offset place length : Nat}

@[simp] theorem length_littleEndian (value : UInt32) : (littleEndian value).length = 4 :=
  ByteOrder.length_memory _ _ _

theorem byte_extract (x : UInt32) (k : Nat) :
    UInt8.ofNat (x.toNat / 2 ^ (8 * k)) = UInt8.ofBitVec (x.toBitVec.extractLsb' (8 * k) 8) := by
  apply UInt8.eq_of_toBitVec_eq
  apply BitVec.eq_of_toNat_eq
  simp [Nat.shiftRight_eq_div_pow]

/-- On a big-endian host the bytes are swapped. -/
theorem store32Le_extract (x : UInt32) {k : Nat} (few : k < 4) :
    (store32Le .big x).toBitVec.extractLsb' (8 * k) 8 =
      x.toBitVec.extractLsb' (8 * (3 - k)) 8 := by
  apply BitVec.eq_of_getLsbD_eq
  intro i small
  have bit : i = 0 ∨ i = 1 ∨ i = 2 ∨ i = 3 ∨ i = 4 ∨ i = 5 ∨ i = 6 ∨ i = 7 := by omega
  have byte : k = 0 ∨ k = 1 ∨ k = 2 ∨ k = 3 := by omega
  rcases byte with rfl | rfl | rfl | rfl <;>
    rcases bit with rfl | rfl | rfl | rfl | rfl | rfl | rfl | rfl <;> simp [store32Le]

/-- What is stored stands in memory with its lowest byte first, on any host. -/
theorem memory_store32Le (order : ByteOrder) (x : UInt32) :
    order.memory 4 (store32Le order x).toNat = littleEndian x := by
  cases order with
  | little => rfl
  | big =>
      have swapped : ∀ k < 4, UInt8.ofNat ((store32Le .big x).toNat / 2 ^ (8 * k)) =
          UInt8.ofNat (x.toNat / 2 ^ (8 * (3 - k))) := by
        intro k few
        rw [byte_extract, byte_extract, store32Le_extract x few]
      have lists : bytes 4 (store32Le .big x).toNat = (bytes 4 x.toNat).reverse := by
        simp only [bytes, List.reverse_cons, List.reverse_nil, List.nil_append, List.cons_append,
          swapped 3 (by decide), swapped 2 (by decide), swapped 1 (by decide),
          swapped 0 (by decide)]
      exact lists

/-- A field is a number exactly if its bytes are those of the number, the lowest one first. -/
theorem word_eq_store32Le_iff {list : List UInt8} (four : list.length = 4) (x : UInt32) :
    UInt32.ofNat (order.word list) = store32Le order x ↔ list = littleEndian x := by
  have small : order.word list < 2 ^ 32 := by
    have bound := order.word_lt list
    rwa [four] at bound
  rw [← memory_store32Le order x]
  constructor
  · intro same
    rw [← same, UInt32.toNat_ofNat_of_lt' small, ← four, ByteOrder.memory_word]
  · intro same
    rw [same, ByteOrder.word_memory, Nat.mod_eq_of_lt (UInt32.toNat_lt _), UInt32.ofNat_toNat]

theorem setField_eq {buf' : List UInt8} {value : UInt32}
    (stored : store buf place (littleEndian value) = some buf') :
    setField order buf place (store32Le order value) = .ok buf' := by
  rw [setField, memory_store32Le, writeRange, stored]

/-- The header is rewritten. -/
theorem setHeader_eq (inside : offset + 28 ≤ buf.length) :
    setHeader order buf offset = .ok (rewritten buf offset) := by
  obtain ⟨buf', one⟩ := @store_isSome _ buf (littleEndian (UInt32.ofNat (buf.length - offset)))
    (offset + 4) (by rw [length_littleEndian]; omega)
  have same := store_length one
  have scan : load buf' (offset + 12) (buf'.length - offset - 12) = some (buf.drop (offset + 12)) := by
    rw [load_store_disjoint one (by rw [length_littleEndian]; omega), same]
    refine load_eq_some_iff.mpr ⟨by omega, ?_⟩
    exact List.take_of_length_le (by rw [List.length_drop]; omega)
  obtain ⟨buf'', two⟩ := @store_isSome _ buf' (littleEndian (crc32buf (buf.drop (offset + 12))))
    (offset + 8) (by rw [length_littleEndian]; omega)
  have both := store_consecutive one (by rw [length_littleEndian]; exact two)
  obtain ⟨-, shape⟩ := store_eq_some_iff.mp both
  rw [setHeader, setField_eq one]
  change (readRange buf' (offset + 12) (buf'.length - offset - 12) >>= _) = _
  rw [readRange, scan]
  change setField order buf' (offset + 8) (store32Le order (crc32buf (buf.drop (offset + 12)))) = _
  rw [setField_eq two, ← shape, rewritten, List.length_append, length_littleEndian,
    length_littleEndian]
  simp only [List.append_assoc, Nat.add_assoc, Nat.reduceAdd]

/-- The header is looked at and rewritten byte by byte. -/
theorem fixHeader_eq (inside : offset + 28 ≤ buf.length) :
    fixHeader order buf offset =
      if range buf offset 4 = littleEndian trxMagic then
        if range buf (offset + 4) 4 = littleEndian (UInt32.ofNat (buf.length - offset)) then
          .error .returned
        else .ok (rewritten buf offset)
      else .error .exit := by
  have magic := @word_eq_store32Le_iff order (range buf offset 4) (length_range (by omega)) trxMagic
  have len := @word_eq_store32Le_iff order (range buf (offset + 4) 4) (length_range (by omega))
    (UInt32.ofNat (buf.length - offset))
  unfold fixHeader field
  rw [readRange_inside (by omega), readRange_inside (by omega), setHeader_eq inside]
  change (if UInt32.ofNat (order.word (range buf offset 4)) ≠ store32Le order trxMagic then
    Except.error Ended.exit else
    if UInt32.ofNat (order.word (range buf (offset + 4) 4)) =
      store32Le order (UInt32.ofNat (buf.length - offset)) then Except.error Ended.returned else _) = _
  simp only [ne_eq, magic, len]
  by_cases header : range buf offset 4 = littleEndian trxMagic
  · rw [if_neg (not_not_intro header), if_pos header]
  · rw [if_pos header, if_neg header]

/-! ## The rewritten header -/

theorem length_rewritten (inside : offset + 28 ≤ buf.length) :
    (rewritten buf offset).length = buf.length := by
  simp only [rewritten, List.length_append, List.length_take, List.length_drop,
    length_littleEndian]
  omega

theorem range_rewritten_magic (inside : offset + 28 ≤ buf.length) :
    range (rewritten buf offset) offset 4 = range buf offset 4 := by
  have front : (buf.take (offset + 4)).length = offset + 4 := by
    rw [List.length_take]
    omega
  unfold range rewritten
  rw [List.append_assoc, List.append_assoc, List.drop_append_of_le_length (by omega),
    List.take_append_of_le_length (by rw [List.length_drop]; omega), List.drop_take,
    List.take_take]
  congr 1
  omega

theorem range_rewritten_len (inside : offset + 28 ≤ buf.length) :
    range (rewritten buf offset) (offset + 4) 4 =
      littleEndian (UInt32.ofNat (buf.length - offset)) := by
  have front : (buf.take (offset + 4)).length = offset + 4 := by
    rw [List.length_take]
    omega
  unfold range rewritten
  rw [List.append_assoc, List.append_assoc, List.drop_left' front]
  exact List.take_left' (length_littleEndian _)

theorem range_rewritten_crc (inside : offset + 28 ≤ buf.length) :
    range (rewritten buf offset) (offset + 8) 4 =
      littleEndian (crc32buf (buf.drop (offset + 12))) := by
  have front : (buf.take (offset + 4) ++
      littleEndian (UInt32.ofNat (buf.length - offset))).length = offset + 8 := by
    rw [List.length_append, List.length_take, length_littleEndian]
    omega
  unfold range rewritten
  rw [List.append_assoc, List.drop_left' front]
  exact List.take_left' (length_littleEndian _)

theorem drop_rewritten (inside : offset + 28 ≤ buf.length) :
    (rewritten buf offset).drop (offset + 12) = buf.drop (offset + 12) := by
  have front : (buf.take (offset + 4) ++ littleEndian (UInt32.ofNat (buf.length - offset)) ++
      littleEndian (crc32buf (buf.drop (offset + 12)))).length = offset + 12 := by
    rw [List.length_append, List.length_append, List.length_take, length_littleEndian,
      length_littleEndian]
    omega
  exact List.drop_left' front

/-- Only the length and the CRC are other bytes. -/
theorem getElem?_rewritten (inside : offset + 28 ≤ buf.length)
    (apart : place < offset + 4 ∨ offset + 12 ≤ place) :
    (rewritten buf offset)[place]? = buf[place]? := by
  rcases apart with before | behind
  · unfold rewritten
    rw [List.append_assoc, List.append_assoc, List.getElem?_append_left
      (by rw [List.length_take]; omega), List.getElem?_take_of_lt before]
  · obtain ⟨more, rfl⟩ := Nat.exists_eq_add_of_le behind
    rw [← List.getElem?_drop, ← List.getElem?_drop, drop_rewritten inside]

end Buffer


/-! ## The header on the device -/

/-- The header at an offset is one for the rest of its erase block, and all else is as before. -/
structure HeaderFixed (d d' : Device) (offset : Nat) : Prop where
  len : d'.read (offset + 4) 4 =
    littleEndian (UInt32.ofNat (d.eraseSize - offset % d.eraseSize))
  crc : d'.read (offset + 8) 4 = littleEndian
    (crc32buf (d'.read (offset + 12) (d.eraseSize - offset % d.eraseSize - 12)))
  kept : ∀ place, place < offset + 4 ∨ offset + 12 ≤ place → d'.cell place = d.cell place

/-- A run leaves a header that is fixed, and another run does nothing. -/
structure Fixes (order : ByteOrder) (width : Nat) (d : Device) (offset : Nat) : Prop where
  returned : (mtdFixtrx order width d offset).ended = .returned
  header : HeaderFixed d (mtdFixtrx order width d offset).dev offset
  again : ∃ reads, mtdFixtrx order width (mtdFixtrx order width d offset).dev offset =
    ⟨.returned, (mtdFixtrx order width d offset).dev, reads⟩

section OnDevice

variable {order : ByteOrder} {width offset : Nat} {d : Device} {buf : List UInt8}

/-- What a run does at a header in an erase block. -/
theorem mtdFixtrx_eq (inBlock : InBlock width d offset 28) :
    mtdFixtrx order width d offset =
      let block := offset / d.eraseSize
      let reads := [(start d block, d.eraseSize)]
      if d.read offset 4 = littleEndian trxMagic then
        if d.read (offset + 4) 4 =
            littleEndian (UInt32.ofNat (d.eraseSize - offset % d.eraseSize)) then
          ⟨.returned, d, reads⟩
        else
          ⟨.returned, stored d block (rewritten (d.read (start d block) d.eraseSize)
            (offset % d.eraseSize)), reads⟩
      else ⟨.exit, d, reads⟩ := by
  have full := inBlock.usable.length_read
  have room := inBlock.room
  have place := inBlock.start_add
  have rest : offset - start d (offset / d.eraseSize) = offset % d.eraseSize := by omega
  have magic := @InBlock.read_part d width offset 28 inBlock 0 4 (by omega)
  have len := @InBlock.read_part d width offset 28 inBlock 4 4 (by omega)
  rw [Nat.add_zero, Nat.add_zero] at magic
  have header := @fixHeader_eq order (d.read (start d (offset / d.eraseSize)) d.eraseSize)
    (offset % d.eraseSize) (by rw [full]; exact room)
  rw [range, range, magic, len, full] at header
  unfold mtdFixtrx
  dsimp only
  rw [inBlock.blockOffset, if_neg inBlock.not_beyond, if_neg (not_not_intro full), rest, header]
  by_cases isTrx : d.read offset 4 = littleEndian trxMagic
  · rw [if_pos isTrx, if_pos isTrx]
    by_cases fixed : d.read (offset + 4) 4 =
        littleEndian (UInt32.ofNat (d.eraseSize - offset % d.eraseSize))
    · rw [if_pos fixed, if_pos fixed]
    · rw [if_neg fixed, if_neg fixed]
      dsimp only
      rw [rewriteBlock_usable inBlock.usable
        ((length_rewritten (by rw [full]; exact room)).trans full)]
  · rw [if_neg isTrx, if_neg isTrx]

/-- The erase block with the header, after a run. -/
def newBlock (d : Device) (offset : Nat) : List UInt8 :=
  rewritten (d.read (start d (offset / d.eraseSize)) d.eraseSize) (offset % d.eraseSize)

theorem length_newBlock (inBlock : InBlock width d offset 28) :
    (newBlock d offset).length = d.eraseSize := by
  have full := inBlock.usable.length_read
  exact (length_rewritten (by rw [full]; exact inBlock.room)).trans full

/-- What a run leaves at the offset. -/
theorem read_newBlock (inBlock : InBlock width d offset 28) {skip part : Nat}
    (within : offset % d.eraseSize + skip + part ≤ d.eraseSize) :
    (stored d (offset / d.eraseSize) (newBlock d offset)).read (offset + skip) part =
      range (newBlock d offset) (offset % d.eraseSize + skip) part :=
  inBlock.read_stored (length_newBlock inBlock) within

/-- The header that a run leaves is fixed. -/
theorem headerFixed_newBlock (inBlock : InBlock width d offset 28) :
    HeaderFixed d (stored d (offset / d.eraseSize) (newBlock d offset)) offset := by
  have full := inBlock.usable.length_read
  have room := inBlock.room
  have place := inBlock.start_add
  have inside : offset % d.eraseSize + 28 ≤
      (d.read (start d (offset / d.eraseSize)) d.eraseSize).length := by
    rw [full]
    exact room
  have len := range_rewritten_len inside
  have crc := range_rewritten_crc inside
  have behind := drop_rewritten inside
  rw [full] at len
  refine ⟨?_, ?_, ?_⟩
  · rw [read_newBlock inBlock (by omega)]
    exact len
  · rw [read_newBlock inBlock (by omega), read_newBlock inBlock (by omega)]
    refine crc.trans ?_
    unfold range newBlock
    rw [behind, List.take_of_length_le (by rw [List.length_drop, full]; omega)]
  · intro at' apart
    refine cell_stored inBlock.usable fun least most => ?_
    exact getElem?_rewritten inside (by omega)

/-- Another run does nothing. -/
theorem mtdFixtrx_newBlock (inBlock : InBlock width d offset 28)
    (magic : d.read offset 4 = littleEndian trxMagic) :
    mtdFixtrx order width (stored d (offset / d.eraseSize) (newBlock d offset)) offset =
      ⟨.returned, stored d (offset / d.eraseSize) (newBlock d offset),
        [(start d (offset / d.eraseSize), d.eraseSize)]⟩ := by
  have full := inBlock.usable.length_read
  have room := inBlock.room
  have kept : (stored d (offset / d.eraseSize) (newBlock d offset)).read (offset + 0) 4 =
      d.read (offset + 0) 4 := by
    rw [read_newBlock inBlock (by omega), ← inBlock.read_part (by omega)]
    exact range_rewritten_magic (by rw [full]; exact room)
  rw [Nat.add_zero, magic] at kept
  have again := @mtdFixtrx_eq order width offset _ (inBlock.stored (newBlock d offset))
  dsimp only at again
  rw [if_pos kept] at again
  refine again.trans ?_
  exact if_pos (headerFixed_newBlock inBlock).len

/-- A run leaves a header that is fixed, and does nothing the next time, exactly if the length in the
header was another one, or the CRC was right. -/
theorem mtdFixtrx_fixes_iff (inBlock : InBlock width d offset 28)
    (magic : d.read offset 4 = littleEndian trxMagic) :
    Fixes order width d offset ↔
      d.read (offset + 4) 4 ≠ littleEndian (UInt32.ofNat (d.eraseSize - offset % d.eraseSize)) ∨
        d.read (offset + 8) 4 = littleEndian
          (crc32buf (d.read (offset + 12) (d.eraseSize - offset % d.eraseSize - 12))) := by
  have ran := @mtdFixtrx_eq order width offset d inBlock
  dsimp only at ran
  rw [if_pos magic] at ran
  by_cases fixed : d.read (offset + 4) 4 =
      littleEndian (UInt32.ofNat (d.eraseSize - offset % d.eraseSize))
  · rw [if_pos fixed] at ran
    rw [or_iff_right (not_not_intro fixed)]
    constructor
    · intro fixes
      have header := fixes.header
      rw [ran] at header
      exact header.crc
    · intro crc
      refine ⟨by rw [ran], ?_, ⟨_, by rw [ran]; exact ran⟩⟩
      rw [ran]
      exact ⟨fixed, crc, fun _ _ => rfl⟩
  · rw [if_neg fixed] at ran
    refine iff_of_true ?_ (.inl fixed)
    have left : mtdFixtrx order width d offset =
        ⟨.returned, stored d (offset / d.eraseSize) (newBlock d offset), _⟩ := ran
    refine ⟨by rw [left], by rw [left]; exact headerFixed_newBlock inBlock, ?_⟩
    rw [left]
    exact ⟨_, mtdFixtrx_newBlock inBlock magic⟩

/-- A device of two erase blocks, with a header at the second one. -/
def headerAt (len crc : UInt32) : Device where
  eraseSize := 32
  count := 2
  nand := false
  bad := fun _ => false
  edge := none
  worn := fun _ => false
  weak := fun _ => false
  cell := fun place =>
    (List.replicate 32 0xff ++ littleEndian trxMagic ++ littleEndian len ++
      littleEndian crc).getD place 0
  log := []

theorem headerAt_inBlock (len crc : UInt32) : InBlock 32 (headerAt len crc) 32 28 where
  wide := Nat.le_refl _
  power := ⟨5, rfl⟩
  small := by change 64 < 2 ^ 31; decide
  usable := ⟨Nat.succ_pos _, by change 32 / 32 < 2; decide, rfl, rfl, rfl⟩
  room := by change 32 % 32 + 28 ≤ 32; decide

theorem mtdFixtrx_fixes_headerAt : Fixes .big 32 (headerAt 100 0) 32 :=
  (mtdFixtrx_fixes_iff (headerAt_inBlock 100 0) (by decide)).mpr (.inl (by decide))

/-- A header with the length of its block is left alone, with a CRC that is wrong. -/
theorem mtdFixtrx_keeps_crc :
    InBlock 32 (headerAt 32 0) 32 28 ∧ (headerAt 32 0).read 32 4 = littleEndian trxMagic ∧
      (mtdFixtrx .little 32 (headerAt 32 0) 32).ended = .returned ∧
      ¬Fixes .little 32 (headerAt 32 0) 32 := by
  refine ⟨headerAt_inBlock 32 0, by decide, by decide +kernel, ?_⟩
  intro fixes
  have crc := fixes.header.crc
  revert crc
  decide +kernel

end OnDevice

end Trunk.Mtd.Trx
