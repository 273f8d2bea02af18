import Trunk.Foundation.Footprint
import Trunk.Mtd.Header
import Trunk.Utils.CString
import Trunk.Utils.Crc32

/-! # Image tags

The model of `mtd_fixtrx` of `imagetag.c`, for a device that can be opened, with a descriptor that is not
zero, and with a `size_t` and an `unsigned long` of `width` bits. It looks for the erase block before
the device is opened, with the erase size that the program knows by then, which is zero at its start. So
a tag is fixed exactly if it is in the first erase block of its device
(`Trunk.Mtd.Imagetag.mtdFixtrx_fixesTag_iff`).
-/

namespace Trunk.Mtd.Imagetag

open CString Crc32 Flash Footprint Memory Network

/-- `CRC_START`. -/
def crcStart : UInt32 := 0xFFFFFFFF

/-- `IMAGE_LEN`. -/
def imageLen : Nat := 10

/-- `sizeof(struct bcm_tag)`. -/
def sizeofTag : Nat := 256

/-! ## The places of the fields of `struct bcm_tag` -/

def totalLength : Nat := 62

def cfeLength : Nat := 84

def rootLength : Nat := 106

def kernelLength : Nat := 128

def fskernelCrc : Nat := 196

def imageCrc : Nat := 216

def rootfsCrc : Nat := 220

def kernelCrc : Nat := 224

def headerCrc : Nat := 236

/-! ## The tag in the buffer -/

/-- The text that `strncpy` copies: up to a zero, or as many bytes as the field has. -/
def readText (buf : List UInt8) : Nat → Nat → Except Ended (List UInt8)
  | _, 0 => .ok []
  | place, len + 1 =>
      match buf[place]? with
      | none => .error .outside
      | some byte =>
          if byte = 0 then .ok [] else (readText buf (place + 1) len).map fun text => byte :: text

/-- `strntoul`, to base ten. -/
def strntoul (width : Nat) (buf : List UInt8) (place len : Nat) : Except Ended UInt32 := do
  let newstr ← readText buf place len
  return UInt32.ofNat (strtoulDecimalFront width newstr)

/-- `strncpy` from a field to another one. -/
def strncpy (buf : List UInt8) (dest src len : Nat) : Except Ended (List UInt8) := do
  let text ← readText buf src len
  writeRange buf dest (text ++ List.replicate (len - text.length) 0)

/-- `memcpy` from a field to another one. -/
def memcpy (buf : List UInt8) (dest src len : Nat) : Except Ended (List UInt8) := do
  let bytes ← readRange buf src len
  writeRange buf dest bytes

variable (order : ByteOrder) (width : Nat)

/-- The tag is without a length of the root file system, and its CRCs are computed again. -/
def rewriteTag (buf : List UInt8) (tag : Nat) : Except Ended (List UInt8) := do
  let buf ← writeRange buf (tag + rootLength) [ascii '0', 0]
  let buf ← strncpy buf (tag + totalLength) (tag + kernelLength) imageLen
  let buf ← memcpy buf (tag + imageCrc) (tag + kernelCrc) 4
  let buf ← memcpy buf (tag + fskernelCrc) (tag + kernelCrc) 4
  let buf ← writeRange buf (tag + rootfsCrc) (order.memory 4 crcStart.toNat)
  let front ← readRange buf tag headerCrc
  writeRange buf (tag + headerCrc) (order.memory 4 (crc32 crcStart front).toNat)

/-- The checks behind the CRC of the header, and what is done if there is something to do. -/
def fixTag (headercrc : UInt32) (buf : List UInt8) (tag : Nat) : Except Ended (List UInt8) := do
  let bytes ← readRange buf (tag + headerCrc) 4
  if UInt32.ofNat (order.word bytes) ≠ headercrc then .error .exit
  else do
    let rootfslen ← strntoul width buf (tag + rootLength) imageLen
    if rootfslen = 0 then .error .returned else rewriteTag order buf tag

/-! ## The tag on the device -/

/-- `compute_crc32`, with what it reads. It goes on for ever where nothing can be read. -/
def computeCrc32 (d : Device) : Nat → UInt32 → Nat → Nat → Option (UInt32 × List (Nat × Nat))
  | 0, _, _, _ => none
  | fuel + 1, crc, offset, computeLen =>
      if 1024 ≤ computeLen then
        let bytes := d.read offset 1024
        (computeCrc32 d fuel (crc32 crc bytes) (offset + bytes.length)
          (computeLen - bytes.length)).map fun (crc, reads) => (crc, (offset, 1024) :: reads)
      else if 0 < computeLen then
        some (crc32 crc (d.read offset computeLen), [(offset, computeLen)])
      else some (crc, [])

/-- `mtd_fixtrx`, where `erasesize` is the erase size that is known before the device is opened. -/
def mtdFixtrx (erasesize : Nat) (d : Device) (offset : Nat) : Outcome :=
  let place := blockOffset width erasesize offset
  let offset := offset - place
  if d.size < (place + d.eraseSize) % 2 ^ width then ⟨.exit, d, []⟩
  else
    let buf := d.read place d.eraseSize
    let reads := [(place, d.eraseSize)]
    if buf.length ≠ d.eraseSize then ⟨.exit, d, reads⟩
    else
      match strntoul width buf (offset + cfeLength) imageLen with
      | .error ended => ⟨ended, d, reads⟩
      | .ok cfelen =>
          if cfelen ≠ 0 then ⟨.exit, d, reads⟩
          else
            match computeCrc32 d (headerCrc + 1) crcStart offset headerCrc with
            | none => ⟨.stuck, d, reads⟩
            | some (headercrc, more) =>
                match fixTag order width headercrc buf offset with
                | .error ended => ⟨ended, d, reads ++ more⟩
                | .ok buf =>
                    let (ended, d) := rewriteBlock d place buf
                    ⟨ended, d, reads ++ more⟩

/-- `erasesize`, at the start of the program. -/
def initialErasesize : Nat := 0


/-! ## What a run is to do -/

/-- All checks of a tag, and what is done if there is something to do. -/
def checkAt (headercrc : UInt32) (buf : List UInt8) (tag : Nat) : Except Ended (List UInt8) := do
  let cfelen ← strntoul width buf (tag + cfeLength) imageLen
  if cfelen ≠ 0 then .error .exit else fixTag order width headercrc buf tag

/-- The checks of a tag alone, and the tag that replaces it. -/
def checkTag (tag : List UInt8) : Except Ended (List UInt8) :=
  checkAt order width (crc32 crcStart (tag.take headerCrc)) tag 0

/-- How the program is to end, and what is to become of the device: the tag at the offset is checked,
and replaced in its erase block. -/
def expected (d : Device) (offset : Nat) : Ended × Device :=
  let block := offset / d.eraseSize
  let place := offset % d.eraseSize
  let buf := d.read (start d block) d.eraseSize
  match checkTag order width (d.read offset sizeofTag) with
  | .error ended => (ended, d)
  | .ok tag =>
      (.returned, stored d block (buf.take place ++ tag ++ buf.drop (place + sizeofTag)))

/-- The tag at an offset is fixed, and nothing but its erase block is looked at. -/
structure FixesTag (d : Device) (offset : Nat) (outcome : Outcome) : Prop where
  inside : outcome.ended ≠ .outside
  reads : ∀ range ∈ outcome.reads, start d (offset / d.eraseSize) ≤ range.1 ∧
    range.1 + range.2 ≤ start d (offset / d.eraseSize) + d.eraseSize
  done : (outcome.ended, outcome.dev) = expected order width d offset

section Tag

variable {order : ByteOrder} {width place len length : Nat} {front part back content : List UInt8}

theorem readText_middle (inside : place + len ≤ part.length) :
    readText (front ++ part ++ back) (front.length + place) len = readText part place len := by
  induction len generalizing place with
  | zero => rfl
  | succ len ih =>
      have here : (front ++ part ++ back)[front.length + place]? = part[place]? := by
        rw [List.append_assoc, List.getElem?_append_right (Nat.le_add_right _ _),
          Nat.add_sub_cancel_left, List.getElem?_append_left (by omega)]
      rw [readText, readText, here, Nat.add_assoc, ih (by omega)]

theorem readText_inside (inside : place + len ≤ part.length) :
    ∃ text, readText part place len = .ok text ∧ text.length ≤ len := by
  induction len generalizing place with
  | zero => exact ⟨[], rfl, Nat.le_refl _⟩
  | succ len ih =>
      obtain ⟨text, ran, short⟩ := @ih (place + 1) (by omega)
      rw [readText, List.getElem?_eq_getElem (by omega)]
      dsimp only
      split
      · exact ⟨[], rfl, Nat.zero_le _⟩
      · rw [ran]
        exact ⟨_, rfl, Nat.succ_le_succ short⟩

theorem readText_outside (outside : part.length ≤ place) :
    readText part place (len + 1) = .error .outside := by
  rw [readText, List.getElem?_eq_none outside]

theorem readText_finds (inside : place + len ≤ sizeofTag) :
    Finds sizeofTag Ended.outside fun buf tag => readText buf (tag + place) len where
  same := by
    intro front part back size
    rw [readText_middle (by omega), Nat.zero_add]
  safe := by
    intro part size
    obtain ⟨text, ran, -⟩ := @readText_inside (0 + place) len part (by omega)
    rw [ran]
    exact ok_ne_error

theorem strntoul_finds (width : Nat) (inside : place + len ≤ sizeofTag) :
    Finds sizeofTag Ended.outside fun buf tag => strntoul width buf (tag + place) len where
  same := by
    intro front part back size
    unfold strntoul
    rw [(readText_finds inside).same front part back size]
  safe := by
    intro part size
    obtain ⟨text, ran, -⟩ := @readText_inside (0 + place) len part (by omega)
    unfold strntoul
    rw [ran]
    exact ok_ne_error

theorem readRange_finds (inside : place + length ≤ sizeofTag) :
    Finds sizeofTag Ended.outside fun buf tag => readRange buf (tag + place) length where
  same := by
    intro front part back size
    have part' := @readRange_inside part (0 + place) length (by omega)
    have loaded : load part (0 + place) length = some (range part (0 + place) length) :=
      load_eq_some_iff.mpr ⟨by omega, rfl⟩
    have middle := load_middle front back loaded
    rw [Nat.zero_add] at middle
    rw [part', readRange, middle, Nat.zero_add]
  safe := by
    intro part size
    rw [readRange_inside (by omega)]
    exact ok_ne_error

theorem writeRange_acts (inside : place + content.length ≤ sizeofTag) :
    Acts sizeofTag Ended.outside fun buf tag => writeRange buf (tag + place) content where
  same := by
    intro front part back size
    obtain ⟨part', stored⟩ := @store_isSome _ part content (0 + place) (by omega)
    have middle := store_middle front back stored
    rw [Nat.zero_add] at middle
    rw [writeRange, writeRange, middle, stored]
    rfl
  safe := by
    intro part size
    obtain ⟨part', stored⟩ := @store_isSome _ part content (0 + place) (by omega)
    rw [writeRange, stored]
    exact ok_ne_error
  keeps := by
    intro part part' size written
    obtain ⟨part'', stored⟩ := @store_isSome _ part content (0 + place) (by omega)
    rw [writeRange, stored] at written
    obtain rfl := Except.ok.inj written
    rw [store_length stored, size]

theorem strncpy_acts {dest src : Nat} (dest' : dest + len ≤ sizeofTag)
    (src' : src + len ≤ sizeofTag) :
    Acts sizeofTag Ended.outside fun buf tag => strncpy buf (tag + dest) (tag + src) len := by
  refine (readText_finds src').bind fun text found => writeRange_acts ?_
  obtain ⟨part, size, ran⟩ := found
  obtain ⟨text', ran', short⟩ := @readText_inside (0 + src) len part (by omega)
  obtain rfl := Except.ok.inj (ran'.symm.trans ran)
  rw [List.length_append, List.length_replicate]
  omega

theorem memcpy_acts {dest src : Nat} (dest' : dest + len ≤ sizeofTag)
    (src' : src + len ≤ sizeofTag) :
    Acts sizeofTag Ended.outside fun buf tag => memcpy buf (tag + dest) (tag + src) len := by
  refine (readRange_finds src').bind fun bytes found => writeRange_acts ?_
  obtain ⟨part, size, ran⟩ := found
  rw [readRange_inside (by omega)] at ran
  obtain rfl := Except.ok.inj ran
  rw [length_range (by omega)]
  exact dest'

/-- The tag is rewritten in its place. -/
theorem rewriteTag_acts (order : ByteOrder) :
    Acts sizeofTag Ended.outside fun buf tag => rewriteTag order buf tag := by
  have word : ∀ value, (order.memory 4 value).length = 4 := order.length_memory 4
  refine (@writeRange_acts rootLength _ (by decide)).bind ?_
  refine (@strncpy_acts imageLen totalLength kernelLength (by decide) (by decide)).bind ?_
  refine (@memcpy_acts 4 imageCrc kernelCrc (by decide) (by decide)).bind ?_
  refine (@memcpy_acts 4 fskernelCrc kernelCrc (by decide) (by decide)).bind ?_
  refine (@writeRange_acts rootfsCrc _ (by rw [word]; decide)).bind ?_
  refine (@readRange_finds 0 headerCrc (by decide)).bind fun front _ => ?_
  exact @writeRange_acts headerCrc _ (by rw [word]; decide)

/-- The checks and the fix are those of the tag, wherever it is. -/
theorem fixTag_acts (order : ByteOrder) (width : Nat) (headercrc : UInt32) :
    Acts sizeofTag Ended.outside fun buf tag => fixTag order width headercrc buf tag := by
  refine (@readRange_finds headerCrc 4 (by decide)).bind fun bytes _ => ?_
  refine Acts.ite (Acts.throw (by decide)) ?_
  refine (@strntoul_finds rootLength imageLen width (by decide)).bind fun rootfslen _ => ?_
  exact Acts.ite (Acts.throw (by decide)) (rewriteTag_acts order)
/-- All checks are those of the tag, wherever it is. -/
theorem checkAt_acts (order : ByteOrder) (width : Nat) (headercrc : UInt32) :
    Acts sizeofTag Ended.outside fun buf tag => checkAt order width headercrc buf tag := by
  refine (@strntoul_finds cfeLength imageLen width (by decide)).bind fun cfelen _ => ?_
  exact Acts.ite (Acts.throw (by decide)) (fixTag_acts order width headercrc)

end Tag


section Run

variable {order : ByteOrder} {width offset : Nat} {d : Device}

/-- The CRC of the header goes over what is in front of it. -/
theorem computeCrc32_header (d : Device) (offset : Nat) :
    computeCrc32 d (headerCrc + 1) crcStart offset headerCrc =
      some (crc32 crcStart (d.read offset headerCrc), [(offset, headerCrc)]) := by
  rw [computeCrc32, if_neg (by decide), if_pos (by decide)]

/-- A tag is checked without an access outside it. -/
theorem expected_inside (inBlock : InBlock width d offset sizeofTag) :
    (expected order width d offset).1 ≠ .outside := by
  have size : (d.read offset sizeofTag).length = sizeofTag := by
    have room := inBlock.room
    have inside := inBlock.usable.room
    have place := inBlock.start_add
    rw [Device.length_read]
    omega
  have safe := (checkAt_acts order width
    (crc32 crcStart ((d.read offset sizeofTag).take headerCrc))).safe _ size
  unfold expected
  dsimp only
  cases checked : checkTag order width (d.read offset sizeofTag) with
  | error ended => exact fun same => safe (checked.trans (congrArg Except.error same))
  | ok tag =>
      intro same
      cases same

/-- The block with the tag: the tag stands between what is in front of it and what is behind it. -/
theorem block_eq (inBlock : InBlock width d offset sizeofTag) :
    d.read (start d (offset / d.eraseSize)) d.eraseSize =
      (d.read (start d (offset / d.eraseSize)) d.eraseSize).take (offset % d.eraseSize) ++
        d.read offset sizeofTag ++
        (d.read (start d (offset / d.eraseSize)) d.eraseSize).drop
          (offset % d.eraseSize + sizeofTag) := by
  have tag := @InBlock.read_part d width offset sizeofTag inBlock 0 sizeofTag inBlock.room
  rw [Nat.add_zero, Nat.add_zero] at tag
  rw [← tag, List.append_assoc, ← List.drop_drop, List.take_append_drop, List.take_append_drop]

/-- In the first block the program does what it is to do. -/
theorem mtdFixtrx_eq (inBlock : InBlock width d offset sizeofTag) (first : offset < d.eraseSize) :
    ∃ reads, (reads = [(0, d.eraseSize)] ∨ reads = [(0, d.eraseSize), (offset, headerCrc)]) ∧
      mtdFixtrx order width initialErasesize d offset =
        ⟨(expected order width d offset).1, (expected order width d offset).2, reads⟩ := by
  have same : offset % d.eraseSize = offset := Nat.mod_eq_of_lt first
  have zero : start d (offset / d.eraseSize) = 0 := by
    rw [Nat.div_eq_of_lt first, start, Nat.zero_mul]
  have full := inBlock.usable.length_read
  have beyond := inBlock.not_beyond
  have whole := block_eq inBlock
  have room := inBlock.room
  have size : (d.read offset sizeofTag).length = sizeofTag := by
    have inside := inBlock.usable.room
    rw [Device.length_read]
    omega
  have rewritten := fun bytes => @rewriteBlock_usable d (offset / d.eraseSize) bytes inBlock.usable
  have header : (d.read offset sizeofTag).take headerCrc = d.read offset headerCrc := by
    have inside := inBlock.usable.room
    exact @Device.read_part d offset sizeofTag 0 headerCrc (by omega) (by decide)
  rw [zero] at full beyond whole rewritten
  rw [same] at whole room
  have front : ((d.read 0 d.eraseSize).take offset).length = offset := by
    rw [List.length_take, full]
    omega
  have cfe := (@strntoul_finds cfeLength imageLen width (by decide)).same
    ((d.read 0 d.eraseSize).take offset) (d.read offset sizeofTag)
    ((d.read 0 d.eraseSize).drop (offset + sizeofTag)) size
  have fix := (fixTag_acts order width (crc32 crcStart (d.read offset headerCrc))).same
    ((d.read 0 d.eraseSize).take offset) (d.read offset sizeofTag)
    ((d.read 0 d.eraseSize).drop (offset + sizeofTag)) size
  have keeps := (fixTag_acts order width (crc32 crcStart (d.read offset headerCrc))).keeps
    (d.read offset sizeofTag)
  rw [front, ← whole] at cfe fix
  unfold mtdFixtrx initialErasesize expected
  dsimp only
  rw [blockOffset_zero, Nat.sub_zero, if_neg beyond, if_neg (not_not_intro full), cfe, zero, same]
  cases found : strntoul width (d.read offset sizeofTag) (0 + cfeLength) imageLen with
  | error ended =>
      have checked : checkTag order width (d.read offset sizeofTag) = .error ended := by
        rw [checkTag, checkAt, found]
        rfl
      rw [checked]
      exact ⟨_, .inl rfl, rfl⟩
  | ok cfelen =>
      dsimp only
      by_cases nonzero : cfelen ≠ 0
      · have checked : checkTag order width (d.read offset sizeofTag) = .error .exit := by
          rw [checkTag, checkAt, found]
          exact if_pos nonzero
        rw [checked, if_pos nonzero]
        exact ⟨_, .inl rfl, rfl⟩
      · have checked : checkTag order width (d.read offset sizeofTag) =
            fixTag order width (crc32 crcStart (d.read offset headerCrc))
              (d.read offset sizeofTag) 0 := by
          rw [checkTag, checkAt, found, header]
          exact if_neg nonzero
        rw [checked, if_neg nonzero, computeCrc32_header]
        dsimp only
        rw [fix]
        cases fixed : fixTag order width (crc32 crcStart (d.read offset headerCrc))
            (d.read offset sizeofTag) 0 with
        | error ended => exact ⟨_, .inr rfl, rfl⟩
        | ok tag =>
            have kept := keeps tag size fixed
            refine ⟨_, .inr rfl, ?_⟩
            rw [Except.map]
            dsimp only
            rw [rewritten]
            · rfl
            · rw [List.length_append, List.length_append, front, kept, List.length_drop, full]
              omega

/-- In a later block the program looks for the tag behind its buffer. -/
theorem mtdFixtrx_later (inBlock : InBlock width d offset sizeofTag)
    (later : d.eraseSize ≤ offset) :
    (mtdFixtrx order width initialErasesize d offset).ended = .outside := by
  have usable := inBlock.usable
  have large := inBlock.size_lt
  have one : start d 0 + d.eraseSize ≤ d.size := by
    rw [start, Nat.zero_mul, Nat.zero_add]
    exact Nat.le_trans (Nat.le_add_left _ _) usable.room
  rw [start, Nat.zero_mul] at one
  have beyond : ¬d.size < (0 + d.eraseSize) % 2 ^ width := by
    rw [Nat.mod_eq_of_lt (by omega)]
    omega
  have full : (d.read 0 d.eraseSize).length = d.eraseSize := by
    rw [Device.length_read]
    omega
  have outside : strntoul width (d.read 0 d.eraseSize) (offset + cfeLength) imageLen =
      .error .outside := by
    rw [strntoul, imageLen, readText_outside (by rw [full]; omega)]
    rfl
  unfold mtdFixtrx initialErasesize
  dsimp only
  rw [blockOffset_zero, Nat.sub_zero, if_neg beyond, if_neg (not_not_intro full), outside]

/-- From the start of the program, a tag is fixed exactly if it is in the first erase block. -/
theorem mtdFixtrx_fixesTag_iff (inBlock : InBlock width d offset sizeofTag) :
    FixesTag order width d offset (mtdFixtrx order width initialErasesize d offset) ↔
      offset < d.eraseSize := by
  constructor
  · intro fixes
    by_contra later
    exact fixes.inside (mtdFixtrx_later inBlock (Nat.le_of_not_lt later))
  · intro first
    obtain ⟨reads, those, ran⟩ := @mtdFixtrx_eq order width offset d inBlock first
    have zero : start d (offset / d.eraseSize) = 0 := by
      rw [Nat.div_eq_of_lt first, start, Nat.zero_mul]
    have room := inBlock.room
    rw [Nat.mod_eq_of_lt first] at room
    rw [ran]
    refine ⟨expected_inside inBlock, ?_, rfl⟩
    rw [zero]
    rcases those with rfl | rfl
    · intro range member
      obtain rfl := List.mem_singleton.mp member
      exact ⟨Nat.le_refl _, Nat.le_refl _⟩
    · intro range member
      rcases List.mem_pair.mp member with rfl | rfl
      · exact ⟨Nat.le_refl _, Nat.le_refl _⟩
      · refine ⟨Nat.zero_le _, ?_⟩
        change offset + 236 ≤ 0 + d.eraseSize
        change offset + 256 ≤ d.eraseSize at room
        omega

/-- A tag with the right CRC and a root file system of one byte. -/
def sampleTag (order : ByteOrder) : List UInt8 :=
  let front := List.replicate 106 0 ++ [ascii '1'] ++ List.replicate 129 0
  front ++ order.memory 4 (crc32 crcStart front).toNat ++ List.replicate 16 0

/-- A device of two erase blocks, with the tag at an offset. -/
def withTag (order : ByteOrder) (offset : Nat) : Device where
  eraseSize := 256
  count := 2
  nand := false
  bad := fun _ => false
  edge := none
  worn := fun _ => false
  weak := fun _ => false
  cell := fun place => if offset ≤ place then (sampleTag order).getD (place - offset) 0 else 0
  log := []

theorem withTag_inBlock (order : ByteOrder) {block : Nat} (inside : block < 2) :
    InBlock 32 (withTag order (block * 256)) (block * 256) sizeofTag where
  wide := Nat.le_refl _
  power := ⟨8, rfl⟩
  small := by
    change 2 * 256 < 2 ^ 31
    decide
  usable := by
    refine ⟨Nat.succ_pos _, ?_, rfl, rfl, rfl⟩
    change block * 256 / 256 < 2
    omega
  room := by
    change block * 256 % 256 + 256 ≤ 256
    omega

theorem mtdFixtrx_fixesTag_withTag :
    FixesTag .big 32 (withTag .big (0 * 256)) (0 * 256)
      (mtdFixtrx .big 32 initialErasesize (withTag .big (0 * 256)) (0 * 256)) :=
  (mtdFixtrx_fixesTag_iff (withTag_inBlock .big (by decide))).mpr (by decide)

/-- A tag in the second block is looked for behind the buffer. -/
theorem mtdFixtrx_reads_outside :
    InBlock 32 (withTag .big (1 * 256)) (1 * 256) sizeofTag ∧
      (mtdFixtrx .big 32 initialErasesize (withTag .big (1 * 256)) (1 * 256)).ended = .outside ∧
      ¬FixesTag .big 32 (withTag .big (1 * 256)) (1 * 256)
        (mtdFixtrx .big 32 initialErasesize (withTag .big (1 * 256)) (1 * 256)) := by
  have inBlock := withTag_inBlock .big (show 1 < 2 by decide)
  have outside := @mtdFixtrx_later .big _ _ _ inBlock (by decide)
  exact ⟨inBlock, outside, fun fixes => fixes.inside outside⟩

end Run

end Trunk.Mtd.Imagetag
