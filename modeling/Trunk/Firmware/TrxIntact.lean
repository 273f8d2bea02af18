import Trunk.Firmware.TrxWrites

/-! # Intact TRX images

The end of `main` fills the image up and puts its length and its CRC into the header
(`Trunk.Firmware.Trx.finish_done`). The image carries its files and their entries exactly if no later
write puts another value over them (`Trunk.Firmware.Trx.main_sound_iff`): the fourth `-f` has its
entry behind the header, where the first file is, and `-a`, `-b` and `-x` do not look at the end of
the buffer. With three entries at most and a buffer of one size all is kept
(`Trunk.Firmware.Trx.kept_of_three`).
-/

namespace Trunk.Firmware.Trx

open Memory Mtd.Trx Network Writes

variable {width : Nat} {order : ByteOrder} {s s' : State} {opt : Opt width}
  {opts front back : List (Opt width)}

/-! ## The end -/

/-- A multiple of 4096. -/
def roundUp (n : Nat) : Nat := if n % 0x1000 ≠ 0 then n + (0x1000 - n % 0x1000) else n

/-- The zeros behind the last option. -/
def padding (s : State) : Write UInt8 :=
  ⟨s.curLen.toNat, List.replicate (roundUp s.curLen.toNat - s.curLen.toNat) 0⟩

theorem le_roundUp (n : Nat) : n ≤ roundUp n := by
  unfold roundUp
  split
  · exact Nat.le_add_right _ _
  · exact Nat.le_refl n

theorem dvd_roundUp (n : Nat) : 0x1000 ∣ roundUp n := by
  unfold roundUp
  split
  · omega
  · omega

/-- A part of a whole front is the part of the block. -/
theorem load_front_of_load {block image content : List UInt8} {count place length : Nat}
    (whole : load block 0 count = some image) (part : load block place length = some content)
    (inside : place + length ≤ count) : load image place length = some content := by
  obtain ⟨fits, rfl⟩ := load_eq_some_iff.mp whole
  obtain ⟨-, rfl⟩ := load_eq_some_iff.mp part
  refine load_eq_some_iff.mpr ⟨?_, ?_⟩
  · rw [List.length_take, List.length_drop]
    omega
  · rw [List.drop_zero, List.drop_take, List.take_take, Nat.min_eq_left (by omega)]

theorem read_some {place length : Nat} {bytes : List UInt8}
    (loaded : load s.buf place length = some bytes) : read s place length = .ok bytes := by
  rw [read, loaded]

theorem read_none {place length : Nat} (none : load s.buf place length = none) :
    read s place length = .error .outside := by
  rw [read, none]

theorem put_inside {place : Nat} {content buf : List UInt8}
    (inside : place + content.length ≤ buf.length) : ∃ next, put buf ⟨place, content⟩ = some next :=
  Option.isSome_iff_exists.mp (put_isSome_iff.mpr (.inr inside))

theorem fillUp_eq (s : State) :
    fillUp s =
      (write s s.curLen.toNat (padding s).content).map fun s' =>
        { s' with curLen := UInt32.ofNat (roundUp s.curLen.toNat) } := by
  by_cases rest : s.curLen.toNat % 0x1000 ≠ 0
  · have up : roundUp s.curLen.toNat = s.curLen.toNat + (0x1000 - s.curLen.toNat % 0x1000) :=
      if_pos rest
    have missing : roundUp s.curLen.toNat - s.curLen.toNat =
        0x1000 - s.curLen.toNat % 0x1000 := by omega
    have sum : UInt32.ofNat (roundUp s.curLen.toNat) =
        s.curLen + UInt32.ofNat (0x1000 - s.curLen.toNat % 0x1000) := by
      rw [up, UInt32.ofNat_add, UInt32.ofNat_toNat]
    rw [fillUp, if_pos rest, clear, padding, missing, sum]
    cases done : put s.buf
        ⟨s.curLen.toNat, List.replicate (0x1000 - s.curLen.toNat % 0x1000) 0⟩ with
    | none =>
        rw [write_none done]
        rfl
    | some buf =>
        rw [write_some done]
        rfl
  · have up : roundUp s.curLen.toNat = s.curLen.toNat := if_neg rest
    have same : UInt32.ofNat (roundUp s.curLen.toNat) = s.curLen := by
      rw [up, UInt32.ofNat_toNat]
    have nothing : (padding s).content = [] := by
      rw [padding, up, Nat.sub_self]
      rfl
    rw [fillUp, if_neg rest, nothing, same]
    rfl

/-- The bytes that the CRC is of. -/
theorem scan_length {n : Nat} (wide : 32 ≤ width) (header : 12 ≤ n) (small : n < 2 ^ 32) :
    (n + 2 ^ width - 12) % 2 ^ width = n - 12 := by
  have bound : 2 ^ 32 ≤ 2 ^ width := Nat.pow_le_pow_right Nat.two_pos wide
  have parts : n + 2 ^ width - 12 = n - 12 + 2 ^ width := by omega
  rw [parts, Nat.add_mod_right]
  exact Nat.mod_eq_of_lt (by omega)

/-- A state in front of the end, for a header of the first version. -/
structure Ready (s : State) : Prop where
  size : 4096 ≤ s.buf.length
  version : s.version = 1
  fsmark : s.fsmark = 0
  header : 28 ≤ s.curLen.toNat
  small : roundUp s.curLen.toNat < 2 ^ 32

/-- What the end makes of the buffer. -/
structure Finished (s : State) (image : List UInt8) : Prop where
  length : image.length = roundUp s.curLen.toNat
  len : load image 4 4 = some (littleEndian (UInt32.ofNat (roundUp s.curLen.toNat)))
  crc : load image 8 4 = some (littleEndian (crc32buf (image.drop 12)))
  cells : ∀ index < roundUp s.curLen.toNat, index < 4 ∨ 16 ≤ index →
    image[index]? = ((padding s).cell index).or s.buf[index]?

theorem finish_closed {written : Bool} (size : 4096 ≤ s.buf.length) (closed : s.opened = false) :
    finish order width written s = .error .exit := by
  obtain ⟨buf, done⟩ := @put_inside 12 (littleEndian (s.version <<< 16)) s.buf (by
    rw [length_littleEndian]
    exact Nat.le_trans (show 12 + 4 ≤ 4096 by decide) size)
  rw [finish, setField_eq, write_some done]
  change (if _ then _ else _) = _
  rw [if_pos]
  rw [closed]
  decide

/-- The state with the flags and the zeros. -/
theorem finish_eq {written : Bool} {flags buf : List UInt8} (ready : Ready s)
    (opened : s.opened = true)
    (first : put s.buf ⟨12, littleEndian (s.version <<< 16)⟩ = some flags)
    (second : put flags (padding s) = some buf) :
    finish order width written s =
      (sealHeader order width
          { s with buf, curLen := UInt32.ofNat (roundUp s.curLen.toNat) }).bind fun s' =>
        if s'.curLen = 0 then .error .exit
        else (read s' 0 s'.curLen.toNat).bind fun image =>
          if written then .ok image else .error .exit := by
  have one : ¬ s.version = 2 := by
    rw [ready.version]
    decide
  rw [finish, setField_eq, write_some first]
  change (if _ then _ else _) = _
  rw [if_neg (not_not_intro opened)]
  have filled := fillUp_eq { s with buf := flags }
  rw [write_some second] at filled
  rw [filled]
  change (sealImage order width _ >>= _) = _
  rw [sealImage, if_neg one]
  rfl

theorem sealHeader_eq {buf scan crc next : List UInt8} {curLen : UInt32} (wide : 32 ≤ width)
    (header : 12 ≤ curLen.toNat) (none : s.fsmark = 0)
    (loaded : load buf 12 (curLen.toNat - 12) = some scan)
    (first : put buf ⟨8, littleEndian (crc32buf scan)⟩ = some crc)
    (second : put crc ⟨4, littleEndian curLen⟩ = some next) :
    sealHeader order width { s with buf, curLen } = .ok { s with buf := next, curLen } := by
  rw [sealHeader]
  dsimp only
  rw [none, if_neg (not_not_intro rfl), scan_length wide header curLen.toNat_lt, read_some loaded]
  change ((setField order _ 8 _).bind _) = _
  rw [setField_eq, write_some first]
  change setField order _ 4 _ = _
  rw [setField_eq, write_some second]

/-- An image that does not fit into the buffer is not read inside it. -/
theorem finish_outside {written : Bool} (wide : 32 ≤ width) (ready : Ready s)
    (opened : s.opened = true) (beyond : s.buf.length < roundUp s.curLen.toNat) :
    finish order width written s = .error .outside := by
  obtain ⟨flags, first⟩ := @put_inside 12 (littleEndian (s.version <<< 16)) s.buf (by
    rw [length_littleEndian]
    exact Nat.le_trans (show 12 + 4 ≤ 4096 by decide) ready.size)
  have size := put_length first
  cases second : put flags (padding s) with
  | none =>
      rw [finish, setField_eq, write_some first]
      change (if _ then _ else _) = _
      rw [if_neg (not_not_intro opened)]
      have filled := fillUp_eq { s with buf := flags }
      rw [write_none second] at filled
      rw [filled]
      rfl
  | some buf =>
      have header := ready.header
      have up := le_roundUp s.curLen.toNat
      have number : (UInt32.ofNat (roundUp s.curLen.toNat)).toNat = roundUp s.curLen.toNat :=
        UInt32.toNat_ofNat_of_lt' ready.small
      have size' := put_length second
      have unread : load buf 12 (roundUp s.curLen.toNat - 12) = none := by
        rw [load, if_neg]
        omega
      rw [finish_eq ready opened first second, sealHeader]
      dsimp only
      rw [ready.fsmark, if_neg (not_not_intro rfl), number,
        scan_length wide (by omega) ready.small, read_none unread]
      rfl

/-- What the end does, where the image fits into the buffer. -/
theorem finish_done {written : Bool} (wide : 32 ≤ width) (ready : Ready s)
    (opened : s.opened = true) (fits : roundUp s.curLen.toNat ≤ s.buf.length) :
    ∃ image, finish order width written s = (if written then .ok image else .error .exit) ∧
      Finished s image := by
  have header := ready.header
  have up := le_roundUp s.curLen.toNat
  have number : (UInt32.ofNat (roundUp s.curLen.toNat)).toNat = roundUp s.curLen.toNat :=
    UInt32.toNat_ofNat_of_lt' ready.small
  obtain ⟨flags, first⟩ := @put_inside 12 (littleEndian (s.version <<< 16)) s.buf (by
    rw [length_littleEndian]
    exact Nat.le_trans (show 12 + 4 ≤ 4096 by decide) ready.size)
  have size := put_length first
  obtain ⟨buf, second⟩ : ∃ buf, put flags (padding s) = some buf :=
    put_inside (by
      rw [List.length_replicate]
      omega)
  have size' := put_length second
  obtain ⟨scan, loaded⟩ : ∃ scan, load buf 12 (roundUp s.curLen.toNat - 12) = some scan :=
    ⟨_, load_eq_some_iff.mpr ⟨by omega, rfl⟩⟩
  obtain ⟨crc, third⟩ := @put_inside 8 (littleEndian (crc32buf scan)) buf (by
    rw [length_littleEndian]
    omega)
  have size'' := put_length third
  obtain ⟨next, fourth⟩ := @put_inside 4
    (littleEndian (UInt32.ofNat (roundUp s.curLen.toNat))) crc (by
      rw [length_littleEndian]
      omega)
  have long := put_length fourth
  obtain ⟨image, whole⟩ : ∃ image, load next 0 (roundUp s.curLen.toNat) = some image :=
    ⟨_, load_eq_some_iff.mpr ⟨by omega, rfl⟩⟩
  have nonzero : ¬ UInt32.ofNat (roundUp s.curLen.toNat) = 0 := by
    intro zero
    rw [zero] at number
    have none : (0 : UInt32).toNat = 0 := rfl
    omega
  have sealed := @sealHeader_eq width order s buf scan crc next
    (UInt32.ofNat (roundUp s.curLen.toNat)) wide (by omega) ready.fsmark
    (by rw [number]; exact loaded) third fourth
  refine ⟨image, ?_, ?_⟩
  · rw [finish_eq ready opened first second, sealed]
    change (if UInt32.ofNat (roundUp s.curLen.toNat) = 0 then _ else _) = _
    rw [if_neg nonzero, number, read_some whole]
    rfl
  · have third' : store buf 8 (littleEndian (crc32buf scan)) = some crc := third
    have fourth' : store crc 4 (littleEndian (UInt32.ofNat (roundUp s.curLen.toNat))) =
      some next := fourth
    have four : ∀ value, (littleEndian value).length = 4 := length_littleEndian
    have len := load_store_self fourth'
    have crcField : load next 8 4 = some (littleEndian (crc32buf scan)) := by
      have self := load_store_self third'
      rw [four] at self
      rw [load_store_disjoint fourth' (.inr (by rw [four]))]
      exact self
    have back : image.drop 12 = scan := by
      have same : load next 12 (roundUp s.curLen.toNat - 12) = some scan := by
        rw [load_store_disjoint fourth' (.inr (by rw [four]; omega)),
          load_store_disjoint third' (.inr (by rw [four]))]
        exact loaded
      have rest := load_back whole (show 12 ≤ roundUp s.curLen.toNat by omega)
      rw [Nat.zero_add, same] at rest
      exact (Option.some.inj rest).symm
    rw [four] at len
    exact {
      length := load_length whole
      len := load_front_of_load whole len (by omega)
      crc := by
        rw [back]
        exact load_front_of_load whole crcField (by omega)
      cells := by
        intro index inside apart
        have silent : ∀ (place : Nat) (value : UInt32), place = 4 ∨ place = 8 ∨ place = 12 →
            Write.cell ⟨place, littleEndian value⟩ index = none := by
          intro place value which
          refine Write.cell_eq_none_iff.mpr ?_
          rw [Write.stop, four]
          dsimp only
          omega
        rw [getElem?_load whole inside, Nat.zero_add, getElem?_put fourth, getElem?_put third,
          getElem?_put second, getElem?_put first, silent 4 _ (.inl rfl),
          silent 8 _ (.inr (.inl rfl)), silent 12 _ (.inr (.inr rfl)), Option.none_or,
          Option.none_or, Option.none_or] }

/-! ## Images -/

/-- The state in front of the loop. -/
structure Begun (s : State) : Prop where
  size : s.buf.length = trxMaxLen
  curLen : s.curLen = 28
  fsmark : s.fsmark = 0
  files : s.files = 0
  version : s.version = 1
  opened : s.opened = false
  magic : load s.buf 0 4 = some (littleEndian trxMagic)

theorem setMagic_begun {memory : List UInt8} (size : memory.length = trxMaxLen) :
    ∃ s, setField order ⟨memory, 28, 0, 0, 1, false⟩ 0 trxMagic = .ok s ∧ Begun s := by
  have room : 0 + 4 ≤ trxMaxLen := by decide
  obtain ⟨buf, done⟩ := @put_inside 0 (littleEndian trxMagic) memory (by
    rw [size, length_littleEndian]
    exact room)
  have long := (put_length done).trans size
  have stored := done
  rw [put_eq_store (by decide)] at stored
  have magic := load_store_self stored
  rw [length_littleEndian] at magic
  refine ⟨⟨buf, 28, 0, 0, 1, false⟩, ?_, long, rfl, rfl, rfl, rfl, rfl, magic⟩
  rw [setField_eq, write_some done]

theorem start_begun (order : ByteOrder) (fresh : Nat → UInt8) :
    ∃ s, start order fresh = .ok s ∧ Begun s := by
  refine setMagic_begun ?_
  rw [List.length_map, List.length_range]

/-- The state behind the first options. -/
def reached (order : ByteOrder) (fresh : Nat → UInt8) (front : List (Opt width)) :
    Except Ended State := do
  let s ← start order fresh
  options order s front

/-- An image that carries its files, each at the position that was current when it was added, with
the header for them. -/
structure Intact (order : ByteOrder) (fresh : Nat → UInt8) (opts : List (Opt width))
    (image : List UInt8) : Prop where
  magic : load image 0 4 = some (littleEndian trxMagic)
  len : ∃ len : UInt32, len.toNat = image.length ∧ load image 4 4 = some (littleEndian len)
  whole : 4096 ∣ image.length
  crc : load image 8 4 = some (littleEndian (crc32buf (image.drop 12)))
  files : ∀ front opt back s content, opts = front ++ opt :: back →
    reached order fresh front = .ok s → opt.content = some content →
      ∀ offset < content.length, image[s.curLen.toNat + offset]? = content[offset]?
  offsets : ∀ front input back s, opts = front ++ .file input :: back →
    reached order fresh front = .ok s →
      load image (16 + 4 * front.countP Opt.isFile) 4 = some (littleEndian s.curLen)

/-- The program stays in its buffer, and an image that it writes is intact. -/
def Sound (order : ByteOrder) (fresh : Nat → UInt8) (written : Bool) (opts : List (Opt width)) :
    Prop :=
  main order fresh written opts ≠ .error .outside ∧
    ∀ image, main order fresh written opts = .ok image → Intact order fresh opts image

/-- The position never wraps around. -/
structure Unwrapped (order : ByteOrder) (fresh : Nat → UInt8) (opts : List (Opt width)) : Prop where
  options : ∀ front opt back s, opts = front ++ opt :: back → reached order fresh front = .ok s →
    ∀ s', step order s opt = .ok s' → s.curLen.toNat + opt.advance s < 2 ^ 32
  image : ∀ s, reached order fresh opts = .ok s → roundUp s.curLen.toNat < 2 ^ 32

/-- Every option stays in the buffer as it is then, and so does the image in the end. -/
structure Inside (order : ByteOrder) (fresh : Nat → UInt8) (opts : List (Opt width)) : Prop where
  options : ∀ front opt back s, opts = front ++ opt :: back → reached order fresh front = .ok s →
    ∀ w ∈ opt.writes s, w.Within s.buf.length
  image : ∀ s, reached order fresh opts = .ok s → s.opened = true →
    roundUp s.curLen.toNat ≤ s.buf.length

/-- No byte of a file, and none of an entry, gets another value by a later write. -/
def Kept (order : ByteOrder) (fresh : Nat → UInt8) (opts : List (Opt width)) : Prop :=
  ∀ last, reached order fresh opts = .ok last → last.opened = true →
    ∀ front opt back s s', opts = front ++ opt :: back → reached order fresh front = .ok s →
      step order s opt = .ok s' →
        (∀ content, opt.content = some content →
          Stays ⟨s.curLen.toNat, content⟩ (later order s' back ++ [padding last])) ∧
        ∀ input, opt = .file input → (entry s).stop ≤ roundUp last.curLen.toNat ∧
          Stays (entry s) (input.writes width s ++ later order s' back ++ [padding last])

theorem later_append (done : options order s front = .ok s') (back : List (Opt width)) :
    later order s (front ++ back) = later order s front ++ later order s' back := by
  induction front generalizing s with
  | nil =>
      obtain rfl := Except.ok.inj done
      rfl
  | cons opt front ih =>
      obtain ⟨next, stepped, rest⟩ := options_cons_eq_ok.mp done
      rw [List.cons_append, later, later, stepped]
      dsimp only
      rw [ih rest, ← List.append_assoc]

theorem options_append :
    options order s (front ++ back) = options order s front >>= fun s' => options order s' back :=
  List.foldlM_append

section Whole

variable {fresh : Nat → UInt8} {first final next : State} {image : List UInt8} {written : Bool}

theorem options_split (done : options order first (front ++ opt :: back) = .ok final) :
    ∃ s s', options order first front = .ok s ∧ step order s opt = .ok s' ∧
      options order s' back = .ok final := by
  rw [options_append] at done
  cases reach : options order first front with
  | error ended =>
      rw [reach] at done
      cases done
  | ok s =>
      rw [reach] at done
      obtain ⟨s', stepped, rest⟩ := options_cons_eq_ok.mp done
      exact ⟨s, s', rfl, stepped, rest⟩

theorem reached_eq (begun : start order fresh = .ok first) (front : List (Opt width)) :
    reached order fresh front = options order first front := by
  rw [reached, begun]
  rfl

/-- In front of the end, the header is one of the first version. -/
theorem ready_of_options (plain : ∀ opt ∈ opts, opt.Plain) (begun : Begun first)
    (forward : Forward order first opts) (small : roundUp final.curLen.toNat < 2 ^ 32)
    (done : options order first opts = .ok final) : Ready final := by
  have ran := ran_of_options plain done
  have position := curLen_le plain forward done
  rw [begun.curLen] at position
  have large : 4096 ≤ first.buf.length := by
    rw [begun.size]
    decide
  exact {
    size := ran.size large
    version := ran.version.trans begun.version
    fsmark := ran.fsmark.trans begun.fsmark
    header := position
    small := small }

/-- The cells of an image behind the header. -/
theorem image_cells (plain : ∀ opt ∈ opts, opt.Plain) (done : options order first opts = .ok final)
    (fits : roundUp final.curLen.toNat ≤ final.buf.length) (finished : Finished final image)
    {index : Nat} (behind : 16 ≤ index) (inside : index < roundUp final.curLen.toNat) :
    image[index]? =
      (last (later order first opts ++ [padding final]) index).or first.buf[index]? := by
  have ran := ran_of_options plain done
  rw [finished.cells index inside (.inr behind), ran.cells index (by omega), last_append, last_cons,
    last_nil, Option.none_or, Option.or_assoc]

theorem image_magic (plain : ∀ opt ∈ opts, opt.Plain) (begun : Begun first)
    (forward : Forward order first opts) (done : options order first opts = .ok final)
    (ready : Ready final) (fits : roundUp final.curLen.toNat ≤ final.buf.length)
    (finished : Finished final image) : load image 0 4 = some (littleEndian trxMagic) := by
  have ran := ran_of_options plain done
  have header := ready.header
  have up := le_roundUp final.curLen.toNat
  have large : 4096 ≤ first.buf.length := by
    rw [begun.size]
    decide
  have position : 16 ≤ first.curLen.toNat := by
    rw [begun.curLen]
    decide
  obtain ⟨-, cells⟩ := (load_eq_some_iff_cells (length_littleEndian _)).mp begun.magic
  refine (load_eq_some_iff_cells (length_littleEndian _)).mpr ⟨?_, ?_⟩
  · rw [finished.length]
    omega
  · intro offset inside
    have silent : (padding final).cell (0 + offset) = none := by
      refine Write.cell_eq_none_iff.mpr (.inl ?_)
      rw [padding]
      dsimp only
      omega
    have untouched := last_later_eq_none plain forward position large
      (show 0 + offset < 16 by omega)
    rw [finished.cells _ (by omega) (.inl (by omega)), silent, Option.none_or,
      ran.cells _ (by omega), untouched, Option.none_or]
    exact cells offset inside

end Whole

section Parts

variable {fresh : Nat → UInt8} {first final : State} {image content : List UInt8} {input : Input}

theorem forward_front (forward : Forward order first (front ++ back)) :
    Forward order first front := by
  intro before opt rest s split done
  refine forward before opt (rest ++ back) s ?_ done
  rw [split, List.append_assoc, List.cons_append]

theorem forward_back (forward : Forward order first (front ++ back))
    (done : options order first front = .ok s) : Forward order s back := by
  intro before opt rest s' split done'
  refine forward (front ++ before) opt rest s' ?_ ?_
  · rw [split, List.append_assoc]
  · rw [options_append, done]
    exact done'

theorem fresh_of_content (same : opt.content = some content) : opt.fresh s = [] := by
  unfold Opt.fresh
  split
  · cases same
  · rfl

/-- The options in front of one, and those behind it. -/
structure Around (order : ByteOrder) (first : State) (front : List (Opt width)) (s : State)
    (opt : Opt width) (s' : State) (back : List (Opt width)) (final : State) : Prop where
  reach : options order first front = .ok s
  stepped : step order s opt = .ok s'
  rest : options order s' back = .ok final

namespace Around

variable (around : Around order first front s opt s' back final)

include around

theorem done : options order first (front ++ opt :: back) = .ok final := by
  rw [options_append, around.reach]
  exact options_cons_eq_ok.mpr ⟨s', around.stepped, around.rest⟩

theorem later_eq : later order first (front ++ opt :: back) =
    later order first front ++ (opt.writes s ++ opt.fresh s ++ later order s' back) := by
  rw [later_append around.reach, later, around.stepped]

/-- The position goes from the header over the option to the end. -/
theorem positions (plain : ∀ other ∈ front ++ opt :: back, other.Plain) (begun : Begun first)
    (forward : Forward order first (front ++ opt :: back)) :
    28 ≤ s.curLen.toNat ∧ s.curLen.toNat + opt.advance s ≤ final.curLen.toNat := by
  have member : opt ∈ front ++ opt :: back := List.mem_append_right _ (List.mem_cons_self ..)
  have follows := follows_of_step (plain opt member) around.stepped
  have before := curLen_le (fun other there => plain other (List.mem_append_left _ there))
    (forward_front forward) around.reach
  obtain ⟨here, others⟩ := each_cons.mp (forward_back forward around.reach)
  have moved := follows.toNat_curLen (here s' around.stepped)
  have behind := curLen_le
    (fun other there => plain other (List.mem_append_right _ (List.mem_cons_of_mem _ there)))
    (others s' around.stepped) around.rest
  rw [begun.curLen] at before
  exact ⟨before, by omega⟩

/-- A file is in the image exactly if no later write says anything else. -/
theorem file_iff (plain : ∀ other ∈ front ++ opt :: back, other.Plain) (begun : Begun first)
    (forward : Forward order first (front ++ opt :: back))
    (fits : roundUp final.curLen.toNat ≤ final.buf.length) (finished : Finished final image)
    (same : opt.content = some content) :
    Stays ⟨s.curLen.toNat, content⟩ (later order s' back ++ [padding final]) ↔
      ∀ offset < content.length, image[s.curLen.toNat + offset]? = content[offset]? := by
  have member : opt ∈ front ++ opt :: back := List.mem_append_right _ (List.mem_cons_self ..)
  have follows := follows_of_step (plain opt member) around.stepped
  obtain ⟨lead, writes⟩ := follows.data content same
  obtain ⟨low, high⟩ := around.positions plain begun forward
  have up := le_roundUp final.curLen.toNat
  have advance : opt.advance s = content.length + padding4 content.length := by
    rw [Opt.advance, same]
    rfl
  have all : later order first (front ++ opt :: back) ++ [padding final] =
      (later order first front ++ lead) ++ (⟨s.curLen.toNat, content⟩ :: ([⟨s.curLen.toNat +
        content.length, List.replicate (padding4 content.length) 0⟩] ++
          (later order s' back ++ [padding final]))) := by
    rw [around.later_eq, writes, fresh_of_content same]
    simp only [List.append_assoc, List.cons_append, List.nil_append]
  have apart : ∀ index value,
      Write.cell ⟨s.curLen.toNat, content⟩ index = some value →
        last [(⟨s.curLen.toNat + content.length,
          List.replicate (padding4 content.length) 0⟩ : Write UInt8)] index = none := by
    intro index value here
    refine last_eq_none fun w there => ?_
    obtain rfl := List.mem_singleton.mp there
    exact Write.cell_eq_none_iff.mpr (.inl (Write.covered here).2)
  rw [← stays_append_of_apart apart]
  refine @stays_iff_cells _ _ (later order first front ++ lead) _ (fun index => image[index]?)
    (fun index => first.buf[index]?) ?_
  intro index value here
  have covered : s.curLen.toNat ≤ index ∧ index < s.curLen.toNat + content.length :=
    Write.covered here
  rw [← all]
  exact image_cells plain around.done fits finished (by omega) (by omega)

/-- An entry is in the image exactly if it ends there and no later write says anything else. -/
theorem entry_iff {input : Input} (isFile : opt = .file input)
    (plain : ∀ other ∈ front ++ opt :: back, other.Plain) (begun : Begun first)
    (fits : roundUp final.curLen.toNat ≤ final.buf.length) (finished : Finished final image) :
    ((entry s).stop ≤ roundUp final.curLen.toNat ∧
        Stays (entry s) (input.writes width s ++ later order s' back ++ [padding final])) ↔
      load image (16 + 4 * front.countP Opt.isFile) 4 = some (littleEndian s.curLen) := by
  have ran := ran_of_options (fun other there => plain other (List.mem_append_left _ there))
    around.reach
  have count : front.countP Opt.isFile = s.files := by
    rw [ran.files, begun.files, Nat.zero_add]
  have stop : (entry s).stop = 16 + 4 * s.files + 4 := by
    rw [Write.stop, entry, length_littleEndian]
  have all : later order first (front ++ opt :: back) ++ [padding final] =
      later order first front ++ (entry s ::
        (input.writes width s ++ later order s' back ++ [padding final])) := by
    rw [around.later_eq, isFile]
    simp only [Opt.writes, Opt.fresh, List.append_assoc, List.cons_append, List.nil_append]
  rw [count, load_eq_some_iff_cells (length_littleEndian _), finished.length, ← stop]
  refine and_congr_right fun inside => ?_
  have seen := @stays_iff_cells _ (entry s) (later order first front)
    (input.writes width s ++ later order s' back ++ [padding final]) (fun index => image[index]?)
    (fun index => first.buf[index]?) (by
      intro index value here
      obtain ⟨low, high⟩ := Write.covered here
      have table : 16 ≤ (entry s).place := Nat.le_add_right 16 _
      rw [← all]
      exact image_cells plain around.done fits finished (by omega) (by omega))
  have four : (entry s).content.length = 4 := length_littleEndian _
  rw [seen, four]
  exact Iff.rfl

end Around

end Parts

section Sound

variable {fresh : Nat → UInt8} {first final : State} {image : List UInt8} {written : Bool}

theorem forward_of_unwrapped (begun : start order fresh = .ok first)
    (unwrapped : Unwrapped order fresh opts) : Forward order first opts := by
  intro front opt back s split done
  exact unwrapped.options front opt back s split ((reached_eq begun front).trans done)

theorem main_eq (begun : start order fresh = .ok first) (opts : List (Opt width)) :
    main order fresh written opts =
      options order first opts >>= fun s => finish order width written s := by
  rw [main, begun]
  rfl

theorem inside_options_iff (begun : start order fresh = .ok first)
    (plain : ∀ opt ∈ opts, opt.Plain) :
    options order first opts ≠ .error .outside ↔
      ∀ front opt back s, opts = front ++ opt :: back → reached order fresh front = .ok s →
        ∀ w ∈ opt.writes s, w.Within s.buf.length := by
  rw [options_inside_iff plain]
  constructor
  · intro each front opt back s split reach
    exact each front opt back s split ((reached_eq begun front).symm.trans reach)
  · intro all front opt back s split done
    exact all front opt back s split ((reached_eq begun front).trans done)

/-- An image that is written is intact exactly if all is kept. -/
theorem intact_iff_kept (plain : ∀ opt ∈ opts, opt.Plain) (started : start order fresh = .ok first)
    (begun : Begun first) (forward : Forward order first opts)
    (done : options order first opts = .ok final) (ready : Ready final)
    (opened : final.opened = true) (fits : roundUp final.curLen.toNat ≤ final.buf.length)
    (finished : Finished final image) :
    Intact order fresh opts image ↔ Kept order fresh opts := by
  constructor
  · intro intact last reach _ front opt back s s' split reach' stepped
    rw [reached_eq started] at reach reach'
    rw [done] at reach
    obtain rfl := Except.ok.inj reach
    subst split
    obtain ⟨other, next, reach'', stepped', rest⟩ := options_split done
    rw [reach'] at reach''
    obtain rfl := Except.ok.inj reach''
    rw [stepped] at stepped'
    obtain rfl := Except.ok.inj stepped'
    have around : Around order first front s opt s' back final := ⟨reach', stepped, rest⟩
    constructor
    · intro content same
      refine (around.file_iff plain begun forward fits finished same).mpr ?_
      exact intact.files front opt back s content rfl ((reached_eq started front).trans reach') same
    · intro input isFile
      refine (around.entry_iff isFile plain begun fits finished).mpr ?_
      subst isFile
      exact intact.offsets front input back s rfl ((reached_eq started front).trans reach')
  · intro kept
    have number : (UInt32.ofNat (roundUp final.curLen.toNat)).toNat = roundUp final.curLen.toNat :=
      UInt32.toNat_ofNat_of_lt' ready.small
    have kept' := kept final ((reached_eq started opts).trans done) opened
    exact {
      magic := image_magic plain begun forward done ready fits finished
      len := ⟨_, number.trans finished.length.symm, finished.len⟩
      whole := by
        rw [finished.length]
        exact dvd_roundUp _
      crc := finished.crc
      files := by
        intro front opt back s content split reach same
        subst split
        obtain ⟨other, s', reach', stepped, rest⟩ := options_split done
        rw [reached_eq started, reach'] at reach
        obtain rfl := Except.ok.inj reach
        have around : Around order first front other opt s' back final := ⟨reach', stepped, rest⟩
        refine (around.file_iff plain begun forward fits finished same).mp ?_
        exact (kept' front opt back other s' rfl ((reached_eq started front).trans reach')
          stepped).1 content same
      offsets := by
        intro front input back s split reach
        subst split
        obtain ⟨other, s', reach', stepped, rest⟩ := options_split done
        rw [reached_eq started, reach'] at reach
        obtain rfl := Except.ok.inj reach
        have around : Around order first front other (.file input) s' back final :=
          ⟨reach', stepped, rest⟩
        refine (around.entry_iff rfl plain begun fits finished).mp ?_
        exact (kept' front _ back other s' rfl ((reached_eq started front).trans reach')
          stepped).2 input rfl }

end Sound

section Three

variable {fresh : Nat → UInt8} {first final : State} {written : Bool}

/-- The buffer has one size throughout. -/
def Opt.Sized : Opt width → Prop
  | .maxlen _ _ => False
  | _ => True

/-- Where a write is that comes from a state on: behind the position, or at an entry of the table
that is free. -/
def Later (s : State) (files : Nat) (w : Write UInt8) : Prop :=
  s.curLen.toNat ≤ w.place ∨
    ∃ k, s.files ≤ k ∧ k < s.files + files ∧ w.place = 16 + 4 * k ∧ w.stop = 16 + 4 * (k + 1)

theorem input_later (s : State) (files : Nat) (input : Input) :
    ∀ w ∈ input.writes width s, Later s files w := by
  intro w member
  cases input with
  | missing => cases member
  | stream content ends =>
      rw [Input.writes] at member
      rcases List.mem_cons.mp member with rfl | behind
      · exact .inl (Nat.le_refl _)
      · split at behind
        · obtain rfl := List.mem_singleton.mp behind
          exact .inl (Nat.le_add_right _ _)
        · cases behind

theorem writes_later (plain : opt.Plain) (s : State) :
    ∀ w ∈ opt.writes s, Later s (if opt.isFile then 1 else 0) w := by
  have fill : ∀ w ∈ [(⟨s.curLen.toNat, List.replicate (opt.fill s) 0⟩ : Write UInt8)],
      Later s (if opt.isFile then 1 else 0) w := by
    intro w member
    obtain rfl := List.mem_singleton.mp member
    exact .inl (Nat.le_refl _)
  intro w member
  cases opt with
  | version2 => exact plain.elim
  | fsmark input => exact plain.elim
  | append input => exact input_later s _ input w member
  | file input =>
      rcases List.mem_cons.mp member with rfl | rest
      · refine .inr ⟨s.files, Nat.le_refl _, Nat.lt_succ_self _, rfl, ?_⟩
        change 16 + 4 * s.files + (littleEndian s.curLen).length = _
        rw [length_littleEndian]
        omega
      · exact input_later s _ input w rest
  | outfile opens => exact fill w member
  | maxlen number fresh => exact fill w member
  | align number => exact fill w member
  | absolute number => exact fill w member
  | relative number => exact fill w member
  | unknown => exact fill w member

theorem fresh_of_sized (sized : opt.Sized) (s : State) : opt.fresh s = [] := by
  cases opt with
  | maxlen number fresh => exact sized.elim
  | _ => rfl

/-- All later writes are behind the position or at free entries. -/
theorem later_places (plain : ∀ opt ∈ opts, opt.Plain) (sized : ∀ opt ∈ opts, opt.Sized)
    (forward : Forward order s opts) :
    ∀ w ∈ later order s opts, Later s (opts.countP Opt.isFile) w := by
  induction opts generalizing s with
  | nil =>
      intro w member
      cases member
  | cons opt opts ih =>
      have here := plain opt (List.mem_cons_self ..)
      intro w member
      rw [later, fresh_of_sized (sized opt (List.mem_cons_self ..)) s, List.append_nil] at member
      rw [List.countP_cons]
      rcases List.mem_append.mp member with now | behind
      · rcases writes_later here s w now with place | ⟨k, low, high, place, stop⟩
        · exact .inl place
        · exact .inr ⟨k, low, by omega, place, stop⟩
      · cases stepped : step order s opt with
        | error ended =>
            rw [stepped] at behind
            cases behind
        | ok next =>
            rw [stepped] at behind
            obtain ⟨moves, others⟩ := each_cons.mp forward
            have follows := follows_of_step here stepped
            have moved := follows.toNat_curLen (moves next stepped)
            have counted := follows.files
            rcases ih (fun other there => plain other (List.mem_cons_of_mem _ there))
                (fun other there => sized other (List.mem_cons_of_mem _ there))
                (others next stepped) w behind with place | ⟨k, low, high, place, stop⟩
            · exact .inl (by omega)
            · exact .inr ⟨k, by omega, by omega, place, stop⟩

/-- With three entries at most, which the header has room for, and one size of the buffer, nothing
is written over a file or over an entry. -/
theorem kept_of_three (plain : ∀ opt ∈ opts, opt.Plain) (sized : ∀ opt ∈ opts, opt.Sized)
    (few : opts.countP Opt.isFile ≤ 3) (unwrapped : Unwrapped order fresh opts) :
    Kept order fresh opts := by
  obtain ⟨first, started, begun⟩ := start_begun order fresh
  have forward := forward_of_unwrapped started unwrapped
  intro last reach _ front opt back s s' split reach' stepped
  rw [reached_eq started] at reach reach'
  subst split
  obtain ⟨other, next, reach'', stepped', rest⟩ := options_split reach
  rw [reach'] at reach''
  obtain rfl := Except.ok.inj reach''
  rw [stepped] at stepped'
  obtain rfl := Except.ok.inj stepped'
  have around : Around order first front s opt s' back last := ⟨reach', stepped, rest⟩
  have member : opt ∈ front ++ opt :: back := List.mem_append_right _ (List.mem_cons_self ..)
  have follows := follows_of_step (plain opt member) stepped
  have behind := (each_cons.mp (forward_back forward reach')).2 s' stepped
  have moved := follows.toNat_curLen ((each_cons.mp (forward_back forward reach')).1 s' stepped)
  have plain' : ∀ other ∈ back, other.Plain := fun other there =>
    plain other (List.mem_append_right _ (List.mem_cons_of_mem _ there))
  have places := later_places plain'
    (fun other there => sized other (List.mem_append_right _ (List.mem_cons_of_mem _ there))) behind
  have position := around.positions plain begun forward
  have final := curLen_le plain' behind rest
  have ran := ran_of_options (fun other there => plain other (List.mem_append_left _ there)) reach'
  have files := ran.files
  rw [begun.files] at files
  have counted := follows.files
  rw [List.countP_append, List.countP_cons] at few
  constructor
  · intro content same
    have advance : opt.advance s = content.length + padding4 content.length := by
      rw [Opt.advance, same]
      rfl
    intro index value here other later'
    obtain ⟨low, high⟩ := Write.covered here
    have stop : Write.stop ⟨s.curLen.toNat, content⟩ = s.curLen.toNat + content.length := rfl
    have start' : Write.place ⟨s.curLen.toNat, content⟩ = s.curLen.toNat := rfl
    have none : Writes.last (later order s' back ++ [padding last]) index = none := by
      refine last_eq_none fun w there => Write.cell_eq_none_iff.mpr ?_
      rcases List.mem_append.mp there with inner | end'
      · rcases places w inner with place | ⟨k, lower, upper, place, stop'⟩
        · exact .inl (by omega)
        · exact .inr (by omega)
      · obtain rfl := List.mem_singleton.mp end'
        exact .inl (by rw [padding]; dsimp only; omega)
    rw [none] at later'
    cases later'
  · intro input isFile
    subst isFile
    have one : (if (Opt.file input : Opt width).isFile = true then 1 else 0) = 1 := rfl
    rw [one] at few counted
    have up := le_roundUp last.curLen.toNat
    have stop : (entry s).stop = 16 + 4 * s.files + 4 := by
      rw [Write.stop, entry, length_littleEndian]
    have start' : (entry s).place = 16 + 4 * s.files := rfl
    refine ⟨by omega, ?_⟩
    intro index value here other later'
    obtain ⟨low, high⟩ := Write.covered here
    have none : Writes.last (input.writes width s ++ later order s' back ++ [padding last]) index =
        none := by
      refine last_eq_none fun w there => Write.cell_eq_none_iff.mpr ?_
      rcases List.mem_append.mp there with inner | end'
      · rcases List.mem_append.mp inner with own | others
        · rcases input_later s 0 input w own with place | ⟨k, lower, upper, -⟩
          · exact .inl (by omega)
          · omega
        · rcases places w others with place | ⟨k, lower, upper, place, stop'⟩
          · exact .inl (by omega)
          · exact .inl (by omega)
      · obtain rfl := List.mem_singleton.mp end'
        exact .inl (by rw [padding]; dsimp only; omega)
    rw [none] at later'
    cases later'

end Three

section Exact

variable {fresh : Nat → UInt8} {first final : State} {written : Bool}

/-- Options that are not all taken. -/
theorem sound_iff_of_error (plain : ∀ opt ∈ opts, opt.Plain) (started : start order fresh = .ok first)
    {ended : Ended} (failed : options order first opts = .error ended) :
    Sound order fresh written opts ↔
      Inside order fresh opts ∧ (written = true → Kept order fresh opts) := by
  have inside := inside_options_iff started plain
  rw [failed, ne_eq, Except.error.injEq] at inside
  have never : ∀ s, reached order fresh opts = .ok s → False := by
    intro s reach
    rw [reached_eq started, failed] at reach
    cases reach
  have result : main order fresh written opts = .error ended := by
    rw [main_eq started, failed]
    rfl
  unfold Sound
  rw [result, ne_eq, Except.error.injEq]
  constructor
  · rintro ⟨stays, -⟩
    refine ⟨⟨inside.mp stays, ?_⟩, ?_⟩
    · intro s reach
      exact (never s reach).elim
    · intro _ s reach
      exact (never s reach).elim
  · rintro ⟨within, -⟩
    refine ⟨inside.mpr within.options, ?_⟩
    intro image same
    cases same

/-- Options that are all taken stay inside. -/
theorem inside_of_ok (plain : ∀ opt ∈ opts, opt.Plain) (started : start order fresh = .ok first)
    (done : options order first opts = .ok final) :
    Inside order fresh opts ↔
      (final.opened = true → roundUp final.curLen.toNat ≤ final.buf.length) := by
  have reach : reached order fresh opts = .ok final := (reached_eq started opts).trans done
  have within := (inside_options_iff started plain).mp (by
    rw [done]
    intro failed
    cases failed)
  constructor
  · intro whole
    exact whole.image final reach
  · intro fits
    refine ⟨within, ?_⟩
    intro s same
    rw [reach] at same
    obtain rfl := Except.ok.inj same
    exact fits

/-- Options without a file. -/
theorem sound_of_closed (started : start order fresh = .ok first)
    (done : options order first opts = .ok final) (ready : Ready final)
    (closed : final.opened = false) :
    Sound order fresh written opts ∧ Kept order fresh opts := by
  have reach : reached order fresh opts = .ok final := (reached_eq started opts).trans done
  have result : main order fresh written opts = .error .exit := by
    rw [main_eq started, done]
    exact finish_closed ready.size closed
  unfold Sound
  rw [result]
  refine ⟨⟨?_, ?_⟩, ?_⟩
  · intro failed
    cases failed
  · intro image same
    cases same
  · intro last same opened
    rw [reach] at same
    obtain rfl := Except.ok.inj same
    rw [closed] at opened
    cases opened

/-- An image that fits into the buffer. -/
theorem sound_iff_of_fits (wide : 32 ≤ width) (plain : ∀ opt ∈ opts, opt.Plain)
    (started : start order fresh = .ok first) (begun : Begun first)
    (forward : Forward order first opts) (done : options order first opts = .ok final)
    (ready : Ready final) (opened : final.opened = true)
    (fits : roundUp final.curLen.toNat ≤ final.buf.length) :
    Sound order fresh written opts ↔ (written = true → Kept order fresh opts) := by
  obtain ⟨image, ended, finished⟩ := @finish_done _ order _ written wide ready opened fits
  have kept := intact_iff_kept plain started begun forward done ready opened fits finished
  have result : main order fresh written opts = if written then .ok image else .error .exit := by
    rw [main_eq started, done]
    exact ended
  unfold Sound
  rw [result]
  cases written with
  | false =>
      constructor
      · intro _ never
        cases never
      · intro _
        refine ⟨?_, ?_⟩
        · intro failed
          cases failed
        · intro other same
          cases same
  | true =>
      constructor
      · rintro ⟨-, intact⟩ _
        exact kept.mp (intact image rfl)
      · intro all
        refine ⟨?_, ?_⟩
        · intro failed
          cases failed
        · intro other same
          obtain rfl := Except.ok.inj same
          exact kept.mpr (all rfl)

/-- Where the position does not wrap around, the program is sound exactly if all stays inside the
buffer and is kept. -/
theorem main_sound_iff (wide : 32 ≤ width) (plain : ∀ opt ∈ opts, opt.Plain)
    (unwrapped : Unwrapped order fresh opts) :
    Sound order fresh written opts ↔
      Inside order fresh opts ∧ (written = true → Kept order fresh opts) := by
  obtain ⟨first, started, begun⟩ := start_begun order fresh
  have forward := forward_of_unwrapped started unwrapped
  cases done : options order first opts with
  | error ended => exact sound_iff_of_error plain started done
  | ok final =>
      have reach : reached order fresh opts = .ok final := (reached_eq started opts).trans done
      have ready := ready_of_options plain begun forward (unwrapped.image final reach) done
      rw [inside_of_ok plain started done]
      cases opened : final.opened with
      | false =>
          obtain ⟨sound, kept⟩ :=
            @sound_of_closed _ order _ fresh _ _ written started done ready opened
          refine iff_of_true sound ⟨?_, fun _ => kept⟩
          intro never
          cases never
      | true =>
          by_cases fits : roundUp final.curLen.toNat ≤ final.buf.length
          · rw [sound_iff_of_fits wide plain started begun forward done ready opened fits]
            exact (and_iff_right fun _ => fits).symm
          · have result : main order fresh written opts = .error .outside := by
              rw [main_eq started, done]
              exact finish_outside wide ready opened (Nat.not_le.mp fits)
            refine iff_of_false ?_ fun all => fits (all.1 rfl)
            rintro ⟨stays, -⟩
            exact stays result

end Exact

/-- The command line with a single file. -/
def oneFile : List (Opt 32) := [.file (.stream [0x27, 0x05, 0x19, 0x56] true)]

theorem oneFile_unwrapped (order : ByteOrder) (fresh : Nat → UInt8) :
    Unwrapped order fresh oneFile := by
  obtain ⟨first, started, begun⟩ := start_begun order fresh
  have plain : ∀ opt ∈ oneFile, opt.Plain := by
    intro opt member
    obtain rfl := List.mem_singleton.mp member
    trivial
  have position : first.curLen.toNat = 28 := by
    rw [begun.curLen]
    rfl
  have advance : ∀ s, (Opt.file (.stream [0x27, 0x05, 0x19, 0x56] true) : Opt 32).advance s = 4 :=
    fun s => rfl
  have forward : Forward order first oneFile := by
    refine each_cons.mpr ⟨?_, fun s' _ => each_nil _⟩
    intro s' _
    rw [position, advance]
    decide
  constructor
  · intro front opt back s split reach
    exact forward front opt back s split ((reached_eq started front).symm.trans reach)
  · intro s reach
    rw [reached_eq started] at reach
    obtain ⟨next, stepped, rest⟩ := options_cons_eq_ok.mp reach
    obtain rfl := Except.ok.inj rest
    have follows := follows_of_step (plain _ (List.mem_cons_self ..)) stepped
    have moved := follows.toNat_curLen ((each_cons.mp forward).1 _ stepped)
    rw [moved, position, advance]
    decide

theorem main_sound_iff_oneFile :
    Sound .little (fun _ => 0) true oneFile ↔
      Inside .little (fun _ => 0) oneFile ∧ (true = true → Kept .little (fun _ => 0) oneFile) :=
  main_sound_iff (Nat.le_refl 32) (fun opt member => by
    obtain rfl := List.mem_singleton.mp member
    trivial) (oneFile_unwrapped _ _)

/-- A place behind the buffer, which has `TRX_MAX_LEN` bytes. -/
def farPlace : List (Opt 32) := [.absolute (some 0x800000), .file (.stream [0x27] true)]

/-- The bytes in front of the place are cleared without a look at the end of the buffer. -/
theorem main_leaves_buffer : ¬ Sound .little (fun _ => 0) true farPlace := by
  obtain ⟨first, started, begun⟩ := start_begun .little fun _ => 0
  have plain : ∀ opt ∈ farPlace, opt.Plain := by
    intro opt member
    rcases List.mem_cons.mp member with rfl | rest
    · trivial
    · obtain rfl := List.mem_singleton.mp rest
      trivial
  rintro ⟨stays, -⟩
  have inside : options .little first farPlace ≠ .error .outside := by
    intro outside
    rw [main_eq started, outside] at stays
    exact stays rfl
  have each := (each_cons.mp ((options_inside_iff plain).mp inside)).1
  have within := each ⟨first.curLen.toNat, List.replicate (0x800000 - first.curLen.toNat) 0⟩
    (List.mem_singleton.mpr rfl)
  have position : first.curLen.toNat = 28 := by
    rw [begun.curLen]
    rfl
  rcases within with nothing | fits
  · rw [List.replicate_eq_nil_iff, position] at nothing
    cases nothing
  · rw [Write.stop, begun.size, List.length_replicate, position] at fits
    exact absurd fits (by decide)

end Trunk.Firmware.Trx
