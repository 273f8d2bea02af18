import Trunk.Partool.Line

/-! # Writing a block and reading it back

`part_line_wirte` writes lines until one does not fit; what it wrote is followed by
zeros (`Trunk.Partool.partLineWirte_eq`). The image of a block passes its own CRC check,
and `part_line_read` gives the variables back if and only if they are plain and all fit
(`Trunk.Partool.roundTrip_iff`).
-/

namespace Trunk.Partool

open CString Text Number Crc32

variable {past : UInt8} {list : List PartCursor} {c : PartCursor}

theorem mem_ofBuffer {buffer : List UInt8} {byte : UInt8}
    (member : byte ∈ (CStr.ofBuffer buffer).bytes) : byte ∈ buffer :=
  (List.takeWhile_subset _) member

/-- What ends up in the line buffer is a string, without a line end and short enough. -/
theorem partReadLine_line (past : UInt8) (begin : Option (List UInt8)) (lineSize : Nat)
    (positive : 0 < lineSize) :
    0 ∉ (partReadLine past begin lineSize).1 ∧
      partCrlf ∉ (partReadLine past begin lineSize).1 ∧
      (partReadLine past begin lineSize).1.length < lineSize := by
  have ending : ∀ (buffer : List UInt8) (newline : Option (List UInt8)), partCrlf ∉ buffer →
      0 ∉ (endLine lineSize buffer newline).1 ∧ partCrlf ∉ (endLine lineSize buffer newline).1 ∧
        (endLine lineSize buffer newline).1.length < lineSize := by
    intro buffer newline noCrlf
    unfold endLine
    split
    · exact ⟨List.not_mem_nil, List.not_mem_nil, positive⟩
    · rename_i short
      refine ⟨(CStr.ofBuffer buffer).noNul, fun crlf => noCrlf (mem_ofBuffer crlf), ?_⟩
      have bound : (CStr.ofBuffer buffer).bytes.length ≤ buffer.length :=
        (List.takeWhile_prefix _).length_le
      exact Nat.lt_of_le_of_lt bound (Nat.lt_of_not_le short)
  unfold partReadLine
  split
  · exact ⟨List.not_mem_nil, List.not_mem_nil, positive⟩
  · exact ⟨List.not_mem_nil, List.not_mem_nil, positive⟩
  · rename_i rest _
    split
    · apply ending
      intro crlf
      have stop := List.mem_takeWhile_imp crlf
      simp at stop
    · rename_i none
      have noCrlf : partCrlf ∉ rest := by
        intro crlf
        have all := List.dropWhile_eq_nil_iff.mp none partCrlf crlf
        simp at all
      split
      · exact ending _ _ noCrlf
      · rename_i other
        apply ending
        intro crlf
        rcases List.mem_append.mp crlf with listed | last
        · exact noCrlf listed
        · exact other (List.mem_singleton.mp last).symm

/-- The lines that `part_line_read` reaches. -/
theorem partReadLines_line (begin : Option (List UInt8)) {line : List UInt8}
    (member : line ∈ partReadLines past begin) :
    0 ∉ line ∧ partCrlf ∉ line ∧ line.length < partMaxLine := by
  induction begin using partReadLines.induct past with
  | case1 begin goes ih =>
      rw [partReadLines, if_pos goes] at member
      rcases List.mem_cons.mp member with rfl | later
      · exact partReadLine_line past begin partMaxLine (by decide)
      · exact ih later
  | case2 begin stops =>
      rw [partReadLines, if_neg stops] at member
      cases member

/-- Whatever the cache holds, what is read from it is plain. -/
theorem filterMap_partReadLines_plain (begin : Option (List UInt8))
    (member : c ∈ (partReadLines past begin).filterMap partParseLine) : Plain c := by
  obtain ⟨line, listed, parsed⟩ := List.mem_filterMap.mp member
  obtain ⟨noNul, noCrlf, short⟩ := partReadLines_line begin listed
  exact partParseLine_plain noNul noCrlf short parsed

theorem Plain.lineText_noCrlf (plain : Plain c) : partCrlf ∉ lineText c := by
  intro crlf
  rcases List.mem_append.mp crlf with name | rest
  · exact (plain.name_chars _ name).2.2 rfl
  · rcases List.mem_cons.mp rest with separator | value
    · exact absurd separator (by decide)
    · exact plain.value_chars value

theorem lineText_noNul (c : PartCursor) : 0 ∉ lineText c := by
  intro zero
  rcases List.mem_append.mp zero with name | rest
  · exact c.k.noNul name
  · rcases List.mem_cons.mp rest with separator | value
    · exact absurd separator (by decide)
    · exact c.v.noNul value

/-- The line of a plain variable is read whole, and reading goes on behind it. -/
theorem Plain.partReadLine_eq (plain : Plain c) {rest : List UInt8} (more : rest ≠ []) :
    partReadLine past (some (lineBytes c ++ rest)) partMaxLine = (lineText c, some rest) := by
  have text : lineBytes c ++ rest = lineText c ++ partCrlf :: rest := by
    rw [lineBytes_eq, List.append_assoc, List.singleton_append]
  have short : ¬ partMaxLine ≤ (lineText c).length := by
    rw [lineText_length, partMaxLine]
    have bound := plain.length_le
    omega
  have continues : rest.isEmpty = false := List.isEmpty_eq_false_iff.mpr more
  rw [text, partReadLine_crlf past rest partMaxLine plain.lineText_noCrlf, continues, endLine,
    if_neg short, CStr.ofBuffer_eq (lineText_noNul c)]
  rfl

/-- Behind the last line there are zeros, which hold nothing to read. -/
theorem partReadLines_zeros (room : Nat) :
    partReadLines past (some (List.replicate room 0)) = [] := by
  have stops : (partReadLine past (some (List.replicate room 0)) partMaxLine) = ([], none) := by
    cases room with
    | zero => rfl
    | succ room =>
        have drop : ((0 :: List.replicate room 0).dropWhile fun byte : UInt8 => byte ≠ partCrlf) =
            [] := by
          rw [List.dropWhile_eq_nil_iff]
          intro byte member
          rw [← List.replicate_succ] at member
          rw [List.eq_of_mem_replicate member]
          rfl
        rw [List.replicate_succ]
        simp only [partReadLine, drop, endLine, CStr.ofBuffer]
        split <;> split <;> rfl
  rw [partReadLines, stops]
  rfl

/-- Lines of plain variables, with zeros behind them, give the variables back. -/
theorem filterMap_partReadLines_eq (plain : ∀ c ∈ list, Plain c) {room : Nat}
    (some_room : list ≠ [] → room ≠ 0) :
    (partReadLines past (some (list.flatMap lineBytes ++ List.replicate room 0))).filterMap
      partParseLine = list := by
  induction list with
  | nil =>
      rw [List.flatMap_nil, List.nil_append, partReadLines_zeros]
      rfl
  | cons c list ih =>
      have room_ne := some_room (List.cons_ne_nil c list)
      have here := plain c (List.mem_cons_self ..)
      have more : list.flatMap lineBytes ++ List.replicate room 0 ≠ [] := by
        intro empty
        have zeros := (List.append_eq_nil_iff.mp empty).2
        rw [List.replicate_eq_nil_iff] at zeros
        exact room_ne zeros
      have rest := ih (fun other member => plain other (List.mem_cons_of_mem _ member))
        fun _ => room_ne
      rw [List.flatMap_cons, List.append_assoc, partReadLines, here.partReadLine_eq more,
        if_pos (.inl rfl), List.filterMap_cons_some here.partParseLine_eq, rest]

/-- The variables `part_line_wirte` writes into `room` bytes: those before the first
that does not fit with a NUL behind it. -/
def fitting : Nat → List PartCursor → List PartCursor
  | _, [] => []
  | room, c :: rest =>
      if (lineBytes c).length + 1 ≤ room then c :: fitting (room - (lineBytes c).length) rest
      else []

/-- The bytes of the variables' lines. -/
def textLength (list : List PartCursor) : Nat :=
  (list.map fun c => c.k.bytes.length + c.v.bytes.length + 2).sum

theorem length_flatMap_lineBytes (list : List PartCursor) :
    (list.flatMap lineBytes).length = textLength list := by
  induction list with
  | nil => rfl
  | cons c list ih =>
      rw [List.flatMap_cons, List.length_append, ih, lineBytes_length]
      rfl

theorem textLength_cons (c : PartCursor) (list : List PartCursor) :
    textLength (c :: list) = (lineBytes c).length + textLength list := by
  rw [lineBytes_length]
  rfl

/-- What is written leaves a NUL. -/
theorem textLength_fitting (room : Nat) (list : List PartCursor) :
    fitting room list = [] ∨ textLength (fitting room list) + 1 ≤ room := by
  induction list generalizing room with
  | nil => exact .inl rfl
  | cons c list ih =>
      unfold fitting
      split
      · right
        rw [textLength_cons]
        rcases ih (room - (lineBytes c).length) with nothing | bound
        · rw [nothing]
          change (lineBytes c).length + 0 + 1 ≤ room
          omega
        · omega
      · exact .inl rfl

/-- Everything is written if and only if it fits together with a NUL. -/
theorem fitting_eq_self_iff (room : Nat) (list : List PartCursor) :
    fitting room list = list ↔ list = [] ∨ textLength list + 1 ≤ room := by
  constructor
  · intro whole
    have bound := textLength_fitting room list
    rwa [whole] at bound
  · intro fits
    induction list generalizing room with
    | nil => rfl
    | cons c list ih =>
        have bound := fits.resolve_left (List.cons_ne_nil c list)
        rw [textLength_cons] at bound
        rw [fitting, if_pos (by omega), ih (room - (lineBytes c).length) (.inr (by omega))]

/-- `part_write_line` into the zeros behind what is written. -/
theorem partWriteLine_eq (front : List UInt8) (room : Nat) (c : PartCursor) :
    partWriteLine (front ++ List.replicate room 0) (some front.length) c =
      if (lineBytes c).length + 1 ≤ room then
        some (front ++ lineBytes c ++ List.replicate (room - (lineBytes c).length) 0,
          some (front ++ lineBytes c).length)
      else some (front ++ List.replicate room 0, none) := by
  simp only [partWriteLine, List.length_append, List.length_replicate]
  by_cases fits : (lineBytes c).length + 1 ≤ room
  · rw [if_neg (by omega), if_pos fits]
    have stored : Memory.store (front ++ List.replicate room (0 : UInt8)) front.length
        (lineBytes c) =
        some (front ++ lineBytes c ++ List.replicate (room - (lineBytes c).length) 0) := by
      refine Memory.store_eq_some_iff.mpr ⟨?_, ?_⟩
      · rw [List.length_append, List.length_replicate]
        omega
      · rw [List.take_left, ← List.drop_drop, List.drop_left, List.drop_replicate]
    simp only [stored, Option.bind_eq_bind, Option.bind_some, Option.pure_def]
  · rw [if_pos (by omega), if_neg fits]

theorem foldlM_partWriteLine_none (cache : List UInt8) (list : List PartCursor) :
    list.foldlM (fun (place : List UInt8 × Option Nat) c => partWriteLine place.1 place.2 c)
      (cache, none) = some (cache, none) := by
  induction list with
  | nil => rfl
  | cons c list ih =>
      rw [List.foldlM_cons]
      exact ih

/-- The loop of `part_line_wirte`. -/
theorem foldlM_partWriteLine_eq (front : List UInt8) (room : Nat) (list : List PartCursor) :
    ∃ next, list.foldlM (fun (place : List UInt8 × Option Nat) c =>
        partWriteLine place.1 place.2 c) (front ++ List.replicate room 0, some front.length) =
      some (front ++ (fitting room list).flatMap lineBytes ++
        List.replicate (room - textLength (fitting room list)) 0, next) := by
  induction list generalizing front room with
  | nil =>
      refine ⟨some front.length, ?_⟩
      simp only [List.foldlM_nil, fitting, List.flatMap_nil, List.append_nil, Option.pure_def]
      rfl
  | cons c list ih =>
      rw [List.foldlM_cons, partWriteLine_eq]
      by_cases fits : (lineBytes c).length + 1 ≤ room
      · obtain ⟨next, rest⟩ := ih (front ++ lineBytes c) (room - (lineBytes c).length)
        refine ⟨next, ?_⟩
        rw [if_pos fits, fitting, if_pos fits]
        simp only [Option.bind_eq_bind, Option.bind_some]
        rw [rest, List.flatMap_cons, textLength_cons, List.append_assoc front, Nat.sub_sub]
      · refine ⟨none, ?_⟩
        rw [if_neg fits, fitting, if_neg fits]
        simp only [Option.bind_eq_bind, Option.bind_some]
        rw [foldlM_partWriteLine_none, List.flatMap_nil, List.append_nil]
        rfl

/-- What the cache holds behind the CRC: the lines that fit, and zeros. -/
def payload (room : Nat) (list : List PartCursor) : List UInt8 :=
  (fitting room list).flatMap lineBytes ++
    List.replicate (room - textLength (fitting room list)) 0

theorem payload_length (room : Nat) (list : List PartCursor) :
    (payload room list).length = room := by
  rw [payload, List.length_append, length_flatMap_lineBytes, List.length_replicate]
  rcases textLength_fitting room list with nothing | bound
  · rw [nothing]
    change 0 + (room - 0) = room
    omega
  · omega

/-- The CRC in text, padded with NULs. -/
def crcText (crc : UInt32) : List UInt8 :=
  (hexString crc.toNat ++ List.replicate (1 + crc32Stringlen) 0).take crc32Stringlen

theorem hexString_crc_length (crc : UInt32) : (hexString crc.toNat).length ≤ crc32Stringlen :=
  hexString_length_le (by decide) crc.toNat_lt

theorem crcText_length (crc : UInt32) : (crcText crc).length = crc32Stringlen := by
  rw [crcText, List.length_take, List.length_append, List.length_replicate]
  omega

/-- The text of a CRC, up to its first NUL, is its digits. -/
theorem ofBuffer_crcText (crc : UInt32) :
    (CStr.ofBuffer (crcText crc)).bytes = hexString crc.toNat := by
  have digits : ∀ byte ∈ hexString crc.toNat, decide (byte ≠ 0) = true := by
    intro byte member
    rw [decide_eq_true_eq]
    rintro rfl
    exact hexString_noNul _ member
  change (crcText crc).takeWhile _ = _
  rw [crcText, List.take_append, List.take_of_length_le (hexString_crc_length crc),
    List.take_replicate, List.takeWhile_append_of_pos digits]
  cases min (crc32Stringlen - (hexString crc.toNat).length) (1 + crc32Stringlen) with
  | zero => simp
  | succ zeros => simp [List.replicate_succ]

/-- `part_block_crc_write` on a cache with something behind the header. -/
theorem partBlockCrcWrite_eq (block : PartBlock) {front rest : List UInt8}
    (cache : block.cache = front ++ rest) (header : front.length = headerLen) :
    partBlockCrcWrite block =
      some { block with cache := crcText (osCrc32 rest) ++ [partCrlf] ++ rest } := by
  have enough : headerLen ≤ block.size := by
    rw [PartBlock.size, cache, List.length_append]
    omega
  have dropped : block.cache.drop headerLen = rest := by rw [cache, ← header, List.drop_left]
  have eight : headerLen = crc32Stringlen + 1 := rfl
  obtain ⟨digits, newline, split, length⟩ : ∃ digits newline, front = digits ++ [newline] ∧
      digits.length = crc32Stringlen := by
    refine ⟨front.dropLast, front.getLast (by rintro rfl; cases header), ?_, ?_⟩
    · rw [List.dropLast_append_getLast]
    · rw [List.length_dropLast, header]
      rfl
  have first : Memory.store block.cache 0 (crcText (osCrc32 rest)) =
      some (crcText (osCrc32 rest) ++ [newline] ++ rest) := by
    refine Memory.store_eq_some_iff.mpr ⟨?_, ?_⟩
    · rw [crcText_length, ← PartBlock.size]
      omega
    · rw [List.take_zero, List.nil_append, Nat.zero_add, crcText_length, cache, split,
        List.append_assoc, ← length, List.drop_left, List.append_assoc]
  have second : Memory.store (crcText (osCrc32 rest) ++ [newline] ++ rest) crc32Stringlen
      [partCrlf] = some (crcText (osCrc32 rest) ++ [partCrlf] ++ rest) := by
    have text := crcText_length (osCrc32 rest)
    refine Memory.store_eq_some_iff.mpr ⟨?_, ?_⟩
    · simp only [List.length_append, List.length_singleton, text]
      omega
    · rw [List.append_assoc (crcText _) [newline], List.take_left' text, ← List.drop_drop,
        List.drop_left' text]
      rfl
  simp only [partBlockCrcWrite, partBlockCrc, enough, ↓reduceIte, dropped]
  simp only [Option.bind_eq_bind, Option.bind_some, Option.pure_def]
  change (Memory.store block.cache 0 (crcText (osCrc32 rest))).bind _ = _
  rw [first, Option.bind_some, second, Option.bind_some]

theorem partBlockCrcWrite_eq_none (block : PartBlock) (short : block.size < headerLen) :
    partBlockCrcWrite block = none := by
  rw [partBlockCrcWrite, partBlockCrc, if_neg (by omega)]
  rfl

/-- The CRC that was written is the one that is read, and the one that is computed. -/
theorem crc_read_back (block : PartBlock) {rest : List UInt8}
    (cache : block.cache = crcText (osCrc32 rest) ++ [partCrlf] ++ rest) :
    partBlockCrcRead block = some (osCrc32 rest) ∧ partBlockCrc block = some (osCrc32 rest) := by
  have text := crcText_length (osCrc32 rest)
  have header : (crcText (osCrc32 rest) ++ [partCrlf]).length = headerLen := by
    rw [List.length_append, text]
    rfl
  constructor
  · have loaded : Memory.load block.cache 0 crc32Stringlen = some (crcText (osCrc32 rest)) := by
      refine Memory.load_eq_some_iff.mpr ⟨?_, ?_⟩
      · rw [cache]
        simp only [List.length_append, text]
        omega
      · rw [List.drop_zero, cache, List.append_assoc, List.take_left' text]
    have small := (osCrc32 rest).toNat_lt
    simp only [partBlockCrcRead, loaded, ofBuffer_crcText, Option.bind_eq_bind, Option.bind_some,
      osDigitstring2number_hexString (show (osCrc32 rest).toNat < 2 ^ 64 by omega),
      Option.pure_def, UInt32.ofNat_toNat]
  · have enough : headerLen ≤ block.size := by
      rw [PartBlock.size, cache, List.length_append]
      omega
    rw [partBlockCrc, if_pos enough, cache, List.drop_left' header]

/-- `part_line_wirte`, in a cache that has room for the header. -/
theorem partLineWirte_eq (block : PartBlock) (enough : headerLen ≤ block.size) :
    partLineWirte block = some { block with
      dirty := false
      cache := crcText (osCrc32 (payload (block.size - headerLen) block.list)) ++ [partCrlf] ++
        payload (block.size - headerLen) block.list } := by
  have zeros : List.replicate block.size (0 : UInt8) =
      List.replicate headerLen 0 ++ List.replicate (block.size - headerLen) 0 := by
    rw [List.replicate_append_replicate]
    congr 1
    omega
  obtain ⟨next, written⟩ := foldlM_partWriteLine_eq (List.replicate headerLen 0)
    (block.size - headerLen) block.list
  rw [List.length_replicate] at written
  rw [partLineWirte, zeros, written]
  simp only [Option.bind_eq_bind, Option.bind_some]
  rw [partBlockCrcWrite_eq _ (List.append_assoc ..) (List.length_replicate ..)]
  rfl

/-- In a cache without room for the header, `part_line_wirte` leaves it. -/
theorem partLineWirte_eq_none (block : PartBlock) (short : block.size < headerLen) :
    partLineWirte block = none := by
  have unwritten : ∃ next, block.list.foldlM (fun (place : List UInt8 × Option Nat) c =>
      partWriteLine place.1 place.2 c) (List.replicate block.size 0, some headerLen) =
      some (List.replicate block.size 0, next) := by
    cases block.list with
    | nil => exact ⟨some headerLen, rfl⟩
    | cons c list =>
        refine ⟨none, ?_⟩
        have refused : partWriteLine (List.replicate block.size 0) (some headerLen) c =
            some (List.replicate block.size 0, none) := by
          simp only [partWriteLine, List.length_replicate]
          rw [if_pos (by omega)]
        rw [List.foldlM_cons, refused]
        exact foldlM_partWriteLine_none _ list
  obtain ⟨next, unwritten⟩ := unwritten
  rw [partLineWirte, unwritten]
  simp only [Option.bind_eq_bind, Option.bind_some]
  rw [partBlockCrcWrite_eq_none _ (by rw [PartBlock.size, List.length_replicate]; exact short)]
  rfl

/-- A cache combined with a key. -/
def masked (order : ByteOrder) (key : UInt32) (cache : List UInt8) : List UInt8 :=
  if key = 0 then cache else cache.mapIdx fun index byte => byte ^^^ xorByte order key index

theorem masked_length (order : ByteOrder) (key : UInt32) (cache : List UInt8) :
    (masked order key cache).length = cache.length := by
  unfold masked
  split
  · rfl
  · exact List.length_mapIdx

/-- Combining a second time undoes the first. -/
theorem masked_masked (order : ByteOrder) (key : UInt32) (cache : List UInt8) :
    masked order key (masked order key cache) = cache := by
  unfold masked
  split
  · rfl
  · apply List.ext_getElem?
    intro index
    simp only [List.getElem?_mapIdx, Option.map_map]
    cases cache[index]? with
    | none => rfl
    | some byte =>
        simp only [Option.map_some, Function.comp, UInt8.xor_assoc, UInt8.xor_self, UInt8.xor_zero]

theorem partXor_eq (order : ByteOrder) (block : PartBlock) (words : 4 ∣ block.size) :
    partXor order block = some { block with cache := masked order block.xor block.cache } := by
  unfold partXor masked
  split
  · rfl
  · simp only [↓reduceIte, Nat.mod_eq_zero_of_dvd words]

/-- The key a block is made with. -/
def blockKey (xor : UInt32) : UInt32 := if xor = 0 then partXorDefault else xor

theorem blockKey_ne_zero (xor : UInt32) : blockKey xor ≠ 0 := by
  unfold blockKey
  split
  · decide
  · assumption

/-- What `part_line_wirte` and `part_xor` make of a list of variables in a new block. -/
def partImage (order : ByteOrder) (size : Nat) (xor : UInt32) (list : List PartCursor) :
    Option (List UInt8) := do
  let block ← partLineWirte { partBlockNew .empty size xor with list := list }
  let block ← partXor order block
  return block.cache

/-- The cache of a list of variables: the CRC and what it is computed from. -/
def fullCache (size : Nat) (list : List PartCursor) : List UInt8 :=
  crcText (osCrc32 (payload (size - headerLen) list)) ++ [partCrlf] ++
    payload (size - headerLen) list

theorem fullCache_length {size : Nat} (enough : headerLen ≤ size) (list : List PartCursor) :
    (fullCache size list).length = size := by
  simp only [fullCache, List.length_append, crcText_length, payload_length, List.length_singleton]
  change crc32Stringlen + 1 + (size - (1 + crc32Stringlen)) = size
  rw [headerLen] at enough
  omega

theorem partBlockNew_size (mode : PartMode) (size : Nat) (xor : UInt32) :
    (partBlockNew mode size xor).size = size :=
  List.length_replicate ..

theorem partImage_eq (order : ByteOrder) {size : Nat} (words : 4 ∣ size)
    (enough : headerLen ≤ size) (xor : UInt32) (list : List PartCursor) :
    partImage order size xor list = some (masked order (blockKey xor) (fullCache size list)) := by
  have length : PartBlock.size { partBlockNew .empty size xor with list := list } = size :=
    partBlockNew_size .empty size xor
  have written := partLineWirte_eq { partBlockNew .empty size xor with list := list }
    (length.symm ▸ enough)
  rw [length] at written
  rw [partImage, written]
  simp only [Option.bind_eq_bind, Option.bind_some]
  rw [partXor_eq]
  · rfl
  · change 4 ∣ (fullCache size list).length
    rw [fullCache_length enough]
    exact words

theorem partImage_eq_none (order : ByteOrder) {size : Nat} (short : size < headerLen)
    (xor : UInt32) (list : List PartCursor) : partImage order size xor list = none := by
  have length := partBlockNew_size .empty size xor
  rw [partImage, partLineWirte_eq_none]
  · rfl
  · change (partBlockNew .empty size xor).size < headerLen
    omega

/-- Reading the image of a list in normal mode passes the CRC check, and finds in it
what `part_line_read` finds in the written lines. -/
theorem partBlockCreate_normal (order : ByteOrder) (past : UInt8) {size : Nat}
    (words : 4 ∣ size) (enough : headerLen ≤ size) (xor : UInt32) (list : List PartCursor)
    (file : Option (List UInt8)) (errno : Nat) :
    ∃ block, partBlockCreate order past .normal size
        (fun _ => (0, masked order (blockKey xor) (fullCache size list))) file errno xor =
        some (some block) ∧
      block.list = (partReadLines past (some (payload (size - headerLen) list))).filterMap
        partParseLine := by
  have positive : size ≠ 0 := by
    rintro rfl
    cases enough
  let loaded : PartBlock := { partBlockNew .normal size xor with cache := fullCache size list }
  have low : partLowRead order (fun _ => (0, masked order (blockKey xor) (fullCache size list)))
      (partBlockNew .normal size xor) = some (0, loaded) := by
    have dividing : 4 ∣ PartBlock.size { partBlockNew .normal size xor with
        cache := masked order (blockKey xor) (fullCache size list) } := by
      rw [PartBlock.size, masked_length, fullCache_length enough]
      exact words
    rw [partLowRead, partXor_eq _ _ dividing]
    change some ((0 : Int), { partBlockNew .normal size xor with
      cache := masked order (blockKey xor) (masked order (blockKey xor) (fullCache size list)) }) = _
    rw [masked_masked]
  obtain ⟨old, new⟩ := crc_read_back loaded rfl
  have high : partHighRead past loaded = some (0, partLineRead past loaded) := by
    rw [partHighRead, old, new]
    simp only [PartBlock.count, loaded, partBlockNew, List.length_nil, ne_eq, not_true_eq_false,
      ↓reduceIte, Option.bind_eq_bind, Option.bind_some, Option.pure_def]
  refine ⟨partLineRead past loaded, ?_, ?_⟩
  · have init : partBlockInit order past
        (fun _ => (0, masked order (blockKey xor) (fullCache size list))) file errno
        (partBlockNew .normal size xor) = some (0, partLineRead past loaded) := by
      change partBlockInitBynormal order past _ _ = _
      rw [partBlockInitBynormal, low]
      simp only [Option.bind_eq_bind, Option.bind_some, high, lt_self_iff_false, ↓reduceIte,
        Option.pure_def]
    rw [partBlockCreate, if_neg positive, init]
    rfl
  · have header : (crcText (osCrc32 (payload (size - headerLen) list)) ++ [partCrlf]).length =
        headerLen := by
      rw [List.length_append, crcText_length]
      rfl
    change [] ++ (partReadLines past (some ((fullCache size list).drop headerLen))).filterMap
      partParseLine = _
    rw [List.nil_append, fullCache, List.drop_left' header]

theorem fitting_subset (room : Nat) (list : List PartCursor) : fitting room list ⊆ list := by
  induction list generalizing room with
  | nil => exact fun _ member => member
  | cons c list ih =>
      unfold fitting
      split
      · exact List.cons_subset_cons c (ih _)
      · exact List.nil_subset _

/-- Plain variables are read back as far as they were written. -/
theorem filterMap_payload_eq (room : Nat) (plain : ∀ c ∈ fitting room list, Plain c) :
    (partReadLines past (some (payload room list))).filterMap partParseLine =
      fitting room list := by
  apply filterMap_partReadLines_eq plain
  intro nonempty
  have bound := (textLength_fitting room list).resolve_left nonempty
  omega

/-- The list that comes back is the list that went in exactly if every variable is plain
and all of them fit. -/
theorem filterMap_payload_eq_self_iff (room : Nat) :
    (partReadLines past (some (payload room list))).filterMap partParseLine = list ↔
      (∀ c ∈ list, Plain c) ∧ (list = [] ∨ textLength list + 1 ≤ room) := by
  constructor
  · intro same
    have plain : ∀ c ∈ list, Plain c := by
      intro c member
      rw [← same] at member
      exact filterMap_partReadLines_plain _ member
    rw [filterMap_payload_eq room fun c member => plain c (fitting_subset room list member)] at same
    exact ⟨plain, (fitting_eq_self_iff room list).mp same⟩
  · rintro ⟨plain, fits⟩
    have whole := (fitting_eq_self_iff room list).mpr fits
    rw [filterMap_payload_eq room (by rw [whole]; exact plain), whole]

end Trunk.Partool
