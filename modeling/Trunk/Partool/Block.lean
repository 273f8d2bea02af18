import Trunk.Foundation.Memory
import Trunk.Utils.Crc32
import Trunk.Utils.Errno
import Trunk.Utils.Number
import Trunk.Utils.Text

/-! # Partition blocks

The model of `partool.c`: a block of variables, its cache of the size of the flash
partition, and the ways between the two. The cache starts with the CRC of what follows
it, in hexadecimal, and holds one line for each variable. On the partition it is
combined with the block's key word by word, in the byte order of the host.

Memory is allocated whenever it is asked for. An access outside the cache has no
result, with one exception: `part_read_line` looks at the byte behind the cache, whose
value is the parameter `past`.
-/

namespace Trunk.Partool

open CString Text Number Crc32

/-- The byte order of the host. -/
inductive ByteOrder where
  | little
  | big
  deriving DecidableEq, Repr

/-- `PART_XOR`. -/
def partXorDefault : UInt32 := 0x94f00d1e

/-- `PART_MAX_LINE`. -/
def partMaxLine : Nat := 1023

/-- `PART_COMMENT`. -/
def partComment : UInt8 := ascii '#'

/-- `PART_SEPERATOR`. -/
def partSeperator : UInt8 := ascii '\t'

/-- `PART_CRLF`. -/
def partCrlf : UInt8 := ascii '\n'

/-- `struct part_cursor`: a name and a value. -/
structure PartCursor where
  k : CStr
  v : CStr
  deriving DecidableEq, Repr

/-- `PART_MODE_NORMAL` and the other modes. -/
inductive PartMode where
  | normal
  | empty
  | crc
  | load
  deriving DecidableEq, Repr

/-- `struct part_block`. Its `size` is the length of the cache and its `count` the
length of the list; `PART_CACHED` and `PART_DIRTY` are the two flags. -/
structure PartBlock where
  cache : List UInt8
  list : List PartCursor
  xor : UInt32
  mode : PartMode
  cached : Bool
  dirty : Bool

namespace PartBlock

def size (block : PartBlock) : Nat := block.cache.length

def count (block : PartBlock) : Nat := block.list.length

end PartBlock

/-- `__part_block_new`: a zeroed block. -/
def partBlockNew (mode : PartMode) (size : Nat) (xor : UInt32) : PartBlock where
  cache := List.replicate size 0
  list := []
  xor := if xor = 0 then partXorDefault else xor
  mode := mode
  cached := false
  dirty := false

/-- The CRC in text and its line end, which `part_block_begin` skips. -/
def headerLen : Nat := 1 + crc32Stringlen

/-- `part_block_crc`. The number of bytes is unsigned: where the cache is shorter than
the header it is huge. -/
def partBlockCrc (block : PartBlock) : Option UInt32 :=
  if headerLen ≤ block.size then some (osCrc32 (block.cache.drop headerLen)) else none

/-- `part_block_crc_read`. -/
def partBlockCrcRead (block : PartBlock) : Option UInt32 := do
  let crcstring ← Memory.load block.cache 0 crc32Stringlen
  let crc ← osDigitstring2number (CStr.ofBuffer crcstring).bytes 16
  return UInt32.ofNat crc

/-- `part_block_crc_write`. -/
def partBlockCrcWrite (block : PartBlock) : Option PartBlock := do
  let crc ← partBlockCrc block
  let crcstring := hexString crc.toNat ++ List.replicate (1 + crc32Stringlen) 0
  let cache ← Memory.store block.cache 0 (crcstring.take crc32Stringlen)
  let cache ← Memory.store cache crc32Stringlen [partCrlf]
  return { block with cache := cache }

/-- `is_separator`, with `part_seperators`. -/
def isSeparator (byte : UInt8) : Bool := byte = ascii '\t' || byte = ascii ' '

/-- `part_get_value_from_line`: the line is cut at its first separator. -/
def partGetValueFromLine (line : List UInt8) : Option (List UInt8 × List UInt8) :=
  match line.dropWhile fun byte => !isSeparator byte with
  | [] => none
  | _ :: value => some (line.takeWhile fun byte => !isSeparator byte, value)

/-- The end of `part_read_line`: the line, if it is short enough, and where the next
one starts. -/
def endLine (lineSize : Nat) (buffer : List UInt8) (newline : Option (List UInt8)) :
    List UInt8 × Option (List UInt8) :=
  if lineSize ≤ buffer.length then ([], none) else ((CStr.ofBuffer buffer).bytes, newline)

/-- `part_read_line`, from `begin` to the end of the cache: the line it leaves, and what
is left behind it. A pointer is the bytes from there to the end. -/
def partReadLine (past : UInt8) (begin : Option (List UInt8)) (lineSize : Nat) :
    List UInt8 × Option (List UInt8) :=
  match begin with
  | none => ([], none)
  | some [] => ([], none)
  | some rest =>
      match rest.dropWhile fun byte => byte ≠ partCrlf with
      | _ :: after =>
          endLine lineSize (rest.takeWhile fun byte => byte ≠ partCrlf)
            (if after.isEmpty then none else some after)
      | [] =>
          if past = partCrlf then endLine lineSize rest none
          else endLine lineSize (rest ++ [past]) none

/-- A line with its end. -/
theorem partReadLine_crlf (past : UInt8) {line : List UInt8} (after : List UInt8) (lineSize : Nat)
    (plain : partCrlf ∉ line) :
    partReadLine past (some (line ++ partCrlf :: after)) lineSize =
      endLine lineSize line (if after.isEmpty then none else some after) := by
  have chars : ∀ byte ∈ line, decide (byte ≠ partCrlf) = true := by
    intro byte member
    rw [decide_eq_true_eq]
    rintro rfl
    exact plain member
  have drop : (line ++ partCrlf :: after).dropWhile (fun byte => byte ≠ partCrlf) =
      partCrlf :: after := by
    rw [List.dropWhile_append_of_pos chars]
    rfl
  have take : (line ++ partCrlf :: after).takeWhile (fun byte => byte ≠ partCrlf) = line := by
    rw [List.takeWhile_append_of_pos chars]
    simp
  obtain ⟨first, others, start⟩ := List.exists_cons_of_ne_nil
    (List.append_ne_nil_of_right_ne_nil line (List.cons_ne_nil partCrlf after))
  rw [start] at drop take ⊢
  simp only [partReadLine, drop, take]

/-- The bytes of `part_write_line` for a variable. -/
def lineBytes (c : PartCursor) : List UInt8 :=
  c.k.bytes ++ [partSeperator] ++ c.v.bytes ++ [partCrlf]

/-- `part_write_line`: the cache, and where the next line goes. -/
def partWriteLine (cache : List UInt8) (begin : Option Nat) (c : PartCursor) :
    Option (List UInt8 × Option Nat) :=
  match begin with
  | none => some (cache, none)
  | some begin =>
      let len := (lineBytes c).length
      if (cache.length : Int) - begin < len + 1 then some (cache, none)
      else do
        let cache ← Memory.store cache begin (lineBytes c)
        return (cache, some (begin + len))

/-- The byte that `part_xor` combines with the byte at an index. -/
def xorByte (order : ByteOrder) (key : UInt32) (index : Nat) : UInt8 :=
  let position := match order with
    | .little => index % 4
    | .big => 3 - index % 4
  (key >>> UInt32.ofNat (8 * position)).toUInt8

/-- `part_xor`: whole words, so past the end of a cache that is not made of them. -/
def partXor (order : ByteOrder) (block : PartBlock) : Option PartBlock :=
  if block.xor = 0 then some block
  else if block.size % 4 = 0 then
    some { block with
      cache := block.cache.mapIdx fun index byte => byte ^^^ xorByte order block.xor index }
  else none

/-- The body of the loop of `part_line_read`: the variable of a line, if it has one. -/
def partParseLine (line : List UInt8) : Option PartCursor :=
  let line := stringStrimBothEnds isBlank line
  if line.head? = some partComment then none
  else if line.isEmpty then none
  else (partGetValueFromLine (stringReduce isSeparator line)).map fun kv =>
    ⟨CStr.ofBuffer kv.1, CStr.ofBuffer kv.2⟩

/-- How much is left to read. -/
def leftToRead : Option (List UInt8) → Nat
  | none => 0
  | some rest => rest.length + 1

theorem endLine_left (lineSize : Nat) (buffer : List UInt8) (newline : Option (List UInt8)) :
    leftToRead (endLine lineSize buffer newline).2 ≤ leftToRead newline := by
  unfold endLine
  split
  · exact Nat.zero_le _
  · exact Nat.le_refl _

theorem partReadLine_left (past : UInt8) (begin : Option (List UInt8)) (lineSize : Nat)
    (goes : (partReadLine past begin lineSize).2.isSome ∨
      (partReadLine past begin lineSize).1 ≠ []) :
    leftToRead (partReadLine past begin lineSize).2 < leftToRead begin := by
  unfold partReadLine at goes ⊢
  split
  · simp at goes
  · simp at goes
  · rename_i rest nonempty
    split
    · rename_i newline after found
      refine (endLine_left ..).trans_lt ?_
      have split := List.takeWhile_append_dropWhile
        (p := fun byte => decide (byte ≠ partCrlf)) (l := rest)
      rw [found] at split
      have length := congrArg List.length split
      rw [List.length_append, List.length_cons] at length
      split <;> simp only [leftToRead] <;> omega
    · split
      all_goals
        refine (endLine_left ..).trans_lt ?_
        exact Nat.succ_pos _

/-- The loop of `part_line_read`: the lines it reaches. -/
def partReadLines (past : UInt8) (begin : Option (List UInt8)) : List (List UInt8) :=
  if (partReadLine past begin partMaxLine).2.isSome ∨
      (partReadLine past begin partMaxLine).1 ≠ [] then
    (partReadLine past begin partMaxLine).1 ::
      partReadLines past (partReadLine past begin partMaxLine).2
  else []
termination_by leftToRead begin
decreasing_by
  apply partReadLine_left
  assumption

/-- `part_line_read`: cache to list. -/
def partLineRead (past : UInt8) (block : PartBlock) : PartBlock :=
  { block with
    list := block.list ++
      (partReadLines past (some (block.cache.drop headerLen))).filterMap partParseLine
    cached := true
    dirty := false }

/-- `part_line_wirte`: list to cache. -/
def partLineWirte (block : PartBlock) : Option PartBlock := do
  let written ← block.list.foldlM (fun (place : List UInt8 × Option Nat) c =>
    partWriteLine place.1 place.2 c) (List.replicate block.size 0, some headerLen)
  let block ← partBlockCrcWrite { block with cache := written.1 }
  return { block with dirty := false }

/-- `part_high_read`: the return code and the block. -/
def partHighRead (past : UInt8) (block : PartBlock) : Option (Int × PartBlock) :=
  if block.count ≠ 0 then some (-ENOEMPTY, block)
  else do
    let crcOld ← partBlockCrcRead block
    let crcNew ← partBlockCrc block
    if crcOld ≠ crcNew then return (-EBADCRC, block)
    return (0, partLineRead past block)

/-- `part_human_read`: the file's bytes go to the cache behind the header, as many as
there is room for. `file` is `none` when it cannot be opened, and `errno` is what a
failing call leaves; it is never negative. -/
def partHumanRead (file : Option (List UInt8)) (errno : Nat) (block : PartBlock) :
    Option (Int × PartBlock) :=
  match file with
  | none => some (errno, block)
  | some content =>
      if block.size < headerLen then none
      else
        let size := min content.length (block.size - headerLen)
        -- `fread` of an item of no bytes reads no item
        if size = 0 then some (errno, block)
        else do
          let cache ← Memory.store block.cache headerLen (content.take size)
          return (0, { block with cache := cache })

/-- `part_low_read`: the partition's bytes go to the cache through the callback. -/
def partLowRead (order : ByteOrder) (read : List UInt8 → Int × List UInt8) (block : PartBlock) :
    Option (Int × PartBlock) := do
  let answer := read block.cache
  let block ← partXor order { block with cache := answer.2 }
  return (answer.1, block)

/-- `part_block_init_bynormal`. -/
def partBlockInitBynormal (order : ByteOrder) (past : UInt8)
    (read : List UInt8 → Int × List UInt8) (block : PartBlock) : Option (Int × PartBlock) := do
  let (err, block) ← partLowRead order read block
  if err < 0 then return (err, block)
  let (err, block) ← partHighRead past block
  if err < 0 then return (err, block)
  return (0, block)

/-- `part_block_init_byload`. -/
def partBlockInitByload (file : Option (List UInt8)) (errno : Nat) (block : PartBlock) :
    Option (Int × PartBlock) := do
  let (err, block) ← partHumanRead file errno block
  if err < 0 then return (err, block)
  return (0, { block with dirty := true })

/-- `part_block_init`. -/
def partBlockInit (order : ByteOrder) (past : UInt8) (read : List UInt8 → Int × List UInt8)
    (file : Option (List UInt8)) (errno : Nat) (block : PartBlock) :
    Option (Int × PartBlock) :=
  match block.mode with
  | .normal => partBlockInitBynormal order past read block
  | .empty => some (0, { block with dirty := true })
  | .load => partBlockInitByload file errno block
  | .crc => do
      let (err, block) ← partLowRead order read block
      return (if err < 0 then err else 0, block)

/-- `part_block_create`, behind its checks on `NULL` arguments: the block, unless its
initialisation fails. -/
def partBlockCreate (order : ByteOrder) (past : UInt8) (mode : PartMode) (size : Nat)
    (read : List UInt8 → Int × List UInt8) (file : Option (List UInt8)) (errno : Nat)
    (xor : UInt32) : Option (Option PartBlock) :=
  if size = 0 then some none
  else do
    let (err, block) ← partBlockInit order past read file errno (partBlockNew mode size xor)
    return if err < 0 then none else some block

/-- What `part_block_flush` returns, the block it leaves, what it handed to the write
callback, if it called it, and the partition then. -/
structure Flushed (Flash : Type) where
  ret : Int
  block : PartBlock
  image : Option (List UInt8)
  flash : Flash

/-- `part_block_flush`, with the write callback on a partition. -/
def partBlockFlush {Flash : Type} (order : ByteOrder)
    (write : List UInt8 → Flash → Int × Flash) (block : PartBlock) (flash : Flash) :
    Option (Flushed Flash) :=
  if block.dirty then do
    let block ← partLineWirte block
    let block ← partXor order block
    let answer := write block.cache flash
    return ⟨if answer.1 < 0 then answer.1 else 0, block, some block.cache, answer.2⟩
  else some ⟨0, block, none, flash⟩

/-- `PART_VAR_CREATE_IF_NOT_EXIT` and `PART_VAR_UPDATE_IF_EXIT`. -/
structure VarFlag where
  create : Bool
  update : Bool

/-- `__part_var_create`, with strings that are not `NULL`. -/
def partVarCreateFlag (block : PartBlock) (name value : CStr) (flag : VarFlag) :
    Ret × PartBlock :=
  if flag.create = false ∧ flag.update = false then (.assert (-EINVAL3), block)
  else match block.list.findIdx? fun c => name = c.k with
    | some index =>
        if flag.update then
          (.code 0, { block with dirty := true, list := block.list.set index ⟨name, value⟩ })
        else (.code (-EEXIST), block)
    | none =>
        if flag.create then
          (.code 0, { block with dirty := true, list := block.list ++ [⟨name, value⟩] })
        else (.code (-ENOEXIST), block)

/-- `part_var_create`. -/
def partVarCreate (block : PartBlock) (name value : CStr) : Ret × PartBlock :=
  partVarCreateFlag block name value ⟨true, false⟩

/-- `part_var_update`. -/
def partVarUpdate (block : PartBlock) (name value : CStr) : Ret × PartBlock :=
  partVarCreateFlag block name value ⟨false, true⟩

/-- `part_var_new`. -/
def partVarNew (block : PartBlock) (name value : CStr) : Ret × PartBlock :=
  partVarCreateFlag block name value ⟨true, true⟩

/-- `part_var_delete`. -/
def partVarDelete (block : PartBlock) (name : CStr) : Ret × PartBlock :=
  match block.list.findIdx? fun c => name = c.k with
  | some index => (.code 0, { block with dirty := true, list := block.list.eraseIdx index })
  | none => (.code (-ENOEXIST), block)

end Trunk.Partool
