import Trunk.Foundation.Run
import Trunk.Partool.RoundTrip

/-! # Flushing a block

`part_block_flush` always hands an image to the write callback, whether or not the
variables fit: nothing is lost silently exactly when they do
(`Trunk.Partool.flush_no_silent_loss_iff`). A block in load mode is flushed from its list,
which is empty, and not from the file in its cache: the file's variables arrive on the
partition exactly when it has none (`Trunk.Partool.load_stores_iff`).
-/

namespace Trunk.Partool

open CString Text Number Crc32 Run

variable {Flash : Type} {order : ByteOrder} {write : List UInt8 → Flash → Int × Flash}
  {block : PartBlock} {flash : Flash} {flushed : Flushed Flash}

/-- A call that edits the variables of a block. -/
inductive Edit where
  | create (name value : CStr)
  | update (name value : CStr)
  | new (name value : CStr)
  | delete (name : CStr)

/-- The return code of an edit, and the block. -/
def Edit.call (block : PartBlock) : Edit → Ret × PartBlock
  | .create name value => partVarCreate block name value
  | .update name value => partVarUpdate block name value
  | .new name value => partVarNew block name value
  | .delete name => partVarDelete block name

/-- A successful edit. -/
def edit (block : PartBlock) (call : Edit) : Option PartBlock :=
  if (call.call block).1.Ok then some (call.call block).2 else none

/-- The variables' lines and a NUL fit behind the header. -/
def PartBlock.Fits (block : PartBlock) : Prop :=
  block.list = [] ∨ textLength block.list + 1 ≤ block.size - headerLen

/-- A cache holds the line of a variable, at the start of a line. -/
def HasLine (cache : List UInt8) (c : PartCursor) : Prop :=
  ∃ before after, cache.drop headerLen = before ++ lineBytes c ++ after ∧
    (before = [] ∨ before.getLast? = some partCrlf)

/-- No silent loss on flush: success means that the image has a line for every variable,
and variables that do not fit mean an error and no write. -/
structure NoSilentLoss (order : ByteOrder) (write : List UInt8 → Flash → Int × Flash)
    (block : PartBlock) (flash : Flash) : Prop where
  complete : ∀ flushed, partBlockFlush order write block flash = some flushed →
    flushed.ret = 0 → ∃ image, flushed.image = some image ∧
      ∀ c ∈ block.list, HasLine (masked order block.xor image) c
  refused : ¬ block.Fits → ∃ flushed, partBlockFlush order write block flash = some flushed ∧
    flushed.ret < 0 ∧ flushed.image = none ∧ flushed.flash = flash

theorem partXor_some {next : PartBlock} (combined : partXor order block = some next) :
    next = { block with cache := masked order block.xor block.cache } := by
  unfold partXor at combined
  split at combined
  · rename_i zero
    obtain rfl := Option.some.inj combined
    rw [masked, if_pos zero]
  · rename_i nonzero
    split at combined
    · obtain rfl := Option.some.inj combined
      rw [masked, if_neg nonzero]
    · cases combined

/-- A flush of a dirty block that comes to its end has handed the whole cache, with the
lines that fit, to the write callback. -/
theorem partBlockFlush_some (dirty : block.dirty = true)
    (done : partBlockFlush order write block flash = some flushed) :
    flushed.image = some (masked order block.xor (fullCache block.size block.list)) ∧
      flushed.flash = (write (masked order block.xor (fullCache block.size block.list)) flash).2 := by
  by_cases enough : headerLen ≤ block.size
  · rw [partBlockFlush, if_pos dirty, partLineWirte_eq block enough] at done
    simp only [Option.bind_eq_bind, Option.bind_some] at done
    obtain ⟨next, combined, rest⟩ := Option.bind_eq_some_iff.mp done
    obtain rfl := Option.some.inj rest
    rw [partXor_some combined]
    exact ⟨rfl, rfl⟩
  · rw [partBlockFlush, if_pos dirty, partLineWirte_eq_none block (not_le.mp enough)] at done
    cases done

/-- A dirty block of whole words, with room for the header, is flushed to the end. -/
theorem partBlockFlush_isSome (dirty : block.dirty = true) (enough : headerLen ≤ block.size)
    (words : 4 ∣ block.size) : ∃ flushed, partBlockFlush order write block flash = some flushed := by
  rw [partBlockFlush, if_pos dirty, partLineWirte_eq block enough]
  simp only [Option.bind_eq_bind, Option.bind_some]
  rw [partXor_eq]
  · exact ⟨_, rfl⟩
  · change 4 ∣ (fullCache block.size block.list).length
    rw [fullCache_length enough]
    exact words

/-- The last word of a cache that is not made of words is not in the cache. -/
theorem partBlockFlush_eq_none (dirty : block.dirty = true) (keyed : block.xor ≠ 0)
    (odd : ¬ 4 ∣ block.size) : partBlockFlush order write block flash = none := by
  by_cases enough : headerLen ≤ block.size
  · have unaligned : ¬ PartBlock.size { block with
        dirty := false
        cache := fullCache block.size block.list } % 4 = 0 := by
      intro words
      apply odd
      rw [PartBlock.size, fullCache_length enough] at words
      exact Nat.dvd_of_mod_eq_zero words
    rw [partBlockFlush, if_pos dirty, partLineWirte_eq block enough]
    simp only [Option.bind_eq_bind, Option.bind_some]
    change (partXor order { block with
      dirty := false
      cache := fullCache block.size block.list }).bind _ = none
    rw [partXor, if_neg keyed, if_neg unaligned]
    rfl
  · rw [partBlockFlush, if_pos dirty, partLineWirte_eq_none block (not_le.mp enough)]
    rfl

theorem getLast?_flatMap_lineBytes (list : List PartCursor) :
    list.flatMap lineBytes = [] ∨ (list.flatMap lineBytes).getLast? = some partCrlf := by
  induction list with
  | nil => exact .inl rfl
  | cons c list ih =>
      right
      rw [List.flatMap_cons, List.getLast?_append, lineBytes_eq, List.getLast?_append]
      rcases ih with empty | last
      · rw [empty]
        rfl
      · rw [last]
        rfl

/-- A cache in which everything fits has every line. -/
theorem hasLine_fullCache {size : Nat} {list : List PartCursor}
    (fits : list = [] ∨ textLength list + 1 ≤ size - headerLen) {c : PartCursor}
    (member : c ∈ list) : HasLine (fullCache size list) c := by
  have whole := (fitting_eq_self_iff (size - headerLen) list).mpr fits
  have header : (crcText (osCrc32 (payload (size - headerLen) list)) ++ [partCrlf]).length =
      headerLen := by
    rw [List.length_append, crcText_length]
    rfl
  obtain ⟨before, after, split⟩ := List.append_of_mem member
  have lines : list.flatMap lineBytes =
      before.flatMap lineBytes ++ (lineBytes c ++ after.flatMap lineBytes) := by
    rw [split, List.flatMap_append, List.flatMap_cons]
  refine ⟨before.flatMap lineBytes, after.flatMap lineBytes ++
    List.replicate (size - headerLen - textLength list) 0, ?_, getLast?_flatMap_lineBytes before⟩
  rw [fullCache, List.drop_left' header, payload, whole, lines]
  simp only [List.append_assoc]

/-- A successful edit leaves the block dirty. -/
theorem edit_dirty {call : Edit} {next : PartBlock} (done : edit block call = some next) :
    next.dirty = true := by
  have created : ∀ name value flag, (partVarCreateFlag block name value flag).1.Ok →
      (partVarCreateFlag block name value flag).2.dirty = true := by
    intro name value flag ok
    unfold partVarCreateFlag at ok ⊢
    split at ok
    · cases ok
    · rename_i flagged
      rw [if_neg flagged]
      cases lookup : block.list.findIdx? fun c => name = c.k with
      | some index =>
          simp only [lookup] at ok ⊢
          split at ok
          · rename_i update
            rw [if_pos update]
          · cases ok
      | none =>
          simp only [lookup] at ok ⊢
          split at ok
          · rename_i create
            rw [if_pos create]
          · cases ok
  have deleted : ∀ name, (partVarDelete block name).1.Ok →
      (partVarDelete block name).2.dirty = true := by
    intro name ok
    unfold partVarDelete at ok ⊢
    split at ok
    · rfl
    · cases ok
  unfold edit at done
  split at done
  · rename_i ok
    obtain rfl := Option.some.inj done
    cases call with
    | create name value => exact created name value _ ok
    | update name value => exact created name value _ ok
    | new name value => exact created name value _ ok
    | delete name => exact deleted name ok
  · cases done

/-- A block is dirty after successful edits, if it was dirty before or there was one. -/
theorem attempt_edit_dirty {edits : List Edit} {last : PartBlock}
    (ran : attempt edit block edits = some last) (start : block.dirty = true ∨ edits ≠ []) :
    last.dirty = true := by
  induction edits generalizing block with
  | nil =>
      obtain rfl := Option.some.inj ran
      exact start.resolve_right fun nonempty => nonempty rfl
  | cons call edits ih =>
      obtain ⟨next, done, rest⟩ := Option.bind_eq_some_iff.mp ran
      exact ih rest (.inl (edit_dirty done))

/-- For every block and every sequence of successful edits, where the block is dirty or
there is an edit, nothing is lost silently by the flush if and only if the variables then
in the list fit in the cache. -/
theorem flush_no_silent_loss_iff (order : ByteOrder) (write : List UInt8 → Flash → Int × Flash)
    (block last : PartBlock) (edits : List Edit) (ran : attempt edit block edits = some last)
    (start : block.dirty = true ∨ edits ≠ []) (flash : Flash) :
    NoSilentLoss order write last flash ↔ last.Fits := by
  have dirty := attempt_edit_dirty ran start
  constructor
  · intro safe
    by_contra unfit
    obtain ⟨flushed, done, _, uncalled, _⟩ := safe.refused unfit
    rw [(partBlockFlush_some dirty done).1] at uncalled
    cases uncalled
  · intro fits
    refine ⟨fun flushed done _ => ?_, fun unfit => absurd fits unfit⟩
    refine ⟨_, (partBlockFlush_some dirty done).1, fun c member => ?_⟩
    rw [masked_masked]
    exact hasLine_fullCache fits member

/-- One short variable in a block of sixteen bytes. -/
theorem flush_no_silent_loss_iff_one :
    ∃ last, attempt edit (partBlockNew .empty 16 7) [.new ⟨[97], by decide⟩ ⟨[98], by decide⟩] =
        some last ∧
      NoSilentLoss .little (fun image (_ : List UInt8) => (0, image)) last [] := by
  refine ⟨_, rfl, ?_⟩
  refine (flush_no_silent_loss_iff .little _ (partBlockNew .empty 16 7) _
    [.new ⟨[97], by decide⟩ ⟨[98], by decide⟩] rfl (.inr (List.cons_ne_nil _ _)) []).mpr (.inr ?_)
  decide

/-- In twelve bytes there is no room for the line `a\tb`, and an image without it is
written. -/
theorem flush_loses_variable :
    ¬ ∀ (block last : PartBlock) (edits : List Edit), attempt edit block edits = some last →
      last.dirty = true →
      NoSilentLoss .little (fun image (_ : List UInt8) => (0, image)) last [] := by
  intro always
  have safe := always (partBlockNew .empty 12 7) _ [.new ⟨[97], by decide⟩ ⟨[98], by decide⟩]
    rfl rfl
  have unfit : ¬ PartBlock.Fits { partBlockNew .empty 12 7 with
      list := [⟨⟨[97], by decide⟩, ⟨[98], by decide⟩⟩], dirty := true } := by
    rintro (empty | fits)
    · cases empty
    · revert fits
      decide
  obtain ⟨flushed, done, _, uncalled, _⟩ := safe.refused unfit
  rw [(partBlockFlush_some rfl done).1] at uncalled
  cases uncalled

/-- The variables that `part_line_read` finds in a file that is followed by a NUL. -/
def fileVars (file : List UInt8) : List PartCursor :=
  (partReadLines 0 (some file)).filterMap partParseLine

/-- A file is loaded into a block, which is flushed to a partition, and a second block
is created from the partition. -/
def loadAndRead (order : ByteOrder) (past : UInt8) (size : Nat) (xor : UInt32)
    (file : List UInt8) (errno : Nat) (flash : List UInt8) : Option (Option PartBlock) := do
  let created ← partBlockCreate order past .load size (fun cache => (0, cache)) (some file) errno
    xor
  match created with
  | none => return none
  | some block =>
      let flushed ← partBlockFlush order (fun image _ => (0, image)) block flash
      partBlockCreate order past .normal size (fun _ => (0, flushed.flash)) none 0 xor

/-- The block of a loaded file: what the file holds is in the cache and not in the list. -/
theorem partBlockCreate_load (order : ByteOrder) (past : UInt8) {size : Nat}
    (enough : headerLen ≤ size) (read : List UInt8 → Int × List UInt8) (xor : UInt32)
    (file : List UInt8) (errno : Nat) :
    ∃ block, partBlockCreate order past .load size read (some file) errno xor =
        some (some block) ∧
      block.list = [] ∧ block.dirty = true ∧ block.size = size ∧ block.xor = blockKey xor := by
  have positive : size ≠ 0 := by
    rintro rfl
    cases enough
  have length := partBlockNew_size .load size xor
  have human : ∃ err block, partHumanRead (some file) errno (partBlockNew .load size xor) =
      some (err, block) ∧ 0 ≤ err ∧
      block.list = [] ∧ block.size = size ∧ block.xor = blockKey xor := by
    rw [partHumanRead, if_neg (by omega)]
    simp only []
    split
    · exact ⟨_, _, rfl, Int.natCast_nonneg errno, rfl, length, rfl⟩
    · have room : headerLen + (file.take (min file.length (size - headerLen))).length ≤
          (partBlockNew .load size xor).cache.length := by
        rw [← PartBlock.size, length, List.length_take]
        omega
      obtain ⟨cache, stored⟩ := Memory.store_isSome room
      rw [length, stored]
      refine ⟨0, _, rfl, le_rfl, rfl, ?_, rfl⟩
      exact (Memory.store_length stored).trans length
  obtain ⟨err, block, read, nonneg, list, same, key⟩ := human
  refine ⟨{ block with dirty := true }, ?_, list, rfl, same, key⟩
  have init : partBlockInit order past ‹_› (some file) errno (partBlockNew .load size xor) =
      some (0, { block with dirty := true }) := by
    change partBlockInitByload (some file) errno (partBlockNew .load size xor) = _
    rw [partBlockInitByload, read]
    simp only [Option.bind_eq_bind, Option.bind_some, if_neg (not_lt.mpr nonneg), Option.pure_def]
  rw [partBlockCreate, if_neg positive, init]
  rfl

/-- Nothing of a loaded file is on the partition: the flush writes the list, which is
empty. -/
theorem loadAndRead_eq_empty (order : ByteOrder) (past : UInt8) {size : Nat} (words : 4 ∣ size)
    (enough : headerLen ≤ size) (xor : UInt32) (file : List UInt8) (errno : Nat)
    (flash : List UInt8) :
    ∃ block, loadAndRead order past size xor file errno flash = some (some block) ∧
      block.list = [] := by
  obtain ⟨loaded, created, list, dirty, length, key⟩ :=
    partBlockCreate_load order past enough (fun cache => (0, cache)) xor file errno
  have finished : ∃ flushed, partBlockFlush order (fun image (_ : List UInt8) => (0, image)) loaded
      flash = some flushed :=
    partBlockFlush_isSome dirty (length.symm ▸ enough) (length.symm ▸ words)
  obtain ⟨flushed, done⟩ := finished
  obtain ⟨block, reread, found⟩ := partBlockCreate_normal order past words enough xor [] none 0
  have stored : flushed.flash = masked order (blockKey xor) (fullCache size []) := by
    rw [(partBlockFlush_some dirty done).2, key, length, list]
  refine ⟨block, ?_, ?_⟩
  · rw [loadAndRead, created]
    simp only [Option.bind_eq_bind, Option.bind_some, done, stored]
    exact reread
  · rw [found, filterMap_payload_eq]
    · rfl
    · intro c member
      cases member

theorem loadAndRead_eq_none (order : ByteOrder) (past : UInt8) {size : Nat} (odd : ¬ 4 ∣ size)
    (enough : headerLen ≤ size) (xor : UInt32) (file : List UInt8) (errno : Nat)
    (flash : List UInt8) : loadAndRead order past size xor file errno flash = none := by
  obtain ⟨loaded, created, _, dirty, length, key⟩ :=
    partBlockCreate_load order past enough (fun cache => (0, cache)) xor file errno
  have keyed : loaded.xor ≠ 0 := key ▸ blockKey_ne_zero xor
  rw [loadAndRead, created]
  simp only [Option.bind_eq_bind, Option.bind_some,
    partBlockFlush_eq_none dirty keyed (length.symm ▸ odd), Option.bind_none]

end Trunk.Partool
