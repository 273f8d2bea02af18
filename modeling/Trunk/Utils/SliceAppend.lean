import Trunk.Utils.Slice

/-! # Appending to a slice

The calls of `slice.h` that write behind the data of a slice, and the formatted output of
`slice.c`. `slice_put_buf` copies before it looks at the room, `slice_put_char` writes behind the
tail that it has moved, and so appending is right for few arguments only (`Trunk.Slices.appends_iff`).
Formatted output ends a full slice with a NUL behind its end and forgets what it cut off
(`Trunk.Slices.prints_iff`).
-/

namespace Trunk.Slices

variable {slice next : Slice} {grow : Bool} {memory : Option (Nat → UInt8)}

/-- The data of a slice. -/
def dataBytes (slice : Slice) : List UInt8 :=
  (slice.head.drop (sliceData slice).toNat).take slice.len.toNat

/-- `slice_end`. -/
def sliceEnd (slice : Slice) : Int := sliceData slice + slice.size

/-- `slice_put_char`. -/
def slicePutChar (slice : Slice) (ch : Int32) : Option (Outcome × Slice) :=
  match slicePut slice 1 with
  | (.pointer new, slice) =>
      (Memory.storeAt slice.head new [(ch.toUInt32 &&& 0xff).toUInt8]).map fun head =>
        (.pointer new, { slice with head := head })
  | failed => some failed

/-- `slice_put_buf`. The memory at `buf` is as long as the caller has it. -/
def slicePutBuf (slice : Slice) (buf : Option (List UInt8)) (len : Int) :
    Option (Outcome × Slice) :=
  if len < 0 then some (.assertNull, slice)
  else match buf with
    | none => some (.assertNull, slice)
    | some buf => do
        let bytes ← Memory.load buf 0 len.toNat
        let head ← Memory.storeAt slice.head (sliceTail slice) bytes
        return slicePut { slice with head := head } len

/-- A call of `slice_put_char` for each byte. -/
def slicePutChars (slice : Slice) (bytes : List UInt8) : Option (List Outcome × Slice) :=
  Run.exec (fun slice (byte : UInt8) => slicePutChar slice byte.toUInt32.toInt32) slice bytes

/-- `slice_put_buf` appends if there is room, and leaves everything if there is none. -/
structure PutsBuf (slice : Slice) (bytes : List UInt8) : Prop where
  room : bytes.length ≤ sliceRemain slice → ∃ outcome next,
    slicePutBuf slice (some bytes) bytes.length = some (outcome, next) ∧ ¬ outcome.Failed ∧
      dataBytes next = dataBytes slice ++ bytes
  full : sliceRemain slice < bytes.length → ∃ outcome,
    slicePutBuf slice (some bytes) bytes.length = some (outcome, slice) ∧ outcome.Failed

/-- The calls of `slice_put_char` append if there is room, and leave everything if there is
none. -/
structure PutsChars (slice : Slice) (bytes : List UInt8) : Prop where
  room : bytes.length ≤ sliceRemain slice → ∃ outcomes next,
    slicePutChars slice bytes = some (outcomes, next) ∧ (∀ outcome ∈ outcomes, ¬ outcome.Failed) ∧
      dataBytes next = dataBytes slice ++ bytes
  full : sliceRemain slice < bytes.length → ∃ outcomes,
    slicePutChars slice bytes = some (outcomes, slice) ∧ ∃ outcome ∈ outcomes, outcome.Failed

/-- `vsnprintf`, on the text that the format stands for: what it writes. It returns the length of
the text. -/
def vsnprintf (space : Int) (text : List UInt8) : List UInt8 :=
  if space ≤ 0 then [] else text.take (space.toNat - 1) ++ [0]

/-- `slice_vsprintf`, on a slice that is not `NULL`, with a bound on its tries: what it returns and
the slice. `grow` is whether `flag` has `SLICE_F_GROW`. -/
def sliceVsprintf (grow : Bool) (memory : Option (Nat → UInt8)) (text : List UInt8) :
    Nat → Slice → Option (Int × Slice)
  | 0, _ => none
  | tries + 1, slice => do
      let remain := sliceRemain slice
      let space := if remain > 0 then remain else 1
      let head ← Memory.storeAt slice.head (sliceTail slice) (vsnprintf space text)
      let slice := { slice with head := head }
      let len : Int := text.length
      if space ≤ len then
        if grow then
          match sliceGrow slice (wrapInt (wrapInt (len + 1) - space)) memory with
          | (.code 0, slice) => sliceVsprintf grow memory text tries slice
          | (_, slice) => return (len, slice)
        else return (len, slice)
      else return (len, (slicePut slice len).2)

/-- The slice may grow, and the memory is found. -/
def Grows (grow : Bool) (memory : Option (Nat → UInt8)) (slice : Slice) : Prop :=
  grow = true ∧ slice.flag = false ∧ memory.isSome = true

instance (grow : Bool) (memory : Option (Nat → UInt8)) (slice : Slice) :
    Decidable (Grows grow memory slice) :=
  inferInstanceAs (Decidable (_ ∧ _ ∧ _))

/-- The contract of `slice_vsprintf`: it ends, returns the length of the text and has appended it,
or what there is room for if the slice does not grow, and no byte at the end or behind it is
written. -/
def Prints (grow : Bool) (memory : Option (Nat → UInt8)) (text : List UInt8) (slice : Slice) :
    Prop :=
  ∃ tries next, sliceVsprintf grow memory text tries slice = some ((text.length : Int), next) ∧
    sliceTail next < sliceEnd next ∧
    if Grows grow memory slice ∨ text.length < sliceRemain slice then
      dataBytes next = dataBytes slice ++ text
    else
      dataBytes next = dataBytes slice ++ text.take (sliceRemain slice - 1).toNat ∧
        sliceRemain next = 1

/-! ## Bytes -/

section

variable (rules : Geometry slice)

include rules

/-- The data of a slice is read at its front. -/
theorem Geometry.load_data :
    Memory.load slice.head slice.resv.toNat slice.len.toNat = some (dataBytes slice) := by
  have resv := rules.resv
  have len := rules.len
  have fits := rules.fits
  have capacity := rules.capacity
  exact Memory.load_eq_some_iff.mpr ⟨by omega, rfl⟩

theorem Geometry.data_length : (dataBytes slice).length = slice.len.toNat :=
  Memory.load_length rules.load_data

theorem Geometry.tail_eq : sliceTail slice = (slice.resv.toNat + slice.len.toNat : Nat) := by
  have resv := rules.resv
  have len := rules.len
  rw [sliceTail, sliceData]
  omega

theorem Geometry.storeAt_tail_eq (content : List UInt8) :
    Memory.storeAt slice.head (sliceTail slice) content =
      Memory.store slice.head (slice.resv.toNat + slice.len.toNat) content := by
  rw [rules.tail_eq]
  exact if_pos (Int.natCast_nonneg _)

/-- What is written at the tail or behind it leaves the data. -/
theorem Geometry.load_data_of_store {head content : List UInt8} {start : Nat}
    (behind : slice.resv.toNat + slice.len.toNat ≤ start)
    (stored : Memory.store slice.head start content = some head) :
    Memory.load head slice.resv.toNat slice.len.toNat = some (dataBytes slice) := by
  rw [Memory.load_store_disjoint stored (.inl behind)]
  exact rules.load_data

/-- A write at the tail succeeds exactly if it ends at the end of the slice or before. -/
theorem Geometry.storeAt_tail (content : List UInt8) :
    (∃ head, Memory.storeAt slice.head (sliceTail slice) content = some head) ↔
      content.length ≤ slice.size - slice.len := by
  have resv := rules.resv
  have len := rules.len
  have capacity := rules.capacity
  rw [rules.storeAt_tail_eq]
  constructor
  · rintro ⟨head, stored⟩
    obtain ⟨inside, -⟩ := Memory.store_eq_some_iff.mp stored
    omega
  · intro room
    exact Memory.store_isSome (by omega)

/-- The data of a slice that was written at its tail. -/
theorem Geometry.data_appended {head content : List UInt8} (behind : List UInt8) {len : Int}
    (written : Memory.storeAt slice.head (sliceTail slice) (content ++ behind) = some head)
    (longer : len = slice.len + content.length) :
    dataBytes { slice with head := head, len := len } = dataBytes slice ++ content := by
  have positive := rules.len
  rw [rules.storeAt_tail_eq] at written
  obtain ⟨-, whole⟩ := Memory.load_eq_some_iff.mp (Memory.load_append
    (rules.load_data_of_store (Nat.le_refl _) written) (Memory.load_store_self written))
  have length : len.toNat = slice.len.toNat + content.length := by omega
  calc dataBytes { slice with head := head, len := len }
      = (head.drop slice.resv.toNat).take (slice.len.toNat + content.length) := by
        rw [dataBytes, length]
        rfl
    _ = ((head.drop slice.resv.toNat).take (slice.len.toNat + (content ++ behind).length)).take
          (slice.len.toNat + content.length) := by
        rw [List.take_take, List.length_append, Nat.min_eq_left (by omega)]
    _ = (dataBytes slice ++ (content ++ behind)).take (dataBytes slice ++ content).length := by
        rw [whole, List.length_append, rules.data_length]
    _ = dataBytes slice ++ content := by
        rw [← List.append_assoc, List.take_left]

end

theorem slicePut_of_room (slice : Slice) {len : Int} (positive : 0 ≤ len) (room : len ≤ sliceRemain slice) :
    slicePut slice len = (.pointer (sliceTail { slice with len := wrapInt (slice.len + len) }),
      { slice with len := wrapInt (slice.len + len) }) := by
  rw [slicePut, if_neg (by omega), if_neg (by omega)]

theorem slicePut_of_full (slice : Slice) {len : Int} (positive : 0 ≤ len) (full : sliceRemain slice < len) :
    slicePut slice len = (.assertNull, slice) := by
  rw [slicePut, if_neg (by omega), if_pos full]

/-! ## Whole buffers -/

/-- A buffer is put right exactly if there is room for it: its bytes are copied before the room is
looked at. -/
theorem Sound.putsBuf_iff (sound : Sound slice) {bytes : List UInt8} :
    PutsBuf slice bytes ↔ bytes.length ≤ sliceRemain slice := by
  have load : Memory.load bytes 0 bytes.length = some bytes :=
    Memory.load_eq_some_iff.mpr ⟨by omega, List.take_length⟩
  have called : slicePutBuf slice (some bytes) bytes.length =
      (Memory.storeAt slice.head (sliceTail slice) bytes).map fun head =>
        slicePut { slice with head := head } bytes.length := by
    rw [slicePutBuf, if_neg (by omega)]
    simp only [Int.toNat_natCast, load, Option.bind_eq_bind, Option.bind_some, Option.pure_def]
    cases Memory.storeAt slice.head (sliceTail slice) bytes with
    | none => rfl
    | some head => rfl
  constructor
  · intro puts
    by_contra full
    obtain ⟨outcome, result, -⟩ := puts.full (Int.lt_of_not_ge full)
    rw [called] at result
    obtain ⟨head, written, -⟩ := Option.map_eq_some_iff.mp result
    exact full (sound.remain_eq ▸ (sound.storeAt_tail bytes).mp ⟨head, written⟩)
  · intro room
    refine ⟨fun _ => ?_, fun full => absurd room (Int.not_le.mpr full)⟩
    obtain ⟨head, written⟩ := (sound.storeAt_tail bytes).mpr (sound.remain_eq ▸ room)
    have small := sound.ranges
    have fits := sound.remain_eq
    have positive := sound.len
    rw [called, written, Option.map_some,
      slicePut_of_room { slice with head := head } (by omega) room]
    refine ⟨_, _, rfl, id, ?_⟩
    rw [← List.append_nil bytes] at written
    exact sound.data_appended [] written (wrapInt_eq (by dsimp only; omega) (by dsimp only; omega))

/-! ## Single characters -/

theorem toUInt8_of_byte (byte : UInt8) : (byte.toUInt32.toInt32.toUInt32 &&& 0xff).toUInt8 = byte := by
  apply UInt8.toBitVec_inj.mp
  have masked : byte.toBitVec &&& 255#8 = byte.toBitVec := BitVec.and_allOnes
  simpa using masked

theorem slicePutChars_cons (slice : Slice) (byte : UInt8) (bytes : List UInt8) :
    slicePutChars slice (byte :: bytes) =
      (slicePutChar slice byte.toUInt32.toInt32).bind fun first =>
        (slicePutChars first.2 bytes).map fun rest => (first.1 :: rest.1, rest.2) := by
  rw [slicePutChars, Run.exec]
  cases slicePutChar slice byte.toUInt32.toInt32 with
  | none => rfl
  | some first =>
      change (Run.exec _ first.2 bytes).bind _ = (slicePutChars first.2 bytes).map _
      rw [slicePutChars]
      cases Run.exec (fun slice (byte : UInt8) => slicePutChar slice byte.toUInt32.toInt32) first.2
        bytes <;> rfl

/-- A character is written behind the tail that it moves. -/
theorem Sound.slicePutChar_eq (sound : Sound slice) (byte : UInt8) (room : 1 ≤ sliceRemain slice) :
    slicePutChar slice byte.toUInt32.toInt32 =
      (Memory.store slice.head (slice.resv.toNat + slice.len.toNat + 1) [byte]).map fun head =>
        (.pointer (sliceTail slice + 1), { slice with head := head, len := slice.len + 1 }) := by
  have small := sound.ranges
  have remain := sound.remain_eq
  have positive := sound.len
  have resv := sound.resv
  have tail := sound.tail_eq
  have longer : wrapInt (slice.len + 1) = slice.len + 1 := wrapInt_eq (by omega) (by omega)
  have pointer : sliceTail { slice with len := slice.len + 1 } = sliceTail slice + 1 :=
    (Int.add_assoc ..).symm
  have inside : 0 ≤ sliceTail slice + 1 := by omega
  have place : (sliceTail slice + 1).toNat = slice.resv.toNat + slice.len.toNat + 1 := by omega
  rw [slicePutChar, slicePut_of_room slice (by omega) room, longer, pointer]
  dsimp only
  rw [Memory.storeAt, if_pos inside, place, toUInt8_of_byte]

/-- The slice after a character is sound. -/
theorem Sound.putChar (sound : Sound slice) {head : List UInt8} (room : 1 ≤ sliceRemain slice)
    (same : head.length = slice.head.length) :
    Sound { slice with head := head, len := slice.len + 1 } := by
  have remain := sound.remain_eq
  have positive := sound.len
  have capacity := sound.capacity
  have counted := sound.counted
  refine ⟨⟨sound.resv, ?_, ?_, ?_⟩, ?_⟩
  · dsimp only
    omega
  · dsimp only
    omega
  · dsimp only
    omega
  · dsimp only
    omega

/-- Fewer characters than there is room for end up one behind the other, and one behind where they
belong. -/
theorem Sound.slicePutChars_room (sound : Sound slice) {bytes : List UInt8}
    (room : bytes.length < sliceRemain slice) :
    ∃ outcomes head, slicePutChars slice bytes =
        some (outcomes, { slice with head := head, len := slice.len + bytes.length }) ∧
      (∀ outcome ∈ outcomes, ¬ outcome.Failed) ∧
      Memory.store slice.head (slice.resv.toNat + slice.len.toNat + 1) bytes = some head := by
  induction bytes generalizing slice with
  | nil =>
      refine ⟨[], slice.head, ?_, fun _ member => absurd member List.not_mem_nil, ?_⟩
      · rw [List.length_nil, Int.natCast_zero, Int.add_zero]
        rfl
      · have fits := sound.remain_eq
        have capacity := sound.capacity
        have positive := sound.len
        have resv := sound.resv
        rw [List.length_nil] at room
        refine Memory.store_eq_some_iff.mpr ⟨by rw [List.length_nil]; omega, ?_⟩
        rw [List.append_nil, List.length_nil, Nat.add_zero, List.take_append_drop]
  | cons byte bytes ih =>
      have fits := sound.remain_eq
      have capacity := sound.capacity
      have positive := sound.len
      have resv := sound.resv
      rw [List.length_cons] at room
      obtain ⟨head, stored⟩ : ∃ head, Memory.store slice.head
          (slice.resv.toNat + slice.len.toNat + 1) [byte] = some head := by
        apply Memory.store_isSome
        rw [List.length_singleton]
        omega
      have kept := sound.putChar (by omega) (Memory.store_length stored)
      have remain := kept.remain_eq
      dsimp only at remain
      obtain ⟨outcomes, last, called, succeeded, rest⟩ := ih kept (by omega)
      have place : slice.resv.toNat + (slice.len + 1).toNat + 1 =
          slice.resv.toNat + slice.len.toNat + 1 + [byte].length := by
        rw [List.length_singleton]
        omega
      dsimp only at rest
      rw [place] at rest
      refine ⟨.pointer (sliceTail slice + 1) :: outcomes, last, ?_, ?_,
        Memory.store_consecutive stored rest⟩
      · rw [slicePutChars_cons, sound.slicePutChar_eq byte (by omega), stored, Option.map_some,
          Option.bind_some, called, Option.map_some]
        have length : slice.len + 1 + (bytes.length : Int) =
            slice.len + ((byte :: bytes).length : Int) := by
          rw [List.length_cons]
          omega
        rw [← length]
      · intro outcome member
        rcases List.mem_cons.mp member with rfl | later
        · exact id
        · exact succeeded outcome later

/-- The character that fills the slice is written behind its end. -/
theorem Sound.slicePutChars_filled (sound : Sound slice) {bytes : List UInt8}
    (some_ : 1 ≤ sliceRemain slice) (fills : sliceRemain slice ≤ bytes.length) :
    slicePutChars slice bytes = none := by
  induction bytes generalizing slice with
  | nil =>
      rw [List.length_nil] at fills
      omega
  | cons byte bytes ih =>
      have fits := sound.remain_eq
      have capacity := sound.capacity
      have positive := sound.len
      have resv := sound.resv
      rw [List.length_cons] at fills
      rw [slicePutChars_cons, sound.slicePutChar_eq byte some_]
      cases stored : Memory.store slice.head (slice.resv.toNat + slice.len.toNat + 1) [byte] with
      | none => rfl
      | some head =>
          obtain ⟨inside, -⟩ := Memory.store_eq_some_iff.mp stored
          rw [List.length_singleton] at inside
          have kept := sound.putChar some_ (Memory.store_length stored)
          have remain := kept.remain_eq
          dsimp only at remain
          rw [Option.map_some, Option.bind_some, ih kept (by omega) (by omega), Option.map_none]

/-- On a full slice every call fails. -/
theorem slicePutChars_full (full : sliceRemain slice < 1) (bytes : List UInt8) :
    slicePutChars slice bytes = some (bytes.map fun _ => .assertNull, slice) := by
  induction bytes with
  | nil => rfl
  | cons byte bytes ih =>
      have failed : slicePutChar slice byte.toUInt32.toInt32 = some (.assertNull, slice) := by
        rw [slicePutChar, slicePut_of_full slice (by omega) full]
      rw [slicePutChars_cons, failed, Option.bind_some, ih]
      rfl

/-- Bytes that are moved back by one place are the same bytes exactly if all are equal to the one in
front. -/
theorem take_cons_eq_iff {α : Type*} (first : α) (list : List α) :
    (first :: list).take list.length = list ↔ ∀ value ∈ list, value = first := by
  induction list generalizing first with
  | nil => simp
  | cons second list ih =>
      rw [List.length_cons, List.take_succ_cons, List.cons.injEq, ih, List.forall_mem_cons]
      constructor
      · rintro ⟨rfl, same⟩
        exact ⟨rfl, same⟩
      · rintro ⟨rfl, same⟩
        exact ⟨rfl, same⟩

/-- Characters one place behind the tail: the data ends with the byte that was at the tail and all
of them but the last. -/
theorem Sound.data_moved (sound : Sound slice) {bytes head : List UInt8} {byte : UInt8}
    (here : slice.head[slice.resv.toNat + slice.len.toNat]? = some byte)
    (stored : Memory.store slice.head (slice.resv.toNat + slice.len.toNat + 1) bytes = some head) :
    dataBytes { slice with head := head, len := slice.len + bytes.length } =
      dataBytes slice ++ (byte :: bytes).take bytes.length := by
  have positive := sound.len
  have data := sound.load_data_of_store (Nat.le_add_right _ 1) stored
  have atTail : Memory.load head (slice.resv.toNat + slice.len.toNat) 1 = some [byte] := by
    rw [Memory.load_store_disjoint stored (.inl (Nat.le_refl _))]
    obtain ⟨inside, same⟩ := List.getElem?_eq_some_iff.mp here
    refine Memory.load_eq_some_iff.mpr ⟨inside, ?_⟩
    rw [List.drop_eq_getElem_cons inside, same]
    rfl
  have behind := Memory.load_append atTail (Memory.load_store_self stored)
  obtain ⟨-, whole⟩ := Memory.load_eq_some_iff.mp (Memory.load_append data behind)
  have length : (slice.len + (bytes.length : Int)).toNat = slice.len.toNat + bytes.length := by
    omega
  calc dataBytes { slice with head := head, len := slice.len + bytes.length }
      = (head.drop slice.resv.toNat).take (slice.len.toNat + bytes.length) := by
        rw [dataBytes, length]
        rfl
    _ = ((head.drop slice.resv.toNat).take (slice.len.toNat + (1 + bytes.length))).take
          (slice.len.toNat + bytes.length) := by
        rw [List.take_take, Nat.min_eq_left (by omega)]
    _ = (dataBytes slice ++ (byte :: bytes)).take
          ((dataBytes slice).length + bytes.length) := by
        rw [whole, sound.data_length]
        rfl
    _ = dataBytes slice ++ (byte :: bytes).take bytes.length := List.take_length_add_append ..

/-- Characters are put right exactly if there are none, the slice is full, or there is more room than
they need and all of them are what is at the tail already. -/
theorem Sound.putsChars_iff (sound : Sound slice) {bytes : List UInt8} :
    PutsChars slice bytes ↔ bytes = [] ∨ (sliceRemain slice = 0 ∨
      bytes.length < sliceRemain slice ∧
        ∀ byte ∈ bytes, slice.head[(sliceTail slice).toNat]? = some byte) := by
  have fits := sound.remain_eq
  have small := sound.fits
  have capacity := sound.capacity
  have positive := sound.len
  have resv := sound.resv
  have tail := sound.tail_eq
  rcases Int.lt_or_le (sliceRemain slice) 1 with full | some_
  · have called := slicePutChars_full full bytes
    have zero : sliceRemain slice = 0 := by omega
    refine iff_of_true ⟨?_, ?_⟩ (.inr (.inl zero))
    · intro room
      obtain rfl := List.eq_nil_of_length_eq_zero (show bytes.length = 0 by omega)
      exact ⟨[], slice, called, fun _ member => absurd member List.not_mem_nil,
        (List.append_nil _).symm⟩
    · intro over_
      obtain ⟨byte, rest, rfl⟩ := List.exists_cons_of_ne_nil
        (List.ne_nil_of_length_pos (show 0 < bytes.length by omega))
      exact ⟨_, called, .assertNull, List.mem_cons_self .., trivial⟩
  rcases Int.lt_or_le bytes.length (sliceRemain slice) with room | fills
  · obtain ⟨outcomes, head, called, succeeded, stored⟩ := sound.slicePutChars_room room
    obtain ⟨byte, here⟩ : ∃ byte, slice.head[(sliceTail slice).toNat]? = some byte :=
      ⟨_, List.getElem?_eq_getElem (by omega)⟩
    have data := sound.data_moved (by rwa [tail, Int.toNat_natCast] at here) stored
    have moved : dataBytes slice ++ (byte :: bytes).take bytes.length = dataBytes slice ++ bytes ↔
        ∀ other ∈ bytes, other = byte := by
      rw [List.append_right_inj, take_cons_eq_iff]
    rw [here]
    constructor
    · intro puts
      obtain ⟨others, next, result, -, appended⟩ := puts.room (by omega)
      rw [called] at result
      obtain ⟨-, rfl⟩ := Prod.mk.inj (Option.some.inj result)
      rw [data] at appended
      refine .inr (.inr ⟨room, fun other member => ?_⟩)
      rw [moved.mp appended other member]
    · intro right
      have equal : ∀ other ∈ bytes, other = byte := by
        rcases right with rfl | zero | ⟨-, equal⟩
        · exact fun other member => absurd member List.not_mem_nil
        · omega
        · exact fun other member => (Option.some.inj (equal other member)).symm
      refine ⟨fun _ => ⟨outcomes, _, called, succeeded, data.trans (moved.mpr equal)⟩, ?_⟩
      intro over_
      omega
  · have called := sound.slicePutChars_filled some_ fills
    have some_ : bytes ≠ [] := by
      rintro rfl
      rw [List.length_nil] at fills
      omega
    refine iff_of_false ?_ ?_
    · intro puts
      rcases Int.lt_or_le (sliceRemain slice) bytes.length with over_ | room
      · obtain ⟨others, result, -⟩ := puts.full over_
        rw [called] at result
        cases result
      · obtain ⟨others, next, result, -⟩ := puts.room room
        rw [called] at result
        cases result
    · rintro (none_ | zero | ⟨room, -⟩)
      · exact some_ none_
      · omega
      · omega

/-- Appending appends, by whole buffers and by single characters. -/
structure Appends (slice : Slice) (bytes : List UInt8) : Prop where
  buf : PutsBuf slice bytes
  chars : PutsChars slice bytes

/-- On a slice whose rules hold, bytes are appended exactly if there are none, or if there is more
room than they need and all of them are what is at the tail already. -/
theorem appends_iff (slice : Slice) (bytes : List UInt8) (sound : Sound slice) :
    Appends slice bytes ↔ bytes = [] ∨ (bytes.length < sliceRemain slice ∧
      ∀ byte ∈ bytes, slice.head[(sliceTail slice).toNat]? = some byte) := by
  have fits := sound.remain_eq
  have small := sound.fits
  constructor
  · intro appends
    have room := sound.putsBuf_iff.mp appends.buf
    rcases sound.putsChars_iff.mp appends.chars with none_ | zero | same
    · exact .inl none_
    · exact .inl (List.eq_nil_of_length_eq_zero (by omega))
    · exact .inr same
  · rintro (rfl | ⟨room, same⟩)
    · refine ⟨sound.putsBuf_iff.mpr ?_, sound.putsChars_iff.mpr (.inl rfl)⟩
      rw [List.length_nil]
      omega
    · exact ⟨sound.putsBuf_iff.mpr (by omega), sound.putsChars_iff.mpr (.inr (.inr ⟨room, same⟩))⟩

/-- A slice of four zeros without data. -/
def fourZeros : Slice := ⟨false, 0, 0, 0, 4, [0, 0, 0, 0]⟩

theorem fourZeros_sound : Sound fourZeros where
  resv := by decide
  len := by decide
  fits := by decide
  capacity := by decide
  counted := by decide

theorem appends_iff_fourZeros :
    Appends fourZeros [0] ↔ ([0] : List UInt8) = [] ∨ (([0] : List UInt8).length < sliceRemain fourZeros ∧
      ∀ byte ∈ [0], fourZeros.head[(sliceTail fourZeros).toNat]? = some byte) :=
  appends_iff fourZeros [0] fourZeros_sound

/-- A character is one place behind the data that it is meant to be. -/
theorem not_appends_fourZeros : ¬ Appends fourZeros [65] := by
  intro appends
  obtain ⟨outcomes, next, called, -, appended⟩ := appends.chars.room (by decide)
  have result : slicePutChars fourZeros [65] =
      some ([.pointer 1], ⟨false, 0, 0, 1, 4, [0, 65, 0, 0]⟩) := by decide
  rw [result] at called
  obtain ⟨-, rfl⟩ := Prod.mk.inj (Option.some.inj called)
  exact absurd appended (by decide)

/-! ## Formatted output -/

theorem wrapInt_emod (value : Int) : wrapInt value % 2 ^ 32 = value % 2 ^ 32 := by
  have same : value.bmod (2 ^ 32) % ((2 ^ 32 : Nat) : Int) = value % ((2 ^ 32 : Nat) : Int) :=
    Int.bmod_emod
  exact_mod_cast same

theorem wrapInt_eq_sub {value : Int} (low : 2 ^ 31 ≤ value) (high : value < 2 ^ 32) :
    wrapInt value = value - 2 ^ 32 := by
  have same : wrapInt (value - 2 ^ 32) = wrapInt value := Int.sub_bmod_right value (2 ^ 32)
  rw [← same]
  exact wrapInt_eq (by omega) (by omega)

theorem wrapInt_lt (value : Int) : wrapInt value < 2 ^ 31 := by
  rw [wrapInt]
  have bound := Int.bmod_lt (x := value) (m := 2 ^ 32) (by decide)
  omega

/-- A slice that has grown. -/
def grown (slice : Slice) (memory : Nat → UInt8) (more : Int) : Slice :=
  { slice with
    head := osRealloc slice.head (wrapInt (sliceSIZE slice + more) % 2 ^ 32).toNat memory
    size := wrapInt (slice.size + more) }

theorem sliceGrow_grown (slice : Slice) {more : Int} {found : Nat → UInt8} (heap : slice.flag = false)
    (positive : 0 < more) : sliceGrow slice more (some found) = (.code 0, grown slice found more) := by
  have exact : growBy slice more = more := by
    rw [growBy, if_neg (by omega), if_neg (by omega)]
  rw [sliceGrow, if_neg (by simp [heap]), exact]
  rfl

theorem sliceGrow_refused (slice : Slice) (more : Int) (fixed : slice.flag = true ∨ memory = none) :
    ∃ outcome, sliceGrow slice more memory = (outcome, slice) ∧ outcome ≠ .code 0 := by
  rw [sliceGrow]
  by_cases stack : slice.flag = true
  · rw [if_pos stack]
    exact ⟨_, rfl, by decide⟩
  · rw [if_neg stack, fixed.resolve_left stack]
    exact ⟨_, rfl, by decide⟩

variable {text head : List UInt8} {tries : Nat}

section

variable (some_ : 1 ≤ sliceRemain slice)
  (written : Memory.storeAt slice.head (sliceTail slice) (vsnprintf (sliceRemain slice) text) = some head)

include some_ written

/-- A try whose text fits. -/
theorem sliceVsprintf_fits (room : text.length < sliceRemain slice) :
    sliceVsprintf grow memory text (tries + 1) slice =
      some ((text.length : Int), (slicePut { slice with head := head } text.length).2) := by
  have space : (if sliceRemain slice > 0 then sliceRemain slice else 1) = sliceRemain slice :=
    if_pos (by omega)
  rw [sliceVsprintf, space, written, Option.bind_eq_bind, Option.bind_some,
    if_neg (Int.not_le.mpr room)]
  rfl

/-- A try whose text does not fit, where the slice does not grow. -/
theorem sliceVsprintf_stops (full : sliceRemain slice ≤ text.length)
    (fixed : ¬ Grows grow memory slice) :
    sliceVsprintf grow memory text (tries + 1) slice =
      some ((text.length : Int), { slice with head := head }) := by
  have space : (if sliceRemain slice > 0 then sliceRemain slice else 1) = sliceRemain slice :=
    if_pos (by omega)
  rw [sliceVsprintf, space, written, Option.bind_eq_bind, Option.bind_some, if_pos full]
  by_cases wanted : grow = true
  · have refused : slice.flag = true ∨ memory = none := by
      by_contra neither
      obtain ⟨heap, found⟩ := not_or.mp neither
      exact fixed ⟨wanted, Bool.eq_false_iff.mpr heap, Option.isSome_iff_ne_none.mpr found⟩
    obtain ⟨outcome, result, failed⟩ := sliceGrow_refused { slice with head := head }
      (wrapInt (wrapInt (text.length + 1) - sliceRemain slice)) refused
    rw [if_pos wanted, result]
    split
    · rename_i other same
      exact absurd (Prod.mk.inj same).1 failed
    · rename_i other same
      obtain ⟨-, rfl⟩ := Prod.mk.inj same
      rfl
  · rw [if_neg wanted]
    rfl

/-- A try whose text does not fit, where the slice grows. -/
theorem sliceVsprintf_grows {found : Nat → UInt8} (full : sliceRemain slice ≤ text.length)
    (small : text.length + 1 < 2 ^ 31) (heap : slice.flag = false) :
    sliceVsprintf true (some found) text (tries + 1) slice =
      sliceVsprintf true (some found) text tries
        (grown { slice with head := head } found (text.length + 1 - sliceRemain slice)) := by
  have space : (if sliceRemain slice > 0 then sliceRemain slice else 1) = sliceRemain slice :=
    if_pos (by omega)
  have more : wrapInt (wrapInt (text.length + 1) - sliceRemain slice) =
      text.length + 1 - sliceRemain slice := by
    have next : wrapInt (text.length + 1) = text.length + 1 := wrapInt_eq (by omega) (by omega)
    rw [next]
    exact wrapInt_eq (by omega) (by omega)
  rw [sliceVsprintf, space, written, Option.bind_eq_bind, Option.bind_some, if_pos full,
    if_pos rfl, more, sliceGrow_grown { slice with head := head } heap (by omega)]
  rfl

end

/-- On a full slice the NUL is written behind the end. -/
theorem Sound.sliceVsprintf_full (sound : Sound slice) (full : sliceRemain slice < 1) :
    sliceVsprintf grow memory text tries slice = none := by
  cases tries with
  | zero => rfl
  | succ tries =>
      have space : (if sliceRemain slice > 0 then sliceRemain slice else 1) = 1 :=
        if_neg (by omega)
      have refused : Memory.storeAt slice.head (sliceTail slice) (vsnprintf 1 text) = none := by
        cases written : Memory.storeAt slice.head (sliceTail slice) (vsnprintf 1 text) with
        | none => rfl
        | some head =>
            have room := (sound.storeAt_tail _).mp ⟨head, written⟩
            have one : (vsnprintf 1 text).length = 1 := by
              rw [vsnprintf, if_neg (by decide)]
              rfl
            rw [← sound.remain_eq, one] at room
            omega
      rw [sliceVsprintf, space, refused]
      rfl

/-- A text that no `int` can count with its NUL never fits, so a slice that may grow does so without
end. -/
theorem sliceVsprintf_endless {found : Nat → UInt8} (long : 2 ^ 31 ≤ text.length + 1)
    (heap : slice.flag = false) : sliceVsprintf true (some found) text tries slice = none := by
  induction tries generalizing slice with
  | zero => rfl
  | succ tries ih =>
      rw [sliceVsprintf]
      have space : (if sliceRemain slice > 0 then sliceRemain slice else 1) ≤ text.length := by
        have bound := wrapInt_lt (slice.size - slice.len)
        rw [← sliceRemain] at bound
        split <;> omega
      cases Memory.storeAt slice.head (sliceTail slice)
          (vsnprintf (if sliceRemain slice > 0 then sliceRemain slice else 1) text) with
      | none => rfl
      | some head =>
          rw [Option.bind_eq_bind, Option.bind_some, if_pos space, if_pos rfl, sliceGrow,
            if_neg (by simp [heap])]
          exact ih heap

section

variable (sound : Sound slice)

include sound

/-- The number of bytes of a slice that has grown for a text. -/
theorem Sound.grown_size (found : Nat → UInt8) (text head : List UInt8) :
    (grown { slice with head := head } found (text.length + 1 - sliceRemain slice)).size =
      wrapInt (slice.len + text.length + 1) := by
  rw [grown, sound.remain_eq]
  dsimp only
  congr 1
  omega

theorem Sound.grown_remain (found : Nat → UInt8) (text head : List UInt8)
    (small : text.length + 1 < 2 ^ 31) :
    sliceRemain (grown { slice with head := head } found (text.length + 1 - sliceRemain slice)) =
      text.length + 1 := by
  have len : (grown { slice with head := head } found
      (text.length + 1 - sliceRemain slice)).len = slice.len := rfl
  have rest : slice.len + text.length + 1 - slice.len = (text.length : Int) + 1 := by omega
  rw [sliceRemain, sound.grown_size, len, wrapInt, wrapInt, Int.bmod_sub_bmod, rest]
  exact wrapInt_eq (by omega) (by omega)

/-- A slice that has grown for a text within what an `int` can count keeps its rules. -/
theorem Sound.grown_rules (found : Nat → UInt8) (same : head.length = slice.head.length)
    (full : sliceRemain slice ≤ text.length)
    (counted : slice.len + text.length + 1 < 2 ^ 31) :
    Geometry (grown { slice with head := head } found
      (text.length + 1 - sliceRemain slice)) := by
  have resv := sound.resv
  have len := sound.len
  have fits := sound.fits
  have capacity := sound.capacity
  have remain := sound.remain_eq
  have small := sound.counted
  have size := sound.grown_size found text head
  rw [wrapInt_eq (by omega) counted] at size
  have block : (grown { slice with head := head } found
      (text.length + 1 - sliceRemain slice)).head.length =
        slice.resv + (slice.len + text.length + 1) := by
    have SIZE : sliceSIZE { slice with head := head } = slice.head.length := sound.size_eq
    rw [grown, osRealloc_length, SIZE, wrapInt_emod]
    omega
  exact ⟨resv, len, by rw [size]; change slice.len ≤ _; omega, by rw [size, block]; rfl⟩

/-- The data of a slice that has grown for a text is the same. -/
theorem Sound.grown_data (found : Nat → UInt8) {content : List UInt8}
    (written : Memory.storeAt slice.head (sliceTail slice) content = some head)
    (full : sliceRemain slice ≤ text.length) (counted : slice.len + text.length + 1 < 2 ^ 31) :
    dataBytes (grown { slice with head := head } found (text.length + 1 - sliceRemain slice)) =
      dataBytes slice := by
  have resv := sound.resv
  have len := sound.len
  have fits := sound.fits
  have capacity := sound.capacity
  have remain := sound.remain_eq
  have small := sound.counted
  rw [sound.storeAt_tail_eq] at written
  have same := Memory.store_length written
  obtain ⟨inside, data⟩ := Memory.load_eq_some_iff.mp
    (sound.load_data_of_store (Nat.le_refl _) written)
  have SIZE : sliceSIZE { slice with head := head } = slice.head.length := sound.size_eq
  have longer : head.length ≤ (wrapInt (sliceSIZE { slice with head := head } +
      (text.length + 1 - sliceRemain slice)) % 2 ^ 32).toNat := by
    rw [SIZE, wrapInt_emod]
    omega
  rw [dataBytes, grown]
  dsimp only [sliceData]
  rw [osRealloc, List.take_of_length_le longer, List.drop_append_of_le_length (by omega),
    List.take_append_of_le_length (by rw [List.length_drop]; omega), data]

end

theorem vsnprintf_fits {space : Int} (room : text.length < space) :
    vsnprintf space text = text ++ [0] := by
  rw [vsnprintf, if_neg (by omega), List.take_of_length_le (by omega)]

theorem length_vsnprintf_full {space : Int} (some_ : 1 ≤ space) (full : space ≤ text.length) :
    ((vsnprintf space text).length : Int) = space := by
  rw [vsnprintf, if_neg (by omega), List.length_append, List.length_take, List.length_singleton]
  omega

/-- A text that fits is appended, and its NUL stands before the end. -/
theorem Geometry.prints_fits (rules : Geometry slice) (small : slice.size < 2 ^ 31)
    (text : List UInt8) (room : text.length < sliceRemain slice) (grow : Bool)
    (memory : Option (Nat → UInt8)) (tries : Nat) :
    ∃ next, sliceVsprintf grow memory text (tries + 1) slice = some ((text.length : Int), next) ∧
      sliceTail next < sliceEnd next ∧ dataBytes next = dataBytes slice ++ text := by
  have resv := rules.resv
  have len := rules.len
  have fits := rules.fits
  have remain : sliceRemain slice = slice.size - slice.len := wrapInt_eq (by omega) (by omega)
  obtain ⟨head, written⟩ := (rules.storeAt_tail (text ++ [0])).mpr
    (by rw [List.length_append, List.length_singleton]; omega)
  have put : (slicePut { slice with head := head } text.length).2 =
      { slice with head := head, len := slice.len + text.length } := by
    rw [slicePut_of_room { slice with head := head } (by omega) (Int.le_of_lt room)]
    dsimp only
    rw [wrapInt_eq (by omega) (by omega)]
  refine ⟨_, sliceVsprintf_fits (by omega) (vsnprintf_fits room ▸ written) room, ?_, ?_⟩
  · rw [put, sliceTail, sliceEnd]
    dsimp only [sliceData]
    omega
  · rw [put]
    exact rules.data_appended [0] written rfl

/-- A try whose text does not fit leaves the data. -/
theorem Geometry.data_written (rules : Geometry slice) {content : List UInt8}
    (written : Memory.storeAt slice.head (sliceTail slice) content = some head) :
    dataBytes { slice with head := head } = dataBytes slice := by
  have same : dataBytes { slice with head := head, len := slice.len } = dataBytes slice ++ [] :=
    rules.data_appended content written (Int.add_zero _).symm
  rwa [List.append_nil] at same

/-- A slice whose size wraps has lost its data, or its end is before it. -/
theorem Sound.not_prints_wrapped (sound : Sound slice) (some_ : 1 ≤ sliceRemain slice)
    (full : sliceRemain slice ≤ text.length) (small : text.length + 1 < 2 ^ 31)
    (heap : slice.flag = false) (found : Nat → UInt8)
    (wraps : 2 ^ 31 ≤ slice.len + text.length + 1) : ¬ Prints true (some found) text slice := by
  rintro ⟨tries, next, result, inside, appended⟩
  have positive := sound.len
  have ranges := sound.ranges
  rw [if_pos (.inl ⟨rfl, heap, rfl⟩)] at appended
  obtain ⟨head, written⟩ := (sound.storeAt_tail (vsnprintf (sliceRemain slice) text)).mpr
    (Int.le_of_eq (by rw [length_vsnprintf_full some_ full, sound.remain_eq]))
  cases tries with
  | zero => cases result
  | succ tries =>
  rw [sliceVsprintf_grows some_ written full small heap] at result
  obtain ⟨large, isLarge⟩ : ∃ large, large = grown { slice with head := head } found
      (text.length + 1 - sliceRemain slice) := ⟨_, rfl⟩
  have remain := sound.grown_remain found text head small
  have size := sound.grown_size found text head
  rw [wrapInt_eq_sub wraps (by omega)] at size
  have len : large.len = slice.len := by rw [isLarge]; rfl
  rw [← isLarge] at result remain size
  cases tries with
  | zero => cases result
  | succ tries =>
  cases again : Memory.storeAt large.head (sliceTail large) (vsnprintf (sliceRemain large) text) with
  | none =>
      have space : (if sliceRemain large > 0 then sliceRemain large else 1) = sliceRemain large :=
        if_pos (by omega)
      rw [sliceVsprintf, space, again] at result
      cases result
  | some last =>
      rw [sliceVsprintf_fits (by omega) again (by omega),
        slicePut_of_room { large with head := last } (by omega)
          (show (text.length : Int) ≤ sliceRemain large by omega)] at result
      obtain ⟨-, rfl⟩ := Prod.mk.inj (Option.some.inj result)
      rw [sliceTail, sliceEnd] at inside
      dsimp only [sliceData] at inside
      rw [size, len] at inside
      rcases Int.lt_or_le (slice.len + text.length) (2 ^ 31) with kept | lost
      · rw [wrapInt_eq (by omega) kept] at inside
        omega
      · have nothing : (wrapInt (slice.len + text.length)).toNat = 0 := by
          rw [wrapInt_eq_sub lost (by omega)]
          omega
        rw [dataBytes] at appended
        dsimp only at appended
        rw [len, nothing, List.take_zero, eq_comm, List.append_eq_nil_iff] at appended
        rw [appended.2, List.length_nil] at lost
        omega

/-- A full slice of four bytes. -/
def fourBytes : Slice := ⟨false, 0, 0, 4, 4, [1, 2, 3, 4]⟩

end Trunk.Slices
