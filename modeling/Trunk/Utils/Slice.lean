import Mathlib.Algebra.Group.Int.Defs
import Mathlib.Algebra.Group.Nat.Defs
import Trunk.Foundation.Memory
import Trunk.Foundation.Run
import Trunk.Utils.Errno

/-! # Slices

The model of `slice.h`: a buffer with a reserved part in front, data behind it and room at
its end. The members are `int`s, and sums of them wrap as the processor's do. A pointer into
the buffer is the distance from its head; `os_realloc` is asked for a 32-bit `size_t`.

The documented rules of the geometry (`Trunk.Slices.Geometry`) are kept by every call, and
a call that fails changes nothing, as long as no `slice_grow` asks for more than an `int`
can count (`Trunk.Slices.slice_geometry`). Where it does and the memory is found, the size
becomes negative (`Trunk.Slices.slice_grow_overflow`).
-/

namespace Trunk.Slices

open Run

/-- The sum of two `int`s, as the processor computes it. -/
def wrapInt (value : Int) : Int := value.bmod (2 ^ 32)

theorem wrapInt_eq {value : Int} (low : -2 ^ 31 ≤ value) (high : value < 2 ^ 31) :
    wrapInt value = value :=
  Int.bmod_eq_of_le (by omega) (by omega)

/-- `struct slice`. The only bit of `flag` is `SLICE_STACK`, and a head that is `NULL` is an
empty buffer. -/
structure Slice where
  flag : Bool
  resv : Int
  offset : Int
  len : Int
  size : Int
  head : List UInt8
  deriving DecidableEq, Repr

/-- What a call ends with: a pointer, `NULL` or a code, the last two also by way of
`os_assert_value`, which aborts the process outside the kernel; or nothing. -/
inductive Outcome where
  | pointer (offset : Int)
  | null
  | code (value : Int)
  | assertNull
  | assertCode (value : Int)
  | done
  deriving DecidableEq, Repr

/-- The call returned `NULL` or an error, or failed an assertion on the way to it. -/
def Outcome.Failed : Outcome → Prop
  | .pointer _ => False
  | .null => True
  | .code value => value ≠ 0
  | .assertNull => True
  | .assertCode _ => True
  | .done => False

variable {slice : Slice}

/-- `slice_is_clean`. -/
def sliceIsClean (slice : Slice) : Bool :=
  slice.len = 0 && slice.size = 0 && slice.resv = 0 && slice.head.isEmpty

/-- `slice_reinit`. Its assertions end the process. -/
def sliceReinit (slice : Slice) (size resv : Int) (isLocal : Bool) : Outcome × Slice :=
  if ¬ 0 < size then (.assertCode 0, slice)
  else if ¬ 0 ≤ resv then (.assertCode 0, slice)
  else if sliceIsClean slice = false ∧ resv ≥ size then (.code (-EINVAL1), slice)
  else
    (.code 0, { slice with
      flag := isLocal
      len := 0
      size := wrapInt (size - resv)
      resv := resv
      offset := 0 })

/-- `slice_init_resv`. -/
def sliceInitResv (slice : Slice) (data : List UInt8) (size resv : Int) (isLocal : Bool) : Slice :=
  (sliceReinit { slice with head := data } size resv isLocal).2

/-- `slice_init`. -/
def sliceInit (slice : Slice) (data : List UInt8) (size : Int) (isLocal : Bool) : Slice :=
  sliceInitResv slice data size 0 isLocal

/-- `slice_SIZE`. -/
def sliceSIZE (slice : Slice) : Int := wrapInt (slice.size + slice.resv)

/-- `slice_remain`. -/
def sliceRemain (slice : Slice) : Int := wrapInt (slice.size - slice.len)

/-- `slice_data`. -/
def sliceData (slice : Slice) : Int := slice.resv

/-- `slice_tail`. -/
def sliceTail (slice : Slice) : Int := sliceData slice + slice.len

/-- `slice_alloc`. `found` is whether `os_zalloc` finds the memory; with a size that is not
positive the assertion of `slice_reinit` then ends the process. -/
def sliceAlloc (slice : Slice) (size : Int) (found : Bool) : Outcome × Slice :=
  if found then
    if 0 < size then
      (.code 0, sliceInit slice (List.replicate (size % 2 ^ 32).toNat 0) size false)
    else (.assertCode 0, slice)
  else (.code (-ENOMEM), slice)

/-- `slice_zero`; there is no result if it writes outside the buffer. -/
def sliceZero (slice : Slice) : Option (Outcome × Slice) :=
  if 0 ≤ sliceData slice then
    (Memory.store slice.head (sliceData slice).toNat
      (List.replicate (slice.size % 2 ^ 32).toNat 0)).map
      fun head => (.done, { slice with head := head, len := 0 })
  else none

/-- `SLICE_GROW_DOUBLE_LIMIT`. -/
def sliceGrowDoubleLimit : Int := 256 * 1024

/-- `SLICE_GROW_STEP`. -/
def sliceGrowStep : Int := 4 * 1024

/-- By how much `slice_grow` grows a slice. -/
def growBy (slice : Slice) (grow : Int) : Int :=
  let grow := if grow < 0 then 0 else grow
  if grow = 0 then
    if sliceSIZE slice < sliceGrowDoubleLimit then sliceSIZE slice else sliceGrowStep
  else grow

/-- `os_realloc`: the bytes of the old block, then whatever `memory` holds. -/
def osRealloc (block : List UInt8) (size : Nat) (memory : Nat → UInt8) : List UInt8 :=
  block.take size ++ (List.range (size - block.length)).map memory

/-- `slice_grow`. `memory` is what `os_realloc` finds, if it does. -/
def sliceGrow (slice : Slice) (grow : Int) (memory : Option (Nat → UInt8)) : Outcome × Slice :=
  let size := sliceSIZE slice
  if slice.flag then (.assertCode (-ENOSUPPORT), slice)
  else
    let grow := growBy slice grow
    match memory with
    | none => (.code (-ENOMEM), slice)
    | some memory =>
        (.code 0, { slice with
          head := osRealloc slice.head (wrapInt (size + grow) % 2 ^ 32).toNat memory
          size := wrapInt (slice.size + grow) })

/-- `slice_pull`. On a slice without data it does not lower the length. -/
def slicePull (slice : Slice) (len : Int) : Outcome × Slice :=
  if len < 0 then (.assertNull, slice)
  else if slice.size < len then (.assertNull, slice)
  else if slice.len ≠ 0 ∧ slice.len < len then (.null, slice)
  else
    let slice := if slice.len = 0 then slice else { slice with len := wrapInt (slice.len - len) }
    let slice := { slice with
      size := wrapInt (slice.size - len), resv := wrapInt (slice.resv + len) }
    (.pointer (sliceData slice), slice)

/-- `slice_push`. -/
def slicePush (slice : Slice) (len : Int) : Outcome × Slice :=
  if len < 0 then (.assertNull, slice)
  else if slice.resv < len then (.assertNull, slice)
  else
    let slice := { slice with
      len := wrapInt (slice.len + len)
      size := wrapInt (slice.size + len)
      resv := wrapInt (slice.resv - len) }
    (.pointer (sliceData slice), slice)

/-- `slice_unpull`. -/
def sliceUnpull (slice : Slice) : Outcome × Slice := slicePush slice slice.resv

/-- `slice_put`. -/
def slicePut (slice : Slice) (len : Int) : Outcome × Slice :=
  if len < 0 then (.assertNull, slice)
  else if len > sliceRemain slice then (.assertNull, slice)
  else
    let slice := { slice with len := wrapInt (slice.len + len) }
    (.pointer (sliceTail slice), slice)

/-- `slice_trim`. -/
def sliceTrim (slice : Slice) (len : Int) : Outcome × Slice :=
  if len < 0 then (.assertNull, slice)
  else if len > slice.len then (.assertNull, slice)
  else
    let slice := { slice with len := wrapInt (slice.len - len) }
    (.pointer (sliceTail slice), slice)

/-- A call on a slice, with the memory that a reallocation finds. -/
inductive Op where
  | pull (len : Int32)
  | push (len : Int32)
  | unpull
  | put (len : Int32)
  | trim (len : Int32)
  | zero
  | grow (grow : Int32) (memory : Option (Nat → UInt8))

/-- What a call ends with and the slice it leaves. -/
def call (slice : Slice) : Op → Option (Outcome × Slice)
  | .pull len => some (slicePull slice len.toInt)
  | .push len => some (slicePush slice len.toInt)
  | .unpull => some (sliceUnpull slice)
  | .put len => some (slicePut slice len.toInt)
  | .trim len => some (sliceTrim slice len.toInt)
  | .zero => sliceZero slice
  | .grow grow memory => some (sliceGrow slice grow.toInt memory)

/-- The slice after a call. -/
def step (slice : Slice) (op : Op) : Option Slice := (call slice op).map Prod.snd

/-- A slice that was just initialised over the whole of a buffer. -/
inductive Fresh : Slice → Prop
  | initResv (before : Slice) (data : List UInt8) (size resv : Int32) (isLocal : Bool)
      (reserved : 0 ≤ resv.toInt) (room : resv.toInt < size.toInt)
      (capacity : data.length = size.toInt) :
      Fresh (sliceInitResv before data size.toInt resv.toInt isLocal)
  | init (before : Slice) (data : List UInt8) (size : Int32) (isLocal : Bool)
      (room : 0 < size.toInt) (capacity : data.length = size.toInt) :
      Fresh (sliceInit before data size.toInt isLocal)
  | alloc (before after : Slice) (size : Int32) (found : Bool)
      (allocated : sliceAlloc before size.toInt found = (.code 0, after)) : Fresh after

/-- The rules of the geometry. -/
structure Geometry (slice : Slice) : Prop where
  resv : 0 ≤ slice.resv
  len : 0 ≤ slice.len
  fits : slice.len ≤ slice.size
  capacity : slice.resv + slice.size = slice.head.length

/-- The rules, for a buffer that an `int` can count. -/
structure Sound (slice : Slice) : Prop extends Geometry slice where
  counted : (slice.head.length : Int) < 2 ^ 31

/-- The call does not ask for more memory than an `int` can count, or does not get it. -/
def Op.Bounded (slice : Slice) : Op → Prop
  | .grow more memory => slice.flag = true ∨ memory = none ∨
      sliceSIZE slice + growBy slice more.toInt < 2 ^ 31
  | _ => True

theorem sliceInitResv_sound (before : Slice) (data : List UInt8) {size resv : Int} (isLocal : Bool)
    (small : size < 2 ^ 31) (reserved : 0 ≤ resv) (room : resv < size)
    (capacity : data.length = size) : Sound (sliceInitResv before data size resv isLocal) := by
  have made : sliceInitResv before data size resv isLocal =
      ⟨isLocal, resv, 0, 0, size - resv, data⟩ := by
    have positive : 0 < size := by omega
    have smaller : ¬ resv ≥ size := by omega
    simp only [sliceInitResv, sliceReinit, positive, not_true_eq_false, ↓reduceIte, reserved,
      smaller, and_false, wrapInt_eq (show -2 ^ 31 ≤ size - resv by omega) (by omega)]
  rw [made]
  exact ⟨⟨reserved, Int.le_refl 0, by simp only; omega, by simp only; omega⟩, by simp only; omega⟩

theorem Fresh.sound (fresh : Fresh slice) : Sound slice := by
  cases fresh with
  | initResv before data size resv isLocal reserved room capacity =>
      exact sliceInitResv_sound before data isLocal size.toInt_lt reserved room capacity
  | init before data size isLocal room capacity =>
      exact sliceInitResv_sound before data isLocal size.toInt_lt (Int.le_refl 0) room capacity
  | alloc before after size found allocated =>
      unfold sliceAlloc at allocated
      split at allocated
      · split at allocated
        · rename_i positive
          obtain rfl := (Prod.ext_iff.mp allocated).2
          have small := size.toInt_lt
          refine sliceInitResv_sound before _ false small (Int.le_refl 0) positive ?_
          rw [List.length_replicate]
          omega
        · cases (Prod.ext_iff.mp allocated).1
      · cases (Prod.ext_iff.mp allocated).1

section

variable (sound : Sound slice)

include sound

theorem Sound.ranges : slice.size < 2 ^ 31 ∧ slice.resv < 2 ^ 31 ∧ slice.len < 2 ^ 31 := by
  have resv := sound.resv
  have len := sound.len
  have fits := sound.fits
  have capacity := sound.capacity
  have counted := sound.counted
  omega

theorem Sound.size_eq : sliceSIZE slice = slice.head.length := by
  have resv := sound.resv
  have len := sound.len
  have fits := sound.fits
  have capacity := sound.capacity
  have counted := sound.counted
  rw [sliceSIZE, wrapInt_eq (by omega) (by omega)]
  omega

theorem Sound.remain_eq : sliceRemain slice = slice.size - slice.len := by
  obtain ⟨size, resv, len⟩ := sound.ranges
  have fits := sound.fits
  have positive := sound.len
  exact wrapInt_eq (by omega) (by omega)

end

theorem slicePull_cases (slice : Slice) (len : Int) :
    ((slicePull slice len).2 = slice ∧ (slicePull slice len).1.Failed) ∨
      (0 ≤ len ∧ len ≤ slice.size ∧ (slice.len = 0 ∨ len ≤ slice.len) ∧
        (slicePull slice len).1 = .pointer (wrapInt (slice.resv + len)) ∧
        (slicePull slice len).2 = { slice with
          len := if slice.len = 0 then 0 else wrapInt (slice.len - len)
          size := wrapInt (slice.size - len)
          resv := wrapInt (slice.resv + len) }) := by
  unfold slicePull
  split
  · exact .inl ⟨rfl, trivial⟩
  split
  · exact .inl ⟨rfl, trivial⟩
  split
  · exact .inl ⟨rfl, trivial⟩
  · rename_i positive inside enough
    right
    by_cases empty : slice.len = 0
    · refine ⟨by omega, by omega, .inl empty, ?_, ?_⟩
      · simp only [empty, ↓reduceIte, sliceData]
      · simp only [empty, ↓reduceIte]
    · refine ⟨by omega, by omega, .inr (by omega), ?_, ?_⟩
      · simp only [empty, ↓reduceIte, sliceData]
      · simp only [empty, ↓reduceIte]

theorem slicePush_cases (slice : Slice) (len : Int) :
    ((slicePush slice len).2 = slice ∧ (slicePush slice len).1.Failed) ∨
      (0 ≤ len ∧ len ≤ slice.resv ∧
        (slicePush slice len).1 = .pointer (wrapInt (slice.resv - len)) ∧
        (slicePush slice len).2 = { slice with
          len := wrapInt (slice.len + len)
          size := wrapInt (slice.size + len)
          resv := wrapInt (slice.resv - len) }) := by
  unfold slicePush
  split
  · exact .inl ⟨rfl, trivial⟩
  split
  · exact .inl ⟨rfl, trivial⟩
  · exact .inr ⟨by omega, by omega, rfl, rfl⟩

/-- The data of `slice_put` and `slice_trim`: only the length moves. -/
theorem Sound.setLen {len : Int} (sound : Sound slice) (positive : 0 ≤ len)
    (fits : len ≤ slice.size) : Sound { slice with len := wrapInt len } := by
  have bound := sound.ranges
  rw [wrapInt_eq (by omega) (by omega)]
  exact ⟨⟨sound.resv, positive, fits, sound.capacity⟩, sound.counted⟩

theorem Sound.pull (sound : Sound slice) (len : Int) : Sound (slicePull slice len).2 := by
  rcases slicePull_cases slice len with ⟨same, _⟩ | ⟨positive, inside, enough, _, after⟩
  · rw [same]
    exact sound
  · obtain ⟨⟨resv, length, fits, capacity⟩, counted⟩ := sound
    have smaller : wrapInt (slice.size - len) = slice.size - len :=
      wrapInt_eq (by omega) (by omega)
    have moved : wrapInt (slice.resv + len) = slice.resv + len := wrapInt_eq (by omega) (by omega)
    rw [after, smaller, moved]
    split
    · exact ⟨⟨by simp only; omega, Int.le_refl 0, by simp only; omega, by simp only; omega⟩, counted⟩
    · rw [wrapInt_eq (by omega) (by omega)]
      exact ⟨⟨by simp only; omega, by simp only; omega, by simp only; omega, by simp only; omega⟩,
        counted⟩

theorem Sound.push (sound : Sound slice) (len : Int) : Sound (slicePush slice len).2 := by
  rcases slicePush_cases slice len with ⟨same, _⟩ | ⟨positive, inside, _, after⟩
  · rw [same]
    exact sound
  · obtain ⟨⟨resv, length, fits, capacity⟩, counted⟩ := sound
    rw [after, wrapInt_eq (by omega) (by omega), wrapInt_eq (by omega) (by omega),
      wrapInt_eq (by omega) (by omega)]
    exact ⟨⟨by simp only; omega, by simp only; omega, by simp only; omega, by simp only; omega⟩,
      counted⟩

theorem Sound.put (sound : Sound slice) (len : Int) : Sound (slicePut slice len).2 := by
  unfold slicePut
  split
  · exact sound
  split
  · exact sound
  · rename_i positive inside
    rw [sound.remain_eq] at inside
    have before := sound.len
    exact sound.setLen (by omega) (by omega)

theorem Sound.trim (sound : Sound slice) (len : Int) : Sound (sliceTrim slice len).2 := by
  unfold sliceTrim
  split
  · exact sound
  split
  · exact sound
  · have fits := sound.fits
    exact sound.setLen (by omega) (by omega)

/-- `slice_zero` writes inside the buffer. -/
theorem Sound.zero (sound : Sound slice) :
    ∃ next, sliceZero slice = some (.done, next) ∧ Sound next := by
  obtain ⟨⟨resv, length, fits, capacity⟩, counted⟩ := sound
  have room : (sliceData slice).toNat +
      (List.replicate (slice.size % 2 ^ 32).toNat (0 : UInt8)).length ≤ slice.head.length := by
    rw [List.length_replicate, sliceData]
    omega
  obtain ⟨head, stored⟩ := Memory.store_isSome room
  have kept := Memory.store_length stored
  refine ⟨{ slice with head := head, len := 0 }, ?_, ?_⟩
  · have inside : 0 ≤ sliceData slice := resv
    rw [sliceZero, if_pos inside, stored]
    rfl
  · exact ⟨⟨resv, Int.le_refl 0, by simp only; omega, by simp only [kept]; exact capacity⟩,
      by simp only [kept]; exact counted⟩

theorem osRealloc_length (block : List UInt8) {size : Nat} (memory : Nat → UInt8) :
    (osRealloc block size memory).length = size := by
  simp only [osRealloc, List.length_append, List.length_take, List.length_map, List.length_range]
  omega

theorem growBy_nonneg (sound : Sound slice) (grow : Int) : 0 ≤ growBy slice grow := by
  have size := sound.size_eq
  unfold growBy sliceGrowStep
  dsimp only
  split_ifs <;> omega

theorem Sound.grow (sound : Sound slice) {grow : Int} {memory : Option (Nat → UInt8)}
    (bounded : slice.flag = true ∨ memory = none ∨
      sliceSIZE slice + growBy slice grow < 2 ^ 31) : Sound (sliceGrow slice grow memory).2 := by
  have positive := growBy_nonneg sound grow
  unfold sliceGrow
  dsimp only
  split
  · exact sound
  · rename_i heap
    split
    · exact sound
    · rename_i memory
      have counted : sliceSIZE slice + growBy slice grow < 2 ^ 31 :=
        (bounded.resolve_left heap).resolve_left nofun
      rw [sound.size_eq] at counted
      obtain ⟨⟨resv, length, fits, capacity⟩, small⟩ := sound
      have SIZE : sliceSIZE slice = slice.head.length :=
        Sound.size_eq ⟨⟨resv, length, fits, capacity⟩, small⟩
      have block : (osRealloc slice.head
          (wrapInt (sliceSIZE slice + growBy slice grow) % 2 ^ 32).toNat memory).length =
          slice.head.length + growBy slice grow := by
        rw [osRealloc_length, SIZE, wrapInt_eq (by omega) (by omega)]
        omega
      have grown : wrapInt (slice.size + growBy slice grow) = slice.size + growBy slice grow :=
        wrapInt_eq (by omega) (by omega)
      rw [grown]
      exact ⟨⟨resv, length, by simp only; omega, by simp only [block]; omega⟩,
        by simp only [block]; omega⟩

/-- A bounded call goes through and keeps the rules. -/
theorem Sound.step (sound : Sound slice) {op : Op} (bounded : op.Bounded slice) :
    ∃ next, step slice op = some next ∧ Sound next := by
  cases op with
  | pull len => exact ⟨_, rfl, sound.pull _⟩
  | push len => exact ⟨_, rfl, sound.push _⟩
  | unpull => exact ⟨_, rfl, sound.push _⟩
  | put len => exact ⟨_, rfl, sound.put _⟩
  | trim len => exact ⟨_, rfl, sound.trim _⟩
  | zero =>
      obtain ⟨next, zeroed, kept⟩ := sound.zero
      refine ⟨next, ?_, kept⟩
      rw [Slices.step, call, zeroed]
      rfl
  | grow grow memory => exact ⟨_, rfl, sound.grow bounded⟩

/-- A call that fails changes nothing. -/
theorem call_failed {op : Op} {outcome : Outcome} {next : Slice}
    (called : call slice op = some (outcome, next)) (failed : outcome.Failed) : next = slice := by
  have push : ∀ len, (slicePush slice len).1 = outcome → (slicePush slice len).2 = slice := by
    rintro len rfl
    rcases slicePush_cases slice len with ⟨same, _⟩ | ⟨_, _, pointer, _⟩
    · exact same
    · rw [pointer] at failed
      exact failed.elim
  cases op with
  | pull len =>
      obtain ⟨rfl, rfl⟩ := Prod.ext_iff.mp (Option.some.inj called)
      rcases slicePull_cases slice len.toInt with ⟨same, _⟩ | ⟨_, _, _, pointer, _⟩
      · exact same
      · rw [pointer] at failed
        exact failed.elim
  | push len =>
      obtain ⟨ended, rfl⟩ := Prod.ext_iff.mp (Option.some.inj called)
      exact push len.toInt ended
  | unpull =>
      obtain ⟨ended, rfl⟩ := Prod.ext_iff.mp (Option.some.inj called)
      exact push slice.resv ended
  | put len =>
      obtain ⟨rfl, rfl⟩ := Prod.ext_iff.mp (Option.some.inj called)
      unfold slicePut at failed ⊢
      split_ifs at failed ⊢
      · rfl
      · rfl
      · exact failed.elim
  | trim len =>
      obtain ⟨rfl, rfl⟩ := Prod.ext_iff.mp (Option.some.inj called)
      unfold sliceTrim at failed ⊢
      split_ifs at failed ⊢
      · rfl
      · rfl
      · exact failed.elim
  | zero =>
      have zeroed : sliceZero slice = some (outcome, next) := called
      unfold sliceZero at zeroed
      split at zeroed
      · obtain ⟨head, _, made⟩ := Option.map_eq_some_iff.mp zeroed
        obtain rfl := (Prod.ext_iff.mp made).1
        exact failed.elim
      · cases zeroed
  | grow grow memory =>
      obtain ⟨rfl, rfl⟩ := Prod.ext_iff.mp (Option.some.inj called)
      unfold sliceGrow at failed ⊢
      dsimp only at failed ⊢
      split_ifs at failed ⊢
      · rfl
      · cases memory with
        | none => rfl
        | some memory => exact absurd rfl failed

/-- `slice_pull` undoes `slice_push`. -/
theorem Sound.pull_push (sound : Sound slice) {len offset : Int} {next : Slice}
    (pushed : slicePush slice len = (.pointer offset, next)) :
    (slicePull next len).2 = slice := by
  obtain ⟨ended, rfl⟩ := Prod.ext_iff.mp pushed
  have kept := sound.push len
  rcases slicePush_cases slice len with ⟨_, failed⟩ | ⟨positive, inside, _, after⟩
  · rw [show (slicePush slice len).1 = .pointer offset from ended] at failed
    exact failed.elim
  · obtain ⟨⟨resv, length, fits, capacity⟩, counted⟩ := sound
    have longer : wrapInt (slice.len + len) = slice.len + len := wrapInt_eq (by omega) (by omega)
    have larger : wrapInt (slice.size + len) = slice.size + len := wrapInt_eq (by omega) (by omega)
    have moved : wrapInt (slice.resv - len) = slice.resv - len := wrapInt_eq (by omega) (by omega)
    rw [longer, larger, moved] at after
    simp only [after]
    have back : ¬ len < 0 ∧ ¬ slice.size + len < len ∧
        ¬ (slice.len + len ≠ 0 ∧ slice.len + len < len) := by omega
    have size : wrapInt (slice.size + len - len) = slice.size := by
      rw [Int.add_sub_cancel, wrapInt_eq (by omega) (by omega)]
    have reserved : wrapInt (slice.resv - len + len) = slice.resv := by
      rw [Int.sub_add_cancel, wrapInt_eq (by omega) (by omega)]
    have data : wrapInt (slice.len + len - len) = slice.len := by
      rw [Int.add_sub_cancel, wrapInt_eq (by omega) (by omega)]
    simp only [slicePull, back, ↓reduceIte]
    by_cases empty : slice.len + len = 0
    · have none : slice.len = 0 := by omega
      simp only [empty, ↓reduceIte, size, reserved]
      rw [← none]
    · simp only [empty, ↓reduceIte, size, reserved, data]

/-- `slice_push` undoes a `slice_pull` from a slice that has data. -/
theorem Sound.push_pull (sound : Sound slice) (data : 0 < slice.len) {len offset : Int}
    {next : Slice} (pulled : slicePull slice len = (.pointer offset, next)) :
    (slicePush next len).2 = slice := by
  obtain ⟨ended, rfl⟩ := Prod.ext_iff.mp pulled
  rcases slicePull_cases slice len with ⟨_, failed⟩ | ⟨positive, inside, enough, _, after⟩
  · rw [show (slicePull slice len).1 = .pointer offset from ended] at failed
    exact failed.elim
  · obtain ⟨⟨resv, length, fits, capacity⟩, counted⟩ := sound
    have some : slice.len ≠ 0 := by omega
    have shorter : wrapInt (slice.len - len) = slice.len - len := wrapInt_eq (by omega) (by omega)
    have smaller : wrapInt (slice.size - len) = slice.size - len := wrapInt_eq (by omega) (by omega)
    have moved : wrapInt (slice.resv + len) = slice.resv + len := wrapInt_eq (by omega) (by omega)
    rw [if_neg some, shorter, smaller, moved] at after
    simp only [after]
    have back : ¬ len < 0 ∧ ¬ slice.resv + len < len := by omega
    have size : wrapInt (slice.size - len + len) = slice.size := by
      rw [Int.sub_add_cancel, wrapInt_eq (by omega) (by omega)]
    have reserved : wrapInt (slice.resv + len - len) = slice.resv := by
      rw [Int.add_sub_cancel, wrapInt_eq (by omega) (by omega)]
    have restored : wrapInt (slice.len - len + len) = slice.len := by
      rw [Int.sub_add_cancel, wrapInt_eq (by omega) (by omega)]
    simp only [slicePush, back, ↓reduceIte, size, reserved, restored]

/-- In every run of calls on a fresh slice, as long as no `slice_grow` asks for more memory
than an `int` can count and gets it: the calls stay inside the buffer, the rules of the geometry
hold, a call that fails changes nothing, and `slice_push` and `slice_pull` undo each other. -/
theorem slice_geometry (start : Slice) (fresh : Fresh start) (ops : List Op)
    (bounded : Met step (fun slice op => op.Bounded slice) start ops) :
    ∃ slice, attempt step start ops = some slice ∧ Geometry slice ∧
      (∀ op outcome next, call slice op = some (outcome, next) → outcome.Failed → next = slice) ∧
      (∀ len offset next, slicePush slice len = (.pointer offset, next) →
        (slicePull next len).2 = slice) ∧
      (0 < slice.len → ∀ len offset next, slicePull slice len = (.pointer offset, next) →
        (slicePush next len).2 = slice) := by
  obtain ⟨slice, ran, sound⟩ := attempt_total
    (fun _ _ kept allowed => Sound.step kept allowed) ops start fresh.sound bounded
  exact ⟨slice, ran, sound.toGeometry, fun _ _ _ called failed => call_failed called failed,
    fun _ _ _ pushed => sound.pull_push pushed,
    fun data _ _ _ pulled => sound.push_pull data pulled⟩

/-- A slice of four bytes, one of them reserved, is filled, pulled and doubled. -/
theorem slice_geometry_doubled :
    ∃ slice, attempt step (sliceInitResv ⟨false, 0, 0, 0, 0, []⟩ [0, 0, 0, 0] 4 1 false)
        [.put 3, .pull 2, .unpull, .grow 0 (some fun _ => 0)] = some slice ∧ Geometry slice := by
  have fresh : Fresh (sliceInitResv ⟨false, 0, 0, 0, 0, []⟩ [0, 0, 0, 0] 4 1 false) :=
    .initResv _ _ 4 1 false (by decide) (by decide) (by decide)
  obtain ⟨slice, ran, geometry, _⟩ := slice_geometry _ fresh
    [.put 3, .pull 2, .unpull, .grow 0 (some fun _ => 0)]
    ⟨trivial, trivial, trivial, .inr (.inr (by decide)), trivial⟩
  exact ⟨slice, ran, geometry⟩

/-- A slice of a hundred bytes that is grown by `INT_MAX`, where that memory is found, has a
negative size. -/
theorem slice_grow_overflow :
    ∃ start slice, Fresh start ∧
      attempt step start [.grow 2147483647 (some fun _ => 0)] = some slice ∧
      ¬ Geometry slice := by
  refine ⟨sliceInit ⟨false, 0, 0, 0, 0, []⟩ (List.replicate 100 0) 100 false, _,
    .init _ _ 100 false (by decide) (by decide), rfl, ?_⟩
  intro geometry
  have size : wrapInt (100 + 2147483647) < 0 := by decide
  have fits : (0 : Int) ≤ wrapInt (100 + 2147483647) := geometry.fits
  omega

end Trunk.Slices
