import Mathlib.Algebra.Group.Int.Defs
import Trunk.Foundation.Memory
import Trunk.Utils.Errno

/-! # Channels

The model of `channel.h`: a ring of `limit` slots in one block of bytes, with the
position of the reader, that of the writer and the number of unread elements. The
slots are accessed at the width of the channel's type, and an access outside the
block has no result. The width of a pointer is a parameter.
-/

namespace Trunk.Channel

/-- `enum channel_type`. -/
inductive ChannelType where
  | buffer
  | u8
  | u16
  | u32
  | u64
  | pointer
  deriving DecidableEq, Repr

/-- The enumerator an `int` is the value of. -/
def channelType : Int → Option ChannelType
  | 0 => some .buffer
  | 1 => some .u8
  | 2 => some .u16
  | 3 => some .u32
  | 4 => some .u64
  | 5 => some .pointer
  | _ => none

/-- The bytes of one element of a channel whose `size` field is `size`. -/
def ChannelType.width (ptrSize size : Nat) : ChannelType → Nat
  | .buffer => size
  | .u8 => 1
  | .u16 => 2
  | .u32 => 4
  | .u64 => 8
  | .pointer => ptrSize

/-- `channel_t`, with the bytes that `msg.buffer` points to. A channel's limit is
positive: `__channel_align` would not end otherwise. -/
structure ChannelT where
  size : Nat
  count : Int
  limit : Int
  type : Int
  reader : Int
  writer : Int
  buffer : List UInt8
  limited : 0 < limit

/-- A pointer that is not `NULL`, with its own bytes and the bytes it points to. -/
structure Pointer (ptrSize : Nat) where
  address : List UInt8
  width : address.length = ptrSize
  notNull : address ≠ List.replicate ptrSize 0
  content : Nat → UInt8

/-- `__channel_empty`. -/
def channelEmpty (ch : ChannelT) : Bool := 0 = ch.count

/-- `__channel_full`. -/
def channelFull (ch : ChannelT) : Bool := ch.limit = ch.count

/-- `__channel_align`. -/
def channelAlign (limit : Int) (limited : 0 < limit) (number : Int) : Int :=
  if number < 0 then channelAlign limit limited (number + limit)
  else if number < limit then number
  else channelAlign limit limited (number - limit)
termination_by if number < 0 then (-number).toNat + limit.toNat else number.toNat
decreasing_by
  all_goals
    split <;> omega

/-- `os_ch_new`. Whether the allocation of a number of bytes succeeds is up to
`alloc`, and `sizeof(*ch)` is `header`. The number of bytes is computed in an `int`;
where that overflows the call has no defined outcome, and gives no channel here, as
it gives none where an `os_assert` fails. -/
def osChNew (ptrSize header : Nat) (alloc : Nat → Bool) (size limit type : Int) :
    Option ChannelT :=
  if size ≤ 0 then none
  else if limited : limit ≤ 0 then none
  else match channelType type with
    | none => none
    | some kind =>
        if (kind.width ptrSize size.toNat : Int) ≠ size then none
        else if 2 ^ 31 ≤ limit * size then none
        else if alloc (header + (limit * size).toNat) then
          some {
            size := size.toNat
            count := 0
            limit := limit
            type := type
            reader := 0
            writer := 0
            buffer := List.replicate (limit * size).toNat 0
            limited := Int.not_le.mp limited }
        else none

/-- Move the reader past an element that was read. -/
def advanceReader (ch : ChannelT) : ChannelT :=
  let reader := channelAlign ch.limit ch.limited (ch.reader + 1)
  let writer :=
    if channelFull ch then channelAlign ch.limit ch.limited (reader - 1) else ch.writer
  { ch with reader := reader, writer := writer, count := ch.count - 1 }

/-- Move the writer past an element that was written. -/
def advanceWriter (ch : ChannelT) : ChannelT :=
  let writer := channelAlign ch.limit ch.limited (ch.writer + 1)
  let reader :=
    if channelEmpty ch then channelAlign ch.limit ch.limited (writer - 1) else ch.reader
  { ch with reader := reader, writer := writer, count := ch.count + 1 }

/-- `os_ch_read`. The answer is the return code and what was stored through `msg`,
if anything was; `present` says that `msg` is not `NULL`. There is no result when a
slot outside the buffer is accessed. -/
def osChRead (ptrSize : Nat) (ch : Option ChannelT) (present : Bool) :
    Option ((Ret × Option (List UInt8)) × Option ChannelT) :=
  match ch with
  | none => some ((.assert (-ENOEXIST), none), none)
  | some ch =>
      if present = false then some ((.assert (-EINVAL1), none), some ch)
      else if channelEmpty ch then some ((.code (-EKEYBAD), none), some ch)
      else match channelType ch.type with
        | none => some ((.code (-EINVAL9), none), some ch)
        | some .pointer => do
            let msg ← Memory.load ch.buffer (ptrSize * ch.reader.toNat) ptrSize
            let cleared ← Memory.store ch.buffer (ptrSize * ch.reader.toNat)
              (List.replicate ptrSize 0)
            let ch := { ch with buffer := cleared }
            if msg = List.replicate ptrSize 0 then return ((.assert 0, some msg), some ch)
            return ((.code 0, some msg), some (advanceReader ch))
        | some kind => do
            let width := kind.width ptrSize ch.size
            let msg ← Memory.load ch.buffer (width * ch.reader.toNat) width
            return ((.code 0, some msg), some (advanceReader ch))

/-- The element `os_ch_write` puts in a slot: the pointer itself in a channel of
pointers, the bytes it points to in every other. -/
def element (ptrSize size : Nat) (kind : ChannelType) (msg : Pointer ptrSize) : List UInt8 :=
  match kind with
  | .pointer => msg.address
  | kind => (List.range (kind.width ptrSize size)).map msg.content

/-- `os_ch_write`. -/
def osChWrite (ptrSize : Nat) (ch : Option ChannelT) (msg : Option (Pointer ptrSize)) :
    Option ((Ret × Option (List UInt8)) × Option ChannelT) :=
  match ch with
  | none => some ((.assert (-EKEYBAD), none), none)
  | some ch =>
      match msg with
      | none => some ((.assert (-EINVAL1), none), some ch)
      | some msg =>
          if channelFull ch then some ((.code (-EKEYBAD), none), some ch)
          else match channelType ch.type with
            | none => some ((.code (-EINVAL), none), some ch)
            | some kind => do
                let buffer ← Memory.store ch.buffer
                  (kind.width ptrSize ch.size * ch.writer.toNat) (element ptrSize ch.size kind msg)
                return ((.code 0, none), some (advanceWriter { ch with buffer := buffer }))

end Trunk.Channel
