import Trunk.Foundation.Fifo
import Trunk.Foundation.Run
import Trunk.Utils.Channel

/-! # A channel is a bounded queue

The unread elements of a channel lie in its ring of slots from the reader on
(`Trunk.Channel.Wrapped`). `os_ch_read` and `os_ch_write` keep this and answer as the
queue does, so every run of calls does (`Trunk.Channel.channel_is_fifo`). The
assignments to the other side's position, which both calls make in the corner cases,
leave it where it is.
-/

namespace Trunk.Channel

variable {ptrSize : Nat} {ch : ChannelT} {kind : ChannelType} {entries : List (List UInt8)}

/-- `__channel_align` is the remainder modulo the limit. -/
theorem channelAlign_eq (limit : Int) (limited : 0 < limit) (number : Int) :
    channelAlign limit limited number = number % limit := by
  induction number using channelAlign.induct limit limited with
  | case1 number negative ih =>
      rw [channelAlign, if_pos negative, ih, Int.add_emod_right]
  | case2 number nonnegative below =>
      rw [channelAlign, if_neg nonnegative, if_pos below,
        Int.emod_eq_of_lt (not_lt.mp nonnegative) below]
  | case3 number nonnegative above ih =>
      rw [channelAlign, if_neg nonnegative, if_neg above, ih, Int.sub_emod_right]

/-- The bytes of a slot. -/
def cell (ch : ChannelT) (place : Nat) : Option (List UInt8) :=
  Memory.load ch.buffer (ch.size * place) ch.size

/-- The positions of a channel with `unread` unread elements. -/
structure Positions (ch : ChannelT) (unread : Nat) : Prop where
  reader_nonneg : 0 ≤ ch.reader
  reader_lt : ch.reader < ch.limit
  count_eq : ch.count = unread
  count_le : ch.count ≤ ch.limit
  writer_eq : ch.writer = (ch.reader + ch.count) % ch.limit

/-- A channel of elements of type `kind` whose unread elements are `entries`. -/
structure Wrapped (ptrSize : Nat) (kind : ChannelType) (ch : ChannelT)
    (entries : List (List UInt8)) : Prop where
  type : channelType ch.type = some kind
  width : kind.width ptrSize ch.size = ch.size
  block : ch.buffer.length = ch.limit.toNat * ch.size
  positions : Positions ch entries.length
  holds : Fifo.Holds ch.limit.toNat (cell ch) ch.reader.toNat (entries.map some)
  present : kind = .pointer → ∀ entry ∈ entries, entry ≠ List.replicate ptrSize 0

theorem Positions.writer_nonneg {unread : Nat} (positions : Positions ch unread) :
    0 ≤ ch.writer ∧ ch.writer < ch.limit := by
  rw [positions.writer_eq]
  exact ⟨Int.emod_nonneg _ ch.limited.ne', Int.emod_lt_of_pos _ ch.limited⟩

/-- The writer is behind the last unread element. -/
theorem Positions.writer_toNat {unread : Nat} (positions : Positions ch unread) :
    ch.writer.toNat = (ch.reader.toNat + unread) % ch.limit.toNat := by
  have nonneg := positions.reader_nonneg
  rw [positions.writer_eq, positions.count_eq, Int.toNat_emod (by omega) ch.limited.le]
  congr 1
  omega

/-- After a write the reader is where it was, also where the source sets it anew. -/
theorem Positions.advanceWriter {unread : Nat} (positions : Positions ch unread)
    (room : ch.count ≠ ch.limit) :
    Positions (advanceWriter ch) (unread + 1) ∧ (advanceWriter ch).reader = ch.reader := by
  have nonneg := positions.reader_nonneg
  have below := positions.reader_lt
  have fits := positions.count_le
  have count := positions.count_eq
  have next : (ch.writer + 1) % ch.limit = (ch.reader + (ch.count + 1)) % ch.limit := by
    rw [positions.writer_eq, Int.emod_add_emod, Int.add_assoc]
  have reader : (Channel.advanceWriter ch).reader = ch.reader := by
    simp only [Channel.advanceWriter, channelAlign_eq]
    split
    · rename_i empty
      have none : ch.count = 0 := by
        simp only [channelEmpty, decide_eq_true_eq] at empty
        exact empty.symm
      rw [next, none, Int.emod_sub_emod, show ch.reader + (0 + 1) - 1 = ch.reader by omega,
        Int.emod_eq_of_lt nonneg below]
    · rfl
  refine ⟨⟨?_, ?_, ?_, ?_, ?_⟩, reader⟩
  · rw [reader]
    exact nonneg
  · rw [reader]
    exact below
  · simp only [Channel.advanceWriter]
    omega
  · simp only [Channel.advanceWriter]
    omega
  · rw [reader]
    simp only [Channel.advanceWriter, channelAlign_eq]
    exact next

/-- After a read the writer is where it was, also where the source sets it anew. -/
theorem Positions.advanceReader {unread : Nat} (positions : Positions ch (unread + 1)) :
    Positions (advanceReader ch) unread ∧
      (Channel.advanceReader ch).reader = (ch.reader + 1) % ch.limit := by
  have nonneg := positions.reader_nonneg
  have below := positions.reader_lt
  have fits := positions.count_le
  have count := positions.count_eq
  have reader : (Channel.advanceReader ch).reader = (ch.reader + 1) % ch.limit := by
    simp only [Channel.advanceReader, channelAlign_eq]
  have writer : (Channel.advanceReader ch).writer = ch.writer := by
    simp only [Channel.advanceReader, channelAlign_eq]
    split
    · rename_i full
      have all : ch.count = ch.limit := by
        simp only [channelFull, decide_eq_true_eq] at full
        exact full.symm
      rw [Int.emod_sub_emod, positions.writer_eq, all, Int.add_emod_right,
        show ch.reader + 1 - 1 = ch.reader by omega]
    · rfl
  refine ⟨⟨?_, ?_, ?_, ?_, ?_⟩, reader⟩
  · rw [reader]
    exact Int.emod_nonneg _ ch.limited.ne'
  · rw [reader]
    exact Int.emod_lt_of_pos _ ch.limited
  · simp only [Channel.advanceReader]
    omega
  · simp only [Channel.advanceReader]
    omega
  · rw [writer, reader, positions.writer_eq]
    simp only [Channel.advanceReader]
    rw [Int.emod_add_emod]
    congr 1
    omega

theorem advanceWriter_buffer : (advanceWriter ch).buffer = ch.buffer := rfl

/-- Different slots do not overlap. -/
theorem slots_apart {size first second : Nat} (different : first ≠ second) :
    size * first + size ≤ size * second ∨ size * second + size ≤ size * first := by
  rcases Nat.lt_or_gt_of_ne different with below | above
  · left
    exact Nat.mul_le_mul_left size below
  · right
    exact Nat.mul_le_mul_left size above

/-- A store to one slot leaves the others. -/
theorem cell_store {buffer content : List UInt8} {place other : Nat}
    (stored : Memory.store ch.buffer (ch.size * place) content = some buffer)
    (width : content.length = ch.size) (different : other ≠ place) :
    cell { ch with buffer := buffer } other = cell ch other := by
  apply Memory.load_store_disjoint stored
  rw [width]
  exact slots_apart different

/-- A slot is inside the block. -/
theorem Wrapped.slot_le (wrapped : Wrapped ptrSize kind ch entries) {place : Int}
    (nonneg : 0 ≤ place) (below : place < ch.limit) :
    ch.size * place.toNat + ch.size ≤ ch.buffer.length := by
  rw [wrapped.block, Nat.mul_comm ch.limit.toNat]
  exact Nat.mul_le_mul_left ch.size (show place.toNat + 1 ≤ ch.limit.toNat by omega)

theorem element_length (size : Nat) (kind : ChannelType) (msg : Pointer ptrSize) :
    (element ptrSize size kind msg).length = kind.width ptrSize size := by
  cases kind
  case pointer => exact msg.width
  all_goals
    simp only [element, ChannelType.width, List.length_map, List.length_range]

/-- The answer of a call, from the answer of the queue. -/
def reply : Fifo.Answer (List UInt8) → Ret × Option (List UInt8)
  | .accepted => (.code 0, none)
  | .got entry => (.code 0, some entry)
  | .refused => (.code (-EKEYBAD), none)

/-- The channel after a call that asks `request` of the queue. -/
structure Served (ptrSize : Nat) (kind : ChannelType) (ch : ChannelT)
    (entries : List (List UInt8)) (request : Fifo.Op (List UInt8)) (next : ChannelT) : Prop where
  limit : next.limit = ch.limit
  size : next.size = ch.size
  wrapped : Wrapped ptrSize kind next (Fifo.step ch.limit.toNat entries request).2
  refused : ¬ (reply (Fifo.step ch.limit.toNat entries request).1).1.Ok → next = ch

/-- `os_ch_write` appends an element while there is room, and refuses otherwise. -/
theorem osChWrite_served (wrapped : Wrapped ptrSize kind ch entries) (msg : Pointer ptrSize) :
    ∃ next, osChWrite ptrSize (some ch) (some msg) =
        some (reply (Fifo.step ch.limit.toNat entries
          (.write (element ptrSize ch.size kind msg))).1, some next) ∧
      Served ptrSize kind ch entries (.write (element ptrSize ch.size kind msg)) next := by
  have positions := wrapped.positions
  have count := positions.count_eq
  have fits := positions.count_le
  by_cases full : ch.limit = ch.count
  · have refused : ¬ entries.length < ch.limit.toNat := by omega
    have isFull : channelFull ch = true := decide_eq_true full
    refine ⟨ch, ?_, rfl, rfl, ?_, fun _ => rfl⟩
    · simp only [osChWrite, isFull, ↓reduceIte, Fifo.step, refused, reply]
    · simp only [Fifo.step, refused, ↓reduceIte]
      exact wrapped
  · have room : entries.length < ch.limit.toNat := by omega
    obtain ⟨nonneg, below⟩ := positions.writer_nonneg
    have isFull : channelFull ch = false := decide_eq_false full
    have width := (element_length ch.size kind msg).trans wrapped.width
    obtain ⟨buffer, stored⟩ := Memory.store_isSome
      (show ch.size * ch.writer.toNat + (element ptrSize ch.size kind msg).length ≤
        ch.buffer.length by rw [width]; exact wrapped.slot_le nonneg below)
    obtain ⟨moved, reader⟩ := (show Positions { ch with buffer := buffer } entries.length from
      ⟨positions.reader_nonneg, positions.reader_lt, count, fits,
        positions.writer_eq⟩).advanceWriter (Ne.symm full)
    have accepted : (reply (Fifo.step ch.limit.toNat entries
        (.write (element ptrSize ch.size kind msg))).1).1.Ok := by
      simp only [Fifo.step, room, ↓reduceIte, reply, Ret.Ok]
    refine ⟨advanceWriter { ch with buffer := buffer }, ?_, rfl, rfl, ?_,
      fun failed => absurd accepted failed⟩
    · simp only [osChWrite, isFull, Bool.false_eq_true, ↓reduceIte, wrapped.type, wrapped.width,
        stored, Fifo.step, room, reply, Option.bind_eq_bind, Option.bind_some, Option.pure_def]
    · simp only [Fifo.step, room, ↓reduceIte]
      refine ⟨wrapped.type, wrapped.width, ?_, ?_, ?_, ?_⟩
      · rw [advanceWriter_buffer, Memory.store_length stored]
        exact wrapped.block
      · rw [List.length_append, List.length_singleton]
        exact moved
      · rw [reader, List.map_append, List.map_singleton]
        apply wrapped.holds.push (by rwa [List.length_map])
        · rw [List.length_map, ← positions.writer_toNat]
          have written := Memory.load_store_self stored
          rw [width] at written
          exact written
        · intro place _ different
          rw [List.length_map, ← positions.writer_toNat] at different
          exact cell_store stored width different
      · intro pointer entry member
        rcases List.mem_append.mp member with old | new
        · exact wrapped.present pointer entry old
        · rw [List.mem_singleton.mp new, pointer]
          exact msg.notNull

/-- The reader's slot holds the oldest element. -/
theorem Wrapped.oldest {entry : List UInt8} (wrapped : Wrapped ptrSize kind ch (entry :: entries)) :
    Memory.load ch.buffer (ch.size * ch.reader.toNat) ch.size = some entry := by
  have found := wrapped.holds.oldest
  have nonneg := wrapped.positions.reader_nonneg
  have below := wrapped.positions.reader_lt
  rw [Nat.mod_eq_of_lt (by omega)] at found
  exact found

/-- Reading the oldest element out, whatever is left in its slot. -/
theorem Wrapped.read {entry buffer : List UInt8}
    (wrapped : Wrapped ptrSize kind ch (entry :: entries))
    (same : buffer.length = ch.buffer.length)
    (others : ∀ place, place ≠ ch.reader.toNat →
      cell { ch with buffer := buffer } place = cell ch place) :
    Wrapped ptrSize kind (advanceReader { ch with buffer := buffer }) entries := by
  have positions := wrapped.positions
  have nonneg := positions.reader_nonneg
  have below := positions.reader_lt
  obtain ⟨moved, reader⟩ := (show Positions { ch with buffer := buffer } (entries.length + 1) from
    ⟨nonneg, below, positions.count_eq, positions.count_le, positions.writer_eq⟩).advanceReader
  refine ⟨wrapped.type, wrapped.width, same.trans wrapped.block, moved, ?_, ?_⟩
  · have count := positions.count_eq
    have fits := positions.count_le
    rw [List.length_cons] at count
    rw [reader, Int.toNat_emod (by simp only; omega) ch.limited.le, Int.toNat_add nonneg (by decide)]
    apply wrapped.holds.pop
    · rw [List.length_map]
      omega
    · intro place _ different
      rw [Nat.mod_eq_of_lt (by omega)] at different
      exact others place different
  · intro pointer other member
    exact wrapped.present pointer other (List.mem_cons_of_mem _ member)

/-- `os_ch_read` gives out the oldest element, and refuses when there is none. -/
theorem osChRead_served (wrapped : Wrapped ptrSize kind ch entries) :
    ∃ next, osChRead ptrSize (some ch) true =
        some (reply (Fifo.step ch.limit.toNat entries .read).1, some next) ∧
      Served ptrSize kind ch entries .read next := by
  have count := wrapped.positions.count_eq
  cases entries with
  | nil =>
      have isEmpty : channelEmpty ch = true := decide_eq_true count.symm
      refine ⟨ch, ?_, rfl, rfl, wrapped, fun _ => rfl⟩
      simp only [osChRead, Bool.true_eq_false, isEmpty, ↓reduceIte, Fifo.step, reply]
  | cons entry entries =>
      have isEmpty : channelEmpty ch = false := by
        apply decide_eq_false
        rw [count, List.length_cons]
        omega
      have oldest := wrapped.oldest
      have accepted : (reply (Fifo.step ch.limit.toNat (entry :: entries) .read).1).1.Ok := rfl
      by_cases pointer : kind = .pointer
      · subst kind
        have width : ch.size = ptrSize := wrapped.width.symm
        have zeros : (List.replicate ptrSize (0 : UInt8)).length = ch.size := by
          rw [List.length_replicate, width]
        obtain ⟨buffer, stored⟩ := Memory.store_isSome
          (show ch.size * ch.reader.toNat + (List.replicate ptrSize (0 : UInt8)).length ≤
            ch.buffer.length by
            rw [zeros]
            exact wrapped.slot_le wrapped.positions.reader_nonneg wrapped.positions.reader_lt)
        refine ⟨advanceReader { ch with buffer := buffer }, ?_, rfl, rfl, ?_,
          fun failed => absurd accepted failed⟩
        · have notNull := wrapped.present rfl entry (List.mem_cons_self ..)
          rw [width] at oldest stored
          simp only [osChRead, Bool.true_eq_false, isEmpty, Bool.false_eq_true, ↓reduceIte,
            wrapped.type, oldest, stored, notNull, Fifo.step, reply, Option.bind_eq_bind,
            Option.bind_some, Option.pure_def]
        · exact wrapped.read (Memory.store_length stored)
            fun place different => cell_store stored zeros different
      · refine ⟨advanceReader ch, ?_, rfl, rfl, ?_, fun failed => absurd accepted failed⟩
        · cases kind
          case pointer => exact absurd rfl pointer
          all_goals
            simp only [osChRead, Bool.true_eq_false, isEmpty, Bool.false_eq_true, ↓reduceIte,
              wrapped.type, wrapped.width, oldest, Fifo.step, reply, Option.bind_eq_bind,
              Option.bind_some, Option.pure_def]
        · exact wrapped.read rfl fun _ _ => rfl

/-- A call on a channel with arguments that are not `NULL`. -/
inductive Op (ptrSize : Nat) where
  | write (msg : Pointer ptrSize)
  | read

/-- One call. -/
def step (ptrSize : Nat) (ch : ChannelT) (op : Op ptrSize) :
    Option ((Ret × Option (List UInt8)) × ChannelT) := do
  let (answer, next) ← match op with
    | .write msg => osChWrite ptrSize (some ch) (some msg)
    | .read => osChRead ptrSize (some ch) true
  return (answer, ← next)

/-- What a call asks of the queue. -/
def request (size : Nat) (kind : ChannelType) : Op ptrSize → Fifo.Op (List UInt8)
  | .write msg => .write (element ptrSize size kind msg)
  | .read => .read

/-- Every call answers as the queue does. -/
theorem step_served (wrapped : Wrapped ptrSize kind ch entries) (op : Op ptrSize) :
    ∃ next, step ptrSize ch op = some (reply (Fifo.step ch.limit.toNat entries
          (request ch.size kind op)).1, next) ∧
      Served ptrSize kind ch entries (request ch.size kind op) next := by
  cases op with
  | write msg =>
      obtain ⟨next, called, served⟩ := osChWrite_served wrapped msg
      refine ⟨next, ?_, served⟩
      simp only [step, called, request, Option.bind_eq_bind, Option.bind_some, Option.pure_def]
  | read =>
      obtain ⟨next, called, served⟩ := osChRead_served wrapped
      refine ⟨next, ?_, served⟩
      simp only [step, called, request, Option.bind_eq_bind, Option.bind_some, Option.pure_def]

/-- A call that fails leaves the channel as it is. -/
theorem step_failed (wrapped : Wrapped ptrSize kind ch entries) {op : Op ptrSize}
    {answer : Ret × Option (List UInt8)} {next : ChannelT}
    (called : step ptrSize ch op = some (answer, next)) (failed : ¬ answer.1.Ok) : next = ch := by
  obtain ⟨after, answered, served⟩ := step_served wrapped op
  obtain ⟨rfl, rfl⟩ := Prod.mk.inj (Option.some.inj (called.symm.trans answered))
  exact served.refused failed

/-- `os_ch_new` makes an empty channel. -/
theorem osChNew_wrapped {header : Nat} {alloc : Nat → Bool} {size limit type : Int}
    (created : osChNew ptrSize header alloc size limit type = some ch) :
    ch.limit = limit ∧ (ch.size : Int) = size ∧
      ∃ kind, channelType type = some kind ∧ Wrapped ptrSize kind ch [] := by
  unfold osChNew at created
  split at created
  · cases created
  split at created
  · cases created
  split at created
  · cases created
  rename_i positive limited _ kind type
  split at created
  · cases created
  rename_i width
  split at created
  · cases created
  split at created
  · obtain rfl := Option.some.inj created
    have sized : (size.toNat : Int) = size := Int.toNat_of_nonneg (not_le.mp positive).le
    have sameWidth : kind.width ptrSize size.toNat = size.toNat := by omega
    refine ⟨rfl, sized, kind, type, type, sameWidth, ?_,
      ⟨le_rfl, not_le.mp limited, rfl, (not_le.mp limited).le, ?_⟩, Fifo.holds_nil, ?_⟩
    · rw [List.length_replicate, Int.toNat_mul (not_le.mp limited).le (not_le.mp positive).le]
    · simp only [add_zero, Int.zero_emod]
    · intro _ entry member
      cases member
  · cases created

end Trunk.Channel
