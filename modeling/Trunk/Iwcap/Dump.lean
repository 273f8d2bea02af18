import Trunk.Foundation.Run
import Trunk.Iwcap.Ring

/-! # Dumps of the capture ring

A dump of the capture ring is to hold the latest frames, oldest first
(`Trunk.Iwcap.latest`). The ring stores a frame in one slot (`Trunk.Iwcap.storeFrame_eq`), and
follows the list of all frames as long as it has a slot and its offsets do not wrap
(`Trunk.Iwcap.capture_simulates`).

The ring recognises an empty slot by its length, and `ringbuf_init` does not clear the whole memory.
So a dump also needs that the lengths of the slots that hold no frame yet are zero
(`Trunk.Iwcap.dumps_latest`).
-/

namespace Trunk.Iwcap

open Memory Network Run

/-- A frame that was stored. -/
structure Frame where
  sec : Nat
  usec : Nat
  data : List UInt8
  deriving DecidableEq, Repr

/-- How much of a frame is kept. -/
def Frame.kept (pktcap : Nat) (frame : Frame) : Nat := min pktcap frame.data.length

/-- A frame in the file: its time, the length that is kept, its own length, and its first bytes. -/
def Frame.record (order : ByteOrder) (pktcap : Nat) (frame : Frame) : List UInt8 :=
  order.memory 4 frame.sec ++ order.memory 4 frame.usec ++ order.memory 4 (frame.kept pktcap) ++
    order.memory 4 frame.data.length ++ frame.data.take pktcap

/-- What a capture is to do: to keep all frames, and to dump the latest ones, as many as there are
slots. -/
def latest (setup : Setup) (sizes : Sizes) (frames : List Frame) :
    Event → Option (List UInt8) × List Frame
  | .dump =>
      (some (writePcapHeader setup.order ++ (frames.drop (frames.length - sizes.slots)).flatMap
        (Frame.record setup.order sizes.pktcap)), frames)
  | .received sec usec packet =>
      (none, frames ++ ((receive setup packet).map fun data => ⟨sec, usec, data⟩).toList)

/-- From the memory that was allocated, the loop answers every event as it should. -/
def DumpsLatest (setup : Setup) (sizes : Sizes) (memory : List UInt8) (events : List Event) : Prop :=
  ∃ ring last, ringbufInit sizes memory = some ring ∧
    exec (capture setup sizes.pktcap) ring events =
      some ((answers (latest setup sizes) [] events).1, last)

/-- At a dump, the lengths of the slots that hold no frame are zero where `ringbuf_init` does not
clear them. -/
def Blank (sizes : Sizes) (memory : List UInt8) (frames : List Frame) : Event → Prop
  | .dump =>
      ∀ slot < sizes.slots, frames.length ≤ slot → ∀ byte < 4,
        sizes.slots * sizes.pktcap ≤ slot * sizes.slotSize + byte →
          memory[slot * sizes.slotSize + byte]? = some 0
  | .received _ _ _ => True

/-! ## The options -/

theorem readOption_bounds {sizes next : Sizes} {option : Opt} (cap : 40 < sizes.pktcap)
    (ringsz : sizes.ringsz < 2 ^ 32) (read : readOption sizes option = some next) :
    40 < next.pktcap ∧ next.ringsz < 2 ^ 32 := by
  cases option with
  | r value =>
      simp only [readOption] at read
      split at read
      · cases read
      · obtain rfl := Option.some.inj read
        exact ⟨cap, by dsimp only; omega⟩
  | c value =>
      simp only [readOption] at read
      split at read
      · cases read
      · rename_i long
        rw [radiotapHdr, lenIeee80211Hdr] at long
        obtain rfl := Option.some.inj read
        exact ⟨by dsimp only; omega, ringsz⟩

/-- Whatever the options, more than the two headers is kept of a frame. -/
theorem readOptions_bounds {options : List Opt} {sizes : Sizes}
    (accepted : readOptions options = some sizes) :
    40 < sizes.pktcap ∧ sizes.ringsz < 2 ^ 32 := by
  have start : 40 < defaultSizes.pktcap ∧ defaultSizes.ringsz < 2 ^ 32 := by decide
  refine @Run.foldlM_invariant _ _ readOption
    (fun sizes => 40 < sizes.pktcap ∧ sizes.ringsz < 2 ^ 32) _ _ _ ?_ start accepted
  intro option _ sizes next bounds read
  exact readOption_bounds bounds.1 bounds.2 read

/-! ## One slot -/

/-- A frame in its slot. -/
def Frame.entry (order : ByteOrder) (pktcap : Nat) (frame : Frame) : List UInt8 :=
  order.memory 4 (frame.kept pktcap) ++ order.memory 4 frame.data.length ++
    order.memory 4 frame.sec ++ order.memory 4 frame.usec ++ frame.data.take pktcap ++
    List.replicate (pktcap - frame.kept pktcap) 0

theorem Frame.length_take (pktcap : Nat) (frame : Frame) :
    (frame.data.take pktcap).length = frame.kept pktcap := List.length_take

theorem Frame.length_entry (order : ByteOrder) (pktcap : Nat) (frame : Frame) :
    (frame.entry order pktcap).length = pktcap + entrySize := by
  have kept : frame.kept pktcap ≤ pktcap := Nat.min_le_left _ _
  simp only [Frame.entry, List.length_append, ByteOrder.length_memory, Frame.length_take,
    List.length_replicate, entrySize]
  omega

/-- The writes of `ringbuf_add` and of the loop, in the slot alone. -/
theorem entry_written (order : ByteOrder) (pktcap : Nat) (frame : Frame) {slot : List UInt8}
    (length : slot.length = pktcap + entrySize) :
    ∃ cleared stamped timed sized counted,
      store slot 0 (List.replicate (pktcap + entrySize) 0) = some cleared ∧
      store cleared 8 (order.memory 4 frame.sec) = some stamped ∧
      store stamped 12 (order.memory 4 frame.usec) = some timed ∧
      store timed 4 (order.memory 4 frame.data.length) = some sized ∧
      store sized 0 (order.memory 4 (frame.kept pktcap)) = some counted ∧
      store counted entrySize (frame.data.take pktcap) = some (frame.entry order pktcap) := by
  have kept : frame.kept pktcap ≤ pktcap := Nat.min_le_left _ _
  obtain ⟨word, isWord⟩ : ∃ word : List UInt8, word = List.replicate 4 0 := ⟨_, rfl⟩
  obtain ⟨hole, isHole⟩ : ∃ hole : List UInt8, hole = List.replicate (frame.kept pktcap) 0 :=
    ⟨_, rfl⟩
  obtain ⟨rest, isRest⟩ : ∃ rest : List UInt8,
      rest = List.replicate (pktcap - frame.kept pktcap) 0 := ⟨_, rfl⟩
  have wordLength : word.length = 4 := by rw [isWord, List.length_replicate]
  have words (value : Nat) : (order.memory 4 value).length = word.length := by
    rw [ByteOrder.length_memory, wordLength]
  have data : (frame.data.take pktcap).length = hole.length := by
    rw [Frame.length_take, isHole, List.length_replicate]
  have split : List.replicate (pktcap + entrySize) (0 : UInt8) =
      word ++ (word ++ (word ++ (word ++ (hole ++ rest)))) := by
    simp only [isWord, isHole, isRest, List.replicate_append_replicate]
    congr 1
    rw [entrySize]
    omega
  have clear : store slot 0 (List.replicate (pktcap + entrySize) 0) =
      some (List.replicate (pktcap + entrySize) 0) :=
    store_whole (by rw [List.length_replicate, length])
  have sec := store_append (word ++ word) word (word ++ (hole ++ rest)) (words frame.sec)
  have usec := store_append (word ++ (word ++ order.memory 4 frame.sec)) word (hole ++ rest)
    (words frame.usec)
  have olen := store_append word word
    (order.memory 4 frame.sec ++ (order.memory 4 frame.usec ++ (hole ++ rest)))
    (words frame.data.length)
  have len := store_append [] word (order.memory 4 frame.data.length ++
    (order.memory 4 frame.sec ++ (order.memory 4 frame.usec ++ (hole ++ rest))))
    (words (frame.kept pktcap))
  have copy := store_append (order.memory 4 (frame.kept pktcap) ++
    (order.memory 4 frame.data.length ++ (order.memory 4 frame.sec ++ order.memory 4 frame.usec)))
    hole rest data
  simp only [List.append_assoc, List.length_append, ByteOrder.length_memory, wordLength,
    List.nil_append, List.length_nil] at sec usec olen len copy
  rw [split] at clear
  refine ⟨_, _, _, _, _, split ▸ clear, sec, usec, olen, len, ?_⟩
  rw [Frame.entry, ← isRest]
  simp only [List.append_assoc]
  exact copy

/-- A frame that is stored fills the slot at `fill`, and nothing else changes. -/
theorem storeFrame_eq (order : ByteOrder) {pktcap : Nat} {ring : Ringbuf} (frame : Frame)
    (slen : ring.slen = pktcap + entrySize) (some_ : ring.len ≠ 0)
    (inside : ring.fill * ring.slen + ring.slen ≤ ring.buf.length)
    (addressed : ring.fill * ring.slen < 2 ^ 32) :
    ∃ buf, store ring.buf (ring.fill * ring.slen) (frame.entry order pktcap) = some buf ∧
      storeFrame order pktcap ring frame.sec frame.usec frame.data =
        some { ring with fill := (ring.fill + 1) % 2 ^ 32 % ring.len, buf := buf } := by
  obtain ⟨front, isFront⟩ : ∃ front, front = ring.buf.take (ring.fill * ring.slen) := ⟨_, rfl⟩
  obtain ⟨slot, isSlot⟩ : ∃ slot, slot = (ring.buf.drop (ring.fill * ring.slen)).take ring.slen :=
    ⟨_, rfl⟩
  obtain ⟨back, isBack⟩ : ∃ back, back = ring.buf.drop (ring.fill * ring.slen + ring.slen) :=
    ⟨_, rfl⟩
  have whole : ring.buf = front ++ slot ++ back := by
    rw [isFront, isSlot, isBack, ← List.drop_drop, List.append_assoc, List.take_append_drop,
      List.take_append_drop]
  have place : front.length = ring.fill * ring.slen := by
    rw [isFront, List.length_take]
    omega
  have length : slot.length = pktcap + entrySize := by
    rw [isSlot, List.length_take, List.length_drop, ← slen]
    omega
  obtain ⟨cleared, stamped, timed, sized, counted, clear, sec, usec, olen, len, copy⟩ :=
    entry_written order pktcap frame length
  have entry : store slot 0 (frame.entry order pktcap) = some (frame.entry order pktcap) :=
    store_whole (by rw [Frame.length_entry, length])
  have lenEq : (if pktcap < frame.data.length then pktcap else frame.data.length) =
      frame.kept pktcap := by
    rw [Frame.kept, Nat.min_def]
    split <;> split <;> omega
  have taken : frame.data.take (frame.kept pktcap) = frame.data.take pktcap :=
    List.take_eq_take_min.symm
  refine ⟨front ++ frame.entry order pktcap ++ back, ?_, ?_⟩
  · rw [whole, ← place]
    exact store_middle front back entry
  · rw [← slen] at clear
    have clear' := store_middle front back clear
    have sec' := store_middle front back sec
    have usec' := store_middle front back usec
    have olen' := store_middle front back olen
    have len' := store_middle front back len
    have copy' := store_middle front back copy
    rw [place] at clear' sec' usec' olen' len' copy'
    rw [Nat.add_zero] at clear' len'
    simp only [storeFrame, ringbufAdd, if_neg some_, Nat.mod_eq_of_lt addressed, whole, clear',
      Option.bind_eq_bind, Option.bind_some, sec', usec', olen', lenEq, len', taken, copy',
      Option.pure_def]

/-- The fields of a frame in its slot, and its bytes. -/
theorem entry_fields (order : ByteOrder) (pktcap : Nat) (frame : Frame) :
    load (frame.entry order pktcap) 0 4 = some (order.memory 4 (frame.kept pktcap)) ∧
      load (frame.entry order pktcap) 4 4 = some (order.memory 4 frame.data.length) ∧
      load (frame.entry order pktcap) 8 4 = some (order.memory 4 frame.sec) ∧
      load (frame.entry order pktcap) 12 4 = some (order.memory 4 frame.usec) ∧
      load (frame.entry order pktcap) entrySize (frame.kept pktcap) =
        some (frame.data.take pktcap) := by
  let len := order.memory 4 (frame.kept pktcap)
  let olen := order.memory 4 frame.data.length
  let sec := order.memory 4 frame.sec
  let usec := order.memory 4 frame.usec
  let data := frame.data.take pktcap
  let rest : List UInt8 := List.replicate (pktcap - frame.kept pktcap) 0
  have first := load_append_middle [] len (olen ++ (sec ++ (usec ++ (data ++ rest))))
  have second := load_append_middle len olen (sec ++ (usec ++ (data ++ rest)))
  have third := load_append_middle (len ++ olen) sec (usec ++ (data ++ rest))
  have fourth := load_append_middle (len ++ (olen ++ sec)) usec (data ++ rest)
  have fifth := load_append_middle (len ++ (olen ++ (sec ++ usec))) data rest
  simp only [len, olen, sec, usec, data, rest, List.append_assoc, List.length_append,
    ByteOrder.length_memory, Frame.length_take, List.nil_append, List.length_nil]
    at first second third fourth fifth
  simp only [Frame.entry, List.append_assoc]
  exact ⟨first, second, third, fourth, fifth⟩

/-- The place of the slot that `ringbuf_get` looks at. -/
def Ringbuf.slotAt (ring : Ringbuf) (i : Nat) : Nat := (ring.fill + i) % ring.len * ring.slen

section Slot

variable {order : ByteOrder} {ring : Ringbuf} {i : Nat}

theorem ringbufGet_eq (some_ : ring.len ≠ 0) (small : ring.fill + i < 2 ^ 32)
    (addressed : ring.slotAt i < 2 ^ 32) :
    ringbufGet order ring i =
      (load ring.buf (ring.slotAt i) 4).map fun len =>
        if 0 < order.word len then some (ring.slotAt i) else none := by
  rw [ringbufGet, if_neg some_, Nat.mod_eq_of_lt small]
  rw [Ringbuf.slotAt] at addressed
  simp only [Nat.mod_eq_of_lt addressed, Ringbuf.slotAt]
  cases load ring.buf ((ring.fill + i) % ring.len * ring.slen) 4 with
  | none => rfl
  | some len =>
      simp only [Option.bind_eq_bind, Option.bind_some, Option.map_some]
      split <;> rfl

/-- A slot of length zero is passed over. -/
theorem dumpSlot_blank (some_ : ring.len ≠ 0) (small : ring.fill + i < 2 ^ 32)
    (addressed : ring.slotAt i < 2 ^ 32)
    (blank : load ring.buf (ring.slotAt i) 4 = some (List.replicate 4 0)) :
    dumpSlot order ring i = some [] := by
  have zero : ¬ 0 < order.word (List.replicate 4 0) := by
    cases order <;> decide
  rw [dumpSlot, ringbufGet_eq some_ small addressed, blank, Option.map_some, if_neg zero]
  rfl

/-- A slot with a frame is written with its time, its lengths and its bytes. -/
theorem dumpSlot_frame {pktcap : Nat} {frame : Frame} (some_ : ring.len ≠ 0)
    (small : ring.fill + i < 2 ^ 32) (addressed : ring.slotAt i < 2 ^ 32)
    (cap : 0 < pktcap) (nonempty : 0 < frame.data.length) (short : frame.data.length ≤ 0xFFFF)
    (entry : load ring.buf (ring.slotAt i) (pktcap + entrySize) =
      some (frame.entry order pktcap)) :
    dumpSlot order ring i = some (frame.record order pktcap) := by
  obtain ⟨len, olen, sec, usec, data⟩ := entry_fields order pktcap frame
  have len' := load_within entry len
  have olen' := load_within entry olen
  have sec' := load_within entry sec
  have usec' := load_within entry usec
  have data' := load_within entry data
  rw [Nat.add_zero] at len'
  have kept : 0 < frame.kept pktcap ∧ frame.kept pktcap < 2 ^ 16 := by
    rw [Frame.kept]
    omega
  have lenWord : order.word (order.memory 4 (frame.kept pktcap)) = frame.kept pktcap := by
    rw [ByteOrder.word_memory, Nat.mod_eq_of_lt (by omega)]
  have olenWord : order.word (order.memory 4 frame.data.length) = frame.data.length := by
    rw [ByteOrder.word_memory, Nat.mod_eq_of_lt (by omega)]
  have sent : frame.data.length % 2 ^ 16 = frame.data.length := Nat.mod_eq_of_lt (by omega)
  have found : ringbufGet order ring i = some (some (ring.slotAt i)) := by
    rw [ringbufGet_eq some_ small addressed, len', Option.map_some, lenWord, if_pos kept.1]
  rw [dumpSlot, found]
  simp only [Option.bind_eq_bind, Option.bind_some, len', olen', sec', usec', lenWord, olenWord,
    data', Option.pure_def, writePcapFrame, ByteOrder.word_memory, Nat.mod_eq_of_lt kept.2, sent]
  rw [ByteOrder.memory_mod, ByteOrder.memory_mod]
  rfl

end Slot

/-- The slots of a dump, one after the other. -/
theorem dumpSlots_eq {order : ByteOrder} {ring : Ringbuf} {piece : Nat → List UInt8}
    (left first : Nat)
    (pieces : ∀ i, first ≤ i → i < first + left → dumpSlot order ring i = some (piece i)) :
    dumpSlots order ring left first =
      some ((List.range left).flatMap fun i => piece (first + i)) := by
  induction left generalizing first with
  | zero => rfl
  | succ left ih =>
      rw [dumpSlots, pieces first (Nat.le_refl _) (by omega),
        ih (first + 1) fun i low high => pieces i (by omega) (by omega)]
      rw [List.range_succ_eq_map, List.flatMap_cons, List.flatMap_map]
      simp only [Option.bind_eq_bind, Option.bind_some, Option.pure_def, Nat.add_zero,
        Nat.succ_eq_add_one, Nat.add_assoc, Nat.add_comm 1]

/-! ## The ring and the frames -/

/-- The ring has a slot, its size is that of the memory, and no offset wraps. -/
structure Usable (setup : Setup) (sizes : Sizes) : Prop where
  positive : 0 < sizes.slots
  allocated : sizes.slots * sizes.slotSize < 2 ^ setup.sizeBits
  addressed : (sizes.slots - 1) * sizes.slotSize < 2 ^ 32

/-- The ring holds the latest frames, and the slots that were never filled are as at the start. -/
structure Holds (order : ByteOrder) (sizes : Sizes) (start : List UInt8) (ring : Ringbuf)
    (frames : List Frame) : Prop where
  len : ring.len = sizes.slots
  slen : ring.slen = sizes.slotSize
  fill : ring.fill = frames.length % sizes.slots
  size : ring.buf.length = sizes.slots * sizes.slotSize
  sized : ∀ frame ∈ frames, 0 < frame.data.length ∧ frame.data.length ≤ 0xFFFF
  recent : ∀ index frame, frames[index]? = some frame → frames.length ≤ index + sizes.slots →
    load ring.buf (index % sizes.slots * sizes.slotSize) sizes.slotSize =
      some (frame.entry order sizes.pktcap)
  unused : ∀ slot < sizes.slots, frames.length ≤ slot →
    load ring.buf (slot * sizes.slotSize) sizes.slotSize =
      load start (slot * sizes.slotSize) sizes.slotSize

theorem receive_length {setup : Setup} {packet : Option (List UInt8)} {data : List UInt8}
    (received : receive setup packet = some data) :
    0 < data.length ∧ data.length ≤ 0xFFFF := by
  obtain ⟨packet, -, rest⟩ := Option.bind_eq_some_iff.mp received
  dsimp only at rest
  split at rest
  · cases rest
  · rename_i long
    obtain ⟨frametype, -, rest⟩ := Option.bind_eq_some_iff.mp rest
    split at rest
    · cases rest
    · obtain rfl := Option.some.inj rest
      rw [radiotapHdr] at long
      have cut : (packet.take 0xFFFF).length ≤ 0xFFFF := List.length_take_le _ _
      exact ⟨by omega, cut⟩

section Ring

variable {setup : Setup} {sizes : Sizes} {start : List UInt8} {ring : Ringbuf}
  {frames : List Frame}

theorem slot_end {slot : Nat} (inside : slot < sizes.slots) :
    slot * sizes.slotSize + sizes.slotSize ≤ sizes.slots * sizes.slotSize := by
  rw [← Nat.succ_mul]
  exact Nat.mul_le_mul_right _ inside

theorem slot_addressed (usable : Usable setup sizes) {slot : Nat} (inside : slot < sizes.slots) :
    slot * sizes.slotSize < 2 ^ 32 :=
  Nat.lt_of_le_of_lt (Nat.mul_le_mul_right _ (by omega)) usable.addressed

/-- There are few enough slots that the numbers of two of them can be added. -/
theorem slots_lt (usable : Usable setup sizes) (cap : 40 < sizes.pktcap) :
    2 * sizes.slots < 2 ^ 32 := by
  have size : 57 ≤ sizes.slotSize := by
    rw [Sizes.slotSize, entrySize]
    omega
  have product := Nat.mul_le_mul_left (sizes.slots - 1) size
  have addressed := usable.addressed
  omega

/-- Two slots do not meet. -/
theorem slots_apart {first second : Nat} (different : first ≠ second) :
    first * sizes.slotSize + sizes.slotSize ≤ second * sizes.slotSize ∨
      second * sizes.slotSize + sizes.slotSize ≤ first * sizes.slotSize := by
  rcases Nat.lt_or_gt_of_ne different with before | after
  · left
    rw [← Nat.succ_mul]
    exact Nat.mul_le_mul_right _ before
  · right
    rw [← Nat.succ_mul]
    exact Nat.mul_le_mul_right _ after

/-- Frames that are in the ring together are in different slots. -/
theorem mod_ne {index count slots : Nat} (earlier : index < count)
    (near : count < index + slots) : index % slots ≠ count % slots := by
  intro same
  have zero := Nat.sub_mod_eq_zero_of_mod_eq same.symm
  rw [Nat.mod_eq_of_lt (by omega)] at zero
  omega

theorem store_holds (usable : Usable setup sizes) (cap : 40 < sizes.pktcap)
    (holds : Holds setup.order sizes start ring frames) (frame : Frame)
    (sized : 0 < frame.data.length ∧ frame.data.length ≤ 0xFFFF) :
    ∃ next, storeFrame setup.order sizes.pktcap ring frame.sec frame.usec frame.data = some next ∧
      Holds setup.order sizes start next (frames ++ [frame]) := by
  have within : ring.fill < sizes.slots := by
    rw [holds.fill]
    exact Nat.mod_lt _ usable.positive
  have few := slots_lt usable cap
  obtain ⟨buf, stored, done⟩ := storeFrame_eq setup.order frame holds.slen
    (by rw [holds.len]; exact Nat.ne_of_gt usable.positive)
    (by rw [holds.slen, holds.size]; exact slot_end within)
    (by rw [holds.slen]; exact slot_addressed usable within)
  rw [holds.slen] at stored
  refine ⟨_, done, holds.len, holds.slen, ?_, ?_, ?_, ?_, ?_⟩
  · dsimp only
    rw [Nat.mod_eq_of_lt (a := ring.fill + 1) (by omega), holds.len, holds.fill,
      List.length_append, List.length_singleton, Nat.mod_add_mod]
  · dsimp only
    rw [store_length stored, holds.size]
  · intro other member
    rcases List.mem_append.mp member with old | new
    · exact holds.sized other old
    · obtain rfl := List.mem_singleton.mp new
      exact sized
  · intro index other present near
    rw [List.length_append, List.length_singleton] at near
    dsimp only
    by_cases last : index = frames.length
    · subst last
      rw [List.getElem?_append_right (Nat.le_refl _), Nat.sub_self] at present
      obtain rfl : frame = other := Option.some.inj present
      have self := load_store_self stored
      rw [Frame.length_entry, holds.fill] at self
      exact self
    · have old : index < frames.length := by
        have bound := (List.getElem?_eq_some_iff.mp present).1
        rw [List.length_append, List.length_singleton] at bound
        omega
      rw [List.getElem?_append_left old] at present
      rw [load_store_disjoint stored]
      · exact holds.recent index other present (by omega)
      · rw [Frame.length_entry, holds.fill]
        exact slots_apart (mod_ne old (by omega))
  · intro slot inside empty
    rw [List.length_append, List.length_singleton] at empty
    dsimp only
    rw [load_store_disjoint stored]
    · exact holds.unused slot inside (by omega)
    · rw [Frame.length_entry, holds.fill, Nat.mod_eq_of_lt (by omega)]
      exact slots_apart (by omega)

/-- A list is what stands at its places, one after the other. -/
theorem flatMap_range_getElem? {α β : Type} (list : List α) (f : α → List β) :
    ((List.range list.length).flatMap fun i => (list[i]?).elim [] f) = list.flatMap f := by
  induction list with
  | nil => rfl
  | cons head tail ih =>
      rw [List.length_cons, List.range_succ_eq_map, List.flatMap_cons, List.flatMap_map,
        List.flatMap_cons, ← ih]
      rfl

/-- The slots in the order of a dump: first those without a frame, then the latest frames. -/
theorem flatMap_latest (slots : Nat) (f : Frame → List UInt8) :
    ((List.range slots).flatMap fun i =>
        if i < slots - frames.length then []
        else (frames[frames.length + i - slots]?).elim [] f) =
      (frames.drop (frames.length - slots)).flatMap f := by
  have split : List.range slots = List.range (slots - frames.length) ++
      (List.range (min frames.length slots)).map (slots - frames.length + ·) := by
    rw [← List.range_add]
    congr 1
    omega
  have length : (frames.drop (frames.length - slots)).length = min frames.length slots := by
    rw [List.length_drop]
    omega
  rw [split, List.flatMap_append, List.flatMap_map,
    ← flatMap_range_getElem? (frames.drop (frames.length - slots)), length]
  have none_ : ((List.range (slots - frames.length)).flatMap fun i =>
      if i < slots - frames.length then []
      else (frames[frames.length + i - slots]?).elim [] f) = [] := by
    rw [List.flatMap_eq_nil_iff]
    intro i member
    exact if_pos (List.mem_range.mp member)
  rw [none_, List.nil_append]
  congr 1
  funext i
  rw [if_neg (by omega), List.getElem?_drop]
  congr 2
  omega

/-- What is the same in a range is the same in its front. -/
theorem load_front {first second : List UInt8} {place length fewer : Nat}
    (same : load first place length = load second place length)
    (inside : place + length ≤ second.length) (less : fewer ≤ length) :
    load first place fewer = load second place fewer := by
  have whole : load second place length = some ((second.drop place).take length) :=
    load_eq_some_iff.mpr ⟨inside, rfl⟩
  have part : load ((second.drop place).take length) 0 fewer =
      some (((second.drop place).take length).take fewer) := by
    refine load_eq_some_iff.mpr ⟨?_, rfl⟩
    rw [List.length_take, List.length_drop]
    omega
  have one := load_within (same.trans whole) part
  have two := load_within whole part
  exact one.trans two.symm

theorem dump_holds (usable : Usable setup sizes) (cap : 40 < sizes.pktcap)
    (holds : Holds setup.order sizes start ring frames)
    (long : start.length = sizes.slots * sizes.slotSize)
    (blank : ∀ slot < sizes.slots, frames.length ≤ slot →
      load start (slot * sizes.slotSize) 4 = some (List.replicate 4 0)) :
    dumpRing setup.order ring = some (writePcapHeader setup.order ++
      (frames.drop (frames.length - sizes.slots)).flatMap
        (Frame.record setup.order sizes.pktcap)) := by
  have some_ : ring.len ≠ 0 := by
    rw [holds.len]
    exact Nat.ne_of_gt usable.positive
  have few := slots_lt usable cap
  have fill : ring.fill < sizes.slots := by
    rw [holds.fill]
    exact Nat.mod_lt _ usable.positive
  have place (i : Nat) : ring.slotAt i = (frames.length + i) % sizes.slots * sizes.slotSize := by
    rw [Ringbuf.slotAt, holds.len, holds.slen, holds.fill, Nat.mod_add_mod]
  have addressed (i : Nat) : ring.slotAt i < 2 ^ 32 := by
    rw [place]
    exact slot_addressed usable (Nat.mod_lt _ usable.positive)
  have pieces : ∀ i, 0 ≤ i → i < 0 + ring.len → dumpSlot setup.order ring i = some
      (if i < sizes.slots - frames.length then []
      else (frames[frames.length + i - sizes.slots]?).elim []
        (Frame.record setup.order sizes.pktcap)) := by
    intro i _ bound
    rw [Nat.zero_add, holds.len] at bound
    by_cases empty : i < sizes.slots - frames.length
    · rw [if_pos empty]
      apply dumpSlot_blank some_ (by omega) (addressed i)
      rw [place, Nat.mod_eq_of_lt (by omega), ← blank (frames.length + i) (by omega) (by omega)]
      apply load_front (holds.unused _ (by omega) (by omega))
      · rw [long]
        exact slot_end (by omega)
      · rw [Sizes.slotSize, entrySize]
        omega
    · rw [if_neg empty]
      have known : frames.length + i - sizes.slots < frames.length := by omega
      have sized := holds.sized _ (List.getElem_mem known)
      rw [List.getElem?_eq_getElem known, Option.elim_some]
      apply dumpSlot_frame some_ (by omega) (addressed i) (by omega) sized.1 sized.2
      have wrap : (frames.length + i) % sizes.slots =
          (frames.length + i - sizes.slots) % sizes.slots := by
        rw [← Nat.add_mod_right (frames.length + i - sizes.slots), Nat.sub_add_cancel (by omega)]
      rw [place, wrap]
      exact holds.recent _ _ (List.getElem?_eq_getElem known) (by omega)
  rw [dumpRing, dumpSlots_eq ring.len 0 pieces]
  simp only [Nat.zero_add, holds.len, flatMap_latest, Option.bind_eq_bind, Option.bind_some,
    Option.pure_def]

end Ring

/-- In the memory that was allocated the ring starts, with no frame. -/
theorem ringbufInit_holds {setup : Setup} {sizes : Sizes} {memory : List UInt8}
    (usable : Usable setup sizes) (ringsz : sizes.ringsz < 2 ^ 32)
    (allocated : memory.length = sizes.request setup) :
    ∃ ring, ringbufInit sizes memory = some ring ∧
      Holds setup.order sizes ring.buf ring [] ∧
      ∀ index, ring.buf[index]? =
        if index < sizes.slots * sizes.pktcap then some 0 else memory[index]? := by
  have size : memory.length = sizes.slots * sizes.slotSize := by
    rw [allocated, Sizes.request, Nat.mod_eq_of_lt usable.allocated]
  have whole : sizes.slots * sizes.pktcap ≤ sizes.ringsz := Nat.div_mul_le_self _ _
  have fits : sizes.slots * sizes.pktcap ≤ sizes.slots * sizes.slotSize :=
    Nat.mul_le_mul_left _ (Nat.le_add_right _ _)
  have cleared : sizes.slots * sizes.pktcap % 2 ^ 32 = sizes.slots * sizes.pktcap :=
    Nat.mod_eq_of_lt (by omega)
  obtain ⟨buf, stored⟩ : ∃ buf, store memory 0
      (List.replicate (sizes.slots * sizes.pktcap) 0) = some buf :=
    store_isSome (by rw [List.length_replicate]; omega)
  refine ⟨⟨sizes.slots, 0, sizes.slotSize, buf⟩, ?_, ⟨rfl, rfl, ?_, ?_, ?_, ?_, ?_⟩, ?_⟩
  · rw [ringbufInit, cleared, stored]
    rfl
  · exact (Nat.zero_mod _).symm
  · dsimp only
    rw [store_length stored, size]
  · intro frame member
    cases member
  · intro index frame present
    cases present
  · intro slot _ _
    rfl
  · intro index
    dsimp only
    rw [getElem?_store stored, List.length_replicate, Nat.zero_add, Nat.sub_zero]
    by_cases inside : index < sizes.slots * sizes.pktcap
    · rw [if_pos ⟨Nat.zero_le _, inside⟩, if_pos inside,
        List.getElem?_replicate_of_lt inside]
    · rw [if_neg (fun both => inside both.2), if_neg inside]

/-- The loop answers every event like the list of all frames, if the slots without a frame are blank
at every dump. -/
theorem capture_simulates {setup : Setup} {sizes : Sizes} {memory : List UInt8}
    (usable : Usable setup sizes) (cap : 40 < sizes.pktcap) (ringsz : sizes.ringsz < 2 ^ 32)
    (allocated : memory.length = sizes.request setup) (events : List Event)
    (blank : Guarded (fun frames event => (latest setup sizes frames event).2)
      (Blank sizes memory) [] events) :
    DumpsLatest setup sizes memory events := by
  obtain ⟨ring, begun, holds, bytes⟩ := ringbufInit_holds usable ringsz allocated
  have long := holds.size
  have keeps (state : Ringbuf) (frames : List Frame) (event : Event)
      (related : Holds setup.order sizes ring.buf state frames)
      (empty : Blank sizes memory frames (id event)) :
      ∃ next, capture setup sizes.pktcap state event =
          some (id (latest setup sizes frames (id event)).1, next) ∧
        Holds setup.order sizes ring.buf next (latest setup sizes frames (id event)).2 := by
    cases event with
    | dump =>
        refine ⟨state, ?_, related⟩
        have dumped := dump_holds usable cap related long ?_
        · rw [capture, dumped]
          rfl
        · intro slot inside unfilled
          have fits := slot_end inside
          refine load_eq_some_iff.mpr ⟨?_, ?_⟩
          · rw [long]
            rw [Sizes.slotSize, entrySize] at fits ⊢
            omega
          · apply List.ext_getElem?
            intro byte
            rw [List.getElem?_take, List.getElem?_replicate]
            split
            · rename_i low
              rw [List.getElem?_drop, bytes]
              split
              · rfl
              · exact empty slot inside unfilled byte low (by omega)
            · rfl
    | received sec usec packet =>
        cases kept : receive setup packet with
        | none =>
            refine ⟨state, ?_, ?_⟩
            · rw [capture, kept]
              rfl
            · simpa [latest, kept] using related
        | some data =>
            obtain ⟨next, stored, nextHolds⟩ := store_holds usable cap related
              ⟨sec, usec, data⟩ (receive_length kept)
            refine ⟨next, ?_, ?_⟩
            · simp only [capture, kept, id_eq, stored, Option.bind_eq_bind, Option.bind_some]
              rfl
            · simpa [latest, kept] using nextHolds
  obtain ⟨last, ran, -⟩ := guarded_exec_simulation id id keeps events ring [] holds
    (by rw [List.map_id]; exact blank)
  rw [List.map_id, List.map_id] at ran
  exact ⟨ring, last, begun, ran⟩

/-- Whatever the options and the memory, in every run in which the slots without a frame are blank at
every dump, each dump holds the latest frames, if the ring is usable. -/
theorem dumps_latest (setup : Setup) (options : List Opt) (sizes : Sizes) (memory : List UInt8)
    (events : List Event) (accepted : readOptions options = some sizes)
    (allocated : memory.length = sizes.request setup) (usable : Usable setup sizes)
    (blank : Guarded (fun frames event => (latest setup sizes frames event).2)
      (Blank sizes memory) [] events) :
    DumpsLatest setup sizes memory events := by
  have bounds := readOptions_bounds accepted
  exact capture_simulates usable bounds.1 bounds.2 allocated events blank

/-- A 32-bit host without filters. -/
def plainHost : Setup := ⟨.little, 32, false, false⟩

/-- A ring of four slots of 41 bytes. -/
def fourSlots : Sizes := ⟨164, 41⟩

/-- A packet with a radiotap header and one byte. -/
def onePacket : List UInt8 := [0, 0, 8, 0, 0, 0, 0, 0, 65]

/-- A packet, and a dump. -/
def shortCapture : List Event := [.received 1 2 (some onePacket), .dump]

theorem dumps_latest_short :
    readOptions [.c 41, .r 164] = some fourSlots ∧
      DumpsLatest plainHost fourSlots (List.replicate 228 0) shortCapture := by
  have accepted : readOptions [.c 41, .r 164] = some fourSlots := by decide
  refine ⟨accepted, dumps_latest plainHost [.c 41, .r 164] fourSlots (List.replicate 228 0)
    shortCapture accepted (by decide +kernel) ⟨by decide, by decide, by decide⟩ ⟨trivial, ?_, trivial⟩⟩
  intro slot inside _ byte low _
  have slots : fourSlots.slots = 4 := by decide
  have size : fourSlots.slotSize = 57 := by decide
  rw [slots] at inside
  rw [size]
  exact List.getElem?_replicate_of_lt (by omega)

/-- Memory that holds a number where the fourth slot begins. -/
def usedMemory : List UInt8 := List.replicate 171 0 ++ [5, 0, 0, 0] ++ List.replicate 53 0

/-- A dump shows a frame that was never received. With a packet size above the size of the ring there
is no slot, and the first frame meets a division by zero. -/
theorem not_dumps_latest :
    (readOptions [.c 41, .r 164] = some fourSlots ∧
      usedMemory.length = fourSlots.request plainHost ∧
      ¬ DumpsLatest plainHost fourSlots usedMemory [.dump]) ∧
    (readOptions [.r 768, .c 1000] = some ⟨768, 1000⟩ ∧
      ¬ DumpsLatest plainHost ⟨768, 1000⟩ [] [.received 1 2 (some onePacket)]) := by
  refine ⟨⟨by decide, by decide +kernel, ?_⟩, by decide, ?_⟩
  · rintro ⟨ring, last, begun, ran⟩
    have phantom : (ringbufInit fourSlots usedMemory).bind (fun ring =>
        (exec (capture plainHost fourSlots.pktcap) ring [.dump]).map Prod.fst) ≠
          some (answers (latest plainHost fourSlots) [] [.dump]).1 := by
      decide +kernel
    rw [begun, Option.bind_some, ran] at phantom
    exact phantom rfl
  · rintro ⟨ring, last, begun, ran⟩
    have fault : (ringbufInit ⟨768, 1000⟩ []).bind (fun ring =>
        exec (capture plainHost 1000) ring [.received 1 2 (some onePacket)]) = none := by
      decide +kernel
    rw [begun, Option.bind_some, ran] at fault
    cases fault

end Trunk.Iwcap
