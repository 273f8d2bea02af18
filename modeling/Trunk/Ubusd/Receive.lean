import Trunk.Foundation.Framing
import Trunk.Foundation.Run

/-! # The messages of a client arrive

The second half of `client_cb`: what is there of a message is read into `hdrbuf` and `pending_msg`,
and the message is handed on when it is complete. A client is disconnected for a message that is
too long. The messages that are handed on do not depend on the pieces in which they arrive
(`Trunk.Ubusd.Socket.receiveAll_fresh`): they are what the stream is cut into by
`Trunk.Ubusd.Socket.format`.

The lengths that libubox reads from the first four bytes of a message are a parameter.
-/

namespace Trunk.Ubusd.Socket

/-- `offsetof(hdrbuf, data)`, which is `sizeof(struct ubus_msghdr)`. -/
def hdrbufData : Nat := 8

/-- `sizeof(cl->hdrbuf)`. -/
def sizeofHdrbuf : Nat := 12

/-- `UBUS_MAX_MSGLEN`. -/
def ubusMaxMsglen : Nat := 65536

/-- `blob_raw_len` and `blob_pad_len`, of the bytes of a `struct blob_attr`. -/
structure Blob where
  rawLen : List UInt8 → Nat
  padLen : List UInt8 → Nat

/-- A message that is read: its header and its data. -/
structure Incoming where
  hdr : List UInt8
  data : List UInt8
  deriving DecidableEq, Repr

/-- The members of `struct ubus_client` for the messages of the client. -/
structure Receiver where
  pendingMsgOffset : Nat
  hdrbuf : List UInt8
  pendingMsg : Option Incoming
  deriving DecidableEq, Repr

/-- A client that is connected. -/
def Receiver.fresh : Receiver := ⟨0, List.replicate sizeofHdrbuf 0, none⟩

/-- Bytes are put into a buffer. -/
def put (buffer : List UInt8) (offset : Nat) (bytes : List UInt8) : List UInt8 :=
  buffer.take offset ++ bytes ++ buffer.drop (offset + bytes.length)

/-- `read`: what there is, up to a length, and what is left; none for -1. -/
def sockRead (length : Nat) (buffer : List UInt8) : Option (List UInt8 × List UInt8) :=
  if buffer = [] then none else some (buffer.take length, buffer.drop length)

variable (blob : Blob)

/-- The head of a message is read, if it is not there yet. There is no result where the client is
disconnected; the flag says whether the loop goes on. -/
def receiveHeader (eof : Bool) (cl : Receiver) (buffer : List UInt8) :
    Option (Bool × Receiver × List UInt8) :=
  if eof = false ∧ cl.pendingMsgOffset < sizeofHdrbuf then
    match sockRead (sizeofHdrbuf - cl.pendingMsgOffset) buffer with
    | none => some (false, cl, buffer)
    | some (bytes, buffer) =>
        let cl := { cl with
          hdrbuf := put cl.hdrbuf cl.pendingMsgOffset bytes
          pendingMsgOffset := cl.pendingMsgOffset + bytes.length }
        if cl.pendingMsgOffset < sizeofHdrbuf then
          some (false, cl, buffer)
        else
          let start := cl.hdrbuf.drop hdrbufData
          if ubusMaxMsglen < blob.padLen start then
            none
          else
            -- `ubus_msg_new` and the two calls of `memcpy`.
            some (true, { cl with pendingMsg := some {
              hdr := cl.hdrbuf.take hdrbufData
              data := put (List.replicate (blob.rawLen start) 0) 0 start } }, buffer)
  else
    some (true, cl, buffer)

/-- The rest of a message is read. The message is there when it is complete. -/
def receiveData (cl : Receiver) (buffer : List UInt8) : Option Incoming × Receiver × List UInt8 :=
  match cl.pendingMsg with
  | none => (none, cl, buffer)
  | some ub =>
      let offset := cl.pendingMsgOffset - hdrbufData
      let length := blob.rawLen (ub.data.take 4) - offset
      let accepted : Receiver := { cl with pendingMsgOffset := 0, pendingMsg := none }
      if 0 < length then
        match sockRead length buffer with
        | none => (none, cl, buffer)
        | some (bytes, buffer) =>
            let ub := { ub with data := put ub.data offset bytes }
            if bytes.length < length then
              (none, { cl with
                pendingMsg := some ub
                pendingMsgOffset := cl.pendingMsgOffset + bytes.length }, buffer)
            else
              (some ub, accepted, buffer)
      else
        (some ub, accepted, buffer)

variable {blob} {cl cl' : Receiver} {buffer buffer' rest : List UInt8} {eof : Bool}
  {ub : Incoming} {length : Nat}

theorem sockRead_of_ne_nil (some : buffer ≠ []) (length : Nat) :
    sockRead length buffer = Option.some (buffer.take length, buffer.drop length) := by
  rw [sockRead, if_neg some]

/-- What the loop makes smaller: what is unread, and a message that is begun. -/
def Receiver.size (cl : Receiver) (buffer : List UInt8) : Nat :=
  2 * buffer.length + if cl.pendingMsg.isSome then 1 else 0

theorem receiveHeader_size
    (read : receiveHeader blob eof cl buffer = some (true, cl', buffer')) :
    cl' = cl ∧ buffer' = buffer ∨ buffer'.length < buffer.length := by
  rw [receiveHeader] at read
  split at read
  · rename_i begun
    cases taken : sockRead (sizeofHdrbuf - cl.pendingMsgOffset) buffer with
    | none =>
        rw [taken] at read
        cases read
    | some result =>
        obtain ⟨bytes, left⟩ := result
        rw [taken] at read
        dsimp only at read
        rw [sockRead] at taken
        split at taken
        · cases taken
        · rename_i some
          obtain ⟨_, rfl⟩ := Prod.mk.inj (Option.some.inj taken)
          have positive := List.length_pos_of_ne_nil some
          split at read
          · cases read
          · split at read
            · cases read
            · obtain ⟨_, same⟩ := Prod.mk.inj (Option.some.inj read)
              obtain ⟨_, rfl⟩ := Prod.mk.inj same
              rw [List.length_drop]
              omega
  · obtain ⟨_, same⟩ := Prod.mk.inj (Option.some.inj read)
    obtain ⟨rfl, rfl⟩ := Prod.mk.inj same
    exact .inl ⟨rfl, rfl⟩

theorem receiveData_size (read : receiveData blob cl buffer = (some ub, cl', buffer')) :
    cl.pendingMsg.isSome = true ∧ cl'.pendingMsg = none ∧ buffer'.length ≤ buffer.length := by
  rw [receiveData] at read
  cases begun : cl.pendingMsg with
  | none =>
      rw [begun] at read
      cases (Prod.mk.inj read).1
  | some ub' =>
      rw [begun] at read
      dsimp only at read
      refine ⟨rfl, ?_⟩
      split at read
      · cases taken : sockRead (blob.rawLen (ub'.data.take 4) -
            (cl.pendingMsgOffset - hdrbufData)) buffer with
        | none =>
            rw [taken] at read
            cases (Prod.mk.inj read).1
        | some result =>
            obtain ⟨bytes, left⟩ := result
            rw [taken] at read
            dsimp only at read
            rw [sockRead] at taken
            split at taken
            · cases taken
            · obtain ⟨_, rfl⟩ := Prod.mk.inj (Option.some.inj taken)
              split at read
              · cases (Prod.mk.inj read).1
              · obtain ⟨rfl, rfl⟩ := Prod.mk.inj (Prod.mk.inj read).2
                exact ⟨rfl, by rw [List.length_drop]; omega⟩
      · obtain ⟨rfl, rfl⟩ := Prod.mk.inj (Prod.mk.inj read).2
        exact ⟨rfl, le_rfl⟩

variable (blob)

/-- The second loop of `client_cb`: the messages that it hands on, and what is left unread. There is
no second result where the client is disconnected. -/
def receive (eof : Bool) (cl : Receiver) (buffer : List UInt8) :
    List Incoming × Option (Receiver × List UInt8) :=
  match _header : receiveHeader blob eof cl buffer with
  | none => ([], none)
  | some (false, cl, buffer) => ([], some (cl, buffer))
  | some (true, cl, buffer) =>
      match _data : receiveData blob cl buffer with
      | (none, cl, buffer) => ([], some (cl, buffer))
      | (some ub, cl, buffer) =>
          let rest := receive eof cl buffer
          (ub :: rest.1, rest.2)
termination_by cl.size buffer
decreasing_by
  obtain ⟨begun, ended, fewer⟩ := receiveData_size _data
  rw [Receiver.size, Receiver.size, ended, Option.isSome_none, if_neg Bool.false_ne_true]
  rcases receiveHeader_size _header with ⟨rfl, rfl⟩ | less
  · rw [if_pos begun]
    omega
  · omega

theorem receive_of_refused (header : receiveHeader blob eof cl buffer = none) :
    receive blob eof cl buffer = ([], none) := by
  rw [receive]
  split
  · rfl
  · rename_i absurd
    rw [header] at absurd
    cases absurd
  · rename_i absurd
    rw [header] at absurd
    cases absurd

theorem receive_of_out (header : receiveHeader blob eof cl buffer = some (false, cl', buffer')) :
    receive blob eof cl buffer = ([], some (cl', buffer')) := by
  rw [receive]
  split
  · rename_i absurd
    rw [header] at absurd
    cases absurd
  · rename_i same
    rw [header] at same
    obtain ⟨_, same⟩ := Prod.mk.inj (Option.some.inj same)
    obtain ⟨rfl, rfl⟩ := Prod.mk.inj same
    rfl
  · rename_i absurd
    rw [header] at absurd
    cases (Prod.mk.inj (Option.some.inj absurd)).1

variable {cl'' : Receiver} {buffer'' : List UInt8}

theorem receive_of_on (header : receiveHeader blob eof cl buffer = some (true, cl', buffer'))
    {result : Option Incoming} (data : receiveData blob cl' buffer' = (result, cl'', buffer'')) :
    receive blob eof cl buffer = result.elim ([], some (cl'', buffer'')) fun ub =>
      (ub :: (receive blob eof cl'' buffer'').1, (receive blob eof cl'' buffer'').2) := by
  rw [receive]
  split
  · rename_i absurd
    rw [header] at absurd
    cases absurd
  · rename_i absurd
    rw [header] at absurd
    cases (Prod.mk.inj (Option.some.inj absurd)).1
  · rename_i same
    rw [header] at same
    obtain ⟨_, same⟩ := Prod.mk.inj (Option.some.inj same)
    obtain ⟨rfl, rfl⟩ := Prod.mk.inj same
    split
    · rename_i same
      obtain ⟨rfl, same⟩ := Prod.mk.inj (data.symm.trans same)
      obtain ⟨rfl, rfl⟩ := Prod.mk.inj same
      rfl
    · rename_i same
      obtain ⟨rfl, same⟩ := Prod.mk.inj (data.symm.trans same)
      obtain ⟨rfl, rfl⟩ := Prod.mk.inj same
      rfl

/-- The client is reported ready again and again, each time with some more bytes. -/
def receiveAll : Receiver → List UInt8 → List (List UInt8) → List Incoming × Option Receiver
  | cl, _, [] => ([], some cl)
  | cl, left, piece :: pieces =>
      let result := receive blob false cl (left ++ piece)
      match result.2 with
      | none => (result.1, none)
      | some (cl, left) =>
          let rest := receiveAll cl left pieces
          (result.1 ++ rest.1, rest.2)

/-! ### The stream -/

/-- The format of the stream. A message is at least as long as `hdrbuf`. -/
def format : Framing.Format UInt8 where
  head := sizeofHdrbuf
  total start :=
    if ubusMaxMsglen < blob.padLen (start.drop hdrbufData) then
      none
    else
      some (hdrbufData + max 4 (blob.rawLen (start.drop hdrbufData)))
  head_pos := by decide
  head_le start length told := by
    split at told
    · cases told
    · obtain rfl := Option.some.inj told
      exact Nat.add_le_add_left (Nat.le_max_left 4 _) hdrbufData

variable {blob}

/-- A whole message. -/
def message (frame : List UInt8) : Incoming := ⟨frame.take hdrbufData, frame.drop hdrbufData⟩

/-- The head of a message is there. -/
structure Reading (blob : Blob) (rest : List UInt8) (length : Nat) (cl : Receiver) : Prop where
  offset : cl.pendingMsgOffset = rest.length
  room : cl.hdrbuf.length = sizeofHdrbuf
  head : sizeofHdrbuf ≤ rest.length
  total : (format blob).total (rest.take sizeofHdrbuf) = some length
  fits : rest.length ≤ length
  pending : ∃ ub, cl.pendingMsg = some ub ∧ ub.hdr = rest.take hdrbufData ∧
    ub.data.take (rest.length - hdrbufData) = rest.drop hdrbufData ∧
    ub.data.length = length - hdrbufData

/-- The client has sent some bytes of a message. -/
structure Holds (blob : Blob) (rest : List UInt8) (cl : Receiver) : Prop where
  offset : cl.pendingMsgOffset = rest.length
  room : cl.hdrbuf.length = sizeofHdrbuf
  short : rest.length < sizeofHdrbuf → cl.pendingMsg = none ∧ cl.hdrbuf.take rest.length = rest
  long : sizeofHdrbuf ≤ rest.length → ∃ length, Reading blob rest length cl ∧ rest.length < length

theorem holds_fresh : Holds blob [] Receiver.fresh where
  offset := rfl
  room := rfl
  short _ := ⟨rfl, rfl⟩
  long absurd := by cases absurd

theorem take_put {offset : Nat} {bytes : List UInt8} (inside : offset ≤ buffer.length) :
    (put buffer offset bytes).take (offset + bytes.length) = buffer.take offset ++ bytes := by
  rw [put, List.take_left' (by rw [List.length_append, List.length_take]; omega)]

theorem length_put {offset : Nat} {bytes : List UInt8}
    (inside : offset + bytes.length ≤ buffer.length) :
    (put buffer offset bytes).length = buffer.length := by
  rw [put, List.length_append, List.length_append, List.length_take, List.length_drop]
  omega

theorem length_put_zeros (count : Nat) (bytes : List UInt8) :
    (put (List.replicate count 0) 0 bytes).length = max bytes.length count := by
  rw [put, List.take_zero, List.nil_append, List.length_append, List.length_drop,
    List.length_replicate]
  omega

/-- The length that is still to be read. -/
theorem Reading.length_eq (reading : Reading blob rest length cl) (begun : cl.pendingMsg = some ub) :
    blob.rawLen (ub.data.take 4) - (cl.pendingMsgOffset - hdrbufData) = length - rest.length := by
  obtain ⟨ub', begun', _, data, _⟩ := reading.pending
  obtain rfl := Option.some.inj (begun.symm.trans begun')
  have head := reading.head
  have start : ub.data.take 4 = (rest.take sizeofHdrbuf).drop hdrbufData := by
    rw [List.drop_take, ← data, List.take_take]
    congr 1
    rw [sizeofHdrbuf, hdrbufData] at *
    omega
  have total := reading.total
  rw [format] at total
  dsimp only at total
  split at total
  · cases total
  · have same := Option.some.inj total
    have fits := reading.fits
    rw [start, reading.offset]
    rw [sizeofHdrbuf, hdrbufData] at *
    omega

/-- A message that is not complete. -/
theorem receiveData_of_short (reading : Reading blob rest length cl)
    (short : rest.length + buffer.length < length) :
    ∃ cl', receiveData blob cl buffer = (none, cl', []) ∧ Holds blob (rest ++ buffer) cl' := by
  obtain ⟨ub, begun, hdr, data, size⟩ := reading.pending
  have head := reading.head
  have inside : hdrbufData ≤ rest.length := le_trans (by decide) head
  have start : (rest ++ buffer).take sizeofHdrbuf = rest.take sizeofHdrbuf :=
    List.take_append_of_le_length head
  rw [receiveData, begun]
  dsimp only
  rw [reading.length_eq begun, if_pos (by omega)]
  by_cases empty : buffer = []
  · subst empty
    rw [sockRead, if_pos rfl, List.append_nil]
    refine ⟨cl, rfl, reading.offset, reading.room, ?_, ?_⟩
    · exact fun absurd => (not_lt.mpr head absurd).elim
    · exact fun _ => ⟨length, reading, short⟩
  · have all : buffer.take (length - rest.length) = buffer := List.take_of_length_le (by omega)
    have none : buffer.drop (length - rest.length) = [] := List.drop_eq_nil_of_le (by omega)
    rw [sockRead_of_ne_nil empty, all, none]
    dsimp only
    rw [if_pos (by omega)]
    have more : sizeofHdrbuf ≤ (rest ++ buffer).length := by
      rw [List.length_append]
      omega
    have sum : cl.pendingMsgOffset + buffer.length = (rest ++ buffer).length := by
      rw [reading.offset, List.length_append]
    refine ⟨_, rfl, sum, reading.room, fun absurd => (not_lt.mpr more absurd).elim, fun _ => ?_⟩
    refine ⟨length, ⟨sum, reading.room, more, start ▸ reading.total, ?_, _, rfl, ?_, ?_, ?_⟩, ?_⟩
    · rw [List.length_append]
      omega
    · rw [hdr, List.take_append_of_le_length inside]
    · have length' : (rest ++ buffer).length - hdrbufData =
          (rest.length - hdrbufData) + buffer.length := by
        rw [List.length_append]
        omega
      rw [length', reading.offset, take_put (by omega), data,
        List.drop_append_of_le_length inside]
    · rw [reading.offset, length_put (by omega), size]
    · rw [List.length_append]
      omega

/-- A message that is complete. -/
theorem receiveData_of_all (reading : Reading blob rest length cl)
    (all : length ≤ rest.length + buffer.length) :
    ∃ cl', receiveData blob cl buffer = (some (message ((rest ++ buffer).take length)), cl',
      buffer.drop (length - rest.length)) ∧ Holds blob [] cl' := by
  obtain ⟨ub, begun, hdr, data, size⟩ := reading.pending
  have head := reading.head
  have inside : hdrbufData ≤ rest.length := le_trans (by decide) head
  have fits := reading.fits
  have fresh : Holds blob [] { cl with pendingMsgOffset := 0, pendingMsg := none } :=
    ⟨rfl, reading.room, fun _ => ⟨rfl, rfl⟩, fun absurd => by cases absurd⟩
  have split : (rest ++ buffer).take length = rest ++ buffer.take (length - rest.length) := by
    rw [List.take_append, List.take_of_length_le fits]
  rw [receiveData, begun]
  dsimp only
  rw [reading.length_eq begun]
  by_cases more : 0 < length - rest.length
  · have some : buffer ≠ [] := by
      rintro rfl
      rw [List.length_nil] at all
      omega
    have taken : (buffer.take (length - rest.length)).length = length - rest.length := by
      rw [List.length_take]
      omega
    rw [if_pos more, sockRead_of_ne_nil some]
    dsimp only
    rw [if_neg (by rw [taken]; exact lt_irrefl _)]
    refine ⟨_, ?_, fresh⟩
    have whole : put ub.data (cl.pendingMsgOffset - hdrbufData)
        (buffer.take (length - rest.length)) =
          rest.drop hdrbufData ++ buffer.take (length - rest.length) := by
      have none : ub.data.drop (rest.length - hdrbufData +
          (buffer.take (length - rest.length)).length) = [] :=
        List.drop_eq_nil_of_le (by omega)
      rw [put, reading.offset, data, none, List.append_nil]
    rw [whole, hdr, message, split, List.take_append_of_le_length inside,
      List.drop_append_of_le_length inside]
  · have same : length = rest.length := by omega
    rw [if_neg more, same, Nat.sub_self, List.drop_zero, List.take_left]
    refine ⟨_, ?_, fresh⟩
    have whole : ub.data = rest.drop hdrbufData := by
      rw [← data, List.take_of_length_le (by omega)]
    rw [message, ← hdr, ← whole]

/-- The head of a message is not complete. -/
theorem receiveHeader_of_short (holds : Holds blob rest cl)
    (short : (rest ++ buffer).length < sizeofHdrbuf) :
    ∃ cl', receiveHeader blob false cl buffer = some (false, cl', []) ∧
      Holds blob (rest ++ buffer) cl' := by
  rw [List.length_append] at short
  obtain ⟨idle, start⟩ := holds.short (by omega)
  have offset := holds.offset
  have room := holds.room
  rw [receiveHeader, if_pos ⟨rfl, by omega⟩]
  by_cases empty : buffer = []
  · subst empty
    rw [sockRead, if_pos rfl, List.append_nil]
    exact ⟨cl, rfl, holds⟩
  · have all : buffer.take (sizeofHdrbuf - cl.pendingMsgOffset) = buffer :=
      List.take_of_length_le (by omega)
    have none : buffer.drop (sizeofHdrbuf - cl.pendingMsgOffset) = [] :=
      List.drop_eq_nil_of_le (by omega)
    rw [sockRead_of_ne_nil empty, all, none]
    dsimp only
    rw [if_pos (by omega)]
    refine ⟨_, rfl, ?_, ?_, fun _ => ⟨idle, ?_⟩, fun absurd => ?_⟩
    · rw [offset, List.length_append]
    · rw [length_put (by omega), room]
    · rw [List.length_append, ← offset, take_put (by omega), offset, start]
    · rw [List.length_append] at absurd
      omega

/-- A message begins where its head is complete. -/
theorem Reading.begin {start : List UInt8} (size : start.length = sizeofHdrbuf)
    (fits : ¬ ubusMaxMsglen < blob.padLen (start.drop hdrbufData)) (cl : Receiver)
    (offset : cl.pendingMsgOffset = sizeofHdrbuf) (room : cl.hdrbuf = start)
    (begun : cl.pendingMsg = some ⟨start.take hdrbufData,
      put (List.replicate (blob.rawLen (start.drop hdrbufData)) 0) 0 (start.drop hdrbufData)⟩) :
    Reading blob start (hdrbufData + max 4 (blob.rawLen (start.drop hdrbufData))) cl where
  offset := offset.trans size.symm
  room := by rw [room, size]
  head := size.ge
  total := by
    rw [List.take_of_length_le size.le, format]
    exact if_neg fits
  fits := by
    rw [size]
    exact Nat.add_le_add_left (Nat.le_max_left 4 _) hdrbufData
  pending := by
    have four : (start.drop hdrbufData).length = 4 := by
      rw [List.length_drop, size]
      rfl
    refine ⟨_, begun, rfl, ?_, ?_⟩
    · rw [size, put, List.take_zero, List.nil_append]
      exact List.take_left' four
    · rw [length_put_zeros, four, Nat.add_sub_cancel_left]

/-- The head of a message is complete. -/
theorem receiveHeader_of_all (holds : Holds blob rest cl)
    (all : sizeofHdrbuf ≤ (rest ++ buffer).length) :
    ((format blob).total ((rest ++ buffer).take sizeofHdrbuf) = none ∧
      receiveHeader blob false cl buffer = none) ∨
    ∃ length count cl', (format blob).total ((rest ++ buffer).take sizeofHdrbuf) = some length ∧
      receiveHeader blob false cl buffer = some (true, cl', buffer.drop count) ∧
      Reading blob (rest ++ buffer.take count) length cl' ∧ rest.length < length := by
  by_cases begun : sizeofHdrbuf ≤ rest.length
  · -- It was complete before.
    obtain ⟨length, reading, less⟩ := holds.long begun
    refine .inr ⟨length, 0, cl, ?_, ?_, ?_, less⟩
    · rw [List.take_append_of_le_length begun]
      exact reading.total
    · rw [receiveHeader, if_neg]
      · rfl
      · rw [holds.offset]
        exact fun absurd => not_lt.mpr begun absurd.2
    · rw [List.take_zero, List.append_nil]
      exact reading
  · rw [not_le] at begun
    obtain ⟨idle, start⟩ := holds.short begun
    have offset := holds.offset
    have room := holds.room
    have sum : rest.length + buffer.length = (rest ++ buffer).length := by rw [List.length_append]
    have some : buffer ≠ [] := by
      rintro rfl
      rw [List.length_nil] at sum
      omega
    have taken : (buffer.take (sizeofHdrbuf - rest.length)).length = sizeofHdrbuf - rest.length := by
      rw [List.length_take]
      omega
    have head : (rest ++ buffer).take sizeofHdrbuf =
        rest ++ buffer.take (sizeofHdrbuf - rest.length) := by
      rw [List.take_append, List.take_of_length_le begun.le]
    have full : put cl.hdrbuf rest.length (buffer.take (sizeofHdrbuf - rest.length)) =
        (rest ++ buffer).take sizeofHdrbuf := by
      rw [put, start, taken, List.drop_eq_nil_of_le (by omega), List.append_nil, head]
    rw [receiveHeader, if_pos ⟨rfl, by omega⟩, offset, sockRead_of_ne_nil some]
    dsimp only
    rw [taken, if_neg (by omega), full]
    split
    · rename_i long
      refine .inl ⟨?_, rfl⟩
      rw [format]
      exact if_pos long
    · rename_i fits
      have size : ((rest ++ buffer).take sizeofHdrbuf).length = sizeofHdrbuf := by
        rw [List.length_take]
        omega
      have told : (format blob).total ((rest ++ buffer).take sizeofHdrbuf) = Option.some
          (hdrbufData + max 4 (blob.rawLen (((rest ++ buffer).take sizeofHdrbuf).drop hdrbufData))) := by
        rw [format]
        exact if_neg fits
      refine .inr ⟨_, sizeofHdrbuf - rest.length, _, told, rfl, ?_, ?_⟩
      · rw [← head]
        refine Reading.begin size fits _ ?_ rfl rfl
        exact Nat.add_sub_cancel' begun.le
      · exact begun.trans_le (Nat.add_le_add_left (Nat.le_max_left 4 _) hdrbufData)

/-- What is read of the stream, and handed on, is what it is cut into. -/
theorem receive_eq (holds : Holds blob rest cl) (buffer : List UInt8) :
    (receive blob false cl buffer).1 =
        (Framing.cut (format blob) (rest ++ buffer)).1.map message ∧
      ((Framing.cut (format blob) (rest ++ buffer)).2 = none →
        (receive blob false cl buffer).2 = none) ∧
      ∀ left, (Framing.cut (format blob) (rest ++ buffer)).2 = some left →
        ∃ cl', (receive blob false cl buffer).2 = some (cl', []) ∧ Holds blob left cl' := by
  induction unread : buffer.length using Nat.strongRecOn generalizing buffer rest cl with
  | _ count ih =>
      by_cases short : (rest ++ buffer).length < sizeofHdrbuf
      · obtain ⟨cl', read, kept⟩ := receiveHeader_of_short holds short
        rw [receive_of_out blob read, Framing.cut_of_short short]
        refine ⟨rfl, (fun absurd => by cases absurd), ?_⟩
        rintro _ ⟨rfl⟩
        exact ⟨cl', rfl, kept⟩
      · rw [not_lt] at short
        rcases receiveHeader_of_all holds short with
          ⟨told, read⟩ | ⟨length, taken, cl', told, read, reading, less⟩
        · rw [receive_of_refused blob read, Framing.cut_of_refused short told]
          exact ⟨rfl, fun _ => rfl, fun _ absurd => by cases absurd⟩
        · have whole : rest ++ buffer.take taken ++ buffer.drop taken = rest ++ buffer := by
            rw [List.append_assoc, List.take_append_drop]
          have sum : (rest ++ buffer.take taken).length + (buffer.drop taken).length =
              (rest ++ buffer).length := by rw [← List.length_append, whole]
          by_cases all : length ≤ (rest ++ buffer).length
          · obtain ⟨next, accepted, fresh⟩ := receiveData_of_all reading (sum ▸ all)
            have left : (rest ++ buffer).drop length =
                (buffer.drop taken).drop (length - (rest ++ buffer.take taken).length) := by
              rw [← whole, List.drop_append, List.drop_eq_nil_of_le reading.fits, List.nil_append]
            have fewer : ((buffer.drop taken).drop
                (length - (rest ++ buffer.take taken).length)).length < count := by
              rw [← left, List.length_drop, ← unread]
              rw [List.length_append] at all ⊢
              omega
            have later := ih _ fewer fresh _ rfl
            rw [List.nil_append, ← left] at later
            rw [receive_of_on blob read accepted, Framing.cut_of_frame short told all, whole, ← left]
            exact ⟨congrArg _ later.1, later.2⟩
          · obtain ⟨next, stopped, kept⟩ := receiveData_of_short reading (sum ▸ not_le.mp all)
            rw [receive_of_on blob read stopped,
              Framing.cut_of_unfinished short told (not_le.mp all)]
            refine ⟨rfl, (fun absurd => by cases absurd), ?_⟩
            rintro _ ⟨rfl⟩
            exact ⟨next, rfl, whole ▸ kept⟩

/-- However the bytes of a client arrive, the messages that are handed on are those of the stream, and
the client is disconnected where the stream is refused. -/
theorem receiveAll_eq (pieces : List (List UInt8)) (cl : Receiver) (rest : List UInt8)
    (holds : Holds blob rest cl) :
    (receiveAll blob cl [] pieces).1 =
        (Framing.cut (format blob) (rest ++ pieces.flatten)).1.map message ∧
      ((receiveAll blob cl [] pieces).2 = none ↔
        (Framing.cut (format blob) (rest ++ pieces.flatten)).2 = none) := by
  induction pieces generalizing cl rest with
  | nil =>
      have idle : Framing.cut (format blob) rest = ([], some rest) := by
        by_cases short : rest.length < sizeofHdrbuf
        · exact Framing.cut_of_short short
        · rw [not_lt] at short
          obtain ⟨length, reading, less⟩ := holds.long short
          exact Framing.cut_of_unfinished short reading.total less
      rw [List.flatten_nil, List.append_nil, idle]
      exact ⟨rfl, iff_of_false (Option.some_ne_none cl) (Option.some_ne_none rest)⟩
  | cons piece pieces ih =>
      obtain ⟨messages, refused, goes⟩ := receive_eq holds piece
      rw [List.flatten_cons, ← List.append_assoc, Framing.cut_append, receiveAll, List.nil_append]
      dsimp only
      cases left : (Framing.cut (format blob) (rest ++ piece)).2 with
      | none =>
          rw [refused left, messages]
          exact ⟨rfl, iff_of_true rfl rfl⟩
      | some left' =>
          obtain ⟨next, same, kept⟩ := goes left' left
          obtain ⟨later, ends⟩ := ih next left' kept
          rw [same, messages]
          dsimp only
          rw [later, Option.elim_some, List.map_append]
          exact ⟨rfl, ends⟩

end Trunk.Ubusd.Socket
