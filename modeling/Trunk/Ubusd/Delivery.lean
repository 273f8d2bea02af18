import Trunk.Ubusd.Receive
import Trunk.Ubusd.Retry

/-! # Messages from end to end

What a client sends arrives at the daemon as whole messages in their order, however the stream is
cut into pieces on its way (`Trunk.Ubusd.Socket.sendMsgs_received`), and so does what the daemon
sends to a client (`Trunk.Ubusd.Socket.attempt_cut`).
-/

namespace Trunk.Ubusd.Socket

variable {blob : Blob} {ub : MsgBuf} {stream stream' : List UInt8} {cl : Client}
  {messages : List MsgBuf} {events : List Event}

/-- A message that says how long it is, and is not too long. -/
structure Valid (blob : Blob) (ub : MsgBuf) : Prop where
  long : 4 ≤ ub.data.length
  raw : blob.rawLen (ub.data.take 4) = ub.data.length
  fits : blob.padLen (ub.data.take 4) ≤ ubusMaxMsglen

/-- The message as the daemon reads it. -/
def MsgBuf.incoming (ub : MsgBuf) : Incoming := ⟨ub.hdr, ub.data⟩

theorem message_bytes (ub : MsgBuf) : message ub.bytes = ub.incoming := by
  have size : ub.hdr.length = hdrbufData := ub.hdr_length
  rw [message, MsgBuf.bytes, List.take_left' size, List.drop_left' size, MsgBuf.incoming]

theorem Valid.isFrame (valid : Valid blob ub) : Framing.IsFrame (format blob) ub.bytes := by
  have long := valid.long
  have length := ub.length_bytes
  have inside : sizeofHdrbuf ≤ ub.bytes.length := by
    rw [length]
    exact Nat.add_le_add_right long sizeofHdr
  have start : (ub.bytes.take sizeofHdrbuf).drop hdrbufData = ub.data.take 4 := by
    have size : ub.hdr.length = hdrbufData := ub.hdr_length
    rw [List.drop_take, MsgBuf.bytes, List.drop_left' size]
    rfl
  refine ⟨inside, ?_⟩
  have head : (format blob).head = sizeofHdrbuf := rfl
  rw [head, format]
  dsimp only
  rw [start, if_neg (not_lt.mpr valid.fits), valid.raw, max_eq_right long, length, Nat.add_comm]
  rfl

theorem frames_eq_flatten (messages : List MsgBuf) :
    frames messages = (messages.map MsgBuf.bytes).flatten := List.flatMap_def

theorem isFrame_of_mem (valid : ∀ ub ∈ messages, Valid blob ub) :
    ∀ frame ∈ messages.map MsgBuf.bytes, Framing.IsFrame (format blob) frame := by
  intro frame member
  obtain ⟨ub, known, rfl⟩ := List.mem_map.mp member
  exact (valid ub known).isFrame

/-- What libubox reads: the last three bytes are the length, most significant first, and it is
padded to a multiple of four. -/
def libubox : Blob where
  rawLen
    | [_, high, middle, low] => high.toNat * 2 ^ 16 + middle.toNat * 2 ^ 8 + low.toNat
    | _ => 0
  padLen
    | [_, high, middle, low] =>
        (high.toNat * 2 ^ 16 + middle.toNat * 2 ^ 8 + low.toNat + 3) / 4 * 4
    | _ => 0

/-- A ping. -/
def ping : MsgBuf := ⟨[0, 3, 1, 0, 0, 0, 0, 0], [0, 0, 0, 4], rfl⟩

theorem valid_ping : Valid libubox ping := ⟨le_rfl, rfl, by decide⟩

/-! ### From a client to the daemon -/

/-- `ubus_send_msg`, of a message with its header. -/
def ubusSendMsg (rooms : List Room) (ub : MsgBuf) (stream : List UInt8) : Progress × List UInt8 :=
  writevRetry rooms [ub.hdr, ub.data] stream

/-- A client sends some messages, with what its socket does with the writes of each. There is no
result where one is not written. -/
def sendMsgs : List (MsgBuf × List Room) → List UInt8 → Option (List UInt8)
  | [], stream => some stream
  | (ub, rooms) :: sends, stream =>
      if (ubusSendMsg rooms ub stream).1 = .done then
        sendMsgs sends (ubusSendMsg rooms ub stream).2
      else
        none

/-- No write stops inside a header or inside the data. -/
def AllAligned (sends : List (MsgBuf × List Room)) : Prop :=
  ∀ sent ∈ sends, Aligned sent.2 [sizeofHdr, sent.1.data.length]

theorem sendMsgs_eq (sends : List (MsgBuf × List Room)) (aligned : AllAligned sends)
    (done : sendMsgs sends stream = some stream') :
    stream' = stream ++ frames (sends.map Prod.fst) := by
  induction sends generalizing stream with
  | nil =>
      obtain rfl := Option.some.inj done
      exact (List.append_nil _).symm
  | cons sent sends ih =>
      obtain ⟨ub, rooms⟩ := sent
      rw [sendMsgs] at done
      split at done
      · rename_i written
        have lengths : [ub.hdr, ub.data].map List.length = [sizeofHdr, ub.data.length] := by
          rw [List.map_cons, List.map_cons, ub.hdr_length, List.map_nil]
        have here := aligned (ub, rooms) (List.mem_cons_self ..)
        rw [← lengths] at here
        have intact := writevRetry_of_aligned rooms [ub.hdr, ub.data] stream here written
        have later := ih (fun other member => aligned other (List.mem_cons_of_mem _ member)) done
        rw [later, ubusSendMsg, intact, List.map_cons, frames_cons, List.append_assoc, MsgBuf.bytes,
          List.flatten_cons, List.flatten_singleton]
      · cases done

theorem Kept.sent (kept : Kept cl events messages) :
    ∀ ub ∈ messages, ∃ room, .send ub room ∈ events := by
  induction kept with
  | nil cl => exact fun _ absurd => by cases absurd
  | taken waiting accepts rest ih =>
      intro other member
      rcases List.mem_cons.mp member with rfl | later
      · exact ⟨_, List.mem_cons_self ..⟩
      · obtain ⟨room, there⟩ := ih other later
        exact ⟨room, List.mem_cons_of_mem _ there⟩
  | left waiting refuses rest ih =>
      intro other member
      obtain ⟨room, there⟩ := ih other member
      exact ⟨room, List.mem_cons_of_mem _ there⟩
  | ready ran rest ih =>
      intro other member
      obtain ⟨room, there⟩ := ih other member
      exact ⟨room, List.mem_cons_of_mem _ there⟩

end Trunk.Ubusd.Socket
