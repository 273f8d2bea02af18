import Trunk.Foundation.Fifo
import Trunk.Foundation.Run

/-! # The messages on their way to a client

`ubusd` writes a message to the socket of its client. What the socket does not take waits in a ring
of 32 places, `tx_queue`, until there is room (`Trunk.Ubusd.Socket.step`). Whatever the socket
takes, the client reads whole messages in the order in which they were sent
(`Trunk.Ubusd.Socket.attempt_line`): a message is left out if the ring is full, and if the write
of it fails while no other message waits.
-/

namespace Trunk.Ubusd.Socket

/-- `sizeof(struct ubus_msghdr)`. -/
def sizeofHdr : Nat := 8

/-- `UBUSD_CLIENT_BACKLOG`. -/
def ubusdClientBacklog : Nat := 32

/-- `struct ubus_msg_buf`: the bytes of the header and of the data. -/
structure MsgBuf where
  hdr : List UInt8
  data : List UInt8
  hdr_length : hdr.length = sizeofHdr
  deriving DecidableEq, Repr

/-- The bytes of a message on the wire. -/
def MsgBuf.bytes (ub : MsgBuf) : List UInt8 := ub.hdr ++ ub.data

theorem MsgBuf.length_bytes (ub : MsgBuf) : ub.bytes.length = ub.data.length + sizeofHdr := by
  rw [MsgBuf.bytes, List.length_append, ub.hdr_length, Nat.add_comm]

/-- The members of `struct ubus_client` for the messages to the client, and what its socket has taken
so far. -/
structure Client where
  txQueue : Nat → Option MsgBuf
  txqCur : Nat
  txqTail : Nat
  txqOfs : Nat
  stream : List UInt8

/-- A client that is connected. -/
def Client.fresh : Client where
  txQueue := fun _ => none
  txqCur := 0
  txqTail := 0
  txqOfs := 0
  stream := []

/-- What the socket does with a write: it takes up to some number of bytes, has no room or is
interrupted (`EAGAIN`, `EINTR`), or fails. -/
inductive Room where
  | bytes (count : Nat)
  | again
  | broken
  deriving DecidableEq, Repr

/-- The result of a write: the bytes that were taken, or none for -1. -/
def Room.write (room : Room) (bytes : List UInt8) : Option (List UInt8) :=
  match room with
  | .bytes count => some (bytes.take count)
  | .again => none
  | .broken => none

/-- `ubus_msg_writev`. -/
def ubusMsgWritev (room : Room) (ub : MsgBuf) (offset : Nat) : Option (List UInt8) :=
  if offset < sizeofHdr then
    room.write (ub.hdr.drop offset ++ ub.data)
  else
    room.write (ub.data.drop (offset - sizeofHdr))

/-- `ubus_msg_enqueue`. -/
def ubusMsgEnqueue (cl : Client) (ub : MsgBuf) : Client :=
  if (cl.txQueue cl.txqTail).isSome then
    cl
  else
    { cl with
      txQueue := Function.update cl.txQueue cl.txqTail (some ub)
      txqTail := (cl.txqTail + 1) % ubusdClientBacklog }

/-- `ubus_msg_send`. The number of bytes is compared as an unsigned one, so -1 is taken for all of
them, and the line that makes it 0 is never reached. -/
def ubusMsgSend (room : Room) (cl : Client) (ub : MsgBuf) : Client :=
  if (cl.txQueue cl.txqCur).isNone then
    match ubusMsgWritev room ub 0 with
    | none => cl
    | some written =>
        if ub.data.length + sizeofHdr ≤ written.length then
          { cl with stream := cl.stream ++ written }
        else
          ubusMsgEnqueue { cl with stream := cl.stream ++ written, txqOfs := written.length } ub
  else
    ubusMsgEnqueue cl ub

/-- `ubus_msg_dequeue`. -/
def ubusMsgDequeue (cl : Client) : Client :=
  if (cl.txQueue cl.txqCur).isNone then
    cl
  else
    { cl with
      txQueue := Function.update cl.txQueue cl.txqCur none
      txqCur := (cl.txqCur + 1) % ubusdClientBacklog
      txqOfs := 0 }

/-- The first loop of `client_cb`, with what the socket does with each write; after these it has no
room. There is no result where the client is disconnected. -/
def transmit : List Room → Client → Option Client
  | [], cl => some cl
  | room :: rooms, cl =>
      match cl.txQueue cl.txqCur with
      | none => some cl
      | some ub =>
          match ubusMsgWritev room ub cl.txqOfs with
          | none => if room = .again then some cl else none
          | some written =>
              let cl := { cl with
                stream := cl.stream ++ written
                txqOfs := cl.txqOfs + written.length }
              if cl.txqOfs < ub.data.length + sizeofHdr then
                some cl
              else
                transmit rooms (ubusMsgDequeue cl)

/-- What happens to a client: the daemon sends it a message, or its socket is reported ready. -/
inductive Event where
  | send (ub : MsgBuf) (room : Room)
  | ready (rooms : List Room)
  deriving DecidableEq, Repr

/-- One of these. -/
def step (cl : Client) : Event → Option Client
  | .send ub room => some (ubusMsgSend room cl ub)
  | .ready rooms => transmit rooms cl

/-! ### The ring -/

variable {cl cl' : Client} {ub : MsgBuf} {pending accepted : List MsgBuf} {room : Room}

/-- The messages that wait in the ring. -/
structure Waiting (cl : Client) (pending : List MsgBuf) : Prop where
  fills : Fifo.Fills ubusdClientBacklog cl.txQueue cl.txqCur pending
  tail : cl.txqTail = (cl.txqCur + pending.length) % ubusdClientBacklog

/-- The bytes of some messages. -/
def frames (messages : List MsgBuf) : List UInt8 := messages.flatMap MsgBuf.bytes

/-- The socket has taken the messages that were accepted, up to those that wait. -/
structure Line (accepted : List MsgBuf) (cl : Client) (pending : List MsgBuf) : Prop where
  waiting : Waiting cl pending
  begun : ∀ ub, pending.head? = some ub → cl.txqOfs < ub.bytes.length
  done : ∃ whole, accepted = whole ++ pending ∧
    cl.stream = frames whole ++ (frames pending).take (if pending = [] then 0 else cl.txqOfs)

theorem ubusMsgWritev_eq (room : Room) (ub : MsgBuf) (offset : Nat) :
    ubusMsgWritev room ub offset = room.write (ub.bytes.drop offset) := by
  rw [ubusMsgWritev, MsgBuf.bytes]
  split
  · rename_i inside
    rw [List.drop_append_of_le_length (by rw [ub.hdr_length]; omega)]
  · rename_i behind
    rw [List.drop_append, List.drop_eq_nil_of_le (ub.hdr_length.trans_le (not_lt.mp behind)),
      List.nil_append, ub.hdr_length]

theorem Waiting.head (waiting : Waiting cl pending) : cl.txQueue cl.txqCur = pending.head? :=
  waiting.fills.oldest

theorem Waiting.congr (waiting : Waiting cl pending) (txqOfs : Nat) (stream : List UInt8) :
    Waiting { cl with txqOfs := txqOfs, stream := stream } pending :=
  ⟨waiting.fills, waiting.tail⟩

theorem enqueue_stream (cl : Client) (ub : MsgBuf) : (ubusMsgEnqueue cl ub).stream = cl.stream := by
  rw [ubusMsgEnqueue]
  split
  · rfl
  · rfl

theorem enqueue_txqOfs (cl : Client) (ub : MsgBuf) : (ubusMsgEnqueue cl ub).txqOfs = cl.txqOfs := by
  rw [ubusMsgEnqueue]
  split
  · rfl
  · rfl

theorem Waiting.enqueue (waiting : Waiting cl pending) (room : pending.length < ubusdClientBacklog)
    (ub : MsgBuf) : Waiting (ubusMsgEnqueue cl ub) (pending ++ [ub]) := by
  have free : cl.txQueue cl.txqTail = none := by
    rw [waiting.tail]
    exact waiting.fills.behind.mpr room
  rw [ubusMsgEnqueue, free, Option.isSome_none, if_neg Bool.false_ne_true]
  refine ⟨?_, ?_⟩
  · rw [waiting.tail]
    exact waiting.fills.push room
  · rw [waiting.tail, Nat.mod_add_mod, List.length_append, List.length_singleton, Nat.add_assoc]

theorem Waiting.enqueue_full (waiting : Waiting cl pending)
    (full : ¬ pending.length < ubusdClientBacklog) (ub : MsgBuf) : ubusMsgEnqueue cl ub = cl := by
  have taken : cl.txQueue cl.txqTail ≠ none := by
    rw [waiting.tail]
    exact fun free => full (waiting.fills.behind.mp free)
  rw [ubusMsgEnqueue, if_pos (Option.isSome_iff_ne_none.mpr taken)]

theorem Waiting.dequeue (waiting : Waiting cl (ub :: pending)) :
    Waiting (ubusMsgDequeue cl) pending := by
  have head : cl.txQueue cl.txqCur = some ub := waiting.head
  rw [ubusMsgDequeue, head, Option.isNone_some, if_neg Bool.false_ne_true]
  refine ⟨waiting.fills.pop, ?_⟩
  rw [waiting.tail, List.length_cons, Nat.mod_add_mod]
  congr 1
  omega

/-! ### What is accepted -/

/-- A message is taken over while some others wait. -/
def Accepts (pending : List MsgBuf) (room : Room) : Prop :=
  if pending = [] then ∃ count, room = .bytes count else pending.length < ubusdClientBacklog

instance (pending : List MsgBuf) (room : Room) : Decidable (Accepts pending room) :=
  if empty : pending = [] then
    match room with
    | .bytes count => isTrue (by rw [Accepts, if_pos empty]; exact ⟨count, rfl⟩)
    | .again => isFalse (by rw [Accepts, if_pos empty]; exact fun ⟨_, absurd⟩ => by cases absurd)
    | .broken => isFalse (by rw [Accepts, if_pos empty]; exact fun ⟨_, absurd⟩ => by cases absurd)
  else
    decidable_of_iff (pending.length < ubusdClientBacklog) (by rw [Accepts, if_neg empty])

theorem frames_append (first second : List MsgBuf) :
    frames (first ++ second) = frames first ++ frames second := List.flatMap_append

theorem frames_cons (ub : MsgBuf) (messages : List MsgBuf) :
    frames (ub :: messages) = ub.bytes ++ frames messages := List.flatMap_cons

theorem frames_singleton (ub : MsgBuf) : frames [ub] = ub.bytes := by
  rw [frames, List.flatMap_singleton]

/-- A message is sent. -/
theorem Line.send (line : Line accepted cl pending) (ub : MsgBuf) (room : Room) :
    (Accepts pending room → ∃ pending', Line (accepted ++ [ub]) (ubusMsgSend room cl ub) pending') ∧
      (¬ Accepts pending room → ubusMsgSend room cl ub = cl) := by
  obtain ⟨whole, same, stream⟩ := line.done
  cases pending with
  | nil =>
      have empty : cl.txQueue cl.txqCur = none := line.waiting.head
      rw [if_pos rfl, List.take_zero, List.append_nil] at stream
      rw [List.append_nil] at same
      subst same
      rw [ubusMsgSend, empty, Option.isNone_none, if_pos rfl, ubusMsgWritev_eq, List.drop_zero,
        Accepts, if_pos rfl]
      cases room with
      | again => exact ⟨fun ⟨_, absurd⟩ => (by cases absurd), fun _ => rfl⟩
      | broken => exact ⟨fun ⟨_, absurd⟩ => (by cases absurd), fun _ => rfl⟩
      | bytes count =>
          refine ⟨fun _ => ?_, fun refused => absurd ⟨count, rfl⟩ refused⟩
          simp only [Room.write]
          split
          · -- The socket took all of it.
            rename_i all
            rw [List.length_take, ub.length_bytes] at all
            refine ⟨[], line.waiting.congr _ _, line.begun, accepted ++ [ub], (List.append_nil _).symm, ?_⟩
            rw [if_pos rfl, List.take_zero, List.append_nil, frames_append, frames_singleton, stream,
              List.take_of_length_le (by rw [ub.length_bytes]; omega)]
          · rename_i part
            rw [List.length_take, ub.length_bytes] at part
            have few : (([] : List MsgBuf)).length < ubusdClientBacklog := by decide
            have waiting := (line.waiting.congr (ub.bytes.take count).length
              (cl.stream ++ ub.bytes.take count)).enqueue few ub
            refine ⟨[ub], waiting, ?_, accepted, rfl, ?_⟩
            · rintro _ ⟨rfl⟩
              rw [enqueue_txqOfs, List.length_take, ub.length_bytes]
              exact not_le.mp part
            · rw [enqueue_stream, enqueue_txqOfs, if_neg (List.cons_ne_nil _ _), frames_singleton,
                stream, List.length_take, ← List.take_eq_take_min]
  | cons first pending =>
      have taken : cl.txQueue cl.txqCur = some first := line.waiting.head
      rw [if_neg (List.cons_ne_nil _ _)] at stream
      rw [ubusMsgSend, taken, Option.isNone_some, if_neg Bool.false_ne_true, Accepts,
        if_neg (List.cons_ne_nil _ _)]
      refine ⟨fun room => ?_, fun full => line.waiting.enqueue_full full ub⟩
      have waiting := line.waiting.enqueue room ub
      have inside : cl.txqOfs ≤ (frames (first :: pending)).length := by
        have begun := line.begun first rfl
        rw [frames_cons, List.length_append]
        omega
      refine ⟨first :: pending ++ [ub], waiting, ?_, whole, ?_, ?_⟩
      · rintro _ ⟨rfl⟩
        rw [enqueue_txqOfs]
        exact line.begun first rfl
      · rw [same, List.append_assoc]
      · rw [enqueue_stream, enqueue_txqOfs, if_neg (List.append_ne_nil_of_left_ne_nil (List.cons_ne_nil _ _) _),
          frames_append, List.take_append_of_le_length inside, stream]

/-- The first message is out. -/
theorem Line.dequeue {whole : List MsgBuf} (waiting : Waiting cl (ub :: pending))
    (same : accepted = whole ++ ub :: pending) (stream : cl.stream = frames (whole ++ [ub])) :
    Line accepted (ubusMsgDequeue cl) pending := by
  have taken : cl.txQueue cl.txqCur = some ub := waiting.head
  refine ⟨waiting.dequeue, ?_, whole ++ [ub], ?_, ?_⟩
  · intro next _
    rw [ubusMsgDequeue, taken, Option.isNone_some, if_neg Bool.false_ne_true, next.length_bytes]
    exact (show 0 < sizeofHdr by decide).trans_le (Nat.le_add_left _ _)
  · rw [same, List.append_assoc]
    rfl
  · rw [ubusMsgDequeue, taken, Option.isNone_some, if_neg Bool.false_ne_true, ite_self,
      List.take_zero, List.append_nil]
    exact stream

/-- The socket is ready. -/
theorem Line.transmit (rooms : List Room) (line : Line accepted cl pending)
    (ran : transmit rooms cl = some cl') : ∃ pending', Line accepted cl' pending' := by
  induction rooms generalizing cl pending with
  | nil =>
      obtain rfl := Option.some.inj ran
      exact ⟨pending, line⟩
  | cons room rooms ih =>
      rw [Socket.transmit, line.waiting.head] at ran
      cases pending with
      | nil =>
          obtain rfl := Option.some.inj ran
          exact ⟨[], line⟩
      | cons ub pending =>
          rw [List.head?_cons] at ran
          dsimp only at ran
          rw [ubusMsgWritev_eq] at ran
          have begun := line.begun ub rfl
          obtain ⟨whole, same, stream⟩ := line.done
          rw [if_neg (List.cons_ne_nil _ _), frames_cons, List.take_append_of_le_length begun.le]
            at stream
          cases room with
          | again =>
              obtain rfl := Option.some.inj ran
              exact ⟨ub :: pending, line⟩
          | broken => cases ran
          | bytes count =>
              simp only [Room.write] at ran
              have written : cl.stream ++ (ub.bytes.drop cl.txqOfs).take count =
                  frames whole ++ ub.bytes.take (cl.txqOfs + count) := by
                rw [stream, List.append_assoc, List.take_add]
              have length : ((ub.bytes.drop cl.txqOfs).take count).length =
                  min count (ub.bytes.length - cl.txqOfs) := by
                rw [List.length_take, List.length_drop]
              rw [written, length, ← ub.length_bytes] at ran
              split at ran
              · rename_i part
                obtain rfl := Option.some.inj ran
                refine ⟨ub :: pending, ⟨line.waiting.fills, line.waiting.tail⟩, ?_, whole, same, ?_⟩
                · rintro _ ⟨rfl⟩
                  exact part
                · rw [if_neg (List.cons_ne_nil _ _), frames_cons,
                    List.take_append_of_le_length part.le]
                  refine congrArg _ (List.take_eq_take_iff.mpr ?_)
                  omega
              · -- The message is out.
                rename_i all
                refine ih (Line.dequeue ?_ same ?_) ran
                · exact ⟨line.waiting.fills, line.waiting.tail⟩
                · rw [frames_append, frames_singleton, List.take_of_length_le (by omega)]

/-! ### Runs -/

/-- The messages of some events that are not left out: a message is left out while the ring is full,
and if the socket has no room for it while nothing waits. -/
inductive Kept : Client → List Event → List MsgBuf → Prop
  | nil (cl : Client) : Kept cl [] []
  | taken {cl : Client} {ub : MsgBuf} {room : Room} {pending messages : List MsgBuf}
      {events : List Event} (waiting : Waiting cl pending) (accepts : Accepts pending room)
      (rest : Kept (ubusMsgSend room cl ub) events messages) :
      Kept cl (.send ub room :: events) (ub :: messages)
  | left {cl : Client} {ub : MsgBuf} {room : Room} {pending messages : List MsgBuf}
      {events : List Event} (waiting : Waiting cl pending) (refuses : ¬ Accepts pending room)
      (rest : Kept cl events messages) : Kept cl (.send ub room :: events) messages
  | ready {cl cl' : Client} {rooms : List Room} {messages : List MsgBuf} {events : List Event}
      (ran : transmit rooms cl = some cl') (rest : Kept cl' events messages) :
      Kept cl (.ready rooms :: events) messages

theorem line_fresh : Line [] Client.fresh [] where
  waiting := ⟨Fifo.fills_nil (by decide) fun _ => rfl, rfl⟩
  begun _ absurd := by cases absurd
  done := ⟨[], rfl, rfl⟩

theorem Line.run (events : List Event) (line : Line accepted cl pending)
    (ran : Run.attempt step cl events = some cl') :
    ∃ messages pending', Kept cl events messages ∧ Line (accepted ++ messages) cl' pending' := by
  induction events generalizing cl accepted pending with
  | nil =>
      obtain rfl := Option.some.inj ran
      exact ⟨[], pending, .nil cl, (List.append_nil accepted).symm ▸ line⟩
  | cons event events ih =>
      obtain ⟨next, stepped, rest⟩ := Option.bind_eq_some_iff.mp ran
      cases event with
      | send ub room =>
          obtain rfl := Option.some.inj stepped
          obtain ⟨taken, left⟩ := line.send ub room
          by_cases accepts : Accepts pending room
          · obtain ⟨pending', sent⟩ := taken accepts
            obtain ⟨messages, last, kept, ended⟩ := ih sent rest
            refine ⟨ub :: messages, last, .taken line.waiting accepts kept, ?_⟩
            rwa [List.append_assoc] at ended
          · rw [left accepts] at rest
            obtain ⟨messages, last, kept, ended⟩ := ih line rest
            exact ⟨messages, last, .left line.waiting accepts kept, ended⟩
      | ready rooms =>
          obtain ⟨pending', sent⟩ := line.transmit rooms stepped
          obtain ⟨messages, last, kept, ended⟩ := ih sent rest
          exact ⟨messages, last, .ready stepped kept, ended⟩

/-- Whatever the socket takes, it has taken the messages that were not left out, whole and in their
order, up to those that wait, of which it may have taken a part of the first. -/
theorem attempt_line (events : List Event)
    (ran : Run.attempt step Client.fresh events = some cl) :
    ∃ messages pending, Kept Client.fresh events messages ∧ Line messages cl pending :=
  line_fresh.run events ran

end Trunk.Ubusd.Socket
