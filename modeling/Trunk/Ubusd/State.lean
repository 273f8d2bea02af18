import Mathlib.Data.UInt
import Mathlib.Logic.Function.Basic
import Trunk.Foundation.Dictionary
import Trunk.Utils.CString

/-! # The state of the bus daemon

The daemons of the system talk to each other through `ubusd`: a client adds objects, calls the
objects of others, subscribes to them, and listens for events. This is the state that the daemon
keeps (`Trunk.Ubusd.Daemon`): the registry of who is there, and the wire, with the buffer `b`, the
counters and the calls of `ubus_msg_send` so far.

Objects, clients and types are found by their identifiers, as in the trees of the source. A
subscription and an event source are told apart by a serial number in place of their address. The
trees of paths and of event patterns are lists in the order of `strcmp`. The library libubox is not
part of the repository: a message is the list of its attributes, and what `blobmsg_parse` finds in a
table is a parameter. Memory never runs out.
-/

namespace Trunk.Ubusd

open CString (ascii)

/-- A string: its bytes before the NUL. -/
abbrev Text := List UInt8

/-- Bytes in the order of `strcmp`. -/
scoped instance byteOrder : LinearOrder UInt8 where
  le_refl := UInt8.le_refl
  le_trans _ _ _ := UInt8.le_trans
  le_antisymm _ _ := UInt8.le_antisymm
  le_total := UInt8.le_total
  lt_iff_le_not_ge first second := by
    rw [UInt8.lt_iff_toNat_lt, UInt8.le_iff_toNat_le, UInt8.le_iff_toNat_le]
    omega
  toDecidableLE := inferInstance

/-- `UBUS_SYSTEM_OBJECT_EVENT`. -/
def ubusSystemObjectEvent : Nat := 1

/-- `UBUS_SYSTEM_OBJECT_MAX`. -/
def ubusSystemObjectMax : Nat := 1024

/-- `enum ubus_msg_type`; `last` stands for all values from `__UBUS_MSG_LAST` on. -/
inductive MsgType where
  | hello
  | status
  | data
  | ping
  | lookup
  | invoke
  | addObject
  | removeObject
  | subscribe
  | unsubscribe
  | notify
  | last
  deriving DecidableEq, Repr

/-- The members of `enum ubus_msg_status` that the daemon answers with. -/
inductive Status where
  | ok
  | invalidCommand
  | invalidArgument
  | notFound
  | permissionDenied
  deriving DecidableEq, Repr

def Status.code : Status → Nat
  | ok => 0
  | invalidCommand => 1
  | invalidArgument => 2
  | notFound => 4
  | permissionDenied => 6

/-- `struct ubus_method`: an attribute of a signature, and whether `blobmsg_check_attr` accepts
it. -/
structure Method where
  name : Text
  data : List UInt8
  valid : Bool
  deriving DecidableEq, Repr

/-- What is in a `UBUS_ATTR_DATA`: bytes of a client, or the table of
`ubusd_create_object_event_msg`. -/
inductive Payload where
  | bytes (bytes : List UInt8)
  | object (id : Nat) (path : Text)
  deriving DecidableEq, Repr

/-- An attribute of a message, as in `enum ubus_msg_attr`. -/
inductive Field where
  | status (code : Nat)
  | objpath (path : Text)
  | objid (id : Nat)
  | method (name : Text)
  | objtype (id : Nat)
  | signature (methods : List Method)
  | data (payload : Payload)
  | target (id : Nat)
  | active (value : Bool)
  | noReply (value : Bool)
  | subscribers (ids : List Nat)
  deriving DecidableEq, Repr

/-- `struct ubus_msghdr` and the attributes behind it. -/
structure Message where
  type : MsgType
  seq : Nat
  peer : Nat
  data : List Field
  deriving DecidableEq, Repr

/-- `struct ubus_subscription`. -/
structure Subscription where
  serial : Nat
  subscriber : Nat
  target : Nat
  deriving DecidableEq, Repr

/-- `struct event_source`. -/
structure EventSource where
  serial : Nat
  obj : Nat
  key : Text
  isPartial : Bool
  deriving DecidableEq, Repr

/-- `struct ubus_object_type`. -/
structure ObjectType where
  refcount : Nat
  methods : List Method
  deriving DecidableEq, Repr

/-- `struct ubus_object`. Its counters `event_seen` and `invoke_seq` are on the wire. -/
structure Object where
  type : Option Nat
  path : Option Text := none
  client : Option Nat := none
  events : List EventSource := []
  subscribers : List Subscription := []
  targetList : List Subscription := []
  deriving DecidableEq, Repr

/-- Who is there: the trees `clients` (with the list `objects` of each), `objects`, `obj_types`,
`path` and `patterns`, the next serial number, and what `/dev/urandom` is going to deliver. -/
structure Registry where
  clients : Nat → Option (List Nat)
  objects : Nat → Option Object
  types : Nat → Option ObjectType
  path : List (Text × Nat)
  patterns : List EventSource
  serial : Nat
  random : List Nat

/-- The buffer `b`, the counters, and the calls of `ubus_msg_send` so far, each with its client. The
counters are kept before their reduction to the width they have in the source. -/
structure Wire where
  b : List Field
  eventSeen : Nat → Nat
  invokeSeq : Nat → Nat
  eventSeq : Nat
  objEventSeq : Nat
  sent : List (Nat × Message)

/-- The daemon. -/
structure Daemon where
  registry : Registry
  wire : Wire

/-- A change of one object. -/
def Registry.modify (registry : Registry) (id : Nat) (change : Object → Object) : Registry :=
  { registry with
    objects := Function.update registry.objects id ((registry.objects id).map change) }

/-- `ubus_alloc_id` with `val` 0: the first number read that the tree takes. The `continue` of its
loop goes on with the condition, which inserts a number below `UBUS_SYSTEM_OBJECT_MAX`, too. -/
def ubusAllocId (used : Nat → Bool) : List Nat → Option Nat × List Nat
  | [] => (none, [])
  | id :: random => if used id then ubusAllocId used random else (some id, random)

/-- `ubus_msg_send`. There is no result where it gets no client. -/
def ubusMsgSend (cl : Option Nat) (ub : Message) (wire : Wire) : Option Wire :=
  cl.map fun cl => { wire with sent := wire.sent ++ [(cl, ub)] }

/-- `ubus_notify_subscription`. -/
def ubusNotifySubscription (registry : Registry) (id : Nat) (wire : Wire) : Option Wire := do
  let obj ← registry.objects id
  let wire := { wire with
    b := [.objid id, .active (!obj.subscribers.isEmpty)]
    invokeSeq := Function.update wire.invokeSeq id (wire.invokeSeq id + 1) }
  ubusMsgSend obj.client ⟨.notify, wire.invokeSeq id % 2 ^ 16, 0, wire.b⟩ wire

/-! ### Events -/

/-- `ubusd_send_event_msg`. The flag says whether the message `*ub` was created; `fill` is what
`fill_cb` puts into the buffer then. -/
def ubusdSendEventMsg (registry : Registry) (cl : Option Nat) (fill : List Field) (id : Nat)
    (ub : Bool) (wire : Wire) : Option (Bool × Wire) := do
  let obj ← registry.objects id
  if obj.client = cl then
    return (ub, wire)
  else if wire.eventSeen id = wire.objEventSeq % 2 ^ 32 then
    return (ub, wire)
  else
    let filled := if ub then wire.b else fill
    -- The first attribute of the buffer is the identifier of the object.
    let wire := { wire with
      eventSeen := Function.update wire.eventSeen id (wire.objEventSeq % 2 ^ 32)
      b := .objid id :: filled.tail
      eventSeq := wire.eventSeq + 1 }
    let wire ← ubusMsgSend obj.client ⟨.invoke, wire.eventSeq % 2 ^ 16, 0, wire.b⟩ wire
    return (true, wire)

/-- The loop of `ubusd_send_event` over the tree of patterns. -/
def sendEventLoop (registry : Registry) (cl : Option Nat) (id : Text) (fill : List Field) :
    List EventSource → Nat → Bool → Wire → Option Wire
  | [], _, _, wire => some wire
  | ev :: patterns, matchLen, ub, wire =>
      let curMatchLen := Dictionary.common id ev.key
      if curMatchLen < matchLen then
        some wire
      else if id = ev.key ∨ ev.isPartial = true ∧ curMatchLen = ev.key.length then do
        let (ub, wire) ← ubusdSendEventMsg registry cl fill ev.obj ub wire
        sendEventLoop registry cl id fill patterns curMatchLen ub wire
      else
        sendEventLoop registry cl id fill patterns curMatchLen ub wire

/-- `ubusd_send_event`. -/
def ubusdSendEvent (registry : Registry) (cl : Option Nat) (id : Text) (fill : List Field)
    (wire : Wire) : Option Wire :=
  sendEventLoop registry cl id fill registry.patterns 0 false
    { wire with objEventSeq := wire.objEventSeq + 1 }

/-- `ubusd_send_obj_event`, of an object with this path. -/
def ubusdSendObjEvent (registry : Registry) (obj : Nat) (path : Text) (add : Bool) (wire : Wire) :
    Option Wire :=
  let id := (if add then "ubus.object.add" else "ubus.object.remove").toList.map ascii
  ubusdSendEvent registry none id [.objid 0, .method id, .data (.object obj path)] wire

/-- Where `avl_insert` puts an event source: behind those with the same pattern. -/
def insertPattern (ev : EventSource) : List EventSource → List EventSource
  | [] => [ev]
  | other :: patterns =>
      if ev.key < other.key then ev :: other :: patterns else other :: insertPattern ev patterns

/-- `ubusd_event_cleanup_object`. -/
def ubusdEventCleanupObject (registry : Registry) (id : Nat) : Registry :=
  match registry.objects id with
  | none => registry
  | some obj =>
      { registry.modify id fun obj => { obj with events := [] } with
        patterns := registry.patterns.filter fun ev => !decide (ev ∈ obj.events) }

/-- What `blobmsg_parse` finds in a table, for `evr_policy` and for `ev_policy`. -/
structure Table where
  pattern : Option Text
  object : Option Nat
  id : Option Text
  data : Option Payload

/-- `ubusd_alloc_event_pattern`. An empty pattern is not partial. -/
def ubusdAllocEventPattern (daemon : Daemon) (cl : Nat) (attr : Table) : Status × Daemon :=
  match attr.object, attr.pattern with
  | some id, some pattern =>
      if id < ubusSystemObjectMax then
        (.permissionDenied, daemon)
      else
        match daemon.registry.objects id with
        | none => (.notFound, daemon)
        | some obj =>
            if obj.client ≠ some cl then
              (.permissionDenied, daemon)
            else
              let isPartial := pattern.getLast? = some (ascii '*')
              let ev : EventSource := {
                serial := daemon.registry.serial
                obj := id
                key := if isPartial then pattern.dropLast else pattern
                isPartial := isPartial }
              (.ok, { daemon with
                registry := { daemon.registry.modify id fun obj =>
                    { obj with events := ev :: obj.events } with
                  patterns := insertPattern ev daemon.registry.patterns
                  serial := daemon.registry.serial + 1 } })
  | _, _ => (.invalidArgument, daemon)

/-- `ubusd_forward_event`. -/
def ubusdForwardEvent (daemon : Daemon) (cl : Nat) (attr : Table) : Option (Status × Daemon) :=
  match attr.id, attr.data with
  | some id, some data =>
      if ("ubus.".toList.map ascii).isPrefixOf id then
        some (.permissionDenied, daemon)
      else do
        let wire ← ubusdSendEvent daemon.registry (some cl) id [.objid 0, .method id, .data data]
          daemon.wire
        return (.ok, { daemon with wire := wire })
  | _, _ => some (.invalidArgument, daemon)

/-- `ubusd_event_recv`: `recv_msg` of the event object. There is no result where it needs a table
and gets no message. -/
def ubusdEventRecv (blobmsg : Payload → Table) (daemon : Daemon) (cl : Nat) (method : Text)
    (msg : Option Payload) : Option (Status × Daemon) :=
  if method = "register".toList.map ascii then
    msg.map fun msg => ubusdAllocEventPattern daemon cl (blobmsg msg)
  else if method = "send".toList.map ascii then
    msg.bind fun msg => ubusdForwardEvent daemon cl (blobmsg msg)
  else
    some (.invalidCommand, daemon)

end Trunk.Ubusd
