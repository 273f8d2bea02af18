import Trunk.Foundation.Run
import Trunk.Ubusd.Objects

/-! # The messages of the clients

The functions of `ubusd_proto.c`: one handler for each type of message, and the daemon as a system
that clients connect to, send messages to and disconnect from (`Trunk.Ubusd.step`). A handler
gives the status that the client is sent, or none where it answers the message itself (-1).
-/

namespace Trunk.Ubusd

open CString (ascii)

/-- `ubus_send_msg_from_blob`: the buffer, with the sequence number and the peer of a message. -/
def ubusSendMsgFromBlob (cl : Option Nat) (ub : Message) (type : MsgType) (wire : Wire) :
    Option Wire :=
  ubusMsgSend cl ⟨type, ub.seq, ub.peer, wire.b⟩ wire

/-- `ubusd_send_pong`. -/
def ubusdSendPong (daemon : Daemon) (cl : Nat) (ub : Message) : Option (Option Status × Daemon) := do
  let wire ← ubusMsgSend (some cl) { ub with type := .data } daemon.wire
  return (some .ok, { daemon with wire := wire })

/-- The reference count of an object's type is 1. -/
def lastOfType (registry : Registry) (obj : Object) : Option Nat := do
  let type ← obj.type
  let known ← registry.types type
  if known.refcount = 1 then some type else none

/-- `ubusd_handle_remove_object`. The buffer is filled before the object is freed, and sent
afterwards. -/
def ubusdHandleRemoveObject (daemon : Daemon) (cl : Nat) (ub : Message) (attr : Attr) :
    Option (Option Status × Daemon) :=
  match attr.objid with
  | none => some (some .invalidArgument, daemon)
  | some id =>
      match daemon.registry.objects id with
      | none => some (some .notFound, daemon)
      | some obj =>
          if obj.client ≠ some cl then
            some (some .permissionDenied, daemon)
          else do
            let b := .objid id :: ((lastOfType daemon.registry obj).map Field.objtype).toList
            let daemon ← ubusdFreeObject { daemon with wire := { daemon.wire with b := b } } id
            let wire ← ubusSendMsgFromBlob (some cl) ub .data daemon.wire
            return (some .ok, { daemon with wire := wire })

/-- `ubusd_handle_add_object`. -/
def ubusdHandleAddObject (daemon : Daemon) (cl : Nat) (ub : Message) (attr : Attr) :
    Option (Option Status × Daemon) := do
  match ← ubusdCreateObject daemon cl attr with
  | (none, daemon) => return (some .invalidArgument, daemon)
  | (some id, daemon) =>
      let obj ← daemon.registry.objects id
      let b ← match attr.signature with
        | none => some [.objid id]
        -- The type is followed without a check.
        | some _ => obj.type.map fun type => [.objid id, .objtype type]
      let wire ← ubusSendMsgFromBlob (some cl) ub .data { daemon.wire with b := b }
      return (some .ok, { daemon with wire := wire })

/-- `ubusd_send_obj`. The type is followed without a check. -/
def ubusdSendObj (registry : Registry) (cl : Nat) (ub : Message) (id : Nat) (wire : Wire) :
    Option Wire := do
  let obj ← registry.objects id
  let type ← obj.type
  let known ← registry.types type
  let b := (obj.path.map Field.objpath).toList ++
    [.objid id, .objtype type, .signature known.methods]
  ubusSendMsgFromBlob (some cl) ub .data { wire with b := b }

/-- The loop of `ubusd_handle_lookup` from the first path that is not in front of the prefix. -/
def lookupLoop (registry : Registry) (cl : Nat) (ub : Message) (objpath : Text) :
    List (Text × Nat) → Bool → Wire → Option (Bool × Wire)
  | [], found, wire => some (found, wire)
  | entry :: path, found, wire =>
      if objpath.isPrefixOf entry.1 then do
        let wire ← ubusdSendObj registry cl ub entry.2 wire
        lookupLoop registry cl ub objpath path true wire
      else
        some (found, wire)

/-- `ubusd_handle_lookup`. An empty path is no pattern. -/
def ubusdHandleLookup (daemon : Daemon) (cl : Nat) (ub : Message) (attr : Attr) :
    Option (Option Status × Daemon) :=
  match attr.objpath with
  | none => do
      let wire ← daemon.registry.path.foldlM
        (fun wire entry => ubusdSendObj daemon.registry cl ub entry.2 wire) daemon.wire
      return (some .ok, { daemon with wire := wire })
  | some objpath =>
      if objpath.getLast? ≠ some (ascii '*') then
        match daemon.registry.path.find? fun entry => decide (entry.1 = objpath) with
        | none => some (some .notFound, daemon)
        | some entry => do
            let wire ← ubusdSendObj daemon.registry cl ub entry.2 daemon.wire
            return (some .ok, { daemon with wire := wire })
      else do
        let objpath := objpath.dropLast
        let (found, wire) ← lookupLoop daemon.registry cl ub objpath
          (daemon.registry.path.dropWhile fun entry => decide (entry.1 < objpath)) false daemon.wire
        return (some (if found then .ok else .notFound), { daemon with wire := wire })

/-- `ubusd_forward_invoke`. -/
def ubusdForwardInvoke (registry : Registry) (id : Nat) (method : Text) (ub : Message)
    (data : Option Payload) (wire : Wire) : Option Wire := do
  let obj ← registry.objects id
  let b := wire.b ++ [.objid id, .method method] ++ (data.map Field.data).toList
  ubusSendMsgFromBlob obj.client ub .invoke { wire with b := b }

/-- `ubusd_handle_invoke`. Only the event object has a `recv_msg`. -/
def ubusdHandleInvoke (blobmsg : Payload → Table) (daemon : Daemon) (cl : Nat) (ub : Message)
    (attr : Attr) : Option (Option Status × Daemon) :=
  match attr.method, attr.objid with
  | some method, some id =>
      match daemon.registry.objects id with
      | none => some (some .notFound, daemon)
      | some obj =>
          if obj.client = none then
            if id = ubusSystemObjectEvent then
              (ubusdEventRecv blobmsg daemon cl method attr.data).map (Prod.map some fun d => d)
            else
              none
          else do
            let wire ← ubusdForwardInvoke daemon.registry id method { ub with peer := cl } attr.data
              { daemon.wire with b := [] }
            return (none, { daemon with wire := wire })
  | _, _ => some (some .invalidArgument, daemon)

/-- `ubusd_handle_notify`. -/
def ubusdHandleNotify (daemon : Daemon) (cl : Nat) (ub : Message) (attr : Attr) :
    Option (Option Status × Daemon) :=
  match attr.method, attr.objid with
  | some method, some id =>
      let noReply := attr.noReply.getD false
      match daemon.registry.objects id with
      | none => some (some .notFound, daemon)
      | some obj =>
          if obj.client ≠ some cl then
            some (some .permissionDenied, daemon)
          else do
            let wire ← if noReply then some daemon.wire else
              ubusSendMsgFromBlob (some cl) ub .status { daemon.wire with
                b := [.objid id, .subscribers (obj.subscribers.map Subscription.subscriber),
                  .status 0] }
            let wire ← obj.subscribers.foldlM (fun wire s =>
              ubusdForwardInvoke daemon.registry s.subscriber method { ub with peer := cl } attr.data
                { wire with b := if noReply then [.noReply true] else [] }) wire
            return (none, { daemon with wire := wire })
  | _, _ => some (some .invalidArgument, daemon)

/-- The attributes without which `ubusd_handle_response` drops a message. -/
def lacking (ub : Message) (attr : Attr) : Bool :=
  (decide (ub.type = .status) && attr.status.isNone) ||
    (decide (ub.type = .data) && attr.data.isNone)

/-- `ubusd_handle_response`. -/
def ubusdHandleResponse (daemon : Daemon) (cl : Nat) (ub : Message) (attr : Attr) :
    Option (Option Status × Daemon) :=
  match attr.objid with
  | none => some (none, daemon)
  | some id =>
      if lacking ub attr then
        some (none, daemon)
      else
        match daemon.registry.objects id with
        | none => some (none, daemon)
        | some obj =>
            if obj.client ≠ some cl ∨ daemon.registry.clients ub.peer = none then
              some (none, daemon)
            else do
              let wire ← ubusMsgSend (some ub.peer) { ub with peer := id } daemon.wire
              return (none, { daemon with wire := wire })

/-- `ubusd_handle_add_watch`. -/
def ubusdHandleAddWatch (daemon : Daemon) (cl : Nat) (attr : Attr) :
    Option (Option Status × Daemon) :=
  match attr.objid, attr.target with
  | some id, some target =>
      match daemon.registry.objects id with
      | none => some (some .notFound, daemon)
      | some obj =>
          if obj.client ≠ some cl then
            some (some .invalidArgument, daemon)
          else
            match daemon.registry.objects target with
            | none => some (some .notFound, daemon)
            | some found =>
                if found.client = some cl then
                  some (some .invalidArgument, daemon)
                else do
                  let daemon ← ubusSubscribe daemon id target
                  return (some .ok, daemon)
  | _, _ => some (some .invalidArgument, daemon)

/-- `ubusd_handle_remove_watch`. -/
def ubusdHandleRemoveWatch (daemon : Daemon) (cl : Nat) (attr : Attr) :
    Option (Option Status × Daemon) :=
  match attr.objid, attr.target with
  | some id, some target =>
      match daemon.registry.objects id with
      | none => some (some .notFound, daemon)
      | some obj =>
          if obj.client ≠ some cl then
            some (some .invalidArgument, daemon)
          else
            match obj.targetList.find? fun s => decide (s.target = target) with
            | none => some (some .notFound, daemon)
            | some s => do
                let daemon ← ubusUnsubscribe daemon s
                return (some .ok, daemon)
  | _, _ => some (some .invalidArgument, daemon)

/-- The table `handlers`. -/
def handler (blobmsg : Payload → Table) (daemon : Daemon) (cl : Nat) (ub : Message) :
    Option (Option Status × Daemon) :=
  let attr := ubusParseMsg ub.data
  match ub.type with
  | .ping => ubusdSendPong daemon cl ub
  | .addObject => ubusdHandleAddObject daemon cl ub attr
  | .removeObject => ubusdHandleRemoveObject daemon cl ub attr
  | .lookup => ubusdHandleLookup daemon cl ub attr
  | .invoke => ubusdHandleInvoke blobmsg daemon cl ub attr
  | .status => ubusdHandleResponse daemon cl ub attr
  | .data => ubusdHandleResponse daemon cl ub attr
  | .subscribe => ubusdHandleAddWatch daemon cl attr
  | .unsubscribe => ubusdHandleRemoveWatch daemon cl attr
  | .notify => ubusdHandleNotify daemon cl ub attr
  | .hello => some (some .invalidCommand, daemon)
  | .last => some (some .invalidCommand, daemon)

/-- `ubusd_proto_receive_message`. -/
def ubusdProtoReceiveMessage (blobmsg : Payload → Table) (daemon : Daemon) (cl : Nat)
    (ub : Message) : Option Daemon := do
  match ← handler blobmsg daemon cl ub with
  | (none, daemon) => return daemon
  | (some ret, daemon) =>
      let wire ← ubusMsgSend (some cl) ⟨.status, ub.seq, ub.peer, [.status ret.code]⟩ daemon.wire
      return { daemon with wire := wire }

/-- `ubusd_proto_new_client`, with `ubusd_send_hello`. -/
def ubusdProtoNewClient (daemon : Daemon) : Option Daemon :=
  match ubusAllocId (fun id => (daemon.registry.clients id).isSome) daemon.registry.random with
  | (none, random) =>
      some { daemon with registry := { daemon.registry with random := random } }
  | (some id, random) => do
      let wire ← ubusMsgSend (some id) ⟨.hello, 0, id, []⟩ { daemon.wire with b := [] }
      return ⟨{ daemon.registry with
        random := random
        clients := Function.update daemon.registry.clients id (some []) }, wire⟩

/-- `ubusd_proto_free_client`. Each object takes itself out of the list of the client, so the loop
goes through the list as it was. -/
def ubusdProtoFreeClient (daemon : Daemon) (cl : Nat) : Option Daemon := do
  let ids ← daemon.registry.clients cl
  let daemon ← ids.foldlM ubusdFreeObject daemon
  return { daemon with
    registry := { daemon.registry with
      clients := Function.update daemon.registry.clients cl none } }

/-- What happens to the daemon: a client connects, sends a message, or is gone. -/
inductive Input where
  | connect
  | receive (cl : Nat) (ub : Message)
  | disconnect (cl : Nat)
  deriving DecidableEq, Repr

/-- The client of an input is connected. -/
def Input.Known (daemon : Daemon) : Input → Prop
  | connect => True
  | receive cl _ => daemon.registry.clients cl ≠ none
  | disconnect cl => daemon.registry.clients cl ≠ none

/-- One input is served. -/
def step (blobmsg : Payload → Table) (daemon : Daemon) : Input → Option Daemon
  | .connect => ubusdProtoNewClient daemon
  | .receive cl ub => ubusdProtoReceiveMessage blobmsg daemon cl ub
  | .disconnect cl => ubusdProtoFreeClient daemon cl

/-- The daemon after `ubusd_obj_init` and `ubusd_proto_init`. -/
def init (random : List Nat) : Daemon where
  registry := {
    clients := fun _ => none
    objects := Function.update (fun _ => none) ubusSystemObjectEvent (some { type := none })
    types := fun _ => none
    path := []
    patterns := []
    serial := 0
    random := random }
  wire := {
    b := [.status 0]
    eventSeen := fun _ => 0
    invokeSeq := fun _ => 0
    eventSeq := 0
    objEventSeq := 1
    sent := [] }

/-- The state of the daemon after some inputs, of clients that are connected, without a crash. -/
def Runs (blobmsg : Payload → Table) (random : List Nat) (inputs : List Input) (daemon : Daemon) :
    Prop :=
  Run.Met (step blobmsg) Input.Known (init random) inputs ∧
    Run.attempt (step blobmsg) (init random) inputs = some daemon

end Trunk.Ubusd
