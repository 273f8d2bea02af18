import Trunk.Ubusd.State

/-! # Objects, their types and their subscriptions

The functions of `ubusd_obj.c`. Where a function sends a message in the middle of its work, the
message is made from the registry as it is then. There is no result where the source follows a
NULL pointer.
-/

namespace Trunk.Ubusd

/-- `ubus_unref_object_type`. -/
def ubusUnrefObjectType (registry : Registry) (type : Nat) : Registry :=
  match registry.types type with
  | none => registry
  | some known =>
      let left := if 1 < known.refcount then some { known with refcount := known.refcount - 1 } else none
      { registry with types := Function.update registry.types type left }

/-- The increment of a reference count. -/
def refObjectType (registry : Registry) (type : Nat) : Registry :=
  { registry with
    types := Function.update registry.types type ((registry.types type).map fun known =>
      { known with refcount := known.refcount + 1 }) }

/-- `ubus_create_obj_type`. A signature with an attribute that is not well formed leaves no type
behind. -/
def ubusCreateObjType (registry : Registry) (sig : List Method) : Option Nat × Registry :=
  match ubusAllocId (fun id => (registry.types id).isSome) registry.random with
  | (none, random) => (none, { registry with random := random })
  | (some id, random) =>
      if sig.all Method.valid then
        (some id, { registry with
          random := random
          types := Function.update registry.types id (some { refcount := 1, methods := sig }) })
      else
        (none, { registry with random := random })

/-- `ubus_get_obj_type`. -/
def ubusGetObjType (registry : Registry) (id : Nat) : Option Nat × Registry :=
  match registry.types id with
  | none => (none, registry)
  | some _ => (some id, refObjectType registry id)

/-- `ubusd_create_object_internal` with `id` 0. -/
def ubusdCreateObjectInternal (registry : Registry) (type : Option Nat) : Option Nat × Registry :=
  match ubusAllocId (fun id => (registry.objects id).isSome) registry.random with
  | (none, random) => (none, { registry with random := random })
  | (some id, random) =>
      let registry := { registry with
        random := random
        objects := Function.update registry.objects id (some { type := type }) }
      (some id, type.elim registry (refObjectType registry))

/-- A subscription is put into the lists of both objects. -/
def Registry.link (registry : Registry) (s : Subscription) : Registry :=
  (registry.modify s.target fun obj => { obj with subscribers := s :: obj.subscribers }).modify
    s.subscriber fun obj => { obj with targetList := s :: obj.targetList }

/-- A subscription is taken out of the lists of both objects. -/
def Registry.unlink (registry : Registry) (s : Subscription) : Registry :=
  (registry.modify s.target fun obj =>
    { obj with subscribers := obj.subscribers.filter fun other => !decide (other = s) }).modify
    s.subscriber fun obj =>
      { obj with targetList := obj.targetList.filter fun other => !decide (other = s) }

/-- `ubus_subscribe`. -/
def ubusSubscribe (daemon : Daemon) (obj target : Nat) : Option Daemon := do
  let found ← daemon.registry.objects target
  let s : Subscription := ⟨daemon.registry.serial, obj, target⟩
  let registry := { daemon.registry.link s with serial := daemon.registry.serial + 1 }
  if found.subscribers.isEmpty then
    let wire ← ubusNotifySubscription registry target daemon.wire
    return ⟨registry, wire⟩
  else
    return ⟨registry, daemon.wire⟩

/-- `ubus_unsubscribe`. -/
def ubusUnsubscribe (daemon : Daemon) (s : Subscription) : Option Daemon := do
  let registry := daemon.registry.unlink s
  let obj ← registry.objects s.target
  if obj.subscribers.isEmpty then
    let wire ← ubusNotifySubscription registry s.target daemon.wire
    return ⟨registry, wire⟩
  else
    return ⟨registry, daemon.wire⟩

/-- `ubus_notify_unsubscribe`. -/
def ubusNotifyUnsubscribe (daemon : Daemon) (s : Subscription) : Option Daemon := do
  let subscriber ← daemon.registry.objects s.subscriber
  let wire := { daemon.wire with
    b := [.objid s.subscriber, .target s.target]
    invokeSeq := Function.update daemon.wire.invokeSeq s.subscriber
      (daemon.wire.invokeSeq s.subscriber + 1) }
  let wire ← ubusMsgSend subscriber.client
    ⟨.unsubscribe, wire.invokeSeq s.subscriber % 2 ^ 16, 0, wire.b⟩ wire
  ubusUnsubscribe { daemon with wire := wire } s

/-- The end of `ubusd_free_object`, from `avl_delete` on. -/
def Registry.release (registry : Registry) (id : Nat) (obj : Object) : Registry :=
  let registry := { registry with
    path := registry.path.filter fun entry => !decide (entry.2 = id)
    clients := match obj.client with
      | none => registry.clients
      | some cl => Function.update registry.clients cl
          ((registry.clients cl).map fun ids => ids.filter fun other => !decide (other = id))
    objects := Function.update registry.objects id none }
  obj.type.elim registry (ubusUnrefObjectType registry)

/-- `ubusd_free_object`. -/
def ubusdFreeObject (daemon : Daemon) (id : Nat) : Option Daemon := do
  let obj ← daemon.registry.objects id
  let daemon ← obj.targetList.foldlM ubusUnsubscribe daemon
  let obj ← daemon.registry.objects id
  let daemon ← obj.subscribers.foldlM ubusNotifyUnsubscribe daemon
  let registry := ubusdEventCleanupObject daemon.registry id
  let wire ← match obj.path with
    | none => some daemon.wire
    | some path => ubusdSendObjEvent registry id path false daemon.wire
  return ⟨registry.release id obj, wire⟩

/-- The parsed attributes of a message: `ubus_parse_msg` leaves the last one of a kind. -/
structure Attr where
  status : Option Nat := none
  objpath : Option Text := none
  objid : Option Nat := none
  method : Option Text := none
  objtype : Option Nat := none
  signature : Option (List Method) := none
  data : Option Payload := none
  target : Option Nat := none
  noReply : Option Bool := none
  deriving DecidableEq, Repr

/-- One attribute is parsed. -/
def Attr.parse (attr : Attr) : Field → Attr
  | .status code => { attr with status := some code }
  | .objpath path => { attr with objpath := some path }
  | .objid id => { attr with objid := some id }
  | .method name => { attr with method := some name }
  | .objtype id => { attr with objtype := some id }
  | .signature methods => { attr with signature := some methods }
  | .data payload => { attr with data := some payload }
  | .target id => { attr with target := some id }
  | .noReply value => { attr with noReply := some value }
  | .active _ => attr
  | .subscribers _ => attr

/-- `ubus_parse_msg`. -/
def ubusParseMsg (msg : List Field) : Attr := msg.foldl Attr.parse {}

/-- Where `avl_insert` puts a new path. -/
def insertPath (key : Text) (id : Nat) : List (Text × Nat) → List (Text × Nat)
  | [] => [(key, id)]
  | entry :: path =>
      if key < entry.1 then (key, id) :: entry :: path else entry :: insertPath key id path

/-- The type of a new object. -/
def objectType (registry : Registry) (attr : Attr) : Option Nat × Registry :=
  match attr.objtype, attr.signature with
  | some type, _ => ubusGetObjType registry type
  | none, some sig => ubusCreateObjType registry sig
  | none, none => (none, registry)

/-- The path of a new object is made known, unless it is taken: `none` in the first place. -/
def registerPath (registry : Registry) (id : Nat) (path : Option Text) (wire : Wire) :
    Option (Option Registry × Wire) :=
  match path with
  | none => some (some registry, wire)
  | some key =>
      if key ∈ registry.path.map Prod.fst then
        some (none, wire)
      else do
        let registry := { registry.modify id fun obj => { obj with path := some key } with
          path := insertPath key id registry.path }
        let wire ← ubusdSendObjEvent registry id key true wire
        return (some registry, wire)

/-- The counters of a new object. -/
def Wire.zero (wire : Wire) (id : Nat) : Wire :=
  { wire with
    eventSeen := Function.update wire.eventSeen id 0
    invokeSeq := Function.update wire.invokeSeq id 0 }

/-- `ubusd_create_object`. -/
def ubusdCreateObject (daemon : Daemon) (cl : Nat) (attr : Attr) :
    Option (Option Nat × Daemon) := do
  let (type, registry) := objectType daemon.registry attr
  let (obj, registry) := ubusdCreateObjectInternal registry type
  let registry := type.elim registry (ubusUnrefObjectType registry)
  match obj with
  | none => return (none, ⟨registry, daemon.wire⟩)
  | some id =>
      match ← registerPath registry id attr.objpath (daemon.wire.zero id) with
      | (none, wire) => return (none, ← ubusdFreeObject ⟨registry, wire⟩ id)
      | (some registry, wire) =>
          let registry := { registry.modify id fun obj => { obj with client := some cl } with
            clients := Function.update registry.clients cl
              ((registry.clients cl).map (id :: ·)) }
          return (some id, ⟨registry, wire⟩)

end Trunk.Ubusd
