import Trunk.Ubusd.Free

/-! # Messages about objects go to their owners

While subscriptions, objects and event sources come and go, the daemon sends messages about objects
to the clients that own them, and no object gets another owner (`Trunk.Ubusd.Decent`).
-/

namespace Trunk.Ubusd

variable {registry registry' : Registry} {daemon daemon' : Daemon}
  {wire wire' wire'' : Wire} {objects objects' objects'' : Nat → Option Object} {cl id : Nat}
  {ub : Message} {attr : Attr} {caller : Option Nat}

/-- The client of an object. -/
def owner (objects : Nat → Option Object) (id : Nat) : Option Nat :=
  (objects id).bind Object.client

/-- A message about an object goes to its owner, in the name of nobody or of the caller. -/
structure Told (objects : Nat → Option Object) (caller : Option Nat) (message : Nat × Message) :
    Prop where
  type : message.2.type = .invoke ∨ message.2.type = .notify ∨ message.2.type = .unsubscribe
  peer : message.2.peer = 0 ∨ some message.2.peer = caller
  owner : ∃ id, (ubusParseMsg message.2.data).objid = some id ∧ owner objects id = some message.1

/-! ### Messages in between -/

/-- Only messages of a kind were sent. -/
def Said (kind : Nat × Message → Prop) (wire wire' : Wire) : Prop :=
  ∃ out, wire'.sent = wire.sent ++ out ∧ ∀ message ∈ out, kind message

variable {kind : Nat × Message → Prop}

theorem Said.of_eq (same : wire'.sent = wire.sent) : Said kind wire wire' :=
  ⟨[], same.trans (List.append_nil _).symm, fun _ member => absurd member List.not_mem_nil⟩

theorem Said.trans (first : Said kind wire wire') (second : Said kind wire' wire'') :
    Said kind wire wire'' := by
  obtain ⟨out, sent, all⟩ := first
  obtain ⟨out', sent', all'⟩ := second
  refine ⟨out ++ out', by rw [sent', sent, List.append_assoc], ?_⟩
  intro message member
  exact (List.mem_append.mp member).elim (all message) (all' message)

theorem Said.mono {other : Nat × Message → Prop} (said : Said kind wire wire')
    (weaker : ∀ message, kind message → other message) : Said other wire wire' := by
  obtain ⟨out, sent, all⟩ := said
  exact ⟨out, sent, fun message member => weaker message (all message member)⟩

theorem said_ubusMsgSend {place : Option Nat}
    (sent : ubusMsgSend place ub wire' = some wire'') (same : wire'.sent = wire.sent)
    (allowed : ∀ cl, place = some cl → kind (cl, ub)) : Said kind wire wire'' := by
  obtain ⟨cl, known, rfl⟩ := Option.map_eq_some_iff.mp sent
  refine ⟨[(cl, ub)], congrArg (· ++ _) same, fun message member => ?_⟩
  rw [List.mem_singleton.mp member]
  exact allowed cl known

/-- No object got another owner. -/
def Keeps (objects objects' : Nat → Option Object) : Prop :=
  ∀ id cl, owner objects' id = some cl → owner objects id = some cl

theorem Keeps.refl (objects : Nat → Option Object) : Keeps objects objects := fun _ _ own => own

theorem Keeps.trans (first : Keeps objects objects') (second : Keeps objects' objects'') :
    Keeps objects objects'' := fun id cl own => first id cl (second id cl own)

theorem Told.mono {message : Nat × Message} (keeps : Keeps objects objects')
    (told : Told objects' caller message) : Told objects caller message where
  type := told.type
  peer := told.peer
  owner := by
    obtain ⟨id, named, own⟩ := told.owner
    exact ⟨id, named, keeps id _ own⟩

theorem keeps_modify (registry : Registry) (id : Nat) {change : Object → Object}
    (same : ∀ obj, (change obj).client = obj.client) :
    Keeps registry.objects (registry.modify id change).objects := by
  intro other cl own
  rw [owner, modify_objects] at own
  rw [owner]
  split at own
  · rwa [Option.bind_map, Function.comp_def, funext same] at own
  · exact own

theorem keeps_update (id : Nat) {entry : Option Object}
    (nobody : entry.bind Object.client = none) : Keeps objects (Function.update objects id entry) := by
  intro other cl own
  rw [owner, Function.update_apply] at own
  split at own
  · rw [nobody] at own
    cases own
  · exact own

/-- The daemon goes on with messages about the objects of their receivers, and gives no object to
another client. -/
structure Decent (objects : Nat → Option Object) (wire : Wire) (daemon : Daemon) : Prop where
  keeps : Keeps objects daemon.registry.objects
  said : Said (Told objects none) wire daemon.wire

theorem Decent.refl (daemon : Daemon) : Decent daemon.registry.objects daemon.wire daemon :=
  ⟨Keeps.refl _, .of_eq rfl⟩

theorem Decent.trans (first : Decent objects wire daemon)
    (second : Decent daemon.registry.objects daemon.wire daemon') : Decent objects wire daemon' where
  keeps := first.keeps.trans second.keeps
  said := first.said.trans (second.said.mono fun _ told => told.mono first.keeps)

/-- The messages of a step of which the registry does not take part. -/
theorem Decent.say (first : Decent objects wire daemon)
    (second : Said (Told daemon.registry.objects none) daemon.wire wire') :
    Decent objects wire { daemon with wire := wire' } :=
  first.trans ⟨Keeps.refl _, second⟩

/-- A part of the registry that says nothing about owners. -/
theorem Decent.edit (first : Decent objects wire daemon)
    (keeps : Keeps daemon.registry.objects registry.objects) :
    Decent objects wire { daemon with registry := registry } :=
  first.trans ⟨keeps, .of_eq rfl⟩

/-! ### Subscriptions and events -/

theorem keeps_link (registry : Registry) (s : Subscription) :
    Keeps registry.objects (registry.link s).objects := by
  have target := @keeps_modify registry s.target
    (fun obj => { obj with subscribers := s :: obj.subscribers }) fun _ => rfl
  exact target.trans (keeps_modify _ s.subscriber fun _ => rfl)

theorem keeps_unlink (registry : Registry) (s : Subscription) :
    Keeps registry.objects (registry.unlink s).objects := by
  have target := @keeps_modify registry s.target
    (fun obj => { obj with
      subscribers := obj.subscribers.filter fun other => !decide (other = s) }) fun _ => rfl
  exact target.trans (keeps_modify _ s.subscriber fun _ => rfl)

theorem ubusNotifySubscription_told
    (sent : ubusNotifySubscription registry id wire = some wire') :
    Said (Told registry.objects none) wire wire' := by
  obtain ⟨obj, found, sent⟩ := Option.bind_eq_some_iff.mp sent
  refine said_ubusMsgSend sent rfl ?_
  intro cl client
  exact ⟨.inr (.inl rfl), .inl rfl, id, rfl, by rw [owner, found, Option.bind_some, client]⟩

theorem ubusdSendEventMsg_told {name : Text} {payload : Payload} {place : Option Nat} {first : Field}
    {ub ub' : Bool} (filled : ub = true → wire.b.tail = [.method name, .data payload])
    (sent : ubusdSendEventMsg registry place [first, .method name, .data payload] id ub wire =
      some (ub', wire')) :
    Said (Told registry.objects none) wire wire' ∧
      (ub' = true → wire'.b.tail = [.method name, .data payload]) := by
  obtain ⟨obj, found, sent⟩ := Option.bind_eq_some_iff.mp sent
  dsimp only at sent
  split at sent
  · obtain ⟨rfl, rfl⟩ := Prod.mk.inj (Option.some.inj sent)
    exact ⟨.of_eq rfl, filled⟩
  · split at sent
    · obtain ⟨rfl, rfl⟩ := Prod.mk.inj (Option.some.inj sent)
      exact ⟨.of_eq rfl, filled⟩
    · have tail : (if ub then wire.b else [first, .method name, .data payload]).tail =
          [.method name, .data payload] := by
        cases ub with
        | false => rfl
        | true => exact filled rfl
      rw [tail] at sent
      obtain ⟨next, said, last⟩ := Option.bind_eq_some_iff.mp sent
      obtain ⟨rfl, rfl⟩ := Prod.mk.inj (Option.some.inj last)
      refine ⟨said_ubusMsgSend said rfl ?_, fun _ => ?_⟩
      · intro cl client
        exact ⟨.inl rfl, .inl rfl, id, rfl, by rw [owner, found, Option.bind_some, client]⟩
      · obtain ⟨_, _, rfl⟩ := Option.map_eq_some_iff.mp said
        rfl

theorem sendEventLoop_told {name key : Text} {payload : Payload} {place : Option Nat} {first : Field}
    {patterns : List EventSource} {matchLen : Nat} {ub : Bool}
    (filled : ub = true → wire.b.tail = [.method name, .data payload])
    (sent : sendEventLoop registry place key [first, .method name, .data payload] patterns matchLen ub
      wire = some wire') :
    Said (Told registry.objects none) wire wire' := by
  induction patterns generalizing matchLen ub wire with
  | nil =>
      obtain rfl := Option.some.inj sent
      exact .of_eq rfl
  | cons ev patterns ih =>
      rw [sendEventLoop] at sent
      dsimp only at sent
      split at sent
      · obtain rfl := Option.some.inj sent
        exact .of_eq rfl
      · split at sent
        · obtain ⟨⟨ub', next⟩, one, rest⟩ := Option.bind_eq_some_iff.mp sent
          obtain ⟨said, filled'⟩ := ubusdSendEventMsg_told filled one
          exact said.trans (ih filled' rest)
        · exact ih filled sent

theorem ubusdSendEvent_told {name key : Text} {payload : Payload} {place : Option Nat}
    (sent : ubusdSendEvent registry place key [.objid 0, .method name, .data payload] wire =
      some wire') :
    Said (Told registry.objects none) wire wire' := by
  have said := sendEventLoop_told (fun absurd => by cases absurd) sent
  exact said

theorem ubusSubscribe_decent {target : Nat} (subscribed : ubusSubscribe daemon id target = some daemon') :
    Decent daemon.registry.objects daemon.wire daemon' := by
  obtain ⟨found, _, subscribed⟩ := Option.bind_eq_some_iff.mp subscribed
  have linked := keeps_link daemon.registry ⟨daemon.registry.serial, id, target⟩
  dsimp only at subscribed
  split at subscribed
  · obtain ⟨wire, sent, last⟩ := Option.bind_eq_some_iff.mp subscribed
    obtain rfl := Option.some.inj last
    exact ⟨linked, (ubusNotifySubscription_told sent).mono fun _ told => told.mono linked⟩
  · obtain rfl := Option.some.inj subscribed
    exact ⟨linked, .of_eq rfl⟩

theorem ubusUnsubscribe_decent {s : Subscription} (gone : ubusUnsubscribe daemon s = some daemon') :
    Decent daemon.registry.objects daemon.wire daemon' := by
  obtain ⟨obj, _, gone⟩ := Option.bind_eq_some_iff.mp gone
  have unlinked := keeps_unlink daemon.registry s
  split at gone
  · obtain ⟨wire, sent, last⟩ := Option.bind_eq_some_iff.mp gone
    obtain rfl := Option.some.inj last
    exact ⟨unlinked, (ubusNotifySubscription_told sent).mono fun _ told => told.mono unlinked⟩
  · obtain rfl := Option.some.inj gone
    exact ⟨unlinked, .of_eq rfl⟩

theorem ubusNotifyUnsubscribe_decent {s : Subscription}
    (gone : ubusNotifyUnsubscribe daemon s = some daemon') :
    Decent daemon.registry.objects daemon.wire daemon' := by
  obtain ⟨subscriber, found, gone⟩ := Option.bind_eq_some_iff.mp gone
  obtain ⟨wire, sent, gone⟩ := Option.bind_eq_some_iff.mp gone
  have said : Said (Told daemon.registry.objects none) daemon.wire wire := by
    refine said_ubusMsgSend sent rfl ?_
    intro cl client
    exact ⟨.inr (.inr rfl), .inl rfl, s.subscriber, rfl, by
      rw [owner, found, Option.bind_some, client]⟩
  exact ((Decent.refl daemon).say said).trans (ubusUnsubscribe_decent gone)

/-! ### Objects -/

theorem keeps_unref (registry : Registry) (type : Nat) :
    (ubusUnrefObjectType registry type).objects = registry.objects := by
  rw [ubusUnrefObjectType_eq]

theorem keeps_release (registry : Registry) (id : Nat) (obj : Object) :
    Keeps registry.objects (registry.release id obj).objects := by
  rw [Registry.release]
  cases obj.type with
  | none => exact keeps_update id rfl
  | some type =>
      rw [Option.elim_some, keeps_unref]
      exact keeps_update id rfl

theorem keeps_cleanup (registry : Registry) (id : Nat) :
    Keeps registry.objects (ubusdEventCleanupObject registry id).objects := by
  rw [ubusdEventCleanupObject]
  cases registry.objects id with
  | none => exact Keeps.refl _
  | some obj => exact keeps_modify registry id fun _ => rfl

theorem ubusdFreeObject_decent (freed : ubusdFreeObject daemon id = some daemon') :
    Decent daemon.registry.objects daemon.wire daemon' := by
  obtain ⟨obj, _, freed⟩ := Option.bind_eq_some_iff.mp freed
  obtain ⟨first, ran, freed⟩ := Option.bind_eq_some_iff.mp freed
  obtain ⟨obj', _, freed⟩ := Option.bind_eq_some_iff.mp freed
  obtain ⟨second, ran', freed⟩ := Option.bind_eq_some_iff.mp freed
  have decent : Decent daemon.registry.objects daemon.wire first :=
    Run.foldlM_invariant (fun _ _ _ _ before gone => before.trans (ubusUnsubscribe_decent gone))
      (Decent.refl daemon) ran
  have decent' : Decent daemon.registry.objects daemon.wire second :=
    Run.foldlM_invariant
      (fun _ _ _ _ before gone => before.trans (ubusNotifyUnsubscribe_decent gone)) decent ran'
  have cleaned := decent'.edit (keeps_cleanup second.registry id)
  dsimp only at freed
  cases named : obj'.path with
  | none =>
      rw [named] at freed
      obtain rfl := Option.some.inj freed
      exact cleaned.edit (keeps_release _ id obj')
  | some path =>
      rw [named] at freed
      obtain ⟨wire, sent, last⟩ := Option.bind_eq_some_iff.mp freed
      obtain rfl := Option.some.inj last
      exact (cleaned.say (ubusdSendEvent_told sent)).edit (keeps_release _ id obj')

theorem objectType_objects (registry : Registry) (attr : Attr) :
    (objectType registry attr).2.objects = registry.objects := by
  rw [objectType]
  cases attr.objtype with
  | some type =>
      dsimp only
      rw [ubusGetObjType]
      cases registry.types type with
      | none => rfl
      | some known => rfl
  | none =>
      cases attr.signature with
      | none => rfl
      | some sig =>
          dsimp only
          rw [ubusCreateObjType]
          generalize ubusAllocId (fun id => (registry.types id).isSome) registry.random = result
          obtain ⟨place, random⟩ := result
          cases place with
          | none => rfl
          | some id =>
              dsimp only
              split
              · rfl
              · rfl

theorem keeps_createInternal (registry : Registry) (type : Option Nat) :
    Keeps registry.objects (ubusdCreateObjectInternal registry type).2.objects := by
  rw [ubusdCreateObjectInternal]
  generalize ubusAllocId (fun id => (registry.objects id).isSome) registry.random = result
  obtain ⟨place, random⟩ := result
  cases place with
  | none => exact Keeps.refl _
  | some id =>
      cases type with
      | none => exact keeps_update id rfl
      | some type => exact keeps_update id rfl

theorem registerPath_told {path : Option Text} {result : Option Registry}
    (registered : registerPath registry id path wire = some (result, wire')) :
    Said (Told registry.objects none) wire wire' := by
  rw [registerPath.eq_def] at registered
  cases path with
  | none =>
      obtain ⟨_, rfl⟩ := Prod.mk.inj (Option.some.inj registered)
      exact .of_eq rfl
  | some key =>
      dsimp only at registered
      split at registered
      · obtain ⟨_, rfl⟩ := Prod.mk.inj (Option.some.inj registered)
        exact .of_eq rfl
      · obtain ⟨next, sent, last⟩ := Option.bind_eq_some_iff.mp registered
        obtain ⟨_, rfl⟩ := Prod.mk.inj (Option.some.inj last)
        have named : Keeps registry.objects
            (registry.modify id fun obj => { obj with path := some key }).objects :=
          keeps_modify registry id fun _ => rfl
        exact Said.mono (ubusdSendEvent_told sent) fun _ told => told.mono named

theorem ubusdCreateObject_told {place : Option Nat}
    (created : ubusdCreateObject daemon cl attr = some (place, daemon')) :
    Said (Told daemon.registry.objects none) daemon.wire daemon'.wire := by
  rw [ubusdCreateObject] at created
  have typed := objectType_objects daemon.registry attr
  generalize objectType daemon.registry attr = result at created typed
  obtain ⟨type, registry⟩ := result
  dsimp only at created typed
  have keeps := keeps_createInternal registry type
  generalize ubusdCreateObjectInternal registry type = result at created keeps
  obtain ⟨obj, registry'⟩ := result
  dsimp only at created keeps
  have same : (type.elim registry' (ubusUnrefObjectType registry')).objects = registry'.objects := by
    cases type with
    | none => rfl
    | some type => exact keeps_unref registry' type
  rw [typed, ← same] at keeps
  generalize type.elim registry' (ubusUnrefObjectType registry') = registry'' at created keeps
  cases obj with
  | none =>
      obtain ⟨_, rfl⟩ := Prod.mk.inj (Option.some.inj created)
      exact .of_eq rfl
  | some id =>
      obtain ⟨⟨named, wire⟩, registered, created⟩ := Option.bind_eq_some_iff.mp created
      have said : Said (Told daemon.registry.objects none) daemon.wire wire :=
        (Said.of_eq rfl : Said _ daemon.wire (daemon.wire.zero id)).trans
          ((registerPath_told registered).mono fun _ told => told.mono keeps)
      cases named with
      | none =>
          obtain ⟨freed, gone, last⟩ := Option.bind_eq_some_iff.mp created
          obtain ⟨_, rfl⟩ := Prod.mk.inj (Option.some.inj last)
          exact said.trans ((ubusdFreeObject_decent gone).said.mono fun _ told => told.mono keeps)
      | some named =>
          obtain ⟨_, rfl⟩ := Prod.mk.inj (Option.some.inj created)
          exact said

end Trunk.Ubusd
