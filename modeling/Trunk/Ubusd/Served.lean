import Trunk.Ubusd.Create
import Trunk.Ubusd.Lookup

/-! # Which messages the daemon survives

Four kinds of message make the daemon follow a NULL pointer (`Trunk.Ubusd.Crashes`); a handler
serves every other message of a connected client, and leaves the registry and what the clients know
of it in order (`Trunk.Ubusd.Served`).
-/

namespace Trunk.Ubusd

open CString (ascii)

variable {blobmsg : Payload → Table} {daemon : Daemon} {cl : Nat} {ub : Message} {attr : Attr}
  {ids : List Nat} {crash : Prop} {result : Option (Option Status × Daemon)}

/-- The client asks for a type in its answer, and the new object has none. -/
def CrashesAdd (registry : Registry) (attr : Attr) : Prop :=
  Creates registry attr ∧ attr.signature ≠ none ∧ (objectType registry attr).1 = none

/-- The event object is asked for something that needs a table, and is given none. -/
def CrashesInvoke (attr : Attr) : Prop :=
  attr.objid = some ubusSystemObjectEvent ∧ attr.data = none ∧
    (attr.method = some ("register".toList.map ascii) ∨
      attr.method = some ("send".toList.map ascii))

/-- An object of the client subscribes to the event object. -/
def CrashesSubscribe (registry : Registry) (cl : Nat) (attr : Attr) : Prop :=
  attr.target = some ubusSystemObjectEvent ∧
    ∃ id obj, attr.objid = some id ∧ registry.objects id = some obj ∧ obj.client = some cl

/-- An object with a matching path has no type. -/
def CrashesLookup (registry : Registry) (attr : Attr) : Prop :=
  ∃ id obj key, registry.objects id = some obj ∧ obj.path = some key ∧ Asks attr.objpath key ∧
    obj.type = none

/-- A message that makes the daemon follow a NULL pointer. -/
def Crashes (registry : Registry) (cl : Nat) (ub : Message) : Prop :=
  let attr := ubusParseMsg ub.data
  match ub.type with
  | .addObject => CrashesAdd registry attr
  | .lookup => CrashesLookup registry attr
  | .invoke => CrashesInvoke attr
  | .subscribe => CrashesSubscribe registry cl attr
  | _ => False

/-- A message is served, and what holds between two inputs holds afterwards, or the daemon
crashes. -/
def Served (crash : Prop) (result : Option (Option Status × Daemon)) : Prop :=
  (crash ∧ result = none) ∨
    (¬ crash ∧ ∃ ret daemon, result = some (ret, daemon) ∧ Sound daemon)

theorem served_same (sound : Sound daemon) (safe : ¬ crash) (ret : Option Status) :
    Served crash (some (ret, daemon)) := .inr ⟨safe, ret, daemon, rfl, sound⟩

theorem Sound.say (sound : Sound daemon) (cl : Nat) (message : Message) (b : List Field)
    (other : message.type ≠ .notify ∧ message.type ≠ .unsubscribe) :
    Sound { daemon with
      wire := { daemon.wire with b := b, sent := daemon.wire.sent ++ [(cl, message)] } } :=
  sound.quiet (quiet_send daemon.wire cl message b other)

/-- An object with a client is not the event object. -/
theorem Sound.ne_event (sound : Sound daemon) {id : Nat} {obj : Object}
    (found : daemon.registry.objects id = some obj) (client : obj.client = some cl) :
    id ≠ ubusSystemObjectEvent := by
  rintro rfl
  obtain rfl := Option.some.inj (found.symm.trans sound.wf.owned.event)
  cases client

theorem served_sendPong (sound : Sound daemon) :
    Served False (ubusdSendPong daemon cl ub) := by
  refine .inr ⟨not_false, some .ok, _, rfl, ?_⟩
  exact sound.say cl { ub with type := .data } daemon.wire.b
    ⟨MsgType.noConfusion, MsgType.noConfusion⟩

theorem served_removeObject (sound : Sound daemon) :
    Served False (ubusdHandleRemoveObject daemon cl ub attr) := by
  rw [ubusdHandleRemoveObject]
  cases attr.objid with
  | none => exact served_same sound not_false _
  | some id =>
      dsimp only
      cases found : daemon.registry.objects id with
      | none => exact served_same sound not_false _
      | some obj =>
          dsimp only
          split
          · exact served_same sound not_false _
          · rename_i own
            have filled := sound.quiet (quiet_buffer daemon.wire
              (.objid id :: ((lastOfType daemon.registry obj).map Field.objtype).toList))
            obtain ⟨wire, freed, left, _⟩ :=
              ubusdFreeObject_sound filled found (not_ne_iff.mp own)
            refine .inr ⟨not_false, some .ok, _, ?_, left.say cl
              ⟨.data, ub.seq, ub.peer, wire.b⟩ wire.b
              ⟨MsgType.noConfusion, MsgType.noConfusion⟩⟩
            rw [freed]
            rfl

theorem served_addObject (sound : Sound daemon) (known : daemon.registry.clients cl = some ids) :
    Served (CrashesAdd daemon.registry attr) (ubusdHandleAddObject daemon cl ub attr) := by
  rw [ubusdHandleAddObject, CrashesAdd]
  rcases ubusdCreateObject_sound sound known attr with
    ⟨fails, random, wire, made, quiet⟩ | ⟨creates, id, random, types, wire, made, sound', _, _⟩
  · refine .inr ⟨fun crash => fails crash.1, some .invalidArgument,
      ⟨{ daemon.registry with random := random }, wire⟩, ?_, ?_⟩
    · rw [made]
      rfl
    · exact ⟨⟨sound.wf.owned, sound.wf.pathed, sound.wf.sourced, sound.wf.linked, sound.wf.counted⟩,
        sound.watched.quiet quiet, quiet.behind sound.behind⟩
  · let obj : Object := {
      type := (objectType daemon.registry attr).1
      path := attr.objpath
      client := some cl }
    have found : (daemon.registry.create id cl (objectType daemon.registry attr).1 attr.objpath random
        types).objects id = some obj := Function.update_self ..
    simp only [made, Option.bind_eq_bind, Option.bind_some, found]
    cases signature : attr.signature with
    | none =>
        refine .inr ⟨fun crash => crash.2.1 rfl, some .ok, _, rfl, ?_⟩
        exact sound'.say cl ⟨.data, ub.seq, ub.peer, [.objid id]⟩ [.objid id]
          ⟨MsgType.noConfusion, MsgType.noConfusion⟩
    | some sig =>
        have own : obj.type = (objectType daemon.registry attr).1 := rfl
        cases held : (objectType daemon.registry attr).1 with
        | none =>
            rw [held] at own
            exact .inl ⟨⟨creates, Option.some_ne_none sig, rfl⟩, by
              simp only [own, Option.map_none, Option.bind_none]⟩
        | some type =>
            rw [held] at own sound'
            refine .inr ⟨fun crash => (Option.some_ne_none type) crash.2.2, some .ok, _, ?_,
              sound'.say cl ⟨.data, ub.seq, ub.peer, [.objid id, .objtype type]⟩
                [.objid id, .objtype type] ⟨MsgType.noConfusion, MsgType.noConfusion⟩⟩
            simp only [own, Option.map_some, Option.bind_some, ubusSendMsgFromBlob, ubusMsgSend,
              Option.pure_def]

/-- An object is described if it has a type. -/
theorem described_eq_none_iff (sound : Sound daemon) {id : Nat} {obj : Object}
    (found : daemon.registry.objects id = some obj) :
    described daemon.registry id = none ↔ obj.type = none := by
  rw [described, found, Option.bind_eq_bind, Option.bind_some]
  cases held : obj.type with
  | none => exact iff_of_true rfl rfl
  | some type =>
      have counted := sound.wf.counted.count type
      cases known : daemon.registry.types type with
      | none =>
          rw [known, Option.map_none, Option.getD_none, eq_comm,
            Set.ncard_eq_zero (holders_finite sound.wf.counted type)] at counted
          exact absurd (show id ∈ holders daemon.registry.objects type from ⟨obj, found, held⟩)
            (counted ▸ Set.notMem_empty id)
      | some known' =>
          simp only [Option.bind_eq_bind, Option.bind_some, known, Option.pure_def, reduceCtorEq]

theorem served_lookup (sound : Sound daemon) :
    Served (CrashesLookup daemon.registry attr) (ubusdHandleLookup daemon cl ub attr) := by
  have mem_iff : ∀ key id, (key, id) ∈ matched daemon.registry attr.objpath ↔
      (∃ obj, daemon.registry.objects id = some obj ∧ obj.path = some key) ∧
        Asks attr.objpath key := by
    intro key id
    rw [matched, List.mem_filter, decide_eq_true_iff, sound.wf.pathed.mem_iff]
  have crash_iff : CrashesLookup daemon.registry attr ↔
      ∃ entry ∈ matched daemon.registry attr.objpath, described daemon.registry entry.2 = none := by
    constructor
    · rintro ⟨id, obj, key, found, path, asks, untyped⟩
      refine ⟨(key, id), (mem_iff key id).mpr ⟨⟨obj, found, path⟩, asks⟩, ?_⟩
      rwa [described_eq_none_iff sound found]
    · rintro ⟨⟨key, id⟩, member, undescribed⟩
      obtain ⟨⟨obj, found, path⟩, asks⟩ := (mem_iff key id).mp member
      rw [described_eq_none_iff sound found] at undescribed
      exact ⟨id, obj, key, found, path, asks, undescribed⟩
  rcases @ubusdHandleLookup_eq daemon cl ub attr sound.wf.pathed.sorted with
    ⟨some, failed⟩ | ⟨all, b, served⟩
  · exact .inl ⟨crash_iff.mpr some, failed⟩
  · refine .inr ⟨?_, _, _, served, ?_⟩
    · rw [crash_iff]
      rintro ⟨entry, member, none⟩
      exact all entry member none
    · refine sound.quiet ⟨⟨_, rfl, fun message member => ?_⟩, id⟩
      obtain ⟨entry, _, rfl⟩ := List.mem_map.mp member
      exact ⟨MsgType.noConfusion, MsgType.noConfusion⟩

theorem served_response (sound : Sound daemon) (response : ub.type = .status ∨ ub.type = .data) :
    Served False (ubusdHandleResponse daemon cl ub attr) := by
  rw [ubusdHandleResponse]
  cases attr.objid with
  | none => exact served_same sound not_false _
  | some id =>
      dsimp only
      split
      · exact served_same sound not_false _
      · cases daemon.registry.objects id with
        | none => exact served_same sound not_false _
        | some obj =>
            dsimp only
            split
            · exact served_same sound not_false _
            · refine .inr ⟨not_false, none, _, rfl, ?_⟩
              refine sound.say ub.peer { ub with peer := id } daemon.wire.b ?_
              rcases response with type | type
              · simp only [type, ne_eq, reduceCtorEq, not_false_eq_true, and_self]
              · simp only [type, ne_eq, reduceCtorEq, not_false_eq_true, and_self]

/-- A notice to nobody. -/
theorem ubusNotifySubscription_eq_none {registry : Registry} {id : Nat} {obj : Object} {wire : Wire}
    (found : registry.objects id = some obj) (nobody : obj.client = none) :
    ubusNotifySubscription registry id wire = none := by
  rw [ubusNotifySubscription, found, Option.bind_eq_bind, Option.bind_some, nobody]
  rfl

/-- The event object takes no subscriber. -/
theorem ubusSubscribe_event (sound : Sound daemon) (id : Nat) :
    ubusSubscribe daemon id ubusSystemObjectEvent = none := by
  have linked : (daemon.registry.subscribe id ubusSystemObjectEvent).objects ubusSystemObjectEvent =
      some (eventObject.link ⟨daemon.registry.serial, id, ubusSystemObjectEvent⟩
        ubusSystemObjectEvent) := by
    rw [subscribe_objects]
    exact congrArg (Option.map _) sound.wf.owned.event
  have told := @ubusNotifySubscription_eq_none _ _ _ daemon.wire linked rfl
  rw [ubusSubscribe, sound.wf.owned.event, Option.bind_eq_bind, Option.bind_some, eventObject,
    List.isEmpty_nil, if_pos rfl]
  exact congrArg (Option.bind · _) told

theorem served_addWatch (sound : Sound daemon) :
    Served (CrashesSubscribe daemon.registry cl attr) (ubusdHandleAddWatch daemon cl attr) := by
  rw [ubusdHandleAddWatch, CrashesSubscribe]
  cases attr.objid with
  | none => exact served_same sound (fun ⟨_, _, _, absurd, _⟩ => by cases absurd) _
  | some id =>
      cases attr.target with
      | none => exact served_same sound (fun crash => by cases crash.1) _
      | some target =>
          dsimp only
          cases found : daemon.registry.objects id with
          | none =>
              refine served_same sound ?_ _
              rintro ⟨_, _, obj, ⟨rfl⟩, found', _⟩
              rw [found] at found'
              cases found'
          | some obj =>
              dsimp only
              split
              · rename_i other
                refine served_same sound ?_ _
                rintro ⟨_, _, obj', ⟨rfl⟩, found', client⟩
                obtain rfl := Option.some.inj (found.symm.trans found')
                exact other client
              · rename_i own
                have client := not_ne_iff.mp own
                cases there : daemon.registry.objects target with
                | none =>
                    refine served_same sound ?_ _
                    rintro ⟨⟨rfl⟩, _⟩
                    rw [sound.wf.owned.event] at there
                    cases there
                | some found' =>
                    dsimp only
                    by_cases same : found'.client = some cl
                    · rw [if_pos same]
                      refine served_same sound ?_ _
                      rintro ⟨⟨rfl⟩, _⟩
                      exact sound.ne_event there same rfl
                    · rw [if_neg same]
                      cases owner : found'.client with
                      | none =>
                          -- Only the event object has no client.
                          have event : target = ubusSystemObjectEvent := by
                            by_contra other
                            obtain ⟨_, _, known, _⟩ :=
                              sound.wf.owned.owner target found' there other
                            rw [owner] at known
                            cases known
                          subst event
                          refine .inl ⟨⟨rfl, id, obj, rfl, found, client⟩, ?_⟩
                          rw [ubusSubscribe_event sound]
                          rfl
                      | some cl' =>
                          have apart : cl ≠ cl' := by
                            rintro rfl
                            exact same owner
                          obtain ⟨wire, subscribed, left⟩ :=
                            ubusSubscribe_sound sound found client there owner apart
                          rw [subscribed]
                          refine .inr ⟨?_, _, _, rfl, left⟩
                          rintro ⟨⟨rfl⟩, _⟩
                          exact sound.ne_event there owner rfl

theorem served_removeWatch (sound : Sound daemon) :
    Served False (ubusdHandleRemoveWatch daemon cl attr) := by
  rw [ubusdHandleRemoveWatch]
  cases attr.objid with
  | none => exact served_same sound not_false _
  | some id =>
      cases attr.target with
      | none => exact served_same sound not_false _
      | some target =>
          dsimp only
          cases found : daemon.registry.objects id with
          | none => exact served_same sound not_false _
          | some obj =>
              dsimp only
              split
              · exact served_same sound not_false _
              · cases listed : obj.targetList.find? fun s => decide (s.target = target) with
                | none => exact served_same sound not_false _
                | some s =>
                    obtain ⟨_, other, known, member⟩ :=
                      (sound.wf.linked.targets id obj found).2 s (List.mem_of_find?_eq_some listed)
                    obtain ⟨wire, gone, left, _⟩ :=
                      ubusUnsubscribe_sound sound ⟨other, known, member⟩
                    dsimp only
                    rw [gone]
                    exact .inr ⟨not_false, _, _, rfl, left⟩

/-- A call is forwarded to the client of an object. -/
theorem ubusdForwardInvoke_eq {registry : Registry} {id cl : Nat} {obj : Object}
    (found : registry.objects id = some obj) (client : obj.client = some cl) (method : Text)
    (ub : Message) (data : Option Payload) (wire : Wire) :
    ubusdForwardInvoke registry id method ub data wire = some { wire with
      b := wire.b ++ [.objid id, .method method] ++ (data.map Field.data).toList
      sent := wire.sent ++ [(cl, ⟨.invoke, ub.seq, ub.peer,
        wire.b ++ [.objid id, .method method] ++ (data.map Field.data).toList⟩)] } := by
  rw [ubusdForwardInvoke, found, Option.bind_eq_bind, Option.bind_some, client]
  rfl

theorem active_register (registry : Registry) (ev : EventSource) (cl other : Nat) :
    Active (registry.register ev).objects cl other ↔ Active registry.objects cl other := by
  have same : ∀ obj, (if other = ev.obj then Object.listen ev obj else obj).client = obj.client ∧
      (if other = ev.obj then Object.listen ev obj else obj).subscribers = obj.subscribers := by
    intro obj
    split
    · exact ⟨rfl, rfl⟩
    · exact ⟨rfl, rfl⟩
  constructor
  · rintro ⟨after, known, client, some⟩
    obtain ⟨before, known', rfl⟩ := modify_eq_some.mp known
    exact ⟨before, known', (same before).1 ▸ client, (same before).2 ▸ some⟩
  · rintro ⟨before, known, client, some⟩
    refine ⟨_, modify_eq_some.mpr ⟨before, known, rfl⟩, ?_, ?_⟩
    · rw [(same before).1, client]
    · rwa [(same before).2]

/-- A pattern is registered, or nothing changes. -/
theorem ubusdAllocEventPattern_sound (sound : Sound daemon) (cl : Nat) (table : Table) :
    Sound (ubusdAllocEventPattern daemon cl table).2 := by
  rw [ubusdAllocEventPattern]
  cases table.object with
  | none => exact sound
  | some id =>
      cases table.pattern with
      | none => exact sound
      | some pattern =>
          dsimp only
          split
          · exact sound
          · cases found : daemon.registry.objects id with
            | none => exact sound
            | some obj =>
                dsimp only
                split
                · exact sound
                · rename_i own
                  let ev : EventSource := {
                    serial := daemon.registry.serial
                    obj := id
                    key := if pattern.getLast? = some (ascii '*') then pattern.dropLast else pattern
                    isPartial := pattern.getLast? = some (ascii '*') }
                  have there : daemon.registry.objects ev.obj = some obj := found
                  exact ⟨sound.wf.register there rfl (sound.ne_event found (not_ne_iff.mp own)),
                    sound.watched.congr (active_register daemon.registry ev), sound.behind⟩

/-- An event of a client is sent on, or nothing changes. -/
theorem ubusdForwardEvent_sound (sound : Sound daemon) (cl : Nat) (table : Table) :
    ∃ status daemon', ubusdForwardEvent daemon cl table = some (status, daemon') ∧
      Sound daemon' := by
  rw [ubusdForwardEvent]
  cases table.id with
  | none => exact ⟨_, _, rfl, sound⟩
  | some name =>
      cases table.data with
      | none => exact ⟨_, _, rfl, sound⟩
      | some data =>
          dsimp only
          split
          · exact ⟨_, _, rfl, sound⟩
          · obtain ⟨wire, sent, quiet⟩ := quiet_ubusdSendEvent sound.wf.sourced.sorted
              sound.wf.reached (some cl) name [.objid 0, .method name, .data data] daemon.wire
            rw [sent]
            exact ⟨_, _, rfl, sound.quiet quiet⟩

/-- The event object answers every call that brings the table that it needs. -/
theorem ubusdEventRecv_sound (sound : Sound daemon) (cl : Nat) (method : Text)
    (msg : Option Payload) :
    (msg = none ∧ (method = "register".toList.map ascii ∨ method = "send".toList.map ascii) ∧
      ubusdEventRecv blobmsg daemon cl method msg = none) ∨
    (¬ (msg = none ∧
        (method = "register".toList.map ascii ∨ method = "send".toList.map ascii)) ∧
      ∃ status daemon', ubusdEventRecv blobmsg daemon cl method msg = some (status, daemon') ∧
        Sound daemon') := by
  rw [ubusdEventRecv]
  by_cases register : method = "register".toList.map ascii
  · rw [if_pos register]
    cases msg with
    | none => exact .inl ⟨rfl, .inl register, rfl⟩
    | some msg =>
        exact .inr ⟨fun absurd => (Option.some_ne_none msg) absurd.1, _, _, rfl,
          ubusdAllocEventPattern_sound sound cl (blobmsg msg)⟩
  · rw [if_neg register]
    by_cases send : method = "send".toList.map ascii
    · rw [if_pos send]
      cases msg with
      | none => exact .inl ⟨rfl, .inr send, rfl⟩
      | some msg =>
          exact .inr ⟨fun absurd => (Option.some_ne_none msg) absurd.1,
            ubusdForwardEvent_sound sound cl (blobmsg msg)⟩
    · rw [if_neg send]
      exact .inr ⟨fun absurd => absurd.2.elim register send, _, _, rfl, sound⟩

theorem served_invoke (sound : Sound daemon) :
    Served (CrashesInvoke attr) (ubusdHandleInvoke blobmsg daemon cl ub attr) := by
  rw [ubusdHandleInvoke, CrashesInvoke]
  cases attr.method with
  | none =>
      refine served_same sound ?_ _
      rintro ⟨_, _, absurd | absurd⟩
      · cases absurd
      · cases absurd
  | some method =>
      cases attr.objid with
      | none => exact served_same sound (fun crash => by cases crash.1) _
      | some id =>
          simp only [Option.some.injEq]
          cases found : daemon.registry.objects id with
          | none =>
              refine served_same sound ?_ _
              rintro ⟨rfl, _⟩
              rw [sound.wf.owned.event] at found
              cases found
          | some obj =>
              dsimp only
              cases client : obj.client with
              | none =>
                  have event : id = ubusSystemObjectEvent := by
                    by_contra other
                    obtain ⟨_, _, known, _⟩ := sound.wf.owned.owner id obj found other
                    rw [client] at known
                    cases known
                  rw [if_pos rfl, if_pos event]
                  rcases @ubusdEventRecv_sound blobmsg _ sound cl method attr.data with
                    ⟨none, asked, crashed⟩ | ⟨safe, status, daemon', ran, left⟩
                  · rw [crashed]
                    exact .inl ⟨⟨event, none, asked⟩, rfl⟩
                  · rw [ran]
                    exact .inr ⟨fun crash => safe crash.2, some status, daemon', rfl, left⟩
              | some owner =>
                  rw [if_neg (Option.some_ne_none owner), ubusdForwardInvoke_eq found client]
                  refine .inr ⟨fun crash => sound.ne_event found client crash.1, none, _, rfl, ?_⟩
                  exact sound.say owner ⟨.invoke, ub.seq, cl, _⟩ _
                    ⟨MsgType.noConfusion, MsgType.noConfusion⟩

/-- A notification is forwarded to every subscriber. -/
theorem quiet_forward {registry : Registry} (subscribers : List Subscription) (method : Text)
    (ub : Message) (data : Option Payload) (b : List Field) (wire : Wire)
    (reached : ∀ s ∈ subscribers, ∃ obj cl, registry.objects s.subscriber = some obj ∧
      obj.client = some cl) :
    ∃ wire', subscribers.foldlM (fun wire s =>
        ubusdForwardInvoke registry s.subscriber method ub data { wire with b := b }) wire =
      some wire' ∧ Quiet wire wire' := by
  induction subscribers generalizing wire with
  | nil => exact ⟨wire, rfl, Quiet.refl wire⟩
  | cons s subscribers ih =>
      obtain ⟨obj, cl, found, client⟩ := reached s (List.mem_cons_self ..)
      rw [List.foldlM_cons, ubusdForwardInvoke_eq found client, Option.bind_eq_bind,
        Option.bind_some]
      obtain ⟨wire', ran, quiet⟩ := ih _ fun other member =>
        reached other (List.mem_cons_of_mem _ member)
      refine ⟨wire', ran, Quiet.trans ?_ quiet⟩
      exact quiet_send wire cl ⟨.invoke, ub.seq, ub.peer, _⟩ _
        ⟨MsgType.noConfusion, MsgType.noConfusion⟩

theorem served_notify (sound : Sound daemon) :
    Served False (ubusdHandleNotify daemon cl ub attr) := by
  rw [ubusdHandleNotify]
  cases attr.method with
  | none => exact served_same sound not_false _
  | some method =>
      cases attr.objid with
      | none => exact served_same sound not_false _
      | some id =>
          dsimp only
          cases found : daemon.registry.objects id with
          | none => exact served_same sound not_false _
          | some obj =>
              dsimp only
              split
              · exact served_same sound not_false _
              · have reached : ∀ s ∈ obj.subscribers, ∃ other cl,
                    daemon.registry.objects s.subscriber = some other ∧ other.client = some cl := by
                  intro s member
                  obtain ⟨_, _, other, known, listed, _⟩ :=
                    (sound.wf.linked.subscribers id obj found).2 s member
                  have notEvent : s.subscriber ≠ ubusSystemObjectEvent := by
                    intro same
                    rw [same] at known
                    obtain rfl := Option.some.inj (known.symm.trans sound.wf.owned.event)
                    cases listed
                  obtain ⟨cl, _, client, _⟩ := sound.wf.owned.owner _ other known notEvent
                  exact ⟨other, cl, known, client⟩
                cases attr.noReply.getD false with
                | true =>
                    obtain ⟨wire, ran, quiet⟩ := quiet_forward obj.subscribers method
                      { ub with peer := cl } attr.data [.noReply true] daemon.wire reached
                    simp only [if_true, Option.bind_eq_bind, Option.bind_some, ran]
                    exact .inr ⟨not_false, none, _, rfl, sound.quiet quiet⟩
                | false =>
                    have told := sound.say cl ⟨.status, ub.seq, ub.peer, [.objid id,
                      .subscribers (obj.subscribers.map Subscription.subscriber), .status 0]⟩
                      [.objid id, .subscribers (obj.subscribers.map Subscription.subscriber),
                        .status 0] ⟨MsgType.noConfusion, MsgType.noConfusion⟩
                    obtain ⟨wire, ran, quiet⟩ := quiet_forward obj.subscribers method
                      { ub with peer := cl } attr.data [] _ reached
                    simp only [Bool.false_eq_true, if_false, ubusSendMsgFromBlob, ubusMsgSend,
                      Option.map_some, Option.bind_eq_bind, Option.bind_some]
                    rw [ran]
                    exact .inr ⟨not_false, none, _, rfl, told.quiet quiet⟩

end Trunk.Ubusd
