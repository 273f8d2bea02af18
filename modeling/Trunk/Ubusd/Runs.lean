import Trunk.Ubusd.Leave

/-! # Runs of the daemon

Clients come and go and send their messages in any order. The daemon crashes on the messages of
`Trunk.Ubusd.Crashes` and on no others (`Trunk.Ubusd.attempt_ne_none_iff_met`), and in every
run that it survives the registry hangs together (`Trunk.Ubusd.Runs.registry_wf`), and every
client knows which of its objects have subscribers (`Trunk.Ubusd.Runs.lastHeard_iff_active`).
-/

namespace Trunk.Ubusd

open CString (ascii)

variable {blobmsg : Payload → Table} {daemon daemon' : Daemon} {cl : Nat} {ub : Message}
  {ids : List Nat}

/-! ### One input -/

theorem served_handler (sound : Sound daemon) (known : daemon.registry.clients cl = some ids) :
    Served (Crashes daemon.registry cl ub) (handler blobmsg daemon cl ub) := by
  rw [Crashes, handler]
  cases type : ub.type with
  | hello => exact served_same sound not_false _
  | status => exact served_response sound (.inl type)
  | data => exact served_response sound (.inr type)
  | ping => exact served_sendPong sound
  | lookup => exact served_lookup sound
  | invoke => exact served_invoke sound
  | addObject => exact served_addObject sound known
  | removeObject => exact served_removeObject sound
  | subscribe => exact served_addWatch sound
  | unsubscribe => exact served_removeWatch sound
  | notify => exact served_notify sound
  | last => exact served_same sound not_false _

/-- The client is sent the status, if the handler did not answer already. -/
def Wire.reply (wire : Wire) (cl : Nat) (ub : Message) : Option Status → Wire
  | none => wire
  | some ret => { wire with
      sent := wire.sent ++ [(cl, ⟨.status, ub.seq, ub.peer, [.status ret.code]⟩)] }

theorem ubusdProtoReceiveMessage_of_some {ret : Option Status}
    (handled : handler blobmsg daemon cl ub = some (ret, daemon')) :
    ubusdProtoReceiveMessage blobmsg daemon cl ub =
      some { daemon' with wire := daemon'.wire.reply cl ub ret } := by
  rw [ubusdProtoReceiveMessage, handled]
  cases ret with
  | none => rfl
  | some ret => rfl

/-- The daemon serves a message, unless it crashes. -/
theorem ubusdProtoReceiveMessage_served (sound : Sound daemon)
    (known : daemon.registry.clients cl = some ids) :
    (Crashes daemon.registry cl ub ∧ ubusdProtoReceiveMessage blobmsg daemon cl ub = none) ∨
    (¬ Crashes daemon.registry cl ub ∧
      ∃ daemon', ubusdProtoReceiveMessage blobmsg daemon cl ub = some daemon' ∧ Sound daemon') := by
  rcases @served_handler blobmsg daemon cl ub ids sound known with
    ⟨crash, failed⟩ | ⟨safe, ret, daemon', handled, kept⟩
  · refine .inl ⟨crash, ?_⟩
    rw [ubusdProtoReceiveMessage, failed]
    rfl
  · refine .inr ⟨safe, _, ubusdProtoReceiveMessage_of_some handled, ?_⟩
    cases ret with
    | none => exact kept
    | some ret =>
        exact kept.say cl ⟨.status, ub.seq, ub.peer, [.status ret.code]⟩ daemon'.wire.b
          ⟨MsgType.noConfusion, MsgType.noConfusion⟩

/-- A new client has no objects. -/
theorem Owned.connect {objects : Nat → Option Object} {clients : Nat → Option (List Nat)}
    (owned : Owned objects clients) (fresh : clients cl = none) :
    Owned objects (Function.update clients cl (some [])) where
  event := owned.event
  owner id obj found other := by
    obtain ⟨cl', ids, client, known, member⟩ := owned.owner id obj found other
    refine ⟨cl', ids, client, ?_, member⟩
    rw [Function.update_of_ne, known]
    rintro rfl
    rw [fresh] at known
    cases known
  listed cl' ids known := by
    rw [Function.update_apply] at known
    split at known
    · obtain rfl := Option.some.inj known
      exact ⟨List.nodup_nil, fun _ member => absurd member List.not_mem_nil⟩
    · exact owned.listed cl' ids known

/-- A client can always connect. -/
theorem ubusdProtoNewClient_sound (sound : Sound daemon) :
    ∃ daemon', ubusdProtoNewClient daemon = some daemon' ∧ Sound daemon' := by
  rw [ubusdProtoNewClient]
  generalize allocated : ubusAllocId (fun id => (daemon.registry.clients id).isSome)
    daemon.registry.random = result
  obtain ⟨place, random⟩ := result
  have wf := sound.wf
  cases place with
  | none =>
      exact ⟨_, rfl, ⟨⟨wf.owned, wf.pathed, wf.sourced, wf.linked, wf.counted⟩, sound.watched,
        sound.behind⟩⟩
  | some id =>
      have fresh : daemon.registry.clients id = none :=
        Option.not_isSome_iff_eq_none.mp (ne_true_of_eq_false (ubusAllocId_fresh allocated))
      have greeted := sound.say id ⟨.hello, 0, id, []⟩ []
        ⟨MsgType.noConfusion, MsgType.noConfusion⟩
      exact ⟨_, rfl, ⟨⟨wf.owned.connect fresh, wf.pathed, wf.sourced, wf.linked, wf.counted⟩,
        greeted.watched, greeted.behind⟩⟩

theorem init_objects {random : List Nat} {id : Nat} {obj : Object}
    (found : (init random).registry.objects id = some obj) :
    id = ubusSystemObjectEvent ∧ obj = eventObject := by
  rw [init, update_eq_some] at found
  rcases found with ⟨rfl, same⟩ | ⟨_, absurd⟩
  · exact ⟨rfl, (Option.some.inj same).symm⟩
  · cases absurd

/-- At first there is the event object only. -/
theorem init_sound (random : List Nat) : Sound (init random) where
  wf := {
    owned := {
      event := @Function.update_self Nat (fun _ => Option Object) _ ubusSystemObjectEvent
        (some eventObject) fun _ => none
      owner := fun id obj found other => absurd (init_objects found).1 other
      listed := fun cl ids absurd => by cases absurd }
    pathed := {
      sorted := List.Pairwise.nil
      mem_iff := fun key id => by
        apply iff_of_false List.not_mem_nil
        rintro ⟨obj, found, path⟩
        rw [(init_objects found).2] at path
        cases path }
    sourced := {
      sorted := List.Pairwise.nil
      nodup := List.nodup_nil
      fresh := fun _ member => absurd member List.not_mem_nil
      mem_iff := fun ev => by
        apply iff_of_false List.not_mem_nil
        rintro ⟨obj, found, member⟩
        rw [(init_objects found).2] at member
        cases member
      own := fun id obj found ev member => by
        rw [(init_objects found).2] at member
        cases member }
    linked := {
      subscribers := fun id obj found => by
        rw [(init_objects found).2]
        exact ⟨List.nodup_nil, fun _ member => absurd member List.not_mem_nil⟩
      targets := fun id obj found => by
        rw [(init_objects found).2]
        exact ⟨List.nodup_nil, fun _ member => absurd member List.not_mem_nil⟩ }
    counted := {
      finite := by
        refine (Set.finite_singleton ubusSystemObjectEvent).subset fun id present => ?_
        obtain ⟨obj, found⟩ := Option.ne_none_iff_exists'.mp present
        exact (init_objects found).1
      count := fun type => by
        have none : holders (init random).registry.objects type = ∅ := by
          refine Set.eq_empty_of_forall_notMem ?_
          rintro id ⟨obj, found, own⟩
          rw [(init_objects found).2] at own
          cases own
        rw [none, Set.ncard_empty]
        rfl
      positive := fun type known absurd => by cases absurd } }
  watched cl id := by
    apply iff_of_false Bool.false_ne_true
    rintro ⟨obj, found, client, _⟩
    rw [(init_objects found).2] at client
    cases client
  behind id := Nat.zero_le _

/-- One input keeps what holds between two inputs. -/
theorem step_sound {input : Input} (sound : Sound daemon) (guard : Input.Known daemon input)
    (stepped : step blobmsg daemon input = some daemon') : Sound daemon' := by
  cases input with
  | connect =>
      obtain ⟨next, connected, kept⟩ := ubusdProtoNewClient_sound sound
      obtain rfl := Option.some.inj (connected.symm.trans stepped)
      exact kept
  | receive cl ub =>
      obtain ⟨ids, known⟩ := Option.ne_none_iff_exists'.mp guard
      rcases @ubusdProtoReceiveMessage_served blobmsg _ cl ub ids sound known with
        ⟨_, failed⟩ | ⟨_, next, received, kept⟩
      · rw [step, failed] at stepped
        cases stepped
      · obtain rfl := Option.some.inj (received.symm.trans stepped)
        exact kept
  | disconnect cl =>
      obtain ⟨ids, known⟩ := Option.ne_none_iff_exists'.mp guard
      obtain ⟨registry, wire, gone, kept, _⟩ := ubusdProtoFreeClient_eq sound known
      obtain rfl := Option.some.inj (gone.symm.trans stepped)
      exact kept

/-- An input crashes the daemon. -/
def Input.Crashes (daemon : Daemon) : Input → Prop
  | connect => False
  | receive cl ub => Ubusd.Crashes daemon.registry cl ub
  | disconnect _ => False

theorem step_eq_none_iff {input : Input} (sound : Sound daemon)
    (guard : Input.Known daemon input) :
    step blobmsg daemon input = none ↔ input.Crashes daemon := by
  cases input with
  | connect =>
      obtain ⟨next, connected, _⟩ := ubusdProtoNewClient_sound sound
      rw [step, connected]
      exact iff_of_false (Option.some_ne_none next) not_false
  | receive cl ub =>
      obtain ⟨ids, known⟩ := Option.ne_none_iff_exists'.mp guard
      rcases @ubusdProtoReceiveMessage_served blobmsg daemon cl ub ids sound known with
        ⟨crash, failed⟩ | ⟨safe, next, received, _⟩
      · exact iff_of_true failed crash
      · rw [step, received]
        exact iff_of_false (Option.some_ne_none next) safe
  | disconnect cl =>
      obtain ⟨ids, known⟩ := Option.ne_none_iff_exists'.mp guard
      obtain ⟨registry, wire, gone, _⟩ := ubusdProtoFreeClient_eq sound known
      rw [step, gone]
      exact iff_of_false (Option.some_ne_none _) not_false

/-! ### A run -/

/-- The table of a registration: the pattern `x*` and the object 3006. -/
def registrationTable : List UInt8 :=
  [0x83, 0, 0, 0x13, 0, 7, 0x70, 0x61, 0x74, 0x74, 0x65, 0x72, 0x6e, 0, 0, 0, 0x78, 0x2a, 0, 0,
    0x85, 0, 0, 0x14, 0, 6, 0x6f, 0x62, 0x6a, 0x65, 0x63, 0x74, 0, 0, 0, 0, 0, 0, 0x0b, 0xbe]

/-- The table of an event: the name `xy` and no data. -/
def eventTable : List UInt8 :=
  [0x83, 0, 0, 0x0f, 0, 2, 0x69, 0x64, 0, 0, 0, 0, 0x78, 0x79, 0, 0,
    0x82, 0, 0, 0x0c, 0, 4, 0x64, 0x61, 0x74, 0x61, 0, 0]

/-- What libubox finds in these two. -/
def tables (payload : Payload) : Table :=
  if payload = .bytes registrationTable then
    { pattern := some ("x*".toList.map ascii), object := some 3006, id := none, data := none }
  else if payload = .bytes eventTable then
    { pattern := none, object := none, id := some ("xy".toList.map ascii), data := some (.bytes []) }
  else
    { pattern := none, object := none, id := none, data := none }

/-- Two clients add an object each. That of the second listens to events, and to the first one. -/
def scenario : List Input :=
  [.connect, .connect,
    .receive 3001 ⟨.addObject, 1, 0, [.objpath [0x61], .signature []]⟩,
    .receive 3002 ⟨.addObject, 1, 0, [.signature []]⟩,
    .receive 3002 ⟨.invoke, 2, 0,
      [.objid 1, .method ("register".toList.map ascii), .data (.bytes registrationTable)]⟩,
    .receive 3002 ⟨.subscribe, 3, 0, [.objid 3006, .target 3004]⟩]

def numbers : List Nat := [3001, 3002, 3003, 3004, 3005, 3006]

theorem scenario_survives : (Run.attempt (step tables) (init numbers) scenario).isSome = true := rfl

/-- The daemon after the scenario. -/
def afterScenario : Daemon :=
  (Run.attempt (step tables) (init numbers) scenario).get scenario_survives

theorem runs_scenario : Runs tables numbers scenario afterScenario where
  left := by
    refine ⟨trivial, trivial, ?_, ?_, ?_, ?_, trivial⟩
    · exact Option.some_ne_none ([] : List Nat)
    · exact Option.some_ne_none ([] : List Nat)
    · exact Option.some_ne_none ([3006] : List Nat)
    · exact Option.some_ne_none ([3006] : List Nat)
  right := (Option.some_get scenario_survives).symm

/-! ### All runs -/

variable {random : List Nat} {inputs : List Input}

theorem Runs.sound (runs : Runs blobmsg random inputs daemon) : Sound daemon :=
  Run.attempt_invariant (fun _ _ _ sound guard stepped => step_sound sound guard stepped) inputs
    (init random) daemon (init_sound random) runs.1 runs.2

/-- The registry hangs together. -/
theorem Runs.registry_wf (runs : Runs blobmsg random inputs daemon) : Wf daemon.registry :=
  runs.sound.wf

theorem registry_wf_scenario : Wf afterScenario.registry := runs_scenario.registry_wf

/-- The last message to a client about the subscribers of one of its objects tells the truth. -/
theorem Runs.lastHeard_iff_active (runs : Runs blobmsg random inputs daemon) (cl id : Nat) :
    lastHeard cl id daemon.wire.sent = true ↔ Active daemon.registry.objects cl id :=
  runs.sound.watched cl id

theorem lastHeard_scenario :
    lastHeard 3001 3004 afterScenario.wire.sent = true ↔ Active afterScenario.registry.objects 3001 3004 :=
  runs_scenario.lastHeard_iff_active 3001 3004

/-- A client that is gone leaves nothing behind, and what the others have stays as it is. -/
theorem Runs.disconnect_leaves_nothing (runs : Runs blobmsg random inputs daemon)
    (known : daemon.registry.clients cl = some ids) :
    ∃ daemon', step blobmsg daemon (.disconnect cl) = some daemon' ∧
      Left daemon.registry ids daemon'.registry ∧
      daemon'.registry.clients = Function.update daemon.registry.clients cl none ∧
      daemon'.wire.sent.filterMap severed =
        daemon.wire.sent.filterMap severed ++ allFarewells daemon.registry.objects ids := by
  obtain ⟨registry, wire, gone, _, left, clients, severs⟩ :=
    ubusdProtoFreeClient_eq runs.sound known
  exact ⟨⟨registry, wire⟩, gone, left, clients, severs⟩

theorem disconnect_scenario :
    ∃ daemon', step tables afterScenario (.disconnect 3001) = some daemon' ∧
      Left afterScenario.registry [3004] daemon'.registry ∧
      daemon'.registry.clients = Function.update afterScenario.registry.clients 3001 none ∧
      daemon'.wire.sent.filterMap severed = afterScenario.wire.sent.filterMap severed ++
        allFarewells afterScenario.registry.objects [3004] :=
  runs_scenario.disconnect_leaves_nothing rfl

-- The subscriber of the object is told.
example : allFarewells afterScenario.registry.objects [3004] = [(3002, 3006, 3004)] := rfl

end Trunk.Ubusd
