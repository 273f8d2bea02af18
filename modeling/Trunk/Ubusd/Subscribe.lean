import Trunk.Ubusd.Sound

/-! # Subscriptions come and go

`ubus_subscribe` puts a subscription into the registry (`Trunk.Ubusd.ubusSubscribe_sound`),
`ubus_unsubscribe` and `ubus_notify_unsubscribe` take one out, and only the latter tells the
subscriber (`Trunk.Ubusd.ubusNotifyUnsubscribe_sound`). `ubusd_free_object` does so with all
subscriptions of an object (`Trunk.Ubusd.foldlM_sever`).
-/

namespace Trunk.Ubusd

variable {registry registry' : Registry} {wire : Wire} {daemon : Daemon} {cl cl' id : Nat}
  {obj target : Object} {s : Subscription} {objects : Nat → Option Object}

/-- Where a change of the objects leaves their clients alone, it is their subscribers that count. -/
theorem active_map {change : Nat → Object → Object}
    (client : ∀ id obj, (change id obj).client = obj.client) (cl id : Nat) :
    Active (fun id => (objects id).map (change id)) cl id ↔
      ∃ obj, objects id = some obj ∧ obj.client = some cl ∧ (change id obj).subscribers ≠ [] := by
  simp only [Active, Option.map_eq_some_iff]
  constructor
  · rintro ⟨_, ⟨obj, found, rfl⟩, known, some⟩
    exact ⟨obj, found, (client id obj).symm.trans known, some⟩
  · rintro ⟨obj, found, known, some⟩
    exact ⟨change id obj, ⟨obj, found, rfl⟩, (client id obj).trans known, some⟩

/-! ### A new subscription -/

/-- The registry with a new subscription. -/
def Registry.subscribe (registry : Registry) (obj target : Nat) : Registry :=
  { registry.link ⟨registry.serial, obj, target⟩ with serial := registry.serial + 1 }

theorem subscribe_objects (registry : Registry) (obj target : Nat) :
    (registry.subscribe obj target).objects =
      fun id => (registry.objects id).map (Object.link ⟨registry.serial, obj, target⟩ id) :=
  funext (link_objects registry ⟨registry.serial, obj, target⟩)

theorem field_link {α : Type} {read : Object → α} (s : Subscription)
    (other : ∀ id obj, read (obj.link s id) = read obj) :
    field (fun id => (objects id).map (Object.link s id)) read = field objects read := by
  funext id
  rw [field, field, Option.map_map]
  exact congrFun (congrArg Option.map (funext (other id))) (objects id)

theorem Wf.subscribe {subscriber : Object} {from_ to_ : Nat} (wf : Wf registry)
    (subscribing : registry.objects from_ = some subscriber)
    (found : registry.objects to_ = some target) (apart : subscriber.client ≠ target.client)
    (others : from_ ≠ ubusSystemObjectEvent ∧ to_ ≠ ubusSystemObjectEvent) :
    Wf (registry.subscribe from_ to_) where
  owned := by
    rw [subscribe_objects]
    apply wf.owned.congr (field_link _ fun _ _ => rfl)
    rw [wf.owned.event, Option.map_some, Object.link, if_neg others.2.symm, if_neg others.1.symm]
  pathed := by
    rw [subscribe_objects]
    exact wf.pathed.congr (field_link _ fun _ _ => rfl)
  sourced := by
    rw [subscribe_objects]
    exact wf.sourced.congr (field_link _ fun _ _ => rfl) (Nat.le_succ _)
  linked := by
    rw [subscribe_objects]
    exact wf.linked.link rfl subscribing found apart
  counted := by
    rw [subscribe_objects]
    exact wf.counted.congr (field_link _ fun _ _ => rfl)

theorem ubusSubscribe_sound {subscriber : Object} {from_ to_ : Nat} (sound : Sound daemon)
    (subscribing : daemon.registry.objects from_ = some subscriber)
    (own : subscriber.client = some cl) (found : daemon.registry.objects to_ = some target)
    (owner : target.client = some cl') (apart : cl ≠ cl') :
    ∃ wire, ubusSubscribe daemon from_ to_ = some ⟨daemon.registry.subscribe from_ to_, wire⟩ ∧
      Sound ⟨daemon.registry.subscribe from_ to_, wire⟩ := by
  have clients : subscriber.client ≠ target.client := by
    rw [own, owner]
    exact fun same => apart (Option.some.inj same)
  have notEvent : ∀ {id : Nat} {obj : Object} {cl : Nat}, daemon.registry.objects id = some obj →
      obj.client = some cl → id ≠ ubusSystemObjectEvent := by
    rintro id obj cl found client rfl
    obtain rfl := Option.some.inj (found.symm.trans sound.wf.owned.event)
    cases client
  have wf := sound.wf.subscribe subscribing found clients
    ⟨notEvent subscribing own, notEvent found owner⟩
  have objects := subscribe_objects daemon.registry from_ to_
  have found' : (daemon.registry.subscribe from_ to_).objects to_ =
      some (target.link ⟨daemon.registry.serial, from_, to_⟩ to_) := by
    rw [objects]
    exact congrArg (Option.map _) found
  have subscribed : (target.link ⟨daemon.registry.serial, from_, to_⟩ to_).subscribers =
      ⟨daemon.registry.serial, from_, to_⟩ :: target.subscribers := if_pos rfl
  have elsewhere : ∀ cl'' id', ¬ (cl' = cl'' ∧ to_ = id') →
      (Active (daemon.registry.subscribe from_ to_).objects cl'' id' ↔
        Active daemon.registry.objects cl'' id') := by
    intro cl'' id' other
    rw [objects, @active_map _ (Object.link ⟨daemon.registry.serial, from_, to_⟩) fun _ _ => rfl]
    refine exists_congr fun obj => and_congr_right fun known => and_congr_right fun client => ?_
    rw [Object.link_subscribers, if_neg]
    rintro rfl
    obtain rfl := Option.some.inj (known.symm.trans found)
    exact other ⟨Option.some.inj (owner.symm.trans client), rfl⟩
  rw [ubusSubscribe, found, Option.bind_eq_bind, Option.bind_some]
  split
  · -- The first subscriber.
    refine ⟨daemon.wire.notified cl' to_ true, ?_, wf, ?_, sound.behind⟩
    · have told := ubusNotifySubscription_eq found' owner daemon.wire
      rw [subscribed] at told
      exact congrArg (Option.bind · _) told
    · have told := sound.watched.notified found' owner elsewhere
      rw [subscribed] at told
      exact told
  · rename_i some
    refine ⟨daemon.wire, rfl, wf, sound.watched.congr fun cl'' id' => ?_, sound.behind⟩
    by_cases here : cl' = cl'' ∧ to_ = id'
    · obtain ⟨rfl, rfl⟩ := here
      refine iff_of_true ⟨_, found', owner, ?_⟩ ⟨_, found, owner, ?_⟩
      · rw [subscribed]
        exact List.cons_ne_nil _ _
      · rwa [List.isEmpty_iff] at some
    · exact elsewhere cl'' id' here

/-! ### A subscription that goes -/

/-- The test for one subscription. -/
def only (s other : Subscription) : Bool := decide (other = s)

theorem filter_only_eq_self {list : List Subscription} (absent : s ∉ list) :
    (list.filter fun other => !only s other) = list := by
  rw [List.filter_eq_self]
  intro other member
  rw [only, Bool.not_eq_true', decide_eq_false_iff_not]
  rintro rfl
  exact absent member

theorem unlink_eq (wf : Wf registry) (s : Subscription) :
    registry.unlink s = registry.without (only s) := by
  have objects : (registry.unlink s).objects = (registry.without (only s)).objects := by
    funext id
    rw [Registry.unlink, modify_objects, modify_objects, without_objects]
    cases found : registry.objects id with
    | none => simp only [Option.map_none, ite_self]
    | some obj =>
        have subscribers : id ≠ s.target →
            (obj.subscribers.filter fun other => !only s other) = obj.subscribers :=
          fun other => filter_only_eq_self fun member =>
            other ((wf.linked.subscribers id obj found).2 s member).1.symm
        have targets : id ≠ s.subscriber →
            (obj.targetList.filter fun other => !only s other) = obj.targetList :=
          fun other => filter_only_eq_self fun member =>
            other ((wf.linked.targets id obj found).2 s member).1.symm
        by_cases target : id = s.target
        · by_cases subscriber : id = s.subscriber
          · rw [if_pos subscriber, if_pos target]
            rfl
          · rw [if_neg subscriber, if_pos target, Option.map_some, Option.map_some, Object.without,
              targets subscriber]
            rfl
        · by_cases subscriber : id = s.subscriber
          · rw [if_pos subscriber, if_neg target, Option.map_some, Option.map_some, Object.without,
              subscribers target]
            rfl
          · rw [if_neg subscriber, if_neg target, Option.map_some, Object.without,
              subscribers target, targets subscriber]
  exact congrArg (fun objects => { registry with objects := objects }) objects

/-- A subscription is in the list of its target. -/
def Standing (registry : Registry) (s : Subscription) : Prop :=
  ∃ obj, registry.objects s.target = some obj ∧ s ∈ obj.subscribers

theorem Standing.without (standing : Standing registry s) {gone : Subscription → Bool}
    (kept : gone s = false) : Standing (registry.without gone) s := by
  obtain ⟨obj, found, member⟩ := standing
  refine ⟨obj.without gone, congrArg (Option.map _) found, ?_⟩
  rw [Object.without, List.mem_filter, kept]
  exact ⟨member, rfl⟩

theorem ubusUnsubscribe_sound (sound : Sound daemon) (standing : Standing daemon.registry s) :
    ∃ wire, ubusUnsubscribe daemon s = some ⟨daemon.registry.without (only s), wire⟩ ∧
      Sound ⟨daemon.registry.without (only s), wire⟩ ∧
      wire.sent.filterMap severed = daemon.wire.sent.filterMap severed := by
  obtain ⟨obj, found, member⟩ := standing
  obtain ⟨cl, client⟩ := sound.wf.client_of_subscribers found (List.ne_nil_of_mem member)
  have wf := sound.wf.without (only s)
  have found' : (daemon.registry.without (only s)).objects s.target =
      some (obj.without (only s)) := congrArg (Option.map _) found
  have elsewhere : ∀ cl' id', ¬ (cl = cl' ∧ s.target = id') →
      (Active (daemon.registry.without (only s)).objects cl' id' ↔
        Active daemon.registry.objects cl' id') := by
    intro cl' id' other
    refine (@active_map _ (fun _ => Object.without (only s)) (fun _ _ => rfl) cl' id').trans ?_
    refine exists_congr fun obj' => and_congr_right fun known => and_congr_right fun client' => ?_
    rw [Object.without, filter_only_eq_self]
    intro member'
    have here := ((sound.wf.linked.subscribers id' obj' known).2 s member').1
    rw [← here] at known
    obtain rfl := Option.some.inj (known.symm.trans found)
    exact other ⟨Option.some.inj (client.symm.trans client'), here⟩
  rw [ubusUnsubscribe, unlink_eq sound.wf, found', Option.bind_eq_bind, Option.bind_some]
  split
  · -- The last subscriber.
    rename_i none
    have told := ubusNotifySubscription_eq found' client daemon.wire
    have watched := sound.watched.notified found' client elsewhere
    rw [none] at told watched
    refine ⟨daemon.wire.notified cl s.target false, ?_, ⟨wf, watched, sound.behind⟩, ?_⟩
    · exact congrArg (Option.bind · _) told
    · rw [Wire.notified, List.filterMap_append]
      exact List.append_nil _
  · rename_i some
    refine ⟨daemon.wire, rfl, ⟨wf, sound.watched.congr fun cl' id' => ?_, sound.behind⟩, rfl⟩
    by_cases here : cl = cl' ∧ s.target = id'
    · obtain ⟨rfl, rfl⟩ := here
      refine iff_of_true ⟨_, found', client, ?_⟩ ⟨_, found, client, List.ne_nil_of_mem member⟩
      rwa [List.isEmpty_iff] at some
    · exact elsewhere cl' id' here

/-- The client of an object. -/
def clientOf (objects : Nat → Option Object) (id : Nat) : Nat :=
  ((objects id).bind Object.client).getD 0

theorem ubusNotifyUnsubscribe_sound (sound : Sound daemon) (standing : Standing daemon.registry s) :
    ∃ wire, ubusNotifyUnsubscribe daemon s = some ⟨daemon.registry.without (only s), wire⟩ ∧
      Sound ⟨daemon.registry.without (only s), wire⟩ ∧
      wire.sent.filterMap severed = daemon.wire.sent.filterMap severed ++
        [(clientOf daemon.registry.objects s.subscriber, s.subscriber, s.target)] := by
  obtain ⟨obj, found, member⟩ := standing
  obtain ⟨_, _, other, found', listed, _⟩ := (sound.wf.linked.subscribers _ obj found).2 s member
  have notEvent : s.subscriber ≠ ubusSystemObjectEvent := by
    intro same
    rw [same] at found'
    obtain rfl := Option.some.inj (found'.symm.trans sound.wf.owned.event)
    cases listed
  obtain ⟨cl, _, client, _⟩ := sound.wf.owned.owner _ other found' notEvent
  have known : clientOf daemon.registry.objects s.subscriber = cl := by
    rw [clientOf, found', Option.bind_some, client, Option.getD_some]
  let told : Wire := { daemon.wire with
    b := [.objid s.subscriber, .target s.target]
    invokeSeq := Function.update daemon.wire.invokeSeq s.subscriber
      (daemon.wire.invokeSeq s.subscriber + 1)
    sent := daemon.wire.sent ++ [(cl, ⟨.unsubscribe,
      (daemon.wire.invokeSeq s.subscriber + 1) % 2 ^ 16, 0,
      [.objid s.subscriber, .target s.target]⟩)] }
  have still : Sound { daemon with wire := told } := by
    refine ⟨sound.wf, fun cl' id' => ?_, sound.behind⟩
    rw [lastHeard_append, heard, if_neg fun both => MsgType.noConfusion both.2, Option.getD_none]
    exact sound.watched cl' id'
  obtain ⟨wire, ran, kept, severs⟩ := ubusUnsubscribe_sound still ⟨obj, found, member⟩
  refine ⟨wire, ?_, kept, ?_⟩
  · rw [ubusNotifyUnsubscribe, found', Option.bind_eq_bind, Option.bind_some]
    simp only [ubusMsgSend, client, Option.map_some, Function.update_self, Option.bind_eq_bind,
      Option.bind_some]
    exact ran
  · rw [severs, known]
    exact List.filterMap_append

/-- Taking out several subscriptions one after the other takes out all of them. -/
theorem foldlM_sever {op : Daemon → Subscription → Option Daemon}
    {tells : (Nat → Option Object) → Subscription → List (Nat × Nat × Nat)}
    (same : ∀ (registry : Registry) gone s,
      tells (registry.without gone).objects s = tells registry.objects s)
    (each : ∀ daemon s, Sound daemon → Standing daemon.registry s →
      ∃ wire, op daemon s = some ⟨daemon.registry.without (only s), wire⟩ ∧
        Sound ⟨daemon.registry.without (only s), wire⟩ ∧
        wire.sent.filterMap severed =
          daemon.wire.sent.filterMap severed ++ tells daemon.registry.objects s)
    (list : List Subscription) (nodup : list.Nodup) (daemon : Daemon) (sound : Sound daemon)
    (standing : ∀ s ∈ list, Standing daemon.registry s) :
    ∃ wire, list.foldlM op daemon =
        some ⟨daemon.registry.without fun s => decide (s ∈ list), wire⟩ ∧
      Sound ⟨daemon.registry.without fun s => decide (s ∈ list), wire⟩ ∧
      wire.sent.filterMap severed =
        daemon.wire.sent.filterMap severed ++ list.flatMap (tells daemon.registry.objects) := by
  induction list generalizing daemon with
  | nil =>
      have unchanged : (daemon.registry.without fun s => decide (s ∈ [])) = daemon.registry :=
        (daemon.registry.without_congr fun _ _ _ => ⟨fun _ _ => rfl, fun _ _ => rfl⟩).trans
          daemon.registry.without_false
      rw [unchanged]
      exact ⟨daemon.wire, rfl, sound, (List.append_nil _).symm⟩
  | cons s list ih =>
      rw [List.nodup_cons] at nodup
      obtain ⟨wire, ran, kept, severs⟩ :=
        each daemon s sound (standing s (List.mem_cons_self ..))
      have later : ∀ other ∈ list, Standing (daemon.registry.without (only s)) other := by
        intro other member
        refine (standing other (List.mem_cons_of_mem _ member)).without ?_
        rw [only, decide_eq_false_iff_not]
        rintro rfl
        exact nodup.1 member
      obtain ⟨wire', ran', kept', severs'⟩ := ih nodup.2 ⟨_, wire⟩ kept later
      have both : ((daemon.registry.without (only s)).without fun other => decide (other ∈ list)) =
          daemon.registry.without fun other => decide (other ∈ s :: list) := by
        rw [Registry.without_without]
        congr 1
        funext other
        rw [only, ← Bool.decide_or]
        exact decide_eq_decide.mpr List.mem_cons.symm
      rw [both] at ran' kept'
      refine ⟨wire', ?_, kept', ?_⟩
      · rw [List.foldlM_cons, ran]
        exact ran'
      · have tellsSame : tells (daemon.registry.without (only s)).objects =
            tells daemon.registry.objects := funext fun _ => same ..
        rw [severs', severs, tellsSame, List.flatMap_cons, List.append_assoc]

end Trunk.Ubusd
