import Trunk.Ubusd.Subscribe

/-! # An object is freed

`ubusd_free_object` leaves nothing of an object behind (`Trunk.Ubusd.Registry.drop`): no
subscription, event source or path, and no mention in the list of its client. Every subscriber is
told once (`Trunk.Ubusd.ubusdFreeObject_sound`).
-/

namespace Trunk.Ubusd

variable {registry : Registry} {daemon : Daemon} {cl id : Nat} {obj : Object} {s : Subscription}
  {types : Nat → Option ObjectType}

/-- A subscription of an object or to it. -/
def involves (id : Nat) (s : Subscription) : Bool :=
  decide (s.subscriber = id) || decide (s.target = id)

/-- The types when one of them is referred to once less. -/
def unref (types : Nat → Option ObjectType) (type : Nat) : Nat → Option ObjectType :=
  match types type with
  | none => types
  | some known => Function.update types type
      (if 1 < known.refcount then some { known with refcount := known.refcount - 1 } else none)

theorem ubusUnrefObjectType_eq (registry : Registry) (type : Nat) :
    ubusUnrefObjectType registry type = { registry with types := unref registry.types type } := by
  rw [ubusUnrefObjectType, unref]
  cases registry.types type with
  | none => rfl
  | some known => rfl

/-- The registry without an object. -/
def Registry.drop (registry : Registry) (id : Nat) (obj : Object) : Registry :=
  { registry with
    objects := Function.update (registry.without (involves id)).objects id none
    path := registry.path.filter fun entry => !decide (entry.2 = id)
    patterns := registry.patterns.filter fun ev => !decide (ev ∈ obj.events)
    clients := match obj.client with
      | none => registry.clients
      | some cl => Function.update registry.clients cl
          ((registry.clients cl).map fun ids => ids.filter fun other => !decide (other = id))
    types := obj.type.elim registry.types (unref registry.types) }

theorem release_eq (found : registry.objects id = some obj) :
    (ubusdEventCleanupObject registry id).release id obj =
      { registry with
        objects := Function.update registry.objects id none
        path := registry.path.filter fun entry => !decide (entry.2 = id)
        patterns := registry.patterns.filter fun ev => !decide (ev ∈ obj.events)
        clients := match obj.client with
          | none => registry.clients
          | some cl => Function.update registry.clients cl
              ((registry.clients cl).map fun ids => ids.filter fun other => !decide (other = id))
        types := obj.type.elim registry.types (unref registry.types) } := by
  simp only [ubusdEventCleanupObject, found, Registry.release, Registry.modify,
    Function.update_idem]
  cases obj.type with
  | none => rfl
  | some type => exact ubusUnrefObjectType_eq ..

/-- What is left of the subscriptions when those of an object and those to it are gone. -/
theorem without_lists (wf : Wf registry) (found : registry.objects id = some obj) :
    ((registry.without fun s => decide (s ∈ obj.targetList)).without fun s =>
      decide (s ∈ obj.subscribers)) = registry.without (involves id) := by
  have from_iff : ∀ s, Standing registry s → (s ∈ obj.targetList ↔ s.subscriber = id) := by
    rintro s ⟨target, known, member⟩
    obtain ⟨_, _, other, known', listed, _⟩ := (wf.linked.subscribers _ target known).2 s member
    constructor
    · exact fun mine => ((wf.linked.targets id obj found).2 s mine).1
    · rintro rfl
      obtain rfl := Option.some.inj (found.symm.trans known')
      exact listed
  have to_iff : ∀ s, Standing registry s → (s ∈ obj.subscribers ↔ s.target = id) := by
    rintro s ⟨target, known, member⟩
    constructor
    · exact fun mine => ((wf.linked.subscribers id obj found).2 s mine).1
    · rintro rfl
      obtain rfl := Option.some.inj (found.symm.trans known)
      exact member
  have all : ∀ s, Standing registry s →
      (decide (s ∈ obj.targetList) || decide (s ∈ obj.subscribers)) = involves id s := by
    intro s standing
    rw [involves, decide_eq_decide.mpr (from_iff s standing),
      decide_eq_decide.mpr (to_iff s standing)]
  rw [Registry.without_without]
  apply registry.without_congr
  intro other owner known
  constructor
  · intro s member
    have here := ((wf.linked.subscribers other owner known).2 s member).1
    exact all s ⟨owner, by rw [here, known], member⟩
  · intro s member
    obtain ⟨_, target, known', listed⟩ := (wf.linked.targets other owner known).2 s member
    exact all s ⟨target, known', listed⟩

/-- No subscription of an object is to itself. -/
theorem subscribers_without_targets (wf : Wf registry) (found : registry.objects id = some obj) :
    (obj.subscribers.filter fun s => !decide (s ∈ obj.targetList)) = obj.subscribers := by
  rw [List.filter_eq_self]
  intro s member
  rw [Bool.not_eq_true', decide_eq_false_iff_not]
  intro both
  obtain ⟨_, _, other, known, _, apart⟩ := (wf.linked.subscribers id obj found).2 s member
  rw [((wf.linked.targets id obj found).2 s both).1, found] at known
  exact apart (congrArg Object.client (Option.some.inj known)).symm

/-- The object itself has no subscriptions left. -/
theorem without_involves_lists (wf : Wf registry) (found : registry.objects id = some obj) :
    (obj.without (involves id)).subscribers = [] ∧ (obj.without (involves id)).targetList = [] := by
  constructor
  · rw [Object.without, List.filter_eq_nil_iff]
    intro s member
    rw [involves, ((wf.linked.subscribers id obj found).2 s member).1, decide_eq_true rfl,
      Bool.or_true]
    exact Bool.false_ne_true
  · rw [Object.without, List.filter_eq_nil_iff]
    intro s member
    rw [involves, ((wf.linked.targets id obj found).2 s member).1, decide_eq_true rfl,
      Bool.true_or]
    exact Bool.false_ne_true

theorem refcount_unref (positive : ∀ type known, types type = some known → 0 < known.refcount)
    (type other : Nat) :
    ((unref types type other).map ObjectType.refcount).getD 0 =
      ((types other).map ObjectType.refcount).getD 0 - if type = other then 1 else 0 := by
  rw [unref]
  by_cases same : type = other
  · subst same
    rw [if_pos rfl]
    cases found : types type with
    | none => simp only [found, Option.map_none, Option.getD_none, Nat.zero_sub]
    | some known =>
        have some := positive type known found
        simp only [Function.update_self, Option.map_some, Option.getD_some]
        split
        · rfl
        · exact (Nat.sub_eq_zero_of_le (by omega)).symm
  · rw [if_neg same, Nat.sub_zero]
    cases types type with
    | none => rfl
    | some known => simp only [Function.update_of_ne (Ne.symm same)]

theorem positive_unref (positive : ∀ type known, types type = some known → 0 < known.refcount)
    (type : Nat) : ∀ other known, unref types type other = some known → 0 < known.refcount := by
  intro other known left
  rw [unref] at left
  cases found : types type with
  | none =>
      rw [found] at left
      exact positive other known left
  | some before =>
      rw [found] at left
      simp only [Function.update_apply] at left
      split at left
      · split at left
        · obtain rfl := Option.some.inj left
          exact Nat.sub_pos_of_lt ‹_›
        · cases left
      · exact positive other known left

theorem Wf.drop (wf : Wf registry) (found : registry.objects id = some obj)
    (client : obj.client = some cl) : Wf (registry.drop id obj) := by
  have left := wf.without (involves id)
  have found' : (registry.without (involves id)).objects id = some (obj.without (involves id)) :=
    congrArg (Option.map _) found
  have none := without_involves_lists wf found
  have sourced := left.sourced.drop found'
  refine ⟨?_, left.pathed.drop id, sourced, left.linked.drop found' none.1 none.2, ?_⟩
  · rw [Registry.drop, client]
    exact left.owned.drop found' client
  · refine left.counted.drop found' (fun type => ?_) ?_
    · have same : (obj.without (involves id)).type = obj.type := rfl
      rw [Registry.drop, same]
      cases obj.type with
      | none =>
          rw [if_neg (Option.some_ne_none type).symm]
          rfl
      | some own =>
          simp only [Option.some.injEq]
          exact refcount_unref wf.counted.positive own type
    · rw [Registry.drop]
      cases obj.type with
      | none => exact wf.counted.positive
      | some own => exact positive_unref wf.counted.positive own

/-- The tree of patterns without those of one object can be walked as before. -/
theorem reached_cleanup (wf : Wf registry) (found : registry.objects id = some obj) :
    Reached (ubusdEventCleanupObject registry id) (ubusdEventCleanupObject registry id).patterns := by
  simp only [ubusdEventCleanupObject, found]
  intro ev member
  obtain ⟨owner, cl, known, client⟩ := wf.reached ev (List.mem_of_mem_filter member)
  by_cases here : ev.obj = id
  · refine ⟨{ owner with events := [] }, cl, ?_, client⟩
    exact (modify_objects ..).trans ((if_pos here).trans (congrArg (Option.map _) known))
  · refine ⟨owner, cl, ?_, client⟩
    exact (modify_objects ..).trans ((if_neg here).trans known)

theorem sorted_cleanup (wf : Wf registry) (id : Nat) :
    (ubusdEventCleanupObject registry id).patterns.Pairwise fun ev later => ev.key ≤ later.key := by
  rw [ubusdEventCleanupObject]
  cases registry.objects id with
  | none => exact wf.sourced.sorted
  | some obj => exact wf.sourced.sorted.filter _

/-- The messages of a freed object to its subscribers. -/
def farewells (objects : Nat → Option Object) (obj : Object) : List (Nat × Nat × Nat) :=
  obj.subscribers.map fun s => (clientOf objects s.subscriber, s.subscriber, s.target)

theorem clientOf_without (registry : Registry) (gone : Subscription → Bool) (id : Nat) :
    clientOf (registry.without gone).objects id = clientOf registry.objects id := by
  rw [clientOf, clientOf, without_objects]
  cases registry.objects id with
  | none => rfl
  | some obj => rfl

theorem ubusdFreeObject_sound (sound : Sound daemon) (found : daemon.registry.objects id = some obj)
    (client : obj.client = some cl) :
    ∃ wire, ubusdFreeObject daemon id = some ⟨daemon.registry.drop id obj, wire⟩ ∧
      Sound ⟨daemon.registry.drop id obj, wire⟩ ∧
      wire.sent.filterMap severed =
        daemon.wire.sent.filterMap severed ++ farewells daemon.registry.objects obj := by
  have targets := sound.wf.linked.targets id obj found
  have subscribers := sound.wf.linked.subscribers id obj found
  -- The subscriptions of the object.
  obtain ⟨wire, ran, kept, severs⟩ := @foldlM_sever ubusUnsubscribe (fun _ _ => [])
    (fun _ _ _ => rfl)
    (fun daemon s sound standing => by
      rw [List.append_nil]
      exact ubusUnsubscribe_sound sound standing)
    obj.targetList targets.1 daemon sound
    (fun s member => by
      obtain ⟨_, target, known, listed⟩ := targets.2 s member
      exact ⟨target, known, listed⟩)
  -- The subscriptions to it.
  have found' : (daemon.registry.without fun s => decide (s ∈ obj.targetList)).objects id =
      some (obj.without fun s => decide (s ∈ obj.targetList)) := congrArg (Option.map _) found
  have list : (obj.without fun s => decide (s ∈ obj.targetList)).subscribers = obj.subscribers :=
    subscribers_without_targets sound.wf found
  obtain ⟨wire', ran', kept', severs'⟩ := @foldlM_sever ubusNotifyUnsubscribe
    (fun objects s => [(clientOf objects s.subscriber, s.subscriber, s.target)])
    (fun registry gone s => by rw [clientOf_without])
    (fun daemon s sound standing => ubusNotifyUnsubscribe_sound sound standing)
    obj.subscribers subscribers.1 _ kept
    (fun s member => by
      refine ⟨_, ?_, list.symm ▸ member⟩
      rw [(subscribers.2 s member).1, found'])
  rw [without_lists sound.wf found] at ran' kept'
  -- The object itself.
  have found'' : (daemon.registry.without (involves id)).objects id =
      some (obj.without (involves id)) := congrArg (Option.map _) found
  have dropped : (ubusdEventCleanupObject (daemon.registry.without (involves id)) id).release id
      (obj.without fun s => decide (s ∈ obj.targetList)) = daemon.registry.drop id obj := by
    have released := release_eq found''
    exact released
  have watched : Watched (daemon.registry.drop id obj) wire'.sent := by
    refine kept'.watched.congr fun cl' other => ?_
    simp only [Active, Registry.drop, update_eq_some, reduceCtorEq, and_false, false_or]
    refine exists_congr fun owner => ?_
    rw [and_assoc]
    refine and_iff_right_of_imp ?_
    rintro ⟨known, _, some⟩ rfl
    obtain rfl := Option.some.inj (known.symm.trans found'')
    exact some (without_involves_lists sound.wf found).1
  have ended : Sound ⟨daemon.registry.drop id obj, wire'⟩ :=
    ⟨sound.wf.drop found client, watched, kept'.behind⟩
  simp only [ubusdFreeObject, found, Option.bind_eq_bind, Option.bind_some, ran, found', list, ran',
    Option.pure_def, dropped]
  rw [severs, List.flatMap_eq_nil_iff.mpr fun _ _ => rfl, List.append_nil] at severs'
  have told : farewells daemon.registry.objects obj = obj.subscribers.flatMap fun s =>
      [(clientOf (daemon.registry.without fun s => decide (s ∈ obj.targetList)).objects s.subscriber,
        s.subscriber, s.target)] := by
    simp only [clientOf_without]
    exact List.map_eq_flatMap
  cases named : obj.path with
  | none =>
      refine ⟨wire', ?_, ended, severs'.trans (congrArg _ told.symm)⟩
      simp only [Object.without, named]
  | some path =>
      obtain ⟨last, sent, quiet⟩ := quiet_ubusdSendEvent (sorted_cleanup kept'.wf id)
        (reached_cleanup kept'.wf found'') none
        ("ubus.object.remove".toList.map CString.ascii)
        [.objid 0, .method ("ubus.object.remove".toList.map CString.ascii),
          .data (.object id path)] wire'
      refine ⟨last, ?_, ended.quiet quiet, ?_⟩
      · simp only [Object.without, named, ubusdSendObjEvent, Bool.false_eq_true, if_false]
        rw [sent, Option.bind_some]
      · rw [quiet.severed, severs', told]

end Trunk.Ubusd
