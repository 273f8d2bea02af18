import Trunk.Ubusd.Invariant

/-! # Changes of the registry

What keeps each part of the invariant: subscriptions are taken out of the lists of both of their
objects (`Trunk.Ubusd.Linked.without`) or put into them (`Trunk.Ubusd.Linked.link`), an object
without subscriptions comes (`add`) or goes (`drop`), and an event source is registered
(`Trunk.Ubusd.Sourced.register`).
-/

namespace Trunk.Ubusd

variable {objects : Nat → Option Object} {clients : Nat → Option (List Nat)}
  {types : Nat → Option ObjectType} {path : List (Text × Nat)} {patterns : List EventSource}
  {serial id cl : Nat} {obj : Object} {key : Text}

/-! ### The ordered trees -/

theorem mem_insertPath {entry : Text × Nat} :
    entry ∈ insertPath key id path ↔ entry = (key, id) ∨ entry ∈ path := by
  induction path with
  | nil => rw [insertPath, List.mem_singleton, or_iff_left List.not_mem_nil]
  | cons first path ih =>
      rw [insertPath]
      split
      · rw [List.mem_cons]
      · rw [List.mem_cons, ih, List.mem_cons, or_left_comm]

theorem sorted_insertPath (sorted : path.Pairwise fun entry later => entry.1 < later.1)
    (fresh : key ∉ path.map Prod.fst) :
    (insertPath key id path).Pairwise fun entry later => entry.1 < later.1 := by
  induction path with
  | nil => exact List.pairwise_singleton _ _
  | cons first path ih =>
      rw [List.map_cons, List.mem_cons, not_or] at fresh
      rw [insertPath]
      split
      · rename_i before
        rw [List.pairwise_cons]
        refine ⟨?_, sorted⟩
        intro entry member
        rcases List.mem_cons.mp member with rfl | later
        · exact before
        · exact before.trans ((List.pairwise_cons.mp sorted).1 entry later)
      · rename_i before
        rw [List.pairwise_cons] at sorted ⊢
        refine ⟨?_, ih sorted.2 fresh.2⟩
        intro entry member
        rcases mem_insertPath.mp member with rfl | later
        · exact lt_of_le_of_ne (not_lt.mp before) (Ne.symm fresh.1)
        · exact sorted.1 entry later

theorem perm_insertPattern (ev : EventSource) (patterns : List EventSource) :
    (insertPattern ev patterns).Perm (ev :: patterns) := by
  induction patterns with
  | nil => exact List.Perm.refl _
  | cons first patterns ih =>
      rw [insertPattern]
      split
      · exact List.Perm.refl _
      · exact (ih.cons first).trans (List.Perm.swap ev first patterns)

theorem sorted_insertPattern {ev : EventSource}
    (sorted : patterns.Pairwise fun ev later => ev.key ≤ later.key) :
    (insertPattern ev patterns).Pairwise fun ev later => ev.key ≤ later.key := by
  induction patterns with
  | nil => exact List.pairwise_singleton _ _
  | cons first patterns ih =>
      rw [insertPattern]
      split
      · rename_i before
        rw [List.pairwise_cons]
        refine ⟨?_, sorted⟩
        intro other member
        rcases List.mem_cons.mp member with rfl | later
        · exact before.le
        · exact before.le.trans ((List.pairwise_cons.mp sorted).1 other later)
      · rename_i before
        rw [List.pairwise_cons] at sorted ⊢
        refine ⟨?_, ih sorted.2⟩
        intro other member
        rw [(perm_insertPattern ev patterns).mem_iff] at member
        rcases List.mem_cons.mp member with rfl | later
        · exact not_lt.mp before
        · exact sorted.1 other later

/-! ### Subscriptions -/

/-- The object without some subscriptions. -/
def Object.without (gone : Subscription → Bool) (obj : Object) : Object :=
  { obj with
    subscribers := obj.subscribers.filter fun s => !gone s
    targetList := obj.targetList.filter fun s => !gone s }

/-- The registry without some subscriptions. -/
def Registry.without (registry : Registry) (gone : Subscription → Bool) : Registry :=
  { registry with objects := fun id => (registry.objects id).map (Object.without gone) }

theorem Linked.without (linked : Linked objects serial) (gone : Subscription → Bool) :
    Linked (fun id => (objects id).map (Object.without gone)) serial where
  subscribers id obj found := by
    obtain ⟨before, known, rfl⟩ := Option.map_eq_some_iff.mp found
    have old := linked.subscribers id before known
    refine ⟨old.1.filter _, ?_⟩
    intro s member
    rw [Object.without, List.mem_filter] at member
    obtain ⟨target, fresh, other, found', listed, apart⟩ := old.2 s member.1
    refine ⟨target, fresh, other.without gone, ?_, ?_, apart⟩
    · rw [found', Option.map_some]
    · exact List.mem_filter.mpr ⟨listed, member.2⟩
  targets id obj found := by
    obtain ⟨before, known, rfl⟩ := Option.map_eq_some_iff.mp found
    have old := linked.targets id before known
    refine ⟨old.1.filter _, ?_⟩
    intro s member
    rw [Object.without, List.mem_filter] at member
    obtain ⟨subscriber, other, found', listed⟩ := old.2 s member.1
    refine ⟨subscriber, other.without gone, ?_, ?_⟩
    · rw [found', Option.map_some]
    · exact List.mem_filter.mpr ⟨listed, member.2⟩

theorem field_without {α : Type} {read : Object → α} (gone : Subscription → Bool)
    (other : ∀ obj, read (obj.without gone) = read obj) :
    field (fun id => (objects id).map (Object.without gone)) read = field objects read := by
  funext id
  rw [field, field, Option.map_map]
  exact congrFun (congrArg Option.map (funext other)) (objects id)

theorem Wf.without {registry : Registry} (wf : Wf registry) (gone : Subscription → Bool) :
    Wf (registry.without gone) where
  owned := by
    apply wf.owned.congr (field_without gone fun _ => rfl)
    exact congrArg (Option.map (Object.without gone)) wf.owned.event
  pathed := wf.pathed.congr (field_without gone fun _ => rfl)
  sourced := wf.sourced.congr (field_without gone fun _ => rfl) (Nat.le_refl _)
  linked := wf.linked.without gone
  counted := wf.counted.congr (field_without gone fun _ => rfl)

theorem without_objects (registry : Registry) (gone : Subscription → Bool) (id : Nat) :
    (registry.without gone).objects id = (registry.objects id).map (Object.without gone) := rfl

/-- Only the subscriptions that are there matter. -/
theorem Registry.without_congr (registry : Registry) {first second : Subscription → Bool}
    (same : ∀ id obj, registry.objects id = some obj →
      (∀ s ∈ obj.subscribers, first s = second s) ∧ ∀ s ∈ obj.targetList, first s = second s) :
    registry.without first = registry.without second := by
  have objects : (registry.without first).objects = (registry.without second).objects := by
    funext id
    rw [without_objects, without_objects]
    cases found : registry.objects id with
    | none => rfl
    | some obj =>
        have subscribers : (obj.subscribers.filter fun s => !first s) =
            obj.subscribers.filter fun s => !second s :=
          List.filter_congr fun s member => by rw [(same id obj found).1 s member]
        have targets : (obj.targetList.filter fun s => !first s) =
            obj.targetList.filter fun s => !second s :=
          List.filter_congr fun s member => by rw [(same id obj found).2 s member]
        rw [Option.map_some, Option.map_some, Object.without, subscribers, targets, Object.without]
  exact congrArg (fun objects => { registry with objects := objects }) objects

theorem Registry.without_false (registry : Registry) : (registry.without fun _ => false) = registry := by
  have objects : (registry.without fun _ => false).objects = registry.objects := by
    funext id
    rw [without_objects]
    cases registry.objects id with
    | none => rfl
    | some obj =>
        have all : ∀ list : List Subscription, (list.filter fun _ => !false) = list :=
          fun list => List.filter_eq_self.mpr fun _ _ => rfl
        rw [Option.map_some, Object.without, all, all]
  exact congrArg (fun objects => { registry with objects := objects }) objects

theorem Object.without_without (obj : Object) (first second : Subscription → Bool) :
    (obj.without first).without second = obj.without fun s => first s || second s := by
  simp only [Object.without, List.filter_filter, Bool.not_or, Bool.and_comm]

theorem Registry.without_without (registry : Registry) (first second : Subscription → Bool) :
    (registry.without first).without second =
      registry.without fun s => first s || second s := by
  simp only [Registry.without, Option.map_map, Function.comp_def, Object.without_without]

/-- One object is changed. -/
theorem modify_objects (registry : Registry) (id other : Nat) (change : Object → Object) :
    (registry.modify id change).objects other =
      if other = id then (registry.objects other).map change else registry.objects other := by
  by_cases same : other = id
  · subst same
    exact (Function.update_self ..).trans (if_pos rfl).symm
  · exact (Function.update_of_ne same ..).trans (if_neg same).symm

/-! ### Event sources -/

theorem field_modify {α : Type} {read : Object → α} (change : Object → Object)
    (registry : Registry) (id : Nat) (other : ∀ obj, read (change obj) = read obj) :
    field (registry.modify id change).objects read = field registry.objects read := by
  funext place
  rw [field, field, modify_objects]
  split
  · rw [Option.map_map]
    exact congrFun (congrArg Option.map (funext other)) (registry.objects place)
  · rfl

theorem modify_eq_some {registry : Registry} {change : Object → Object} {place : Nat}
    {found : Object} :
    (registry.modify id change).objects place = some found ↔
      ∃ before, registry.objects place = some before ∧
        found = if place = id then change before else before := by
  rw [modify_objects]
  split
  · rw [Option.map_eq_some_iff]
    exact exists_congr fun before => and_congr_right fun _ => eq_comm
  · exact ⟨fun known => ⟨found, known, rfl⟩, fun ⟨before, known, same⟩ => same ▸ known⟩

/-- The object with a new event source. -/
def Object.listen (ev : EventSource) (obj : Object) : Object :=
  { obj with events := ev :: obj.events }

/-- An object gets one more event source. -/
def Registry.register (registry : Registry) (ev : EventSource) : Registry :=
  { registry.modify ev.obj (Object.listen ev) with
    patterns := insertPattern ev registry.patterns
    serial := registry.serial + 1 }

theorem Sourced.register {registry : Registry} {ev : EventSource}
    (sourced : Sourced registry.objects registry.patterns registry.serial)
    (found : registry.objects ev.obj = some obj) (fresh : ev.serial = registry.serial) :
    Sourced (registry.register ev).objects (insertPattern ev registry.patterns)
      (registry.serial + 1) where
  sorted := sorted_insertPattern sourced.sorted
  nodup := by
    rw [(perm_insertPattern ev registry.patterns).nodup_iff, List.nodup_cons]
    exact ⟨fun member => absurd fresh (sourced.fresh ev member).ne, sourced.nodup⟩
  fresh other member := by
    rw [(perm_insertPattern ev registry.patterns).mem_iff] at member
    rcases List.mem_cons.mp member with rfl | early
    · rw [fresh]
      exact Nat.lt_succ_self _
    · exact (sourced.fresh other early).trans (Nat.lt_succ_self _)
  mem_iff other := by
    rw [(perm_insertPattern ev registry.patterns).mem_iff, List.mem_cons, sourced.mem_iff]
    constructor
    · rintro (rfl | ⟨before, known, member⟩)
      · refine ⟨_, modify_eq_some.mpr ⟨obj, found, rfl⟩, ?_⟩
        rw [if_pos rfl]
        exact List.mem_cons_self ..
      · refine ⟨_, modify_eq_some.mpr ⟨before, known, rfl⟩, ?_⟩
        split
        · exact List.mem_cons_of_mem _ member
        · exact member
    · rintro ⟨after, known, member⟩
      obtain ⟨before, known', rfl⟩ := modify_eq_some.mp known
      split at member
      · rcases List.mem_cons.mp member with rfl | early
        · exact .inl rfl
        · exact .inr ⟨before, known', early⟩
      · exact .inr ⟨before, known', member⟩
  own place after known other member := by
    obtain ⟨before, known', rfl⟩ := modify_eq_some.mp known
    split at member
    · rename_i here
      rcases List.mem_cons.mp member with rfl | early
      · exact here.symm
      · exact sourced.own place before known' other early
    · exact sourced.own place before known' other member

theorem Linked.modify {registry : Registry} (change : Object → Object)
    (linked : Linked registry.objects serial) (id : Nat)
    (same : ∀ obj, (change obj).subscribers = obj.subscribers ∧
      (change obj).targetList = obj.targetList ∧ (change obj).client = obj.client)
    {serial' : Nat} (later : serial ≤ serial') :
    Linked (registry.modify id change).objects serial' := by
  have kept : ∀ place before, (if place = id then change before else before).subscribers =
        before.subscribers ∧
      (if place = id then change before else before).targetList = before.targetList ∧
      (if place = id then change before else before).client = before.client := by
    intro place before
    split
    · exact same before
    · exact ⟨rfl, rfl, rfl⟩
  constructor
  · intro place after known
    obtain ⟨before, known', rfl⟩ := modify_eq_some.mp known
    rw [(kept place before).1, (kept place before).2.2]
    refine ⟨(linked.subscribers place before known').1, ?_⟩
    intro s member
    obtain ⟨target, early, other, found, listed, apart⟩ :=
      (linked.subscribers place before known').2 s member
    refine ⟨target, early.trans_le later, _, modify_eq_some.mpr ⟨other, found, rfl⟩, ?_, ?_⟩
    · rwa [(kept s.subscriber other).2.1]
    · rwa [(kept s.subscriber other).2.2]
  · intro place after known
    obtain ⟨before, known', rfl⟩ := modify_eq_some.mp known
    rw [(kept place before).2.1]
    refine ⟨(linked.targets place before known').1, ?_⟩
    intro s member
    obtain ⟨subscriber, other, found, listed⟩ := (linked.targets place before known').2 s member
    refine ⟨subscriber, _, modify_eq_some.mpr ⟨other, found, rfl⟩, ?_⟩
    rwa [(kept s.target other).1]

theorem Wf.register {registry : Registry} {ev : EventSource} (wf : Wf registry)
    (found : registry.objects ev.obj = some obj) (fresh : ev.serial = registry.serial)
    (other : ev.obj ≠ ubusSystemObjectEvent) : Wf (registry.register ev) where
  owned := by
    apply wf.owned.congr (field_modify (Object.listen ev) registry ev.obj fun _ => rfl)
    exact (modify_objects ..).trans ((if_neg other.symm).trans wf.owned.event)
  pathed := wf.pathed.congr (field_modify (Object.listen ev) registry ev.obj fun _ => rfl)
  sourced := wf.sourced.register found fresh
  linked := wf.linked.modify (Object.listen ev) ev.obj (fun _ => ⟨rfl, rfl, rfl⟩) (Nat.le_succ _)
  counted := wf.counted.congr (field_modify (Object.listen ev) registry ev.obj fun _ => rfl)

/-! ### A new subscription -/

/-- The object with a new subscription, if it is one of the two. -/
def Object.link (s : Subscription) (id : Nat) (obj : Object) : Object :=
  { obj with
    subscribers := if id = s.target then s :: obj.subscribers else obj.subscribers
    targetList := if id = s.subscriber then s :: obj.targetList else obj.targetList }

theorem Object.link_subscribers (s : Subscription) (id : Nat) (obj : Object) :
    (obj.link s id).subscribers = if id = s.target then s :: obj.subscribers else obj.subscribers :=
  rfl

theorem Object.link_targetList (s : Subscription) (id : Nat) (obj : Object) :
    (obj.link s id).targetList =
      if id = s.subscriber then s :: obj.targetList else obj.targetList := rfl

theorem link_objects (registry : Registry) (s : Subscription) (id : Nat) :
    (registry.link s).objects id = (registry.objects id).map (Object.link s id) := by
  rw [Registry.link, modify_objects, modify_objects]
  by_cases target : id = s.target
  · by_cases subscriber : id = s.subscriber
    · rw [if_pos subscriber, if_pos target, Option.map_map]
      congr 1
      funext obj
      rw [Function.comp_apply, Object.link, if_pos target, if_pos subscriber]
    · rw [if_neg subscriber, if_pos target]
      congr 1
      funext obj
      rw [Object.link, if_pos target, if_neg subscriber]
  · by_cases subscriber : id = s.subscriber
    · rw [if_pos subscriber, if_neg target]
      congr 1
      funext obj
      rw [Object.link, if_neg target, if_pos subscriber]
    · rw [if_neg subscriber, if_neg target]
      cases registry.objects id with
      | none => rfl
      | some obj => rw [Option.map_some, Object.link, if_neg target, if_neg subscriber]

theorem Linked.link {target : Object} {s : Subscription} (linked : Linked objects serial)
    (fresh : s.serial = serial) (subscribing : objects s.subscriber = some obj)
    (found : objects s.target = some target) (apart : obj.client ≠ target.client) :
    Linked (fun id => (objects id).map (Object.link s id)) (serial + 1) := by
  have differ : s.subscriber ≠ s.target := by
    intro same
    rw [same, found] at subscribing
    exact apart (congrArg Object.client (Option.some.inj subscribing)).symm
  have notSubscribed : ∀ id before, objects id = some before → s ∉ before.subscribers := by
    intro id before known member
    have early := ((linked.subscribers id before known).2 s member).2.1
    exact absurd fresh early.ne
  have notTargeted : ∀ id before, objects id = some before → s ∉ before.targetList := by
    intro id before known member
    obtain ⟨_, other, found', listed⟩ := (linked.targets id before known).2 s member
    exact notSubscribed _ _ found' listed
  constructor
  · intro id after known
    obtain ⟨before, known', rfl⟩ := Option.map_eq_some_iff.mp known
    have old := linked.subscribers id before known'
    have kept : ∀ other ∈ before.subscribers, other.target = id ∧ other.serial < serial + 1 ∧
        ∃ owner, (objects other.subscriber).map (Object.link s other.subscriber) = some owner ∧
          other ∈ owner.targetList ∧ owner.client ≠ before.client := by
      intro other member
      obtain ⟨place, early, owner, found', listed, apart'⟩ := old.2 other member
      refine ⟨place, early.trans (Nat.lt_succ_self _), owner.link s other.subscriber, ?_, ?_, apart'⟩
      · rw [found', Option.map_some]
      · rw [Object.link_targetList]
        split
        · exact List.mem_cons_of_mem _ listed
        · exact listed
    by_cases here : id = s.target
    · subst here
      obtain rfl := Option.some.inj (known'.symm.trans found)
      simp only [Object.link, if_pos]
      refine ⟨List.nodup_cons.mpr ⟨notSubscribed _ _ known', old.1⟩, ?_⟩
      intro other member
      rcases List.mem_cons.mp member with rfl | earlier
      · refine ⟨rfl, ?_, obj.link other other.subscriber, ?_, ?_, apart⟩
        · rw [fresh]
          exact Nat.lt_succ_self _
        · rw [subscribing, Option.map_some]
        · simp only [Object.link, if_pos, List.mem_cons_self]
      · exact kept other earlier
    · simp only [Object.link, if_neg here]
      exact ⟨old.1, kept⟩
  · intro id after known
    obtain ⟨before, known', rfl⟩ := Option.map_eq_some_iff.mp known
    have old := linked.targets id before known'
    have kept : ∀ other ∈ before.targetList, other.subscriber = id ∧
        ∃ owner, (objects other.target).map (Object.link s other.target) = some owner ∧
          other ∈ owner.subscribers := by
      intro other member
      obtain ⟨place, owner, found', listed⟩ := old.2 other member
      refine ⟨place, owner.link s other.target, ?_, ?_⟩
      · rw [found', Option.map_some]
      · rw [Object.link_subscribers]
        split
        · exact List.mem_cons_of_mem _ listed
        · exact listed
    by_cases here : id = s.subscriber
    · subst here
      simp only [Object.link, if_pos]
      refine ⟨List.nodup_cons.mpr ⟨notTargeted _ _ known', old.1⟩, ?_⟩
      intro other member
      rcases List.mem_cons.mp member with rfl | earlier
      · refine ⟨rfl, target.link other other.target, ?_, ?_⟩
        · rw [found, Option.map_some]
        · simp only [Object.link, if_pos, List.mem_cons_self]
      · exact kept other earlier
    · simp only [Object.link, if_neg here]
      exact ⟨old.1, kept⟩

end Trunk.Ubusd
