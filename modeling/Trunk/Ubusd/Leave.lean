import Trunk.Ubusd.Served

/-! # A client leaves

When a client is gone, nothing of it is left: no object, path, event source or subscription. The rest
of the registry is as it was (`Trunk.Ubusd.Left`), and of each subscription to one of its objects
the subscriber is told once (`Trunk.Ubusd.ubusdProtoFreeClient_eq`).
-/

namespace Trunk.Ubusd

variable {registry registry' registry'' : Registry} {daemon : Daemon} {cl id : Nat} {obj : Object}
  {ids : List Nat}

/-- A subscription of one of some objects or to one of them. -/
def touches (ids : List Nat) (s : Subscription) : Bool :=
  decide (s.subscriber ∈ ids) || decide (s.target ∈ ids)

/-- What is left of the registry when some objects are gone. -/
structure Left (registry : Registry) (ids : List Nat) (registry' : Registry) : Prop where
  objects : ∀ id, registry'.objects id =
    if id ∈ ids then none else (registry.objects id).map (Object.without (touches ids))
  path : registry'.path = registry.path.filter fun entry => !decide (entry.2 ∈ ids)
  patterns : registry'.patterns = registry.patterns.filter fun ev => !decide (ev.obj ∈ ids)

theorem Left.nil (registry : Registry) : Left registry [] registry where
  objects id := by
    rw [if_neg List.not_mem_nil]
    exact (congrFun (congrArg Registry.objects registry.without_false) id).symm
  path := (List.filter_eq_self.mpr fun _ _ => rfl).symm
  patterns := (List.filter_eq_self.mpr fun _ _ => rfl).symm

/-- One object is gone. -/
theorem Left.drop (wf : Wf registry) (found : registry.objects id = some obj) :
    Left registry [id] (registry.drop id obj) where
  objects other := by
    have same : touches [id] = involves id := by
      funext s
      simp only [touches, involves, List.mem_singleton]
    simp only [Registry.drop, Function.update_apply, List.mem_singleton, same]
    rfl
  path := by simp only [Registry.drop, List.mem_singleton]
  patterns := by
    refine List.filter_congr fun ev member => ?_
    have own : ev ∈ obj.events ↔ ev.obj = id := by
      constructor
      · exact wf.sourced.own id obj found ev
      · rintro rfl
        obtain ⟨owner, known, listed⟩ := (wf.sourced.mem_iff ev).mp member
        obtain rfl := Option.some.inj (found.symm.trans known)
        exact listed
    simp only [own, List.mem_singleton]

theorem Left.trans {others : List Nat} (first : Left registry ids registry')
    (second : Left registry' others registry'') : Left registry (ids ++ others) registry'' where
  objects id := by
    rw [second.objects, first.objects]
    by_cases here : id ∈ others
    · rw [if_pos here, if_pos (List.mem_append_right _ here)]
    · by_cases there : id ∈ ids
      · rw [if_neg here, if_pos there, if_pos (List.mem_append_left _ there), Option.map_none]
      · have both : (fun s => touches ids s || touches others s) = touches (ids ++ others) := by
          funext s
          simp only [touches, List.mem_append, Bool.decide_or]
          cases decide (s.subscriber ∈ ids) <;> cases decide (s.target ∈ ids) <;>
            cases decide (s.subscriber ∈ others) <;> rfl
        rw [if_neg here, if_neg there, if_neg (by rw [List.mem_append, not_or]; exact ⟨there, here⟩),
          Option.map_map, ← both]
        exact congrFun (congrArg Option.map (funext fun obj => obj.without_without ..)) _
  path := by
    rw [second.path, first.path, List.filter_filter]
    refine List.filter_congr fun entry _ => ?_
    simp only [List.mem_append, Bool.decide_or, Bool.not_or, Bool.and_comm]
  patterns := by
    rw [second.patterns, first.patterns, List.filter_filter]
    refine List.filter_congr fun ev _ => ?_
    simp only [List.mem_append, Bool.decide_or, Bool.not_or, Bool.and_comm]

/-- What the subscribers of some objects are told when these go. -/
def allFarewells (objects : Nat → Option Object) (ids : List Nat) : List (Nat × Nat × Nat) :=
  ids.flatMap fun id => (objects id).elim [] (farewells objects)

/-- The subscribers of an object are told the same after another object of its client is gone. -/
theorem farewells_drop (wf : Wf registry) (gone : Left registry [id] registry')
    (found : registry.objects id = some obj) (client : obj.client = some cl) {other : Nat}
    {owner : Object} (differ : other ≠ id) (known : registry.objects other = some owner)
    (own : owner.client = some cl) :
    registry'.objects other = some (owner.without (touches [id])) ∧
      farewells registry'.objects (owner.without (touches [id])) =
        farewells registry.objects owner := by
  have kept : ∀ place, place ≠ id →
      registry'.objects place = (registry.objects place).map (Object.without (touches [id])) := by
    intro place apart
    rw [gone.objects, if_neg (by rwa [List.mem_singleton])]
  have far : ∀ s ∈ owner.subscribers, s.subscriber ≠ id := by
    intro s member same
    obtain ⟨_, _, subscriber, there, _, apart⟩ := (wf.linked.subscribers other owner known).2 s member
    rw [same] at there
    obtain rfl := Option.some.inj (found.symm.trans there)
    exact apart (client.trans own.symm)
  have all : (owner.without (touches [id])).subscribers = owner.subscribers := by
    rw [Object.without, List.filter_eq_self]
    intro s member
    have target := ((wf.linked.subscribers other owner known).2 s member).1
    simp only [touches, List.mem_singleton, far s member, target, differ, decide_false, Bool.or_self,
      Bool.not_false]
  refine ⟨by rw [kept other differ, known, Option.map_some], ?_⟩
  rw [farewells, farewells, all]
  refine List.map_congr_left fun s member => ?_
  rw [clientOf, kept _ (far s member), clientOf]
  cases registry.objects s.subscriber with
  | none => rfl
  | some subscriber => rfl

/-- Freeing some objects of a client one after the other frees all of them. -/
theorem foldlM_free (ids : List Nat) (nodup : ids.Nodup) (daemon : Daemon) (sound : Sound daemon)
    (own : ∀ id ∈ ids, ∃ obj, daemon.registry.objects id = some obj ∧ obj.client = some cl) :
    ∃ registry wire, ids.foldlM ubusdFreeObject daemon = some ⟨registry, wire⟩ ∧
      Sound ⟨registry, wire⟩ ∧ Left daemon.registry ids registry ∧
      registry.clients = Function.update daemon.registry.clients cl
        ((daemon.registry.clients cl).map fun list =>
          list.filter fun other => !decide (other ∈ ids)) ∧
      wire.sent.filterMap severed =
        daemon.wire.sent.filterMap severed ++ allFarewells daemon.registry.objects ids := by
  induction ids generalizing daemon with
  | nil =>
      refine ⟨daemon.registry, daemon.wire, rfl, sound, Left.nil _, ?_, (List.append_nil _).symm⟩
      have all : (fun list : List Nat => list.filter fun other => !decide (other ∈ [])) = id :=
        funext fun list => List.filter_eq_self.mpr fun _ _ => rfl
      rw [all, Option.map_id_fun, id_eq, Function.update_eq_self]
  | cons id ids ih =>
      rw [List.nodup_cons] at nodup
      obtain ⟨obj, found, client⟩ := own id (List.mem_cons_self ..)
      obtain ⟨wire, freed, left, severs⟩ := ubusdFreeObject_sound sound found client
      have gone := Left.drop sound.wf found
      have apart : ∀ other ∈ ids, other ≠ id := by
        rintro other member rfl
        exact nodup.1 member
      have others : ∀ other ∈ ids, ∃ owner, (daemon.registry.drop id obj).objects other = some owner ∧
          owner.client = some cl := by
        intro other member
        obtain ⟨owner, known, client'⟩ := own other (List.mem_cons_of_mem _ member)
        exact ⟨_, (farewells_drop sound.wf gone found client (apart other member) known client').1,
          client'⟩
      obtain ⟨registry, wire', ran, left', gone', clients, severs'⟩ := ih nodup.2 _ left others
      refine ⟨registry, wire', ?_, left', gone.trans gone', ?_, ?_⟩
      · rw [List.foldlM_cons, freed]
        exact ran
      · have list : (daemon.registry.drop id obj).clients = Function.update daemon.registry.clients cl
            ((daemon.registry.clients cl).map fun ids => ids.filter fun other =>
              !decide (other = id)) := by
          rw [Registry.drop, client]
        rw [clients, list, Function.update_idem, Function.update_self, Option.map_map]
        congr 2
        funext list
        simp only [Function.comp_apply, List.filter_filter, List.mem_cons, Bool.decide_or,
          Bool.not_or, Bool.and_comm]
      · have same : allFarewells (daemon.registry.drop id obj).objects ids =
            allFarewells daemon.registry.objects ids := by
          rw [allFarewells, allFarewells]
          refine List.flatMap_congr fun other member => ?_
          obtain ⟨owner, known, client'⟩ := own other (List.mem_cons_of_mem _ member)
          obtain ⟨known', told⟩ :=
            farewells_drop sound.wf gone found client (apart other member) known client'
          rw [known, known', Option.elim_some, Option.elim_some, told]
        rw [severs', severs, same, List.append_assoc, allFarewells, allFarewells, List.flatMap_cons,
          found, Option.elim_some]

theorem Owned.disconnect {objects : Nat → Option Object} {clients : Nat → Option (List Nat)}
    (owned : Owned objects clients) (empty : clients cl = some []) :
    Owned objects (Function.update clients cl none) where
  event := owned.event
  owner id obj found other := by
    obtain ⟨cl', ids, client, known, member⟩ := owned.owner id obj found other
    refine ⟨cl', ids, client, ?_, member⟩
    rw [Function.update_of_ne, known]
    rintro rfl
    rw [empty] at known
    obtain rfl := Option.some.inj known
    cases member
  listed cl' ids known := by
    rw [Function.update_apply] at known
    split at known
    · cases known
    · exact owned.listed cl' ids known

/-- A client that is gone leaves nothing behind, the others keep what they have, and of every
subscription to one of its objects the subscriber is told once. -/
theorem ubusdProtoFreeClient_eq (sound : Sound daemon)
    (known : daemon.registry.clients cl = some ids) :
    ∃ registry wire, ubusdProtoFreeClient daemon cl = some ⟨registry, wire⟩ ∧
      Sound ⟨registry, wire⟩ ∧ Left daemon.registry ids registry ∧
      registry.clients = Function.update daemon.registry.clients cl none ∧
      wire.sent.filterMap severed =
        daemon.wire.sent.filterMap severed ++ allFarewells daemon.registry.objects ids := by
  obtain ⟨nodup, own⟩ := sound.wf.owned.listed cl ids known
  obtain ⟨registry, wire, ran, left, gone, clients, severs⟩ :=
    foldlM_free ids nodup daemon sound own
  have none : (ids.filter fun other => !decide (other ∈ ids)) = [] := by
    rw [List.filter_eq_nil_iff]
    intro other member
    rw [decide_eq_true member]
    exact Bool.false_ne_true
  rw [known, Option.map_some, none] at clients
  have empty : registry.clients cl = some [] := by rw [clients, Function.update_self]
  refine ⟨{ registry with clients := Function.update registry.clients cl Option.none }, wire, ?_,
    ⟨⟨left.wf.owned.disconnect empty, left.wf.pathed, left.wf.sourced, left.wf.linked,
      left.wf.counted⟩, left.watched, left.behind⟩, ⟨gone.objects, gone.path, gone.patterns⟩, ?_,
    severs⟩
  · rw [ubusdProtoFreeClient, known, Option.bind_eq_bind, Option.bind_some, ran]
    rfl
  · rw [clients, Function.update_idem]

end Trunk.Ubusd
