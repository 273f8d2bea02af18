import Mathlib.Data.Set.Card
import Trunk.Ubusd.Protocol

/-! # The registry hangs together

What holds of the registry between two inputs (`Trunk.Ubusd.Wf`). It is said tree by tree: an object
is in the list of its client (`Trunk.Ubusd.Owned`), the tree of paths and that of patterns hold
what the objects have (`Trunk.Ubusd.Pathed`, `Trunk.Ubusd.Sourced`), a subscription is in the
lists of both of its objects (`Trunk.Ubusd.Linked`), and a type counts the objects that have it
(`Trunk.Ubusd.Counted`). Each part looks at some fields of the objects only, so a change of the
others leaves it as it is.
-/

namespace Trunk.Ubusd

variable {objects objects' : Nat → Option Object} {clients clients' : Nat → Option (List Nat)}
  {types types' : Nat → Option ObjectType} {path path' : List (Text × Nat)}
  {patterns : List EventSource} {serial id : Nat} {obj : Object} {s : Subscription}

/-- The event object as it is made. -/
def eventObject : Object := { type := none }

/-- Every object but the event object is in the list of its client, and every list holds the objects
of its client. -/
structure Owned (objects : Nat → Option Object) (clients : Nat → Option (List Nat)) : Prop where
  event : objects ubusSystemObjectEvent = some eventObject
  owner : ∀ id obj, objects id = some obj → id ≠ ubusSystemObjectEvent →
    ∃ cl ids, obj.client = some cl ∧ clients cl = some ids ∧ id ∈ ids
  listed : ∀ cl ids, clients cl = some ids → ids.Nodup ∧
    ∀ id ∈ ids, ∃ obj, objects id = some obj ∧ obj.client = some cl

/-- The tree of paths holds the paths of the objects, each once and in order. -/
structure Pathed (objects : Nat → Option Object) (path : List (Text × Nat)) : Prop where
  sorted : path.Pairwise fun entry later => entry.1 < later.1
  mem_iff : ∀ key id, (key, id) ∈ path ↔ ∃ obj, objects id = some obj ∧ obj.path = some key

/-- The tree of patterns holds the event sources of the objects, each once and in order. -/
structure Sourced (objects : Nat → Option Object) (patterns : List EventSource) (serial : Nat) :
    Prop where
  sorted : patterns.Pairwise fun ev later => ev.key ≤ later.key
  nodup : patterns.Nodup
  fresh : ∀ ev ∈ patterns, ev.serial < serial
  mem_iff : ∀ ev, ev ∈ patterns ↔ ∃ obj, objects ev.obj = some obj ∧ ev ∈ obj.events
  own : ∀ id obj, objects id = some obj → ∀ ev ∈ obj.events, ev.obj = id

/-- A subscription is in the lists of both of its objects, which belong to two clients. -/
structure Linked (objects : Nat → Option Object) (serial : Nat) : Prop where
  subscribers : ∀ id obj, objects id = some obj → obj.subscribers.Nodup ∧
    ∀ s ∈ obj.subscribers, s.target = id ∧ s.serial < serial ∧
      ∃ other, objects s.subscriber = some other ∧ s ∈ other.targetList ∧
        other.client ≠ obj.client
  targets : ∀ id obj, objects id = some obj → obj.targetList.Nodup ∧
    ∀ s ∈ obj.targetList, s.subscriber = id ∧
      ∃ other, objects s.target = some other ∧ s ∈ other.subscribers

/-- The objects of a type. -/
def holders (objects : Nat → Option Object) (type : Nat) : Set Nat :=
  {id | ∃ obj, objects id = some obj ∧ obj.type = some type}

/-- A type is there exactly as long as there are objects of it, which it counts. -/
structure Counted (objects : Nat → Option Object) (types : Nat → Option ObjectType) : Prop where
  finite : {id | objects id ≠ none}.Finite
  count : ∀ type, ((types type).map ObjectType.refcount).getD 0 = (holders objects type).ncard
  positive : ∀ type known, types type = some known → 0 < known.refcount

/-- The invariant of the registry. -/
structure Wf (registry : Registry) : Prop where
  owned : Owned registry.objects registry.clients
  pathed : Pathed registry.objects registry.path
  sourced : Sourced registry.objects registry.patterns registry.serial
  linked : Linked registry.objects registry.serial
  counted : Counted registry.objects registry.types

/-- A field of the object with an identifier. -/
def field {α : Type} (objects : Nat → Option Object) (read : Object → α) (id : Nat) : Option α :=
  (objects id).map read

theorem field_eq_some {α : Type} {read : Object → α} {value : α} :
    field objects read id = some value ↔ ∃ obj, objects id = some obj ∧ read obj = value :=
  Option.map_eq_some_iff

/-! ### Changes of other fields -/

theorem exists_of_field_eq {α : Type} {read : Object → α}
    (same : field objects' read = field objects read) (found : objects' id = some obj) :
    ∃ before, objects id = some before ∧ read before = read obj := by
  rw [← field_eq_some, ← same, field_eq_some]
  exact ⟨obj, found, rfl⟩

theorem Owned.congr (owned : Owned objects clients)
    (same : field objects' Object.client = field objects Object.client)
    (event : objects' ubusSystemObjectEvent = some eventObject) : Owned objects' clients where
  event := event
  owner id obj found other := by
    obtain ⟨before, known, client⟩ := exists_of_field_eq same found
    rw [← client]
    exact owned.owner id before known other
  listed cl ids known := by
    refine ⟨(owned.listed cl ids known).1, ?_⟩
    intro id member
    obtain ⟨before, found, client⟩ := (owned.listed cl ids known).2 id member
    obtain ⟨obj, found', client'⟩ := exists_of_field_eq same.symm found
    exact ⟨obj, found', client'.trans client⟩

theorem Pathed.congr (pathed : Pathed objects path)
    (same : field objects' Object.path = field objects Object.path) : Pathed objects' path where
  sorted := pathed.sorted
  mem_iff key id := by
    have equal := congrFun same id
    rw [pathed.mem_iff, ← field_eq_some, ← field_eq_some, equal]

theorem Sourced.congr (sourced : Sourced objects patterns serial)
    (same : field objects' Object.events = field objects Object.events) {serial' : Nat}
    (later : serial ≤ serial') : Sourced objects' patterns serial' where
  sorted := sourced.sorted
  nodup := sourced.nodup
  fresh ev member := (sourced.fresh ev member).trans_le later
  mem_iff ev := by
    rw [sourced.mem_iff]
    constructor
    · rintro ⟨obj, found, member⟩
      obtain ⟨obj', found', events⟩ := exists_of_field_eq same.symm found
      exact ⟨obj', found', events ▸ member⟩
    · rintro ⟨obj, found, member⟩
      obtain ⟨obj', found', events⟩ := exists_of_field_eq same found
      exact ⟨obj', found', events ▸ member⟩
  own id obj found ev member := by
    obtain ⟨before, known, events⟩ := exists_of_field_eq same found
    exact sourced.own id before known ev (events ▸ member)

theorem Counted.congr (counted : Counted objects types)
    (same : field objects' Object.type = field objects Object.type) : Counted objects' types where
  finite := by
    have present : {id | objects' id ≠ none} = {id | objects id ≠ none} := by
      ext id
      have equal := congrFun same id
      rw [Set.mem_ofPred_eq, Set.mem_ofPred_eq, ne_eq, ne_eq,
        ← Option.map_eq_none_iff (f := Object.type), ← Option.map_eq_none_iff (f := Object.type)]
      exact not_congr (by rw [← field, ← field, equal])
    rw [present]
    exact counted.finite
  count type := by
    have held : holders objects' type = holders objects type := by
      ext id
      have equal := congrFun same id
      rw [holders, holders, Set.mem_ofPred_eq, Set.mem_ofPred_eq, ← field_eq_some, ← field_eq_some,
        equal]
    rw [held]
    exact counted.count type
  positive := counted.positive

end Trunk.Ubusd
