import Trunk.Ubusd.Free

/-! # An object is created

`ubusd_create_object` adds an object to the registry, or leaves the registry as it was
(`Trunk.Ubusd.ubusdCreateObject_sound`): a type that was made for it, or a reference that was
taken, is given back.
-/

namespace Trunk.Ubusd

variable {registry : Registry} {daemon : Daemon} {cl id : Nat} {obj : Object} {ids : List Nat}
  {types : Nat → Option ObjectType} {attr : Attr}

theorem ubusAllocId_fresh {used : Nat → Bool} {random rest : List Nat}
    (allocated : ubusAllocId used random = (some id, rest)) : used id = false := by
  induction random with
  | nil => cases allocated
  | cons first random ih =>
      rw [ubusAllocId] at allocated
      split at allocated
      · exact ih allocated
      · rename_i free
        obtain rfl := Option.some.inj (congrArg Prod.fst allocated)
        exact eq_false_of_ne_true free

/-- The types when one of them is referred to once more. -/
def ref (types : Nat → Option ObjectType) (type : Nat) : Nat → Option ObjectType :=
  Function.update types type ((types type).map fun known =>
    { known with refcount := known.refcount + 1 })

/-- A reference that is taken and given back. -/
theorem unref_ref {known : ObjectType} {type : Nat} (found : types type = some known)
    (some : 0 < known.refcount) : unref (ref types type) type = types := by
  have raised : ref types type type = Option.some { known with refcount := known.refcount + 1 } := by
    rw [ref, Function.update_self, found, Option.map_some]
  simp only [unref, raised]
  rw [if_pos (Nat.lt_add_of_pos_left some), Nat.add_sub_cancel, ref, Function.update_idem,
    Function.update_eq_self_iff, found]

/-- A type with one reference that is made and given back. -/
theorem unref_update {type : Nat} (fresh : types type = none) (methods : List Method) :
    unref (Function.update types type (some { refcount := 1, methods := methods })) type = types := by
  simp only [unref, Function.update_self]
  rw [if_neg (Nat.lt_irrefl 1), Function.update_idem, Function.update_eq_self_iff, fresh]

theorem refcount_update {type other : Nat} {known : ObjectType} :
    ((Function.update types type (some known) other).map ObjectType.refcount).getD 0 =
      if type = other then known.refcount else ((types other).map ObjectType.refcount).getD 0 := by
  by_cases same : type = other
  · subst same
    rw [if_pos rfl, Function.update_self, Option.map_some, Option.getD_some]
  · rw [if_neg same, Function.update_of_ne (Ne.symm same)]

theorem positive_update (positive : ∀ type known, types type = some known → 0 < known.refcount)
    {type : Nat} {known : ObjectType} (some : 0 < known.refcount) :
    ∀ other found, Function.update types type (Option.some known) other = Option.some found →
      0 < found.refcount := by
  intro other found there
  rw [Function.update_apply] at there
  split at there
  · obtain rfl := Option.some.inj there
    exact some
  · exact positive other found there

/-- What is left of the registry when a new object's type is known. -/
structure Typed (registry : Registry) (type : Option Nat) (registry' : Registry) : Prop where
  others : ∃ random types, registry' = { registry with random := random, types := types }
  raised : ∀ other, ((registry'.types other).map ObjectType.refcount).getD 0 =
    ((registry.types other).map ObjectType.refcount).getD 0 + if type = some other then 1 else 0
  positive : ∀ other known, registry'.types other = some known → 0 < known.refcount
  held : ∀ own, type = some own → ∃ known, registry'.types own = some known
  given : type.elim registry'.types (unref registry'.types) = registry.types

theorem Typed.none (wf : Wf registry) (random : List Nat) :
    Typed registry none { registry with random := random } where
  others := ⟨random, registry.types, rfl⟩
  raised other := by rw [if_neg (Option.some_ne_none other).symm, Nat.add_zero]
  positive := wf.counted.positive
  held own absurd := by cases absurd
  given := rfl

theorem typed_objectType (wf : Wf registry) (attr : Attr) :
    Typed registry (objectType registry attr).1 (objectType registry attr).2 := by
  rw [objectType]
  cases attr.objtype with
  | some type =>
      simp only [ubusGetObjType]
      cases found : registry.types type with
      | none => exact Typed.none wf registry.random
      | some known =>
          have some := wf.counted.positive type known found
          have raised : (refObjectType registry type).types = Function.update registry.types type
              (Option.some { known with refcount := known.refcount + 1 }) := by
            rw [refObjectType, found, Option.map_some]
          refine ⟨⟨registry.random, _, rfl⟩, ?_, ?_, ?_, unref_ref found some⟩
          · intro other
            rw [raised, refcount_update]
            simp only [Option.some.injEq]
            split
            · rename_i same
              rw [← same, found, Option.map_some, Option.getD_some]
            · rw [Nat.add_zero]
          · rw [raised]
            exact positive_update wf.counted.positive (Nat.succ_pos _)
          · intro own same
            obtain rfl := Option.some.inj same
            rw [raised, Function.update_self]
            exact ⟨_, rfl⟩
  | none =>
      cases attr.signature with
      | none => exact Typed.none wf registry.random
      | some sig =>
          simp only [ubusCreateObjType]
          generalize allocated :
            ubusAllocId (fun id => (registry.types id).isSome) registry.random = result
          obtain ⟨id, random⟩ := result
          cases id with
          | none => exact Typed.none wf random
          | some id =>
              have fresh : registry.types id = none :=
                Option.not_isSome_iff_eq_none.mp
                  (ne_true_of_eq_false (ubusAllocId_fresh allocated))
              by_cases valid : sig.all Method.valid = true
              · simp only [if_pos valid]
                refine ⟨⟨random, _, rfl⟩, ?_, ?_, ?_, unref_update fresh sig⟩
                · intro other
                  rw [refcount_update]
                  simp only [Option.some.injEq]
                  split
                  · rename_i same
                    rw [← same, fresh, Option.map_none, Option.getD_none]
                  · rw [Nat.add_zero]
                · exact positive_update wf.counted.positive Nat.one_pos
                · intro own same
                  obtain rfl := Option.some.inj same
                  exact ⟨_, Function.update_self ..⟩
              · simp only [if_neg valid]
                exact Typed.none wf random

/-- The registry with a new object that nobody knows yet. -/
def Registry.draft (registry : Registry) (id : Nat) (type : Option Nat) (random : List Nat) :
    Registry :=
  { registry with
    random := random
    objects := Function.update registry.objects id (some { type := type }) }

/-- `ubusd_create_object_internal` where no number is left. -/
theorem createInternal_of_none {type : Option Nat} {random : List Nat}
    (spent : ubusAllocId (fun id => (registry.objects id).isSome) registry.random = (none, random)) :
    ubusdCreateObjectInternal registry type = (none, { registry with random := random }) := by
  rw [ubusdCreateObjectInternal, spent]

/-- `ubusd_create_object_internal`, and the reference that is given back. -/
theorem createInternal_of_some {registry' : Registry} {type : Option Nat} {random : List Nat}
    (typed : Typed registry' type registry)
    (allocated : ubusAllocId (fun id => (registry.objects id).isSome) registry.random =
      (some id, random)) :
    ∃ made, ubusdCreateObjectInternal registry type = (some id, made) ∧
      type.elim made (ubusUnrefObjectType made) = registry.draft id type random := by
  rw [ubusdCreateObjectInternal, allocated]
  refine ⟨_, rfl, ?_⟩
  cases type with
  | none => rfl
  | some own =>
      obtain ⟨known, found⟩ := typed.held own rfl
      have back := unref_ref found (typed.positive own known found)
      rw [Option.elim_some, Option.elim_some, ubusUnrefObjectType_eq]
      exact congrArg (fun types => { registry.draft id (some own) random with types := types }) back

/-- A reference is given back where no number is left. -/
theorem Typed.spent {registry' : Registry} {type : Option Nat}
    (typed : Typed registry type registry') (random : List Nat) :
    (type.elim { registry' with random := random } fun own =>
      ubusUnrefObjectType { registry' with random := random } own) =
      { registry with random := random } := by
  obtain ⟨random', types, same⟩ := typed.others
  have given := typed.given
  subst same
  cases type with
  | none =>
      rw [Option.elim_none] at given ⊢
      rw [← given]
  | some own =>
      rw [Option.elim_some] at given ⊢
      rw [ubusUnrefObjectType_eq]
      exact congrArg (fun types => { registry with random := random, types := types }) given

/-- A draft that is given up leaves nothing behind. -/
theorem free_draft (wf : Wf registry) {registry' : Registry} {type : Option Nat}
    {random : List Nat} (typed : Typed registry type registry') (fresh : registry.objects id = none)
    (wire : Wire) :
    ubusdFreeObject ⟨registry'.draft id type random, wire⟩ id =
      some ⟨{ registry with random := random }, wire⟩ := by
  obtain ⟨random', types, same⟩ := typed.others
  have found : (registry'.draft id type random).objects id = some { type := type } :=
    Function.update_self ..
  have noPath : (registry.path.filter fun entry => !decide (entry.2 = id)) = registry.path := by
    rw [List.filter_eq_self]
    rintro ⟨key, other⟩ member
    rw [Bool.not_eq_true', decide_eq_false_iff_not]
    rintro rfl
    obtain ⟨owner, known, _⟩ := (wf.pathed.mem_iff key _).mp member
    rw [fresh] at known
    cases known
  have noPatterns : (registry.patterns.filter fun ev => !decide (ev ∈ ([] : List EventSource))) =
      registry.patterns := List.filter_eq_self.mpr fun _ _ => rfl
  have objects : Function.update (Function.update registry.objects id (some { type := type })) id
      none = registry.objects := by
    rw [Function.update_idem, Function.update_eq_self_iff, fresh]
  have given := typed.given
  simp only [ubusdFreeObject, found, Option.bind_eq_bind, Option.bind_some, List.foldlM_nil,
    Option.pure_def, release_eq found]
  subst same
  simp only [Registry.draft, noPath, noPatterns, objects, given]

/-- The registry with a new object of a client. -/
def Registry.create (registry : Registry) (id cl : Nat) (type : Option Nat) (path : Option Text)
    (random : List Nat) (types : Nat → Option ObjectType) : Registry :=
  { registry with
    random := random
    types := types
    path := path.elim registry.path fun key => insertPath key id registry.path
    objects := Function.update registry.objects id
      (some { type := type, path := path, client := some cl })
    clients := Function.update registry.clients cl ((registry.clients cl).map (id :: ·)) }

theorem Wf.create (wf : Wf registry) {registry' : Registry} {type : Option Nat} {path : Option Text}
    {random : List Nat} (typed : Typed registry type registry') (fresh : registry.objects id = none)
    (known : registry.clients cl = some ids)
    (free : ∀ key, path = some key → key ∉ registry.path.map Prod.fst) :
    Wf (registry.create id cl type path random registry'.types) where
  owned := by
    rw [Registry.create, known]
    exact wf.owned.add fresh rfl known
  pathed := @Pathed.add _ _ id { type := type, path := path, client := some cl } wf.pathed fresh free
  sourced := wf.sourced.add fresh rfl
  linked := wf.linked.add fresh rfl rfl
  counted := wf.counted.add fresh typed.raised typed.positive

/-- The numbers suffice for a new object, and its path is free. -/
def Creates (registry : Registry) (attr : Attr) : Prop :=
  (ubusAllocId (fun id => (registry.objects id).isSome) (objectType registry attr).2.random).1 ≠
    none ∧
  ∀ key, attr.objpath = some key → key ∉ registry.path.map Prod.fst

/-- The counters of an identifier that no object has do not matter. -/
theorem quiet_zero (wire : Wire) (id : Nat) : Quiet wire (wire.zero id) where
  sent := (Quiet.refl wire).sent
  behind behind other := by
    simp only [Wire.zero, Function.update_apply]
    split
    · exact Nat.zero_le _
    · exact behind other

theorem active_create {type : Option Nat} {path : Option Text} {random : List Nat}
    (fresh : registry.objects id = none) (cl' other : Nat) :
    Active (registry.create id cl type path random types).objects cl' other ↔
      Active registry.objects cl' other := by
  simp only [Active, Registry.create, update_eq_some]
  refine exists_congr fun owner => ⟨?_, ?_⟩
  · rintro ⟨⟨_, same⟩ | ⟨_, found⟩, client, some⟩
    · rw [← Option.some.inj same] at some
      exact absurd rfl some
    · exact ⟨found, client, some⟩
  · rintro ⟨found, rest⟩
    refine ⟨.inr ⟨?_, found⟩, rest⟩
    rintro rfl
    rw [fresh] at found
    cases found

theorem Sound.create {type : Option Nat} {path : Option Text} {random : List Nat} {wire : Wire}
    {registry' : Registry} (sound : Sound daemon) (typed : Typed daemon.registry type registry')
    (fresh : daemon.registry.objects id = none) (known : daemon.registry.clients cl = some ids)
    (free : ∀ key, path = some key → key ∉ daemon.registry.path.map Prod.fst)
    (quiet : Quiet daemon.wire wire) :
    Sound ⟨daemon.registry.create id cl type path random registry'.types, wire⟩ where
  wf := sound.wf.create typed fresh known free
  watched := (sound.watched.quiet quiet).congr (active_create fresh)
  behind := quiet.behind sound.behind

/-- The sources of events are reached while an object is made. -/
theorem reached_named (wf : Wf registry) {registry' : Registry} {type : Option Nat}
    {random : List Nat} (typed : Typed registry type registry') (fresh : registry.objects id = none)
    (key : Text) :
    Reached ((registry'.draft id type random).modify id fun obj => { obj with path := some key })
      registry.patterns := by
  obtain ⟨random', types, same⟩ := typed.others
  intro ev member
  obtain ⟨owner, cl, known, client⟩ := wf.reached ev member
  have differ : ev.obj ≠ id := by
    intro here
    rw [here, fresh] at known
    cases known
  refine ⟨owner, cl, ?_, client⟩
  rw [modify_objects, if_neg differ, same]
  exact (Function.update_of_ne differ ..).trans known

/-- The path of a draft is free: the object has it now, and who listens is told. -/
theorem registerPath_draft (wf : Wf registry) {registry' : Registry} {type : Option Nat}
    {path : Option Text} (typed : Typed registry type registry') (fresh : registry.objects id = none)
    (free : ∀ key, path = some key → key ∉ registry.path.map Prod.fst) (random : List Nat)
    (wire : Wire) :
    ∃ named told, registerPath (registry'.draft id type random) id path wire =
        some (some named, told) ∧
      { named.modify id fun obj => { obj with client := some cl } with
        clients := Function.update named.clients cl ((named.clients cl).map (id :: ·)) } =
        registry.create id cl type path random registry'.types ∧
      Quiet wire told := by
  obtain ⟨random', types, same⟩ := typed.others
  cases path with
  | none =>
      refine ⟨_, wire, rfl, ?_, Quiet.refl wire⟩
      subst same
      simp only [Registry.modify, Registry.draft, Registry.create, Function.update_self,
        Option.map_some, Function.update_idem, Option.elim_none]
  | some key =>
      have there : key ∉ (registry'.draft id type random).path.map Prod.fst := by
        rw [same]
        exact free key rfl
      -- The registry when the event is sent.
      let announced : Registry := { (registry'.draft id type random).modify id fun obj =>
        { obj with path := some key } with
        path := insertPath key id (registry'.draft id type random).path }
      have sorted : announced.patterns.Pairwise fun ev later => ev.key ≤ later.key := by
        simp only [announced, same]
        exact wf.sourced.sorted
      have reached : Reached announced announced.patterns := by
        have all := @reached_named _ _ wf _ _ random typed fresh key
        simp only [announced, same] at all ⊢
        exact all
      obtain ⟨told, sent, quiet⟩ := quiet_ubusdSendEvent sorted reached none
        ("ubus.object.add".toList.map CString.ascii)
        [.objid 0, .method ("ubus.object.add".toList.map CString.ascii), .data (.object id key)] wire
      refine ⟨announced, told, ?_, ?_, quiet⟩
      · rw [registerPath]
        simp only [if_neg there, ubusdSendObjEvent, if_pos, Option.bind_eq_bind]
        simp only [announced] at sent
        rw [sent]
        rfl
      · simp only [announced]
        subst same
        simp only [Registry.modify, Registry.draft, Registry.create, Function.update_self,
          Option.map_some, Function.update_idem, Option.elim_some]

theorem ubusdCreateObject_sound (sound : Sound daemon)
    (known : daemon.registry.clients cl = some ids) (attr : Attr) :
    (¬ Creates daemon.registry attr ∧ ∃ random wire,
      ubusdCreateObject daemon cl attr =
        some (none, ⟨{ daemon.registry with random := random }, wire⟩) ∧
      Quiet daemon.wire wire) ∨
    (Creates daemon.registry attr ∧ ∃ id random types wire,
      ubusdCreateObject daemon cl attr = some (some id, ⟨daemon.registry.create id cl
        (objectType daemon.registry attr).1 attr.objpath random types, wire⟩) ∧
      Sound ⟨daemon.registry.create id cl (objectType daemon.registry attr).1 attr.objpath random
        types, wire⟩ ∧
      (∀ own, (objectType daemon.registry attr).1 = some own → ∃ known, types own = some known) ∧
      Quiet daemon.wire wire) := by
  have typed := typed_objectType sound.wf attr
  rw [Creates, ubusdCreateObject]
  generalize objectType daemon.registry attr = result at typed
  obtain ⟨type, registry'⟩ := result
  change Typed daemon.registry type registry' at typed
  obtain ⟨random', types, same⟩ := typed.others
  have objects : registry'.objects = daemon.registry.objects := by rw [same]
  generalize allocated : ubusAllocId (fun id => (daemon.registry.objects id).isSome)
    registry'.random = result
  obtain ⟨place, random⟩ := result
  rw [← objects] at allocated
  simp only [Option.bind_eq_bind, Option.pure_def]
  cases place with
  | none =>
      refine .inl ⟨fun creates => creates.1 rfl, random, daemon.wire, ?_, Quiet.refl _⟩
      rw [createInternal_of_none allocated, typed.spent random]
  | some id =>
      have fresh : daemon.registry.objects id = none := by
        rw [← objects]
        exact Option.not_isSome_iff_eq_none.mp (ne_true_of_eq_false (ubusAllocId_fresh allocated))
      obtain ⟨made, internal, drafted⟩ := createInternal_of_some typed allocated
      rw [internal]
      simp only [drafted]
      have quiet := quiet_zero daemon.wire id
      by_cases free : ∀ key, attr.objpath = some key → key ∉ daemon.registry.path.map Prod.fst
      · obtain ⟨named, told, registered, created, heard⟩ :=
          registerPath_draft sound.wf typed fresh free random (daemon.wire.zero id)
        refine .inr ⟨⟨Option.some_ne_none id, free⟩, id, random, registry'.types, told, ?_,
          sound.create typed fresh known free (quiet.trans heard), typed.held, quiet.trans heard⟩
        rw [registered, ← created]
        rfl
      · refine .inl ⟨fun creates => free creates.2, random, daemon.wire.zero id, ?_, quiet⟩
        push Not at free
        obtain ⟨key, named, taken⟩ := free
        have there : key ∈ (registry'.draft id type random).path.map Prod.fst := by
          rw [same]
          exact taken
        rw [named, registerPath]
        simp only [if_pos there, Option.bind_some, free_draft sound.wf typed fresh]

end Trunk.Ubusd
