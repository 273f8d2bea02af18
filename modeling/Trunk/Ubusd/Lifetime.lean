import Trunk.Ubusd.Changes

/-! # Objects come and go

An object that is in no subscription comes into the registry (`Trunk.Ubusd.Wf.add`) or leaves it
(`Trunk.Ubusd.Wf.drop`), and each part of the invariant is kept. The reference count of its
type follows.
-/

namespace Trunk.Ubusd

variable {objects : Nat → Option Object} {clients : Nat → Option (List Nat)}
  {types : Nat → Option ObjectType} {path : List (Text × Nat)} {patterns : List EventSource}
  {serial id cl : Nat} {obj : Object} {ids : List Nat}

/-- The object found under an identifier after one was put under another. -/
theorem update_eq_some {other : Nat} {entry : Option Object} {found : Object} :
    Function.update objects id entry other = some found ↔
      (other = id ∧ entry = some found) ∨ (other ≠ id ∧ objects other = some found) := by
  rw [Function.update_apply]
  split
  · rename_i same
    rw [and_iff_right same, or_iff_left fun differ => differ.1 same]
  · rename_i differ
    rw [and_iff_right differ, or_iff_right fun same => differ same.1]

/-! ### A new object -/

theorem Owned.add (owned : Owned objects clients) (fresh : objects id = none)
    (client : obj.client = some cl) (known : clients cl = some ids) :
    Owned (Function.update objects id (some obj)) (Function.update clients cl (some (id :: ids))) where
  event := by
    rw [Function.update_of_ne, owned.event]
    rintro rfl
    rw [owned.event] at fresh
    cases fresh
  owner other owner found notEvent := by
    rcases update_eq_some.mp found with ⟨rfl, same⟩ | ⟨differ, found⟩
    · obtain rfl := Option.some.inj same
      exact ⟨cl, other :: ids, client, Function.update_self .., List.mem_cons_self ..⟩
    · obtain ⟨cl', ids', client', known', member⟩ := owned.owner other owner found notEvent
      by_cases here : cl' = cl
      · subst here
        obtain rfl := Option.some.inj (known'.symm.trans known)
        exact ⟨cl', id :: ids', client', Function.update_self .., List.mem_cons_of_mem _ member⟩
      · exact ⟨cl', ids', client', (Function.update_of_ne here ..).trans known', member⟩
  listed cl' ids' known' := by
    have kept : ∀ other, ∀ owner, objects other = some owner → owner.client = some cl' →
        ∃ owner, Function.update objects id (some obj) other = some owner ∧
          owner.client = some cl' := by
      intro other owner found client'
      refine ⟨owner, update_eq_some.mpr (.inr ⟨?_, found⟩), client'⟩
      rintro rfl
      rw [fresh] at found
      cases found
    by_cases here : cl' = cl
    · subst here
      rw [Function.update_self] at known'
      obtain rfl := Option.some.inj known'
      have old := owned.listed cl' ids known
      refine ⟨List.nodup_cons.mpr ⟨?_, old.1⟩, ?_⟩
      · intro member
        obtain ⟨owner, found, _⟩ := old.2 id member
        rw [fresh] at found
        cases found
      · intro other member
        rcases List.mem_cons.mp member with rfl | listed
        · exact ⟨obj, Function.update_self .., client⟩
        · obtain ⟨owner, found, client'⟩ := old.2 other listed
          exact kept other owner found client'
    · rw [Function.update_of_ne here] at known'
      have old := owned.listed cl' ids' known'
      refine ⟨old.1, ?_⟩
      intro other member
      obtain ⟨owner, found, client'⟩ := old.2 other member
      exact kept other owner found client'

theorem Pathed.add (pathed : Pathed objects path) (fresh : objects id = none)
    (free : ∀ key, obj.path = some key → key ∉ path.map Prod.fst) :
    Pathed (Function.update objects id (some obj))
      (obj.path.elim path fun key => insertPath key id path) := by
  have others : ∀ key other, (key, other) ∈ path → other ≠ id := by
    rintro key other member rfl
    obtain ⟨owner, found, _⟩ := (pathed.mem_iff key other).mp member
    rw [fresh] at found
    cases found
  have members : ∀ key other, (key, other) ∈ path ↔
      other ≠ id ∧ ∃ owner, objects other = some owner ∧ owner.path = some key := by
    intro key other
    rw [← pathed.mem_iff]
    exact ⟨fun member => ⟨others key other member, member⟩, And.right⟩
  have found : ∀ key other, (∃ owner, Function.update objects id (some obj) other = some owner ∧
      owner.path = some key) ↔ (other = id ∧ obj.path = some key) ∨ (key, other) ∈ path := by
    intro key other
    rw [members]
    simp only [update_eq_some, Option.some.injEq, or_and_right, exists_or, and_assoc,
      exists_and_left, exists_eq_left']
  cases named : obj.path with
  | none =>
      refine ⟨pathed.sorted, fun key other => ?_⟩
      rw [found, named, or_iff_right]
      · rfl
      · rintro ⟨_, named⟩
        cases named
  | some name =>
      refine ⟨sorted_insertPath pathed.sorted (free name named), fun key other => ?_⟩
      rw [found, named, Option.elim_some, mem_insertPath, Prod.mk.injEq, Option.some.injEq,
        and_comm, eq_comm (a := name)]

theorem Sourced.add (sourced : Sourced objects patterns serial) (fresh : objects id = none)
    (none : obj.events = []) : Sourced (Function.update objects id (some obj)) patterns serial where
  sorted := sourced.sorted
  nodup := sourced.nodup
  fresh := sourced.fresh
  mem_iff ev := by
    rw [sourced.mem_iff]
    constructor
    · rintro ⟨owner, found, member⟩
      refine ⟨owner, update_eq_some.mpr (.inr ⟨?_, found⟩), member⟩
      intro same
      rw [same, fresh] at found
      cases found
    · rintro ⟨owner, found, member⟩
      rcases update_eq_some.mp found with ⟨_, same⟩ | ⟨_, found⟩
      · rw [← Option.some.inj same, none] at member
        cases member
      · exact ⟨owner, found, member⟩
  own other owner found ev member := by
    rcases update_eq_some.mp found with ⟨_, same⟩ | ⟨_, found⟩
    · rw [← Option.some.inj same, none] at member
      cases member
    · exact sourced.own other owner found ev member

theorem Linked.add (linked : Linked objects serial) (fresh : objects id = none)
    (noSubscribers : obj.subscribers = []) (noTargets : obj.targetList = []) :
    Linked (Function.update objects id (some obj)) serial := by
  have kept : ∀ other owner, objects other = some owner →
      Function.update objects id (some obj) other = some owner := by
    intro other owner found
    refine update_eq_some.mpr (.inr ⟨?_, found⟩)
    rintro rfl
    rw [fresh] at found
    cases found
  constructor
  · intro other owner found
    rcases update_eq_some.mp found with ⟨_, same⟩ | ⟨_, found⟩
    · rw [← Option.some.inj same, noSubscribers]
      exact ⟨List.nodup_nil, fun s member => absurd member List.not_mem_nil⟩
    · refine ⟨(linked.subscribers other owner found).1, ?_⟩
      intro s member
      obtain ⟨target, early, far, found', rest⟩ := (linked.subscribers other owner found).2 s member
      exact ⟨target, early, far, kept _ _ found', rest⟩
  · intro other owner found
    rcases update_eq_some.mp found with ⟨_, same⟩ | ⟨_, found⟩
    · rw [← Option.some.inj same, noTargets]
      exact ⟨List.nodup_nil, fun s member => absurd member List.not_mem_nil⟩
    · refine ⟨(linked.targets other owner found).1, ?_⟩
      intro s member
      obtain ⟨subscriber, far, found', rest⟩ := (linked.targets other owner found).2 s member
      exact ⟨subscriber, far, kept _ _ found', rest⟩

theorem present_update_some (objects : Nat → Option Object) (id : Nat) (obj : Object) :
    {other | Function.update objects id (some obj) other ≠ none} =
      insert id {other | objects other ≠ none} := by
  ext other
  rw [Set.mem_ofPred_eq, Set.mem_insert_iff, Set.mem_ofPred_eq, Function.update_apply]
  split
  · rename_i same
    exact iff_of_true (Option.some_ne_none _) (.inl same)
  · rename_i differ
    exact (or_iff_right differ).symm

theorem holders_finite (counted : Counted objects types) (type : Nat) :
    (holders objects type).Finite := by
  refine counted.finite.subset ?_
  rintro other ⟨owner, found, _⟩
  rw [Set.mem_ofPred_eq, found]
  exact Option.some_ne_none owner

theorem mem_holders_update {other type : Nat} {entry : Option Object} :
    other ∈ holders (Function.update objects id entry) type ↔
      (other = id ∧ ∃ owner, entry = some owner ∧ owner.type = some type) ∨
        (other ≠ id ∧ other ∈ holders objects type) := by
  simp only [holders, Set.mem_ofPred_eq, update_eq_some, or_and_right, exists_or, and_assoc,
    exists_and_left]

theorem notMem_holders {type : Nat} (fresh : objects id = none) : id ∉ holders objects type := by
  rintro ⟨owner, found, _⟩
  rw [fresh] at found
  cases found

/-- The type of a new object counts it, too. -/
theorem Counted.add (counted : Counted objects types) (fresh : objects id = none)
    {types' : Nat → Option ObjectType}
    (raised : ∀ type, ((types' type).map ObjectType.refcount).getD 0 =
      ((types type).map ObjectType.refcount).getD 0 + if obj.type = some type then 1 else 0)
    (positive : ∀ type known, types' type = some known → 0 < known.refcount) :
    Counted (Function.update objects id (some obj)) types' where
  finite := by
    rw [present_update_some]
    exact counted.finite.insert id
  count type := by
    have absent : ∀ other ∈ holders objects type, other ≠ id := by
      rintro other member rfl
      exact notMem_holders fresh member
    rw [raised, counted.count]
    by_cases same : obj.type = some type
    · have grown : holders (Function.update objects id (some obj)) type =
          insert id (holders objects type) := by
        ext other
        rw [Set.mem_insert_iff, mem_holders_update, and_iff_right_of_imp (absent other),
          and_iff_left ⟨obj, rfl, same⟩]
      rw [if_pos same, grown,
        Set.ncard_insert_of_notMem (notMem_holders fresh) (holders_finite counted type)]
    · have unchanged : holders (Function.update objects id (some obj)) type =
          holders objects type := by
        ext other
        rw [mem_holders_update, and_iff_right_of_imp (absent other), or_iff_right]
        rintro ⟨_, owner, found, held⟩
        obtain rfl := Option.some.inj found
        exact same held
      rw [if_neg same, unchanged, Nat.add_zero]
  positive := positive

/-! ### An object that goes -/

theorem Owned.drop (owned : Owned objects clients) (found : objects id = some obj)
    (client : obj.client = some cl) :
    Owned (Function.update objects id none)
      (Function.update clients cl
        ((clients cl).map fun ids => ids.filter fun other => !decide (other = id))) where
  event := by
    rw [Function.update_of_ne, owned.event]
    rintro rfl
    rw [owned.event] at found
    obtain rfl := Option.some.inj found
    cases client
  owner other owner found' notEvent := by
    obtain ⟨_, absurd⟩ | ⟨differ, found'⟩ := update_eq_some.mp found'
    · cases absurd
    obtain ⟨cl', ids, client', known, member⟩ := owned.owner other owner found' notEvent
    by_cases here : cl' = cl
    · subst here
      refine ⟨cl', ids.filter fun other => !decide (other = id), client', ?_, ?_⟩
      · rw [Function.update_self, known, Option.map_some]
      · rw [List.mem_filter]
        exact ⟨member, by rw [decide_eq_false differ, Bool.not_false]⟩
    · exact ⟨cl', ids, client', (Function.update_of_ne here ..).trans known, member⟩
  listed cl' ids' known' := by
    by_cases here : cl' = cl
    · subst here
      rw [Function.update_self] at known'
      obtain ⟨ids, known, rfl⟩ := Option.map_eq_some_iff.mp known'
      refine ⟨(owned.listed cl' ids known).1.filter _, ?_⟩
      intro other member
      rw [List.mem_filter, Bool.not_eq_true', decide_eq_false_iff_not] at member
      obtain ⟨owner, found', client'⟩ := (owned.listed cl' ids known).2 other member.1
      exact ⟨owner, update_eq_some.mpr (.inr ⟨member.2, found'⟩), client'⟩
    · rw [Function.update_of_ne here] at known'
      refine ⟨(owned.listed cl' ids' known').1, ?_⟩
      intro other member
      obtain ⟨owner, found', client'⟩ := (owned.listed cl' ids' known').2 other member
      refine ⟨owner, update_eq_some.mpr (.inr ⟨?_, found'⟩), client'⟩
      rintro rfl
      obtain rfl := Option.some.inj (found.symm.trans found')
      exact here (Option.some.inj (client'.symm.trans client))

theorem Pathed.drop (pathed : Pathed objects path) (id : Nat) :
    Pathed (Function.update objects id none)
      (path.filter fun entry => !decide (entry.2 = id)) where
  sorted := pathed.sorted.filter _
  mem_iff key other := by
    rw [List.mem_filter, pathed.mem_iff, Bool.not_eq_true', decide_eq_false_iff_not]
    simp only [update_eq_some, reduceCtorEq, and_false, false_or, and_assoc, exists_and_left]
    exact and_comm

theorem Sourced.drop (sourced : Sourced objects patterns serial) (found : objects id = some obj) :
    Sourced (Function.update objects id none)
      (patterns.filter fun ev => !decide (ev ∈ obj.events)) serial where
  sorted := sourced.sorted.filter _
  nodup := sourced.nodup.filter _
  fresh ev member := sourced.fresh ev (List.mem_of_mem_filter member)
  mem_iff ev := by
    rw [List.mem_filter, sourced.mem_iff, Bool.not_eq_true', decide_eq_false_iff_not]
    constructor
    · rintro ⟨⟨owner, found', member⟩, other⟩
      refine ⟨owner, update_eq_some.mpr (.inr ⟨?_, found'⟩), member⟩
      intro same
      rw [same] at found'
      obtain rfl := Option.some.inj (found.symm.trans found')
      exact other member
    · rintro ⟨owner, found', member⟩
      obtain ⟨_, absurd⟩ | ⟨differ, found'⟩ := update_eq_some.mp found'
      · cases absurd
      · exact ⟨⟨owner, found', member⟩, fun member => differ (sourced.own id obj found ev member)⟩
  own other owner found' ev member := by
    obtain ⟨_, absurd⟩ | ⟨_, found'⟩ := update_eq_some.mp found'
    · cases absurd
    · exact sourced.own other owner found' ev member

theorem Linked.drop (linked : Linked objects serial) (found : objects id = some obj)
    (noSubscribers : obj.subscribers = []) (noTargets : obj.targetList = []) :
    Linked (Function.update objects id none) serial := by
  constructor
  · intro other owner found'
    obtain ⟨_, absurd⟩ | ⟨_, found'⟩ := update_eq_some.mp found'
    · cases absurd
    refine ⟨(linked.subscribers other owner found').1, ?_⟩
    intro s member
    obtain ⟨target, early, far, known, listed, apart⟩ :=
      (linked.subscribers other owner found').2 s member
    refine ⟨target, early, far, update_eq_some.mpr (.inr ⟨?_, known⟩), listed, apart⟩
    intro same
    rw [same] at known
    obtain rfl := Option.some.inj (found.symm.trans known)
    rw [noTargets] at listed
    cases listed
  · intro other owner found'
    obtain ⟨_, absurd⟩ | ⟨_, found'⟩ := update_eq_some.mp found'
    · cases absurd
    refine ⟨(linked.targets other owner found').1, ?_⟩
    intro s member
    obtain ⟨subscriber, far, known, listed⟩ := (linked.targets other owner found').2 s member
    refine ⟨subscriber, far, update_eq_some.mpr (.inr ⟨?_, known⟩), listed⟩
    intro same
    rw [same] at known
    obtain rfl := Option.some.inj (found.symm.trans known)
    rw [noSubscribers] at listed
    cases listed

/-- The type of an object that goes does not count it any longer. -/
theorem Counted.drop (counted : Counted objects types) (found : objects id = some obj)
    {types' : Nat → Option ObjectType}
    (lowered : ∀ type, ((types' type).map ObjectType.refcount).getD 0 =
      ((types type).map ObjectType.refcount).getD 0 - if obj.type = some type then 1 else 0)
    (positive : ∀ type known, types' type = some known → 0 < known.refcount) :
    Counted (Function.update objects id none) types' where
  finite := by
    refine counted.finite.subset fun other present => ?_
    rw [Set.mem_ofPred_eq, Function.update_apply] at present
    split at present
    · exact absurd rfl present
    · exact present
  count type := by
    have shrunk : holders (Function.update objects id none) type =
        holders objects type \ {id} := by
      ext other
      rw [Set.mem_sdiff, Set.mem_singleton_iff, mem_holders_update, or_iff_right, and_comm]
      rintro ⟨_, owner, absurd, _⟩
      cases absurd
    rw [lowered, counted.count, shrunk]
    by_cases same : obj.type = some type
    · rw [if_pos same, Set.ncard_sdiff_singleton_of_mem (show id ∈ holders objects type from ⟨obj, found, same⟩)]
    · rw [if_neg same, Nat.sub_zero, Set.sdiff_singleton_eq_self]
      rintro ⟨owner, found', held⟩
      obtain rfl := Option.some.inj (found.symm.trans found')
      exact same held
  positive := positive

end Trunk.Ubusd
