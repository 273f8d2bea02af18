import Trunk.Utils.Slice

/-! # Arrays that grow

The model of `autoarray.h`. A pointer to an item is its distance from the base of the array, which
is computed with `int`s, as is the number of bytes that `os_realloc` is asked for. `os_aa_get` grows
the array to the index and not behind it, so on no array that was set up and grown does it give an
item that was not there before (`Trunk.Autoarray.accesses_iff`).
-/

namespace Trunk.Autoarray

open Slices (wrapInt wrapInt_eq osRealloc osRealloc_length)

/-- `struct atuoarray`, without its `clean`. A base that is `NULL` has no bytes; `init` is what the
function makes of an item. -/
structure Atuoarray where
  base : Option (List UInt8)
  size : Int
  count : Int
  limit : Int
  grow : Int
  init : Option (List UInt8 → List UInt8)

variable {aa next : Atuoarray} {idx : Int} {memory : Option (Nat → UInt8)}

/-- `__os_aa_item`: the distance of an item from the base. -/
def osAaItem (aa : Atuoarray) (idx : Int) : Option Int :=
  if idx < aa.count then
    -- With no base, the first item is at `NULL`.
    if aa.base = none ∧ wrapInt (idx * aa.size) = 0 then none else some (wrapInt (idx * aa.size))
  else none

/-- The loop over new items, from an index on. There is no result if one of them is not in the
memory. -/
def initItems (init : List UInt8 → List UInt8) (size : Int) :
    Nat → Int → List UInt8 → Option (List UInt8)
  | 0, _, base => some base
  | items + 1, i, base => do
      let item ← Memory.loadAt base (wrapInt (i * size)) size.toNat
      let base ← Memory.storeAt base (wrapInt (i * size)) (init item)
      initItems init size items (i + 1) base

/-- The end of `__os_aa_grow_to`: the items behind the old ones are initialised or zeroed. -/
def initNew (aa : Atuoarray) (count : Int) (base : List UInt8) : Option (List UInt8) :=
  match aa.init with
  | some init => initItems init aa.size (count - aa.count).toNat aa.count base
  | none => Memory.storeAt base (wrapInt (aa.count * aa.size))
      (List.replicate (wrapInt (aa.size * wrapInt (count - aa.count)) % 2 ^ 32).toNat 0)

/-- `__os_aa_grow_to`. `memory` is what `os_realloc` finds, if it does. -/
def osAaGrowTo (aa : Atuoarray) (count : Int) (memory : Option (Nat → UInt8)) :
    Option (Int × Atuoarray) :=
  if wrapInt (count - aa.count) ≤ 0 then some (0, aa)
  else if aa.limit ≠ 0 ∧ count > aa.limit then some (-ESPIPE, aa)
  else match memory with
    | none => some (-ENOMEM, { aa with base := none })
    | some memory => do
        let base ← initNew aa count
          (osRealloc (aa.base.getD []) (wrapInt (aa.size * count) % 2 ^ 32).toNat memory)
        return (0, { aa with base := some base, count := count })

/-- `os_aa_init`, on an array whose members are not looked at. `found` is whether `os_calloc` finds
the memory. -/
def osAaInit (size count limit grow : Int) (init : Option (List UInt8 → List UInt8))
    (found : Bool) : Option (Ret × Option Atuoarray) :=
  if size ≤ 0 then some (.assert (-EINVAL1), none)
  else if count ≤ 0 then some (.assert (-EINVAL2), none)
  else if limit < 0 then some (.assert (-EINVAL3), none)
  else if limit ≠ 0 ∧ count > limit then some (.assert (-EINVAL4), none)
  else if grow < 0 then some (.assert (-EINVAL5), none)
  else if found = false then some (.code (-ENOMEM), some ⟨none, size, count, limit, grow, init⟩)
  else do
    let zeroed := List.replicate (count * size).toNat 0
    let base ← init.elim (some zeroed) fun init => initItems init size count.toNat 0 zeroed
    return (.code 0, some ⟨some base, size, count, limit, grow, init⟩)

/-- `os_aa_get`: the pointer and the array. -/
def osAaGet (aa : Atuoarray) (idx : Int) (grow : Bool) (memory : Option (Nat → UInt8)) :
    Option (Option Int × Atuoarray) :=
  if idx < 0 then some (none, aa)
  else match osAaItem aa idx with
    | some value => some (some value, aa)
    | none =>
        if grow = true ∧ aa.grow ≠ 0 then do
          let (err, aa) ← osAaGrowTo aa idx memory
          return (if err = 0 then osAaItem aa idx else none, aa)
        else some (none, aa)

/-- The bytes of an item. -/
def itemBytes (aa : Atuoarray) (idx : Int) : Option (List UInt8) := do
  Memory.loadAt (← aa.base) (idx * aa.size) aa.size.toNat

/-- A new item: as the array's `init` makes it of what the memory holds there, or zeroed. -/
def newItem (aa : Atuoarray) (memory : Nat → UInt8) (idx : Int) : List UInt8 :=
  match aa.init with
  | some init =>
      init ((List.range aa.size.toNat).map fun i => memory ((idx - aa.count) * aa.size + i).toNat)
  | none => List.replicate aa.size.toNat 0

/-- A call gives the item, with new items behind the old ones, or `NULL` and the array as it was. -/
structure Accesses (aa : Atuoarray) (idx : Int) (memory : Option (Nat → UInt8)) : Prop where
  /-- An index within the limit, where memory is found if it is asked for. -/
  within : aa.limit = 0 ∨ idx < aa.limit → idx < aa.count ∨ memory.isSome = true →
    ∃ next, osAaGet aa idx true memory = some (some (idx * aa.size), next) ∧
      idx < next.count ∧ (aa.limit ≠ 0 → next.count ≤ aa.limit) ∧
      (∀ i, 0 ≤ i → i < aa.count → itemBytes next i = itemBytes aa i) ∧
      ∀ i, aa.count ≤ i → i < next.count → itemBytes next i = memory.map fun memory =>
        newItem aa memory i
  /-- An index outside the limit, or without memory. -/
  refused : (0 < aa.limit ∧ aa.limit ≤ idx) ∨ (aa.count ≤ idx ∧ memory = none) →
    osAaGet aa idx true memory = some (none, aa)

/-- An array of the memory that its items need. -/
structure Sound (aa : Atuoarray) : Prop where
  size : 0 < aa.size
  count : 0 < aa.count
  limit : 0 ≤ aa.limit
  limited : aa.limit ≠ 0 → aa.count ≤ aa.limit
  base : ∃ base, aa.base = some base ∧ base.length = aa.size * aa.count
  counted : aa.size * aa.count < 2 ^ 31

/-- The arrays that `os_aa_init` sets up and that calls of `os_aa_get` leave whose memory is found,
while an `int` can count it; the items may be written. -/
inductive Reached : Atuoarray → Prop
  | init {size count limit grow : Int} {init : Option (List UInt8 → List UInt8)} {aa : Atuoarray}
      (set : osAaInit size count limit grow init true = some (.code 0, some aa))
      (counted : size * count < 2 ^ 31) : Reached aa
  | get {aa next : Atuoarray} (before : Reached aa) {idx : Int} {grow : Bool}
      {memory : Nat → UInt8} {value : Option Int}
      (got : osAaGet aa idx grow (some memory) = some (value, next))
      (small : idx < 2 ^ 31) (counted : next.size * next.count < 2 ^ 31) : Reached next
  | write {aa : Atuoarray} (before : Reached aa) {old base : List UInt8} (there : aa.base = some old)
      (same : base.length = old.length) : Reached { aa with base := some base }

theorem initItems_length {init : List UInt8 → List UInt8} {size : Int} {items : Nat} {i : Int}
    {base base' : List UInt8} (done : initItems init size items i base = some base') :
    base'.length = base.length := by
  induction items generalizing i base with
  | zero =>
      obtain rfl := Option.some.inj done
      rfl
  | succ items ih =>
      obtain ⟨item, -, rest⟩ := Option.bind_eq_some_iff.mp done
      obtain ⟨stored, written, later⟩ := Option.bind_eq_some_iff.mp rest
      rw [ih later, Memory.storeAt_length written]

theorem initNew_length {count : Int} {base base' : List UInt8}
    (done : initNew aa count base = some base') : base'.length = base.length := by
  unfold initNew at done
  split at done
  · exact initItems_length done
  · exact Memory.storeAt_length done

/-- What growing can do: nothing, a refusal, the loss of the array, or exactly as many items. -/
theorem osAaGrowTo_cases {count err : Int} (grown : osAaGrowTo aa count memory = some (err, next)) :
    (wrapInt (count - aa.count) ≤ 0 ∧ err = 0 ∧ next = aa) ∨
      (0 < wrapInt (count - aa.count) ∧ (aa.limit ≠ 0 ∧ aa.limit < count) ∧ err = -ESPIPE ∧
        next = aa) ∨
      (0 < wrapInt (count - aa.count) ∧ ¬ (aa.limit ≠ 0 ∧ aa.limit < count) ∧ memory = none ∧
        err = -ENOMEM ∧ next = { aa with base := none }) ∨
      (0 < wrapInt (count - aa.count) ∧ ¬ (aa.limit ≠ 0 ∧ aa.limit < count) ∧
        memory.isSome = true ∧ err = 0 ∧ ∃ base : List UInt8,
          base.length = (wrapInt (aa.size * count) % 2 ^ 32).toNat ∧
          next = { aa with base := some base, count := count }) := by
  unfold osAaGrowTo at grown
  split at grown
  · rename_i enough
    obtain ⟨rfl, rfl⟩ := Prod.mk.inj (Option.some.inj grown)
    exact .inl ⟨enough, rfl, rfl⟩
  rename_i more
  have more := Int.not_le.mp more
  split at grown
  · rename_i over_
    obtain ⟨rfl, rfl⟩ := Prod.mk.inj (Option.some.inj grown)
    exact .inr (.inl ⟨more, over_, rfl, rfl⟩)
  rename_i within
  cases memory with
  | none =>
      obtain ⟨rfl, rfl⟩ := Prod.mk.inj (Option.some.inj grown)
      exact .inr (.inr (.inl ⟨more, within, rfl, rfl, rfl⟩))
  | some memory =>
      obtain ⟨base, made, done⟩ := Option.bind_eq_some_iff.mp grown
      obtain ⟨rfl, rfl⟩ := Prod.mk.inj (Option.some.inj done)
      refine .inr (.inr (.inr ⟨more, within, rfl, rfl, base, ?_, rfl⟩))
      rw [initNew_length made, osRealloc_length]

/-- What a call can do: give an item that is there, refuse, or grow and look again. -/
theorem osAaGet_cases {grow : Bool} {value : Option Int}
    (got : osAaGet aa idx grow memory = some (value, next)) :
    (next = aa ∧ (value = none ∨ (0 ≤ idx ∧ value = osAaItem aa idx))) ∨
      (0 ≤ idx ∧ osAaItem aa idx = none ∧ ∃ err, osAaGrowTo aa idx memory = some (err, next) ∧
        value = if err = 0 then osAaItem next idx else none) := by
  unfold osAaGet at got
  split at got
  · obtain ⟨rfl, rfl⟩ := Prod.mk.inj (Option.some.inj got)
    exact .inl ⟨rfl, .inl rfl⟩
  rename_i positive
  have positive := Int.not_lt.mp positive
  split at got
  · rename_i item there
    obtain ⟨rfl, rfl⟩ := Prod.mk.inj (Option.some.inj got)
    exact .inl ⟨rfl, .inr ⟨positive, there.symm⟩⟩
  · rename_i missing
    split at got
    · obtain ⟨⟨err, grown⟩, done, answer⟩ := Option.bind_eq_some_iff.mp got
      obtain ⟨rfl, rfl⟩ := Prod.mk.inj (Option.some.inj answer)
      exact .inr ⟨positive, missing, err, done, rfl⟩
    · obtain ⟨rfl, rfl⟩ := Prod.mk.inj (Option.some.inj got)
      exact .inl ⟨rfl, .inl rfl⟩

theorem osAaInit_sound {size count limit grow : Int} {init : Option (List UInt8 → List UInt8)}
    (set : osAaInit size count limit grow init true = some (.code 0, some aa))
    (counted : size * count < 2 ^ 31) : Sound aa := by
  unfold osAaInit at set
  iterate 5
    split at set
    · cases (Prod.mk.inj (Option.some.inj set)).1
  rename_i positive some_ unlimited within _
  rw [if_neg (by decide)] at set
  obtain ⟨base, made, done⟩ := Option.bind_eq_some_iff.mp set
  obtain ⟨-, same⟩ := Prod.mk.inj (Option.some.inj done)
  obtain rfl := Option.some.inj same
  have product : 0 ≤ count * size := Int.mul_nonneg (by omega) (by omega)
  refine ⟨by dsimp only; omega, by dsimp only; omega, by dsimp only; omega, ?_, ⟨base, rfl, ?_⟩,
    counted⟩
  · intro limited
    by_contra over_
    exact within ⟨limited, Int.not_le.mp over_⟩
  · have length : base.length = (count * size).toNat := by
      cases init with
      | none =>
          obtain rfl := Option.some.inj made
          exact List.length_replicate
      | some init => rw [initItems_length made, List.length_replicate]
    rw [length, Int.toNat_of_nonneg product, Int.mul_comm]

theorem Sound.get (sound : Sound aa) {grow : Bool} {found : Nat → UInt8} {value : Option Int}
    (got : osAaGet aa idx grow (some found) = some (value, next)) (small : idx < 2 ^ 31)
    (counted : next.size * next.count < 2 ^ 31) : Sound next := by
  have positive := sound.count
  rcases osAaGet_cases got with ⟨rfl, -⟩ | ⟨low, missing, err, grown, -⟩
  · exact sound
  rcases osAaGrowTo_cases grown with
    ⟨-, -, rfl⟩ | ⟨-, -, -, rfl⟩ | ⟨-, -, none_, -⟩ | ⟨more, within, -, -, base, length, rfl⟩
  · exact sound
  · exact sound
  · cases none_
  · dsimp only at counted
    have size := sound.size
    have product : 0 ≤ aa.size * idx := Int.mul_nonneg (by omega) low
    have longer : wrapInt (idx - aa.count) = idx - aa.count := by
      have count : aa.count < 2 ^ 31 := by
        have bound := sound.counted
        have least := Int.mul_le_mul_of_nonneg_right (show 1 ≤ aa.size from size)
          (Int.le_of_lt positive)
        omega
      exact wrapInt_eq (by omega) (by omega)
    rw [longer] at more
    refine ⟨size, by dsimp only; omega, sound.limit, ?_, ⟨base, rfl, ?_⟩, counted⟩
    · intro limited
      by_contra over_
      exact within ⟨limited, Int.not_le.mp over_⟩
    · rw [length, wrapInt_eq (by omega) counted]
      dsimp only
      omega

theorem Reached.sound (reached : Reached aa) : Sound aa := by
  induction reached with
  | init set counted => exact osAaInit_sound set counted
  | get before got small counted ih => exact ih.get got small counted
  | write before there same ih =>
      obtain ⟨old, isOld, length⟩ := ih.base
      rw [there] at isOld
      obtain rfl := Option.some.inj isOld
      exact ⟨ih.size, ih.count, ih.limit, ih.limited, ⟨_, rfl, by rw [same]; exact length⟩, ih.counted⟩

section

variable (sound : Sound aa)

include sound

theorem Sound.count_lt : aa.count < 2 ^ 31 := by
  have bound := sound.counted
  have least := Int.mul_le_mul_of_nonneg_right (show 1 ≤ aa.size from sound.size)
    (Int.le_of_lt sound.count)
  omega

/-- An item that is there is where it should be. -/
theorem Sound.item_there (positive : 0 ≤ idx) (there : idx < aa.count) :
    osAaItem aa idx = some (idx * aa.size) := by
  obtain ⟨base, isBase, -⟩ := sound.base
  have size := sound.size
  have bound := sound.counted
  have low : 0 ≤ idx * aa.size := Int.mul_nonneg positive (Int.le_of_lt size)
  have high : idx * aa.size < aa.count * aa.size := Int.mul_lt_mul_of_pos_right there size
  rw [Int.mul_comm aa.count] at high
  have exact : wrapInt (idx * aa.size) = idx * aa.size := wrapInt_eq (by omega) (by omega)
  rw [osAaItem, if_pos there, exact, isBase]
  exact if_neg (fun none_ => absurd none_.1 (Option.some_ne_none base))

theorem Sound.get_there (positive : 0 ≤ idx) (there : idx < aa.count) :
    osAaGet aa idx true memory = some (some (idx * aa.size), aa) := by
  unfold osAaGet
  rw [if_neg (Int.not_lt.mpr positive), sound.item_there positive there]

end

theorem item_missing (missing : aa.count ≤ idx) : osAaItem aa idx = none :=
  if_neg (Int.not_lt.mpr missing)

/-- Where an item is not there, the array grows and looks again. -/
theorem get_missing (positive : 0 ≤ idx) (missing : aa.count ≤ idx) (grows : 0 < aa.grow)
    (memory : Option (Nat → UInt8)) :
    osAaGet aa idx true memory = (osAaGrowTo aa idx memory).map fun grown =>
      (if grown.1 = 0 then osAaItem grown.2 idx else none, grown.2) := by
  unfold osAaGet
  rw [if_neg (Int.not_lt.mpr positive), item_missing missing]
  dsimp only
  rw [if_pos ⟨rfl, by omega⟩]
  cases osAaGrowTo aa idx memory with
  | none => rfl
  | some grown => rfl

/-- Where an array has to grow and may, it is lost, or has as many items as the index says and so no
item at the index. -/
theorem Sound.get_beyond (sound : Sound aa) (small : idx < 2 ^ 31) (beyond : aa.count < idx)
    (within : ¬ (aa.limit ≠ 0 ∧ aa.limit < idx)) (grows : 0 < aa.grow) {value : Option Int}
    (got : osAaGet aa idx true memory = some (value, next)) :
    (memory = none ∧ next.base = none) ∨
      (memory.isSome = true ∧ value = none ∧ next.count = idx) := by
  have positive := sound.count
  have more : wrapInt (idx - aa.count) = idx - aa.count := wrapInt_eq (by omega) (by omega)
  rw [get_missing (by omega) (Int.le_of_lt beyond) grows] at got
  obtain ⟨⟨err, grown⟩, done, answer⟩ := Option.map_eq_some_iff.mp got
  obtain ⟨rfl, rfl⟩ := Prod.mk.inj answer
  rcases osAaGrowTo_cases done with
    ⟨few, -⟩ | ⟨-, over_, -⟩ | ⟨-, -, none_, -, lost⟩ | ⟨-, -, found, -, base, -, kept⟩
  · omega
  · exact absurd over_ within
  · exact .inl ⟨none_, congrArg Atuoarray.base lost⟩
  · have count : grown.count = idx := congrArg Atuoarray.count kept
    refine .inr ⟨found, ?_, count⟩
    dsimp only
    rw [item_missing (Int.le_of_eq count)]
    exact ite_self none

/-- A call for an item that is not there, where the array has to grow and may, is not as it should
be. -/
theorem Sound.not_accesses (sound : Sound aa) (small : idx < 2 ^ 31) (beyond : aa.count < idx)
    (within : ¬ (aa.limit ≠ 0 ∧ aa.limit < idx)) (grows : 0 < aa.grow) :
    ¬ Accesses aa idx memory := by
  intro accesses
  obtain ⟨base, isBase, -⟩ := sound.base
  have some_ := sound.count
  have limit := sound.limit
  cases memory with
  | none =>
      have got := accesses.refused (.inr ⟨Int.le_of_lt beyond, rfl⟩)
      rcases sound.get_beyond small beyond within grows got with ⟨-, lost⟩ | ⟨found, -⟩
      · rw [isBase] at lost
        cases lost
      · cases found
  | some found =>
      by_cases last : aa.limit = idx
      · have got := accesses.refused (.inl ⟨by omega, Int.le_of_eq last⟩)
        rcases sound.get_beyond small beyond within grows got with ⟨none_, -⟩ | ⟨-, -, count⟩
        · cases none_
        · omega
      · obtain ⟨next, got, -⟩ := accesses.within (by omega) (.inr rfl)
        rcases sound.get_beyond small beyond within grows got with ⟨none_, -⟩ | ⟨-, missing, -⟩
        · cases none_
        · cases missing

/-- The call for the item behind the last one changes nothing and gives no item. -/
theorem Sound.get_behind (sound : Sound aa) (grows : 0 < aa.grow)
    (memory : Option (Nat → UInt8)) :
    osAaGet aa aa.count true memory = some (none, aa) := by
  have grown : osAaGrowTo aa aa.count memory = some (0, aa) := by
    unfold osAaGrowTo
    rw [Int.sub_self]
    exact if_pos (by decide)
  rw [get_missing (Int.le_of_lt sound.count) (Int.le_refl _) grows, grown, Option.map_some,
    item_missing (Int.le_refl _), ite_self]

/-- An index outside the limit is refused. -/
theorem Sound.get_outside (sound : Sound aa) (small : idx < 2 ^ 31) (grows : 0 < aa.grow)
    (limited : 0 < aa.limit) (outside : aa.limit < idx) (memory : Option (Nat → UInt8)) :
    osAaGet aa idx true memory = some (none, aa) := by
  have positive := sound.count
  have count := sound.limited (by omega)
  have more : wrapInt (idx - aa.count) = idx - aa.count := wrapInt_eq (by omega) (by omega)
  have grown : osAaGrowTo aa idx memory = some (-ESPIPE, aa) := by
    unfold osAaGrowTo
    rw [if_neg (Int.not_le.mpr (by omega)), if_pos ⟨by omega, outside⟩]
  rw [get_missing (by omega) (by omega) grows, grown]
  rfl

/-- On every array that was set up and grown, with items written in any order, a call is as it should
be exactly if the item is there already, the index is behind the limit, or it is the index behind the
last item and there is no room or no memory for one more. -/
theorem accesses_iff (aa : Atuoarray) (idx : Int32) (memory : Option (Nat → UInt8))
    (reached : Reached aa) (grows : 0 < aa.grow) (positive : 0 ≤ idx.toInt) :
    Accesses aa idx.toInt memory ↔ idx.toInt < aa.count ∨
      (0 < aa.limit ∧ aa.limit < idx.toInt) ∨
      (idx.toInt = aa.count ∧ (idx.toInt = aa.limit ∨ memory = none)) := by
  have sound := reached.sound
  have small := idx.toInt_lt
  have some_ := sound.count
  have limit := sound.limit
  rcases Int.lt_trichotomy idx.toInt aa.count with there | behind | beyond
  · refine iff_of_true ⟨?_, ?_⟩ (.inl there)
    · intro _ _
      refine ⟨aa, sound.get_there positive there, there, sound.limited, fun _ _ _ => rfl, ?_⟩
      intro i low high
      omega
    · rintro (⟨limited, outside⟩ | ⟨missing, -⟩)
      · have within := sound.limited (by omega)
        omega
      · omega
  · have got := sound.get_behind grows memory
    rw [← behind] at got
    constructor
    · intro accesses
      refine .inr (.inr ⟨behind, ?_⟩)
      by_contra neither
      obtain ⟨inside, found⟩ := not_or.mp neither
      have within : aa.limit = 0 ∨ idx.toInt < aa.limit := by
        by_cases unlimited : aa.limit = 0
        · exact .inl unlimited
        · have fits := sound.limited unlimited
          omega
      obtain ⟨next, item, -⟩ := accesses.within within (.inr (Option.isSome_iff_ne_none.mpr found))
      rw [got] at item
      cases item
    · intro right
      refine ⟨?_, fun _ => got⟩
      rintro within (there | found)
      · omega
      · rcases right with there | ⟨limited, outside⟩ | ⟨-, last | none_⟩
        · omega
        · omega
        · omega
        · rw [none_] at found
          cases found
  · by_cases over_ : aa.limit ≠ 0 ∧ aa.limit < idx.toInt
    · have got := sound.get_outside small grows (by omega) over_.2 memory
      refine iff_of_true ⟨?_, fun _ => got⟩ (.inr (.inl ⟨by omega, over_.2⟩))
      rintro (unlimited | inside) _
      · exact absurd unlimited over_.1
      · omega
    · refine iff_of_false (sound.not_accesses small beyond over_ grows) ?_
      rintro (there | ⟨limited, outside⟩ | ⟨behind, -⟩)
      · omega
      · exact over_ ⟨by omega, outside⟩
      · omega

/-- An array of two bytes. -/
def twoBytes : Atuoarray := ⟨some [0, 0], 1, 2, 0, 1, none⟩

theorem twoBytes_reached : Reached twoBytes :=
  @Reached.init 1 2 0 1 none twoBytes rfl (by decide)

theorem accesses_iff_twoBytes :
    Accesses twoBytes (1 : Int32).toInt none ↔ (1 : Int32).toInt < twoBytes.count ∨
      (0 < twoBytes.limit ∧ twoBytes.limit < (1 : Int32).toInt) ∨
      ((1 : Int32).toInt = twoBytes.count ∧
        ((1 : Int32).toInt = twoBytes.limit ∨ (none : Option (Nat → UInt8)) = none)) :=
  accesses_iff twoBytes 1 none twoBytes_reached (by decide) (by decide)

/-- The array grows to the index and has no item there. -/
theorem not_accesses_twoBytes : ¬ Accesses twoBytes (5 : Int32).toInt (some fun _ => 7) :=
  twoBytes_reached.sound.not_accesses (by decide) (by decide) (by decide) (by decide)

end Trunk.Autoarray
