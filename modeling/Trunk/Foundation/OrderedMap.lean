import Mathlib.Data.List.Nodup
import Mathlib.Logic.Function.Basic

/-! # Ordered finite maps

A map with finitely many keys, which it keeps in an order. A value that is stored under a known key
leaves the order as it is, a new key comes last (`Trunk.OrderedMap.store`), and removal takes keys
out (`Trunk.OrderedMap.remove`). Both leave the entries of other keys, and their order, as they are
(`Trunk.OrderedMap.filter_entries_store`, `Trunk.OrderedMap.filter_entries_remove`).
-/

namespace Trunk

/-- Distinct keys in an order, each with a value. -/
structure OrderedMap (κ ν : Type*) where
  keys : List κ
  value : κ → Option ν
  nodup : keys.Nodup
  known : ∀ key, (value key).isSome ↔ key ∈ keys

namespace OrderedMap

variable {κ ν : Type*} {map : OrderedMap κ ν} {key : κ}

/-- The keys with their values, in order. -/
def entries (map : OrderedMap κ ν) : List (κ × ν) :=
  map.keys.filterMap fun key => (map.value key).map (Prod.mk key)

theorem value_eq_none (fresh : key ∉ map.keys) : map.value key = none := by
  rw [← map.known, Bool.not_eq_true, Option.isSome_eq_false_iff] at fresh
  exact Option.isNone_iff_eq_none.mp fresh

/-- Remove the keys that satisfy a test. -/
def remove (map : OrderedMap κ ν) (test : κ → Bool) : OrderedMap κ ν where
  keys := map.keys.filter fun key => !test key
  value key := if test key then none else map.value key
  nodup := map.nodup.filter _
  known key := by
    rw [List.mem_filter, ← map.known]
    cases test key with
    | true => simp
    | false => simp

theorem keys_remove (map : OrderedMap κ ν) (test : κ → Bool) :
    (map.remove test).keys = map.keys.filter fun key => !test key := rfl

theorem value_remove (map : OrderedMap κ ν) (test : κ → Bool) (key : κ) :
    (map.remove test).value key = if test key then none else map.value key := rfl

/-- Removal takes out the entries of the keys that satisfy the test. -/
theorem entries_remove (map : OrderedMap κ ν) (test : κ → Bool) :
    (map.remove test).entries = map.entries.filter fun entry => !test entry.1 := by
  rw [entries, keys_remove, List.filterMap_filter, entries, List.filter_filterMap]
  refine List.filterMap_congr fun key _ => ?_
  rw [value_remove]
  cases map.value key with
  | none => cases test key <;> rfl
  | some value =>
      rw [Option.map_some, Option.filter_some]
      cases test key <;> rfl

/-- Removal keeps the entries of other keys in their order. -/
theorem filter_entries_remove (map : OrderedMap κ ν) (test : κ → Bool) :
    ((map.remove test).entries.filter fun entry => !test entry.1) =
      map.entries.filter fun entry => !test entry.1 := by
  rw [entries_remove, List.filter_filter]
  simp only [Bool.and_self]

variable [DecidableEq κ]

/-- Store a value: a known key keeps its place, a new one comes last. -/
def store (map : OrderedMap κ ν) (key : κ) (value : ν) : OrderedMap κ ν where
  keys := if key ∈ map.keys then map.keys else map.keys ++ [key]
  value := Function.update map.value key (some value)
  nodup := by
    split
    · exact map.nodup
    · rename_i fresh
      exact List.concat_eq_append ▸ map.nodup.concat fresh
  known other := by
    by_cases same : other = key
    · subst other
      rw [Function.update_self]
      split
      · rename_i known
        exact iff_of_true rfl known
      · exact iff_of_true rfl (List.mem_append_right _ (List.mem_singleton_self _))
    · rw [Function.update_of_ne same, map.known]
      split
      · rfl
      · rw [List.mem_append, List.mem_singleton]
        exact (or_iff_left same).symm

theorem keys_store_of_mem (known : key ∈ map.keys) (value : ν) :
    (map.store key value).keys = map.keys := if_pos known

theorem keys_store_of_notMem (fresh : key ∉ map.keys) (value : ν) :
    (map.store key value).keys = map.keys ++ [key] := if_neg fresh

@[simp] theorem value_store_self (map : OrderedMap κ ν) (key : κ) (value : ν) :
    (map.store key value).value key = some value := Function.update_self ..

theorem value_store_of_ne (map : OrderedMap κ ν) {other : κ} (differ : other ≠ key) (value : ν) :
    (map.store key value).value other = map.value other := Function.update_of_ne differ ..

/-- A stored value leaves the entries of other keys in their order. -/
theorem filter_entries_store (map : OrderedMap κ ν) (key : κ) (value : ν) :
    ((map.store key value).entries.filter fun entry => !decide (entry.1 = key)) =
      map.entries.filter fun entry => !decide (entry.1 = key) := by
  have others : ∀ keys : List κ, ((keys.filterMap fun other =>
      ((map.store key value).value other).map (Prod.mk other)).filter
        fun entry => !decide (entry.1 = key)) =
      (keys.filterMap fun other => (map.value other).map (Prod.mk other)).filter
        fun entry => !decide (entry.1 = key) := by
    intro keys
    rw [List.filter_filterMap, List.filter_filterMap]
    refine List.filterMap_congr fun other _ => ?_
    by_cases same : other = key
    · subst other
      rw [value_store_self]
      cases map.value key with
      | none => simp
      | some old => simp [Option.filter_some]
    · rw [value_store_of_ne map same]
  rw [entries, others, entries]
  by_cases known : key ∈ map.keys
  · rw [keys_store_of_mem known]
  · rw [keys_store_of_notMem known, List.filterMap_append, List.filterMap_cons,
      value_eq_none known, Option.map_none, List.filterMap_nil, List.append_nil]

end OrderedMap

end Trunk
