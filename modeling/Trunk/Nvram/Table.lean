import Mathlib.Algebra.Ring.Nat
import Mathlib.Data.List.Nodup
import Mathlib.Logic.Function.Basic
import Trunk.Utils.CString

/-! # The table of NVRAM variables

The hash table of `nvram.c`: tuples of a name and a value, chained in 257 buckets. Read by
`nvram_get` it is a map from names to values: `nvram_set` of a value that fits changes the
value of its own name (`Trunk.Nvram.nvramGet_nvramSet`), and what is found is what the buckets
hold (`Trunk.Nvram.Filed.nvramGet_eq_some_iff`).

The hash is that of the targets of the package, where `char` is signed and a pointer has four
bytes. Memory is always allocated.
-/

namespace Trunk.Nvram

open CString

/-- `NVRAM_SPACE`. -/
def nvramSpace : Nat := 0x8000

/-- `struct nvram_tuple`. -/
structure Tuple where
  name : CStr
  value : CStr
  deriving DecidableEq

/-- `struct nvram_handle`. The mapping is the list of its bytes. -/
structure Handle where
  mmap : List UInt8
  offset : Nat
  nvramHash : Fin 257 → List Tuple
  nvramDead : List Tuple

/-- `hash`. -/
def hash (s : CStr) : UInt32 :=
  s.bytes.foldl (fun hash byte => 31 * hash + byte.toInt8.toInt32.toUInt32) 0

/-- `hash(name) % NVRAM_ARRAYSIZE(h->nvram_hash)`. The macro is a quotient without brackets,
so the remainder is taken of the size in bytes. -/
def bucket (name : CStr) : Fin 257 :=
  ⟨(hash name).toNat % (257 * 4) / 4, by omega⟩

/-- `_nvram_free`. -/
def nvramFree (h : Handle) : Handle := { h with nvramHash := fun _ => [], nvramDead := [] }

/-- The tuple of a name in a chain. -/
def lookup (name : CStr) (chain : List Tuple) : Option Tuple :=
  chain.find? fun t => t.name = name

/-- `nvram_get`. -/
def nvramGet (h : Handle) (name : CStr) : Option CStr :=
  (lookup name (h.nvramHash (bucket name))).map Tuple.value

/-- `_nvram_realloc`: the tuple `t`, or a new one, with the value. -/
def nvramRealloc (t : Option Tuple) (name value : CStr) : Option Tuple :=
  if value.bytes.length + 1 > nvramSpace then none
  else some { name := (t.map Tuple.name).getD name, value := value }

/-- A tuple of a chain is written in place. -/
def replace (name : CStr) (u : Tuple) : List Tuple → List Tuple
  | [] => []
  | t :: chain => if t.name = name then u :: chain else t :: replace name u chain

/-- A chain is hooked into its bucket. -/
def Handle.hook (h : Handle) (name : CStr) (chain : List Tuple) : Handle :=
  { h with nvramHash := Function.update h.nvramHash (bucket name) chain }

/-- `nvram_set`. A tuple that is there already is the one `_nvram_realloc` returns. -/
def nvramSet (h : Handle) (name value : CStr) : Int × Handle :=
  let chain := h.nvramHash (bucket name)
  match lookup name chain, nvramRealloc (lookup name chain) name value with
  | _, none => (-12, h)
  | some _, some u => (0, h.hook name (replace name u chain))
  | none, some u => (0, h.hook name (u :: chain))

/-- `nvram_unset`. -/
def nvramUnset (h : Handle) (name : CStr) : Handle :=
  let chain := h.nvramHash (bucket name)
  match lookup name chain with
  | none => h
  | some t =>
      { h.hook name (chain.eraseP fun t => t.name = name) with nvramDead := t :: h.nvramDead }

/-- The tuples of the table, bucket by bucket. -/
def Handle.tuples (h : Handle) : List Tuple := (List.finRange 257).flatMap h.nvramHash

variable {h : Handle} {name other value : CStr} {chain : List Tuple} {t u : Tuple}

theorem lookup_cons (name : CStr) (first : Tuple) (chain : List Tuple) :
    lookup name (first :: chain) =
      if first.name = name then some first else lookup name chain := by
  rw [lookup, List.find?_cons]
  by_cases here : first.name = name
  · simp only [here, decide_true, ↓reduceIte]
  · simp only [here, decide_false, ↓reduceIte, lookup]

theorem name_of_lookup (found : lookup name chain = some t) : t.name = name := by
  have named := List.find?_some found
  exact of_decide_eq_true named

theorem lookup_eq_none_iff : lookup name chain = none ↔ name ∉ chain.map Tuple.name := by
  rw [lookup, List.find?_eq_none, List.mem_map]
  simp only [decide_eq_true_eq, not_exists, not_and]

theorem lookup_replace (listed : lookup name chain ≠ none) (named : u.name = name) :
    lookup other (replace name u chain) = if other = name then some u else lookup other chain := by
  induction chain with
  | nil => exact absurd rfl listed
  | cons first chain ih =>
      rw [lookup_cons] at listed
      rw [replace]
      by_cases here : first.name = name
      · simp only [here, named, ↓reduceIte, lookup_cons, eq_comm]
        split <;> rfl
      · rw [if_neg here] at listed
        rw [if_neg here, lookup_cons, ih listed, lookup_cons]
        by_cases same : other = name
        · rw [if_pos same, if_neg (by rw [same]; exact here), if_pos same]
        · rw [if_neg same, if_neg same]

theorem names_replace (named : u.name = name) :
    (replace name u chain).map Tuple.name = chain.map Tuple.name := by
  induction chain with
  | nil => rfl
  | cons first chain ih =>
      rw [replace]
      split
      · rename_i here
        rw [List.map_cons, List.map_cons, named, here]
      · rw [List.map_cons, List.map_cons, ih]

/-- The chain of a name after its value is set. -/
def stored (name value : CStr) (chain : List Tuple) : List Tuple :=
  match lookup name chain with
  | some _ => replace name ⟨name, value⟩ chain
  | none => ⟨name, value⟩ :: chain

/-- A value is refused, and nothing changes, or it is stored. -/
theorem nvramSet_eq (h : Handle) (name value : CStr) :
    nvramSet h name value =
      if value.bytes.length + 1 > nvramSpace then (-12, h)
      else (0, h.hook name (stored name value (h.nvramHash (bucket name)))) := by
  unfold nvramSet stored nvramRealloc
  by_cases big : value.bytes.length + 1 > nvramSpace
  · simp only [big, ↓reduceIte]
  · simp only [big, ↓reduceIte]
    cases found : lookup name (h.nvramHash (bucket name)) with
    | none => rfl
    | some t => simp only [Option.map_some, Option.getD_some, name_of_lookup found]

theorem lookup_stored (other name value : CStr) (chain : List Tuple) :
    lookup other (stored name value chain) =
      if other = name then some ⟨name, value⟩ else lookup other chain := by
  unfold stored
  cases found : lookup name chain with
  | none =>
      simp only [lookup_cons]
      by_cases same : other = name
      · rw [if_pos same, if_pos same.symm]
      · rw [if_neg same, if_neg (Ne.symm same)]
  | some t => exact lookup_replace (by rw [found]; nofun) rfl

theorem names_stored (name value : CStr) (chain : List Tuple) :
    (stored name value chain).map Tuple.name =
      if name ∈ chain.map Tuple.name then chain.map Tuple.name
      else name :: chain.map Tuple.name := by
  unfold stored
  cases found : lookup name chain with
  | none => rw [if_neg (lookup_eq_none_iff.mp found), List.map_cons]
  | some t =>
      have listed : name ∈ chain.map Tuple.name := by
        by_contra absent
        rw [lookup_eq_none_iff.mpr absent] at found
        cases found
      rw [if_pos listed]
      exact names_replace rfl

theorem nvramGet_hook (h : Handle) (name other : CStr) (chain : List Tuple) :
    nvramGet (h.hook name chain) other =
      if bucket other = bucket name then (lookup other chain).map Tuple.value
      else nvramGet h other := by
  simp only [nvramGet, Handle.hook]
  by_cases same : bucket other = bucket name
  · rw [if_pos same, same, Function.update_self]
  · rw [if_neg same, Function.update_of_ne same]

/-- A value that fits is the value of its name, and of no other. -/
theorem nvramGet_nvramSet (h : Handle) {name value : CStr} (other : CStr)
    (fits : value.bytes.length < nvramSpace) :
    nvramGet (nvramSet h name value).2 other =
      if other = name then some value else nvramGet h other := by
  rw [nvramSet_eq, if_neg (by omega), nvramGet_hook, lookup_stored]
  by_cases same : other = name
  · subst other
    simp only [↓reduceIte, Option.map_some]
  · simp only [same, ↓reduceIte]
    by_cases here : bucket other = bucket name
    · rw [if_pos here, nvramGet, here]
    · rw [if_neg here]

/-- A chain holds names of its bucket, each once. Names have no equals sign. -/
structure Chained (slot : Fin 257) (names : List CStr) : Prop where
  placed : ∀ name ∈ names, bucket name = slot
  plain : ∀ name ∈ names, ascii '=' ∉ name.bytes
  unique : names.Nodup

/-- Every chain of the table is right. -/
def Filed (h : Handle) : Prop := ∀ slot, Chained slot ((h.nvramHash slot).map Tuple.name)

theorem filed_nvramFree (h : Handle) : Filed (nvramFree h) := by
  intro slot
  exact ⟨nofun, nofun, List.nodup_nil⟩

/-- Every chain of the table holds names of its bucket, each once, and only such as are allowed. -/
structure Shelved (allowed : CStr → Prop) (h : Handle) : Prop where
  placed : ∀ slot, ∀ name ∈ (h.nvramHash slot).map Tuple.name, bucket name = slot ∧ allowed name
  unique : ∀ slot, ((h.nvramHash slot).map Tuple.name).Nodup

theorem filed_iff_shelved : Filed h ↔ Shelved (fun name => ascii '=' ∉ name.bytes) h := by
  constructor
  · intro filed
    exact ⟨fun slot name listed => ⟨(filed slot).placed name listed, (filed slot).plain name listed⟩,
      fun slot => (filed slot).unique⟩
  · intro shelved slot
    exact ⟨fun name listed => (shelved.placed slot name listed).1,
      fun name listed => (shelved.placed slot name listed).2, shelved.unique slot⟩

section Shelved

variable {allowed : CStr → Prop}

theorem Shelved.mono (shelved : Shelved allowed h) {allowed' : CStr → Prop}
    (more : ∀ name, allowed name → allowed' name) : Shelved allowed' h where
  placed slot name listed :=
    ⟨(shelved.placed slot name listed).1, more name (shelved.placed slot name listed).2⟩
  unique := shelved.unique

/-- A right chain may be hooked into its bucket. -/
theorem Shelved.hook (shelved : Shelved allowed h)
    (placed : ∀ other ∈ chain.map Tuple.name, bucket other = bucket name ∧ allowed other)
    (unique : (chain.map Tuple.name).Nodup) : Shelved allowed (h.hook name chain) := by
  constructor
  · intro slot
    by_cases same : slot = bucket name
    · subst slot
      simp only [Handle.hook, Function.update_self]
      exact placed
    · simp only [Handle.hook, Function.update_of_ne same]
      exact shelved.placed slot
  · intro slot
    by_cases same : slot = bucket name
    · subst slot
      simp only [Handle.hook, Function.update_self]
      exact unique
    · simp only [Handle.hook, Function.update_of_ne same]
      exact shelved.unique slot

theorem Shelved.nvramSet (shelved : Shelved allowed h) (permitted : allowed name) (value : CStr) :
    Shelved allowed (nvramSet h name value).2 := by
  rw [nvramSet_eq]
  split
  · exact shelved
  · have before := shelved.placed (bucket name)
    have unique := shelved.unique (bucket name)
    refine shelved.hook ?_ ?_
    · rw [names_stored]
      split
      · exact before
      · exact List.forall_mem_cons.mpr ⟨⟨rfl, permitted⟩, before⟩
    · rw [names_stored]
      split
      · exact unique
      · rename_i absent
        exact List.nodup_cons.mpr ⟨absent, unique⟩

theorem Shelved.nvramUnset (shelved : Shelved allowed h) (name : CStr) :
    Shelved allowed (nvramUnset h name) := by
  unfold Nvram.nvramUnset
  dsimp only
  split
  · exact shelved
  · have fewer : (((h.nvramHash (bucket name)).eraseP fun t => t.name = name).map
        Tuple.name).Sublist ((h.nvramHash (bucket name)).map Tuple.name) :=
      List.eraseP_sublist.map _
    have hooked : Shelved allowed
        (h.hook name ((h.nvramHash (bucket name)).eraseP fun t => t.name = name)) :=
      shelved.hook
        (fun other listed => shelved.placed (bucket name) other (fewer.subset listed))
        ((shelved.unique (bucket name)).sublist fewer)
    exact ⟨hooked.placed, hooked.unique⟩

end Shelved

theorem Filed.nvramSet (filed : Filed h) (plain : ascii '=' ∉ name.bytes) (value : CStr) :
    Filed (nvramSet h name value).2 :=
  filed_iff_shelved.mpr ((filed_iff_shelved.mp filed).nvramSet plain value)

theorem Filed.nvramUnset (filed : Filed h) (name : CStr) : Filed (nvramUnset h name) :=
  filed_iff_shelved.mpr ((filed_iff_shelved.mp filed).nvramUnset name)

theorem lookup_eq_some_iff (unique : (chain.map Tuple.name).Nodup) :
    lookup name chain = some t ↔ t ∈ chain ∧ t.name = name := by
  induction chain with
  | nil => simp only [lookup, List.find?_nil, reduceCtorEq, List.not_mem_nil, false_and]
  | cons first chain ih =>
      rw [List.map_cons, List.nodup_cons] at unique
      rw [lookup_cons, List.mem_cons]
      by_cases here : first.name = name
      · rw [if_pos here, Option.some.injEq]
        constructor
        · rintro rfl
          exact ⟨.inl rfl, here⟩
        · rintro ⟨rfl | later, named⟩
          · rfl
          · refine absurd (List.mem_map.mpr ⟨t, later, ?_⟩) unique.1
            rw [named, here]
      · rw [if_neg here, ih unique.2]
        constructor
        · rintro ⟨later, named⟩
          exact ⟨.inr later, named⟩
        · rintro ⟨rfl | later, named⟩
          · exact absurd named here
          · exact ⟨later, named⟩

theorem mem_tuples : t ∈ h.tuples ↔ ∃ slot, t ∈ h.nvramHash slot := by
  simp only [Handle.tuples, List.mem_flatMap, List.mem_finRange, true_and]

section Shelved

variable {allowed : CStr → Prop}

/-- What is found is what the buckets hold. -/
theorem Shelved.nvramGet_eq_some_iff (shelved : Shelved allowed h) :
    nvramGet h name = some value ↔ ⟨name, value⟩ ∈ h.tuples := by
  rw [nvramGet, Option.map_eq_some_iff, mem_tuples]
  constructor
  · rintro ⟨t, found, rfl⟩
    obtain ⟨listed, rfl⟩ := (lookup_eq_some_iff (shelved.unique _)).mp found
    exact ⟨_, listed⟩
  · rintro ⟨slot, listed⟩
    have here : bucket name = slot :=
      (shelved.placed slot name (List.mem_map.mpr ⟨_, listed, rfl⟩)).1
    rw [here]
    exact ⟨_, (lookup_eq_some_iff (shelved.unique _)).mpr ⟨listed, rfl⟩, rfl⟩

/-- No two tuples of the table have one name. -/
theorem Shelved.nodup_names (shelved : Shelved allowed h) : (h.tuples.map Tuple.name).Nodup := by
  rw [Handle.tuples, List.map_flatMap, List.nodup_flatMap]
  refine ⟨fun slot _ => shelved.unique slot, ?_⟩
  refine (List.nodup_finRange 257).imp ?_
  intro first second different name inFirst inSecond
  exact different ((shelved.placed first name inFirst).1.symm.trans
    (shelved.placed second name inSecond).1)

/-- A name that is unset has no value, and the others keep theirs. -/
theorem Shelved.nvramGet_nvramUnset (shelved : Shelved allowed h) (name other : CStr) :
    nvramGet (Nvram.nvramUnset h name) other = if other = name then none else nvramGet h other := by
  have without : ∀ other, lookup other
      ((h.nvramHash (bucket name)).eraseP fun t => t.name = name) =
        if other = name then none else lookup other (h.nvramHash (bucket name)) := by
    intro other
    have unique := shelved.unique (bucket name)
    generalize h.nvramHash (bucket name) = chain at unique
    induction chain with
    | nil => simp only [List.eraseP_nil, lookup, List.find?_nil, ite_self]
    | cons first chain ih =>
        rw [List.map_cons, List.nodup_cons] at unique
        by_cases here : first.name = name
        · rw [List.eraseP_cons_of_pos (by simpa using here), lookup_cons, here]
          by_cases same : other = name
          · rw [if_pos same, same, lookup_eq_none_iff, ← here]
            exact unique.1
          · rw [if_neg same, if_neg (Ne.symm same)]
        · rw [List.eraseP_cons_of_neg (by simpa using here), lookup_cons, lookup_cons, ih unique.2]
          by_cases same : other = name
          · rw [if_pos same, if_pos same, same, if_neg here]
          · rw [if_neg same, if_neg same]
  cases found : lookup name (h.nvramHash (bucket name)) with
  | none =>
      have same : Nvram.nvramUnset h name = h := by
        unfold Nvram.nvramUnset
        dsimp only
        rw [found]
      rw [same]
      split
      · rename_i eq
        rw [eq, nvramGet, found, Option.map_none]
      · rfl
  | some t =>
      have hooked : nvramGet (Nvram.nvramUnset h name) other = nvramGet
          (h.hook name ((h.nvramHash (bucket name)).eraseP fun t => t.name = name)) other := by
        unfold Nvram.nvramUnset
        dsimp only
        rw [found]
        rfl
      rw [hooked, nvramGet_hook, without]
      by_cases same : other = name
      · rw [if_pos same, if_pos same, same, if_pos rfl, Option.map_none]
      · rw [if_neg same, if_neg same]
        by_cases here : bucket other = bucket name
        · rw [if_pos here, nvramGet, here]
        · rw [if_neg here]

end Shelved

theorem Filed.nvramGet_eq_some_iff (filed : Filed h) :
    nvramGet h name = some value ↔ ⟨name, value⟩ ∈ h.tuples :=
  (filed_iff_shelved.mp filed).nvramGet_eq_some_iff

theorem Filed.nodup_names (filed : Filed h) : (h.tuples.map Tuple.name).Nodup :=
  (filed_iff_shelved.mp filed).nodup_names

theorem Filed.plain_of_mem (filed : Filed h) (listed : t ∈ h.tuples) : ascii '=' ∉ t.name.bytes := by
  obtain ⟨slot, here⟩ := mem_tuples.mp listed
  exact (filed slot).plain _ (List.mem_map.mpr ⟨t, here, rfl⟩)

/-- Tuples of different names set one after another are all found. -/
theorem nvramGet_foldl (h : Handle) (tuples : List Tuple) (unique : (tuples.map Tuple.name).Nodup)
    (fits : ∀ t ∈ tuples, t.value.bytes.length < nvramSpace) (name : CStr) :
    nvramGet (tuples.foldl (fun h t => (nvramSet h t.name t.value).2) h) name =
      ((lookup name tuples).map Tuple.value).or (nvramGet h name) := by
  induction tuples generalizing h with
  | nil => rfl
  | cons first tuples ih =>
      rw [List.map_cons, List.nodup_cons] at unique
      rw [List.forall_mem_cons] at fits
      rw [List.foldl_cons, ih _ unique.2 fits.2, nvramGet_nvramSet _ _ fits.1, lookup_cons]
      by_cases here : first.name = name
      · have last : lookup name tuples = none := by
          rw [lookup_eq_none_iff, ← here]
          exact unique.1
        rw [last, if_pos here, if_pos here.symm]
        rfl
      · rw [if_neg here, if_neg (Ne.symm here)]

end Trunk.Nvram
