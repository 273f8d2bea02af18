import Mathlib.Data.List.Nodup
import Trunk.Appkey.Table
import Trunk.Foundation.Run

/-! # Handles of application keys

What the table of keys is for: a dictionary from pairs of names to values, in which
every accepted line and every `appkey_set` through a handle leaves its value
(`Trunk.Libappkey.Dict`). The table holds the dictionary's names in the order they
came in. A handle keeps its meaning, but its 16 bits for the byte offset only reach
the first 964 entries: exactly those are readable
(`Trunk.Libappkey.appkey_readable`).
-/

namespace Trunk.Libappkey

open CString Run

/-- An application's name and a key's name. -/
abbrev Name := List UInt8 × List UInt8

def Appkey.name (ak : Appkey) : Name := (ak.app, ak.key)

/-- The handle `__appkey_getbyname` makes of an entry's index. -/
def handle (index : Nat) : AppkeyT := akMake index (getoffset index)

/-- A call that changes the table. -/
inductive Op where
  | load (filename line : Line)
  | set (akid : AppkeyT) (value : UInt32)

/-- The table after one call. -/
def step (width : Nat) (table : Table) : Op → Table
  | .load filename line => (loadLine width table filename line).2
  | .set akid value => (appkeySet table akid value).2

/-- The dictionary: the names in the order they came in, and the value of each. -/
structure Dict where
  names : List Name
  value : Name → UInt32

namespace Dict

def init : Dict := ⟨[], fun _ => 0⟩

def put (dict : Dict) (name : Name) (value : UInt32) : Dict :=
  { dict with value := Function.update dict.value name value }

/-- An accepted line puts its value, under a new name if there is room for one; a set
through the handle of a name puts its value under that name. -/
def step (width limit : Nat) (dict : Dict) : Op → Dict
  | .load filename line =>
      match akInfo width filename line with
      | .error _ => dict
      | .ok info =>
          if (info.app, info.key) ∈ dict.names then dict.put (info.app, info.key) info.value
          else if dict.names.length < limit then
            { dict with names := dict.names ++ [(info.app, info.key)] }.put (info.app, info.key)
              info.value
          else dict
  | .set akid value =>
      match dict.names[akid.idx.toNat]? with
      | some name => if handle akid.idx.toNat = akid then dict.put name value else dict
      | none => dict

end Dict

/-- How many entries a 16-bit offset reaches. -/
def reach : Nat := 964

theorem getoffset_lt_iff (index : Nat) : getoffset index < 2 ^ 16 ↔ index < reach := by
  simp only [getoffset, headerSize, appkeySize, reach]
  omega

theorem handle_idx {index : Nat} (small : index < 2 ^ 16) : (handle index).idx.toNat = index := by
  simp only [handle, akMake, UInt16.toNat_ofNat']
  exact Nat.mod_eq_of_lt small

/-- A handle finds the entry it was made for if the offset fits 16 bits, and no entry
otherwise. -/
theorem getbyid_handle {table : Table} {index : Nat} (inside : index < table.keys.length)
    (small : index < 2 ^ 16) :
    getbyid table (handle index) = if index < reach then some index else none := by
  unfold getbyid
  rw [handle_idx small, if_pos inside]
  have offset : (handle index).offset.toNat = getoffset index % 2 ^ 16 := by
    simp only [handle, akMake, UInt16.toNat_ofNat']
  rw [offset]
  by_cases near : index < reach
  · have fits := (getoffset_lt_iff index).mpr near
    rw [Nat.mod_eq_of_lt fits, if_pos rfl, if_pos near]
  · have wrapped : getoffset index % 2 ^ 16 ≠ getoffset index := by
      have beyond := (getoffset_lt_iff index).not.mpr near
      have bound := Nat.mod_lt (getoffset index) (show 0 < 2 ^ 16 by decide)
      omega
    rw [if_neg wrapped, if_neg near]

/-- Only handles find entries, and only those of the first entries. -/
theorem getbyid_eq_some {table : Table} {akid : AppkeyT} {index : Nat}
    (found : getbyid table akid = some index) :
    index = akid.idx.toNat ∧ handle akid.idx.toNat = akid ∧ index < reach ∧
      index < table.keys.length := by
  unfold getbyid at found
  split at found
  · rename_i inside
    split at found
    · rename_i offset
      obtain rfl := Option.some.inj found
      refine ⟨rfl, ?_, ?_, inside⟩
      · obtain ⟨idx, packed⟩ := akid
        simp only [handle, akMake, ← offset, UInt16.ofNat_toNat]
      · rw [← getoffset_lt_iff, ← offset]
        exact akid.offset.toNat_lt
    · cases found
  · cases found

theorem loadLineApp_short {filename : Line} {app : List UInt8}
    (parsed : loadLineApp filename = .ok app) : app.length < appNamelen := by
  unfold loadLineApp at parsed
  dsimp only at parsed
  split at parsed
  · cases parsed
  split at parsed
  · cases parsed
  · rename_i short
    cases parsed
    omega

theorem loadLineKv_short {line : Line} {key var : List UInt8}
    (parsed : loadLineKv line = .ok (key, var)) : key.length < appKeyNamelen := by
  unfold loadLineKv at parsed
  dsimp only at parsed
  split at parsed
  · cases parsed
  split at parsed
  · cases parsed
  · rename_i short
    cases parsed
    omega

theorem akInfo_short {width : Nat} {filename line : Line} {info : AkInfo}
    (parsed : akInfo width filename line = .ok info) :
    info.app.length < appNamelen ∧ info.key.length < appKeyNamelen := by
  unfold akInfo at parsed
  cases first : loadLineApp filename with
  | error err =>
      rw [first] at parsed
      cases parsed
  | ok app =>
      cases second : loadLineKv line with
      | error err =>
          rw [first, second] at parsed
          cases parsed
      | ok kv =>
          obtain ⟨key, var⟩ := kv
          cases third : loadLineValue width app key var with
          | error err =>
              simp only [first, second, third, bind, Except.bind] at parsed
              cases parsed
          | ok value =>
              simp only [first, second, third, bind, Except.bind, pure, Except.pure] at parsed
              cases parsed
              exact ⟨loadLineApp_short first, loadLineKv_short second⟩

/-- Comparing with a name that leaves room for its NUL is comparing the whole. -/
theorem strncmpEq_iff {length : Nat} {stored text : List UInt8} (short : stored.length < length) :
    strncmpEq length stored text = true ↔ stored = text := by
  rw [strncmpEq, decide_eq_true_eq, List.take_of_length_le (Nat.le_of_lt short)]
  constructor
  · intro same
    have size := congrArg List.length same
    rw [List.length_take] at size
    rw [same, List.take_of_length_le (by omega)]
  · intro same
    rw [← same, List.take_of_length_le (Nat.le_of_lt short)]

/-- The table holds the dictionary: the same names in the same order, and the value of
every entry within reach. -/
structure Holds (limit : Nat) (table : Table) (dict : Dict) : Prop where
  room : table.limit = limit
  names : table.keys.map Appkey.name = dict.names
  nodup : dict.names.Nodup
  count : dict.names.length ≤ limit
  short : ∀ name ∈ dict.names, name.1.length < appNamelen ∧ name.2.length < appKeyNamelen
  values : ∀ index ak, index < reach → table.keys[index]? = some ak → ak.value = dict.value ak.name

theorem holds_init (limit : Nat) : Holds limit (init limit) Dict.init where
  room := rfl
  names := rfl
  nodup := List.nodup_nil
  count := Nat.zero_le _
  short := by simp [Dict.init]
  values := by simp [init]

variable {limit width : Nat} {table : Table} {dict : Dict}

theorem Holds.getElem?_name (holds : Holds limit table dict) (index : Nat) :
    dict.names[index]? = table.keys[index]?.map Appkey.name := by
  rw [← holds.names, List.getElem?_map]

theorem Holds.matches_iff (holds : Holds limit table dict) (app key : List UInt8) {ak : Appkey}
    (member : ak ∈ table.keys) :
    (strncmpEq (1 + appNamelen) ak.app app && strncmpEq (1 + appKeyNamelen) ak.key key) = true ↔
      ak.name = (app, key) := by
  have listed : ak.name ∈ dict.names := by
    rw [← holds.names]
    exact List.mem_map_of_mem member
  obtain ⟨shortApp, shortKey⟩ := holds.short _ listed
  simp only [Appkey.name] at shortApp shortKey
  rw [Bool.and_eq_true, strncmpEq_iff (by omega), strncmpEq_iff (by omega), Appkey.name,
    Prod.mk.injEq]

/-- A name is found at its place in the dictionary. -/
theorem Holds.getbyname_eq_some_iff (holds : Holds limit table dict) (app key : List UInt8)
    (index : Nat) :
    getbyname table app key = some index ↔ dict.names[index]? = some (app, key) := by
  rw [getbyname, List.findIdx?_eq_some_iff_getElem]
  constructor
  · rintro ⟨inside, found, _⟩
    rw [holds.getElem?_name, List.getElem?_eq_getElem inside, Option.map_some,
      (holds.matches_iff app key (List.getElem_mem inside)).mp found]
  · intro listed
    have position := listed
    rw [holds.getElem?_name, Option.map_eq_some_iff] at listed
    obtain ⟨ak, here, name⟩ := listed
    obtain ⟨inside, rfl⟩ := List.getElem?_eq_some_iff.mp here
    refine ⟨inside, (holds.matches_iff app key (List.getElem_mem inside)).mpr name, ?_⟩
    intro earlier before found
    have early : earlier < table.keys.length := Nat.lt_trans before inside
    have sameName := (holds.matches_iff app key (List.getElem_mem early)).mp found
    have same : dict.names[earlier]? = dict.names[index]? := by
      rw [position, holds.getElem?_name, List.getElem?_eq_getElem early, Option.map_some, sameName]
    have unique := (List.getElem?_inj (by rw [← holds.names, List.length_map]; exact early)
      holds.nodup).mp same
    omega

/-- A name that is not found is not in the dictionary. -/
theorem Holds.getbyname_eq_none_iff (holds : Holds limit table dict) (app key : List UInt8) :
    getbyname table app key = none ↔ (app, key) ∉ dict.names := by
  rw [getbyname, List.findIdx?_eq_none_iff, ← holds.names, List.mem_map, not_exists]
  refine forall_congr' fun ak => ?_
  rw [not_and]
  refine imp_congr_right fun member => ?_
  rw [← holds.matches_iff app key member, Bool.not_eq_true]

theorem setValue_names (table : Table) (index : Nat) (value : UInt32) :
    (setValue table index value).keys.map Appkey.name = table.keys.map Appkey.name := by
  apply List.ext_getElem?
  intro other
  simp only [setValue, List.getElem?_map, List.getElem?_modify, Option.map_eq_map, Option.map_map]
  congr 1
  funext ak
  simp only [Function.comp]
  split <;> rfl

/-- Setting an entry's value is putting the value under its name. -/
theorem Holds.setValue (holds : Holds limit table dict) {index : Nat} {name : Name}
    (listed : dict.names[index]? = some name) (value : UInt32) :
    Holds limit (setValue table index value) (dict.put name value) where
  room := holds.room
  names := (setValue_names ..).trans holds.names
  nodup := holds.nodup
  count := holds.count
  short := holds.short
  values := by
    intro other ak near found
    simp only [Libappkey.setValue, List.getElem?_modify] at found
    obtain ⟨before, here, rfl⟩ := Option.map_eq_some_iff.mp found
    have otherName : dict.names[other]? = some before.name := by
      rw [holds.getElem?_name, here, Option.map_some]
    split
    · rename_i same
      subst other
      obtain rfl := Option.some.inj (listed.symm.trans otherName)
      simp only [Dict.put, Appkey.name, Function.update_self]
    · rename_i different
      have apart : before.name ≠ name := by
        intro same
        rw [same, ← listed] at otherName
        have inside := (List.getElem?_eq_some_iff.mp listed).1
        exact different ((List.getElem?_inj inside holds.nodup).mp otherName.symm)
      simp only [Dict.put, Function.update_of_ne apart]
      exact holds.values other before near here

/-- A set that does not reach its entry. -/
theorem Holds.put_beyond (holds : Holds limit table dict) {index : Nat} {name : Name}
    (listed : dict.names[index]? = some name) (far : ¬ index < reach) (value : UInt32) :
    Holds limit table (dict.put name value) where
  room := holds.room
  names := holds.names
  nodup := holds.nodup
  count := holds.count
  short := holds.short
  values := by
    intro other ak near found
    have otherName : dict.names[other]? = some ak.name := by
      rw [holds.getElem?_name, found, Option.map_some]
    have apart : ak.name ≠ name := by
      intro same
      rw [same, ← listed] at otherName
      have inside := (List.getElem?_eq_some_iff.mp listed).1
      have sameIndex := (List.getElem?_inj inside holds.nodup).mp otherName.symm
      omega
    simp only [Dict.put, Function.update_of_ne apart]
    exact holds.values other ak near found

/-- A new entry, not set yet, is a new name without a value: the names and the values
within reach of the others stay. -/
theorem Holds.append (holds : Holds limit table dict) {app key : List UInt8}
    (fresh : (app, key) ∉ dict.names) (room : dict.names.length < limit)
    (short : app.length < appNamelen ∧ key.length < appKeyNamelen) (value : UInt32) :
    Holds limit { table with keys := table.keys ++ [⟨app, key, value⟩] }
      ({ dict with names := dict.names ++ [(app, key)] }.put (app, key) value) where
  room := holds.room
  names := by
    rw [List.map_append, List.map_singleton, holds.names]
    rfl
  nodup := List.nodup_append.mpr ⟨holds.nodup, List.nodup_singleton _, by
    intro name member other single
    rw [List.mem_singleton.mp single]
    rintro rfl
    exact fresh member⟩
  count := by
    simp only [Dict.put, List.length_append, List.length_singleton]
    omega
  short := by
    intro name member
    rcases List.mem_append.mp member with old | new
    · exact holds.short name old
    · rw [List.mem_singleton.mp new]
      exact short
  values := by
    intro index ak near found
    rcases Nat.lt_or_ge index table.keys.length with old | new
    · rw [List.getElem?_append_left old] at found
      have listed : ak.name ∈ dict.names := by
        rw [← holds.names]
        exact List.mem_map_of_mem (List.mem_of_getElem? found)
      have apart : ak.name ≠ (app, key) := by
        intro same
        exact fresh (same ▸ listed)
      simp only [Dict.put, Function.update_of_ne apart]
      exact holds.values index ak near found
    · rw [List.getElem?_append_right new] at found
      obtain rfl := List.mem_singleton.mp (List.mem_of_getElem? found)
      simp only [Dict.put, Appkey.name, Function.update_self]

/-- The library's own debug key is no entry. -/
theorem Holds.withDebug (holds : Holds limit table dict) (debug : UInt32) :
    Holds limit { table with debug := debug } dict :=
  ⟨holds.room, holds.names, holds.nodup, holds.count, holds.short, holds.values⟩

theorem osStrlcpy_eq {source : List UInt8} {size : Nat} (short : source.length < size) :
    osStrlcpy source size = source :=
  List.take_of_length_le (by omega)

theorem setValue_append (table : Table) (ak : Appkey) (value : UInt32) :
    setValue { table with keys := table.keys ++ [ak] } table.keys.length value =
      { table with keys := table.keys ++ [{ ak with value := value }] } := by
  have last : ∀ (keys : List Appkey) (change : Appkey → Appkey),
      (keys ++ [ak]).modify keys.length change = keys ++ [change ak] := by
    intro keys change
    induction keys with
    | nil => rfl
    | cons head keys ih => simp only [List.cons_append, List.length_cons, List.modify_succ_cons, ih]
  simp only [setValue, last]

/-- `load_line` puts an accepted line's value. -/
theorem loadLine_holds (holds : Holds limit table dict) (filename line : Line) :
    Holds limit (loadLine width table filename line).2
      (Dict.step width limit dict (.load filename line)) := by
  unfold loadLine Dict.step
  dsimp only
  cases parsed : akInfo width filename line with
  | error err => exact holds
  | ok info =>
      have holds := holds.withDebug (info.debug.getD table.debug)
      have short := akInfo_short parsed
      dsimp only
      cases found : getbyname _ info.app info.key with
      | some index =>
          have listed := (holds.getbyname_eq_some_iff ..).mp found
          rw [if_pos (List.mem_of_getElem? listed)]
          exact holds.setValue listed info.value
      | none =>
          have fresh := (holds.getbyname_eq_none_iff ..).mp found
          have length : table.keys.length = dict.names.length := by
            rw [← holds.names, List.length_map]
          have room := holds.room
          rw [if_neg fresh]
          by_cases full : dict.names.length < limit
          · have new : table.keys.length < table.limit := by
              simp only at room
              omega
            rw [if_pos full]
            simp only [akNew, new, ↓reduceIte]
            rw [osStrlcpy_eq (by omega), osStrlcpy_eq (by omega)]
            have appended := holds.append fresh full short info.value
            rw [← setValue_append _ ⟨info.app, info.key, 0⟩] at appended
            exact appended
          · have old : ¬ table.keys.length < table.limit := by
              simp only at room
              omega
            rw [if_neg full]
            simp only [akNew, old, ↓reduceIte]
            exact holds

/-- `appkey_set` puts the value under the name of its handle, if the handle reaches. -/
theorem appkeySet_holds (holds : Holds limit table dict) (small : limit ≤ 2 ^ 16)
    (akid : AppkeyT) (value : UInt32) :
    Holds limit (appkeySet table akid value).2
      (Dict.step width limit dict (.set akid value)) := by
  unfold appkeySet Dict.step
  dsimp only
  cases found : getbyid table akid with
  | some index =>
      obtain ⟨rfl, isHandle, _, inside⟩ := getbyid_eq_some found
      have listed : dict.names[akid.idx.toNat]? = some (table.keys[akid.idx.toNat]).name := by
        rw [holds.getElem?_name, List.getElem?_eq_getElem inside, Option.map_some]
      rw [listed]
      simp only [isHandle, ↓reduceIte]
      exact holds.setValue listed value
  | none =>
      dsimp only
      split
      · rename_i name listed
        split
        · rename_i isHandle
          have inside := (List.getElem?_eq_some_iff.mp listed).1
          have length : table.keys.length = dict.names.length := by
            rw [← holds.names, List.length_map]
          have count := holds.count
          rw [← isHandle, getbyid_handle (by omega) (by omega)] at found
          refine holds.put_beyond listed ?_ value
          intro near
          rw [if_pos near] at found
          cases found
        · exact holds
      · exact holds

theorem run_holds (width : Nat) (small : limit ≤ 2 ^ 16) (ops : List Op) :
    Holds limit (run (step width) (init limit) ops) (run (Dict.step width limit) Dict.init ops) := by
  refine run_simulation ?_ ops (init limit) Dict.init (holds_init limit)
  intro table dict op holds
  cases op with
  | load filename line => exact loadLine_holds holds filename line
  | set akid value => exact appkeySet_holds holds small akid value

/-- Names stay in the dictionary, at their places. -/
theorem Dict.step_names (width limit : Nat) (dict : Dict) (op : Op) :
    dict.names <+: (dict.step width limit op).names := by
  cases op with
  | load filename line =>
      simp only [Dict.step]
      split
      · exact List.prefix_rfl
      · split
        · exact List.prefix_rfl
        · split
          · exact List.prefix_append ..
          · exact List.prefix_rfl
  | set akid value =>
      simp only [Dict.step]
      split
      · split <;> exact List.prefix_rfl
      · exact List.prefix_rfl

theorem Dict.run_names (width limit : Nat) (dict : Dict) (ops : List Op) :
    dict.names <+: (run (Dict.step width limit) dict ops).names := by
  have keeps : ∀ (later : Dict) op, dict.names <+: later.names →
      dict.names <+: (later.step width limit op).names :=
    fun later op before => before.trans (later.step_names width limit op)
  exact run_invariant keeps ops dict List.prefix_rfl

/-- A handle denotes a name: it finds the entry of that name. -/
def Denotes (table : Table) (akid : AppkeyT) (name : Name) : Prop :=
  ∃ index ak, getbyid table akid = some index ∧ table.keys[index]? = some ak ∧ ak.name = name

theorem appkeyGet_of_none {akid : AppkeyT} (lost : getbyid table akid = none) (deft : UInt32) :
    appkeyGet table akid deft = deft := by
  simp only [appkeyGet, appkeyGetValue, lost, Option.bind_none, Bool.true_eq_false, ↓reduceIte,
    Option.getD_none]

/-- The handle of the entry at `index`, some time after it was obtained. -/
theorem Holds.handle_readable_iff (holds : Holds limit table dict) (small : limit ≤ 2 ^ 16)
    {index : Nat} {name : Name} (listed : dict.names[index]? = some name) :
    (Denotes table (handle index) name ∧
        ∀ deft, appkeyGet table (handle index) deft = dict.value name) ↔ index < reach := by
  have length : table.keys.length = dict.names.length := by
    rw [← holds.names, List.length_map]
  have inside : index < table.keys.length := by
    rw [length]
    exact (List.getElem?_eq_some_iff.mp listed).1
  have count := holds.count
  have found := getbyid_handle inside (by omega)
  constructor
  · rintro ⟨⟨other, _, reached, _⟩, _⟩
    by_contra far
    rw [found, if_neg far] at reached
    cases reached
  · intro near
    rw [if_pos near] at found
    have here := List.getElem?_eq_getElem inside
    have sameName : (table.keys[index]).name = name := by
      rw [holds.getElem?_name, here, Option.map_some] at listed
      exact Option.some.inj listed
    refine ⟨⟨index, _, found, here, sameName⟩, fun deft => ?_⟩
    simp only [appkeyGet, appkeyGetValue, found, Option.bind_some, here, Bool.true_eq_false,
      ↓reduceIte, Option.getD_some, holds.values index _ near here, sameName]

/-- Where a name that is in the table was put, and the handle of it. -/
theorem Holds.appkeyGetbyname_eq (holds : Holds limit table dict) {app key : List UInt8}
    (present : (app, key) ∈ table.keys.map Appkey.name) :
    dict.names[dict.names.idxOf (app, key)]? = some (app, key) ∧
      appkeyGetbyname table (some app) (some key) = handle (dict.names.idxOf (app, key)) := by
  rw [holds.names] at present
  have inside := List.idxOf_lt_length_iff.mpr present
  have listed : dict.names[dict.names.idxOf (app, key)]? = some (app, key) := by
    rw [List.getElem?_eq_getElem inside, List.getElem_idxOf inside]
  refine ⟨listed, ?_⟩
  simp only [appkeyGetbyname, (holds.getbyname_eq_some_iff app key _).mpr listed]
  rfl

/-- A handle obtained for a name that is in the table denotes that name after every
further run, and reads the value last loaded or set for it whatever the default, if
and only if fewer than 964 names came in before it. -/
theorem appkey_readable (width limit : Nat) (configured : limit ≤ 1024) (first second : List Op)
    (app key : List UInt8)
    (present : (app, key) ∈ (run (step width) (init limit) first).keys.map Appkey.name) :
    (Denotes (run (step width) (init limit) (first ++ second))
        (appkeyGetbyname (run (step width) (init limit) first) (some app) (some key)) (app, key) ∧
      ∀ deft, appkeyGet (run (step width) (init limit) (first ++ second))
          (appkeyGetbyname (run (step width) (init limit) first) (some app) (some key)) deft =
        (run (Dict.step width limit) Dict.init (first ++ second)).value (app, key)) ↔
      (run (Dict.step width limit) Dict.init first).names.idxOf (app, key) < 964 := by
  have small : limit ≤ 2 ^ 16 := by omega
  obtain ⟨listed, isHandle⟩ := (run_holds width small first).appkeyGetbyname_eq present
  have grown : (run (Dict.step width limit) Dict.init first).names <+:
      (run (Dict.step width limit) Dict.init (first ++ second)).names := by
    rw [run_append]
    exact Dict.run_names width limit _ second
  have later : (run (Dict.step width limit) Dict.init (first ++ second)).names[
      (run (Dict.step width limit) Dict.init first).names.idxOf (app, key)]? = some (app, key) := by
    rw [← listed]
    exact (List.prefix_iff_getElem?.mp grown _ (List.getElem?_eq_some_iff.mp listed).1).trans
      (List.getElem?_eq_getElem _).symm
  rw [isHandle]
  exact (run_holds width small (first ++ second)).handle_readable_iff small later

/-- A key of `a.key` is loaded, and read back after a set through its handle. -/
theorem appkey_readable_after_set :
    appkeyGet (run (step 32) (init 2)
        ([.load ⟨[97, 46], by decide, by decide⟩ ⟨[107, 32, 49], by decide, by decide⟩] ++
          [.set (handle 0) 5]))
      (appkeyGetbyname (run (step 32) (init 2)
        [.load ⟨[97, 46], by decide, by decide⟩ ⟨[107, 32, 49], by decide, by decide⟩])
        (some [97]) (some [107])) 9 = 5 := by
  have readable := appkey_readable 32 2 (by decide)
    [.load ⟨[97, 46], by decide, by decide⟩ ⟨[107, 32, 49], by decide, by decide⟩]
    [.set (handle 0) 5] [97] [107] (by decide)
  exact (readable.mpr (by decide)).2 9

/-- Lines that are accepted, with names that are new, fill the dictionary. -/
theorem Dict.run_load_names (width limit : Nat) (file : Line) (lines : List Line)
    (info : Line → AkInfo)
    (accepted : ∀ line ∈ lines, akInfo width file line = .ok (info line)) (dict : Dict)
    (fresh : (dict.names ++ lines.map fun line => ((info line).app, (info line).key)).Nodup)
    (room : dict.names.length + lines.length ≤ limit) :
    (run (Dict.step width limit) dict (lines.map (.load file))).names =
      dict.names ++ lines.map fun line => ((info line).app, (info line).key) := by
  induction lines generalizing dict with
  | nil => simp only [List.map_nil, run_nil, List.append_nil]
  | cons line lines ih =>
      have parsed := accepted line (List.mem_cons_self ..)
      have new : ((info line).app, (info line).key) ∉ dict.names := by
        intro member
        exact (List.nodup_append.mp fresh).2.2 _ member _ (List.mem_cons_self ..) rfl
      rw [List.length_cons] at room
      have stepped : dict.step width limit (.load file line) =
          { dict with names := dict.names ++ [((info line).app, (info line).key)] }.put
            ((info line).app, (info line).key) (info line).value := by
        simp only [Dict.step, parsed, new, ↓reduceIte, show dict.names.length < limit by omega]
      rw [List.map_cons, run_cons, stepped, ih]
      · simp only [Dict.put, List.map_cons, List.append_assoc, List.singleton_append]
      · exact fun other member => accepted other (List.mem_cons_of_mem _ member)
      · simp only [Dict.put, List.append_assoc, List.singleton_append]
        exact fresh
      · simp only [Dict.put, List.length_append, List.length_singleton]
        omega

/-- One of 32 letters. -/
def letter (number : Nat) : UInt8 := UInt8.ofNat (65 + number % 32)

theorem letter_toNat (number : Nat) : (letter number).toNat = 65 + number % 32 := by
  simp only [letter, UInt8.toNat_ofNat']
  omega

/-- The `number`th of 1024 keys of two letters, with the value one. -/
def numbered (number : Nat) : Line where
  bytes := [letter (number / 32), letter number, ascii ' ', ascii '1']
  noNul := by
    have high := letter_toNat (number / 32)
    have low := letter_toNat number
    simp only [List.mem_cons, List.not_mem_nil, or_false, not_or]
    refine ⟨?_, ?_, by decide, by decide⟩
    · intro zero
      rw [← zero] at high
      simp at high
      omega
    · intro zero
      rw [← zero] at low
      simp at low
      omega
  fits := by simp [osLineLen]

theorem letter_not_space (number : Nat) : isSpace (letter number) = false := by
  have value := letter_toNat number
  simp only [isSpace, Bool.or_eq_false_iff, Bool.and_eq_false_iff, decide_eq_false_iff_not]
  refine ⟨.inr ?_, ?_⟩
  · rw [UInt8.le_iff_toNat_le, value]
    simp
    omega
  · intro same
    rw [same] at value
    simp at value
    omega

theorem akInfo_numbered (number : Nat) :
    akInfo 32 ⟨[97, 46], by decide, by decide⟩ (numbered number) =
      .ok ⟨[97], [letter (number / 32), letter number], 1, none⟩ := by
  have app : loadLineApp ⟨[97, 46], by decide, by decide⟩ = .ok [97] := rfl
  have kv : loadLineKv (numbered number) =
      .ok ([letter (number / 32), letter number], [ascii '1']) := by
    have space : isSpace (ascii ' ') = true := rfl
    have one : isSpace (ascii '1') = false := rfl
    have key : scanWord (numbered number).bytes =
        ([letter (number / 32), letter number], [ascii ' ', ascii '1']) := by
      simp only [scanWord, numbered, List.dropWhile_cons, List.takeWhile_cons, letter_not_space,
        space, Bool.false_eq_true, Bool.not_false, Bool.not_true, ↓reduceIte]
    have var : scanWord [ascii ' ', ascii '1'] = ([ascii '1'], []) := by
      simp only [scanWord, List.dropWhile_cons, List.takeWhile_cons, space, one,
        Bool.false_eq_true, Bool.not_false, ↓reduceIte, List.takeWhile_nil, List.dropWhile_nil]
    simp only [loadLineKv, key, var]
    rfl
  have value : loadLineValue 32 [97] [letter (number / 32), letter number] [ascii '1'] =
      .ok (1, none) := rfl
  simp only [akInfo, app, kv, value, bind, Except.bind, pure, Except.pure]

theorem numbered_names_nodup {count : Nat} (bound : count ≤ 1024) :
    ((List.range count).map fun number =>
      (([97], [letter (number / 32), letter number]) : Name)).Nodup := by
  refine List.Nodup.map_on ?_ List.nodup_range
  intro first inFirst second inSecond same
  rw [List.mem_range] at inFirst inSecond
  simp only [Prod.mk.injEq, List.cons.injEq, and_true, true_and] at same
  have high := congrArg UInt8.toNat same.1
  have low := congrArg UInt8.toNat same.2
  simp only [letter_toNat] at high low
  omega

/-- The loading of the first `count` numbered keys. -/
def loadNumbered (count : Nat) : List Op :=
  ((List.range count).map numbered).map (.load ⟨[97, 46], by decide, by decide⟩)

theorem loadNumbered_names {count : Nat} (bound : count ≤ 1024) :
    (run (Dict.step 32 1024) Dict.init (loadNumbered count)).names =
      (List.range count).map fun number => ([97], [letter (number / 32), letter number]) := by
  have loaded := Dict.run_load_names 32 1024 ⟨[97, 46], by decide, by decide⟩
    ((List.range count).map numbered) (fun line => ⟨[97], line.bytes.take 2, 1, none⟩) ?_
    Dict.init ?_ ?_
  · rw [loadNumbered, loaded, List.map_map]
    rfl
  · intro line member
    obtain ⟨number, _, rfl⟩ := List.mem_map.mp member
    exact akInfo_numbered number
  · rw [List.map_map]
    exact numbered_names_nodup bound
  · simp only [Dict.init, List.length_nil, List.length_map, List.length_range]
    omega

/-- The last of more than 964 numbered keys is in the table, and its handle answers with
any default. -/
theorem loadNumbered_unread {last : Nat} (bound : last < 1024) (far : ¬ last < reach) :
    ([97], [letter (last / 32), letter last]) ∈
        (run (step 32) (init 1024) (loadNumbered (last + 1))).keys.map Appkey.name ∧
      ∀ deft, appkeyGet (run (step 32) (init 1024) (loadNumbered (last + 1)))
        (appkeyGetbyname (run (step 32) (init 1024) (loadNumbered (last + 1))) (some [97])
          (some [letter (last / 32), letter last])) deft = deft := by
  have holds := run_holds 32 (show 1024 ≤ 2 ^ 16 by decide) (loadNumbered (last + 1))
  have names := loadNumbered_names (show last + 1 ≤ 1024 by omega)
  have listed : (run (Dict.step 32 1024) Dict.init (loadNumbered (last + 1))).names[last]? =
      some ([97], [letter (last / 32), letter last]) := by
    rw [names, List.getElem?_map, List.getElem?_range (by omega), Option.map_some]
  have inside : last < (run (step 32) (init 1024) (loadNumbered (last + 1))).keys.length := by
    rw [← List.length_map, holds.names, names, List.length_map, List.length_range]
    omega
  have lost := getbyid_handle inside (by omega)
  rw [if_neg far] at lost
  refine ⟨by rw [holds.names]; exact List.mem_of_getElem? listed, fun deft => ?_⟩
  have isHandle : appkeyGetbyname (run (step 32) (init 1024) (loadNumbered (last + 1)))
      (some [97]) (some [letter (last / 32), letter last]) = handle last := by
    simp only [appkeyGetbyname, (holds.getbyname_eq_some_iff ..).mpr listed]
    rfl
  rw [isHandle]
  exact appkeyGet_of_none lost deft

/-- With 965 keys loaded, the last of them is in the table and its handle finds
nothing. -/
theorem last_of_965_not_readable :
    ¬ ∀ (limit : Nat), limit ≤ 1024 → ∀ (ops : List Op) (app key : List UInt8),
      (app, key) ∈ (run (step 32) (init limit) ops).keys.map Appkey.name →
      ∀ deft, appkeyGet (run (step 32) (init limit) ops)
          (appkeyGetbyname (run (step 32) (init limit) ops) (some app) (some key)) deft =
        (run (Dict.step 32 limit) Dict.init ops).value (app, key) := by
  intro readable
  obtain ⟨present, unread⟩ := loadNumbered_unread (show 964 < 1024 by decide) (by decide)
  have answers := readable 1024 (Nat.le_refl _) (loadNumbered (964 + 1)) _ _ present
  have zero := (unread 0).symm.trans (answers 0)
  have one := (unread 1).symm.trans (answers 1)
  exact absurd (zero.trans one.symm) (by decide)

end Trunk.Libappkey
