import Mathlib.Data.List.MinMax
import Trunk.Foundation.OrderedMap
import Trunk.Foundation.Run
import Trunk.Foundation.Walk
import Trunk.Partool.Block

/-! # The variables of a block

The list of a block by its nodes, with what each of them holds, and the calls on variables with the
allocations that they make. While memory is there, the calls are those of an ordered map from names
to values (`Trunk.Partool.VarBlock.calls_ordered_map`). A call that fails leaves an existing
variable as it was exactly if it is no update or gets the memory for both strings
(`Trunk.Partool.VarBlock.intact_iff`).
-/

namespace Trunk.Partool

open CString

/-- `struct part_var`. A pointer that is not `NULL` is the string it points at. -/
structure PartVar where
  len : Nat
  var : Option CStr
  deriving DecidableEq

/-- A variable that holds a string. -/
def PartVar.hold (text : CStr) : PartVar := ⟨text.bytes.length, some text⟩

/-- `struct part_cursor`, as it is while its strings come and go. -/
structure VarCursor where
  k : PartVar
  v : PartVar
  deriving DecidableEq

/-- A cursor with both strings. -/
def VarCursor.hold (name value : CStr) : VarCursor := ⟨PartVar.hold name, PartVar.hold value⟩

/-- Which of the allocations of a call get their memory. -/
structure VarAlloc where
  item : Bool
  name : Bool
  value : Bool

/-- All memory is there. -/
def VarAlloc.all : VarAlloc := ⟨true, true, true⟩

/-- `part_cursor_free`. `os_free` sets the pointer to `NULL`. -/
def partCursorFree (c : VarCursor) : VarCursor where
  k := { c.k with var := none }
  v := { c.v with var := none }

/-- `part_cursor_init`. -/
def partCursorInit (alloc : VarAlloc) (c : VarCursor) (name value : CStr) : Int × VarCursor :=
  let c := partCursorFree c
  let c := { c with k := { len := name.bytes.length, var := if alloc.name then some name else none } }
  if c.k.var = none then (-ENOMEM, partCursorFree c)
  else
    let c :=
      { c with v := { len := value.bytes.length, var := if alloc.value then some value else none } }
    if c.v.var = none then (-ENOMEM, partCursorFree c) else (0, c)

/-- `part_item_new`: what the new item holds. -/
def partItemNew (alloc : VarAlloc) (name value : CStr) : Option VarCursor :=
  if alloc.item = false then none
  else
    let (err, c) := partCursorInit alloc ⟨⟨0, none⟩, ⟨0, none⟩⟩ name value
    if err ≠ 0 then none else some c

/-- Where `os_zalloc` puts a new item: not at a node of the list. -/
structure NodeAllocator where
  node : List Nat → Nat
  fresh : ∀ list, node list ∉ list

/-- The part of `struct part_block` that the calls on variables use. The nodes of the list are their
addresses. -/
structure VarBlock where
  list : List Nat
  item : Nat → VarCursor
  count : UInt32
  dirty : Bool

/-- `multi_value_t`, as `v2` splits it. -/
structure MultiValue where
  result : BitVec 24
  control : BitVec 8

namespace MultiValue

/-- `MV_INITER`, and `mv2_OK`. -/
def ok : MultiValue := ⟨0, 0⟩

/-- `mv2_GO`. -/
def go (result : Int) : MultiValue := ⟨BitVec.ofInt 24 result, 0⟩

/-- `mv2_result`. -/
def toResult (mv : MultiValue) : Int := mv.result.toInt

/-- `mv2_is_break`. -/
def isBreak (mv : MultiValue) : Bool := mv.control = 1

end MultiValue

namespace VarBlock

/-- `part_item_insert`. -/
def partItemInsert (block : VarBlock) (malloc : NodeAllocator) (item : Option VarCursor) :
    Int × VarBlock :=
  match item with
  | some c =>
      let node := malloc.node block.list
      (0, { block with
        list := block.list ++ [node]
        item := Function.update block.item node c
        count := block.count + 1 })
  | none => (-ENOMEM, block)

/-- `part_item_remove`, where the item is not `NULL`. -/
def partItemRemove (block : VarBlock) (node : Nat) : VarBlock :=
  { block with list := block.list.erase node, count := block.count - 1 }

/-- `kv_item_destroy`. The memory of the item is not looked at again. -/
def kvItemDestroy (block : VarBlock) (node : Option Nat) : Int × VarBlock :=
  match node with
  | some node => (0, { partItemRemove block node with dirty := true })
  | none => (-ENOEXIST, block)

/-- `__part_var_find`, from a node on. There is no result where `os_strcmp` meets a `NULL`. -/
def findNode (item : Nat → VarCursor) (name : CStr) : List Nat → Option (Option Nat)
  | [] => some none
  | node :: rest => do
      let var ← (item node).k.var
      if name = var then some (some node) else findNode item name rest

/-- `__part_var_find`. -/
def partVarFindItem (block : VarBlock) (name : CStr) : Option (Option Nat) :=
  findNode block.item name block.list

/-- `part_var_find`: the return code and the cursor that is copied. -/
def partVarFind (block : VarBlock) (name : CStr) : Option (Ret × Option VarCursor) := do
  match ← partVarFindItem block name with
  | none => return (.code (-ENOEXIST), none)
  | some node => return (.code 0, some (block.item node))

/-- `__part_var_create`. -/
def partVarCreateFlag (malloc : NodeAllocator) (alloc : VarAlloc) (block : VarBlock)
    (name value : CStr) (flag : VarFlag) : Option (Ret × VarBlock) :=
  if flag.create = false ∧ flag.update = false then some (.assert (-EINVAL3), block)
  else do
    match ← partVarFindItem block name with
    | some node =>
        if flag.update then
          let (err, c) := partCursorInit alloc (block.item node) name value
          return (.code err,
            { block with item := Function.update block.item node c, dirty := true })
        else return (.code (-EEXIST), block)
    | none =>
        if flag.create then
          let (err, block) := partItemInsert { block with dirty := true } malloc
            (partItemNew alloc name value)
          return (.code err, block)
        else return (.code (-ENOEXIST), block)

/-- `part_var_create`. -/
def partVarCreate (malloc : NodeAllocator) (alloc : VarAlloc) (block : VarBlock)
    (name value : CStr) : Option (Ret × VarBlock) :=
  partVarCreateFlag malloc alloc block name value ⟨true, false⟩

/-- `part_var_update`. -/
def partVarUpdate (malloc : NodeAllocator) (alloc : VarAlloc) (block : VarBlock)
    (name value : CStr) : Option (Ret × VarBlock) :=
  partVarCreateFlag malloc alloc block name value ⟨false, true⟩

/-- `part_var_new`. -/
def partVarNew (malloc : NodeAllocator) (alloc : VarAlloc) (block : VarBlock)
    (name value : CStr) : Option (Ret × VarBlock) :=
  partVarCreateFlag malloc alloc block name value ⟨true, true⟩

/-- `part_var_delete`. -/
def partVarDelete (block : VarBlock) (name : CStr) : Option (Ret × VarBlock) := do
  let (err, block) := kvItemDestroy block (← partVarFindItem block name)
  return (.code err, block)

/-- A callback of `part_var_foreach`, which is given a node for its cursor. -/
abbrev Foreach := VarBlock → Nat → Option (MultiValue × VarBlock)

/-- The body of the loop in `part_var_foreach`, with the multi value that it keeps. It ends with a
fault of the callback or with a result. -/
def foreachBody (foreach : Foreach) (state : VarBlock × MultiValue) (node : Nat) :
    Option (Option Int) × VarBlock × MultiValue :=
  match foreach state.1 node with
  | none => (some none, state)
  | some (mv, block) =>
      if mv.isBreak then (some (some mv.toResult), block, mv) else (none, block, mv)

/-- `part_var_foreach`. -/
def partVarForeach (block : VarBlock) (foreach : Foreach) : Option (Int × VarBlock) :=
  let (ended, last) := Walk.forEachSafe (fun state => state.1.list) (foreachBody foreach)
    (block, MultiValue.ok)
  match ended with
  | some none => none
  | some (some result) => some (result, last.1)
  | none => some (last.2.toResult, last.1)

/-- The test of `kv_foreach_byname_prefix_cb`. -/
def hasPrefix (name text : CStr) : Bool :=
  name.bytes.length ≤ text.bytes.length && text.bytes.take name.bytes.length = name.bytes

/-- `kv_foreach_byname_prefix_cb`. -/
def kvForeachBynamePrefixCb (name : CStr) (foreach : Foreach) : Foreach := fun block node => do
  let var ← (block.item node).k.var
  if hasPrefix name var then foreach block node else return (MultiValue.ok, block)

/-- `part_var_foreach_byname_prefix`. -/
def partVarForeachBynamePrefix (block : VarBlock) (name : CStr) (foreach : Foreach) :
    Option (Int × VarBlock) :=
  partVarForeach block (kvForeachBynamePrefixCb name foreach)

/-- `part_var_delete_byname_prefix_cb`. -/
def partVarDeleteBynamePrefixCb : Foreach := fun block node =>
  let (err, block) := kvItemDestroy block (some node)
  some (MultiValue.go err, block)

/-- `part_var_delete_byname_prefix`. -/
def partVarDeleteBynamePrefix (block : VarBlock) (name : CStr) : Option (Ret × VarBlock) :=
  (partVarForeachBynamePrefix block name partVarDeleteBynamePrefixCb).map fun result =>
    (.code result.1, result.2)

end VarBlock

/-- The calls on variables. -/
inductive VarCall where
  | create (name value : CStr)
  | update (name value : CStr)
  | new (name value : CStr)
  | delete (name : CStr)
  | deleteBynamePrefix (name : CStr)
  | find (name : CStr)

/-- What a call returns, and the cursor that a search fills in. -/
structure VarAnswer where
  ret : Ret
  cursor : Option VarCursor
  deriving DecidableEq

namespace VarBlock

/-- A call, with all the memory that it asks for. -/
def call (malloc : NodeAllocator) (block : VarBlock) (request : VarCall) :
    Option (VarAnswer × VarBlock) :=
  let silent (result : Option (Ret × VarBlock)) : Option (VarAnswer × VarBlock) :=
    result.map fun result => (⟨result.1, none⟩, result.2)
  match request with
  | .create name value => silent (partVarCreate malloc .all block name value)
  | .update name value => silent (partVarUpdate malloc .all block name value)
  | .new name value => silent (partVarNew malloc .all block name value)
  | .delete name => silent (partVarDelete block name)
  | .deleteBynamePrefix name => silent (partVarDeleteBynamePrefix block name)
  | .find name => (partVarFind block name).map fun result => (⟨result.1, result.2⟩, block)

end VarBlock

/-! ## The ordered map -/

/-- A call on an ordered map from names to values. -/
def VarCall.perform (map : OrderedMap CStr CStr) : VarCall → VarAnswer × OrderedMap CStr CStr
  | .create name value =>
      if name ∈ map.keys then (⟨.code (-EEXIST), none⟩, map)
      else (⟨.code 0, none⟩, map.store name value)
  | .update name value =>
      if name ∈ map.keys then (⟨.code 0, none⟩, map.store name value)
      else (⟨.code (-ENOEXIST), none⟩, map)
  | .new name value => (⟨.code 0, none⟩, map.store name value)
  | .delete name =>
      if name ∈ map.keys then (⟨.code 0, none⟩, map.remove fun key => decide (key = name))
      else (⟨.code (-ENOEXIST), none⟩, map)
  | .deleteBynamePrefix name =>
      (⟨.code 0, none⟩, map.remove fun key => decide (name.bytes <+: key.bytes))
  | .find name =>
      (match map.value name with
        | none => ⟨.code (-ENOEXIST), none⟩
        | some value => ⟨.code 0, some (VarCursor.hold name value)⟩, map)

/-- The names that a call may create, change or remove. -/
def VarCall.addresses : VarCall → CStr → Bool
  | .create name _, key => key = name
  | .update name _, key => key = name
  | .new name _, key => key = name
  | .delete name, key => key = name
  | .deleteBynamePrefix name, key => name.bytes <+: key.bytes
  | .find _, _ => false

/-- A call leaves the entries that it does not address, and their order. -/
theorem VarCall.filter_entries_perform (map : OrderedMap CStr CStr) (request : VarCall) :
    ((request.perform map).2.entries.filter fun entry => !request.addresses entry.1) =
      map.entries.filter fun entry => !request.addresses entry.1 := by
  cases request with
  | create name value =>
      rw [perform]
      split
      · rfl
      · exact map.filter_entries_store name value
  | update name value =>
      rw [perform]
      split
      · exact map.filter_entries_store name value
      · rfl
  | new name value => exact map.filter_entries_store name value
  | delete name =>
      rw [perform]
      split
      · exact map.filter_entries_remove fun key => decide (key = name)
      · rfl
  | deleteBynamePrefix name =>
      exact map.filter_entries_remove fun key => decide (name.bytes <+: key.bytes)
  | find name => rfl

theorem hasPrefix_eq (name text : CStr) :
    VarBlock.hasPrefix name text = decide (name.bytes <+: text.bytes) := by
  rw [VarBlock.hasPrefix, Bool.eq_iff_iff, Bool.and_eq_true, decide_eq_true_eq, decide_eq_true_eq,
    decide_eq_true_eq, List.prefix_iff_eq_take, eq_comm (a := name.bytes)]
  constructor
  · exact And.right
  · intro same
    refine ⟨?_, same⟩
    have length := congrArg List.length same
    rw [List.length_take] at length
    omega

namespace VarBlock

variable {malloc : NodeAllocator} {alloc : VarAlloc} {block : VarBlock} {name value : CStr}
  {node : Nat} {map : OrderedMap CStr CStr}

theorem nul_not_mem_nil : (0 : UInt8) ∉ ([] : List UInt8) := List.not_mem_nil

/-- The name at a node. -/
def nameOf (block : VarBlock) (node : Nat) : CStr :=
  (block.item node).k.var.getD ⟨[], nul_not_mem_nil⟩

/-- The names of a block, in order. -/
def names (block : VarBlock) : List CStr := block.list.map block.nameOf

/-- The names and values of a block, in order. -/
def entries (block : VarBlock) : List (CStr × CStr) :=
  block.list.filterMap fun node => do
    return (← (block.item node).k.var, ← (block.item node).v.var)

/-- Every item holds a name and a value. -/
def Whole (block : VarBlock) : Prop :=
  ∀ node ∈ block.list, ∃ value, block.item node = VarCursor.hold (block.nameOf node) value

/-- A block with distinct names, whose items are whole and counted. -/
structure Sound (block : VarBlock) : Prop where
  whole : Whole block
  distinct : block.names.Nodup
  counted : block.count = UInt32.ofNat block.list.length

/-- A block and the map that its entries are. -/
structure Represents (block : VarBlock) (map : OrderedMap CStr CStr) : Prop where
  keys : map.keys = block.names
  items : ∀ node ∈ block.list, ∃ value, map.value (block.nameOf node) = some value ∧
    block.item node = VarCursor.hold (block.nameOf node) value
  counted : block.count = UInt32.ofNat block.list.length

theorem Represents.whole (holds : Represents block map) : Whole block := by
  intro node listed
  obtain ⟨value, -, held⟩ := holds.items node listed
  exact ⟨value, held⟩

theorem Represents.distinct (holds : Represents block map) : block.names.Nodup :=
  holds.keys ▸ map.nodup

theorem Represents.sound (holds : Represents block map) : Sound block :=
  ⟨holds.whole, holds.distinct, holds.counted⟩

theorem Represents.nodes (holds : Represents block map) : block.list.Nodup :=
  List.Nodup.of_map _ holds.distinct

theorem Represents.entries (holds : Represents block map) : block.entries = map.entries := by
  rw [VarBlock.entries, OrderedMap.entries, holds.keys, names, List.filterMap_map]
  refine List.filterMap_congr fun node listed => ?_
  obtain ⟨value, mapped, held⟩ := holds.items node listed
  rw [Function.comp_apply, mapped, held]
  rfl

/-- Distinct names are at distinct nodes. -/
theorem Represents.nameOf_ne (holds : Represents block map) {other : Nat}
    (listed : node ∈ block.list) (listed' : other ∈ block.list) (differ : other ≠ node) :
    block.nameOf other ≠ block.nameOf node := fun same =>
  differ (List.inj_on_of_nodup_map holds.distinct listed' listed same)

/-- The map of a sound block. -/
theorem Sound.represents (sound : Sound block) : ∃ map, Represents block map := by
  let value (name : CStr) : Option CStr :=
    (block.list.find? fun node => decide (block.nameOf node = name)).bind fun node =>
      (block.item node).v.var
  have found : ∀ node ∈ block.list, ∃ held, value (block.nameOf node) = some held ∧
      block.item node = VarCursor.hold (block.nameOf node) held := by
    intro node listed
    obtain ⟨held, item⟩ := sound.whole node listed
    refine ⟨held, ?_, item⟩
    cases search : block.list.find? fun other => decide (block.nameOf other = block.nameOf node) with
    | none => exact absurd (List.find?_eq_none.mp search node listed) (by simp)
    | some other =>
        have same : other = node := List.inj_on_of_nodup_map sound.distinct
          (List.mem_of_find?_eq_some search) listed (by simpa using List.find?_some search)
        simp only [value, search, Option.bind_some, same, item]
        rfl
  refine ⟨⟨block.names, value, sound.distinct, ?_⟩, rfl, found, sound.counted⟩
  intro name
  constructor
  · intro known
    obtain ⟨node, search, -⟩ := Option.bind_eq_some_iff.mp (Option.some_get known).symm
    have named : block.nameOf node = name := by simpa using List.find?_some search
    exact List.mem_map.mpr ⟨node, List.mem_of_find?_eq_some search, named⟩
  · intro listed
    obtain ⟨node, member, rfl⟩ := List.mem_map.mp listed
    obtain ⟨held, mapped, -⟩ := found node member
    rw [mapped]
    rfl

/-! ## The search -/

theorem findNode_eq {list : List Nat}
    (whole : ∀ node ∈ list, ∃ value, block.item node = VarCursor.hold (block.nameOf node) value) :
    findNode block.item name list =
      some (list.find? fun node => decide (name = block.nameOf node)) := by
  induction list with
  | nil => rfl
  | cons node list ih =>
      obtain ⟨value, held⟩ := whole node (List.mem_cons_self ..)
      have var : (block.item node).k.var = some (block.nameOf node) := by
        rw [held]
        rfl
      have rest := ih fun other member => whole other (List.mem_cons_of_mem _ member)
      rw [findNode, var, Option.bind_eq_bind, Option.bind_some, rest, List.find?_cons]
      by_cases here : name = block.nameOf node
      · rw [if_pos here, decide_eq_true here]
      · rw [if_neg here, decide_eq_false here]

/-- The search finds the node of a name that is there. -/
theorem Whole.find_of_mem (whole : Whole block) (known : name ∈ block.names) :
    ∃ node ∈ block.list, block.nameOf node = name ∧ partVarFindItem block name = some (some node) := by
  obtain ⟨other, listed, named⟩ := List.mem_map.mp known
  rw [partVarFindItem, findNode_eq whole]
  cases search : block.list.find? fun node => decide (name = block.nameOf node) with
  | none => exact absurd (List.find?_eq_none.mp search other listed) (by simp [named])
  | some node =>
      have here : name = block.nameOf node := by simpa using List.find?_some search
      exact ⟨node, List.mem_of_find?_eq_some search, here.symm, rfl⟩

/-- The search ends without a node for other names. -/
theorem Whole.find_of_notMem (whole : Whole block) (fresh : name ∉ block.names) :
    partVarFindItem block name = some none := by
  rw [partVarFindItem, findNode_eq whole, Option.some_inj, List.find?_eq_none]
  intro node listed here
  apply fresh
  rw [of_decide_eq_true here]
  exact List.mem_map_of_mem listed

/-! ## What the calls leave -/

theorem partCursorInit_all (c : VarCursor) (name value : CStr) :
    partCursorInit .all c name value = (0, VarCursor.hold name value) := rfl

theorem partItemNew_all (name value : CStr) :
    partItemNew .all name value = some (VarCursor.hold name value) := rfl

/-- An update in place. -/
theorem Represents.update (holds : Represents block map) (listed : node ∈ block.list)
    (value : CStr) :
    Represents { block with
        item := Function.update block.item node (VarCursor.hold (block.nameOf node) value)
        dirty := true } (map.store (block.nameOf node) value) := by
  have known : block.nameOf node ∈ map.keys := by
    rw [holds.keys]
    exact List.mem_map_of_mem listed
  have same (other : Nat) : nameOf { block with
      item := Function.update block.item node (VarCursor.hold (block.nameOf node) value)
      dirty := true } other = block.nameOf other := by
    by_cases here : other = node
    · subst other
      simp only [nameOf, Function.update_self]
      rfl
    · simp only [nameOf, Function.update_of_ne here]
  refine ⟨?_, ?_, holds.counted⟩
  · rw [OrderedMap.keys_store_of_mem known, holds.keys]
    exact List.map_congr_left fun other _ => (same other).symm
  · intro other listed'
    rw [same]
    by_cases here : other = node
    · subst other
      refine ⟨value, OrderedMap.value_store_self .., ?_⟩
      exact Function.update_self ..
    · rw [OrderedMap.value_store_of_ne map (holds.nameOf_ne listed listed' here)]
      dsimp only
      rw [Function.update_of_ne here]
      exact holds.items other listed'

/-- A new item comes last. -/
theorem Represents.insert (holds : Represents block map) (fresh : name ∉ map.keys)
    (malloc : NodeAllocator) (value : CStr) (dirty : Bool) :
    Represents (partItemInsert { block with dirty := dirty } malloc
      (some (VarCursor.hold name value))).2 (map.store name value) := by
  have unlisted := malloc.fresh block.list
  have old : ∀ node ∈ block.list, (partItemInsert { block with dirty := dirty } malloc
      (some (VarCursor.hold name value))).2.item node = block.item node := by
    intro node listed
    apply Function.update_of_ne
    rintro rfl
    exact unlisted listed
  have new : (partItemInsert { block with dirty := dirty } malloc
      (some (VarCursor.hold name value))).2.item (malloc.node block.list) =
        VarCursor.hold name value := Function.update_self ..
  have oldName : ∀ node ∈ block.list, nameOf (partItemInsert { block with dirty := dirty } malloc
      (some (VarCursor.hold name value))).2 node = block.nameOf node := by
    intro node listed
    rw [nameOf, old node listed, nameOf]
  have newName : nameOf (partItemInsert { block with dirty := dirty } malloc
      (some (VarCursor.hold name value))).2 (malloc.node block.list) = name := by
    rw [nameOf, new]
    rfl
  refine ⟨?_, ?_, ?_⟩
  · rw [OrderedMap.keys_store_of_notMem fresh, holds.keys, names, names]
    change _ = List.map _ (block.list ++ [malloc.node block.list])
    rw [List.map_append, List.map_singleton, newName, List.map_congr_left oldName]
  · intro node listed
    rcases List.mem_append.mp listed with before | last
    · rw [oldName node before, old node before, OrderedMap.value_store_of_ne]
      · exact holds.items node before
      · rintro rfl
        apply fresh
        rw [holds.keys]
        exact List.mem_map_of_mem before
    · obtain rfl := List.mem_singleton.mp last
      rw [newName, new]
      exact ⟨value, OrderedMap.value_store_self .., rfl⟩
  · change block.count + 1 = UInt32.ofNat (block.list ++ [malloc.node block.list]).length
    rw [holds.counted, List.length_append, UInt32.ofNat_add]
    rfl

/-- Items whose names satisfy a test leave. -/
theorem Represents.remove (holds : Represents block map) {next : VarBlock} (test : CStr → Bool)
    (list : next.list = block.list.filter fun node => !test (block.nameOf node))
    (item : next.item = block.item) (counted : next.count = UInt32.ofNat next.list.length) :
    Represents next (map.remove test) := by
  have same : next.nameOf = block.nameOf := by
    funext node
    rw [nameOf, item, nameOf]
  refine ⟨?_, ?_, counted⟩
  · rw [OrderedMap.keys_remove, holds.keys, names, names, same, list, List.filter_map]
    rfl
  · intro node listed
    rw [list, List.mem_filter, Bool.not_eq_true'] at listed
    rw [same, item, OrderedMap.value_remove, listed.2, if_neg Bool.false_ne_true]
    exact holds.items node listed.1

/-- An item that is destroyed leaves the list. -/
theorem kvItemDestroy_counted (counted : block.count = UInt32.ofNat block.list.length)
    (listed : node ∈ block.list) :
    (kvItemDestroy block (some node)).2.count =
      UInt32.ofNat (kvItemDestroy block (some node)).2.list.length := by
  change block.count - 1 = UInt32.ofNat (block.list.erase node).length
  have length := List.length_erase_add_one listed
  rw [counted, ← length, UInt32.ofNat_add]
  exact UInt32.add_sub_cancel ..

theorem Represents.destroy (holds : Represents block map) (listed : node ∈ block.list) :
    Represents (kvItemDestroy block (some node)).2
      (map.remove fun key => decide (key = block.nameOf node)) := by
  refine holds.remove _ ?_ rfl (kvItemDestroy_counted holds.counted listed)
  change block.list.erase node = _
  rw [holds.nodes.erase_eq_filter]
  refine List.filter_congr fun other listed' => ?_
  by_cases here : other = node
  · simp [here]
  · simp [here, holds.nameOf_ne listed listed' here]

/-! ## Deletion by prefix -/

/-- A loop that no callback ends. -/
theorem partVarForeach_through {foreach : Foreach} {last : VarBlock × MultiValue}
    (walked : Walk.forEachSafe (fun state => state.1.list) (foreachBody foreach)
      (block, MultiValue.ok) = (none, last)) :
    partVarForeach block foreach = some (last.2.toResult, last.1) := by
  rw [partVarForeach, walked]

/-- What holds between the rounds of a deletion by prefix. -/
structure Sweeping (block : VarBlock) (state : VarBlock × MultiValue) : Prop where
  item : state.1.item = block.item
  inside : state.1.list ⊆ block.list
  counted : state.1.count = UInt32.ofNat state.1.list.length
  mv : state.2 = MultiValue.ok

/-- A round destroys the item if its name starts with the prefix. -/
theorem Sweeping.round {state : VarBlock × MultiValue} (sweeping : Sweeping block state)
    (whole : Whole block) (name : CStr) (listed : node ∈ state.1.list) :
    (foreachBody (kvForeachBynamePrefixCb name partVarDeleteBynamePrefixCb) state node).1 = none ∧
      Sweeping block
        (foreachBody (kvForeachBynamePrefixCb name partVarDeleteBynamePrefixCb) state node).2 ∧
      (foreachBody (kvForeachBynamePrefixCb name partVarDeleteBynamePrefixCb) state node).2.1.list =
        if hasPrefix name (block.nameOf node) then state.1.list.erase node else state.1.list := by
  obtain ⟨value, held⟩ := whole node (sweeping.inside listed)
  have var : (state.1.item node).k.var = some (block.nameOf node) := by
    rw [sweeping.item, held]
    rfl
  rw [foreachBody, kvForeachBynamePrefixCb, var, Option.bind_eq_bind, Option.bind_some]
  by_cases matched : hasPrefix name (block.nameOf node) = true
  · rw [if_pos matched, if_pos matched]
    refine ⟨rfl, ⟨sweeping.item, ?_, kvItemDestroy_counted sweeping.counted listed, rfl⟩, rfl⟩
    exact fun other member => sweeping.inside (List.mem_of_mem_erase member)
  · rw [if_neg matched, if_neg matched]
    exact ⟨rfl, ⟨sweeping.item, sweeping.inside, sweeping.counted, rfl⟩, rfl⟩

/-- The items whose names start with the prefix leave, and no others. -/
theorem Represents.deleteBynamePrefix (holds : Represents block map) (name : CStr) :
    ∃ next, partVarDeleteBynamePrefix block name = some (.code 0, next) ∧
      Represents next (map.remove fun key => decide (name.bytes <+: key.bytes)) := by
  have round (state : VarBlock × MultiValue) (node : Nat) (sweeping : Sweeping block state)
      (listed : node ∈ state.1.list) := sweeping.round holds.whole name listed
  obtain ⟨goes, last, list⟩ := Walk.forEachSafe_unlink round (block, MultiValue.ok) ⟨rfl, List.Subset.refl _, holds.counted, rfl⟩ holds.nodes
  refine ⟨_, ?_, holds.remove _ ?_ last.item last.counted⟩
  · rw [partVarDeleteBynamePrefix, partVarForeachBynamePrefix,
      partVarForeach_through (Prod.ext goes rfl), last.mv]
    rfl
  · rw [list]
    exact List.filter_congr fun node _ => by rw [hasPrefix_eq]

/-! ## Calls and runs of calls -/

theorem partVarCreateFlag_of_mem (whole : Whole block) (known : name ∈ block.names)
    (malloc : NodeAllocator) (alloc : VarAlloc) (value : CStr) (flag : VarFlag)
    (some_ : ¬ (flag.create = false ∧ flag.update = false)) :
    ∃ node ∈ block.list, block.nameOf node = name ∧
      partVarCreateFlag malloc alloc block name value flag = some (if flag.update then
        (.code (partCursorInit alloc (block.item node) name value).1, { block with
          item := Function.update block.item node
            (partCursorInit alloc (block.item node) name value).2
          dirty := true })
        else (.code (-EEXIST), block)) := by
  obtain ⟨node, listed, named, found⟩ := whole.find_of_mem known
  refine ⟨node, listed, named, ?_⟩
  rw [partVarCreateFlag, if_neg some_, found]
  cases flag.update with
  | true => rfl
  | false => rfl

theorem partVarCreateFlag_of_notMem (whole : Whole block) (fresh : name ∉ block.names)
    (flag : VarFlag) (some_ : ¬ (flag.create = false ∧ flag.update = false)) :
    partVarCreateFlag malloc alloc block name value flag = some (if flag.create then
      (.code (partItemInsert { block with dirty := true } malloc (partItemNew alloc name value)).1,
        (partItemInsert { block with dirty := true } malloc (partItemNew alloc name value)).2)
      else (.code (-ENOEXIST), block)) := by
  rw [partVarCreateFlag, if_neg some_, whole.find_of_notMem fresh]
  cases flag.create with
  | true => rfl
  | false => rfl

/-- With all memory, a name that is there is updated, and one that is not comes last. -/
theorem Represents.store (holds : Represents block map) (malloc : NodeAllocator)
    (name value : CStr) (flag : VarFlag)
    (flagged : if name ∈ map.keys then flag.update = true else flag.create = true) :
    ∃ next, partVarCreateFlag malloc .all block name value flag = some (.code 0, next) ∧
      Represents next (map.store name value) := by
  by_cases known : name ∈ map.keys
  · rw [if_pos known] at flagged
    obtain ⟨node, listed, rfl, created⟩ := partVarCreateFlag_of_mem holds.whole
      (holds.keys ▸ known) malloc .all value flag (by simp [flagged])
    rw [created, if_pos flagged, partCursorInit_all]
    exact ⟨_, rfl, holds.update listed value⟩
  · rw [if_neg known] at flagged
    rw [partVarCreateFlag_of_notMem holds.whole (holds.keys ▸ known) flag (by simp [flagged]),
      if_pos flagged, partItemNew_all]
    exact ⟨_, rfl, holds.insert known malloc value true⟩

/-- A call that is not allowed by what is there leaves the block. -/
theorem Represents.refused (holds : Represents block map) (flag : VarFlag)
    (some_ : ¬ (flag.create = false ∧ flag.update = false))
    (flagged : if name ∈ map.keys then flag.update = false else flag.create = false) :
    partVarCreateFlag malloc alloc block name value flag =
      some (.code (if name ∈ map.keys then -EEXIST else -ENOEXIST), block) := by
  by_cases known : name ∈ map.keys
  · rw [if_pos known] at flagged
    obtain ⟨node, -, -, created⟩ := partVarCreateFlag_of_mem holds.whole (holds.keys ▸ known)
      malloc alloc value flag some_
    rw [created, if_neg (by simp [flagged]), if_pos known]
  · rw [if_neg known] at flagged
    rw [partVarCreateFlag_of_notMem holds.whole (holds.keys ▸ known) flag some_,
      if_neg (by simp [flagged]), if_neg known]

/-- A call answers as the map does and leaves what the map is then. One that fails leaves the
block. -/
theorem Represents.call (holds : Represents block map) (malloc : NodeAllocator)
    (request : VarCall) :
    ∃ next, VarBlock.call malloc block request = some ((request.perform map).1, next) ∧
      Represents next (request.perform map).2 ∧
      (¬ (request.perform map).1.ret.Ok → next = block) := by
  cases request with
  | create name value =>
      rw [VarCall.perform, VarBlock.call, partVarCreate]
      by_cases known : name ∈ map.keys
      · rw [holds.refused ⟨true, false⟩ (by simp) (by simp [known]), if_pos known, if_pos known]
        exact ⟨block, rfl, holds, fun _ => rfl⟩
      · obtain ⟨next, created, stored⟩ := holds.store malloc name value ⟨true, false⟩
          (by rw [if_neg known])
        rw [created, if_neg known]
        exact ⟨next, rfl, stored, fun failed => absurd rfl failed⟩
  | update name value =>
      rw [VarCall.perform, VarBlock.call, partVarUpdate]
      by_cases known : name ∈ map.keys
      · obtain ⟨next, created, stored⟩ := holds.store malloc name value ⟨false, true⟩
          (by rw [if_pos known])
        rw [created, if_pos known]
        exact ⟨next, rfl, stored, fun failed => absurd rfl failed⟩
      · rw [holds.refused ⟨false, true⟩ (by simp) (by simp [known]), if_neg known, if_neg known]
        exact ⟨block, rfl, holds, fun _ => rfl⟩
  | new name value =>
      obtain ⟨next, created, stored⟩ := holds.store malloc name value ⟨true, true⟩
        (by split <;> rfl)
      rw [VarCall.perform, VarBlock.call, partVarNew, created]
      exact ⟨next, rfl, stored, fun failed => absurd rfl failed⟩
  | delete name =>
      rw [VarCall.perform, VarBlock.call, partVarDelete]
      by_cases known : name ∈ map.keys
      · obtain ⟨node, listed, rfl, found⟩ := holds.whole.find_of_mem (holds.keys ▸ known)
        rw [found, if_pos known]
        exact ⟨_, rfl, holds.destroy listed, fun failed => absurd rfl failed⟩
      · rw [holds.whole.find_of_notMem (holds.keys ▸ known), if_neg known]
        exact ⟨block, rfl, holds, fun _ => rfl⟩
  | deleteBynamePrefix name =>
      obtain ⟨next, deleted, removed⟩ := holds.deleteBynamePrefix name
      rw [VarCall.perform, VarBlock.call, deleted]
      exact ⟨next, rfl, removed, fun failed => absurd rfl failed⟩
  | find name =>
      rw [VarCall.perform, VarBlock.call, partVarFind]
      by_cases known : name ∈ map.keys
      · obtain ⟨node, listed, rfl, found⟩ := holds.whole.find_of_mem (holds.keys ▸ known)
        obtain ⟨value, mapped, held⟩ := holds.items node listed
        rw [found, mapped]
        refine ⟨block, ?_, holds, fun _ => rfl⟩
        dsimp only
        rw [← held]
        rfl
      · rw [holds.whole.find_of_notMem (holds.keys ▸ known), OrderedMap.value_eq_none known]
        exact ⟨block, rfl, holds, fun _ => rfl⟩

/-- What is asked of a call: names stay distinct and items counted, entries that it does not address
stay in their order, and a call that fails changes nothing. -/
structure Orderly (block : VarBlock) (request : VarCall) (answer : VarAnswer) (next : VarBlock) :
    Prop where
  sound : Sound next
  others : (next.entries.filter fun entry => !request.addresses entry.1) =
    block.entries.filter fun entry => !request.addresses entry.1
  failed : ¬ answer.ret.Ok → next.list = block.list ∧ next.item = block.item ∧
    next.dirty = block.dirty

/-- The calls on the variables of a block with distinct names are those of an ordered map, and each
of them is orderly. -/
theorem calls_ordered_map (malloc : NodeAllocator) (block : VarBlock) (sound : Sound block)
    (calls : List VarCall) :
    ∃ map, Represents block map ∧
      (∃ last, Run.exec (call malloc) block calls =
          some ((Run.answers (fun map request => request.perform map) map calls).1, last) ∧
        Represents last (Run.answers (fun map request => request.perform map) map calls).2) ∧
      Run.Throughout (call malloc) Orderly block calls := by
  obtain ⟨map, holds⟩ := sound.represents
  refine ⟨map, holds, ?_, ?_⟩
  · have keeps (block : VarBlock) (map : OrderedMap CStr CStr) (request : VarCall)
        (holds : Represents block map) :
        ∃ next, call malloc block request = some ((request.perform map).1, next) ∧
          Represents next (request.perform map).2 := by
      obtain ⟨next, called, represents, -⟩ := holds.call malloc request
      exact ⟨next, called, represents⟩
    have simulated := Run.exec_simulation id id keeps calls block map holds
    simpa only [List.map_id] using simulated
  · have steps (block : VarBlock) (request : VarCall) (inv : ∃ map, Represents block map)
        (_ : True) : ∃ answer next, call malloc block request = some (answer, next) ∧
          Orderly block request answer next ∧ ∃ map, Represents next map := by
      obtain ⟨map, holds⟩ := inv
      obtain ⟨next, called, represents, failed⟩ := holds.call malloc request
      refine ⟨_, next, called, ⟨represents.sound, ?_, ?_⟩, _, represents⟩
      · rw [represents.entries, holds.entries]
        exact VarCall.filter_entries_perform map request
      · intro refused
        rw [failed refused]
        exact ⟨rfl, rfl, rfl⟩
    exact Run.throughout_of_granted steps calls block ⟨map, holds⟩ (Run.granted_true ..)

/-- A new node behind all others. -/
def nextNode : NodeAllocator where
  node list := list.foldr max 0 + 1
  fresh list listed := by
    have bound := List.le_max_of_le' 0 listed (Nat.le_refl _)
    omega

/-- A block with one variable. -/
def oneVariable : VarBlock where
  list := [1]
  item _ := VarCursor.hold ⟨[ascii 'a'], by decide⟩ ⟨[ascii '1'], by decide⟩
  count := 1
  dirty := false

theorem oneVariable_sound : Sound oneVariable where
  whole := fun _ _ => ⟨_, rfl⟩
  distinct := List.nodup_singleton _
  counted := rfl

theorem calls_ordered_map_oneVariable :
    ∃ map, Represents oneVariable map ∧
      (∃ last, Run.exec (call nextNode) oneVariable [.deleteBynamePrefix ⟨[], by decide⟩] =
          some ((Run.answers (fun map request => VarCall.perform map request) map
            [.deleteBynamePrefix ⟨[], by decide⟩]).1, last) ∧
        Represents last (Run.answers (fun map request => VarCall.perform map request) map
          [.deleteBynamePrefix ⟨[], by decide⟩]).2) ∧
      Run.Throughout (call nextNode) Orderly oneVariable [.deleteBynamePrefix ⟨[], by decide⟩] :=
  calls_ordered_map nextNode oneVariable oneVariable_sound [.deleteBynamePrefix ⟨[], by decide⟩]

/-! ## The block without its allocations -/

/-- A block by its nodes and the same block of `Trunk.Partool.PartBlock`. -/
structure Shows (block : VarBlock) (parts : PartBlock) : Prop where
  nodes : block.list.Nodup
  items : block.list.map block.item = parts.list.map fun c => VarCursor.hold c.k c.v
  dirty : block.dirty = parts.dirty

theorem findNode_shows {item : Nat → VarCursor} {list : List Nat} {cursors : List PartCursor}
    (same : list.map item = cursors.map fun c => VarCursor.hold c.k c.v) (name : CStr) :
    findNode item name list =
      some ((cursors.findIdx? fun c => decide (name = c.k)).bind fun index => list[index]?) := by
  induction list generalizing cursors with
  | nil =>
      obtain rfl := List.map_eq_nil_iff.mp same.symm
      rfl
  | cons node list ih =>
      cases cursors with
      | nil => exact absurd same (List.cons_ne_nil _ _)
      | cons c cursors =>
          obtain ⟨here, rest⟩ := List.cons.inj same
          rw [findNode, here, ih rest, List.findIdx?_cons]
          by_cases found : name = c.k
          · subst found
            simp [VarCursor.hold, PartVar.hold]
          · simp [VarCursor.hold, PartVar.hold, found, Option.bind_map]

/-- Both searches find the same variable. -/
theorem Shows.search {parts : PartBlock} (shows_ : Shows block parts) (name : CStr) :
    (∃ index node, parts.list.findIdx? (fun c => name = c.k) = some index ∧
        partVarFindItem block name = some (some node) ∧ node ∈ block.list ∧
        block.list.idxOf node = index) ∨
      (parts.list.findIdx? (fun c => name = c.k) = none ∧
        partVarFindItem block name = some none) := by
  have found := findNode_shows shows_.items name
  rw [partVarFindItem, found]
  cases search : parts.list.findIdx? fun c => decide (name = c.k) with
  | none => exact .inr ⟨rfl, rfl⟩
  | some index =>
      have length : block.list.length = parts.list.length := by
        simpa only [List.length_map] using congrArg List.length shows_.items
      obtain ⟨inside, -⟩ := List.findIdx?_eq_some_iff_getElem.mp search
      rw [← length] at inside
      refine .inl ⟨index, block.list[index], rfl, ?_, List.getElem_mem inside,
        shows_.nodes.idxOf_getElem index inside⟩
      rw [Option.bind_some, List.getElem?_eq_getElem inside]

/-- With all memory, `__part_var_create` returns what it does without allocations, and leaves the
same block. -/
theorem Shows.create {parts : PartBlock} (shows_ : Shows block parts) (malloc : NodeAllocator)
    (name value : CStr) (flag : VarFlag) :
    ∃ next, partVarCreateFlag malloc .all block name value flag =
        some ((Partool.partVarCreateFlag parts name value flag).1, next) ∧
      Shows next (Partool.partVarCreateFlag parts name value flag).2 := by
  rw [partVarCreateFlag, Partool.partVarCreateFlag]
  by_cases nothing : flag.create = false ∧ flag.update = false
  · rw [if_pos nothing, if_pos nothing]
    exact ⟨block, rfl, shows_⟩
  rw [if_neg nothing, if_neg nothing]
  rcases shows_.search name with ⟨index, node, here, found, listed, place⟩ | ⟨here, found⟩
  · rw [here, found]
    cases flag.update with
    | false => exact ⟨block, rfl, shows_⟩
    | true =>
        refine ⟨_, rfl, shows_.nodes, ?_, rfl⟩
        change block.list.map (Function.update block.item node (VarCursor.hold name value)) =
          (parts.list.set index ⟨name, value⟩).map _
        rw [shows_.nodes.map_update, if_pos listed, place, shows_.items, List.map_set]
  · rw [here, found]
    cases flag.create with
    | false => exact ⟨block, rfl, shows_⟩
    | true =>
        have unlisted := malloc.fresh block.list
        refine ⟨_, rfl, ?_, ?_, rfl⟩
        · change (block.list ++ [malloc.node block.list]).Nodup
          rw [← List.concat_eq_append]
          exact shows_.nodes.concat unlisted
        · change (block.list ++ [malloc.node block.list]).map (Function.update block.item
            (malloc.node block.list) (VarCursor.hold name value)) =
              (parts.list ++ [(⟨name, value⟩ : PartCursor)]).map fun c => VarCursor.hold c.k c.v
          rw [List.map_append, shows_.nodes.map_update, if_neg unlisted, shows_.items,
            List.map_append, List.map_singleton, List.map_singleton, Function.update_self]

/-- `part_var_delete` returns the same and leaves the same block. -/
theorem Shows.delete {parts : PartBlock} (shows_ : Shows block parts) (name : CStr) :
    ∃ next, partVarDelete block name = some ((Partool.partVarDelete parts name).1, next) ∧
      Shows next (Partool.partVarDelete parts name).2 := by
  rw [partVarDelete, Partool.partVarDelete]
  rcases shows_.search name with ⟨index, node, here, found, listed, place⟩ | ⟨here, found⟩
  · rw [here, found]
    refine ⟨_, rfl, shows_.nodes.erase node, ?_, rfl⟩
    change (block.list.erase node).map block.item = (parts.list.eraseIdx index).map _
    rw [List.erase_eq_eraseIdx_of_idxOf place, ← List.eraseIdx_map, shows_.items,
      List.eraseIdx_map]
  · rw [here, found]
    exact ⟨block, rfl, shows_⟩

/-! ## Failed allocations -/

/-- The names and values of a block, as far as they are there. -/
def pairs (block : VarBlock) : List (Option CStr × Option CStr) :=
  block.list.map fun node => ((block.item node).k.var, (block.item node).v.var)

/-- The number that a call returns. -/
def retValue : Ret → Int
  | .code value => value
  | .assert value => value

/-- A negative return leaves the names and values as they were. -/
def Intact (malloc : NodeAllocator) (alloc : VarAlloc) (block : VarBlock) (name value : CStr)
    (flag : VarFlag) : Prop :=
  ∀ ret next, partVarCreateFlag malloc alloc block name value flag = some (ret, next) →
    retValue ret < 0 → next.pairs = block.pairs

/-- Without memory for one of its strings the cursor ends up without both. -/
theorem partCursorInit_failed (c : VarCursor) (name value : CStr)
    (failed : ¬ (alloc.name = true ∧ alloc.value = true)) :
    (partCursorInit alloc c name value).1 = -ENOMEM ∧
      (partCursorInit alloc c name value).2.k.var = none ∧
      (partCursorInit alloc c name value).2.v.var = none := by
  obtain ⟨item, named, valued⟩ := alloc
  cases named with
  | false => exact ⟨rfl, rfl, rfl⟩
  | true =>
      cases valued with
      | false => exact ⟨rfl, rfl, rfl⟩
      | true => exact absurd ⟨rfl, rfl⟩ failed

/-- An existing variable is intact after a failure exactly if the call does not update or gets the
memory for both strings. -/
theorem intact_iff (malloc : NodeAllocator) (alloc : VarAlloc) (block : VarBlock)
    (name value : CStr) (flag : VarFlag) (whole : Whole block) (known : name ∈ block.names) :
    Intact malloc alloc block name value flag ↔
      (flag.update = true → alloc.name = true ∧ alloc.value = true) := by
  by_cases nothing : flag.create = false ∧ flag.update = false
  · refine iff_of_true ?_ (fun updates => absurd (nothing.2.symm.trans updates) (by decide))
    intro ret next created _
    rw [partVarCreateFlag, if_pos nothing] at created
    obtain ⟨-, rfl⟩ := Prod.mk.inj (Option.some.inj created)
    rfl
  obtain ⟨node, listed, named, result⟩ :=
    partVarCreateFlag_of_mem whole known malloc alloc value flag nothing
  rw [Intact, result]
  by_cases updates : flag.update = true
  · rw [if_pos updates]
    constructor
    · intro intact _
      by_contra failed
      obtain ⟨err, noName, -⟩ := partCursorInit_failed (block.item node) name value failed
      have same := intact _ _ rfl (by rw [err]; decide)
      have pair := List.map_inj_left.mp same node listed
      dsimp only at pair
      rw [Function.update_self, noName] at pair
      obtain ⟨held, item⟩ := whole node listed
      rw [item] at pair
      exact absurd (Prod.mk.inj pair).1 (Option.some_ne_none _).symm
    · intro allocated ret next created negative
      obtain ⟨rfl, -⟩ := Prod.mk.inj (Option.some.inj created)
      obtain ⟨item, nameThere, valueThere⟩ := alloc
      obtain ⟨rfl, rfl⟩ := allocated updates
      exact absurd negative (Int.lt_irrefl 0)
  · rw [if_neg updates]
    refine iff_of_true ?_ (fun updated => absurd updated updates)
    intro ret next created _
    obtain ⟨-, rfl⟩ := Prod.mk.inj (Option.some.inj created)
    rfl

theorem intact_iff_oneVariable :
    Intact nextNode ⟨true, false, true⟩ oneVariable ⟨[ascii 'a'], by decide⟩ ⟨[], by decide⟩
        ⟨true, false⟩ ↔
      ((⟨true, false⟩ : VarFlag).update = true → false = true ∧ true = true) :=
  intact_iff nextNode ⟨true, false, true⟩ oneVariable ⟨[ascii 'a'], by decide⟩ ⟨[], by decide⟩
    ⟨true, false⟩ oneVariable_sound.whole (List.mem_singleton_self _)

/-- An update whose value gets no memory loses the name as well. -/
theorem not_intact_oneVariable :
    ¬ Intact nextNode ⟨true, true, false⟩ oneVariable ⟨[ascii 'a'], by decide⟩
      ⟨[ascii '2'], by decide⟩ ⟨false, true⟩ := by
  intro intact
  have same := intact _ _ rfl (by decide)
  exact absurd same (by decide)

end VarBlock

end Trunk.Partool
