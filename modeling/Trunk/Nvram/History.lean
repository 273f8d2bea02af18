import Trunk.Nvram.Pointers

/-! # The table over its history

Any calls in any order, from a table without tuples: a name has the value of the last call that set
it, unless it was unset behind that (`Trunk.Nvram.current`). The heap stays in order
(`Trunk.Nvram.Ordered`), and what is found and listed is what the names have
(`Trunk.Nvram.Coherent`).
-/

namespace Trunk.Nvram

open CString Chain

/-- A call. A name may be null, but for one that is set. -/
inductive Call where
  | set (name value : CStr)
  | unset (name : Option CStr)
  | get (name : Option CStr)
  | getall

/-- A call, as it works on memory. -/
def Heap.perform (s : Heap) : Call → Option Heap
  | .set name value => (s.nvramSet name value).map Prod.snd
  | .unset name => s.nvramUnset name
  | .get name => (s.nvramGet name).map fun _ => s
  | .getall => s.nvramGetall.map fun _ => s

/-- The value of a name after a call. -/
def effect (name : CStr) (value : Option CStr) : Call → Option CStr
  | .set other new => if other = name ∧ new.bytes.length + 1 ≤ nvramSpace then some new else value
  | .unset other => if other = some name then none else value
  | .get _ => value
  | .getall => value

/-- The value of a name after calls. -/
def current (calls : List Call) (name : CStr) : Option CStr := calls.foldl (effect name) none

/-- The tuples are in lists, each in that of its name, and no name is in two of them. -/
structure Ordered (s : Heap) (rows : Row → List Nat) : Prop where
  leads : ∀ row, Leads s.links (.head row) (rows row)
  placed : ∀ i, ∀ t ∈ rows (.hash i), ∃ node, s.nodes[t]? = some node ∧ bucket node.name = i
  unique : ∀ i j, ∀ t ∈ rows (.hash i), ∀ t' ∈ rows (.hash j), ∀ node node',
    s.nodes[t]? = some node → s.nodes[t']? = some node' → node.name = node'.name → t = t'

/-- The heap is a finite map. -/
structure Coherent (s : Heap) (value : CStr → Option CStr) : Prop where
  ordered : ∃ rows, Ordered s rows
  get : ∀ name, s.nvramGet (some name) = some (value name)
  getall : ∃ l, s.nvramGetall = some l ∧ (l.map Prod.fst).Nodup ∧
    ∀ name new, (name, some new) ∈ l ↔ value name = some new
  whole : ∀ l, s.nvramGetall = some l → ∀ entry ∈ l, entry.2 ≠ none
  refused : ∀ name new : CStr, nvramSpace < new.bytes.length + 1 →
    s.nvramSet name new = some (-12, s)
  accepted : ∀ name new : CStr, new.bytes.length + 1 ≤ nvramSpace →
    ∃ s', s.nvramSet name new = some (0, s')

variable {s : Heap} {value : CStr → Option CStr} {rows : Row → List Nat} {h : Handle}

/-- The heap holds a table with the values. -/
structure Keeps (s : Heap) (h : Handle) (rows : Row → List Nat) (value : CStr → Option CStr) :
    Prop where
  holds : Holds s h rows
  shelved : Shelved (fun _ => True) h
  values : ∀ name, nvramGet h name = value name

/-- What a call does to the heap and to the values. -/
theorem Keeps.perform (keeps : Keeps s h rows value) (call : Call) :
    ∃ s' h' rows', s.perform call = some s' ∧
      Keeps s' h' rows' (fun name => effect name (value name) call) := by
  obtain ⟨holds, shelved, values⟩ := keeps
  cases call with
  | set name new =>
      obtain ⟨s', rows', run, holds'⟩ := holds.nvramSet name new
      refine ⟨s', _, rows', ?_, holds', shelved.nvramSet trivial new, fun other => ?_⟩
      · rw [Heap.perform, run]
        rfl
      · unfold effect
        dsimp only
        by_cases fits : new.bytes.length + 1 ≤ nvramSpace
        · rw [nvramGet_nvramSet h other (by omega), values]
          by_cases same : other = name
          · rw [if_pos same, if_pos ⟨same.symm, fits⟩]
          · rw [if_neg same, if_neg fun both => same both.1.symm]
        · rw [nvramSet_eq, if_pos (by omega), if_neg fun both => fits both.2, values]
  | unset name =>
      cases name with
      | none => exact ⟨s, h, rows, rfl, holds, shelved, values⟩
      | some name =>
          obtain ⟨s', rows', run, holds'⟩ := holds.nvramUnset name
          refine ⟨s', _, rows', run, holds', shelved.nvramUnset name, fun other => ?_⟩
          rw [shelved.nvramGet_nvramUnset, values]
          unfold effect
          dsimp only
          by_cases same : other = name
          · rw [if_pos same, if_pos (by rw [same])]
          · rw [if_neg same, if_neg fun eq => same (Option.some.inj eq).symm]
  | get name =>
      refine ⟨s, h, rows, ?_, holds, shelved, values⟩
      cases name with
      | none => rfl
      | some name =>
          rw [Heap.perform, holds.nvramGet]
          rfl
  | getall =>
      refine ⟨s, h, rows, ?_, holds, shelved, values⟩
      rw [Heap.perform, holds.nvramGetall]
      rfl

/-- The name at an address of a bucket is one of the table's. -/
theorem Holds.name_of_mem (holds : Holds s h rows) {i : Fin 257} {a : Nat}
    (member : a ∈ rows (.hash i)) :
    ∃ node, s.nodes[a]? = some node ∧ node.name ∈ (h.nvramHash i).map Tuple.name ∧
      (s.tuple a).map Tuple.name = some node.name := by
  have there : s.tuple a ∈ (h.row (.hash i)).map some := by
    rw [← holds.tuples (.hash i)]
    exact List.mem_map_of_mem member
  obtain ⟨t, listed, same⟩ := List.mem_map.mp there
  obtain ⟨next, node⟩ := Heap.node_of_tuple same.symm
  refine ⟨_, node, List.mem_map_of_mem listed, ?_⟩
  rw [← same]
  rfl

/-- The lists of a heap that holds a table are in order. -/
theorem Keeps.ordered (keeps : Keeps s h rows value) : Ordered s rows := by
  obtain ⟨holds, shelved, -⟩ := keeps
  refine ⟨holds.leads, fun i a member => ?_, ?_⟩
  · obtain ⟨node, there, listed, -⟩ := holds.name_of_mem member
    exact ⟨node, there, (shelved.placed i _ listed).1⟩
  · intro i j a member b member' node node' there there' same
    obtain ⟨first, there₁, listed, named⟩ := holds.name_of_mem member
    obtain ⟨second, there₂, listed', named'⟩ := holds.name_of_mem member'
    obtain rfl := Option.some.inj (there₁.symm.trans there)
    obtain rfl := Option.some.inj (there₂.symm.trans there')
    -- one name is in one bucket, where it is listed once
    obtain rfl : i = j := by
      rw [← (shelved.placed i _ listed).1, ← (shelved.placed j _ listed').1, same]
    have unique : ((rows (.hash i)).map fun a => (s.tuple a).map Tuple.name).Nodup := by
      have names : (rows (.hash i)).map (fun a => (s.tuple a).map Tuple.name) =
          ((h.nvramHash i).map Tuple.name).map some := by
        have tuples := congrArg (List.map (Option.map Tuple.name)) (holds.tuples (.hash i))
        rw [List.map_map, List.map_map] at tuples
        rw [List.map_map]
        exact tuples
      rw [names]
      exact (shelved.unique i).map (Option.some_injective _)
    have names : (s.tuple a).map Tuple.name = (s.tuple b).map Tuple.name := by
      rw [named, named', same]
    exact List.inj_on_of_nodup_map unique member member' names

/-- A heap that holds a table with the values is a finite map. -/
theorem Keeps.coherent (keeps : Keeps s h rows value) : Coherent s value where
  ordered := ⟨rows, keeps.ordered⟩
  get name := by rw [keeps.holds.nvramGet, keeps.values]
  getall := by
    refine ⟨_, keeps.holds.nvramGetall, ?_, fun name new => ?_⟩
    · rw [List.map_reverse, List.map_map, List.nodup_reverse]
      exact keeps.shelved.nodup_names
    · rw [List.mem_reverse, ← keeps.values, keeps.shelved.nvramGet_eq_some_iff]
      constructor
      · intro member
        obtain ⟨t, listed, same⟩ := List.mem_map.mp member
        cases same
        exact listed
      · intro listed
        exact List.mem_map_of_mem listed
  whole l run entry member := by
    rw [keeps.holds.nvramGetall] at run
    obtain rfl := Option.some.inj run
    obtain ⟨t, -, rfl⟩ := List.mem_map.mp (List.mem_reverse.mp member)
    nofun
  refused name new big := keeps.holds.nvramSet_refused name big
  accepted name new fits := by
    obtain ⟨s', -, run, -⟩ := keeps.holds.nvramSet name new
    rw [nvramSet_eq, if_neg (by omega)] at run
    exact ⟨s', run⟩

/-- After any calls, the table is the finite map of what was set last and not unset. -/
theorem calls_coherent (calls : List Call) :
    ∃ s, calls.foldlM Heap.perform Heap.empty = some s ∧ Coherent s (current calls) := by
  have start : Keeps Heap.empty
      (nvramFree { mmap := [], offset := 0, nvramHash := fun _ => [], nvramDead := [] })
      (fun _ => []) (fun _ => none) :=
    ⟨Holds.empty, ⟨nofun, fun _ => List.nodup_nil⟩, fun name => rfl⟩
  have run : ∀ (calls : List Call) s h rows value, Keeps s h rows value →
      ∃ s' h' rows', calls.foldlM Heap.perform s = some s' ∧
        Keeps s' h' rows' fun name => calls.foldl (effect name) (value name) := by
    intro calls
    induction calls with
    | nil => exact fun s h rows value keeps => ⟨s, h, rows, rfl, keeps⟩
    | cons call calls ih =>
        intro s h rows value keeps
        obtain ⟨s', h', rows', step, keeps'⟩ := keeps.perform call
        obtain ⟨last, h'', rows'', rest, kept⟩ := ih s' h' rows' _ keeps'
        refine ⟨last, h'', rows'', ?_, kept⟩
        rw [List.foldlM_cons, step]
        exact rest
  obtain ⟨s, h, rows, done, keeps⟩ := run calls _ _ _ _ start
  exact ⟨s, done, keeps.coherent⟩

end Trunk.Nvram
