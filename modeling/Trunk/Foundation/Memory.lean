import Mathlib.Data.List.Basic

/-! # Bounds-checked memory blocks

A block of memory is the list of its cells. A read or a write of a range succeeds
only inside the block (`Trunk.Memory.load`, `Trunk.Memory.store`): an access outside
it has no result. What a write leaves behind is read back from its own range
(`Trunk.Memory.load_store_self`), and every range it does not touch is as before
(`Trunk.Memory.load_store_disjoint`).
-/

namespace Trunk.Memory

variable {α : Type*} {block block' content : List α} {start length start' length' : Nat}

/-- Read `length` cells from `start` on. -/
def load (block : List α) (start length : Nat) : Option (List α) :=
  if start + length ≤ block.length then some ((block.drop start).take length) else none

/-- Replace the cells from `start` on by `content`. -/
def store (block : List α) (start : Nat) (content : List α) : Option (List α) :=
  if start + content.length ≤ block.length then
    some (block.take start ++ content ++ block.drop (start + content.length))
  else none

/-- Read cells at a distance from the start that may be negative. -/
def loadAt (block : List α) (place : Int) (length : Nat) : Option (List α) :=
  if 0 ≤ place then load block place.toNat length else none

/-- Replace cells at a distance from the start that may be negative. -/
def storeAt (block : List α) (place : Int) (content : List α) : Option (List α) :=
  if 0 ≤ place then store block place.toNat content else none

theorem load_eq_some_iff :
    load block start length = some content ↔
      start + length ≤ block.length ∧ (block.drop start).take length = content := by
  unfold load
  split
  · rename_i inside
    simp only [Option.some.injEq, inside, true_and]
  · rename_i outside
    simp only [reduceCtorEq, outside, false_and]

theorem store_eq_some_iff :
    store block start content = some block' ↔
      start + content.length ≤ block.length ∧
        block.take start ++ content ++ block.drop (start + content.length) = block' := by
  unfold store
  split
  · rename_i inside
    simp only [Option.some.injEq, inside, true_and]
  · rename_i outside
    simp only [reduceCtorEq, outside, false_and]

theorem store_length (stored : store block start content = some block') :
    block'.length = block.length := by
  obtain ⟨inside, rfl⟩ := store_eq_some_iff.mp stored
  simp only [List.length_append, List.length_take, List.length_drop]
  omega

theorem storeAt_length {place : Int} (stored : storeAt block place content = some block') :
    block'.length = block.length := by
  rw [storeAt] at stored
  split at stored
  · exact store_length stored
  · cases stored

theorem store_isSome (inside : start + content.length ≤ block.length) :
    ∃ block', store block start content = some block' :=
  ⟨_, store_eq_some_iff.mpr ⟨inside, rfl⟩⟩

theorem load_length (loaded : load block start length = some content) : content.length = length := by
  obtain ⟨inside, rfl⟩ := load_eq_some_iff.mp loaded
  rw [List.length_take, List.length_drop]
  omega

/-- A range that was written holds what was written. -/
theorem load_store_self (stored : store block start content = some block') :
    load block' start content.length = some content := by
  obtain ⟨inside, rfl⟩ := store_eq_some_iff.mp stored
  have front : (block.take start).length = start := by
    rw [List.length_take]
    omega
  refine load_eq_some_iff.mpr ⟨?_, ?_⟩
  · simp only [List.length_append, front]
    omega
  · rw [List.append_assoc, List.drop_left' front, List.take_left' rfl]

/-- A range that was not written holds what it held. -/
theorem load_store_disjoint (stored : store block start content = some block')
    (apart : start' + length' ≤ start ∨ start + content.length ≤ start') :
    load block' start' length' = load block start' length' := by
  have same := store_length stored
  obtain ⟨inside, rfl⟩ := store_eq_some_iff.mp stored
  have front : (block.take start).length = start := by
    rw [List.length_take]
    omega
  unfold load
  rw [same]
  congr 2
  rcases apart with before | after
  · apply List.ext_getElem?
    intro index
    simp only [List.getElem?_take, List.getElem?_drop]
    split
    · rw [List.append_assoc, List.getElem?_append_left (by rw [front]; omega),
        List.getElem?_take_of_lt (by omega)]
    · rfl
  · have rest : (block.take start ++ content).length = start + content.length := by
      rw [List.length_append, front]
    obtain ⟨skip, rfl⟩ := Nat.exists_eq_add_of_le after
    rw [← List.drop_drop, List.drop_left' rest, List.drop_drop]

/-- A part of a block is replaced by what is as long. -/
theorem store_append (front old back : List α) {content : List α}
    (same : content.length = old.length) :
    store (front ++ old ++ back) front.length content = some (front ++ content ++ back) := by
  refine store_eq_some_iff.mpr ⟨?_, ?_⟩
  · rw [List.length_append, List.length_append]
    omega
  · rw [List.append_assoc front old, List.take_left, same, ← List.append_assoc,
      ← List.length_append, List.drop_left]

/-- A whole block is replaced by one as long. -/
theorem store_whole (same : content.length = block.length) : store block 0 content = some content := by
  have stored := store_append [] block [] same
  rw [List.nil_append, List.append_nil, List.nil_append, List.append_nil] at stored
  exact stored

/-- A part of a block is read. -/
theorem load_append_middle (front content back : List α) :
    load (front ++ content ++ back) front.length content.length = some content := by
  refine load_eq_some_iff.mpr ⟨?_, ?_⟩
  · rw [List.length_append, List.length_append]
    omega
  · rw [List.append_assoc, List.drop_left, List.take_left]

/-- The cells of a block after a write. -/
theorem getElem?_store (stored : store block start content = some block') (index : Nat) :
    block'[index]? =
      if start ≤ index ∧ index < start + content.length then content[index - start]?
      else block[index]? := by
  obtain ⟨inside, rfl⟩ := store_eq_some_iff.mp stored
  have front : (block.take start).length = start := by
    rw [List.length_take]
    omega
  have middle : (block.take start ++ content).length = start + content.length := by
    rw [List.length_append, front]
  by_cases before : index < start
  · rw [if_neg (by omega), List.append_assoc, List.getElem?_append_left (by omega),
      List.getElem?_take_of_lt before]
  · by_cases within : index < start + content.length
    · rw [if_pos (by omega), List.getElem?_append_left (by omega),
        List.getElem?_append_right (by omega), front]
    · rw [if_neg (by omega), List.getElem?_append_right (by omega), middle, List.getElem?_drop]
      congr 1
      omega

/-- Blocks with the same cells in a range read the same there. -/
theorem load_congr (same : block'.length = block.length)
    (agree : ∀ index, start ≤ index → index < start + length → block'[index]? = block[index]?) :
    load block' start length = load block start length := by
  unfold load
  rw [same]
  congr 2
  apply List.ext_getElem?
  intro index
  simp only [List.getElem?_take, List.getElem?_drop]
  split
  · exact agree _ (by omega) (by omega)
  · rfl

/-- A range that is written with what it holds stays. -/
theorem store_self (loaded : load block start length = some content) :
    store block start content = some block := by
  obtain ⟨inside, rfl⟩ := load_eq_some_iff.mp loaded
  have full : ((block.drop start).take length).length = length := by
    rw [List.length_take, List.length_drop]
    omega
  refine store_eq_some_iff.mpr ⟨by omega, ?_⟩
  rw [full, List.append_assoc, ← List.drop_drop, List.take_append_drop, List.take_append_drop]

/-- Of two writes of a range the second one counts. -/
theorem store_store {content' : List α} (stored : store block start content = some block')
    (same : content'.length = content.length) :
    store block' start content' = store block start content' := by
  have long := store_length stored
  obtain ⟨inside, rfl⟩ := store_eq_some_iff.mp stored
  have front : (block.take start).length = start := by
    rw [List.length_take]
    omega
  have before : (block.take start ++ content ++ block.drop (start + content.length)).take start =
      block.take start := by
    rw [List.append_assoc, List.take_left' front]
  have behind : (block.take start ++ content ++ block.drop (start + content.length)).drop
      (start + content.length) = block.drop (start + content.length) :=
    List.drop_left' (by rw [List.length_append, front])
  unfold store
  rw [long, same, before, behind]

/-- The cells of a range that is read. -/
theorem getElem?_load (loaded : load block start length = some content) {index : Nat}
    (inside : index < length) : content[index]? = block[start + index]? := by
  obtain ⟨-, rfl⟩ := load_eq_some_iff.mp loaded
  rw [List.getElem?_take_of_lt inside, List.getElem?_drop]

/-- A range is read exactly if it is inside the block and has the cells. -/
theorem load_eq_some_iff_cells (full : content.length = length) :
    load block start length = some content ↔ start + length ≤ block.length ∧
      ∀ offset < length, block[start + offset]? = content[offset]? := by
  constructor
  · intro loaded
    refine ⟨(load_eq_some_iff.mp loaded).1, ?_⟩
    intro offset inside
    exact (getElem?_load loaded inside).symm
  · rintro ⟨inside, cells⟩
    refine load_eq_some_iff.mpr ⟨inside, ?_⟩
    apply List.ext_getElem?
    intro index
    rw [List.getElem?_take]
    split
    · rename_i within
      rw [List.getElem?_drop]
      exact cells index within
    · rw [List.getElem?_eq_none (by omega)]

/-- Two ranges, one behind the other, are read as one. -/
theorem load_append {first second : List α} (one : load block start length = some first)
    (two : load block (start + length) length' = some second) :
    load block start (length + length') = some (first ++ second) := by
  obtain ⟨-, rfl⟩ := load_eq_some_iff.mp one
  obtain ⟨inside, rfl⟩ := load_eq_some_iff.mp two
  refine load_eq_some_iff.mpr ⟨by omega, ?_⟩
  rw [List.take_add, List.drop_drop]

/-- A range inside a range that is read. -/
theorem load_within {part : List α} (whole : load block start length = some content)
    (inner : load content start' length' = some part) :
    load block (start + start') length' = some part := by
  obtain ⟨inside, rfl⟩ := load_eq_some_iff.mp whole
  obtain ⟨within, rfl⟩ := load_eq_some_iff.mp inner
  rw [List.length_take, List.length_drop] at within
  refine load_eq_some_iff.mpr ⟨by omega, ?_⟩
  rw [List.drop_take, List.take_take, List.drop_drop, Nat.min_eq_left (by omega)]

/-- The back of a range that is read. -/
theorem load_back (whole : load block start length = some content) {skip : Nat}
    (fewer : skip ≤ length) :
    load block (start + skip) (length - skip) = some (content.drop skip) := by
  obtain ⟨inside, rfl⟩ := load_eq_some_iff.mp whole
  refine load_eq_some_iff.mpr ⟨by omega, ?_⟩
  rw [List.drop_take, List.drop_drop]

/-- A range inside a part of a block is read as in the part alone. -/
theorem load_middle (front back : List α) (loaded : load block start length = some content) :
    load (front ++ block ++ back) (front.length + start) length = some content := by
  obtain ⟨inside, rfl⟩ := load_eq_some_iff.mp loaded
  refine load_eq_some_iff.mpr ⟨?_, ?_⟩
  · rw [List.length_append, List.length_append]
    omega
  · rw [List.append_assoc, ← List.drop_drop, List.drop_left, List.drop_append_of_le_length (by omega),
      List.take_append_of_le_length (by rw [List.length_drop]; omega)]

/-- A range inside a part of a block is written as in the part alone. -/
theorem store_middle (front back : List α) (stored : store block start content = some block') :
    store (front ++ block ++ back) (front.length + start) content =
      some (front ++ block' ++ back) := by
  obtain ⟨inside, rfl⟩ := store_eq_some_iff.mp stored
  refine store_eq_some_iff.mpr ⟨?_, ?_⟩
  · rw [List.length_append, List.length_append]
    omega
  · rw [List.append_assoc front, List.take_length_add_append, Nat.add_assoc, ← List.drop_drop,
      List.drop_left, List.take_append_of_le_length (by omega),
      List.drop_append_of_le_length (by omega)]
    simp only [List.append_assoc]

/-- Two writes, one behind the other, are one. -/
theorem store_consecutive {block'' second : List α} (one : store block start content = some block')
    (two : store block' (start + content.length) second = some block'') :
    store block start (content ++ second) = some block'' := by
  have long := store_length one
  obtain ⟨inside, rfl⟩ := store_eq_some_iff.mp one
  obtain ⟨within, rfl⟩ := store_eq_some_iff.mp two
  have front : (block.take start).length = start := by
    rw [List.length_take]
    omega
  have reached : (block.take start ++ content).length = start + content.length := by
    rw [List.length_append, front]
  refine store_eq_some_iff.mpr ⟨?_, ?_⟩
  · rw [List.length_append]
    omega
  · have behind : (block.take start ++ content ++ block.drop (start + content.length)).drop
        (start + content.length + second.length) =
          block.drop (start + content.length + second.length) := by
      rw [← List.drop_drop, List.drop_left' reached, List.drop_drop]
    rw [List.take_left' reached, behind, List.length_append, ← Nat.add_assoc]
    simp only [List.append_assoc]

end Trunk.Memory
