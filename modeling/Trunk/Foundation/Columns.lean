import Mathlib.Data.List.Basic

/-! # Columns read by position

Rows each have a value or none. What the rows have is written out one below the other,
without a gap for a row that has none, and is then read back by the number of the row. The
reading is right for every row exactly when no row without a value comes before one whose
value would be told from none (`Trunk.Columns.aligned_iff`).
-/

namespace Trunk.Columns

variable {Row Value Amount : Type} {cell : Row → Option Value} {rows rest : List Row} {row : Row}
  {amount : Option Value → Amount}

/-- The values that the rows have. -/
def column (cell : Row → Option Value) (rows : List Row) : List Value := rows.filterMap cell

/-- Every row gets its own amount from its place in the column. -/
def Aligned (cell : Row → Option Value) (amount : Option Value → Amount) (rows : List Row) : Prop :=
  ∀ (index : Nat) (row : Row), rows[index]? = some row →
    amount (column cell rows)[index]? = amount (cell row)

theorem column_cons_none (lacks : cell row = none) :
    column cell (row :: rest) = column cell rest :=
  List.filterMap_cons_none lacks

theorem column_cons_some {value : Value} (has : cell row = some value) :
    column cell (row :: rest) = value :: column cell rest :=
  List.filterMap_cons_some has

/-- A value stands in the column no further down than its row. -/
theorem column_position {index : Nat} {value : Value} (found : rows[index]? = some row)
    (has : cell row = some value) :
    ∃ position ≤ index, (column cell rows)[position]? = some value := by
  induction rows generalizing index with
  | nil => cases found
  | cons first rest ih =>
      cases index with
      | zero =>
          obtain rfl := Option.some.inj found
          refine ⟨0, Nat.le_refl 0, ?_⟩
          rw [column_cons_some has]
          rfl
      | succ index =>
          obtain ⟨position, before, stands⟩ := ih found
          cases here : cell first with
          | none =>
              refine ⟨position, Nat.le_succ_of_le before, ?_⟩
              rw [column_cons_none here]
              exact stands
          | some other =>
              refine ⟨position + 1, Nat.succ_le_succ before, ?_⟩
              rw [column_cons_some here]
              exact stands

/-- A row with a value leaves the rest of the column aligned or not. -/
theorem aligned_cons_some {value : Value} (has : cell row = some value) :
    Aligned cell amount (row :: rest) ↔ Aligned cell amount rest := by
  refine ⟨fun aligned index later found => ?_, fun aligned index later found => ?_⟩
  · have own := aligned (index + 1) later found
    rwa [column_cons_some has] at own
  · rw [column_cons_some has]
    cases index with
    | zero =>
        obtain rfl := Option.some.inj found
        rw [has]
        rfl
    | succ index => exact aligned index later found

/-- Behind a row without a value, every place of the column is another row's. -/
theorem aligned_cons_none (lacks : cell row = none) :
    Aligned cell amount (row :: rest) ↔
      ∀ later ∈ rest, amount (cell later) = amount none := by
  refine ⟨fun aligned => ?_, fun plain index later found => ?_⟩
  · -- A row's value stands above the row, where a row before it reads its own amount.
    have behind : ∀ (index : Nat) (later : Row), rest[index]? = some later →
        amount (cell later) = amount none := by
      intro index
      induction index using Nat.strongRecOn with
      | ind index ih =>
          intro later found
          cases has : cell later with
          | none => rfl
          | some value =>
              obtain ⟨position, before, stands⟩ := column_position found has
              have shifted : column cell (row :: rest) = column cell rest := column_cons_none lacks
              rw [← stands, ← shifted]
              cases position with
              | zero => rw [aligned 0 row rfl, lacks]
              | succ position =>
                  have inside : position < rest.length := by
                    have := (List.getElem?_eq_some_iff.mp found).1
                    omega
                  have reader := List.getElem?_eq_getElem inside
                  rw [aligned (position + 1) rest[position] reader]
                  exact ih position before _ reader
    intro later member
    obtain ⟨index, found⟩ := List.mem_iff_getElem?.mp member
    exact behind index later found
  · rw [column_cons_none lacks]
    have read : amount (column cell rest)[index]? = amount none := by
      cases stands : (column cell rest)[index]? with
      | none => rfl
      | some value =>
          obtain ⟨other, member, has⟩ := List.mem_filterMap.mp (List.mem_of_getElem? stands)
          rw [← has]
          exact plain other member
    rw [read]
    cases index with
    | zero =>
        obtain rfl := Option.some.inj found
        rw [lacks]
    | succ index => exact (plain later (List.mem_of_getElem? found)).symm

/-- Reading by position is right for all rows exactly when, behind a row without a value, every
row reads like one without. -/
theorem aligned_iff (cell : Row → Option Value) (amount : Option Value → Amount)
    (rows : List Row) :
    Aligned cell amount rows ↔
      rows.Pairwise fun earlier later =>
        cell earlier = none → amount (cell later) = amount none := by
  induction rows with
  | nil => exact ⟨fun _ => .nil, fun _ _ _ => nofun⟩
  | cons row rest ih =>
      rw [List.pairwise_cons]
      cases here : cell row with
      | none =>
          rw [aligned_cons_none here]
          refine ⟨fun plain => ⟨fun later member _ => plain later member, ?_⟩,
            fun both later member => both.1 later member rfl⟩
          exact List.pairwise_of_forall_mem_list fun _ _ later member _ => plain later member
      | some value =>
          rw [aligned_cons_some here, ih]
          exact ⟨fun apart => ⟨fun _ _ => nofun, apart⟩, fun both => both.2⟩

end Trunk.Columns
