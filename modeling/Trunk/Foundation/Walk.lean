import Mathlib.Data.List.Nodup

/-! # Going along a list that changes

A loop over a linked list whose body may unlink the item it is at: the item behind is
looked up before the body runs. The body may also end the loop. Such a loop keeps what
its body keeps (`Trunk.Walk.forEachSafe_invariant`), and where the body unlinks nothing but
the item it is at, it visits the list as it was at the start
(`Trunk.Walk.forEachSafe_eq_foldl`), each item's own part of the state being changed once
(`Trunk.Walk.foldl_pointwise`).
-/

namespace Trunk.Walk

variable {State Item Result : Type*} [DecidableEq Item]

/-- The item behind another. -/
def next (list : List Item) (item : Item) : Option Item :=
  (list.dropWhile fun other => other ≠ item).tail.head?

/-- The loop, from an item on. The number bounds the rounds it takes. -/
def walk (chain : State → List Item) (body : State → Item → Option Result × State) :
    Nat → Option Item → State → Option Result × State
  | fuel + 1, some item, state =>
      match body state item with
      | (some result, after) => (some result, after)
      | (none, after) => walk chain body fuel (next (chain state) item) after
  | _, _, state => (none, state)

/-- The loop over the whole list. -/
def forEachSafe (chain : State → List Item) (body : State → Item → Option Result × State)
    (state : State) : Option Result × State :=
  walk chain body (chain state).length (chain state).head? state

variable {chain : State → List Item} {body : State → Item → Option Result × State}
  {Inv : State → Prop}

theorem walk_invariant (keeps : ∀ state item, Inv state → Inv (body state item).2) (fuel : Nat)
    (item : Option Item) (state : State) (holds : Inv state) :
    Inv (walk chain body fuel item state).2 := by
  induction fuel generalizing item state with
  | zero => exact holds
  | succ fuel ih =>
      cases item with
      | none => exact holds
      | some item =>
          have after := keeps state item holds
          unfold walk
          split
          · rename_i result last step
            rw [step] at after
            exact after
          · rename_i last step
            rw [step] at after
            exact ih _ last after

/-- What the body keeps, the loop keeps. -/
theorem forEachSafe_invariant (keeps : ∀ state item, Inv state → Inv (body state item).2)
    (state : State) (holds : Inv state) : Inv (forEachSafe chain body state).2 :=
  walk_invariant keeps _ _ state holds

theorem next_append_cons {before after : List Item} {item : Item} (fresh : item ∉ before) :
    next (before ++ item :: after) item = after.head? := by
  have others : ∀ other ∈ before, decide (other ≠ item) = true := by
    intro other member
    rw [decide_eq_true_eq]
    rintro rfl
    exact fresh member
  rw [next, List.dropWhile_append_of_pos others]
  simp

theorem walk_eq_foldl
    (stays : ∀ state item, Inv state → item ∈ chain state →
      (body state item).1 = none ∧ Inv (body state item).2 ∧
        (chain (body state item).2 = chain state ∨
          chain (body state item).2 = (chain state).erase item))
    (before after : List Item) (state : State) (holds : Inv state)
    (here : chain state = before ++ after) (nodup : (chain state).Nodup) :
    walk chain body after.length after.head? state =
      (none, after.foldl (fun state item => (body state item).2) state) := by
  induction after generalizing before state with
  | nil => rfl
  | cons item after ih =>
      have member : item ∈ chain state := by
        rw [here]
        exact List.mem_append_right _ (List.mem_cons_self ..)
      have fresh : item ∉ before := by
        rw [here] at nodup
        exact fun listed => (List.nodup_append.mp nodup).2.2 item listed item
          (List.mem_cons_self ..) rfl
      obtain ⟨goes, kept, change⟩ := stays state item holds member
      have step : body state item = (none, (body state item).2) := Prod.ext goes rfl
      have rest : walk chain body after.length after.head? (body state item).2 =
          (none, after.foldl (fun state item => (body state item).2) (body state item).2) := by
        rcases change with same | erased
        · refine ih (before ++ [item]) _ kept ?_ (same ▸ nodup)
          rw [same, here, List.append_assoc]
          rfl
        · have unlinked : chain (body state item).2 = before ++ after := by
            rw [erased, here, List.erase_append_right _ fresh, List.erase_cons_head]
          refine ih before _ kept unlinked ?_
          rw [erased]
          exact nodup.erase item
      rw [List.length_cons, List.head?_cons, walk, step]
      simp only [here, next_append_cons fresh, rest, List.foldl_cons]

/-- A loop whose body unlinks at most the item it is at visits the whole list in order. -/
theorem forEachSafe_eq_foldl
    (stays : ∀ state item, Inv state → item ∈ chain state →
      (body state item).1 = none ∧ Inv (body state item).2 ∧
        (chain (body state item).2 = chain state ∨
          chain (body state item).2 = (chain state).erase item))
    (state : State) (holds : Inv state) (nodup : (chain state).Nodup) :
    forEachSafe chain body state =
      (none, (chain state).foldl (fun state item => (body state item).2) state) :=
  walk_eq_foldl stays [] (chain state) state holds rfl nodup

/-- The list after some of its items were visited, where a round unlinks its item exactly if that
satisfies a test. -/
theorem foldl_unlink {act : State → Item → State} {test : Item → Bool}
    (round : ∀ state item, Inv state → item ∈ chain state → Inv (act state item) ∧
      chain (act state item) = if test item then (chain state).erase item else chain state)
    (before after : List Item) (state : State) (holds : Inv state)
    (here : chain state = before ++ after) (nodup : (chain state).Nodup) :
    Inv (after.foldl act state) ∧
      chain (after.foldl act state) = before ++ after.filter fun item => !test item := by
  induction after generalizing before state with
  | nil => exact ⟨holds, here⟩
  | cons item after ih =>
      have member : item ∈ chain state := by
        rw [here]
        exact List.mem_append_right _ (List.mem_cons_self ..)
      have fresh : item ∉ before := by
        rw [here] at nodup
        exact fun listed => (List.nodup_append.mp nodup).2.2 item listed item
          (List.mem_cons_self ..) rfl
      obtain ⟨kept, change⟩ := round state item holds member
      rw [List.foldl_cons]
      cases tested : test item with
      | true =>
          rw [tested, if_pos rfl] at change
          have unlinked : chain (act state item) = before ++ after := by
            rw [change, here, List.erase_append_right _ fresh, List.erase_cons_head]
          rw [List.filter_cons_of_neg (by simp [tested])]
          apply ih before _ kept unlinked
          rw [change]
          exact nodup.erase item
      | false =>
          rw [tested, if_neg Bool.false_ne_true] at change
          have stays : chain (act state item) = before ++ [item] ++ after := by
            rw [change, here, List.append_assoc, List.singleton_append]
          obtain ⟨last, list⟩ := ih (before ++ [item]) _ kept stays (change ▸ nodup)
          refine ⟨last, ?_⟩
          rw [list, List.filter_cons_of_pos (by simp [tested]), List.append_assoc,
            List.singleton_append]

/-- A loop whose rounds unlink their item exactly if it satisfies a test leaves the items that do
not. -/
theorem forEachSafe_unlink {test : Item → Bool}
    (round : ∀ state item, Inv state → item ∈ chain state →
      (body state item).1 = none ∧ Inv (body state item).2 ∧
        chain (body state item).2 = if test item then (chain state).erase item else chain state)
    (state : State) (holds : Inv state) (nodup : (chain state).Nodup) :
    (forEachSafe chain body state).1 = none ∧ Inv (forEachSafe chain body state).2 ∧
      chain (forEachSafe chain body state).2 = (chain state).filter fun item => !test item := by
  have stays : ∀ state item, Inv state → item ∈ chain state →
      (body state item).1 = none ∧ Inv (body state item).2 ∧
        (chain (body state item).2 = chain state ∨
          chain (body state item).2 = (chain state).erase item) := by
    intro state item holds member
    obtain ⟨goes, kept, change⟩ := round state item holds member
    refine ⟨goes, kept, ?_⟩
    rw [change]
    split
    · exact .inr rfl
    · exact .inl rfl
  rw [forEachSafe_eq_foldl stays state holds nodup]
  refine ⟨rfl, ?_⟩
  exact foldl_unlink (fun state item holds member => (round state item holds member).2) []
    (chain state) state holds rfl nodup

variable {act : State → Item → State}

omit [DecidableEq Item] in
/-- What no round changes, the loop does not change. -/
theorem foldl_keeps {View : Type*} (view : State → View)
    (keeps : ∀ state item, Inv state → Inv (act state item))
    (same : ∀ state item, Inv state → view (act state item) = view state)
    (items : List Item) (state : State) (holds : Inv state) :
    view (items.foldl act state) = view state := by
  induction items generalizing state with
  | nil => rfl
  | cons item items ih =>
      rw [List.foldl_cons, ih _ (keeps state item holds), same state item holds]

/-- A loop whose rounds each change the part of the state that belongs to their own item
changes the parts of the items it visits. -/
theorem foldl_pointwise {View : Type*} (view : State → Item → View) (change : View → View)
    (keeps : ∀ state item, Inv state → Inv (act state item))
    (here : ∀ state item, Inv state → view (act state item) item = change (view state item))
    (elsewhere : ∀ state item other, Inv state → other ≠ item →
      view (act state item) other = view state other)
    (items : List Item) (nodup : items.Nodup) (state : State) (holds : Inv state) (item : Item) :
    view (items.foldl act state) item =
      if item ∈ items then change (view state item) else view state item := by
  induction items generalizing state with
  | nil => simp only [List.foldl_nil, List.not_mem_nil, ↓reduceIte]
  | cons first items ih =>
      obtain ⟨fresh, nodupRest⟩ := List.nodup_cons.mp nodup
      rw [List.foldl_cons, ih nodupRest _ (keeps state first holds)]
      by_cases same : item = first
      · subst item
        rw [if_neg fresh, if_pos (List.mem_cons_self ..), here state first holds]
      · rw [elsewhere state first item holds same]
        simp only [List.mem_cons, same, false_or]

end Trunk.Walk
