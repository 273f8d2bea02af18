import Mathlib.Data.List.Infix
import Mathlib.Data.List.Lex
import Mathlib.Order.Lattice

/-! # Texts in dictionary order

Texts over an ordered alphabet, in the order of a dictionary. A text stands in front of what it is a
prefix of, and the texts with one prefix stand together (`Trunk.Dictionary.prefix_of_between`). So
the common prefix with a text gets no shorter on the way up to it
(`Trunk.Dictionary.common_le_of_le`), and a search for a prefix in an ordered list can stop at
the first text without it (`Trunk.Dictionary.takeWhile_dropWhile_eq_filter`).
-/

namespace Trunk.Dictionary

variable {α : Type*} [LinearOrder α] {front first second text : List α}

theorem le_of_starts (starts : front <+: text) : front ≤ text := not_lt.mp starts.le

/-- What stands between a text and one that it is a prefix of starts with it, too. -/
theorem prefix_of_between (starts : front <+: text) (above : front ≤ first) (below : first ≤ text) :
    front <+: first := by
  induction front generalizing first text with
  | nil => exact List.nil_prefix
  | cons letter front ih =>
      obtain ⟨rest, rfl⟩ := starts
      cases first with
      | nil => exact absurd (List.nil_lt_cons letter front) (not_lt.mpr above)
      | cons other first =>
          rw [← not_lt, List.cons_lt_cons_iff, not_or, not_and] at above
          rw [List.cons_append, ← not_lt, List.cons_lt_cons_iff, not_or, not_and] at below
          obtain rfl : letter = other := le_antisymm (not_lt.mp above.1) (not_lt.mp below.1)
          rw [List.cons_prefix_cons]
          refine ⟨rfl, ih (List.prefix_append front rest) ?_ ?_⟩
          · exact not_lt.mp (above.2 rfl)
          · exact not_lt.mp (below.2 rfl)

/-- The length of the common prefix of two texts. -/
def common : List α → List α → Nat
  | letter :: first, other :: second => if letter = other then common first second + 1 else 0
  | _, _ => 0

theorem take_common_starts (first second : List α) :
    first.take (common first second) <+: second := by
  induction first generalizing second with
  | nil => exact List.nil_prefix
  | cons letter first ih =>
      cases second with
      | nil => exact List.nil_prefix
      | cons other second =>
          rw [common]
          split
          · rename_i same
            rw [List.take_succ_cons, List.cons_prefix_cons]
            exact ⟨same, ih second⟩
          · exact List.nil_prefix

theorem common_le_length (first second : List α) : common first second ≤ first.length := by
  induction first generalizing second with
  | nil => exact Nat.le_refl 0
  | cons letter first ih =>
      cases second with
      | nil => exact Nat.zero_le _
      | cons other second =>
          rw [common]
          split
          · exact Nat.succ_le_succ (ih second)
          · exact Nat.zero_le _

/-- No prefix of both texts is longer. -/
theorem length_le_common (starts : front <+: first) (starts' : front <+: second) :
    front.length ≤ common first second := by
  induction front generalizing first second with
  | nil => exact Nat.zero_le _
  | cons letter front ih =>
      obtain ⟨rest, rfl⟩ := starts
      obtain ⟨rest', rfl⟩ := starts'
      rw [List.cons_append, List.cons_append, common, if_pos rfl]
      exact Nat.succ_le_succ (ih (List.prefix_append ..) (List.prefix_append ..))

/-- The whole second text is common exactly if it is a prefix of the first. -/
theorem common_eq_length_iff : common first second = second.length ↔ second <+: first := by
  constructor
  · intro whole
    have starts := take_common_starts first second
    have length : (first.take (common first second)).length = second.length := by
      rw [List.length_take, whole]
      exact Nat.min_eq_left (whole ▸ common_le_length first second)
    rw [← starts.eq_of_length length]
    exact List.take_prefix ..
  · intro starts
    refine Nat.le_antisymm ?_ (length_le_common starts (List.prefix_refl second))
    have short := (take_common_starts first second).length_le
    rwa [List.length_take, Nat.min_eq_left (common_le_length first second)] at short

/-- On the way up to a text, the common prefix with it gets no shorter. -/
theorem common_le_of_le (above : first ≤ second) (below : second ≤ text) :
    common text first ≤ common text second := by
  have starts := take_common_starts text first
  have taken : text.take (common text first) <+: text := List.take_prefix ..
  have between := prefix_of_between taken ((le_of_starts starts).trans above) below
  have long := length_le_common taken between
  rwa [List.length_take, Nat.min_eq_left (common_le_length text first)] at long

variable {β : Type*} {key : β → List α} {list : List β} {starts early : β → Bool}

/-- In an ordered list of texts that do not stand in front of a prefix, those with it come first. -/
theorem takeWhile_eq_filter (reads : ∀ entry, starts entry = true ↔ front <+: key entry)
    (sorted : list.Pairwise fun entry later => key entry ≤ key later)
    (reached : ∀ entry ∈ list, front ≤ key entry) : list.takeWhile starts = list.filter starts := by
  induction list with
  | nil => rfl
  | cons entry list ih =>
      rw [List.pairwise_cons] at sorted
      rw [List.takeWhile_cons, List.filter_cons]
      split
      · rw [ih sorted.2 fun later member => reached later (List.mem_cons_of_mem _ member)]
      · rename_i without
        rw [eq_comm, List.filter_eq_nil_iff]
        intro later member begins
        apply without
        rw [reads] at begins ⊢
        exact prefix_of_between begins (reached entry (List.mem_cons_self ..))
          (sorted.1 later member)

/-- In an ordered list, the texts with a prefix are those from the first one that is not in front of
the prefix up to the first one without it. -/
theorem takeWhile_dropWhile_eq_filter (reads : ∀ entry, starts entry = true ↔ front <+: key entry)
    (compares : ∀ entry, early entry = true ↔ key entry < front)
    (sorted : list.Pairwise fun entry later => key entry ≤ key later) :
    (list.dropWhile early).takeWhile starts = list.filter starts := by
  induction list with
  | nil => rfl
  | cons entry list ih =>
      by_cases before : early entry = true
      · have without : ¬ starts entry = true := by
          rw [reads]
          exact fun begins =>
            absurd ((compares entry).mp before) (not_lt.mpr (le_of_starts begins))
        rw [List.dropWhile_cons_of_pos before, ih (List.pairwise_cons.mp sorted).2,
          List.filter_cons, if_neg without]
      · have reached : front ≤ key entry := not_lt.mp ((compares entry).not.mp before)
        rw [List.dropWhile_cons_of_neg before]
        apply takeWhile_eq_filter reads sorted
        intro later member
        rcases List.mem_cons.mp member with rfl | behind
        · exact reached
        · exact reached.trans ((List.pairwise_cons.mp sorted).1 later behind)

end Trunk.Dictionary
