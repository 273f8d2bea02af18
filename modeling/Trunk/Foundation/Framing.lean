import Mathlib.Algebra.Order.Group.Nat
import Mathlib.Data.List.Basic

/-! # Frames in a stream

A frame starts with a head of fixed length, which tells how long the frame is, or is refused. A
stream is cut into its frames from the front (`Trunk.Framing.cut`). What is cut does not depend on
how much of the stream is there (`Trunk.Framing.cut_append`), so a reader may stop anywhere and go
on later, and the stream of some frames is cut into them (`Trunk.Framing.cut_flatten`).
-/

namespace Trunk.Framing

variable {α : Type*}

/-- The length of a head, and that of the frame behind it. -/
structure Format (α : Type*) where
  head : Nat
  total : List α → Option Nat
  head_pos : 0 < head
  head_le : ∀ start length, total start = some length → head ≤ length

variable (format : Format α)

/-- The frames of a stream, and what is left of it; nothing is left where a head is refused. -/
def cut (stream : List α) : List (List α) × Option (List α) :=
  if stream.length < format.head then
    ([], some stream)
  else
    match _told : format.total (stream.take format.head) with
    | none => ([], none)
    | some length =>
        if stream.length < length then
          ([], some stream)
        else
          let rest := cut (stream.drop length)
          (stream.take length :: rest.1, rest.2)
termination_by stream.length
decreasing_by
  have long := format.head_le _ _ _told
  have some := format.head_pos
  rw [List.length_drop]
  omega

variable {format} {stream rest frame : List α} {frames : List (List α)} {length : Nat}

theorem cut_of_short (short : stream.length < format.head) :
    cut format stream = ([], some stream) := by
  rw [cut, if_pos short]

theorem cut_of_refused (long : format.head ≤ stream.length)
    (told : format.total (stream.take format.head) = none) : cut format stream = ([], none) := by
  rw [cut, if_neg (not_lt.mpr long)]
  split
  · rfl
  · rename_i absurd
    rw [told] at absurd
    cases absurd

theorem cut_of_unfinished (long : format.head ≤ stream.length)
    (told : format.total (stream.take format.head) = some length) (short : stream.length < length) :
    cut format stream = ([], some stream) := by
  rw [cut, if_neg (not_lt.mpr long)]
  split
  · rename_i absurd
    rw [told] at absurd
    cases absurd
  · rename_i other same
    obtain rfl := Option.some.inj (told.symm.trans same)
    rw [if_pos short]

theorem cut_of_frame (long : format.head ≤ stream.length)
    (told : format.total (stream.take format.head) = some length) (all : length ≤ stream.length) :
    cut format stream = (stream.take length :: (cut format (stream.drop length)).1,
      (cut format (stream.drop length)).2) := by
  rw [cut, if_neg (not_lt.mpr long)]
  split
  · rename_i absurd
    rw [told] at absurd
    cases absurd
  · rename_i other same
    obtain rfl := Option.some.inj (told.symm.trans same)
    rw [if_neg (not_lt.mpr all)]

/-- A stream that goes on is cut the same way. -/
theorem cut_append (stream more : List α) :
    cut format (stream ++ more) = (cut format stream).2.elim ((cut format stream).1, none)
      fun rest => ((cut format stream).1 ++ (cut format (rest ++ more)).1,
        (cut format (rest ++ more)).2) := by
  induction long : stream.length using Nat.strongRecOn generalizing stream with
  | _ size ih =>
      by_cases short : stream.length < format.head
      · rw [cut_of_short short]
        rfl
      · rw [not_lt] at short
        have start : (stream ++ more).take format.head = stream.take format.head :=
          List.take_append_of_le_length short
        have longer : format.head ≤ (stream ++ more).length := by
          rw [List.length_append]
          omega
        cases told : format.total (stream.take format.head) with
        | none =>
            rw [cut_of_refused short told, cut_of_refused longer (start ▸ told)]
            rfl
        | some length =>
            by_cases all : length ≤ stream.length
            · have some := format.head_pos
              have fits := format.head_le _ _ told
              have later := ih (stream.drop length).length (by rw [List.length_drop]; omega)
                (stream.drop length) rfl
              have enough : length ≤ (stream ++ more).length := by
                rw [List.length_append]
                omega
              rw [cut_of_frame short told all, cut_of_frame longer (start ▸ told) enough,
                List.take_append_of_le_length all, List.drop_append_of_le_length all, later]
              cases (cut format (stream.drop length)).2 with
              | none => rfl
              | some rest => rfl
            · rw [cut_of_unfinished short told (not_le.mp all)]
              rfl

/-- A whole frame. -/
structure IsFrame (format : Format α) (frame : List α) : Prop where
  head : format.head ≤ frame.length
  total : format.total (frame.take format.head) = some frame.length

/-- The first frame is cut off. -/
theorem cut_frame (whole : IsFrame format frame) (more : List α) :
    cut format (frame ++ more) = (frame :: (cut format more).1, (cut format more).2) := by
  have start : (frame ++ more).take format.head = frame.take format.head :=
    List.take_append_of_le_length whole.head
  have all : frame.length ≤ (frame ++ more).length := by
    rw [List.length_append]
    exact Nat.le_add_right _ _
  rw [cut_of_frame (whole.head.trans all) (start ▸ whole.total) all, List.take_left, List.drop_left]

/-- The stream of some frames is cut into them. -/
theorem cut_flatten (whole : ∀ frame ∈ frames, IsFrame format frame) :
    cut format frames.flatten = (frames, some []) := by
  induction frames with
  | nil => exact cut_of_short format.head_pos
  | cons frame frames ih =>
      rw [List.flatten_cons, cut_frame (whole frame (List.mem_cons_self ..)),
        ih fun other member => whole other (List.mem_cons_of_mem _ member)]

/-- From the beginning of the stream of some frames the first ones are cut, and nothing is
refused. -/
theorem cut_of_beginning (whole : ∀ frame ∈ frames, IsFrame format frame)
    (starts : stream <+: frames.flatten) :
    ∃ rest, (cut format stream).2 = some rest ∧ (cut format stream).1 <+: frames := by
  obtain ⟨more, same⟩ := starts
  have all := cut_flatten whole
  rw [← same, cut_append] at all
  cases left : (cut format stream).2 with
  | none =>
      rw [left] at all
      cases (Prod.mk.inj all).2
  | some rest =>
      rw [left] at all
      exact ⟨rest, rfl, _, (Prod.mk.inj all).1⟩

end Trunk.Framing
