import Mathlib.Data.List.Chain
import Mathlib.Data.List.DropRight
import Trunk.Utils.CString

/-! # Text in place

The functions of `string.h` that trim a string at its ends and reduce the runs of a
kind of character inside it, each for a predicate on characters. What comes out has no
such character at an end (`Trunk.Text.stringStrimBothEnds_trimmed`), no two side by
side (`Trunk.Text.stringReduce_single`), and a text that is so already is left alone.
-/

namespace Trunk.Text

open CString

variable {IS : UInt8 → Bool} {text : List UInt8}

/-- `strchr(__blanks, byte)`. -/
def isBlank (byte : UInt8) : Bool :=
  byte = ascii '\t' || byte = ascii ' ' || byte = ascii '\r' || byte = ascii '\n'

/-- `__string_strim_right`. -/
def stringStrimRight (IS : UInt8 → Bool) (text : List UInt8) : List UInt8 := text.rdropWhile IS

/-- `__string_strim_left`. -/
def stringStrimLeft (IS : UInt8 → Bool) (text : List UInt8) : List UInt8 := text.dropWhile IS

/-- `__string_strim_both_ends`. -/
def stringStrimBothEnds (IS : UInt8 → Bool) (text : List UInt8) : List UInt8 :=
  stringStrimLeft IS (stringStrimRight IS text)

/-- The loop of `__string_reduce`, with the character it holds back in reduce mode. -/
def reduceFrom (IS : UInt8 → Bool) : Option UInt8 → List UInt8 → List UInt8
  | _, [] => []
  | held, byte :: rest =>
      if IS byte then reduceFrom IS (some byte) rest
      else held.toList ++ byte :: reduceFrom IS none rest

/-- `__string_reduce`: of every run only the last character stays, of a run at the end
none. -/
def stringReduce (IS : UInt8 → Bool) (text : List UInt8) : List UInt8 := reduceFrom IS none text

/-- No character of the kind at either end. -/
structure Trimmed (IS : UInt8 → Bool) (text : List UInt8) : Prop where
  first : ∀ byte, text.head? = some byte → IS byte = false
  last : ∀ byte, text.getLast? = some byte → IS byte = false

/-- No two characters of the kind side by side. -/
def Single (IS : UInt8 → Bool) (text : List UInt8) : Prop :=
  text.IsChain fun first second => ¬ (IS first = true ∧ IS second = true)

theorem stringStrimRight_last {byte : UInt8}
    (last : (stringStrimRight IS text).getLast? = some byte) : IS byte = false := by
  have nonempty : text.rdropWhile IS ≠ [] := by
    intro empty
    rw [stringStrimRight, empty] at last
    cases last
  rw [stringStrimRight, List.getLast?_eq_some_getLast nonempty] at last
  rw [← Option.some.inj last]
  exact Bool.not_eq_true _ ▸ List.rdropWhile_last_not IS text nonempty

theorem stringStrimBothEnds_trimmed : Trimmed IS (stringStrimBothEnds IS text) := by
  constructor
  · intro byte first
    have stop := List.head?_dropWhile_not IS (stringStrimRight IS text)
    rw [stringStrimBothEnds, stringStrimLeft] at first
    rw [first] at stop
    simpa using stop
  · intro byte last
    have suffix : stringStrimBothEnds IS text <:+ stringStrimRight IS text :=
      List.dropWhile_suffix IS
    obtain ⟨front, whole⟩ := suffix
    have lastRight : (stringStrimRight IS text).getLast? = some byte := by
      rw [← whole, List.getLast?_append, last, Option.some_or]
    exact stringStrimRight_last lastRight

theorem stringStrimBothEnds_infix : stringStrimBothEnds IS text <:+: text :=
  (List.dropWhile_suffix IS).isInfix.trans (List.rdropWhile_prefix IS _).isInfix

/-- Trimming leaves a trimmed text. -/
theorem Trimmed.stringStrimBothEnds_eq (trimmed : Trimmed IS text) :
    stringStrimBothEnds IS text = text := by
  have right : stringStrimRight IS text = text := by
    rw [stringStrimRight, List.rdropWhile_eq_self_iff]
    intro nonempty
    rw [trimmed.last _ (List.getLast?_eq_some_getLast nonempty)]
    exact Bool.false_ne_true
  rw [stringStrimBothEnds, right, stringStrimLeft]
  cases text with
  | nil => rfl
  | cons byte rest =>
      rw [List.dropWhile_cons, trimmed.first byte rfl]
      rfl

theorem single_cons {byte : UInt8} (other : IS byte = false) (single : Single IS text) :
    Single IS (byte :: text) := by
  rw [Single, List.isChain_cons]
  refine ⟨fun next _ both => ?_, single⟩
  rw [other] at both
  exact Bool.false_ne_true both.1

theorem reduceFrom_single (held : Option UInt8) (text : List UInt8) :
    Single IS (reduceFrom IS held text) := by
  induction text generalizing held with
  | nil => exact List.isChain_nil
  | cons byte rest ih =>
      unfold reduceFrom
      split
      · exact ih (some byte)
      · rename_i other
        rw [Bool.not_eq_true] at other
        have tail := single_cons other (ih none)
        cases held with
        | none => exact tail
        | some before =>
            rw [Option.toList_some, List.singleton_append, Single, List.isChain_cons]
            refine ⟨fun next first both => ?_, tail⟩
            rw [List.head?_cons, Option.mem_some_iff] at first
            rw [← first, other] at both
            exact Bool.false_ne_true both.2

/-- Reducing leaves no two of the kind side by side. -/
theorem stringReduce_single : Single IS (stringReduce IS text) := reduceFrom_single none text

/-- A first character that is not of the kind stays first. -/
theorem stringReduce_head? {byte : UInt8} (first : text.head? = some byte)
    (other : IS byte = false) : (stringReduce IS text).head? = some byte := by
  cases text with
  | nil => cases first
  | cons head rest =>
      obtain rfl := Option.some.inj first
      rw [stringReduce, reduceFrom, if_neg (by rw [other]; exact Bool.false_ne_true)]
      rfl

/-- A last character that is not of the kind stays last. -/
theorem reduceFrom_getLast? (held : Option UInt8) {byte : UInt8}
    (last : text.getLast? = some byte) (other : IS byte = false) :
    (reduceFrom IS held text).getLast? = some byte := by
  induction text generalizing held with
  | nil => cases last
  | cons head rest ih =>
      rw [List.getLast?_cons] at last
      unfold reduceFrom
      cases final : rest.getLast? with
      | none =>
          rw [final, Option.getD_none] at last
          obtain rfl := Option.some.inj last
          rw [List.getLast?_eq_none_iff.mp final]
          simp only [other, Bool.false_eq_true, ↓reduceIte, reduceFrom, List.getLast?_append,
            List.getLast?_singleton, Option.some_or]
      | some tail =>
          rw [final, Option.getD_some] at last
          split
          · exact ih (some head) (final.trans last)
          · rw [List.getLast?_append, List.getLast?_cons, ih none (final.trans last)]
            rfl

theorem mem_reduceFrom (held : Option UInt8) (text : List UInt8) {byte : UInt8}
    (member : byte ∈ reduceFrom IS held text) : held = some byte ∨ byte ∈ text := by
  induction text generalizing held with
  | nil => cases member
  | cons head rest ih =>
      unfold reduceFrom at member
      split at member
      · rcases ih (some head) member with same | later
        · exact .inr (List.mem_cons.mpr (.inl (Option.some.inj same).symm))
        · exact .inr (List.mem_cons_of_mem _ later)
      · rcases List.mem_append.mp member with before | after
        · exact .inl (Option.mem_toList.mp before)
        · rcases List.mem_cons.mp after with same | later
          · exact .inr (List.mem_cons.mpr (.inl same))
          · rcases ih none later with none | deep
            · cases none
            · exact .inr (List.mem_cons_of_mem _ deep)

theorem length_reduceFrom_le (held : Option UInt8) (text : List UInt8) :
    (reduceFrom IS held text).length ≤ held.toList.length + text.length := by
  induction text generalizing held with
  | nil => exact Nat.zero_le _
  | cons head rest ih =>
      unfold reduceFrom
      split
      · have bound := ih (some head)
        simp only [Option.toList_some, List.length_cons, List.length_nil] at bound ⊢
        omega
      · have bound := ih none
        simp only [Option.toList_none, List.length_nil, List.length_append, List.length_cons]
          at bound ⊢
        omega

theorem stringReduce_length_le : (stringReduce IS text).length ≤ text.length := by
  refine (length_reduceFrom_le none text).trans ?_
  rw [Option.toList_none, List.length_nil, Nat.zero_add]

/-- Reducing leaves a text without runs, and without the kind at its end. -/
theorem Single.reduceFrom_eq (single : Single IS text)
    (last : ∀ byte, text.getLast? = some byte → IS byte = false) :
    reduceFrom IS none text = text ∧
      ∀ held byte, text.head? = some byte → IS byte = false →
        reduceFrom IS (some held) text = held :: text := by
  induction text with
  | nil =>
      refine ⟨rfl, fun held byte first => ?_⟩
      cases first
  | cons head rest ih =>
      obtain ⟨adjacent, restSingle⟩ := List.isChain_cons.mp single
      have restLast : ∀ byte, rest.getLast? = some byte → IS byte = false := by
        intro byte final
        apply last
        rw [List.getLast?_cons, final, Option.getD_some]
      obtain ⟨keep, emit⟩ := ih restSingle restLast
      by_cases kind : IS head = true
      · -- a character of the kind is held back, and the next one is not of the kind
        refine ⟨?_, fun held byte first other => ?_⟩
        · rw [reduceFrom, if_pos kind]
          cases rest with
          | nil =>
              rw [last head rfl] at kind
              cases kind
          | cons next tail =>
              refine emit head next rfl ?_
              rw [← Bool.not_eq_true]
              exact fun both => adjacent next rfl ⟨kind, both⟩
        · obtain rfl := Option.some.inj first
          rw [kind] at other
          cases other
      · refine ⟨?_, fun held byte _ _ => ?_⟩
        · rw [reduceFrom, if_neg kind, keep]
          rfl
        · rw [reduceFrom, if_neg kind, keep]
          rfl

end Trunk.Text
