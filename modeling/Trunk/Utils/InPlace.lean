import Mathlib.Data.List.DropRight
import Mathlib.Data.List.SplitBy
import Trunk.Foundation.Loop
import Trunk.Foundation.Memory
import Trunk.Utils.Sfile

/-! # Strings that are changed in place

The normalisers of `string.h`. Each of them goes over the buffer of a string with a pointer that
reads and one that writes. The buffer is the memory from the string on; what stands behind its NUL
belongs to somebody else. What the loops have written stands in front of the old bytes
(`Trunk.InPlace.overlay`), and the reading pointer is never behind the writing one.
-/

namespace Trunk.InPlace

open CString Loop

/-- The one fault: an access outside the memory. -/
inductive Fault where
  | outside
  deriving DecidableEq, Repr

/-- A byte of the buffer. -/
def readByte (buffer : List UInt8) (place : Nat) : Except Fault UInt8 :=
  match buffer[place]? with
  | some byte => .ok byte
  | none => .error .outside

/-- A byte is written. -/
def writeByte (buffer : List UInt8) (place : Nat) (byte : UInt8) : Except Fault (List UInt8) :=
  match Memory.store buffer place [byte] with
  | some buffer => .ok buffer
  | none => .error .outside

/-- The variables of the loops: `p` writes, `s` reads. -/
structure Pointers where
  buffer : List UInt8
  p : Nat := 0
  s : Nat := 0
  inReduce : Bool := false
  deriving DecidableEq, Repr

/-- A round of `while (goes(*s)) act`. -/
def scanRound (goes : UInt8 → Bool) (act : UInt8 → Pointers → Except Fault Pointers)
    (pointers : Pointers) : Except Fault (Round Pointers Pointers) :=
  match readByte pointers.buffer pointers.s with
  | .error fault => .error fault
  | .ok byte =>
      if goes byte then (act byte pointers).map .again else .ok (.done pointers)

/-- What is left to read. -/
def Pointers.left (pointers : Pointers) : Nat := pointers.buffer.length - pointers.s

/-- `while (goes(*s)) act`. -/
def scan (goes : UInt8 → Bool) (act : UInt8 → Pointers → Except Fault Pointers)
    (pointers : Pointers) : Except Fault Pointers :=
  loop (scanRound goes act) Pointers.left .outside pointers

/-- `*s`, as a condition. -/
def isChar (byte : UInt8) : Bool := byte ≠ 0

/-! ## The functions -/

section Functions

variable (is : UInt8 → Bool)

/-- The body of the loop of `__string_replace`. -/
def replaceAct (new : UInt8) (byte : UInt8) (pointers : Pointers) : Except Fault Pointers :=
  if is byte then do
    let buffer ← writeByte pointers.buffer pointers.s new
    return { pointers with buffer, s := pointers.s + 1 }
  else .ok { pointers with s := pointers.s + 1 }

/-- `__string_replace`. -/
def stringReplace (new : UInt8) (buffer : List UInt8) : Except Fault (List UInt8) := do
  let pointers ← scan isChar (replaceAct is new) { buffer }
  return pointers.buffer

/-- The body of the loop of `__string_reduce`. -/
def reduceAct (byte : UInt8) (pointers : Pointers) : Except Fault Pointers :=
  if is byte then do
    let buffer ← writeByte pointers.buffer pointers.p byte
    return { pointers with buffer, s := pointers.s + 1, inReduce := true }
  else do
    let p := if pointers.inReduce then pointers.p + 1 else pointers.p
    let buffer ← writeByte pointers.buffer p byte
    return { buffer, p := p + 1, s := pointers.s + 1, inReduce := false }

/-- `__string_reduce`. -/
def stringReduce (buffer : List UInt8) : Except Fault (List UInt8) := do
  let pointers ← scan isChar (reduceAct is) { buffer }
  writeByte pointers.buffer pointers.p 0

/-- The body of the loop of `__string_strim`. -/
def strimAct (byte : UInt8) (pointers : Pointers) : Except Fault Pointers :=
  if is byte then .ok { pointers with s := pointers.s + 1 }
  else do
    let buffer ← writeByte pointers.buffer pointers.p byte
    return { pointers with buffer, p := pointers.p + 1, s := pointers.s + 1 }

/-- `__string_strim`. -/
def stringStrim (buffer : List UInt8) : Except Fault (List UInt8) := do
  let pointers ← scan isChar (strimAct is) { buffer }
  return pointers.buffer

/-- `s++`. -/
def skipAct (_byte : UInt8) (pointers : Pointers) : Except Fault Pointers :=
  .ok { pointers with s := pointers.s + 1 }

/-- `*p++ = *s++`. -/
def moveAct (byte : UInt8) (pointers : Pointers) : Except Fault Pointers := do
  let buffer ← writeByte pointers.buffer pointers.p byte
  return { pointers with buffer, p := pointers.p + 1, s := pointers.s + 1 }

/-- `__string_strim_left`. -/
def stringStrimLeft (buffer : List UInt8) : Except Fault (List UInt8) := do
  let pointers ← scan (fun byte => isChar byte && is byte) skipAct { buffer }
  let pointers ← scan isChar moveAct pointers
  writeByte pointers.buffer pointers.p 0

/-- `strlen`. -/
def strlen (buffer : List UInt8) : Except Fault Nat := do
  let pointers ← scan isChar skipAct { buffer }
  return pointers.s

/-- A round of the loop of `__string_strim_right`; `p` may stand before the string. -/
def strimRightRound (buffer : List UInt8) (p : Int) : Except Fault (Round Int Int) :=
  if 0 ≤ p then
    match readByte buffer p.toNat with
    | .error fault => .error fault
    | .ok byte => .ok (if is byte then .again (p - 1) else .done p)
  else .ok (.done p)

/-- `__string_strim_right`. -/
def stringStrimRight (buffer : List UInt8) : Except Fault (List UInt8) := do
  let length ← strlen buffer
  let p ← loop (strimRightRound is buffer) (fun p => (p + 2).toNat + 1) .outside ((length : Int) - 1)
  writeByte buffer (p + 1).toNat 0

/-- `__string_strim_both_ends`. -/
def stringStrimBothEnds (buffer : List UInt8) : Except Fault (List UInt8) := do
  let buffer ← stringStrimRight is buffer
  stringStrimLeft is buffer

end Functions

/-! ## The loops -/

/-- An act reads one byte and keeps the size of the buffer. -/
def Advances (act : UInt8 → Pointers → Except Fault Pointers) : Prop :=
  ∀ byte pointers after, act byte pointers = .ok after →
    after.s = pointers.s + 1 ∧ after.buffer.length = pointers.buffer.length

theorem writeByte_length {buffer buffer' : List UInt8} {place : Nat} {byte : UInt8}
    (written : writeByte buffer place byte = .ok buffer') : buffer'.length = buffer.length := by
  unfold writeByte at written
  split at written
  · rename_i after stored
    obtain rfl := Except.ok.inj written
    exact Memory.store_length stored
  · cases written

theorem readByte_ok {buffer : List UInt8} {place : Nat} {byte : UInt8} :
    readByte buffer place = .ok byte ↔ buffer[place]? = some byte := by
  unfold readByte
  cases buffer[place]? with
  | none => simp only [reduceCtorEq]
  | some other => simp only [Except.ok.injEq, Option.some.injEq]

section Advancing

variable (is : UInt8 → Bool)

theorem skipAct_advances : Advances skipAct := by
  intro byte pointers after acted
  obtain rfl := Except.ok.inj acted
  exact ⟨rfl, rfl⟩

/-- A byte is written, and one has been read. -/
theorem advances_write {pointers after : Pointers} {place : Nat} {byte : UInt8}
    {next : List UInt8 → Pointers}
    (reads : ∀ buffer, (next buffer).s = pointers.s + 1 ∧ (next buffer).buffer = buffer)
    (acted : (do let buffer ← writeByte pointers.buffer place byte; return next buffer) =
      (.ok after : Except Fault Pointers)) :
    after.s = pointers.s + 1 ∧ after.buffer.length = pointers.buffer.length := by
  cases written : writeByte pointers.buffer place byte with
  | error fault =>
      rw [written] at acted
      cases acted
  | ok buffer =>
      rw [written] at acted
      obtain rfl := Except.ok.inj acted
      obtain ⟨one, same⟩ := reads buffer
      rw [same]
      exact ⟨one, writeByte_length written⟩

theorem moveAct_advances : Advances moveAct := by
  intro byte pointers after acted
  unfold moveAct at acted
  exact advances_write (fun buffer => ⟨rfl, rfl⟩) acted

theorem replaceAct_advances (new : UInt8) : Advances (replaceAct is new) := by
  intro byte pointers after acted
  unfold replaceAct at acted
  split at acted
  · exact advances_write (fun buffer => ⟨rfl, rfl⟩) acted
  · exact skipAct_advances byte pointers after acted

theorem strimAct_advances : Advances (strimAct is) := by
  intro byte pointers after acted
  unfold strimAct at acted
  split at acted
  · exact skipAct_advances byte pointers after acted
  · exact moveAct_advances byte pointers after acted

theorem reduceAct_advances : Advances (reduceAct is) := by
  intro byte pointers after acted
  unfold reduceAct at acted
  split at acted
  · exact advances_write (fun buffer => ⟨rfl, rfl⟩) acted
  · exact advances_write (fun buffer => ⟨rfl, rfl⟩) acted

end Advancing

section Scanning

variable {goes : UInt8 → Bool} {act : UInt8 → Pointers → Except Fault Pointers}
  {pointers after : Pointers} {byte : UInt8}

theorem scan_shrinks (advances : Advances act) :
    Shrinks (scanRound goes act) Pointers.left .outside := by
  constructor
  · intro pointers next round
    unfold scanRound at round
    split at round
    · cases round
    · rename_i byte found
      obtain ⟨inside, -⟩ := List.getElem?_eq_some_iff.mp (readByte_ok.mp found)
      split at round
      · cases acted : act byte pointers with
        | error fault =>
            rw [acted] at round
            cases round
        | ok after =>
            rw [acted] at round
            obtain rfl := Round.again.inj (Except.ok.inj round)
            obtain ⟨place, long⟩ := advances byte pointers after acted
            unfold Pointers.left
            omega
      · cases round
  · intro pointers none
    have outside : pointers.buffer[pointers.s]? = Option.none := by
      refine List.getElem?_eq_none ?_
      unfold Pointers.left at none
      omega
    rw [scanRound, readByte, outside]

/-- A byte is gone over. -/
theorem scan_act (advances : Advances act) (found : pointers.buffer[pointers.s]? = some byte)
    (on : goes byte = true) (acted : act byte pointers = .ok after) :
    scan goes act pointers = scan goes act after := by
  refine loop_again (scan_shrinks advances) ?_
  simp only [scanRound, readByte_ok.mpr found, on, if_true, acted]
  rfl

/-- The loop ends at a byte. -/
theorem scan_stop (advances : Advances act) (found : pointers.buffer[pointers.s]? = some byte)
    (off : goes byte = false) : scan goes act pointers = .ok pointers := by
  refine loop_done (scan_shrinks advances) ?_
  simp only [scanRound, readByte_ok.mpr found, off, Bool.false_eq_true, if_false]

end Scanning

/-! ## What is written stands in front of the old bytes -/

/-- The first bytes of a memory have been written. -/
def overlay (written whole : List UInt8) : List UInt8 := written ++ whole.drop written.length

theorem overlay_nil (whole : List UInt8) : overlay [] whole = whole := rfl

theorem getElem?_overlay {written whole : List UInt8} {place : Nat}
    (behind : written.length ≤ place) : (overlay written whole)[place]? = whole[place]? := by
  rw [overlay, List.getElem?_append_right behind, List.getElem?_drop]
  congr 1
  omega

/-- A byte is written behind the ones that are kept, where at most one was written before. -/
theorem writeByte_overlay {written whole : List UInt8} (pending : Option UInt8) (byte : UInt8)
    (inside : written.length < whole.length) :
    writeByte (overlay (written ++ pending.toList) whole) written.length byte =
      .ok (overlay (written ++ [byte]) whole) := by
  have stored : Memory.store (overlay (written ++ pending.toList) whole) written.length [byte] =
      some (overlay (written ++ [byte]) whole) := by
    have shape : overlay (written ++ pending.toList) whole =
        written ++ (pending.toList ++ whole.drop (written ++ pending.toList).length).take 1 ++
          whole.drop (written.length + 1) := by
      rw [overlay, List.append_assoc, List.append_assoc]
      congr 1
      cases pending with
      | none =>
          rw [Option.toList_none, List.append_nil, List.nil_append, ← List.drop_drop,
            List.take_append_drop]
      | some other =>
          rw [Option.toList_some, List.length_append]
          rfl
    have one : ((pending.toList ++ whole.drop (written ++ pending.toList).length).take 1).length =
        1 := by
      cases pending with
      | none =>
          simp only [Option.toList_none, List.append_nil, List.nil_append, List.length_take,
            List.length_drop]
          omega
      | some other => rfl
    rw [shape, Memory.store_append _ _ _ (by rw [one]; rfl), overlay, List.length_append]
    rfl
  rw [writeByte, stored]


/-! ## The runs of the loops

The text is what is left to read: it starts in the old memory where the reading pointer stands. -/

section Runs

variable {is : UInt8 → Bool} {whole text written beyond : List UInt8} {place : Nat}

/-- The first byte that is left. -/
theorem getElem?_left {byte : UInt8} {rest : List UInt8} (left : whole.drop place = byte :: rest) :
    whole[place]? = some byte := by
  rw [← List.head?_drop, left, List.head?_cons]

/-- The first byte that is left, as the loop reads it. -/
theorem getElem?_overlay_head {byte : UInt8} {rest : List UInt8} (behind : written.length ≤ place)
    (left : whole.drop place = byte :: rest) :
    (overlay written whole)[place]? = some byte :=
  (getElem?_overlay behind).trans (getElem?_left left)

theorem drop_succ {byte : UInt8} {rest : List UInt8} (left : whole.drop place = byte :: rest) :
    whole.drop (place + 1) = rest := by
  rw [← List.drop_drop, left, List.drop_one, List.tail_cons]

theorem place_lt {byte : UInt8} {rest : List UInt8} (left : whole.drop place = byte :: rest) :
    place < whole.length := by
  have long := congrArg List.length left
  rw [List.length_drop, List.length_cons] at long
  omega

theorem isChar_of_noNul {byte : UInt8} {rest : List UInt8} (noNul : 0 ∉ byte :: rest) :
    isChar byte = true := by
  rw [isChar, decide_eq_true_eq]
  rintro rfl
  exact noNul (List.mem_cons_self ..)

theorem replace_run (new : UInt8) (noNul : 0 ∉ text) (left : whole.drop place = text ++ 0 :: beyond)
    (even : written.length = place) :
    scan isChar (replaceAct is new) { buffer := overlay written whole, s := place } =
      .ok { buffer := overlay (written ++ text.map fun byte => if is byte then new else byte) whole
            s := place + text.length } := by
  induction text generalizing written place with
  | nil =>
      rw [scan_stop (replaceAct_advances is new) (getElem?_overlay_head (by omega) left) rfl]
      simp only [List.map_nil, List.append_nil, List.length_nil, Nat.add_zero]
  | cons byte rest ih =>
      have inside := place_lt left
      have step : replaceAct is new byte { buffer := overlay written whole, s := place } =
          .ok { buffer := overlay (written ++ [if is byte then new else byte]) whole
                s := place + 1 } := by
        unfold replaceAct
        have wrote := writeByte_overlay none (if is byte then new else byte)
          (even ▸ inside : written.length < whole.length)
        rw [Option.toList_none, List.append_nil, even] at wrote
        by_cases matched : is byte
        · rw [if_pos matched] at wrote ⊢
          rw [if_pos matched, wrote]
          rfl
        · rw [if_neg matched, if_neg matched]
          congr 2
          -- the byte stays, as part of what stands before the reading pointer
          rw [overlay, overlay, List.length_append, List.length_singleton, even,
            drop_succ left, left, List.append_assoc]
          rfl
      rw [scan_act (replaceAct_advances is new) (getElem?_overlay_head (by omega) left)
        (isChar_of_noNul noNul) step,
        ih (fun member => noNul (List.mem_cons_of_mem _ member)) (drop_succ left)
          (by rw [List.length_append, List.length_singleton, even])]
      rw [List.append_assoc, List.map_cons, List.singleton_append, List.length_cons, Nat.add_assoc,
        Nat.add_comm 1]

theorem strim_run (noNul : 0 ∉ text) (left : whole.drop place = text ++ 0 :: beyond)
    (behind : written.length ≤ place) :
    scan isChar (strimAct is) { buffer := overlay written whole, p := written.length, s := place } =
      .ok { buffer := overlay (written ++ text.filter fun byte => !is byte) whole
            p := (written ++ text.filter fun byte => !is byte).length
            s := place + text.length } := by
  induction text generalizing written place with
  | nil =>
      rw [scan_stop (strimAct_advances is) (getElem?_overlay_head behind left) rfl]
      simp only [List.filter_nil, List.append_nil, List.length_nil, Nat.add_zero]
  | cons byte rest ih =>
      have inside := place_lt left
      have read := getElem?_overlay_head behind left
      have later : 0 ∉ rest := fun member => noNul (List.mem_cons_of_mem _ member)
      by_cases matched : is byte
      · have step : strimAct is byte
            { buffer := overlay written whole, p := written.length, s := place } =
            .ok { buffer := overlay written whole, p := written.length, s := place + 1 } := by
          rw [strimAct, if_pos matched]
        rw [scan_act (strimAct_advances is) read (isChar_of_noNul noNul) step,
          ih later (drop_succ left) (by omega), List.filter_cons_of_neg (by simp [matched]),
          List.length_cons, Nat.add_assoc, Nat.add_comm 1]
      · have step : strimAct is byte
            { buffer := overlay written whole, p := written.length, s := place } =
            .ok { buffer := overlay (written ++ [byte]) whole, p := (written ++ [byte]).length
                  s := place + 1 } := by
          have wrote := writeByte_overlay none byte (by omega : written.length < whole.length)
          rw [Option.toList_none, List.append_nil] at wrote
          rw [strimAct, if_neg matched, wrote, List.length_append]
          rfl
        rw [scan_act (strimAct_advances is) read (isChar_of_noNul noNul) step,
          ih later (drop_succ left) (by rw [List.length_append, List.length_singleton]; omega),
          List.filter_cons_of_pos (by simp [matched]), List.append_assoc, List.singleton_append,
          List.length_cons, Nat.add_assoc, Nat.add_comm 1]

theorem move_run (noNul : 0 ∉ text) (left : whole.drop place = text ++ 0 :: beyond)
    (behind : written.length ≤ place) :
    scan isChar moveAct { buffer := overlay written whole, p := written.length, s := place } =
      .ok { buffer := overlay (written ++ text) whole, p := (written ++ text).length
            s := place + text.length } := by
  have same : moveAct = strimAct fun _ => false := by
    funext byte pointers
    rw [strimAct, if_neg Bool.false_ne_true, moveAct]
  have all : (text.filter fun _ => !false) = text := List.filter_eq_self.mpr fun _ _ => rfl
  rw [same, strim_run noNul left behind, all]

theorem skip_run (noNul : 0 ∉ text) (left : whole.drop place = text ++ 0 :: beyond) :
    scan (fun byte => isChar byte && is byte) skipAct { buffer := whole, s := place } =
      .ok { buffer := whole, s := place + (text.takeWhile is).length } := by
  induction text generalizing place with
  | nil =>
      have stops : (isChar 0 && is 0) = false := rfl
      rw [scan_stop skipAct_advances (getElem?_left left) stops]
      simp only [List.takeWhile_nil, List.length_nil, Nat.add_zero]
  | cons byte rest ih =>
      have read : whole[place]? = some byte := getElem?_left left
      have char := isChar_of_noNul noNul
      by_cases matched : is byte
      · rw [scan_act skipAct_advances read (by rw [char, matched]; rfl) rfl,
          ih (fun member => noNul (List.mem_cons_of_mem _ member)) (drop_succ left),
          List.takeWhile_cons_of_pos matched, List.length_cons, Nat.add_assoc, Nat.add_comm 1]
      · rw [scan_stop skipAct_advances read (by simp [matched]),
          List.takeWhile_cons_of_neg matched, List.length_nil, Nat.add_zero]

theorem strlen_eq (noNul : 0 ∉ text) : strlen (text ++ 0 :: beyond) = .ok text.length := by
  have same : isChar = fun byte => isChar byte && (fun _ => true) byte := by
    funext byte
    rw [Bool.and_true]
  have all : text.takeWhile (fun _ => true) = text := by
    rw [List.takeWhile_eq_self_iff]
    exact fun _ _ => rfl
  rw [strlen, same, skip_run noNul (List.drop_zero), all, Nat.zero_add]
  rfl

end Runs

/-- What `__string_reduce` keeps, with the matching character that is written but not kept yet. -/
def reduceFrom (is : UInt8 → Bool) : Option UInt8 → List UInt8 → List UInt8
  | _, [] => []
  | pending, byte :: rest =>
      if is byte then reduceFrom is (some byte) rest
      else pending.toList ++ byte :: reduceFrom is none rest

section Reducing

variable {is : UInt8 → Bool} {whole text written beyond : List UInt8} {place : Nat}

theorem reduceFrom_length (pending : Option UInt8) (text : List UInt8) :
    (reduceFrom is pending text).length ≤ pending.toList.length + text.length := by
  induction text generalizing pending with
  | nil => exact Nat.zero_le _
  | cons byte rest ih =>
      unfold reduceFrom
      split
      · have rest := ih (some byte)
        rw [Option.toList_some, List.length_singleton] at rest
        rw [List.length_cons]
        omega
      · have rest := ih none
        rw [Option.toList_none, List.length_nil] at rest
        rw [List.length_append, List.length_cons, List.length_cons]
        omega

theorem reduce_run (pending : Option UInt8) (noNul : 0 ∉ text)
    (left : whole.drop place = text ++ 0 :: beyond)
    (behind : (written ++ pending.toList).length ≤ place) :
    ∃ last : Option UInt8,
      scan isChar (reduceAct is)
        { buffer := overlay (written ++ pending.toList) whole, p := written.length, s := place
          inReduce := pending.isSome } =
      .ok
        { buffer := overlay (written ++ reduceFrom is pending text ++ last.toList) whole
          p := (written ++ reduceFrom is pending text).length, s := place + text.length
          inReduce := last.isSome } := by
  induction text generalizing written place pending with
  | nil =>
      refine ⟨pending, ?_⟩
      rw [scan_stop (reduceAct_advances is) (getElem?_overlay_head behind left) rfl]
      simp only [reduceFrom, List.append_nil, List.length_nil, Nat.add_zero]
  | cons byte rest ih =>
      have inside := place_lt left
      have read := getElem?_overlay_head behind left
      have later : 0 ∉ rest := fun member => noNul (List.mem_cons_of_mem _ member)
      rw [List.length_append] at behind
      by_cases matched : is byte
      · have step : reduceAct is byte
            { buffer := overlay (written ++ pending.toList) whole, p := written.length, s := place
              inReduce := pending.isSome } =
            .ok { buffer := overlay (written ++ (some byte).toList) whole, p := written.length
                  s := place + 1, inReduce := (some byte).isSome } := by
          rw [reduceAct, if_pos matched, writeByte_overlay pending byte (by omega)]
          rfl
        have behind' : (written ++ (some byte).toList).length ≤ place + 1 := by
          rw [List.length_append, Option.toList_some, List.length_singleton]
          omega
        obtain ⟨last, run⟩ := ih (some byte) later (drop_succ left) behind'
        refine ⟨last, ?_⟩
        rw [scan_act (reduceAct_advances is) read (isChar_of_noNul noNul) step, run, reduceFrom,
          if_pos matched, List.length_cons, Nat.add_assoc, Nat.add_comm 1]
      · have kept : (if pending.isSome then written.length + 1 else written.length) =
            (written ++ pending.toList).length := by
          cases pending with
          | none => rw [Option.toList_none, List.append_nil]; rfl
          | some other => rw [Option.toList_some, List.length_append]; rfl
        have wrote := writeByte_overlay none byte
          (by rw [List.length_append]; omega : (written ++ pending.toList).length < whole.length)
        rw [Option.toList_none, List.append_nil] at wrote
        have step : reduceAct is byte
            { buffer := overlay (written ++ pending.toList) whole, p := written.length, s := place
              inReduce := pending.isSome } =
            .ok { buffer := overlay (written ++ pending.toList ++ [byte] ++ none.toList) whole
                  p := (written ++ pending.toList ++ [byte]).length
                  s := place + 1, inReduce := (none : Option UInt8).isSome } := by
          rw [reduceAct, if_neg matched]
          dsimp only
          have longer : (written ++ pending.toList ++ [byte]).length =
              (written ++ pending.toList).length + 1 := List.length_append
          rw [kept, wrote, Option.toList_none, List.append_nil, longer]
          rfl
        have behind' : (written ++ pending.toList ++ [byte] ++ (none : Option UInt8).toList).length ≤
            place + 1 := by
          rw [Option.toList_none, List.append_nil, List.length_append, List.length_append,
            List.length_singleton]
          omega
        obtain ⟨last, run⟩ := ih none later (drop_succ left) behind'
        refine ⟨last, ?_⟩
        rw [scan_act (reduceAct_advances is) read (isChar_of_noNul noNul) step, run, reduceFrom,
          if_neg matched, List.length_cons, Nat.add_assoc, Nat.add_comm 1]
        simp only [List.append_assoc, List.singleton_append]

end Reducing

theorem strimRight_shrinks (is : UInt8 → Bool) (buffer : List UInt8) :
    Shrinks (strimRightRound is buffer) (fun p => (p + 2).toNat + 1) .outside := by
  constructor
  · intro p next round
    unfold strimRightRound at round
    split at round
    · split at round
      · cases round
      · have outcome := Except.ok.inj round
        split at outcome
        · obtain rfl := Round.again.inj outcome
          omega
        · cases outcome
    · cases round
  · intro p none
    omega

/-- The loop from the end of the string goes back over the characters that match. -/
theorem strimRight_run (is : UInt8 → Bool) (text rest : List UInt8) :
    loop (strimRightRound is (text ++ rest)) (fun p => (p + 2).toNat + 1) .outside
      ((text.length : Int) - 1) = .ok (((text.rdropWhile is).length : Int) - 1) := by
  induction text using List.reverseRecOn generalizing rest with
  | nil =>
      refine loop_done (strimRight_shrinks is _) ?_
      rw [strimRightRound, List.length_nil, if_neg (by omega)]
      rfl
  | append_singleton text byte ih =>
      have last : (((text ++ [byte]).length : Int) - 1) = text.length := by
        rw [List.length_append, List.length_singleton]
        omega
      have read : readByte (text ++ [byte] ++ rest) text.length = .ok byte := by
        rw [readByte_ok, List.append_assoc, List.getElem?_append_right (Nat.le_refl _),
          Nat.sub_self]
        rfl
      have round : strimRightRound is (text ++ [byte] ++ rest) text.length =
          .ok (if is byte then .again (text.length - 1) else .done (text.length : Int)) := by
        rw [strimRightRound, if_pos (by omega), Int.toNat_natCast, read]
      rw [last]
      by_cases matched : is byte
      · rw [if_pos matched] at round
        rw [loop_again (strimRight_shrinks is _) round, List.append_assoc, ih,
          List.rdropWhile_concat_pos _ _ _ matched]
      · rw [if_neg matched] at round
        rw [loop_done (strimRight_shrinks is _) round, List.rdropWhile_concat_neg _ _ _ matched, last]

/-! ## What the functions leave -/

/-- The memory has a string in front, and behind the place of the old NUL it is as before. -/
def Leaves (outcome : Except Fault (List UInt8)) (text beyond result : List UInt8) : Prop :=
  ∃ rest, outcome = .ok (result ++ 0 :: (rest ++ beyond)) ∧
    result.length + rest.length = text.length

/-- The maximal runs of characters that all match, or all do not. -/
def runs (is : UInt8 → Bool) (text : List UInt8) : List (List UInt8) :=
  text.splitBy fun byte other => is byte == is other

/-- Of a run that matches the last character is kept, and nothing if it is the last run. -/
def reduceRuns (is : UInt8 → Bool) : List (List UInt8) → List UInt8
  | [] => []
  | run :: rest =>
      (if run.all is then if rest.isEmpty then [] else run.getLast?.toList else run) ++
        reduceRuns is rest

section Outcomes

variable {is : UInt8 → Bool} {text written beyond : List UInt8}

theorem leaves_terminated (short : written.length ≤ text.length) :
    Leaves (.ok (overlay (written ++ [0]) (text ++ 0 :: beyond))) text beyond written := by
  refine ⟨(text ++ [0]).drop (written.length + 1), ?_, ?_⟩
  · have whole : text ++ 0 :: beyond = text ++ [0] ++ beyond := by
      rw [List.append_assoc, List.singleton_append]
    rw [overlay, whole, List.length_append, List.length_singleton, List.append_assoc,
      List.singleton_append,
      List.drop_append_of_le_length (by rw [List.length_append, List.length_singleton]; omega)]
  · rw [List.length_drop, List.length_append, List.length_singleton]
    omega

/-- One function after the other. -/
theorem Leaves.bind {outcome : Except Fault (List UInt8)} {result last : List UInt8}
    {after : List UInt8 → Except Fault (List UInt8)} (first : Leaves outcome text beyond result)
    (second : ∀ beyond, Leaves (after (result ++ 0 :: beyond)) result beyond last) :
    Leaves (outcome >>= after) text beyond last := by
  obtain ⟨rest, rfl, long⟩ := first
  obtain ⟨more, ended, longer⟩ := second (rest ++ beyond)
  refine ⟨more ++ rest, ?_, ?_⟩
  · rw [List.append_assoc]
    exact ended
  · rw [List.length_append]
    omega

theorem stringReplace_leaves (new : UInt8) (noNul : 0 ∉ text) :
    Leaves (stringReplace is new (text ++ 0 :: beyond)) text beyond
      (text.map fun byte => if is byte then new else byte) := by
  refine ⟨[], ?_, by rw [List.length_map]; rfl⟩
  have run : scan isChar (replaceAct is new) { buffer := overlay [] (text ++ 0 :: beyond) } = _ :=
    replace_run new noNul List.drop_zero rfl
  rw [overlay_nil] at run
  rw [stringReplace, run, List.nil_append, overlay, List.length_map, List.drop_left]
  rfl

/-- `__string_strim` moves what it keeps to the front, and does not end the string there. -/
theorem stringStrim_eq (noNul : 0 ∉ text) :
    stringStrim is (text ++ 0 :: beyond) =
      .ok (overlay (text.filter fun byte => !is byte) (text ++ 0 :: beyond)) := by
  have run : scan isChar (strimAct is) { buffer := overlay [] (text ++ 0 :: beyond) } = _ :=
    strim_run noNul List.drop_zero (Nat.le_refl _)
  rw [overlay_nil, List.nil_append] at run
  rw [stringStrim]
  exact congrArg (· >>= fun pointers => Except.ok pointers.buffer) run

theorem stringStrimLeft_leaves (noNul : 0 ∉ text) :
    Leaves (stringStrimLeft is (text ++ 0 :: beyond)) text beyond (text.dropWhile is) := by
  have fewer : (text.takeWhile is).length ≤ text.length := (List.takeWhile_sublist is).length_le
  have skipped : scan (fun byte => isChar byte && is byte) skipAct
      { buffer := text ++ 0 :: beyond } = _ := skip_run noNul List.drop_zero
  have left : (text ++ 0 :: beyond).drop (0 + (text.takeWhile is).length) =
      text.dropWhile is ++ 0 :: beyond := by
    rw [Nat.zero_add, List.drop_append_of_le_length fewer]
    have cut := congrArg (List.drop (text.takeWhile is).length)
      (List.takeWhile_append_dropWhile : text.takeWhile is ++ text.dropWhile is = text)
    rw [List.drop_left] at cut
    rw [cut]
  have rest : 0 ∉ text.dropWhile is := fun member =>
    noNul ((List.dropWhile_sublist is).subset member)
  have moved : scan isChar moveAct
      { buffer := overlay [] (text ++ 0 :: beyond), s := 0 + (text.takeWhile is).length } = _ :=
    move_run rest left (Nat.zero_le _)
  rw [overlay_nil, List.nil_append] at moved
  have short : (text.dropWhile is).length ≤ text.length := (List.dropWhile_sublist is).length_le
  have wrote := writeByte_overlay none 0
    (by rw [List.length_append, List.length_cons]; omega :
      (text.dropWhile is).length < (text ++ 0 :: beyond).length)
  rw [Option.toList_none, List.append_nil] at wrote
  have ended : stringStrimLeft is (text ++ 0 :: beyond) =
      .ok (overlay (text.dropWhile is ++ [0]) (text ++ 0 :: beyond)) := by
    rw [stringStrimLeft, skipped]
    exact (congrArg (fun outcome => outcome >>= fun pointers : Pointers =>
      writeByte pointers.buffer pointers.p 0) moved).trans wrote
  rw [ended]
  exact leaves_terminated short

theorem stringStrimRight_leaves (noNul : 0 ∉ text) :
    Leaves (stringStrimRight is (text ++ 0 :: beyond)) text beyond (text.rdropWhile is) := by
  obtain ⟨back, whole⟩ : text.rdropWhile is <+: text := List.rdropWhile_prefix is text
  have short : (text.rdropWhile is).length ≤ text.length := (List.rdropWhile_prefix is text).length_le
  have same : overlay (text.rdropWhile is) (text ++ 0 :: beyond) = text ++ 0 :: beyond := by
    conv_lhs => rw [overlay, ← whole, List.append_assoc, whole, List.drop_left]
    rw [← List.append_assoc, whole]
  have wrote := writeByte_overlay none 0
    (by rw [List.length_append, List.length_cons]; omega :
      (text.rdropWhile is).length < (text ++ 0 :: beyond).length)
  rw [Option.toList_none, List.append_nil, same] at wrote
  have ended : stringStrimRight is (text ++ 0 :: beyond) =
      .ok (overlay (text.rdropWhile is ++ [0]) (text ++ 0 :: beyond)) := by
    rw [stringStrimRight, strlen_eq noNul]
    change (loop (strimRightRound is (text ++ 0 :: beyond)) _ .outside _ >>= fun p =>
      writeByte (text ++ 0 :: beyond) (p + 1).toNat 0) = _
    rw [strimRight_run]
    change writeByte (text ++ 0 :: beyond) (_ - 1 + 1 : Int).toNat 0 = _
    rw [Int.sub_add_cancel, Int.toNat_natCast]
    exact wrote
  rw [ended]
  exact leaves_terminated short

theorem stringStrimBothEnds_leaves (noNul : 0 ∉ text) :
    Leaves (stringStrimBothEnds is (text ++ 0 :: beyond)) text beyond
      ((text.rdropWhile is).dropWhile is) := by
  refine (stringStrimRight_leaves noNul).bind fun beyond => stringStrimLeft_leaves ?_
  exact fun member => noNul ((List.rdropWhile_prefix is text).subset member)

theorem stringReduce_leaves (noNul : 0 ∉ text) :
    Leaves (stringReduce is (text ++ 0 :: beyond)) text beyond (reduceFrom is none text) := by
  obtain ⟨last, run⟩ : ∃ last : Option UInt8, scan isChar (reduceAct is)
      { buffer := overlay ([] ++ none.toList) (text ++ 0 :: beyond) } = .ok
        { buffer := overlay ([] ++ reduceFrom is none text ++ last.toList) (text ++ 0 :: beyond)
          p := ([] ++ reduceFrom is none text).length, s := 0 + text.length
          inReduce := last.isSome } :=
    reduce_run none noNul List.drop_zero (Nat.le_refl _)
  have short : (reduceFrom is none text).length ≤ text.length := by
    have kept := @reduceFrom_length is none text
    rw [Option.toList_none, List.length_nil, Nat.zero_add] at kept
    exact kept
  have wrote := writeByte_overlay last 0
    (by rw [List.length_append, List.length_cons]; omega :
      (reduceFrom is none text).length < (text ++ 0 :: beyond).length)
  have ended : stringReduce is (text ++ 0 :: beyond) =
      .ok (overlay (reduceFrom is none text ++ [0]) (text ++ 0 :: beyond)) := by
    rw [stringReduce]
    exact (congrArg (fun outcome => outcome >>= fun pointers : Pointers =>
      writeByte pointers.buffer pointers.p 0) run).trans wrote
  rw [ended]
  exact leaves_terminated short

end Outcomes

/-! ## Runs of characters -/

section RunsOfText

variable {is : UInt8 → Bool} {run text : List UInt8}

/-- Of a run that matches the last character is remembered. -/
theorem reduceFrom_matching (all : ∀ byte ∈ run, is byte = true) (pending : Option UInt8)
    (rest : List UInt8) :
    reduceFrom is pending (run ++ rest) = reduceFrom is (run.getLast?.or pending) rest := by
  induction run generalizing pending with
  | nil => rfl
  | cons byte run ih =>
      rw [List.cons_append, reduceFrom, if_pos (all byte (List.mem_cons_self ..)),
        ih fun other member => all other (List.mem_cons_of_mem _ member)]
      congr 1
      rw [List.getLast?_cons]
      cases run.getLast? with
      | none => rfl
      | some last => rfl

/-- In front of another character the one that is remembered is kept. -/
theorem reduceFrom_other {byte : UInt8} (other : is byte = false) (pending : Option UInt8)
    (rest : List UInt8) :
    reduceFrom is pending (byte :: rest) = pending.toList ++ reduceFrom is none (byte :: rest) := by
  rw [reduceFrom, reduceFrom, other, if_neg Bool.false_ne_true, if_neg Bool.false_ne_true]
  rfl

/-- A run that does not match is kept. -/
theorem reduceFrom_others (others : ∀ byte ∈ run, is byte = false) (rest : List UInt8) :
    reduceFrom is none (run ++ rest) = run ++ reduceFrom is none rest := by
  induction run with
  | nil => rfl
  | cons byte run ih =>
      rw [List.cons_append, reduceFrom, if_neg (by rw [others byte (List.mem_cons_self ..)]; decide),
        ih fun other member => others other (List.mem_cons_of_mem _ member)]
      rfl

/-- The characters of a run are of one kind. -/
theorem chain_uniform {byte : UInt8}
    (chain : (byte :: run).IsChain fun byte other => (is byte == is other) = true) :
    ∀ other ∈ byte :: run, is other = is byte := by
  induction run generalizing byte with
  | nil =>
      intro other member
      rw [List.mem_singleton.mp member]
  | cons next run ih =>
      obtain ⟨same, chain⟩ := List.isChain_cons_cons.mp chain
      intro other member
      rcases List.mem_cons.mp member with rfl | later
      · rfl
      · rw [ih chain other later, eq_of_beq same]

/-- Runs that are maximal are reduced one by one. -/
theorem reduceFrom_flatten {list : List (List UInt8)} (full : [] ∉ list)
    (chains : ∀ run ∈ list, run.IsChain fun byte other => (is byte == is other) = true)
    (maximal : list.IsChain fun run next =>
      ∃ full other, (is (run.getLast full) == is (next.head other)) = false) :
    reduceFrom is none list.flatten = reduceRuns is list := by
  induction list with
  | nil => rfl
  | cons run list ih =>
      have rest := ih (fun member => full (List.mem_cons_of_mem _ member))
        (fun run member => chains run (List.mem_cons_of_mem _ member)) maximal.tail
      obtain ⟨byte, run, rfl⟩ : ∃ byte rest, run = byte :: rest := by
        refine List.exists_cons_of_ne_nil ?_
        rintro rfl
        exact full (List.mem_cons_self ..)
      have uniform := chain_uniform (chains _ (List.mem_cons_self ..))
      rw [List.flatten_cons, reduceRuns]
      by_cases matched : is byte
      · have all : ∀ other ∈ byte :: run, is other = true := fun other member =>
          (uniform other member).trans matched
        rw [if_pos (List.all_eq_true.mpr all), reduceFrom_matching all, ← rest]
        cases list with
        | nil => rfl
        | cons next list =>
            obtain ⟨⟨_, other, apart⟩, -⟩ := List.isChain_cons_cons.mp maximal
            obtain ⟨first, next, rfl⟩ : ∃ first rest, next = first :: rest :=
              List.exists_cons_of_ne_nil other
            have differs : is first = false := by
              rw [all _ (List.getLast_mem _), List.head_cons] at apart
              cases value : is first with
              | false => rfl
              | true =>
                  rw [value] at apart
                  cases apart
            rw [List.isEmpty_cons, if_neg Bool.false_ne_true, List.flatten_cons, List.cons_append,
              reduceFrom_other differs, Option.or_none]
      · have others : ∀ other ∈ byte :: run, is other = false := fun other member =>
          (uniform other member).trans (Bool.eq_false_iff.mpr matched)
        have mixed : ¬((byte :: run).all is = true) := fun all =>
          matched (List.all_eq_true.mp all byte (List.mem_cons_self ..))
        rw [if_neg mixed, reduceFrom_others others, rest]

theorem reduceFrom_eq_reduceRuns (text : List UInt8) :
    reduceFrom is none text = reduceRuns is (runs is text) := by
  have reduced := reduceFrom_flatten (List.nil_notMem_splitBy _ text)
    (fun run member => List.isChain_of_mem_splitBy member)
    (List.isChain_getLast_head_splitBy (fun byte other => is byte == is other) text)
  rw [List.flatten_splitBy] at reduced
  exact reduced

end RunsOfText

/-! ## The specifications -/

/-- What the functions are to leave of a string: it is changed as their names say, and the memory
behind it is not changed. -/
structure Normalised (is : UInt8 → Bool) (new : UInt8) (text beyond : List UInt8) : Prop where
  replace : Leaves (stringReplace is new (text ++ 0 :: beyond)) text beyond
    (text.map fun byte => if is byte then new else byte)
  reduce : Leaves (stringReduce is (text ++ 0 :: beyond)) text beyond
    (reduceRuns is (runs is text))
  strim : Leaves (stringStrim is (text ++ 0 :: beyond)) text beyond
    (text.filter fun byte => !is byte)
  strimLeft : Leaves (stringStrimLeft is (text ++ 0 :: beyond)) text beyond (text.dropWhile is)
  strimRight : Leaves (stringStrimRight is (text ++ 0 :: beyond)) text beyond (text.rdropWhile is)
  strimBothEnds : Leaves (stringStrimBothEnds is (text ++ 0 :: beyond)) text beyond
    ((text.rdropWhile is).dropWhile is)

/-- `__string_strim` leaves the string without its matching characters only where there are none:
otherwise no NUL stands behind the ones that are kept. -/
theorem stringStrim_leaves_iff {is : UInt8 → Bool} {text beyond : List UInt8} (noNul : 0 ∉ text) :
    Leaves (stringStrim is (text ++ 0 :: beyond)) text beyond (text.filter fun byte => !is byte) ↔
      ∀ byte ∈ text, is byte = false := by
  rw [stringStrim_eq noNul]
  have fewer := List.length_filter_le (fun byte => !is byte) text
  constructor
  · rintro ⟨rest, same, long⟩
    have behind := List.append_cancel_left (Except.ok.inj same)
    have full : (text.filter fun byte => !is byte).length = text.length := by
      by_contra short
      rw [List.drop_append_of_le_length fewer] at behind
      obtain ⟨byte, more, left⟩ : ∃ byte more,
          text.drop (text.filter fun byte => !is byte).length = byte :: more := by
        refine List.exists_cons_of_ne_nil fun none => ?_
        rw [List.drop_eq_nil_iff] at none
        omega
      rw [left, List.cons_append] at behind
      obtain rfl : byte = 0 := (List.cons.inj behind).1
      exact noNul (List.mem_of_mem_drop (left ▸ List.mem_cons_self ..))
    intro byte member
    have kept := List.length_filter_eq_length_iff.mp full byte member
    rw [Bool.not_eq_true'] at kept
    exact kept
  · intro others
    have same : (text.filter fun byte => !is byte) = text :=
      List.filter_eq_self.mpr fun byte member => by rw [others byte member]; rfl
    rw [same]
    refine ⟨[], ?_, rfl⟩
    rw [overlay, List.drop_left]
    rfl

/-- The functions do what their names say of a string exactly if none of its characters matches:
all but `__string_strim` always do. -/
theorem normalised_iff_unmatched (is : UInt8 → Bool) (new : UInt8) (text beyond : List UInt8)
    (noNul : 0 ∉ text) :
    Normalised is new text beyond ↔ ∀ byte ∈ text, is byte = false := by
  constructor
  · intro normalised
    exact (stringStrim_leaves_iff noNul).mp normalised.strim
  · intro others
    have reduced : Leaves (stringReduce is (text ++ 0 :: beyond)) text beyond _ :=
      stringReduce_leaves noNul
    rw [reduceFrom_eq_reduceRuns] at reduced
    exact {
      replace := stringReplace_leaves new noNul
      reduce := reduced
      strim := (stringStrim_leaves_iff noNul).mpr others
      strimLeft := stringStrimLeft_leaves noNul
      strimRight := stringStrimRight_leaves noNul
      strimBothEnds := stringStrimBothEnds_leaves noNul }

/-- Without a blank in it a word is left as it is. -/
theorem normalised_iff_unmatched_word :
    0 ∉ [ascii 'a', ascii 'b'] ∧
      (Normalised Sfile.isBlank (ascii '_') [ascii 'a', ascii 'b'] [] ↔
        ∀ byte ∈ [ascii 'a', ascii 'b'], Sfile.isBlank byte = false) :=
  ⟨by decide, normalised_iff_unmatched _ _ _ _ (by decide)⟩

/-- `__string_strim` makes `abb` of `a b`. -/
theorem strim_leaves_tail :
    ¬∀ (is : UInt8 → Bool) (new : UInt8) (text beyond : List UInt8), 0 ∉ text → is 0 = false →
      Normalised is new text beyond := by
  intro claimed
  have normalised := claimed Sfile.isBlank (ascii '_') [ascii 'a', ascii ' ', ascii 'b'] []
    (by decide) (by decide)
  have spared := (stringStrim_leaves_iff (by decide)).mp normalised.strim (ascii ' ') (by decide)
  revert spared
  decide

/-! ## The lines of a file -/

/-- The loop of `__string_reduce` over blanks, as the scanners of files have it. -/
theorem reduceFrom_isBlank (pending : Option UInt8) (text : List UInt8) :
    Sfile.reduceFrom pending text = reduceFrom Sfile.isBlank pending text := by
  induction text generalizing pending with
  | nil => rfl
  | cons byte rest ih => rw [Sfile.reduceFrom, reduceFrom, ih, ih]

/-- A piece of a file is normalised in its buffer. -/
theorem normalise_leaves {text beyond : List UInt8} (noNul : 0 ∉ text) :
    Leaves (do
      let buffer ← stringStrimBothEnds Sfile.isBlank (text ++ 0 :: beyond)
      let buffer ← stringReplace Sfile.isBlank (ascii ' ') buffer
      stringReduce Sfile.isBlank buffer) text beyond (Sfile.normalise text) := by
  rw [Sfile.normalise, CStr.ofBuffer_eq noNul, Sfile.stringReduce, reduceFrom_isBlank]
  have trimmed : 0 ∉ (text.rdropWhile Sfile.isBlank).dropWhile Sfile.isBlank := fun member =>
    noNul ((List.rdropWhile_prefix _ text).subset ((List.dropWhile_sublist _).subset member))
  refine (stringStrimBothEnds_leaves noNul).bind fun beyond =>
    (stringReplace_leaves (ascii ' ') trimmed).bind fun beyond => stringReduce_leaves ?_
  intro member
  obtain ⟨byte, kept, same⟩ := List.mem_map.mp member
  split at same
  · exact absurd same (by decide)
  · exact trimmed (same ▸ kept)

end Trunk.InPlace
