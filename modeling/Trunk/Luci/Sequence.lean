import Trunk.Luci.Utils

/-! # Sequences of bytes

What `_validate_utf8` makes of the bytes from a place on: it takes the first one and the
continuation bytes behind it, one more than there should be at most, and copies them or writes a
question mark (`Trunk.Luci.validateUtf8_eq`). It reads no byte outside the text.
-/

namespace Trunk.Luci

open CString Loop

variable {s rest front buf : List UInt8} {ptr index count more : Nat} {c byte : UInt8}

/-- The tests of a sequence with as many continuation bytes as its first byte announces. -/
def legalBytes : List UInt8 → Bool
  | [a, b] => !(a >>> 1 = 0x60 && b >>> 6 = 0x02)
  | [a, b, c] => !(a = 0xE0 && b >>> 5 = 0x04 && c >>> 6 = 0x02) &&
      !(a = 0xED && 0xA0 ≤ b && b ≤ 0xBF) && !(a = 0xEF && b = 0xBF && 0xBE ≤ c && c ≤ 0xBF)
  | [a, b, c, d] => !(a = 0xF0 && b >>> 4 = 0x08 && c >>> 6 = 0x02 && d >>> 6 = 0x02)
  | _ => false

/-- The number of continuation bytes that are taken behind a first byte. -/
def taken (c : UInt8) (rest : List UInt8) : Nat :=
  min (mbNumChars c) (rest.takeWhile mbIsCont).length

/-- The sequence that begins with a byte is copied. -/
def copied (c : UInt8) (rest : List UInt8) : Bool :=
  mbNumChars c ≤ 4 && taken c rest + 1 = mbNumChars c && legalBytes (c :: rest.take (taken c rest))

/-- What is written for the bytes from a place on, and how many of them are taken behind the
first. -/
def item (c : UInt8) (rest : List UInt8) : List UInt8 × Nat :=
  if 0x01 ≤ c ∧ c ≤ 0x7F then ([c], 0)
  else if 1 < mbNumChars c then
    (if copied c rest then c :: rest.take (taken c rest) else [ascii '?'], taken c rest)
  else ([ascii '?'], 0)

theorem fetch_drop (suffix : s.drop ptr = front ++ byte :: rest) (place : index = ptr + front.length) :
    fetch s index = .ok byte := by
  have there := congrArg (fun list => list[front.length]?) suffix
  rw [List.getElem?_drop, ← place, List.getElem?_append_right (Nat.le_refl _), Nat.sub_self,
    List.getElem?_cons_zero] at there
  rw [fetch, there]

theorem fetch_first (suffix : s.drop ptr = c :: rest) : fetch s ptr = .ok c :=
  @fetch_drop s rest [] ptr ptr c suffix rfl

theorem drop_succ (suffix : s.drop ptr = c :: rest) : s.drop (ptr + 1) = rest := by
  rw [← List.drop_drop, suffix]
  rfl

theorem fetchMany_eq (enough : count ≤ (s.drop ptr).length) :
    fetchMany s ptr count = .ok ((s.drop ptr).take count) := by
  induction count generalizing ptr with
  | zero => rfl
  | succ count ih =>
      cases suffix : s.drop ptr with
      | nil =>
          rw [suffix] at enough
          exact absurd enough (Nat.not_succ_le_zero count)
      | cons c rest =>
          have next := drop_succ suffix
          rw [suffix] at enough
          rw [fetchMany, fetch_first suffix, ih (by rw [next]; exact Nat.le_of_succ_le_succ enough), next]
          rfl

/-- The loop counts continuation bytes, and stops at the end of the text. -/
theorem countCont_eq (suffix : s.drop ptr = c :: rest) {v : Nat} :
    countCont s ptr (rest.length + 1) more (v + 1) =
      .ok (v + 1 + min more ((rest.drop v).takeWhile mbIsCont).length) := by
  induction more generalizing v with
  | zero => rw [countCont, Nat.zero_min, Nat.add_zero]
  | succ more ih =>
      rw [countCont]
      cases behind : rest.drop v with
      | nil =>
          have outside := List.drop_eq_nil_iff.mp behind
          rw [if_neg (by omega), List.takeWhile_nil, List.length_nil, Nat.min_zero, Nat.add_zero]
      | cons d others =>
          have inside : v < rest.length := by
            have length := congrArg List.length behind
            rw [List.length_drop, List.length_cons] at length
            omega
          have split : s.drop ptr = (c :: rest.take v) ++ d :: others := by
            rw [suffix, List.cons_append, ← behind, List.take_append_drop]
          have place : ptr + (v + 1) = ptr + (c :: rest.take v).length := by
            rw [List.length_cons, List.length_take]
            omega
          have next : rest.drop (v + 1) = others := drop_succ behind
          rw [if_pos (by omega), fetch_drop split place]
          change (if mbIsCont d then _ else _) = _
          by_cases cont : mbIsCont d = true
          · rw [if_pos cont, ih, next, List.takeWhile_cons_of_pos cont, List.length_cons]
            congr 1
            omega
          · rw [if_neg cont, List.takeWhile_cons_of_neg cont, List.length_nil, Nat.min_zero,
              Nat.add_zero]
            rfl

/-- Tests of bytes inside a sequence. -/
theorem every_eq {seq behind : List UInt8} (suffix : s.drop ptr = seq ++ behind)
    {tests : List (Nat × (UInt8 → Bool))} (inside : ∀ test ∈ tests, test.1 < seq.length) :
    every s ptr tests = .ok (tests.all fun test => test.2 (seq[test.1]?.getD 0)) := by
  induction tests with
  | nil => rfl
  | cons test tests ih =>
      have here : test.1 < seq.length := inside test (List.mem_cons_self ..)
      have later := ih fun other member => inside other (List.mem_cons_of_mem _ member)
      have split : s.drop ptr = seq.take test.1 ++ seq[test.1] :: (seq.drop (test.1 + 1) ++ behind) := by
        rw [suffix, ← List.cons_append, ← List.drop_eq_getElem_cons here, ← List.append_assoc,
          List.take_append_drop]
      have place : ptr + test.1 = ptr + (seq.take test.1).length := by
        rw [List.length_take]
        omega
      rw [every, fetch_drop split place, later, List.all_cons, List.getElem?_eq_getElem here,
        Option.getD_some]
      change (if test.2 seq[test.1] then _ else _) = _
      cases test.2 seq[test.1] with
      | true => rfl
      | false => rfl

theorem isLegal_of {n : Nat} {shortest surrogate illegal : Bool}
    (first : mbIsShortest s ptr n = .ok shortest) (second : mbIsSurrogate s ptr n = .ok surrogate)
    (third : mbIsIllegal s ptr n = .ok illegal) :
    isLegal s ptr n = .ok (shortest && !surrogate && !illegal) := by
  rw [isLegal, first]
  cases shortest with
  | false => rfl
  | true =>
      rw [second]
      cases surrogate with
      | true => rfl
      | false =>
          rw [third]
          rfl

/-- The tests of the code are those of the sequence. -/
theorem isLegal_eq {seq behind : List UInt8} (suffix : s.drop ptr = seq ++ behind)
    (two : 2 ≤ seq.length) (four : seq.length ≤ 4) :
    isLegal s ptr seq.length = .ok (legalBytes seq) := by
  have inside : ∀ tests : List (Nat × (UInt8 → Bool)), (tests.all (·.1 < seq.length)) →
      every s ptr tests = .ok (tests.all fun test => test.2 (seq[test.1]?.getD 0)) := by
    intro tests all
    refine every_eq suffix fun test member => ?_
    exact of_decide_eq_true (List.all_eq_true.mp all test member)
  match seq, two, four with
  | [a, b], _, _ =>
      have shortest : mbIsShortest s ptr 2 = .ok (!(a >>> 1 = 0x60 && (b >>> 6 = 0x02 && true))) :=
        congrArg (not <$> ·) (inside _ rfl)
      refine (isLegal_of shortest rfl rfl).trans (congrArg Except.ok ?_)
      rw [legalBytes]
      simp only [Bool.and_true, Bool.not_false]
  | [a, b, c], _, _ =>
      have shortest : mbIsShortest s ptr 3 =
          .ok (!(a = 0xE0 && (b >>> 5 = 0x04 && (c >>> 6 = 0x02 && true)))) :=
        congrArg (not <$> ·) (inside _ rfl)
      have surrogate : mbIsSurrogate s ptr 3 =
          .ok (a = 0xED && (0xA0 ≤ b && (b ≤ 0xBF && true))) := inside _ rfl
      have illegal : mbIsIllegal s ptr 3 =
          .ok (a = 0xEF && (b = 0xBF && (0xBE ≤ c && (c ≤ 0xBF && true)))) := inside _ rfl
      refine (isLegal_of shortest surrogate illegal).trans (congrArg Except.ok ?_)
      rw [legalBytes]
      simp only [Bool.and_true, Bool.and_assoc]
  | [a, b, c, d], _, _ =>
      have shortest : mbIsShortest s ptr 4 = .ok (!(a = 0xF0 &&
          (b >>> 4 = 0x08 && (c >>> 6 = 0x02 && (d >>> 6 = 0x02 && true))))) :=
        congrArg (not <$> ·) (inside _ rfl)
      refine (isLegal_of shortest rfl rfl).trans (congrArg Except.ok ?_)
      rw [legalBytes]
      simp only [Bool.and_true, Bool.and_assoc, Bool.not_false]

theorem taken_le (c : UInt8) (rest : List UInt8) : taken c rest ≤ rest.length :=
  (Nat.min_le_right _ _).trans (List.takeWhile_prefix _).length_le

theorem length_seq (c : UInt8) (rest : List UInt8) :
    (c :: rest.take (taken c rest)).length = taken c rest + 1 := by
  rw [List.length_cons, List.length_take, Nat.min_eq_left (taken_le c rest)]

theorem mbNumChars_le (c : UInt8) : mbNumChars c ≤ 6 := by
  unfold mbNumChars
  repeat' split
  all_goals decide

/-- A sequence is copied, or a question mark is written for it. -/
theorem sequenceBytes_eq (suffix : s.drop ptr = c :: rest) (many : 1 < mbNumChars c) :
    sequenceBytes s ptr (mbNumChars c) (taken c rest + 1) =
      .ok (if copied c rest then c :: rest.take (taken c rest) else [ascii '?']) := by
  have most := mbNumChars_le c
  unfold sequenceBytes copied
  by_cases long : mbNumChars c = 6 ∨ mbNumChars c = 5
  · rw [if_pos long, decide_eq_false (by omega), Bool.false_and, Bool.false_and]
    rfl
  · rw [if_neg long, decide_eq_true (show mbNumChars c ≤ 4 by omega), Bool.true_and]
    by_cases whole : taken c rest + 1 = mbNumChars c
    · have split : s.drop ptr = (c :: rest.take (taken c rest)) ++ rest.drop (taken c rest) := by
        rw [suffix, List.cons_append, List.take_append_drop]
      have size := length_seq c rest
      have legal := isLegal_eq split (by omega) (by omega)
      have bytes := @fetchMany_eq s ptr (taken c rest + 1)
        (by rw [suffix]; exact Nat.succ_le_succ (taken_le c rest))
      rw [size] at legal
      rw [suffix, List.take_succ_cons] at bytes
      rw [if_pos whole, decide_eq_true whole, Bool.true_and, ← whole, legal]
      cases legalBytes (c :: rest.take (taken c rest)) with
      | true => exact bytes
      | false => rfl
    · rw [if_neg whole, decide_eq_false whole, Bool.false_and]
      rfl

/-- What `_validate_utf8` does with the bytes from a place on. -/
theorem validateUtf8_eq (suffix : s.drop ptr = c :: rest) (buf : List UInt8) :
    validateUtf8 s ptr (s.length - ptr) buf =
      .ok { count := (item c rest).2 + 1, ptr := ptr + ((item c rest).2 + 1),
            buf := buf ++ (item c rest).1 } := by
  have left : s.length - ptr = rest.length + 1 := by
    have length := congrArg List.length suffix
    rwa [List.length_drop, List.length_cons] at length
  unfold validateUtf8 item
  rw [fetch_first suffix, left]
  change (if 0x01 ≤ c ∧ c ≤ 0x7F then _ else _) = _
  by_cases plain : 0x01 ≤ c ∧ c ≤ 0x7F
  · rw [if_pos plain, if_pos plain]
    rfl
  · rw [if_neg plain, if_neg plain]
    by_cases many : 1 < mbNumChars c
    · have counted := @countCont_eq s rest ptr (mbNumChars c) c suffix 0
      rw [List.drop_zero, Nat.add_comm (0 + 1)] at counted
      change _ = Except.ok (taken c rest + 1) at counted
      rw [if_pos many, if_pos many, counted]
      change (do
        let written ← sequenceBytes s ptr (mbNumChars c) (taken c rest + 1)
        return ({ count := taken c rest + 1, ptr := ptr + (taken c rest + 1),
                  buf := buf ++ written } : Validated)) = _
      rw [sequenceBytes_eq suffix many]
      rfl
    · rw [if_neg many, if_neg many]
      rfl

/-- What is written for a text, from one place to the next. -/
def spell (write : UInt8 → List UInt8 → List UInt8 × Nat) : List UInt8 → List UInt8
  | [] => []
  | c :: rest => (write c rest).1 ++ spell write (rest.drop (write c rest).2)
termination_by s => s.length
decreasing_by
  rw [List.length_drop, List.length_cons]
  omega

/-- The rounds of a loop over a text write it from one place to the next, and the pointer stays with
the counter. -/
structure Spells (round : Scan → Except Fault (Round Scan (List UInt8))) (s : List UInt8)
    (write : UInt8 → List UInt8 → List UInt8 × Nat) : Prop where
  again : ∀ ⦃place c rest⦄ (buf : List UInt8), s.drop place = c :: rest →
    round { ptr := place, o := place, buf := buf } =
      .ok (.again { ptr := place + ((write c rest).2 + 1), o := place + ((write c rest).2 + 1),
                    buf := buf ++ (write c rest).1 })
  done : ∀ ⦃place⦄ (buf : List UInt8), s.length ≤ place →
    round { ptr := place, o := place, buf := buf } = .ok (.done buf)

/-- Such a loop never reads outside the text. -/
theorem Spells.loop_eq {round : Scan → Except Fault (Round Scan (List UInt8))}
    {write : UInt8 → List UInt8 → List UInt8 × Nat} (spells : Spells round s write)
    (shrinks : Shrinks round (Scan.size s) .outside) (place : Nat) (buf : List UInt8) :
    loop round (Scan.size s) .outside { ptr := place, o := place, buf := buf } =
      .ok (buf ++ spell write (s.drop place)) := by
  cases suffix : s.drop place with
  | nil =>
      have last := List.drop_eq_nil_iff.mp suffix
      rw [loop_done shrinks (spells.done buf last), spell, List.append_nil]
  | cons c rest =>
      have inside : place < s.length := by
        have length := congrArg List.length suffix
        rw [List.length_drop, List.length_cons] at length
        omega
      have next : s.drop (place + ((write c rest).2 + 1)) = rest.drop (write c rest).2 := by
        rw [Nat.add_comm _ 1, ← Nat.add_assoc, ← List.drop_drop, drop_succ suffix]
      rw [loop_again shrinks (spells.again buf suffix), spells.loop_eq shrinks, next, spell,
        List.append_assoc]
termination_by s.length - place

theorem validateRound_eq (suffix : s.drop ptr = c :: rest) (buf : List UInt8) :
    validateRound s { ptr := ptr, o := ptr, buf := buf } =
      .ok (.again { ptr := ptr + ((item c rest).2 + 1), o := ptr + ((item c rest).2 + 1),
                    buf := buf ++ (item c rest).1 }) := by
  rw [validateRound, validateUtf8_eq suffix]
  rfl

/-- A round that goes on goes ahead in the text. -/
theorem o_validateRound {scan next : Scan} (round : validateRound s scan = .ok (.again next)) :
    scan.o < next.o := by
  unfold validateRound at round
  cases result : validateUtf8 s scan.ptr (s.length - scan.o) scan.buf with
  | error fault =>
      rw [result] at round
      cases round
  | ok v =>
      rw [result] at round
      change (if v.count = 0 then _ else _) = _ at round
      split at round
      · cases round
      · obtain rfl := Round.again.inj (Except.ok.inj round)
        change scan.o < scan.o + (v.count - 1) + 1
        omega

theorem shrinks_of_ahead {round : Scan → Except Fault (Round Scan (List UInt8))}
    (ahead : ∀ scan next, round scan = .ok (.again next) → scan.o < s.length ∧ scan.o < next.o) :
    Shrinks round (Scan.size s) .outside where
  smaller scan next done := by
    have both := ahead scan next done
    unfold Scan.size
    omega
  empty _ zero := absurd zero (Nat.succ_ne_zero _)

end Trunk.Luci
