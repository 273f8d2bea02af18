import Trunk.Foundation.Utf8
import Trunk.Luci.Escaping

/-! # Sanitized text

`utf8` copies sequences and writes question marks for the rest. What it copies is a sequence of
UTF-8, but for sequences of four bytes that stand for numbers above U+10FFFF, which are not tested
for: its output is well formed exactly if the text has none of these
(`Trunk.Luci.utf8_sanitized_iff`). Sanitized text is left as it is.
-/

namespace Trunk.Luci

open CString Loop Utf8

variable {s rest front back seq : List UInt8} {c byte : UInt8}

/-- The sequences that are copied. -/
def Accepted : List UInt8 → Prop
  | [a] => 0x01 ≤ a.toNat ∧ a.toNat ≤ 0x7F
  | [a, b] => 0xC2 ≤ a.toNat ∧ a.toNat ≤ 0xDF ∧ Tail b
  | [a, b, c] => 0xE0 ≤ a.toNat ∧ a.toNat ≤ 0xEF ∧ Tail b ∧ Tail c ∧
      (a.toNat = 0xE0 → 0xA0 ≤ b.toNat) ∧ (a.toNat = 0xED → b.toNat ≤ 0x9F) ∧
      ¬ (a.toNat = 0xEF ∧ b.toNat = 0xBF ∧ 0xBE ≤ c.toNat)
  | [a, b, c, d] => 0xF0 ≤ a.toNat ∧ a.toNat ≤ 0xF7 ∧ Tail b ∧ Tail c ∧ Tail d ∧
      (a.toNat = 0xF0 → 0x90 ≤ b.toNat)
  | _ => False

/-- No continuation byte stands at the start of a text. -/
def Closed (text : List UInt8) : Prop := ∀ byte, text.head? = some byte → ¬ Tail byte

/-- A sequence of four bytes for a number above U+10FFFF stands in a text. -/
def TooHigh (s : List UInt8) : Prop :=
  ∃ front a b c d back, s = front ++ a :: b :: c :: d :: back ∧
    0xF4 ≤ a.toNat ∧ a.toNat ≤ 0xF7 ∧ (a.toNat = 0xF4 → 0x90 ≤ b.toNat) ∧
    Tail b ∧ Tail c ∧ Tail d ∧ Closed back

theorem mbIsCont_iff : mbIsCont byte = true ↔ Tail byte := by
  unfold mbIsCont Tail
  rw [Bool.and_eq_true, decide_eq_true_eq, decide_eq_true_eq, UInt8.le_iff_toNat_le,
    UInt8.le_iff_toNat_le]
  rfl

/-- The classes of first bytes. -/
theorem mbNumChars_cases (c : UInt8) :
    (c.toNat < 0xC0 ∨ 0xFE ≤ c.toNat) ∧ mbNumChars c = 1 ∨
      (0xC0 ≤ c.toNat ∧ c.toNat < 0xE0) ∧ mbNumChars c = 2 ∨
      (0xE0 ≤ c.toNat ∧ c.toNat < 0xF0) ∧ mbNumChars c = 3 ∨
      (0xF0 ≤ c.toNat ∧ c.toNat < 0xF8) ∧ mbNumChars c = 4 ∨
      (0xF8 ≤ c.toNat ∧ c.toNat < 0xFE) ∧ 5 ≤ mbNumChars c := by
  have each : ∀ value < 256,
      (value < 0xC0 ∨ 0xFE ≤ value) ∧ mbNumChars (UInt8.ofNat value) = 1 ∨
        (0xC0 ≤ value ∧ value < 0xE0) ∧ mbNumChars (UInt8.ofNat value) = 2 ∨
        (0xE0 ≤ value ∧ value < 0xF0) ∧ mbNumChars (UInt8.ofNat value) = 3 ∨
        (0xF0 ≤ value ∧ value < 0xF8) ∧ mbNumChars (UInt8.ofNat value) = 4 ∨
        (0xF8 ≤ value ∧ value < 0xFE) ∧ 5 ≤ mbNumChars (UInt8.ofNat value) := by decide +kernel
  have here := each c.toNat c.toNat_lt
  rwa [UInt8.ofNat_toNat] at here

theorem shiftRight_eq_iff {count value : UInt8} (few : count.toNat < 8) :
    byte >>> count = value ↔ byte.toNat / 2 ^ count.toNat = value.toNat := by
  rw [← UInt8.toNat_inj, UInt8.toNat_shiftRight, Nat.mod_eq_of_lt few, Nat.shiftRight_eq_div_pow]

/-- The tests of two bytes, in numbers. -/
theorem legalBytes_two {a b : UInt8} (tail : Tail b) (least : 0xC0 ≤ a.toNat) :
    legalBytes [a, b] = true ↔ 0xC2 ≤ a.toNat := by
  unfold Tail at tail
  unfold legalBytes
  simp only [Bool.not_eq_true', Bool.and_eq_false_iff, decide_eq_false_iff_not,
    shiftRight_eq_iff (show (1 : UInt8).toNat < 8 by decide),
    shiftRight_eq_iff (show (6 : UInt8).toNat < 8 by decide), UInt8.reduceToNat, Nat.reducePow]
  omega

theorem legalBytes_three {a b c : UInt8} (tail : Tail b) (tail' : Tail c) :
    legalBytes [a, b, c] = true ↔
      (a.toNat = 0xE0 → 0xA0 ≤ b.toNat) ∧ (a.toNat = 0xED → b.toNat ≤ 0x9F) ∧
        ¬ (a.toNat = 0xEF ∧ b.toNat = 0xBF ∧ 0xBE ≤ c.toNat) := by
  unfold Tail at tail tail'
  unfold legalBytes
  simp only [Bool.not_eq_true', Bool.and_eq_true, Bool.and_eq_false_iff, decide_eq_false_iff_not,
    shiftRight_eq_iff (show (5 : UInt8).toNat < 8 by decide), ← UInt8.toNat_inj,
    shiftRight_eq_iff (show (6 : UInt8).toNat < 8 by decide), UInt8.le_iff_toNat_le,
    UInt8.reduceToNat, Nat.reducePow]
  omega

theorem legalBytes_four {a b c d : UInt8} (tail : Tail b) (tail' : Tail c) (tail'' : Tail d) :
    legalBytes [a, b, c, d] = true ↔ (a.toNat = 0xF0 → 0x90 ≤ b.toNat) := by
  unfold Tail at tail tail' tail''
  unfold legalBytes
  simp only [Bool.not_eq_true', Bool.and_eq_false_iff, decide_eq_false_iff_not,
    shiftRight_eq_iff (show (4 : UInt8).toNat < 8 by decide), ← UInt8.toNat_inj,
    shiftRight_eq_iff (show (6 : UInt8).toNat < 8 by decide), UInt8.reduceToNat, Nat.reducePow]
  omega

/-- A sequence with the continuation bytes that its first byte announces is accepted exactly if it
passes the tests of the code. -/
theorem accepted_iff (tails : ∀ byte ∈ rest, Tail byte) (several : rest ≠ []) :
    Accepted (c :: rest) ↔ mbNumChars c ≤ 4 ∧ rest.length + 1 = mbNumChars c ∧
      legalBytes (c :: rest) = true := by
  have classes := mbNumChars_cases c
  match rest, several with
  | [b], _ =>
      have tail := tails b (by simp)
      simp only [Accepted, List.length_cons, List.length_nil]
      constructor
      · rintro ⟨least, most, -⟩
        rw [legalBytes_two tail (by omega)]
        omega
      · rintro ⟨-, size, legal⟩
        have least : 0xC0 ≤ c.toNat := by omega
        rw [legalBytes_two tail least] at legal
        exact ⟨legal, by omega, tail⟩
  | [b, d], _ =>
      have tail := tails b (by simp)
      have tail' := tails d (by simp)
      simp only [Accepted, List.length_cons, List.length_nil]
      rw [legalBytes_three tail tail']
      constructor
      · rintro ⟨least, most, -, -, tests⟩
        exact ⟨by omega, by omega, tests⟩
      · rintro ⟨-, size, tests⟩
        exact ⟨by omega, by omega, tail, tail', tests⟩
  | [b, d, e], _ =>
      have tail := tails b (by simp)
      have tail' := tails d (by simp)
      have tail'' := tails e (by simp)
      simp only [Accepted, List.length_cons, List.length_nil]
      rw [legalBytes_four tail tail' tail'']
      constructor
      · rintro ⟨least, most, -, -, -, test⟩
        exact ⟨by omega, by omega, test⟩
      · rintro ⟨-, size, test⟩
        exact ⟨by omega, by omega, tail, tail', tail'', test⟩
  | _ :: _ :: _ :: _ :: more, _ =>
      simp only [Accepted, List.length_cons, false_iff]
      omega

theorem tail_of_mem_taken (member : byte ∈ rest.take (taken c rest)) : Tail byte :=
  mbIsCont_iff.mp (mbIsCont_of_mem_taken member)

/-- What is copied is accepted, and no continuation byte follows it. -/
theorem accepted_of_copied (many : 1 < mbNumChars c) (copy : copied c rest = true) :
    Accepted (c :: rest.take (taken c rest)) ∧ Closed (rest.drop (taken c rest)) := by
  unfold copied at copy
  simp only [Bool.and_eq_true, decide_eq_true_eq] at copy
  obtain ⟨⟨most, whole⟩, legal⟩ := copy
  have size := length_seq c rest
  rw [List.length_cons] at size
  refine ⟨(accepted_iff (fun byte => tail_of_mem_taken) ?_).mpr ⟨most, by omega, legal⟩, ?_⟩
  · intro none
    rw [none, List.length_nil] at size
    omega
  · have all : taken c rest = (rest.takeWhile mbIsCont).length := by
      unfold taken at whole ⊢
      omega
    have behind : rest.drop (taken c rest) = rest.dropWhile mbIsCont := by
      have split := congrArg (List.drop (taken c rest))
        (List.takeWhile_append_dropWhile (p := mbIsCont) (l := rest))
      rwa [List.drop_left' all.symm, eq_comm] at split
    intro byte first tail
    have stop := List.head?_dropWhile_not mbIsCont rest
    rw [← behind, first] at stop
    change mbIsCont byte = false at stop
    rw [mbIsCont_iff.mpr tail] at stop
    cases stop

/-- All bytes of an accepted sequence but the first are continuation bytes. -/
theorem Accepted.tail (accepted : Accepted (c :: seq)) (member : byte ∈ seq) : Tail byte := by
  match seq, accepted with
  | [], _ => exact absurd member List.not_mem_nil
  | [b], ⟨_, _, tail⟩ =>
      rw [List.mem_singleton.mp member]
      exact tail
  | [b, d], ⟨_, _, tail, tail', _⟩ =>
      simp only [List.mem_cons, List.not_mem_nil, or_false] at member
      rcases member with rfl | rfl <;> assumption
  | [b, d, e], ⟨_, _, tail, tail', tail'', _⟩ =>
      simp only [List.mem_cons, List.not_mem_nil, or_false] at member
      rcases member with rfl | rfl | rfl <;> assumption

/-- The first byte of an accepted sequence is no continuation byte, and not zero. -/
theorem Accepted.first (accepted : Accepted (c :: seq)) : ¬ Tail c ∧ c.toNat ≠ 0 := by
  unfold Tail
  match seq, accepted with
  | [], ⟨_, _⟩ => omega
  | [b], ⟨_, _, _⟩ => omega
  | [b, d], ⟨_, _, _⟩ => omega
  | [b, d, e], ⟨_, _, _⟩ => omega

theorem takeWhile_of_closed (tails : ∀ byte ∈ seq, Tail byte) (closed : Closed back) :
    (seq ++ back).takeWhile mbIsCont = seq := by
  rw [List.takeWhile_append_of_pos fun byte member => mbIsCont_iff.mpr (tails byte member)]
  cases back with
  | nil => rw [List.takeWhile_nil, List.append_nil]
  | cons byte back =>
      have stop := closed byte rfl
      rw [List.takeWhile_cons_of_neg fun cont => stop (mbIsCont_iff.mp cont), List.append_nil]

/-- An accepted sequence that no continuation byte follows is copied. -/
theorem item_of_accepted (accepted : Accepted (c :: seq)) (closed : Closed back) :
    item c (seq ++ back) = (c :: seq, seq.length) := by
  have tails : ∀ byte ∈ seq, Tail byte := fun byte => accepted.tail
  unfold item
  cases seq with
  | nil =>
      obtain ⟨least, most⟩ := accepted
      rw [if_pos ⟨UInt8.le_iff_toNat_le.mpr least, UInt8.le_iff_toNat_le.mpr most⟩]
      rfl
  | cons b more =>
      obtain ⟨few, size, legal⟩ := (accepted_iff tails (List.cons_ne_nil _ _)).mp accepted
      have classes := mbNumChars_cases c
      rw [List.length_cons] at size
      have taking : taken c (b :: more ++ back) = (b :: more).length := by
        rw [taken, takeWhile_of_closed tails closed, List.length_cons]
        omega
      have taking' : (b :: more ++ back).take (taken c (b :: more ++ back)) = b :: more := by
        rw [taking]
        exact List.take_left' rfl
      have copy : copied c (b :: more ++ back) = true := by
        unfold copied
        rw [taking', legal, taking, decide_eq_true few, decide_eq_true]
        · rfl
        · rw [List.length_cons]
          exact size
      rw [if_neg, if_pos (by omega), if_pos copy, taking', taking]
      rintro ⟨-, most⟩
      have bound := UInt8.le_iff_toNat_le.mp most
      change c.toNat ≤ 0x7F at bound
      omega

/-- What `utf8` does with the bytes from a place on: it copies an accepted sequence, or it writes a
question mark for a byte and the continuation bytes behind it. -/
theorem item_cases (c : UInt8) (rest : List UInt8) :
    ∃ count, (∀ byte ∈ rest.take count, Tail byte) ∧
      ((item c rest = (c :: rest.take count, count) ∧ Accepted (c :: rest.take count) ∧
          (c.toNat ≤ 0x7F ∨ Closed (rest.drop count))) ∨
        item c rest = ([ascii '?'], count)) := by
  have none : ∀ byte ∈ rest.take 0, Tail byte := fun byte member => absurd member List.not_mem_nil
  unfold item
  split
  · rename_i plain
    have most := UInt8.le_iff_toNat_le.mp plain.2
    exact ⟨0, none, .inl ⟨rfl, ⟨UInt8.le_iff_toNat_le.mp plain.1, most⟩, .inl most⟩⟩
  · split
    · rename_i many
      refine ⟨taken c rest, fun byte => tail_of_mem_taken, ?_⟩
      split
      · rename_i copy
        obtain ⟨accepted, closed⟩ := accepted_of_copied many copy
        exact .inl ⟨rfl, accepted, .inr closed⟩
      · exact .inr rfl
    · exact ⟨0, none, .inr rfl⟩

theorem accepted_mark : Accepted [ascii '?'] := ⟨by decide, by decide⟩

/-- The output of `utf8` is a list of accepted sequences. -/
theorem spell_accepted (s : List UInt8) :
    ∃ pieces : List (List UInt8), (∀ piece ∈ pieces, Accepted piece) ∧
      spell item s = pieces.flatten := by
  induction s using spell.induct item with
  | case1 => exact ⟨[], fun piece member => absurd member List.not_mem_nil, by rw [spell]; rfl⟩
  | case2 c rest ih =>
      obtain ⟨pieces, accepted, flat⟩ := ih
      obtain ⟨count, -, ⟨same, first, -⟩ | same⟩ := item_cases c rest
      · refine ⟨(c :: rest.take count) :: pieces, List.forall_mem_cons.mpr ⟨first, accepted⟩, ?_⟩
        rw [spell, flat, same, List.flatten_cons]
      · refine ⟨[ascii '?'] :: pieces, List.forall_mem_cons.mpr ⟨accepted_mark, accepted⟩, ?_⟩
        rw [spell, flat, same, List.flatten_cons]

theorem closed_flatten {pieces : List (List UInt8)} (accepted : ∀ piece ∈ pieces, Accepted piece) :
    Closed pieces.flatten := by
  intro byte first
  cases pieces with
  | nil => cases first
  | cons piece pieces =>
      have good := accepted piece (List.mem_cons_self ..)
      cases piece with
      | nil => exact good.elim
      | cons c seq =>
          obtain rfl := Option.some.inj first
          exact good.first.1

/-- Accepted sequences are left as they are. -/
theorem spell_flatten {pieces : List (List UInt8)} (accepted : ∀ piece ∈ pieces, Accepted piece) :
    spell item pieces.flatten = pieces.flatten := by
  induction pieces with
  | nil =>
      rw [List.flatten_nil, spell]
  | cons piece pieces ih =>
      have good := accepted piece (List.mem_cons_self ..)
      have others : ∀ piece ∈ pieces, Accepted piece :=
        fun piece member => accepted piece (List.mem_cons_of_mem _ member)
      cases piece with
      | nil => exact good.elim
      | cons c seq =>
          rw [List.flatten_cons, List.cons_append, spell,
            item_of_accepted good (closed_flatten others), List.drop_left' rfl, ih others,
            List.cons_append]

theorem TooHigh.append (high : TooHigh back) (front : List UInt8) : TooHigh (front ++ back) := by
  obtain ⟨before, a, b, c, d, behind, rfl, rest⟩ := high
  exact ⟨front ++ before, a, b, c, d, behind, (List.append_assoc ..).symm, rest⟩

/-- An accepted sequence is one of UTF-8, or it is too high. -/
theorem isSequence_of_accepted (accepted : Accepted seq) :
    IsSequence seq ∨ ∃ a b c d, seq = [a, b, c, d] ∧ 0xF4 ≤ a.toNat ∧ a.toNat ≤ 0xF7 ∧
      (a.toNat = 0xF4 → 0x90 ≤ b.toNat) ∧ Tail b ∧ Tail c ∧ Tail d := by
  match seq, accepted with
  | [a], ⟨_, most⟩ => exact .inl most
  | [a, b], accepted => exact .inl accepted
  | [a, b, c], ⟨least, most, tail, tail', lower, upper, _⟩ =>
      exact .inl ⟨least, most, tail, tail', lower, upper⟩
  | [a, b, c, d], ⟨least, most, tail, tail', tail'', lower⟩ =>
      by_cases small : a.toNat < 0xF4 ∨ a.toNat = 0xF4 ∧ b.toNat ≤ 0x8F
      · exact .inl ⟨least, by omega, tail, tail', tail'', lower, by omega⟩
      · exact .inr ⟨a, b, c, d, rfl, by omega, by omega, by omega, tail, tail', tail''⟩

/-- The output is well formed where nothing is too high. -/
theorem wellFormed_spell (low : ¬ TooHigh s) : WellFormed (spell item s) := by
  induction s using spell.induct item with
  | case1 =>
      rw [spell]
      exact wellFormed_nil
  | case2 c rest ih =>
      obtain ⟨count, -, written⟩ := item_cases c rest
      have taking : (item c rest).2 = count := by
        rcases written with ⟨same, -⟩ | same <;> rw [same]
      have split : c :: rest = (c :: rest.take count) ++ rest.drop count := by
        rw [List.cons_append, List.take_append_drop]
      rw [taking] at ih
      have later := ih fun high => low (split ▸ high.append _)
      rw [spell, taking]
      rcases written with ⟨same, accepted, closed⟩ | same
      · rw [same]
        rcases isSequence_of_accepted accepted with good | ⟨a, b, d, e, shape, least, most, upper, tails⟩
        · exact (wellFormed_of_isSequence good).append later
        · refine absurd ⟨[], a, b, d, e, rest.drop count, ?_, least, most, upper, tails.1, tails.2.1,
            tails.2.2, ?_⟩ low
          · rw [List.nil_append, split, shape]
            rfl
          · obtain ⟨rfl, -⟩ := List.cons_eq_cons.mp shape
            exact closed.resolve_left (by omega)
      · rw [same]
        have mark : IsSequence [ascii '?'] := by
          rw [IsSequence]
          decide
        exact (wellFormed_of_isSequence mark).append later

/-- What is too high stays in the output. -/
theorem spell_of_tooHigh {a b d e : UInt8} (least : 0xF4 ≤ a.toNat) (most : a.toNat ≤ 0xF7)
    (tails : Tail b ∧ Tail d ∧ Tail e) (closed : Closed back)
    (split : s = front ++ a :: b :: d :: e :: back) :
    ∃ before behind, spell item s = before ++ a :: b :: behind := by
  induction s using spell.induct item generalizing front with
  | case1 => cases front <;> cases split
  | case2 c rest ih =>
      cases front with
      | nil =>
          obtain ⟨rfl, rfl⟩ := List.cons_eq_cons.mp split
          have accepted : Accepted [c, b, d, e] :=
            ⟨by omega, most, tails.1, tails.2.1, tails.2.2, by omega⟩
          rw [spell, show b :: d :: e :: back = [b, d, e] ++ back from rfl,
            item_of_accepted accepted closed]
          exact ⟨[], _, rfl⟩
      | cons byte front =>
          rw [List.cons_append] at split
          obtain ⟨rfl, rfl⟩ := List.cons_eq_cons.mp split
          obtain ⟨count, conts, written⟩ := item_cases c (front ++ a :: b :: d :: e :: back)
          have taking : (item c (front ++ a :: b :: d :: e :: back)).2 = count := by
            rcases written with ⟨same, -⟩ | same <;> rw [same]
          have before : count ≤ front.length := by
            by_contra beyond
            have member : a ∈ (front ++ a :: b :: d :: e :: back).take count := by
              rw [List.take_append, List.mem_append]
              refine .inr ?_
              obtain ⟨more, excess⟩ := Nat.exists_eq_add_of_lt (Nat.lt_of_not_le beyond)
              rw [excess, Nat.add_assoc, Nat.add_sub_cancel_left, List.take_succ_cons]
              exact List.mem_cons_self ..
            have tail := conts a member
            unfold Tail at tail
            omega
          rw [taking] at ih
          obtain ⟨start, behind, later⟩ := @ih (front.drop count)
            (List.drop_append_of_le_length before)
          rw [spell, taking, later]
          exact ⟨_, behind, (List.append_assoc ..).symm⟩

theorem not_wellFormed_spell (high : TooHigh s) : ¬ WellFormed (spell item s) := by
  obtain ⟨front, a, b, d, e, back, split, least, most, upper, tail, tail', tail'', closed⟩ := high
  obtain ⟨before, behind, stays⟩ := spell_of_tooHigh least most ⟨tail, tail', tail''⟩ closed split
  intro good
  have small := good.high stays least
  omega

theorem spells_utf8 (s : List UInt8) : Spells (utf8Round s) s item where
  again place c rest buf suffix := by
    unfold utf8Round
    rw [if_pos (lt_length_of_drop suffix), fetch_first suffix]
    change (if 0x01 ≤ c ∧ c ≤ 0x7F then _ else _) = _
    by_cases plain : 0x01 ≤ c ∧ c ≤ 0x7F
    · have written : item c rest = ([c], 0) := if_pos plain
      rw [if_pos plain, written]
      rfl
    · rw [if_neg plain]
      exact validateRound_eq suffix buf
  done place buf outside := if_neg (Nat.not_lt_of_le outside)

theorem shrinks_utf8 (s : List UInt8) : Shrinks (utf8Round s) (Scan.size s) .outside := by
  refine shrinks_of_ahead ?_
  intro scan next round
  unfold utf8Round at round
  by_cases inside : scan.o < s.length
  · rw [if_pos inside] at round
    refine ⟨inside, ?_⟩
    cases first : fetch s scan.ptr with
    | error fault =>
        rw [first] at round
        cases round
    | ok c =>
        rw [first] at round
        change (if 0x01 ≤ c ∧ c ≤ 0x7F then _ else _) = _ at round
        split at round
        · obtain rfl := Round.again.inj (Except.ok.inj round)
          exact Nat.lt_succ_self _
        · exact o_validateRound round
  · rw [if_neg inside] at round
    cases round

/-- `utf8` reads the text only, and writes it from one place to the next. -/
theorem utf8_eq (s : List UInt8) : utf8 s = .ok (spell item s) :=
  (spells_utf8 s).loop_eq (shrinks_utf8 s) 0 []

theorem zero_notMem_spell (s : List UInt8) : 0 ∉ spell item s := by
  obtain ⟨pieces, accepted, flat⟩ := spell_accepted s
  intro member
  rw [flat] at member
  obtain ⟨piece, known, inside⟩ := List.mem_flatten.mp member
  have good := accepted piece known
  cases piece with
  | nil => exact good
  | cons c seq =>
      rcases List.mem_cons.mp inside with rfl | behind
      · exact good.first.2 rfl
      · have tail := good.tail behind
        unfold Tail at tail
        exact absurd tail.1 (by decide)

/-- A character other than NUL, U+FFFE and U+FFFF is accepted. -/
theorem accepted_encode {character : Char} (nul : character.val.toNat ≠ 0)
    (first : character.val.toNat ≠ 0xFFFE) (second : character.val.toNat ≠ 0xFFFF) :
    Accepted (String.utf8EncodeChar character) := by
  have sequence := isSequence_encode character
  unfold String.utf8EncodeChar at sequence ⊢
  dsimp only at sequence ⊢
  generalize character.val.toNat = value at nul first second sequence ⊢
  split at sequence
  · rename_i small
    rw [if_pos small, Accepted, toNat_ofNat_lt (by omega)]
    omega
  · rename_i large
    rw [if_neg large]
    split at sequence
    · rename_i small
      rw [if_pos small]
      exact sequence
    · rename_i large
      rw [if_neg large]
      split at sequence
      · rename_i small
        rw [if_pos small]
        obtain ⟨least, most, tail, tail', lower, upper⟩ := sequence
        refine ⟨least, most, tail, tail', lower, upper, ?_⟩
        rw [toNat_ofNat_lt (by omega), toNat_ofNat_lt (by omega), toNat_ofNat_lt (by omega)]
        omega
      · rename_i large
        rw [if_neg large]
        obtain ⟨least, most, tail, tail', tail'', lower, -⟩ := sequence
        exact ⟨least, by omega, tail, tail', tail'', lower⟩

/-- The output of `utf8` is well formed exactly if the text has no sequence that is too high. It has
no NUL, it is the text if that is well formed without NUL, U+FFFE and U+FFFF, and it is left as it
is. -/
theorem utf8_sanitized_iff (s : List UInt8) :
    ∃ out, utf8 s = .ok out ∧ (WellFormed out ↔ ¬ TooHigh s) ∧ 0 ∉ out ∧
      (∀ characters : List Char, s = characters.flatMap String.utf8EncodeChar →
        (∀ character ∈ characters, character.val.toNat ≠ 0 ∧ character.val.toNat ≠ 0xFFFE ∧
          character.val.toNat ≠ 0xFFFF) → out = s) ∧
      utf8 out = .ok out := by
  refine ⟨spell item s, utf8_eq s, ⟨?_, wellFormed_spell⟩, zero_notMem_spell s, ?_, ?_⟩
  · intro good high
    exact not_wellFormed_spell high good
  · rintro characters rfl legal
    rw [List.flatMap_def]
    refine spell_flatten fun piece member => ?_
    obtain ⟨character, known, rfl⟩ := List.mem_map.mp member
    obtain ⟨nul, first, second⟩ := legal character known
    exact accepted_encode nul first second
  · obtain ⟨pieces, accepted, flat⟩ := spell_accepted s
    rw [utf8_eq, flat, spell_flatten accepted]

/-- The bytes F5 80 80 80 are copied, and are no UTF-8. -/
theorem utf8_not_wellFormed :
    utf8 [0xF5, 0x80, 0x80, 0x80] = .ok [0xF5, 0x80, 0x80, 0x80] ∧
      ¬ WellFormed [0xF5, 0x80, 0x80, 0x80] := by
  refine ⟨by decide, ?_⟩
  intro good
  have small := @WellFormed.high _ [] [0x80, 0x80] 0xF5 0x80 good rfl (by decide)
  exact absurd small.1 (by decide)

end Trunk.Luci
