import Mathlib.Data.Nat.Digits.Lemmas
import Trunk.Rgps.Values

/-! # The time of a report

`print_timestr`, and `print_gpsinfo` with the time that it stores. The words of `tm_int` for which
the text has no token are what was on the stack. The time that is stored fits its field for every
such stack exactly if the text has a token (`Trunk.Rgps.printTimestr_fits`).
-/

namespace Trunk.Rgps

open CString Provenance Provenance.Glyph Loop

/-- The decimal digits of a number, none for zero. -/
def decimal (value : Nat) : List UInt8 :=
  (Nat.digits 10 value).reverse.map fun digit => ascii '0' + UInt8.ofNat digit

/-- What `%02d` writes. -/
def twoDigits (value : Int) : List UInt8 :=
  if value < 0 then ascii '-' :: decimal value.natAbs
  else List.replicate (2 - (decimal value.natAbs).length) (ascii '0') ++ decimal value.natAbs

/-- `tm_int`, of the tokens of a text. -/
def tmInt (stack : Fin 3 → UInt32) (tokens : List (List UInt8)) (index : Fin 3) : UInt32 :=
  tokens[index.val]?.elim (stack index) fun token => UInt32.ofNat (strtoulDecimalFront 32 token)

/-- The hour, eight hours later. -/
def laterHour (hour : UInt32) : UInt32 :=
  if 24 < hour + 8 then hour + 8 - 24 else hour + 8

/-- A word as `%02d` takes it. -/
def asInt (word : UInt32) : Int := word.toInt32.toInt

/-- What `print_timestr` prints. -/
def timestr (stack : Fin 3 → UInt32) (text : List UInt8) : List UInt8 :=
  let tmInt := tmInt stack (strtok (ascii ':') text)
  twoDigits (asInt (laterHour (tmInt 0))) ++ ascii ':' :: twoDigits (asInt (tmInt 1)) ++
    ascii ':' :: twoDigits (asInt (tmInt 2))

/-- `print_timestr`: `gps_Time` has thirty bytes. -/
def printTimestr (stack : Fin 3 → UInt32) (text : List UInt8) : Except Fault (List UInt8) :=
  memcpy 29 (timestr stack text)

/-- `rgps` with its time. -/
structure Timed (α : Type) where
  gps : Gps α
  gpsTime : List UInt8
  deriving DecidableEq, Repr

section

variable {α : Type} [Glyph α]

/-- The state behind the test for a comma. -/
def Scan.entered (scan : Scan α) : Scan α :=
  if (scan.buf.head?.map byte) = some (ascii ',') then scan.comma else scan

/-- At the asterisk of a `$GPGGA` sentence the time is stored. -/
def storeTime (stack : Fin 3 → UInt32) (gpsTime : List UInt8) (scan : Scan α) :
    Except Fault (List UInt8) :=
  if (scan.buf.head?.map byte) = some (ascii '*') ∧ scan.command = .gga ∧
      scan.gps.flagGPGGA = false then do
    printTimestr stack (erase (← cstring (scan.locals .time)))
  else .ok gpsTime

/-- A round of the loop, with the time. -/
def timedRound (stack : Fin 3 → UInt32) (gpsTime : List UInt8) (scan : Scan α) :
    Except Fault (Round (Scan α) (Timed α)) := do
  match ← round scan with
  | .again next => return .again next
  | .done gps => return .done ⟨gps, ← storeTime stack gpsTime scan.entered⟩

/-- The loop, with the time. -/
def timedScanning (stack : Fin 3 → UInt32) (gpsTime : List UInt8) (scan : Scan α) :
    Except Fault (Timed α) :=
  loop (timedRound stack gpsTime) (fun scan => scan.buf.length) .read scan

/-- What of a line, with its terminator, is behind the dollar sign. -/
def behindDollar (line : List α) : Option (List α) :=
  let text := line ++ [literal 0]
  let buf := if (text.head?.map byte) = some (ascii '\n') then text.tail else text
  if (buf.head?.map byte) = some (ascii '$') then some buf.tail else none

/-- `print_gpsinfo`, of a line, with the time. -/
def printGpsinfoTimed (stack : Fin 3 → UInt32) (line : List α) (before : Timed α) :
    Except Fault (Timed α) :=
  (behindDollar line).elim (.ok before) fun buf =>
    timedScanning stack before.gpsTime (.start buf before.gps)

end

section

variable {stack : Fin 3 → UInt32} {text front back : List UInt8} {value : Int}

theorem decimal_length_le {value digits : Nat} (small : value < 10 ^ digits) :
    (decimal value).length ≤ digits := by
  rw [decimal, List.length_map, List.length_reverse]
  exact (Nat.digits_length_le_iff (by decide) value).mpr small

theorem twoDigits_length_le {digits : Nat} (two : 2 ≤ digits) (small : value.natAbs < 10 ^ digits) :
    (twoDigits value).length ≤ digits + 1 := by
  have short := decimal_length_le small
  unfold twoDigits
  split
  · rw [List.length_cons]
    omega
  · rw [List.length_append, List.length_replicate]
    omega

theorem asInt_natAbs_lt (word : UInt32) : (asInt word).natAbs < 10 ^ 10 := by
  have low := word.toInt32.le_toInt
  have high := word.toInt32.toInt_lt
  unfold asInt
  omega

/-- The tokens of a text are those in front of a delimiter and those behind it. -/
theorem strtok_append_cons (delimiter : UInt8) (front back : List UInt8) :
    strtok delimiter (front ++ delimiter :: back) =
      strtok delimiter front ++ strtok delimiter back := by
  unfold strtok
  rw [List.splitOn_append_cons_self, List.filter_append]

theorem splitOn_length_le (delimiter : UInt8) (text : List UInt8) :
    ∀ token ∈ text.splitOn delimiter, token.length ≤ text.length := by
  induction text with
  | nil =>
      intro token member
      rw [List.splitOn_nil, List.mem_singleton] at member
      rw [member]
  | cons first text ih =>
      intro token member
      rw [List.splitOn_cons_eq_if_modifyHead] at member
      split at member
      · rcases List.mem_cons.mp member with rfl | member
        · exact Nat.zero_le _
        · exact Nat.le_succ_of_le (ih token member)
      · cases parts : text.splitOn delimiter with
        | nil => exact absurd parts (List.splitOn_ne_nil _ _)
        | cons head others =>
            rw [parts] at member ih
            rcases List.mem_cons.mp member with rfl | member
            · exact Nat.succ_le_succ (ih head (List.mem_cons_self ..))
            · exact Nat.le_succ_of_le (ih token (List.mem_cons_of_mem head member))

theorem strtok_length_le {delimiter : UInt8} {token : List UInt8}
    (member : token ∈ strtok delimiter text) : token.length ≤ text.length :=
  splitOn_length_le delimiter text token (List.mem_of_mem_filter member)

/-- Every token has two characters at most if that is so behind the third character, which is a
colon. -/
theorem strtok_short (colon : ∀ c ∈ text[2]?, c = ascii ':')
    (short : ∀ token ∈ strtok (ascii ':') (text.drop 3), token.length ≤ 2) :
    ∀ token ∈ strtok (ascii ':') text, token.length ≤ 2 := by
  intro token member
  rcases Nat.lt_or_ge 2 text.length with long | few
  · have third : text[2]? = some text[2] := List.getElem?_eq_getElem long
    have split : text = text.take 2 ++ ascii ':' :: text.drop 3 := by
      rw [← colon _ third, List.getElem_cons_drop, List.take_append_drop]
    rw [split, strtok_append_cons] at member
    rcases List.mem_append.mp member with member | member
    · exact (strtok_length_le member).trans (List.length_take_le ..)
    · exact short token member
  · exact (strtok_length_le member).trans few

theorem asInt_eq (word : UInt32) :
    asInt word = if word.toNat < 2 ^ 31 then (word.toNat : Int) else word.toNat - 2 ^ 32 := by
  have same : asInt word = word.toBitVec.toInt := rfl
  have bound := word.toNat_lt
  rw [same, BitVec.toInt_eq_toNat_cond, UInt32.toNat_toBitVec]
  split_ifs <;> omega

theorem laterHour_toNat (hour : UInt32) :
    (laterHour hour).toNat =
      if 24 < (hour.toNat + 8) % 2 ^ 32 then (hour.toNat + 8) % 2 ^ 32 - 24
      else (hour.toNat + 8) % 2 ^ 32 := by
  have later : (hour + 8).toNat = (hour.toNat + 8) % 2 ^ 32 := UInt32.toNat_add hour 8
  have above : 24 < hour + 8 ↔ 24 < (hour.toNat + 8) % 2 ^ 32 := by
    rw [UInt32.lt_iff_toNat_lt, later]
    rfl
  unfold laterHour
  by_cases past : 24 < hour + 8
  · have within : (24 : UInt32) ≤ hour + 8 := UInt32.le_of_lt past
    rw [if_pos past, if_pos (above.mp past), UInt32.toNat_sub_of_le _ _ within, later]
    rfl
  · rw [if_neg past, if_neg (mt above.mpr past), later]

theorem foldl_digit_lt {base : Nat} {digits : List UInt8}
    (small : ∀ byte ∈ digits, (digit byte).getD 0 < base) (value : Nat) :
    digits.foldl (fun value byte => value * base + (digit byte).getD 0) value <
      (value + 1) * base ^ digits.length := by
  induction digits generalizing value with
  | nil =>
      rw [List.foldl_nil, List.length_nil, pow_zero, Nat.mul_one]
      exact Nat.lt_succ_self value
  | cons first digits ih =>
      have low := small first (List.mem_cons_self ..)
      rw [List.foldl_cons, List.length_cons, pow_succ', ← Nat.mul_assoc]
      refine (ih (fun byte member => small byte (List.mem_cons_of_mem first member)) _).trans_le ?_
      refine Nat.mul_le_mul_right _ ?_
      rw [Nat.add_mul]
      omega

theorem leadingDigits_lt (text : List UInt8) : leadingDigits 10 text < 10 ^ text.length := by
  have small : ∀ byte ∈ text.takeWhile fun byte => (digit byte).any (· < 10),
      (digit byte).getD 0 < 10 := by
    intro byte member
    have found := List.mem_takeWhile_imp member
    cases value : digit byte with
    | none => exact Nat.zero_lt_succ 9
    | some value =>
        rw [‹digit byte = _›] at found
        simpa using found
  have bound := foldl_digit_lt small 0
  rw [Nat.zero_add, Nat.one_mul] at bound
  exact bound.trans_le (Nat.pow_le_pow_right (by decide) (List.takeWhile_sublist _).length_le)

/-- A token of two characters has two digits at most, or one behind a sign. -/
theorem strtoulDecimalFront_short {token : List UInt8} (short : token.length ≤ 2) :
    strtoulDecimalFront 32 token < 100 ∨
      2 ^ 32 - 10 < strtoulDecimalFront 32 token ∧ strtoulDecimalFront 32 token < 2 ^ 32 := by
  have start : (token.dropWhile isSpace).length ≤ 2 :=
    (List.length_dropWhile_le ..).trans short
  have plain := leadingDigits_lt (token.dropWhile isSpace)
  have plain' : 10 ^ (token.dropWhile isSpace).length ≤ 10 ^ 2 :=
    Nat.pow_le_pow_right (by decide) start
  have signed := leadingDigits_lt (token.dropWhile isSpace).tail
  have signed' : 10 ^ (token.dropWhile isSpace).tail.length ≤ 10 ^ 1 := by
    refine Nat.pow_le_pow_right (by decide) ?_
    rw [List.length_tail]
    omega
  unfold strtoulDecimalFront
  dsimp only
  split_ifs <;> simp_all <;> omega

/-- The hour of a token of two characters has two digits at most, or is just below zero. -/
theorem asInt_laterHour_lt {token : List UInt8} (short : token.length ≤ 2) :
    (asInt (laterHour (UInt32.ofNat (strtoulDecimalFront 32 token)))).natAbs < 10 ^ 2 := by
  have value := strtoulDecimalFront_short short
  have word : (UInt32.ofNat (strtoulDecimalFront 32 token)).toNat =
      strtoulDecimalFront 32 token := UInt32.toNat_ofNat_of_lt' (by
    change _ < 2 ^ 32
    omega)
  rw [asInt_eq, laterHour_toNat, word]
  split_ifs <;> omega

/-- What the time is where the text has no token, of words that are as long as they can be. -/
theorem timestr_long : (timestr (fun _ => 2 ^ 31) []).length = 34 := by
  have first : asInt (laterHour (2 ^ 31)) = 2147483632 := by decide +kernel
  have others : asInt (2 ^ 31) = -2147483648 := by decide +kernel
  have none : strtok (ascii ':') [] = [] := rfl
  have written : (twoDigits 2147483632).length = 10 := by
    norm_num [twoDigits, decimal]
  have written' : (twoDigits (-2147483648)).length = 11 := by
    norm_num [twoDigits, decimal]
  simp only [timestr, tmInt, none, List.getElem?_nil, Option.elim_none, first, others,
    List.length_append, List.length_cons, written, written']

/-- The time fits `gps_Time` for every stack exactly if the text has a token. -/
theorem printTimestr_fits (short : ∀ token ∈ strtok (ascii ':') text, token.length ≤ 2) :
    (∀ stack, ∃ time, printTimestr stack text = .ok time) ↔ strtok (ascii ':') text ≠ [] := by
  constructor
  · intro fits none
    obtain ⟨time, printed⟩ := fits fun _ => 2 ^ 31
    have same : timestr (fun _ => 2 ^ 31) text = timestr (fun _ => 2 ^ 31) [] := by
      unfold timestr
      rw [none]
      rfl
    rw [printTimestr, same, memcpy, timestr_long] at printed
    cases printed
  · intro nonempty stack
    obtain ⟨first, others, tokens⟩ := List.exists_cons_of_ne_nil nonempty
    have hour : (tmInt stack (strtok (ascii ':') text) 0) =
        UInt32.ofNat (strtoulDecimalFront 32 first) := by
      rw [tokens]
      rfl
    have written := twoDigits_length_le (Nat.le_refl 2)
      (asInt_laterHour_lt (short first (tokens ▸ List.mem_cons_self ..)))
    have written' := twoDigits_length_le (by decide)
      (asInt_natAbs_lt (tmInt stack (strtok (ascii ':') text) 1))
    have written'' := twoDigits_length_le (by decide)
      (asInt_natAbs_lt (tmInt stack (strtok (ascii ':') text) 2))
    refine ⟨timestr stack text, if_pos ?_⟩
    simp only [timestr, List.length_append, List.length_cons, hour]
    omega

end

section

variable {α : Type} [Glyph α] {stack : Fin 3 → UInt32} {gpsTime : List UInt8} {scan next : Scan α}

theorem timedRound_again (went : round scan = .ok (.again next)) :
    timedRound stack gpsTime scan = .ok (.again next) := by
  unfold timedRound
  rw [went]
  rfl

theorem timedRound_done {gps : Gps α} (ended : round scan = .ok (.done gps)) :
    timedRound stack gpsTime scan =
      (storeTime stack gpsTime scan.entered).map fun time => .done ⟨gps, time⟩ := by
  unfold timedRound
  rw [ended]
  cases storeTime stack gpsTime scan.entered <;> rfl

theorem timedRound_error {fault : Fault} (failed : round scan = .error fault) :
    timedRound stack gpsTime scan = .error fault := by
  unfold timedRound
  rw [failed]
  rfl

theorem timedRound_eq_again (went : timedRound stack gpsTime scan = .ok (.again next)) :
    round scan = .ok (.again next) := by
  cases outcome : round scan with
  | error fault =>
      rw [timedRound_error outcome] at went
      cases went
  | ok outcome' =>
      cases outcome' with
      | again next' =>
          rw [timedRound_again outcome] at went
          rw [Round.again.inj (Except.ok.inj went)]
      | done gps =>
          rw [timedRound_done outcome] at went
          cases stored : storeTime stack gpsTime scan.entered with
          | error fault =>
              rw [stored] at went
              cases went
          | ok time =>
              rw [stored] at went
              cases Except.ok.inj went

theorem timedRound_eq_done {after : Timed α}
    (ended : timedRound stack gpsTime scan = .ok (.done after)) :
    round scan = .ok (.done after.gps) := by
  cases outcome : round scan with
  | error fault =>
      rw [timedRound_error outcome] at ended
      cases ended
  | ok outcome' =>
      cases outcome' with
      | again next' =>
          rw [timedRound_again outcome] at ended
          cases Except.ok.inj ended
      | done gps =>
          rw [timedRound_done outcome] at ended
          cases stored : storeTime stack gpsTime scan.entered with
          | error fault =>
              rw [stored] at ended
              cases ended
          | ok time =>
              rw [stored] at ended
              obtain rfl := Round.done.inj (Except.ok.inj ended)
              rfl

theorem shrinks_timedRound :
    Shrinks (timedRound stack gpsTime : Scan α → _) (fun scan => scan.buf.length) Fault.read where
  smaller := fun scan next went =>
    shrinks_round.smaller scan next (timedRound_eq_again went)
  empty := fun scan empty => timedRound_error (shrinks_round.empty scan empty)

/-- The time apart, a line is read as without it. -/
theorem timedScanning_gps {after : Timed α} (done : timedScanning stack gpsTime scan = .ok after) :
    scanning scan = .ok after.gps :=
  loop_refines (fun _ _ => timedRound_eq_again) (fun _ _ => timedRound_eq_done) done

/-- The rounds that go on are the same with the time. -/
theorem reaches_timed (reached : Reaches round scan next) :
    Reaches (timedRound stack gpsTime) scan next := by
  induction reached with
  | start => exact .start
  | again _ went ih => exact .again ih (timedRound_again went)

theorem timedScanning_reached (reached : Reaches round scan next) :
    timedScanning stack gpsTime scan = timedScanning stack gpsTime next :=
  (reaches_timed reached).loop_eq shrinks_timedRound

/-- The last round, with the state behind its test for a comma. -/
theorem EndsAt.entered {asterisk : α} {after : List α} (ends : byte asterisk = ascii '*')
    (endsAt : EndsAt asterisk after scan next) :
    round next = atCharacter next.entered ∧ next.entered.buf = asterisk :: after ∧
      next.entered.locals = scan.locals ∧ next.entered.command = scan.command ∧
      next.entered.gps = scan.gps := by
  rcases endsAt.here with here | ⟨comma, here, delimiter⟩
  · have other : byte asterisk ≠ ascii ',' := by
      rw [ends]
      decide
    have entered : next.entered = next := by
      unfold Scan.entered
      rw [here]
      exact if_neg fun same => other (Option.some.inj same)
    have read : round next = atCharacter next := by
      unfold round
      rw [here]
      change (if byte asterisk = 0 then _ else if byte asterisk = ascii ',' then _ else _) = _
      rw [if_neg (by rw [ends]; decide), if_neg other]
    rw [entered]
    exact ⟨read, here, endsAt.locals, endsAt.command, endsAt.gps⟩
  · have entered : next.entered = next.comma := by
      unfold Scan.entered
      rw [here]
      exact if_pos (congrArg some delimiter)
    have opened : round next = atCharacter next.comma := by
      unfold round
      rw [here]
      change (if byte comma = 0 then _ else if byte comma = ascii ',' then _ else _) = _
      rw [if_neg (by rw [delimiter]; decide), if_pos delimiter]
    have behind : next.comma.buf = asterisk :: after := by
      rw [Scan.comma, here]
      rfl
    rw [entered]
    exact ⟨opened, behind, endsAt.locals, endsAt.command, endsAt.gps⟩

/-- At the asterisk the time is stored with the other values. -/
theorem EndsAt.timed {asterisk : α} {after : List α} {gps : Gps α}
    (ends : byte asterisk = ascii '*') (endsAt : EndsAt asterisk after scan next)
    (stored : store scan = .ok gps) :
    timedScanning stack gpsTime scan =
      (storeTime stack gpsTime { scan with buf := asterisk :: after }).map
        fun time => ⟨gps, time⟩ := by
  obtain ⟨opened, here, locals, command, same⟩ := endsAt.entered ends
  have ended : round next = .ok (.done gps) := by
    rw [opened]
    refine bind_eq_ok.mpr ⟨asterisk, peek_eq_ok.mpr ⟨after, here⟩, ?_⟩
    rw [if_pos ends, store_congr locals command same]
    exact bind_eq_ok.mpr ⟨gps, stored, rfl⟩
  have time : storeTime stack gpsTime next.entered =
      storeTime stack gpsTime { scan with buf := asterisk :: after } := by
    unfold storeTime
    rw [here, locals, command, same]
  have outcome := @timedRound_done _ _ stack gpsTime next gps ended
  rw [timedScanning_reached endsAt.reached]
  rw [time] at outcome
  cases stored : storeTime stack gpsTime { scan with buf := asterisk :: after } with
  | error fault =>
      rw [stored] at outcome
      exact loop_error shrinks_timedRound outcome
  | ok time =>
      rw [stored] at outcome
      exact loop_done shrinks_timedRound outcome

/-- The bytes of what is known, with the time. -/
def Timed.erase (timed : Timed α) : Timed UInt8 := ⟨timed.gps.erase, timed.gpsTime⟩

theorem head_erase (symbols : List α) :
    (Provenance.erase symbols).head?.map byte = symbols.head?.map byte := by
  cases symbols <;> rfl

theorem entered_erase (scan : Scan α) : scan.erase.entered = scan.entered.erase := by
  have head : (scan.erase.buf.head?.map byte) = scan.buf.head?.map byte := head_erase scan.buf
  unfold Scan.entered
  rw [head]
  split
  · simp only [Scan.comma, Scan.erase, erase_tail]
  · rfl

theorem storeTime_erase (stack : Fin 3 → UInt32) (gpsTime : List UInt8) (scan : Scan α) :
    storeTime stack gpsTime scan.erase = storeTime stack gpsTime scan := by
  have head : (scan.erase.buf.head?.map byte) = scan.buf.head?.map byte := head_erase scan.buf
  have command : scan.erase.command = scan.command := rfl
  have flag : scan.erase.gps.flagGPGGA = scan.gps.flagGPGGA := rfl
  have time : cstring (scan.erase.locals .time) =
      (cstring (scan.locals .time)).map Provenance.erase := cstring_erase _
  unfold storeTime
  rw [head, command, flag, time]
  cases cstring (scan.locals .time) with
  | error fault => rfl
  | ok text =>
      have same : Provenance.erase (Provenance.erase text) = Provenance.erase text := List.map_id _
      simp only [Except.map, bind, Except.bind, same]

/-- On marked characters, `print_gpsinfo` does what it does on their bytes, the time included. -/
theorem printGpsinfoTimed_erase (stack : Fin 3 → UInt32) (line : List α) (before : Timed α) :
    printGpsinfoTimed stack (Provenance.erase line) before.erase =
      (printGpsinfoTimed stack line before).map Timed.erase := by
  have rounds : ∀ scan : Scan α, timedRound stack before.gpsTime scan.erase =
      (timedRound stack before.gpsTime scan).map (Round.map Scan.erase Timed.erase) := by
    intro scan
    have same := round_erase scan
    cases outcome : round scan with
    | error fault =>
        rw [outcome] at same
        rw [timedRound_error outcome, timedRound_error same]
        rfl
    | ok result =>
        rw [outcome] at same
        cases result with
        | again next =>
            rw [timedRound_again outcome, timedRound_again same]
            rfl
        | done gps =>
            have left := @timedRound_done _ _ stack before.gpsTime _ _ same
            rw [entered_erase, storeTime_erase] at left
            rw [left, timedRound_done outcome]
            cases storeTime stack before.gpsTime scan.entered <;> rfl
  have text : behindDollar (Provenance.erase line) =
      (behindDollar line).map Provenance.erase := by
    have whole : Provenance.erase line ++ [literal 0] =
        Provenance.erase (line ++ [(literal 0 : α)]) := by
      simp only [Provenance.erase, List.map_append, List.map_cons, List.map_nil, byte_literal,
        literal_id]
    unfold behindDollar
    dsimp only
    rw [whole, head_erase, ← erase_tail]
    split <;> (rw [head_erase, ← erase_tail]; split <;> rfl)
  unfold printGpsinfoTimed
  rw [text]
  cases behindDollar line with
  | none => rfl
  | some buf =>
      have start : Scan.start (Provenance.erase buf) before.erase.gps =
          (Scan.start buf before.gps).erase := by
        refine congrArg (fun locals => Scan.mk _ _ _ _ locals _) ?_
        funext slot
        simp only [Scan.start, Provenance.erase, List.map_replicate, byte_literal, literal_id]
      have sizes : ∀ scan : Scan α, scan.erase.buf.length = scan.buf.length := fun scan =>
        erase_length scan.buf
      rw [Option.map_some, Option.elim_some, Option.elim_some, start]
      refine loop_map ?_ rounds (Scan.start buf before.gps)
      exact sizes

end

end Trunk.Rgps
