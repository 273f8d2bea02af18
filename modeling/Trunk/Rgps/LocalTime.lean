import Trunk.Foundation.Calendar
import Trunk.Rgps.Stored

/-! # The time that is reported

`gps_report`, behind the lines of a fix: the time is that of the `$GPGGA` sentence, eight hours
later, and the date is that of the `$GPRMC` sentence.
-/

namespace Trunk.Rgps

open CString Provenance Provenance.Glyph Loop Run Calendar

/-- The bytes of a line, without the terminator. -/
def Sentence.bytes (sentence : Sentence) (name : String) (count : Nat) : List UInt8 :=
  erase (sentence.line name count)

/-- The bytes of a line from a field on, with the terminator. -/
def Sentence.text (sentence : Sentence) (count first : Nat) : List UInt8 :=
  erase (sentence.rest count first)

section

variable {sentence : Sentence} {count first : Nat}

theorem Sentence.text_eq (inside : first ≤ count) : sentence.text count first =
    ascii ',' :: (sentence.field first ++ sentence.text count (first + 1)) := by
  rw [text, Sentence.rest_eq inside, erase_cons, erase_append, erase_mark]
  rfl

theorem Sentence.commas_text (sentence : Sentence) (count first : Nat) :
    commas (sentence.text count first) = count + 1 - first := by
  have same : commas (sentence.text count first) =
      (sentence.rest count first).countP (fun c => byte c = ascii ',') := by
    rw [commas, text, erase, List.countP_map]
    rfl
  have behind : (asterisk :: sentence.behind).countP (fun c : Mark => byte c = ascii ',') = 0 := by
    refine List.countP_eq_zero.mpr fun c member => ?_
    rw [decide_eq_true_eq]
    rcases List.mem_cons.mp member with rfl | member
    · decide
    · rcases List.mem_append.mp member with member | member
      · obtain ⟨value, listed, rfl⟩ := List.mem_map.mp member
        exact (sentence.checksum_plain value listed).2
      · obtain rfl := List.mem_singleton.mp member
        decide
  rw [same, Sentence.rest, List.countP_append, Sentence.countP_fields, behind, Nat.add_zero]

/-- What is behind the dollar sign of a sentence. -/
theorem behindDollar_bytes (sentence : Sentence) (letters : List Char) (count : Nat) (name : String)
    (named : name.toList = '$' :: letters) :
    behindDollar (sentence.bytes name count) =
      some (letters.map ascii ++ sentence.text count 1) := by
  have whole : sentence.bytes name count ++ [literal 0] =
      ascii '$' :: (letters.map ascii ++ sentence.text count 1) := by
    rw [Sentence.bytes, Sentence.line, Sentence.text, Sentence.rest, Sentence.behind, named]
    simp only [erase, List.map_cons, List.map_append, List.map_map, List.cons_append,
      List.append_assoc, Nat.add_sub_cancel, literal_id]
    rfl
  unfold behindDollar
  rw [whole]
  rfl

end

/-- A decimal digit. -/
def digitByte (value : Nat) : UInt8 := ascii '0' + UInt8.ofNat value

/-- A number of two digits. -/
def pair (value : Nat) : List UInt8 := [digitByte (value / 10), digitByte (value % 10)]

/-- A moment: `yyyy-mm-dd-hh:mm:ss`. -/
def momentText (moment : Moment) : List UInt8 :=
  pair (moment.date.year / 100) ++ pair (moment.date.year % 100) ++
    ascii '-' :: pair moment.date.month ++ ascii '-' :: pair moment.date.day ++
    ascii '-' :: pair moment.hour ++ ascii ':' :: pair moment.minute ++
    ascii ':' :: pair moment.second

/-- The time of a `$GPGGA` sentence: `hhmmss`. -/
def utcTime (moment : Moment) : List UInt8 :=
  pair moment.hour ++ pair moment.minute ++ pair moment.second

/-- The date of a `$GPRMC` sentence: `ddmmyy`. -/
def utcDate (moment : Moment) : List UInt8 :=
  pair moment.date.day ++ pair moment.date.month ++ pair (moment.date.year % 100)

/-- A time as `print_timestr` gets it. -/
def timeText (hour minute second : Nat) : List UInt8 :=
  pair hour ++ ascii ':' :: pair minute ++ ascii ':' :: pair second

theorem digitByte_plain {value : Nat} (small : value < 10) :
    Plain (digitByte value) ∧ digitByte value ≠ ascii ':' := by
  have all : ∀ value < 10, (digitByte value ≠ 0 ∧ digitByte value ≠ ascii ',' ∧
      digitByte value ≠ ascii '*') ∧ digitByte value ≠ ascii ':' := by decide +kernel
  exact all value small

theorem pair_plain {value : Nat} (small : value < 100) :
    ∀ c ∈ pair value, Plain c ∧ c ≠ ascii ':' := by
  intro c member
  rcases List.mem_pair.mp member with rfl | rfl
  · exact digitByte_plain (Nat.div_lt_of_lt_mul small)
  · exact digitByte_plain (Nat.mod_lt _ (by decide))

theorem pair_injective {first second : Nat} (small : first < 100) (small' : second < 100)
    (same : pair first = pair second) : first = second := by
  have digits : ∀ value < 10, ∀ value' < 10, digitByte value = digitByte value' → value = value' := by
    decide +kernel
  have head := digits _ (Nat.div_lt_of_lt_mul small) _ (Nat.div_lt_of_lt_mul small')
    (List.cons.inj same).1
  have last := digits _ (Nat.mod_lt first (by decide)) _ (Nat.mod_lt second (by decide))
    (List.cons.inj (List.cons.inj same).2).1
  omega

namespace Reading

variable {flags : Flags} {bytes c : UInt8} {time : List UInt8}

/-- A character of the time. -/
theorem step_time (compared : Compared) (plain : Plain c) (looked : compared ≠ .nothing) :
    step flags (.inside compared ⟨1, bytes, .gga, time⟩) c =
      (Place.keepTime ⟨1, bytes, .gga, time⟩ c).next := by
  cases compared with
  | all => exact (if_neg plain.1).trans ((if_neg plain.2.1).trans (if_neg plain.2.2))
  | asterisk => exact if_neg plain.2.2
  | nothing => exact absurd rfl looked

/-- The six digits of the time. -/
theorem run_time {a b c d e f : UInt8} (plain : ∀ digit ∈ [a, b, c, d, e, f], Plain digit) :
    run (step flags) (.inside .asterisk ⟨1, 0, .gga, blank .time⟩) [a, b, c, d, e, f] =
      .inside .all ⟨1, 8, .gga, [a, b, ascii ':', c, d, ascii ':', e, f, 0]⟩ := by
  simp only [List.forall_mem_cons, List.not_mem_nil, false_implies, implies_true, and_true] at plain
  obtain ⟨first, second, third, fourth, fifth, sixth⟩ := plain
  rw [run_cons, step_time .asterisk first nofun]
  change run _ (Reading.inside .all ⟨1, 1, .gga, [a, 0, 0, 0, 0, 0, 0, 0, 0]⟩) _ = _
  rw [run_cons, step_time .all second nofun]
  change run _ (Reading.inside .all ⟨1, 2, .gga, [a, b, 0, 0, 0, 0, 0, 0, 0]⟩) _ = _
  rw [run_cons, step_time .all third nofun]
  change run _ (Reading.inside .all ⟨1, 4, .gga, [a, b, ascii ':', c, 0, 0, 0, 0, 0]⟩) _ = _
  rw [run_cons, step_time .all fourth nofun]
  change run _ (Reading.inside .all ⟨1, 5, .gga, [a, b, ascii ':', c, d, 0, 0, 0, 0]⟩) _ = _
  rw [run_cons, step_time .all fifth nofun]
  change run _ (Reading.inside .all ⟨1, 7, .gga, [a, b, ascii ':', c, d, ascii ':', e, 0, 0]⟩) _ = _
  rw [run_cons, step_time .all sixth nofun]
  rfl

/-- What follows the seconds is not kept, as long as the counter does not come round. -/
theorem run_fraction {text : List UInt8} (plain : ∀ c ∈ text, Plain c) (late : 8 ≤ bytes.toNat)
    (few : bytes.toNat + text.length ≤ 255) (ended : time.set 8 0 = time) :
    ∃ bytes', run (step flags) (.inside .all ⟨1, bytes, .gga, time⟩) text =
      .inside .all ⟨1, bytes', .gga, time⟩ := by
  induction text generalizing bytes with
  | nil => exact ⟨bytes, rfl⟩
  | cons c text ih =>
      rw [List.length_cons] at few
      have next : (bytes + 1).toNat = bytes.toNat + 1 := toNat_succ (by omega)
      have kept : Place.keepTime ⟨1, bytes, .gga, time⟩ c = ⟨1, bytes, .gga, time⟩ := by
        have apart : ∀ value : UInt8, value.toNat < 8 → bytes ≠ value := by
          rintro value small rfl
          omega
        have above : ¬ bytes < 8 := fun below =>
          Nat.not_lt_of_le late (UInt8.lt_iff_toNat_lt.mp below)
        unfold Place.keepTime
        dsimp only
        rw [if_neg (not_or.mpr ⟨apart 2 (by decide), apart 5 (by decide)⟩), if_neg above]
        split
        · rename_i eighth
          rw [eighth]
          exact congrArg (Place.mk 1 8 .gga) ended
        · rfl
      rw [run_cons, step_time .all (plain c (List.mem_cons_self ..)) nofun, kept]
      change ∃ bytes', run _ (Reading.inside .all ⟨1, bytes + 1, .gga, time⟩) text = _
      exact ih (fun other member => plain other (List.mem_cons_of_mem c member)) (by omega)
        (by omega)

end Reading

/-- The hour that `print_timestr` makes of an hour. -/
def localHour (hour : Nat) : Nat := if 24 < hour + 8 then hour + 8 - 24 else hour + 8

theorem strtok_plain {delimiter : UInt8} {text : List UInt8} (plain : delimiter ∉ text)
    (nonempty : text ≠ []) : strtok delimiter text = [text] := by
  unfold strtok
  rw [List.splitOn_eq_singleton plain]
  exact List.filter_cons_of_pos (by simpa using nonempty)

theorem strtok_pair {value : Nat} (small : value < 100) :
    strtok (ascii ':') (pair value) = [pair value] :=
  strtok_plain (fun member => (pair_plain small _ member).2 rfl) (List.cons_ne_nil _ _)

/-- The words of a time, and what is printed of them. -/
theorem timestr_timeText {hour minute second : Nat} (inDay : hour < 24) (inHour : minute < 60)
    (inMinute : second < 60) (stack : Fin 3 → UInt32) :
    timestr stack (timeText hour minute second) = timeText (localHour hour) minute second := by
  have number : ∀ value < 100, strtoulDecimalFront 32 (pair value) = value := by decide +kernel
  have printed : ∀ value < 100, twoDigits (asInt (UInt32.ofNat value)) = pair value := by
    decide +kernel
  have printed' : ∀ hour < 24, twoDigits (asInt (laterHour (UInt32.ofNat hour))) =
      pair (localHour hour) := by decide +kernel
  have tokens : strtok (ascii ':') (timeText hour minute second) =
      [pair hour, pair minute, pair second] := by
    rw [timeText, List.append_assoc, List.cons_append, strtok_append_cons, strtok_append_cons,
      strtok_pair (by omega), strtok_pair (by omega), strtok_pair (by omega)]
    rfl
  have word : ∀ (index : Fin 3) (value : Nat), value < 100 →
      [pair hour, pair minute, pair second][index.val]? = some (pair value) →
      tmInt stack [pair hour, pair minute, pair second] index = UInt32.ofNat value := by
    intro index value small found
    rw [tmInt, found, Option.elim_some, number value small]
  unfold timestr
  rw [tokens]
  dsimp only
  rw [word 0 hour (by omega) rfl, word 1 minute (by omega) rfl, word 2 second (by omega) rfl,
    printed' hour inDay, printed minute (by omega), printed second (by omega)]
  rfl

theorem length_timeText (hour minute second : Nat) : (timeText hour minute second).length = 8 := rfl

theorem printTimestr_timeText {hour minute second : Nat} (inDay : hour < 24) (inHour : minute < 60)
    (inMinute : second < 60) (stack : Fin 3 → UInt32) :
    printTimestr stack (timeText hour minute second) =
      .ok (timeText (localHour hour) minute second) := by
  rw [printTimestr, timestr_timeText inDay inHour inMinute]
  exact if_pos (by rw [length_timeText]; decide)

/-- What is in `GPS_time` behind the six digits. -/
def timeBuffer (moment : Moment) : List UInt8 :=
  timeText moment.hour moment.minute moment.second ++ [0]

theorem timeBuffer_string (moment : Moment) :
    (timeBuffer moment).takeWhile (· ≠ 0) =
      timeText moment.hour moment.minute moment.second := by
  have nonzero : ∀ c ∈ timeText moment.hour moment.minute moment.second, c ≠ 0 := by
    have bounds := moment.hour_lt
    have bounds' := moment.minute_lt
    have bounds'' := moment.second_lt
    have digits : ∀ value < 100, ∀ c ∈ pair value, c ≠ 0 := fun value small c member =>
      (pair_plain small c member).1.1
    simp only [timeText, List.forall_mem_append, List.forall_mem_cons]
    refine ⟨⟨digits _ (by omega), by decide, digits _ (by omega)⟩, by decide, digits _ (by omega)⟩
  unfold timeBuffer
  rw [List.takeWhile_append_of_pos (by simpa using nonzero)]
  rw [List.takeWhile_cons_of_neg (by decide), List.append_nil]

/-- The reading of a `$GPGGA` sentence up to the comma behind the time. -/
theorem run_gga {flags : Flags} (clear : flags.gga = false) {moment : Moment}
    {fraction : List UInt8} (plain : ∀ c ∈ fraction, Plain c) (short : fraction.length ≤ 247) :
    ∃ bytes, run (Reading.step flags) (.inside .all ⟨0, 0, .none, blank .time⟩)
        ("GPGGA".toList.map ascii ++ ascii ',' :: (utcTime moment ++ fraction)) =
      .inside .all ⟨1, bytes, .gga, timeBuffer moment⟩ := by
  have bounds := moment.hour_lt
  have bounds' := moment.minute_lt
  have bounds'' := moment.second_lt
  have digits : ∀ c ∈ utcTime moment, Plain c := by
    have pairs : ∀ value < 100, ∀ c ∈ pair value, Plain c := fun value small c member =>
      (pair_plain small c member).1
    simp only [utcTime, List.forall_mem_append]
    exact ⟨⟨pairs _ (by omega), pairs _ (by omega)⟩, pairs _ (by omega)⟩
  have name : run (Reading.step flags) (.inside .all ⟨0, 0, .none, blank .time⟩)
      ("GPGGA".toList.map ascii ++ [ascii ',']) =
        .inside .asterisk ⟨1, 0, .gga, blank .time⟩ := by
    cases flags with
    | mk gga rmc =>
        obtain rfl : gga = false := clear
        rfl
  have time := @Reading.run_time flags _ _ _ _ _ _ digits
  obtain ⟨bytes, rest⟩ := @Reading.run_fraction flags 8 (timeBuffer moment) fraction plain
    (by decide) (by change 8 + _ ≤ 255; omega) rfl
  refine ⟨bytes, ?_⟩
  have split : "GPGGA".toList.map ascii ++ ascii ',' :: (utcTime moment ++ fraction) =
      ("GPGGA".toList.map ascii ++ [ascii ',']) ++ (utcTime moment ++ fraction) := by
    rw [List.append_assoc]
    rfl
  rw [split, run_append, name, run_append]
  refine Eq.trans ?_ rest
  exact congrArg (fun reading => run _ reading fraction) time

/-- The flag of `$GPGGA` is only set where such a sentence is stored. -/
theorem store_gga {scan : Scan UInt8} {gps : Gps UInt8} (stored : store scan = .ok gps)
    (clear : scan.gps.flagGPGGA = false) (set : gps.flagGPGGA = true) : scan.command = .gga := by
  cases command : scan.command with
  | gga => rfl
  | rmc =>
      unfold store at stored
      rw [command] at stored
      dsimp only at stored
      split at stored
      · obtain rfl := Except.ok.inj stored
        rw [clear] at set
        cases set
      · obtain ⟨speed, _, stored⟩ := bind_eq_ok.mp stored
        obtain ⟨velocity, _, stored⟩ := bind_eq_ok.mp stored
        obtain ⟨date, _, stored⟩ := bind_eq_ok.mp stored
        obtain ⟨written, _, stored⟩ := bind_eq_ok.mp stored
        obtain ⟨direction, _, stored⟩ := bind_eq_ok.mp stored
        obtain ⟨orientation, _, stored⟩ := bind_eq_ok.mp stored
        obtain rfl := Except.ok.inj stored
        rw [show scan.gps.flagGPGGA = true from set] at clear
        cases clear
  | none =>
      unfold store at stored
      rw [command] at stored
      obtain rfl := Except.ok.inj stored
      rw [clear] at set
      cases set

/-- A line in which the first asterisk comes behind a text and a comma. -/
theorem split_at_asterisk {front more text rest : List UInt8} (plain : ascii '*' ∉ front)
    (same : front ++ ascii ',' :: more = text ++ ascii '*' :: rest) :
    ∃ between, text = front ++ ascii ',' :: between ∧ more = between ++ ascii '*' :: rest := by
  rcases List.append_eq_append_iff.mp same with ⟨middle, rfl, back⟩ | ⟨middle, rfl, back⟩
  · cases middle with
    | nil => exact absurd (List.cons.inj back).1 (by decide)
    | cons c middle =>
        obtain ⟨rfl, rfl⟩ := List.cons.inj back
        exact ⟨middle, rfl, rfl⟩
  · cases middle with
    | nil => exact absurd (List.cons.inj back).1 (by decide)
    | cons c middle =>
        obtain ⟨rfl, -⟩ := List.cons.inj back
        exact absurd (List.mem_append_right text (List.mem_cons_self ..)) plain

section

variable {stack : Fin 3 → UInt32} {before after : Timed UInt8} {sentence : Sentence}

/-- The time that a `$GPGGA` sentence stores, if it is taken. -/
theorem gga_time {moment : Moment} {fraction : List UInt8}
    (field : sentence.field 1 = utcTime moment ++ fraction) (short : fraction.length ≤ 247)
    (clear : before.gps.flagGPGGA = false) (set : after.gps.flagGPGGA = true)
    (done : printGpsinfoTimed stack (sentence.bytes "$GPGGA" 14) before = .ok after) :
    after.gpsTime = timeText (localHour moment.hour) moment.minute moment.second := by
  have start := behindDollar_bytes sentence "GPGGA".toList 14 "$GPGGA" rfl
  have plain : ∀ c ∈ utcTime moment ++ fraction, Plain c := by
    intro c member
    exact sentence.field_plain 1 c (field ▸ member)
  rw [printGpsinfoTimed, start, Option.elim_some] at done
  have ends := timed_ends (boxed_start _ _) done
  have line : (Scan.start ("GPGGA".toList.map ascii ++ sentence.text 14 1) before.gps).buf =
      ("GPGGA".toList.map ascii ++ ascii ',' :: (utcTime moment ++ fraction)) ++
        ascii ',' :: (sentence.field 2 ++ sentence.text 14 3) := by
    rw [← field, ← Sentence.text_eq (by decide), List.append_assoc, List.cons_append,
      ← Sentence.text_eq (by decide)]
    rfl
  cases ends with
  | kept flags date time =>
      have same : after.gps.flagGPGGA = before.gps.flagGPGGA := congrArg Flags.gga flags
      rw [clear, set] at same
      cases same
  | @stored text rest compared last buf reading flags date boxed here gps time =>
      have clear' : last.gps.flagGPGGA = false :=
        (congrArg Flags.gga flags : last.gps.flagGPGGA = before.gps.flagGPGGA).trans clear
      have command := store_gga gps clear' set
      have unmarked : ascii '*' ∉
          "GPGGA".toList.map ascii ++ ascii ',' :: (utcTime moment ++ fraction) := by
        intro member
        rcases List.mem_append.mp member with member | member
        · exact absurd member (by decide)
        · rcases List.mem_cons.mp member with comma | member
          · exact absurd comma (by decide)
          · exact (plain _ member).2.2 rfl
      obtain ⟨between, rfl, more⟩ := split_at_asterisk unmarked (line.symm.trans buf)
      obtain ⟨bytes, first⟩ := @run_gga before.gps.flags clear moment fraction
        (fun c member => plain c (List.mem_append_right _ member)) short
      have few : commas between ≤ 13 := by
        have total := Sentence.commas_text sentence 14 2
        rw [Sentence.text_eq (by decide), commas_cons, more, commas_append, if_pos rfl] at total
        omega
      have late := @Reading.late_run before.gps.flags .asterisk ⟨2, 0, .gga, timeBuffer moment⟩
        between (Nat.le_refl 2) (by change 2 + _ ≤ 255; omega)
      have path : run (Reading.step before.gps.flags) (.inside .asterisk
          ⟨2, 0, .gga, timeBuffer moment⟩) between = .inside compared last.place := by
        rw [← reading, run_append]
        exact congrArg (fun reading => run _ reading (ascii ',' :: between)) first.symm
      rw [path] at late
      have kept : last.locals .time = timeBuffer moment := by
        cases late with
        | inside time above below => exact time
      have string : cstring (last.locals .time) =
          .ok (timeText moment.hour moment.minute moment.second) := by
        rw [kept, ← timeBuffer_string moment, ← kept]
        exact (boxed.ended .time).cstring
      have head : (last.buf.head?.map byte) = some (ascii '*') := by
        rw [here]
        rfl
      unfold storeTime at time
      rw [if_pos ⟨head, command, clear'⟩, string] at time
      simp only [bind, Except.bind] at time
      rw [erase_self, printTimestr_timeText moment.hour_lt moment.minute_lt
        moment.second_lt] at time
      exact (Except.ok.inj time).symm

end

/-- The day as it is reported. -/
def dateText (moment : Moment) : List UInt8 :=
  pair 20 ++ pair (moment.date.year % 100) ++ ascii '-' :: pair moment.date.month ++
    ascii '-' :: pair moment.date.day

/-- `GPS_date` behind the six digits. -/
def dateBuffer (moment : Moment) : List UInt8 :=
  pair (moment.date.year % 100) ++ ascii '-' :: pair moment.date.month ++
    ascii '-' :: pair moment.date.day ++ [0]

/-- The loop is at the comma in front of a field of a `$GPRMC` sentence, and has not come to the
date. -/
structure Undated (sentence : Sentence) (gps : Gps UInt8) (index : Nat) (scan : Scan UInt8) :
    Prop where
  buf : scan.buf = sentence.text 12 index
  segment : scan.segment.toNat + 1 = index
  command : scan.command = .rmc
  gps : scan.gps = gps
  ended : ∀ slot, Ended slot.size slot.last (scan.locals slot)
  date : scan.locals .date = blank .date

section

variable {sentence : Sentence} {gps : Gps UInt8} {index : Nat} {scan : Scan UInt8}

theorem scanning_again {next : Scan UInt8} (went : round scan = .ok (.again next)) :
    scanning scan = scanning next :=
  loop_again shrinks_round went

/-- The name of the sentence is read. -/
theorem undated_start (sentence : Sentence) (clear : gps.flagGPRMC = false) :
    ∃ scan, Undated sentence gps 1 scan ∧
      scanning (.start ("GPRMC".toList.map ascii ++ sentence.text 12 1) gps) = scanning scan := by
  have blank : ∀ slot : Local, Ended slot.size slot.last (blank slot : List UInt8) := by
    intro slot
    refine ended_blank ?_
    cases slot <;> decide
  refine ⟨{ Scan.start (sentence.text 12 1) gps with bytes := 5, command := .rmc },
    ⟨rfl, rfl, rfl, rfl, blank, rfl⟩, ?_⟩
  cases gps with
  | mk east north lng lat date velocity orientation elevation satellite gga rmc =>
      obtain rfl : rmc = false := clear
      refine (scanning_again rfl).trans ?_
      refine (scanning_again rfl).trans ?_
      refine (scanning_again rfl).trans ?_
      refine (scanning_again rfl).trans ?_
      exact (scanning_again rfl).trans rfl

/-- The comma in front of a field opens its segment. -/
theorem Undated.opened (undated : Undated sentence gps index scan) (inside : index ≤ 12) :
    scanning scan = resume { scan.comma with
        buf := sentence.field index ++ sentence.text 12 (index + 1) } ∧
      scan.comma.segment.toNat = index := by
  have line := undated.buf.trans (Sentence.text_eq inside)
  have segment := undated.segment
  refine ⟨(scanning_comma line rfl).trans ?_, ?_⟩
  · unfold Scan.comma
    rw [line]
    rfl
  · change (scan.segment + 1).toNat = index
    rw [toNat_succ (by omega)]
    exact segment

theorem plain_of_mem {c : UInt8} (member : c ∈ sentence.field index) : Plain c :=
  sentence.field_plain index c member

/-- A field is passed that fills no buffer. -/
theorem Undated.pass (undated : Undated sentence gps index scan) (inside : index ≤ 12)
    (nonempty : sentence.field index ≠ [])
    (still : ∀ next : Scan UInt8, next.segment.toNat = index → next.command = .rmc →
      ∀ c ∈ sentence.field index, segmentCase next c = .ok (.on next)) :
    ∃ next, scanning scan = scanning next ∧ Undated sentence gps (index + 1) next := by
  obtain ⟨opens, segment⟩ := undated.opened inside
  obtain ⟨bytes, passed⟩ := @resume_pass _ _ (fun gps _ => gps) (sentence.field index) scan.comma
    (sentence.text 12 (index + 1)) nonempty
    (fun c member => (plain_of_mem (List.mem_of_head? member)).2.2)
    (fun c member => plain_of_mem (List.mem_of_mem_tail member))
    (fun next beside c member => still next (beside.1 ▸ segment)
      (beside.2.trans undated.command) c member)
  refine ⟨_, opens.trans passed, rfl, congrArg (· + 1) segment, undated.command, ?_,
    undated.ended, undated.date⟩
  refine Eq.trans ?_ undated.gps
  exact List.foldl_fixed (sentence.field index)

/-- A field is passed that fills a buffer other than the date. -/
theorem Undated.fill (undated : Undated sentence gps index scan) (inside : index ≤ 12)
    (nonempty : sentence.field index ≠ []) {slot : Local} (other : slot ≠ .date)
    {write : Writer UInt8} (rewrites : Rewrites write) (keeps : Keeps slot.size slot.last write)
    (here : ∀ next : Scan UInt8, next.segment.toNat = index → next.command = .rmc →
      ∀ c ∈ sentence.field index, segmentCase next c = Rgps.fill next slot (atBuf write)) :
    ∃ next, scanning scan = scanning next ∧ Undated sentence gps (index + 1) next := by
  obtain ⟨opens, segment⟩ := undated.opened inside
  obtain ⟨buffer, read, ended⟩ := fillAll_keeps rewrites keeps scan.comma.bytes
    (sentence.field index) (undated.ended slot)
  obtain ⟨bytes, passed⟩ := @resume_fill _ _ _ (fills_atBuf rewrites) slot (sentence.field index)
    buffer scan.comma (sentence.text 12 (index + 1)) nonempty
    (fun c member => (plain_of_mem (List.mem_of_head? member)).2.2)
    (fun c member => plain_of_mem (List.mem_of_mem_tail member))
    (fun next beside c member => here next (beside.1 ▸ segment)
      (beside.2.trans undated.command) c member) read
  refine ⟨_, opens.trans passed, rfl, congrArg (· + 1) segment, undated.command, undated.gps,
    fun slot' => ?_, ?_⟩
  · by_cases same : slot' = slot
    · subst same
      dsimp only
      rw [Function.update_self]
      exact ended
    · dsimp only
      rw [Function.update_of_ne same]
      exact undated.ended slot'
  · dsimp only
    rw [Function.update_of_ne (Ne.symm other)]
    exact undated.date

/-- The fields up to the speed are passed, if the sentence is taken. -/
theorem undated_course (sentence : Sentence)
    (filled : ∀ index, 1 ≤ index → index ≤ 7 → sentence.field index ≠ [])
    (clear : gps.flagGPRMC = false) {after : Gps UInt8} (set : after.flagGPRMC = true)
    (done : scanning (.start ("GPRMC".toList.map ascii ++ sentence.text 12 1) gps) = .ok after) :
    ∃ scan, Undated sentence gps 8 scan ∧ scanning scan = .ok after := by
  obtain ⟨first, undated, start⟩ := undated_start sentence clear
  obtain ⟨second, passed, undated⟩ := undated.pass (by decide) (filled 1 (by decide) (by decide))
    fun next segment command c _ => segmentCase_rmc next command (.inl segment) c
  have status : ∀ next : Scan UInt8, next.segment.toNat = 2 → next.command = .rmc →
      ∀ c ∈ sentence.field 2,
        segmentCase next c = .ok (if (c ≠ ascii 'A' : Bool) then .stop else .on next) := by
    intro next segment command c _
    unfold segmentCase
    rw [segment, command]
    by_cases active : c = ascii 'A' <;> simp [active]
  by_cases active : ∀ c ∈ sentence.field 2, c = ascii 'A'
  · obtain ⟨third, passedStatus, undated⟩ := undated.pass (by decide)
      (filled 2 (by decide) (by decide)) fun next segment command c member => by
        rw [status next segment command c member, active c member]
        rfl
    obtain ⟨fourth, passedWd, undated⟩ := undated.pass (by decide)
      (filled 3 (by decide) (by decide))
      fun next segment command c _ => segmentCase_rmc next command (.inr (.inl segment)) c
    obtain ⟨fifth, passedNorth, undated⟩ := undated.pass (by decide)
      (filled 4 (by decide) (by decide))
      fun next segment command c _ => segmentCase_rmc next command (.inr (.inr (.inl segment))) c
    obtain ⟨sixth, passedJd, undated⟩ := undated.pass (by decide)
      (filled 5 (by decide) (by decide)) fun next segment command c _ =>
        segmentCase_rmc next command (.inr (.inr (.inr (.inl segment)))) c
    obtain ⟨seventh, passedEast, undated⟩ := undated.pass (by decide)
      (filled 6 (by decide) (by decide)) fun next segment command c _ =>
        segmentCase_rmc next command (.inr (.inr (.inr (.inr segment)))) c
    obtain ⟨eighth, passedSpeed, undated⟩ := @Undated.fill sentence gps 7 seventh undated
      (by decide) (filled 7 (by decide) (by decide)) .speed nofun _ (rewrites_putText 5)
      (keeps_putText 5) fun next segment command c _ => by
        unfold segmentCase
        rw [segment, command]
        rfl
    refine ⟨eighth, undated, ?_⟩
    rw [← passedSpeed, ← passedEast, ← passedJd, ← passedNorth, ← passedWd, ← passedStatus,
      ← passed, ← start]
    exact done
  · exfalso
    obtain ⟨c, member, inactive⟩ : ∃ c ∈ sentence.field 2, c ≠ ascii 'A' := by
      simpa using active
    obtain ⟨opens, segment⟩ := undated.opened (by decide)
    have stopped := @resume_stop _ _ (fun c => (c ≠ ascii 'A' : Bool)) (sentence.field 2)
      second.comma (sentence.text 12 3)
      (fun c member => (plain_of_mem (List.mem_of_head? member)).2.2)
      (fun c member => plain_of_mem (List.mem_of_mem_tail member))
      (fun next beside c member => status next (beside.1 ▸ segment)
        (beside.2.trans undated.command) c member)
      ⟨c, member, by simpa using inactive⟩
    rw [start, passed, opens, stopped] at done
    obtain rfl := Except.ok.inj done
    have same : second.comma.gps.flagGPRMC = gps.flagGPRMC := congrArg Gps.flagGPRMC undated.gps
    rw [clear, set] at same
    cases same

/-- The six digits of the date. -/
theorem fillAll_date {a b c d e f : UInt8} :
    fillAll (atBuf putDate) 0 [a, b, c, d, e, f] (blank .date) =
      .ok [e, f, ascii '-', c, d, ascii '-', a, b, 0] := by
  calc fillAll (atBuf putDate) 0 [a, b, c, d, e, f] [0, 0, 0, 0, 0, 0, 0, 0, 0]
      = fillAll (atBuf putDate) 1 [b, c, d, e, f] [0, 0, 0, 0, 0, 0, a, 0, 0] :=
        fillAll_putDate rfl
    _ = fillAll (atBuf putDate) 2 [c, d, e, f] [0, 0, 0, 0, 0, 0, a, b, 0] := fillAll_putDate rfl
    _ = fillAll (atBuf putDate) 3 [d, e, f] [0, 0, 0, c, 0, ascii '-', a, b, 0] :=
        fillAll_putDate rfl
    _ = fillAll (atBuf putDate) 4 [e, f] [0, 0, 0, c, d, ascii '-', a, b, 0] := fillAll_putDate rfl
    _ = fillAll (atBuf putDate) 5 [f] [e, 0, ascii '-', c, d, ascii '-', a, b, 0] :=
        fillAll_putDate rfl
    _ = fillAll (atBuf putDate) 6 [] [e, f, ascii '-', c, d, ascii '-', a, b, 0] :=
        fillAll_putDate rfl
    _ = .ok [e, f, ascii '-', c, d, ascii '-', a, b, 0] :=
        fillAll_nil (fills_atBuf rewrites_putDate) _ _

/-- The date is read. -/
theorem date_segment {moment : Moment} (field : sentence.field 9 = utcDate moment)
    (segment : scan.segment.toNat = 9) (bytes : scan.bytes = 0) (command : scan.command = .rmc)
    (unread : scan.locals .date = blank .date) :
    ∃ next : Scan UInt8,
      resume { scan with buf := sentence.field 9 ++ sentence.text 12 10 } = scanning next ∧
      next.buf = sentence.text 12 10 ∧ next.segment.toNat = 9 ∧ next.command = .rmc ∧
      next.gps = scan.gps ∧ next.locals .date = dateBuffer moment := by
  have read : fillAll (atBuf putDate) scan.bytes (sentence.field 9) (scan.locals .date) =
      .ok (dateBuffer moment) := by
    rw [bytes, unread, field]
    exact fillAll_date
  obtain ⟨bytes', passed⟩ := @resume_fill _ _ _ (fills_atBuf rewrites_putDate) .date
    (sentence.field 9) (dateBuffer moment) scan (sentence.text 12 10) (field ▸ List.cons_ne_nil _ _)
    (fun c member => (plain_of_mem (List.mem_of_head? member)).2.2)
    (fun c member => plain_of_mem (List.mem_of_mem_tail member))
    (fun next beside c _ => by
      unfold segmentCase
      rw [beside.1, beside.2, segment, command]
      rfl) read
  refine ⟨_, passed, rfl, segment, command, rfl, ?_⟩
  dsimp only
  rw [Function.update_self]

/-- The course is passed, also an empty one, and the date is read. -/
theorem Undated.dated (undated : Undated sentence gps 8 scan) {moment : Moment}
    (field : sentence.field 9 = utcDate moment) :
    ∃ next : Scan UInt8, scanning scan = scanning next ∧
      next.buf = sentence.text 12 10 ∧ next.segment.toNat = 9 ∧ next.command = .rmc ∧
      next.gps = gps ∧ next.locals .date = dateBuffer moment := by
  obtain ⟨digit, others, digits⟩ : ∃ digit others, sentence.field 9 = digit :: others :=
    ⟨_, _, field⟩
  have plain : Plain digit := plain_of_mem (digits ▸ List.mem_cons_self ..)
  by_cases empty : sentence.field 8 = []
  · obtain ⟨opens, segment⟩ := undated.opened (by decide)
    rw [empty, List.nil_append, Sentence.text_eq (by decide)] at opens
    have skipped : segmentCase { scan.comma with
        buf := ascii ',' :: (sentence.field 9 ++ sentence.text 12 10) } (ascii ',') =
        .ok (.null { scan.comma with
          buf := ascii ',' :: (sentence.field 9 ++ sentence.text 12 10) }) := by
      unfold segmentCase
      dsimp only
      rw [segment, show scan.comma.command = .rmc from undated.command]
      rfl
    rw [resume_character rfl (by decide), skipped] at opens
    dsimp only [List.tail_cons] at opens
    obtain ⟨next, read, rest⟩ := @date_segment sentence
      { scan.comma with segment := scan.comma.segment + 1 } moment field
      (by dsimp only; rw [toNat_succ (by omega), segment]) rfl undated.command undated.date
    refine ⟨next, opens.trans (Eq.trans ?_ read), rest.1, rest.2.1, rest.2.2.1,
      rest.2.2.2.1.trans undated.gps, rest.2.2.2.2⟩
    refine @scanning_plain _ _ _ digit (others ++ sentence.text 12 10) ?_ plain.1 plain.2.1
    dsimp only
    rw [digits]
    rfl
  · obtain ⟨ninth, passed, undated⟩ := @Undated.fill sentence gps 8 scan undated (by decide) empty
      .direction nofun _ (rewrites_putText 6) (keeps_putText 6) fun next segment command c member => by
        unfold segmentCase
        rw [segment, command]
        exact if_neg (plain_of_mem member).2.1
    obtain ⟨opens, segment⟩ := undated.opened (by decide)
    obtain ⟨next, read, rest⟩ := @date_segment sentence ninth.comma moment field segment rfl
      undated.command undated.date
    exact ⟨next, passed.trans (opens.trans read), rest.1, rest.2.1, rest.2.2.1,
      rest.2.2.2.1.trans undated.gps, rest.2.2.2.2⟩

theorem dateBuffer_string (moment : Moment) :
    (dateBuffer moment).takeWhile (· ≠ 0) =
      pair (moment.date.year % 100) ++ ascii '-' :: pair moment.date.month ++
        ascii '-' :: pair moment.date.day := by
  have bounds := moment.date.month_valid
  have bounds' := moment.date.day_valid
  have most := (daysInMonth_bounds moment.date.year moment.date.month).2
  have nonzero : ∀ c ∈ pair (moment.date.year % 100) ++ ascii '-' :: pair moment.date.month ++
      ascii '-' :: pair moment.date.day, c ≠ 0 := by
    have digits : ∀ value < 100, ∀ c ∈ pair value, c ≠ 0 := fun value small c member =>
      (pair_plain small c member).1.1
    simp only [List.forall_mem_append, List.forall_mem_cons]
    exact ⟨⟨digits _ (by omega), by decide, digits _ (by omega)⟩, by decide, digits _ (by omega)⟩
  unfold dateBuffer
  rw [List.takeWhile_append_of_pos (by simpa using nonzero)]
  rw [List.takeWhile_cons_of_neg (by decide), List.append_nil]

/-- The date that a `$GPRMC` sentence stores. -/
theorem store_date {after : Gps UInt8} {moment : Moment} (command : scan.command = .rmc)
    (clear : scan.gps.flagGPRMC = false) (date : scan.locals .date = dateBuffer moment)
    (stored : store scan = .ok after) : after.gpsDate = dateText moment := by
  unfold store at stored
  rw [command] at stored
  dsimp only at stored
  rw [if_neg (by rw [clear]; decide)] at stored
  obtain ⟨speed, _, stored⟩ := bind_eq_ok.mp stored
  obtain ⟨velocity, _, stored⟩ := bind_eq_ok.mp stored
  obtain ⟨text, read, stored⟩ := bind_eq_ok.mp stored
  obtain ⟨written, copied, stored⟩ := bind_eq_ok.mp stored
  obtain ⟨direction, _, stored⟩ := bind_eq_ok.mp stored
  obtain ⟨orientation, _, stored⟩ := bind_eq_ok.mp stored
  obtain rfl := Except.ok.inj stored
  have string : text = (dateBuffer moment).takeWhile (· ≠ 0) := by
    unfold cstring at read
    rw [date] at read
    split at read
    · exact (Except.ok.inj read).symm
    · cases read
  have same : written = literal (ascii '2') :: literal (ascii '0') :: text := by
    unfold memcpy at copied
    split at copied
    · exact (Except.ok.inj copied).symm
    · cases copied
  dsimp only
  rw [same, string, dateBuffer_string]
  rfl

end

/-- The date that a `$GPRMC` sentence stores, if it is taken. -/
theorem rmc_date {stack : Fin 3 → UInt32} {before after : Timed UInt8} {sentence : Sentence}
    {moment : Moment} (field : sentence.field 9 = utcDate moment)
    (filled : ∀ index, 1 ≤ index → index ≤ 7 → sentence.field index ≠ [])
    (clear : before.gps.flagGPRMC = false) (set : after.gps.flagGPRMC = true)
    (done : printGpsinfoTimed stack (sentence.bytes "$GPRMC" 12) before = .ok after) :
    after.gps.gpsDate = dateText moment := by
  have start := behindDollar_bytes sentence "GPRMC".toList 12 "$GPRMC" rfl
  rw [printGpsinfoTimed, start, Option.elim_some] at done
  obtain ⟨eighth, undated, done⟩ := undated_course sentence filled clear set (timedScanning_gps done)
  obtain ⟨ninth, passed, buf, segment, command, gps, date⟩ := undated.dated field
  have split : ninth.buf = erase (sentence.fields 10 3) ++
      ascii '*' :: erase sentence.behind := by
    rw [buf, Sentence.text, Sentence.rest, erase_append]
    rfl
  have plain : ∀ c ∈ erase (sentence.fields 10 3), byte c ≠ 0 ∧ byte c ≠ ascii '*' := by
    intro c member
    obtain ⟨mark, listed, rfl⟩ := List.mem_map.mp member
    exact ⟨(Sentence.mem_fields listed).1, (Sentence.mem_fields listed).2.1⟩
  have few : (erase (sentence.fields 10 3)).countP (fun c => byte c = ascii ',') = 3 := by
    rw [erase, List.countP_map]
    exact Sentence.countP_fields sentence 10 3
  have ended := scanning_tail (show byte (ascii '*') = ascii '*' from rfl) plain split
    (.inr ⟨segment, fun c head => by obtain rfl := Option.some.inj head; rfl⟩)
    (by rw [segment, few]; decide)
  rw [passed, ended] at done
  exact store_date command (by rw [gps]; exact clear) date done

/-- What is stored once is kept. -/
theorem store_kept {scan : Scan UInt8} {gps : Gps UInt8} (stored : store scan = .ok gps) :
    (scan.gps.flagGPGGA = true → gps.flagGPGGA = true) ∧
      (scan.gps.flagGPRMC = true → gps.flagGPRMC = true ∧ gps.gpsDate = scan.gps.gpsDate) := by
  unfold store at stored
  split at stored
  · split at stored
    · obtain rfl := Except.ok.inj stored
      exact ⟨id, fun set => ⟨set, rfl⟩⟩
    · rename_i clear
      obtain ⟨satellite, _, stored⟩ := bind_eq_ok.mp stored
      obtain ⟨jd, _, stored⟩ := bind_eq_ok.mp stored
      obtain ⟨lng, _, stored⟩ := bind_eq_ok.mp stored
      obtain ⟨wd, _, stored⟩ := bind_eq_ok.mp stored
      obtain ⟨lat, _, stored⟩ := bind_eq_ok.mp stored
      obtain ⟨alt, _, stored⟩ := bind_eq_ok.mp stored
      obtain ⟨elevation, _, stored⟩ := bind_eq_ok.mp stored
      obtain rfl := Except.ok.inj stored
      exact ⟨fun set => absurd set clear, fun set => ⟨set, rfl⟩⟩
  · split at stored
    · obtain rfl := Except.ok.inj stored
      exact ⟨id, fun set => ⟨set, rfl⟩⟩
    · rename_i clear
      obtain ⟨speed, _, stored⟩ := bind_eq_ok.mp stored
      obtain ⟨velocity, _, stored⟩ := bind_eq_ok.mp stored
      obtain ⟨date, _, stored⟩ := bind_eq_ok.mp stored
      obtain ⟨written, _, stored⟩ := bind_eq_ok.mp stored
      obtain ⟨direction, _, stored⟩ := bind_eq_ok.mp stored
      obtain ⟨orientation, _, stored⟩ := bind_eq_ok.mp stored
      obtain rfl := Except.ok.inj stored
      exact ⟨id, fun set => absurd set clear⟩
  · obtain rfl := Except.ok.inj stored
    exact ⟨id, fun set => ⟨set, rfl⟩⟩

/-- The lines of a fix, each with what is on the stack when it is read. -/
abbrev Lines := List ((Fin 3 → UInt32) × List UInt8)

/-- The lines are read one after the other. -/
def readLines (before : Timed UInt8) (lines : Lines) : Except Fault (Timed UInt8) :=
  lines.foldlM (fun timed line => printGpsinfoTimed line.1 line.2 timed) before

section

variable {stack : Fin 3 → UInt32} {line : List UInt8} {before after : Timed UInt8} {lines : Lines}

/-- A line behind the `$GPGGA` sentence that was taken leaves its time alone. -/
theorem line_time_kept (set : before.gps.flagGPGGA = true)
    (done : printGpsinfoTimed stack line before = .ok after) :
    after.gps.flagGPGGA = true ∧ after.gpsTime = before.gpsTime := by
  unfold printGpsinfoTimed at done
  cases start : behindDollar line with
  | none =>
      rw [start] at done
      obtain rfl := Except.ok.inj done
      exact ⟨set, rfl⟩
  | some buf =>
      rw [start] at done
      have ends := timed_ends (boxed_start _ _) done
      cases ends with
      | kept flags date time => exact ⟨(congrArg Flags.gga flags).trans set, time⟩
      | @stored text rest compared last line reading flags date boxed here gps time =>
          have set' : last.gps.flagGPGGA = true := (congrArg Flags.gga flags).trans set
          refine ⟨(store_kept gps).1 set', ?_⟩
          unfold storeTime at time
          rw [if_neg fun stores => by rw [set'] at stores; exact nomatch stores.2.2] at time
          exact (Except.ok.inj time).symm

/-- A line behind the `$GPRMC` sentence that was taken leaves its date alone. -/
theorem line_date_kept (set : before.gps.flagGPRMC = true)
    (done : printGpsinfoTimed stack line before = .ok after) :
    after.gps.flagGPRMC = true ∧ after.gps.gpsDate = before.gps.gpsDate := by
  unfold printGpsinfoTimed at done
  cases start : behindDollar line with
  | none =>
      rw [start] at done
      obtain rfl := Except.ok.inj done
      exact ⟨set, rfl⟩
  | some buf =>
      rw [start] at done
      have ends := timed_ends (boxed_start _ _) done
      cases ends with
      | kept flags date time => exact ⟨(congrArg Flags.rmc flags).trans set, date⟩
      | @stored text rest compared last line reading flags date boxed here gps time =>
          have set' : last.gps.flagGPRMC = true := (congrArg Flags.rmc flags).trans set
          obtain ⟨still, kept⟩ := (store_kept gps).2 set'
          exact ⟨still, kept.trans date⟩

/-- What every line keeps, all lines keep. -/
theorem readLines_invariant {Inv : Timed UInt8 → Prop}
    (keeps : ∀ stack line before after, Inv before →
      printGpsinfoTimed stack line before = .ok after → Inv after)
    (holds : Inv before) (done : readLines before lines = .ok after) : Inv after := by
  induction lines generalizing before with
  | nil =>
      obtain rfl := Except.ok.inj done
      exact holds
  | cons first lines ih =>
      unfold readLines at done
      rw [List.foldlM_cons] at done
      obtain ⟨next, read, done⟩ := bind_eq_ok.mp done
      exact ih (keeps _ _ _ _ holds read) done

end

/-- A line is the one at which a flag is set. -/
structure Taken (flag : Gps UInt8 → Bool) (line : List UInt8) (before : Timed UInt8)
    (lines : Lines) (after : Timed UInt8) where
  front : Lines
  back : Lines
  stack : Fin 3 → UInt32
  reached : Timed UInt8
  left : Timed UInt8
  split : lines = front ++ (stack, line) :: back
  first : readLines before front = .ok reached
  clear : flag reached.gps = false
  read : printGpsinfoTimed stack line reached = .ok left
  set : flag left.gps = true
  last : readLines left back = .ok after

/-- What `localtime` makes of the time of the system, as `gps_report` prints it. -/
structure Tm where
  date : List UInt8
  time : List UInt8

/-- The sides are known. -/
def Gps.sided (gps : Gps UInt8) : Bool :=
  (gps.eastWest = ascii 'E' || gps.eastWest = ascii 'W') &&
    (gps.northSouth = ascii 'N' || gps.northSouth = ascii 'S')

/-- `gps_report`: the text that is reported for `date`, and kept in `Timereport`. -/
def gpsReport (now : Tm) (status : Int) (rgps : Timed UInt8) : List UInt8 :=
  let status := if rgps.gps.sided then status else 0
  if status = 0 then
    if rgps.gps.gpsDate.length = 10 ∧ rgps.gpsTime.length = 8 then
      rgps.gps.gpsDate ++ ascii '-' :: rgps.gpsTime
    else if rgps.gpsTime.length = 8 then now.date ++ ascii '-' :: rgps.gpsTime
    else now.date ++ ascii '-' :: now.time
  else rgps.gps.gpsDate ++ ascii '-' :: rgps.gpsTime

/-- A date of ten characters and a time of eight are reported whatever the status. -/
theorem gpsReport_eq (now : Tm) (status : Int) {rgps : Timed UInt8}
    (date : rgps.gps.gpsDate.length = 10) (time : rgps.gpsTime.length = 8) :
    gpsReport now status rgps = rgps.gps.gpsDate ++ ascii '-' :: rgps.gpsTime := by
  unfold gpsReport
  dsimp only
  have whole : rgps.gps.gpsDate.length = 10 ∧ rgps.gpsTime.length = 8 := ⟨date, time⟩
  rw [if_pos whole, ite_self]

/-- The sentences of a fix, with the time and the date of the fix in their fields. -/
structure Fix where
  utc : Moment
  century : utc.date.year / 100 = 20
  gga : Sentence
  rmc : Sentence
  fraction : List UInt8
  short : fraction.length ≤ 247
  time : gga.field 1 = utcTime utc ++ fraction
  date : rmc.field 9 = utcDate utc

namespace Fix

/-- No field in front of the course is empty. -/
def Filled (fix : Fix) : Prop := ∀ index, 1 ≤ index → index ≤ 7 → fix.rmc.field index ≠ []

/-- The sentences are taken among the lines of a fix. -/
structure Read (fix : Fix) (after : Timed UInt8) where
  before : Timed UInt8
  lines : Lines
  gga : Taken Gps.flagGPGGA (fix.gga.bytes "$GPGGA" 14) before lines after
  rmc : Taken Gps.flagGPRMC (fix.rmc.bytes "$GPRMC" 12) before lines after

/-- The moment that is reported is eight hours after that of the fix. -/
def Reports (fix : Fix) (now : Tm) (status : Int) (after : Timed UInt8) : Prop :=
  gpsReport now status after = momentText (fix.utc.later 8)

variable {fix : Fix} {after : Timed UInt8}

theorem Read.time (read : fix.Read after) : after.gpsTime =
    timeText (localHour fix.utc.hour) fix.utc.minute fix.utc.second := by
  have taken := read.gga
  have time := gga_time fix.time fix.short taken.clear taken.set taken.read
  have kept := @readLines_invariant taken.left after taken.back
    (fun timed => timed.gps.flagGPGGA = true ∧ timed.gpsTime = taken.left.gpsTime)
    (fun _ _ _ _ holds done => by
      obtain ⟨set, same⟩ := line_time_kept holds.1 done
      exact ⟨set, same.trans holds.2⟩) ⟨taken.set, rfl⟩ taken.last
  exact kept.2.trans time

theorem Read.date (read : fix.Read after) (filled : fix.Filled) :
    after.gps.gpsDate = dateText fix.utc := by
  have taken := read.rmc
  have date := rmc_date fix.date filled taken.clear taken.set taken.read
  have kept := @readLines_invariant taken.left after taken.back
    (fun timed => timed.gps.flagGPRMC = true ∧ timed.gps.gpsDate = taken.left.gps.gpsDate)
    (fun _ _ _ _ holds done => by
      obtain ⟨set, same⟩ := line_date_kept holds.1 done
      exact ⟨set, same.trans holds.2⟩) ⟨taken.set, rfl⟩ taken.last
  exact kept.2.trans date

/-- What is reported of a fix. -/
theorem Read.report (read : fix.Read after) (filled : fix.Filled) (now : Tm) (status : Int) :
    gpsReport now status after = dateText fix.utc ++ ascii '-' ::
      timeText (localHour fix.utc.hour) fix.utc.minute fix.utc.second := by
  have date := read.date filled
  have time := read.time
  rw [gpsReport_eq now status (by rw [date]; rfl) (by rw [time]; rfl), date, time]

/-- The texts of a day and of a time, as the text of a moment. -/
theorem momentText_eq (moment : Moment) (century : moment.date.year / 100 = 20) :
    momentText moment = dateText moment ++ ascii '-' ::
      timeText moment.hour moment.minute moment.second := by
  unfold momentText dateText timeText
  rw [century]
  simp only [List.append_assoc, List.cons_append]

/-- From the hour sixteen on, the day that is reported is that of the fix and not the next one. -/
theorem report_ne {moment : Moment} (late : 16 ≤ moment.hour) :
    dateText moment ++ ascii '-' ::
        timeText (localHour moment.hour) moment.minute moment.second ≠
      momentText (moment.later 8) := by
  have past : ¬ moment.hour + ((8 : Fin 24) : Nat) < 24 := by
    change ¬ moment.hour + 8 < 24
    omega
  have date := (Moment.later_next past).1
  have bounds := moment.date.day_valid
  have bounds' := moment.date.next.day_valid
  have most := (daysInMonth_bounds moment.date.year moment.date.month).2
  have most' := (daysInMonth_bounds moment.date.next.year moment.date.next.month).2
  intro same
  have day : pair moment.date.day = pair (moment.later 8).date.day :=
    congrArg (fun text => (text.drop 8).take 2) same
  rw [date] at day
  exact moment.date.day_next_ne (pair_injective (by omega) (by omega) day).symm

/-- The report is eight hours after the time of the fix exactly if it is on the same day, where no
field in front of the course is empty. -/
theorem reports_later_iff (fix : Fix) {after : Timed UInt8} (read : fix.Read after) (filled : fix.Filled)
    (now : Tm) (status : Int) : fix.Reports now status after ↔ fix.utc.hour < 16 := by
  rw [Reports, read.report filled now status]
  constructor
  · intro same
    by_contra late
    exact report_ne (Nat.le_of_not_lt late) same
  · intro early
    have inDay : fix.utc.hour + ((8 : Fin 24) : Nat) < 24 := by
      change fix.utc.hour + 8 < 24
      omega
    obtain ⟨date, hour⟩ := Moment.later_same inDay
    obtain ⟨minute, second⟩ := fix.utc.later_minute 8
    have shifted : localHour fix.utc.hour = (fix.utc.later 8).hour := by
      rw [hour]
      exact if_neg (by omega)
    rw [momentText_eq _ (date ▸ fix.century), shifted, minute, second]
    unfold dateText
    rw [date]

end Fix

/-- A `$GPGGA` sentence with a time. -/
def ggaTexts (time : String) : List String :=
  [time, "3114.361111", "N", "12129.968941", "E", "1", "06", "2.1", "-42.1", "M", "", "", "", ""]

/-- A `$GPRMC` sentence with a time. -/
def rmcTexts (time : String) : List String :=
  [time, "A", "3114.361111", "N", "12129.968941", "E", "0.0", "331.0", "091013", "0.0", "E", "A"]

theorem morning_gga : ∀ text ∈ ggaTexts "050509.50", ∀ value ∈ text.toList.map ascii,
    value ≠ 0 ∧ value ≠ ascii ',' ∧ value ≠ ascii '*' := by decide +kernel

theorem morning_rmc : ∀ text ∈ rmcTexts "050509.50", ∀ value ∈ text.toList.map ascii,
    value ≠ 0 ∧ value ≠ ascii ',' ∧ value ≠ ascii '*' := by decide +kernel

theorem evening_gga : ∀ text ∈ ggaTexts "160509.50", ∀ value ∈ text.toList.map ascii,
    value ≠ 0 ∧ value ≠ ascii ',' ∧ value ≠ ascii '*' := by decide +kernel

theorem evening_rmc : ∀ text ∈ rmcTexts "160509.50", ∀ value ∈ text.toList.map ascii,
    value ≠ 0 ∧ value ≠ ascii ',' ∧ value ≠ ascii '*' := by decide +kernel

theorem checksum_plain : ∀ value ∈ "2C".toList.map ascii, value ≠ 0 ∧ value ≠ ascii ',' := by
  decide +kernel

/-- The ninth of October 2013. -/
def october : Date where
  year := 2013
  month := 10
  day := 9
  month_valid := ⟨by decide, by decide⟩
  day_valid := ⟨by decide, by decide⟩

/-- A fix at five in the morning. -/
def morning : Fix where
  utc := ⟨october, 5, 5, 9, by decide, by decide, by decide⟩
  century := rfl
  gga := .ofTexts (ggaTexts "050509.50") "2C" morning_gga checksum_plain
  rmc := .ofTexts (rmcTexts "050509.50") "2C" morning_rmc checksum_plain
  fraction := ".50".toList.map ascii
  short := by decide
  time := by decide +kernel
  date := by decide +kernel

/-- A fix at four in the afternoon. -/
def evening : Fix where
  utc := ⟨october, 16, 5, 9, by decide, by decide, by decide⟩
  century := rfl
  gga := .ofTexts (ggaTexts "160509.50") "2C" evening_gga checksum_plain
  rmc := .ofTexts (rmcTexts "160509.50") "2C" evening_rmc checksum_plain
  fraction := ".50".toList.map ascii
  short := by decide
  time := by decide +kernel
  date := by decide +kernel

/-- The two sentences, read one after the other. -/
def Fix.Read.ofTwo {fix : Fix} {before between after : Timed UInt8} (stack : Fin 3 → UInt32)
    (gga : printGpsinfoTimed stack (fix.gga.bytes "$GPGGA" 14) before = .ok between)
    (rmc : printGpsinfoTimed stack (fix.rmc.bytes "$GPRMC" 12) between = .ok after)
    (clear : before.gps.flagGPGGA = false) (set : between.gps.flagGPGGA = true)
    (clear' : between.gps.flagGPRMC = false) (set' : after.gps.flagGPRMC = true) :
    fix.Read after where
  before := before
  lines := [(stack, fix.gga.bytes "$GPGGA" 14), (stack, fix.rmc.bytes "$GPRMC" 12)]
  gga :=
    { front := [], back := [(stack, fix.rmc.bytes "$GPRMC" 12)], stack := stack
      reached := before, left := between, split := rfl, first := rfl, clear := clear, read := gga
      set := set, last := bind_eq_ok.mpr ⟨after, rmc, rfl⟩ }
  rmc :=
    { front := [(stack, fix.gga.bytes "$GPGGA" 14)], back := [], stack := stack
      reached := between, left := after, split := rfl, first := bind_eq_ok.mpr ⟨between, gga, rfl⟩
      clear := clear', read := rmc, set := set', last := rfl }

/-- What is known after a line. -/
def behindLine (line : List UInt8) (before : Timed UInt8) : Timed UInt8 :=
  (printGpsinfoTimed (fun _ => 0) line before).toOption.getD before

/-- What is known after the sentences of a fix. -/
def behindFix (fix : Fix) : Timed UInt8 :=
  behindLine (fix.rmc.bytes "$GPRMC" 12) (behindLine (fix.gga.bytes "$GPGGA" 14) fresh)

theorem morning_gga_read :
    printGpsinfoTimed (fun _ => 0) (morning.gga.bytes "$GPGGA" 14) fresh =
      .ok (behindLine (morning.gga.bytes "$GPGGA" 14) fresh) := by decide +kernel

theorem morning_rmc_read :
    printGpsinfoTimed (fun _ => 0) (morning.rmc.bytes "$GPRMC" 12)
        (behindLine (morning.gga.bytes "$GPGGA" 14) fresh) =
      .ok (behindFix morning) := by decide +kernel

theorem morning_filled : morning.Filled := by
  have all : ∀ index ∈ [1, 2, 3, 4, 5, 6, 7], morning.rmc.field index ≠ [] := by decide +kernel
  intro index low high
  exact all index (by simp only [List.mem_cons, List.not_mem_nil]; omega)

theorem reports_later_iff_morning : morning.utc.hour < 16 ∧
    morning.Reports ⟨[], []⟩ 1 (behindFix morning) :=
  ⟨by decide, (Fix.reports_later_iff morning (.ofTwo (fun _ => 0) morning_gga_read morning_rmc_read rfl
    (by decide +kernel) (by decide +kernel) (by decide +kernel)) morning_filled ⟨[], []⟩ 1).mpr
    (by decide)⟩

theorem evening_gga_read :
    printGpsinfoTimed (fun _ => 0) (evening.gga.bytes "$GPGGA" 14) fresh =
      .ok (behindLine (evening.gga.bytes "$GPGGA" 14) fresh) := by decide +kernel

theorem evening_rmc_read :
    printGpsinfoTimed (fun _ => 0) (evening.rmc.bytes "$GPRMC" 12)
        (behindLine (evening.gga.bytes "$GPGGA" 14) fresh) =
      .ok (behindFix evening) := by decide +kernel

/-- At four in the afternoon the hour that is reported is twenty-four, on the day of the fix. -/
theorem not_reports_evening : Nonempty (evening.Read (behindFix evening)) ∧
    gpsReport ⟨[], []⟩ 1 (behindFix evening) = "2013-10-09-24:05:09".toList.map ascii ∧
    ¬ evening.Reports ⟨[], []⟩ 1 (behindFix evening) := by
  have report : gpsReport ⟨[], []⟩ 1 (behindFix evening) =
      "2013-10-09-24:05:09".toList.map ascii := by decide +kernel
  refine ⟨⟨.ofTwo (fun _ => 0) evening_gga_read evening_rmc_read rfl (by decide +kernel)
    (by decide +kernel) (by decide +kernel)⟩, report, fun reports => ?_⟩
  rw [Fix.Reports, report] at reports
  exact absurd reports (by decide +kernel)

end Trunk.Rgps
