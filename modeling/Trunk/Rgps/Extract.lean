import Trunk.Rgps.Shift

/-! # What a sentence stores

The values that a sentence stores, each with the characters that it is made of. They come from their
own fields exactly if no field in front of them is empty, up to what the loop makes good
(`Trunk.Rgps.Sentence.extracts_iff`).
-/

namespace Trunk.Rgps

open CString Provenance Provenance.Glyph Loop

/-- The string that a buffer holds. -/
def Scan.text {α : Type} [Glyph α] (scan : Scan α) (slot : Local) : List α :=
  (scan.locals slot).takeWhile fun symbol => byte symbol ≠ 0

namespace Sentence

/-- The values of a `$GPGGA` sentence are what their own fields give, each field read alone. -/
structure GgaRead (sentence : Sentence) (before after : Gps Mark) : Prop where
  latitude : readField Local.wd.handler .wd (sentence.mark 2) = .ok after.gpsLat
  northSouth : after.northSouth = (sentence.mark 3).getLastD before.northSouth
  longitude : readField Local.jd.handler .jd (sentence.mark 4) = .ok after.gpsLng
  eastWest : after.eastWest = (sentence.mark 5).getLastD before.eastWest
  satellites : readField Local.sv.handler .sv (sentence.mark 7) = .ok after.gpsSatellite
  elevation : readField Local.alt.handler .alt (sentence.mark 9) = .ok after.gpsElevation

/-- The values of a `$GPRMC` sentence are what their own fields give, each field read alone. -/
structure RmcRead (sentence : Sentence) (after : Gps Mark) : Prop where
  speed : readField Local.speed.handler .speed (sentence.mark 7) = .ok after.gpsVelocity
  direction : readField Local.direction.handler .direction (sentence.mark 8) = .ok after.gpsOrientation
  date : ∃ text, readField Local.date.handler .date (sentence.mark 9) = .ok text ∧
    after.gpsDate = literal (ascii '2') :: literal (ascii '0') :: text

/-- Whatever was known before and is on the stack, the values of a `$GPGGA` sentence that is taken
come from their own fields. -/
def GgaExtracts (sentence : Sentence) : Prop :=
  ∀ (stack : Fin 3 → UInt32) (before : Timed Mark), before.gps.flagGPGGA = false →
    ∃ after, printGpsinfoTimed stack (sentence.line "$GPGGA" 14) before = .ok after ∧
      sentence.GgaRead before.gps after.gps

/-- Whatever was known before and is on the stack, the values of a `$GPRMC` sentence that is taken
come from their own fields. -/
def RmcExtracts (sentence : Sentence) : Prop :=
  ∀ (stack : Fin 3 → UInt32) (before : Timed Mark), before.gps.flagGPRMC = false →
    ∃ after, printGpsinfoTimed stack (sentence.line "$GPRMC" 12) before = .ok after ∧
      sentence.RmcRead after.gps

/-- A `$GPGGA` sentence that has a fix and a time, no empty field up to the elevation, and coordinates
that do not end with the character that is left out, nor are too long. -/
structure GgaSound (sentence : Sentence) : Prop where
  filled : ∀ index, 1 ≤ index → index ≤ 9 → sentence.field index ≠ []
  fixed : ascii '0' ∉ sentence.field 6
  timed : ∃ text, readField Local.time.handler .time (sentence.field 1) = .ok text ∧
    strtok (ascii ':') text ≠ []
  latitude : (sentence.field 2).length ≠ 5 ∧ (sentence.field 2).length ≤ 20
  longitude : (sentence.field 4).length ≠ 6 ∧ (sentence.field 4).length ≤ 12

/-- A `$GPRMC` sentence with a fix and no empty field up to the speed. Without a direction nothing
is lost, and without a date little enough behind it is taken for one. -/
structure RmcSound (sentence : Sentence) : Prop where
  filled : ∀ index, 1 ≤ index → index ≤ 7 → sentence.field index ≠ []
  active : ∀ value ∈ sentence.field 2, value = ascii 'A'
  date : sentence.field 8 = [] ∨ sentence.field 9 ≠ [] ∨ (sentence.field 10).length ≤ 3

/-- A `$GPRMC` sentence without a time, whose latitude reads like a fix, and so empty that the loop
comes to its end in front of the speed: then it stores nothing, where there is nothing. -/
structure RmcBare (sentence : Sentence) : Prop where
  time : sentence.field 1 = []
  active : sentence.field 3 ≠ [] ∧ ∀ value ∈ sentence.field 3, value = ascii 'A'
  empty : ∀ index ∈ [4, 6, 7, 8, 10, 12], sentence.field index = []
  date : (sentence.field 9).length ≤ 4

end Sentence

section

variable {stack : Fin 3 → UInt32} {gpsTime : List UInt8} {scan next : Scan Mark}

/-- What a `$GPGGA` sentence stores. -/
theorem store_gga_ended (command : scan.command = .gga) (clear : scan.gps.flagGPGGA = false)
    (ended : ∀ slot : Local, slot.command = .gga → Ended slot.size slot.last (scan.locals slot)) :
    ∃ after, store scan = .ok after ∧ after.northSouth = scan.gps.northSouth ∧
      after.eastWest = scan.gps.eastWest ∧ after.gpsLat = scan.text .wd ∧
      after.gpsLng = scan.text .jd ∧ after.gpsSatellite = scan.text .sv ∧
      after.gpsElevation = scan.text .alt := by
  have copied : ∀ (slot : Local) (size : Nat), slot.command = .gga → slot.last ≤ size →
      memcpy size (scan.text slot) = .ok (scan.text slot) := fun slot size same fits =>
    if_pos ((ended slot same).length_le.trans fits)
  have stored : store scan = storeGga scan := by
    unfold store
    rw [command]
    exact if_neg (by rw [clear]; decide)
  refine ⟨_, stored.trans (bind_eq_ok.mpr ⟨_, (ended .sv rfl).cstring, bind_eq_ok.mpr
    ⟨_, (ended .jd rfl).cstring, bind_eq_ok.mpr ⟨_, copied .jd 20 rfl (by decide), bind_eq_ok.mpr
    ⟨_, (ended .wd rfl).cstring, bind_eq_ok.mpr ⟨_, copied .wd 20 rfl (by decide), bind_eq_ok.mpr
    ⟨_, (ended .alt rfl).cstring, bind_eq_ok.mpr ⟨_, copied .alt 10 rfl (by decide),
    rfl⟩⟩⟩⟩⟩⟩⟩), rfl, rfl, rfl, rfl, rfl, rfl⟩

/-- What a `$GPRMC` sentence stores. -/
theorem store_rmc_ended (command : scan.command = .rmc) (clear : scan.gps.flagGPRMC = false)
    (ended : ∀ slot : Local, slot.command = .rmc → Ended slot.size slot.last (scan.locals slot)) :
    ∃ after, store scan = .ok after ∧ after.gpsVelocity = scan.text .speed ∧
      after.gpsOrientation = scan.text .direction ∧
      after.gpsDate = literal (ascii '2') :: literal (ascii '0') :: scan.text .date := by
  have copied : ∀ (slot : Local) (size : Nat), slot.command = .rmc → slot.last ≤ size →
      memcpy size (scan.text slot) = .ok (scan.text slot) := fun slot size same fits =>
    if_pos ((ended slot same).length_le.trans fits)
  have short := (ended .date rfl).length_le
  have stored : store scan = storeRmc scan := by
    unfold store
    rw [command]
    exact if_neg (by rw [clear]; decide)
  have century : memcpy 29 (literal (ascii '2') :: literal (ascii '0') :: scan.text .date) =
      .ok (literal (ascii '2') :: literal (ascii '0') :: scan.text .date) := by
    refine if_pos ?_
    change (scan.text .date).length ≤ 8 at short
    rw [List.length_cons, List.length_cons]
    omega
  refine ⟨_, stored.trans (bind_eq_ok.mpr ⟨_, (ended .speed rfl).cstring, bind_eq_ok.mpr
    ⟨_, copied .speed 10 rfl (by decide), bind_eq_ok.mpr ⟨_, (ended .date rfl).cstring,
    bind_eq_ok.mpr ⟨_, century, bind_eq_ok.mpr ⟨_, (ended .direction rfl).cstring, bind_eq_ok.mpr
    ⟨_, copied .direction 10 rfl (by decide), rfl⟩⟩⟩⟩⟩⟩), rfl, rfl, rfl⟩

/-- The time that a `$GPGGA` sentence stores. -/
theorem storeTime_gga (command : scan.command = .gga) (clear : scan.gps.flagGPGGA = false)
    (ended : Ended 9 8 (scan.locals .time)) (after : List Mark) :
    storeTime stack gpsTime { scan with buf := Sentence.asterisk :: after } =
      printTimestr stack (erase (scan.text .time)) := by
  unfold storeTime
  rw [if_pos ⟨rfl, command, clear⟩, ended.cstring, Scan.text]
  simp only [bind, Except.bind]

/-- A `$GPRMC` sentence stores no time. -/
theorem storeTime_rmc (command : scan.command = .rmc) (after : List Mark) :
    storeTime stack gpsTime { scan with buf := Sentence.asterisk :: after } = .ok gpsTime := by
  unfold storeTime
  refine if_neg fun stores => ?_
  rw [command] at stores
  exact nomatch stores.2.1

end

/-- What is behind the dollar sign of a sentence. -/
theorem behindDollar_line (sentence : Sentence) (letters : List Char) (count : Nat) (name : String)
    (named : name.toList = '$' :: letters) :
    behindDollar (sentence.line name count) =
      some ((letters.map fun character => literal (ascii character)) ++ sentence.rest count 1) := by
  have whole : sentence.line name count ++ [literal 0] = literal (ascii '$') ::
      ((letters.map fun character => literal (ascii character)) ++ sentence.rest count 1) := by
    rw [Sentence.line, Sentence.rest, Sentence.behind, named]
    simp only [List.map_cons, List.cons_append, List.append_assoc, Nat.add_sub_cancel]
  unfold behindDollar
  rw [whole]
  rfl

/-- Only colons come to the places of the colons of a time. -/
theorem fillAll_time_colon {bytes : UInt8} {text buffer buffer' : List UInt8} {index : Nat}
    (place : index = 2 ∨ index = 5) (length : buffer.length = 9)
    (colon : ∀ c ∈ buffer[index]?, c = 0 ∨ c = ascii ':')
    (read : fillAll (atBuf putTime) bytes text buffer = .ok buffer') :
    ∀ c ∈ buffer'[index]?, c = 0 ∨ c = ascii ':' := by
  have fills := fills_atBuf (rewrites_putTime (α := UInt8))
  induction text generalizing bytes buffer with
  | nil =>
      rw [fillAll_nil fills] at read
      obtain rfl := Except.ok.inj read
      exact colon
  | cons c text ih =>
      have wrote := putTime_eq (c := c) ⟨0, bytes, .none, buffer⟩ length
      have kept := keepTime_colon (c := c) ⟨0, bytes, .none, buffer⟩ place colon
      have length' := (rewrites_putTime _ _ _ _ wrote).size
      generalize Place.keepTime ⟨0, bytes, .none, buffer⟩ c = place' at wrote kept length'
      have handled : atBuf putTime bytes (c :: text) buffer =
          .ok (place'.bytes, c :: text, place'.time) :=
        bind_eq_ok.mpr ⟨c, rfl, bind_eq_ok.mpr ⟨_, wrote, rfl⟩⟩
      rw [fillAll_cons fills, handled] at read
      exact ih (length'.trans length) kept read

/-- The time of a sentence can be printed, whatever is on the stack, exactly if it has a token. -/
theorem time_fits_iff {sentence : Sentence} {buffer : List Mark}
    (read : fillAll Local.time.handler 0 (sentence.mark 1) (blank .time) = .ok buffer) :
    (∀ stack, ∃ time,
      printTimestr stack (erase (buffer.takeWhile fun symbol => byte symbol ≠ 0)) = .ok time) ↔
      ∃ text, readField Local.time.handler .time (sentence.field 1) = .ok text ∧
        strtok (ascii ':') text ≠ [] := by
  have onBytes : fillAll (atBuf putTime) 0 (sentence.field 1) (blank .time) = .ok (erase buffer) := by
    have same := fillAll_erase (atBuf_erase putTime_erase) 0 (sentence.mark 1) (blank .time)
    rw [erase_mark, show fillAll (atBuf putTime) 0 (sentence.mark 1) (blank .time) = .ok buffer
      from read] at same
    exact same
  have ended : Ended 9 8 (erase buffer) := @Local.ended_of_fillAll _ _ .time _ _ onBytes
  have string : erase (buffer.takeWhile fun symbol => byte symbol ≠ 0) =
      (erase buffer).takeWhile (· ≠ 0) := by
    unfold erase
    rw [List.takeWhile_map]
    rfl
  have text : readField Local.time.handler .time (sentence.field 1) =
      .ok ((erase buffer).takeWhile (· ≠ 0)) := @readField_of_fillAll _ _ _ .time _ _ _ onBytes ended
  have short := tokens_short ended
    (fillAll_time_colon (.inl rfl) rfl (fun c found => .inl (Option.some.inj found).symm) onBytes)
    (fillAll_time_colon (.inr rfl) rfl (fun c found => .inl (Option.some.inj found).symm) onBytes)
  rw [string, printTimestr_fits short, text]
  constructor
  · exact fun token => ⟨_, rfl, token⟩
  · rintro ⟨text, same, token⟩
    rw [Except.ok.inj same]
    exact token

section

variable {sentence : Sentence} {gps : Gps Mark} {scan : Scan Mark} {index : Nat}

/-- A sentence is read from where its name ends. -/
theorem line_timed {letters : List Char} {count : Nat} {name : String}
    (named : name.toList = '$' :: letters) (stack : Fin 3 → UInt32) (before : Timed Mark)
    (reached : Reaches round (Scan.start
      ((letters.map fun character => literal (ascii character)) ++ sentence.rest count 1) before.gps)
      scan) :
    printGpsinfoTimed stack (sentence.line name count) before =
      timedScanning stack before.gpsTime scan := by
  rw [printGpsinfoTimed, behindDollar_line sentence letters count name named, Option.elim_some]
  exact timedScanning_reached reached

theorem Upto.ended (upto : Upto sentence .gga gps 10 scan) :
    ∀ slot : Local, slot.command = .gga → Ended slot.size slot.last (scan.locals slot) := by
  intro slot command
  have below : slot.field < 10 := by cases slot <;> decide
  exact Local.ended_of_fillAll (upto.filled slot command below)

/-- What a `$GPGGA` sentence without empty fields stores: the values of its fields, if the time can
be printed. -/
theorem Upto.ends_gga (upto : Upto sentence .gga (sentence.sides gps 10) 10 scan)
    (clear : gps.flagGPGGA = false) :
    ∃ after, sentence.GgaRead gps after ∧ ∀ stack gpsTime,
      timedScanning stack gpsTime scan =
        (printTimestr stack (erase (scan.text .time))).map fun time => ⟨after, time⟩ := by
  have clear' : scan.gps.flagGPGGA = false := (congrArg Gps.flagGPGGA upto.gps).trans clear
  obtain ⟨after, stored, north, east, lat, lng, satellites, elevation⟩ :=
    store_gga_ended upto.kind clear' upto.ended
  obtain ⟨last, endsAt⟩ := upto.behind.tail
  have value : ∀ slot : Local, slot.command = .gga →
      readField slot.handler slot (sentence.mark slot.field) = .ok (scan.text slot) := by
    intro slot command
    have below : slot.field < 10 := by cases slot <;> decide
    exact readField_of_fillAll (upto.filled slot command below) (upto.ended slot command)
  refine ⟨after, ⟨?_, ?_, ?_, ?_, ?_, ?_⟩, fun stack gpsTime => ?_⟩
  · exact lat ▸ value .wd rfl
  · exact north.trans (congrArg Gps.northSouth upto.gps)
  · exact lng ▸ value .jd rfl
  · exact east.trans (congrArg Gps.eastWest upto.gps)
  · exact satellites ▸ value .sv rfl
  · exact elevation ▸ value .alt rfl
  · rw [endsAt.timed rfl stored, storeTime_gga upto.kind clear' (upto.ended .time rfl)]

/-- The lengths of the fields of a sound sentence. -/
theorem Sentence.GgaSound.holds (sound : sentence.GgaSound) :
    ∀ slot : Local, slot.command = .gga → slot.Holds (sentence.field slot.field).length := by
  intro slot command
  cases slot with
  | wd => exact sound.latitude
  | jd => exact sound.longitude
  | time | alt | sv => trivial
  | speed | direction | date => cases command

/-- The values of a sound `$GPGGA` sentence come from their own fields. -/
theorem Sentence.GgaSound.extracts (sound : sentence.GgaSound) : sentence.GgaExtracts := by
  intro stack before clear
  obtain ⟨scan, upto, reached⟩ := @upto_gga sentence before.gps 10 clear sound.holds (by decide)
    (by decide)
    (fun index least below => sound.filled index least (by omega)) fun _ => sound.fixed
  obtain ⟨after, read, timed⟩ := upto.ends_gga clear
  have fits := (time_fits_iff (upto.filled .time rfl (by decide))).mpr sound.timed
  obtain ⟨time, printed⟩ := fits stack
  refine ⟨⟨after, time⟩, ?_, read⟩
  rw [line_timed rfl stack before reached, timed, show printTimestr stack
    (erase (scan.text .time)) = .ok time from printed]
  rfl

/-- What was known before a line, of which nothing is from a field. -/
def stale : Timed Mark where
  gps :=
    { eastWest := ⟨ascii 'E', some 0⟩, northSouth := ⟨ascii 'N', some 0⟩
      gpsLng := [⟨ascii '0', some 0⟩], gpsLat := [⟨ascii '0', some 0⟩]
      gpsDate := [⟨ascii '0', some 0⟩], gpsVelocity := [⟨ascii '0', some 0⟩]
      gpsOrientation := [⟨ascii '0', some 0⟩], gpsElevation := [⟨ascii '0', some 0⟩]
      gpsSatellite := [⟨ascii '0', some 0⟩], flagGPGGA := false, flagGPRMC := false }
  gpsTime := []

theorem misread_stale {slot : Local}
    (shown : slot ∈ [Local.wd, Local.jd, Local.sv, Local.alt, Local.speed]) :
    Misread slot.field (stale.gps.shown slot) := by
  refine ⟨⟨ascii '0', some 0⟩, ?_, ?_⟩
  · cases slot <;> first | rfl | exact absurd shown (by decide)
  · cases slot <;> decide

theorem misread_sides {slot : Local} {gps : Gps Mark} {field : Nat}
    (misread : Misread field (gps.shown slot)) (index : Nat) :
    Misread field ((sentence.sides gps index).shown slot) := by
  cases slot <;> exact misread

theorem getLastD_mem {text : List Mark} (nonempty : text ≠ []) (c : Mark) :
    text.getLastD c ∈ text := by
  rw [List.getLastD_eq_getLast?, List.getLast?_eq_getLast_of_ne_nil nonempty]
  exact List.getLast_mem nonempty

/-- Whatever `north_south` is set to in the segment of an empty field is of another one. -/
theorem Behind.north_foreign {locals : Local → List Mark} {after : Gps Mark}
    (behind : Behind sentence .gga gps locals 2 3 scan) (empty : sentence.field 3 = [])
    (done : scanning scan = .ok after) : Foreign 3 after.northSouth := by
  obtain ⟨next, reached, behind'⟩ := behind.pass (by decide) (by decide)
    (fun gps c => { gps with northSouth := c }) fun next segment command c _ => by
      unfold segmentCase
      rw [segment, command]
      rfl
  rw [reaches_scanning reached] at done
  have foreign : ∀ c ∈ sentence.taken 3 ++ sentence.rest 14 (sentence.after 3), Foreign 3 c := by
    rw [← Sentence.rest_taken (by decide) empty]
    exact Sentence.rest_foreign (by decide)
  refine north_shown (fun c member => foreign c ?_) ?_ done
  · rw [behind'.buf] at member
    exact List.mem_append_right _ member
  · rw [behind'.gps, foldl_north]
    exact foreign _ (List.mem_append_left _ (getLastD_mem (sentence.taken_ne_nil 3) _))

/-- Whatever `east_west` is set to in the segment of an empty field is of another one. -/
theorem Behind.east_foreign {locals : Local → List Mark} {after : Gps Mark}
    (behind : Behind sentence .gga gps locals 4 5 scan) (empty : sentence.field 5 = [])
    (done : scanning scan = .ok after) : Foreign 5 after.eastWest := by
  obtain ⟨next, reached, behind'⟩ := behind.pass (by decide) (by decide)
    (fun gps c => { gps with eastWest := c }) fun next segment command c _ => by
      unfold segmentCase
      rw [segment, command]
      rfl
  rw [reaches_scanning reached] at done
  have foreign : ∀ c ∈ sentence.taken 5 ++ sentence.rest 14 (sentence.after 5), Foreign 5 c := by
    rw [← Sentence.rest_taken (by decide) empty]
    exact Sentence.rest_foreign (by decide)
  refine east_shown (fun c member => foreign c ?_) ?_ done
  · rw [behind'.buf] at member
    exact List.mem_append_right _ member
  · rw [behind'.gps, foldl_east]
    exact foreign _ (List.mem_append_left _ (getLastD_mem (sentence.taken_ne_nil 5) _))

/-- The status of a `$GPGGA` sentence. -/
theorem segmentCase_status {next : Scan Mark} {c : Mark} (segment : next.segment.toNat = 6)
    (command : next.command = .gga) :
    segmentCase next c = .ok (if (byte c = ascii '0' : Bool) then .stop else .on next) := by
  unfold segmentCase
  rw [segment, command]
  by_cases none : byte c = ascii '0' <;> simp [none]

/-- A value that was read is not misread. -/
theorem Sentence.GgaRead.false_of_misread {before after : Gps Mark}
    (read : sentence.GgaRead before after) {slot : Local}
    (shown : slot ∈ [Local.wd, Local.jd, Local.sv, Local.alt])
    (misread : Misread slot.field (after.shown slot)) : False := by
  cases slot with
  | wd => exact readField_head (Local.fills .wd) read.latitude misread
  | jd => exact readField_head (Local.fills .jd) read.longitude misread
  | sv => exact readField_head (Local.fills .sv) read.satellites misread
  | alt => exact readField_head (Local.fills .alt) read.elevation misread
  | time | speed | direction | date => exact absurd shown (by decide)

/-- Where the values come from their own fields, the first field that is empty comes behind the
elevation. -/
theorem Sentence.GgaRead.filled {after : Gps Mark} (read : sentence.GgaRead stale.gps after)
    (holds : ∀ slot : Local, slot.command = .gga → slot.Holds (sentence.field slot.field).length)
    (done : scanning (Scan.start
      (("GPGGA".toList.map fun character => literal (ascii character)) ++ sentence.rest 14 1)
      stale.gps) = .ok after)
    (least : 1 ≤ index) (most : index ≤ 9)
    (filled : ∀ before, 1 ≤ before → before < index → sentence.field before ≠ [])
    (fixed : 6 < index → ascii '0' ∉ sentence.field 6) : sentence.field index ≠ [] := by
  intro empty
  obtain ⟨scan, upto, reached⟩ := @upto_gga sentence stale.gps index rfl holds least
    (by omega) filled fixed
  rw [reaches_scanning reached] at done
  -- A segment that is opened behind its field starts with another one.
  have late : ∀ (slot : Local) {segment place : Nat} {locals : Local → List Mark}
      {scan : Scan Mark}, slot ∈ [Local.wd, Local.jd, Local.sv, Local.alt] →
      Behind sentence slot.command (sentence.sides stale.gps index) locals segment place scan →
      segment + 1 = slot.field → place < slot.command.fields →
      slot.field < place ∨ slot.field = place ∧ sentence.field place = [] →
      scanning scan ≠ .ok after := by
    intro slot segment place locals scan shown behind opens inside late done
    have text : slot ≠ .time := by
      rintro rfl
      exact absurd shown (by decide)
    have digits : slot ≠ .date := by
      rintro rfl
      exact absurd shown (by decide)
    have undirected : slot ≠ .direction := by
      rintro rfl
      exact absurd shown (by decide)
    refine read.false_of_misread shown (behind.misread (Local.starts text digits) opens undirected
      (Nat.le_of_lt inside) late (.inr inside) (misread_sides (misread_stale ?_) index) done)
    exact List.mem_append_left [Local.speed] shown
  interval_cases index
  · obtain ⟨buffer, taken⟩ := (Local.holds_iff .time (sentence.taken 1)).mp trivial
    obtain ⟨next, onward, behind⟩ := @Behind.fill sentence _ _ 0 1 scan .time buffer upto.behind rfl
      (by decide) (by decide) (by rw [upto.unread .time rfl (by decide)]; exact taken)
    rw [reaches_scanning onward] at done
    have third : sentence.after 1 = 3 := if_pos empty
    exact late .wd (by decide) (third ▸ behind) rfl (by decide) (.inl (by decide)) done
  · exact late .wd (by decide) upto.behind rfl (by decide) (.inr ⟨rfl, empty⟩) done
  · refine (upto.behind.north_foreign empty done).2 ?_
    rw [read.northSouth, Sentence.mark_eq_nil_iff.mpr empty]
    rfl
  · exact late .jd (by decide) upto.behind rfl (by decide) (.inr ⟨rfl, empty⟩) done
  · refine (upto.behind.east_foreign empty done).2 ?_
    rw [read.eastWest, Sentence.mark_eq_nil_iff.mpr empty]
    rfl
  · by_cases unfixed : ∃ c ∈ sentence.taken 6, (byte c = ascii '0' : Bool) = true
    · have stopped := upto.behind.stop (by decide) (by decide) (fun c => byte c = ascii '0')
        (fun next segment command c _ => segmentCase_status segment command) unfixed
      obtain rfl := Except.ok.inj (stopped.symm.trans done)
      exact @Sentence.GgaRead.false_of_misread sentence _ _ read .wd (by decide)
        (misread_sides (@misread_stale .wd (by decide)) 6)
    · obtain ⟨next, onward, behind⟩ := upto.behind.next (by decide) (by decide)
        fun next segment command c member => by
          rw [segmentCase_status segment command, if_neg fun stops => unfixed ⟨c, member, stops⟩]
      rw [reaches_scanning onward] at done
      have eighth : sentence.after 6 = 8 := if_pos empty
      exact late .sv (by decide) (eighth ▸ behind) rfl (by decide) (.inl (by decide)) done
  · exact late .sv (by decide) upto.behind rfl (by decide) (.inr ⟨rfl, empty⟩) done
  · obtain ⟨next, onward, behind⟩ := upto.behind.next (by decide) (by decide)
      fun next segment command c _ => by
        unfold segmentCase
        rw [segment, command]
        rfl
    rw [reaches_scanning onward] at done
    have tenth : sentence.after 8 = 10 := if_pos empty
    exact late .alt (by decide) (tenth ▸ behind) rfl (by decide) (.inl (by decide)) done
  · exact late .alt (by decide) upto.behind rfl (by decide) (.inr ⟨rfl, empty⟩) done

/-- Where the values come from their own fields, the sentence has a fix. -/
theorem Sentence.GgaRead.fixed {after : Gps Mark} (read : sentence.GgaRead stale.gps after)
    (holds : ∀ slot : Local, slot.command = .gga → slot.Holds (sentence.field slot.field).length)
    (done : scanning (Scan.start
      (("GPGGA".toList.map fun character => literal (ascii character)) ++ sentence.rest 14 1)
      stale.gps) = .ok after)
    (filled : ∀ index, 1 ≤ index → index ≤ 6 → sentence.field index ≠ []) :
    ascii '0' ∉ sentence.field 6 := by
  intro none
  obtain ⟨scan, upto, reached⟩ := @upto_gga sentence stale.gps 6 rfl holds (by decide) (by decide)
    (fun before least below => filled before least (Nat.le_of_lt below))
    fun late => absurd late (by decide)
  rw [reaches_scanning reached] at done
  have taken : sentence.taken 6 = sentence.mark 6 := if_neg (filled 6 (by decide) (by decide))
  have stopped := upto.behind.stop (by decide) (by decide) (fun c => byte c = ascii '0')
    (fun next segment command c _ => segmentCase_status segment command)
    ⟨⟨ascii '0', some 6⟩, taken ▸ List.mem_map.mpr ⟨_, none, rfl⟩, rfl⟩
  obtain rfl := Except.ok.inj (stopped.symm.trans done)
  exact @Sentence.GgaRead.false_of_misread sentence _ _ read .wd (by decide)
    (misread_sides (@misread_stale .wd (by decide)) 6)

theorem Local.holds_of_readField {slot : Local} {text string : List Mark}
    (read : readField slot.handler slot text = .ok string) : slot.Holds text.length := by
  obtain ⟨buffer, filled, -⟩ := bind_eq_ok.mp read
  exact (slot.holds_iff text).mpr ⟨buffer, filled⟩

/-- A `$GPGGA` sentence whose values come from their own fields is sound. -/
theorem Sentence.GgaExtracts.sound (extracts : sentence.GgaExtracts) : sentence.GgaSound := by
  obtain ⟨after, done, read⟩ := extracts (fun _ => 0) stale rfl
  rw [printGpsinfoTimed, behindDollar_line sentence "GPGGA".toList 14 "$GPGGA" rfl,
    Option.elim_some] at done
  have gps := timedScanning_gps done
  have latitude : Local.wd.Holds (sentence.field 2).length :=
    Sentence.length_mark ▸ Local.holds_of_readField read.latitude
  have longitude : Local.jd.Holds (sentence.field 4).length :=
    Sentence.length_mark ▸ Local.holds_of_readField read.longitude
  have holds : ∀ slot : Local, slot.command = .gga →
      slot.Holds (sentence.field slot.field).length := by
    intro slot command
    cases slot with
    | wd => exact latitude
    | jd => exact longitude
    | time | alt | sv => trivial
    | speed | direction | date => cases command
  have six : ∀ index, 1 ≤ index → index ≤ 6 → sentence.field index ≠ [] := by
    intro index
    induction index using Nat.strongRecOn with
    | ind index ih =>
        intro least most
        exact read.filled holds gps least (most.trans (by decide))
          (fun before positive below => ih before below positive (by omega))
          fun late => absurd late (by omega)
  have fixed := read.fixed holds gps six
  have filled : ∀ index, 1 ≤ index → index ≤ 9 → sentence.field index ≠ [] := by
    intro index
    induction index using Nat.strongRecOn with
    | ind index ih =>
        intro least most
        exact read.filled holds gps least most
          (fun before positive below => ih before below positive (by omega)) fun _ => fixed
  refine ⟨filled, fixed, ?_, latitude, longitude⟩
  obtain ⟨scan, upto, reached⟩ := @upto_gga sentence stale.gps 10 rfl holds (by decide) (by decide)
    (fun before least below => filled before least (by omega)) fun _ => fixed
  obtain ⟨values, -, timed⟩ := upto.ends_gga rfl
  refine (time_fits_iff (upto.filled .time rfl (by decide))).mp fun stack => ?_
  obtain ⟨after', done', -⟩ := extracts stack stale rfl
  rw [line_timed rfl stack stale reached, timed] at done'
  cases printed : printTimestr stack (erase (scan.text .time)) with
  | error fault =>
      rw [printed] at done'
      cases done'
  | ok time => exact ⟨time, printed⟩

/-- A buffer holds the empty string exactly if its first cell ends it. -/
theorem takeWhile_eq_nil_iff {buffer : List Mark} {first : Mark} (head : buffer[0]? = some first) :
    (buffer.takeWhile fun symbol => byte symbol ≠ 0) = [] ↔ byte first = 0 := by
  cases buffer with
  | nil => cases head
  | cons cell buffer =>
      obtain rfl := Option.some.inj head
      by_cases zero : byte cell = 0
      · rw [List.takeWhile_cons_of_neg (by simpa using zero)]
        exact iff_of_true rfl zero
      · rw [List.takeWhile_cons_of_pos (by simpa using zero)]
        exact iff_of_false (List.cons_ne_nil _ _) zero

/-- A date of four characters or fewer leaves the first cell of its buffer alone, and any other
fills it. -/
theorem date_text_eq_nil_iff {text buffer : List Mark} (nonzero : ∀ c ∈ text, byte c ≠ 0)
    (read : fillAll Local.date.handler 0 text (blank .date) = .ok buffer) :
    (buffer.takeWhile fun symbol => byte symbol ≠ 0) = [] ↔ text.length ≤ 4 := by
  have fills := fills_atBuf (rewrites_putDate (α := Mark))
  change fillAll (atBuf putDate) 0 text _ = _ at read
  rcases text with _ | ⟨a, _ | ⟨b, _ | ⟨c, _ | ⟨d, _ | ⟨e, rest⟩⟩⟩⟩⟩
  · rw [fillAll_nil fills] at read
    obtain rfl := Except.ok.inj read
    exact iff_of_true rfl (by simp)
  · rw [fillAll_putDate rfl, fillAll_nil fills] at read
    obtain rfl := Except.ok.inj read
    exact iff_of_true rfl (by simp)
  · rw [fillAll_putDate rfl, fillAll_putDate rfl, fillAll_nil fills] at read
    obtain rfl := Except.ok.inj read
    exact iff_of_true rfl (by simp)
  · rw [fillAll_putDate rfl, fillAll_putDate rfl, fillAll_putDate rfl, fillAll_nil fills] at read
    obtain rfl := Except.ok.inj read
    exact iff_of_true rfl (by simp)
  · rw [fillAll_putDate rfl, fillAll_putDate rfl, fillAll_putDate rfl, fillAll_putDate rfl,
      fillAll_nil fills] at read
    obtain rfl := Except.ok.inj read
    exact iff_of_true rfl (by simp)
  · rw [fillAll_putDate rfl, fillAll_putDate rfl, fillAll_putDate rfl, fillAll_putDate rfl,
      fillAll_putDate rfl] at read
    have long : ¬ (a :: b :: c :: d :: e :: rest).length ≤ 4 := by
      simp only [List.length_cons]
      omega
    simp only [List.forall_mem_cons] at nonzero
    obtain ⟨-, -, -, -, fifth, others⟩ := nonzero
    rcases (fillAll_cell fills read).2 with kept | ⟨other, member, set⟩
    · exact iff_of_false (mt (takeWhile_eq_nil_iff kept).mp fifth) long
    · exact iff_of_false (mt (takeWhile_eq_nil_iff set).mp (others other member)) long

/-- What is stored behind a `$GPRMC` sentence. -/
theorem EndsAt.rmc {after : List Mark} {last : Scan Mark}
    (endsAt : EndsAt Sentence.asterisk after scan last) (command : scan.command = .rmc)
    (clear : scan.gps.flagGPRMC = false)
    (ended : ∀ slot : Local, slot.command = .rmc → Ended slot.size slot.last (scan.locals slot)) :
    ∃ gps : Gps Mark, (∀ stack gpsTime, timedScanning stack gpsTime scan = .ok ⟨gps, gpsTime⟩) ∧
      gps.gpsVelocity = scan.text .speed ∧ gps.gpsOrientation = scan.text .direction ∧
      gps.gpsDate = literal (ascii '2') :: literal (ascii '0') :: scan.text .date := by
  obtain ⟨gps, stored, values⟩ := store_rmc_ended command clear ended
  refine ⟨gps, fun stack gpsTime => ?_, values⟩
  rw [endsAt.timed rfl stored, storeTime_rmc command]
  rfl

/-- What a `$GPRMC` sentence without an empty field up to the speed comes to. A date that is empty
behind a direction is filled from what comes behind it. -/
theorem Upto.course (upto : Upto sentence .rmc gps 8 scan) :
    ∃ next last, Reaches round scan next ∧
      EndsAt Sentence.asterisk sentence.behind next last ∧ next.command = .rmc ∧ next.gps = gps ∧
      (∀ slot ∈ [Local.speed, Local.direction],
        fillAll slot.handler 0 (sentence.mark slot.field) (blank slot) = .ok (next.locals slot)) ∧
      fillAll Local.date.handler 0
        (if sentence.field 8 = [] then sentence.mark 9 else sentence.taken 9) (blank .date) =
          .ok (next.locals .date) := by
  have speed := upto.filled .speed rfl (by decide)
  by_cases empty : sentence.field 8 = []
  · have reached := upto.behind.undirected empty
    have segment : (scan.segment + 1 + 1).toNat = 9 := by
      have same := upto.behind.segment
      rw [toNat_succ, toNat_succ, same]
      · omega
      · rw [toNat_succ] <;> omega
    have direction : fillAll Local.direction.handler 0 (sentence.mark 8) (blank .direction) =
        .ok (scan.locals .direction) := by
      rw [upto.unread .direction rfl (by decide), Sentence.mark_eq_nil_iff.mpr empty,
        fillAll_nil (Local.fills .direction)]
    rw [if_pos empty]
    obtain ⟨date, read⟩ := (Local.holds_iff .date (sentence.mark 9)).mp trivial
    by_cases undated : sentence.field 9 = []
    · have none := Sentence.mark_eq_nil_iff.mpr undated
      rw [none, List.nil_append] at reached
      have behind : Behind sentence .rmc gps scan.locals 9 10 { scan with
          buf := sentence.rest 12 10, segment := scan.segment + 1 + 1, bytes := 0 } :=
        ⟨rfl, segment, upto.kind, upto.gps, rfl⟩
      obtain ⟨last, endsAt⟩ := behind.tail
      refine ⟨_, last, reached, endsAt, upto.kind, upto.gps, ?_, ?_⟩
      · intro slot member
        rcases List.mem_pair.mp member with rfl | rfl
        · exact speed
        · exact direction
      · rw [none, fillAll_nil (Local.fills .date), upto.unread .date rfl (by decide)]
    · have nonempty := mt Sentence.mark_eq_nil_iff.mp undated
      obtain ⟨c, text, split⟩ := List.exists_cons_of_ne_nil nonempty
      have plain := (Sentence.mem_mark (split ▸ List.mem_cons_self .. : c ∈ sentence.mark 9)).1
      obtain ⟨bytes, enters⟩ := @enters_fill _ _ _ (Local.fills .date) .date (sentence.mark 9) date
        { scan with segment := scan.segment + 1 + 1, bytes := 0 } (sentence.rest 12 10) nonempty
        (fun _ => plain_head) (fun _ => plain_tail)
        (fun next beside c _ => Local.segmentCase_eq
          ((congrArg UInt8.toNat beside.1).trans segment) (beside.2.trans upto.kind) nofun)
        (by rw [← upto.unread .date rfl (by decide)] at read; exact read)
      have onward := enters.plain (by rw [split]; rfl) plain.1 plain.2.1
      have behind : Behind sentence .rmc gps (Function.update scan.locals .date date) 9 10
          { scan with
            buf := sentence.rest 12 10, segment := scan.segment + 1 + 1, bytes := bytes,
            locals := Function.update scan.locals .date date } :=
        ⟨rfl, segment, upto.kind, upto.gps, rfl⟩
      obtain ⟨last, endsAt⟩ := behind.tail
      refine ⟨_, last, reached.trans onward, endsAt, upto.kind, upto.gps, ?_, ?_⟩
      · intro slot member
        rcases List.mem_pair.mp member with rfl | rfl
        · exact speed
        · exact direction
      · dsimp only
        rw [Function.update_self]
        exact read
  · rw [if_neg empty]
    obtain ⟨ninth, reached, upto⟩ := upto.next_rmc (by decide) (by decide) empty
      fun same => absurd same (by decide)
    obtain ⟨date, read⟩ := (Local.holds_iff .date (sentence.taken 9)).mp trivial
    obtain ⟨next, onward, behind⟩ := @Behind.fill sentence _ _ 8 9 ninth .date date upto.behind rfl
      (by decide) nofun (by rw [upto.unread .date rfl (by decide)]; exact read)
    obtain ⟨last, endsAt⟩ := behind.tail
    refine ⟨next, last, reached.trans onward, endsAt, behind.kind, behind.gps, ?_, ?_⟩
    · intro slot member
      rw [behind.locals]
      rcases List.mem_pair.mp member with rfl | rfl
      · exact upto.filled .speed rfl (by decide)
      · exact upto.filled .direction rfl (by decide)
    · rw [behind.locals, Function.update_self]
      exact read

/-- What a buffer gives that is filled from a text. -/
theorem readField_eq {slot : Local} {text buffer : List Mark}
    (read : fillAll slot.handler 0 text (blank slot) = .ok buffer) :
    readField slot.handler slot text = .ok (buffer.takeWhile fun symbol => byte symbol ≠ 0) :=
  readField_of_fillAll read (Local.ended_of_fillAll read)

theorem readField_nil (slot : Local) :
    readField (slot.handler : Handler Mark) slot [] = .ok [] := by
  rw [readField_eq (fillAll_nil slot.fills 0 (blank slot))]
  cases slot <;> rfl

/-- A field that is not empty gives a text that is not empty, except for the date. -/
theorem readField_ne_nil {slot : Local} (starts : Starts (slot.handler : Handler Mark))
    (nonempty : sentence.field index ≠ []) :
    readField slot.handler slot (sentence.mark index) ≠ .ok [] := by
  intro none
  obtain ⟨c, text, split⟩ := List.exists_cons_of_ne_nil (mt Sentence.mark_eq_nil_iff.mp nonempty)
  have nonzero : ∀ c ∈ sentence.mark index, byte c ≠ 0 := fun c member =>
    (Sentence.mem_mark member).1.1
  rw [split] at none nonzero
  obtain ⟨buffer, read, string⟩ := bind_eq_ok.mp none
  have whole := cstring_eq_ok string
  rw [fillAll_cons slot.fills] at read
  obtain ⟨filled, wrote, read⟩ := bind_eq_ok.mp read
  have first := starts c text _ filled wrote
  have within := (slot.fills _ _ _ _ _ wrote).suffix
  rcases (fillAll_cell slot.fills read).2 with kept | ⟨other, member, set⟩
  · exact nonzero c (List.mem_cons_self ..)
      ((takeWhile_eq_nil_iff (kept.trans first)).mp whole.symm)
  · exact nonzero other (within.subset (List.mem_of_mem_tail member))
      ((takeWhile_eq_nil_iff set).mp whole.symm)

/-- What is stored for a date that gives no text is the century alone. -/
theorem readField_date_eq_nil_iff {text : List Mark} (nonzero : ∀ c ∈ text, byte c ≠ 0) :
    readField Local.date.handler .date text = .ok [] ↔ text.length ≤ 4 := by
  obtain ⟨buffer, read⟩ := (Local.holds_iff .date text).mp trivial
  rw [readField_eq read, ← date_text_eq_nil_iff nonzero read]
  exact ⟨Except.ok.inj, congrArg Except.ok⟩

/-- What is taken for a date is one, or gives no text where there is none. -/
theorem readField_taken_iff :
    readField Local.date.handler .date
        (if sentence.field 8 = [] then sentence.mark 9 else sentence.taken 9) =
      readField Local.date.handler .date (sentence.mark 9) ↔
    sentence.field 8 = [] ∨ sentence.field 9 ≠ [] ∨ (sentence.field 10).length ≤ 3 := by
  by_cases undirected : sentence.field 8 = []
  · rw [if_pos undirected]
    exact iff_of_true rfl (.inl undirected)
  · rw [if_neg undirected]
    by_cases undated : sentence.field 9 = []
    · have taken : sentence.taken 9 = Sentence.comma 10 :: sentence.mark 10 := if_pos undated
      have nonzero : ∀ c ∈ Sentence.comma 10 :: sentence.mark 10, byte c ≠ 0 := by
        intro c member
        rcases List.mem_cons.mp member with rfl | member
        · rw [Sentence.byte_comma]
          decide
        · exact (Sentence.mem_mark member).1.1
      rw [Sentence.mark_eq_nil_iff.mpr undated, readField_nil, taken,
        readField_date_eq_nil_iff nonzero, List.length_cons, Sentence.length_mark]
      constructor
      · exact fun short => .inr (.inr (Nat.le_of_succ_le_succ short))
      · rintro (none | dated | short)
        · exact absurd none undirected
        · exact absurd undated dated
        · exact Nat.succ_le_succ short
    · have taken : sentence.taken 9 = sentence.mark 9 := if_neg undated
      rw [taken]
      exact iff_of_true rfl (.inr (.inl undated))

/-- What a `$GPRMC` sentence without an empty field up to the speed stores. -/
theorem Upto.ends_rmc (upto : Upto sentence .rmc gps 8 scan) (clear : gps.flagGPRMC = false) :
    ∃ (after : Gps Mark) (date : List Mark),
      (∀ stack gpsTime, timedScanning stack gpsTime scan = .ok ⟨after, gpsTime⟩) ∧
      readField Local.speed.handler .speed (sentence.mark 7) = .ok after.gpsVelocity ∧
      readField Local.direction.handler .direction (sentence.mark 8) = .ok after.gpsOrientation ∧
      after.gpsDate = literal (ascii '2') :: literal (ascii '0') :: date ∧
      readField Local.date.handler .date
        (if sentence.field 8 = [] then sentence.mark 9 else sentence.taken 9) = .ok date := by
  obtain ⟨next, last, reached, endsAt, command, same, fields, date⟩ := upto.course
  have speed := fields .speed (by decide)
  have direction := fields .direction (by decide)
  have ended : ∀ slot : Local, slot.command = .rmc →
      Ended slot.size slot.last (next.locals slot) := by
    intro slot rmc
    cases slot with
    | speed => exact Local.ended_of_fillAll speed
    | direction => exact Local.ended_of_fillAll direction
    | date => exact Local.ended_of_fillAll date
    | time | wd | jd | alt | sv => cases rmc
  obtain ⟨after, timed, velocity, orientation, century⟩ := endsAt.rmc command (same ▸ clear) ended
  refine ⟨after, next.text .date, fun stack gpsTime => ?_, ?_, ?_, century, readField_eq date⟩
  · rw [timedScanning_reached reached, timed]
  · exact velocity ▸ readField_eq speed
  · exact orientation ▸ readField_eq direction

/-- What a `$GPRMC` sentence stores that comes to its end in front of the speed. -/
theorem Behind.ends_bare {locals : Local → List Mark}
    (behind : Behind sentence .rmc gps locals 6 12 scan) (empty : sentence.field 12 = [])
    (unread : ∀ slot : Local, slot.command = .rmc → locals slot = blank slot)
    (clear : gps.flagGPRMC = false) :
    ∃ after : Gps Mark, (∀ stack gpsTime, timedScanning stack gpsTime scan = .ok ⟨after, gpsTime⟩) ∧
      after.gpsVelocity = [] ∧ after.gpsOrientation = [] ∧
      after.gpsDate = [literal (ascii '2'), literal (ascii '0')] := by
  have line : scan.buf = Sentence.comma 12 :: Sentence.asterisk :: sentence.behind := by
    refine behind.buf.trans ((@Sentence.rest_eq sentence 12 12 (Nat.le_refl 12)).trans ?_)
    rw [Sentence.mark_eq_nil_iff.mpr empty, List.nil_append, Sentence.rest_last]
  have endsAt : EndsAt Sentence.asterisk sentence.behind scan scan :=
    ⟨.start, .inr ⟨_, line, rfl⟩, rfl, rfl, rfl⟩
  have blanks : ∀ slot : Local, slot.command = .rmc → scan.locals slot = blank slot :=
    fun slot rmc => behind.locals ▸ unread slot rmc
  obtain ⟨after, timed, velocity, orientation, century⟩ := endsAt.rmc behind.kind
    (behind.gps ▸ clear) fun slot rmc => by rw [blanks slot rmc]; exact slot.ended_blank
  refine ⟨after, timed, ?_, ?_, ?_⟩
  · rw [velocity, Scan.text, blanks .speed rfl]
    rfl
  · rw [orientation, Scan.text, blanks .direction rfl]
    rfl
  · rw [century, Scan.text, blanks .date rfl]
    rfl

/-- The values of a sound `$GPRMC` sentence come from their own fields. -/
theorem Sentence.RmcSound.extracts (sound : sentence.RmcSound) : sentence.RmcExtracts := by
  intro stack before clear
  obtain ⟨scan, upto, reached⟩ := @upto_rmc sentence before.gps 8 clear (by decide) (by decide)
    (fun index least below => sound.filled index least (by omega)) fun _ => sound.active
  obtain ⟨after, date, timed, speed, direction, century, read⟩ := upto.ends_rmc clear
  refine ⟨⟨after, before.gpsTime⟩, ?_, speed, direction, date, ?_, century⟩
  · rw [line_timed rfl stack before reached, timed]
  · rw [← readField_taken_iff.mpr sound.date]
    exact read

/-- So do those of a bare one. -/
theorem Sentence.RmcBare.extracts (bare : sentence.RmcBare) : sentence.RmcExtracts := by
  intro stack before clear
  obtain ⟨scan, upto, reached⟩ := start_rmc sentence clear
  obtain ⟨second, passed, behind⟩ := upto.behind.status bare.time
  have taken : sentence.taken 3 = sentence.mark 3 := if_neg bare.active.1
  obtain ⟨last, onward, behind⟩ := behind.bare bare.active.1 fun c member =>
    active_of_mem bare.active.2 (taken ▸ member)
  have twelfth : sentence.after^[4] 4 = 12 := by
    refine (sentence.iterate_after_eq_iff 4 4).mpr fun step below => bare.empty _ ?_
    interval_cases step <;> decide
  rw [twelfth] at behind
  have speed := bare.empty 7 (by decide)
  have direction := bare.empty 8 (by decide)
  obtain ⟨after, timed, velocity, orientation, century⟩ := behind.ends_bare
    (bare.empty 12 (by decide)) (fun slot rmc => upto.unread slot rmc (by cases slot <;> decide)) clear
  refine ⟨⟨after, before.gpsTime⟩, ?_, ?_, ?_, [], ?_, century⟩
  · rw [line_timed rfl stack before reached, timedScanning_reached passed,
      timedScanning_reached onward, timed]
  · rw [Sentence.mark_eq_nil_iff.mpr speed, readField_nil, velocity]
  · rw [Sentence.mark_eq_nil_iff.mpr direction, readField_nil, orientation]
  · refine (readField_date_eq_nil_iff fun c member => (Sentence.mem_mark member).1.1).mpr ?_
    rw [Sentence.length_mark]
    exact bare.date

/-- A speed that was read is not misread. -/
theorem Sentence.RmcRead.not_misread {after : Gps Mark} (read : sentence.RmcRead after) :
    ¬ Misread 7 (after.shown .speed) :=
  readField_head (Local.fills .speed) read.speed

/-- Where the segment of the speed is opened behind its field, or in front of its field if that is
empty, the speed is not read from it. -/
theorem Behind.not_speed {locals : Local → List Mark} {after : Gps Mark}
    (behind : Behind sentence .rmc stale.gps locals 6 index scan) (inside : index ≤ 12)
    (late : 7 < index ∨ 7 = index ∧ sentence.field index = [])
    (more : sentence.field index ≠ [] ∨ index < 12)
    (read : sentence.RmcRead after) : scanning scan ≠ .ok after := fun done =>
  read.not_misread (@Behind.misread sentence stale.gps locals 6 index scan .speed after behind
    (Local.starts nofun nofun) rfl nofun inside late more (@misread_stale .speed (by decide)) done)

/-- A `$GPRMC` sentence that stops at its status reads no speed. -/
theorem Behind.inactive {locals : Local → List Mark} {after : Gps Mark}
    (behind : Behind sentence .rmc stale.gps locals 1 index scan) (inside : index < 12)
    (read : sentence.RmcRead after) (done : scanning scan = .ok after) :
    ∀ c ∈ sentence.taken index, byte c = ascii 'A' := by
  by_contra inactive
  have stopped := behind.stop (by decide) inside (fun c => byte c ≠ ascii 'A')
    (fun next segment command c _ => segmentCase_active segment command)
    (by simpa using inactive)
  obtain rfl := Except.ok.inj (stopped.symm.trans done)
  exact read.not_misread (@misread_stale .speed (by decide))

/-- What a segment takes behind an empty field starts with a comma. -/
theorem nonempty_of_taken (active : ∀ c ∈ sentence.taken index, byte c = ascii 'A') :
    sentence.field index ≠ [] := by
  intro empty
  have comma := active (Sentence.comma (index + 1)) (by
    rw [Sentence.taken, if_pos empty]
    exact List.mem_cons_self ..)
  exact absurd comma (by rw [Sentence.byte_comma]; decide)

/-- Where the values of a `$GPRMC` sentence with a time come from their own fields, its status is a
fix. -/
theorem Sentence.RmcRead.active {after : Gps Mark} (read : sentence.RmcRead after)
    (done : scanning (Scan.start
      (("GPRMC".toList.map fun character => literal (ascii character)) ++ sentence.rest 12 1)
      stale.gps) = .ok after) (time : sentence.field 1 ≠ []) :
    sentence.field 2 ≠ [] ∧ ∀ value ∈ sentence.field 2, value = ascii 'A' := by
  obtain ⟨scan, upto, reached⟩ := @upto_rmc sentence stale.gps 2 rfl (by decide) (by decide)
    (fun before least below => by
      obtain rfl : before = 1 := by omega
      exact time) fun late => absurd late (by decide)
  rw [reaches_scanning reached] at done
  have active := upto.behind.inactive (by decide) read done
  have nonempty := nonempty_of_taken active
  refine ⟨nonempty, fun value member => ?_⟩
  have taken : sentence.taken 2 = sentence.mark 2 := if_neg nonempty
  exact active ⟨value, some 2⟩ (taken ▸ List.mem_map.mpr ⟨value, member, rfl⟩)

/-- Where the values of a `$GPRMC` sentence with a fix come from their own fields, the first field
that is empty comes behind the speed. -/
theorem Sentence.RmcRead.filled {after : Gps Mark} (read : sentence.RmcRead after)
    (done : scanning (Scan.start
      (("GPRMC".toList.map fun character => literal (ascii character)) ++ sentence.rest 12 1)
      stale.gps) = .ok after) (least : 3 ≤ index) (most : index ≤ 7)
    (active : ∀ value ∈ sentence.field 2, value = ascii 'A')
    (filled : ∀ before, 1 ≤ before → before < index → sentence.field before ≠ []) :
    sentence.field index ≠ [] := by
  intro empty
  obtain ⟨segment, rfl⟩ : ∃ segment, index = segment + 1 := ⟨index - 1, by omega⟩
  obtain ⟨scan, upto, reached⟩ := @upto_rmc sentence stale.gps (segment + 1) rfl (by omega)
    (by omega) filled fun _ => active
  rw [reaches_scanning reached] at done
  by_cases last : segment = 6
  · subst last
    exact upto.behind.not_speed (by decide) (.inr ⟨rfl, empty⟩) (.inr (by decide)) read done
  · have inside : segment + 1 < Command.rmc.fields := by
      change segment + 1 < 12
      omega
    obtain ⟨next, passed, behind⟩ := upto.behind.next (by omega) inside
      fun next opened command c _ => segmentCase_rmc next command (by omega) c
    have second : sentence.after (segment + 1) = segment + 3 := if_pos empty
    rw [second] at behind
    obtain ⟨steps, left⟩ : ∃ steps, segment + 1 + steps = 6 := ⟨5 - segment, by omega⟩
    obtain ⟨eighth, onward, behind⟩ := @Behind.drift _ _ _ _ _ _ behind (by omega) steps (by omega)
      (by omega)
    have bounds := sentence.iterate_after steps (segment + 3)
    rw [reaches_scanning passed, reaches_scanning onward] at done
    rw [left] at behind
    exact behind.not_speed (by omega) (.inl (by omega)) (.inr (by omega)) read done

/-- A `$GPRMC` sentence without a time whose values come from their own fields is bare. -/
theorem Sentence.RmcRead.bare {after : Timed Mark} (read : sentence.RmcRead after.gps)
    (done : printGpsinfoTimed (fun _ => 0) (sentence.line "$GPRMC" 12) stale = .ok after)
    (time : sentence.field 1 = []) : sentence.RmcBare := by
  obtain ⟨scan, upto, reached⟩ := @start_rmc stale.gps sentence rfl
  rw [line_timed rfl _ stale reached] at done
  obtain ⟨second, passed, behind⟩ := upto.behind.status time
  rw [timedScanning_reached passed] at done
  have active := behind.inactive (by decide) read (timedScanning_gps done)
  have nonempty := nonempty_of_taken active
  have taken : sentence.taken 3 = sentence.mark 3 := if_neg nonempty
  obtain ⟨last, onward, behind⟩ := behind.bare nonempty active
  rw [timedScanning_reached onward] at done
  have bounds := sentence.iterate_after 4 4
  obtain ⟨twelfth, empty⟩ : sentence.after^[4] 4 = 12 ∧ sentence.field 12 = [] := by
    by_contra other
    refine behind.not_speed bounds.2 (.inl bounds.1) ?_ read (timedScanning_gps done)
    by_cases twelfth : sentence.after^[4] 4 = 12
    · rw [twelfth]
      exact .inl fun empty => other ⟨twelfth, empty⟩
    · exact .inr (by omega)
  have every := (sentence.iterate_after_eq_iff 4 4).mp twelfth
  rw [twelfth] at behind
  obtain ⟨stored, timed, velocity, orientation, century⟩ := behind.ends_bare empty
    (fun slot rmc => upto.unread slot rmc (by cases slot <;> decide)) rfl
  obtain rfl := Except.ok.inj ((timed _ _).symm.trans done)
  have speed : sentence.field 7 = [] := by
    by_contra nonempty
    exact readField_ne_nil (@Local.starts Mark _ .speed nofun nofun) nonempty
      (velocity ▸ read.speed)
  have direction : sentence.field 8 = [] := every 2 (by decide)
  refine ⟨time, ⟨nonempty, fun value member => ?_⟩, ?_, ?_⟩
  · exact active ⟨value, some 3⟩ (taken ▸ List.mem_map.mpr ⟨value, member, rfl⟩)
  · simp only [List.forall_mem_cons, List.not_mem_nil, false_implies, implies_true, and_true]
    exact ⟨every 0 (by decide), every 1 (by decide), speed, direction, every 3 (by decide), empty⟩
  · obtain ⟨date, text, same⟩ := read.date
    have none : date = [] := by
      rw [century] at same
      exact (List.cons.inj (List.cons.inj same).2).2.symm
    rw [none] at text
    have short := (readField_date_eq_nil_iff fun c member => (Sentence.mem_mark member).1.1).mp text
    exact Sentence.length_mark ▸ short

/-- A `$GPRMC` sentence whose values come from their own fields is sound or bare. -/
theorem Sentence.RmcExtracts.sound (extracts : sentence.RmcExtracts) :
    sentence.RmcSound ∨ sentence.RmcBare := by
  obtain ⟨after, done, read⟩ := extracts (fun _ => 0) stale rfl
  by_cases time : sentence.field 1 = []
  · exact .inr (read.bare done time)
  have start := done
  rw [printGpsinfoTimed, behindDollar_line sentence "GPRMC".toList 12 "$GPRMC" rfl,
    Option.elim_some] at start
  have gps := timedScanning_gps start
  obtain ⟨status, active⟩ := read.active gps time
  have filled : ∀ index, 1 ≤ index → index ≤ 7 → sentence.field index ≠ [] := by
    intro index
    induction index using Nat.strongRecOn with
    | ind index ih =>
        intro least most
        by_cases late : 3 ≤ index
        · exact read.filled gps late most active fun before positive below =>
            ih before below positive (by omega)
        · interval_cases index
          · exact time
          · exact status
  obtain ⟨scan, upto, reached⟩ := @upto_rmc sentence stale.gps 8 rfl (by decide) (by decide)
    (fun before least below => filled before least (by omega)) fun _ => active
  obtain ⟨stored, date, timed, -, -, century, taken⟩ := upto.ends_rmc rfl
  rw [line_timed rfl _ stale reached, timed] at done
  obtain rfl := Except.ok.inj done
  obtain ⟨date', text, same⟩ := read.date
  have dates : date = date' := (List.cons.inj (List.cons.inj (century.symm.trans same)).2).2
  refine .inl ⟨filled, active, readField_taken_iff.mp ?_⟩
  rw [taken, text, dates]

end

/-- The values of a sentence come from their own fields, and from no other ones, exactly if it is
sound, or a bare `$GPRMC` sentence. -/
theorem Sentence.extracts_iff (sentence : Sentence) :
    (sentence.GgaExtracts ↔ sentence.GgaSound) ∧
      (sentence.RmcExtracts ↔ sentence.RmcSound ∨ sentence.RmcBare) := by
  refine ⟨⟨fun extracts => extracts.sound, fun sound => sound.extracts⟩,
    fun extracts => extracts.sound, ?_⟩
  rintro (sound | bare)
  · exact sound.extracts
  · exact bare.extracts

/-- A `$GPGGA` sentence with a fix, but without a dilution of precision. -/
def undilutedTexts : List String :=
  ["050509.50", "3114.361111", "N", "12129.968941", "E", "1", "06", "", "-42.1", "M", "", "M", "", ""]

theorem undiluted_plain : ∀ text ∈ undilutedTexts, ∀ value ∈ text.toList.map ascii,
    value ≠ 0 ∧ value ≠ ascii ',' ∧ value ≠ ascii '*' := by decide +kernel

theorem undiluted_checksum : ∀ value ∈ "2C".toList.map ascii, value ≠ 0 ∧ value ≠ ascii ',' := by
  decide +kernel

def undiluted : Sentence := .ofTexts undilutedTexts "2C" undiluted_plain undiluted_checksum

/-- Its elevation is read from the unit behind it. -/
theorem not_extracts_undiluted : undiluted.field 6 = [ascii '1'] ∧ ¬ undiluted.GgaExtracts := by
  refine ⟨by decide +kernel, fun extracts => ?_⟩
  obtain ⟨after, done, read⟩ := extracts (fun _ => 0) stale rfl
  have shifted : ((printGpsinfoTimed (fun _ => 0) (undiluted.line "$GPGGA" 14) stale).toOption.map
      fun timed => timed.gps.gpsElevation) = some [⟨ascii 'M', some 10⟩] := by decide +kernel
  have alone : (readField Local.alt.handler .alt (undiluted.mark 9)).toOption ≠
      some [⟨ascii 'M', some 10⟩] := by decide +kernel
  rw [done] at shifted
  refine alone ?_
  rw [read.elevation]
  exact shifted

end Trunk.Rgps
