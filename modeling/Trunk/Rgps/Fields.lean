import Trunk.Rgps.Places

/-! # Sentences without empty fields

Each buffer is filled from one field of one sentence. As long as no field is empty, the segment in
which the loop is has the number of the field that it reads (`Trunk.Rgps.Upto`), and so every value
comes from its own field (`Trunk.Rgps.Upto.gga`, `Trunk.Rgps.Upto.rmc`).
-/

namespace Trunk.Rgps

open CString Provenance Provenance.Glyph Loop

/-- The number of fields of a sentence. -/
def Command.fields : Command → Nat
  | .none => 0
  | .gga => 14
  | .rmc => 12

/-- The name of a sentence. -/
def Command.name : Command → String
  | .none => ""
  | .gga => "$GPGGA"
  | .rmc => "$GPRMC"

namespace Local

/-- The sentence that a buffer is filled from. -/
def command : Local → Command
  | .time | .wd | .jd | .alt | .sv => .gga
  | .speed | .direction | .date => .rmc

/-- The field that a buffer is filled from. -/
def field : Local → Nat
  | .time => 1
  | .wd => 2
  | .jd => 4
  | .sv | .speed => 7
  | .direction => 8
  | .alt | .date => 9

/-- The case of the switch that fills a buffer. -/
def handler {α : Type} [Glyph α] : Local → Handler α
  | .time => atBuf putTime
  | .wd => putCoordinate 10 2 5
  | .jd => putCoordinate 11 3 6
  | .alt => atBuf (putText 7)
  | .sv => atBuf putSatellites
  | .speed => atBuf (putText 5)
  | .direction => atBuf (putText 6)
  | .date => atBuf putDate

/-- The lengths of a field that a buffer can be filled from: in a coordinate the character that is
left out is not the last one. -/
def Holds : Local → Nat → Prop
  | .wd, length => length ≠ 5 ∧ length ≤ 20
  | .jd, length => length ≠ 6 ∧ length ≤ 12
  | _, _ => True

variable {α : Type} [Glyph α]

theorem fills (slot : Local) : Fills (slot.handler : Handler α) := by
  cases slot with
  | time => exact fills_atBuf rewrites_putTime
  | wd => exact layout_wd.fills
  | jd => exact layout_jd.fills
  | alt => exact fills_atBuf (rewrites_putText 7)
  | sv => exact fills_atBuf rewrites_putSatellites
  | speed => exact fills_atBuf (rewrites_putText 5)
  | direction => exact fills_atBuf (rewrites_putText 6)
  | date => exact fills_atBuf rewrites_putDate

/-- The first character of a field is the first one of its buffer, except for the date. -/
theorem starts {slot : Local} (text : slot ≠ .time) (digits : slot ≠ .date) :
    Starts (slot.handler : Handler α) := by
  cases slot with
  | wd => exact fun c text buffer filled wrote => putCoordinate_first layout_wd wrote
  | jd => exact fun c text buffer filled wrote => putCoordinate_first layout_jd wrote
  | alt => exact starts_atBuf fun _ _ _ => putText_first (by decide)
  | sv => exact starts_atBuf fun _ _ _ => putSatellites_first
  | speed => exact starts_atBuf fun _ _ _ => putText_first (by decide)
  | direction => exact starts_atBuf fun _ _ _ => putText_first (by decide)
  | time => exact absurd rfl text
  | date => exact absurd rfl digits

theorem ended_blank (slot : Local) : Ended slot.size slot.last (blank slot : List α) :=
  Rgps.ended_blank (by cases slot <;> decide)

/-- A buffer can be filled from exactly the texts of these lengths, and ends a string then. -/
theorem fillAll_iff (slot : Local) (text : List α) :
    (slot.Holds text.length ∧ ∃ buffer, fillAll slot.handler 0 text (blank slot) = .ok buffer ∧
      Ended slot.size slot.last buffer) ∨
    (¬ slot.Holds text.length ∧ ∃ fault, fillAll slot.handler 0 text (blank slot) = .error fault) := by
  have never : ∀ {write : Writer α}, Rewrites write → Keeps slot.size slot.last write →
      ∃ buffer, fillAll (atBuf write) 0 text (blank slot) = .ok buffer ∧
        Ended slot.size slot.last buffer := fun rewrites keeps =>
    fillAll_keeps rewrites keeps 0 text slot.ended_blank
  cases slot with
  | time => exact .inl ⟨trivial, never rewrites_putTime keeps_putTime⟩
  | alt => exact .inl ⟨trivial, never (rewrites_putText 7) (keeps_putText 7)⟩
  | sv => exact .inl ⟨trivial, never rewrites_putSatellites keeps_putSatellites⟩
  | speed => exact .inl ⟨trivial, never (rewrites_putText 5) (keeps_putText 5)⟩
  | direction => exact .inl ⟨trivial, never (rewrites_putText 6) (keeps_putText 6)⟩
  | date => exact .inl ⟨trivial, never rewrites_putDate keeps_putDate⟩
  | wd =>
      have fits : Fits 2 5 20 0 text.length ↔ Local.wd.Holds text.length := by
        simp [Fits, early, Holds]
      have read := @fillAll_coordinate _ _ _ _ _ _ 0 text _ layout_wd
        (ended_blank (α := α) .wd) (Nat.zero_le _)
      exact read.imp (fun both => ⟨fits.mp both.1, both.2⟩) fun both => ⟨mt fits.mpr both.1, both.2⟩
  | jd =>
      have fits : Fits 3 6 12 0 text.length ↔ Local.jd.Holds text.length := by
        simp [Fits, early, Holds]
      have read := @fillAll_coordinate _ _ _ _ _ _ 0 text _ layout_jd
        (ended_blank (α := α) .jd) (Nat.zero_le _)
      exact read.imp (fun both => ⟨fits.mp both.1, both.2⟩) fun both => ⟨mt fits.mpr both.1, both.2⟩

theorem holds_iff (slot : Local) (text : List α) :
    slot.Holds text.length ↔ ∃ buffer, fillAll slot.handler 0 text (blank slot) = .ok buffer := by
  rcases slot.fillAll_iff text with ⟨holds, buffer, read, -⟩ | ⟨holds, fault, failed⟩
  · exact iff_of_true holds ⟨buffer, read⟩
  · refine iff_of_false holds ?_
    rintro ⟨buffer, read⟩
    rw [failed] at read
    cases read

/-- What is filled from a text ends a string. -/
theorem ended_of_fillAll {slot : Local} {text buffer : List α}
    (read : fillAll slot.handler 0 text (blank slot) = .ok buffer) :
    Ended slot.size slot.last buffer := by
  rcases slot.fillAll_iff text with ⟨-, buffer', read', ended⟩ | ⟨-, fault, failed⟩
  · obtain rfl := Except.ok.inj (read.symm.trans read')
    exact ended
  · rw [failed] at read
    cases read

/-- The case of the switch at the field of a buffer fills it. -/
theorem segmentCase_eq {slot : Local} {next : Scan α} {c : α}
    (segment : next.segment.toNat = slot.field) (command : next.command = slot.command)
    (other : slot = .direction → byte c ≠ ascii ',') :
    segmentCase next c = fill next slot slot.handler := by
  unfold segmentCase
  rw [segment, command]
  cases slot with
  | direction => exact if_neg (other rfl)
  | time | wd | jd | alt | sv | speed | date => rfl

theorem field_injective {slot slot' : Local} (command : slot.command = slot'.command)
    (field : slot.field = slot'.field) : slot = slot' := by
  cases slot <;> cases slot' <;>
    first | rfl | exact absurd field (by decide) | exact absurd command (by decide)

end Local

/-- The loop is at the comma in front of a field, and every field before it was read into its own
buffer. -/
structure Upto (sentence : Sentence) (command : Command) (gps : Gps Mark) (index : Nat)
    (scan : Scan Mark) : Prop where
  buf : scan.buf = sentence.rest command.fields index
  segment : scan.segment.toNat + 1 = index
  kind : scan.command = command
  gps : scan.gps = gps
  filled : ∀ slot : Local, slot.command = command → slot.field < index →
    fillAll slot.handler 0 (sentence.mark slot.field) (blank slot) = .ok (scan.locals slot)
  unread : ∀ slot : Local, slot.command = command → index ≤ slot.field →
    scan.locals slot = blank slot

section

variable {sentence : Sentence} {command : Command} {gps : Gps Mark} {index : Nat}
  {scan : Scan Mark}

theorem Command.fields_le (command : Command) : command.fields ≤ 14 := by
  cases command <;> decide

/-- The comma in front of a field opens its segment. -/
theorem Upto.opened (upto : Upto sentence command gps index scan)
    (inside : index ≤ command.fields) :
    scan.comma = { scan.comma with
        buf := sentence.mark index ++ sentence.rest command.fields (index + 1) } ∧
      scan.comma.segment.toNat = index ∧
      ∀ next, Enters scan.comma next → Reaches round scan next := by
  have line := upto.buf.trans (Sentence.rest_eq inside)
  have segment := upto.segment
  have few := command.fields_le
  refine ⟨?_, ?_, fun next enters => enters.comma line rfl⟩
  · unfold Scan.comma
    rw [line]
    rfl
  · change (scan.segment + 1).toNat = index
    rw [toNat_succ (by omega)]
    exact segment

theorem plain_head {c : Mark} (member : c ∈ (sentence.mark index).head?) :
    byte c ≠ ascii '*' :=
  (Sentence.mem_mark (List.mem_of_head? member)).1.2.2

theorem plain_tail {c : Mark} (member : c ∈ (sentence.mark index).tail) : Plain c :=
  (Sentence.mem_mark (List.mem_of_mem_tail member)).1

/-- A field is passed that fills no buffer. -/
theorem Upto.pass (upto : Upto sentence command gps index scan) (inside : index ≤ command.fields)
    (nonempty : sentence.field index ≠ [])
    (other : ∀ slot : Local, slot.command = command → slot.field ≠ index)
    (pass : Gps Mark → Mark → Gps Mark)
    (here : ∀ next : Scan Mark, next.segment.toNat = index → next.command = command →
      ∀ c ∈ sentence.mark index, segmentCase next c = .ok (.on { next with gps := pass next.gps c })) :
    ∃ next, Reaches round scan next ∧
      Upto sentence command ((sentence.mark index).foldl pass gps) (index + 1) next := by
  obtain ⟨opens, segment, reaches⟩ := upto.opened inside
  obtain ⟨bytes, passed⟩ := @enters_pass _ _ pass (sentence.mark index) scan.comma
    (sentence.rest command.fields (index + 1)) (mt Sentence.mark_eq_nil_iff.mp nonempty)
    (fun _ => plain_head) (fun _ => plain_tail)
    (fun next beside c member => here next ((congrArg UInt8.toNat beside.1).trans segment)
      (beside.2.trans upto.kind) c member)
  rw [← opens] at passed
  refine ⟨_, reaches _ passed, rfl, congrArg (· + 1) segment, upto.kind, ?_, ?_, ?_⟩
  · exact congrArg (fun gps => (sentence.mark index).foldl pass gps) upto.gps
  · intro slot same below
    have apart := other slot same
    exact upto.filled slot same (by omega)
  · intro slot same above
    exact upto.unread slot same (by omega)

/-- A field is read into its buffer. -/
theorem Upto.fill {slot : Local} (upto : Upto sentence slot.command gps slot.field scan)
    (inside : slot.field ≤ slot.command.fields) (nonempty : sentence.field slot.field ≠ [])
    (holds : slot.Holds (sentence.field slot.field).length) :
    ∃ next, Reaches round scan next ∧ Upto sentence slot.command gps (slot.field + 1) next := by
  obtain ⟨opens, segment, reaches⟩ := upto.opened inside
  obtain ⟨buffer, read⟩ := (slot.holds_iff (sentence.mark slot.field)).mp
    (Sentence.length_mark ▸ holds)
  have unread : scan.comma.locals slot = blank slot := upto.unread slot rfl (Nat.le_refl _)
  obtain ⟨bytes, passed⟩ := @enters_fill _ _ _ slot.fills slot (sentence.mark slot.field) buffer
    scan.comma (sentence.rest slot.command.fields (slot.field + 1))
    (mt Sentence.mark_eq_nil_iff.mp nonempty) (fun _ => plain_head) (fun _ => plain_tail)
    (fun next beside c member => Local.segmentCase_eq
      ((congrArg UInt8.toNat beside.1).trans segment) (beside.2.trans upto.kind)
      fun _ => (Sentence.mem_mark member).1.2.1)
    (by rw [unread]; exact read)
  rw [← opens] at passed
  refine ⟨_, reaches _ passed, rfl, congrArg (· + 1) segment, upto.kind, upto.gps, ?_, ?_⟩
  · intro other same below
    by_cases here : other = slot
    · subst here
      dsimp only
      rw [Function.update_self]
      exact read
    · have apart : other.field ≠ slot.field := fun field => here (Local.field_injective same field)
      dsimp only
      rw [Function.update_of_ne here]
      exact upto.filled other same (by omega)
  · intro other same above
    have apart : other ≠ slot := by
      rintro rfl
      omega
    dsimp only
    rw [Function.update_of_ne apart]
    exact upto.unread other same (by omega)

/-- What is known of the sides in front of a field of a `$GPGGA` sentence. -/
def Sentence.sides (sentence : Sentence) (gps : Gps Mark) (index : Nat) : Gps Mark :=
  { gps with
    northSouth := if 3 < index then (sentence.mark 3).getLastD gps.northSouth else gps.northSouth
    eastWest := if 5 < index then (sentence.mark 5).getLastD gps.eastWest else gps.eastWest }

theorem foldl_north (text : List Mark) (gps : Gps Mark) :
    text.foldl (fun gps c => { gps with northSouth := c }) gps =
      { gps with northSouth := text.getLastD gps.northSouth } := by
  induction text generalizing gps with
  | nil => rfl
  | cons c text ih =>
      rw [List.foldl_cons, ih, List.getLastD_cons]

theorem foldl_east (text : List Mark) (gps : Gps Mark) :
    text.foldl (fun gps c => { gps with eastWest := c }) gps =
      { gps with eastWest := text.getLastD gps.eastWest } := by
  induction text generalizing gps with
  | nil => rfl
  | cons c text ih =>
      rw [List.foldl_cons, ih, List.getLastD_cons]

theorem unfixed_of_mem {c : Mark} (fixed : ascii '0' ∉ sentence.field index)
    (member : c ∈ sentence.mark index) : byte c ≠ ascii '0' := by
  obtain ⟨value, listed, rfl⟩ := List.mem_map.mp member
  rintro rfl
  exact fixed listed

/-- A field of a `$GPGGA` sentence is read. -/
theorem Upto.next_gga (upto : Upto sentence .gga (sentence.sides gps index) index scan)
    (least : 1 ≤ index) (most : index ≤ 9) (nonempty : sentence.field index ≠ [])
    (holds : ∀ slot : Local, slot.command = .gga → slot.Holds (sentence.field slot.field).length)
    (fixed : index = 6 → ascii '0' ∉ sentence.field 6) :
    ∃ next, Reaches round scan next ∧
      Upto sentence .gga (sentence.sides gps (index + 1)) (index + 1) next := by
  have unfilled : ∀ index : Nat, index ∈ [3, 5, 6, 8] → ∀ slot : Local, slot.command = .gga →
      slot.field ≠ index := by
    intro index member slot command
    cases slot <;> first | exact absurd command (by decide) | skip
    all_goals
      rintro rfl
      exact absurd member (by decide)
  have still : sentence.sides gps index = sentence.sides gps (index + 1) →
      (∀ slot : Local, slot.command = .gga → slot.field ≠ index) →
      (∀ next : Scan Mark, next.segment.toNat = index → next.command = .gga →
        ∀ c ∈ sentence.mark index, segmentCase next c = .ok (.on next)) →
      ∃ next, Reaches round scan next ∧
        Upto sentence .gga (sentence.sides gps (index + 1)) (index + 1) next := by
    intro same other here
    obtain ⟨next, reached, upto'⟩ := upto.pass (most.trans (by decide)) nonempty other
      (fun gps _ => gps) here
    rw [List.foldl_fixed, same] at upto'
    exact ⟨next, reached, upto'⟩
  interval_cases index
  · exact @Upto.fill sentence _ scan .time upto (by decide) nonempty (holds .time rfl)
  · exact @Upto.fill sentence _ scan .wd upto (by decide) nonempty (holds .wd rfl)
  · obtain ⟨next, reached, upto'⟩ := upto.pass (by decide) nonempty (unfilled 3 (by decide))
      (fun gps c => { gps with northSouth := c }) fun next segment command c _ => by
        unfold segmentCase
        rw [segment, command]
        rfl
    rw [foldl_north] at upto'
    exact ⟨next, reached, upto'⟩
  · exact @Upto.fill sentence _ scan .jd upto (by decide) nonempty (holds .jd rfl)
  · obtain ⟨next, reached, upto'⟩ := upto.pass (by decide) nonempty (unfilled 5 (by decide))
      (fun gps c => { gps with eastWest := c }) fun next segment command c _ => by
        unfold segmentCase
        rw [segment, command]
        rfl
    rw [foldl_east] at upto'
    exact ⟨next, reached, upto'⟩
  · refine still rfl (unfilled 6 (by decide)) fun next segment command c member => ?_
    unfold segmentCase
    rw [segment, command]
    dsimp only
    rw [if_neg (unfixed_of_mem (fixed rfl) member)]
    rfl
  · exact @Upto.fill sentence _ scan .sv upto (by decide) nonempty (holds .sv rfl)
  · refine still rfl (unfilled 8 (by decide)) fun next segment command c _ => ?_
    unfold segmentCase
    rw [segment, command]
    rfl
  · exact @Upto.fill sentence _ scan .alt upto (by decide) nonempty (holds .alt rfl)

theorem active_of_mem {c : Mark} (active : ∀ value ∈ sentence.field index, value = ascii 'A')
    (member : c ∈ sentence.mark index) : byte c = ascii 'A' := by
  obtain ⟨value, listed, rfl⟩ := List.mem_map.mp member
  exact active value listed

/-- A field of a `$GPRMC` sentence is read. -/
theorem Upto.next_rmc (upto : Upto sentence .rmc gps index scan) (least : 1 ≤ index)
    (most : index ≤ 9) (nonempty : sentence.field index ≠ [])
    (active : index = 2 → ∀ value ∈ sentence.field 2, value = ascii 'A') :
    ∃ next, Reaches round scan next ∧ Upto sentence .rmc gps (index + 1) next := by
  have still : index < 7 →
      (∀ next : Scan Mark, next.segment.toNat = index → next.command = .rmc →
        ∀ c ∈ sentence.mark index, segmentCase next c = .ok (.on next)) →
      ∃ next, Reaches round scan next ∧ Upto sentence .rmc gps (index + 1) next := by
    intro early here
    have other : ∀ slot : Local, slot.command = .rmc → slot.field ≠ index := by
      intro slot command
      have late : 7 ≤ slot.field := by
        cases slot <;> first | exact absurd command (by decide) | decide
      omega
    obtain ⟨next, reached, upto'⟩ := upto.pass (most.trans (by decide)) nonempty other
      (fun gps _ => gps) here
    rw [List.foldl_fixed] at upto'
    exact ⟨next, reached, upto'⟩
  interval_cases index
  · exact still (by decide) fun next segment command c _ =>
      segmentCase_rmc next command (.inl segment) c
  · refine still (by decide) fun next segment command c member => ?_
    unfold segmentCase
    rw [segment, command]
    dsimp only
    rw [if_neg (not_not_intro (active_of_mem (active rfl) member))]
    rfl
  · exact still (by decide) fun next segment command c _ =>
      segmentCase_rmc next command (.inr (.inl segment)) c
  · exact still (by decide) fun next segment command c _ =>
      segmentCase_rmc next command (.inr (.inr (.inl segment))) c
  · exact still (by decide) fun next segment command c _ =>
      segmentCase_rmc next command (.inr (.inr (.inr (.inl segment)))) c
  · exact still (by decide) fun next segment command c _ =>
      segmentCase_rmc next command (.inr (.inr (.inr (.inr segment)))) c
  · exact @Upto.fill sentence _ scan .speed upto (by decide) nonempty trivial
  · exact @Upto.fill sentence _ scan .direction upto (by decide) nonempty trivial
  · exact @Upto.fill sentence _ scan .date upto (by decide) nonempty trivial

/-- The name of a `$GPGGA` sentence is read. -/
theorem start_gga (sentence : Sentence) (clear : gps.flagGPGGA = false) :
    ∃ scan, Upto sentence .gga (sentence.sides gps 1) 1 scan ∧
      Reaches round (Scan.start
        (("GPGGA".toList.map fun character => literal (ascii character)) ++ sentence.rest 14 1) gps)
        scan := by
  refine ⟨{ Scan.start (sentence.rest 14 1) gps with bytes := 5, command := .gga },
    ⟨rfl, rfl, rfl, rfl, nofun, fun _ _ _ => rfl⟩, ?_⟩
  cases gps with
  | mk east north lng lat date velocity orientation elevation satellite gga rmc =>
      obtain rfl : gga = false := clear
      exact .head rfl (.head rfl (.head rfl (.head rfl (.head rfl .start))))

/-- The name of a `$GPRMC` sentence is read. -/
theorem start_rmc (sentence : Sentence) (clear : gps.flagGPRMC = false) :
    ∃ scan, Upto sentence .rmc gps 1 scan ∧
      Reaches round (Scan.start
        (("GPRMC".toList.map fun character => literal (ascii character)) ++ sentence.rest 12 1) gps)
        scan := by
  refine ⟨{ Scan.start (sentence.rest 12 1) gps with bytes := 5, command := .rmc },
    ⟨rfl, rfl, rfl, rfl, nofun, fun _ _ _ => rfl⟩, ?_⟩
  cases gps with
  | mk east north lng lat date velocity orientation elevation satellite gga rmc =>
      obtain rfl : rmc = false := clear
      exact .head rfl (.head rfl (.head rfl (.head rfl (.head rfl .start))))

/-- The fields of a `$GPGGA` sentence are read up to an empty one. -/
theorem upto_gga (clear : gps.flagGPGGA = false)
    (holds : ∀ slot : Local, slot.command = .gga → slot.Holds (sentence.field slot.field).length)
    (least : 1 ≤ index) (most : index ≤ 10)
    (filled : ∀ before, 1 ≤ before → before < index → sentence.field before ≠ [])
    (fixed : 6 < index → ascii '0' ∉ sentence.field 6) :
    ∃ scan, Upto sentence .gga (sentence.sides gps index) index scan ∧
      Reaches round (Scan.start
        (("GPGGA".toList.map fun character => literal (ascii character)) ++ sentence.rest 14 1) gps)
        scan := by
  induction index, least using Nat.le_induction with
  | base => exact start_gga sentence clear
  | succ index least ih =>
      obtain ⟨scan, upto, reached⟩ := ih (by omega)
        (fun before positive below => filled before positive (by omega)) fun late => fixed (by omega)
      obtain ⟨next, onward, upto⟩ := upto.next_gga least (by omega)
        (filled index least (Nat.lt_succ_self _)) holds fun same => fixed (by omega)
      exact ⟨next, upto, reached.trans onward⟩

/-- The fields of a `$GPRMC` sentence are read up to an empty one. -/
theorem upto_rmc (clear : gps.flagGPRMC = false) (least : 1 ≤ index) (most : index ≤ 10)
    (filled : ∀ before, 1 ≤ before → before < index → sentence.field before ≠ [])
    (active : 2 < index → ∀ value ∈ sentence.field 2, value = ascii 'A') :
    ∃ scan, Upto sentence .rmc gps index scan ∧
      Reaches round (Scan.start
        (("GPRMC".toList.map fun character => literal (ascii character)) ++ sentence.rest 12 1) gps)
        scan := by
  induction index, least using Nat.le_induction with
  | base => exact start_rmc sentence clear
  | succ index least ih =>
      obtain ⟨scan, upto, reached⟩ := ih (by omega)
        (fun before positive below => filled before positive (by omega)) fun late => active (by omega)
      obtain ⟨next, onward, upto⟩ := upto.next_rmc least (by omega)
        (filled index least (Nat.lt_succ_self _)) fun same => active (by omega)
      exact ⟨next, upto, reached.trans onward⟩

end

end Trunk.Rgps
