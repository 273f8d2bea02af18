import Trunk.Foundation.Run
import Trunk.Rgps.Time

/-! # Where the characters of a line go

The loop takes a line character by character. A comma opens a segment, but the character behind a
comma is only compared with the asterisk, and the one behind the character that a coordinate leaves
out with nothing. This module follows the place of every character (`Trunk.Rgps.Reading.step`), and
shows that `print_gpsinfo` keeps to its buffers and to the line exactly if no character is behind
the end of a coordinate, the time that is stored has a character other than a colon, and the reading is
over with the terminator (`Trunk.Rgps.stays_iff`).
-/

namespace Trunk.Rgps

open CString Provenance Provenance.Glyph Loop Run

/-- What a character is compared with before the switch: the terminator, a comma and an asterisk,
only an asterisk, or nothing. -/
inductive Compared where
  | all
  | asterisk
  | nothing
  deriving DecidableEq, Repr

/-- The place of a character, with the time that was read before it. -/
structure Place where
  segment : UInt8
  bytes : UInt8
  command : Command
  time : List UInt8
  deriving DecidableEq, Repr

/-- The reading of a line. -/
inductive Reading where
  | ended
  | inside (compared : Compared) (place : Place)
  deriving DecidableEq, Repr

/-- `flag_GPGGA` and `flag_GPRMC`. -/
structure Flags where
  gga : Bool
  rmc : Bool
  deriving DecidableEq, Repr

namespace Place

/-- The place behind a character of a segment. -/
def next (place : Place) : Reading := .inside .all { place with bytes := place.bytes + 1 }

/-- The place behind a comma. -/
def comma (place : Place) : Reading :=
  .inside .asterisk { place with segment := place.segment + 1, bytes := 0 }

/-- The fourth character of the name of a sentence. -/
def name (flags : Flags) (place : Place) (c : UInt8) : Reading :=
  if place.bytes = 3 then
    if c = ascii 'G' then
      if flags.gga then .ended else next { place with command := .gga }
    else if c = ascii 'M' then
      if flags.rmc then .ended else next { place with command := .rmc }
    else .ended
  else next place

/-- A character of the time. -/
def keepTime (place : Place) (c : UInt8) : Place :=
  if place.bytes = 2 ∨ place.bytes = 5 then
    { place with
      bytes := place.bytes + 1
      time := (place.time.set place.bytes.toNat (ascii ':')).set (place.bytes + 1).toNat c }
  else if place.bytes < 8 then { place with time := place.time.set place.bytes.toNat c }
  else if place.bytes = 8 then { place with time := place.time.set place.bytes.toNat 0 }
  else place

/-- A character of a coordinate: behind the one that is left out, the next one is not compared. -/
def coordinate (last point skip : UInt8) (place : Place) : Reading :=
  if place.bytes = last then place.next
  else
    let bytes := if place.bytes = point then place.bytes + 1 else place.bytes
    if bytes = skip then .inside .nothing { place with bytes := bytes }
    else next { place with bytes := bytes }

/-- A character in its segment. -/
def field (flags : Flags) (place : Place) (c : UInt8) : Reading :=
  match place.segment.toNat, place.command with
  | 0, _ => place.name flags c
  | 1, .gga => (place.keepTime c).next
  | 2, .gga => place.coordinate 10 2 5
  | 2, .rmc => if c ≠ ascii 'A' then .ended else place.next
  | 4, .gga => place.coordinate 11 3 6
  | 6, .gga => if c = ascii '0' then .ended else place.next
  | 8, .rmc =>
      if c = ascii ',' then .inside .all { place with segment := place.segment + 1 }
      else place.next
  | _, _ => place.next

/-- The place is not behind the end of a coordinate. -/
def Inside (place : Place) : Prop :=
  place.command = .gga → (place.segment.toNat = 2 → place.bytes.toNat < 20) ∧
    (place.segment.toNat = 4 → place.bytes.toNat < 12)

/-- The time has a character other than a colon. -/
def Tokened (place : Place) : Prop :=
  strtok (ascii ':') (place.time.takeWhile (· ≠ 0)) ≠ []

/-- A character may stand at a place: an asterisk behind a time, if one is stored, and any other
character inside the coordinates. -/
def Admits (flags : Flags) (place : Place) (c : UInt8) : Prop :=
  if c = ascii '*' then place.command = .gga → flags.gga = false → place.Tokened
  else place.Inside

end Place

namespace Reading

/-- The reading goes on behind a character. -/
def step (flags : Flags) : Reading → UInt8 → Reading
  | .ended, _ => .ended
  | .inside .all place, c =>
      if c = 0 then .ended
      else if c = ascii ',' then place.comma
      else if c = ascii '*' then .ended
      else place.field flags c
  | .inside .asterisk place, c => if c = ascii '*' then .ended else place.field flags c
  | .inside .nothing place, _ => place.next

/-- A character may be read. -/
def Admits (flags : Flags) : Reading → UInt8 → Prop
  | .ended, _ => True
  | .inside .all place, c => c ≠ 0 → c ≠ ascii ',' → place.Admits flags c
  | .inside .asterisk place, c => place.Admits flags c
  | .inside .nothing _, _ => True

/-- A text can be read from a place on: every character of it may stand where it does, and with its
end the reading is over. -/
structure Reads (flags : Flags) (reading : Reading) (text : List UInt8) : Prop where
  admits : Run.Guarded (step flags) (Admits flags) reading text
  ends : run (step flags) reading text = .ended

end Reading

/-- The cell of a buffer behind which nothing of its string is. -/
def Local.last : Local → Nat
  | .time => 8
  | .wd => 10
  | .jd => 11
  | .alt => 7
  | .sv => 2
  | .speed => 5
  | .direction => 6
  | .date => 8

/-- The place that the loop is at. -/
def Scan.place (scan : Scan UInt8) : Place where
  segment := scan.segment
  bytes := scan.bytes
  command := scan.command
  time := scan.locals .time

/-- The flags that the loop reads. -/
def Gps.flags (gps : Gps UInt8) : Flags := ⟨gps.flagGPGGA, gps.flagGPRMC⟩

/-- Every buffer has its size and holds a string, and the time has colons at their places, if
anything. -/
structure Boxed (scan : Scan UInt8) : Prop where
  ended : ∀ slot, Ended slot.size slot.last (scan.locals slot)
  colon : ∀ c ∈ (scan.locals .time)[2]?, c = 0 ∨ c = ascii ':'
  colon' : ∀ c ∈ (scan.locals .time)[5]?, c = 0 ∨ c = ascii ':'

theorem boxed_start (buf : List UInt8) (gps : Gps UInt8) : Boxed (.start buf gps) where
  ended := by
    intro slot
    refine ended_blank ?_
    cases slot <;> decide
  colon := fun _ found => .inl (Option.some.inj found).symm
  colon' := fun _ found => .inl (Option.some.inj found).symm

/-- What was read fits where it is stored. -/
theorem Boxed.store {scan : Scan UInt8} (boxed : Boxed scan) : ∃ gps, store scan = .ok gps := by
  have copied : ∀ (slot : Local) (size : Nat), slot.last ≤ size → ∃ text, text.length ≤ slot.last ∧
      cstring (scan.locals slot) = .ok text ∧ memcpy size text = .ok text := by
    intro slot size fits
    have short := (boxed.ended slot).length_le
    exact ⟨_, short, (boxed.ended slot).cstring, if_pos (short.trans fits)⟩
  unfold Rgps.store
  split
  · split
    · exact ⟨_, rfl⟩
    · obtain ⟨sv, -, read, -⟩ := copied .sv 20 (by decide)
      obtain ⟨jd, -, read', copy'⟩ := copied .jd 20 (by decide)
      obtain ⟨wd, -, read'', copy''⟩ := copied .wd 20 (by decide)
      obtain ⟨alt, -, readAlt, copyAlt⟩ := copied .alt 10 (by decide)
      exact ⟨_, bind_eq_ok.mpr ⟨sv, read, bind_eq_ok.mpr ⟨jd, read', bind_eq_ok.mpr ⟨jd, copy',
        bind_eq_ok.mpr ⟨wd, read'', bind_eq_ok.mpr ⟨wd, copy'', bind_eq_ok.mpr ⟨alt, readAlt,
        bind_eq_ok.mpr ⟨alt, copyAlt, rfl⟩⟩⟩⟩⟩⟩⟩⟩
  · split
    · exact ⟨_, rfl⟩
    · obtain ⟨speed, -, read, copy⟩ := copied .speed 10 (by decide)
      obtain ⟨date, short, read', -⟩ := copied .date 29 (by decide)
      obtain ⟨direction, -, read'', copy''⟩ := copied .direction 10 (by decide)
      have fits : (literal (ascii '2') :: literal (ascii '0') :: date : List UInt8).length ≤ 29 := by
        rw [List.length_cons, List.length_cons]
        change date.length ≤ 8 at short
        omega
      exact ⟨_, bind_eq_ok.mpr ⟨speed, read, bind_eq_ok.mpr ⟨speed, copy, bind_eq_ok.mpr ⟨date,
        read', bind_eq_ok.mpr ⟨_, if_pos fits, bind_eq_ok.mpr ⟨direction, read'',
        bind_eq_ok.mpr ⟨direction, copy'', rfl⟩⟩⟩⟩⟩⟩⟩
  · exact ⟨_, rfl⟩

/-- Every token of a time with colons at their places has two characters at most. -/
theorem tokens_short {buffer : List UInt8} (ended : Ended 9 8 buffer)
    (colon : ∀ c ∈ buffer[2]?, c = 0 ∨ c = ascii ':')
    (colon' : ∀ c ∈ buffer[5]?, c = 0 ∨ c = ascii ':') :
    ∀ token ∈ strtok (ascii ':') (buffer.takeWhile (· ≠ 0)), token.length ≤ 2 := by
  have length := ended.length_le
  have front := List.prefix_iff_getElem?.mp
    (List.takeWhile_prefix fun c : UInt8 => decide (c ≠ 0) : _ <+: buffer)
  have kept : ∀ index : Nat, (∀ c ∈ buffer[index]?, c = 0 ∨ c = ascii ':') →
      ∀ c ∈ (buffer.takeWhile (· ≠ 0))[index]?, c = ascii ':' := by
    intro index place c found
    have nonzero := List.mem_takeWhile_imp (List.mem_of_getElem? found)
    obtain ⟨inside, same⟩ := List.getElem?_eq_some_iff.mp found
    rcases place c ((front index inside).trans (congrArg some same)) with rfl | same
    · simp at nonzero
    · exact same
  refine strtok_short (kept 2 colon) (strtok_short ?_ ?_)
  · rw [List.getElem?_drop]
    exact kept 5 colon'
  · intro token member
    have few := strtok_length_le member
    rw [List.length_drop, List.length_drop] at few
    change (buffer.takeWhile (· ≠ 0)).length ≤ 8 at length
    omega

/-- Every token of the time has two characters at most. -/
theorem Boxed.short {scan : Scan UInt8} (boxed : Boxed scan) :
    ∀ token ∈ strtok (ascii ':') ((scan.locals .time).takeWhile (· ≠ 0)), token.length ≤ 2 :=
  tokens_short (boxed.ended .time) boxed.colon boxed.colon'

/-- What the switch makes of a place. -/
def Move.reading : Move UInt8 → Reading
  | .stop => .ended
  | .null next => .inside .all { next.place with segment := next.segment + 1 }
  | .on next => next.place.next

/-- The loop goes on in a text, with the buffers as they should be. -/
structure Kept (scan next : Scan UInt8) (text : List UInt8) : Prop where
  buf : next.buf = text
  gps : next.gps.flags = scan.gps.flags
  boxed : Boxed next

/-- The same in the state that a case of the switch leads to. -/
def Move.Kept (scan : Scan UInt8) (text : List UInt8) : Move UInt8 → Prop
  | .stop => True
  | .null next => Rgps.Kept scan next text
  | .on next => Rgps.Kept scan next text

/-- A case of the switch agrees with the reading. -/
inductive Agrees (scan : Scan UInt8) (c : UInt8) (text : List UInt8) :
    Reading → Except Fault (Move UInt8) → Prop
  | moved {move : Move UInt8} (kept : move.Kept scan (c :: text)) :
      Agrees scan c text move.reading (.ok move)
  | taken {next : Scan UInt8} {d : UInt8} {rest : List UInt8} (behind : text = d :: rest)
      (kept : Kept scan next text) :
      Agrees scan c text (.inside .nothing next.place) (.ok (.on next))
  | missing {place : Place} {fault : Fault} (behind : text = []) :
      Agrees scan c text (.inside .nothing place) (.error fault)

section

variable {scan : Scan UInt8} {c : UInt8} {text : List UInt8}

/-- A writer that leaves the counter alone. -/
def Still (write : Writer UInt8) : Prop :=
  ∀ bytes c buffer written, write bytes c buffer = .ok written → written.1 = bytes

theorem still_putText (limit : UInt8) : Still (putText limit) := by
  intro bytes c buffer written wrote
  unfold putText at wrote
  split at wrote
  · obtain ⟨_, _, wrote⟩ := bind_eq_ok.mp wrote
    obtain ⟨_, _, wrote⟩ := bind_eq_ok.mp wrote
    rw [← Except.ok.inj wrote]
  · rw [← Except.ok.inj wrote]

theorem still_putSatellites : Still putSatellites := by
  intro bytes c buffer written wrote
  unfold putSatellites at wrote
  split at wrote
  · obtain ⟨_, _, wrote⟩ := bind_eq_ok.mp wrote
    obtain ⟨_, _, wrote⟩ := bind_eq_ok.mp wrote
    rw [← Except.ok.inj wrote]
  · obtain ⟨_, _, wrote⟩ := bind_eq_ok.mp wrote
    rw [← Except.ok.inj wrote]

theorem still_putDate : Still putDate := by
  intro bytes c buffer written wrote
  unfold putDate at wrote
  split at wrote
  · obtain ⟨_, _, wrote⟩ := bind_eq_ok.mp wrote
    rw [← Except.ok.inj wrote]
  · split at wrote
    · obtain ⟨_, _, wrote⟩ := bind_eq_ok.mp wrote
      obtain ⟨_, _, wrote⟩ := bind_eq_ok.mp wrote
      rw [← Except.ok.inj wrote]
    · split at wrote
      · obtain ⟨_, _, wrote⟩ := bind_eq_ok.mp wrote
        obtain ⟨_, _, wrote⟩ := bind_eq_ok.mp wrote
        obtain ⟨_, _, wrote⟩ := bind_eq_ok.mp wrote
        rw [← Except.ok.inj wrote]
      · rw [← Except.ok.inj wrote]

/-- The state behind a case that fills a buffer. -/
def Scan.filled (scan : Scan UInt8) (slot : Local) (bytes : UInt8) (buf buffer : List UInt8) :
    Scan UInt8 :=
  { scan with bytes := bytes, buf := buf, locals := Function.update scan.locals slot buffer }

theorem fill_eq {slot : Local} {handler : Handler UInt8} {filled : UInt8 × List UInt8 × List UInt8}
    (done : handler scan.bytes scan.buf (scan.locals slot) = .ok filled) :
    fill scan slot handler = .ok (.on (scan.filled slot filled.1 filled.2.1 filled.2.2)) :=
  bind_eq_ok.mpr ⟨filled, done, rfl⟩

theorem place_filled {slot : Local} (other : slot ≠ .time) (bytes : UInt8)
    (buf buffer : List UInt8) :
    (scan.filled slot bytes buf buffer).place = { scan.place with bytes := bytes } := by
  unfold Scan.place Scan.filled
  dsimp only
  rw [Function.update_of_ne (Ne.symm other)]

theorem Boxed.filled (boxed : Boxed scan) {slot : Local} (other : slot ≠ .time)
    {buffer : List UInt8} (ended : Ended slot.size slot.last buffer) (bytes : UInt8)
    (buf : List UInt8) : Boxed (scan.filled slot bytes buf buffer) where
  ended := by
    intro slot'
    unfold Scan.filled
    by_cases same : slot' = slot
    · subst same
      dsimp only
      rw [Function.update_self]
      exact ended
    · dsimp only
      rw [Function.update_of_ne same]
      exact boxed.ended slot'
  colon := by
    unfold Scan.filled
    dsimp only
    rw [Function.update_of_ne (Ne.symm other)]
    exact boxed.colon
  colon' := by
    unfold Scan.filled
    dsimp only
    rw [Function.update_of_ne (Ne.symm other)]
    exact boxed.colon'

/-- A case that fills a buffer within its bounds, whatever the place. -/
theorem fill_agrees (boxed : Boxed scan) (here : scan.buf = c :: text) {slot : Local}
    (other : slot ≠ .time) {write : Writer UInt8} (keeps : Keeps slot.size slot.last write)
    (still : Still write) :
    Agrees scan c text scan.place.next (fill scan slot (atBuf write)) := by
  obtain ⟨written, wrote, ended⟩ := keeps scan.bytes c (scan.locals slot) (boxed.ended slot)
  have same := still _ _ _ _ wrote
  have handled : atBuf write scan.bytes scan.buf (scan.locals slot) =
      .ok (scan.bytes, c :: text, written.2) := by
    rw [here]
    refine bind_eq_ok.mpr ⟨c, rfl, bind_eq_ok.mpr ⟨written, wrote, ?_⟩⟩
    rw [same]
    rfl
  have place := @place_filled scan slot other scan.bytes (c :: text) written.2
  have agrees := @Agrees.moved scan c text (.on (scan.filled slot scan.bytes (c :: text) written.2))
    ⟨rfl, rfl, boxed.filled other ended scan.bytes (c :: text)⟩
  rw [Move.reading, place] at agrees
  rw [fill_eq handled]
  exact agrees

/-- A character of the time, in its buffer. -/
theorem putTime_eq (place : Place) (length : place.time.length = 9) :
    putTime place.bytes c place.time = .ok ((place.keepTime c).bytes, (place.keepTime c).time) := by
  unfold putTime Place.keepTime
  by_cases inserted : place.bytes = 2 ∨ place.bytes = 5
  · have places : place.bytes.toNat < 9 ∧ (place.bytes + 1).toNat < 9 := by
      rcases inserted with same | same <;> rw [same] <;> decide
    rw [if_pos inserted, if_pos inserted]
    refine bind_eq_ok.mpr ⟨_, put_inside (by omega) c, ?_⟩
    refine bind_eq_ok.mpr ⟨_, put_inside (by rw [List.length_set]; omega) _, ?_⟩
    refine bind_eq_ok.mpr ⟨_, put_inside (by rw [List.length_set, List.length_set]; omega) _, ?_⟩
    rw [List.set_set]
    rfl
  · rw [if_neg inserted, if_neg inserted]
    by_cases below : place.bytes < 8
    · have small : place.bytes.toNat < 8 := UInt8.lt_iff_toNat_lt.mp below
      rw [if_pos below, if_pos below]
      exact bind_eq_ok.mpr ⟨_, put_inside (by omega) c, rfl⟩
    · rw [if_neg below, if_neg below]
      by_cases eighth : place.bytes = 8
      · rw [if_pos eighth, if_pos eighth]
        exact bind_eq_ok.mpr ⟨_, put_inside (by rw [length, eighth]; decide) _, rfl⟩
      · rw [if_neg eighth, if_neg eighth]
        rfl

/-- Only colons come to the places of the colons. -/
theorem keepTime_colon (place : Place) {index : Nat} (colon : index = 2 ∨ index = 5)
    (before : ∀ c ∈ place.time[index]?, c = 0 ∨ c = ascii ':') :
    ∀ c' ∈ (place.keepTime c).time[index]?, c' = 0 ∨ c' = ascii ':' := by
  unfold Place.keepTime
  by_cases inserted : place.bytes = 2 ∨ place.bytes = 5
  · have apart : (place.bytes + 1).toNat ≠ index := by
      rcases inserted with same | same <;> rcases colon with rfl | rfl <;> rw [same] <;> decide
    rw [if_pos inserted]
    dsimp only
    rw [List.getElem?_set_ne apart]
    intro c' found
    by_cases same : place.bytes.toNat = index
    · rw [same, List.getElem?_set'] at found
      rw [if_pos rfl] at found
      obtain ⟨_, -, rfl⟩ := Option.map_eq_some_iff.mp found
      exact .inr rfl
    · rw [List.getElem?_set_ne same] at found
      exact before c' found
  · rw [if_neg inserted]
    have apart : place.bytes.toNat ≠ index := by
      intro same
      refine inserted ?_
      rcases colon with rfl | rfl
      · exact .inl (UInt8.toNat_inj.mp same)
      · exact .inr (UInt8.toNat_inj.mp same)
    split_ifs
    · dsimp only
      rw [List.getElem?_set_ne apart]
      exact before
    · dsimp only
      rw [List.getElem?_set_ne apart]
      exact before
    · exact before

theorem keepTime_still (place : Place) (c : UInt8) :
    (place.keepTime c).segment = place.segment ∧ (place.keepTime c).command = place.command := by
  unfold Place.keepTime
  split_ifs <;> exact ⟨rfl, rfl⟩

/-- The time is filled within its bounds, with colons at their places. -/
theorem fill_time (boxed : Boxed scan) (here : scan.buf = c :: text) :
    Agrees scan c text (scan.place.keepTime c).next (fill scan .time (atBuf putTime)) := by
  have wrote := @putTime_eq c scan.place (boxed.ended .time).1
  obtain ⟨written, wrote', ended⟩ := keeps_putTime scan.bytes c (scan.locals .time)
    (boxed.ended .time)
  obtain rfl := Except.ok.inj (wrote'.symm.trans wrote)
  have handled : atBuf putTime scan.bytes scan.buf (scan.locals .time) =
      .ok ((scan.place.keepTime c).bytes, c :: text, (scan.place.keepTime c).time) := by
    rw [here]
    exact bind_eq_ok.mpr ⟨c, rfl, bind_eq_ok.mpr ⟨_, wrote, rfl⟩⟩
  have boxed' : Boxed (scan.filled .time (scan.place.keepTime c).bytes (c :: text)
      (scan.place.keepTime c).time) := by
    refine ⟨fun slot => ?_, ?_, ?_⟩
    · unfold Scan.filled
      by_cases same : slot = .time
      · subst same
        dsimp only
        rw [Function.update_self]
        exact ended
      · dsimp only
        rw [Function.update_of_ne same]
        exact boxed.ended slot
    · unfold Scan.filled
      dsimp only
      rw [Function.update_self]
      exact keepTime_colon scan.place (.inl rfl) boxed.colon
    · unfold Scan.filled
      dsimp only
      rw [Function.update_self]
      exact keepTime_colon scan.place (.inr rfl) boxed.colon'
  have place : (scan.filled .time (scan.place.keepTime c).bytes (c :: text)
      (scan.place.keepTime c).time).place = scan.place.keepTime c := by
    obtain ⟨segment, command⟩ := keepTime_still scan.place c
    unfold Scan.filled
    rw [Scan.place]
    dsimp only
    rw [Function.update_self]
    change Place.mk scan.place.segment _ scan.place.command _ = _
    rw [← segment, ← command]
  have agrees := @Agrees.moved scan c text (.on (scan.filled .time (scan.place.keepTime c).bytes
    (c :: text) (scan.place.keepTime c).time)) ⟨rfl, rfl, boxed'⟩
  rw [Move.reading, place] at agrees
  rw [fill_eq handled]
  exact agrees

/-- A character of a coordinate, inside its buffer. -/
theorem fill_coordinate (boxed : Boxed scan) (here : scan.buf = c :: text) {slot : Local}
    (other : slot ≠ .time) {last point skip : UInt8} (layout : Layout last point skip slot.size)
    (same : last.toNat = slot.last) (inside : scan.bytes.toNat < slot.size) :
    Agrees scan c text (scan.place.coordinate last point skip)
      (fill scan slot (putCoordinate last point skip)) := by
  have ended := boxed.ended slot
  rw [← same] at ended
  have order := layout.point_lt
  have order' := layout.skip_lt
  have apart : last ≠ point ∧ last ≠ skip ∧ point + 1 ≠ skip := by
    have bound := layout.size_lt
    have bound' := layout.last_lt
    have next : (point + 1).toNat = point.toNat + 1 := toNat_succ (by omega)
    refine ⟨?_, ?_, ?_⟩ <;> intro equal <;> have equal := congrArg UInt8.toNat equal <;> omega
  by_cases skipped : scan.bytes = skip
  · have unpointed : scan.bytes ≠ point := by
      rw [skipped]
      rintro rfl
      omega
    have unended : scan.bytes ≠ last := fun equal => apart.2.1 (equal.symm.trans skipped)
    have reading : scan.place.coordinate last point skip =
        .inside .nothing { scan.place with bytes := scan.bytes } := by
      unfold Place.coordinate
      change (if scan.bytes = last then _ else _) = _
      rw [if_neg unended]
      change (if (if scan.bytes = point then scan.bytes + 1 else scan.bytes) = skip then _
        else _) = _
      rw [if_neg unpointed, if_pos skipped]
      change Reading.inside .nothing { scan.place with
        bytes := if scan.bytes = point then scan.bytes + 1 else scan.bytes } = _
      rw [if_neg unpointed]
    rw [reading]
    cases behind : text with
    | nil =>
        obtain ⟨fault, failed⟩ := @putCoordinate_error _ _ _ _ _ _ scan.bytes c [] _ layout ended.1
          (.inl ⟨skipped, rfl⟩)
        have failed' : fill scan slot (putCoordinate last point skip) = .error fault := by
          rw [fill, here, behind, failed]
          rfl
        rw [failed']
        exact .missing rfl
    | cons d rest =>
        obtain ⟨buffer, wrote, ended'⟩ := @putCoordinate_skip _ _ _ _ _ _ c rest _ layout ended d
        have handled : putCoordinate last point skip scan.bytes scan.buf (scan.locals slot) =
            .ok (scan.bytes, d :: rest, buffer) := by
          rw [here, behind, skipped]
          exact wrote
        rw [fill_eq handled, ← place_filled other scan.bytes (d :: rest) buffer]
        rw [same] at ended'
        exact .taken rfl ⟨rfl, rfl, boxed.filled other ended' scan.bytes (d :: rest)⟩
  · obtain ⟨buffer, wrote, ended'⟩ := @putCoordinate_write _ _ _ _ _ _ _ c text _ layout ended
      inside skipped
    rw [← here] at wrote
    rw [same] at ended'
    have reading : scan.place.coordinate last point skip = Place.next { scan.place with
        bytes := if scan.bytes = point then scan.bytes + 1 else scan.bytes } := by
      unfold Place.coordinate
      change (if scan.bytes = last then _ else _) = _
      by_cases final : scan.bytes = last
      · rw [if_pos final, if_neg (final ▸ apart.1)]
        rfl
      · rw [if_neg final]
        change (if (if scan.bytes = point then scan.bytes + 1 else scan.bytes) = skip then _
          else _) = _
        have passed : (if scan.bytes = point then scan.bytes + 1 else scan.bytes) ≠ skip := by
          split
          · rename_i pointed
            exact pointed ▸ apart.2.2
          · exact skipped
        rw [if_neg passed]
        rfl
    have agrees := @Agrees.moved scan c text (.on (scan.filled slot
      (if scan.bytes = point then scan.bytes + 1 else scan.bytes) (c :: text) buffer))
      ⟨rfl, rfl, boxed.filled other ended' _ (c :: text)⟩
    rw [Move.reading, place_filled other] at agrees
    rw [reading, fill_eq wrote, here]
    exact agrees

theorem Boxed.on (boxed : Boxed scan) (here : scan.buf = c :: text) :
    Agrees scan c text scan.place.next (.ok (.on scan)) :=
  @Agrees.moved scan c text (.on scan) ⟨here, rfl, boxed⟩

theorem Boxed.stop : Agrees scan c text .ended (.ok .stop) :=
  @Agrees.moved scan c text .stop trivial

theorem readCommand_agrees (boxed : Boxed scan) (here : scan.buf = c :: text) :
    Agrees scan c text (scan.place.name scan.gps.flags c) (.ok (readCommand scan c)) := by
  have named : ∀ command, Agrees scan c text (Place.next { scan.place with command := command })
      (.ok (.on { scan with command := command })) := fun command =>
    @Agrees.moved scan c text (.on { scan with command := command })
      ⟨here, rfl, boxed.ended, boxed.colon, boxed.colon'⟩
  unfold Place.name readCommand
  change Agrees scan c text (if scan.bytes = 3 then if c = ascii 'G' then
    if scan.gps.flagGPGGA then _ else _ else if c = ascii 'M' then
    if scan.gps.flagGPRMC then _ else _ else _ else _) (.ok (if scan.bytes = 3 then
    if c = ascii 'G' then _ else if c = ascii 'M' then _ else _ else _))
  by_cases fourth : scan.bytes = 3
  · rw [if_pos fourth, if_pos fourth]
    by_cases gga : c = ascii 'G'
    · rw [if_pos gga, if_pos gga]
      split
      · exact Boxed.stop
      · exact named .gga
    · rw [if_neg gga, if_neg gga]
      by_cases rmc : c = ascii 'M'
      · rw [if_pos rmc, if_pos rmc]
        split
        · exact Boxed.stop
        · exact named .rmc
      · rw [if_neg rmc, if_neg rmc]
        exact Boxed.stop
  · rw [if_neg fourth, if_neg fourth]
    exact boxed.on here

/-- A segment that stops at some characters. -/
theorem Boxed.stops (boxed : Boxed scan) (here : scan.buf = c :: text) (bad : Prop) [Decidable bad] :
    Agrees scan c text (if bad then .ended else scan.place.next)
      (.ok (if bad then .stop else .on scan)) := by
  split
  · exact Boxed.stop
  · exact boxed.on here

/-- A character in its segment is dealt with as the reading says. -/
theorem field_agrees (boxed : Boxed scan) (here : scan.buf = c :: text)
    (inside : scan.place.Inside) :
    Agrees scan c text (scan.place.field scan.gps.flags c) (segmentCase scan c) := by
  have at_ : ∀ {index : Nat} {kind : Command}, scan.segment.toNat = index → scan.command = kind →
      scan.place.segment.toNat = index ∧ scan.place.command = kind := fun first second =>
    ⟨first, second⟩
  unfold segmentCase
  split
  · rename_i segment
    rw [Place.field, show scan.place.segment.toNat = 0 from segment]
    exact readCommand_agrees boxed here
  · rename_i segment command
    rw [Place.field, (at_ segment command).1, (at_ segment command).2]
    exact fill_time boxed here
  · rename_i segment command
    rw [Place.field, (at_ segment command).1, (at_ segment command).2]
    exact @fill_coordinate scan c text boxed here .wd (by decide) 10 2 5 layout_wd rfl
      ((inside command).1 segment)
  · rename_i segment command
    rw [Place.field, (at_ segment command).1, (at_ segment command).2]
    exact boxed.stops here (c ≠ ascii 'A')
  · rename_i segment command
    rw [Place.field, (at_ segment command).1, (at_ segment command).2]
    exact @Agrees.moved scan c text (.on { scan with gps := { scan.gps with northSouth := c } })
      ⟨here, rfl, boxed.ended, boxed.colon, boxed.colon'⟩
  · rename_i segment command
    rw [Place.field, (at_ segment command).1, (at_ segment command).2]
    exact @fill_coordinate scan c text boxed here .jd (by decide) 11 3 6 layout_jd rfl
      ((inside command).2 segment)
  · rename_i segment command
    rw [Place.field, (at_ segment command).1, (at_ segment command).2]
    exact @Agrees.moved scan c text (.on { scan with gps := { scan.gps with eastWest := c } })
      ⟨here, rfl, boxed.ended, boxed.colon, boxed.colon'⟩
  · rename_i segment command
    rw [Place.field, (at_ segment command).1, (at_ segment command).2]
    exact boxed.stops here (c = ascii '0')
  · rename_i segment command
    rw [Place.field, (at_ segment command).1, (at_ segment command).2]
    exact @fill_agrees scan c text boxed here .sv (by decide) _ keeps_putSatellites
      still_putSatellites
  · rename_i segment command
    rw [Place.field, (at_ segment command).1, (at_ segment command).2]
    exact @fill_agrees scan c text boxed here .speed (by decide) _ (keeps_putText 5)
      (still_putText 5)
  · rename_i segment command
    rw [Place.field, (at_ segment command).1, (at_ segment command).2]
    by_cases comma : c = ascii ','
    · rw [if_pos (show byte c = ascii ',' from comma), if_pos comma]
      have agrees := @Agrees.moved scan c text (.null scan) ⟨here, rfl, boxed⟩
      simp only [Move.reading, (at_ segment command).2] at agrees
      exact agrees
    · rw [if_neg (show ¬ byte c = ascii ',' from comma), if_neg comma]
      exact @fill_agrees scan c text boxed here .direction (by decide) _ (keeps_putText 6)
        (still_putText 6)
  · rename_i segment command
    rw [Place.field, (at_ segment command).1, (at_ segment command).2]
    exact @fill_agrees scan c text boxed here .alt (by decide) _ (keeps_putText 7)
      (still_putText 7)
  · rename_i segment command
    rw [Place.field, (at_ segment command).1, (at_ segment command).2]
    exact @fill_agrees scan c text boxed here .date (by decide) _ keeps_putDate still_putDate
  · rename_i name time wd status _ jd _ valid _ _ direction _ _
    have passed : scan.place.field scan.gps.flags c = scan.place.next := by
      unfold Place.field
      split
      · rename_i segment
        exact (name segment).elim
      · rename_i segment command
        exact (time segment command).elim
      · rename_i segment command
        exact (wd segment command).elim
      · rename_i segment command
        exact (status segment command).elim
      · rename_i segment command
        exact (jd segment command).elim
      · rename_i segment command
        exact (valid segment command).elim
      · rename_i segment command
        exact (direction segment command).elim
      · rfl
    rw [passed]
    exact boxed.on here

/-- Behind the end of a coordinate, no character fits. -/
theorem field_outside (boxed : Boxed scan) (here : scan.buf = c :: text)
    (outside : ¬ scan.place.Inside) : ∃ fault, segmentCase scan c = .error fault := by
  have full : ∀ {slot : Local} {last point skip : UInt8}, Layout last point skip slot.size →
      slot.size ≤ scan.bytes.toNat →
      ∃ fault, fill scan slot (putCoordinate last point skip) = .error fault := by
    intro slot last point skip layout size
    obtain ⟨fault, failed⟩ := @putCoordinate_error _ _ _ _ _ _ scan.bytes c text _ layout
      (boxed.ended slot).1 (.inr size)
    refine ⟨fault, ?_⟩
    rw [fill, here, failed]
    rfl
  have command : scan.command = .gga := by
    by_contra other
    exact outside fun command => absurd command other
  unfold segmentCase
  by_cases second : scan.segment.toNat = 2
  · rw [second, command]
    refine full layout_wd (Nat.le_of_not_lt fun fits => outside fun _ => ⟨fun _ => fits, ?_⟩)
    intro fourth
    exact absurd (second.symm.trans fourth) (by decide)
  · have fourth : scan.segment.toNat = 4 := by
      by_contra other
      exact outside fun _ => ⟨fun here => absurd here second, fun here => absurd here other⟩
    rw [fourth, command]
    refine full layout_jd (Nat.le_of_not_lt fun fits => outside fun _ => ⟨?_, fun _ => fits⟩)
    intro here
    exact absurd here second

end

namespace Reading

variable {flags : Flags} {reading : Reading} {place : Place} {c : UInt8} {text : List UInt8}

theorem reads_nil : Reads flags reading [] ↔ reading = .ended :=
  ⟨fun reads => reads.ends, fun ended => ⟨trivial, ended⟩⟩

theorem reads_cons : Reads flags reading (c :: text) ↔
    Admits flags reading c ∧ Reads flags (step flags reading c) text :=
  ⟨fun reads => ⟨reads.admits.1, reads.admits.2, reads.ends⟩,
    fun both => ⟨⟨both.1, both.2.admits⟩, both.2.ends⟩⟩

/-- What is behind the end of the reading does not matter. -/
theorem reads_ended (text : List UInt8) : Reads flags .ended text := by
  induction text with
  | nil => exact reads_nil.mpr rfl
  | cons c text ih => exact reads_cons.mpr ⟨trivial, ih⟩

/-- The terminator ends the reading where it is looked for. -/
theorem reads_terminator : Reads flags (.inside .all place) (0 :: text) := by
  refine reads_cons.mpr ⟨fun nonzero => absurd rfl nonzero, ?_⟩
  exact reads_ended text

theorem reads_comma :
    Reads flags (.inside .all place) (ascii ',' :: text) ↔ Reads flags place.comma text :=
  reads_cons.trans ⟨And.right, fun reads => ⟨fun _ other => absurd rfl other, reads⟩⟩

/-- Any other character is read like one behind a comma. -/
theorem reads_character (nonzero : c ≠ 0) (other : c ≠ ascii ',') :
    Reads flags (.inside .all place) (c :: text) ↔
      Reads flags (.inside .asterisk place) (c :: text) := by
  rw [reads_cons, reads_cons]
  have same : step flags (.inside .all place) c = step flags (.inside .asterisk place) c :=
    (if_neg nonzero).trans (if_neg other)
  rw [same]
  exact and_congr_left fun _ => ⟨fun admits => admits nonzero other, fun admits _ _ => admits⟩

theorem reads_asterisk : Reads flags (.inside .asterisk place) (ascii '*' :: text) ↔
    (place.command = .gga → flags.gga = false → place.Tokened) := by
  have admits : Admits flags (.inside .asterisk place) (ascii '*') =
      (place.command = .gga → flags.gga = false → place.Tokened) := by
    rw [Admits, Place.Admits, if_pos rfl]
  have ended : step flags (.inside .asterisk place) (ascii '*') = .ended := by
    rw [step, if_pos rfl]
  rw [reads_cons, admits, ended]
  exact and_iff_left (reads_ended text)

theorem reads_field (inside : c ≠ ascii '*') :
    Reads flags (.inside .asterisk place) (c :: text) ↔
      place.Inside ∧ Reads flags (place.field flags c) text := by
  have admits : Admits flags (.inside .asterisk place) c = place.Inside := if_neg inside
  have read : step flags (.inside .asterisk place) c = place.field flags c := if_neg inside
  rw [reads_cons, admits, read]

theorem reads_nothing :
    Reads flags (.inside .nothing place) (c :: text) ↔ Reads flags place.next text :=
  reads_cons.trans ⟨And.right, fun reads => ⟨trivial, reads⟩⟩

end Reading

section

variable {gpsTime : List UInt8} {scan next : Scan UInt8} {c : UInt8} {text : List UInt8}

/-- A line is read to its end, whatever is on the stack. -/
def Goes (gpsTime : List UInt8) (scan : Scan UInt8) : Prop :=
  ∀ stack, ∃ after, timedScanning stack gpsTime scan = .ok after

theorem goes_again (went : round scan = .ok (.again next)) :
    Goes gpsTime scan ↔ Goes gpsTime next := by
  refine forall_congr' fun stack => exists_congr fun after => ?_
  unfold timedScanning
  rw [loop_again shrinks_timedRound (timedRound_again went)]

theorem goes_done {gps : Gps UInt8} (ended : round scan = .ok (.done gps)) :
    Goes gpsTime scan ↔ ∀ stack, ∃ time, storeTime stack gpsTime scan.entered = .ok time := by
  refine forall_congr' fun stack => ?_
  have outcome := @timedRound_done _ _ stack gpsTime scan gps ended
  cases stored : storeTime stack gpsTime scan.entered with
  | error fault =>
      rw [stored] at outcome
      unfold timedScanning
      rw [loop_error shrinks_timedRound outcome]
      exact ⟨nofun, nofun⟩
  | ok time =>
      rw [stored] at outcome
      unfold timedScanning
      rw [loop_done shrinks_timedRound outcome]
      exact ⟨fun _ => ⟨time, rfl⟩, fun _ => ⟨_, rfl⟩⟩

theorem not_goes {fault : Fault} (failed : round scan = .error fault) : ¬ Goes gpsTime scan := by
  intro goes
  obtain ⟨after, done⟩ := goes fun _ => 0
  unfold timedScanning at done
  rw [loop_error shrinks_timedRound (timedRound_error failed)] at done
  cases done

/-- Where no asterisk is, no time is stored. -/
theorem goes_without {gps : Gps UInt8} (ended : round scan = .ok (.done gps))
    (none : (scan.entered.buf.head?.map byte) ≠ some (ascii '*')) : Goes gpsTime scan :=
  (goes_done ended).mpr fun _ => ⟨gpsTime, if_neg fun stores => none stores.1⟩

theorem atCharacter_nil (here : scan.buf = []) : atCharacter scan = .error .read := by
  unfold atCharacter
  rw [here]
  rfl

theorem atCharacter_asterisk (here : scan.buf = ascii '*' :: text) {gps : Gps UInt8}
    (stored : store scan = .ok gps) : atCharacter scan = .ok (.done gps) := by
  refine bind_eq_ok.mpr ⟨ascii '*', by rw [here]; rfl, ?_⟩
  exact bind_eq_ok.mpr ⟨gps, stored, rfl⟩

theorem atCharacter_error (here : scan.buf = c :: text) (inside : c ≠ ascii '*') {fault : Fault}
    (failed : segmentCase scan c = .error fault) : atCharacter scan = .error fault := by
  unfold atCharacter
  rw [here]
  change (if c = ascii '*' then _ else segmentCase scan c >>= _) = _
  rw [if_neg inside, failed]
  rfl

theorem atCharacter_stop (here : scan.buf = c :: text) (inside : c ≠ ascii '*')
    (stopped : segmentCase scan c = .ok .stop) : atCharacter scan = .ok (.done scan.gps) := by
  refine bind_eq_ok.mpr ⟨c, by rw [here]; rfl, ?_⟩
  rw [if_neg (show ¬ byte c = ascii '*' from inside)]
  exact bind_eq_ok.mpr ⟨.stop, stopped, rfl⟩

theorem atCharacter_null (here : scan.buf = c :: text) (inside : c ≠ ascii '*')
    (moved : segmentCase scan c = .ok (.null next)) : atCharacter scan =
      .ok (.again { next with segment := next.segment + 1, buf := next.buf.tail }) := by
  refine bind_eq_ok.mpr ⟨c, by rw [here]; rfl, ?_⟩
  rw [if_neg (show ¬ byte c = ascii '*' from inside)]
  exact bind_eq_ok.mpr ⟨.null next, moved, rfl⟩

theorem atCharacter_on (here : scan.buf = c :: text) (inside : c ≠ ascii '*')
    (moved : segmentCase scan c = .ok (.on next)) : atCharacter scan =
      .ok (.again { next with bytes := next.bytes + 1, buf := next.buf.tail }) := by
  refine bind_eq_ok.mpr ⟨c, by rw [here]; rfl, ?_⟩
  rw [if_neg (show ¬ byte c = ascii '*' from inside)]
  exact bind_eq_ok.mpr ⟨.on next, moved, rfl⟩

theorem erase_self (symbols : List UInt8) : erase symbols = symbols := List.map_id symbols

/-- At the asterisk, a time is stored that fits exactly if it has a character other than a colon. -/
theorem storeTime_fits (boxed : Boxed scan) (here : scan.buf = ascii '*' :: text) :
    (∀ stack, ∃ time, storeTime stack gpsTime scan = .ok time) ↔
      (scan.place.command = .gga → scan.gps.flags.gga = false → scan.place.Tokened) := by
  have asterisk : (scan.buf.head?.map byte) = some (ascii '*') := by
    rw [here]
    rfl
  have read : cstring (scan.locals .time) = .ok ((scan.locals .time).takeWhile (· ≠ 0)) :=
    (boxed.ended .time).cstring
  have fits := printTimestr_fits boxed.short
  by_cases stores : scan.command = .gga ∧ scan.gps.flagGPGGA = false
  · have printed : ∀ stack, storeTime stack gpsTime scan =
        printTimestr stack ((scan.locals .time).takeWhile (· ≠ 0)) := by
      intro stack
      unfold storeTime
      rw [if_pos ⟨asterisk, stores⟩, read]
      simp only [bind, Except.bind]
      rw [erase_self]
    refine Iff.trans ?_ (fits.trans ?_)
    · exact forall_congr' fun stack => by rw [printed stack]
    · exact ⟨fun tokened _ _ => tokened, fun tokened => tokened stores.1 stores.2⟩
  · constructor
    · intro _ command flag
      exact absurd ⟨command, flag⟩ stores
    · intro _ stack
      exact ⟨gpsTime, if_neg fun holds => stores holds.2⟩

/-- A round from behind the test for a comma, where the loop goes on as the reading does. -/
theorem goes_character {entered : Scan UInt8} (opened : scan.entered = entered)
    (same : round scan = atCharacter entered) (boxed : Boxed entered)
    (onwards : ∀ next : Scan UInt8, next.buf.length < entered.buf.length → Boxed next →
      next.gps.flags = entered.gps.flags →
      (Goes gpsTime next ↔
        Reading.Reads entered.gps.flags (.inside .all next.place) next.buf)) :
    Goes gpsTime scan ↔
      Reading.Reads entered.gps.flags (.inside .asterisk entered.place) entered.buf := by
  have resumes : ∀ (next : Scan UInt8) (segment bytes : UInt8) (rest : List UInt8),
      rest.length < entered.buf.length → Boxed next → next.gps.flags = entered.gps.flags →
      next.buf.tail = rest →
      (Goes gpsTime { next with segment := segment, bytes := bytes, buf := next.buf.tail } ↔
        Reading.Reads entered.gps.flags
          (.inside .all { next.place with segment := segment, bytes := bytes }) rest) := by
    intro next segment bytes rest shorter boxed' flags left
    subst left
    exact onwards { next with segment := segment, bytes := bytes, buf := next.buf.tail } shorter
      ⟨boxed'.ended, boxed'.colon, boxed'.colon'⟩ flags
  cases here : entered.buf with
  | nil =>
      refine iff_of_false (not_goes (same.trans (atCharacter_nil here))) fun reads => ?_
      exact nomatch Reading.reads_nil.mp reads
  | cons c text =>
      by_cases asterisk : c = ascii '*'
      · subst asterisk
        obtain ⟨gps, stored⟩ := boxed.store
        rw [goes_done (same.trans (atCharacter_asterisk here stored)), opened,
          storeTime_fits boxed here, Reading.reads_asterisk]
      · rw [Reading.reads_field asterisk]
        by_cases inside : entered.place.Inside
        · rw [and_iff_right inside]
          have agrees := field_agrees boxed here inside
          generalize entered.place.field entered.gps.flags c = reading at agrees ⊢
          cases outcome : segmentCase entered c with
          | error fault =>
              rw [outcome] at agrees
              cases agrees with
              | missing behind =>
                  refine iff_of_false (not_goes (same.trans
                    (atCharacter_error here asterisk outcome))) fun reads => ?_
                  rw [behind] at reads
                  exact nomatch Reading.reads_nil.mp reads
          | ok move =>
              rw [outcome] at agrees
              have shorter : text.length < entered.buf.length := by
                rw [here]
                exact Nat.lt_succ_self _
              cases agrees with
              | moved kept =>
                  cases move with
                  | stop =>
                      refine iff_of_true (goes_without (same.trans
                        (atCharacter_stop here asterisk outcome)) ?_) (Reading.reads_ended text)
                      rw [opened, here]
                      exact fun head => asterisk (Option.some.inj head)
                  | null next =>
                      rw [goes_again (same.trans (atCharacter_null here asterisk outcome))]
                      exact resumes next (next.segment + 1) next.bytes text shorter kept.boxed
                        kept.gps (congrArg List.tail kept.buf)
                  | on next =>
                      rw [goes_again (same.trans (atCharacter_on here asterisk outcome))]
                      exact resumes next next.segment (next.bytes + 1) text shorter kept.boxed
                        kept.gps (congrArg List.tail kept.buf)
              | @taken next d rest behind kept =>
                  rw [goes_again (same.trans (atCharacter_on here asterisk outcome)), behind,
                    Reading.reads_nothing]
                  rw [behind] at shorter
                  exact resumes next next.segment (next.bytes + 1) rest (Nat.lt_of_succ_lt shorter)
                    kept.boxed kept.gps (congrArg List.tail (kept.buf.trans behind))
        · obtain ⟨fault, failed⟩ := field_outside boxed here inside
          refine iff_of_false (not_goes (same.trans (atCharacter_error here asterisk failed))) ?_
          exact fun both => inside both.1

/-- The loop goes through from a state on exactly if the line can be read from its place on. -/
theorem goes_iff (boxed : Boxed scan) :
    Goes gpsTime scan ↔ Reading.Reads scan.gps.flags (.inside .all scan.place) scan.buf := by
  induction size : scan.buf.length using Nat.strongRecOn generalizing scan with
  | ind size' ih =>
      cases here : scan.buf with
      | nil =>
          refine iff_of_false (not_goes (shrinks_round.empty scan (by rw [here]; rfl))) fun reads => ?_
          exact nomatch Reading.reads_nil.mp reads
      | cons c text =>
          have most : text.length < size' := by
            rw [← size, here]
            exact Nat.lt_succ_self _
          have peeked : peek scan.buf = .ok c := by
            rw [here]
            rfl
          by_cases terminator : c = 0
          · subst terminator
            have ended : round scan = .ok (.done scan.gps) := bind_eq_ok.mpr ⟨0, peeked, rfl⟩
            have entered : scan.entered = scan := by
              unfold Scan.entered
              rw [here]
              rfl
            refine iff_of_true (goes_without ended ?_) Reading.reads_terminator
            rw [entered, here]
            exact fun head => absurd (Option.some.inj head) (by decide)
          · by_cases comma : c = ascii ','
            · subst comma
              have entered : scan.entered = scan.comma := by
                unfold Scan.entered
                rw [here]
                rfl
              have same : round scan = atCharacter scan.comma := by
                unfold round
                rw [here]
                rfl
              have left : scan.comma.buf = text := by
                rw [Scan.comma, here]
                rfl
              rw [Reading.reads_comma]
              refine (goes_character entered same ⟨boxed.ended, boxed.colon, boxed.colon'⟩ ?_).trans ?_
              · intro next shorter boxed' flags
                rw [left] at shorter
                have step := ih _ (shorter.trans most) boxed' rfl
                rw [flags] at step
                exact step
              · rw [left]
                exact Iff.rfl
            · have entered : scan.entered = scan := by
                unfold Scan.entered
                rw [here]
                exact if_neg fun head => comma (Option.some.inj head)
              have same : round scan = atCharacter scan := by
                unfold round
                rw [here]
                change (if c = 0 then _ else if c = ascii ',' then _ else _) = _
                rw [if_neg terminator, if_neg comma]
              rw [Reading.reads_character terminator comma, ← here]
              refine goes_character entered same boxed ?_
              intro next shorter boxed' flags
              rw [size] at shorter
              have step := ih _ shorter boxed' rfl
              rw [flags] at step
              exact step

end

/-- `print_gpsinfo` keeps to its buffers, to `rgps` and to the line, whatever is on the stack. -/
def Stays (line : CStr) (before : Timed UInt8) : Prop :=
  ∀ stack, ∃ after, printGpsinfoTimed stack line.bytes before = .ok after

/-- What is behind the dollar sign of a line, if one is, can be read. -/
def Readable (flags : Flags) (line : CStr) : Prop :=
  ∀ text ∈ behindDollar line.bytes,
    Reading.Reads flags (.inside .all ⟨0, 0, .none, blank .time⟩) text

/-- `print_gpsinfo` keeps to its buffers and to the line exactly if the line can be read. -/
theorem stays_iff (line : CStr) (before : Timed UInt8) :
    Stays line before ↔ Readable before.gps.flags line := by
  unfold Stays Readable printGpsinfoTimed
  cases behindDollar line.bytes with
  | none => exact iff_of_true (fun _ => ⟨before, rfl⟩) nofun
  | some text =>
      have start := @goes_iff before.gpsTime _ (boxed_start text before.gps)
      constructor
      · intro goes text' same
        obtain rfl := Option.some.inj same
        exact start.mp goes
      · intro reads
        exact start.mpr (reads text rfl)

/-- What is known before the first line. -/
def fresh : Timed UInt8 where
  gps :=
    { eastWest := 0, northSouth := 0, gpsLng := [], gpsLat := [], gpsDate := [], gpsVelocity := [],
      gpsOrientation := [], gpsElevation := [], gpsSatellite := [], flagGPGGA := false,
      flagGPRMC := false }
  gpsTime := []

theorem cutLine_noNul : 0 ∉ "$GPGGA,".toList.map ascii := by decide

/-- A sentence that was cut behind a comma. -/
def cutLine : CStr := ⟨"$GPGGA,".toList.map ascii, cutLine_noNul⟩

/-- The terminator behind the comma is taken for a character of the time. -/
theorem not_stays_cutLine : cutLine.bytes.length ≤ 1023 ∧ ¬ Stays cutLine fresh := by
  refine ⟨by decide, fun stays => ?_⟩
  obtain ⟨after, done⟩ := stays fun _ => 0
  have failed : printGpsinfoTimed (fun _ => 0) cutLine.bytes fresh = .error .read := by
    decide +kernel
  rw [failed] at done
  cases done

end Trunk.Rgps
