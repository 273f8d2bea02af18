import Trunk.Rgps.Scan

/-! # The marks of characters are not seen

`print_gpsinfo` looks at nothing but the bytes of characters, so a run on marked characters is
the run on their bytes (`Trunk.Rgps.printGpsinfo_erase`).
-/

namespace Trunk.Rgps

open CString Provenance Provenance.Glyph Loop

variable {α : Type} [Glyph α]

/-- The bytes of what is known. -/
def Gps.erase (gps : Gps α) : Gps UInt8 where
  eastWest := byte gps.eastWest
  northSouth := byte gps.northSouth
  gpsLng := Provenance.erase gps.gpsLng
  gpsLat := Provenance.erase gps.gpsLat
  gpsDate := Provenance.erase gps.gpsDate
  gpsVelocity := Provenance.erase gps.gpsVelocity
  gpsOrientation := Provenance.erase gps.gpsOrientation
  gpsElevation := Provenance.erase gps.gpsElevation
  gpsSatellite := Provenance.erase gps.gpsSatellite
  flagGPGGA := gps.flagGPGGA
  flagGPRMC := gps.flagGPRMC

/-- The bytes of a state. -/
def Scan.erase (scan : Scan α) : Scan UInt8 where
  buf := Provenance.erase scan.buf
  segment := scan.segment
  bytes := scan.bytes
  command := scan.command
  locals := fun slot => Provenance.erase (scan.locals slot)
  gps := scan.gps.erase

/-- The bytes of an end of the switch. -/
def Move.erase : Move α → Move UInt8
  | .stop => .stop
  | .null scan => .null scan.erase
  | .on scan => .on scan.erase

/-- The bytes of what a case makes. -/
def eraseFilled (filled : UInt8 × List α × List α) : UInt8 × List UInt8 × List UInt8 :=
  (filled.1, erase filled.2.1, erase filled.2.2)

/-- A case that does the same on bytes. -/
def Erases (handler : Handler α) (onBytes : Handler UInt8) : Prop :=
  ∀ bytes buf buffer,
    onBytes bytes (erase buf) (erase buffer) = (handler bytes buf buffer).map eraseFilled

/-- A writer that does the same on bytes. -/
def ErasesWrites (write : Writer α) (onBytes : Writer UInt8) : Prop :=
  ∀ bytes c buffer, onBytes bytes (byte c) (erase buffer) =
    (write bytes c buffer).map fun written => (written.1, erase written.2)

theorem atBuf_erase {write : Writer α} {onBytes : Writer UInt8}
    (same : ErasesWrites write onBytes) : Erases (atBuf write) (atBuf onBytes) := by
  intro bytes buf buffer
  refine bind_erase (peek_erase buf) fun c => ?_
  exact bind_erase (same bytes c buffer) fun written => rfl

theorem putTime_erase : ErasesWrites (putTime : Writer α) putTime := by
  intro bytes c buffer
  unfold putTime
  split
  · refine bind_erase (put_erase ..) fun buffer => ?_
    refine bind_erase (put_literal_erase ..) fun buffer => ?_
    exact bind_erase (put_erase ..) fun buffer => rfl
  · split
    · exact bind_erase (put_erase ..) fun buffer => rfl
    · split
      · exact bind_erase (put_literal_erase ..) fun buffer => rfl
      · rfl

theorem putText_erase (limit : UInt8) :
    ErasesWrites (putText limit : Writer α) (putText limit) := by
  intro bytes c buffer
  unfold putText
  split
  · refine bind_erase (put_erase ..) fun buffer => ?_
    exact bind_erase (put_literal_erase ..) fun buffer => rfl
  · rfl

theorem putSatellites_erase : ErasesWrites (putSatellites : Writer α) putSatellites := by
  intro bytes c buffer
  unfold putSatellites
  split
  · refine bind_erase (put_erase ..) fun buffer => ?_
    exact bind_erase (put_literal_erase ..) fun buffer => rfl
  · exact bind_erase (put_literal_erase ..) fun buffer => rfl

theorem putDate_erase : ErasesWrites (putDate : Writer α) putDate := by
  intro bytes c buffer
  unfold putDate
  split
  · exact bind_erase (put_erase ..) fun buffer => rfl
  · split
    · refine bind_erase (put_erase ..) fun buffer => ?_
      exact bind_erase (put_literal_erase ..) fun buffer => rfl
    · split
      · refine bind_erase (put_erase ..) fun buffer => ?_
        refine bind_erase (put_literal_erase ..) fun buffer => ?_
        exact bind_erase (put_literal_erase ..) fun buffer => rfl
      · rfl

theorem putPoint_erase (point bytes : UInt8) (buffer : List α) :
    putPoint point bytes (erase buffer) =
      (putPoint point bytes buffer).map fun pointed => (pointed.1, erase pointed.2) := by
  unfold putPoint
  split
  · exact bind_erase (put_literal_erase ..) fun buffer => rfl
  · rfl

theorem putCoordinate_erase (last point skip : UInt8) :
    Erases (putCoordinate last point skip : Handler α) (putCoordinate last point skip) := by
  intro bytes buf buffer
  unfold putCoordinate
  refine bind_erase (peek_erase buf) fun c => ?_
  split
  · exact bind_erase (put_literal_erase ..) fun buffer => rfl
  · refine bind_erase (putPoint_erase point bytes buffer) fun pointed => ?_
    dsimp only
    split
    · rw [← erase_tail]
      refine bind_erase (peek_erase _) fun next => ?_
      exact bind_erase (put_erase ..) fun buffer => rfl
    · exact bind_erase (put_erase ..) fun buffer => rfl

theorem fill_erase {handler : Handler α} {onBytes : Handler UInt8} (same : Erases handler onBytes)
    (scan : Scan α) (slot : Local) :
    fill scan.erase slot onBytes = (fill scan slot handler).map Move.erase := by
  unfold fill
  refine bind_erase (same scan.bytes scan.buf (scan.locals slot)) fun filled => ?_
  refine congrArg (fun locals => Except.ok (Move.on (Scan.mk _ _ _ _ locals _))) ?_
  funext other
  by_cases here : other = slot
  · subst here
    simp only [Function.update_self]
    rfl
  · simp only [Function.update_of_ne here, Scan.erase]

theorem readCommand_erase (scan : Scan α) (c : α) :
    readCommand scan.erase (byte c) = (readCommand scan c).erase := by
  have bytes : scan.erase.bytes = scan.bytes := rfl
  have gga : scan.erase.gps.flagGPGGA = scan.gps.flagGPGGA := rfl
  have rmc : scan.erase.gps.flagGPRMC = scan.gps.flagGPRMC := rfl
  unfold readCommand
  rw [bytes, byte_id, gga, rmc]
  by_cases fourth : scan.bytes = 3
  · simp only [if_pos fourth]
    by_cases g : byte c = ascii 'G'
    · simp only [if_pos g]
      cases scan.gps.flagGPGGA <;> rfl
    · simp only [if_neg g]
      by_cases m : byte c = ascii 'M'
      · simp only [if_pos m]
        cases scan.gps.flagGPRMC <;> rfl
      · simp only [if_neg m]
        rfl
  · simp only [if_neg fourth]
    rfl

theorem segmentCase_erase (scan : Scan α) (c : α) :
    segmentCase scan.erase (byte c) = (segmentCase scan c).map Move.erase := by
  have segment : scan.erase.segment = scan.segment := rfl
  have command : scan.erase.command = scan.command := rfl
  unfold segmentCase
  rw [segment, command]
  split
  · exact congrArg Except.ok (readCommand_erase scan c)
  · exact fill_erase (atBuf_erase putTime_erase) scan .time
  · exact fill_erase (putCoordinate_erase 10 2 5) scan .wd
  · rw [byte_id]
    split <;> rfl
  · rfl
  · exact fill_erase (putCoordinate_erase 11 3 6) scan .jd
  · rfl
  · rw [byte_id]
    split <;> rfl
  · exact fill_erase (atBuf_erase putSatellites_erase) scan .sv
  · exact fill_erase (atBuf_erase (putText_erase 5)) scan .speed
  · rw [byte_id]
    split
    · rfl
    · exact fill_erase (atBuf_erase (putText_erase 6)) scan .direction
  · exact fill_erase (atBuf_erase (putText_erase 7)) scan .alt
  · exact fill_erase (atBuf_erase putDate_erase) scan .date
  · rfl

theorem storeGga_erase (scan : Scan α) : storeGga scan.erase = (storeGga scan).map Gps.erase := by
  refine bind_erase (cstring_erase _) fun satellite => ?_
  refine bind_erase (cstring_erase _) fun lng => ?_
  refine bind_erase (memcpy_erase ..) fun lng => ?_
  refine bind_erase (cstring_erase _) fun lat => ?_
  refine bind_erase (memcpy_erase ..) fun lat => ?_
  refine bind_erase (cstring_erase _) fun alt => ?_
  exact bind_erase (memcpy_erase ..) fun alt => rfl

theorem storeRmc_erase (scan : Scan α) : storeRmc scan.erase = (storeRmc scan).map Gps.erase := by
  refine bind_erase (cstring_erase _) fun speed => ?_
  refine bind_erase (memcpy_erase ..) fun speed => ?_
  refine bind_erase (cstring_erase _) fun date => ?_
  have century : (literal (ascii '2') : UInt8) :: literal (ascii '0') :: erase date =
      erase (literal (ascii '2') :: literal (ascii '0') :: date) := by
    simp only [erase_cons, byte_literal, literal_id]
  rw [century]
  refine bind_erase (memcpy_erase ..) fun date => ?_
  refine bind_erase (cstring_erase _) fun direction => ?_
  exact bind_erase (memcpy_erase ..) fun direction => rfl

theorem store_erase (scan : Scan α) : store scan.erase = (store scan).map Gps.erase := by
  have command : scan.erase.command = scan.command := rfl
  have gga : scan.erase.gps.flagGPGGA = scan.gps.flagGPGGA := rfl
  have rmc : scan.erase.gps.flagGPRMC = scan.gps.flagGPRMC := rfl
  unfold store
  rw [command, gga, rmc]
  cases scan.command with
  | none => rfl
  | gga =>
      cases scan.gps.flagGPGGA with
      | true => rfl
      | false => exact storeGga_erase scan
  | rmc =>
      cases scan.gps.flagGPRMC with
      | true => rfl
      | false => exact storeRmc_erase scan

theorem atCharacter_erase (scan : Scan α) :
    atCharacter scan.erase = (atCharacter scan).map (Round.map Scan.erase Gps.erase) := by
  unfold atCharacter
  refine bind_erase (peek_erase scan.buf) fun c => ?_
  rw [byte_id]
  by_cases asterisk : byte c = ascii '*'
  · rw [if_pos asterisk, if_pos asterisk]
    exact bind_erase (store_erase scan) fun gps => rfl
  · rw [if_neg asterisk, if_neg asterisk]
    refine bind_erase (segmentCase_erase scan c) fun move => ?_
    cases move with
    | stop => rfl
    | null next =>
        simp only [Move.erase, Scan.erase, ← erase_tail]
        rfl
    | on next =>
        simp only [Move.erase, Scan.erase, ← erase_tail]
        rfl

theorem round_erase (scan : Scan α) :
    round scan.erase = (round scan).map (Round.map Scan.erase Gps.erase) := by
  unfold round
  refine bind_erase (peek_erase scan.buf) fun c => ?_
  rw [byte_id]
  by_cases terminator : byte c = 0
  · rw [if_pos terminator, if_pos terminator]
    rfl
  · rw [if_neg terminator, if_neg terminator]
    by_cases comma : byte c = ascii ','
    · rw [if_pos comma, if_pos comma, ← atCharacter_erase]
      simp only [Scan.comma, Scan.erase, erase_tail]
    · rw [if_neg comma, if_neg comma, ← atCharacter_erase]

/-- On marked characters, `print_gpsinfo` does what it does on their bytes. -/
theorem printGpsinfo_erase (line : List α) (gps : Gps α) :
    printGpsinfo (erase line) gps.erase = (printGpsinfo line gps).map Gps.erase := by
  have text : erase line ++ [literal 0] = erase (line ++ [(literal 0 : α)]) := by
    simp only [erase, List.map_append, List.map_cons, List.map_nil, byte_literal, literal_id]
  have head : ∀ symbols : List α, (erase symbols).head?.map byte = symbols.head?.map byte := by
    intro symbols
    cases symbols with
    | nil => rfl
    | cons symbol symbols => rfl
  have start : ∀ buf : List α, Scan.start (erase buf) gps.erase = (Scan.start buf gps).erase := by
    intro buf
    refine congrArg (fun locals => Scan.mk _ _ _ _ locals _) ?_
    funext slot
    simp only [Scan.start, erase, List.map_replicate, byte_literal, literal_id]
  have rest : ∀ buf : List α,
      (if (erase buf).head?.map byte = some (ascii '$') then
        scanning (.start (erase buf).tail gps.erase) else .ok gps.erase) =
      (if buf.head?.map byte = some (ascii '$') then
        scanning (.start buf.tail gps) else .ok gps).map Gps.erase := by
    intro buf
    rw [head, ← erase_tail, start]
    split
    · refine loop_map ?_ round_erase _
      exact fun scan => erase_length scan.buf
    · rfl
  unfold printGpsinfo
  dsimp only
  rw [text, head, ← erase_tail]
  split
  · exact rest _
  · exact rest _

end Trunk.Rgps
