import Mathlib.Logic.Function.Basic
import Trunk.Foundation.Loop
import Trunk.Foundation.Provenance
import Trunk.Utils.CString

/-! # Reading GPS sentences

The model of `print_gpsinfo`, for any kind of character. A line is read with its terminator. The
local buffers are written cell by cell, and a write outside its buffer is a fault, as is reading
on behind the terminator of the line.

`print_timestr`, which makes the time of a report from the first field, is left out.
-/

namespace Trunk.Rgps

open CString Provenance Provenance.Glyph Loop

variable {α : Type}

/-- The local buffers: `GPS_time` and the others. -/
inductive Local where
  | time
  | wd
  | jd
  | alt
  | sv
  | speed
  | direction
  | date
  deriving DecidableEq, Repr

/-- The size of a local buffer. -/
def Local.size : Local → Nat
  | .time => 9
  | .wd => 20
  | .jd => 12
  | .alt => 8
  | .sv => 3
  | .speed => 6
  | .direction => 7
  | .date => 9

/-- `Command`: a sentence that is not read, `$GPGGA`, or `$GPRMC`. -/
inductive Command where
  | none
  | gga
  | rmc
  deriving DecidableEq, Repr

/-- `rgps`, without what is not read here, and the two flags. `gps_satellite` is the number that
`atoi` makes of a text; the text is kept. -/
structure Gps (α : Type) where
  eastWest : α
  northSouth : α
  gpsLng : List α
  gpsLat : List α
  gpsDate : List α
  gpsVelocity : List α
  gpsOrientation : List α
  gpsElevation : List α
  gpsSatellite : List α
  flagGPGGA : Bool
  flagGPRMC : Bool
  deriving DecidableEq, Repr

/-- The state of the loop: the line from `buf` on, the counters, and the variables. -/
structure Scan (α : Type) where
  buf : List α
  segment : UInt8
  bytes : UInt8
  command : Command
  locals : Local → List α
  gps : Gps α

/-- What a case of the switch makes of the counter, of `buf` and of the buffer it fills. -/
abbrev Handler (α : Type) := UInt8 → List α → List α → Except Fault (UInt8 × List α × List α)

/-- What a character makes of the counter and of a buffer. -/
abbrev Writer (α : Type) := UInt8 → α → List α → Except Fault (UInt8 × List α)

variable [Glyph α]

/-- A case that writes the character at `buf`. -/
def atBuf (write : Writer α) : Handler α := fun bytes buf buffer => do
  let c ← peek buf
  let written ← write bytes c buffer
  return (written.1, buf, written.2)

/-- The time, with a colon behind the hour and behind the minute. -/
def putTime : Writer α := fun bytes c buffer => do
  if bytes = 2 ∨ bytes = 5 then
    let buffer ← put buffer bytes.toNat c
    let buffer ← put buffer bytes.toNat (literal (ascii ':'))
    let buffer ← put buffer (bytes + 1).toNat c
    return (bytes + 1, buffer)
  else if bytes < 8 then return (bytes, ← put buffer bytes.toNat c)
  else if bytes = 8 then return (bytes, ← put buffer bytes.toNat (literal 0))
  else return (bytes, buffer)

/-- A text, of which a number of characters is kept. -/
def putText (limit : UInt8) : Writer α := fun bytes c buffer => do
  if bytes < limit then
    let buffer ← put buffer bytes.toNat c
    return (bytes, ← put buffer (bytes.toNat + 1) (literal 0))
  else return (bytes, buffer)

/-- The number of satellites, of which two characters are kept. -/
def putSatellites : Writer α := fun bytes c buffer => do
  if bytes < 2 then
    let buffer ← put buffer bytes.toNat c
    return (bytes, ← put buffer 2 (literal 0))
  else return (bytes, ← put buffer 2 (literal 0))

/-- The date `ddmmyy`, written as `yy-mm-dd`. -/
def putDate : Writer α := fun bytes c buffer => do
  if bytes < 2 then return (bytes, ← put buffer (6 + bytes.toNat) c)
  else if bytes < 4 then
    let buffer ← put buffer (1 + bytes.toNat) c
    return (bytes, ← put buffer 5 (literal (ascii '-')))
  else if bytes < 6 then
    let buffer ← put buffer (bytes.toNat - 4) c
    let buffer ← put buffer 2 (literal (ascii '-'))
    return (bytes, ← put buffer 8 (literal 0))
  else return (bytes, buffer)

/-- The point behind the degrees, at its place. -/
def putPoint (point bytes : UInt8) (buffer : List α) : Except Fault (UInt8 × List α) :=
  if bytes = point then do
    let buffer ← put buffer bytes.toNat (literal (ascii '.'))
    return (bytes + 1, buffer)
  else return (bytes, buffer)

/-- A latitude or a longitude: a point is written behind the degrees, the character after the
minutes is left out, and what comes at `last` ends the string. -/
def putCoordinate (last point skip : UInt8) : Handler α := fun bytes buf buffer => do
  let c ← peek buf
  if bytes = last then return (bytes, buf, ← put buffer bytes.toNat (literal 0))
  else do
    let pointed ← putPoint point bytes buffer
    if pointed.1 = skip then do
      let next ← peek buf.tail
      let buffer ← put pointed.2 pointed.1.toNat next
      return (pointed.1, buf.tail, buffer)
    else return (pointed.1, buf, ← put pointed.2 pointed.1.toNat c)

/-- How the switch ends: `ReceivingF` is cleared, `null_flag` is set, or neither. -/
inductive Move (α : Type) where
  | stop
  | null (scan : Scan α)
  | on (scan : Scan α)

/-- A case that fills a buffer. -/
def fill (scan : Scan α) (slot : Local) (handler : Handler α) : Except Fault (Move α) := do
  let filled ← handler scan.bytes scan.buf (scan.locals slot)
  return .on { scan with
    bytes := filled.1, buf := filled.2.1, locals := Function.update scan.locals slot filled.2.2 }

/-- The fourth character of a sentence names its kind. -/
def readCommand (scan : Scan α) (c : α) : Move α :=
  if scan.bytes = 3 then
    if byte c = ascii 'G' then
      if scan.gps.flagGPGGA then .stop else .on { scan with command := .gga }
    else if byte c = ascii 'M' then
      if scan.gps.flagGPRMC then .stop else .on { scan with command := .rmc }
    else .stop
  else .on scan

/-- The switch over `Segment`, at the character `c`. -/
def segmentCase (scan : Scan α) (c : α) : Except Fault (Move α) :=
  match scan.segment.toNat, scan.command with
  | 0, _ => .ok (readCommand scan c)
  | 1, .gga => fill scan .time (atBuf putTime)
  | 2, .gga => fill scan .wd (putCoordinate 10 2 5)
  | 2, .rmc => .ok (if byte c ≠ ascii 'A' then .stop else .on scan)
  | 3, .gga => .ok (.on { scan with gps := { scan.gps with northSouth := c } })
  | 4, .gga => fill scan .jd (putCoordinate 11 3 6)
  | 5, .gga => .ok (.on { scan with gps := { scan.gps with eastWest := c } })
  | 6, .gga => .ok (if byte c = ascii '0' then .stop else .on scan)
  | 7, .gga => fill scan .sv (atBuf putSatellites)
  | 7, .rmc => fill scan .speed (atBuf (putText 5))
  | 8, .rmc => if byte c = ascii ',' then .ok (.null scan) else fill scan .direction (atBuf (putText 6))
  | 9, .gga => fill scan .alt (atBuf (putText 7))
  | 9, .rmc => fill scan .date (atBuf putDate)
  | _, _ => .ok (.on scan)

/-- The values of a `$GPGGA` sentence are stored. -/
def storeGga (scan : Scan α) : Except Fault (Gps α) := do
  let satellite ← cstring (scan.locals .sv)
  let lng ← memcpy 20 (← cstring (scan.locals .jd))
  let lat ← memcpy 20 (← cstring (scan.locals .wd))
  let elevation ← memcpy 10 (← cstring (scan.locals .alt))
  return { scan.gps with
    gpsSatellite := satellite, gpsLng := lng, gpsLat := lat, gpsElevation := elevation,
    flagGPGGA :=
      (byte scan.gps.eastWest = ascii 'E' || byte scan.gps.eastWest = ascii 'W') &&
        (byte scan.gps.northSouth = ascii 'N' || byte scan.gps.northSouth = ascii 'S') }

/-- The values of a `$GPRMC` sentence are stored. -/
def storeRmc (scan : Scan α) : Except Fault (Gps α) := do
  let velocity ← memcpy 10 (← cstring (scan.locals .speed))
  let date ← memcpy 29 (literal (ascii '2') :: literal (ascii '0') :: (← cstring (scan.locals .date)))
  let orientation ← memcpy 10 (← cstring (scan.locals .direction))
  return { scan.gps with
    gpsVelocity := velocity, gpsDate := date, gpsOrientation := orientation, flagGPRMC := true }

/-- At the asterisk, what was read is stored. -/
def store (scan : Scan α) : Except Fault (Gps α) :=
  match scan.command with
  | .gga => if scan.gps.flagGPGGA then .ok scan.gps else storeGga scan
  | .rmc => if scan.gps.flagGPRMC then .ok scan.gps else storeRmc scan
  | .none => .ok scan.gps

/-- The comma at `buf` is passed. -/
def Scan.comma (scan : Scan α) : Scan α :=
  { scan with segment := scan.segment + 1, buf := scan.buf.tail, bytes := 0 }

/-- A round of the loop from behind the test for a comma on. -/
def atCharacter (scan : Scan α) : Except Fault (Round (Scan α) (Gps α)) := do
  let c ← peek scan.buf
  if byte c = ascii '*' then return .done (← store scan)
  else
    match ← segmentCase scan c with
    | .stop => return .done scan.gps
    | .null scan => return .again { scan with segment := scan.segment + 1, buf := scan.buf.tail }
    | .on scan => return .again { scan with bytes := scan.bytes + 1, buf := scan.buf.tail }

/-- A round of the loop. -/
def round (scan : Scan α) : Except Fault (Round (Scan α) (Gps α)) := do
  let c ← peek scan.buf
  if byte c = 0 then return .done scan.gps
  else if byte c = ascii ',' then atCharacter scan.comma
  else atCharacter scan

/-- The loop: it moves on in the line with every round. -/
def scanning (scan : Scan α) : Except Fault (Gps α) :=
  loop round (fun scan => scan.buf.length) .read scan

/-- The state in which the loop starts. -/
def Scan.start (buf : List α) (gps : Gps α) : Scan α where
  buf := buf
  segment := 0
  bytes := 0
  command := .none
  locals := fun slot => List.replicate slot.size (literal 0)
  gps := gps

/-- `print_gpsinfo`, of a line. -/
def printGpsinfo (line : List α) (gps : Gps α) : Except Fault (Gps α) :=
  let text := line ++ [literal 0]
  let buf := if (text.head?.map byte) = some (ascii '\n') then text.tail else text
  if (buf.head?.map byte) = some (ascii '$') then scanning (.start buf.tail gps) else .ok gps

end Trunk.Rgps
