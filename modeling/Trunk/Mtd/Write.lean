import Trunk.Foundation.Flash
import Trunk.Foundation.Loop
import Trunk.Foundation.Network

/-! # Writing images to flash

The model of `mtd_write` and of what `main` does before it, `mtd_check` and `image_check`, without
the options `-j` and `-F`. The kernel delivers the image in pieces. The buffer has the size of an
erase block, and an access outside it is a fault.
-/

namespace Trunk.Mtd

open Flash Loop Network

/-- The program ends with an error, or an access is outside the buffer. -/
inductive Stop where
  | exit
  | outside
  deriving DecidableEq, Repr

/-- What a call of `read` does: it delivers some of the bytes that are left, at least one, or it
fails, with `EINTR`, with `EAGAIN` or otherwise. -/
inductive ReadStep where
  | deliver (more : Nat)
  | eintr
  | eagain
  | failed
  deriving DecidableEq, Repr

/-- An image that is read. When the steps are used up, a call delivers all that it asks for. -/
structure ImageFd where
  steps : List ReadStep
  rest : List UInt8
  deriving DecidableEq, Repr

/-- What `read` returns. -/
inductive ReadResult where
  | got (bytes : List UInt8)
  | retry
  | failed
  deriving DecidableEq, Repr

/-- `read`. -/
def read (fd : ImageFd) (count : Nat) : ReadResult × ImageFd :=
  match fd.steps with
  | [] => (.got (fd.rest.take count), { fd with rest := fd.rest.drop count })
  | .deliver more :: steps =>
      let count := min count (more + 1)
      (.got (fd.rest.take count), { steps := steps, rest := fd.rest.drop count })
  | .eintr :: steps => (.retry, { fd with steps := steps })
  | .eagain :: steps => (.retry, { fd with steps := steps })
  | .failed :: steps => (.failed, { fd with steps := steps })

/-- `mtd_write`, the loop that fills the buffer. An error ends it like the end of the image. -/
def fillBuffer (erasesize : Nat) : Nat → List UInt8 → ImageFd → List UInt8 × ImageFd
  | 0, buf, fd => (buf, fd)
  | fuel + 1, buf, fd =>
      if buf.length < erasesize then
        match read fd (erasesize - buf.length) with
        | (.got [], fd) => (buf, fd)
        | (.got bytes, fd) => fillBuffer erasesize fuel (buf ++ bytes) fd
        | (.retry, fd) => fillBuffer erasesize fuel buf fd
        | (.failed, fd) => (buf, fd)
      else (buf, fd)

/-- The variables of `mtd_write`. The devices are those that are left, the one that is open, and
those that follow. -/
structure Writer where
  fd : ImageFd
  buf : List UInt8
  offset : Nat
  w : Nat
  e : Nat
  skipBadBlocks : Nat
  pos : Nat
  left : List Device
  dev : Device
  next : List Device

/-- The options of `mtd_write`. -/
structure Options where
  noErase : Bool
  partOffset : Nat
  deriving DecidableEq, Repr

/-- What the buffer still holds for the rest of a device is written. The result is not looked at. -/
def writeLeftover (st : Writer) : Except Stop Writer :=
  if st.w < st.e then
    if st.pos < st.dev.size ∧ st.buf.length < st.offset + (st.e - st.w) then .error .outside
    else
      let bytes := (st.buf.drop st.offset).take (st.e - st.w)
      .ok { st with dev := (st.dev.write st.pos bytes).1, offset := st.e - st.w }
  else .ok st

/-- The next device is opened. -/
def resume (options : Options) (st : Writer) (dev : Device) (next : List Device) : Writer :=
  { st with
    w := 0
    e := 0
    pos := options.partOffset
    left := st.left ++ [st.dev]
    dev := dev
    next := next }

/-- A round of the loop that erases blocks. It ends with whether there is a new device. -/
def eraseRound (options : Options) (st : Writer) : Except Stop (Round Writer (Writer × Bool)) :=
  if st.w + st.buf.length + st.skipBadBlocks ≤ st.e then .ok (.done (st, false))
  else
    match st.dev.askBad st.e with
    | none => .error .exit
    | some true =>
        .ok (.again { st with
          skipBadBlocks := st.skipBadBlocks + st.dev.eraseSize
          e := st.e + st.dev.eraseSize
          pos := st.pos + st.dev.eraseSize })
    | some false =>
        match st.dev.erase st.e with
        | some dev => .ok (.again { st with dev := dev, e := st.e + st.dev.eraseSize })
        | none =>
            match st.next with
            | [] => .error .exit
            | dev :: next => do
                let st ← writeLeftover st
                return .done (resume options st dev next, true)

/-- The loop that erases blocks. There is no round behind the block that follows the last one. -/
def eraseLoop (options : Options) (st : Writer) : Except Stop (Writer × Bool) :=
  iterate (eraseRound options) .outside (st.dev.count + 3) st

/-- The buffer is written. -/
def writeBuffer (st : Writer) : Except Stop Writer :=
  if st.buf.length < st.offset + st.buf.length then .error .outside
  else
    match st.dev.write st.pos ((st.buf.drop st.offset).take st.buf.length) with
    | (dev, some result) =>
        if result < st.buf.length then .error .exit
        else
          .ok { st with
            dev := dev
            pos := st.pos + result
            w := st.w + st.buf.length
            buf := []
            offset := 0 }
    | (_, none) => .error .exit

/-- The buffer is padded to the size of a block. -/
def padBuffer (erasesize : Nat) (buf : List UInt8) : List UInt8 :=
  buf ++ List.replicate (erasesize - buf.length) 0xff

/-- A round of the main loop. -/
def writeRound (options : Options) (st : Writer) : Except Stop (Round Writer Writer) :=
  let erasesize := st.dev.eraseSize
  let (buf, fd) := fillBuffer erasesize (st.fd.steps.length + st.fd.rest.length + 1) st.buf st.fd
  if buf = [] then .ok (.done { st with buf := buf, fd := fd })
  else
    let st := { st with buf := padBuffer erasesize buf, fd := fd }
    if options.noErase then do return .again (← writeBuffer st)
    else do
      let (st, resumed) ← eraseLoop options st
      if resumed then return .again st else return .again (← writeBuffer st)

/-- The rounds that are left at most. -/
def Writer.rounds (st : Writer) : Nat :=
  st.fd.rest.length + 2 * st.next.length + (if st.buf = [] then 0 else 1) + 1

/-- `mtd_write`, where the buffer holds some bytes already. -/
def mtdWrite (options : Options) (fd : ImageFd) (buf : List UInt8) (dev : Device)
    (next : List Device) : Except Stop Writer :=
  loop (writeRound options) Writer.rounds .outside {
    fd := fd
    buf := buf
    offset := 0
    w := 0
    e := 0
    skipBadBlocks := 0
    pos := options.partOffset
    left := []
    dev := dev
    next := next }

/-- What `image_check` leaves: whether the image is accepted, the bytes that are in the buffer, or
none if `buflen` is negative, and what is left of the image. -/
structure Checked where
  accepted : Bool
  buf : Option (List UInt8)
  fd : ImageFd
  deriving DecidableEq, Repr

/-- `TRX_MAGIC`. -/
def trxMagic : Nat := 0x30524448

/-- `trx_check`. Only a device with the name `linux` is checked. -/
def trxCheck (order : ByteOrder) (linux : Bool) (dev : Device) (fd : ImageFd) :
    Except Stop Checked :=
  if !linux then .ok { accepted := true, buf := some [], fd := fd }
  else
    match read fd 32 with
    | (.got bytes, fd) =>
        if dev.eraseSize < bytes.length then .error .outside
        else
          let magic := order.word (bytes.take 4)
          let len := order.word ((bytes.drop 4).take 4)
          .ok {
            accepted := 32 ≤ bytes.length && magic = trxMagic && 28 ≤ len && len ≤ dev.size
            buf := some bytes
            fd := fd }
    | (_, fd) => .ok { accepted := false, buf := none, fd := fd }

/-- `image_check`. Some targets have no check. -/
def imageCheck (order : ByteOrder) (hasTrx linux : Bool) (dev : Device) (fd : ImageFd) :
    Except Stop Checked :=
  if hasTrx then trxCheck order linux dev fd
  else .ok { accepted := true, buf := some [], fd := fd }

/-- `main` for the command `write`. A `buflen` that is negative makes the first `read` store in front
of the buffer. -/
def cmdWrite (order : ByteOrder) (hasTrx linux force : Bool) (options : Options) (fd : ImageFd)
    (dev : Device) (next : List Device) : Except Stop Writer := do
  let checked ← imageCheck order hasTrx linux dev fd
  if !checked.accepted && !force then .error .exit
  else
    match checked.buf with
    | none => .error .outside
    | some buf => mtdWrite options checked.fd buf dev next

end Trunk.Mtd
