import Trunk.Foundation.Memory
import Trunk.Foundation.Network

/-! # The capture ring

The model of `iwcap` when it does not stream: the options that size the ring, the ring in the memory
that `malloc` returned, and the capture loop, which stores received frames and dumps the ring to a
file when it is asked to. An access outside the memory and a division by zero have no result.

The width of `size_t` and the byte order of the host are parameters, as are the two filters.
-/

namespace Trunk.Iwcap

open Memory Network

/-- What the program is compiled for, and its filters. -/
structure Setup where
  order : ByteOrder
  sizeBits : Nat
  filterData : Bool
  filterBeacon : Bool
  deriving DecidableEq, Repr

/-- The options that size the ring, with what `atoi` makes of their argument. -/
inductive Opt where
  | r (value : Int)
  | c (value : Int)
  deriving DecidableEq, Repr

/-- `ringsz` and `pktcap`. -/
structure Sizes where
  ringsz : Nat
  pktcap : Nat
  deriving DecidableEq, Repr

/-- The values of the two variables before the options are read. -/
def defaultSizes : Sizes := ⟨1024 * 1024, 256⟩

/-- `sizeof(radiotap_hdr_t)`. -/
def radiotapHdr : Nat := 8

/-- `LEN_IEEE802_11_HDR`. -/
def lenIeee80211Hdr : Nat := 32

/-- The branch of `main` for an option. It returns if the value is too small. -/
def readOption (sizes : Sizes) : Opt → Option Sizes
  | .r value =>
      let ringsz := (value % 2 ^ 32).toNat
      if ringsz < 3 * sizes.pktcap then none else some { sizes with ringsz := ringsz }
  | .c value =>
      let pktcap := (value % 2 ^ 16).toNat
      if pktcap ≤ radiotapHdr + lenIeee80211Hdr then none else some { sizes with pktcap := pktcap }

/-- The options in their order. -/
def readOptions (options : List Opt) : Option Sizes := options.foldlM readOption defaultSizes

/-- `struct ringbuf`. -/
structure Ringbuf where
  len : Nat
  fill : Nat
  slen : Nat
  buf : List UInt8
  deriving DecidableEq, Repr

/-- `sizeof(struct ringbuf_entry)`. -/
def entrySize : Nat := 16

/-- The number of slots `main` asks for. -/
def Sizes.slots (sizes : Sizes) : Nat := sizes.ringsz / sizes.pktcap

/-- The size of a slot. -/
def Sizes.slotSize (sizes : Sizes) : Nat := sizes.pktcap + entrySize

/-- What `ringbuf_init` asks `malloc` for. -/
def Sizes.request (setup : Setup) (sizes : Sizes) : Nat :=
  sizes.slots * sizes.slotSize % 2 ^ setup.sizeBits

/-- `ringbuf_init`, in the memory that was allocated. -/
def ringbufInit (sizes : Sizes) (memory : List UInt8) : Option Ringbuf := do
  let buf ← store memory 0 (List.replicate (sizes.slots * sizes.pktcap % 2 ^ 32) 0)
  return ⟨sizes.slots, 0, sizes.slotSize, buf⟩

/-- `ringbuf_add`: where the entry is, and the ring with the slot cleared and stamped. -/
def ringbufAdd (order : ByteOrder) (ring : Ringbuf) (sec usec : Nat) : Option (Nat × Ringbuf) := do
  let e := ring.fill * ring.slen % 2 ^ 32
  if ring.len = 0 then none
  else
    let fill := (ring.fill + 1) % 2 ^ 32 % ring.len
    let buf ← store ring.buf e (List.replicate ring.slen 0)
    let buf ← store buf (e + 8) (order.memory 4 sec)
    let buf ← store buf (e + 12) (order.memory 4 usec)
    return (e, { ring with fill := fill, buf := buf })

/-- `ringbuf_get`: where the entry is, if its length is not zero. -/
def ringbufGet (order : ByteOrder) (ring : Ringbuf) (i : Nat) : Option (Option Nat) := do
  if ring.len = 0 then none
  else
    let e := (ring.fill + i) % 2 ^ 32 % ring.len * ring.slen % 2 ^ 32
    let len ← load ring.buf e 4
    if 0 < order.word len then return some e else return none

/-- `write_pcap_header`. -/
def writePcapHeader (order : ByteOrder) : List UInt8 :=
  order.memory 4 0xa1b2c3d4 ++ order.memory 2 2 ++ order.memory 2 4 ++ order.memory 4 0 ++
    order.memory 4 0 ++ order.memory 4 0xFFFF ++ order.memory 4 127

/-- `write_pcap_frame`, with the time given. The two lengths are passed as 16 bits. -/
def writePcapFrame (order : ByteOrder) (sec usec len olen : Nat) : List UInt8 :=
  order.memory 4 sec ++ order.memory 4 usec ++ order.memory 4 (len % 2 ^ 16) ++
    order.memory 4 (olen % 2 ^ 16)

/-- What the dump writes for the slot at `i`. -/
def dumpSlot (order : ByteOrder) (ring : Ringbuf) (i : Nat) : Option (List UInt8) := do
  match ← ringbufGet order ring i with
  | none => return []
  | some e =>
      let len := order.word (← load ring.buf e 4)
      let olen := order.word (← load ring.buf (e + 4) 4)
      let sec := order.word (← load ring.buf (e + 8) 4)
      let usec := order.word (← load ring.buf (e + 12) 4)
      let data ← load ring.buf (e + entrySize) len
      return writePcapFrame order sec usec len olen ++ data

/-- The slots from `i` on, as many as are left. -/
def dumpSlots (order : ByteOrder) (ring : Ringbuf) : Nat → Nat → Option (List UInt8)
  | 0, _ => some []
  | left + 1, i => do
      let frame ← dumpSlot order ring i
      let rest ← dumpSlots order ring left (i + 1)
      return frame ++ rest

/-- The file that a dump writes. -/
def dumpRing (order : ByteOrder) (ring : Ringbuf) : Option (List UInt8) := do
  return writePcapHeader order ++ (← dumpSlots order ring ring.len 0)

/-- `FRAMETYPE_MASK`. -/
def frametypeMask : UInt8 := 0xFC

/-- `FRAMETYPE_BEACON`. -/
def frametypeBeacon : UInt8 := 0x80

/-- `FRAMETYPE_DATA`. -/
def frametypeData : UInt8 := 0x08

/-- What `recvfrom` gives the loop to store: nothing if it fails, if the packet is not longer than
its radiotap header, or if it is filtered. A packet is cut at the size of `pktbuf`. -/
def receive (setup : Setup) (packet : Option (List UInt8)) : Option (List UInt8) := do
  let pktbuf := (← packet).take 0xFFFF
  let itLen := ByteOrder.little.word ((pktbuf.drop 2).take 2)
  if pktbuf.length ≤ radiotapHdr ∨ pktbuf.length ≤ itLen then none
  else
    let frametype ← pktbuf[itLen]?
    if (setup.filterData ∧ frametype &&& frametypeMask = frametypeData) ∨
        (setup.filterBeacon ∧ frametype &&& frametypeMask = frametypeBeacon) then none
    else return pktbuf

/-- What happens to the capture loop: a dump that was requested, or a return of `recvfrom` at a
time. -/
inductive Event where
  | dump
  | received (sec usec : Nat) (packet : Option (List UInt8))
  deriving DecidableEq, Repr

/-- The end of a round that does not stream. -/
def storeFrame (order : ByteOrder) (pktcap : Nat) (ring : Ringbuf) (sec usec : Nat)
    (pktbuf : List UInt8) : Option Ringbuf := do
  let (e, ring) ← ringbufAdd order ring sec usec
  let len := if pktcap < pktbuf.length then pktcap else pktbuf.length
  let buf ← store ring.buf (e + 4) (order.memory 4 pktbuf.length)
  let buf ← store buf e (order.memory 4 len)
  let buf ← store buf (e + entrySize) (pktbuf.take len)
  return { ring with buf := buf }

/-- The capture loop: what is written to the output file, if it is. -/
def capture (setup : Setup) (pktcap : Nat) (ring : Ringbuf) :
    Event → Option (Option (List UInt8) × Ringbuf)
  | .dump => do return (some (← dumpRing setup.order ring), ring)
  | .received sec usec packet =>
      match receive setup packet with
      | none => some (none, ring)
      | some pktbuf => do
          return (none, ← storeFrame setup.order pktcap ring sec usec pktbuf)

end Trunk.Iwcap
