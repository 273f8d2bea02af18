import Trunk.Foundation.Memory
import Trunk.Foundation.Network
import Trunk.Utils.CString

/-! # Encrypted Buffalo images

The model of the stream cipher, the checksum, `encrypt_buf` and `decrypt_buf` of `buffalo-lib.c`, and
of `encrypt_file` of `buffalo-enc.c`. Images are encrypted and decrypted in place. An access outside
a buffer is a fault.
-/

namespace Trunk.Buffalo

open CString Memory Network

/-- A function returns an error, or an access is outside a buffer. -/
inductive Stop where
  | error
  | outside
  deriving DecidableEq, Repr

/-- An access to memory, outside of which there is nothing. -/
def access {α : Type} : Option α → Except Stop α
  | some value => .ok value
  | none => .error .outside

/-- What the platform decides: the sizes for which there is memory, and whether `char` is signed. -/
structure Host where
  malloc : Nat → Bool
  charSigned : Bool

/-- `struct bcrypt_ctx`. The length of the state is `state_len`. -/
structure BcryptCtx where
  i : UInt8
  j : UInt8
  state : List UInt8
  deriving DecidableEq, Repr

/-- `bcrypt_init`, the loop that mixes the key into the state. -/
def mixKey (key : List UInt8) : Nat → Nat → Nat → Nat → List UInt8 → Option (List UInt8)
  | 0, _, _, _, state => some state
  | rounds + 1, i, j, k, state => do
      let t ← state[i]?
      let p ← key[j]?
      let k := (k + p.toNat + t.toNat) % state.length
      let s ← state[k]?
      mixKey key rounds (i + 1) ((j + 1) % key.length) k ((state.set i s).set k t)

/-- `bcrypt_init`, where there is memory. -/
def bcryptInit (key : List UInt8) (stateLen : Nat) : Option BcryptCtx := do
  let state ← mixKey key stateLen 0 0 0 ((List.range stateLen).map UInt8.ofNat)
  return { i := 0, j := 0, state := state }

/-- `bcrypt_process`, what a round does to the state, and the byte that it takes from it. Both indices
are cut to a byte. -/
def bcryptStep (ctx : BcryptCtx) : Option (BcryptCtx × UInt8) := do
  let i := UInt8.ofNat ((ctx.i.toNat + 1) % ctx.state.length)
  let first ← ctx.state[i.toNat]?
  let j := UInt8.ofNat ((ctx.j.toNat + first.toNat) % ctx.state.length)
  let second ← ctx.state[j.toNat]?
  let state := (ctx.state.set j.toNat first).set i.toNat second
  let first ← state[i.toNat]?
  let second ← state[j.toNat]?
  let byte ← state[(first.toNat + second.toNat) % state.length]?
  return ({ i := i, j := j, state := state }, byte)

/-- `bcrypt_process`, from one place of a buffer to another. -/
def bcryptProcess : Nat → BcryptCtx → List UInt8 → Nat → Nat → Option (List UInt8)
  | 0, _, memory, _, _ => some memory
  | len + 1, ctx, memory, src, dst => do
      let (ctx, byte) ← bcryptStep ctx
      let value ← memory[src]?
      if dst < memory.length then
        bcryptProcess len ctx (memory.set dst (value ^^^ byte)) (src + 1) (dst + 1)
      else none

/-- `BCRYPT_MAX_KEYLEN`. -/
def bcryptMaxKeylen : Nat := 254

/-- `BCRYPT_DEFAULT_STATE_LEN`. -/
def bcryptDefaultStateLen : Nat := 256

/-- The length of the state. -/
def stateLen (longstate : Bool) (len : Nat) : Nat := if longstate then len else bcryptDefaultStateLen

/-- `bcrypt_buf`. -/
def bcryptBuf (host : Host) (seed : UInt8) (key : CStr) (memory : List UInt8) (src dst len : Nat)
    (longstate : Bool) : Except Stop (List UInt8) :=
  if bcryptMaxKeylen < key.bytes.length then .error .outside
  else if host.malloc (stateLen longstate len) = false then .error .error
  else
    access do
      let ctx ← bcryptInit (seed :: key.bytes) (stateLen longstate len)
      bcryptProcess len ctx memory src dst

/-- `buffalo_csum`, a bit. -/
def csumBit (csum : UInt32) : UInt32 :=
  (csum >>> 1) ^^^ (if csum &&& 1 = 1 then 0xedb88320 else 0)

/-- `buffalo_csum`, a byte. A `char` that is negative sets the high bits. -/
def csumByte (host : Host) (csum : UInt32) (byte : UInt8) : UInt32 :=
  let wide := if host.charSigned && 128 ≤ byte then 0xffffff00 ||| byte.toUInt32 else byte.toUInt32
  csumBit (csumBit (csumBit (csumBit (csumBit (csumBit (csumBit (csumBit (csum ^^^ wide))))))))

/-- `buffalo_csum`. -/
def buffaloCsum (host : Host) (csum : UInt32) (buf : List UInt8) : UInt32 :=
  buf.foldl (csumByte host) csum

/-- `ENC_MAGIC_LEN`. -/
def encMagicLen : Nat := 6

/-- `ENC_PRODUCT_LEN`. -/
def encProductLen : Nat := 32

/-- `ENC_VERSION_LEN`. -/
def encVersionLen : Nat := 8

/-- `struct enc_param`. -/
structure EncParam where
  key : CStr
  magic : List UInt8
  product : List UInt8
  version : List UInt8
  seed : UInt8
  longstate : Bool
  datalen : Nat
  csum : UInt32
  deriving DecidableEq, Repr

/-- `enc_compute_header_len`. -/
def encComputeHeaderLen (product version : CStr) : Nat :=
  encMagicLen + 1 + product.bytes.length + 1 + version.bytes.length + 1 + 3 * 4

/-- `enc_compute_buf_len`. -/
def encComputeBufLen (product version : CStr) (datalen : Nat) : Nat :=
  let ret := encComputeHeaderLen product version + datalen + 4
  ret + (4 - ret % 4)

/-- `put_be32`. -/
def putBe32 (memory : List UInt8) (place value : Nat) : Option (List UInt8) :=
  store memory place (bytes 4 value)

/-- The string in an array, with the NUL behind it. -/
def terminated (array : List UInt8) : List UInt8 := (CStr.ofBuffer array).bytes ++ [0]

/-- `encrypt_buf`: the length of a name is put, and the name behind it is copied and encrypted. What
is returned is the memory, the first byte of the encrypted name, and the place behind it. -/
def putCrypted (host : Host) (ep : EncParam) (seed : UInt8) (name memory : List UInt8) (p : Nat) :
    Except Stop (List UInt8 × UInt8 × Nat) := do
  let memory ← access (putBe32 memory p name.length)
  let memory ← access (store memory (p + 4) name)
  let memory ← bcryptBuf host seed ep.key memory (p + 4) (p + 4) name.length ep.longstate
  let s ← access memory[p + 4]?
  return (memory, s, p + 4 + name.length)

/-- `encrypt_buf`, with the places of the header and of the data in one buffer. -/
def encryptBuf (host : Host) (ep : EncParam) (memory : List UInt8) (hdr data : Nat) :
    Except Stop (List UInt8) := do
  let magic := terminated ep.magic
  let memory ← access (store memory hdr magic)
  let memory ← access (store memory (hdr + magic.length) [ep.seed])
  let (memory, s, p) ← putCrypted host ep ep.seed (terminated ep.product) memory
    (hdr + magic.length + 1)
  let (memory, s, p) ← putCrypted host ep s (terminated ep.version) memory p
  let memory ← access (putBe32 memory p ep.datalen)
  let memory ← bcryptBuf host s ep.key memory data data ep.datalen ep.longstate
  access (putBe32 memory (data + ep.datalen) ep.csum.toNat)

/-- `check_magic`. -/
def checkMagic (magic : List UInt8) : Bool :=
  magic = "start".toList.map ascii ++ [0] || magic = "asar1".toList.map ascii ++ [0]

/-- `CHECKLEN` in `decrypt_buf`, and what the pointer then reads. What remains is the rest of the
buffer. -/
def field (data : List UInt8) (p len : Nat) : Except Stop (List UInt8) :=
  if data.length - p < len then .error .error else .ok ((data.drop p).take len)

/-- `decrypt_buf`: a name and its length, which is bounded. -/
def nameField (data : List UInt8) (p most : Nat) : Except Stop (List UInt8 × Nat) := do
  let len := number (← field data p 4)
  if most < len then .error .error
  else
    let name ← field data (p + 4) len
    return (name, p + 4 + len)

/-- `decrypt_buf`. The data is decrypted to the front of the buffer. -/
def decryptBuf (host : Host) (ep : EncParam) (data : List UInt8) :
    Except Stop (EncParam × List UInt8) := do
  let magic ← field data 0 encMagicLen
  if checkMagic magic = false then .error .error
  else
    let ep := { ep with magic := magic }
    let ep := { ep with seed := (← access (← field data encMagicLen 1)[0]?) }
    let (name, p) ← nameField data (encMagicLen + 1) encProductLen
    let prodLen := name.length
    let ep := { ep with product := (← access (store ep.product 0 name)) }
    let (name, p) ← nameField data p encVersionLen
    let verLen := name.length
    let ep := { ep with version := (← access (store ep.version 0 name)) }
    let ep := { ep with datalen := number (← field data p 4) }
    let p := p + 4
    let _ ← field data p ep.datalen
    let data ← bcryptBuf host (← access ep.version[0]?) ep.key data p 0 ep.datalen ep.longstate
    let ep := { ep with csum := UInt32.ofNat (number (← field data (p + ep.datalen) 4)) }
    if buffaloCsum host (UInt32.ofNat ep.datalen) (data.take ep.datalen) ≠ ep.csum then .error .error
    else
      let version ← bcryptBuf host (← access ep.product[0]?) ep.key ep.version 0 0 verLen ep.longstate
      let ep := { ep with version := version }
      let product ← bcryptBuf host ep.seed ep.key ep.product 0 0 prodLen ep.longstate
      return ({ ep with product := product }, data)

/-- `strcpy` to an array of zeros. -/
def strcpy (size : Nat) (string : CStr) : Option (List UInt8) :=
  store (List.replicate size 0) 0 (string.bytes ++ [0])

/-- `encrypt_file`, from the data of the input file to the output file. `malloc` leaves some bytes in
the buffer. -/
def encryptData (host : Host) (key magic product version : CStr) (seed : UInt8) (longstate : Bool)
    (data garbage : List UInt8) : Except Stop (List UInt8) := do
  let hdrlen := encComputeHeaderLen product version
  let buf ← access (store garbage hdrlen data)
  let ep : EncParam := {
    key := key
    seed := seed
    longstate := longstate
    csum := buffaloCsum host (UInt32.ofNat data.length) data
    datalen := data.length % 2 ^ 32
    magic := (← access (strcpy encMagicLen magic))
    product := (← access (strcpy encProductLen product))
    version := (← access (strcpy encVersionLen version)) }
  encryptBuf host ep buf 0 hdrlen

/-- `encrypt_file`. `read_file_to_buf` fails on an empty file. -/
def encryptFile (host : Host) (key magic product version : CStr) (seed : UInt8) (longstate : Bool)
    (data garbage : List UInt8) : Except Stop (List UInt8) :=
  if host.malloc (encComputeBufLen product version data.length) = false then .error .error
  else if data = [] then .error .error
  else encryptData host key magic product version seed longstate data garbage

end Trunk.Buffalo
