import Mathlib.Data.UInt
import Trunk.Foundation.Transducer
import Trunk.Utils.CString

/-! # The PC1 cipher

The model of `pc1crypt.c`. Every byte is masked by a byte that is made of the context, and the
plaintext byte is mixed into the key. The table `x1a0` is indexed by a variable of the context; an
access outside it has no result. Encryption and decryption of a byte leave the same context
(`Trunk.Pc1.pc1Decrypt_pc1Encrypt`), so that the one takes the other back however the text is cut
(`Trunk.Pc1.decryptBufs_encryptBufs`).
-/

namespace Trunk.Pc1

open CString Transducer

/-- `struct pc1_ctx`. -/
structure Pc1Ctx where
  ax : UInt16
  bx : UInt16
  cx : UInt16
  dx : UInt16
  si : UInt16
  tmp : UInt16
  x1a2 : UInt16
  x1a0 : Vector UInt16 8
  res : UInt16
  i : UInt16
  inter : UInt16
  cfc : UInt16
  cfd : UInt16
  compte : UInt16
  cle : Vector UInt8 17
  deriving DecidableEq, Repr

namespace Pc1Ctx

variable (pc1 : Pc1Ctx)

/-- `tmp = ax; ax = si; si = tmp`. -/
def swapAxSi : Pc1Ctx := { pc1 with tmp := pc1.ax, ax := pc1.si, si := pc1.ax }

/-- `tmp = ax; ax = dx; dx = tmp`. -/
def swapAxDx : Pc1Ctx := { pc1 with tmp := pc1.ax, ax := pc1.dx, dx := pc1.ax }

/-- `tmp = ax; ax = cx; cx = tmp`. -/
def swapAxCx : Pc1Ctx := { pc1 with tmp := pc1.ax, ax := pc1.cx, cx := pc1.ax }

/-- `if (ax != 0) ax = ax * bx`. -/
def scaleAx : Pc1Ctx := if pc1.ax ≠ 0 then { pc1 with ax := pc1.ax * pc1.bx } else pc1

/-- `if (ax != 0) { ax = ax * si; cx = ax + cx; }`. -/
def addProduct : Pc1Ctx :=
  if pc1.ax ≠ 0 then { pc1 with ax := pc1.ax * pc1.si, cx := pc1.ax * pc1.si + pc1.cx } else pc1

/-- `ax = ax * bx; dx = cx + dx; ax = ax + 1`. -/
def finishRegisters : Pc1Ctx := { pc1 with ax := pc1.ax * pc1.bx + 1, dx := pc1.cx + pc1.dx }

/-- The arithmetic of `pc1_code`. -/
def registers : Pc1Ctx :=
  pc1.swapAxSi.swapAxDx.scaleAx.swapAxCx.addProduct.swapAxSi.finishRegisters

/-- `(cle[2 * k] * 256) + cle[2 * k + 1]`. -/
def keyWord (k : Fin 8) : UInt16 :=
  have inside : k.val < 8 := k.isLt
  pc1.cle[2 * k.val].toUInt16 * 256 + pc1.cle[2 * k.val + 1].toUInt16

end Pc1Ctx

/-- `pc1_code`. -/
def pc1Code (pc1 : Pc1Ctx) : Option Pc1Ctx := do
  let value ← pc1.x1a0[pc1.i.toNat]?
  let pc1 := { pc1 with dx := pc1.x1a2 + pc1.i, ax := value, cx := 0x015a, bx := 0x4e35 }
  let pc1 := pc1.registers
  return { pc1 with
    x1a2 := pc1.dx
    x1a0 := pc1.x1a0.setIfInBounds pc1.i.toNat pc1.ax
    res := pc1.ax ^^^ pc1.dx
    i := pc1.i + 1 }

/-- The first round of `pc1_assemble`. -/
def assembleFirst (pc1 : Pc1Ctx) : Option Pc1Ctx := do
  let pc1 ← pc1Code { pc1 with x1a0 := pc1.x1a0.set 0 (pc1.keyWord 0) }
  return { pc1 with inter := pc1.res }

/-- A later round of `pc1_assemble`, which sets `x1a0[k + 1]`. -/
def assembleRound (k : Fin 7) (pc1 : Pc1Ctx) : Option Pc1Ctx := do
  let word := pc1.x1a0[k.castSucc] ^^^ pc1.keyWord k.succ
  let pc1 ← pc1Code { pc1 with x1a0 := pc1.x1a0.set k.succ word }
  return { pc1 with inter := pc1.inter ^^^ pc1.res }

/-- `pc1_assemble`. -/
def pc1Assemble (pc1 : Pc1Ctx) : Option Pc1Ctx := do
  let pc1 ← assembleFirst pc1
  let pc1 ← assembleRound 0 pc1
  let pc1 ← assembleRound 1 pc1
  let pc1 ← assembleRound 2 pc1
  let pc1 ← assembleRound 3 pc1
  let pc1 ← assembleRound 4 pc1
  let pc1 ← assembleRound 5 pc1
  let pc1 ← assembleRound 6 pc1
  return { pc1 with i := 0 }

/-- `cfc = inter >> 8; cfd = inter & 255`. -/
def splitInter (pc1 : Pc1Ctx) : Pc1Ctx :=
  { pc1 with cfc := pc1.inter >>> 8, cfd := pc1.inter &&& 255 }

/-- The loop that mixes the plaintext byte with the key: all but the last byte of `cle`. -/
def mixKey (pc1 : Pc1Ctx) (c : UInt16) : Pc1Ctx :=
  { pc1 with
    cle := pc1.cle.mapFinIdx fun index byte _ =>
      if index ≤ 15 then (byte.toUInt16 ^^^ c).toUInt8 else byte
    compte := 16 }

/-- `pc1_decrypt`. -/
def pc1Decrypt (pc1 : Pc1Ctx) (c : UInt16) : Option (Pc1Ctx × UInt8) := do
  let pc1 := splitInter (← pc1Assemble pc1)
  let c := c ^^^ (pc1.cfc ^^^ pc1.cfd)
  return (mixKey pc1 c, c.toUInt8)

/-- `pc1_encrypt`. -/
def pc1Encrypt (pc1 : Pc1Ctx) (c : UInt16) : Option (Pc1Ctx × UInt8) := do
  let pc1 := splitInter (← pc1Assemble pc1)
  return (mixKey pc1 c, (c ^^^ (pc1.cfc ^^^ pc1.cfd)).toUInt8)

/-- The key of `pc1_init`, with the NUL that ends it. -/
def remsaalps : Vector UInt8 17 :=
  #v[ascii 'R', ascii 'e', ascii 'm', ascii 's', ascii 'a', ascii 'a', ascii 'l', ascii 'p',
    ascii 's', ascii '!', ascii '1', ascii '2', ascii '3', ascii '4', ascii '5', ascii '6', 0]

/-- `pc1_init`. -/
def pc1Init : Pc1Ctx where
  ax := 0
  bx := 0
  cx := 0
  dx := 0
  si := 0
  tmp := 0
  x1a2 := 0
  x1a0 := Vector.replicate 8 0
  res := 0
  i := 0
  inter := 0
  cfc := 0
  cfd := 0
  compte := 0
  cle := remsaalps

/-- `pc1_decrypt_buf`. -/
def pc1DecryptBuf : Pc1Ctx → List UInt8 → Option (Pc1Ctx × List UInt8) :=
  transduce fun pc1 byte => pc1Decrypt pc1 byte.toUInt16

/-- `pc1_encrypt_buf`. -/
def pc1EncryptBuf : Pc1Ctx → List UInt8 → Option (Pc1Ctx × List UInt8) :=
  transduce fun pc1 byte => pc1Encrypt pc1 byte.toUInt16

/-- Buffers that are decrypted one after the other. -/
def decryptBufs : Pc1Ctx → List (List UInt8) → Option (Pc1Ctx × List (List UInt8)) :=
  transduce pc1DecryptBuf

/-- Buffers that are encrypted one after the other. -/
def encryptBufs : Pc1Ctx → List (List UInt8) → Option (Pc1Ctx × List (List UInt8)) :=
  transduce pc1EncryptBuf

/-! ## The table is accessed inside it -/

theorem scaleAx_i (pc1 : Pc1Ctx) : pc1.scaleAx.i = pc1.i := by
  unfold Pc1Ctx.scaleAx
  split <;> rfl

theorem addProduct_i (pc1 : Pc1Ctx) : pc1.addProduct.i = pc1.i := by
  unfold Pc1Ctx.addProduct
  split <;> rfl

theorem registers_i (pc1 : Pc1Ctx) : pc1.registers.i = pc1.i := by
  change pc1.swapAxSi.swapAxDx.scaleAx.swapAxCx.addProduct.i = pc1.i
  rw [addProduct_i]
  exact scaleAx_i _

/-- Inside the table there is a next context, with the next index. -/
theorem pc1Code_isSome {pc1 : Pc1Ctx} (inside : pc1.i.toNat < 8) :
    ∃ next, pc1Code pc1 = some next ∧ next.i = pc1.i + 1 := by
  have value : pc1.x1a0[pc1.i.toNat]? = some pc1.x1a0[pc1.i.toNat] :=
    Vector.getElem?_eq_getElem inside
  rw [pc1Code, value]
  refine ⟨_, rfl, ?_⟩
  rw [registers_i]

theorem assembleFirst_isSome {pc1 : Pc1Ctx} (first : pc1.i = 0) :
    ∃ next, assembleFirst pc1 = some next ∧ next.i = 1 := by
  obtain ⟨next, coded, index⟩ :=
    @pc1Code_isSome { pc1 with x1a0 := pc1.x1a0.set 0 (pc1.keyWord 0) } (by rw [first]; decide)
  refine ⟨{ next with inter := next.res }, ?_, ?_⟩
  · rw [assembleFirst, coded]
    rfl
  · rw [index, first]
    rfl

theorem assembleRound_isSome {pc1 : Pc1Ctx} (k : Fin 7) {index : UInt16} (here : pc1.i = index)
    (inside : index.toNat < 8) :
    ∃ next, assembleRound k pc1 = some next ∧ next.i = index + 1 := by
  obtain ⟨next, coded, after⟩ := @pc1Code_isSome
    { pc1 with x1a0 := pc1.x1a0.set k.succ (pc1.x1a0[k.castSucc] ^^^ pc1.keyWord k.succ) }
    (by rw [here]; exact inside)
  refine ⟨{ next with inter := next.inter ^^^ next.res }, ?_, ?_⟩
  · rw [assembleRound, coded]
    rfl
  · rw [after, here]

/-- `pc1_assemble` uses the eight indices, and starts again at the first one. -/
theorem pc1Assemble_isSome {pc1 : Pc1Ctx} (first : pc1.i = 0) :
    ∃ next, pc1Assemble pc1 = some next ∧ next.i = 0 := by
  obtain ⟨pc10, ran0, i0⟩ := assembleFirst_isSome first
  obtain ⟨pc11, ran1, i1⟩ := assembleRound_isSome 0 i0 (by decide)
  obtain ⟨pc12, ran2, i2⟩ := assembleRound_isSome 1 i1 (by decide)
  obtain ⟨pc13, ran3, i3⟩ := assembleRound_isSome 2 i2 (by decide)
  obtain ⟨pc14, ran4, i4⟩ := assembleRound_isSome 3 i3 (by decide)
  obtain ⟨pc15, ran5, i5⟩ := assembleRound_isSome 4 i4 (by decide)
  obtain ⟨pc16, ran6, i6⟩ := assembleRound_isSome 5 i5 (by decide)
  obtain ⟨pc17, ran7, i7⟩ := assembleRound_isSome 6 i6 (by decide)
  refine ⟨{ pc17 with i := 0 }, ?_, rfl⟩
  simp only [pc1Assemble, ran0, ran1, ran2, ran3, ran4, ran5, ran6, ran7, Option.bind_eq_bind,
    Option.bind_some, Option.pure_def]

theorem pc1Encrypt_isSome {pc1 : Pc1Ctx} (first : pc1.i = 0) (c : UInt16) :
    ∃ next byte, pc1Encrypt pc1 c = some (next, byte) ∧ next.i = 0 := by
  obtain ⟨assembled, ran, index⟩ := pc1Assemble_isSome first
  refine ⟨mixKey (splitInter assembled) c,
    (c ^^^ ((splitInter assembled).cfc ^^^ (splitInter assembled).cfd)).toUInt8, ?_, index⟩
  rw [pc1Encrypt, ran]
  rfl

/-! ## A byte is decrypted in the context in which it was encrypted -/

/-- The mask of a byte has eight bits. -/
theorem mask_lt (inter : UInt16) : (inter >>> 8 ^^^ (inter &&& 255)).toNat < 2 ^ 8 := by
  rw [UInt16.toNat_xor]
  refine Nat.xor_lt_two_pow ?_ ?_
  · have bound := inter.toNat_lt
    rw [UInt16.toNat_shiftRight, Nat.shiftRight_eq_div_pow]
    exact Nat.div_lt_of_lt_mul bound
  · rw [UInt16.toNat_and]
    exact Nat.lt_of_le_of_lt Nat.and_le_right (by decide)

/-- A mask of eight bits is taken off again. -/
theorem unmask (byte : UInt8) {mask : UInt16} (narrow : mask.toNat < 2 ^ 8) :
    (byte.toUInt16 ^^^ mask).toUInt8.toUInt16 ^^^ mask = byte.toUInt16 := by
  have low : mask = mask.toUInt8.toUInt16 := by
    apply UInt16.toNat_inj.mp
    rw [UInt8.toNat_toUInt16, UInt16.toNat_toUInt8, Nat.mod_eq_of_lt narrow]
  have masked : byte.toUInt16 ^^^ mask = (byte ^^^ mask.toUInt8).toUInt16 := by
    rw [UInt8.toUInt16_xor, ← low]
  rw [masked, UInt8.toUInt8_toUInt16, ← masked, UInt16.xor_assoc, UInt16.xor_self, UInt16.xor_zero]

/-- Decryption takes encryption back, and leaves the same context. -/
theorem pc1Decrypt_pc1Encrypt {pc1 next : Pc1Ctx} {byte cipher : UInt8}
    (encrypted : pc1Encrypt pc1 byte.toUInt16 = some (next, cipher)) :
    pc1Decrypt pc1 cipher.toUInt16 = some (next, byte) := by
  rw [pc1Encrypt] at encrypted
  obtain ⟨assembled, ran, ended⟩ := Option.bind_eq_some_iff.mp encrypted
  obtain ⟨rfl, rfl⟩ := Prod.mk.inj (Option.some.inj ended)
  have plain := unmask byte (mask_lt assembled.inter)
  rw [pc1Decrypt, ran]
  change some (mixKey (splitInter assembled) (_ ^^^ _), (_ ^^^ _ : UInt16).toUInt8) = _
  rw [splitInter, plain, UInt8.toUInt8_toUInt16]

/-- A whole text is decrypted as it was encrypted. -/
theorem pc1DecryptBuf_pc1EncryptBuf {pc1 last : Pc1Ctx} {text cipher : List UInt8}
    (encrypted : pc1EncryptBuf pc1 text = some (last, cipher)) :
    pc1DecryptBuf pc1 cipher = some (last, text) := by
  unfold pc1DecryptBuf
  refine transduce_inverse ?_ encrypted
  intro pc1 next byte answer stepped
  exact pc1Decrypt_pc1Encrypt stepped

theorem pc1EncryptBuf_isSome (text : List UInt8) :
    ∃ last cipher, pc1EncryptBuf pc1Init text = some (last, cipher) := by
  have first : pc1Init.i = 0 := rfl
  obtain ⟨last, cipher, whole, -⟩ := transduce_isSome (fun pc1 : Pc1Ctx => pc1.i = 0)
    (fun pc1 byte holds => pc1Encrypt_isSome holds byte.toUInt16) first text
  exact ⟨last, cipher, whole⟩

/-- Buffers that are encrypted one after the other, from a fresh context, are decrypted from a fresh
context to the same text, however they are cut. -/
theorem decryptBufs_encryptBufs (pieces : List (List UInt8)) :
    ∃ pc1 ciphers, encryptBufs pc1Init pieces = some (pc1, ciphers) ∧
      ∀ cut : List (List UInt8), cut.flatten = ciphers.flatten →
        ∃ plains, decryptBufs pc1Init cut = some (pc1, plains) ∧
          plains.flatten = pieces.flatten := by
  obtain ⟨last, cipher, whole⟩ := pc1EncryptBuf_isSome pieces.flatten
  have back := pc1DecryptBuf_pc1EncryptBuf whole
  rw [pc1EncryptBuf, transducePieces_flatten] at whole
  obtain ⟨ran, encrypted, ended⟩ := Option.map_eq_some_iff.mp whole
  obtain ⟨rfl, rfl⟩ := Prod.mk.inj ended
  refine ⟨ran.1, ran.2, encrypted, fun cut same => ?_⟩
  rw [← same, pc1DecryptBuf, transducePieces_flatten] at back
  obtain ⟨other, decrypted, ended⟩ := Option.map_eq_some_iff.mp back
  obtain ⟨same, joined⟩ := Prod.mk.inj ended
  refine ⟨other.2, ?_, joined⟩
  rw [← same]
  exact decrypted

end Trunk.Pc1
