import Trunk.Map.Contained

/-! # Copying bits on a host

The bit operations of `mapcalc.c` as a host does them. The window of `bmemcpys64` is loaded into a
word in the byte order of the host, and shifted between the two conversions of `libubox`, which are
parameters. The conversions make up for the byte order (`Trunk.Map.Host.bmemcpys64_eq`), so the
operations on blocks of `Trunk.Map` are those of every host, and exactly the bits that are asked for
are copied and compared (`Trunk.Map.Host.bitCopying_exact`).
-/

namespace Trunk.Map.Host

open Memory Network

/-- `memcmp`: the difference of the first bytes that differ. -/
def memcmp : List UInt8 → List UInt8 → Int
  | x :: xs, y :: ys => if x = y then memcmp xs ys else (x.toNat : Int) - y.toNat
  | _, _ => 0

/-- `bmemcmp`. -/
def bmemcmp (a b : List UInt8) (bits : Nat) : Option Int := do
  let res := memcmp (← load a 0 (bits / 8)) (← load b 0 (bits / 8))
  if res = 0 ∧ 0 < bits % 8 then
    let x ← a[bits / 8]?
    let y ← b[bits / 8]?
    return (x.toNat >>> (8 - bits % 8) : Nat) - (y.toNat >>> (8 - bits % 8) : Nat)
  else return res

/-- What `be64_to_cpu` and `cpu_to_be64` do on a host: a word in memory is read, and written, with
its highest byte first. -/
structure Conversions (order : ByteOrder) (be64ToCpu cpuToBe64 : UInt64 → UInt64) : Prop where
  read : ∀ memory : List UInt8, memory.length = 8 →
    (be64ToCpu (UInt64.ofNat (order.word memory))).toNat = number memory
  written : ∀ word, order.memory 8 (cpuToBe64 word).toNat = bytes 8 word.toNat

/-- `bmemcpys64`, on a host. -/
def bmemcpys64 (order : ByteOrder) (be64ToCpu cpuToBe64 : UInt64 → UInt64) (a b : List UInt8)
    (frombits nbits : Nat) : Option (List UInt8) := do
  let frombyte := frombits / 8
  let tobyte := (frombits + nbits) / 8
  let window ← load b frombyte (tobyte - frombyte + 1)
  -- the window is copied over the first bytes of a word that is zero
  let buf ← store (order.memory 8 0) 0 window
  let word := cpuToBe64
    (be64ToCpu (UInt64.ofNat (order.word buf)) <<< UInt64.ofNat (frombits % 8))
  bmemcpy a (order.memory 8 word.toNat) nbits

/-! ## The model on blocks -/

section Blocks

variable {order : ByteOrder} {be64ToCpu cpuToBe64 : UInt64 → UInt64} {x y a b : List UInt8}

theorem memory_zero (order : ByteOrder) : order.memory 8 0 = List.replicate 8 0 := by
  cases order <;> rfl

/-- The shift of a word is that of its number, without what leaves at the top. -/
theorem toNat_shiftLeft (word : UInt64) (frombits : Nat) :
    (word <<< UInt64.ofNat (frombits % 8)).toNat = word.toNat <<< (frombits % 8) % 2 ^ 64 := by
  have few : (UInt64.ofNat (frombits % 8)).toNat % 64 = frombits % 8 := by
    rw [UInt64.toNat_ofNat']
    omega
  rw [UInt64.toNat_shiftLeft, few]

/-- The conversions make up for the byte order of the host. -/
theorem bmemcpys64_eq (conversions : Conversions order be64ToCpu cpuToBe64) (a b : List UInt8)
    (frombits nbits : Nat) :
    bmemcpys64 order be64ToCpu cpuToBe64 a b frombits nbits = Map.bmemcpys64 a b frombits nbits := by
  unfold bmemcpys64 Map.bmemcpys64
  dsimp only
  rw [memory_zero]
  cases load b (frombits / 8) ((frombits + nbits) / 8 - frombits / 8 + 1) with
  | none => rfl
  | some window =>
      simp only [Option.bind_eq_bind, Option.bind_some]
      cases stored : store (List.replicate 8 0) 0 window with
      | none => rfl
      | some buf =>
          have size : buf.length = 8 := by rw [store_length stored, List.length_replicate]
          simp only [Option.bind_some]
          rw [conversions.written, toNat_shiftLeft, conversions.read buf size]

theorem memcmp_eq_zero_iff (same : x.length = y.length) : memcmp x y = 0 ↔ x = y := by
  induction x generalizing y with
  | nil =>
      cases y with
      | nil => exact ⟨fun _ => rfl, fun _ => rfl⟩
      | cons byte ys => cases same
  | cons byte xs ih =>
      cases y with
      | nil => cases same
      | cons other ys =>
          have rest := ih (Nat.succ.inj same)
          by_cases equal : byte = other
          · rw [memcmp, if_pos equal, rest, equal, List.cons.injEq, eq_self, true_and]
          · have different : byte.toNat ≠ other.toNat := fun numbers =>
              equal (UInt8.toNat_inj.mp numbers)
            rw [memcmp, if_neg equal, List.cons.injEq]
            constructor
            · intro zero
              omega
            · intro lists
              exact absurd lists.1 equal

/-- The comparison on blocks says whether the result is zero. -/
theorem bmemcmp_eq (a b : List UInt8) (bits : Nat) :
    Map.bmemcmp a b bits = (bmemcmp a b bits).map fun res => decide (res = 0) := by
  unfold bmemcmp Map.bmemcmp
  cases first : load a 0 (bits / 8) with
  | none => rfl
  | some x =>
      cases second : load b 0 (bits / 8) with
      | none => rfl
      | some y =>
          have zero : memcmp x y = 0 ↔ x = y :=
            memcmp_eq_zero_iff ((load_length first).trans (load_length second).symm)
          simp only [Option.bind_eq_bind, Option.bind_some]
          by_cases front : x = y
          · rw [if_neg (not_not_intro front), zero.mpr front]
            by_cases last : 0 < bits % 8
            · rw [if_pos last, if_pos ⟨rfl, last⟩]
              cases a[bits / 8]? with
              | none => rfl
              | some u =>
                  cases b[bits / 8]? with
                  | none => rfl
                  | some v =>
                      simp only [Option.bind_some, Option.pure_def, Option.map_some, sub_eq_zero,
                        Nat.cast_inj]
            · rw [if_neg last, if_neg (fun both => last both.2)]
              rfl
          · have nonzero := mt zero.mp front
            rw [if_pos front, if_neg (fun both => nonzero both.1)]
            simp only [Option.pure_def, Option.map_some, nonzero, decide_false]

end Blocks

/-! ## Exactly the bits that are asked for -/

/-- The first bits are those of the source from a place on, and all others are as before. -/
structure CopiesBits (source before : List UInt8) (frombits nbits : Nat) (after : List UInt8) :
    Prop where
  length : after.length = before.length
  copied : ∀ index < nbits, bit after index = bit source (frombits + index)
  kept : ∀ index, nbits ≤ index → bit after index = bit before index

section Exact

variable {order : ByteOrder} {be64ToCpu cpuToBe64 : UInt64 → UInt64}

/-- The word of `bmemcpys64` is large enough where the window has eight bytes at most. -/
theorem bmemcpys64_copies (conversions : Conversions order be64ToCpu cpuToBe64)
    {a b : List UInt8} {frombits nbits : Nat}
    (window : (frombits + nbits) / 8 - frombits / 8 ≤ 7)
    (source : (frombits + nbits) / 8 < b.length) (target : nbits ≤ 8 * a.length) :
    ∃ after, bmemcpys64 order be64ToCpu cpuToBe64 a b frombits nbits = some after ∧
      CopiesBits b a frombits nbits after := by
  have short : frombits % 8 + nbits < 64 := by omega
  obtain ⟨after, copied, length, same⟩ := bmemcpys64_bits target source short
  rw [bmemcpys64_eq conversions]
  refine ⟨after, copied, length, ?_, ?_⟩
  · intro index early
    rw [same index (by omega), if_pos early]
  · intro index late
    by_cases inside : index < 8 * a.length
    · rw [same index inside, if_neg (by omega)]
    · rw [bit_of_le (by omega), bit_of_le (by omega)]

/-- The result is zero exactly if the bits agree. -/
theorem bmemcmp_zero_iff {a b : List UInt8} {bits : Nat} (first : bits ≤ 8 * a.length)
    (second : bits ≤ 8 * b.length) :
    ∃ res, bmemcmp a b bits = some res ∧ (res = 0 ↔ SameBits bits a b) := by
  have agree := bmemcmp_eq a b bits
  rw [bmemcmp_bits first second] at agree
  obtain ⟨res, compared, zero⟩ := Option.map_eq_some_iff.mp agree.symm
  exact ⟨res, compared, decide_eq_decide.mp zero⟩

/-- On every host `bmemcpys64` copies exactly the bits that are asked for, and `bmemcmp` compares
exactly those. The blocks hold the bits, and the byte in which the copied ones end. -/
theorem bitCopying_exact (conversions : Conversions order be64ToCpu cpuToBe64) :
    (∀ (dst src : List UInt8) (frombits nbits : Nat),
      (frombits + nbits) / 8 - frombits / 8 ≤ 7 → frombits + nbits < 128 →
      frombits % 8 + nbits ≤ 64 → (frombits + nbits) / 8 < src.length → nbits ≤ 8 * dst.length →
        ∃ after, bmemcpys64 order be64ToCpu cpuToBe64 dst src frombits nbits = some after ∧
          CopiesBits src dst frombits nbits after) ∧
    ∀ (a b : List UInt8) (bits : Nat), bits ≤ 8 * a.length → bits ≤ 8 * b.length →
      ∃ res, bmemcmp a b bits = some res ∧ (res = 0 ↔ SameBits bits a b) := by
  constructor
  · intro dst src frombits nbits window _ _ source target
    exact bmemcpys64_copies conversions window source target
  · intro a b bits first second
    exact bmemcmp_zero_iff first second

/-- The bytes of a word are swapped on a little-endian host. -/
def swapped (order : ByteOrder) (word : UInt64) : UInt64 :=
  UInt64.ofNat (order.word (bytes 8 word.toNat))

theorem word_lt_size {memory : List UInt8} (size : memory.length = 8) :
    order.word memory < UInt64.size := by
  have bound := order.word_lt memory
  rw [size] at bound
  exact bound

theorem conversions_swapped (order : ByteOrder) :
    Conversions order (swapped order) (swapped order) where
  read memory size := by
    have small := @word_lt_size order _ size
    have back := @word_lt_size order _ (length_bytes 8 (order.word memory))
    rw [swapped, UInt64.toNat_ofNat_of_lt' small, UInt64.toNat_ofNat_of_lt' back]
    cases order with
    | little =>
        have whole := bytes_number memory.reverse
        rw [List.length_reverse, size] at whole
        rw [ByteOrder.word, ByteOrder.word, whole, List.reverse_reverse]
    | big =>
        have whole := bytes_number memory
        rw [size] at whole
        rw [ByteOrder.word, ByteOrder.word, whole]
  written word := by
    have small := @word_lt_size order _ (length_bytes 8 word.toNat)
    have whole := order.memory_word (bytes 8 word.toNat)
    rw [length_bytes] at whole
    rw [swapped, UInt64.toNat_ofNat_of_lt' small, whole]

/-- Ten bits of an address, from the twelfth one on. -/
theorem bitCopying_exact_ten :
    (∃ after, bmemcpys64 .little (swapped .little) (swapped .little) [0xff, 0xff]
        [0x20, 0x01, 0x0d, 0xb8, 0, 0, 0, 0, 0, 0, 0, 0, 0, 0, 0, 1] 12 10 = some after ∧
      CopiesBits [0x20, 0x01, 0x0d, 0xb8, 0, 0, 0, 0, 0, 0, 0, 0, 0, 0, 0, 1] [0xff, 0xff] 12 10
        after) ∧
    ∃ res, bmemcmp [0x20, 0x01] [0x20, 0x02] 14 = some res ∧
      (res = 0 ↔ SameBits 14 [0x20, 0x01] [0x20, 0x02]) := by
  have copies := bitCopying_exact (conversions_swapped .little)
  exact ⟨copies.1 _ _ 12 10 (by decide) (by decide) (by decide) (by decide) (by decide),
    copies.2 _ _ 14 (by decide) (by decide)⟩

end Exact

end Trunk.Map.Host
