import Trunk.Map.Rule

/-! # The embedded address

`bmemcpy` and `bmemcpys64` copy bits, at every alignment of both ends (`Trunk.Map.bmemcpy_bits`,
`Trunk.Map.bmemcpys64_bits`). So the IPv4 address of a rule is the prefix of the rule with bits of
the delegated prefix behind it, the PSID is the bits that follow those, and two delegated prefixes
with different embedded-address bits have another address or another PSID
(`Trunk.Map.mapRule_embeds`).
-/

namespace Trunk.Map

open Memory Network Inet

variable {a b : List UInt8} {bits index : Nat}

/-- The mask of the low bits of a byte. -/
theorem testBit_mask {count : Nat} (few : count ≤ 8) (place : Nat) :
    (UInt8.ofNat (1 <<< count - 1)).toNat.testBit place = decide (place < count) := by
  have small : 2 ^ count - 1 < 2 ^ 8 := by
    have bound := Nat.pow_le_pow_right Nat.two_pos few
    have positive := Nat.two_pow_pos count
    omega
  rw [Nat.one_shiftLeft, UInt8.toNat_ofNat', Nat.mod_eq_of_lt small, Nat.testBit_two_pow_sub_one]

theorem testBit_merge {old new mask : UInt8} {place : Nat} (inside : place < 8) :
    ((old &&& mask) ||| (~~~ mask &&& new)).toNat.testBit place =
      if mask.toNat.testBit place then old.toNat.testBit place else new.toNat.testBit place := by
  have complement : (~~~ mask).toNat.testBit place = !mask.toNat.testBit place := by
    have size : UInt8.size - 1 - mask.toNat = 2 ^ 8 - (mask.toNat + 1) := by
      have bound : UInt8.size = 2 ^ 8 := rfl
      omega
    rw [UInt8.toNat_not, size, Nat.testBit_two_pow_sub_succ mask.toNat_lt, decide_eq_true inside,
      Bool.true_and]
  rw [UInt8.toNat_or, UInt8.toNat_and, UInt8.toNat_and, Nat.testBit_or, Nat.testBit_and,
    Nat.testBit_and, complement]
  cases mask.toNat.testBit place with
  | true => simp only [Bool.and_true, Bool.not_true, Bool.false_and, Bool.or_false, if_true]
  | false => simp only [Bool.and_false, Bool.not_false, Bool.true_and, Bool.false_or,
      Bool.false_eq_true, if_false]

/-- `bmemcpy` copies bits. -/
theorem bmemcpy_bits (target : bits ≤ 8 * a.length) (source : bits ≤ 8 * b.length) :
    ∃ result, bmemcpy a b bits = some result ∧ result.length = a.length ∧
      ∀ index < 8 * a.length, bit result index = if index < bits then bit b index
        else bit a index := by
  obtain ⟨whole, loaded⟩ : ∃ whole, load b 0 (bits / 8) = some whole :=
    ⟨_, load_eq_some_iff.mpr ⟨by omega, rfl⟩⟩
  have length : whole.length = bits / 8 := load_length loaded
  obtain ⟨copied, stored⟩ : ∃ copied, store a 0 whole = some copied :=
    store_isSome (by omega)
  have size := store_length stored
  have front : ∀ byte < bits / 8, copied[byte]? = b[byte]? := by
    intro byte inside
    rw [getElem?_store stored, if_pos (by omega), Nat.sub_zero, getElem?_load loaded inside,
      Nat.zero_add]
  have back : ∀ byte, bits / 8 ≤ byte → copied[byte]? = a[byte]? := by
    intro byte outside
    rw [getElem?_store stored, if_neg (by omega)]
  unfold bmemcpy
  simp only [loaded, stored, Option.bind_eq_bind, Option.bind_some]
  by_cases partial' : 0 < bits % 8
  · have there : bits / 8 < copied.length := by omega
    have there' : bits / 8 < b.length := by omega
    obtain ⟨result, merged⟩ : ∃ result, store copied (bits / 8)
        [(copied[bits / 8] &&& UInt8.ofNat (1 <<< (8 - bits % 8) - 1)) |||
          (~~~ UInt8.ofNat (1 <<< (8 - bits % 8) - 1) &&& b[bits / 8])] = some result :=
      store_isSome (Nat.succ_le_of_lt there)
    have cells := getElem?_store merged
    rw [List.length_singleton] at cells
    rw [if_pos partial', List.getElem?_eq_getElem there, Option.bind_some,
      List.getElem?_eq_getElem there', Option.bind_some]
    refine ⟨result, merged, (store_length merged).trans size, fun index inside => ?_⟩
    rw [bit, cells]
    by_cases here : index / 8 = bits / 8
    · -- the byte in which the copied bits end
      have old : copied[bits / 8] = (a[bits / 8]?.getD 0) := by
        rw [← back _ (Nat.le_refl _), List.getElem?_eq_getElem there, Option.getD_some]
      rw [if_pos (by omega), here, Nat.sub_self, List.getElem?_cons_zero, Option.getD_some,
        testBit_merge (by omega), testBit_mask (by omega), bit, bit, here, old,
        List.getElem?_eq_getElem there', Option.getD_some]
      by_cases early : index < bits
      · rw [if_pos early, if_neg]
        rw [decide_eq_true_eq]
        omega
      · rw [if_neg early, if_pos]
        rw [decide_eq_true_eq]
        omega
    · rw [if_neg (by omega)]
      by_cases early : index < bits
      · rw [if_pos early, bit, front _ (by omega)]
      · rw [if_neg early, bit, back _ (by omega)]
  · rw [if_neg partial']
    refine ⟨copied, rfl, size, fun index inside => ?_⟩
    by_cases early : index < bits
    · rw [if_pos early, bit, bit, front _ (by omega)]
    · rw [if_neg early, bit, bit, back _ (by omega)]

/-- `bmemcpys64` copies bits from a place on. -/
theorem bmemcpys64_bits {frombits nbits : Nat} (target : nbits ≤ 8 * a.length)
    (source : (frombits + nbits) / 8 < b.length) (short : frombits % 8 + nbits < 64) :
    ∃ result, bmemcpys64 a b frombits nbits = some result ∧ result.length = a.length ∧
      ∀ index < 8 * a.length, bit result index =
        if index < nbits then bit b (frombits + index) else bit a index := by
  obtain ⟨window, loaded⟩ : ∃ window, load b (frombits / 8)
      ((frombits + nbits) / 8 - frombits / 8 + 1) = some window :=
    ⟨_, load_eq_some_iff.mpr ⟨by omega, rfl⟩⟩
  have length : window.length = (frombits + nbits) / 8 - frombits / 8 + 1 := load_length loaded
  obtain ⟨buf, stored⟩ : ∃ buf, store (List.replicate 8 0) 0 window = some buf :=
    store_isSome (by rw [List.length_replicate]; omega)
  have size : buf.length = 8 := by rw [store_length stored, List.length_replicate]
  have shifted : ∀ index < nbits,
      bit (bytes 8 (number buf <<< (frombits % 8) % 2 ^ 64)) index = bit b (frombits + index) := by
    intro index inside
    have place : 8 * 8 - 1 - index - frombits % 8 =
        8 * buf.length - 1 - (frombits % 8 + index) := by omega
    have byte : (frombits + index) / 8 = frombits / 8 + (frombits % 8 + index) / 8 := by omega
    have rest : (frombits + index) % 8 = (frombits % 8 + index) % 8 := by omega
    rw [bit_bytes (by omega), Nat.testBit_mod_two_pow, decide_eq_true (by omega), Bool.true_and,
      Nat.testBit_shiftLeft, decide_eq_true (by omega), Bool.true_and, place,
      testBit_number (by omega), bit, bit, getElem?_store stored, if_pos (by omega), Nat.sub_zero,
      getElem?_load loaded (by omega), byte, rest]
  obtain ⟨result, copied, kept, same⟩ := @bmemcpy_bits a
    (bytes 8 (number buf <<< (frombits % 8) % 2 ^ 64)) nbits target
    (by rw [length_bytes]; omega)
  refine ⟨result, ?_, kept, fun index inside => ?_⟩
  · unfold bmemcpys64
    simp only [loaded, stored, Option.bind_eq_bind, Option.bind_some]
    exact copied
  · rw [same index inside]
    by_cases early : index < nbits
    · rw [if_pos early, if_pos early, shifted index early]
    · rw [if_neg early, if_neg early]

/-- A rule whose embedded-address bits are the rest of an IPv4 address and a PSID. The lengths
that it does not give are computed, and so is the PSID. -/
structure Rule.Sized (rule : Rule) (prefix4len prefix6len psidlen : Nat) : Prop where
  prefix4len_eq : rule.prefix4len = prefix4len
  prefix4len_le : prefix4len ≤ 31
  prefix6len_eq : rule.prefix6len = prefix6len
  psidlen_le : psidlen ≤ 16
  fits : prefix6len + (psidlen + (32 - prefix4len)) ≤ 64
  ealen_eq : rule.ealen < 0 ∨ rule.ealen = (psidlen + (32 - prefix4len) : Nat)
  psidlen_eq : rule.psidlen < 0 ∨ rule.psidlen = psidlen
  psid_neg : rule.psid < 0

/-- The IPv4 address and the PSID are the bits of a delegated prefix. -/
structure Embedded (rule : Rule) (prefix4len prefix6len psidlen : Nat) (pd : In6)
    (mapped : Mapped) : Prop where
  size : mapped.ipv4addr.length = 4
  network : ∀ index < prefix4len, bit mapped.ipv4addr index = bit rule.ipv4prefix.bytes index
  host : ∀ index < 32 - prefix4len,
    bit mapped.ipv4addr (prefix4len + index) = bit pd.bytes (prefix6len + index)
  psid : ∃ value : Nat, mapped.psid = value ∧ value < 2 ^ 16 ∧
    (∀ index < psidlen,
      value.testBit (15 - index) = bit pd.bytes (prefix6len + (32 - prefix4len) + index)) ∧
    ∀ index, psidlen ≤ index → index < 16 → value.testBit (15 - index) = false

variable {rule : Rule} {prefix4len prefix6len psidlen : Nat} {pd pd' : In6}
  {mapped mapped' : Mapped}

theorem sizeT_natCast {value : Nat} (small : value < 2 ^ 32) : sizeT value = value := by
  unfold sizeT
  omega

theorem bit_zeros (count : Nat) : bit (List.replicate count 0) index = false := by
  by_cases inside : index / 8 < count
  · rw [bit, List.getElem?_replicate, if_pos inside]
    exact Nat.zero_testBit _
  · exact bit_of_le (by rw [List.length_replicate]; omega)

section Sized

variable (sized : rule.Sized prefix4len prefix6len psidlen)

include sized

/-- The PSID is read from the bits behind those of the address. -/
theorem Rule.Sized.takePsid {pdlen : Int} (found : 0 ≤ pdlen) (pd : In6) :
    ∃ value : Nat, Map.takePsid rule pd pdlen (psidlen + (32 - prefix4len) : Nat) psidlen =
        some value ∧ value < 2 ^ 16 ∧
      (∀ index < psidlen,
        value.testBit (15 - index) = bit pd.bytes (prefix6len + (32 - prefix4len) + index)) ∧
      ∀ index, psidlen ≤ index → index < 16 → value.testBit (15 - index) = false := by
  have few := sized.psidlen_le
  have fits := sized.fits
  have low := sized.prefix4len_le
  have start : sizeT (rule.prefix6len + (psidlen + (32 - prefix4len) : Nat) - psidlen) =
      prefix6len + (32 - prefix4len) := by
    rw [sized.prefix6len_eq, sizeT]
    omega
  obtain ⟨psid16, copied, length, same⟩ := @bmemcpys64_bits [0, 0] pd.bytes
    (prefix6len + (32 - prefix4len)) psidlen (by simp only [List.length_cons, List.length_nil]; omega)
    (by rw [pd.size]; omega) (by omega)
  rw [List.length_cons, List.length_singleton] at length same
  have read : ∀ index < 16, (number psid16).testBit (15 - index) =
      if index < psidlen then bit pd.bytes (prefix6len + (32 - prefix4len) + index) else false := by
    intro index inside
    have place : 15 - index = 8 * psid16.length - 1 - index := by omega
    rw [place, testBit_number (by omega), same index (by omega)]
    split
    · rfl
    · exact bit_zeros 2
  have bound := number_lt psid16
  rw [length] at bound
  refine ⟨number psid16, ?_, bound, fun index inside => ?_, fun index outside inside => ?_⟩
  · unfold Map.takePsid
    rw [if_pos ⟨sized.psid_neg, by omega, by omega, found, by omega⟩, start,
      sizeT_natCast (by omega), copied]
    rfl
  · rw [read index (by omega), if_pos inside]
  · rw [read index inside, if_neg (by omega)]

/-- The IPv4 address has the bits of the delegated prefix behind those of its own prefix. -/
theorem Rule.Sized.takeIpv4addr {pdlen : Int} (found : 0 ≤ pdlen) (pd : In6) :
    ∃ addr, Map.takeIpv4addr rule pd pdlen (psidlen + (32 - prefix4len) : Nat) psidlen =
        some addr ∧ addr.length = 4 ∧
      (∀ index < prefix4len, bit addr index = bit rule.ipv4prefix.bytes index) ∧
      ∀ index < 32 - prefix4len,
        bit addr (prefix4len + index) = bit pd.bytes (prefix6len + index) := by
  have few := sized.psidlen_le
  have fits := sized.fits
  have low := sized.prefix4len_le
  have count : sizeT ((psidlen + (32 - prefix4len) : Nat) - psidlen) = 32 - prefix4len := by
    rw [sizeT]
    omega
  obtain ⟨taken, copied, length, same⟩ := @bmemcpys64_bits [0, 0, 0, 0] pd.bytes prefix6len
    (32 - prefix4len) (by simp only [List.length_cons, List.length_nil]; omega)
    (by rw [pd.size]; omega) (by omega)
  have four : taken.length = 4 := length
  obtain ⟨addr, placed, size, merged⟩ := @bmemcpy_bits (bytes 4 (number taken >>> prefix4len))
    rule.ipv4prefix.bytes prefix4len (by rw [length_bytes]; omega)
    (by rw [rule.ipv4prefix.size]; omega)
  rw [length_bytes] at size merged
  refine ⟨addr, ?_, size, fun index inside => ?_, fun index inside => ?_⟩
  · have shifted : shiftRight (number taken) rule.prefix4len = some (number taken >>> prefix4len) := by
      rw [sized.prefix4len_eq, shiftRight, if_pos (by omega), Int.toNat_natCast]
    unfold Map.takeIpv4addr
    rw [if_pos ⟨.inl found, by omega⟩, count, sized.prefix6len_eq, sizeT_natCast (by omega), copied]
    simp only [Option.bind_eq_bind, Option.bind_some, shifted]
    rw [sized.prefix4len_eq, sizeT_natCast (by omega)]
    exact placed
  · rw [merged index (by omega), if_pos inside]
  · have place : prefix4len + (8 * 4 - 1 - (prefix4len + index)) = 8 * taken.length - 1 - index := by
      omega
    rw [merged _ (by omega), if_neg (by omega), bit_bytes (by omega), Nat.testBit_shiftRight, place,
      testBit_number (by omega), same index (by rw [← length]; omega), if_pos inside]

/-- The values of a rule for a delegated prefix of the right length. -/
theorem Rule.Sized.mapEa (pd : In6) :
    ∃ mapped, Map.mapEa rule pd (prefix6len + (psidlen + (32 - prefix4len)) : Nat) = some mapped ∧
      Embedded rule prefix4len prefix6len psidlen pd mapped := by
  have low := sized.prefix4len_le
  have positive : (0 : Int) ≤ (prefix6len + (psidlen + (32 - prefix4len)) : Nat) :=
    Int.natCast_nonneg _
  have ealen : (if rule.ealen < 0 ∧ (0 : Int) ≤ (prefix6len + (psidlen + (32 - prefix4len)) : Nat)
      then ((prefix6len + (psidlen + (32 - prefix4len)) : Nat) : Int) - rule.prefix6len
      else rule.ealen) = (psidlen + (32 - prefix4len) : Nat) := by
    have given := sized.ealen_eq
    have start := sized.prefix6len_eq
    split <;> omega
  have length : (if rule.psidlen < 0 then
      ((psidlen + (32 - prefix4len) : Nat) : Int) - (32 - rule.prefix4len) else rule.psidlen) =
        psidlen := by
    have given := sized.psidlen_eq
    have start := sized.prefix4len_eq
    split <;> omega
  obtain ⟨value, psid, below, bits, clear⟩ := sized.takePsid positive pd
  obtain ⟨addr, ipv4addr, size, network, host⟩ := sized.takeIpv4addr positive pd
  unfold Map.mapEa
  simp only [ealen, length, psid, ipv4addr, Option.bind_eq_bind, Option.bind_some, Option.pure_def]
  exact ⟨_, rfl, size, network, host, value, rfl, below, bits, clear⟩

end Sized

/-- Delegated prefixes with other embedded-address bits give other values. -/
theorem Embedded.differ (embedded : Embedded rule prefix4len prefix6len psidlen pd mapped)
    (embedded' : Embedded rule prefix4len prefix6len psidlen pd' mapped')
    (other : ∃ index < psidlen + (32 - prefix4len),
      bit pd.bytes (prefix6len + index) ≠ bit pd'.bytes (prefix6len + index)) :
    (mapped.ipv4addr, mapped.psid) ≠ (mapped'.ipv4addr, mapped'.psid) := by
  intro same
  obtain ⟨addr, psid⟩ := Prod.mk.inj same
  obtain ⟨index, inside, different⟩ := other
  apply different
  by_cases early : index < 32 - prefix4len
  · rw [← embedded.host index early, ← embedded'.host index early, addr]
  · obtain ⟨value, is, -, bits, -⟩ := embedded.psid
    obtain ⟨value', is', -, bits', -⟩ := embedded'.psid
    have equal : value = value' := Int.natCast_inj.mp (is.symm.trans (psid.trans is'))
    obtain ⟨later, rfl⟩ := Nat.exists_eq_add_of_le (Nat.le_of_not_lt early)
    rw [← Nat.add_assoc, ← bits later (by omega), ← bits' later (by omega), equal]

/-- The address and the PSID of a rule are the embedded-address bits of the delegated prefix that
is found for it, and tell apart delegated prefixes that differ in one of these bits. -/
theorem mapRule_embeds {rule : Rule} {prefix4len prefix6len psidlen : Nat}
    (sized : rule.Sized prefix4len prefix6len psidlen) :
    (∀ prefixes (pd : In6),
      findPd rule prefixes =
        some (some (pd, ((prefix6len + (psidlen + (32 - prefix4len)) : Nat) : Int))) →
      ∃ mapped, mapRule rule prefixes = some mapped ∧
        Embedded rule prefix4len prefix6len psidlen pd mapped) ∧
    (∀ prefixes prefixes' (pd pd' : In6) (mapped mapped' : Mapped),
      findPd rule prefixes =
        some (some (pd, ((prefix6len + (psidlen + (32 - prefix4len)) : Nat) : Int))) →
      findPd rule prefixes' =
        some (some (pd', ((prefix6len + (psidlen + (32 - prefix4len)) : Nat) : Int))) →
      mapRule rule prefixes = some mapped → mapRule rule prefixes' = some mapped' →
      (∃ index < psidlen + (32 - prefix4len),
        bit pd.bytes (prefix6len + index) ≠ bit pd'.bytes (prefix6len + index)) →
      (mapped.ipv4addr, mapped.psid) ≠ (mapped'.ipv4addr, mapped'.psid)) := by
  have one : ∀ prefixes (pd : In6),
      findPd rule prefixes =
        some (some (pd, ((prefix6len + (psidlen + (32 - prefix4len)) : Nat) : Int))) →
      ∃ mapped, mapRule rule prefixes = some mapped ∧
        Embedded rule prefix4len prefix6len psidlen pd mapped := by
    intro prefixes pd found
    obtain ⟨mapped, done, embedded⟩ := sized.mapEa pd
    refine ⟨mapped, ?_, embedded⟩
    unfold mapRule
    rw [found]
    exact done
  refine ⟨one, ?_⟩
  intro prefixes prefixes' pd pd' mapped mapped' found found' done done' other
  obtain ⟨made, done₂, embedded⟩ := one prefixes pd found
  obtain ⟨made', done₂', embedded'⟩ := one prefixes' pd' found'
  obtain rfl := Option.some.inj (done₂.symm.trans done)
  obtain rfl := Option.some.inj (done₂'.symm.trans done')
  exact embedded.differ embedded' other

/-- A rule with a prefix of 24 bits, and a PSID of 8 bits that it does not give. -/
def exampleRule : Rule where
  ealen := -1
  prefix4len := 24
  prefix6len := 40
  ipv4prefix := ⟨[192, 0, 2, 0], rfl⟩
  ipv6prefix := ⟨[0x20, 0x01, 0x0d, 0xb8, 0, 0, 0, 0, 0, 0, 0, 0, 0, 0, 0, 0], rfl⟩
  offset := -1
  psidlen := -1
  psid := -1

/-- A prefix that is delegated for the rule. -/
def examplePd : In6 := ⟨[0x20, 0x01, 0x0d, 0xb8, 0, 0x12, 0x34, 0, 0, 0, 0, 0, 0, 0, 0, 0], rfl⟩

theorem exampleRule_sized : exampleRule.Sized 24 40 8 where
  prefix4len_eq := rfl
  prefix4len_le := by decide
  prefix6len_eq := rfl
  psidlen_le := by decide
  fits := by decide
  ealen_eq := .inl (by decide)
  psidlen_eq := .inl (by decide)
  psid_neg := by decide

/-- The rule has the address 192.0.2.18 and a PSID of 0x34 for the prefix. -/
theorem mapRule_embeds_example :
    ∃ mapped, mapRule exampleRule [(examplePd, 56)] = some mapped ∧
      Embedded exampleRule 24 40 8 examplePd mapped :=
  (mapRule_embeds exampleRule_sized).1 [(examplePd, 56)] examplePd (by decide +kernel)

end Trunk.Map
