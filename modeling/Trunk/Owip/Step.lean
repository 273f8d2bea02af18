import Mathlib.Tactic.LinearCombination
import Trunk.Owip.Range

/-! # Stepping by a prefix

What `next` and `prev` make of an address. The code for IPv6 adds one to the byte that the prefix
ends in, which is the step exactly if the prefix ends with the byte. The code for IPv4 adds words in
network byte order: it never fails, and on a little-endian machine a carry goes to the byte behind.
So the steps are the exact ones under the conditions of `Trunk.Owip.steps_exact_iff` only. A step
that is not exact is undone by the other one all the same.
-/

namespace Trunk.Owip

open Network Inet Subnet

variable {order : ByteOrder} {a b n : Cidr} {s : State} {x : List UInt8} {index : Nat}

/-- `next`, as the table of operations has it for the two families. -/
def cidrNext (order : ByteOrder) (a b : Cidr) (s : State) : Result :=
  match a.family with
  | .inet => cidrNext4 order a b s
  | .inet6 => cidrNext6 a b s

/-- `prev`, as the table of operations has it for the two families. -/
def cidrPrev (order : ByteOrder) (a b : Cidr) (s : State) : Result :=
  match a.family with
  | .inet => cidrPrev4 order a b s
  | .inet6 => cidrPrev6 a b s

/-- An operation gives an address of the family with the prefix of its argument, or fails. -/
def Yields (a b : Cidr) (s : State) (result : Result) : Option Nat → Prop
  | some value => ∃ n, result = .ok (true, cidrPush n s) ∧ n.family = a.family ∧
      n.prefixLength = b.prefixLength ∧ n.value = value
  | none => ∃ after, result = .ok (false, after)

/-- The number of addresses with a prefix. -/
def stepOf (a b : Cidr) : Nat := 2 ^ (a.family.width - b.prefixLength.toNat)

/-- `next` gives the address one step ahead, or fails where there is none. -/
def NextExact (order : ByteOrder) (a b : Cidr) (s : State) : Prop :=
  Yields a b s (cidrNext order a b s)
    (if a.value + stepOf a b < 2 ^ a.family.width then some (a.value + stepOf a b) else none)

/-- `prev` gives the address one step back, or fails where there is none. -/
def PrevExact (order : ByteOrder) (a b : Cidr) (s : State) : Prop :=
  Yields a b s (cidrPrev order a b s)
    (if stepOf a b ≤ a.value then some (a.value - stepOf a b) else none)

/-- The byte in which a prefix ends. -/
def lastByte (b : Cidr) : Nat := (b.prefixLength.toNat - 1) / 8

/-- The last bit of a prefix, in its byte. -/
def lastBit (b : Cidr) : Nat := 2 ^ (7 - (b.prefixLength.toNat - 1) % 8)

/-- One in the byte that a prefix ends in. -/
def byteStep (b : Cidr) : Nat := 2 ^ (8 * (15 - lastByte b))

/-- The byte of an address in which a prefix ends. -/
def byteAt (a b : Cidr) : UInt8 := a.addr.bytes[lastByte b]?.getD 0

/-- Where `next` is exact: the sum does not leave the word, or the byte, or the prefix ends with a
byte. -/
def NextFits (order : ByteOrder) (a b : Cidr) : Prop :=
  match a.family, order with
  | .inet, .big => a.value + stepOf a b < 2 ^ 32
  | .inet, .little => (byteAt a b).toNat + lastBit b < 256
  | .inet6, _ => b.prefixLength.toNat % 8 = 0 ∨ 2 ^ 128 ≤ a.value + byteStep b

/-- Where `prev` is exact. -/
def PrevFits (order : ByteOrder) (a b : Cidr) : Prop :=
  match a.family, order with
  | .inet, .big => stepOf a b ≤ a.value
  | .inet, .little => lastBit b ≤ (byteAt a b).toNat
  | .inet6, _ => b.prefixLength.toNat % 8 = 0 ∨ a.value < byteStep b

/-- An operation yields one thing only. -/
theorem Yields.unique {result : Result} {first second : Option Nat}
    (yields : Yields a b s result first) : Yields a b s result second ↔ first = second := by
  constructor
  · intro yields'
    cases first with
    | none =>
        obtain ⟨after, done⟩ := yields
        cases second with
        | none => rfl
        | some value =>
            obtain ⟨n, done', -⟩ := yields'
            rw [done] at done'
            cases done'
    | some value =>
        obtain ⟨n, done, -, -, rfl⟩ := yields
        cases second with
        | none =>
            obtain ⟨after, done'⟩ := yields'
            rw [done] at done'
            cases done'
        | some value' =>
            obtain ⟨n', done', -, -, rfl⟩ := yields'
            rw [done] at done'
            cases done'
            rfl
  · intro same
    rw [← same]
    exact yields

section Six

variable {digit : UInt8 → UInt8 → UInt8 → UInt8 × UInt8} {sign : Int}

/-- A digit and its carry make up the sum, or the difference, of two digits and the carry from
below. -/
def BalancedSum (digit : UInt8 → UInt8 → UInt8 → UInt8 × UInt8) (sign : Int) : Prop :=
  ∀ byte other carry : UInt8, carry.toNat ≤ 1 →
    (digit byte other carry).2.toNat ≤ 1 ∧
    ((digit byte other carry).1.toNat : Int) + sign * 256 * (digit byte other carry).2.toNat =
      byte.toNat + sign * (other.toNat + carry.toNat)

theorem balancedSum_addDigit : BalancedSum addDigit 1 := by
  intro byte other carry small
  have bound := byte.toNat_lt
  have bound' := other.toNat_lt
  have sum : (byte + (other + carry)).toNat = (byte.toNat + (other.toNat + carry.toNat)) % 256 := by
    rw [UInt8.toNat_add, UInt8.toNat_add]
    omega
  have one : (1 : UInt8).toNat = 1 := rfl
  have zero : (0 : UInt8).toNat = 0 := rfl
  unfold addDigit
  dsimp only
  rw [sum]
  split
  · refine ⟨Nat.le_refl 1, ?_⟩
    rw [one]
    omega
  · refine ⟨Nat.zero_le 1, ?_⟩
    rw [zero]
    omega

theorem balancedSum_subDigit : BalancedSum subDigit (-1) := by
  intro byte other carry small
  have bound := byte.toNat_lt
  have bound' := other.toNat_lt
  have difference : (byte - (other + carry)).toNat =
      (512 + byte.toNat - (other.toNat + carry.toNat)) % 256 := by
    rw [UInt8.toNat_sub, UInt8.toNat_add]
    omega
  have one : (1 : UInt8).toNat = 1 := rfl
  have zero : (0 : UInt8).toNat = 0 := rfl
  unfold subDigit
  dsimp only
  rw [difference]
  split
  · refine ⟨Nat.le_refl 1, ?_⟩
    rw [one]
    omega
  · refine ⟨Nat.zero_le 1, ?_⟩
    rw [zero]
    omega

/-- A digit and its carry make up the sum, or the difference, with the carry from below. -/
def Balanced (digit : UInt8 → UInt8 → UInt8 → UInt8 × UInt8) (sign : Int) : Prop :=
  ∀ byte carry : UInt8, carry.toNat ≤ 1 →
    (digit byte 0 carry).2.toNat ≤ 1 ∧
    ((digit byte 0 carry).1.toNat : Int) + sign * 256 * (digit byte 0 carry).2.toNat =
      byte.toNat + sign * carry.toNat

theorem BalancedSum.balanced (sums : BalancedSum digit sign) : Balanced digit sign := by
  intro byte carry small
  obtain ⟨below, sum⟩ := sums byte 0 carry small
  have none : (((0 : UInt8).toNat : Nat) : Int) = 0 := rfl
  rw [none, zero_add] at sum
  exact ⟨below, sum⟩

/-- A byte is replaced by a digit, in the number of the address. -/
theorem number_put (size : x.length = 16) (there : index < x.length) {new : UInt8} {carry sum : Int}
    (balance : (new.toNat : Int) + sign * 256 * carry = x[index].toNat + sign * sum) :
    (number (x.set index new) : Int) + sign * 2 ^ (8 * (15 - index) + 8) * carry =
      number x + sign * 2 ^ (8 * (15 - index)) * sum := by
  have set := number_set there new
  have place : x.length - 1 - index = 15 - index := by omega
  rw [place] at set
  have set' : (number (x.set index new) : Int) + 2 ^ (8 * (15 - index)) * x[index].toNat =
      number x + 2 ^ (8 * (15 - index)) * new.toNat := by
    exact_mod_cast set
  rw [pow_add]
  linear_combination set' + 2 ^ (8 * (15 - index)) * balance

/-- One round of the loop, in the number of the address. -/
theorem number_digit (balanced : Balanced digit sign) (size : x.length = 16) (inside : index < 16)
    {carry : UInt8} (small : carry.toNat ≤ 1) :
    ∃ byte, x[index]? = some byte ∧ (digit byte 0 carry).2.toNat ≤ 1 ∧
      (number (x.set index (digit byte 0 carry).1) : Int) +
          sign * 2 ^ (8 * (15 - index) + 8) * (digit byte 0 carry).2.toNat =
        number x + sign * 2 ^ (8 * (15 - index)) * carry.toNat := by
  have there : index < x.length := by omega
  obtain ⟨below, sum⟩ := balanced x[index] carry small
  exact ⟨x[index], List.getElem?_eq_getElem there, below, number_put size there sum⟩

/-- The loop adds, or subtracts, one at a byte, and the carry leaves at the top. -/
theorem ripple_number (balanced : Balanced digit sign) (size : x.length = 16) (inside : index < 16)
    {carry : UInt8} (small : carry.toNat ≤ 1) :
    ∃ result, ripple digit (List.replicate 16 0) index x carry = .ok result ∧
      result.2.toNat ≤ 1 ∧
      (number result.1 : Int) + sign * 2 ^ 128 * result.2.toNat =
        number x + sign * 2 ^ (8 * (15 - index)) * carry.toNat := by
  have zero : (List.replicate 16 (0 : UInt8))[index]? = some 0 := List.getElem?_replicate_of_lt inside
  obtain ⟨byte, there, below, sum⟩ := number_digit balanced size inside small
  induction index generalizing x carry byte with
  | zero =>
      refine ⟨(x.set 0 (digit byte 0 carry).1, (digit byte 0 carry).2), ?_, below, sum⟩
      rw [ripple, there, zero]
  | succ index ih =>
      have lower : index < 16 := by omega
      have size' : (x.set (index + 1) (digit byte 0 carry).1).length = 16 := by
        rw [List.length_set, size]
      obtain ⟨byte', there', below', sum'⟩ := number_digit balanced size' lower below
      obtain ⟨result, done, bound, total⟩ := ih size' lower below
        (List.getElem?_replicate_of_lt lower) byte' there' below' sum'
      have place : 8 * (15 - (index + 1)) + 8 = 8 * (15 - index) := by omega
      rw [place] at sum
      refine ⟨result, ?_, bound, total.trans sum⟩
      rw [ripple, there, zero]
      exact done

theorem lastByte_lt (within : b.prefixLength.toNat ≤ 128) : lastByte b < 16 := by
  unfold lastByte
  omega

/-- The byte at which the code for IPv6 starts. -/
theorem toNat_lastByte (positive : 1 ≤ b.prefixLength.toNat) (within : b.prefixLength.toNat ≤ 128) :
    ((b.prefixLength - 1) / 8).toNat % 256 = lastByte b := by
  have one : (1 : UInt32).toNat = 1 := rfl
  have less : (b.prefixLength - 1).toNat = b.prefixLength.toNat - 1 :=
    UInt32.toNat_sub_of_le _ _ (UInt32.le_iff_toNat_le.mpr (one.trans_le positive))
  have eight : (8 : UInt32).toNat = 8 := rfl
  have small := lastByte_lt within
  unfold lastByte at small ⊢
  rw [UInt32.toNat_div, less, eight]
  exact Nat.mod_eq_of_lt (by omega)

/-- `cidr_prev6` and `cidr_next6` step by one in the byte that they start at. -/
theorem cidrStep6_at (balanced : Balanced digit sign) (nonzero : b.prefixLength ≠ 0)
    (start : ((b.prefixLength - 1) / 8).toNat % 256 = index) (inside : index < 16) (s : State) :
    ∃ (addr : In6) (carry : Nat), carry ≤ 1 ∧
      (addr.value : Int) + sign * 2 ^ 128 * carry =
        a.addr.value + sign * (2 ^ (8 * (15 - index)) : Nat) ∧
      cidrStep6 digit a b s =
        if carry = 0 then .ok (true, cidrPush { a with addr := addr, prefixLength := b.prefixLength } s)
        else .ok (false, cidrPush { a with addr := addr } s) := by
  obtain ⟨result, done, small, total⟩ := ripple_number balanced a.addr.size inside
    (show (1 : UInt8).toNat ≤ 1 from Nat.le_refl 1)
  have stepped : rippleAddr digit (List.replicate 16 0) index a.addr 1 =
      .ok (⟨result.1, (length_ripple done).trans a.addr.size⟩, result.2) := by
    unfold rippleAddr
    split
    · rename_i fault failed
      rw [done] at failed
      cases failed
    · rename_i result' done'
      rw [done] at done'
      obtain rfl := Except.ok.inj done'
      rfl
  refine ⟨⟨result.1, (length_ripple done).trans a.addr.size⟩, result.2.toNat, small, ?_, ?_⟩
  · have one : ((1 : UInt8).toNat : Int) = 1 := rfl
    rw [one, mul_one] at total
    unfold In6.value
    push_cast
    exact total
  · unfold cidrStep6
    rw [if_neg nonzero]
    dsimp only
    rw [start, stepped]
    have zero : result.2 = 0 ↔ result.2.toNat = 0 := UInt8.toNat_inj.symm
    change (if result.2 = 0 then _ else _) = _
    simp only [zero]
    rfl

theorem prefixLength_ne_zero (positive : 1 ≤ b.prefixLength.toNat) : b.prefixLength ≠ 0 := by
  intro zero
  rw [zero] at positive
  exact absurd positive (by decide)

theorem next6_yields (six : a.family = .inet6) (positive : 1 ≤ b.prefixLength.toNat)
    (within : b.prefixLength.toNat ≤ 128) (s : State) :
    Yields a b s (cidrNext order a b s)
      (if a.value + byteStep b < 2 ^ 128 then some (a.value + byteStep b) else none) := by
  obtain ⟨addr, carry, small, total, done⟩ := @cidrStep6_at a b _ _ _ balancedSum_addDigit.balanced
    (prefixLength_ne_zero positive) (toNat_lastByte positive within) (lastByte_lt within) s
  change _ = _ + _ * ((byteStep b : Nat) : Int) at total
  have value : a.value = a.addr.value := Cidr.value_v6 six
  have bound := addr.value_lt
  have next : cidrNext order a b s = cidrStep6 addDigit a b s := by
    rw [cidrNext, six]
    rfl
  rw [next, done, value]
  by_cases none : carry = 0
  · rw [if_pos none, if_pos (by omega)]
    refine ⟨_, rfl, rfl, rfl, ?_⟩
    rw [Cidr.value_v6 (by exact six)]
    change addr.value = _
    omega
  · rw [if_neg none, if_neg (by omega)]
    exact ⟨_, rfl⟩

theorem prev6_yields (six : a.family = .inet6) (positive : 1 ≤ b.prefixLength.toNat)
    (within : b.prefixLength.toNat ≤ 128) (s : State) :
    Yields a b s (cidrPrev order a b s)
      (if byteStep b ≤ a.value then some (a.value - byteStep b) else none) := by
  obtain ⟨addr, carry, small, total, done⟩ := @cidrStep6_at a b _ _ _ balancedSum_subDigit.balanced
    (prefixLength_ne_zero positive) (toNat_lastByte positive within) (lastByte_lt within) s
  change _ = _ + _ * ((byteStep b : Nat) : Int) at total
  have value : a.value = a.addr.value := Cidr.value_v6 six
  have bound := addr.value_lt
  have prev : cidrPrev order a b s = cidrStep6 subDigit a b s := by
    rw [cidrPrev, six]
    rfl
  rw [prev, done, value]
  by_cases none : carry = 0
  · rw [if_pos none, if_pos (by omega)]
    refine ⟨_, rfl, rfl, rfl, ?_⟩
    rw [Cidr.value_v6 (by exact six)]
    change addr.value = _
    omega
  · rw [if_neg none, if_neg (by omega)]
    exact ⟨_, rfl⟩

/-- One in a byte is the step exactly if the prefix ends with the byte, and less otherwise. -/
theorem byteStep_eq_or_lt (six : a.family = .inet6) (positive : 1 ≤ b.prefixLength.toNat)
    (within : b.prefixLength.toNat ≤ 128) :
    (b.prefixLength.toNat % 8 = 0 ∧ byteStep b = stepOf a b) ∨
      (b.prefixLength.toNat % 8 ≠ 0 ∧ byteStep b < stepOf a b) := by
  unfold byteStep stepOf lastByte
  rw [six]
  change (_ ∧ _ = 2 ^ (128 - _)) ∨ (_ ∧ _ < 2 ^ (128 - _))
  by_cases whole : b.prefixLength.toNat % 8 = 0
  · refine .inl ⟨whole, congrArg (2 ^ ·) ?_⟩
    omega
  · refine .inr ⟨whole, Nat.pow_lt_pow_right Nat.one_lt_two ?_⟩
    omega

end Six

section Four

/-- The place of the last bit of a prefix, in an IPv4 address. -/
theorem stepOf_eq (four : a.family = .inet) (positive : 1 ≤ b.prefixLength.toNat)
    (within : b.prefixLength.toNat ≤ 32) :
    stepOf a b = 2 ^ (8 * (3 - lastByte b)) * lastBit b := by
  unfold stepOf lastBit lastByte
  rw [four, ← Nat.pow_add]
  change 2 ^ (32 - _) = _
  congr 1
  omega

theorem lastBit_pos (b : Cidr) : 0 < lastBit b := Nat.two_pow_pos _

theorem lastBit_le (b : Cidr) : lastBit b ≤ 128 := by
  have bound := Nat.pow_le_pow_right Nat.two_pos (show 7 - (b.prefixLength.toNat - 1) % 8 ≤ 7 by omega)
  exact bound

theorem shiftOne_stepOf (four : a.family = .inet) (positive : 1 ≤ b.prefixLength.toNat)
    (within : b.prefixLength.toNat ≤ 32) :
    ∃ step, shiftOne (32 - b.prefixLength) = .ok step ∧ step.toNat = stepOf a b := by
  have width : (32 - b.prefixLength).toNat = 32 - b.prefixLength.toNat := toNat_sub_prefix within
  obtain ⟨step, shifted, value⟩ := @toNat_shiftOne (32 - b.prefixLength) (by omega)
  refine ⟨step, shifted, ?_⟩
  rw [value, width, stepOf, four]
  rfl

/-- `cidr_next4` and `cidr_prev4` operate on the word of the address. -/
theorem step4_yields (operate : UInt32 → UInt32 → UInt32) (four : a.family = .inet)
    {step : UInt32} (shifted : shiftOne (32 - b.prefixLength) = .ok step) (s : State) :
    Yields a b s (do
      let step ← shiftOne (32 - b.prefixLength)
      let n := a.setV4 (.ofSAddr order (operate (a.v4.sAddr order) (htonl order step)))
      return (true, cidrPush { n with prefixLength := b.prefixLength } s))
      (some (In4.ofSAddr order (operate (a.v4.sAddr order) (htonl order step))).value) := by
  rw [shifted]
  refine ⟨_, rfl, rfl, rfl, ?_⟩
  rw [Cidr.value_v4 (by exact four)]
  change (a.setV4 _).v4.value = _
  rw [Cidr.v4_setV4]

/-- The number of an address, with the byte at a place apart. -/
theorem number_split {place : Nat} (size : x.length = 4) (inside : place < 4) :
    ∃ low < 2 ^ (8 * (3 - place)),
      number x = 2 ^ (8 * (4 - place)) * number (x.take place) +
        (2 ^ (8 * (3 - place)) * (x[place]?.getD 0).toNat + low) := by
  have there : place < x.length := by omega
  have behind : (x.drop (place + 1)).length = 3 - place := by
    rw [List.length_drop]
    omega
  have around : 3 - place + 1 = 4 - place := by omega
  have bound := number_lt (x.drop (place + 1))
  have split := congrArg number (List.take_append_drop place x)
  rw [behind] at bound
  rw [List.drop_eq_getElem_cons there, number_append, number, List.length_cons, behind, around] at split
  refine ⟨number (x.drop (place + 1)), bound, ?_⟩
  rw [← split, List.getElem?_eq_getElem there]
  rfl

/-- `htonl` of a step, on a little-endian machine. -/
theorem toNat_htonl_little {step : UInt32} {place bit : Nat} (inside : place < 4) (small : bit ≤ 128)
    (value : step.toNat = 2 ^ (8 * (3 - place)) * bit) :
    (htonl .little step).toNat = 2 ^ (8 * place) * bit := by
  have zeros : (List.replicate 4 (0 : UInt8)).length = 4 := List.length_replicate ..
  have there : place < (List.replicate 4 (0 : UInt8)).length := by rw [zeros]; exact inside
  have byte : (UInt8.ofNat bit).toNat = bit := by
    rw [UInt8.toNat_ofNat']
    omega
  have zero : ((List.replicate 4 (0 : UInt8))[place]).toNat = 0 := by
    rw [List.getElem_replicate]
    rfl
  have number := number_set there (UInt8.ofNat bit)
  have word := ByteOrder.word_set_little there (UInt8.ofNat bit)
  have front : 4 - 1 - place = 3 - place := by omega
  have none : ByteOrder.little.word (List.replicate 4 0) = 0 := rfl
  rw [zero, zeros, byte, front, Nat.mul_zero, Nat.add_zero, number_replicate, Nat.zero_add, ← value]
    at number
  rw [zero, byte, none, Nat.mul_zero, Nat.add_zero, Nat.zero_add] at word
  have whole := bytes_number ((List.replicate 4 (0 : UInt8)).set place (UInt8.ofNat bit))
  rw [number, List.length_set, zeros] at whole
  rw [toNat_htonl, whole, word]

/-- The bytes in front of the one that a step adds to stay. -/
theorem take_ofSAddr_little {address : In4} {word : UInt32} {place : Nat} (inside : place < 4)
    (same : word.toNat % 2 ^ (8 * place) = (address.sAddr .little).toNat % 2 ^ (8 * place)) :
    (In4.ofSAddr .little word).bytes.take place = address.bytes.take place := by
  have memory := ByteOrder.little.memory_word address.bytes
  rw [address.size] at memory
  rw [← memory, ByteOrder.take_memory_little (by omega), ← In4.toNat_sAddr]
  refine (ByteOrder.take_memory_little (by omega)).trans ?_
  exact congrArg List.reverse (bytes_eq_of_mod_eq same)

/-- A word with another byte at a place is the address with that byte. -/
theorem value_ofSAddr_set {address : In4} {word : UInt32} {place : Nat} {byte : UInt8}
    (inside : place < 4)
    (same : word.toNat + 2 ^ (8 * place) * (address.bytes[place]?.getD 0).toNat =
      (address.sAddr .little).toNat + 2 ^ (8 * place) * byte.toNat) :
    (In4.ofSAddr .little word).value +
        2 ^ (8 * (3 - place)) * (address.bytes[place]?.getD 0).toNat =
      address.value + 2 ^ (8 * (3 - place)) * byte.toNat := by
  have there : place < address.bytes.length := by rw [address.size]; exact inside
  have set := ByteOrder.word_set_little there byte
  have number := number_set there byte
  have memory := ByteOrder.little.memory_word (address.bytes.set place byte)
  have front : 4 - 1 - place = 3 - place := by omega
  rw [List.getElem?_eq_getElem there, Option.getD_some, In4.toNat_sAddr, ← set] at same
  rw [List.length_set, address.size, ← Nat.add_right_cancel same] at memory
  rw [address.size, front] at number
  rw [List.getElem?_eq_getElem there, In4.value_ofSAddr, memory]
  exact number

/-- A word that is the same up to the byte at a place leaves the address in its block. -/
theorem value_ofSAddr_block {address : In4} {word : UInt32} {place : Nat} (inside : place < 4)
    (same : word.toNat % 2 ^ (8 * place) = (address.sAddr .little).toNat % 2 ^ (8 * place)) :
    ∃ base low, low < 2 ^ (8 * (3 - place)) ∧
      address.value =
        base + (2 ^ (8 * (3 - place)) * (address.bytes[place]?.getD 0).toNat + low) ∧
      base ≤ (In4.ofSAddr .little word).value ∧
      (In4.ofSAddr .little word).value < base + 2 ^ (8 * (3 - place)) * 256 := by
  obtain ⟨low, below, split⟩ := number_split address.size inside
  obtain ⟨low', below', split'⟩ := number_split (In4.ofSAddr .little word).size inside
  rw [take_ofSAddr_little inside same] at split'
  have byte : ((In4.ofSAddr .little word).bytes[place]?.getD 0).toNat ≤ 255 :=
    Nat.le_of_lt_succ (UInt8.toNat_lt _)
  have bound := Nat.mul_le_mul_left (2 ^ (8 * (3 - place))) byte
  refine ⟨_, low, below, split, ?_, ?_⟩
  · rw [In4.value, split']
    exact Nat.le_add_right _ _
  · rw [In4.value, split']
    omega

theorem mod_mod_place {word place : Nat} (inside : place < 4) :
    word % 2 ^ 32 % 2 ^ (8 * place) = word % 2 ^ (8 * place) :=
  Nat.mod_mod_of_dvd _ (Nat.pow_dvd_pow 2 (by omega))

/-- Another byte at a place leaves a word. -/
theorem sAddr_set_bounds {address : In4} {place : Nat} (inside : place < 4) (byte : UInt8) :
    2 ^ (8 * place) * (address.bytes[place]?.getD 0).toNat ≤
        (address.sAddr .little).toNat + 2 ^ (8 * place) * byte.toNat ∧
      (address.sAddr .little).toNat + 2 ^ (8 * place) * byte.toNat <
        2 ^ 32 + 2 ^ (8 * place) * (address.bytes[place]?.getD 0).toNat := by
  have there : place < address.bytes.length := by rw [address.size]; exact inside
  have set := ByteOrder.word_set_little there byte
  have bound := ByteOrder.little.word_lt (address.bytes.set place byte)
  rw [List.length_set, address.size] at bound
  rw [List.getElem?_eq_getElem there, Option.getD_some, In4.toNat_sAddr, ← set]
  exact ⟨Nat.le_add_left _ _, Nat.add_lt_add_right bound _⟩

/-- The sum of words is the address one step ahead exactly if there is no carry in the byte. -/
theorem add_little_iff {address : In4} {step : UInt32} {place bit : Nat} (inside : place < 4)
    (small : bit ≤ 128) (value : step.toNat = 2 ^ (8 * (3 - place)) * bit) :
    address.value + step.toNat < 2 ^ 32 ∧
        (In4.ofSAddr .little (address.sAddr .little + htonl .little step)).value =
          address.value + step.toNat ↔
      (address.bytes[place]?.getD 0).toNat + bit < 256 := by
  have sum := UInt32.toNat_add (address.sAddr .little) (htonl .little step)
  rw [toNat_htonl_little inside small value] at sum
  rw [value]
  constructor
  · intro ahead
    obtain ⟨base, low, below, whole, -, block⟩ :=
      @value_ofSAddr_block address (address.sAddr .little + htonl .little step) place inside
        (by rw [sum, mod_mod_place inside, Nat.add_mul_mod_self_left])
    by_contra carry
    have enough := Nat.mul_le_mul_left (2 ^ (8 * (3 - place))) (Nat.le_of_not_lt carry)
    rw [Nat.mul_add] at enough
    omega
  · intro fits
    have byte : (UInt8.ofNat ((address.bytes[place]?.getD 0).toNat + bit)).toNat =
        (address.bytes[place]?.getD 0).toNat + bit := by
      rw [UInt8.toNat_ofNat', Nat.mod_eq_of_lt fits]
    have limit := (In4.ofSAddr .little (address.sAddr .little + htonl .little step)).value_lt
    have bounds := (@sAddr_set_bounds address place inside
      (UInt8.ofNat ((address.bytes[place]?.getD 0).toNat + bit))).2
    have ahead := @value_ofSAddr_set address (address.sAddr .little + htonl .little step) place
      (UInt8.ofNat ((address.bytes[place]?.getD 0).toNat + bit)) inside
    rw [byte, Nat.mul_add] at bounds ahead
    rw [Nat.mod_eq_of_lt (by omega)] at sum
    rw [Nat.mul_add] at ahead
    have there := ahead (by omega)
    omega

/-- The difference of words is the address one step back exactly if nothing is borrowed for the
byte. -/
theorem sub_little_iff {address : In4} {step : UInt32} {place bit : Nat} (inside : place < 4)
    (small : bit ≤ 128) (value : step.toNat = 2 ^ (8 * (3 - place)) * bit) :
    step.toNat ≤ address.value ∧
        (In4.ofSAddr .little (address.sAddr .little - htonl .little step)).value =
          address.value - step.toNat ↔
      bit ≤ (address.bytes[place]?.getD 0).toNat := by
  have word := toNat_htonl_little inside small value
  rw [value]
  constructor
  · intro back
    have whole : 2 ^ (8 * place) * 2 ^ (32 - 8 * place) = 2 ^ 32 := by
      rw [← Nat.pow_add, Nat.add_sub_of_le (by omega)]
    have difference := UInt32.toNat_sub (address.sAddr .little) (htonl .little step)
    rw [word, ← whole, ← Nat.mul_sub, whole] at difference
    obtain ⟨base, low, below, split, block, -⟩ :=
      @value_ofSAddr_block address (address.sAddr .little - htonl .little step) place inside
        (by rw [difference, mod_mod_place inside, Nat.mul_add_mod])
    by_contra borrow
    have enough := Nat.mul_le_mul_left (2 ^ (8 * (3 - place))) (Nat.lt_of_not_le borrow)
    rw [Nat.succ_eq_add_one, Nat.mul_add, Nat.mul_one] at enough
    omega
  · intro fits
    have small' := (address.bytes[place]?.getD 0).toNat_lt
    have byte : (UInt8.ofNat ((address.bytes[place]?.getD 0).toNat - bit)).toNat =
        (address.bytes[place]?.getD 0).toNat - bit := by
      rw [UInt8.toNat_ofNat', Nat.mod_eq_of_lt (by omega)]
    have less : ∀ factor, factor * ((address.bytes[place]?.getD 0).toNat - bit) + factor * bit =
        factor * (address.bytes[place]?.getD 0).toNat := by
      intro factor
      rw [← Nat.mul_add, Nat.sub_add_cancel fits]
    have low := less (2 ^ (8 * place))
    have high := less (2 ^ (8 * (3 - place)))
    have bounds := (@sAddr_set_bounds address place inside
      (UInt8.ofNat ((address.bytes[place]?.getD 0).toNat - bit))).1
    have back := @value_ofSAddr_set address (address.sAddr .little - htonl .little step) place
      (UInt8.ofNat ((address.bytes[place]?.getD 0).toNat - bit)) inside
    rw [byte] at bounds back
    have enough : htonl .little step ≤ address.sAddr .little := by
      rw [UInt32.le_iff_toNat_le, word]
      omega
    rw [UInt32.toNat_sub_of_le _ _ enough, word] at back
    have there := back (by omega)
    omega

theorem byteAt_eq (within : b.prefixLength.toNat ≤ 32) :
    byteAt a b = a.v4.bytes[lastByte b]?.getD 0 := by
  have inside : lastByte b < 4 := by
    unfold lastByte
    omega
  have taken : (a.addr.bytes.take 4)[lastByte b]? = a.addr.bytes[lastByte b]? :=
    List.getElem?_take_of_lt inside
  unfold byteAt Cidr.v4
  rw [taken]

theorem some_eq_ite_iff {condition : Prop} [Decidable condition] {value other : Nat} :
    some value = (if condition then some other else none) ↔ condition ∧ value = other := by
  by_cases holds : condition
  · rw [if_pos holds, Option.some_inj, and_iff_right holds]
  · rw [if_neg holds]
    exact ⟨fun none => (nomatch none), fun both => absurd both.1 holds⟩

/-- `next` for IPv4 is exact where its words fit. -/
theorem nextExact4_iff (four : a.family = .inet) (positive : 1 ≤ b.prefixLength.toNat)
    (within : b.prefixLength.toNat ≤ 32) : NextExact order a b s ↔ NextFits order a b := by
  obtain ⟨step, shifted, length⟩ := shiftOne_stepOf four positive within
  have yields := @step4_yields order a b (· + ·) four step shifted s
  have next : cidrNext order a b s = cidrNext4 order a b s := by
    rw [cidrNext, four]
  have inside : lastByte b < 4 := by
    unfold lastByte
    omega
  have width : a.family.width = 32 := by rw [four]; rfl
  unfold NextExact NextFits
  rw [next, width, four]
  refine yields.unique.trans (some_eq_ite_iff.trans ?_)
  rw [← length, Cidr.value_v4 four]
  cases order with
  | little =>
      dsimp only
      rw [byteAt_eq within]
      exact add_little_iff inside (lastBit_le b) (length.trans (stepOf_eq four positive within))
  | big =>
      have sum := UInt32.toNat_add (a.v4.sAddr .big) (htonl .big step)
      have own : (htonl .big step).toNat = step.toNat := (toNat_htonl .big step).trans (number_word step)
      have value : (a.v4.sAddr .big).toNat = a.v4.value := In4.toNat_sAddr .big a.v4
      rw [value, own] at sum
      have ahead : (In4.ofSAddr .big (a.v4.sAddr .big + htonl .big step)).value =
          (a.v4.value + step.toNat) % 2 ^ 32 := (number_word _).trans sum
      dsimp only
      rw [ahead]
      omega

/-- `prev` for IPv4 is exact where its words fit. -/
theorem prevExact4_iff (four : a.family = .inet) (positive : 1 ≤ b.prefixLength.toNat)
    (within : b.prefixLength.toNat ≤ 32) : PrevExact order a b s ↔ PrevFits order a b := by
  obtain ⟨step, shifted, length⟩ := shiftOne_stepOf four positive within
  have yields := @step4_yields order a b (· - ·) four step shifted s
  have prev : cidrPrev order a b s = cidrPrev4 order a b s := by
    rw [cidrPrev, four]
  have inside : lastByte b < 4 := by
    unfold lastByte
    omega
  unfold PrevExact PrevFits
  rw [prev, four]
  refine yields.unique.trans (some_eq_ite_iff.trans ?_)
  rw [← length, Cidr.value_v4 four]
  cases order with
  | little =>
      dsimp only
      rw [byteAt_eq within]
      exact sub_little_iff inside (lastBit_le b) (length.trans (stepOf_eq four positive within))
  | big =>
      have difference := UInt32.toNat_sub (a.v4.sAddr .big) (htonl .big step)
      have own : (htonl .big step).toNat = step.toNat := (toNat_htonl .big step).trans (number_word step)
      have value : (a.v4.sAddr .big).toNat = a.v4.value := In4.toNat_sAddr .big a.v4
      rw [value, own] at difference
      have back : (In4.ofSAddr .big (a.v4.sAddr .big - htonl .big step)).value =
          (2 ^ 32 - step.toNat + a.v4.value) % 2 ^ 32 := (number_word _).trans difference
      have bound := step.toNat_lt
      have bound' := a.v4.value_lt
      dsimp only
      rw [back]
      omega

/-- What `next` gives, `prev` takes back: the words wrap around. -/
theorem prev_next4 (four : a.family = .inet) (positive : 1 ≤ b.prefixLength.toNat)
    (within : b.prefixLength.toNat ≤ 32) (next : cidrNext order a b s = .ok (true, cidrPush n s)) :
    Yields a b s (cidrPrev order n b s) (some a.value) := by
  obtain ⟨step, shifted, -⟩ := shiftOne_stepOf four positive within
  rw [cidrNext, four] at next
  unfold cidrNext4 at next
  rw [shifted] at next
  obtain rfl : { a.setV4 (.ofSAddr order (a.v4.sAddr order + htonl order step)) with
      prefixLength := b.prefixLength } = n :=
    List.head_eq_of_cons_eq (congrArg (·.2.stack) (Except.ok.inj next))
  have back := @step4_yields order { a.setV4 (.ofSAddr order (a.v4.sAddr order + htonl order step)) with
      prefixLength := b.prefixLength } b (· - ·) four step shifted s
  have word : (In4.ofSAddr order (a.v4.sAddr order + htonl order step)).sAddr order -
      htonl order step = a.v4.sAddr order := by
    rw [In4.sAddr_ofSAddr, UInt32.add_sub_cancel]
  change Yields _ b s _ (some (In4.ofSAddr order ((a.setV4 _).v4.sAddr order - _)).value) at back
  rw [Cidr.v4_setV4, word, In4.ofSAddr_sAddr, ← Cidr.value_v4 four] at back
  rw [cidrPrev]
  change Yields a b s (match a.family with | .inet => _ | .inet6 => _) _
  rw [four]
  exact back

end Four

theorem nextExact6_iff (six : a.family = .inet6) (positive : 1 ≤ b.prefixLength.toNat)
    (within : b.prefixLength.toNat ≤ 128) : NextExact order a b s ↔ NextFits order a b := by
  have yields := @next6_yields order a b six positive within s
  have width : a.family.width = 128 := by rw [six]; rfl
  have steps := @byteStep_eq_or_lt a b six positive within
  unfold NextExact NextFits
  rw [width, six]
  refine yields.unique.trans ?_
  dsimp only
  by_cases inside : a.value + byteStep b < 2 ^ 128
  · rw [if_pos inside, some_eq_ite_iff]
    omega
  · rw [if_neg inside, if_neg (by omega)]
    exact ⟨fun _ => .inr (Nat.le_of_not_lt inside), fun _ => rfl⟩

theorem prevExact6_iff (six : a.family = .inet6) (positive : 1 ≤ b.prefixLength.toNat)
    (within : b.prefixLength.toNat ≤ 128) : PrevExact order a b s ↔ PrevFits order a b := by
  have yields := @prev6_yields order a b six positive within s
  have steps := @byteStep_eq_or_lt a b six positive within
  unfold PrevExact PrevFits
  rw [six]
  refine yields.unique.trans ?_
  dsimp only
  by_cases inside : byteStep b ≤ a.value
  · rw [if_pos inside, some_eq_ite_iff]
    omega
  · rw [if_neg inside, if_neg (by omega)]
    exact ⟨fun _ => .inr (Nat.lt_of_not_le inside), fun _ => rfl⟩

/-- What `next` gives, `prev` takes back. -/
theorem prev_next6 (six : a.family = .inet6) (positive : 1 ≤ b.prefixLength.toNat)
    (within : b.prefixLength.toNat ≤ 128) (next : cidrNext order a b s = .ok (true, cidrPush n s)) :
    Yields a b s (cidrPrev order n b s) (some a.value) := by
  have yields := @next6_yields order a b six positive within s
  by_cases inside : a.value + byteStep b < 2 ^ 128
  · rw [if_pos inside] at yields
    obtain ⟨n', next', family, -, value⟩ := yields
    rw [next] at next'
    obtain rfl : n = n' := List.head_eq_of_cons_eq (congrArg (·.2.stack) (Except.ok.inj next'))
    have back := @prev6_yields order n b (family.trans six) positive within s
    rw [value, if_pos (Nat.le_add_left _ _), Nat.add_sub_cancel] at back
    obtain ⟨m, prev, same, length, there⟩ := back
    exact ⟨m, prev, same.trans family, length, there⟩
  · rw [if_neg inside] at yields
    obtain ⟨after, next'⟩ := yields
    rw [next] at next'
    cases next'

/-- Where the steps of a prefix are exact, and that `prev` takes back what `next` gives. -/
theorem steps_exact_iff (order : ByteOrder) (a b : Cidr) (s : State)
    (positive : 1 ≤ b.prefixLength.toNat) (within : b.prefixLength.toNat ≤ a.family.width) :
    (NextExact order a b s ↔ NextFits order a b) ∧
    (PrevExact order a b s ↔ PrevFits order a b) ∧
    ∀ n, cidrNext order a b s = .ok (true, cidrPush n s) →
      Yields a b s (cidrPrev order n b s) (some a.value) := by
  cases family : a.family with
  | inet =>
      rw [family] at within
      exact ⟨nextExact4_iff family positive within, prevExact4_iff family positive within,
        fun n next => prev_next4 family positive within next⟩
  | inet6 =>
      rw [family] at within
      exact ⟨nextExact6_iff family positive within, prevExact6_iff family positive within,
        fun n next => prev_next6 family positive within next⟩

/-- 10.0.1.0/24 is the next network behind 10.0.0.0. -/
theorem steps_exact_ten : NextExact .little (cidr4 10 0 0 0 32) (cidr4 0 0 0 0 24)
    (.start (cidr4 10 0 0 0 32)) :=
  (steps_exact_iff .little (cidr4 10 0 0 0 32) (cidr4 0 0 0 0 24) (.start (cidr4 10 0 0 0 32))
    (by decide) (by decide)).1.mpr
    (show (byteAt (cidr4 10 0 0 0 32) (cidr4 0 0 0 0 24)).toNat + lastBit (cidr4 0 0 0 0 24) < 256 by
      decide)

/-- Behind 10.0.255.0 the little-endian machine gives 10.0.0.1. -/
theorem next_carry_inexact :
    cidrNext .little (cidr4 10 0 255 0 32) (cidr4 0 0 0 0 24) (.start (cidr4 10 0 255 0 32)) =
      .ok (true, cidrPush (cidr4 10 0 0 1 24) (.start (cidr4 10 0 255 0 32))) ∧
    ¬ NextExact .little (cidr4 10 0 255 0 32) (cidr4 0 0 0 0 24) (.start (cidr4 10 0 255 0 32)) := by
  refine ⟨by decide, ?_⟩
  rw [nextExact4_iff rfl (by decide) (by decide)]
  change ¬ (byteAt (cidr4 10 0 255 0 32) (cidr4 0 0 0 0 24)).toNat + lastBit (cidr4 0 0 0 0 24) < 256
  decide

end Trunk.Owip
