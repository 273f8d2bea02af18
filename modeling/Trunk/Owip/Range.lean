import Mathlib.Tactic.Ring
import Trunk.Foundation.Subnet
import Trunk.Owip.Cidr

/-! # Prefixes as ranges of addresses

An address with a prefix covers the addresses that share the bits of the prefix. `contains` answers
whether the addresses that its argument covers are all covered, `network` gives the lowest address
that is covered and `broadcast` the highest one, for both families and in both byte orders
(`Trunk.Owip.cidr_ranges`).
-/

namespace Trunk.Owip

open Network Inet Subnet

variable {order : ByteOrder} {a b n : Cidr} {s : State} {x y : List UInt8}

/-- The number of an address, in its family. -/
def Cidr.value (a : Cidr) : Nat :=
  match a.family with
  | .inet => a.v4.value
  | .inet6 => a.addr.value

/-- The addresses that share the bits of the prefix. -/
def Cidr.covered (a : Cidr) : Set Nat := block a.family.width a.prefixLength.toNat a.value

/-- The prefix is of one bit at least, and not longer than an address. -/
def Cidr.Proper (a : Cidr) : Prop :=
  1 ≤ a.prefixLength.toNat ∧ a.prefixLength.toNat ≤ a.family.width

/-- `contains`, as the table of operations has it for the two families. -/
def cidrContains (order : ByteOrder) (a b : Cidr) (s : State) : Result :=
  match a.family with
  | .inet => cidrContains4 order a b s
  | .inet6 => cidrContains6 a b s

/-- `network`, as the table of operations has it for the two families. -/
def cidrNetwork (order : ByteOrder) (a : Cidr) (s : State) : Result :=
  match a.family with
  | .inet => cidrNetwork4 order a s
  | .inet6 => cidrNetwork6 a s

theorem Cidr.value_lt (a : Cidr) : a.value < 2 ^ a.family.width := by
  unfold value Family.width
  cases a.family with
  | inet => exact a.v4.value_lt
  | inet6 => exact a.addr.value_lt

@[simp] theorem Cidr.v4_setV4 (a : Cidr) (front : In4) : (a.setV4 front).v4 = front := by
  cases front with
  | mk bytes size =>
      simp only [setV4, v4, In4.mk.injEq]
      exact List.take_left' size

theorem Cidr.value_v4 (four : a.family = .inet) : a.value = a.v4.value := by
  rw [value, four]

theorem Cidr.value_v6 (six : a.family = .inet6) : a.value = number a.addr.bytes := by
  rw [value, six]
  rfl

theorem Cidr.Proper.le_four (proper : a.Proper) (four : a.family = .inet) :
    a.prefixLength.toNat ≤ 32 := by
  have within := proper.2
  rw [four] at within
  exact within

theorem Cidr.Proper.le_six (proper : a.Proper) (six : a.family = .inet6) :
    a.prefixLength.toNat ≤ 128 := by
  have within := proper.2
  rw [six] at within
  exact within

section Four

theorem toNat_shiftOne {count : UInt32} (few : count.toNat < 32) :
    ∃ step, shiftOne count = .ok step ∧ step.toNat = 2 ^ count.toNat := by
  refine ⟨1 <<< count, if_pos (UInt32.lt_iff_toNat_lt.mpr few), ?_⟩
  have bound : 2 ^ count.toNat < 2 ^ 32 := Nat.pow_lt_pow_right (by decide) few
  have one : (1 : UInt32).toNat = 1 := rfl
  rw [UInt32.toNat_shiftLeft, Nat.mod_eq_of_lt few, one, Nat.one_shiftLeft, Nat.mod_eq_of_lt bound]

theorem toNat_sub_prefix {width : UInt32} {prefixLength : UInt32}
    (within : prefixLength.toNat ≤ width.toNat) :
    (width - prefixLength).toNat = width.toNat - prefixLength.toNat :=
  UInt32.toNat_sub_of_le _ _ (UInt32.le_iff_toNat_le.mpr within)

/-- The mask of the bits behind a prefix. -/
theorem toNat_hostMask {prefixLength : UInt32} (positive : 1 ≤ prefixLength.toNat)
    (within : prefixLength.toNat ≤ 32) :
    ∃ mask, hostMask prefixLength = .ok mask ∧
      mask.toNat = 2 ^ (32 - prefixLength.toNat) - 1 ∧
      (~~~ mask).toNat = 2 ^ 32 - 1 - (2 ^ (32 - prefixLength.toNat) - 1) := by
  have width : (32 - prefixLength).toNat = 32 - prefixLength.toNat := toNat_sub_prefix within
  obtain ⟨step, shifted, value⟩ := @toNat_shiftOne (32 - prefixLength) (by omega)
  have least : (1 : UInt32).toNat ≤ step.toNat := by
    rw [value]
    exact Nat.one_le_two_pow
  have mask : (step - 1).toNat = 2 ^ (32 - prefixLength.toNat) - 1 := by
    rw [UInt32.toNat_sub_of_le _ _ (UInt32.le_iff_toNat_le.mpr least), value, width]
    rfl
  refine ⟨step - 1, ?_, mask, ?_⟩
  · rw [hostMask, shifted]
    rfl
  · rw [UInt32.toNat_not, mask]
    rfl

/-- `cidr_network4` gives the lowest address of the block. -/
theorem network4_lowest (order : ByteOrder) (four : a.family = .inet) (proper : a.Proper)
    (s : State) :
    ∃ n, cidrNetwork4 order a s = .ok (true, cidrPush n s) ∧ n.family = .inet ∧
      n.prefixLength.toNat = 32 ∧ n.value = lowest 32 a.prefixLength.toNat a.value := by
  obtain ⟨mask, masked, -, value⟩ := toNat_hostMask proper.1 (proper.le_four four)
  refine ⟨{ a.setV4 (.ofSAddr order (a.v4.sAddr order &&& htonl order (~~~ mask))) with
    prefixLength := 32 }, by rw [cidrNetwork4, masked]; rfl, four, rfl, ?_⟩
  rw [Cidr.value_v4 four, Cidr.value_v4 (by exact four)]
  change (a.setV4 _).v4.value = _
  rw [Cidr.v4_setV4, In4.value_andWord, value, and_mask _ a.v4.value_lt, lowest]

/-- `cidr_broadcast4` gives the highest address of the block. -/
theorem broadcast4_highest (order : ByteOrder) (four : a.family = .inet) (proper : a.Proper)
    (s : State) :
    ∃ n, cidrBroadcast4 order a s = .ok (true, cidrPush n s) ∧ n.family = .inet ∧
      n.value = highest 32 a.prefixLength.toNat a.value := by
  obtain ⟨mask, masked, value, -⟩ := toNat_hostMask proper.1 (proper.le_four four)
  refine ⟨{ a.setV4 (.ofSAddr order (a.v4.sAddr order ||| htonl order mask)) with
    prefixLength := 32 }, by rw [cidrBroadcast4, masked]; rfl, four, ?_⟩
  rw [Cidr.value_v4 four, Cidr.value_v4 (by exact four)]
  change (a.setV4 _).v4.value = _
  rw [Cidr.v4_setV4, In4.value_orWord, value, or_mask, highest, lowest]

/-- `cidr_contains4` compares the lengths and the shared bits. -/
theorem contains4_answer (order : ByteOrder) (four : a.family = .inet) (four' : b.family = .inet)
    (proper : a.Proper) (s : State) :
    ∃ yes, cidrContains4 order a b s = .ok (answer yes s) ∧
      (yes = true ↔ a.prefixLength.toNat ≤ b.prefixLength.toNat ∧
        b.value / 2 ^ (32 - a.prefixLength.toNat) = a.value / 2 ^ (32 - a.prefixLength.toNat)) := by
  obtain ⟨mask, masked, -, value⟩ := toNat_hostMask proper.1 (proper.le_four four)
  refine ⟨_, by rw [cidrContains4, masked]; rfl, ?_⟩
  rw [decide_eq_true_eq, In4.andWord_inj, value, and_mask _ a.v4.value_lt,
    and_mask _ b.v4.value_lt, clear_eq_iff, UInt32.le_iff_toNat_le, Cidr.value_v4 four,
    Cidr.value_v4 four', eq_comm (a := a.v4.value / _)]

end Four

section Six

variable {back rest : Nat}

/-- An address without its last bytes. -/
theorem take_succ (size : x.length = 16) (inside : back ≤ 15) :
    x.take (16 - back) = x.take (15 - back) ++ [x[15 - back]?.getD 0] := by
  have there : 15 - back < x.length := by omega
  have next : 16 - back = 15 - back + 1 := by omega
  rw [next, List.take_add_one, List.getElem?_eq_getElem there]
  rfl

/-- The bytes behind a place are cleared. -/
theorem clearBytes_eq (size : x.length = 16) (within : back ≤ 16) :
    clearBytes back x = .ok (x.take (16 - back) ++ List.replicate back 0) := by
  induction back with
  | zero =>
      rw [clearBytes, List.replicate_zero, List.append_nil, Nat.sub_zero, ← size, List.take_length]
  | succ back ih =>
      have here : place back = .ok (15 - back) := if_pos (by omega)
      have front : (x.take (15 - back)).length = 15 - back := by
        rw [List.length_take]
        omega
      have next : 16 - (back + 1) = 15 - back := by omega
      rw [clearBytes, ih (by omega), here, take_succ size (by omega), next]
      refine congrArg Except.ok ?_
      rw [List.append_assoc, List.set_append_right _ _ (by omega), front, Nat.sub_self,
        List.replicate_succ]
      rfl

theorem toNat_and_byteMask (byte : UInt8) {count : UInt32} (few : count.toNat < 8) :
    (byte &&& byteMask count).toNat = byte.toNat / 2 ^ count.toNat * 2 ^ count.toNat := by
  have small : 2 ^ count.toNat - 1 < 2 ^ 8 := by
    have bound := Nat.pow_lt_pow_right (Nat.one_lt_two) few
    omega
  have mask : (byteMask count).toNat = 2 ^ 8 - 1 - (2 ^ count.toNat - 1) := by
    rw [byteMask, UInt8.toNat_not, UInt8.toNat_ofNat', Nat.mod_eq_of_lt small]
    rfl
  rw [UInt8.toNat_and, mask, and_mask _ byte.toNat_lt]

/-- The highest bits of an address are its first bytes and bits of the byte behind them. -/
theorem number_div_bits (size : x.length = 16) (inside : back ≤ 15) (few : rest < 8) :
    number x / 2 ^ (8 * back + rest) =
      2 ^ (8 - rest) * number (x.take (15 - back)) + (x[15 - back]?.getD 0).toNat / 2 ^ rest := by
  have behind : (x.drop (16 - back)).length = back := by
    rw [List.length_drop]
    omega
  have front := number_div (x.take (16 - back)) (x.drop (16 - back))
  rw [List.take_append_drop, behind, take_succ size inside, number_append] at front
  have byte : number [x[15 - back]?.getD 0] = (x[15 - back]?.getD 0).toNat := by
    rw [number, number, List.length_nil, Nat.mul_zero, Nat.pow_zero, Nat.one_mul, Nat.add_zero]
  have split : 2 ^ (8 * 1) = 2 ^ rest * 2 ^ (8 - rest) := by
    rw [← Nat.pow_add]
    congr 1
    omega
  rw [Nat.pow_add, ← Nat.div_div_eq_div_mul, front, byte, List.length_singleton, split,
    Nat.mul_assoc, Nat.mul_add_div (Nat.two_pow_pos rest)]

/-- The bits in front of a place are the same exactly if the bytes are. -/
theorem number_div_eq_iff (size : x.length = 16) (size' : y.length = 16) (inside : back ≤ 15)
    {count : UInt32} (few : count.toNat < 8) :
    number x / 2 ^ (8 * back + count.toNat) = number y / 2 ^ (8 * back + count.toNat) ↔
      x[15 - back]?.getD 0 &&& byteMask count = y[15 - back]?.getD 0 &&& byteMask count ∧
        x.take (15 - back) = y.take (15 - back) := by
  have bound : ∀ byte : UInt8, byte.toNat / 2 ^ count.toNat < 2 ^ (8 - count.toNat) := by
    intro byte
    rw [Nat.div_lt_iff_lt_mul (Nat.two_pow_pos _), ← Nat.pow_add, Nat.sub_add_cancel (by omega)]
    exact byte.toNat_lt
  rw [number_div_bits size inside few, number_div_bits size' inside few, ← UInt8.toNat_inj,
    toNat_and_byteMask _ few, toNat_and_byteMask _ few, clear_eq_iff]
  constructor
  · intro same
    have low := congrArg (· % 2 ^ (8 - count.toNat)) same
    have high := congrArg (· / 2 ^ (8 - count.toNat)) same
    simp only [Nat.mul_add_mod, Nat.mod_eq_of_lt (bound _)] at low
    simp only [Nat.mul_add_div (Nat.two_pow_pos _), Nat.div_eq_of_lt (bound _), Nat.add_zero] at high
    exact ⟨low, number_injective (by rw [List.length_take, List.length_take, size, size']) high⟩
  · intro both
    rw [both.1, both.2]

/-- How the bits behind a prefix lie in the bytes of an address. -/
theorem host_bits {prefixLength : UInt32} (within : prefixLength.toNat ≤ 128) :
    ((128 - prefixLength) / 8).toNat = (128 - prefixLength.toNat) / 8 ∧
      ((128 - prefixLength) % 8).toNat = (128 - prefixLength.toNat) % 8 := by
  have host : (128 - prefixLength).toNat = 128 - prefixLength.toNat := toNat_sub_prefix within
  constructor
  · rw [UInt32.toNat_div, host]
    rfl
  · rw [UInt32.toNat_mod, host]
    rfl

/-- `cidr_contains6` compares the lengths and the shared bits. -/
theorem contains6_answer (six : a.family = .inet6) (six' : b.family = .inet6) (proper : a.Proper)
    (s : State) :
    ∃ yes, cidrContains6 a b s = .ok (answer yes (cidrPush a s)) ∧
      (yes = true ↔ a.prefixLength.toNat ≤ b.prefixLength.toNat ∧
        b.value / 2 ^ (128 - a.prefixLength.toNat) =
          a.value / 2 ^ (128 - a.prefixLength.toNat)) := by
  have within := proper.le_six six
  have positive := proper.1
  obtain ⟨quotient, remainder⟩ := host_bits within
  have index : ((128 - a.prefixLength) / 8).toNat % 256 = (128 - a.prefixLength.toNat) / 8 := by
    rw [quotient]
    omega
  have there : place ((128 - a.prefixLength.toNat) / 8) =
      .ok (15 - (128 - a.prefixLength.toNat) / 8) := if_pos (by omega)
  have bits : 8 * ((128 - a.prefixLength.toNat) / 8) + ((128 - a.prefixLength) % 8).toNat =
      128 - a.prefixLength.toNat := by
    rw [remainder]
    omega
  refine ⟨_, by rw [cidrContains6, index, there]; rfl, ?_⟩
  have shared := number_div_eq_iff a.addr.size b.addr.size
    (show (128 - a.prefixLength.toNat) / 8 ≤ 15 by omega)
    (show ((128 - a.prefixLength) % 8).toNat < 8 by omega)
  rw [bits, eq_comm] at shared
  rw [decide_eq_true_eq, Cidr.value_v6 six, Cidr.value_v6 six', shared, UInt32.le_iff_toNat_le]
  constructor
  · intro both
    refine ⟨both.1, both.2.1, ?_⟩
    rcases both.2.2 with first | same
    · rw [first, Nat.sub_self, List.take_zero, List.take_zero]
    · exact same
  · intro both
    exact ⟨both.1, both.2.1, .inr both.2.2⟩

theorem number_replicate (count : Nat) : number (List.replicate count 0) = 0 := by
  induction count with
  | zero => rfl
  | succ count ih =>
      rw [List.replicate_succ, number, ih, Nat.add_zero]
      exact Nat.mul_zero _

/-- A masked address is the one with its lowest bits cleared. -/
theorem number_masked (size : x.length = 16) (inside : back ≤ 15) {count : UInt32}
    (few : count.toNat < 8) :
    number (x.take (15 - back) ++
        (x[15 - back]?.getD 0 &&& byteMask count) :: List.replicate back 0) =
      number x / 2 ^ (8 * back + count.toNat) * 2 ^ (8 * back + count.toNat) := by
  have split : 2 ^ (8 * 1) = 2 ^ (8 - count.toNat) * 2 ^ count.toNat := by
    rw [← Nat.pow_add]
    congr 1
    omega
  rw [number_div_bits size inside few, number_append, number, number_replicate,
    toNat_and_byteMask _ few, List.length_cons, List.length_replicate, Nat.add_zero, Nat.mul_add 8,
    Nat.pow_add, Nat.pow_add, split]
  ring

/-- The bytes that `cidr_network6` leaves. -/
theorem networkBytes_eq (size : x.length = 16) {prefixLength : UInt32}
    (positive : 1 ≤ prefixLength.toNat) (within : prefixLength.toNat ≤ 128) :
    networkBytes prefixLength x = .ok (x.take (15 - (128 - prefixLength.toNat) / 8) ++
      (x[15 - (128 - prefixLength.toNat) / 8]?.getD 0 &&& byteMask ((128 - prefixLength) % 8)) ::
        List.replicate ((128 - prefixLength.toNat) / 8) 0) := by
  obtain ⟨quotient, remainder⟩ := host_bits within
  have index : (128 - prefixLength.toNat) / 8 % 256 = (128 - prefixLength.toNat) / 8 := by omega
  have there : place ((128 - prefixLength.toNat) / 8) =
      .ok (15 - (128 - prefixLength.toNat) / 8) := if_pos (by omega)
  have front : (x.take (15 - (128 - prefixLength.toNat) / 8)).length =
      15 - (128 - prefixLength.toNat) / 8 := by
    rw [List.length_take]
    omega
  have cleared := clearBytes_eq size (show (128 - prefixLength.toNat) / 8 ≤ 16 by omega)
  rw [take_succ size (by omega), List.append_assoc, List.singleton_append] at cleared
  unfold networkBytes
  dsimp only
  rw [quotient, cleared, index, there]
  by_cases whole : (128 - prefixLength) % 8 = 0
  · have same : ∀ byte : UInt8, byte &&& byteMask 0 = byte := by
      intro byte
      apply UInt8.toNat_inj.mp
      rw [toNat_and_byteMask byte (by decide)]
      change byte.toNat / 2 ^ 0 * 2 ^ 0 = byte.toNat
      rw [Nat.pow_zero, Nat.div_one, Nat.mul_one]
    rw [whole, same]
    rfl
  · have masked : ∀ (byte mask : UInt8) (behind : List UInt8),
        maskByte (15 - (128 - prefixLength.toNat) / 8) mask
          (x.take (15 - (128 - prefixLength.toNat) / 8) ++ byte :: behind) =
        x.take (15 - (128 - prefixLength.toNat) / 8) ++ (byte &&& mask) :: behind := by
      intro byte mask behind
      rw [maskByte, List.getElem?_append_right (by omega), List.set_append_right _ _ (by omega),
        front, Nat.sub_self]
      rfl
    change (if (128 - prefixLength) % 8 = 0 then _ else Except.ok _) = _
    rw [if_neg whole, masked]

/-- `cidr_network6` gives the lowest address of the block. -/
theorem network6_lowest (six : a.family = .inet6) (proper : a.Proper) (s : State) :
    ∃ n, cidrNetwork6 a s = .ok (true, cidrPush n s) ∧ n.family = .inet6 ∧
      n.prefixLength = a.prefixLength ∧ n.value = lowest 128 a.prefixLength.toNat a.value := by
  have within := proper.le_six six
  have positive := proper.1
  obtain ⟨-, remainder⟩ := host_bits within
  have bits : 8 * ((128 - a.prefixLength.toNat) / 8) + ((128 - a.prefixLength) % 8).toNat =
      128 - a.prefixLength.toNat := by
    rw [remainder]
    omega
  have few : ((128 - a.prefixLength) % 8).toNat < 8 := by omega
  have inside : (128 - a.prefixLength.toNat) / 8 ≤ 15 := by omega
  have done := networkBytes_eq a.addr.size positive within
  refine ⟨{ a with addr := ⟨_, (length_networkBytes done).trans a.addr.size⟩ }, ?_, six, rfl, ?_⟩
  · unfold cidrNetwork6
    split
    · rename_i fault failed
      rw [done] at failed
      cases failed
    · rename_i masked made
      rw [done] at made
      obtain rfl := Except.ok.inj made
      rfl
  · rw [Cidr.value_v6 six, Cidr.value_v6 (by exact six), lowest]
    have masked := number_masked a.addr.size inside few
    rw [bits] at masked
    exact masked

end Six

/-- `network` gives the lowest address of the block, for both families. -/
theorem network_lowest (order : ByteOrder) (proper : a.Proper) (s : State) :
    ∃ n, cidrNetwork order a s = .ok (true, cidrPush n s) ∧ n.family = a.family ∧ n.Proper ∧
      n.value = lowest a.family.width a.prefixLength.toNat a.value ∧
      lowest a.family.width n.prefixLength.toNat n.value = n.value := by
  unfold cidrNetwork
  cases family : a.family with
  | inet =>
      obtain ⟨n, done, four, length, value⟩ := network4_lowest order family proper s
      refine ⟨n, done, four, ⟨by omega, by rw [four, length]; exact Nat.le_refl 32⟩, value, ?_⟩
      rw [length]
      exact (Nat.mul_one _).trans (Nat.div_one _)
  | inet6 =>
      obtain ⟨n, done, six, length, value⟩ := network6_lowest family proper s
      refine ⟨n, done, six, ?_, value, ?_⟩
      · rw [Cidr.Proper, six, length]
        exact ⟨proper.1, proper.le_six family⟩
      · rw [value, length]
        exact lowest_lowest 128 _ _

/-- `contains` answers whether a block is part of another, for both families. -/
theorem contains_answer (order : ByteOrder) (same : b.family = a.family) (proper : a.Proper)
    (proper' : b.Proper) (s : State) :
    ∃ yes before, cidrContains order a b s = .ok (answer yes before) ∧
      (yes = true ↔ b.covered ⊆ a.covered) := by
  have subset : b.covered ⊆ a.covered ↔ a.prefixLength.toNat ≤ b.prefixLength.toNat ∧
      b.value / 2 ^ (a.family.width - a.prefixLength.toNat) =
        a.value / 2 ^ (a.family.width - a.prefixLength.toNat) := by
    have within := proper'.2
    have small := b.value_lt
    unfold Cidr.covered
    rw [same] at within small ⊢
    exact block_subset_iff a.value_lt small proper.2 within
  unfold cidrContains
  rw [subset]
  cases family : a.family with
  | inet =>
      obtain ⟨yes, done, iff⟩ := contains4_answer order family (same.trans family) proper s
      exact ⟨yes, s, done, iff⟩
  | inet6 =>
      obtain ⟨yes, done, iff⟩ := contains6_answer family (same.trans family) proper s
      exact ⟨yes, cidrPush a s, done, iff⟩

/-- `contains`, `network` and `broadcast` are about the addresses that are covered. -/
theorem cidr_ranges (order : ByteOrder) {a b : Cidr} (same : b.family = a.family)
    (proper : a.Proper) (proper' : b.Proper) (s : State) :
    (∃ yes before, cidrContains order a b s = .ok (answer yes before) ∧
      (yes = true ↔ b.covered ⊆ a.covered)) ∧
    (∃ net again, cidrNetwork order a s = .ok (true, cidrPush net s) ∧
      IsLeast a.covered net.value ∧
      cidrNetwork order net s = .ok (true, cidrPush again s) ∧ again.value = net.value) ∧
    (a.family = .inet → ∃ last, cidrBroadcast4 order a s = .ok (true, cidrPush last s) ∧
      IsGreatest a.covered last.value) ∧
    (b.covered ⊆ a.covered →
      (∃ net, cidrNetwork order b s = .ok (true, cidrPush net s) ∧ net.value ∈ a.covered) ∧
      (a.family = .inet → ∃ last, cidrBroadcast4 order b s = .ok (true, cidrPush last s) ∧
        last.value ∈ a.covered)) := by
  have network : ∀ c : Cidr, c.Proper →
      ∃ net again, cidrNetwork order c s = .ok (true, cidrPush net s) ∧
        IsLeast c.covered net.value ∧
        cidrNetwork order net s = .ok (true, cidrPush again s) ∧ again.value = net.value := by
    intro c proper
    obtain ⟨net, done, family, good, value, fixed⟩ := network_lowest order proper s
    obtain ⟨again, done', -, -, value', -⟩ := network_lowest order good s
    refine ⟨net, again, done, ?_, done', ?_⟩
    · rw [value]
      exact isLeast_lowest _ c.value_lt
    · rw [value', family, fixed]
  have broadcast : ∀ c : Cidr, c.Proper → c.family = .inet →
      ∃ last, cidrBroadcast4 order c s = .ok (true, cidrPush last s) ∧
        IsGreatest c.covered last.value := by
    intro c proper four
    obtain ⟨last, done, -, value⟩ := broadcast4_highest order four proper s
    refine ⟨last, done, ?_⟩
    have small := c.value_lt
    unfold Cidr.covered
    rw [four] at small ⊢
    rw [value]
    exact isGreatest_highest _ small
  refine ⟨contains_answer order same proper proper' s, network a proper, broadcast a proper, ?_⟩
  intro subset
  refine ⟨?_, fun four => ?_⟩
  · obtain ⟨net, -, done, least, -⟩ := network b proper'
    exact ⟨net, done, subset least.1⟩
  · obtain ⟨last, done, greatest⟩ := broadcast b proper' (same.trans four)
    exact ⟨last, done, subset greatest.1⟩

/-- The program before the first operation. -/
def State.start (a : Cidr) : State := { stack := [a], quiet := false, printed := false, out := [] }

theorem length_v4 (first second third fourth : UInt8) :
    ([first, second, third, fourth] ++ List.replicate 12 0).length = 16 := rfl

/-- An IPv4 address with a prefix. -/
def cidr4 (first second third fourth : UInt8) (prefixLength : UInt32) : Cidr where
  family := .inet
  prefixLength := prefixLength
  addr := ⟨[first, second, third, fourth] ++ List.replicate 12 0, length_v4 ..⟩

/-- 10.1.0.0/16 is asked for in 10.0.0.0/8. -/
theorem cidr_ranges_ten :
    ∃ yes before, cidrContains .little (cidr4 10 0 0 0 8) (cidr4 10 1 0 0 16)
        (.start (cidr4 10 0 0 0 8)) = .ok (answer yes before) ∧
      (yes = true ↔ (cidr4 10 1 0 0 16).covered ⊆ (cidr4 10 0 0 0 8).covered) :=
  (@cidr_ranges .little (cidr4 10 0 0 0 8) (cidr4 10 1 0 0 16) rfl ⟨by decide, by decide⟩
    ⟨by decide, by decide⟩ _).1

end Trunk.Owip
