import Trunk.Owip.Safety

/-! # Sums of addresses

`add` and `sub` of IPv6 addresses go through the bytes with a carry, and give the sum and the
difference of the numbers up to a multiple of `2 ^ 128`, which the last carry counts
(`Trunk.Owip.ripple_sum`). The address that an operation was given is kept where it fails, except by
those for IPv6, which tell that they fail by the last carry, behind the loop
(`Trunk.Owip.leaves_iff`).
-/

namespace Trunk.Owip

open Network Inet

variable {order : ByteOrder} {a b n : Cidr} {s : State} {x y : List UInt8} {index : Nat}
  {digit : UInt8 → UInt8 → UInt8 → UInt8 × UInt8} {sign : Int}

section Digits

/-- One round of the loop, in the number of the address. -/
theorem number_digits (balanced : BalancedSum digit sign) (size : x.length = 16)
    (size' : y.length = 16) (inside : index < 16) {carry : UInt8} (small : carry.toNat ≤ 1) :
    ∃ byte other, x[index]? = some byte ∧ y[index]? = some other ∧
      (digit byte other carry).2.toNat ≤ 1 ∧
      (number (x.set index (digit byte other carry).1) : Int) +
          sign * 2 ^ (8 * (15 - index) + 8) * (digit byte other carry).2.toNat =
        number x + sign * 2 ^ (8 * (15 - index)) * (other.toNat + carry.toNat) := by
  have there : index < x.length := by omega
  have there' : index < y.length := by omega
  obtain ⟨below, sum⟩ := balanced x[index] y[index] carry small
  exact ⟨x[index], y[index], List.getElem?_eq_getElem there, List.getElem?_eq_getElem there',
    below, number_put size there sum⟩

/-- The bytes up to a place, with the one at the place apart. -/
theorem number_take_succ {other : UInt8} (there : y[index]? = some other) :
    number (y.take (index + 1)) = 2 ^ 8 * number (y.take index) + other.toNat := by
  have last : number [other] = other.toNat := by
    rw [number, number, List.length_nil, Nat.mul_zero, Nat.pow_zero, Nat.one_mul, Nat.add_zero]
  rw [List.take_add_one, there, Option.toList_some, number_append, last]
  rfl

/-- The loop adds, or subtracts, the bytes up to a place, and the carry leaves at the top. -/
theorem ripple_sum (balanced : BalancedSum digit sign) (size : x.length = 16)
    (size' : y.length = 16) (inside : index < 16) {carry : UInt8} (small : carry.toNat ≤ 1) :
    ∃ result, ripple digit y index x carry = .ok result ∧ result.2.toNat ≤ 1 ∧
      (number result.1 : Int) + sign * 2 ^ 128 * result.2.toNat =
        number x + sign * 2 ^ (8 * (15 - index)) *
          (number (y.take (index + 1)) + carry.toNat) := by
  obtain ⟨byte, other, there, there', below, sum⟩ :=
    number_digits balanced size size' inside small
  have front := number_take_succ there'
  induction index generalizing x carry byte other with
  | zero =>
      refine ⟨(x.set 0 (digit byte other carry).1, (digit byte other carry).2), ?_, below, ?_⟩
      · rw [ripple, there, there']
      · have first : number (y.take (0 + 1)) = other.toNat := by
          rw [front, List.take_zero, number, Nat.mul_zero, Nat.zero_add]
        rw [first]
        exact sum
  | succ index ih =>
      have lower : index < 16 := by omega
      have set : (x.set (index + 1) (digit byte other carry).1).length = 16 := by
        rw [List.length_set, size]
      obtain ⟨byte', next, here, here', below', sum'⟩ :=
        number_digits balanced set size' lower below
      obtain ⟨result, done, bound, total⟩ := ih set lower below byte' next here here' below' sum'
        (number_take_succ here')
      refine ⟨result, ?_, bound, ?_⟩
      · rw [ripple, there, there']
        exact done
      · have place : 8 * (15 - index) = 8 * (15 - (index + 1)) + 8 := by omega
        have front' : (number (y.take (index + 1 + 1)) : Int) =
            2 ^ 8 * number (y.take (index + 1)) + other.toNat := by
          exact_mod_cast front
        rw [place, pow_add] at total
        rw [pow_add] at sum
        rw [front']
        linear_combination total + sum

end Digits

section Six

/-- `cidr_add6` and `cidr_sub6` leave the address that the last carry makes up for. -/
theorem cidrSum6_eq (balanced : BalancedSum digit sign) (six : a.family = .inet6)
    (six' : b.family = .inet6) (s : State) :
    ∃ (addr : In6) (carry : Nat), carry ≤ 1 ∧
      (addr.value : Int) + sign * 2 ^ 128 * carry = a.addr.value + sign * b.addr.value ∧
      cidrSum6 digit a b s = .ok (decide (carry = 0), cidrPush { a with addr := addr } s) := by
  have none : (0 : UInt8).toNat = 0 := rfl
  obtain ⟨result, done, small, total⟩ := @ripple_sum a.addr.bytes b.addr.bytes 15 digit sign balanced
    a.addr.size b.addr.size (by decide) 0 (Nat.zero_le 1)
  have whole : b.addr.bytes.take (15 + 1) = b.addr.bytes :=
    List.take_of_length_le (Nat.le_of_eq b.addr.size)
  rw [whole, none, Nat.sub_self, Nat.mul_zero, pow_zero, mul_one] at total
  have summed : rippleAddr digit b.addr.bytes 15 a.addr 0 =
      .ok (⟨result.1, (length_ripple done).trans a.addr.size⟩, result.2) := by
    unfold rippleAddr
    split
    · rename_i fault failed
      rw [done] at failed
      cases failed
    · rename_i result' done'
      rw [done] at done'
      obtain rfl := Except.ok.inj done'
      rfl
  refine ⟨⟨result.1, (length_ripple done).trans a.addr.size⟩, result.2.toNat, small, ?_, ?_⟩
  · unfold In6.value
    push_cast at total ⊢
    rw [add_zero] at total
    exact total
  · have zero : result.2 = 0 ↔ result.2.toNat = 0 := UInt8.toNat_inj.symm
    unfold cidrSum6
    rw [if_neg (by rw [six, six']; exact fun either => either.elim (fun ne => ne rfl) fun ne => ne rfl),
      summed]
    change Except.ok (decide (result.2 = 0), _) = _
    simp only [zero]

/-- An operation leaves an IPv6 address in the place of another one, and an answer. -/
def Leaves6 (a : Cidr) (s : State) (result : Result) (success : Bool) (value : Nat) : Prop :=
  ∃ n, result = .ok (success, cidrPush n s) ∧ n.family = .inet6 ∧
    n.prefixLength = a.prefixLength ∧ n.addr.bytes = bytes 16 value

/-- Sixteen bytes are those of their number. -/
theorem bytes_of_value {addr : In6} {value : Nat} (same : addr.value = value) :
    addr.bytes = bytes 16 value := by
  rw [← same, In6.value, ← addr.size]
  exact (bytes_number addr.bytes).symm

theorem add6_leaves (six : a.family = .inet6) (six' : b.family = .inet6) (s : State) :
    Leaves6 a s (cidrAdd6 a b s) (decide (a.value + b.value < 2 ^ 128))
      ((a.value + b.value) % 2 ^ 128) := by
  obtain ⟨addr, carry, small, total, done⟩ := cidrSum6_eq balancedSum_addDigit six six' s
  have bound := addr.value_lt
  have bound' := b.addr.value_lt
  have value : a.value = a.addr.value := Cidr.value_v6 six
  have value' : b.value = b.addr.value := Cidr.value_v6 six'
  rw [value, value']
  refine ⟨{ a with addr := addr }, ?_, six, rfl, bytes_of_value ?_⟩
  · have answer : carry = 0 ↔ a.addr.value + b.addr.value < 2 ^ 128 := by omega
    rw [cidrAdd6, done]
    simp only [answer]
  · change addr.value = _
    omega

theorem sub6_leaves (six : a.family = .inet6) (six' : b.family = .inet6) (s : State) :
    Leaves6 a s (cidrSub6 a b s) (decide (b.value ≤ a.value))
      ((2 ^ 128 + a.value - b.value) % 2 ^ 128) := by
  obtain ⟨addr, carry, small, total, done⟩ := cidrSum6_eq balancedSum_subDigit six six' s
  have bound := addr.value_lt
  have bound' := a.addr.value_lt
  have bound'' := b.addr.value_lt
  have value : a.value = a.addr.value := Cidr.value_v6 six
  have value' : b.value = b.addr.value := Cidr.value_v6 six'
  rw [value, value']
  refine ⟨{ a with addr := addr }, ?_, six, rfl, bytes_of_value ?_⟩
  · have answer : carry = 0 ↔ b.addr.value ≤ a.addr.value := by omega
    rw [cidrSub6, done]
    simp only [answer]
  · change addr.value = _
    omega

/-- Two addresses with one number and one prefix are one. -/
theorem Cidr.eq_of_bytes (six : a.family = .inet6) (six' : n.family = .inet6)
    (length : n.prefixLength = a.prefixLength) (same : n.addr.bytes = a.addr.bytes) : n = a := by
  cases a with
  | mk family prefixLength addr =>
      cases n with
      | mk family' prefixLength' addr' =>
          cases addr
          cases addr'
          obtain rfl : family = .inet6 := six
          obtain rfl : family' = .inet6 := six'
          obtain rfl : prefixLength' = prefixLength := length
          cases same
          rfl

/-- `sub` takes back what `add` has added. -/
theorem sub6_add6 (six : a.family = .inet6) (six' : b.family = .inet6)
    (added : cidrAdd6 a b s = .ok (true, cidrPush n s)) (after : State) :
    cidrSub6 n b after = .ok (true, cidrPush a after) := by
  obtain ⟨m, done, kept, length, sum⟩ := add6_leaves six six' s
  rw [added] at done
  obtain ⟨fits, pushed⟩ := Prod.mk.inj (Except.ok.inj done)
  obtain rfl : n = m := (List.cons.inj (congrArg State.stack pushed)).1
  have small : a.value + b.value < 2 ^ 128 := of_decide_eq_true fits.symm
  have value : n.value = a.value + b.value := by
    rw [Cidr.value_v6 kept, sum, number_bytes, Nat.mod_mod, Nat.mod_eq_of_lt small]
  obtain ⟨m, taken, kept', length', difference⟩ := sub6_leaves kept six' after
  have least : b.value ≤ n.value := by omega
  have back : (2 ^ 128 + n.value - b.value) % 2 ^ 128 = a.value := by omega
  rw [back, Cidr.value_v6 six, ← a.addr.size, bytes_number] at difference
  rw [taken, decide_eq_true least, Cidr.eq_of_bytes six kept' (length'.trans length) difference]

end Six

section Four

/-- `cidr_add4` gives the sum, if it succeeds. -/
theorem value_add4 (four : a.family = .inet)
    (added : cidrAdd4 order a b s = .ok (true, cidrPush n s)) :
    b.family = .inet ∧ n.value = a.value + b.value := by
  unfold cidrAdd4 at added
  dsimp only at added
  split at added
  · cases added
  · rename_i same
    split at added
    · cases added
    · rename_i more
      have four' : b.family = .inet := by
        by_contra other
        exact same (.inr other)
      have first := toNat_ntohl_sAddr order a.v4
      have second := toNat_ntohl_sAddr order b.v4
      have bound := a.v4.value_lt
      have bound' := b.v4.value_lt
      have sum := UInt32.toNat_add (ntohl order (a.v4.sAddr order)) (ntohl order (b.v4.sAddr order))
      have least := mt UInt32.lt_iff_toNat_lt.mpr more
      obtain rfl := (List.cons.inj (congrArg State.stack (Prod.mk.inj (Except.ok.inj added)).2)).1
      refine ⟨four', ?_⟩
      rw [Cidr.value_v4 (by exact four), Cidr.v4_setV4, value_ofSAddr_htonl, Cidr.value_v4 four,
        Cidr.value_v4 four']
      omega

/-- `cidr_sub4` gives the difference, if it succeeds. -/
theorem value_sub4 (four : a.family = .inet)
    (taken : cidrSub4 order a b s = .ok (true, cidrPush n s)) :
    b.family = .inet ∧ b.value ≤ a.value ∧ n.value = a.value - b.value := by
  unfold cidrSub4 at taken
  dsimp only at taken
  split at taken
  · cases taken
  · rename_i same
    split at taken
    · cases taken
    · rename_i less
      have four' : b.family = .inet := by
        by_contra other
        exact same (.inr other)
      have first := toNat_ntohl_sAddr order a.v4
      have second := toNat_ntohl_sAddr order b.v4
      have bound := a.v4.value_lt
      have bound' := b.v4.value_lt
      have difference :=
        UInt32.toNat_sub (ntohl order (a.v4.sAddr order)) (ntohl order (b.v4.sAddr order))
      have most := mt UInt32.lt_iff_toNat_lt.mpr less
      obtain rfl := (List.cons.inj (congrArg State.stack (Prod.mk.inj (Except.ok.inj taken)).2)).1
      rw [Cidr.value_v4 four, Cidr.value_v4 four']
      refine ⟨four', ?_, ?_⟩
      · omega
      · rw [Cidr.value_v4 (by exact four), Cidr.v4_setV4, value_ofSAddr_htonl]
        omega

end Four

/-- The operations for IPv6 and those for IPv4 give one number, where those for IPv4 succeed. -/
def AgreeBelow (order : ByteOrder) (a b : Cidr) (s : State) : Prop :=
  ∀ (first second n : Cidr) (before : State), first.family = .inet → first.value = a.value →
    second.value = b.value →
    (cidrAdd4 order first second before = .ok (true, cidrPush n before) →
      ∃ m, cidrAdd6 a b s = .ok (true, cidrPush m s) ∧ m.value = n.value) ∧
    (cidrSub4 order first second before = .ok (true, cidrPush n before) →
      ∃ m, cidrSub6 a b s = .ok (true, cidrPush m s) ∧ m.value = n.value)

theorem agreeBelow (order : ByteOrder) (six : a.family = .inet6) (six' : b.family = .inet6)
    (s : State) : AgreeBelow order a b s := by
  intro first second n before four same same'
  have small := first.value_lt
  rw [four] at small
  constructor
  · intro added
    obtain ⟨four', value⟩ := value_add4 four added
    have small' := second.value_lt
    rw [four'] at small'
    change _ < 2 ^ 32 at small small'
    obtain ⟨m, done, kept, -, sum⟩ := add6_leaves six six' s
    have fits : a.value + b.value < 2 ^ 128 := by omega
    refine ⟨m, by rw [done, decide_eq_true fits], ?_⟩
    rw [Cidr.value_v6 kept, sum, number_bytes, Nat.mod_mod, Nat.mod_eq_of_lt fits]
    omega
  · intro taken
    obtain ⟨four', least, value⟩ := value_sub4 four taken
    change _ < 2 ^ 32 at small
    obtain ⟨m, done, kept, -, difference⟩ := sub6_leaves six six' s
    have fits : b.value ≤ a.value := by omega
    refine ⟨m, by rw [done, decide_eq_true fits], ?_⟩
    rw [Cidr.value_v6 kept, difference, number_bytes, Nat.mod_mod]
    omega

/-- `add` and `sub` of IPv6 addresses are the arithmetic of numbers of 128 bits, `sub` takes back
what `add` has added, and both agree with the operations for IPv4 where those succeed. -/
theorem sums_exact (order : ByteOrder) {a b : Cidr} (six : a.family = .inet6)
    (six' : b.family = .inet6) (s : State) :
    Leaves6 a s (cidrAdd6 a b s) (decide (a.value + b.value < 2 ^ 128))
        ((a.value + b.value) % 2 ^ 128) ∧
      Leaves6 a s (cidrSub6 a b s) (decide (b.value ≤ a.value))
        ((2 ^ 128 + a.value - b.value) % 2 ^ 128) ∧
      (∀ n after, cidrAdd6 a b s = .ok (true, cidrPush n s) →
        cidrSub6 n b after = .ok (true, cidrPush a after)) ∧
      AgreeBelow order a b s :=
  ⟨add6_leaves six six' s, sub6_leaves six six' s,
    fun _ after added => sub6_add6 six six' added after, agreeBelow order six six' s⟩

section Failing

/-- An operation that reports failure leaves the address on the stack as it was. -/
def LeavesAlone (a : Cidr) (result : Result) : Prop :=
  ∀ after, result = .ok (false, after) → top after = .ok a

/-- The operations for IPv6 whose last carry tells that they fail. -/
def Operation.Overflows (operation : Operation) (a b : Cidr) : Prop :=
  match operation, a.family with
  | .add, .inet6 => b.family = .inet6 ∧ 2 ^ 128 ≤ a.value + b.value
  | .sub, .inet6 => b.family = .inet6 ∧ a.value < b.value
  | .next, .inet6 => b.prefixLength ≠ 0 ∧ startByte b < 16 ∧
      2 ^ 128 ≤ a.value + 2 ^ (8 * (15 - startByte b))
  | .prev, .inet6 => b.prefixLength ≠ 0 ∧ startByte b < 16 ∧
      a.value < 2 ^ (8 * (15 - startByte b))
  | _, _ => False

theorem leavesAlone_error {fault : Fault} : LeavesAlone a (.error fault) := by
  intro after done
  cases done

theorem leavesAlone_success : LeavesAlone a (.ok (true, s)) := by
  intro after done
  cases done

/-- Where an operation fails, what it has pushed is on top. -/
theorem leavesAlone_push_iff : LeavesAlone a (.ok (false, cidrPush n s)) ↔ n = a := by
  constructor
  · intro alone
    exact Except.ok.inj (alone _ rfl)
  · rintro rfl after done
    obtain rfl := (Prod.mk.inj (Except.ok.inj done)).2
    rfl

theorem leavesAlone_add4 : LeavesAlone a (cidrAdd4 order a b s) := by
  unfold cidrAdd4
  dsimp only
  split
  · exact leavesAlone_push_iff.mpr rfl
  · split
    · exact leavesAlone_push_iff.mpr rfl
    · exact leavesAlone_success

theorem leavesAlone_sub4 : LeavesAlone a (cidrSub4 order a b s) := by
  unfold cidrSub4
  dsimp only
  split
  · exact leavesAlone_push_iff.mpr rfl
  · split
    · exact leavesAlone_push_iff.mpr rfl
    · exact leavesAlone_success

/-- The operations on words report no failure at all. -/
theorem leavesAlone_step4 {result : UInt32 → Cidr} :
    LeavesAlone a (do return (true, cidrPush (result (← shiftOne (32 - b.prefixLength))) s)) := by
  rcases shiftOne_cases (32 - b.prefixLength) with ⟨-, step, shifted⟩ | ⟨-, failed⟩
  · rw [shifted]
    exact leavesAlone_success
  · rw [failed]
    exact leavesAlone_error

/-- An address that a carry has left is another one. -/
theorem addr_ne {addr : In6} {carry amount : Nat} (sign : Int) (unit : sign = 1 ∨ sign = -1)
    (some : carry ≠ 0) (less : amount < 2 ^ 128)
    (total : (addr.value : Int) + sign * 2 ^ 128 * carry = a.addr.value + sign * amount) :
    { a with addr := addr } ≠ a := by
  intro same
  have equal : addr = a.addr := congrArg Cidr.addr same
  rw [equal] at total
  rcases unit with rfl | rfl
  · omega
  · omega

/-- `cidr_add6` and `cidr_sub6`. -/
theorem leavesAlone_sum6_iff {Leaves : Prop} (balanced : BalancedSum digit sign)
    (unit : sign = 1 ∨ sign = -1) (six : a.family = .inet6)
    (leaves : ∀ (addr : In6) (carry : Nat), b.family = .inet6 → carry ≤ 1 →
      (addr.value : Int) + sign * 2 ^ 128 * carry = a.addr.value + sign * b.addr.value →
      (carry ≠ 0 ↔ Leaves)) :
    LeavesAlone a (cidrSum6 digit a b s) ↔ ¬ (b.family = .inet6 ∧ Leaves) := by
  by_cases six' : b.family = .inet6
  · obtain ⟨addr, carry, small, total, done⟩ := cidrSum6_eq balanced six six' s
    have left := leaves addr carry six' small total
    rw [done, and_iff_right six', ← left, not_not]
    by_cases none : carry = 0
    · rw [decide_eq_true none]
      exact iff_of_true leavesAlone_success none
    · rw [decide_eq_false none, leavesAlone_push_iff]
      exact iff_of_false (addr_ne sign unit none b.addr.value_lt total) none
  · have refused : cidrSum6 digit a b s = .ok (false, cidrPush a s) := if_pos (.inr six')
    rw [refused, leavesAlone_push_iff]
    exact iff_of_true rfl fun both => six' both.1

/-- `cidr_next6` and `cidr_prev6`. -/
theorem leavesAlone_step6_iff {Leaves : Prop} (balanced : Balanced digit sign)
    (unit : sign = 1 ∨ sign = -1)
    (leaves : ∀ (addr : In6) (carry : Nat), carry ≤ 1 →
      (addr.value : Int) + sign * 2 ^ 128 * carry =
        a.addr.value + sign * (2 ^ (8 * (15 - startByte b)) : Nat) → (carry ≠ 0 ↔ Leaves)) :
    LeavesAlone a (cidrStep6 digit a b s) ↔
      ¬ (b.prefixLength ≠ 0 ∧ startByte b < 16 ∧ Leaves) := by
  by_cases zero : b.prefixLength = 0
  · have refused : cidrStep6 digit a b s = .ok (false, cidrPush a s) := if_pos zero
    rw [refused, leavesAlone_push_iff]
    exact iff_of_true rfl fun all => all.1 zero
  · by_cases inside : startByte b < 16
    · obtain ⟨addr, carry, small, total, done⟩ :=
        @cidrStep6_at a b _ _ _ balanced zero (toNat_startByte zero) inside s
      have left := leaves addr carry small total
      have less : 2 ^ (8 * (15 - startByte b)) < 2 ^ 128 :=
        Nat.pow_lt_pow_right Nat.one_lt_two (by omega)
      rw [done, and_iff_right zero, and_iff_right inside, ← left, not_not]
      by_cases none : carry = 0
      · rw [if_pos none]
        exact iff_of_true leavesAlone_success none
      · rw [if_neg none, leavesAlone_push_iff]
        exact iff_of_false (addr_ne sign unit none less total) none
    · rw [cidrStep6_outside zero (Nat.le_of_not_lt inside)]
      exact iff_of_true leavesAlone_error fun all => inside all.2.1

/-- `add`, `sub`, `next` and `prev` that fail leave the address on the stack as it was exactly if
they are not those for IPv6 that overflow. -/
theorem leavesAlone_iff {operation : Operation} {function : Cidr → Cidr → State → Result}
    (stepping : operation ∈ [Operation.add, .sub, .next, .prev])
    (found : operation.a2 order a.family = some function) (b : Cidr) (s : State) :
    LeavesAlone a (function a b s) ↔ ¬ operation.Overflows a b := by
  cases family : a.family with
  | inet =>
      rw [family] at found
      have never : ¬ operation.Overflows a b := by
        unfold Operation.Overflows
        rw [family]
        cases operation <;> exact id
      refine iff_of_true ?_ never
      simp only [List.mem_cons, List.not_mem_nil, or_false] at stepping
      rcases stepping with rfl | rfl | rfl | rfl
      · obtain rfl := Option.some.inj found
        exact leavesAlone_add4
      · obtain rfl := Option.some.inj found
        exact leavesAlone_sub4
      · obtain rfl := Option.some.inj found
        exact leavesAlone_step4
      · obtain rfl := Option.some.inj found
        exact leavesAlone_step4
  | inet6 =>
      rw [family] at found
      have value : a.value = a.addr.value := Cidr.value_v6 family
      have bound := a.addr.value_lt
      unfold Operation.Overflows
      rw [family]
      simp only [List.mem_cons, List.not_mem_nil, or_false] at stepping
      rcases stepping with rfl | rfl | rfl | rfl
      · obtain rfl := Option.some.inj found
        refine leavesAlone_sum6_iff balancedSum_addDigit (.inl rfl) family ?_
        intro addr carry six' small total
        have least := addr.value_lt
        rw [value, Cidr.value_v6 six']
        change _ ↔ _ ≤ _ + b.addr.value
        omega
      · obtain rfl := Option.some.inj found
        refine leavesAlone_sum6_iff balancedSum_subDigit (.inr rfl) family ?_
        intro addr carry six' small total
        have least := addr.value_lt
        rw [value, Cidr.value_v6 six']
        change _ ↔ _ < b.addr.value
        omega
      · obtain rfl := Option.some.inj found
        refine leavesAlone_step6_iff balancedSum_addDigit.balanced (.inl rfl) ?_
        intro addr carry small total
        have least := addr.value_lt
        rw [value]
        omega
      · obtain rfl := Option.some.inj found
        refine leavesAlone_step6_iff balancedSum_subDigit.balanced (.inr rfl) ?_
        intro addr carry small total
        have least := addr.value_lt
        rw [value]
        omega

end Failing

theorem length_v6 (front last : UInt8) : (List.replicate 15 front ++ [last]).length = 16 := rfl

/-- An IPv6 address with one byte everywhere but at its end. -/
def cidr6 (front last : UInt8) (prefixLength : UInt32) : Cidr where
  family := .inet6
  prefixLength := prefixLength
  addr := ⟨List.replicate 15 front ++ [last], length_v6 front last⟩

/-- The highest address and one. -/
theorem sums_exact_highest :
    Leaves6 (cidr6 0xff 0xff 128) (.start (cidr6 0xff 0xff 128))
      (cidrAdd6 (cidr6 0xff 0xff 128) (cidr6 0 1 128) (.start (cidr6 0xff 0xff 128))) false 0 := by
  have sum := (@sums_exact .little (cidr6 0xff 0xff 128) (cidr6 0 1 128) rfl rfl
    (.start (cidr6 0xff 0xff 128))).1
  have wraps : decide ((cidr6 0xff 0xff 128).value + (cidr6 0 1 128).value < 2 ^ 128) = false := by
    decide
  have zero : ((cidr6 0xff 0xff 128).value + (cidr6 0 1 128).value) % 2 ^ 128 = 0 := by decide
  rw [wraps, zero] at sum
  exact sum

/-- A sum that overflows, and the difference that does not. -/
theorem leavesAlone_iff_one :
    ¬ Operation.Overflows .sub (cidr6 0 1 128) (cidr6 0 1 128) ∧
      LeavesAlone (cidr6 0 1 128)
        (cidrSub6 (cidr6 0 1 128) (cidr6 0 1 128) (.start (cidr6 0 1 128))) := by
  have fits : ¬ Operation.Overflows .sub (cidr6 0 1 128) (cidr6 0 1 128) := by
    rintro ⟨-, less⟩
    exact absurd less (Nat.lt_irrefl _)
  exact ⟨fits, (@leavesAlone_iff .little (cidr6 0 1 128) .sub _ (by decide) rfl _ _).mpr fits⟩

/-- One is added to the highest address: `::` is left on the stack. -/
theorem not_leavesAlone_highest : ¬ LeavesAlone (cidr6 0xff 0xff 128)
    (cidrAdd6 (cidr6 0xff 0xff 128) (cidr6 0 1 128) (.start (cidr6 0xff 0xff 128))) := by
  intro alone
  have same := alone (cidrPush (cidr6 0 0 128) (.start (cidr6 0xff 0xff 128))) (by decide)
  exact absurd same (by decide)

end Trunk.Owip
