import Trunk.Owip.Command
import Trunk.Owip.Step

/-! # Runs of the IP calculator

The operations take the topmost address and its prefix length as they are, and the length of an
argument that is a number is any number. So a run may read the empty stack, shift a word by its
width, leave the bytes of an address, or push a prefix that is longer than an address. It does none
of this exactly if every call of `runop` meets `Trunk.Owip.Fits`
(`Trunk.Owip.runOps_total_iff`).
-/

namespace Trunk.Owip

open CString Network Inet Loop

variable {host : Host} {order : ByteOrder} {a b n : Cidr} {s : State} {config next : Config}

/-- The prefix is not longer than an address. -/
def Cidr.Within (a : Cidr) : Prop := a.prefixLength.toNat ≤ a.family.width

/-- No prefix on the stack is longer than its address. -/
def State.Within (s : State) : Prop := ∀ a ∈ s.stack, a.Within

/-- The byte at which the code for IPv6 starts a step. -/
def startByte (b : Cidr) : Nat := (b.prefixLength.toNat - 1) / 8 % 256

/-- Where an operation without an argument is defined. -/
def Operation.FitsUnary (operation : Operation) (a : Cidr) : Prop :=
  match operation, a.family with
  | .network, .inet => 1 ≤ a.prefixLength.toNat
  | .broadcast, .inet => 1 ≤ a.prefixLength.toNat
  | .netmask, .inet => 1 ≤ a.prefixLength.toNat
  | _, _ => True

/-- Where an operation with an argument is defined, and leaves a prefix that is not too long. A step
by a longer prefix of IPv6 leaves none if the address overflows. -/
def Operation.FitsBinary (operation : Operation) (a b : Cidr) : Prop :=
  match operation, a.family with
  | .next, .inet => 1 ≤ b.prefixLength.toNat ∧ b.prefixLength.toNat ≤ 32
  | .prev, .inet => 1 ≤ b.prefixLength.toNat ∧ b.prefixLength.toNat ≤ 32
  | .next, .inet6 => b.prefixLength.toNat ≤ 128 ∨
      startByte b < 16 ∧ 2 ^ 128 ≤ a.value + 2 ^ (8 * (15 - startByte b))
  | .prev, .inet6 => b.prefixLength.toNat ≤ 128 ∨
      startByte b < 16 ∧ a.value < 2 ^ (8 * (15 - startByte b))
  | .setPrefix, family => b.prefixLength.toNat ≤ family.width
  | .howmany, _ => b.prefixLength.toNat < a.prefixLength.toNat + 32
  | .contains, _ => 1 ≤ a.prefixLength.toNat
  | _, _ => True

/-- Where a call of `runop` is defined: there is an address to operate on, and the operation fits
it and the argument. -/
def Fits (host : Host) (config : Config) : Prop :=
  match config.args with
  | [] => True
  | word :: rest =>
      match findOp word with
      | none => True
      | some operation =>
          if operation.binary host.order then
            match rest, config.state.stack with
            | [], _ => True
            | _, [] => False
            | argument :: _, a :: _ =>
                match cidrParse host argument a.family with
                | .parsed b => operation.FitsBinary a b
                | _ => True
          else
            match config.state.stack with
            | [] => False
            | a :: _ => operation.FitsUnary a

/-- A result that is defined and leaves no prefix that is too long. -/
def Safe (result : Result) : Prop :=
  ∃ success after, result = .ok (success, after) ∧ after.Within

theorem not_safe_error {fault : Fault} : ¬ Safe (.error fault) := by
  rintro ⟨success, after, done, -⟩
  cases done

theorem safe_ok_iff {success : Bool} {after : State} : Safe (.ok (success, after)) ↔ after.Within := by
  constructor
  · rintro ⟨success', after', done, within⟩
    cases done
    exact within
  · intro within
    exact ⟨success, after, rfl, within⟩

theorem within_push_iff (within : s.Within) : (cidrPush n s).Within ↔ n.Within := by
  constructor
  · intro all
    exact all n (List.mem_cons_self ..)
  · intro first c member
    rcases List.mem_cons.mp member with rfl | old
    · exact first
    · exact within c old

@[simp] theorem stack_qprintf (token : Token) (s : State) : (qprintf token s).stack = s.stack := rfl

@[simp] theorem stack_separate (s : State) : (separate s).stack = s.stack := by
  unfold separate
  split <;> rfl

@[simp] theorem stack_answer (yes : Bool) (s : State) : (answer yes s).2.stack = s.stack :=
  stack_separate s

/-- What only prints leaves the stack. -/
theorem State.Within.of_stack {after : State} (within : s.Within) (same : after.stack = s.stack) :
    after.Within := by
  intro c member
  rw [same] at member
  exact within c member

theorem State.Within.tail {after : State} (within : s.Within) (same : after.stack = s.stack.tail) :
    after.Within := by
  intro c member
  rw [same] at member
  exact within c (List.mem_of_mem_tail member)

/-- A word is shifted by less than its width. -/
theorem shiftOne_cases (count : UInt32) :
    (count.toNat < 32 ∧ ∃ step, shiftOne count = .ok step) ∨
      (32 ≤ count.toNat ∧ shiftOne count = .error .shift) := by
  by_cases few : count.toNat < 32
  · exact .inl ⟨few, _, if_pos (UInt32.lt_iff_toNat_lt.mpr few)⟩
  · refine .inr ⟨Nat.le_of_not_lt few, if_neg fun less => few (UInt32.lt_iff_toNat_lt.mp less)⟩

theorem toNat_host_lt_iff (length : UInt32) :
    (32 - length).toNat < 32 ↔ 1 ≤ length.toNat ∧ length.toNat ≤ 32 := by
  have bound := length.toNat_lt
  have width : (32 : UInt32).toNat = 32 := rfl
  rw [UInt32.toNat_sub, width]
  omega

/-- A shift is safe by less than the width of a word, where what follows is. -/
theorem safe_shiftOne_iff {count : UInt32} {follow : UInt32 → Result} {After : Prop}
    (after : ∀ step, Safe (follow step) ↔ After) :
    Safe (shiftOne count >>= follow) ↔ count.toNat < 32 ∧ After := by
  rcases shiftOne_cases count with ⟨few, step, shifted⟩ | ⟨many, failed⟩
  · rw [shifted, and_iff_right few]
    exact after step
  · rw [failed]
    exact ⟨fun safe => absurd safe not_safe_error, fun both => absurd both.1 (Nat.not_lt_of_le many)⟩

theorem safe_hostMask_iff {length : UInt32} {follow : UInt32 → Result} {After : Prop}
    (after : ∀ mask, Safe (follow mask) ↔ After) (within : length.toNat ≤ 32) :
    Safe (hostMask length >>= follow) ↔ 1 ≤ length.toNat ∧ After := by
  have unfolded : hostMask length >>= follow =
      shiftOne (32 - length) >>= fun step => follow (step - 1) := by
    unfold hostMask
    cases shiftOne (32 - length) with
    | error fault => rfl
    | ok step => rfl
  rw [unfolded, safe_shiftOne_iff fun step => after (step - 1), toNat_host_lt_iff,
    and_iff_left within]

section Unary

/-- The operations on IPv4 addresses that push another one with the whole prefix. -/
theorem safe_mask4_iff {result : UInt32 → Cidr} (within : s.Within) (four : a.family = .inet)
    (fits : a.Within)
    (whole : ∀ mask, (result mask).family = .inet ∧ (result mask).prefixLength = 32) :
    Safe (do return (true, cidrPush (result (← hostMask a.prefixLength)) s)) ↔
      1 ≤ a.prefixLength.toNat := by
  rw [Cidr.Within, four] at fits
  have after : ∀ mask, Safe (.ok (true, cidrPush (result mask) s)) ↔ True := by
    intro mask
    rw [safe_ok_iff, within_push_iff within, Cidr.Within, (whole mask).1, (whole mask).2]
    exact iff_true_intro (Nat.le_refl 32)
  exact (safe_hostMask_iff after fits).trans (and_iff_left trivial)

theorem networkBytes_ok {length : UInt32} (within : length.toNat ≤ 128) {x : List UInt8}
    (size : x.length = 16) : ∃ masked, networkBytes length x = .ok masked := by
  by_cases positive : 1 ≤ length.toNat
  · exact ⟨_, networkBytes_eq size positive within⟩
  · obtain rfl : length = 0 := UInt32.toNat_inj.mp (Nat.lt_one_iff.mp (Nat.lt_of_not_le positive))
    have cleared := clearBytes_eq size (Nat.le_refl 16)
    refine ⟨x.take 0 ++ List.replicate 16 0, ?_⟩
    unfold networkBytes
    dsimp only
    change (clearBytes 16 x >>= fun cleared => _) = _
    rw [cleared]
    rfl

theorem safe_network6 (within : s.Within) (six : a.family = .inet6) (fits : a.Within) :
    Safe (cidrNetwork6 a s) := by
  have bound : a.prefixLength.toNat ≤ 128 := by
    rw [Cidr.Within, six] at fits
    exact fits
  obtain ⟨masked, done⟩ := networkBytes_ok bound a.addr.size
  unfold cidrNetwork6
  split
  · rename_i fault failed
    rw [done] at failed
    cases failed
  · rw [safe_ok_iff, within_push_iff within]
    exact fits

theorem safe_pop (within : s.Within) : Safe (cidrPop a s) := by
  unfold cidrPop
  split
  · exact ⟨_, _, rfl, within⟩
  · rename_i rest stack
    refine ⟨_, _, rfl, within.tail ?_⟩
    rw [stack]
    rfl

theorem safe_print4 (within : s.Within) : Safe (cidrPrint4 a s) := by
  unfold cidrPrint4
  split
  · exact ⟨_, _, rfl, within⟩
  · refine ⟨_, _, rfl, within.tail ?_⟩
    dsimp only
    split <;> simp only [stack_qprintf, stack_separate]

theorem safe_print6 (within : s.Within) : Safe (cidrPrint6 a s) := by
  unfold cidrPrint6
  split
  · exact ⟨_, _, rfl, within⟩
  · refine ⟨_, _, rfl, within.tail ?_⟩
    dsimp only
    split <;> simp only [stack_qprintf, stack_separate]

theorem safe_answer (within : s.Within) (yes : Bool) : Safe (.ok (answer yes s)) :=
  ⟨_, _, rfl, within.of_stack (stack_answer yes s)⟩

/-- Where the operations without an argument are safe. -/
theorem safe_unary_iff {operation : Operation} {function : Cidr → State → Result}
    (entry : operation.a1 order a.family = some function) (within : s.Within) (fits : a.Within) :
    Safe (function a s) ↔ operation.FitsUnary a := by
  unfold Operation.FitsUnary
  cases family : a.family with
  | inet =>
      rw [family] at entry
      cases operation <;> cases entry
      case inet.network.refl => exact safe_mask4_iff within family fits fun _ => ⟨family, rfl⟩
      case inet.broadcast.refl => exact safe_mask4_iff within family fits fun _ => ⟨family, rfl⟩
      case inet.netmask.refl => exact safe_mask4_iff within family fits fun _ => ⟨family, rfl⟩
      case inet.sixToFour.refl =>
        refine iff_true_intro (safe_ok_iff.mpr ((within_push_iff within).mpr ?_))
        exact (by decide : 48 ≤ 128)
      case inet.isPrivate.refl => exact iff_true_intro (safe_answer within _)
      case inet.linklocal.refl => exact iff_true_intro (safe_answer within _)
      case inet.quiet.refl => exact iff_true_intro (safe_ok_iff.mpr (within.of_stack rfl))
      case inet.pop.refl => exact iff_true_intro (safe_pop within)
      case inet.print.refl => exact iff_true_intro (safe_print4 within)
  | inet6 =>
      rw [family] at entry
      cases operation <;> cases entry
      case inet6.network.refl => exact iff_true_intro (safe_network6 within family fits)
      case inet6.linklocal.refl => exact iff_true_intro (safe_answer within _)
      case inet6.ula.refl => exact iff_true_intro (safe_answer within _)
      case inet6.quiet.refl => exact iff_true_intro (safe_ok_iff.mpr (within.of_stack rfl))
      case inet6.pop.refl => exact iff_true_intro (safe_pop within)
      case inet6.print.refl => exact iff_true_intro (safe_print6 within)

end Unary

section Binary

/-- `cidr_next4` and `cidr_prev4`. -/
theorem safe_step4_iff {result : UInt32 → Cidr} (within : s.Within)
    (taken : ∀ step, (result step).family = .inet ∧ (result step).prefixLength = b.prefixLength) :
    Safe (do return (true, cidrPush (result (← shiftOne (32 - b.prefixLength))) s)) ↔
      1 ≤ b.prefixLength.toNat ∧ b.prefixLength.toNat ≤ 32 := by
  have after : ∀ step, Safe (.ok (true, cidrPush (result step) s)) ↔
      b.prefixLength.toNat ≤ 32 := by
    intro step
    rw [safe_ok_iff, within_push_iff within, Cidr.Within, (taken step).1, (taken step).2]
    rfl
  refine (safe_shiftOne_iff after).trans ?_
  rw [toNat_host_lt_iff, and_assoc, and_self]

theorem ripple_outside {digit : UInt8 → UInt8 → UInt8 → UInt8 × UInt8} {x y : List UInt8}
    {index : Nat} (size : x.length = 16) (outside : 16 ≤ index) (carry : UInt8) :
    ripple digit y index x carry = .error .index := by
  obtain ⟨before, rfl⟩ := Nat.exists_eq_add_of_le' (Nat.le_trans Nat.one_le_ofNat outside)
  unfold ripple
  rw [List.getElem?_eq_none (by omega)]

theorem toNat_startByte (nonzero : b.prefixLength ≠ 0) :
    ((b.prefixLength - 1) / 8).toNat % 256 = startByte b := by
  have one : (1 : UInt32).toNat = 1 := rfl
  have positive : 1 ≤ b.prefixLength.toNat := by
    have differs : b.prefixLength.toNat ≠ 0 := fun zero => nonzero (UInt32.toNat_inj.mp zero)
    omega
  have less : (b.prefixLength - 1).toNat = b.prefixLength.toNat - 1 :=
    UInt32.toNat_sub_of_le _ _ (UInt32.le_iff_toNat_le.mpr (one.trans_le positive))
  have eight : (8 : UInt32).toNat = 8 := rfl
  unfold startByte
  rw [UInt32.toNat_div, less, eight]

/-- A step that starts behind the last byte leaves the address. -/
theorem cidrStep6_outside {digit : UInt8 → UInt8 → UInt8 → UInt8 × UInt8}
    (nonzero : b.prefixLength ≠ 0) (outside : 16 ≤ startByte b) :
    cidrStep6 digit a b s = .error .index := by
  have failed : rippleAddr digit (List.replicate 16 0) (startByte b) a.addr 1 = .error .index := by
    unfold rippleAddr
    split
    · rename_i fault failed
      rw [ripple_outside a.addr.size outside] at failed
      cases failed
      rfl
    · rename_i result done
      rw [ripple_outside a.addr.size outside] at done
      cases done
  unfold cidrStep6
  rw [if_neg nonzero]
  dsimp only
  rw [toNat_startByte nonzero, failed]
  rfl

/-- `cidr_next6` and `cidr_prev6`: the prefix of the argument is kept unless a carry is left. -/
theorem safe_step6_iff {digit : UInt8 → UInt8 → UInt8 → UInt8 × UInt8} {sign : Int}
    {Leaves : Prop} (balanced : Balanced digit sign) (within : s.Within) (six : a.family = .inet6)
    (fits : a.Within)
    (leaves : ∀ (addr : In6) (carry : Nat), carry ≤ 1 →
      (addr.value : Int) + sign * 2 ^ 128 * carry =
        a.addr.value + sign * (2 ^ (8 * (15 - startByte b)) : Nat) → (carry ≠ 0 ↔ Leaves)) :
    Safe (cidrStep6 digit a b s) ↔
      b.prefixLength.toNat ≤ 128 ∨ startByte b < 16 ∧ Leaves := by
  by_cases zero : b.prefixLength = 0
  · unfold cidrStep6
    rw [if_pos zero, safe_ok_iff, within_push_iff within, zero]
    exact ⟨fun _ => .inl (Nat.zero_le 128), fun _ => fits⟩
  · by_cases inside : startByte b < 16
    · obtain ⟨addr, carry, small, total, done⟩ :=
        @cidrStep6_at a b _ _ _ balanced zero (toNat_startByte zero) inside s
      have left := leaves addr carry small total
      rw [done]
      by_cases none : carry = 0
      · rw [if_pos none, safe_ok_iff, within_push_iff within, Cidr.Within, six]
        have stays : ¬ Leaves := fun holds => (left.mpr holds) none
        exact ⟨.inl, fun either => either.resolve_right fun both => stays both.2⟩
      · rw [if_neg none, safe_ok_iff, within_push_iff within]
        exact ⟨fun _ => .inr ⟨inside, left.mp none⟩, fun _ => fits⟩
    · have faults := @cidrStep6_outside a b s digit zero (Nat.le_of_not_lt inside)
      have long : ¬ b.prefixLength.toNat ≤ 128 := by
        unfold startByte at inside
        omega
      rw [faults]
      exact ⟨fun safe => absurd safe not_safe_error,
        fun either => absurd (either.resolve_left long).1 inside⟩

/-- The loop stays in the bytes of both addresses. -/
theorem ripple_inside {digit : UInt8 → UInt8 → UInt8 → UInt8 × UInt8} {x y : List UInt8}
    {index : Nat} (size : x.length = 16) (size' : y.length = 16) (inside : index < 16)
    (carry : UInt8) : ∃ result, ripple digit y index x carry = .ok result := by
  have there : index < x.length := by omega
  have there' : index < y.length := by omega
  induction index generalizing x carry with
  | zero =>
      unfold ripple
      rw [List.getElem?_eq_getElem there, List.getElem?_eq_getElem there']
      exact ⟨_, rfl⟩
  | succ index ih =>
      unfold ripple
      rw [List.getElem?_eq_getElem there, List.getElem?_eq_getElem there']
      exact ih (List.length_set.trans size) (by omega) _ (by rw [List.length_set]; omega) (by omega)

theorem safe_sum6 {digit : UInt8 → UInt8 → UInt8 → UInt8 × UInt8} (within : s.Within)
    (fits : a.Within) : Safe (cidrSum6 digit a b s) := by
  unfold cidrSum6
  split
  · exact safe_ok_iff.mpr ((within_push_iff within).mpr fits)
  · obtain ⟨result, done⟩ := @ripple_inside digit _ _ 15 a.addr.size b.addr.size (by decide) 0
    unfold rippleAddr
    split
    · rename_i fault failed
      rw [done] at failed
      cases failed
    · exact safe_ok_iff.mpr ((within_push_iff within).mpr fits)

theorem safe_howmany_iff (within : s.Within) :
    Safe (cidrHowmany a b s) ↔ b.prefixLength.toNat < a.prefixLength.toNat + 32 := by
  unfold cidrHowmany
  by_cases shorter : b.prefixLength < a.prefixLength
  · have less := UInt32.lt_iff_toNat_lt.mp shorter
    rw [if_pos shorter, safe_ok_iff]
    exact ⟨fun _ => by omega, fun _ => within.of_stack (stack_separate s)⟩
  · have most := Nat.le_of_not_lt (mt UInt32.lt_iff_toNat_lt.mpr shorter)
    have difference := toNat_sub_prefix most
    have after : ∀ count, Safe (.ok (true, qprintf (.amount count) (separate s))) ↔ True :=
      fun count => iff_true_intro (safe_ok_iff.mpr (within.of_stack (stack_separate s)))
    rw [if_neg shorter]
    refine (safe_shiftOne_iff after).trans ?_
    rw [difference, and_iff_left trivial]
    omega

theorem safe_contains4_iff (within : s.Within) (four : a.family = .inet) (fits : a.Within) :
    Safe (cidrContains4 order a b s) ↔ 1 ≤ a.prefixLength.toNat := by
  rw [Cidr.Within, four] at fits
  have after : ∀ yes : UInt32 → Bool, ∀ mask, Safe (.ok (answer (yes mask) s)) ↔ True :=
    fun yes mask => iff_true_intro (safe_answer within _)
  exact (safe_hostMask_iff (after _) fits).trans (and_iff_left trivial)

theorem safe_contains6_iff (within : s.Within) (six : a.family = .inet6)
    (six' : b.family = .inet6) (fits : a.Within) :
    Safe (cidrContains6 a b s) ↔ 1 ≤ a.prefixLength.toNat := by
  by_cases positive : 1 ≤ a.prefixLength.toNat
  · obtain ⟨yes, done, -⟩ := contains6_answer six six' ⟨positive, fits⟩ s
    rw [done]
    exact iff_of_true (safe_answer ((within_push_iff within).mpr fits) yes) positive
  · have zero : a.prefixLength = 0 :=
      UInt32.toNat_inj.mp (Nat.lt_one_iff.mp (Nat.lt_of_not_le positive))
    have faults : cidrContains6 a b s = .error .index := by
      unfold cidrContains6
      rw [zero]
      rfl
    rw [faults]
    exact iff_of_false not_safe_error positive

theorem safe_prefix_iff (within : s.Within) :
    Safe (cidrPrefix a b s) ↔ b.prefixLength.toNat ≤ a.family.width := by
  rw [cidrPrefix, safe_ok_iff]
  constructor
  · intro all
    exact all _ (List.mem_cons_self ..)
  · intro short c member
    rcases List.mem_cons.mp member with rfl | old
    · exact short
    · exact within c (List.mem_of_mem_tail old)

theorem safe_add4 (within : s.Within) (fits : a.Within) : Safe (cidrAdd4 order a b s) := by
  unfold cidrAdd4
  dsimp only
  split
  · exact safe_ok_iff.mpr ((within_push_iff within).mpr fits)
  · split <;> exact safe_ok_iff.mpr ((within_push_iff within).mpr fits)

theorem safe_sub4 (within : s.Within) (fits : a.Within) : Safe (cidrSub4 order a b s) := by
  unfold cidrSub4
  dsimp only
  split
  · exact safe_ok_iff.mpr ((within_push_iff within).mpr fits)
  · split <;> exact safe_ok_iff.mpr ((within_push_iff within).mpr fits)

/-- Where the operations with an argument are safe. -/
theorem safe_binary_iff {operation : Operation} {function : Cidr → Cidr → State → Result}
    (entry : operation.a2 order a.family = some function) (same : b.family = a.family)
    (within : s.Within) (fits : a.Within) :
    Safe (function a b s) ↔ operation.FitsBinary a b := by
  unfold Operation.FitsBinary
  cases family : a.family with
  | inet =>
      rw [family] at entry
      cases operation <;> cases entry
      case inet.add.refl => exact iff_true_intro (safe_add4 within fits)
      case inet.sub.refl => exact iff_true_intro (safe_sub4 within fits)
      case inet.next.refl => exact safe_step4_iff within fun _ => ⟨family, rfl⟩
      case inet.prev.refl => exact safe_step4_iff within fun _ => ⟨family, rfl⟩
      case inet.setPrefix.refl =>
        rw [← family]
        exact safe_prefix_iff within
      case inet.howmany.refl => exact safe_howmany_iff within
      case inet.contains.refl => exact safe_contains4_iff within family fits
  | inet6 =>
      rw [family] at entry
      have value : a.value = a.addr.value := Cidr.value_v6 family
      cases operation <;> cases entry
      case inet6.add.refl => exact iff_true_intro (safe_sum6 within fits)
      case inet6.sub.refl => exact iff_true_intro (safe_sum6 within fits)
      case inet6.next.refl =>
        refine safe_step6_iff balancedSum_addDigit.balanced within family fits ?_
        intro addr carry small total
        have bound := addr.value_lt
        omega
      case inet6.prev.refl =>
        refine safe_step6_iff balancedSum_subDigit.balanced within family fits ?_
        intro addr carry small total
        have bound := addr.value_lt
        omega
      case inet6.setPrefix.refl =>
        rw [← family]
        exact safe_prefix_iff within
      case inet6.howmany.refl => exact safe_howmany_iff within
      case inet6.contains.refl => exact safe_contains6_iff within family (same.trans family) fits

end Binary

/-- A call of `runop` is defined, and leaves no prefix that is too long. -/
def SafeRound (outcome : Except Fault (Round Config Ending)) : Prop :=
  ∃ round, outcome = .ok round ∧ ∀ next, round = .again next → next.state.Within

theorem safeRound_done (ending : Ending) : SafeRound (.ok (.done ending)) := by
  refine ⟨_, rfl, ?_⟩
  intro next same
  cases same

theorem not_safeRound_error {fault : Fault} : ¬ SafeRound (.error fault) := by
  rintro ⟨round, failed, -⟩
  cases failed

theorem safeRound_called_iff {args : List (List UInt8)} {result : Result} :
    SafeRound (called args result) ↔ Safe result := by
  constructor
  · rintro ⟨round, done, kept⟩
    cases result with
    | error fault => cases done
    | ok outcome =>
        obtain rfl := Except.ok.inj done
        exact ⟨_, _, rfl, kept _ rfl⟩
  · rintro ⟨success, after, rfl, within⟩
    refine ⟨_, rfl, ?_⟩
    intro next same
    cases same
    exact within

theorem family_cidrParse {text : List UInt8} {family : Family}
    (parsed : cidrParse host text family = .parsed b) : b.family = family := by
  unfold cidrParse at parsed
  split at parsed
  · cases parsed
    rfl
  · split at parsed
    · cases parsed
    · split at parsed
      · cases parsed
        assumption
      · cases parsed

/-- The operations with an argument are there for both families. -/
theorem exists_a2 {operation : Operation} (binary : operation.binary order = true)
    (family : Family) : ∃ function, operation.a2 order family = some function := by
  cases family <;> cases operation <;> first | exact ⟨_, rfl⟩ | cases binary

theorem fitsUnary_of_none {operation : Operation} (unary : ¬ operation.binary order = true)
    (missing : operation.a1 order a.family = none) : operation.FitsUnary a := by
  unfold Operation.FitsUnary
  cases family : a.family with
  | inet =>
      rw [family] at missing
      cases operation <;> trivial
  | inet6 =>
      rw [family] at missing
      cases operation <;> trivial

/-- A call of `runop` is safe exactly where it fits. -/
theorem safeRound_runop_iff (within : config.state.Within) :
    SafeRound (runop host config) ↔ Fits host config := by
  unfold runop Fits
  cases args : config.args with
  | nil => exact iff_true_intro (safeRound_done _)
  | cons word rest =>
      dsimp only
      cases found : findOp word with
      | none => exact iff_true_intro (safeRound_done _)
      | some operation =>
          dsimp only
          by_cases binary : operation.binary host.order = true
          · rw [if_pos binary, if_pos binary]
            cases rest with
            | nil => exact iff_true_intro (safeRound_done _)
            | cons argument rest =>
                unfold runBinary top
                cases stack : config.state.stack with
                | nil => exact iff_of_false not_safeRound_error id
                | cons a below =>
                    have fits : a.Within := within a (stack ▸ List.mem_cons_self ..)
                    obtain ⟨function, entry⟩ := exists_a2 binary a.family
                    dsimp only [bind, Except.bind]
                    cases parsed : cidrParse host argument a.family with
                    | invalid => exact iff_true_intro (safeRound_done _)
                    | mismatch => exact iff_true_intro (safeRound_done _)
                    | parsed b =>
                        dsimp only
                        rw [entry]
                        exact safeRound_called_iff.trans
                          (safe_binary_iff entry (family_cidrParse parsed) within fits)
          · rw [if_neg binary, if_neg binary]
            unfold runUnary top
            cases stack : config.state.stack with
            | nil => exact iff_of_false not_safeRound_error id
            | cons a below =>
                have fits : a.Within := within a (stack ▸ List.mem_cons_self ..)
                dsimp only [bind, Except.bind]
                cases entry : operation.a1 host.order a.family with
                | none => exact iff_of_true (safeRound_done _) (fitsUnary_of_none binary entry)
                | some function =>
                    exact safeRound_called_iff.trans (safe_unary_iff entry within fits)

theorem args_called {args : List (List UInt8)} {result : Result}
    (round : called args result = .ok (.again next)) : next.args = args := by
  cases result with
  | error fault => cases round
  | ok outcome =>
      obtain rfl := Round.again.inj (Except.ok.inj round)
      rfl

/-- A call of `runop` that returns true takes a word, or two. -/
theorem args_runop_lt (round : runop host config = .ok (.again next)) :
    next.args.length < config.args.length := by
  unfold runop at round
  cases args : config.args with
  | nil =>
      rw [args] at round
      cases round
  | cons word rest =>
      rw [args] at round
      dsimp only at round
      cases found : findOp word with
      | none =>
          rw [found] at round
          cases round
      | some operation =>
          rw [found] at round
          dsimp only at round
          split at round
          · cases rest with
            | nil => cases round
            | cons argument rest =>
                dsimp only at round
                unfold runBinary at round
                cases topmost : top config.state with
                | error fault =>
                    rw [topmost] at round
                    cases round
                | ok a =>
                    rw [topmost] at round
                    dsimp only [bind, Except.bind] at round
                    split at round
                    · cases round
                    · cases round
                    · split at round
                      · cases round
                      · rw [args_called round, List.length_cons, List.length_cons]
                        omega
          · unfold runUnary at round
            cases topmost : top config.state with
            | error fault =>
                rw [topmost] at round
                cases round
            | ok a =>
                rw [topmost] at round
                dsimp only [bind, Except.bind] at round
                split at round
                · cases round
                · rw [args_called round, List.length_cons]
                  omega

theorem runop_shrinks (host : Host) :
    Shrinks (runop host) (fun config => config.args.length + 1) .null where
  smaller _ _ round := Nat.succ_lt_succ (args_runop_lt round)
  empty _ zero := absurd zero (Nat.succ_ne_zero _)

theorem toNat_countBits_le {count mask : UInt32} {bits : Nat} (small : mask.toNat < 2 ^ bits)
    (room : count.toNat + bits < 2 ^ 32) :
    (countBits count mask).toNat ≤ count.toNat + bits := by
  induction bits generalizing count mask with
  | zero =>
      obtain rfl : mask = 0 := UInt32.toNat_inj.mp (Nat.lt_one_iff.mp small)
      rw [countBits, if_pos rfl]
      exact Nat.le_refl _
  | succ bits ih =>
      rw [countBits]
      split
      · omega
      · have half : (mask >>> 1).toNat = mask.toNat / 2 := by
          rw [UInt32.toNat_shiftRight]
          rfl
        have last : (mask &&& 1).toNat ≤ 1 := by
          rw [UInt32.toNat_and]
          exact Nat.and_le_right
        have sum : (count + (mask &&& 1)).toNat = count.toNat + (mask &&& 1).toNat := by
          rw [UInt32.toNat_add, Nat.mod_eq_of_lt (by omega)]
        have rest := @ih (count + (mask &&& 1)) (mask >>> 1)
          (by rw [half]; rw [Nat.pow_succ] at small; omega) (by omega)
        omega

theorem toNat_decimalPrefix_le {limit length : UInt32} {text : List UInt8}
    (parsed : decimalPrefix host limit text = some length) : length.toNat ≤ limit.toNat := by
  unfold decimalPrefix at parsed
  cases value : strtoulDecimal host.long text with
  | none =>
      rw [value] at parsed
      cases parsed
  | some number =>
      rw [value] at parsed
      change (if UInt32.ofNat number > limit then none else some (UInt32.ofNat number)) = _ at parsed
      split at parsed
      · cases parsed
      · rename_i small
        cases parsed
        exact Nat.le_of_not_lt (mt UInt32.lt_iff_toNat_lt.mpr small)

theorem toNat_parsePrefix4_le {text : List UInt8} {length : UInt32}
    (parsed : parsePrefix4 host text = some length) : length.toNat ≤ 32 := by
  unfold parsePrefix4 at parsed
  split at parsed
  · cases parsed
    exact Nat.le_refl 32
  · split at parsed
    · obtain ⟨mask, -, rfl⟩ := Option.map_eq_some_iff.mp parsed
      have counted := @toNat_countBits_le 0 (mask.sAddr host.order) 32 (UInt32.toNat_lt _) (by decide)
      exact counted.trans (by decide)
    · exact toNat_decimalPrefix_le parsed

theorem toNat_parsePrefix6_le {text : List UInt8} {length : UInt32}
    (parsed : parsePrefix6 host text = some length) : length.toNat ≤ 128 := by
  unfold parsePrefix6 at parsed
  split at parsed
  · cases parsed
    exact Nat.le_refl 128
  · exact toNat_decimalPrefix_le parsed

/-- The parsers check the prefix against the width of the family. -/
theorem within_parseAddress {text : List UInt8} (parsed : parseAddress host text = some a) :
    a.Within := by
  unfold parseAddress at parsed
  split at parsed
  · unfold cidrParse6 at parsed
    split at parsed
    · cases parsed
    · obtain ⟨length, checked, later⟩ := Option.bind_eq_some_iff.mp parsed
      obtain ⟨addr, -, made⟩ := Option.bind_eq_some_iff.mp later
      obtain rfl := Option.some.inj made
      exact toNat_parsePrefix6_le checked
  · unfold cidrParse4 at parsed
    split at parsed
    · cases parsed
    · obtain ⟨length, checked, later⟩ := Option.bind_eq_some_iff.mp parsed
      obtain ⟨addr, -, made⟩ := Option.bind_eq_some_iff.mp later
      obtain rfl := Option.some.inj made
      exact toNat_parsePrefix4_le checked

/-- A run comes to an end without a fault, and no prefix is ever longer than its address. -/
def Total (host : Host) (config : Config) : Prop :=
  (∃ ending, runOps host config = .ok ending) ∧
    ∀ reached, Reaches (runop host) config reached → reached.state.Within

/-- A run on a command line is total exactly if every call of `runop` that it comes to fits. -/
theorem runOps_total_iff (host : Host) {base : List UInt8} {a : Cidr}
    (accepted : parseAddress host base = some a) (args : List (List UInt8)) :
    Total host (.start args a) ↔
      ∀ reached, Reaches (runop host) (.start args a) reached → Fits host reached := by
  unfold Total runOps
  rw [exists_loop_ok_iff (runop_shrinks host)]
  constructor
  · intro total reached path
    obtain ⟨round, done⟩ := total.1 reached path
    rw [← safeRound_runop_iff (total.2 reached path)]
    refine ⟨round, done, ?_⟩
    rintro next rfl
    exact total.2 next (path.again done)
  · intro fits
    have within : ∀ reached, Reaches (runop host) (.start args a) reached → reached.state.Within := by
      intro reached path
      induction path with
      | start =>
          intro c member
          obtain rfl := List.mem_singleton.mp member
          exact within_parseAddress accepted
      | @again before next path done within =>
          obtain ⟨round, done', kept⟩ := (safeRound_runop_iff within).mpr (fits before path)
          rw [done] at done'
          exact kept next (Except.ok.inj done').symm
    refine ⟨?_, within⟩
    intro reached path
    obtain ⟨round, done, -⟩ := (safeRound_runop_iff (within reached path)).mpr (fits reached path)
    exact ⟨round, done⟩

/-- A machine whose `inet_pton` is asked for 10.0.0.1 only. -/
def tenHost : Host where
  order := .little
  long := 32
  inetPton4 text := if text = "10.0.0.1".toList.map ascii then some (cidr4 10 0 0 1 32).v4 else none
  inetPton6 _ := none

/-- `owipcalc 10.0.0.1/24 network` fits. -/
theorem runOps_total_network :
    Total tenHost (.start ["network".toList.map ascii] (cidr4 10 0 0 1 24)) := by
  refine (@runOps_total_iff tenHost ("10.0.0.1/24".toList.map ascii) (cidr4 10 0 0 1 24) (by rfl)
    ["network".toList.map ascii]).mpr ?_
  intro reached path
  have either : reached = .start ["network".toList.map ascii] (cidr4 10 0 0 1 24) ∨
      reached.args = [] := by
    induction path with
    | start => exact .inl rfl
    | again _ round before =>
        have fewer := args_runop_lt round
        rcases before with first | none
        · rw [first] at fewer
          exact .inr (List.eq_nil_of_length_eq_zero (Nat.lt_one_iff.mp fewer))
        · rw [none] at fewer
          exact absurd fewer (Nat.not_lt_zero _)
  rcases either with rfl | none
  · exact (by decide : 1 ≤ (24 : UInt32).toNat)
  · rw [Fits, none]
    trivial

/-- `owipcalc 10.0.0.1 pop network` reads the empty stack. -/
theorem not_total_pop :
    parseAddress tenHost ("10.0.0.1".toList.map ascii) = some (cidr4 10 0 0 1 32) ∧
    runOps tenHost (.start ["pop".toList.map ascii, "network".toList.map ascii]
      (cidr4 10 0 0 1 32)) = .error .null ∧
    ¬ Total tenHost (.start ["pop".toList.map ascii, "network".toList.map ascii]
      (cidr4 10 0 0 1 32)) := by
  have failed : runOps tenHost (.start ["pop".toList.map ascii, "network".toList.map ascii]
      (cidr4 10 0 0 1 32)) = .error .null := by rfl
  refine ⟨by rfl, failed, ?_⟩
  rintro ⟨⟨ending, done⟩, -⟩
  rw [failed] at done
  cases done

end Trunk.Owip
