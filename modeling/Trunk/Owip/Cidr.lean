import Trunk.Utils.CString
import Trunk.Utils.Inet

/-! # The IP calculator

The model of `owipcalc.c`: a stack of addresses with prefix lengths, the operations on the topmost
one, and the loop over the words of the command line. A read of the empty stack, a shift by the
width of a word, and an access outside the bytes of an address are faults.

The machine has words of 32 bits, in one of the two byte orders. `inet_pton` is a parameter. What is
printed is kept as tokens, and memory is always allocated; the texts of the usage and of errors are
left out.
-/

namespace Trunk.Owip

open CString Network Inet

/-- What C does not define. -/
inductive Fault where
  | null
  | shift
  | index
  deriving DecidableEq, Repr

/-- `AF_INET` and `AF_INET6`. -/
inductive Family where
  | inet
  | inet6
  deriving DecidableEq, Repr

/-- The width of the addresses of a family. -/
def Family.width : Family → Nat
  | .inet => 32
  | .inet6 => 128

/-- `struct cidr`. The union of the addresses is the block of the longer one. -/
structure Cidr where
  family : Family
  prefixLength : UInt32
  addr : In6
  deriving DecidableEq, Repr

theorem length_take_four (addr : In6) : (addr.bytes.take 4).length = 4 := by
  rw [List.length_take, addr.size]
  rfl

theorem length_replace_four (front : In4) (addr : In6) :
    (front.bytes ++ addr.bytes.drop 4).length = 16 := by
  rw [List.length_append, List.length_drop, front.size, addr.size]

/-- `addr.v4`. -/
def Cidr.v4 (a : Cidr) : In4 := ⟨a.addr.bytes.take 4, length_take_four a.addr⟩

/-- `addr.v4` is written. -/
def Cidr.setV4 (a : Cidr) (front : In4) : Cidr :=
  { a with addr := ⟨front.bytes ++ a.addr.bytes.drop 4, length_replace_four front a.addr⟩ }

/-- What is printed. -/
inductive Token where
  | blank
  | answer (yes : Bool)
  | amount (count : UInt32)
  | address (family : Family) (addr : In6)
  | mask (prefixLength : UInt32)
  deriving DecidableEq, Repr

/-- The variables of the program. -/
structure State where
  stack : List Cidr
  quiet : Bool
  printed : Bool
  out : List Token
  deriving DecidableEq, Repr

/-- What an operation returns, and the state that it leaves. -/
abbrev Result := Except Fault (Bool × State)

/-- `qprintf`. -/
def qprintf (token : Token) (s : State) : State :=
  { s with out := if s.quiet then s.out else s.out ++ [token], printed := true }

/-- A blank stands between two results. -/
def separate (s : State) : State := if s.printed then qprintf .blank s else s

/-- `1` or `0` is printed, and returned. -/
def answer (yes : Bool) (s : State) : Bool × State := (yes, qprintf (.answer yes) (separate s))

/-- `cidr_push`. -/
def cidrPush (a : Cidr) (s : State) : State := { s with stack := a :: s.stack }

/-- `cidr_pop`. -/
def cidrPop (_ : Cidr) (s : State) : Result :=
  match s.stack with
  | [] => .ok (false, s)
  | _ :: rest => .ok (true, { s with stack := rest })

/-- `1 << count`. -/
def shiftOne (count : UInt32) : Except Fault UInt32 :=
  if count < 32 then .ok (1 <<< count) else .error .shift

/-- `(1 << (32 - prefix)) - 1`. -/
def hostMask (prefixLength : UInt32) : Except Fault UInt32 := do
  return (← shiftOne (32 - prefixLength)) - 1

section Four

variable (order : ByteOrder)

/-- `cidr_add4`. -/
def cidrAdd4 (a b : Cidr) (s : State) : Result :=
  let x := ntohl order (a.v4.sAddr order)
  let y := ntohl order (b.v4.sAddr order)
  if a.family ≠ .inet ∨ b.family ≠ .inet then .ok (false, cidrPush a s)
  else if x + y < x then .ok (false, cidrPush a s)
  else .ok (true, cidrPush (a.setV4 (.ofSAddr order (htonl order (x + y)))) s)

/-- `cidr_sub4`. -/
def cidrSub4 (a b : Cidr) (s : State) : Result :=
  let x := ntohl order (a.v4.sAddr order)
  let y := ntohl order (b.v4.sAddr order)
  if a.family ≠ .inet ∨ b.family ≠ .inet then .ok (false, cidrPush a s)
  else if x - y > x then .ok (false, cidrPush a s)
  else .ok (true, cidrPush (a.setV4 (.ofSAddr order (htonl order (x - y)))) s)

/-- `cidr_network4`. -/
def cidrNetwork4 (a : Cidr) (s : State) : Result := do
  let mask ← hostMask a.prefixLength
  let n := a.setV4 (.ofSAddr order (a.v4.sAddr order &&& htonl order (~~~ mask)))
  return (true, cidrPush { n with prefixLength := 32 } s)

/-- `cidr_broadcast4`. -/
def cidrBroadcast4 (a : Cidr) (s : State) : Result := do
  let mask ← hostMask a.prefixLength
  let n := a.setV4 (.ofSAddr order (a.v4.sAddr order ||| htonl order mask))
  return (true, cidrPush { n with prefixLength := 32 } s)

/-- `cidr_contains4`. -/
def cidrContains4 (a b : Cidr) (s : State) : Result := do
  let mask ← hostMask a.prefixLength
  let net1 := a.v4.sAddr order &&& htonl order (~~~ mask)
  let net2 := b.v4.sAddr order &&& htonl order (~~~ mask)
  return answer (a.prefixLength ≤ b.prefixLength ∧ net1 = net2) s

/-- `cidr_netmask4`. -/
def cidrNetmask4 (a : Cidr) (s : State) : Result := do
  let mask ← hostMask a.prefixLength
  let n := a.setV4 (.ofSAddr order (htonl order (~~~ mask)))
  return (true, cidrPush { n with prefixLength := 32 } s)

/-- `cidr_private4`. -/
def cidrPrivate4 (a : Cidr) (s : State) : Result :=
  let x := ntohl order (a.v4.sAddr order)
  .ok (answer ((0x0A000000 ≤ x ∧ x ≤ 0x0AFFFFFF) ∨ (0xAC100000 ≤ x ∧ x ≤ 0xAC1FFFFF) ∨
    (0xC0A80000 ≤ x ∧ x ≤ 0xC0A8FFFF)) s)

/-- `cidr_linklocal4`. -/
def cidrLinklocal4 (a : Cidr) (s : State) : Result :=
  let x := ntohl order (a.v4.sAddr order)
  .ok (answer (0xA9FE0000 ≤ x ∧ x ≤ 0xA9FEFFFF) s)

/-- `cidr_prev4`. -/
def cidrPrev4 (a b : Cidr) (s : State) : Result := do
  let step ← shiftOne (32 - b.prefixLength)
  let n := a.setV4 (.ofSAddr order (a.v4.sAddr order - htonl order step))
  return (true, cidrPush { n with prefixLength := b.prefixLength } s)

/-- `cidr_next4`. -/
def cidrNext4 (a b : Cidr) (s : State) : Result := do
  let step ← shiftOne (32 - b.prefixLength)
  let n := a.setV4 (.ofSAddr order (a.v4.sAddr order + htonl order step))
  return (true, cidrPush { n with prefixLength := b.prefixLength } s)

theorem length_6to4 (first second third fourth : UInt8) :
    ([0x20, 0x02, first, second, third, fourth] ++ List.replicate 10 0).length = 16 := rfl

/-- `cidr_6to4`. -/
def cidr6to4 (a : Cidr) (s : State) : Result :=
  let x := a.v4.sAddr order
  let addr : In6 := ⟨[(0x20 : UInt8), 0x02, (x >>> 24).toUInt8, (x >>> 16).toUInt8, (x >>> 8).toUInt8,
    x.toUInt8] ++ List.replicate 10 0, length_6to4 ..⟩
  .ok (true, cidrPush { family := .inet6, prefixLength := 48, addr := addr } s)

end Four

/-- `cidr_print4`. -/
def cidrPrint4 (a : Cidr) (s : State) : Result :=
  if a.family ≠ .inet then .ok (false, s)
  else
    let shown := qprintf (.address .inet a.addr) (separate s)
    let shown := if a.prefixLength < 32 then qprintf (.mask a.prefixLength) shown else shown
    .ok (true, { shown with stack := shown.stack.tail })

/-- A byte of an address, counted from its end. -/
def place (back : Nat) : Except Fault Nat := if back ≤ 15 then .ok (15 - back) else .error .index

/-- A digit of a sum, with a carry. -/
def addDigit (x y carry : UInt8) : UInt8 × UInt8 :=
  (x + (y + carry), if x.toNat + y.toNat + carry.toNat ≥ 256 then 1 else 0)

/-- A digit of a difference, with a carry. -/
def subDigit (x y carry : UInt8) : UInt8 × UInt8 :=
  (x - (y + carry), if (x.toNat : Int) - y.toNat - carry.toNat < 0 then 1 else 0)

/-- The loop from a byte of an address to the first one, with the carry that it leaves. -/
def ripple (digit : UInt8 → UInt8 → UInt8 → UInt8 × UInt8) (y : List UInt8) :
    Nat → List UInt8 → UInt8 → Except Fault (List UInt8 × UInt8)
  | 0, x, carry =>
      match x[0]?, y[0]? with
      | some byte, some other =>
          let sum := digit byte other carry
          .ok (x.set 0 sum.1, sum.2)
      | _, _ => .error .index
  | idx + 1, x, carry =>
      match x[idx + 1]?, y[idx + 1]? with
      | some byte, some other =>
          let sum := digit byte other carry
          ripple digit y idx (x.set (idx + 1) sum.1) sum.2
      | _, _ => .error .index

theorem length_ripple {digit : UInt8 → UInt8 → UInt8 → UInt8 × UInt8} {y : List UInt8} {idx : Nat}
    {x : List UInt8} {carry : UInt8} {result : List UInt8 × UInt8}
    (done : ripple digit y idx x carry = .ok result) : result.1.length = x.length := by
  induction idx generalizing x carry with
  | zero =>
      unfold ripple at done
      split at done
      · obtain rfl := Except.ok.inj done
        exact List.length_set ..
      · cases done
  | succ idx ih =>
      unfold ripple at done
      split at done
      · rw [ih done, List.length_set]
      · cases done

/-- The loop on an address. -/
def rippleAddr (digit : UInt8 → UInt8 → UInt8 → UInt8 × UInt8) (y : List UInt8) (idx : Nat)
    (x : In6) (carry : UInt8) : Except Fault (In6 × UInt8) :=
  match done : ripple digit y idx x.bytes carry with
  | .error fault => .error fault
  | .ok result => .ok (⟨result.1, (length_ripple done).trans x.size⟩, result.2)

/-- `cidr_add6` and `cidr_sub6`. -/
def cidrSum6 (digit : UInt8 → UInt8 → UInt8 → UInt8 × UInt8) (a b : Cidr) (s : State) : Result :=
  if a.family ≠ .inet6 ∨ b.family ≠ .inet6 then .ok (false, cidrPush a s)
  else do
    let sum ← rippleAddr digit b.addr.bytes 15 a.addr 0
    return (sum.2 = 0, cidrPush { a with addr := sum.1 } s)

/-- `cidr_add6`. -/
def cidrAdd6 : Cidr → Cidr → State → Result := cidrSum6 addDigit

/-- `cidr_sub6`. -/
def cidrSub6 : Cidr → Cidr → State → Result := cidrSum6 subDigit

/-- `cidr_prev6` and `cidr_next6`. The loop starts with a carry of one. -/
def cidrStep6 (digit : UInt8 → UInt8 → UInt8 → UInt8 × UInt8) (a b : Cidr) (s : State) : Result :=
  if b.prefixLength = 0 then .ok (false, cidrPush a s)
  else do
    let idx := ((b.prefixLength - 1) / 8).toNat % 256
    let sum ← rippleAddr digit (List.replicate 16 0) idx a.addr 1
    if sum.2 = 0 then
      return (true, cidrPush { a with addr := sum.1, prefixLength := b.prefixLength } s)
    else return (false, cidrPush { a with addr := sum.1 } s)

/-- `cidr_prev6`. -/
def cidrPrev6 : Cidr → Cidr → State → Result := cidrStep6 subDigit

/-- `cidr_next6`. -/
def cidrNext6 : Cidr → Cidr → State → Result := cidrStep6 addDigit

/-- The last bytes of an address are cleared one after another. -/
def clearBytes : Nat → List UInt8 → Except Fault (List UInt8)
  | 0, x => .ok x
  | count + 1, x => do
      let cleared ← clearBytes count x
      return cleared.set (← place count) 0

theorem length_clearBytes {count : Nat} {x cleared : List UInt8}
    (done : clearBytes count x = .ok cleared) : cleared.length = x.length := by
  induction count generalizing cleared with
  | zero =>
      obtain rfl := Except.ok.inj done
      rfl
  | succ count ih =>
      unfold clearBytes at done
      cases first : clearBytes count x with
      | error fault =>
          rw [first] at done
          cases done
      | ok before =>
          cases here : place count with
          | error fault =>
              rw [first, here] at done
              cases done
          | ok index =>
              rw [first, here] at done
              obtain rfl := Except.ok.inj done
              rw [List.length_set, ih first]

/-- `~((1 << count) - 1)`, in a byte. -/
def byteMask (count : UInt32) : UInt8 := ~~~ UInt8.ofNat (2 ^ count.toNat - 1)

/-- A byte is masked. -/
def maskByte (index : Nat) (mask : UInt8) (x : List UInt8) : List UInt8 :=
  x.set index (x[index]?.getD 0 &&& mask)

/-- The address that `cidr_network6` leaves. -/
def networkBytes (prefixLength : UInt32) (x : List UInt8) : Except Fault (List UInt8) := do
  let host := 128 - prefixLength
  let cleared ← clearBytes (host / 8).toNat x
  if host % 8 = 0 then return cleared
  else return maskByte (← place ((host / 8).toNat % 256)) (byteMask (host % 8)) cleared

theorem length_networkBytes {prefixLength : UInt32} {x masked : List UInt8}
    (done : networkBytes prefixLength x = .ok masked) : masked.length = x.length := by
  unfold networkBytes at done
  dsimp only at done
  cases first : clearBytes ((128 - prefixLength) / 8).toNat x with
  | error fault =>
      rw [first] at done
      cases done
  | ok cleared =>
      rw [first] at done
      by_cases whole : (128 - prefixLength) % 8 = 0
      · simp only [whole, ↓reduceIte] at done
        obtain rfl := Except.ok.inj done
        exact length_clearBytes first
      · cases here : place (((128 - prefixLength) / 8).toNat % 256) with
        | error fault =>
            simp only [whole, here, ↓reduceIte] at done
            cases done
        | ok index =>
            simp only [whole, here, ↓reduceIte] at done
            obtain rfl := Except.ok.inj done
            rw [maskByte, List.length_set, length_clearBytes first]

/-- `cidr_network6`. -/
def cidrNetwork6 (a : Cidr) (s : State) : Result :=
  match done : networkBytes a.prefixLength a.addr.bytes with
  | .error fault => .error fault
  | .ok masked =>
      .ok (true, cidrPush
        { a with addr := ⟨masked, (length_networkBytes done).trans a.addr.size⟩ } s)

/-- `cidr_contains6`. -/
def cidrContains6 (a b : Cidr) (s : State) : Result := do
  let i := ((128 - a.prefixLength) / 8).toNat % 256
  let m := byteMask ((128 - a.prefixLength) % 8)
  let index ← place i
  let net1 := a.addr.bytes[index]?.getD 0 &&& m
  let net2 := b.addr.bytes[index]?.getD 0 &&& m
  return answer (a.prefixLength ≤ b.prefixLength ∧ net1 = net2 ∧
    (i = 15 ∨ a.addr.bytes.take (15 - i) = b.addr.bytes.take (15 - i))) (cidrPush a s)

/-- `cidr_linklocal6`. -/
def cidrLinklocal6 (a : Cidr) (s : State) : Result :=
  let first := a.addr.bytes[0]?.getD 0
  let second := a.addr.bytes[1]?.getD 0
  .ok (answer (first = 0xFE ∧ 0x80 ≤ second ∧ second ≤ 0xBF) s)

/-- `cidr_ula6`. -/
def cidrUla6 (a : Cidr) (s : State) : Result :=
  let first := a.addr.bytes[0]?.getD 0
  .ok (answer (0xFC ≤ first ∧ first ≤ 0xFD) s)

/-- `cidr_print6`. -/
def cidrPrint6 (a : Cidr) (s : State) : Result :=
  if a.family ≠ .inet6 then .ok (false, s)
  else
    let shown := qprintf (.address .inet6 a.addr) (separate s)
    let shown := if a.prefixLength < 128 then qprintf (.mask a.prefixLength) shown else shown
    .ok (true, { shown with stack := shown.stack.tail })

/-- `cidr_howmany`. -/
def cidrHowmany (a b : Cidr) (s : State) : Result :=
  if b.prefixLength < a.prefixLength then .ok (true, qprintf (.amount 0) (separate s))
  else do
    let count ← shiftOne (b.prefixLength - a.prefixLength)
    return (true, qprintf (.amount count) (separate s))

/-- `cidr_prefix`. The topmost address is written in place. -/
def cidrPrefix (a b : Cidr) (s : State) : Result :=
  .ok (true, { s with stack := { a with prefixLength := b.prefixLength } :: s.stack.tail })

/-- `cidr_quiet`. -/
def cidrQuiet (_ : Cidr) (s : State) : Result := .ok (true, { s with quiet := true })

end Trunk.Owip
