import Trunk.Foundation.Loop
import Trunk.Owip.Range

/-! # The command line of the IP calculator

The model of the parsers of `owipcalc.c`, of its table of operations, and of `runop`, which `main`
calls until it returns false. A number that stands alone is an address and a prefix length at once,
and is not checked against the width of the family.
-/

namespace Trunk.Owip

open CString Network Inet Loop

/-- What the program is built for and linked with. -/
structure Host where
  order : ByteOrder
  /-- The width of `unsigned long`. -/
  long : Nat
  inetPton4 : List UInt8 → Option In4
  inetPton6 : List UInt8 → Option In6

variable (host : Host)

theorem toNat_shiftRight_one_lt {mask : UInt32} (nonzero : mask ≠ 0) :
    (mask >>> 1).toNat < mask.toNat := by
  have positive : mask.toNat ≠ 0 := fun zero => nonzero (UInt32.toNat_inj.mp zero)
  have half : (mask >>> 1).toNat = mask.toNat / 2 := by
    rw [UInt32.toNat_shiftRight]
    rfl
  omega

/-- The bits of a mask are counted. -/
def countBits (count mask : UInt32) : UInt32 :=
  if mask = 0 then count else countBits (count + (mask &&& 1)) (mask >>> 1)
termination_by mask.toNat
decreasing_by exact toNat_shiftRight_one_lt ‹_›

/-- A prefix length behind the slash, in decimal digits. -/
def decimalPrefix (limit : UInt32) (text : List UInt8) : Option UInt32 := do
  let value := UInt32.ofNat (← strtoulDecimal host.long text)
  if value > limit then none else some value

/-- What stands in front of the first slash. -/
def beforeSlash (text : List UInt8) : List UInt8 := text.takeWhile (· ≠ ascii '/')

/-- What stands behind the first slash, if there is one. -/
def behindSlash (text : List UInt8) : Option (List UInt8) :=
  if ascii '/' ∈ text then some (text.dropWhile (· ≠ ascii '/')).tail else none

/-- The address in front of the slash; none is written for the zero address. -/
def parseFront {Address : Type} (any : Address) (inetPton : List UInt8 → Option Address)
    (text : List UInt8) : Option Address :=
  if text.head? = some (ascii '/') then some any else inetPton (beforeSlash text)

theorem length_widen (front : In4) : (front.bytes ++ List.replicate 12 0).length = 16 := by
  rw [List.length_append, front.size, List.length_replicate]

/-- The union with an IPv4 address. -/
def widen (front : In4) : In6 := ⟨front.bytes ++ List.replicate 12 0, length_widen front⟩

/-- The prefix length of `cidr_parse4`. -/
def parsePrefix4 (text : List UInt8) : Option UInt32 :=
  match behindSlash text with
  | none => some 32
  | some mask =>
      if ascii '.' ∈ mask then
        (host.inetPton4 mask).map fun mask => countBits 0 (mask.sAddr host.order)
      else decimalPrefix host 32 mask

/-- `cidr_parse4`. -/
def cidrParse4 (text : List UInt8) : Option Cidr :=
  if 33 ≤ text.length then none
  else do
    let prefixLength ← parsePrefix4 host text
    let addr ← parseFront inaddrAny host.inetPton4 text
    return { family := .inet, prefixLength := prefixLength, addr := widen addr }

/-- The prefix length of `cidr_parse6`. -/
def parsePrefix6 (text : List UInt8) : Option UInt32 :=
  match behindSlash text with
  | none => some 128
  | some length => decimalPrefix host 128 length

/-- `cidr_parse6`. -/
def cidrParse6 (text : List UInt8) : Option Cidr :=
  if 51 ≤ text.length then none
  else do
    let prefixLength ← parsePrefix6 host text
    let addr ← parseFront in6addrAny host.inetPton6 text
    return { family := .inet6, prefixLength := prefixLength, addr := addr }

/-- The parser that the text of an address is given to. -/
def parseAddress (text : List UInt8) : Option Cidr :=
  if ascii ':' ∈ text then cidrParse6 host text else cidrParse4 host text

/-- What `cidr_parse` makes of an argument. -/
inductive Argument where
  | parsed (b : Cidr)
  | invalid
  | mismatch
  deriving DecidableEq, Repr

/-- A number that stands alone. -/
def numberArgument (sum : UInt32) (family : Family) : Cidr where
  family := family
  prefixLength := sum
  addr :=
    match family with
    | .inet => widen (.ofSAddr host.order (htonl host.order sum))
    | .inet6 => ⟨bytes 16 sum.toNat, length_bytes 16 sum.toNat⟩

/-- `cidr_parse`. -/
def cidrParse (text : List UInt8) (family : Family) : Argument :=
  match strtoul host.long (text.dropWhile isSpace) with
  | some sum => .parsed (numberArgument host (UInt32.ofNat sum) family)
  | none =>
      match parseAddress host text with
      | none => .invalid
      | some b => if b.family = family then .parsed b else .mismatch

/-- The operations. -/
inductive Operation where
  | add
  | sub
  | next
  | prev
  | network
  | broadcast
  | setPrefix
  | netmask
  | sixToFour
  | howmany
  | contains
  | isPrivate
  | linklocal
  | ula
  | quiet
  | pop
  | print
  deriving DecidableEq, Repr

namespace Operation

/-- The word of an operation. -/
def name : Operation → String
  | add => "add"
  | sub => "sub"
  | next => "next"
  | prev => "prev"
  | network => "network"
  | broadcast => "broadcast"
  | setPrefix => "prefix"
  | netmask => "netmask"
  | sixToFour => "6to4"
  | howmany => "howmany"
  | contains => "contains"
  | isPrivate => "private"
  | linklocal => "linklocal"
  | ula => "ula"
  | quiet => "quiet"
  | pop => "pop"
  | print => "print"

/-- `f4.a1` and `f6.a1`. -/
def a1 (order : ByteOrder) : Operation → Family → Option (Cidr → State → Result)
  | network, .inet => some (cidrNetwork4 order)
  | network, .inet6 => some cidrNetwork6
  | broadcast, .inet => some (cidrBroadcast4 order)
  | netmask, .inet => some (cidrNetmask4 order)
  | sixToFour, .inet => some (cidr6to4 order)
  | isPrivate, .inet => some (cidrPrivate4 order)
  | linklocal, .inet => some (cidrLinklocal4 order)
  | linklocal, .inet6 => some cidrLinklocal6
  | ula, .inet6 => some cidrUla6
  | quiet, _ => some cidrQuiet
  | pop, _ => some cidrPop
  | print, .inet => some cidrPrint4
  | print, .inet6 => some cidrPrint6
  | _, _ => none

/-- `f4.a2` and `f6.a2`. -/
def a2 (order : ByteOrder) : Operation → Family → Option (Cidr → Cidr → State → Result)
  | add, .inet => some (cidrAdd4 order)
  | add, .inet6 => some cidrAdd6
  | sub, .inet => some (cidrSub4 order)
  | sub, .inet6 => some cidrSub6
  | next, .inet => some (cidrNext4 order)
  | next, .inet6 => some cidrNext6
  | prev, .inet => some (cidrPrev4 order)
  | prev, .inet6 => some cidrPrev6
  | setPrefix, _ => some cidrPrefix
  | howmany, _ => some cidrHowmany
  | contains, .inet => some (cidrContains4 order)
  | contains, .inet6 => some cidrContains6
  | _, _ => none

/-- The operation has an argument. -/
def binary (operation : Operation) (order : ByteOrder) : Bool :=
  (operation.a2 order .inet).isSome || (operation.a2 order .inet6).isSome

end Operation

/-- `ops`. -/
def ops : List Operation :=
  [.add, .sub, .next, .prev, .network, .broadcast, .setPrefix, .netmask, .sixToFour, .howmany,
    .contains, .isPrivate, .linklocal, .ula, .quiet, .pop, .print]

/-- The operation that a word names. -/
def findOp (word : List UInt8) : Option Operation :=
  ops.find? fun operation => operation.name.toList.map ascii = word

/-- The words that are left, the status, and the variables of the program. -/
structure Config where
  args : List (List UInt8)
  status : Nat
  state : State
  deriving DecidableEq, Repr

/-- How the calls of `runop` end: it returns false, or the program exits. -/
inductive Ending where
  | stop (config : Config)
  | exit (code : Nat)
  deriving DecidableEq, Repr

/-- The topmost address is read. -/
def top (s : State) : Except Fault Cidr :=
  match s.stack with
  | [] => .error .null
  | a :: _ => .ok a

/-- The status that a function of the table leaves, and the words behind. -/
def called (args : List (List UInt8)) (result : Result) : Except Fault (Round Config Ending) := do
  let (success, after) ← result
  return .again { args := args, status := if success then 0 else 1, state := after }

/-- An operation with an argument is run. -/
def runBinary (operation : Operation) (args rest : List (List UInt8)) (argument : List UInt8)
    (s : State) : Except Fault (Round Config Ending) := do
  let a ← top s
  match cidrParse host argument a.family with
  | .mismatch => return .done (.exit 4)
  | .invalid => return .done (.stop { args := args, status := 3, state := s })
  | .parsed b =>
      match operation.a2 host.order a.family with
      | none => return .done (.stop { args := rest, status := 5, state := s })
      | some function => called rest (function a b s)

/-- An operation without an argument is run. -/
def runUnary (operation : Operation) (rest : List (List UInt8)) (s : State) :
    Except Fault (Round Config Ending) := do
  let a ← top s
  match operation.a1 host.order a.family with
  | none => return .done (.stop { args := rest, status := 5, state := s })
  | some function => called rest (function a s)

/-- `runop`. -/
def runop (config : Config) : Except Fault (Round Config Ending) :=
  match config.args with
  | [] => .ok (.done (.stop config))
  | word :: rest =>
      match findOp word with
      | none => .ok (.done (.stop config))
      | some operation =>
          if operation.binary host.order then
            match rest with
            | [] => .ok (.done (.stop { config with status := 2 }))
            | argument :: rest =>
                runBinary host operation config.args rest argument config.state
          else runUnary host operation rest config.state

/-- `runop` is called until it returns false. -/
def runOps : Config → Except Fault Ending :=
  loop (runop host) (fun config => config.args.length + 1) .null

/-- The program before the first call of `runop`. -/
def Config.start (args : List (List UInt8)) (a : Cidr) : Config where
  args := args
  status := 0
  state := .start a

end Trunk.Owip
