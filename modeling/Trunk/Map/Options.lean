import Trunk.Foundation.Run
import Trunk.Map.Rule
import Trunk.Utils.CString

/-! # The options of a MAP rule

The model of the option parser of `mapcalc.c`, and of all that `main` computes for the text of one
rule and the prefixes of `Trunk.Map.findPd`. As for `Trunk.Map.mapRule`, an access outside a block
has no result, and neither has a shift by a count outside of 0 to 31.

An `unsigned long` has 32 bits. `inet_pton` is what it leaves in the address that it is given. What
is only printed, such as the `dmr` and the `br` of a rule, is left out.
-/

namespace Trunk.Map

open Memory Network Inet CString Run

/-- A text as the source has it. -/
def ofString (text : String) : List UInt8 := text.toList.map ascii

/-- The options that `getsubopt` knows. -/
inductive Token where
  | type | fmr | ealen | prefix4len | prefix6len | ipv6prefix | ipv4prefix | offset | psidlen | psid
  | br | dmr
  deriving DecidableEq, Repr

/-- `token`. -/
def tokens : List (List UInt8 × Token) :=
  [(ofString "type", .type), (ofString "fmr", .fmr), (ofString "ealen", .ealen),
    (ofString "prefix4len", .prefix4len), (ofString "prefix6len", .prefix6len),
    (ofString "ipv6prefix", Token.ipv6prefix), (ofString "ipv4prefix", Token.ipv4prefix),
    (ofString "offset", .offset), (ofString "psidlen", .psidlen), (ofString "psid", .psid),
    (ofString "br", .br), (ofString "dmr", .dmr)]

/-- The texts between the commas of a rule. Nothing is read behind a last comma. -/
def suboptions (text : List UInt8) : List (List UInt8) :=
  let pieces := text.splitOn (ascii ',')
  if pieces.getLast? = some [] then pieces.dropLast else pieces

/-- `getsubopt`, of the text up to the next comma: the option, and its value. -/
def getsubopt (piece : List UInt8) : Option Token × Option (List UInt8) :=
  let isName (byte : UInt8) : Bool := byte ≠ ascii '='
  (tokens.lookup (piece.takeWhile isName), (piece.dropWhile isName).tail?)

/-- `(intval = strtoul(value, NULL, 0)) <= limit && !errno`, with the `int` where it holds. -/
def intOption (value : List UInt8) (limit : Int) : Option Int :=
  let start := value.dropWhile isSpace
  let signed := start.head? = some (ascii '-') ∨ start.head? = some (ascii '+')
  -- `errno` is set where the number has no place in an `unsigned long`
  let fits := leadingMagnitude (if signed then start.tail else start) < 2 ^ 32
  let intval := Int.bmod (strtoulFront 32 value) (2 ^ 32)
  if intval ≤ limit ∧ fits then some intval else none

deriving instance DecidableEq for Rule

/-- What is parsed of a rule. -/
structure Options where
  lw4o6 : Bool
  fmr : Bool
  rule : Rule
  deriving DecidableEq

/-- The options before the first one is parsed. -/
def defaults : Options where
  lw4o6 := false
  fmr := false
  rule := {
    ealen := -1, prefix4len := 32, prefix6len := -1, ipv4prefix := inaddrAny
    ipv6prefix := in6addrAny, offset := -1, psidlen := -1, psid := -1 }

section Parse

variable (inetPton : List UInt8 → In4 → In4) (inetPton6 : List UInt8 → In6 → In6)

/-- An option with a number is set, or skipped. There is no result without a value, which `strtoul`
cannot read. -/
def setInt (value : Option (List UInt8)) (limit : Int) (options : Options)
    (set : Int → Rule → Rule) : Option Options := do
  match intOption (← value) limit with
  | some intval => return { options with rule := set intval options.rule }
  | none => return options

/-- One option of a rule. -/
def parseOption (options : Options) (piece : List UInt8) : Option Options :=
  let value := (getsubopt piece).2
  match (getsubopt piece).1 with
  | some .type => some { options with lw4o6 := value = some (ofString "lw4o6") }
  | some .fmr => some { options with fmr := true }
  | some .ealen => setInt value 48 options fun intval rule => { rule with ealen := intval }
  | some .prefix4len => setInt value 32 options fun intval rule => { rule with prefix4len := intval }
  | some .prefix6len => setInt value 112 options fun intval rule => { rule with prefix6len := intval }
  | some Token.ipv4prefix => do
      let addr := inetPton (← value) options.rule.ipv4prefix
      return { options with rule := { options.rule with ipv4prefix := addr } }
  | some Token.ipv6prefix => do
      let addr := inetPton6 (← value) options.rule.ipv6prefix
      return { options with rule := { options.rule with ipv6prefix := addr } }
  | some .offset => setInt value 16 options fun intval rule => { rule with offset := intval }
  | some .psidlen => setInt value 16 options fun intval rule => { rule with psidlen := intval }
  | some .psid => setInt value 65535 options fun intval rule => { rule with psid := intval }
  | some .br => some options
  | some .dmr => some options
  | none => some options

/-- The options of the text of a rule. -/
def parseRule (text : List UInt8) : Option Options :=
  attempt (parseOption inetPton inetPton6) defaults (suboptions text)

end Parse

/-- The bits of the port in front of the PSID, by default those of the kind of the rule. -/
def Options.offset (options : Options) (legacy : Bool) : Int :=
  if options.rule.offset < 0 then
    if options.lw4o6 then 0 else if legacy then 4 else 6
  else options.rule.offset

/-- `<<` of an `int` that is not negative. -/
def shiftLeft (word : Nat) (count : Int) : Option Nat :=
  if 0 ≤ count ∧ count < 32 then some (word <<< count.toNat) else none

/-- `>>` of an `int`. -/
def shiftRightInt (value count : Int) : Option Int :=
  if 0 ≤ count ∧ count < 32 then some (value >>> count.toNat) else none

/-- `PORTSETS`. -/
def printPortsets (offset psidlen psid : Int) : Option (List (Nat × Nat)) :=
  if psidlen = 0 then some [(0, 65535)]
  else if 0 ≤ psid then do
    let count ← shiftLeft 1 offset
    let first := if offset ≠ 0 then 1 else 0
    (List.range' first (count - first)).mapM fun k => do
      let start := (← shiftLeft k (16 - offset)) ||| (← shiftRight psid.toNat offset)
      return (start, start + (← shiftLeft 1 (16 - offset - psidlen)) - 1)
  else some []

/-- What becomes of a rule. -/
inductive Printed where
  | invalid
  | noPd
  | values (mapped : Mapped) (ipv6addr : List UInt8) (ranges : List (Nat × Nat))
  deriving DecidableEq

/-- The IPv6 address of a rule: the IPv4 address and the PSID behind the delegated prefix. -/
def makeIpv6addr (legacy : Bool) (pd : In6) (pdlen : Int) (ipv4addr psid16 : List UInt8) :
    Option (List UInt8) :=
  if 0 ≤ pdlen then do
    let v4offset := if legacy then 9 else 10
    let withAddr ← store in6addrAny.bytes v4offset ipv4addr
    let withPsid ← store withAddr (v4offset + 4) psid16
    bmemcpy withPsid pd.bytes (sizeT pdlen)
  else some in6addrAny.bytes

/-- The values of a rule for the delegated prefix that was found, and what is printed. -/
def calculateFor (options : Options) (legacy : Bool) (pd : In6) (pdlen : Int) : Option Printed := do
  let rule := options.rule
  let mapped ← mapEa rule pd pdlen
  let psid16 ← shiftRightInt mapped.psid (16 - mapped.psidlen)
  if rule.prefix4len < 0 ∨ rule.prefix6len < 0 ∨ mapped.ealen < 0 ∨ mapped.ealen < mapped.psidlen then
    return .invalid
  else if pdlen < 0 ∧ options.fmr = false then return .noPd
  else
    let ipv6addr ← makeIpv6addr legacy pd pdlen mapped.ipv4addr (bytes 2 (psid16 % 2 ^ 16).toNat)
    let ranges ← printPortsets (options.offset legacy) mapped.psidlen mapped.psid
    return .values mapped ipv6addr ranges

/-- `main`, of one rule whose options are parsed. -/
def calculate (options : Options) (legacy : Bool) (prefixes : List (In6 × Int)) :
    Option Printed := do
  match ← findPd options.rule prefixes with
  | some (pd, pdlen) => calculateFor options legacy pd pdlen
  | none => calculateFor options legacy in6addrAny (-1)

/-- The values of a rule that is printed are those of `mapRule`. -/
theorem mapRule_of_calculate {options : Options} {legacy : Bool} {prefixes : List (In6 × Int)}
    {mapped : Mapped} {ipv6addr : List UInt8} {ranges : List (Nat × Nat)}
    (printed : calculate options legacy prefixes = some (.values mapped ipv6addr ranges)) :
    mapRule options.rule prefixes = some mapped := by
  have single : ∀ pd pdlen, calculateFor options legacy pd pdlen =
      some (.values mapped ipv6addr ranges) → mapEa options.rule pd pdlen = some mapped := by
    intro pd pdlen done
    unfold calculateFor at done
    simp only [Option.bind_eq_bind, Option.bind_eq_some_iff] at done
    obtain ⟨made, mapEa, _, -, rest⟩ := done
    split at rest
    · cases rest
    · split at rest
      · cases rest
      · simp only [Option.bind_eq_some_iff] at rest
        obtain ⟨_, -, _, -, same⟩ := rest
        obtain ⟨rfl, -, -⟩ := Printed.values.inj (Option.some.inj same)
        exact mapEa
  unfold calculate at printed
  unfold mapRule
  cases search : findPd options.rule prefixes with
  | none =>
      rw [search] at printed
      cases printed
  | some found =>
      rw [search] at printed
      cases found with
      | none => exact single _ _ printed
      | some candidate => exact single _ _ printed

section Ranges

variable {offset : Nat} {psid psidlen : Int}

/-- The counts that a PSID is placed by behind an offset. -/
theorem shifts_of_le (high : offset ≤ 16) :
    shiftLeft 1 (offset : Int) = some (1 <<< offset) ∧
      (∀ k, shiftLeft k (16 - (offset : Int)) = some (k <<< (16 - offset))) ∧
      ∀ word, shiftRight word (offset : Int) = some (word >>> offset) := by
  have count : (16 - (offset : Int)).toNat = 16 - offset := by omega
  refine ⟨?_, fun k => ?_, fun word => ?_⟩
  · rw [shiftLeft, if_pos (by omega), Int.toNat_natCast]
  · rw [shiftLeft, if_pos (by omega), count]
  · rw [shiftRight, if_pos (by omega), Int.toNat_natCast]

/-- The ranges of a PSID, where there is room for it behind the offset. -/
theorem printPortsets_eq_some (high : offset ≤ 16) (sized : psidlen ≠ 0) (given : 0 ≤ psid)
    (short : -15 ≤ psidlen) (room : offset + psidlen ≤ 16) :
    printPortsets offset psidlen psid =
      some ((List.range' (if offset = 0 then 0 else 1)
        (1 <<< offset - if offset = 0 then 0 else 1)).map fun k =>
          let start := k <<< (16 - offset) ||| psid.toNat >>> offset
          (start, start + 1 <<< (16 - (offset : Int) - psidlen).toNat - 1)) := by
  have made : ∀ (range : Nat → Nat × Nat) (indices : List Nat),
      (indices.mapM fun k => some (range k)) = some (indices.map range) :=
    fun _ _ => List.mapM_pure
  have first : (if (offset : Int) ≠ 0 then 1 else 0) = if offset = 0 then 0 else 1 := by
    split
    · rw [if_neg (by omega)]
    · rw [if_pos (by omega)]
  obtain ⟨count, left, right⟩ := shifts_of_le high
  have width : shiftLeft 1 (16 - (offset : Int) - psidlen) =
      some (1 <<< (16 - (offset : Int) - psidlen).toNat) := by
    rw [shiftLeft, if_pos (by omega)]
  unfold printPortsets
  rw [if_neg sized, if_pos given, first]
  simp only [count, left, right, width, Option.bind_eq_bind, Option.bind_some, Option.pure_def,
    made]

/-- There is no end of a range where there is no room. -/
theorem printPortsets_eq_none (high : offset ≤ 16) (sized : psidlen ≠ 0) (given : 0 ≤ psid)
    (full : 16 < offset + psidlen) : printPortsets offset psidlen psid = none := by
  obtain ⟨count, left, right⟩ := shifts_of_le high
  have width : shiftLeft 1 (16 - (offset : Int) - psidlen) = none := by
    rw [shiftLeft, if_neg (by omega)]
  obtain ⟨more, one⟩ : ∃ more, 1 <<< offset - (if (offset : Int) ≠ 0 then 1 else 0) = more + 1 := by
    have positive := Nat.two_pow_pos offset
    rw [Nat.one_shiftLeft]
    split
    · have two := Nat.pow_le_pow_right Nat.two_pos (show 1 ≤ offset by omega)
      exact ⟨2 ^ offset - 2, by omega⟩
    · exact ⟨2 ^ offset - 1, by omega⟩
  unfold printPortsets
  rw [if_neg sized, if_pos given]
  simp only [count, left, right, width, Option.bind_eq_bind, Option.bind_some, Option.bind_none]
  rw [one, List.range'_succ, List.mapM_cons]
  rfl

/-- The ranges that are printed are those of `portsets`. -/
theorem printPortsets_eq {psidlen : Nat} (fits : offset + psidlen ≤ 16) (psid : Int) :
    printPortsets offset psidlen psid = some (portsets offset psidlen psid) := by
  have width : (16 - (offset : Int) - psidlen).toNat = 16 - offset - psidlen := by omega
  unfold portsets
  by_cases all : psidlen = 0
  · rw [printPortsets, if_pos (by omega), if_pos all]
  · rw [if_neg all]
    by_cases given : 0 ≤ psid
    · rw [if_pos given, printPortsets_eq_some (by omega) (by omega) given (by omega) (by omega),
        width]
    · rw [printPortsets, if_neg (by omega), if_neg given, if_neg given]

end Ranges

end Trunk.Map
