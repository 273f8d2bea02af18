import Trunk.Map.Embedding
import Trunk.Map.Options

/-! # Rules that stay in their buffers

The parser accepts numbers that are too small for all that is computed from them, and the lengths
that are made from others are used before they are checked. So not every rule stays in the blocks it
copies from and to. A rule does exactly if its lengths fit together with that of the delegated
prefix (`Trunk.Map.calculate_isSome_iff`). A prefix of 32 bits in a rule, which is the default, does
not fit where an address is made: the word of the address is shifted by 32
(`Trunk.Map.calculate_leaves`).
-/

namespace Trunk.Map

open Memory Network Inet CString Run

variable {a b : List UInt8} {bits frombits nbits : Nat}

/-! ## What the bit operations reach -/

theorem bmemcpy_isSome_iff :
    (bmemcpy a b bits).isSome ↔ bits ≤ 8 * a.length ∧ bits ≤ 8 * b.length := by
  constructor
  · intro copied
    obtain ⟨result, done⟩ := Option.isSome_iff_exists.mp copied
    unfold bmemcpy at done
    simp only [Option.bind_eq_bind, Option.bind_eq_some_iff] at done
    obtain ⟨whole, loaded, copied, stored, rest⟩ := done
    obtain ⟨source, rfl⟩ := load_eq_some_iff.mp loaded
    obtain ⟨inside, -⟩ := store_eq_some_iff.mp stored
    rw [List.length_take, List.length_drop] at inside
    split at rest
    · simp only [Option.bind_eq_some_iff] at rest
      obtain ⟨old, there, new, there', -⟩ := rest
      have short := (List.getElem?_eq_some_iff.mp there).1
      have short' := (List.getElem?_eq_some_iff.mp there').1
      rw [store_length stored] at short
      omega
    · omega
  · rintro ⟨target, source⟩
    obtain ⟨result, copied, -⟩ := bmemcpy_bits target source
    rw [copied, Option.isSome_some]

theorem bmemcpys64_isSome_iff :
    (bmemcpys64 a b frombits nbits).isSome ↔
      (frombits + nbits) / 8 < b.length ∧ (frombits + nbits) / 8 - frombits / 8 < 8 ∧
        nbits ≤ 8 * a.length := by
  constructor
  · intro copied
    obtain ⟨result, done⟩ := Option.isSome_iff_exists.mp copied
    unfold bmemcpys64 at done
    simp only [Option.bind_eq_bind, Option.bind_eq_some_iff] at done
    obtain ⟨window, loaded, buf, stored, rest⟩ := done
    obtain ⟨source, rfl⟩ := load_eq_some_iff.mp loaded
    obtain ⟨scratch, -⟩ := store_eq_some_iff.mp stored
    have target := (bmemcpy_isSome_iff.mp (Option.isSome_iff_exists.mpr ⟨result, rest⟩)).1
    rw [List.length_take, List.length_drop, List.length_replicate] at scratch
    omega
  · rintro ⟨source, scratch, target⟩
    obtain ⟨result, copied, -⟩ := bmemcpys64_bits target source (by omega)
    rw [copied, Option.isSome_some]

/-- The first bits of two blocks are the same. -/
def SameBits (bits : Nat) (a b : List UInt8) : Prop := ∀ index < bits, bit a index = bit b index

instance : Decidable (SameBits bits a b) := inferInstanceAs (Decidable (∀ _ < _, _))

theorem bit_take {count index : Nat} (inside : index < 8 * count) :
    bit (a.take count) index = bit a index := by
  rw [bit, bit, List.getElem?_take_of_lt (by omega)]

theorem take_eq_take_iff {count : Nat} (first : count ≤ a.length) (second : count ≤ b.length) :
    a.take count = b.take count ↔ SameBits (8 * count) a b := by
  constructor
  · intro same index inside
    rw [← bit_take inside, same, bit_take inside]
  · intro same
    have length : (a.take count).length = count := by
      rw [List.length_take]
      omega
    refine bit_injective ?_ fun index inside => ?_
    · rw [List.length_take, List.length_take]
      omega
    · rw [length] at inside
      rw [bit_take inside, bit_take inside, same index inside]

/-- Bytes agree in their high bits where these are all that is left of them. -/
theorem shiftRight_eq_iff {x y : UInt8} {count : Nat} (few : count ≤ 8) :
    x.toNat >>> (8 - count) = y.toNat >>> (8 - count) ↔
      ∀ place < count, x.toNat.testBit (7 - place) = y.toNat.testBit (7 - place) := by
  constructor
  · intro same place inside
    have bits := congrArg (Nat.testBit · (count - 1 - place)) same
    have here : 8 - count + (count - 1 - place) = 7 - place := by omega
    simp only [Nat.testBit_shiftRight, here] at bits
    exact bits
  · intro same
    refine Nat.eq_of_testBit_eq fun place => ?_
    rw [Nat.testBit_shiftRight, Nat.testBit_shiftRight]
    by_cases inside : place < count
    · have here : 8 - count + place = 7 - (count - 1 - place) := by omega
      rw [here]
      exact same _ (by omega)
    · have above : 2 ^ 8 ≤ 2 ^ (8 - count + place) := Nat.pow_le_pow_right Nat.two_pos (by omega)
      rw [Nat.testBit_lt_two_pow (x.toNat_lt.trans_le above),
        Nat.testBit_lt_two_pow (y.toNat_lt.trans_le above)]

/-- `bmemcmp` compares bits. -/
theorem bmemcmp_bits (first : bits ≤ 8 * a.length) (second : bits ≤ 8 * b.length) :
    bmemcmp a b bits = some (decide (SameBits bits a b)) := by
  have whole : ∀ block : List UInt8, bits ≤ 8 * block.length →
      load block 0 (bits / 8) = some (block.take (bits / 8)) := by
    intro block inside
    exact load_eq_some_iff.mpr ⟨by omega, rfl⟩
  unfold bmemcmp
  simp only [whole a first, whole b second, Option.bind_eq_bind, Option.bind_some]
  by_cases front : a.take (bits / 8) = b.take (bits / 8)
  · have same := (take_eq_take_iff (by omega) (by omega)).mp front
    rw [if_neg (not_not_intro front)]
    by_cases partial' : 0 < bits % 8
    · have there : bits / 8 < a.length := by omega
      have there' : bits / 8 < b.length := by omega
      rw [if_pos partial', List.getElem?_eq_getElem there, List.getElem?_eq_getElem there']
      simp only [Option.bind_some, Option.pure_def]
      congr 1
      rw [decide_eq_decide, shiftRight_eq_iff (by omega)]
      -- the bits of the byte in which the compared ones end
      have last : ∀ place < bits % 8, bit a (8 * (bits / 8) + place) =
          a[bits / 8].toNat.testBit (7 - place) ∧ bit b (8 * (bits / 8) + place) =
          b[bits / 8].toNat.testBit (7 - place) := by
        intro place inside
        have byte : (8 * (bits / 8) + place) / 8 = bits / 8 := by omega
        have rest : (8 * (bits / 8) + place) % 8 = place := by omega
        rw [bit, bit, byte, rest, List.getElem?_eq_getElem there, List.getElem?_eq_getElem there']
        exact ⟨rfl, rfl⟩
      constructor
      · intro agree index inside
        by_cases early : index < 8 * (bits / 8)
        · exact same index early
        · obtain ⟨place, rfl⟩ := Nat.exists_eq_add_of_le (Nat.le_of_not_lt early)
          rw [(last place (by omega)).1, (last place (by omega)).2, agree place (by omega)]
      · intro agree place inside
        rw [← (last place inside).1, ← (last place inside).2, agree _ (by omega)]
    · have all : 8 * (bits / 8) = bits := by omega
      rw [all] at same
      rw [if_neg partial', decide_eq_true same]
      rfl
  · have differ : ¬SameBits bits a b := by
      intro same
      apply front
      exact (take_eq_take_iff (by omega) (by omega)).mpr fun index inside =>
        same index (by omega)
    rw [if_pos front, decide_eq_false differ]
    rfl

/-! ## What is accepted -/

/-- A number that is read up to a limit. -/
def UpTo (limit value : Int) : Prop := -2 ^ 31 ≤ value ∧ value ≤ limit

instance (limit value : Int) : Decidable (UpTo limit value) := inferInstanceAs (Decidable (_ ∧ _))

/-- The numbers that the parser accepts. -/
structure Accepted (rule : Rule) : Prop where
  ealen : UpTo 48 rule.ealen
  prefix4len : UpTo 32 rule.prefix4len
  prefix6len : UpTo 112 rule.prefix6len
  offset : UpTo 16 rule.offset
  psidlen : UpTo 16 rule.psidlen
  psid : UpTo 65535 rule.psid

theorem upTo_of_intOption {value : List UInt8} {limit intval : Int}
    (read : intOption value limit = some intval) : UpTo limit intval := by
  unfold intOption at read
  obtain ⟨accepted, same⟩ := Option.ite_none_right_eq_some.mp read
  obtain rfl := Option.some.inj same
  have low := @Int.le_bmod (strtoulFront 32 value) (2 ^ 32) (by decide)
  exact ⟨by omega, accepted.1⟩

variable {inetPton : List UInt8 → In4 → In4} {inetPton6 : List UInt8 → In6 → In6}
  {options next : Options} {piece text : List UInt8}

theorem setInt_accepted {value : Option (List UInt8)} {limit : Int} {set : Int → Rule → Rule}
    (keeps : ∀ intval, UpTo limit intval → Accepted (set intval options.rule))
    (before : Accepted options.rule) (done : setInt value limit options set = some next) :
    Accepted next.rule := by
  obtain ⟨text, rfl, rest⟩ := Option.bind_eq_some_iff.mp done
  cases read : intOption text limit with
  | none =>
      rw [read] at rest
      obtain rfl := Option.some.inj rest
      exact before
  | some intval =>
      rw [read] at rest
      obtain rfl := Option.some.inj rest
      exact keeps intval (upTo_of_intOption read)

/-- An option leaves accepted numbers. -/
theorem parseOption_accepted (before : Accepted options.rule)
    (done : parseOption inetPton inetPton6 options piece = some next) : Accepted next.rule := by
  unfold parseOption at done
  dsimp only at done
  split at done
  case h_1 | h_2 | h_11 | h_12 | h_13 =>
    obtain rfl := Option.some.inj done
    exact before
  case h_6 | h_7 =>
    obtain ⟨value, -, rest⟩ := Option.bind_eq_some_iff.mp done
    obtain rfl := Option.some.inj rest
    exact { before with }
  case h_3 => exact setInt_accepted (fun _ read => { before with ealen := read }) before done
  case h_4 => exact setInt_accepted (fun _ read => { before with prefix4len := read }) before done
  case h_5 => exact setInt_accepted (fun _ read => { before with prefix6len := read }) before done
  case h_8 => exact setInt_accepted (fun _ read => { before with offset := read }) before done
  case h_9 => exact setInt_accepted (fun _ read => { before with psidlen := read }) before done
  case h_10 => exact setInt_accepted (fun _ read => { before with psid := read }) before done

theorem defaults_accepted : Accepted defaults.rule where
  ealen := by decide
  prefix4len := by decide
  prefix6len := by decide
  offset := by decide
  psidlen := by decide
  psid := by decide

/-- A rule that is parsed has accepted numbers. -/
theorem parseRule_accepted (parsed : parseRule inetPton inetPton6 text = some options) :
    Accepted options.rule :=
  attempt_invariant (fun _ _ _ before _ done => parseOption_accepted before done)
    (suboptions text) defaults options defaults_accepted (met_true _ _ _) parsed

/-! ## The delegated prefix -/

/-- A delegated prefix, with its length, is one that a rule is for. -/
def Matches (rule : Rule) (candidate : In6 × Int) : Prop :=
  rule.prefix6len ≤ candidate.2 ∧
    SameBits rule.prefix6len.toNat candidate.1.bytes rule.ipv6prefix.bytes

instance (rule : Rule) (candidate : In6 × Int) : Decidable (Matches rule candidate) :=
  inferInstanceAs (Decidable (_ ∧ _))

variable {rule : Rule} {prefixes : List (In6 × Int)} {pd : In6} {pdlen : Int}

/-- The first prefix that matches is found. -/
theorem findPd_eq (nonneg : 0 ≤ rule.prefix6len) (small : rule.prefix6len ≤ 128)
    (prefixes : List (In6 × Int)) :
    findPd rule prefixes = some (prefixes.find? fun candidate => Matches rule candidate) := by
  have count : sizeT rule.prefix6len = rule.prefix6len.toNat := by
    unfold sizeT
    omega
  induction prefixes with
  | nil => rfl
  | cons candidate rest ih =>
      obtain ⟨address, mask⟩ := candidate
      have compared := @bmemcmp_bits address.bytes rule.ipv6prefix.bytes rule.prefix6len.toNat
        (by rw [address.size]; omega) (by rw [rule.ipv6prefix.size]; omega)
      have matched : (mask ≥ rule.prefix6len ∧
          SameBits rule.prefix6len.toNat address.bytes rule.ipv6prefix.bytes) =
          Matches rule (address, mask) := rfl
      rw [findPd, count, compared]
      simp only [Option.bind_eq_bind, Option.bind_some, decide_eq_true_eq, Option.pure_def, matched]
      by_cases here : Matches rule (address, mask)
      · rw [if_pos here, List.find?_cons_of_pos (by rw [decide_eq_true_eq]; exact here)]
      · rw [if_neg here, List.find?_cons_of_neg (by rw [decide_eq_true_eq]; exact here), ih]

/-- Without a prefix length a comparison leaves its blocks. -/
theorem findPd_of_neg (negative : rule.prefix6len < 0) (int : -2 ^ 31 ≤ rule.prefix6len)
    (prefixes : List (In6 × Int)) :
    findPd rule prefixes = if prefixes = [] then some none else none := by
  cases prefixes with
  | nil => rfl
  | cons candidate rest =>
      obtain ⟨address, mask⟩ := candidate
      have far : load address.bytes 0 (sizeT rule.prefix6len / 8) = none := by
        unfold load
        rw [if_neg]
        rw [address.size, sizeT]
        omega
      have compared : bmemcmp address.bytes rule.ipv6prefix.bytes (sizeT rule.prefix6len) = none := by
        unfold bmemcmp
        rw [far]
        rfl
      rw [findPd, compared, if_neg (List.cons_ne_nil _ _)]
      rfl

/-! ## The lengths that fit -/

/-- The number of embedded-address bits, by default what the delegated prefix has behind that of
the rule. -/
def Rule.eaBits (rule : Rule) (pdlen : Int) : Int :=
  if rule.ealen < 0 ∧ 0 ≤ pdlen then pdlen - rule.prefix6len else rule.ealen

/-- The length of the PSID, by default what an IPv4 address leaves of the embedded-address bits. -/
def Rule.psidBits (rule : Rule) (pdlen : Int) : Int :=
  if rule.psidlen < 0 then rule.eaBits pdlen - (32 - rule.prefix4len) else rule.psidlen

/-- The lengths of a rule fit together, with a delegated prefix of a length that is negative where
there is none. -/
structure Fits (options : Options) (legacy : Bool) (pdlen : Int) : Prop where
  /-- The PSID is shifted by what it leaves of 16 bits. -/
  psid16 : -15 ≤ options.rule.psidBits pdlen ∧ options.rule.psidBits pdlen ≤ 16
  /-- A PSID is taken from the delegated prefix only in front of its last bit. -/
  psid : options.rule.psid < 0 → 0 ≤ pdlen → 0 ≤ options.rule.psidBits pdlen →
    options.rule.psidBits pdlen ≤ options.rule.eaBits pdlen →
      options.rule.prefix6len + options.rule.eaBits pdlen < 128
  /-- An address is made of a prefix that is not all of it, and of bits that are there. -/
  address : 0 ≤ pdlen ∨ options.rule.eaBits pdlen = options.rule.psidBits pdlen →
    options.rule.psidBits pdlen ≤ options.rule.eaBits pdlen →
      0 ≤ options.rule.prefix6len ∧ 0 ≤ options.rule.prefix4len ∧ options.rule.prefix4len < 32 ∧
        options.rule.eaBits pdlen - options.rule.psidBits pdlen ≤ 32 ∧
        options.rule.prefix6len + (options.rule.eaBits pdlen - options.rule.psidBits pdlen) < 128
  /-- The ports of a rule that is printed have room for the PSID. -/
  ports : 0 ≤ options.rule.prefix4len → 0 ≤ options.rule.prefix6len →
    0 ≤ options.rule.eaBits pdlen → options.rule.psidBits pdlen ≤ options.rule.eaBits pdlen →
    0 ≤ pdlen ∨ options.fmr = true → options.rule.psidBits pdlen ≠ 0 →
    0 ≤ options.rule.psid ∨ (0 ≤ pdlen ∧ 0 ≤ options.rule.psidBits pdlen) →
      options.offset legacy + options.rule.psidBits pdlen ≤ 16

/-- The length of the delegated prefix that is found for a rule, or -1. -/
def foundLength (rule : Rule) (prefixes : List (In6 × Int)) : Int :=
  ((prefixes.find? fun candidate => Matches rule candidate).map Prod.snd).getD (-1)

variable {ealen psidlen offset psid : Int} {legacy : Bool}

/-- The PSID that is taken is a number, and the option is kept as it is. -/
theorem takePsid_nonneg (taken : takePsid rule pd pdlen ealen psidlen = some psid) :
    0 ≤ psid ↔ 0 ≤ rule.psid ∨ (psidlen ≤ 16 ∧ 0 ≤ psidlen ∧ 0 ≤ pdlen ∧ psidlen ≤ ealen) := by
  unfold takePsid at taken
  split at taken
  · rename_i guard
    obtain ⟨psid16, -, rest⟩ := Option.bind_eq_some_iff.mp taken
    obtain rfl := Option.some.inj rest
    exact ⟨fun _ => .inr guard.2, fun _ => Int.natCast_nonneg _⟩
  · rename_i guard
    obtain rfl := Option.some.inj taken
    constructor
    · exact .inl
    · rintro (given | free)
      · exact given
      · by_contra negative
        exact guard ⟨by omega, free⟩

theorem takePsid_isSome_iff (nonneg : 0 ≤ pdlen → 0 ≤ rule.prefix6len)
    (small : rule.prefix6len ≤ 112) (few : ealen ≤ 128) :
    (takePsid rule pd pdlen ealen psidlen).isSome ↔
      (rule.psid < 0 ∧ psidlen ≤ 16 ∧ 0 ≤ psidlen ∧ 0 ≤ pdlen ∧ psidlen ≤ ealen →
        rule.prefix6len + ealen < 128) := by
  unfold takePsid
  split
  · rename_i guard
    obtain ⟨unset, short, positive, found, less⟩ := guard
    have start := nonneg found
    have first : sizeT (rule.prefix6len + ealen - psidlen) =
        (rule.prefix6len + ealen - psidlen).toNat := by
      unfold sizeT
      omega
    have count : sizeT psidlen = psidlen.toNat := by
      unfold sizeT
      omega
    have reach := @bmemcpys64_isSome_iff [0, 0] pd.bytes
      (rule.prefix6len + ealen - psidlen).toNat psidlen.toNat
    rw [pd.size, List.length_cons, List.length_singleton] at reach
    rw [Option.bind_eq_bind, Option.isSome_bind, first, count]
    simp only [Option.pure_def, Option.isSome_some, Option.any_true, reach]
    constructor
    · intro inside _
      omega
    · intro inside
      have last := inside ⟨unset, short, positive, found, less⟩
      omega
  · rename_i guard
    exact ⟨fun _ all => absurd all guard, fun _ => rfl⟩

theorem takeIpv4addr_isSome_iff (int : UpTo 112 rule.prefix6len) (few : ealen ≤ 128)
    (short : -15 ≤ psidlen) :
    (takeIpv4addr rule pd pdlen ealen psidlen).isSome ↔
      ((0 ≤ pdlen ∨ ealen = psidlen) ∧ psidlen ≤ ealen →
        0 ≤ rule.prefix6len ∧ 0 ≤ rule.prefix4len ∧ rule.prefix4len < 32 ∧
          ealen - psidlen ≤ 32 ∧ rule.prefix6len + (ealen - psidlen) < 128) := by
  obtain ⟨low, high⟩ := int
  unfold takeIpv4addr
  split
  · rename_i guard
    have count : sizeT (ealen - psidlen) = (ealen - psidlen).toNat := by
      unfold sizeT
      omega
    have first : 0 ≤ rule.prefix6len → sizeT rule.prefix6len = rule.prefix6len.toNat := by
      unfold sizeT
      omega
    have far : rule.prefix6len < 0 → 128 ≤ sizeT rule.prefix6len := by
      unfold sizeT
      omega
    have reach := @bmemcpys64_isSome_iff [0, 0, 0, 0] pd.bytes (sizeT rule.prefix6len)
      (ealen - psidlen).toNat
    rw [pd.size] at reach
    simp only [List.length_cons, List.length_nil] at reach
    rw [count]
    constructor
    · intro made _
      obtain ⟨addr, done⟩ := Option.isSome_iff_exists.mp made
      simp only [Option.bind_eq_bind, Option.bind_eq_some_iff, shiftRight,
        Option.ite_none_right_eq_some] at done
      obtain ⟨taken, copied, shifted, ⟨counted, -⟩, -⟩ := done
      have inside := reach.mp (Option.isSome_iff_exists.mpr ⟨taken, copied⟩)
      have start : 0 ≤ rule.prefix6len := by
        by_contra negative
        have outside := far (by omega)
        omega
      have same := first start
      omega
    · intro fits
      obtain ⟨start, positive, below, width, last⟩ := fits guard
      obtain ⟨taken, copied⟩ := Option.isSome_iff_exists.mp (reach.mpr (by
        rw [first start]
        omega))
      have placed : (bmemcpy (bytes 4 (number taken >>> rule.prefix4len.toNat))
          rule.ipv4prefix.bytes (sizeT rule.prefix4len)).isSome := by
        rw [bmemcpy_isSome_iff, length_bytes, rule.ipv4prefix.size, sizeT]
        omega
      rw [copied]
      simp only [Option.bind_eq_bind, Option.bind_some, shiftRight]
      rw [if_pos ⟨positive, below⟩]
      exact placed
  · rename_i guard
    exact ⟨fun _ all => absurd all guard, fun _ => rfl⟩

/-- The ranges are printed where the PSID has room behind the offset. -/
theorem printPortsets_isSome_iff (low : 0 ≤ offset) (high : offset ≤ 16) (short : -15 ≤ psidlen) :
    (printPortsets offset psidlen psid).isSome ↔
      (psidlen ≠ 0 → 0 ≤ psid → offset + psidlen ≤ 16) := by
  obtain ⟨offset, rfl⟩ := Int.eq_ofNat_of_zero_le low
  by_cases asked : psidlen ≠ 0 ∧ 0 ≤ psid
  · obtain ⟨sized, given⟩ := asked
    by_cases room : offset + psidlen ≤ 16
    · rw [printPortsets_eq_some (by omega) sized given short room]
      exact ⟨fun _ _ _ => room, fun _ => rfl⟩
    · rw [printPortsets_eq_none (by omega) sized given (by omega)]
      exact ⟨fun made => absurd made Bool.false_ne_true, fun fits => absurd (fits sized given) room⟩
  · constructor
    · intro _ sized given
      exact absurd ⟨sized, given⟩ asked
    · intro _
      unfold printPortsets
      split
      · rfl
      · rename_i sized
        rw [if_neg fun given => asked ⟨sized, given⟩]
        rfl

theorem makeIpv6addr_isSome (low : pdlen ≤ 128) {ipv4addr psid16 : List UInt8}
    (four : ipv4addr.length = 4) (two : psid16.length = 2) :
    (makeIpv6addr legacy pd pdlen ipv4addr psid16).isSome := by
  unfold makeIpv6addr
  split
  · rename_i found
    have places : (if legacy then 9 else 10) + 4 + 2 ≤ 16 := by
      cases legacy <;> decide
    obtain ⟨withAddr, first⟩ := @store_isSome _ in6addrAny.bytes ipv4addr
      (if legacy then 9 else 10) (by rw [in6addrAny.size]; omega)
    have size := (store_length first).trans in6addrAny.size
    obtain ⟨withPsid, second⟩ := @store_isSome _ withAddr psid16
      ((if legacy then 9 else 10) + 4) (by omega)
    have size' := (store_length second).trans size
    simp only [first, second, Option.bind_eq_bind, Option.bind_some]
    rw [bmemcpy_isSome_iff, size', pd.size, sizeT]
    omega
  · rfl

theorem bmemcpy_length {result : List UInt8} (copied : bmemcpy a b bits = some result) :
    result.length = a.length := by
  obtain ⟨target, source⟩ := bmemcpy_isSome_iff.mp (Option.isSome_iff_exists.mpr ⟨result, copied⟩)
  obtain ⟨result', copied', length, -⟩ := bmemcpy_bits target source
  obtain rfl := Option.some.inj (copied.symm.trans copied')
  exact length

theorem length_takeIpv4addr {addr : List UInt8}
    (taken : takeIpv4addr rule pd pdlen ealen psidlen = some addr) : addr.length = 4 := by
  unfold takeIpv4addr at taken
  split at taken
  · simp only [Option.bind_eq_bind, Option.bind_eq_some_iff] at taken
    obtain ⟨-, -, shifted, -, copied⟩ := taken
    rw [bmemcpy_length copied, length_bytes]
  · obtain rfl := Option.some.inj taken
    rfl

/-- What is computed for a rule, by its parts. -/
theorem mapEa_eq_some {mapped : Mapped} (made : mapEa rule pd pdlen = some mapped) :
    mapped.ealen = rule.eaBits pdlen ∧ mapped.psidlen = rule.psidBits pdlen ∧
      takePsid rule pd pdlen (rule.eaBits pdlen) (rule.psidBits pdlen) = some mapped.psid ∧
      takeIpv4addr rule pd pdlen (rule.eaBits pdlen) (rule.psidBits pdlen) =
        some mapped.ipv4addr := by
  obtain ⟨psid, taken, rest⟩ := Option.bind_eq_some_iff.mp made
  obtain ⟨addr, taken', rest⟩ := Option.bind_eq_some_iff.mp rest
  obtain rfl := Option.some.inj rest
  exact ⟨rfl, rfl, taken, taken'⟩

theorem mapEa_isSome_iff :
    (mapEa rule pd pdlen).isSome ↔
      (takePsid rule pd pdlen (rule.eaBits pdlen) (rule.psidBits pdlen)).isSome ∧
        (takeIpv4addr rule pd pdlen (rule.eaBits pdlen) (rule.psidBits pdlen)).isSome := by
  constructor
  · intro made
    obtain ⟨mapped, done⟩ := Option.isSome_iff_exists.mp made
    obtain ⟨-, -, taken, taken'⟩ := mapEa_eq_some done
    rw [taken, taken']
    exact ⟨rfl, rfl⟩
  · rintro ⟨some, some'⟩
    obtain ⟨psid, taken⟩ := Option.isSome_iff_exists.mp some
    obtain ⟨addr, taken'⟩ := Option.isSome_iff_exists.mp some'
    unfold Rule.psidBits Rule.eaBits at taken taken'
    unfold mapEa
    simp only [taken, taken', Option.bind_eq_bind, Option.bind_some, Option.pure_def,
      Option.isSome_some]

theorem Options.offset_bounds (accepted : Accepted options.rule) :
    0 ≤ options.offset legacy ∧ options.offset legacy ≤ 16 := by
  have limit := accepted.offset.2
  unfold Options.offset
  split
  · split
    · exact ⟨by decide, by decide⟩
    · split
      · exact ⟨by decide, by decide⟩
      · exact ⟨by decide, by decide⟩
  · omega

theorem Rule.eaBits_le (accepted : Accepted rule) (high : pdlen ≤ 128)
    (nonneg : 0 ≤ pdlen → 0 ≤ rule.prefix6len) : rule.eaBits pdlen ≤ 128 := by
  have limit := accepted.ealen.2
  unfold Rule.eaBits
  split
  · omega
  · omega

/-- The values of a rule are computed where its lengths fit. -/
theorem calculateFor_isSome_iff (accepted : Accepted options.rule) (low : -1 ≤ pdlen)
    (high : pdlen ≤ 128) (nonneg : 0 ≤ pdlen → 0 ≤ options.rule.prefix6len) :
    (calculateFor options legacy pd pdlen).isSome ↔ Fits options legacy pdlen := by
  have few := Rule.eaBits_le accepted high nonneg
  obtain ⟨first, last⟩ := @Options.offset_bounds options legacy accepted
  have takesPsid := @takePsid_isSome_iff options.rule pd pdlen _ (options.rule.psidBits pdlen)
    nonneg accepted.prefix6len.2 few
  have takesAddr := @takeIpv4addr_isSome_iff options.rule pd pdlen _ (options.rule.psidBits pdlen)
    accepted.prefix6len few
  constructor
  · intro made
    obtain ⟨printed, done⟩ := Option.isSome_iff_exists.mp made
    unfold calculateFor at done
    simp only [Option.bind_eq_bind, Option.bind_eq_some_iff, shiftRightInt,
      Option.ite_none_right_eq_some] at done
    obtain ⟨mapped, mapEa, psid16, ⟨counted, -⟩, rest⟩ := done
    obtain ⟨taken, taken'⟩ := mapEa_isSome_iff.mp (Option.isSome_iff_exists.mpr ⟨mapped, mapEa⟩)
    obtain ⟨ealen, psidlen, psid, addr⟩ := mapEa_eq_some mapEa
    rw [psidlen] at counted
    refine ⟨by omega, fun unset found positive less => ?_, fun made less => ?_, ?_⟩
    · exact takesPsid.mp taken ⟨unset, by omega, positive, found, less⟩
    · exact (takesAddr (by omega)).mp taken' ⟨made, less⟩
    · intro four six whole less kept some given
      rw [ealen, psidlen, if_neg (by omega), if_neg (by
        rintro ⟨lost, unset⟩
        rcases kept with found | set
        · omega
        · rw [set] at unset
          cases unset)] at rest
      simp only [Option.bind_eq_some_iff] at rest
      obtain ⟨-, -, ranges, printed, -⟩ := rest
      have number := (takePsid_nonneg psid).mpr (by omega)
      exact (printPortsets_isSome_iff first last (by omega)).mp
        (Option.isSome_iff_exists.mpr ⟨ranges, printed⟩) some number
  · intro fits
    obtain ⟨short, long⟩ := fits.psid16
    obtain ⟨mapped, made⟩ := Option.isSome_iff_exists.mp (mapEa_isSome_iff.mpr
      ⟨takesPsid.mpr fun guard => fits.psid guard.1 guard.2.2.2.1 guard.2.2.1 guard.2.2.2.2,
        (takesAddr short).mpr fun guard => fits.address guard.1 guard.2⟩)
    obtain ⟨ealen, psidlen, psid, addr⟩ := mapEa_eq_some made
    unfold calculateFor
    simp only [made, Option.bind_eq_bind, Option.bind_some, shiftRightInt, ealen, psidlen]
    rw [if_pos (by omega)]
    simp only [Option.bind_some]
    split
    · rfl
    · rename_i valid
      split
      · rfl
      · rename_i kept
        obtain ⟨ipv6addr, stored⟩ := Option.isSome_iff_exists.mp
          (@makeIpv6addr_isSome pd pdlen legacy high mapped.ipv4addr
            (bytes 2 (mapped.psid >>> (16 - options.rule.psidBits pdlen).toNat % 2 ^ 16).toNat)
            (length_takeIpv4addr addr) (length_bytes ..))
        obtain ⟨ranges, printed⟩ := Option.isSome_iff_exists.mp
          ((@printPortsets_isSome_iff (options.rule.psidBits pdlen) (options.offset legacy)
            mapped.psid first last short).mpr fun some number => by
              have given := (takePsid_nonneg psid).mp number
              refine fits.ports (by omega) (by omega) (by omega) (by omega) ?_ some (by omega)
              by_contra lost
              apply kept
              refine ⟨by omega, ?_⟩
              cases set : options.fmr with
              | false => rfl
              | true => exact absurd (.inr set) lost)
        rw [stored, Option.bind_some, printed]
        rfl

/-- The length of the delegated prefix is that of one of them. -/
theorem foundLength_bounds (masks : ∀ candidate ∈ prefixes, 0 ≤ candidate.2 ∧ candidate.2 ≤ 128) :
    -1 ≤ foundLength rule prefixes ∧ foundLength rule prefixes ≤ 128 := by
  unfold foundLength
  cases found : prefixes.find? fun candidate => Matches rule candidate with
  | none => exact ⟨by decide, by decide⟩
  | some candidate =>
      have mask := masks candidate (List.mem_of_find?_eq_some found)
      rw [Option.map_some, Option.getD_some]
      omega

/-- A rule stays in its buffers, and shifts words by less than their width, exactly if it has a
prefix length or there is no delegated prefix to compare, and its lengths fit together. -/
theorem calculate_isSome_iff (parsed : parseRule inetPton inetPton6 text = some options)
    (masks : ∀ candidate ∈ prefixes, 0 ≤ candidate.2 ∧ candidate.2 ≤ 128) :
    (calculate options legacy prefixes).isSome ↔
      (0 ≤ options.rule.prefix6len ∨ prefixes = []) ∧
        Fits options legacy (foundLength options.rule prefixes) := by
  have accepted := parseRule_accepted parsed
  obtain ⟨int, small⟩ := accepted.prefix6len
  obtain ⟨low, high⟩ := @foundLength_bounds options.rule prefixes masks
  unfold calculate
  by_cases given : 0 ≤ options.rule.prefix6len
  · rw [findPd_eq given (by omega)]
    unfold foundLength at low high ⊢
    simp only [Option.bind_eq_bind, Option.bind_some, given, true_or, true_and]
    cases found : prefixes.find? fun candidate => Matches options.rule candidate with
    | none =>
        exact calculateFor_isSome_iff accepted (by decide) (by decide) (fun _ => given)
    | some candidate =>
        rw [found] at low high
        exact calculateFor_isSome_iff accepted low high (fun _ => given)
  · rw [findPd_of_neg (by omega) int]
    by_cases empty : prefixes = []
    · subst empty
      have none := @calculateFor_isSome_iff options in6addrAny (-1) legacy accepted (by decide)
        (by decide) (fun none => absurd none (by decide))
      rw [if_pos rfl]
      exact none.trans ⟨fun fits => ⟨.inr rfl, fits⟩, fun fits => fits.2⟩
    · rw [if_neg empty]
      constructor
      · intro made
        exact absurd made Bool.false_ne_true
      · rintro ⟨given' | none, -⟩
        · exact absurd given' given
        · exact absurd none empty

/-! ## Two rules -/

/-- What `inet_pton` leaves for the addresses of `exampleRule`. -/
def exampleInetPton (text : List UInt8) (old : In4) : In4 :=
  if text = ofString "192.0.2.0" then exampleRule.ipv4prefix else old

/-- What `inet_pton` leaves for the IPv6 prefix of `exampleRule`. -/
def exampleInetPton6 (text : List UInt8) (old : In6) : In6 :=
  if text = ofString "2001:db8::" then exampleRule.ipv6prefix else old

/-- The text of a rule whose address has 8 bits of the delegated prefix. -/
def exampleText : List UInt8 :=
  ofString "type=map-e,ipv6prefix=2001:db8::,prefix6len=40,ipv4prefix=192.0.2.0,prefix4len=24"

theorem parseRule_exampleText : parseRule exampleInetPton exampleInetPton6 exampleText =
    some { defaults with rule := exampleRule } := by
  decide +kernel

/-- The text of a rule for one address, which is given in full. -/
def singleText : List UInt8 :=
  ofString "type=map-e,ipv6prefix=2001:db8::,prefix6len=64,ipv4prefix=192.0.2.0,prefix4len=32,psid=0"

theorem parseRule_singleText : parseRule exampleInetPton exampleInetPton6 singleText =
    some { defaults with rule := { exampleRule with prefix4len := 32, prefix6len := 64, psid := 0 } } := by
  decide +kernel

/-- The prefix 2001:db8::/64 is delegated for it. -/
def singlePd : In6 × Int := (exampleRule.ipv6prefix, 64)

/-- The word of an address is shifted by 32 where the prefix of the rule is all of it. -/
theorem calculate_leaves :
    ¬∀ inetPton inetPton6 text options legacy (prefixes : List (In6 × Int)),
      parseRule inetPton inetPton6 text = some options →
      (∀ candidate ∈ prefixes, 0 ≤ candidate.2 ∧ candidate.2 ≤ 128) →
        (calculate options legacy prefixes).isSome := by
  intro all
  have made := all _ _ _ _ false [singlePd] parseRule_singleText (by decide)
  revert made
  decide +kernel

/-- The rule with an address of 24 bits stays in its buffers. -/
theorem calculate_isSome_iff_example :
    (calculate { defaults with rule := exampleRule } false [(examplePd, 56)]).isSome :=
  (calculate_isSome_iff parseRule_exampleText (by decide)).mpr ⟨.inl (by decide), by
    have length : foundLength exampleRule [(examplePd, 56)] = 56 := by decide +kernel
    refine ⟨?_, ?_, ?_, ?_⟩ <;> simp only [length] <;> decide +kernel⟩

end Trunk.Map
