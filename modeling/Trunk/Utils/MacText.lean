import Trunk.Utils.Address

/-! # The text of a MAC address

`os_getmac_bystring` reads the bytes of a text where they stand in memory, up to the
terminating NUL, and asserts on its length and on every digit. On the bytes in memory it is
`Trunk.Address.readMac`: it never reads past the terminator, and it returns exactly on a text
that names an address (`Trunk.Address.readMac_ok_iff`). What `os_macsnprintf` writes is such a
text, and it is read back (`Trunk.Address.readMac_osMacsnprintf`).
-/

namespace Trunk.Address

open CString Number

variable {text : CStr} {start : Nat}

/-- What stops a reader of text: an assert that fails, or a byte past the terminator. -/
inductive Fault where
  | assert
  | overrun
  deriving DecidableEq, Repr

/-- `string[index]`. -/
def charAt (string : CStr) (index : Nat) : Except Fault UInt8 :=
  match (string.bytes ++ [0])[index]? with
  | some byte => .ok byte
  | none => .error .overrun

/-- `os_digitchar2int(string[index])`. -/
def digitAt (string : CStr) (index : Nat) : Except Fault Nat := do
  match osDigitchar2int (← charAt string index) with
  | some value => .ok value
  | none => .error .assert

/-- `os_digitstring2number(string + start, 2, 16, int)`, as it is stored in a byte. -/
def byteAt (string : CStr) (start : Nat) : Except Fault UInt8 := do
  let high ← digitAt string start
  let low ← digitAt string (start + 1)
  return UInt8.ofNat (high * 16 + low)

/-- The distance of two numbers in a text, for the two lengths that are known. -/
def macWidth (length : Nat) : Option Nat :=
  if length = 17 then some 3 else if length = 12 then some 2 else none

theorem length_six (a b c d e f : UInt8) : [a, b, c, d, e, f].length = 6 := rfl

/-- The loop over the `OS_MACSIZE` bytes of an address. -/
def macOfBytes {m : Type → Type} [Monad m] (byte : Nat → m UInt8) : m Mac := do
  return ⟨[← byte 0, ← byte 1, ← byte 2, ← byte 3, ← byte 4, ← byte 5], length_six ..⟩

/-- `os_getmac_bystring`, on the bytes in memory. -/
def readMac (macstring : CStr) : Except Fault Mac :=
  match macWidth macstring.bytes.length with
  | none => .error .assert
  | some width => macOfBytes fun index => byteAt macstring (width * index)

/-- Two hexadecimal digits. -/
def HexPair (text : CStr) (start : Nat) : Prop :=
  ∀ byte ∈ (text.bytes.drop start).take 2, (osDigitchar2int byte).isSome

/-- The texts that name an address: six numbers of two hexadecimal digits, with one byte of
any kind between them or with none. -/
def MacText (text : CStr) : Prop :=
  (text.bytes.length = 17 ∧ ∀ index < 6, HexPair text (3 * index)) ∨
    (text.bytes.length = 12 ∧ ∀ index < 6, HexPair text (2 * index))

/-- The text that the formats of `os_macsnprintf` write. With a separator that is not zero,
`%c` writes its low byte. -/
def macWritten (mac : Mac) (sep : Int) : List UInt8 :=
  if sep = 0 then (mac.bytes.map hexByte).flatten
  else ((mac.bytes.map hexByte).intersperse [UInt8.ofInt sep]).flatten

/-- `os_macsnprintf` into a buffer of `len` bytes. -/
def osMacsnprintf (mac : Mac) (len : Nat) (sep : Int) : CStr :=
  CStr.ofBuffer ((macWritten mac sep).take (len - 1))

/-- `um_macstring` is the text with a colon. -/
example : (osMacsnprintf osFullmac 18 58).bytes = macString osFullmac := by decide

/-- A computation that only an assert can stop. -/
def asserted {α : Type} : Option α → Except Fault α
  | some value => .ok value
  | none => .error .assert

theorem asserted_ne_overrun {α : Type} (value : Option α) : asserted value ≠ .error .overrun := by
  cases value <;> nofun

theorem asserted_ok_iff {α : Type} {value : Option α} {result : α} :
    asserted value = .ok result ↔ value = some result := by
  cases value with
  | none => exact ⟨nofun, nofun⟩
  | some other => rw [asserted, Except.ok.injEq, Option.some.injEq]

theorem asserted_bind {α β : Type} (value : Option α) (next : α → Option β) :
    (asserted value >>= fun result => asserted (next result)) = asserted (value >>= next) := by
  cases value <;> rfl

theorem digitAt_inside (inside : start < text.bytes.length) :
    digitAt text start = asserted (osDigitchar2int text.bytes[start]) := by
  rw [digitAt, charAt, List.getElem?_append_left inside, List.getElem?_eq_getElem inside]
  cases digit : osDigitchar2int text.bytes[start] with
  | none => simp only [digit, asserted, bind, Except.bind]
  | some value => simp only [digit, asserted, bind, Except.bind]

theorem pair_inside (inside : start + 1 < text.bytes.length) :
    (text.bytes.drop start).take 2 = [text.bytes[start], text.bytes[start + 1]] := by
  rw [List.drop_eq_getElem_cons (by omega), List.drop_eq_getElem_cons inside]
  rfl

/-- The number of two digits, with the 64-bit sums or the `int` that a byte keeps the low
bits of. -/
theorem osDigitstring2number_pair (high low : UInt8) :
    (osDigitstring2number [high, low] 16).map UInt8.ofNat =
      (do return UInt8.ofNat ((← osDigitchar2int high) * 16 + (← osDigitchar2int low))) := by
  simp only [osDigitstring2number, List.foldlM_cons, List.foldlM_nil, Option.bind_eq_bind,
    Option.pure_def]
  cases osDigitchar2int high with
  | none => rfl
  | some first =>
      cases osDigitchar2int low with
      | none => rfl
      | some second =>
          simp only [Option.bind_some, Option.map_some, Option.some.injEq]
          apply UInt8.toNat_inj.mp
          simp only [UInt8.toNat_ofNat']
          omega

/-- A number inside the text is that of its two digits. -/
theorem byteAt_inside (inside : start + 1 < text.bytes.length) :
    byteAt text start =
      asserted ((osDigitstring2number ((text.bytes.drop start).take 2) 16).map UInt8.ofNat) := by
  have before : start < text.bytes.length := by omega
  rw [pair_inside inside, osDigitstring2number_pair, byteAt, digitAt_inside before,
    digitAt_inside inside, ← asserted_bind]
  congr 1
  funext high
  rw [← asserted_bind]
  rfl

/-- The six numbers of a text lie inside it. -/
theorem macWidth_inside {width index : Nat} (known : macWidth text.bytes.length = some width)
    (below : index < 6) : width * index + 1 < text.bytes.length := by
  unfold macWidth at known
  split at known
  · obtain rfl := Option.some.inj known
    omega
  · split at known
    · obtain rfl := Option.some.inj known
      omega
    · cases known

theorem macOfBytes_asserted {byte : Nat → Except Fault UInt8} {number : Nat → Option UInt8}
    (same : ∀ index < 6, byte index = asserted (number index)) :
    macOfBytes byte = asserted (macOfBytes number) := by
  simp only [macOfBytes, same 0 (by decide), same 1 (by decide), same 2 (by decide),
    same 3 (by decide), same 4 (by decide), same 5 (by decide), ← asserted_bind]
  rfl

theorem macOfBytes_eq {number : Nat → Option UInt8} {mac : Mac}
    (bytes : ∀ index < 6, number index = mac.bytes[index]?) : macOfBytes number = some mac := by
  obtain ⟨list, size⟩ := mac
  match list, size with
  | [a, b, c, d, e, f], _ =>
      simp only [macOfBytes, bytes 0 (by decide), bytes 1 (by decide), bytes 2 (by decide),
        bytes 3 (by decide), bytes 4 (by decide), bytes 5 (by decide)]
      rfl

theorem macOfBytes_isSome {number : Nat → Option UInt8} :
    (macOfBytes number).isSome ↔ ∀ index < 6, (number index).isSome := by
  constructor
  · intro whole index below
    obtain ⟨mac, built⟩ := Option.isSome_iff_exists.mp whole
    simp only [macOfBytes, Option.bind_eq_bind, Option.bind_eq_some_iff] at built
    obtain ⟨_, at0, _, at1, _, at2, _, at3, _, at4, _, at5, -⟩ := built
    match index, below with
    | 0, _ => exact Option.isSome_of_eq_some at0
    | 1, _ => exact Option.isSome_of_eq_some at1
    | 2, _ => exact Option.isSome_of_eq_some at2
    | 3, _ => exact Option.isSome_of_eq_some at3
    | 4, _ => exact Option.isSome_of_eq_some at4
    | 5, _ => exact Option.isSome_of_eq_some at5
  · intro each
    have at0 := Option.eq_some_of_isSome (each 0 (by decide))
    have at1 := Option.eq_some_of_isSome (each 1 (by decide))
    have at2 := Option.eq_some_of_isSome (each 2 (by decide))
    have at3 := Option.eq_some_of_isSome (each 3 (by decide))
    have at4 := Option.eq_some_of_isSome (each 4 (by decide))
    have at5 := Option.eq_some_of_isSome (each 5 (by decide))
    rw [macOfBytes, at0, at1, at2, at3, at4, at5]
    rfl

/-- The function where its asserts hold, as a loop. -/
theorem osGetmacBystring_eq (text : CStr) :
    osGetmacBystring text = (macWidth text.bytes.length).bind fun width => macOfBytes fun index =>
      (osDigitstring2number ((text.bytes.drop (width * index)).take 2) 16).map UInt8.ofNat := by
  unfold osGetmacBystring macWidth
  by_cases long : text.bytes.length = 17
  · simp only [long, ↓reduceIte]
    rfl
  · by_cases short : text.bytes.length = 12
    · simp only [short, Nat.reduceEqDiff, ↓reduceIte]
      rfl
    · simp only [long, short, ↓reduceIte]
      rfl

/-- On the bytes in memory nothing but an assert stops the function. -/
theorem readMac_eq (text : CStr) : readMac text = asserted (osGetmacBystring text) := by
  rw [readMac, osGetmacBystring_eq]
  cases known : macWidth text.bytes.length with
  | none => rfl
  | some width =>
      exact macOfBytes_asserted fun index below => byteAt_inside (macWidth_inside known below)

theorem osDigitstring2number_isSome (inside : start + 1 < text.bytes.length) :
    (osDigitstring2number ((text.bytes.drop start).take 2) 16).isSome ↔ HexPair text start := by
  rw [HexPair, pair_inside inside, List.forall_mem_cons, List.forall_mem_singleton,
    ← Option.isSome_map (f := UInt8.ofNat), osDigitstring2number_pair]
  cases osDigitchar2int text.bytes[start] with
  | none => exact ⟨nofun, nofun⟩
  | some high =>
      cases osDigitchar2int text.bytes[start + 1] with
      | none => exact ⟨nofun, nofun⟩
      | some low => exact ⟨fun _ => ⟨rfl, rfl⟩, fun _ => rfl⟩

/-- The asserts hold on the texts that name an address, and on no other. -/
theorem osGetmacBystring_isSome : (osGetmacBystring text).isSome ↔ MacText text := by
  have texts : MacText text ↔ ∃ width, macWidth text.bytes.length = some width ∧
      ∀ index < 6, HexPair text (width * index) := by
    unfold MacText macWidth
    by_cases long : text.bytes.length = 17
    · simp [long]
    · by_cases short : text.bytes.length = 12
      · simp [short]
      · simp [long, short]
  rw [texts, osGetmacBystring_eq]
  cases known : macWidth text.bytes.length with
  | none => simp
  | some width =>
      rw [Option.bind_some, macOfBytes_isSome]
      simp only [Option.isSome_map, Option.some.injEq, exists_eq_left']
      refine forall₂_congr fun index below => ?_
      exact osDigitstring2number_isSome (macWidth_inside known below)

/-- No byte past the terminator is read. -/
theorem readMac_ne_overrun (text : CStr) : readMac text ≠ .error .overrun := by
  rw [readMac_eq]
  exact asserted_ne_overrun _

theorem readMac_ok_iff : (∃ mac, readMac text = .ok mac) ↔ MacText text := by
  simp only [readMac_eq, asserted_ok_iff]
  rw [← Option.isSome_iff_exists, osGetmacBystring_isSome]

theorem osDigitstring2number_hexByte (byte : UInt8) :
    (osDigitstring2number (hexByte byte) 16).map UInt8.ofNat = some byte := by
  have bound := byte.toNat_lt
  rw [hexByte, osDigitstring2number_pair, osDigitchar2int_hexDigit (by omega),
    osDigitchar2int_hexDigit (by omega)]
  simp only [Option.bind_eq_bind, Option.bind_some, Option.pure_def, Option.some.injEq]
  rw [Nat.div_add_mod', UInt8.ofNat_toNat]

theorem hexByte_noNul (byte : UInt8) : 0 ∉ hexByte byte := by
  have bound := byte.toNat_lt
  intro member
  simp only [hexByte, List.mem_cons, List.not_mem_nil, or_false] at member
  rcases member with zero | zero
  · exact hexDigit_ne_zero (by omega) zero.symm
  · exact hexDigit_ne_zero (by omega) zero.symm

theorem macWritten_noNul (mac : Mac) {sep : Int} (visible : sep = 0 ∨ UInt8.ofInt sep ≠ 0) :
    0 ∉ macWritten mac sep := by
  obtain ⟨list, size⟩ := mac
  match list, size with
  | [a, b, c, d, e, f], _ =>
      by_cases plain : sep = 0
      · simp [macWritten, plain, hexByte_noNul]
      · have seen : (0 : UInt8) ≠ UInt8.ofInt sep := (visible.resolve_left plain).symm
        simp [macWritten, plain, hexByte_noNul, List.intersperse, seen]

theorem macWidth_macWritten (mac : Mac) (sep : Int) :
    macWidth (macWritten mac sep).length = some (if sep = 0 then 2 else 3) := by
  obtain ⟨list, size⟩ := mac
  match list, size with
  | [a, b, c, d, e, f], _ =>
      unfold macWritten
      split <;> rfl

/-- Where the number of each byte stands. -/
theorem macWritten_word (mac : Mac) (sep : Int) {index : Nat} (below : index < mac.bytes.length) :
    ((macWritten mac sep).drop ((if sep = 0 then 2 else 3) * index)).take 2 =
      hexByte mac.bytes[index] := by
  obtain ⟨list, size⟩ := mac
  match list, size with
  | [a, b, c, d, e, f], _ =>
      unfold macWritten
      match index, below with
      | 0, _ | 1, _ | 2, _ | 3, _ | 4, _ | 5, _ => split <;> rfl

/-- What a `%x` conversion has to tell a digit from. -/
theorem hexDigit_plain {value : Nat} (small : value < 16) :
    digit (hexDigit value) = some value ∧ isSpace (hexDigit value) = false ∧
      hexDigit value ≠ ascii '-' ∧ hexDigit value ≠ ascii '+' ∧ hexDigit value ≠ 120 ∧
      hexDigit value ≠ 88 := by
  decide +revert

/-- A `%x` conversion reads the number of a byte, up to a character that is not a digit. -/
theorem scanHex_hexByte (byte : UInt8) {rest : List UInt8}
    (stop : ∀ next ∈ rest.head?, digit next = none) :
    scanHex (hexByte byte ++ rest) = some (byte.toUInt32, rest) := by
  have bound := byte.toNat_lt
  have highSmall : byte.toNat / 16 < 16 := by omega
  have lowSmall : byte.toNat % 16 < 16 := by omega
  obtain ⟨high, notSpace, notMinus, notPlus, -, -⟩ := hexDigit_plain highSmall
  obtain ⟨low, -, -, -, notX, notX'⟩ := hexDigit_plain lowSmall
  have number : byte.toNat / 16 * 16 + byte.toNat % 16 = byte.toNat := by omega
  have fits : ¬ 2 ^ 32 ≤ byte.toNat := by omega
  have taken : rest.takeWhile (fun next => (digit next).isSome) = [] ∧
      rest.dropWhile (fun next => (digit next).isSome) = rest := by
    cases rest with
    | nil => exact ⟨rfl, rfl⟩
    | cons next rest => simp [stop next rfl]
  have unprefixed : hexStart (hexDigit (byte.toNat / 16) :: hexDigit (byte.toNat % 16) :: rest) =
      hexDigit (byte.toNat / 16) :: hexDigit (byte.toNat % 16) :: rest := by
    unfold hexStart
    split
    · rename_i same
      exact absurd (List.cons.inj (List.cons.inj same).2).1 notX
    · rename_i same
      exact absurd (List.cons.inj (List.cons.inj same).2).1 notX'
    · rfl
  rw [scanHex]
  simp only [hexByte, List.cons_append, List.nil_append, List.dropWhile_cons, notSpace,
    Bool.false_eq_true, if_false, List.head?_cons, Option.some.injEq, notMinus, notPlus,
    decide_false, Bool.or_self, unprefixed, List.takeWhile_cons, high, low, Option.isSome_some,
    if_true, taken, digits, List.isEmpty_cons, List.foldlM_cons, List.foldlM_nil,
    Option.bind_eq_bind, Option.bind_some, highSmall, lowSmall, Option.map_some, Nat.zero_mul,
    Nat.zero_add, number, fits, Option.pure_def, UInt32.ofNat_uInt8ToNat]

/-- An address is read back from the text that `os_macsnprintf` writes into a buffer that
holds it, without a separator or with any that `%c` does not write as a NUL. -/
theorem readMac_osMacsnprintf (mac : Mac) {len : Nat} {sep : Int}
    (roomy : (macWritten mac sep).length < len) (visible : sep = 0 ∨ UInt8.ofInt sep ≠ 0) :
    readMac (osMacsnprintf mac len sep) = .ok mac := by
  have fits : (macWritten mac sep).length ≤ len - 1 := by omega
  rw [osMacsnprintf, List.take_of_length_le fits, CStr.ofBuffer_eq (macWritten_noNul mac visible),
    readMac_eq, asserted_ok_iff, osGetmacBystring_eq, macWidth_macWritten, Option.bind_some]
  refine macOfBytes_eq fun index below => ?_
  have inside : index < mac.bytes.length := mac.size ▸ below
  rw [macWritten_word mac sep inside, osDigitstring2number_hexByte,
    List.getElem?_eq_getElem inside]

end Trunk.Address
