import Mathlib.Data.List.Chain
import Mathlib.Data.List.Forall2
import Mathlib.Data.Nat.ModEq
import Mathlib.Logic.Function.Basic
import Trunk.Firmware.Srec2bin

/-! # The memory of an S-record file

An S-record file is a list of records, spelled in hexadecimal digits
(`Trunk.Firmware.Srec2bin.IsFile`). `srec2bin` goes over the bytes and the start addresses of its
records, up to the first one that it refuses (`Trunk.Firmware.Srec2bin.srecLoop_spelled`), and the
records of the output are the runs of bytes that follow each other
(`Trunk.Firmware.Srec2bin.tracks_foldl`).

The output holds the memory of the file and its start addresses, if nothing is placed from the first
refused record on and the runs are those that the test for the next address can tell apart
(`Trunk.Firmware.Srec2bin.preserves_of_separate`).
-/

namespace Trunk.Firmware.Srec2bin

open CString Network

/-! ## S-records -/

/-- The records that the program knows. The count of a record is one byte. -/
inductive Srec where
  | s0 (address : UInt16) (data : List UInt8) (short : data.length ≤ 252)
  | s3 (address : UInt32) (data : List UInt8) (short : data.length ≤ 250)
  | s5 (number : UInt16)
  | s7 (address : UInt32)
  deriving DecidableEq

namespace Srec

/-- The digit of the type. -/
def type : Srec → UInt8
  | s0 .. => ascii '0'
  | s3 .. => ascii '3'
  | s5 _ => ascii '5'
  | s7 _ => ascii '7'

/-- The address and the data. -/
def payload : Srec → List UInt8
  | s0 address data _ => bytes 2 address.toNat ++ data
  | s3 address data _ => bytes 4 address.toNat ++ data
  | s5 number => bytes 2 number.toNat
  | s7 address => bytes 4 address.toNat

/-- The count: the bytes of the address, of the data and of the check sum. -/
def count (record : Srec) : Nat := record.payload.length + 1

/-- The complement of the sum of the count, the address and the data. -/
def check (record : Srec) : UInt8 :=
  UInt8.ofNat (255 - (record.count + (record.payload.map UInt8.toNat).sum) % 256)

/-- The bytes of the record. -/
def content (record : Srec) : List UInt8 :=
  UInt8.ofNat record.count :: (record.payload ++ [record.check])

end Srec

/-- The bytes that hexadecimal digits of either case spell. -/
def decodeHex : List UInt8 → Option (List UInt8)
  | [] => some []
  | [_] => none
  | high :: low :: text => do
      let high ← digit high
      let low ← digit low
      let rest ← decodeHex text
      return UInt8.ofNat (16 * high + low) :: rest

/-- A line spells a record. -/
def Spells (line : List UInt8) (record : Srec) : Prop :=
  line.take 2 = [ascii 'S', record.type] ∧ decodeHex (line.drop 2) = some record.content

instance : DecidableRel Spells := fun _ _ => inferInstanceAs (Decidable (_ ∧ _))

/-- A line without carriage returns. -/
def strip (line : List UInt8) : List UInt8 := line.filter fun c => c ≠ ascii '\r'

/-- The lines of a file that are not empty spell the records. -/
def IsFile (text : List UInt8) (records : List Srec) : Prop :=
  List.Forall₂ Spells (((text.splitOn (ascii '\n')).map strip).filter (· ≠ [])) records

instance (text : List UInt8) (records : List Srec) : Decidable (IsFile text records) :=
  inferInstanceAs (Decidable (List.Forall₂ _ _ _))

/-! ## What a file places -/

/-- A byte that is placed in memory, or a start address. -/
inductive Item where
  | byte (address : UInt32) (data : UInt8)
  | start (address : UInt32)
  deriving DecidableEq

namespace Item

def address : Item → UInt32
  | byte address _ => address
  | start address => address

/-- The byte that is written and where. -/
def write : Item → Option (UInt32 × UInt8)
  | byte address data => some (address, data)
  | start _ => none

/-- The start address. -/
def entry : Item → Option UInt32
  | byte .. => none
  | start address => some address

/-- An item is at the address behind another. -/
def Follows (first second : Item) : Prop := second.address = first.address + 1

instance : DecidableRel Follows := fun _ _ => inferInstanceAs (Decidable (_ = _))

end Item

/-- Bytes at an address and behind it. -/
def placed : UInt32 → List UInt8 → List (UInt32 × UInt8)
  | _, [] => []
  | address, byte :: data => (address, byte) :: placed (address + 1) data

/-- The memory after writes. The last write to an address counts. -/
def memory (writes : List (UInt32 × UInt8)) : UInt32 → Option UInt8 :=
  writes.foldl (fun content write => Function.update content write.1 (some write.2)) fun _ => none

/-- Bytes at an address as items. -/
def bytesAt (address : UInt32) (data : List UInt8) : List Item :=
  (placed address data).map fun write => .byte write.1 write.2

/-- What a record places. -/
def Srec.items : Srec → List Item
  | .s0 .. => []
  | .s3 address data _ => bytesAt address data
  | .s5 _ => []
  | .s7 address => [.start address]

/-- What a file places. -/
def items (records : List Srec) : List Item := records.flatMap Srec.items

/-! ## The output -/

/-- A record of the output. Its words and bytes sum to zero. -/
structure Record where
  address : UInt32
  data : List UInt8
  checkSum : UInt32
  short : data.length < 2 ^ 32
  balanced : (data.length + address.toNat + (data.map UInt8.toNat).sum + checkSum.toNat) % 2 ^ 32 = 0

/-- How a record stands in the file. -/
def Record.bytes (record : Record) : List UInt8 :=
  out32 record.data.length ++ out32 record.address.toNat ++ record.data ++
    out32 record.checkSum.toNat

/-- The output is the tag and records. Their data, placed at their addresses, are the bytes of the S3
records, and the addresses of the records without data are those of the S7 records. -/
def Preserves (bigEndian : Bool) (text : List UInt8) (records : List Srec) : Prop :=
  ∃ output : List Record,
    srec2bin bigEndian text = out32 (tag bigEndian) ++ output.flatMap Record.bytes ∧
      memory (output.flatMap fun record => placed record.address record.data) =
        memory ((items records).filterMap Item.write) ∧
      (output.filter fun record => record.data.isEmpty).map Record.address =
        (items records).filterMap Item.entry

/-! ## When the output is right -/

/-- Whether the line of a record is accepted, after `total` S3 records: it fits in the buffer, an S0
address is zero, and an S5 record stands before the S3 records. -/
def Srec.accepted (total : Nat) : Srec → Bool
  | .s0 address data _ => address = 0 && data.length ≤ 122
  | .s3 _ data _ => data.length ≤ 120
  | .s5 number => number = 0 && total = 0
  | .s7 _ => true

/-- The S3 records with one more record. -/
def Srec.tally (total : Nat) : Srec → Nat
  | .s3 .. => total + 1
  | _ => total

/-- The records from the first refused one on. -/
def refused : Nat → List Srec → List Srec
  | _, [] => []
  | total, record :: records =>
      if record.accepted total then refused (record.tally total) records else record :: records

/-- The test for the next address tells the items apart: the first address is not the one behind
`0xFFFFFFFF`, a start address is not behind or before another item, and the length of a run of bytes
is a word. -/
structure Separate (items : List Item) : Prop where
  first : ∀ item ∈ items.head?, item.address ≠ 0
  joined : items.IsChain fun first second => first.Follows second → first.entry = none ∧
    second.entry = none
  short : ∀ run, run <:+: items → run.IsChain Item.Follows → run.length < 2 ^ 32

/-! ## Digits -/

/-- `digit` and `gh` read the same digits. -/
theorem digit_eq_some {c : UInt8} {value : Nat} (read : digit c = some value) :
    isxdigit c = true ∧ nibble c = value ∧ value < 16 ∧ c ≠ 0 := by
  have every : ∀ n < 256, ∀ value ∈ digit (UInt8.ofNat n), isxdigit (UInt8.ofNat n) = true ∧
      nibble (UInt8.ofNat n) = value ∧ value < 16 ∧ UInt8.ofNat n ≠ 0 := by decide +kernel
  have here := every c.toNat c.toNat_lt value
  rw [UInt8.ofNat_toNat] at here
  exact here read

theorem decodeHex_nil {text : List UInt8} (spelled : decodeHex text = some []) : text = [] := by
  cases text with
  | nil => rfl
  | cons high text =>
      cases text with
      | nil => cases spelled
      | cons low text =>
          simp [decodeHex, Option.bind_eq_some_iff] at spelled

/-- The first byte of a spelled text is its first two digits. -/
theorem decodeHex_cons {text rest : List UInt8} {byte : UInt8}
    (spelled : decodeHex text = some (byte :: rest)) :
    ∃ high low text', text = high :: low :: text' ∧ (isxdigit high = true ∧ high ≠ 0) ∧
      (isxdigit low = true ∧ low ≠ 0) ∧ nibble high < 16 ∧ nibble low < 16 ∧
      byte.toNat = 16 * nibble high + nibble low ∧ decodeHex text' = some rest := by
  cases text with
  | nil => cases spelled
  | cons high text =>
      cases text with
      | nil => cases spelled
      | cons low text =>
          simp only [decodeHex, Option.bind_eq_bind, Option.pure_def, Option.bind_eq_some_iff,
            Option.some.injEq, List.cons.injEq] at spelled
          obtain ⟨highValue, isHigh, lowValue, isLow, tail, spelled, same, rfl⟩ := spelled
          obtain ⟨highDigit, rfl, highSmall, highNonzero⟩ := digit_eq_some isHigh
          obtain ⟨lowDigit, rfl, lowSmall, lowNonzero⟩ := digit_eq_some isLow
          refine ⟨high, low, text, rfl, ⟨highDigit, highNonzero⟩, ⟨lowDigit, lowNonzero⟩, highSmall,
            lowSmall, ?_, spelled⟩
          rw [← same, UInt8.toNat_ofNat', Nat.mod_eq_of_lt (by omega)]

theorem length_of_decodeHex {text list : List UInt8} (spelled : decodeHex text = some list) :
    text.length = 2 * list.length := by
  induction list generalizing text with
  | nil => rw [decodeHex_nil spelled]; rfl
  | cons byte rest ih =>
      obtain ⟨high, low, text, rfl, -, -, -, -, -, spelled⟩ := decodeHex_cons spelled
      rw [List.length_cons, List.length_cons, List.length_cons, ih spelled]
      omega

theorem isxdigit_of_decodeHex {text list : List UInt8} (spelled : decodeHex text = some list) :
    ∀ c ∈ text, isxdigit c = true ∧ c ≠ 0 := by
  induction list generalizing text with
  | nil =>
      rw [decodeHex_nil spelled]
      exact fun c member => absurd member List.not_mem_nil
  | cons byte rest ih =>
      obtain ⟨high, low, text, rfl, isHigh, isLow, -, -, -, spelled⟩ := decodeHex_cons spelled
      intro c member
      rcases List.mem_cons.mp member with rfl | member
      · exact isHigh
      · rcases List.mem_cons.mp member with rfl | member
        · exact isLow
        · exact ih spelled c member

/-- The digits behind the first bytes spell the rest. -/
theorem decodeHex_drop {text back : List UInt8} (front : List UInt8)
    (spelled : decodeHex text = some (front ++ back)) :
    decodeHex (text.drop (2 * front.length)) = some back := by
  induction front generalizing text with
  | nil => exact spelled
  | cons byte rest ih =>
      obtain ⟨high, low, text, rfl, -, -, -, -, -, spelled⟩ := decodeHex_cons spelled
      exact ih spelled

/-- The loop of `gh` over the digits of bytes. -/
theorem foldl_of_decodeHex {text back : List UInt8} (front : List UInt8) {j : Nat}
    (spelled : decodeHex text = some (front ++ back)) (small : j < 2 ^ 32) :
    (text.take (2 * front.length)).foldl (fun j c => (j * 16 + nibble c) % 2 ^ 32) j =
      (2 ^ (8 * front.length) * j + number front) % 2 ^ 32 := by
  induction front generalizing text j with
  | nil =>
      rw [List.length_nil, Nat.mul_zero, List.take_zero, List.foldl_nil, number, Nat.pow_zero,
        Nat.one_mul, Nat.add_zero, Nat.mod_eq_of_lt small]
  | cons byte rest ih =>
      obtain ⟨high, low, text, rfl, -, -, -, -, value, spelled⟩ := decodeHex_cons spelled
      have inner : ((j * 16 + nibble high) % 2 ^ 32 * 16 + nibble low) % 2 ^ 32 =
          (2 ^ 8 * j + byte.toNat) % 2 ^ 32 := by omega
      rw [List.length_cons, Nat.mul_add, List.take_succ_cons, List.take_succ_cons,
        List.foldl_cons, List.foldl_cons, ih spelled (Nat.mod_lt _ (Nat.two_pow_pos _)), inner,
        number, Nat.mul_add 8, Nat.pow_add]
      calc (2 ^ (8 * rest.length) * ((2 ^ 8 * j + byte.toNat) % 2 ^ 32) + number rest) % 2 ^ 32
          = (2 ^ (8 * rest.length) * (2 ^ 8 * j + byte.toNat) + number rest) % 2 ^ 32 :=
            ((Nat.mod_modEq _ _).mul_left _).add_right _
        _ = _ := by rw [Nat.mul_add, ← Nat.mul_assoc, Nat.add_assoc]

/-- `gh` reads the first bytes as a number. -/
theorem gh_of_decodeHex {text back : List UInt8} (front : List UInt8)
    (spelled : decodeHex text = some (front ++ back)) (small : front.length ≤ 4) :
    gh text (2 * front.length) = number front := by
  have bound := number_lt front
  have within : 2 ^ (8 * front.length) ≤ 2 ^ 32 := Nat.pow_le_pow_right Nat.two_pos (by omega)
  rw [gh, foldl_of_decodeHex front spelled (Nat.two_pow_pos _), Nat.mul_zero, Nat.zero_add,
    Nat.mod_eq_of_lt (by omega)]

theorem gh_byte {text rest : List UInt8} {byte : UInt8}
    (spelled : decodeHex text = some (byte :: rest)) : gh text 2 = byte.toNat := by
  have value := gh_of_decodeHex [byte] spelled (Nat.le_add_left 1 3)
  rw [number, number, List.length_nil, Nat.mul_zero, Nat.pow_zero, Nat.one_mul] at value
  exact value

/-- `checksum` adds the bytes. -/
theorem cksum_of_decodeHex {text list : List UInt8} (spelled : decodeHex text = some list) :
    cksum list.length text = (list.map UInt8.toNat).sum := by
  induction list generalizing text with
  | nil => rfl
  | cons byte rest ih =>
      have behind : decodeHex (text.drop 2) = some rest := decodeHex_drop [byte] spelled
      rw [List.length_cons, cksum, gh_byte spelled, ih behind, List.map_cons, List.sum_cons]

/-! ## Lines -/

section Lines

variable {line : List UInt8} {record : Srec} {conv : Conv} {total : Nat}

/-- An item goes to the output. -/
def step (conv : Conv) : Item → Conv
  | .byte address data => binRecOutByte conv address.toNat data
  | .start address => binRecOutProgramStart conv address.toNat

theorem Srec.count_le (record : Srec) : record.count ≤ 255 := by
  cases record with
  | s0 address data short =>
      rw [count, payload, List.length_append, length_bytes]
      omega
  | s3 address data short =>
      rw [count, payload, List.length_append, length_bytes]
      omega
  | s5 number => rw [count, payload, length_bytes]; decide
  | s7 address => rw [count, payload, length_bytes]; decide

/-- A line of a record: its type, the digits of the count and the digits behind it. -/
theorem spells_iff : Spells line record ↔ ∃ digits, line = ascii 'S' :: record.type :: digits ∧
    decodeHex digits = some record.content := by
  constructor
  · rintro ⟨front, spelled⟩
    refine ⟨line.drop 2, ?_, spelled⟩
    have whole := List.take_append_drop 2 line
    rw [front] at whole
    exact whole.symm
  · rintro ⟨digits, rfl, spelled⟩
    exact ⟨rfl, spelled⟩

theorem Srec.type_ne_zero (record : Srec) : record.type ≠ 0 := by
  cases record with
  | s0 => exact ne_of_beq_false rfl
  | s3 => exact ne_of_beq_false rfl
  | s5 => exact ne_of_beq_false rfl
  | s7 => exact ne_of_beq_false rfl

theorem Srec.length_content (record : Srec) : record.content.length = record.count + 1 := by
  rw [content, count, List.length_cons, List.length_append, List.length_singleton]

theorem length_of_spells (spells : Spells line record) : line.length = 4 + 2 * record.count := by
  obtain ⟨digits, rfl, spelled⟩ := spells_iff.mp spells
  rw [List.length_cons, List.length_cons, length_of_decodeHex spelled, Srec.length_content]
  omega

/-- A line goes into the buffer without its end. -/
theorem readline_of_spells {raw : List UInt8} (stripped : strip raw = line)
    (spells : Spells line record) : readline raw = line.take 255 := by
  obtain ⟨digits, rfl, spelled⟩ := spells_iff.mp spells
  have noNul : 0 ∉ ascii 'S' :: record.type :: digits := by
    intro member
    rcases List.mem_cons.mp member with isS | member
    · exact absurd isS (by decide)
    · rcases List.mem_cons.mp member with isType | member
      · exact record.type_ne_zero isType.symm
      · exact (isxdigit_of_decodeHex spelled 0 member).2 rfl
  rw [strip] at stripped
  rw [readline, stripped]
  exact congrArg CStr.bytes (CStr.ofBuffer_eq fun member => noNul (List.mem_of_mem_take member))

/-- The check sum of a record is right. -/
theorem checksum_of_spells {text : List UInt8}
    (spelled : decodeHex text = some (record.payload ++ [record.check])) :
    checksum text record.count = true := by
  have sum := cksum_of_decodeHex spelled
  rw [List.length_append, List.length_singleton, List.map_append, List.sum_append,
    List.map_singleton, List.sum_singleton, Srec.check, UInt8.toNat_ofNat'] at sum
  rw [checksum, Bool.and_eq_true, List.all_eq_true]
  refine ⟨fun c member => (isxdigit_of_decodeHex spelled c member).1, ?_⟩
  rw [decide_eq_true_iff, Srec.count, sum, Srec.count]
  omega

/-- A line that fits in the buffer reaches the `switch`. -/
theorem srecLine_of_spells (spells : Spells line record) :
    ∃ text, decodeHex text = some (record.payload ++ [record.check]) ∧
      srecLine conv total line = srecSwitch conv total record.type record.count text := by
  obtain ⟨digits, rfl, spelled⟩ := spells_iff.mp spells
  have counted : gh digits 2 = record.count := by
    rw [gh_byte spelled, UInt8.toNat_ofNat', Nat.mod_eq_of_lt]
    have bound := record.count_le
    omega
  have behind : decodeHex (digits.drop 2) = some (record.payload ++ [record.check]) :=
    decodeHex_drop [_] spelled
  have length := length_of_decodeHex behind
  have all := length_of_decodeHex spelled
  rw [Srec.length_content, Srec.count] at all
  rw [List.length_append, List.length_singleton] at length
  refine ⟨digits.drop 2, behind, ?_⟩
  rw [srecLine, if_neg (not_not_intro rfl), List.length_cons, if_neg (by omega)]
  simp only [List.headD_cons, List.tail_cons, List.drop_succ_cons, counted]
  rw [length, if_neg (not_not_intro (by rw [Srec.count, Nat.mul_comm])), checksum_of_spells behind,
    if_neg (by decide)]

/-- A line that does not fit is refused: its digits are odd in number. -/
theorem srecLine_of_long (spells : Spells line record) (long : 125 < record.count) :
    srecLine conv total (line.take 255) = (false, conv, total) := by
  obtain ⟨digits, rfl, spelled⟩ := spells_iff.mp spells
  have all := length_of_decodeHex spelled
  rw [Srec.length_content] at all
  have cut : (digits.take 253).length = 253 := by
    rw [List.length_take]
    omega
  rw [List.take_succ_cons, List.take_succ_cons, srecLine, if_neg (not_not_intro rfl),
    List.length_cons, cut, if_neg (by decide)]
  simp only [List.drop_succ_cons]
  rw [List.length_drop, cut, if_pos (by omega)]

/-- The loop over the data of an S3 line. -/
theorem outData_of_decodeHex {text data back : List UInt8} {address : UInt32}
    (spelled : decodeHex text = some (data ++ back)) :
    outData data.length conv address.toNat text = (bytesAt address data).foldl step conv := by
  induction data generalizing conv address text with
  | nil => rfl
  | cons byte rest ih =>
      have next : (address.toNat + 1) % 2 ^ 32 = (address + 1).toNat := by
        rw [UInt32.toNat_add]
        rfl
      have behind : decodeHex (text.drop 2) = some (rest ++ back) := decodeHex_drop [byte] spelled
      rw [List.length_cons, outData, gh_byte spelled, UInt8.ofNat_toNat, next, ih behind]
      rfl

/-- The `switch` for a record that fits in the buffer. -/
theorem srecSwitch_of_spells {text : List UInt8}
    (spelled : decodeHex text = some (record.payload ++ [record.check]))
    (fits : record.count ≤ 125) :
    srecSwitch conv total record.type record.count text =
      if record.accepted total then (true, record.items.foldl step conv, record.tally total)
      else (false, conv, total) := by
  cases record with
  | s0 address data short =>
      rw [Srec.payload, List.append_assoc] at spelled
      have zero : gh text 4 = address.toNat := by
        have value := gh_of_decodeHex _ spelled (by rw [length_bytes]; decide)
        rw [length_bytes, number_bytes, Nat.mod_eq_of_lt address.toNat_lt] at value
        exact value
      rw [Srec.count, Srec.payload, List.length_append, length_bytes] at fits ⊢
      rw [srecSwitch, Srec.type, if_pos rfl, if_neg (by omega), zero, Srec.accepted]
      by_cases isZero : address = 0
      · subst isZero
        rw [if_neg (by decide), if_pos (by simp; omega)]
        rfl
      · have nonzero : address.toNat ≠ 0 := fun none_ => isZero (UInt16.toNat_inj.mp none_)
        rw [if_pos nonzero, if_neg (by simp [isZero])]
  | s3 address data short =>
      rw [Srec.payload, List.append_assoc] at spelled
      have value := gh_of_decodeHex _ spelled (by rw [length_bytes])
      have behind := decodeHex_drop _ spelled
      rw [length_bytes, number_bytes, Nat.mod_eq_of_lt address.toNat_lt] at value
      rw [length_bytes] at behind
      rw [Srec.count, Srec.payload, List.length_append, length_bytes] at fits ⊢
      rw [srecSwitch, Srec.type, if_neg (by decide), if_pos rfl, if_neg (by omega), value,
        Srec.accepted, if_pos (by simp; omega)]
      have left : 4 + data.length + 1 - 5 = data.length := by omega
      rw [left, outData_of_decodeHex behind]
      rfl
  | s5 number_ =>
      have value := gh_of_decodeHex _ spelled (by rw [Srec.payload, length_bytes]; decide)
      rw [Srec.payload, length_bytes, number_bytes, Nat.mod_eq_of_lt number_.toNat_lt] at value
      rw [Srec.count, Srec.payload, length_bytes, srecSwitch, Srec.type, if_neg (by decide),
        if_neg (by decide), if_pos rfl, if_neg (by decide), value, Srec.accepted]
      by_cases before : number_ = 0 ∧ total = 0
      · obtain ⟨rfl, rfl⟩ := before
        rfl
      · have refuses : number_.toNat ||| total ≠ 0 := by
          intro none_
          obtain ⟨noNumber, noTotal⟩ := Nat.or_eq_zero_iff.mp none_
          exact before ⟨UInt16.toNat_inj.mp noNumber, noTotal⟩
        rw [if_pos refuses, if_neg (by simpa using before)]
  | s7 address =>
      have value := gh_of_decodeHex _ spelled (by rw [Srec.payload, length_bytes])
      rw [Srec.payload, length_bytes, number_bytes, Nat.mod_eq_of_lt address.toNat_lt] at value
      rw [Srec.count, Srec.payload, length_bytes, srecSwitch, Srec.type, if_neg (by decide),
        if_neg (by decide), if_neg (by decide), if_pos rfl, if_neg (by decide), if_neg (by decide),
        value, Srec.accepted, if_pos rfl]
      rfl

/-- The line of a record: its items go to the output, or it is refused. -/
theorem srecLine_spelled (conv : Conv) (total : Nat) (spells : Spells line record) :
    srecLine conv total (line.take 255) =
      if record.accepted total then (true, record.items.foldl step conv, record.tally total)
      else (false, conv, total) := by
  have length := length_of_spells spells
  by_cases fits : record.count ≤ 125
  · obtain ⟨text, spelled, switched⟩ := srecLine_of_spells spells
    rw [List.take_of_length_le (by omega), switched, srecSwitch_of_spells spelled fits]
  · rw [srecLine_of_long spells (Nat.lt_of_not_le fits), if_neg]
    intro accepted
    apply fits
    cases record with
    | s0 address data short =>
        have few : data.length ≤ 122 := (by simpa [Srec.accepted] using accepted : _ ∧ _).2
        rw [Srec.count, Srec.payload, List.length_append, length_bytes]
        omega
    | s3 address data short =>
        have few : data.length ≤ 120 := of_decide_eq_true accepted
        rw [Srec.count, Srec.payload, List.length_append, length_bytes]
        omega
    | s5 => exact Nat.le_of_ble_eq_true rfl
    | s7 => exact Nat.le_of_ble_eq_true rfl

/-- The loop over the lines: the items go to the output up to the first record that is refused. -/
theorem srecLoop_spelled (conv : Conv) (total : Nat) (lines : List (List UInt8))
    (records : List Srec)
    (spelled : List.Forall₂ Spells ((lines.map strip).filter (· ≠ [])) records) :
    ∃ front, records = front ++ refused total records ∧
      srecLoop conv total lines = (items front).foldl step conv := by
  induction lines generalizing conv total records with
  | nil =>
      obtain rfl := List.forall₂_nil_left_iff.mp spelled
      exact ⟨[], rfl, rfl⟩
  | cons raw lines ih =>
      rw [List.map_cons] at spelled
      by_cases empty : strip raw = []
      · have blank : readline raw = [] := by
          rw [strip] at empty
          rw [readline, empty]
          rfl
        rw [List.filter_cons_of_neg (by simpa using empty)] at spelled
        rw [srecLoop, if_pos blank]
        exact ih conv total records spelled
      · rw [List.filter_cons_of_pos (by simpa using empty)] at spelled
        obtain ⟨record, rest, spells, behind, rfl⟩ := List.forall₂_cons_left_iff.mp spelled
        have read := readline_of_spells rfl spells
        have length := length_of_spells spells
        have some_ : readline raw ≠ [] := by
          rw [read]
          intro none_
          have cut := congrArg List.length none_
          rw [List.length_take, length, List.length_nil] at cut
          omega
        rw [srecLoop, if_neg some_, read, srecLine_spelled conv total spells, refused]
        by_cases accepted : record.accepted total = true
        · obtain ⟨front, whole, done⟩ :=
            ih (record.items.foldl step conv) (record.tally total) rest behind
          refine ⟨record :: front, ?_, ?_⟩
          · rw [if_pos accepted, List.cons_append, ← whole]
          · rw [if_pos accepted]
            dsimp only
            rw [if_pos rfl, done, items, items, List.flatMap_cons, List.foldl_append]
        · refine ⟨[], ?_, ?_⟩
          · rw [if_neg accepted, List.nil_append]
          · rw [if_neg accepted]
            rfl

end Lines

/-! ## Runs of items -/

section Runs

variable {address : UInt32} {data : List UInt8} {done : List Record} {list : List Item} {conv : Conv}
  {bigEndian : Bool}

@[simp] theorem length_bytesAt (address : UInt32) (data : List UInt8) :
    (bytesAt address data).length = data.length := by
  rw [bytesAt, List.length_map]
  induction data generalizing address with
  | nil => rfl
  | cons byte rest ih => rw [placed, List.length_cons, List.length_cons, ih]

theorem placed_append (address : UInt32) (front back : List UInt8) :
    placed address (front ++ back) =
      placed address front ++ placed (address + UInt32.ofNat front.length) back := by
  induction front generalizing address with
  | nil => exact congrArg (fun start => placed start back) (UInt32.add_zero address).symm
  | cons byte rest ih =>
      have behind : address + 1 + UInt32.ofNat rest.length =
          address + UInt32.ofNat (byte :: rest).length := by
        rw [UInt32.add_assoc, List.length_cons, UInt32.add_comm 1, UInt32.ofNat_add]
        rfl
      rw [List.cons_append, placed, ih, behind]
      rfl

/-- The items of a record that is not closed: a start address, or bytes. -/
def opened (address : UInt32) (data : List UInt8) : List Item :=
  if data = [] then [.start address] else bytesAt address data

/-- The state in a record that is not closed, behind others. -/
structure Open (bigEndian : Bool) (done : List Record) (address : UInt32) (data : List UInt8)
    (conv : Conv) : Prop where
  recStart : conv.recStart = true
  recLength : conv.recLength = data.length
  checkSum : conv.checkSum = (address.toNat + (data.map UInt8.toNat).sum) % 2 ^ 32
  fOut : conv.fOut = out32 (tag bigEndian) ++ done.flatMap Record.bytes ++ out32 0 ++
    out32 address.toNat ++ data
  short : data.length < 2 ^ 32

/-- A record with its check sum. -/
def close (address : UInt32) (data : List UInt8) (short : data.length < 2 ^ 32) : Record where
  address := address
  data := data
  checkSum := UInt32.ofNat
    (2 ^ 32 - (address.toNat + (data.map UInt8.toNat).sum + data.length) % 2 ^ 32)
  short := short
  balanced := by
    rw [UInt32.toNat_ofNat']
    omega

@[simp] theorem length_out32 (word : Nat) : (out32 word).length = 4 := ByteOrder.length_memory _ _ _

/-- A word is written by its 32 bits. -/
theorem out32_mod (word : Nat) : out32 (word % 2 ^ 32) = out32 word := ByteOrder.memory_mod _ 4 word

/-- The length of a record is written over its first word. -/
theorem binRecEnd_open (open_ : Open bigEndian done address data conv) :
    (binRecEnd conv).fOut = out32 (tag bigEndian) ++
      (done ++ [close address data open_.short]).flatMap Record.bytes := by
  have place : conv.fOut.length - conv.recLength - 8 =
      (out32 (tag bigEndian) ++ done.flatMap Record.bytes).length := by
    rw [open_.fOut, open_.recLength]
    simp only [List.length_append, length_out32]
    omega
  have behind : conv.fOut.drop
      ((out32 (tag bigEndian) ++ done.flatMap Record.bytes).length + 4) =
        out32 address.toNat ++ data := by
    rw [open_.fOut, ← List.drop_drop, List.append_assoc, List.append_assoc, List.drop_left,
      List.drop_left' (length_out32 0)]
  have front : conv.fOut.take (out32 (tag bigEndian) ++ done.flatMap Record.bytes).length =
      out32 (tag bigEndian) ++ done.flatMap Record.bytes := by
    rw [open_.fOut, List.append_assoc, List.append_assoc, List.take_left]
  have sum : out32 ((2 ^ 32 - (conv.checkSum + conv.recLength) % 2 ^ 32) % 2 ^ 32) =
      out32 (close address data open_.short).checkSum.toNat := by
    rw [close, UInt32.toNat_ofNat', open_.checkSum, open_.recLength, Nat.mod_add_mod]
  rw [binRecEnd, if_neg (by rw [open_.recStart]; decide)]
  dsimp only [binOut32]
  rw [place, behind, front, sum, open_.recLength, List.flatMap_append, List.flatMap_cons,
    List.flatMap_nil, List.append_nil, Record.bytes]
  simp only [List.append_assoc]
  rfl

/-- A record is started behind closed ones. -/
theorem binRecStart_open
    (closed : (binRecEnd conv).fOut = out32 (tag bigEndian) ++ done.flatMap Record.bytes)
    (address : UInt32) :
    Open bigEndian done address []
      { binRecStart (binRecEnd conv) address.toNat with addressCurrent := address.toNat } where
  recStart := rfl
  recLength := rfl
  checkSum := (Nat.mod_eq_of_lt address.toNat_lt).symm
  fOut := by
    rw [List.append_nil, ← closed]
    rfl
  short := Nat.two_pow_pos 32

/-- A byte is added to the record that is not closed. -/
theorem binOut8_open (open_ : Open bigEndian done address data conv) (byte : UInt8)
    (short : (data ++ [byte]).length < 2 ^ 32) :
    Open bigEndian done address (data ++ [byte])
      (binOut8 { conv with checkSum := (conv.checkSum + byte.toNat) % 2 ^ 32 } byte) where
  recStart := open_.recStart
  recLength := by
    rw [List.length_append, List.length_singleton] at short ⊢
    exact (congrArg (fun length => (length + 1) % 2 ^ 32) open_.recLength).trans
      (Nat.mod_eq_of_lt short)
  checkSum := by
    rw [List.map_append, List.sum_append, List.map_singleton, List.sum_singleton, ← Nat.add_assoc]
    exact (congrArg (fun sum => (sum + byte.toNat) % 2 ^ 32) open_.checkSum).trans
      (Nat.mod_add_mod _ _ _)
  fOut := by
    rw [← List.append_assoc, ← open_.fOut]
    rfl
  short := short

/-- The address behind the current one, as the test computes it. -/
theorem next_address {last : UInt32} (current : conv.addressCurrent = last.toNat) :
    (conv.addressCurrent + 1) % 2 ^ 32 = (last + 1).toNat := by
  rw [current, UInt32.toNat_add]
  rfl

theorem binRecNext_of_next {last : UInt32} (address : UInt32)
    (current : conv.addressCurrent = last.toNat) (next : address = last + 1) :
    binRecNext conv address.toNat = { conv with addressCurrent := address.toNat } := by
  rw [binRecNext, next_address current, ← next, if_neg (not_not_intro rfl)]

theorem binRecNext_of_apart {last : UInt32} (address : UInt32)
    (current : conv.addressCurrent = last.toNat) (apart : address ≠ last + 1) :
    binRecNext conv address.toNat =
      { binRecStart (binRecEnd conv) address.toNat with addressCurrent := address.toNat } := by
  have differs : address.toNat ≠ (last + 1).toNat := fun same => apart (UInt32.toNat_inj.mp same)
  rw [binRecNext, next_address current, if_pos differs]

theorem opened_of_ne_nil (some_ : data ≠ []) : opened address data = bytesAt address data :=
  if_neg some_

theorem opened_append (address : UInt32) (some_ : data ≠ []) (byte : UInt8) :
    opened address (data ++ [byte]) =
      opened address data ++ [.byte (address + UInt32.ofNat data.length) byte] := by
  rw [opened_of_ne_nil some_, opened_of_ne_nil (List.append_ne_nil_of_right_ne_nil _ (by simp)),
    bytesAt, placed_append, List.map_append]
  rfl

/-- The last item of a record that is not closed. -/
theorem opened_last (address : UInt32) (data : List UInt8) :
    ∃ front last, opened address data = front ++ [last] ∧
      last.address = address + UInt32.ofNat (data.length - 1) ∧
      (last.entry = none → data ≠ []) := by
  rcases List.eq_nil_or_concat' data with rfl | ⟨front, byte, rfl⟩
  · exact ⟨[], .start address, rfl, (UInt32.add_zero address).symm, fun none_ => nomatch none_⟩
  · refine ⟨bytesAt address front, .byte (address + UInt32.ofNat front.length) byte, ?_, ?_,
      fun _ => by simp⟩
    · rw [opened_of_ne_nil (by simp), bytesAt, placed_append, List.map_append]
      rfl
    · rw [List.length_append, List.length_singleton, Nat.add_sub_cancel]
      rfl

/-- Bytes at an address follow each other. -/
theorem bytesAt_chain (address : UInt32) (data : List UInt8) :
    (bytesAt address data).IsChain Item.Follows := by
  induction data generalizing address with
  | nil => exact .nil
  | cons byte rest ih =>
      cases rest with
      | nil => exact .singleton _
      | cons next rest => exact List.isChain_cons_cons.mpr ⟨rfl, ih (address + 1)⟩

theorem write_opened (address : UInt32) (data : List UInt8) :
    (opened address data).filterMap Item.write = placed address data := by
  cases data with
  | nil => rfl
  | cons byte rest =>
      rw [opened_of_ne_nil (List.cons_ne_nil _ _), bytesAt, List.filterMap_map]
      exact List.filterMap_some

theorem entry_opened (address : UInt32) (data : List UInt8) :
    (opened address data).filterMap Item.entry = if data.isEmpty then [address] else [] := by
  cases data with
  | nil => rfl
  | cons byte rest =>
      rw [opened_of_ne_nil (List.cons_ne_nil _ _), bytesAt, List.filterMap_map]
      exact List.filterMap_eq_nil_iff.mpr fun _ _ => rfl

/-- Records hold the bytes and the start addresses of items. -/
structure Holds (records : List Record) (items : List Item) : Prop where
  writes : (records.flatMap fun record => placed record.address record.data) =
    items.filterMap Item.write
  entries : (records.filter fun record => record.data.isEmpty).map Record.address =
    items.filterMap Item.entry

/-- One more record holds the items of the record that was not closed. -/
theorem Holds.close {records : List Record} (holds : Holds records list) (address : UInt32)
    (data : List UInt8) (short : data.length < 2 ^ 32) :
    Holds (records ++ [Srec2bin.close address data short]) (list ++ opened address data) where
  writes := by
    rw [List.flatMap_append, holds.writes, List.filterMap_append, write_opened]
    exact congrArg _ (List.append_nil _)
  entries := by
    rw [List.filter_append, List.map_append, holds.entries, List.filterMap_append, entry_opened]
    congr 1
    cases data with
    | nil => rfl
    | cons byte rest => rfl

/-- The output behind some items: the records that are closed hold the items before those of the
record that is not. -/
def Tracks (bigEndian : Bool) (list : List Item) (conv : Conv) : Prop :=
  ∃ done address data before, list = before ++ opened address data ∧ Holds done before ∧
    Open bigEndian done address data conv ∧
    conv.addressCurrent = (address + UInt32.ofNat (data.length - 1)).toNat

/-- An item that is not at the next address starts a record. -/
theorem tracks_start {last : UInt32} (item : Item) (holds : Holds done list)
    (closed : (binRecEnd conv).fOut = out32 (tag bigEndian) ++ done.flatMap Record.bytes)
    (current : conv.addressCurrent = last.toNat) (apart : item.address ≠ last + 1) :
    Tracks bigEndian (list ++ [item]) (step conv item) := by
  cases item with
  | byte address byte =>
      have next := binRecNext_of_apart address current apart
      refine ⟨done, address, [byte], list, rfl, holds, ?_, ?_⟩
      · rw [step, binRecOutByte, next]
        exact binOut8_open (binRecStart_open closed address) byte (Nat.one_lt_two_pow (by decide))
      · rw [step, binRecOutByte, next]
        exact congrArg UInt32.toNat (UInt32.add_zero address).symm
  | start address =>
      have next := binRecNext_of_apart address current apart
      refine ⟨done, address, [], list, rfl, holds, ?_, ?_⟩
      · rw [step, binRecOutProgramStart, next]
        exact binRecStart_open closed address
      · rw [step, binRecOutProgramStart, next]
        exact congrArg UInt32.toNat (UInt32.add_zero address).symm

/-- One more item is tracked, if the test tells the items apart. -/
theorem tracks_step {item : Item} (tracks : Tracks bigEndian list conv)
    (separate : Separate (list ++ [item])) :
    Tracks bigEndian (list ++ [item]) (step conv item) := by
  obtain ⟨done, address, data, before, rfl, holds, open_, current⟩ := tracks
  obtain ⟨front, last, ends, place, isByte⟩ := opened_last address data
  rw [← place] at current
  by_cases follows : item.address = last.address + 1
  · have joined := separate.joined
    rw [ends, ← List.append_assoc, List.append_assoc _ [last]] at joined
    obtain ⟨lastByte, itemByte⟩ := (List.isChain_append_cons_cons.mp joined).2.1 follows
    have some_ := isByte lastByte
    cases item with
    | start address => cases itemByte
    | byte place_ byte =>
        have isPlace : place_ = address + UInt32.ofNat data.length := by
          have positive := List.length_pos_iff.mpr some_
          have next : UInt32.ofNat data.length = UInt32.ofNat (data.length - 1) + 1 := by
            conv_lhs => rw [← Nat.sub_add_cancel positive, UInt32.ofNat_add]
            rfl
          rw [next, ← UInt32.add_assoc, ← place]
          exact follows
        have grown : opened address data ++ [.byte place_ byte] = opened address (data ++ [byte]) := by
          rw [opened_append address some_, isPlace]
        have short : (data ++ [byte]).length < 2 ^ 32 := by
          rw [← length_bytesAt address]
          refine separate.short _ ?_ (bytesAt_chain _ _)
          rw [List.append_assoc, grown, opened_of_ne_nil (by simp)]
          exact (List.suffix_append _ _).isInfix
        have next := binRecNext_of_next place_ current follows
        refine ⟨done, address, data ++ [byte], before, ?_, holds, ?_, ?_⟩
        · rw [List.append_assoc, grown]
        · rw [step, binRecOutByte, next]
          have kept : Open bigEndian done address data
              { conv with addressCurrent := place_.toNat } :=
            ⟨open_.recStart, open_.recLength, open_.checkSum, open_.fOut, open_.short⟩
          exact binOut8_open kept byte short
        · rw [step, binRecOutByte, next, List.length_append, List.length_singleton,
            Nat.add_sub_cancel, ← isPlace]
          rfl
  · exact tracks_start item (holds.close address data open_.short) (binRecEnd_open open_) current
      follows

theorem Separate.of_append {item : Item} (separate : Separate (list ++ [item])) : Separate list where
  first := by
    intro head isHead
    refine separate.first head ?_
    cases list with
    | nil => cases isHead
    | cons first rest => exact isHead
  joined := separate.joined.left_of_append
  short run inside := separate.short run (inside.trans (List.prefix_append _ _).isInfix)

/-- All items are tracked. -/
theorem tracks_foldl (bigEndian : Bool) (list : List Item) (separate : Separate list) :
    list = [] ∨ Tracks bigEndian list (list.foldl step (begin_ bigEndian)) := by
  induction list using List.reverseRecOn with
  | nil => exact .inl rfl
  | append_singleton list item ih =>
      refine .inr ?_
      rw [List.foldl_append, List.foldl_cons, List.foldl_nil]
      rcases ih separate.of_append with rfl | tracks
      · have apart : item.address ≠ 0xFFFFFFFF + 1 := separate.first item rfl
        have closed : (binRecEnd (begin_ bigEndian)).fOut =
            out32 (tag bigEndian) ++ ([] : List Record).flatMap Record.bytes :=
          (List.append_nil _).symm
        exact tracks_start item ⟨rfl, rfl⟩ closed rfl apart
      · exact tracks_step tracks separate

end Runs

/-- Whatever the records, the output holds the memory and the start addresses of the file, if nothing
is placed from the first refused record on and the test for the next address tells the items
apart. -/
theorem preserves_of_separate (bigEndian : Bool) (text : List UInt8) (records : List Srec)
    (file : IsFile text records) (reaches : items (refused 0 records) = [])
    (separate : Separate (items records)) : Preserves bigEndian text records := by
  obtain ⟨front, whole, ran⟩ := srecLoop_spelled (begin_ bigEndian) 0 _ records file
  have all : items front = items records := by
    rw [items] at reaches
    conv_rhs => rw [whole, items, List.flatMap_append, reaches, List.append_nil]
    rfl
  rw [Preserves, srec2bin, ran, all]
  rcases tracks_foldl bigEndian (items records) separate with none_ | tracks
  · rw [none_]
    exact ⟨[], (List.append_nil _).symm, rfl, rfl⟩
  · obtain ⟨done, address, data, before, same, holds, open_, -⟩ := tracks
    have closed := holds.close address data open_.short
    rw [← same] at closed
    exact ⟨_, binRecEnd_open open_, congrArg memory closed.writes, closed.entries⟩

/-- A byte at `0x80000000`, where the program starts. -/
def highFile : List Srec := [.s3 0x80000000 [0x55] (by decide), .s7 0x80000000]

def highText : List UInt8 := "S306800000005524\r\nS705800000007A\r\n".toList.map ascii

theorem highFile_items :
    items highFile = [.byte 0x80000000 0x55, .start 0x80000000] := by
  decide +kernel

theorem preserves_of_separate_high : Preserves false highText highFile := by
  refine preserves_of_separate false highText highFile (by decide +kernel) (by decide +kernel) ?_
  rw [highFile_items]
  refine ⟨?_, ?_, ?_⟩
  · rintro item ⟨⟩
    decide
  · exact List.isChain_cons_cons.mpr ⟨fun follows => absurd follows (by decide), .singleton _⟩
  · intro run inside _
    exact inside.length_le.trans_lt (by decide)

/-- A byte at address zero, where the program starts. -/
def zeroFile : List Srec := [.s3 0 [0x55] (by decide), .s7 0]

def zeroText : List UInt8 := "S3060000000055A4\nS70500000000FA\n".toList.map ascii

/-- The byte at address zero is not in a record. -/
theorem not_preserves_zero : IsFile zeroText zeroFile ∧ ¬ Preserves false zeroText zeroFile := by
  refine ⟨by decide +kernel, ?_⟩
  rintro ⟨output, written, -, -⟩
  have bytes : srec2bin false zeroText =
      out32 (tag false) ++ 0x55 :: List.replicate 12 0 := by
    decide +kernel
  rw [bytes] at written
  have records := List.append_cancel_left written
  cases output with
  | nil => cases records
  | cons record output =>
      have length := congrArg List.length records
      have word := congrArg (fun bytes => ByteOrder.little.word (bytes.take 4)) records
      rw [List.flatMap_cons, Record.bytes] at length
      simp only [List.flatMap_cons, Record.bytes, List.append_assoc,
        List.take_left' (length_out32 _)] at word
      rw [out32, ByteOrder.word_memory, Nat.mod_eq_of_lt record.short] at word
      have isWord : ByteOrder.little.word ((0x55 :: List.replicate 12 (0 : UInt8)).take 4) = 0x55 := by
        decide +kernel
      rw [isWord] at word
      simp only [List.length_cons, List.length_replicate, List.length_append, ← word] at length
      omega

end Trunk.Firmware.Srec2bin
