import Mathlib.Algebra.Group.Nat.Defs
import Mathlib.Data.List.Basic
import Mathlib.Data.Nat.Bitwise

/-! # Network byte order

A list of bytes, the highest first, as a number (`Trunk.Network.number`), and the bytes of a number
(`Trunk.Network.bytes`): each undoes the other. The bits of the list are counted from the highest
one (`Trunk.Network.bit`), as in addresses and prefixes, and are those of the number
(`Trunk.Network.testBit_number`).
-/

namespace Trunk.Network

variable {front back list : List UInt8} {index value width : Nat}

/-- The number of a list of bytes, the highest first. -/
def number : List UInt8 → Nat
  | [] => 0
  | byte :: rest => 2 ^ (8 * rest.length) * byte.toNat + number rest

/-- The lowest bytes of a number, the highest of them first. -/
def bytes : Nat → Nat → List UInt8
  | 0, _ => []
  | width + 1, value => UInt8.ofNat (value / 2 ^ (8 * width)) :: bytes width value

/-- The bit at a place of a list of bytes. -/
def bit (list : List UInt8) (index : Nat) : Bool :=
  (list[index / 8]?.getD 0).toNat.testBit (7 - index % 8)

@[simp] theorem length_bytes (width value : Nat) : (bytes width value).length = width := by
  induction width with
  | zero => rfl
  | succ width ih => rw [bytes, List.length_cons, ih]

theorem number_lt (list : List UInt8) : number list < 2 ^ (8 * list.length) := by
  induction list with
  | nil => exact Nat.one_pos
  | cons byte rest ih =>
      have small : byte.toNat + 1 ≤ 2 ^ 8 := byte.toNat_lt
      calc number (byte :: rest)
          < 2 ^ (8 * rest.length) * byte.toNat + 2 ^ (8 * rest.length) := by
            rw [number]
            omega
        _ = 2 ^ (8 * rest.length) * (byte.toNat + 1) := by rw [Nat.mul_add, Nat.mul_one]
        _ ≤ 2 ^ (8 * rest.length) * 2 ^ 8 := Nat.mul_le_mul_left _ small
        _ = 2 ^ (8 * (byte :: rest).length) := by
            rw [← Nat.pow_add, List.length_cons, Nat.mul_add, Nat.mul_one]

theorem number_append (front back : List UInt8) :
    number (front ++ back) = 2 ^ (8 * back.length) * number front + number back := by
  induction front with
  | nil => rw [List.nil_append, number, Nat.mul_zero, Nat.zero_add]
  | cons byte rest ih =>
      rw [List.cons_append, number, number, ih, List.length_append, Nat.mul_add 8, Nat.pow_add,
        Nat.mul_add, ← Nat.mul_assoc, ← Nat.add_assoc,
        Nat.mul_comm (2 ^ (8 * rest.length)) (2 ^ (8 * back.length))]

/-- What stands in front of the lowest bytes is the quotient. -/
theorem number_div (front back : List UInt8) :
    number (front ++ back) / 2 ^ (8 * back.length) = number front := by
  rw [number_append, Nat.mul_add_div (Nat.two_pow_pos _), Nat.div_eq_of_lt (number_lt back),
    Nat.add_zero]

theorem number_mod (front back : List UInt8) :
    number (front ++ back) % 2 ^ (8 * back.length) = number back := by
  rw [number_append, Nat.mul_add_mod, Nat.mod_eq_of_lt (number_lt back)]

theorem number_bytes (width value : Nat) :
    number (bytes width value) = value % 2 ^ (8 * width) := by
  induction width with
  | zero => exact (Nat.mod_one value).symm
  | succ width ih =>
      rw [bytes, number, ih, length_bytes, UInt8.toNat_ofNat', Nat.mul_add, Nat.mul_one,
        Nat.pow_add, Nat.mod_mul, Nat.add_comm]

/-- Lists of one length are told apart by their numbers. -/
theorem number_injective (length : front.length = back.length)
    (same : number front = number back) : front = back := by
  induction front generalizing back with
  | nil => exact (List.eq_nil_of_length_eq_zero length.symm).symm
  | cons byte rest ih =>
      obtain ⟨byte', rest', rfl⟩ := List.exists_cons_of_ne_nil (List.ne_nil_of_length_pos
        (by rw [← length]; exact Nat.succ_pos _))
      have shorter : rest.length = rest'.length := Nat.succ.inj length
      have high := number_div [byte] rest
      have high' := number_div [byte'] rest'
      have low := number_mod [byte] rest
      have low' := number_mod [byte'] rest'
      simp only [List.singleton_append, number, List.length_nil, Nat.mul_zero, Nat.pow_zero,
        Nat.one_mul, Nat.add_zero] at same high high' low low'
      rw [same, shorter, high'] at high
      rw [same, shorter, low'] at low
      rw [UInt8.toNat_inj.mp high.symm, ih shorter low.symm]

theorem bytes_number (list : List UInt8) : bytes list.length (number list) = list := by
  refine number_injective (length_bytes _ _) ?_
  rw [number_bytes, Nat.mod_eq_of_lt (number_lt list)]

theorem bytes_add (count width value : Nat) :
    bytes (count + width) value = bytes count (value / 2 ^ (8 * width)) ++ bytes width value := by
  induction count with
  | zero => rw [Nat.zero_add, bytes, List.nil_append]
  | succ count ih =>
      rw [Nat.succ_add, bytes, bytes, ih, List.cons_append, Nat.mul_add 8, Nat.add_comm (8 * count),
        Nat.pow_add, Nat.div_div_eq_div_mul]

theorem bytes_eq_of_mod_eq {other : Nat}
    (same : value % 2 ^ (8 * width) = other % 2 ^ (8 * width)) :
    bytes width value = bytes width other := by
  apply number_injective
  · rw [length_bytes, length_bytes]
  · rw [number_bytes, number_bytes, same]

/-- The bits of a list are those of its number. -/
theorem testBit_number (inside : index < 8 * list.length) :
    (number list).testBit (8 * list.length - 1 - index) = bit list index := by
  induction list generalizing index with
  | nil => exact absurd inside (Nat.not_lt_zero _)
  | cons byte rest ih =>
      rw [List.length_cons] at inside ⊢
      rw [number, Nat.testBit_two_pow_mul_add _ (number_lt rest)]
      by_cases first : index < 8
      · have place : index / 8 = 0 := Nat.div_eq_of_lt first
        rw [if_neg (by omega), bit, place]
        simp only [List.getElem?_cons_zero, Option.getD_some]
        congr 1
        omega
      · obtain ⟨later, rfl⟩ := Nat.exists_eq_add_of_le' (Nat.le_of_not_lt first)
        have place : (later + 8) / 8 = later / 8 + 1 := by omega
        have before : 8 * (rest.length + 1) - 1 - (later + 8) = 8 * rest.length - 1 - later := by
          omega
        rw [if_pos (by omega), before, ih (by omega), bit, bit, place, Nat.add_mod_right]
        rfl

theorem bit_of_le (outside : 8 * list.length ≤ index) : bit list index = false := by
  have none : list[index / 8]? = Option.none := List.getElem?_eq_none (by omega)
  rw [bit, none]
  exact Nat.zero_testBit _

/-- The bits of the bytes of a number. -/
theorem bit_bytes (inside : index < 8 * width) :
    bit (bytes width value) index = value.testBit (8 * width - 1 - index) := by
  have length := length_bytes width value
  rw [← testBit_number (by rw [length]; exact inside), length, number_bytes, Nat.testBit_mod_two_pow,
    decide_eq_true (by omega), Bool.true_and]

/-- Lists of one length are told apart by their bits. -/
theorem bit_injective (length : front.length = back.length)
    (same : ∀ index < 8 * front.length, bit front index = bit back index) : front = back := by
  refine number_injective length (Nat.eq_of_testBit_eq fun place => ?_)
  by_cases inside : place < 8 * front.length
  · have at_ := same (8 * front.length - 1 - place) (by omega)
    rw [← testBit_number (by omega), ← testBit_number (by omega), ← length] at at_
    have back : 8 * front.length - 1 - (8 * front.length - 1 - place) = place := by omega
    rw [back] at at_
    exact at_
  · have above := Nat.pow_le_pow_right Nat.two_pos (Nat.le_of_not_lt inside)
    rw [Nat.testBit_lt_two_pow ((number_lt front).trans_le above),
      Nat.testBit_lt_two_pow ((number_lt back).trans_le (length ▸ above))]

/-- The bytes in which a bit operation gives those of two lists. -/
theorem bit_zipWith {operate : UInt8 → UInt8 → UInt8} {combine : Bool → Bool → Bool}
    (pointwise : ∀ first second place, (operate first second).toNat.testBit place =
      combine (first.toNat.testBit place) (second.toNat.testBit place))
    (length : front.length = back.length) (inside : index < 8 * front.length) :
    bit (List.zipWith operate front back) index = combine (bit front index) (bit back index) := by
  have first : index / 8 < front.length := by omega
  have second : index / 8 < back.length := by omega
  rw [bit, bit, bit, List.getElem?_zipWith, List.getElem?_eq_getElem first,
    List.getElem?_eq_getElem second]
  exact pointwise _ _ _

/-- A bit operation on numbers is the one on their bytes. -/
theorem number_zipWith {operate : UInt8 → UInt8 → UInt8} {combine : Bool → Bool → Bool}
    {operation : Nat → Nat → Nat} (unset : combine false false = false)
    (pointwise : ∀ first second place, (operate first second).toNat.testBit place =
      combine (first.toNat.testBit place) (second.toNat.testBit place))
    (bitwise : ∀ first second place, (operation first second).testBit place =
      combine (first.testBit place) (second.testBit place))
    (length : front.length = back.length) :
    number (List.zipWith operate front back) = operation (number front) (number back) := by
  have size : (List.zipWith operate front back).length = front.length := by
    rw [List.length_zipWith, length, Nat.min_self]
  apply Nat.eq_of_testBit_eq
  intro place
  rw [bitwise]
  by_cases inside : place < 8 * front.length
  · obtain ⟨index, below, rfl⟩ : ∃ index < 8 * front.length, 8 * front.length - 1 - index = place :=
      ⟨8 * front.length - 1 - place, by omega, by omega⟩
    rw [← size, testBit_number (by omega), size, testBit_number below, length,
      testBit_number (by omega), ← bit_zipWith pointwise length below]
  · have above := Nat.pow_le_pow_right Nat.two_pos (Nat.le_of_not_lt inside)
    rw [Nat.testBit_lt_two_pow ((number_lt _).trans_le (size ▸ above)),
      Nat.testBit_lt_two_pow ((number_lt front).trans_le above),
      Nat.testBit_lt_two_pow ((number_lt back).trans_le (length ▸ above)), unset]

theorem number_and (length : front.length = back.length) :
    number (List.zipWith (· &&& ·) front back) = number front &&& number back := by
  refine number_zipWith (Bool.and_false false) ?_ Nat.testBit_and length
  intro first second place
  rw [UInt8.toNat_and, Nat.testBit_and]

theorem number_or (length : front.length = back.length) :
    number (List.zipWith (· ||| ·) front back) = number front ||| number back := by
  refine number_zipWith (Bool.or_false false) ?_ Nat.testBit_or length
  intro first second place
  rw [UInt8.toNat_or, Nat.testBit_or]

/-- The number of a list with another byte at a place. -/
theorem number_set (inside : index < list.length) (byte : UInt8) :
    number (list.set index byte) + 2 ^ (8 * (list.length - 1 - index)) * list[index].toNat =
      number list + 2 ^ (8 * (list.length - 1 - index)) * byte.toNat := by
  have behind : (list.drop (index + 1)).length = list.length - 1 - index := by
    rw [List.length_drop]
    omega
  have old := congrArg number (List.take_append_drop index list)
  rw [List.drop_eq_getElem_cons inside, number_append, number, List.length_cons, behind] at old
  rw [List.set_eq_take_append_cons_drop, if_pos inside, number_append, number, List.length_cons,
    behind, ← old]
  omega

/-- The order of the bytes of a word in memory. -/
inductive ByteOrder where
  | little
  | big
  deriving DecidableEq, Repr

/-- The word that stands in memory. -/
def ByteOrder.word (order : ByteOrder) (memory : List UInt8) : Nat :=
  match order with
  | .little => number memory.reverse
  | .big => number memory

/-- How a word stands in memory. -/
def ByteOrder.memory (order : ByteOrder) (width word : Nat) : List UInt8 :=
  match order with
  | .little => (bytes width word).reverse
  | .big => bytes width word

namespace ByteOrder

variable {order : ByteOrder}

@[simp] theorem length_memory (order : ByteOrder) (width word : Nat) :
    (order.memory width word).length = width := by
  cases order with
  | little => rw [memory, List.length_reverse, length_bytes]
  | big => exact length_bytes width word

theorem word_lt (order : ByteOrder) (memory : List UInt8) :
    order.word memory < 2 ^ (8 * memory.length) := by
  cases order with
  | little =>
      have bound := number_lt memory.reverse
      rw [List.length_reverse] at bound
      exact bound
  | big => exact number_lt memory

theorem memory_word (order : ByteOrder) (memory : List UInt8) :
    order.memory memory.length (order.word memory) = memory := by
  cases order with
  | little =>
      rw [ByteOrder.memory, word, ← List.length_reverse, bytes_number, List.reverse_reverse]
  | big => exact bytes_number memory

theorem word_memory (order : ByteOrder) (width word : Nat) :
    order.word (order.memory width word) = word % 2 ^ (8 * width) := by
  cases order with
  | little => rw [ByteOrder.word, memory, List.reverse_reverse, number_bytes]
  | big => exact number_bytes width word

/-- A word is stored by its lowest bytes. -/
theorem memory_mod (order : ByteOrder) (width word : Nat) :
    order.memory width (word % 2 ^ (8 * width)) = order.memory width word := by
  have same : bytes width (word % 2 ^ (8 * width)) = bytes width word :=
    bytes_eq_of_mod_eq (Nat.mod_mod _ _)
  cases order with
  | little => rw [memory, memory, same]
  | big => exact same

theorem word_and (order : ByteOrder) (length : front.length = back.length) :
    order.word (List.zipWith (· &&& ·) front back) = order.word front &&& order.word back := by
  cases order with
  | little =>
      rw [word, word, word, List.reverse_zipWith length, number_and]
      rw [List.length_reverse, List.length_reverse, length]
  | big => exact number_and length

theorem word_or (order : ByteOrder) (length : front.length = back.length) :
    order.word (List.zipWith (· ||| ·) front back) = order.word front ||| order.word back := by
  cases order with
  | little =>
      rw [word, word, word, List.reverse_zipWith length, number_or]
      rw [List.length_reverse, List.length_reverse, length]
  | big => exact number_or length

/-- The first bytes of a little-endian word are its lowest ones. -/
theorem take_memory_little (within : index ≤ width) :
    (little.memory width value).take index = little.memory index value := by
  obtain ⟨count, rfl⟩ := Nat.exists_eq_add_of_le' within
  unfold memory
  rw [bytes_add, List.reverse_append]
  exact List.take_left' (by rw [List.length_reverse, length_bytes])

/-- The word of a little-endian machine with another byte at a place. -/
theorem word_set_little (inside : index < list.length) (byte : UInt8) :
    little.word (list.set index byte) + 2 ^ (8 * index) * list[index].toNat =
      little.word list + 2 ^ (8 * index) * byte.toNat := by
  have behind : list.length - 1 - index < list.reverse.length := by
    rw [List.length_reverse]
    omega
  have set := number_set behind byte
  have place : list.reverse.length - 1 - (list.length - 1 - index) = index := by
    rw [List.length_reverse]
    omega
  have same : list.length - 1 - (list.length - 1 - index) = index := by omega
  have reversed : (list.set index byte).reverse = list.reverse.set (list.length - 1 - index) byte := by
    apply List.ext_getElem
    · simp only [List.length_reverse, List.length_set]
    · intro place _ below
      rw [List.length_set, List.length_reverse] at below
      simp only [List.getElem_reverse, List.getElem_set, List.length_set]
      have same : index = list.length - 1 - place ↔ list.length - 1 - index = place := by omega
      simp only [same]
  simp only [List.getElem_reverse, place, same] at set
  rw [word, word, reversed]
  exact set
end ByteOrder

end Trunk.Network
