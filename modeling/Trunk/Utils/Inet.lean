import Trunk.Foundation.Network

/-! # Addresses as the network headers have them

The addresses of both families are blocks of bytes in network byte order. A program that reads the
word `s_addr` of an IPv4 address gets a number that depends on the byte order of the machine; a bit
operation with a word that `htonl` made is the same on every machine
(`Trunk.Inet.In4.value_andWord`, `Trunk.Inet.In4.value_orWord`).
-/

namespace Trunk.Inet

open Network

/-- `struct in_addr`. -/
structure In4 where
  bytes : List UInt8
  size : bytes.length = 4
  deriving DecidableEq, Repr

/-- `struct in6_addr`. -/
structure In6 where
  bytes : List UInt8
  size : bytes.length = 16
  deriving DecidableEq, Repr

/-- `INADDR_ANY`. -/
def inaddrAny : In4 := ⟨List.replicate 4 0, List.length_replicate ..⟩

/-- `IN6ADDR_ANY_INIT`. -/
def in6addrAny : In6 := ⟨List.replicate 16 0, List.length_replicate ..⟩

/-- The number that an IPv4 address stands for. -/
def In4.value (address : In4) : Nat := number address.bytes

/-- The number that an IPv6 address stands for. -/
def In6.value (address : In6) : Nat := number address.bytes

/-- `s_addr`. -/
def In4.sAddr (order : ByteOrder) (address : In4) : UInt32 :=
  UInt32.ofNat (order.word address.bytes)

/-- An address is written through `s_addr`. -/
def In4.ofSAddr (order : ByteOrder) (word : UInt32) : In4 :=
  ⟨order.memory 4 word.toNat, order.length_memory 4 word.toNat⟩

/-- `htonl`. -/
def htonl (order : ByteOrder) (word : UInt32) : UInt32 :=
  UInt32.ofNat (order.word (bytes 4 word.toNat))

/-- `ntohl`. -/
def ntohl (order : ByteOrder) (word : UInt32) : UInt32 :=
  UInt32.ofNat (number (order.memory 4 word.toNat))

variable {order : ByteOrder} {address : In4} {word : UInt32}

theorem In4.value_lt (address : In4) : address.value < 2 ^ 32 := by
  have bound := number_lt address.bytes
  rw [address.size] at bound
  exact bound

theorem In6.value_lt (address : In6) : address.value < 2 ^ 128 := by
  have bound := number_lt address.bytes
  rw [address.size] at bound
  exact bound

theorem In4.toNat_sAddr (order : ByteOrder) (address : In4) :
    (address.sAddr order).toNat = order.word address.bytes := by
  have bound := order.word_lt address.bytes
  rw [address.size] at bound
  rw [sAddr, UInt32.toNat_ofNat', Nat.mod_eq_of_lt bound]

theorem toNat_htonl (order : ByteOrder) (word : UInt32) :
    (htonl order word).toNat = order.word (bytes 4 word.toNat) := by
  have bound := order.word_lt (bytes 4 word.toNat)
  rw [length_bytes] at bound
  rw [htonl, UInt32.toNat_ofNat', Nat.mod_eq_of_lt bound]

theorem number_word (word : UInt32) : number (bytes 4 word.toNat) = word.toNat := by
  rw [number_bytes, Nat.mod_eq_of_lt word.toNat_lt]

/-- An address is the number that `ntohl` makes of its word. -/
theorem toNat_ntohl_sAddr (order : ByteOrder) (address : In4) :
    (ntohl order (address.sAddr order)).toNat = address.value := by
  have whole := order.memory_word address.bytes
  rw [address.size] at whole
  rw [ntohl, In4.toNat_sAddr, whole, UInt32.toNat_ofNat', Nat.mod_eq_of_lt]
  · rfl
  · exact address.value_lt

theorem In4.value_ofSAddr (order : ByteOrder) (word : UInt32) :
    (ofSAddr order word).value = number (order.memory 4 word.toNat) := rfl

/-- An address that is written through `s_addr` is read back. -/
theorem In4.sAddr_ofSAddr (order : ByteOrder) (word : UInt32) :
    (ofSAddr order word).sAddr order = word := by
  apply UInt32.toNat_inj.mp
  rw [toNat_sAddr]
  cases order with
  | little =>
      change number (Network.bytes 4 word.toNat).reverse.reverse = word.toNat
      rw [List.reverse_reverse, number_word]
  | big => exact number_word word

theorem In4.ofSAddr_sAddr (order : ByteOrder) (address : In4) :
    ofSAddr order (address.sAddr order) = address := by
  have whole := order.memory_word address.bytes
  rw [address.size, ← toNat_sAddr] at whole
  cases address with
  | mk bytes size => exact In4.mk.injEq .. ▸ whole

/-- What `htonl` makes of a number is the word of that address. -/
theorem value_ofSAddr_htonl (order : ByteOrder) (word : UInt32) :
    (In4.ofSAddr order (htonl order word)).value = word.toNat := by
  have whole := order.memory_word (bytes 4 word.toNat)
  rw [length_bytes] at whole
  rw [In4.value_ofSAddr, toNat_htonl, whole, number_word]

theorem In4.value_andWord (order : ByteOrder) (address : In4) (word : UInt32) :
    (In4.ofSAddr order (address.sAddr order &&& htonl order word)).value =
      address.value &&& word.toNat := by
  have length : address.bytes.length = (Network.bytes 4 word.toNat).length := by
    rw [address.size, length_bytes]
  have whole := order.memory_word
    (List.zipWith (· &&& ·) address.bytes (Network.bytes 4 word.toNat))
  rw [List.length_zipWith, ← length, Nat.min_self, address.size] at whole
  rw [In4.value_ofSAddr, UInt32.toNat_and, toNat_sAddr, toNat_htonl, ← order.word_and length,
    whole, number_and length, number_word, In4.value]

theorem In4.value_orWord (order : ByteOrder) (address : In4) (word : UInt32) :
    (In4.ofSAddr order (address.sAddr order ||| htonl order word)).value =
      address.value ||| word.toNat := by
  have length : address.bytes.length = (Network.bytes 4 word.toNat).length := by
    rw [address.size, length_bytes]
  have whole := order.memory_word
    (List.zipWith (· ||| ·) address.bytes (Network.bytes 4 word.toNat))
  rw [List.length_zipWith, ← length, Nat.min_self, address.size] at whole
  rw [In4.value_ofSAddr, UInt32.toNat_or, toNat_sAddr, toNat_htonl, ← order.word_or length,
    whole, number_or length, number_word, In4.value]

/-- Words are masked alike exactly if the addresses are. -/
theorem In4.andWord_inj (order : ByteOrder) (first second : In4) (word : UInt32) :
    first.sAddr order &&& htonl order word = second.sAddr order &&& htonl order word ↔
      first.value &&& word.toNat = second.value &&& word.toNat := by
  rw [← value_andWord order first, ← value_andWord order second]
  constructor
  · intro same
    rw [same]
  · intro same
    have bytes : (In4.ofSAddr order (first.sAddr order &&& htonl order word)).bytes =
        (In4.ofSAddr order (second.sAddr order &&& htonl order word)).bytes :=
      number_injective (by rw [In4.size, In4.size]) same
    have injective : ∀ left right : UInt32,
        order.memory 4 left.toNat = order.memory 4 right.toNat → left = right := by
      intro left right equal
      have lists : Network.bytes 4 left.toNat = Network.bytes 4 right.toNat := by
        cases order with
        | little => exact List.reverse_injective equal
        | big => exact equal
      have numbers := congrArg number lists
      rw [number_word, number_word] at numbers
      exact UInt32.toNat_inj.mp numbers
    exact injective _ _ bytes

end Trunk.Inet
