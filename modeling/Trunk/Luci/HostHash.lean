import Trunk.Foundation.LowestBit
import Trunk.Luci.Lmo

/-! # The hash on the build host and on the target

The keys are hashed on the build host, where `char` is signed, and on the target, where it is not.
The loop of `sfh_hash` loads bytes without a sign, and so do the end cases, except for the byte
behind the last pair: it is sign-extended on the host. The hashes agree where there is no such byte,
or where it has no sign (`Trunk.Luci.Portable`). Elsewhere the words split at bit 8 or at bit 26
behind it, and the bit in which they first differ only moves down as the words are mixed
(`Trunk.Luci.mixed_ne`), so that they differ up to the last addition.
-/

namespace Trunk.Luci

open CString LowestBit

variable {data rest : List UInt8} {c : UInt8} {k : Nat}

/-- The length is even, or the last byte is in ASCII. -/
def Portable (data : List UInt8) : Prop :=
  data.length % 2 = 0 ∨ ∀ c, data.getLast? = some c → c < 0x80

instance (data : List UInt8) : Decidable (Portable data) :=
  match eq : data.getLast? with
  | none => .isTrue (.inr fun c last => by rw [eq] at last; cases last)
  | some b =>
      decidable_of_iff (data.length % 2 = 0 ∨ b < 0x80) <| by
        unfold Portable
        rw [eq]
        simp

/-- The words before the last step of `sfh_hash`. -/
def sfhMixed (signed : Bool) (data : List UInt8) : UInt32 :=
  let (hash, rest) := sfhMain (UInt32.ofNat data.length) data
  let hash := sfhEnd signed hash rest
  let hash := hash ^^^ (hash <<< 3)
  let hash := hash + (hash >>> 5)
  let hash := hash ^^^ (hash <<< 4)
  let hash := hash + (hash >>> 17)
  hash ^^^ (hash <<< 25)

theorem sfhHash_eq (signed : Bool) (some : data ≠ []) :
    sfhHash signed data = sfhMixed signed data + sfhMixed signed data >>> 6 := by
  rw [sfhHash, if_neg some]
  rfl

/-- The loop leaves the bytes behind the last group of four. -/
theorem sfhMain_snd (hash : UInt32) (data : List UInt8) :
    (sfhMain hash data).2 = data.drop (4 * (data.length / 4)) := by
  fun_induction sfhMain hash data with
  | case1 hash a b c d data hash' tmp hash'' ih =>
      have count : 4 * ((a :: b :: c :: d :: data).length / 4) = 4 * (data.length / 4) + 4 := by
        simp only [List.length_cons]
        omega
      rw [ih, count]
      rfl
  | case2 hash data short =>
      have few : data.length < 4 := by
        by_contra many
        obtain ⟨a, b, c, d, data', eq⟩ : ∃ a b c d data', data = a :: b :: c :: d :: data' := by
          rcases data with _ | ⟨a, _ | ⟨b, _ | ⟨c, _ | ⟨d, data'⟩⟩⟩⟩
          · exact absurd (by decide) many
          · exact absurd (by simp) many
          · exact absurd (by simp) many
          · exact absurd (by simp) many
          · exact ⟨a, b, c, d, data', rfl⟩
        exact short a b c d data' eq
      rw [Nat.div_eq_of_lt few]
      rfl

/-- The number of a word that was mixed with itself, shifted to the left. -/
theorem toNat_xor_shiftLeft (x places : UInt32) (small : places.toNat < 32) :
    (x ^^^ x <<< places).toNat = (x.toNat ^^^ x.toNat <<< places.toNat) % 2 ^ 32 := by
  rw [UInt32.toNat_xor, UInt32.toNat_shiftLeft, Nat.mod_eq_of_lt small, Nat.xor_mod_two_pow,
    Nat.mod_eq_of_lt x.toNat_lt]

/-- The number of a word that was mixed with itself, shifted to the right. -/
theorem toNat_add_shiftRight (x places : UInt32) (small : places.toNat < 32) :
    (x + x >>> places).toNat = (x.toNat + x.toNat >>> places.toNat) % 2 ^ 32 := by
  rw [UInt32.toNat_add, UInt32.toNat_shiftRight, Nat.mod_eq_of_lt small]

/-- The words split at a bit. -/
def Split (k : Nat) (x y : UInt32) : Prop := Splits k x.toNat y.toNat

section Words

variable {x y : UInt32}

theorem Split.ne (split : Split k x y) : x ≠ y := by
  intro same
  exact Splits.ne split (by rw [same])

theorem Split.lt (split : Split k x y) : k < 32 := by
  by_contra large
  have most : 2 ^ 32 ≤ 2 ^ k := Nat.pow_le_pow_right (by omega) (by omega)
  have left := x.toNat_lt
  have right := y.toNat_lt
  apply split.here
  rw [Nat.testBit_lt_two_pow (by omega), Nat.testBit_lt_two_pow (by omega)]

theorem Split.xor_shiftLeft (split : Split k x y) (places : UInt32) (positive : 0 < places.toNat)
    (small : places.toNat < 32) : Split k (x ^^^ x <<< places) (y ^^^ y <<< places) := by
  have mixed := (Splits.xor_shift split positive).mod split.lt
  rwa [← toNat_xor_shiftLeft x places small, ← toNat_xor_shiftLeft y places small] at mixed

theorem Split.add_shiftRight (split : Split k x y) (places : UInt32) (positive : 0 < places.toNat)
    (small : places.toNat ≤ k) :
    Split (k - places.toNat) (x + x >>> places) (y + y >>> places) := by
  have bound := split.lt
  have split' : Splits (k - places.toNat + places.toNat) x.toNat y.toNat := by
    rw [Nat.sub_add_cancel small]
    exact split
  have lower : k - places.toNat < 32 := by omega
  have mixed := (split'.add_shift positive).mod lower
  rwa [← toNat_add_shiftRight x places (by omega), ← toNat_add_shiftRight y places (by omega)]
    at mixed

theorem Split.add_left (split : Split k x y) (h : UInt32) : Split k (h + x) (h + y) := by
  have sum := (Splits.add_left split h.toNat).mod split.lt
  rwa [← UInt32.toNat_add, ← UInt32.toNat_add] at sum

theorem Split.xor_left (split : Split k x y) (h : UInt32) : Split k (h ^^^ x) (h ^^^ y) := by
  have mixed := Splits.xor_left split h.toNat
  rwa [← UInt32.toNat_xor, ← UInt32.toNat_xor] at mixed

theorem Split.shiftLeft (split : Split k x y) (places : UInt32) (small : k + places.toNat < 32) :
    Split (k + places.toNat) (x <<< places) (y <<< places) := by
  have shifted := (Splits.shift split places.toNat).mod small
  have inside : places.toNat % 32 = places.toNat := Nat.mod_eq_of_lt (by omega)
  unfold Split
  rw [UInt32.toNat_shiftLeft, UInt32.toNat_shiftLeft, inside]
  exact shifted

end Words

/-- A byte with a sign splits the word at bit 8. -/
theorem split_charWord (high : 0x80 ≤ c) : Split 8 (charWord true c) (charWord false c) := by
  have bound := c.toNat_lt
  have wide : (c.toUInt32 + 0xffffff00).toNat = c.toNat + 0xffffff00 := by
    rw [UInt32.toNat_add, UInt8.toNat_toUInt32]
    have constant : (0xffffff00 : UInt32).toNat = 0xffffff00 := rfl
    rw [constant]
    omega
  have plain : charWord false c = c.toUInt32 := rfl
  have signed : charWord true c = c.toUInt32 + 0xffffff00 := by
    rw [charWord, if_pos]
    simpa using high
  unfold Split
  rw [plain, signed, wide, UInt8.toNat_toUInt32, splits_iff_exists]
  refine ⟨0x7fffff, ?_⟩
  push_cast
  omega

theorem charWord_eq (low : c < 0x80) : charWord true c = charWord false c := by
  have few : ¬ (true && decide (128 ≤ c)) = true := by
    simpa using low
  rw [charWord, if_neg few]
  rfl

/-- The end cases leave words that split at a bit that is high enough where the byte behind the
last pair has a sign. -/
theorem split_sfhEnd (few : rest.length < 4) (not : ¬ Portable rest) (h : UInt32) :
    ∃ k, 7 ≤ k ∧ Split k (sfhEnd true h rest) (sfhEnd false h rest) := by
  have odd : rest.length % 2 ≠ 0 := fun even => not (.inl even)
  rcases rest with _ | ⟨a, _ | ⟨b, _ | ⟨c, _ | ⟨d, rest⟩⟩⟩⟩
  · exact absurd rfl odd
  · have high : 0x80 ≤ a := by
      by_contra low
      apply not
      right
      intro last eq
      cases eq
      exact UInt8.not_le.mp low
    have split := (split_charWord high).add_left h
    have mixed : Split 8 _ _ := split.xor_shiftLeft 10 (by decide) (by decide)
    exact ⟨7, Nat.le_refl 7, mixed.add_shiftRight 1 (by decide) (by decide)⟩
  · exact absurd (by simp) odd
  · have high : 0x80 ≤ c := by
      by_contra low
      apply not
      right
      intro last eq
      cases eq
      exact UInt8.not_le.mp low
    have shifted : Split 26 _ _ := (split_charWord high).shiftLeft 18 (by decide)
    have mixed := shifted.xor_left (h + sfhGet16 a b ^^^ (h + sfhGet16 a b) <<< 16)
    exact ⟨15, by decide, mixed.add_shiftRight 11 (by decide) (by decide)⟩
  · simp only [List.length_cons] at few
    omega

theorem sfhEnd_eq (few : rest.length < 4) (portable : Portable rest) (h : UInt32) :
    sfhEnd true h rest = sfhEnd false h rest := by
  rcases rest with _ | ⟨a, _ | ⟨b, _ | ⟨c, _ | ⟨d, rest⟩⟩⟩⟩
  · rfl
  · have low : a < 0x80 := portable.resolve_left (show ¬ 1 % 2 = 0 by decide) a rfl
    rw [sfhEnd, sfhEnd, charWord_eq low]
  · rfl
  · have low : c < 0x80 := portable.resolve_left (show ¬ 3 % 2 = 0 by decide) c rfl
    rw [sfhEnd, sfhEnd, charWord_eq low]
  · simp only [List.length_cons] at few
    omega

/-- Words that agree in the last bit are told apart by the sum with their upper halves. -/
theorem add_shiftRight_17_ne {x y : UInt32} (ne : x ≠ y) (same : x.toNat % 2 = y.toNat % 2) :
    x + x >>> 17 ≠ y + y >>> 17 := by
  intro sum
  apply ne
  have left := x.toNat_lt
  have right := y.toNat_lt
  have sum' := congrArg UInt32.toNat sum
  have small : (17 : UInt32).toNat < 32 := by decide
  rw [toNat_add_shiftRight x 17 small, toNat_add_shiftRight y 17 small,
    Nat.shiftRight_eq_div_pow, Nat.shiftRight_eq_div_pow] at sum'
  have power : 2 ^ (17 : UInt32).toNat = 131072 := rfl
  rw [power] at sum'
  apply UInt32.toNat_inj.mp
  -- Where the sums wrap, one word is at the bottom and the other at the top.
  rcases Nat.lt_trichotomy x.toNat y.toNat with less | eq | less
  · have wrap : y.toNat + y.toNat / 131072 = x.toNat + x.toNat / 131072 + 2 ^ 32 := by omega
    have bottom : x.toNat / 131072 = 0 := by omega
    have top : y.toNat / 131072 = 32767 := by omega
    omega
  · exact eq
  · have wrap : x.toNat + x.toNat / 131072 = y.toNat + y.toNat / 131072 + 2 ^ 32 := by omega
    have bottom : y.toNat / 131072 = 0 := by omega
    have top : x.toNat / 131072 = 32767 := by omega
    omega

/-- The exclusive or with the word shifted to the left keeps words apart. -/
theorem xor_shiftLeft_ne {x y places : UInt32} (ne : x ≠ y) (positive : 0 < places.toNat)
    (small : places.toNat < 32) : x ^^^ x <<< places ≠ y ^^^ y <<< places := by
  have differ : x.toNat ≠ y.toNat := fun same => ne (UInt32.toNat_inj.mp same)
  obtain ⟨k, splits⟩ := exists_splits differ
  have split : Split k x y := splits
  exact (split.xor_shiftLeft places positive small).ne

/-- The bytes behind the last group of four are as portable as all of them. -/
theorem portable_rest (hash : UInt32) (data : List UInt8) :
    (sfhMain hash data).2.length < 4 ∧ (Portable (sfhMain hash data).2 ↔ Portable data) := by
  rw [sfhMain_snd]
  have split : data.take (4 * (data.length / 4)) ++ data.drop (4 * (data.length / 4)) = data :=
    List.take_append_drop _ data
  have length : (data.drop (4 * (data.length / 4))).length = data.length % 4 := by
    rw [List.length_drop]
    omega
  refine ⟨by omega, ?_⟩
  have parity : (data.drop (4 * (data.length / 4))).length % 2 = data.length % 2 := by omega
  unfold Portable
  rw [parity]
  by_cases none : data.drop (4 * (data.length / 4)) = []
  · have even : data.length % 2 = 0 := by
      rw [none, List.length_nil] at length
      omega
    exact ⟨fun _ => .inl even, fun _ => .inl even⟩
  · have last : (data.drop (4 * (data.length / 4))).getLast? = data.getLast? := by
      conv_rhs => rw [← split, List.getLast?_append]
      rw [List.getLast?_eq_some_getLast none, Option.some_or]
    rw [last]

/-- The words before the last addition. -/
theorem mixed_ne (not : ¬ Portable data) : sfhMixed true data ≠ sfhMixed false data := by
  have rest := portable_rest (UInt32.ofNat data.length) data
  obtain ⟨k, high, split⟩ := split_sfhEnd rest.1 (mt rest.2.mp not)
    (sfhMain (UInt32.ofNat data.length) data).1
  have mixed := split.xor_shiftLeft 3 (by decide) (by decide)
  have mixed := mixed.add_shiftRight 5 (by decide)
    (by
      have five : (5 : UInt32).toNat = 5 := rfl
      omega)
  have mixed := mixed.xor_shiftLeft 4 (by decide) (by decide)
  have parity := Splits.mod_two mixed (by
    have five : (5 : UInt32).toNat = 5 := rfl
    omega)
  exact xor_shiftLeft_ne (add_shiftRight_17_ne mixed.ne parity) (by decide) (by decide)

theorem sfhMixed_eq (portable : Portable data) : sfhMixed true data = sfhMixed false data := by
  have rest := portable_rest (UInt32.ofNat data.length) data
  have same := sfhEnd_eq rest.1 (rest.2.mpr portable) (sfhMain (UInt32.ofNat data.length) data).1
  simp only [sfhMixed, same]

/-- The last addition brings words together only from two distances. -/
theorem add_shiftRight_6 {x y : UInt32} (ne : x ≠ y) (sum : x + x >>> 6 = y + y >>> 6) :
    (x - y).toNat ∈ [66076419, 66076420] ∨ (y - x).toNat ∈ [66076419, 66076420] := by
  have left := x.toNat_lt
  have right := y.toNat_lt
  have differ : x.toNat ≠ y.toNat := fun same => ne (UInt32.toNat_inj.mp same)
  have sum' := congrArg UInt32.toNat sum
  have small : (6 : UInt32).toNat < 32 := by decide
  rw [toNat_add_shiftRight x 6 small, toNat_add_shiftRight y 6 small,
    Nat.shiftRight_eq_div_pow, Nat.shiftRight_eq_div_pow] at sum'
  have power : 2 ^ (6 : UInt32).toNat = 64 := rfl
  rw [power] at sum'
  rw [UInt32.toNat_sub, UInt32.toNat_sub, List.mem_cons, List.mem_singleton, List.mem_cons,
    List.mem_singleton]
  rcases Nat.lt_or_gt_of_ne differ with less | less
  · have wrap : y.toNat + y.toNat / 64 = x.toNat + x.toNat / 64 + 2 ^ 32 := by omega
    have distance : y.toNat = x.toNat + 4228890877 ∨ y.toNat = x.toNat + 4228890876 := by omega
    left
    omega
  · have wrap : x.toNat + x.toNat / 64 = y.toNat + y.toNat / 64 + 2 ^ 32 := by omega
    have distance : x.toNat = y.toNat + 4228890877 ∨ x.toNat = y.toNat + 4228890876 := by omega
    right
    omega

/-- The host and the target hash a key alike where no byte with a sign stands behind its last pair.
Elsewhere the words differ up to the last addition, which brings words together from two distances
only. -/
theorem sfhHash_host (data : List UInt8) :
    (Portable data → sfhHash true data = sfhHash false data) ∧
    (sfhMixed true data = sfhMixed false data ↔ Portable data) ∧
    (sfhHash true data = sfhHash false data → Portable data ∨
      (sfhMixed true data - sfhMixed false data).toNat ∈ [66076419, 66076420] ∨
      (sfhMixed false data - sfhMixed true data).toNat ∈ [66076419, 66076420]) := by
  have hashes : sfhMixed true data = sfhMixed false data →
      sfhHash true data = sfhHash false data := by
    intro same
    by_cases none : data = []
    · rw [none]
      rfl
    · rw [sfhHash_eq true none, sfhHash_eq false none, same]
  refine ⟨fun portable => hashes (sfhMixed_eq portable), ⟨fun same => ?_, sfhMixed_eq⟩, ?_⟩
  · by_contra not
    exact mixed_ne not same
  · intro same
    by_cases portable : Portable data
    · exact .inl portable
    · have some : data ≠ [] := by
        intro none
        apply portable
        rw [none]
        exact .inl rfl
      rw [sfhHash_eq true some, sfhHash_eq false some] at same
      exact .inr (add_shiftRight_6 (mixed_ne portable) same)

/-- The key `aü` in UTF-8. -/
theorem sfhHash_host_umlaut : ¬ ∀ data, sfhHash true data = sfhHash false data := by
  intro same
  have wrong := same [0x61, 0xc3, 0xbc]
  exact absurd wrong (by decide +kernel)

end Trunk.Luci
