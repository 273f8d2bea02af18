import Trunk.Foundation.Run
import Trunk.Nvram.Image

/-! # What a commit writes is read back

A handle that was opened and edited, also with commits in between, is committed with all its
variables where they fit, and both the handle and one that is opened on the image afterwards
hold the same variables. Only parameters of the memory that were missing are added
(`Trunk.Nvram.commit_roundTrip`).
-/

namespace Trunk.Nvram

open CString Memory Run

variable {endian : Endian} {address : UInt32} {h h' : Handle} {name value : CStr} {t : Tuple}
  {area image rest : List UInt8}

/-- A text with its terminator is found in front of what follows it. -/
theorem cstring_append (string : CStr) (rest : List UInt8) :
    cstring (string.bytes ++ 0 :: rest) = some (string, rest) := by
  have nonzero : ∀ byte ∈ string.bytes, decide (byte ≠ 0) = true := by
    intro byte member
    rw [decide_eq_true_eq]
    rintro rfl
    exact string.noNul member
  rw [cstring, if_pos (List.mem_append_right _ (List.mem_cons_self ..)),
    List.dropWhile_append_of_pos nonzero]
  have front : CStr.ofBuffer (string.bytes ++ 0 :: rest) = string := by
    apply CStr.bytes_injective
    change (string.bytes ++ 0 :: rest).takeWhile _ = string.bytes
    rw [List.takeWhile_append_of_pos nonzero]
    simp
  rw [front]
  simp

/-- The text of a tuple, before its terminator. -/
def Tuple.string (t : Tuple) : CStr where
  bytes := t.name.bytes ++ ascii '=' :: t.value.bytes
  noNul := by
    intro member
    rcases List.mem_append.mp member with inName | behind
    · exact t.name.noNul inName
    · rcases List.mem_cons.mp behind with sign | inValue
      · exact absurd sign (by decide)
      · exact t.value.noNul inValue

theorem Tuple.text_append (t : Tuple) (rest : List UInt8) :
    t.text ++ rest = t.string.bytes ++ 0 :: rest := by
  simp only [Tuple.text, Tuple.string, List.append_assoc, List.singleton_append]

theorem Tuple.length_text (t : Tuple) :
    t.text.length = t.name.bytes.length + t.value.bytes.length + 2 := by
  simp only [Tuple.text, List.length_append, List.length_cons, List.length_nil]
  omega

section Split

variable (plain : ascii '=' ∉ t.name.bytes)

include plain

theorem before_sign : ∀ byte ∈ t.name.bytes, decide (byte ≠ ascii '=') = true := by
  intro byte member
  rw [decide_eq_true_eq]
  rintro rfl
  exact plain member

theorem nameOf_string : nameOf t.string = t.name := by
  apply CStr.bytes_injective
  change (t.name.bytes ++ ascii '=' :: t.value.bytes).takeWhile _ = t.name.bytes
  rw [List.takeWhile_append_of_pos (before_sign plain)]
  simp

theorem valueOf_string : valueOf t.string = t.value := by
  apply CStr.bytes_injective
  change ((t.name.bytes ++ ascii '=' :: t.value.bytes).dropWhile _).tail = t.value.bytes
  rw [List.dropWhile_append_of_pos (before_sign plain)]
  simp

end Split

/-- Texts with an equals sign are parsed, up to the empty text behind them. -/
theorem parse_texts (tuples : List Tuple) (rest : List UInt8) (h : Handle) {fuel : Nat}
    (enough : tuples.length < fuel) :
    parse fuel (tuples.flatMap Tuple.text ++ 0 :: rest) h =
      some (tuples.foldl (fun h t => (nvramSet h (nameOf t.string) (valueOf t.string)).2) h) := by
  induction tuples generalizing h fuel with
  | nil =>
      obtain ⟨fuel, rfl⟩ := Nat.exists_eq_add_of_lt enough
      have empty := cstring_append ⟨[], List.not_mem_nil⟩ rest
      rw [List.nil_append] at empty
      rw [List.flatMap_nil, List.nil_append, parse, empty]
      rfl
  | cons t tuples ih =>
      obtain ⟨fuel, rfl⟩ : ∃ less, fuel = less + 1 := ⟨fuel - 1, by omega⟩
      rw [List.length_cons] at enough
      have signed : ascii '=' ∈ t.string.bytes := List.mem_append_right _ (List.mem_cons_self ..)
      have nonempty : t.string.bytes ≠ [] := List.ne_nil_of_mem signed
      rw [List.flatMap_cons, List.append_assoc, Tuple.text_append, parse, cstring_append]
      simp only [if_neg nonempty, if_pos signed]
      exact ih _ (by omega)

/-- The texts of tuples are parsed back, up to the empty text behind them. -/
theorem parse_tuples (tuples : List Tuple) (plain : ∀ t ∈ tuples, ascii '=' ∉ t.name.bytes)
    (rest : List UInt8) (h : Handle) {fuel : Nat} (enough : tuples.length < fuel) :
    parse fuel (tuples.flatMap Tuple.text ++ 0 :: rest) h =
      some (tuples.foldl (fun h t => (nvramSet h t.name t.value).2) h) := by
  rw [parse_texts tuples rest h enough]
  refine congrArg some (List.foldl_ext _ _ h fun h t listed => ?_)
  rw [nameOf_string (plain t listed), valueOf_string (plain t listed)]

theorem writeChain_eq (text : List UInt8) (chain : List Tuple)
    (fits : headerSize + text.length + (chain.flatMap Tuple.text).length ≤ nvramSpace - 2) :
    writeChain text chain = text ++ chain.flatMap Tuple.text := by
  induction chain generalizing text with
  | nil => rw [writeChain, List.flatMap_nil, List.append_nil]
  | cons t chain ih =>
      rw [List.flatMap_cons, List.length_append] at fits
      have room : ¬ headerSize + text.length + t.text.length > nvramSpace - 2 := by omega
      have later : headerSize + (text ++ t.text).length + (chain.flatMap Tuple.text).length ≤
          nvramSpace - 2 := by
        rw [List.length_append]
        omega
      rw [writeChain, if_neg room, ih _ later, List.flatMap_cons, List.append_assoc]

/-- Where all tuples fit, all are written. -/
theorem writeTuples_eq (h : Handle)
    (fits : headerSize + (h.tuples.flatMap Tuple.text).length ≤ nvramSpace - 2) :
    writeTuples h = h.tuples.flatMap Tuple.text := by
  have buckets : ∀ (slots : List (Fin 257)) (text : List UInt8),
      headerSize + text.length + ((slots.flatMap h.nvramHash).flatMap Tuple.text).length ≤
        nvramSpace - 2 →
      slots.foldl (fun text slot => writeChain text (h.nvramHash slot)) text =
        text ++ (slots.flatMap h.nvramHash).flatMap Tuple.text := by
    intro slots
    induction slots with
    | nil => exact fun text _ => (List.append_nil text).symm
    | cons slot slots ih =>
        intro text room
        rw [List.flatMap_cons, List.flatMap_append, List.length_append] at room
        have first := writeChain_eq text (h.nvramHash slot) (by omega)
        have later : headerSize + (text ++ (h.nvramHash slot).flatMap Tuple.text).length +
            ((slots.flatMap h.nvramHash).flatMap Tuple.text).length ≤ nvramSpace - 2 := by
          rw [List.length_append]
          omega
        rw [List.foldl_cons, first, ih _ later, List.flatMap_cons, List.flatMap_append,
          List.append_assoc]
  exact buckets _ [] fits

/-- The handle has the mapping of another, in the same place. -/
def SameImage (h h' : Handle) : Prop := h'.mmap = h.mmap ∧ h'.offset = h.offset

theorem sameImage_nvramSet (h : Handle) (name value : CStr) :
    SameImage h (nvramSet h name value).2 := by
  rw [nvramSet_eq]
  split
  · exact ⟨rfl, rfl⟩
  · exact ⟨rfl, rfl⟩

theorem SameImage.trans {first second third : Handle} (one : SameImage first second)
    (two : SameImage second third) : SameImage first third :=
  ⟨two.1.trans one.1, two.2.trans one.2⟩

theorem plain_nameOf (string : CStr) : ascii '=' ∉ (nameOf string).bytes := by
  intro member
  have before := List.mem_takeWhile_imp member
  simp at before

/-- Parsing changes the table only, and keeps it right. -/
theorem parse_spec {fuel : Nat} (filed : Filed h) (parsed : parse fuel area h = some h') :
    Filed h' ∧ SameImage h h' := by
  induction fuel generalizing area h with
  | zero => cases parsed
  | succ fuel ih =>
      unfold parse at parsed
      split at parsed
      · cases parsed
      · rename_i string rest _
        split at parsed
        · obtain rfl := Option.some.inj parsed
          exact ⟨filed, rfl, rfl⟩
        · split at parsed
          · obtain ⟨right, same⟩ :=
              ih (filed.nvramSet (plain_nameOf string) (valueOf string)) parsed
            exact ⟨right, (sameImage_nvramSet h _ _).trans same⟩
          · obtain rfl := Option.some.inj parsed
            exact ⟨filed, rfl, rfl⟩

/-- Every value that was found is found still, and the names that are new are of a list. -/
structure Extends (names : List CStr) (before after : CStr → Option CStr) : Prop where
  keeps : ∀ name value, before name = some value → after name = some value
  adds : ∀ name, before name = none → after name ≠ none → name ∈ names

theorem Extends.trans {first second third : CStr → Option CStr} {names names' : List CStr}
    (one : Extends names first second) (two : Extends names' second third) :
    Extends (names ++ names') first third where
  keeps name value found := two.keeps name value (one.keeps name value found)
  adds name absent found := by
    rw [List.mem_append]
    by_cases middle : second name = none
    · exact .inr (two.adds name middle found)
    · exact .inl (one.adds name absent middle)

theorem nvramGet_inject (h : Handle) (name value other : CStr)
    (fits : value.bytes.length < nvramSpace) :
    nvramGet (inject name value h) other =
      if other = name then (nvramGet h name).or (some value) else nvramGet h other := by
  unfold inject
  split
  · rename_i found
    split
    · rename_i same
      rw [same, found]
      rfl
    · rfl
  · rename_i absent
    rw [nvramGet_nvramSet h other fits, absent]
    rfl

theorem extends_inject (h : Handle) (name : CStr) {value : CStr}
    (fits : value.bytes.length < nvramSpace) :
    Extends [name] (nvramGet h) (nvramGet (inject name value h)) where
  keeps other found known := by
    rw [nvramGet_inject h name value other fits]
    split
    · rename_i same
      rw [← same, known]
      rfl
    · exact known
  adds other absent found := by
    rw [nvramGet_inject h name value other fits] at found
    split at found
    · rename_i same
      exact List.mem_singleton.mpr same
    · exact absurd absent found

/-- A number that `_nvram_rehash` writes is a short text. -/
theorem upperHex_fits {digits : Nat} (few : digits ≤ 8) (number : Nat) :
    (upperHex digits number).bytes.length < nvramSpace := by
  have short : (upperHex digits number).bytes.length ≤ digits + 2 := by
    refine (List.takeWhile_prefix _).length_le.trans ?_
    simp only [List.length_cons, List.length_map, List.length_reverse, List.length_range, le_refl]
  have space : nvramSpace = 0x8000 := rfl
  omega

/-- The names that `_nvram_rehash` adds. -/
def sdramNames : List CStr :=
  [literal "sdram_init", literal "sdram_config", literal "sdram_refresh", literal "sdram_ncdl"]

/-- A handle with the mapping of another and with its variables, and maybe some more. -/
structure Grown (names : List CStr) (h h' : Handle) : Prop where
  filed : Filed h'
  image : SameImage h h'
  values : Extends names (nvramGet h) (nvramGet h')

theorem Grown.inject {names : List CStr} (grown : Grown names h h')
    (plain : ascii '=' ∉ name.bytes) (fits : value.bytes.length < nvramSpace) :
    Grown (names ++ [name]) h (inject name value h') := by
  refine ⟨?_, ?_, grown.values.trans (extends_inject h' name fits)⟩
  · unfold Nvram.inject
    split
    · exact grown.filed
    · exact grown.filed.nvramSet plain value
  · unfold Nvram.inject
    split
    · exact grown.image
    · exact grown.image.trans (sameImage_nvramSet h' name value)

/-- What `_nvram_rehash` makes of the handle that the texts were parsed into. -/
theorem nvramRehash_of_parse (endian : Endian) {parsed : Handle}
    (read : parse (h.mmap.drop (h.offset + headerSize)).length
      (h.mmap.drop (h.offset + headerSize)) (nvramFree h) = some parsed) :
    ∃ h', nvramRehash endian h = some h' ∧ Grown sdramNames parsed h' := by
  have start : Grown [] parsed parsed :=
    ⟨(parse_spec (filed_nvramFree h) read).1, ⟨rfl, rfl⟩,
      ⟨fun _ _ => id, fun _ absent found => absurd absent found⟩⟩
  rw [nvramRehash]
  simp only [read, Option.bind_eq_bind, Option.bind_some, Option.pure_def]
  exact ⟨_, rfl, (((start.inject (by decide) (upperHex_fits (by decide) _)).inject (by decide)
    (upperHex_fits (by decide) _)).inject (by decide) (upperHex_fits (by decide) _)).inject
    (by decide) (upperHex_fits (by decide) _)⟩

theorem nvramRehash_spec (rehashed : nvramRehash endian h = some h') :
    Filed h' ∧ SameImage h h' := by
  cases read : parse (h.mmap.drop (h.offset + headerSize)).length
      (h.mmap.drop (h.offset + headerSize)) (nvramFree h) with
  | none =>
      rw [nvramRehash, read] at rehashed
      cases rehashed
  | some parsed =>
      obtain ⟨made, result, grown⟩ := nvramRehash_of_parse endian read
      obtain rfl : made = h' := Option.some.inj (result.symm.trans rehashed)
      have same : SameImage h parsed := (parse_spec (filed_nvramFree h) read).2
      exact ⟨grown.filed, same.trans grown.image⟩

/-- What a commit leaves in the mapping: in front of the header nothing changes, the header has
the magic word, and the text with an empty one behind it follows. -/
structure Written (endian : Endian) (h : Handle) (image : List UInt8) : Prop where
  size : image.length = h.mmap.length
  front : ∀ start length, start + length ≤ h.offset → load image start length =
    load h.mmap start length
  magic : load image h.offset 4 = some (endian.bytes nvramMagic)
  text : load image (h.offset + headerSize) (writeTuples h ++ [0]).length =
    some (writeTuples h ++ [0])

theorem Endian.length_bytes (endian : Endian) (word : UInt32) : (endian.bytes word).length = 4 := by
  cases endian <;> rfl

theorem Header.length_bytes (endian : Endian) (header : Header) :
    (header.bytes endian).length = headerSize := by
  simp only [Header.bytes, List.length_append, Endian.length_bytes]
  rfl

theorem regenerate_magic (h : Handle) : (regenerate h).magic = nvramMagic := by
  unfold regenerate
  split <;> rfl

/-- A part of a range that is read. -/
theorem load_front {start length less : Nat} {content : List UInt8}
    (whole : load image start length = some content) (fewer : less ≤ length) :
    load image start less = some (content.take less) := by
  obtain ⟨inside, rfl⟩ := load_eq_some_iff.mp whole
  refine load_eq_some_iff.mpr ⟨by omega, ?_⟩
  rw [List.take_take, Nat.min_eq_left fewer]

theorem commitImage_written (made : commitImage endian address h = some image) :
    Written endian h image := by
  unfold commitImage at made
  simp only [Option.bind_eq_bind, Option.bind_eq_some_iff] at made
  obtain ⟨cleared, clear, written, write, padded, pad, data, -, final⟩ := made
  refine ⟨?_, fun start length before => ?_, ?_, ?_⟩
  · rw [store_length final, store_length pad, store_length write, store_length clear]
  · rw [load_store_disjoint final (.inl before), load_store_disjoint pad (.inl (by omega)),
      load_store_disjoint write (.inl (by omega)), load_store_disjoint clear (.inl (by omega))]
  · have header := load_store_self final
    rw [Header.length_bytes] at header
    rw [load_front header (by decide)]
    simp only [Header.bytes, regenerate_magic, List.append_assoc]
    rw [List.take_left' (Endian.length_bytes endian nvramMagic)]
  · rw [load_store_disjoint final (.inr (by rw [Header.length_bytes])),
      load_store_disjoint pad (.inl (by rw [List.length_append, List.length_singleton]; omega))]
    exact load_store_self write

/-- Padding goes to the next word. -/
theorem padding_eq {ptr : UInt32} (user : ptr.toNat < 2 ^ 31) :
    padding ptr = (4 - ptr.toNat % 4) % 4 := by
  have positive : ptr.toInt32.toInt = ptr.toNat := by
    rw [← Int32.toInt_toBitVec, UInt32.toBitVec_toInt32]
    refine BitVec.toInt_eq_toNat_of_lt ?_
    rw [UInt32.toNat_toBitVec]
    omega
  rw [padding, positive, Int.tmod_eq_emod_of_nonneg (Int.natCast_nonneg _)]
  split <;> omega

/-- What is promised of a mapping: it is in the user half of the address space, aligned to
words, and has the space for an image. -/
structure Mapping (address : UInt32) (size : Nat) : Prop where
  aligned : address.toNat % 4 = 0
  user : address.toNat + size ≤ 2 ^ 31
  roomy : nvramSpace ≤ size

/-- The header is where `nvram_open` finds it. -/
def Located (endian : Endian) (h : Handle) : Prop :=
  headerOffset endian h.mmap = some (some h.offset)

theorem findMagic_spec {count index offset : Nat}
    (found : findMagic endian area count index = some (some offset)) :
    ∃ word, offset = 4 * word ∧ index ≤ word ∧ word < index + count := by
  induction count generalizing index with
  | zero => cases found
  | succ count ih =>
      rw [findMagic, Option.bind_eq_bind, Option.bind_eq_some_iff] at found
      obtain ⟨bytes, -, found⟩ := found
      split at found
      · exact ⟨index, (Option.some.inj (Option.some.inj found)).symm, by omega, by omega⟩
      · obtain ⟨word, at_, low, high⟩ := ih found
        exact ⟨word, at_, by omega, by omega⟩

/-- The search finds the header again where the words in front of it are the same. -/
theorem findMagic_congr {count index offset : Nat}
    (found : findMagic endian area count index = some (some offset))
    (front : ∀ start length, start + length ≤ offset →
      load image start length = load area start length)
    (magic : (load image offset 4).map endian.word = some nvramMagic) :
    findMagic endian image count index = some (some offset) := by
  induction count generalizing index with
  | zero => cases found
  | succ count ih =>
      rw [findMagic, Option.bind_eq_bind, Option.bind_eq_some_iff] at found ⊢
      obtain ⟨bytes, loaded, found⟩ := found
      split at found
      · obtain rfl := Option.some.inj (Option.some.inj found)
        obtain ⟨bytes', loaded', word⟩ := Option.map_eq_some_iff.mp magic
        exact ⟨bytes', loaded', by rw [if_pos word]; rfl⟩
      · rename_i other
        obtain ⟨word, at_, low, -⟩ := findMagic_spec found
        refine ⟨bytes, ?_, ?_⟩
        · rw [front _ _ (by omega), loaded]
        · rw [if_neg other]
          exact ih found

theorem Endian.word_bytes (endian : Endian) (word : UInt32) :
    endian.word (endian.bytes word) = word := by
  have low : bytesWord (wordBytes word) = word := by
    have bound := word.toNat_lt
    apply UInt32.toNat_inj.mp
    simp only [wordBytes, bytesWord, UInt8.toNat_ofNat', UInt32.toNat_ofNat']
    omega
  cases endian with
  | little => exact low
  | big => rw [Endian.word, Endian.bytes, List.reverse_reverse, low]

theorem Written.located (written : Written endian h image) (located : Located endian h) :
    Located endian { h with mmap := image } := by
  unfold Located headerOffset at located ⊢
  dsimp only
  rw [written.size]
  refine findMagic_congr located written.front ?_
  rw [written.magic, Option.map_some, Endian.word_bytes]

/-- The area of a header that was found lies in the mapping. -/
theorem Located.inside (located : Located endian h) (mapping : Mapping address h.mmap.length) :
    h.offset % 4 = 0 ∧ h.offset + nvramSpace ≤ h.mmap.length := by
  obtain ⟨word, here, -, bound⟩ := findMagic_spec located
  have user := mapping.user
  have roomy := mapping.roomy
  have wrapped : (2 ^ 32 + h.mmap.length - nvramSpace) % 2 ^ 32 = h.mmap.length - nvramSpace := by
    omega
  rw [wrapped] at bound
  omega

/-- Where the text leaves space for a double NUL and the padding stays in the area, the image is
written. -/
theorem commitImage_isSome_of_padding (inside : h.offset + nvramSpace ≤ h.mmap.length)
    (fits : headerSize + (writeTuples h).length ≤ nvramSpace - 2)
    (padded : headerSize + (writeTuples h).length + 1 + padding (address + UInt32.ofNat
      (h.offset + headerSize + (writeTuples h).length + 1)) ≤ nvramSpace) :
    ∃ image, commitImage endian address h = some image := by
  have space : nvramSpace = 0x8000 := rfl
  have header : headerSize = 20 := rfl
  obtain ⟨cleared, clear⟩ : ∃ cleared, store h.mmap (h.offset + headerSize)
      (List.replicate (nvramSpace - headerSize) 0xff) = some cleared := by
    apply store_isSome
    rw [List.length_replicate]
    omega
  obtain ⟨written, write⟩ : ∃ written, store cleared (h.offset + headerSize)
      (writeTuples h ++ [0]) = some written := by
    apply store_isSome
    rw [store_length clear, List.length_append, List.length_singleton]
    omega
  obtain ⟨padded, pad⟩ : ∃ padded, store written (h.offset + headerSize + (writeTuples h).length + 1)
      (List.replicate (padding (address + UInt32.ofNat
        (h.offset + headerSize + (writeTuples h).length + 1))) 0) = some padded := by
    apply store_isSome
    rw [store_length write, store_length clear, List.length_replicate]
    omega
  have sized : padded.length = h.mmap.length := by
    rw [store_length pad, store_length write, store_length clear]
  have read : load padded (h.offset + headerSize)
      (roundup (headerSize + (writeTuples h).length + 2) - headerSize) ≠ none := by
    rw [load, if_pos (by rw [sized, roundup]; omega)]
    nofun
  obtain ⟨data, read⟩ := Option.ne_none_iff_exists'.mp read
  simp only [commitImage, clear, write, pad, read, Option.bind_eq_bind, Option.bind_some]
  apply store_isSome
  rw [Header.length_bytes, sized]
  omega

/-- Where the text leaves space for a double NUL, the image is written. -/
theorem commitImage_isSome (located : Located endian h) (mapping : Mapping address h.mmap.length)
    (fits : headerSize + (writeTuples h).length ≤ nvramSpace - 2) :
    ∃ image, commitImage endian address h = some image := by
  obtain ⟨word, inside⟩ := located.inside mapping
  have user := mapping.user
  have aligned := mapping.aligned
  have space : nvramSpace = 0x8000 := rfl
  have header : headerSize = 20 := rfl
  have ptr : (address + UInt32.ofNat (h.offset + headerSize + (writeTuples h).length + 1)).toNat =
      address.toNat + (h.offset + headerSize + (writeTuples h).length + 1) := by
    rw [UInt32.toNat_add, UInt32.toNat_ofNat']
    omega
  refine commitImage_isSome_of_padding inside fits ?_
  rw [padding_eq (by omega), ptr]
  omega

/-- What a handle keeps while it is used. -/
structure Ready (endian : Endian) (size : Nat) (h : Handle) : Prop where
  filed : Filed h
  located : Located endian h
  size : h.mmap.length = size

theorem Ready.of_sameImage {size : Nat} (ready : Ready endian size h) (filed : Filed h')
    (same : SameImage h h') : Ready endian size h' := by
  refine ⟨filed, ?_, ?_⟩
  · rw [Located, same.1, same.2]
    exact ready.located
  · rw [same.1]
    exact ready.size

theorem nvramOpen_spec (opened : nvramOpen endian area = some (some h)) :
    Ready endian area.length h := by
  rw [nvramOpen, Option.bind_eq_bind, Option.bind_eq_some_iff] at opened
  obtain ⟨found, search, opened⟩ := opened
  cases found with
  | none => cases opened
  | some offset =>
      dsimp only at opened
      split at opened
      · obtain ⟨handle, rehashed, result⟩ := Option.bind_eq_some_iff.mp opened
        obtain rfl : handle = h := Option.some.inj (Option.some.inj result)
        obtain ⟨filed, image, offset⟩ := nvramRehash_spec rehashed
        refine ⟨filed, ?_, by rw [image]⟩
        rw [Located, image, offset]
        exact search
      · cases opened

/-- A mapping with a header that is found is opened. -/
theorem nvramOpen_of_header {offset : Nat}
    (found : headerOffset endian area = some (some offset))
    (magic : load area offset 4 = some (endian.bytes nvramMagic))
    (rehashed : nvramRehash endian
      { mmap := area, offset := offset, nvramHash := fun _ => [], nvramDead := [] } = some h') :
    nvramOpen endian area = some (some h') := by
  have word : endian.word ((area.drop (offset + 4 * 0)).take 4) = nvramMagic := by
    rw [Nat.mul_zero, Nat.add_zero, (load_eq_some_iff.mp magic).2, Endian.word_bytes]
  rw [nvramOpen]
  simp only [found, nvramHeader, word, rehashed, Option.bind_eq_bind, Option.bind_some, ↓reduceIte,
    Option.pure_def]

/-- A commit leaves a mapping that the handle is opened on again. -/
theorem nvramOpen_of_commit (written : Written endian h image) (located : Located endian h)
    (rehashed : nvramRehash endian { h with mmap := image } = some h') :
    nvramOpen endian h'.mmap = some (some h') := by
  obtain ⟨-, same, -⟩ := nvramRehash_spec rehashed
  rw [same]
  exact nvramOpen_of_header (written.located located) written.magic rehashed

/-- A commit leaves a handle that is ready again, whatever its table was. -/
theorem nvramCommit_ready {size : Nat} (located : Located endian h) (length : h.mmap.length = size)
    (done : nvramCommit endian address h = some h') : Ready endian size h' := by
  rw [nvramCommit, Option.bind_eq_bind, Option.bind_eq_some_iff] at done
  obtain ⟨image, made, rehashed⟩ := done
  have written := commitImage_written made
  obtain ⟨filed, same⟩ := nvramRehash_spec rehashed
  refine ⟨filed, ?_, ?_⟩
  · rw [Located, same.1, same.2]
    exact written.located located
  · rw [same.1]
    exact written.size.trans length

/-- The calls that change a handle. -/
inductive Edit where
  | set (name value : CStr)
  | unset (name : CStr)
  | commit

/-- One call. -/
def edit (endian : Endian) (address : UInt32) (h : Handle) : Edit → Option Handle
  | .set name value => some (nvramSet h name value).2
  | .unset name => some (nvramUnset h name)
  | .commit => nvramCommit endian address h

/-- The names that are set have no equals sign. -/
def Edit.Plain : Edit → Prop
  | .set name _ => ascii '=' ∉ name.bytes
  | _ => True

theorem sameImage_nvramUnset (h : Handle) (name : CStr) : SameImage h (nvramUnset h name) := by
  unfold nvramUnset
  dsimp only
  split
  · exact ⟨rfl, rfl⟩
  · exact ⟨rfl, rfl⟩

theorem Ready.edit {size : Nat} {call : Edit} (ready : Ready endian size h) (plain : call.Plain)
    (done : edit endian address h call = some h') : Ready endian size h' := by
  cases call with
  | set name value =>
      obtain rfl := Option.some.inj done
      exact ready.of_sameImage (ready.filed.nvramSet plain value) (sameImage_nvramSet h name value)
  | unset name =>
      obtain rfl := Option.some.inj done
      exact ready.of_sameImage (ready.filed.nvramUnset name) (sameImage_nvramUnset h name)
  | commit => exact nvramCommit_ready ready.located ready.size done

/-- The variables of a table and those of its tuples set one after another are the same. -/
theorem Filed.nvramGet_foldl (filed : Filed h) (start : Handle)
    (empty : ∀ name, nvramGet start name = none)
    (fits : ∀ t ∈ h.tuples, t.value.bytes.length < nvramSpace) (name : CStr) :
    nvramGet (h.tuples.foldl (fun h t => (Nvram.nvramSet h t.name t.value).2) start) name =
      nvramGet h name := by
  rw [Nvram.nvramGet_foldl start h.tuples filed.nodup_names fits, empty, Option.or_none]
  apply Option.ext
  intro value
  rw [filed.nvramGet_eq_some_iff, Option.map_eq_some_iff]
  constructor
  · rintro ⟨t, found, rfl⟩
    obtain ⟨listed, rfl⟩ := (lookup_eq_some_iff filed.nodup_names).mp found
    exact listed
  · intro listed
    exact ⟨_, (lookup_eq_some_iff filed.nodup_names).mpr ⟨listed, rfl⟩, rfl⟩

theorem length_text_le {tuples : List Tuple} (listed : t ∈ tuples) :
    t.text.length ≤ (tuples.flatMap Tuple.text).length := by
  rw [List.flatMap_def]
  exact (List.sublist_flatten_of_mem (List.mem_map.mpr ⟨t, listed, rfl⟩)).length_le

theorem length_le_flatMap_text (tuples : List Tuple) :
    tuples.length ≤ (tuples.flatMap Tuple.text).length := by
  induction tuples with
  | nil => exact Nat.le_refl 0
  | cons t tuples ih =>
      rw [List.length_cons, List.flatMap_cons, List.length_append, Tuple.length_text]
      omega

/-- The text of tuples stands in front of an empty one. -/
theorem Written.front_text (written : Written endian h image) {tuples : List Tuple}
    (text : writeTuples h = tuples.flatMap Tuple.text) :
    ∃ rest, image.drop (h.offset + headerSize) = tuples.flatMap Tuple.text ++ 0 :: rest ∧
      tuples.length < (image.drop (h.offset + headerSize)).length := by
  have front := (load_eq_some_iff.mp written.text).2
  rw [text] at front
  have split := List.take_append_drop (tuples.flatMap Tuple.text ++ [0]).length
    (image.drop (h.offset + headerSize))
  rw [front, List.append_assoc, List.singleton_append] at split
  have many := length_le_flatMap_text tuples
  refine ⟨_, split.symm, ?_⟩
  rw [← split, List.length_append, List.length_cons]
  omega

/-- The text that was written is parsed back into the table. -/
theorem Written.parse (written : Written endian h image)
    (all : writeTuples h = h.tuples.flatMap Tuple.text) (filed : Filed h) (start : Handle) :
    parse (image.drop (h.offset + headerSize)).length (image.drop (h.offset + headerSize)) start =
      some (h.tuples.foldl (fun h t => (nvramSet h t.name t.value).2) start) := by
  obtain ⟨rest, area, enough⟩ := written.front_text all
  rw [area] at enough ⊢
  exact parse_tuples h.tuples (fun t listed => filed.plain_of_mem listed) rest start enough

/-- A commit of a handle whose variables fit. -/
theorem Ready.commit {size : Nat} (ready : Ready endian size h) (mapping : Mapping address size)
    (fits : headerSize + (h.tuples.map fun t =>
      t.name.bytes.length + t.value.bytes.length + 2).sum ≤ nvramSpace - 2) :
    ∃ after, nvramCommit endian address h = some after ∧
      nvramOpen endian after.mmap = some (some after) ∧
      Extends sdramNames (nvramGet h) (nvramGet after) := by
  have length : (h.tuples.flatMap Tuple.text).length =
      (h.tuples.map fun t => t.name.bytes.length + t.value.bytes.length + 2).sum := by
    simp only [List.length_flatMap, Tuple.length_text]
  rw [← length] at fits
  have all := writeTuples_eq h fits
  have short : ∀ t ∈ h.tuples, t.value.bytes.length < nvramSpace := by
    intro t listed
    have part := length_text_le listed
    rw [Tuple.length_text] at part
    omega
  obtain ⟨image, made⟩ : ∃ image, commitImage endian address h = some image := by
    refine commitImage_isSome ready.located (ready.size.symm ▸ mapping) ?_
    rw [all]
    exact fits
  have written := commitImage_written made
  obtain ⟨after, rehashed, grown⟩ := nvramRehash_of_parse endian (h := { h with mmap := image })
    (written.parse all ready.filed _)
  refine ⟨after, ?_, nvramOpen_of_commit written ready.located rehashed, ?_⟩
  · rw [nvramCommit, made]
    exact rehashed
  · have same : nvramGet h = nvramGet (h.tuples.foldl
        (fun h t => (nvramSet h t.name t.value).2) (nvramFree { h with mmap := image })) := by
      funext name
      exact (ready.filed.nvramGet_foldl _ (fun _ => rfl) short name).symm
    rw [same]
    exact grown.values

/-- A handle is opened on any image and edited by any calls. A commit of it, if its variables
fit, keeps every variable and adds none but missing parameters of the memory, and a handle
that is opened on the image then is the same. -/
theorem commit_roundTrip (endian : Endian) {address : UInt32} {area : List UInt8}
    (mapping : Mapping address area.length) {opened before : Handle}
    (open_ : nvramOpen endian area = some (some opened)) (edits : List Edit)
    (plain : ∀ call ∈ edits, call.Plain)
    (ran : attempt (edit endian address) opened edits = some before)
    (fits : headerSize + (before.tuples.map fun t =>
      t.name.bytes.length + t.value.bytes.length + 2).sum ≤ nvramSpace - 2) :
    ∃ after, nvramCommit endian address before = some after ∧
      nvramOpen endian after.mmap = some (some after) ∧
      Extends sdramNames (nvramGet before) (nvramGet after) := by
  have allowed := (met_true (edit endian address) opened edits).and_mem plain
  have ready : Ready endian area.length before :=
    attempt_invariant (fun _ _ _ ready plain done => ready.edit plain.2 done) edits opened before
      (nvramOpen_spec open_) allowed ran
  exact ready.commit mapping fits

/-- An image of an erased table. -/
def blank : List UInt8 :=
  Endian.little.bytes nvramMagic ++ List.replicate 16 0 ++ 0 :: List.replicate (nvramSpace - 21) 0

theorem length_blank : blank.length = nvramSpace := by
  have space : nvramSpace = 0x8000 := rfl
  simp only [blank, List.length_append, List.length_cons, List.length_replicate,
    Endian.length_bytes]
  omega

/-- The handle of the blank image. -/
def blankHandle : Handle where
  mmap := blank
  offset := 0
  nvramHash slot :=
    if slot = 237 then [⟨literal "sdram_ncdl", upperHex 8 0⟩]
    else if slot = 44 then [⟨literal "sdram_refresh", upperHex 4 0⟩]
    else if slot = 169 then [⟨literal "sdram_config", upperHex 4 0⟩]
    else if slot = 120 then [⟨literal "sdram_init", upperHex 4 0⟩]
    else []
  nvramDead := []

theorem inject_of_empty {slot : Fin 257} (here : bucket name = slot)
    (empty : h.nvramHash slot = []) (fits : value.bytes.length < nvramSpace) :
    inject name value h =
      { h with nvramHash := fun other =>
        if other = slot then [⟨name, value⟩] else h.nvramHash other } := by
  subst slot
  have absent : nvramGet h name = none := by
    rw [nvramGet, empty]
    rfl
  have room : ¬ value.bytes.length + 1 > nvramSpace := by omega
  have hooked : Function.update h.nvramHash (bucket name) [⟨name, value⟩] =
      fun other => if other = bucket name then [⟨name, value⟩] else h.nvramHash other := by
    funext other
    rw [Function.update_apply]
  simp only [inject, absent, nvramSet_eq, if_neg room, empty, ← hooked]
  rfl

theorem nvramRehash_of_erased {rest : List UInt8}
    (area : h.mmap.drop (h.offset + headerSize) = 0 :: rest)
    (header : nvramHeader endian h = ⟨nvramMagic, 0, 0, 0, 0⟩) :
    nvramRehash endian h = some (inject (literal "sdram_ncdl") (upperHex 8 0)
      (inject (literal "sdram_refresh") (upperHex 4 0) (inject (literal "sdram_config")
        (upperHex 4 0) (inject (literal "sdram_init") (upperHex 4 0) (nvramFree h))))) := by
  have read : parse (0 :: rest).length (0 :: rest) (nvramFree h) = some (nvramFree h) :=
    parse_tuples [] nofun rest _ (Nat.succ_pos _)
  rw [nvramRehash, area, header, read]
  rfl

theorem nvramOpen_blank : nvramOpen .little blank = some (some blankHandle) := by
  have magic : load blank 0 4 = some (Endian.little.bytes nvramMagic) := by
    refine load_eq_some_iff.mpr ⟨by rw [length_blank]; decide, ?_⟩
    rw [blank, List.append_assoc]
    exact List.take_left' (Endian.length_bytes _ _)
  have found : headerOffset .little blank = some (some 0) := by
    have bound : (2 ^ 32 + nvramSpace - nvramSpace) % 2 ^ 32 / 4 + 1 = 1 := by decide
    rw [headerOffset, length_blank, bound, findMagic, Nat.mul_zero, magic]
    simp only [Option.bind_eq_bind, Option.bind_some, Endian.word_bytes, ↓reduceIte]
    rfl
  have area : blank.drop (0 + headerSize) = 0 :: List.replicate (nvramSpace - 21) 0 :=
    List.drop_left' (by decide)
  have header : nvramHeader .little
      { mmap := blank, offset := 0, nvramHash := fun _ => [], nvramDead := [] } =
        ⟨nvramMagic, 0, 0, 0, 0⟩ := by decide +kernel
  have init : bucket (literal "sdram_init") = 120 := by decide +kernel
  have config : bucket (literal "sdram_config") = 169 := by decide +kernel
  have refresh : bucket (literal "sdram_refresh") = 44 := by decide +kernel
  have ncdl : bucket (literal "sdram_ncdl") = 237 := by decide +kernel
  refine nvramOpen_of_header found magic ?_
  rw [nvramRehash_of_erased area header, inject_of_empty init rfl (upperHex_fits (by decide) _),
    inject_of_empty config rfl (upperHex_fits (by decide) _),
    inject_of_empty refresh rfl (upperHex_fits (by decide) _),
    inject_of_empty ncdl rfl (upperHex_fits (by decide) _)]
  rfl

/-- A variable with an equals sign in its value. -/
theorem commit_roundTrip_sign :
    ∃ after, nvramCommit .little 0x10000 (nvramSet blankHandle (literal "a") (literal "b=c")).2 =
        some after ∧
      nvramOpen .little after.mmap = some (some after) ∧
      Extends sdramNames (nvramGet (nvramSet blankHandle (literal "a") (literal "b=c")).2)
        (nvramGet after) := by
  refine commit_roundTrip .little ⟨by decide, by rw [length_blank]; decide, by rw [length_blank]⟩
    nvramOpen_blank [.set (literal "a") (literal "b=c")] ?_ rfl ?_
  · intro call listed
    obtain rfl := List.mem_singleton.mp listed
    change ascii '=' ∉ (literal "a").bytes
    decide
  · decide +kernel

end Trunk.Nvram
