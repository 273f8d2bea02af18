import Trunk.Nvram.RoundTrip

/-! # Opening an image that is damaged

The loop of `_nvram_rehash` as it works on the mapping: it ends a name where its equals sign stands
for as long as the variable is set. Nothing bounds the loop but the bytes themselves. It stays in
the mapping, and leaves it as it was, exactly if texts with an equals sign each are followed by one
without (`Trunk.Nvram.exists_rehashLoop_iff`), and its variables are in front of the end of the NVRAM
area if the texts are short enough (`Trunk.Nvram.nvramOpen_safe_iff`).
-/

namespace Trunk.Nvram

open CString Memory

/-- `strchr`: the distance of the byte, or null at the terminator. An area without either is left. -/
def strchr (byte : UInt8) : List UInt8 → Option (Option Nat)
  | [] => none
  | first :: rest =>
      if first = byte then some (some 0)
      else if first = 0 then some none
      else (strchr byte rest).map fun place => place.map (· + 1)

/-- Where a variable was found: its name, its equals sign, and the terminator of its value. -/
structure Taken where
  name : Nat
  eq : Nat
  stop : Nat
  deriving DecidableEq, Repr

/-- The loop of `_nvram_rehash` from a name on, with the variables that were set before. It goes on
by two bytes at least, so the number of bytes bounds its rounds. -/
def rehashLoop : Nat → Nat → Handle → List Taken → Option (Handle × List Taken)
  | 0, _, _, _ => none
  | fuel + 1, name, h, taken => do
      if (← h.mmap[name]?) = 0 then return (h, taken)
      else
        match ← strchr (ascii '=') (h.mmap.drop name) with
        | none => return (h, taken)
        | some distance =>
            let eq := name + distance
            let h := { h with mmap := h.mmap.set eq 0 }
            let value := eq + 1
            let (nameString, _) ← cstring (h.mmap.drop name)
            let (valueString, _) ← cstring (h.mmap.drop value)
            let h := (nvramSet h nameString valueString).2
            let h := { h with mmap := h.mmap.set eq (ascii '=') }
            let stop := value + valueString.bytes.length
            rehashLoop fuel (stop + 1) h (taken ++ [{ name := name, eq := eq, stop := stop }])

/-- `_nvram_rehash`, with the variables that it took. -/
def rehash (endian : Endian) (h : Handle) : Option (Handle × List Taken) := do
  let header := nvramHeader endian h
  let name := h.offset + headerSize
  let (h, taken) ← rehashLoop (h.mmap.drop name).length name (nvramFree h) []
  let h := inject (literal "sdram_init") (upperHex 4 (header.crcVerInit >>> 16).toNat) h
  let h := inject (literal "sdram_config") (upperHex 4 (header.configRefresh &&& 0xffff).toNat) h
  let h := inject (literal "sdram_refresh") (upperHex 4 (header.configRefresh >>> 16).toNat) h
  return (inject (literal "sdram_ncdl") (upperHex 8 header.configNcdl.toNat) h, taken)

/-- The handle that `nvram_open` makes of a mapping with a header. -/
def newHandle (area : List UInt8) (offset : Nat) : Handle where
  mmap := area
  offset := offset
  nvramHash _ := []
  nvramDead := []

/-- `nvram_open`, with the variables that were taken. -/
def openTaking (endian : Endian) (area : List UInt8) : Option (Option (Handle × List Taken)) := do
  match ← headerOffset endian area with
  | none => return none
  | some offset =>
      let h := newHandle area offset
      if (nvramHeader endian h).magic = nvramMagic then return some (← rehash endian h)
      else return none

/-- `nvram_open` ends without an access outside the mapping, the mapping is as before, and no
variable goes beyond the end of the NVRAM area. -/
structure Safe (endian : Endian) (area : List UInt8) : Prop where
  ends : ∃ outcome, openTaking endian area = some outcome
  keeps : ∀ h taken, openTaking endian area = some (some (h, taken)) → h.mmap = area
  inside : ∀ h taken, openTaking endian area = some (some (h, taken)) →
    ∀ var ∈ taken, var.stop ≤ h.offset + nvramSpace

variable {endian : Endian} {h : Handle} {t : Tuple} {area rest tail : List UInt8} {last : CStr}
  {name fuel : Nat} {taken : List Taken}

section Round

/-- The place of a variable whose text starts at a place. -/
def Tuple.place (t : Tuple) (name : Nat) : Taken where
  name := name
  eq := name + t.name.bytes.length
  stop := name + t.name.bytes.length + 1 + t.value.bytes.length

theorem strchr_append {front : List UInt8} (plain : ascii '=' ∉ front) (noNul : 0 ∉ front)
    (rest : List UInt8) :
    strchr (ascii '=') (front ++ rest) =
      (strchr (ascii '=') rest).map fun place => place.map (· + front.length) := by
  induction front with
  | nil =>
      rw [List.nil_append]
      cases strchr (ascii '=') rest with
      | none => rfl
      | some place => cases place <;> rfl
  | cons first front ih =>
      rw [List.mem_cons, not_or] at plain noNul
      rw [List.cons_append, strchr, if_neg (Ne.symm plain.1), if_neg (Ne.symm noNul.1),
        ih plain.2 noNul.2]
      cases strchr (ascii '=') rest with
      | none => rfl
      | some place =>
          cases place with
          | none => rfl
          | some place =>
              simp only [Option.map_some, List.length_cons, Nat.add_assoc]

theorem strchr_ne_null {byte : UInt8} (noNul : 0 ∉ area) : strchr byte area ≠ some none := by
  induction area with
  | nil => nofun
  | cons first rest ih =>
      rw [List.mem_cons, not_or] at noNul
      rw [strchr]
      split
      · nofun
      · rw [if_neg (Ne.symm noNul.1)]
        intro found
        cases place : strchr byte rest with
        | none =>
            rw [place] at found
            cases found
        | some place' =>
            cases place' with
            | none => exact ih noNul.2 place
            | some distance =>
                rw [place] at found
                cases found

/-- The handle with other bytes in its mapping. -/
def Handle.mapped (h : Handle) (mmap : List UInt8) : Handle := { h with mmap := mmap }

/-- `nvram_set` does not look at the mapping. -/
theorem nvramSet_mapped (h : Handle) (mmap : List UInt8) (name value : CStr) :
    (nvramSet (h.mapped mmap) name value).2 = (nvramSet h name value).2.mapped mmap := by
  rw [nvramSet_eq, nvramSet_eq]
  split <;> rfl

theorem getElem?_of_drop {byte : UInt8} (here : h.mmap.drop name = byte :: rest) :
    h.mmap[name]? = some byte := by
  have first := @List.getElem?_drop _ h.mmap name 0
  rw [here, Nat.add_zero] at first
  exact first.symm

/-- A round that sets a variable. -/
theorem rehashLoop_text (plain : ascii '=' ∉ t.name.bytes)
    (here : h.mmap.drop name = t.text ++ rest) :
    rehashLoop (fuel + 1) name h taken =
      rehashLoop fuel (name + t.text.length) (nvramSet h t.name t.value).2
        (taken ++ [t.place name]) := by
  have text : h.mmap.drop name =
      t.name.bytes ++ ascii '=' :: (t.value.bytes ++ 0 :: rest) := by
    rw [here]
    simp only [Tuple.text, List.append_assoc, List.cons_append, List.nil_append]
  have found : strchr (ascii '=') (h.mmap.drop name) = some (some t.name.bytes.length) := by
    rw [text, strchr_append plain t.name.noNul, strchr, if_pos rfl, Option.map_some,
      Option.map_some, Nat.zero_add]
  obtain ⟨first, first_, some_⟩ : ∃ first, h.mmap[name]? = some first ∧ first ≠ 0 := by
    cases bytes : t.name.bytes with
    | nil =>
        rw [bytes] at text
        exact ⟨ascii '=', getElem?_of_drop text, by decide⟩
    | cons first front =>
        rw [bytes] at text
        refine ⟨first, getElem?_of_drop text, ?_⟩
        rintro rfl
        exact t.name.noNul (bytes ▸ List.mem_cons_self)
  -- the name ends where its sign stood
  have ended : (h.mmap.set (name + t.name.bytes.length) 0).drop name =
      t.name.bytes ++ 0 :: (t.value.bytes ++ 0 :: rest) := by
    rw [List.drop_set, if_neg (by omega), text, Nat.add_sub_cancel_left,
      List.set_append_right _ _ (Nat.le_refl _), Nat.sub_self, List.set_cons_zero]
  have value : (h.mmap.set (name + t.name.bytes.length) 0).drop (name + t.name.bytes.length + 1) =
      t.value.bytes ++ 0 :: rest := by
    have behind := congrArg (List.drop (t.name.bytes.length + 1)) text
    rw [List.drop_drop, ← Nat.add_assoc, List.drop_append] at behind
    rw [List.drop_set, if_pos (by omega), behind]
    simp
  have sign : h.mmap[name + t.name.bytes.length]? = some (ascii '=') := by
    rw [← List.getElem?_drop, text, List.getElem?_append_right (Nat.le_refl _), Nat.sub_self]
    rfl
  have again : (h.mmap.set (name + t.name.bytes.length) 0).set (name + t.name.bytes.length)
      (ascii '=') = h.mmap := by
    obtain ⟨inside, same⟩ := List.getElem?_eq_some_iff.mp sign
    have self := List.set_getElem_self inside
    rw [same] at self
    rw [List.set_set, self]
  have place : name + t.name.bytes.length + 1 + t.value.bytes.length + 1 =
      name + t.text.length := by
    rw [Tuple.length_text]
    omega
  rw [rehashLoop, first_]
  change (if first = 0 then _ else _) = _
  rw [if_neg some_, found]
  change (cstring ((h.mmap.set (name + t.name.bytes.length) 0).drop name) >>= _) = _
  rw [ended, cstring_append]
  change (cstring ((h.mmap.set (name + t.name.bytes.length) 0).drop
    (name + t.name.bytes.length + 1)) >>= _) = _
  rw [value, cstring_append]
  change rehashLoop fuel (name + t.name.bytes.length + 1 + t.value.bytes.length + 1)
    ((nvramSet (h.mapped (h.mmap.set (name + t.name.bytes.length) 0)) t.name t.value).2.mapped
      (((nvramSet (h.mapped (h.mmap.set (name + t.name.bytes.length) 0)) t.name t.value).2.mmap).set
        (name + t.name.bytes.length) (ascii '='))) (taken ++ [t.place name]) = _
  rw [place, nvramSet_mapped]
  change rehashLoop fuel (name + t.text.length) ((nvramSet h t.name t.value).2.mapped
    ((h.mmap.set (name + t.name.bytes.length) 0).set (name + t.name.bytes.length) (ascii '='))) _ = _
  rw [again, ← (sameImage_nvramSet h t.name t.value).1]
  rfl

/-- A text without an equals sign ends the loop. -/
theorem rehashLoop_last (plain : ascii '=' ∉ last.bytes)
    (here : h.mmap.drop name = last.bytes ++ 0 :: tail) :
    rehashLoop (fuel + 1) name h taken = some (h, taken) := by
  have found : strchr (ascii '=') (h.mmap.drop name) = some none := by
    rw [here, strchr_append plain last.noNul, strchr, if_neg (by decide), if_pos rfl,
      Option.map_some, Option.map_none]
  obtain ⟨first, first_⟩ : ∃ first, h.mmap[name]? = some first := by
    cases bytes : last.bytes with
    | nil =>
        rw [bytes] at here
        exact ⟨0, getElem?_of_drop here⟩
    | cons first front =>
        rw [bytes] at here
        exact ⟨first, getElem?_of_drop here⟩
  rw [rehashLoop, first_]
  change (if first = 0 then _ else _) = _
  rw [found]
  split <;> rfl

/-- Without a terminator the loop leaves the mapping. -/
theorem rehashLoop_broken (broken : 0 ∉ h.mmap.drop name) :
    rehashLoop fuel name h taken = none := by
  cases fuel with
  | zero => rfl
  | succ fuel =>
      cases byte : h.mmap[name]? with
      | none =>
          rw [rehashLoop, byte]
          rfl
      | some first =>
          have member : first ∈ h.mmap.drop name := by
            have here := @List.getElem?_drop _ h.mmap name 0
            rw [Nat.add_zero, byte] at here
            exact List.mem_of_getElem? here
          have some_ : first ≠ 0 := fun nul => broken (nul ▸ member)
          rw [rehashLoop, byte]
          change (if first = 0 then _ else _) = _
          rw [if_neg some_]
          cases found : strchr (ascii '=') (h.mmap.drop name) with
          | none => rfl
          | some place =>
              cases place with
              | none => exact absurd found (strchr_ne_null broken)
              | some distance =>
                  have value : cstring ((h.mmap.set (name + distance) 0).drop
                      (name + distance + 1)) = none := by
                    have fewer : h.mmap.drop (name + distance + 1) ⊆ h.mmap.drop name :=
                      List.drop_subset_drop_left _ (by omega)
                    rw [List.drop_set, if_pos (Nat.lt_succ_self _), cstring,
                      if_neg fun nul => broken (fewer nul)]
                  change (cstring ((h.mmap.set (name + distance) 0).drop name) >>= _) = _
                  cases cstring ((h.mmap.set (name + distance) 0).drop name) with
                  | none => rfl
                  | some string =>
                      change (cstring ((h.mmap.set (name + distance) 0).drop
                        (name + distance + 1)) >>= _) = _
                      rw [value]
                      rfl

end Round

section Run

variable {tuples : List Tuple}

/-- A list is cut at the first place of a byte. -/
theorem split_first {byte : UInt8} {list : List UInt8} (member : byte ∈ list) :
    list = (list.takeWhile fun other => decide (other ≠ byte)) ++
      byte :: (list.dropWhile fun other => decide (other ≠ byte)).tail := by
  induction list with
  | nil => cases member
  | cons first list ih =>
      by_cases same : first = byte
      · rw [List.takeWhile_cons_of_neg (by simpa using same),
          List.dropWhile_cons_of_neg (by simpa using same), same]
        rfl
      · rw [List.takeWhile_cons_of_pos (by simpa using same),
          List.dropWhile_cons_of_pos (by simpa using same), List.cons_append,
          ← ih ((List.mem_cons.mp member).resolve_left (Ne.symm same))]

/-- An area starts with a variable, or with a text without an equals sign, or has no terminator. -/
theorem area_cases (area : List UInt8) :
    0 ∉ area ∨
      (∃ (last : CStr) (tail : List UInt8), ascii '=' ∉ last.bytes ∧
        area = last.bytes ++ 0 :: tail) ∨
      ∃ (t : Tuple) (rest : List UInt8), ascii '=' ∉ t.name.bytes ∧ area = t.text ++ rest := by
  by_cases nul : 0 ∈ area
  · right
    have whole : area = (CStr.ofBuffer area).bytes ++ 0 ::
        (area.dropWhile fun byte => decide (byte ≠ 0)).tail := split_first nul
    by_cases signed : ascii '=' ∈ (CStr.ofBuffer area).bytes
    · right
      have string : (CStr.ofBuffer area).bytes = (nameOf (CStr.ofBuffer area)).bytes ++
          ascii '=' :: (valueOf (CStr.ofBuffer area)).bytes := split_first signed
      refine ⟨⟨nameOf (CStr.ofBuffer area), valueOf (CStr.ofBuffer area)⟩,
        (area.dropWhile fun byte => decide (byte ≠ 0)).tail, plain_nameOf _, ?_⟩
      rw [Tuple.text, ← string, List.append_assoc]
      exact whole
    · exact .inl ⟨CStr.ofBuffer area, _, signed, whole⟩
  · exact .inl nul

/-- Variables stand in front of a text without an equals sign. -/
structure Formed (tuples : List Tuple) (area : List UInt8) : Prop where
  plain : ∀ t ∈ tuples, ascii '=' ∉ t.name.bytes
  ends : ∃ (last : CStr) (tail : List UInt8), ascii '=' ∉ last.bytes ∧
    area = tuples.flatMap Tuple.text ++ (last.bytes ++ 0 :: tail)

/-- The places of variables from a place on. -/
def places : Nat → List Tuple → List Taken
  | _, [] => []
  | name, t :: tuples => t.place name :: places (name + t.text.length) tuples

theorem two_le_length_text (t : Tuple) : 2 ≤ t.text.length := by
  rw [Tuple.length_text]
  omega

theorem Formed.length (formed : Formed tuples area) : tuples.length < area.length := by
  obtain ⟨-, last, tail, -, rfl⟩ := formed
  have texts : tuples.length ≤ (tuples.flatMap Tuple.text).length := by
    induction tuples with
    | nil => exact Nat.zero_le _
    | cons t tuples ih =>
        have two := two_le_length_text t
        rw [List.flatMap_cons, List.length_append, List.length_cons]
        omega
  rw [List.length_append, List.length_append, List.length_cons]
  omega

/-- The loop takes the variables, and leaves the mapping as it was. -/
theorem rehashLoop_formed (formed : Formed tuples (h.mmap.drop name))
    (enough : tuples.length < fuel) (taken : List Taken) :
    rehashLoop fuel name h taken =
      some (tuples.foldl (fun h t => (nvramSet h t.name t.value).2) h,
        taken ++ places name tuples) := by
  induction tuples generalizing h name taken fuel with
  | nil =>
      obtain ⟨-, last, tail, plain, area⟩ := formed
      obtain ⟨fuel, rfl⟩ := Nat.exists_eq_add_of_lt enough
      rw [places, List.append_nil]
      exact rehashLoop_last plain area
  | cons t tuples ih =>
      obtain ⟨plain, last, tail, unsigned, area⟩ := formed
      obtain ⟨fuel, rfl⟩ : ∃ less, fuel = less + 1 := ⟨fuel - 1, by omega⟩
      rw [List.length_cons] at enough
      rw [List.forall_mem_cons] at plain
      rw [List.flatMap_cons, List.append_assoc] at area
      have rest : Formed tuples ((nvramSet h t.name t.value).2.mmap.drop (name + t.text.length)) := by
        refine ⟨plain.2, last, tail, unsigned, ?_⟩
        rw [(sameImage_nvramSet h t.name t.value).1, ← List.drop_drop, area, List.drop_left]
      have less : tuples.length < fuel := by omega
      rw [rehashLoop_text plain.1 area, ih rest less, List.append_assoc, List.foldl_cons]
      rfl

/-- The loop has a result only if there are texts with equals signs in front of one without. -/
theorem formed_of_rehashLoop {result : Handle × List Taken}
    (done : rehashLoop fuel name h taken = some result) :
    ∃ tuples, Formed tuples (h.mmap.drop name) := by
  induction fuel generalizing h name taken with
  | zero => cases done
  | succ fuel ih =>
      rcases area_cases (h.mmap.drop name) with broken | ⟨last, tail, plain, area⟩ |
        ⟨t, rest, plain, area⟩
      · rw [rehashLoop_broken broken] at done
        cases done
      · exact ⟨[], nofun, last, tail, plain, area⟩
      · rw [rehashLoop_text plain area] at done
        obtain ⟨tuples, plains, last, tail, unsigned, later⟩ := ih done
        rw [(sameImage_nvramSet h t.name t.value).1, ← List.drop_drop, area, List.drop_left] at later
        refine ⟨t :: tuples, List.forall_mem_cons.mpr ⟨plain, plains⟩, last, tail, unsigned, ?_⟩
        rw [area, later, List.flatMap_cons, List.append_assoc]

theorem exists_rehashLoop_iff (h : Handle) (name : Nat) :
    (∃ result, rehashLoop (h.mmap.drop name).length name h [] = some result) ↔
      ∃ tuples, Formed tuples (h.mmap.drop name) := by
  constructor
  · rintro ⟨result, done⟩
    exact formed_of_rehashLoop done
  · rintro ⟨tuples, formed⟩
    exact ⟨_, rehashLoop_formed formed formed.length []⟩

/-- The variables end in front of a place exactly if their texts are short enough. -/
theorem places_inside (tuples : List Tuple) (name bound : Nat) :
    (∀ var ∈ places name tuples, var.stop ≤ bound) ↔
      tuples = [] ∨ name + (tuples.flatMap Tuple.text).length ≤ bound + 1 := by
  induction tuples generalizing name with
  | nil => exact iff_of_true nofun (.inl rfl)
  | cons t tuples ih =>
      have text := t.length_text
      rw [places, List.forall_mem_cons, ih, List.flatMap_cons, List.length_append]
      have stop : (t.place name).stop = name + t.name.bytes.length + 1 + t.value.bytes.length := rfl
      rw [stop]
      constructor
      · rintro ⟨here, rfl | later⟩
        · right
          rw [List.flatMap_nil, List.length_nil]
          omega
        · right
          omega
      · rintro (impossible | all)
        · cases impossible
        · refine ⟨by omega, ?_⟩
          by_cases none : tuples = []
          · exact .inl none
          · right
            omega

end Run

section Parse

/-- The loop sets the variables that the image's texts are parsed into. -/
theorem map_rehashLoop (fuel name : Nat) (h : Handle) (taken : List Taken) :
    (rehashLoop fuel name h taken).map Prod.fst = parse fuel (h.mmap.drop name) h := by
  induction fuel generalizing name h taken with
  | zero => rfl
  | succ fuel ih =>
      rcases area_cases (h.mmap.drop name) with broken | ⟨last, tail, plain, area⟩ |
        ⟨t, rest, plain, area⟩
      · have none : cstring (h.mmap.drop name) = none := if_neg broken
        rw [rehashLoop_broken broken, parse, none]
        rfl
      · rw [rehashLoop_last plain area, area, parse, cstring_append]
        simp only [plain, ↓reduceIte, Option.map_some]
        split <;> rfl
      · have signed : ascii '=' ∈ t.string.bytes := List.mem_append_right _ List.mem_cons_self
        have nonempty : t.string.bytes ≠ [] := List.ne_nil_of_mem signed
        rw [rehashLoop_text plain area, ih, (sameImage_nvramSet h t.name t.value).1,
          ← List.drop_drop, area, List.drop_left, Tuple.text_append, parse, cstring_append]
        simp only [if_neg nonempty, if_pos signed, nameOf_string plain, valueOf_string plain]

theorem map_rehash (endian : Endian) (h : Handle) :
    (rehash endian h).map Prod.fst = nvramRehash endian h := by
  have loop := map_rehashLoop (h.mmap.drop (h.offset + headerSize)).length (h.offset + headerSize)
    (nvramFree h) []
  unfold rehash nvramRehash
  dsimp only
  change _ = (parse _ ((nvramFree h).mmap.drop (h.offset + headerSize)) (nvramFree h) >>= _)
  rw [← loop]
  cases rehashLoop (h.mmap.drop (h.offset + headerSize)).length (h.offset + headerSize)
    (nvramFree h) [] with
  | none => rfl
  | some result => rfl

/-- What is opened is what the functions on the image open. -/
theorem map_openTaking (endian : Endian) (area : List UInt8) :
    (openTaking endian area).map (Option.map Prod.fst) = nvramOpen endian area := by
  unfold openTaking nvramOpen
  cases headerOffset endian area with
  | none => rfl
  | some found =>
      cases found with
      | none => rfl
      | some offset =>
          simp only [Option.bind_eq_bind, Option.bind_some]
          change _ = if (nvramHeader endian (newHandle area offset)).magic = nvramMagic then
            (nvramRehash endian (newHandle area offset)).bind _ else _
          rw [← map_rehash]
          split
          · cases rehash endian (newHandle area offset) <;> rfl
          · rfl

end Parse

section Search

/-- A word of the mapping, by its index. -/
def wordAt (endian : Endian) (area : List UInt8) (index : Nat) : UInt32 :=
  endian.word ((area.drop (4 * index)).take 4)

/-- The header is where the first magic word is, in front of the last NVRAM area of a mapping that
has room for one. -/
structure FirstMagic (endian : Endian) (area : List UInt8) (index : Nat) : Prop where
  inside : 4 * index + 4 ≤ area.length
  bound : nvramSpace ≤ area.length → 4 * index + nvramSpace ≤ area.length
  magic : wordAt endian area index = nvramMagic
  first : ∀ other < index, wordAt endian area other ≠ nvramMagic

/-- A round of the search, at a word in the mapping. -/
theorem findMagic_succ {count start : Nat} (inside : 4 * start + 4 ≤ area.length) :
    findMagic endian area (count + 1) start =
      if wordAt endian area start = nvramMagic then some (some (4 * start))
      else findMagic endian area count (start + 1) := by
  have there : load area (4 * start) 4 = some ((area.drop (4 * start)).take 4) := if_pos inside
  rw [findMagic, there]
  rfl

/-- The search finds the first magic word if it is in the mapping. -/
theorem findMagic_first {count start index : Nat} (least : start ≤ index)
    (most : index < start + count) (inside : 4 * index + 4 ≤ area.length)
    (magic : wordAt endian area index = nvramMagic)
    (first : ∀ other < index, wordAt endian area other ≠ nvramMagic) :
    findMagic endian area count start = some (some (4 * index)) := by
  induction count generalizing start with
  | zero => omega
  | succ count ih =>
      rw [findMagic_succ (by omega)]
      by_cases here : start = index
      · rw [here, if_pos magic]
      · rw [if_neg (first start (by omega))]
        exact ih (by omega) (by omega)

/-- Without a magic word the search ends if all its words are in the mapping. -/
theorem findMagic_absent {count start : Nat}
    (absent : ∀ index, start ≤ index → index < start + count → 4 * index + 4 ≤ area.length →
      wordAt endian area index ≠ nvramMagic) :
    findMagic endian area count start =
      if count = 0 ∨ 4 * (start + count) ≤ area.length then some none else none := by
  induction count generalizing start with
  | zero => rfl
  | succ count ih =>
      by_cases inside : 4 * start + 4 ≤ area.length
      · have other := absent start (Nat.le_refl start) (by omega) inside
        rw [findMagic_succ inside, if_neg other,
          ih fun index low high => absent index (by omega) (by omega)]
        by_cases room : 4 * (start + (count + 1)) ≤ area.length
        · rw [if_pos (.inr (by omega)), if_pos (.inr room)]
        · by_cases last : count = 0
          · omega
          · rw [if_neg (by omega), if_neg (by omega)]
      · have outside : load area (4 * start) 4 = none := if_neg inside
        rw [findMagic, outside, if_neg (by omega)]
        rfl

/-- The number of words that are searched. -/
theorem words_eq (small : area.length < 2 ^ 32) :
    (2 ^ 32 + area.length - nvramSpace) % 2 ^ 32 / 4 + 1 =
      if nvramSpace ≤ area.length then (area.length - nvramSpace) / 4 + 1
      else (2 ^ 32 + area.length - nvramSpace) / 4 + 1 := by
  have space : nvramSpace = 0x8000 := rfl
  split
  · have sum : 2 ^ 32 + area.length - nvramSpace = area.length - nvramSpace + 2 ^ 32 := by omega
    rw [sum, Nat.add_mod_right, Nat.mod_eq_of_lt (by omega)]
  · rw [Nat.mod_eq_of_lt (by omega)]

/-- The header is found where it is. -/
theorem headerOffset_first (small : area.length < 2 ^ 32) {index : Nat}
    (found : FirstMagic endian area index) :
    headerOffset endian area = some (some (4 * index)) := by
  have space : nvramSpace = 0x8000 := rfl
  obtain ⟨inside, bound, magic, first⟩ := found
  rw [headerOffset, words_eq small]
  refine findMagic_first (Nat.zero_le _) ?_ inside magic first
  split
  · rename_i room
    have most := bound room
    omega
  · omega

/-- Without a header the search ends if the mapping has room for an NVRAM area. -/
theorem headerOffset_absent (small : area.length < 2 ^ 32)
    (absent : ∀ index, ¬ FirstMagic endian area index) :
    headerOffset endian area = if nvramSpace ≤ area.length then some none else none := by
  have space : nvramSpace = 0x8000 := rfl
  have none : ∀ index, 4 * index + 4 ≤ area.length →
      (nvramSpace ≤ area.length → 4 * index + nvramSpace ≤ area.length) →
        wordAt endian area index ≠ nvramMagic := by
    intro index
    induction index using Nat.strongRecOn with
    | ind index ih =>
        intro inside bound magic
        refine absent index ⟨inside, bound, magic, fun other less => ?_⟩
        exact ih other less (by omega) fun room => by
          have most := bound room
          omega
  rw [headerOffset, words_eq small, findMagic_absent]
  · by_cases room : nvramSpace ≤ area.length
    · rw [if_pos room, if_pos room, if_pos (.inr (by omega))]
    · rw [if_neg room, if_neg room, if_neg (by omega)]
  · intro index _ high inside
    refine none index inside fun room => ?_
    rw [if_pos room] at high
    omega

end Search

section Open

variable {tuples : List Tuple} {index : Nat}

theorem sameImage_inject (h : Handle) (name value : CStr) :
    SameImage h (inject name value h) := by
  unfold inject
  split
  · exact ⟨rfl, rfl⟩
  · exact sameImage_nvramSet h name value

theorem sameImage_foldl (tuples : List Tuple) (h : Handle) :
    SameImage h (tuples.foldl (fun h t => (nvramSet h t.name t.value).2) h) := by
  induction tuples generalizing h with
  | nil => exact ⟨rfl, rfl⟩
  | cons t tuples ih => exact (sameImage_nvramSet h t.name t.value).trans (ih _)

/-- The variables of an image that is in order are taken, and the mapping is as it was. -/
theorem rehash_formed (endian : Endian)
    (formed : Formed tuples (h.mmap.drop (h.offset + headerSize))) :
    ∃ h', rehash endian h = some (h', places (h.offset + headerSize) tuples) ∧ SameImage h h' := by
  have free : SameImage h (nvramFree h) := ⟨rfl, rfl⟩
  have loop := rehashLoop_formed (h := nvramFree h) formed formed.length []
  unfold rehash
  dsimp only
  rw [loop]
  exact ⟨_, rfl, ((((free.trans (sameImage_foldl tuples _)).trans (sameImage_inject _ _ _)).trans
    (sameImage_inject _ _ _)).trans (sameImage_inject _ _ _)).trans (sameImage_inject _ _ _)⟩

/-- An image whose header is found is read from there. -/
theorem openTaking_first (small : area.length < 2 ^ 32) (found : FirstMagic endian area index) :
    openTaking endian area = (rehash endian (newHandle area (4 * index))).map some := by
  have magic : (nvramHeader endian (newHandle area (4 * index))).magic = nvramMagic := found.magic
  unfold openTaking
  rw [headerOffset_first small found]
  simp only [Option.bind_eq_bind, Option.bind_some]
  rw [if_pos magic]
  cases rehash endian (newHandle area (4 * index)) <;> rfl

/-- Without a header nothing is opened. -/
theorem openTaking_absent (small : area.length < 2 ^ 32)
    (absent : ∀ index, ¬ FirstMagic endian area index) :
    openTaking endian area = if nvramSpace ≤ area.length then some none else none := by
  unfold openTaking
  rw [headerOffset_absent small absent]
  split <;> rfl

end Open

end Trunk.Nvram
