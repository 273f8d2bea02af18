import Trunk.Rgps.Reading

/-! # Sentences with marked characters

A sentence whose characters are marked with the number of their field, and what follows when the
loop takes a character of another field for the first one of a value: the value that is stored
starts with a character of another field (`Trunk.Rgps.Spoiled.shown`), or is that of before.
-/

namespace Trunk.Rgps

open CString Provenance Provenance.Glyph Loop

/-- The fields of a sentence, from the first on, and what follows the asterisk. -/
structure Sentence where
  field : Nat → List UInt8
  checksum : List UInt8
  field_plain : ∀ index, ∀ value ∈ field index,
    value ≠ 0 ∧ value ≠ ascii ',' ∧ value ≠ ascii '*'
  checksum_plain : ∀ value ∈ checksum, value ≠ 0 ∧ value ≠ ascii ','

namespace Sentence

/-- A field, marked with its number. -/
def mark (sentence : Sentence) (index : Nat) : List Mark :=
  (sentence.field index).map fun value => ⟨value, some index⟩

/-- The comma before a field. -/
def comma (index : Nat) : Mark := ⟨ascii ',', some index⟩

/-- A number of fields from one on, each behind its comma. -/
def fields (sentence : Sentence) : Nat → Nat → List Mark
  | _, 0 => []
  | first, count + 1 =>
      comma first :: (sentence.mark first ++ sentence.fields (first + 1) count)

/-- The asterisk that ends a sentence. -/
def asterisk : Mark := ⟨ascii '*', none⟩

/-- What follows the fields, with the terminator of the line. -/
def behind (sentence : Sentence) : List Mark :=
  sentence.checksum.map literal ++ [literal 0]

/-- The line from a field on, of a sentence with a number of fields. -/
def rest (sentence : Sentence) (count first : Nat) : List Mark :=
  sentence.fields first (count + 1 - first) ++ asterisk :: sentence.behind

/-- A line: the name of the sentence and its fields. -/
def line (sentence : Sentence) (name : String) (count : Nat) : List Mark :=
  (name.toList.map fun character => literal (ascii character)) ++
    (sentence.fields 1 count ++ asterisk :: sentence.checksum.map literal)

variable {sentence : Sentence} {count first index : Nat} {c : Mark}

theorem mem_mark (member : c ∈ sentence.mark index) : Plain c ∧ c.source = some index := by
  obtain ⟨value, listed, rfl⟩ := List.mem_map.mp member
  exact ⟨sentence.field_plain index value listed, rfl⟩

theorem mark_eq_nil_iff : sentence.mark index = [] ↔ sentence.field index = [] :=
  List.map_eq_nil_iff

theorem length_mark : (sentence.mark index).length = (sentence.field index).length :=
  List.length_map ..

theorem byte_comma (index : Nat) : byte (comma index) = ascii ',' := rfl

theorem rest_eq (inside : first ≤ count) :
    sentence.rest count first =
      comma first :: (sentence.mark first ++ sentence.rest count (first + 1)) := by
  obtain ⟨more, rfl⟩ := Nat.exists_eq_add_of_le inside
  have left : first + more + 1 - first = more + 1 := by omega
  have left' : first + more + 1 - (first + 1) = more := by omega
  rw [rest, rest, left, left', fields, List.cons_append, List.append_assoc]

theorem rest_last (sentence : Sentence) (count : Nat) :
    sentence.rest count (count + 1) = asterisk :: sentence.behind := by
  rw [rest, Nat.sub_self, fields, List.nil_append]

theorem mem_fields (member : c ∈ sentence.fields first count) :
    byte c ≠ 0 ∧ byte c ≠ ascii '*' ∧ ∃ index, first ≤ index ∧ c.source = some index := by
  induction count generalizing first with
  | zero => cases member
  | succ count ih =>
      rcases List.mem_cons.mp member with rfl | member
      · refine ⟨?_, ?_, first, Nat.le_refl first, rfl⟩
        · rw [byte_comma]
          decide
        · rw [byte_comma]
          decide
      · rcases List.mem_append.mp member with member | member
        · obtain ⟨plain, source⟩ := mem_mark member
          exact ⟨plain.1, plain.2.2, first, Nat.le_refl first, source⟩
        · obtain ⟨nonzero, inside, index, above, source⟩ := ih member
          exact ⟨nonzero, inside, index, by omega, source⟩

theorem countP_fields (sentence : Sentence) (first count : Nat) :
    (sentence.fields first count).countP (fun c => byte c = ascii ',') = count := by
  induction count generalizing first with
  | zero => rfl
  | succ count ih =>
      have none : (sentence.mark first).countP (fun c => byte c = ascii ',') = 0 := by
        refine List.countP_eq_zero.mpr fun c member => ?_
        have plain := (mem_mark member).1
        simpa using plain.2.1
      rw [fields, List.countP_cons_of_pos (p := fun c : Mark => decide (byte c = ascii ',')) rfl,
        List.countP_append, none, ih, Nat.zero_add]

end Sentence

theorem erase_append (front back : List Mark) : erase (front ++ back) = erase front ++ erase back :=
  List.map_append

theorem erase_mark (sentence : Sentence) (index : Nat) :
    erase (sentence.mark index) = sentence.field index := by
  unfold erase Sentence.mark
  rw [List.map_map]
  exact List.map_id _

/-- The fields of a sentence, none of which holds what ends a field. -/
def Sentence.ofTexts (texts : List String) (checksum : String)
    (plain : ∀ text ∈ texts, ∀ value ∈ text.toList.map ascii,
      value ≠ 0 ∧ value ≠ ascii ',' ∧ value ≠ ascii '*')
    (checked : ∀ value ∈ checksum.toList.map ascii, value ≠ 0 ∧ value ≠ ascii ',') : Sentence where
  field index := ((texts[index - 1]?).getD "").toList.map ascii
  checksum := checksum.toList.map ascii
  field_plain := by
    intro index value member
    cases found : texts[index - 1]? with
    | none =>
        rw [found] at member
        cases member
    | some text =>
        rw [found] at member
        exact plain text (List.mem_of_getElem? found) value member
  checksum_plain := checked

/-- A character that is not of a field, nor of what was stored before. -/
def Foreign (index : Nat) (c : Mark) : Prop := c.source ≠ some index ∧ c.source ≠ some 0

theorem Sentence.rest_foreign {sentence : Sentence} {count first index : Nat}
    (below : index < first) : ∀ c ∈ sentence.rest count first, Foreign index c := by
  intro c member
  have literals : c.source = none → Foreign index c := by
    intro none
    rw [Foreign, none]
    exact ⟨nofun, nofun⟩
  rcases List.mem_append.mp member with member | member
  · obtain ⟨-, -, other, above, source⟩ := mem_fields member
    rw [Foreign, source]
    refine ⟨fun same => ?_, fun same => ?_⟩
    · have := Option.some.inj same
      omega
    · have := Option.some.inj same
      omega
  · rcases List.mem_cons.mp member with rfl | member
    · exact literals rfl
    · rcases List.mem_append.mp member with member | member
      · obtain ⟨_, _, rfl⟩ := List.mem_map.mp member
        exact literals rfl
      · obtain rfl := List.mem_singleton.mp member
        exact literals rfl

/-- No comma stands before the terminator. -/
def Guarded (buf : List Mark) : Prop :=
  ∀ first second text, first :: second :: text <:+ buf → byte first = ascii ',' → byte second ≠ 0

theorem Guarded.suffix {buf buf' : List Mark} (guarded : Guarded buf) (later : buf' <:+ buf) :
    Guarded buf' :=
  fun first second text inside => guarded first second text (inside.trans later)

/-- The terminator only follows what ends a sentence. -/
theorem guarded_append {front : List Mark} (nonzero : ∀ c ∈ front, byte c ≠ 0)
    (last : ∀ c, front.getLast? = some c → byte c ≠ ascii ',') :
    Guarded (front ++ [literal 0]) := by
  intro first second text inside comma zero
  obtain ⟨before, whole⟩ := inside
  cases text using List.reverseRecOn with
  | nil =>
      have split : (before ++ [first]) ++ [second] = front ++ [literal 0] := by
        rw [List.append_assoc]
        exact whole
      obtain ⟨rfl, -⟩ := List.append_inj' split rfl
      exact last first List.getLast?_concat comma
  | append_singleton text final _ =>
      have split : (before ++ first :: second :: text) ++ [final] = front ++ [literal 0] := by
        rw [List.append_assoc]
        exact whole
      obtain ⟨rfl, -⟩ := List.append_inj' split rfl
      exact nonzero second (List.mem_append_right before
        (List.mem_cons_of_mem first (List.mem_cons_self ..))) zero

theorem Sentence.rest_guarded (sentence : Sentence) (count first : Nat) :
    Guarded (sentence.rest count first) := by
  have split : sentence.rest count first =
      (sentence.fields first (count + 1 - first) ++
        asterisk :: sentence.checksum.map literal) ++ [literal 0] := by
    rw [rest, behind, List.append_assoc, List.cons_append]
  rw [split]
  refine guarded_append ?_ ?_
  · intro c member
    rcases List.mem_append.mp member with member | member
    · exact (mem_fields member).1
    · rcases List.mem_cons.mp member with rfl | member
      · decide
      · obtain ⟨value, listed, rfl⟩ := List.mem_map.mp member
        exact (sentence.checksum_plain value listed).1
  · intro c last
    rw [List.getLast?_append_of_ne_nil _ (List.cons_ne_nil _ _)] at last
    rcases List.mem_cons.mp (List.mem_of_getLast? last) with rfl | member
    · decide
    · obtain ⟨value, listed, rfl⟩ := List.mem_map.mp member
      exact (sentence.checksum_plain value listed).2

/-- The text that is stored from a buffer. -/
def Gps.shown (gps : Gps Mark) : Local → List Mark
  | .wd => gps.gpsLat
  | .jd => gps.gpsLng
  | .sv => gps.gpsSatellite
  | .alt => gps.gpsElevation
  | .speed => gps.gpsVelocity
  | .time | .direction | .date => []

theorem cstring_eq_ok {buffer string : List Mark} (done : cstring buffer = .ok string) :
    string = buffer.takeWhile fun symbol => byte symbol ≠ 0 := by
  unfold cstring at done
  split at done
  · exact (Except.ok.inj done).symm
  · cases done

theorem memcpy_eq_ok {size : Nat} {string copy : List Mark} (done : memcpy size string = .ok copy) :
    copy = string := by
  unfold memcpy at done
  split at done
  · exact (Except.ok.inj done).symm
  · cases done

/-- What is stored from a buffer is what was stored before, or the string in the buffer. -/
theorem store_shown {scan : Scan Mark} {gps : Gps Mark} (done : store scan = .ok gps)
    (slot : Local) :
    gps.shown slot = scan.gps.shown slot ∨
      gps.shown slot = (scan.locals slot).takeWhile fun symbol => byte symbol ≠ 0 := by
  unfold store at done
  split at done
  · split at done
    · obtain rfl := Except.ok.inj done
      exact .inl rfl
    · obtain ⟨satellite, read, done⟩ := bind_eq_ok.mp done
      obtain ⟨jd, read', done⟩ := bind_eq_ok.mp done
      obtain ⟨lng, copied', done⟩ := bind_eq_ok.mp done
      obtain ⟨wd, read'', done⟩ := bind_eq_ok.mp done
      obtain ⟨lat, copied'', done⟩ := bind_eq_ok.mp done
      obtain ⟨alt, readAlt, done⟩ := bind_eq_ok.mp done
      obtain ⟨elevation, copiedAlt, done⟩ := bind_eq_ok.mp done
      obtain rfl := Except.ok.inj done
      cases slot with
      | wd => exact .inr ((memcpy_eq_ok copied'').trans (cstring_eq_ok read''))
      | jd => exact .inr ((memcpy_eq_ok copied').trans (cstring_eq_ok read'))
      | sv => exact .inr (cstring_eq_ok read)
      | alt => exact .inr ((memcpy_eq_ok copiedAlt).trans (cstring_eq_ok readAlt))
      | speed | time | direction | date => exact .inl rfl
  · split at done
    · obtain rfl := Except.ok.inj done
      exact .inl rfl
    · obtain ⟨speed, read, done⟩ := bind_eq_ok.mp done
      obtain ⟨velocity, copied, done⟩ := bind_eq_ok.mp done
      obtain ⟨date, read', done⟩ := bind_eq_ok.mp done
      obtain ⟨written, copied', done⟩ := bind_eq_ok.mp done
      obtain ⟨direction, read'', done⟩ := bind_eq_ok.mp done
      obtain ⟨orientation, copied'', done⟩ := bind_eq_ok.mp done
      obtain rfl := Except.ok.inj done
      cases slot with
      | speed => exact .inr ((memcpy_eq_ok copied).trans (cstring_eq_ok read))
      | wd | jd | sv | alt | time | direction | date => exact .inl rfl
  · obtain rfl := Except.ok.inj done
    exact .inl rfl

theorem store_sides {scan : Scan Mark} {gps : Gps Mark} (done : store scan = .ok gps) :
    gps.northSouth = scan.gps.northSouth ∧ gps.eastWest = scan.gps.eastWest := by
  unfold store at done
  split at done
  · split at done
    · obtain rfl := Except.ok.inj done
      exact ⟨rfl, rfl⟩
    · obtain ⟨satellite, _, done⟩ := bind_eq_ok.mp done
      obtain ⟨jd, _, done⟩ := bind_eq_ok.mp done
      obtain ⟨lng, _, done⟩ := bind_eq_ok.mp done
      obtain ⟨wd, _, done⟩ := bind_eq_ok.mp done
      obtain ⟨lat, _, done⟩ := bind_eq_ok.mp done
      obtain ⟨alt, _, done⟩ := bind_eq_ok.mp done
      obtain ⟨elevation, _, done⟩ := bind_eq_ok.mp done
      obtain rfl := Except.ok.inj done
      exact ⟨rfl, rfl⟩
  · split at done
    · obtain rfl := Except.ok.inj done
      exact ⟨rfl, rfl⟩
    · obtain ⟨speed, _, done⟩ := bind_eq_ok.mp done
      obtain ⟨velocity, _, done⟩ := bind_eq_ok.mp done
      obtain ⟨date, _, done⟩ := bind_eq_ok.mp done
      obtain ⟨written, _, done⟩ := bind_eq_ok.mp done
      obtain ⟨direction, _, done⟩ := bind_eq_ok.mp done
      obtain ⟨orientation, _, done⟩ := bind_eq_ok.mp done
      obtain rfl := Except.ok.inj done
      exact ⟨rfl, rfl⟩
  · obtain rfl := Except.ok.inj done
    exact ⟨rfl, rfl⟩

/-- A text that starts with a character of another source. -/
def Misread (index : Nat) (text : List Mark) : Prop :=
  ∃ c, text.head? = some c ∧ c.source ≠ some index

/-- The buffer of a value starts with a character of another field, and no character of its own
field is left in the line. -/
structure Spoiled (slot : Local) (index : Nat) (scan : Scan Mark) : Prop where
  buf : ∀ c ∈ scan.buf, Foreign index c
  guarded : Guarded scan.buf
  cell : ∃ c, (scan.locals slot)[0]? = some c ∧ byte c ≠ 0 ∧ c.source ≠ some index
  before : Misread index (scan.gps.shown slot)

theorem Stepped.foreign {c : Mark} {scan next : Scan Mark} {index : Nat}
    (stepped : Stepped c scan next) (buf : ∀ c ∈ scan.buf, Foreign index c) : Foreign index c := by
  rcases stepped.place with ⟨text, here, _⟩ | ⟨comma, text, here, _⟩
  · exact buf c (here ▸ List.mem_cons_self ..)
  · exact buf c (here ▸ List.mem_cons_of_mem comma (List.mem_cons_self ..))

theorem Stepped.nonzero {c : Mark} {scan next : Scan Mark} (stepped : Stepped c scan next)
    (guarded : Guarded scan.buf) : byte c ≠ 0 := by
  rcases stepped.place with ⟨text, _, nonzero⟩ | ⟨comma, text, here, delimiter⟩
  · exact nonzero
  · exact guarded comma c text (here ▸ List.suffix_rfl) delimiter

theorem Spoiled.step {slot : Local} {index : Nat} {c : Mark} {scan next : Scan Mark}
    (spoiled : Spoiled slot index scan) (stepped : Stepped c scan next) :
    Spoiled slot index next where
  buf := fun other member => spoiled.buf other (stepped.suffix.subset member)
  guarded := spoiled.guarded.suffix stepped.suffix
  cell := by
    rcases (stepped.rewritten slot).cell with kept | set
    · rw [kept]
      exact spoiled.cell
    · exact ⟨c, set, stepped.nonzero spoiled.guarded, (stepped.foreign spoiled.buf).1⟩
  before := by
    have kept : next.gps.shown slot = scan.gps.shown slot := by
      rw [stepped.kept]
      cases slot <;> rfl
    rw [kept]
    exact spoiled.before

/-- What is stored from a spoiled buffer does not start with a character of its field. -/
theorem Spoiled.shown {slot : Local} {index : Nat} {scan : Scan Mark} {gps : Gps Mark}
    (spoiled : Spoiled slot index scan) (done : scanning scan = .ok gps) :
    Misread index (gps.shown slot) := by
  refine scanning_invariant (Spoiled slot index) (fun gps => Misread index (gps.shown slot))
    (fun _ _ _ spoiled => spoiled.step) ?_ spoiled done
  intro scan gps spoiled ended
  rcases ended with rfl | stored
  · exact spoiled.before
  · rcases store_shown stored slot with same | same
    · rw [same]
      exact spoiled.before
    · obtain ⟨c, cell, nonzero, other⟩ := spoiled.cell
      refine ⟨c, ?_, other⟩
      rw [same]
      cases whole : scan.locals slot with
      | nil =>
          rw [whole] at cell
          cases cell
      | cons first text =>
          rw [whole] at cell
          obtain rfl := Option.some.inj cell
          rw [List.takeWhile_cons_of_pos (by simpa using nonzero)]
          rfl

/-- A `north_south` that comes from another field stays so. -/
theorem north_shown {index : Nat} {scan : Scan Mark} {gps : Gps Mark}
    (buf : ∀ c ∈ scan.buf, Foreign index c) (north : Foreign index scan.gps.northSouth)
    (done : scanning scan = .ok gps) : Foreign index gps.northSouth := by
  refine scanning_invariant
    (fun scan => (∀ c ∈ scan.buf, Foreign index c) ∧ Foreign index scan.gps.northSouth)
    (fun gps => Foreign index gps.northSouth) ?_ ?_ ⟨buf, north⟩ done
  · intro scan next c both stepped
    refine ⟨fun other member => both.1 other (stepped.suffix.subset member), ?_⟩
    rcases stepped.north with same | same
    · exact same ▸ both.2
    · exact same ▸ stepped.foreign both.1
  · intro scan gps both ended
    rcases ended with rfl | stored
    · exact both.2
    · exact (store_sides stored).1 ▸ both.2

/-- An `east_west` that comes from another field stays so. -/
theorem east_shown {index : Nat} {scan : Scan Mark} {gps : Gps Mark}
    (buf : ∀ c ∈ scan.buf, Foreign index c) (east : Foreign index scan.gps.eastWest)
    (done : scanning scan = .ok gps) : Foreign index gps.eastWest := by
  refine scanning_invariant
    (fun scan => (∀ c ∈ scan.buf, Foreign index c) ∧ Foreign index scan.gps.eastWest)
    (fun gps => Foreign index gps.eastWest) ?_ ?_ ⟨buf, east⟩ done
  · intro scan next c both stepped
    refine ⟨fun other member => both.1 other (stepped.suffix.subset member), ?_⟩
    rcases stepped.east with same | same
    · exact same ▸ both.2
    · exact same ▸ stepped.foreign both.1
  · intro scan gps both ended
    rcases ended with rfl | stored
    · exact both.2
    · exact (store_sides stored).2 ▸ both.2

end Trunk.Rgps
