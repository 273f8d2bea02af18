import Trunk.Luci.Po2lmo

/-! # Files of translations

A file of translations is a list of messages with blank lines between them. A string of a message is
on one line, or it is an empty string that lines behind it continue (`Trunk.Luci.Text`). The
compiler reads the strings of every message back, and writes the texts one behind the other
(`Trunk.Luci.poLines_file`).
-/

namespace Trunk.Luci

open CString Loop

variable {dest done old s text rest line keyword buffer : List UInt8} {signed : Bool}

/-- A string in a file, on one line or on many. -/
inductive Text where
  | single (text : List UInt8)
  | folded (first : List UInt8) (parts : List (List UInt8))
  deriving DecidableEq, Repr

/-- The bytes of a string. -/
def Text.value : Text → List UInt8
  | .single text => text
  | .folded first parts => first ++ parts.flatten

/-- A byte of a string in a file. -/
def escaped (c : UInt8) : List UInt8 :=
  if c = ascii '"' ∨ c = ascii '\\' then [ascii '\\', c] else [c]

/-- A string between quotes. -/
def quoted (text : List UInt8) : List UInt8 :=
  ascii '"' :: (text.flatMap escaped ++ [ascii '"'])

/-- The lines of a string behind a keyword. -/
def Text.lines (keyword : List UInt8) : Text → List (List UInt8)
  | .single text => [keyword ++ quoted text]
  | .folded first parts => (keyword ++ quoted []) :: quoted first :: parts.map quoted

/-- A key and its translation. -/
structure Message where
  key : Text
  val : Text
  deriving DecidableEq, Repr

/-- The lines of a message. -/
def Message.lines (m : Message) : List (List UInt8) :=
  m.key.lines (bytesOf "msgid ") ++ m.val.lines (bytesOf "msgstr ")

/-- The lines of messages. There is one blank line more than the number that is given behind every
message but the last. -/
def messageLines : List (Message × Nat) → List (List UInt8)
  | [] => []
  | [(m, blanks)] => m.lines ++ List.replicate blanks []
  | (m, blanks) :: e :: entries =>
      m.lines ++ List.replicate (blanks + 1) [] ++ messageLines (e :: entries)

/-- A file of translations, with some blank lines at its start. -/
def poFile (lead : Nat) (entries : List (Message × Nat)) : List UInt8 :=
  [ascii '\n'].intercalate (List.replicate lead [] ++ messageLines entries)

section Strings

theorem set_front (done old : List UInt8) (c d : UInt8) :
    (done ++ c :: old).set done.length d = done ++ d :: old := by
  rw [List.set_append_right _ _ (Nat.le_refl _), Nat.sub_self, List.set_cons_zero]

/-- A string is read back into the front of a buffer. -/
theorem extractFrom_text (start : Nat) (room : s.length < old.length) :
    ∃ off, extractFrom (done ++ old) (some start) false (start + done.length)
        (s.flatMap escaped ++ ascii '"' :: rest) =
      (done ++ s ++ 0 :: old.drop (s.length + 1), some off) := by
  induction s generalizing done old start with
  | nil =>
      obtain ⟨c, old, rfl⟩ := List.exists_cons_of_length_pos room
      refine ⟨start, ?_⟩
      have plain : ¬ascii '"' = ascii '\\' := by decide
      rw [List.flatMap_nil, List.nil_append, extractFrom]
      simp only [Bool.false_eq_true, plain, ↓reduceIte, ne_eq, not_true_eq_false,
        Nat.add_sub_cancel_left, set_front, List.append_nil, List.length_nil, Nat.zero_add,
        List.drop_one, List.tail_cons]
  | cons c s ih =>
      obtain ⟨d, old, rfl⟩ := List.exists_cons_of_length_pos (Nat.lt_of_le_of_lt (Nat.zero_le _) room)
      have less : s.length < old.length := Nat.lt_of_succ_lt_succ room
      have shift : done ++ c :: old = (done ++ [c]) ++ old := by simp
      have place : start + (done ++ [c]).length = start + done.length + 1 := by simp [Nat.add_assoc]
      rw [List.flatMap_cons, escaped]
      by_cases special : c = ascii '"' ∨ c = ascii '\\'
      · -- the backslash is written first, and the byte behind it takes its place
        obtain ⟨off, read⟩ := @ih (done ++ [c]) old (start + 1) less
        have here : start + 1 + (done ++ [c]).length = start + done.length + 1 + 1 := by
          simp only [List.length_append, List.length_singleton]
          omega
        have index : start + done.length + 1 - (start + 1) = done.length := by omega
        rw [here] at read
        refine ⟨off, ?_⟩
        rw [if_pos special]
        change extractFrom _ _ _ _ (ascii '\\' :: c :: (s.flatMap escaped ++ _)) = _
        rw [extractFrom]
        simp only [Bool.false_eq_true, ↓reduceIte, Nat.add_sub_cancel_left, set_front]
        rw [extractFrom]
        simp only [↓reduceIte, special, index, set_front]
        rw [shift, read]
        simp
      · obtain ⟨off, read⟩ := @ih (done ++ [c]) old start less
        obtain ⟨noQuote, noEscape⟩ := not_or.mp special
        rw [place] at read
        refine ⟨off, ?_⟩
        rw [if_neg special]
        change extractFrom _ _ _ _ (c :: (s.flatMap escaped ++ _)) = _
        rw [extractFrom]
        simp only [Bool.false_eq_true, noEscape, noQuote, ne_eq, not_false_eq_true, ↓reduceIte,
          Nat.add_sub_cancel_left, set_front]
        rw [shift, read]
        simp

/-- What is in front of the opening quote is skipped. -/
theorem extractFrom_skip (plain : ascii '"' ∉ keyword) (pos : Nat) :
    extractFrom dest none false pos (keyword ++ rest) =
      extractFrom dest none false (pos + keyword.length) rest := by
  induction keyword generalizing pos with
  | nil => rfl
  | cons c keyword ih =>
      obtain ⟨other, later⟩ := not_or.mp fun either => plain (List.mem_cons.mpr either)
      rw [List.cons_append, extractFrom, if_neg (Ne.symm other), ih later, List.length_cons,
        Nat.add_right_comm, Nat.add_assoc]

/-- A buffer of a size holds a string. -/
structure Holds (buffer text : List UInt8) : Prop where
  length : buffer.length = 4096
  clean : 0 ∉ text
  front : ∃ rest, buffer = text ++ 0 :: rest

theorem Holds.held_eq (holds : Holds buffer text) : held buffer = .ok text := by
  obtain ⟨rest, rfl⟩ := holds.front
  have ended : (0 : UInt8) ∈ text ++ 0 :: rest := by simp
  have whole : (text ++ 0 :: rest).takeWhile (· ≠ 0) = text := by
    rw [List.takeWhile_append_of_pos]
    · simp
    · intro c member
      simp only [ne_eq, decide_eq_true_eq]
      rintro rfl
      exact holds.clean member
  rw [held, if_pos ended, whole]

theorem Holds.length_lt (holds : Holds buffer text) : text.length < 4096 := by
  obtain ⟨rest, rfl⟩ := holds.front
  have length := holds.length
  rw [List.length_append, List.length_cons] at length
  omega

theorem holds_zeroed : Holds zeroed [] where
  length := List.length_replicate
  clean := List.not_mem_nil
  front := ⟨List.replicate 4095 0, rfl⟩

theorem holds_front (length : dest.length = 4096) (clean : 0 ∉ text) (room : text.length < 4096) :
    Holds (text ++ 0 :: dest.drop (text.length + 1)) text where
  length := by
    rw [List.length_append, List.length_cons, List.length_drop]
    omega
  clean := clean
  front := ⟨_, rfl⟩

theorem strcat_holds {src more : List UInt8} (first : Holds dest text) (second : Holds src more)
    (room : (text ++ more).length < 4096) :
    ∃ joined, strcat dest src = .ok joined ∧ Holds joined (text ++ more) := by
  have clean : 0 ∉ text ++ more := fun member =>
    (List.mem_append.mp member).elim first.clean second.clean
  refine ⟨_, ?_, holds_front first.length clean room⟩
  rw [strcat, first.held_eq, second.held_eq]
  change (if _ then _ else _) = _
  rw [if_pos (first.length ▸ room)]
  rfl

theorem takeWhile_clean (clean : 0 ∉ line) : line.takeWhile (· ≠ 0) = line := by
  rw [List.takeWhile_eq_self_iff]
  intro c member
  simp only [ne_eq, decide_eq_true_eq]
  rintro rfl
  exact clean member

/-- A line without a string. -/
theorem extractString_none (clean : 0 ∉ line) (plain : ascii '"' ∉ line) (short : line.length ≤ 4096) :
    extractString line dest 4096 = .ok (dest, none) := by
  have skipped := @extractFrom_skip dest [] line plain 0
  rw [List.append_nil] at skipped
  rw [extractString, takeWhile_clean clean, List.take_of_length_le short, skipped]
  rfl

/-- A line with a string. -/
theorem extractString_quoted (plain : ascii '"' ∉ keyword)
    (clean : 0 ∉ keyword ++ quoted s ++ rest)
    (short : (keyword ++ quoted s ++ rest).length ≤ 4096) (length : dest.length = 4096)
    (sound : 0 ∉ s) (room : s.length < 4096) :
    ∃ buffer, extractString (keyword ++ quoted s ++ rest) dest 4096 = .ok (buffer, some s.length) ∧
      Holds buffer s := by
  have holds := holds_front length sound room
  obtain ⟨off, read⟩ := @extractFrom_text [] dest s rest (keyword.length + 1) (length ▸ room)
  refine ⟨_, ?_, holds⟩
  have whole : keyword ++ quoted s ++ rest =
      keyword ++ ascii '"' :: (s.flatMap escaped ++ ascii '"' :: rest) := by simp [quoted]
  rw [extractString, takeWhile_clean clean, List.take_of_length_le short, whole,
    extractFrom_skip plain, extractFrom, if_pos rfl, Nat.zero_add]
  rw [List.nil_append, List.length_nil, Nat.add_zero, List.nil_append] at read
  rw [read]
  change (do return (_, some (← held _).length)) = _
  rw [holds.held_eq]
  rfl

end Strings

section Lines

variable {po : Po} {parts : List (List UInt8)} {tail : List UInt8}

/-- Bytes that a line can have. -/
def Clean (text : List UInt8) : Prop := ∀ c ∈ text, c ≠ 0 ∧ c ≠ ascii '\n'

theorem Clean.append {more : List UInt8} (first : Clean text) (second : Clean more) :
    Clean (text ++ more) := by
  intro c member
  exact (List.mem_append.mp member).elim (first c) (second c)

theorem Clean.no_zero (clean : Clean text) : 0 ∉ text := fun member => (clean 0 member).1 rfl

theorem Clean.quoted (clean : Clean text) : Clean (quoted text) := by
  have inner : Clean (text.flatMap escaped) := by
    intro c member
    obtain ⟨d, source, made⟩ := List.mem_flatMap.mp member
    unfold escaped at made
    split at made
    · rcases List.mem_cons.mp made with rfl | last
      · decide
      · obtain rfl := List.mem_singleton.mp last
        exact clean c source
    · obtain rfl := List.mem_singleton.mp made
      exact clean c source
  have quote : Clean [ascii '"'] := by
    intro c member
    obtain rfl := List.mem_singleton.mp member
    decide
  exact quote.append (inner.append quote)

/-- What may follow a line in its buffer. -/
def LineEnd (tail : List UInt8) : Prop := tail = [] ∨ tail = [ascii '\n']

theorem LineEnd.no_zero (ended : LineEnd tail) : 0 ∉ tail := by
  rcases ended with rfl | rfl <;> decide

theorem LineEnd.no_quote (ended : LineEnd tail) : ascii '"' ∉ tail := by
  rcases ended with rfl | rfl <;> decide

theorem LineEnd.length_le (ended : LineEnd tail) : tail.length ≤ 1 := by
  rcases ended with rfl | rfl <;> decide

/-- A line with a string, as it is in its buffer. -/
theorem extractString_line (ended : LineEnd tail) (plain : ascii '"' ∉ keyword)
    (sound : Clean keyword) (clean : Clean s) (short : (keyword ++ quoted s).length ≤ 4094)
    (length : dest.length = 4096) :
    ∃ buffer, extractString (keyword ++ quoted s ++ tail) dest 4096 = .ok (buffer, some s.length) ∧
      Holds buffer s := by
  have zero : 0 ∉ keyword ++ quoted s ++ tail := fun member =>
    (List.mem_append.mp member).elim (sound.append clean.quoted).no_zero ended.no_zero
  have most := ended.length_le
  have longer : s.length ≤ (s.flatMap escaped).length := by
    clear short clean zero
    induction s with
    | nil => exact Nat.le_refl _
    | cons c s ih =>
        have one : 1 ≤ (escaped c).length := by
          unfold escaped
          split <;> simp
        rw [List.flatMap_cons, List.length_append, List.length_cons]
        omega
  have whole : (quoted s).length = (s.flatMap escaped).length + 2 := by simp [quoted]
  rw [List.length_append] at short
  exact extractString_quoted plain zero (by simp only [List.length_append]; omega) length
    clean.no_zero (by omega)

/-- A line that continues a string. -/
theorem continue_line (ended : LineEnd tail) (clean : Clean s) (short : (quoted s).length ≤ 4094)
    (length : po.tmp.length = 4096) (holds : Holds dest text)
    (room : (text ++ s).length < 4096) :
    ∃ tmp joined, extractString (quoted s ++ tail) po.tmp 4096 = .ok (tmp, some s.length) ∧
      strcat dest tmp = .ok joined ∧ Holds joined (text ++ s) ∧ tmp.length = 4096 := by
  obtain ⟨tmp, extracted, held⟩ := @extractString_line po.tmp s [] tail ended List.not_mem_nil
    (fun _ member => nomatch member) clean short length
  obtain ⟨joined, made, joins⟩ := strcat_holds holds held room
  exact ⟨tmp, joined, extracted, made, joins, held.length⟩

/-- Lines that end with a line feed are read. -/
def feed (signed : Bool) (po : Po) (lines : List (List UInt8)) : Except Halt Po :=
  lines.foldlM (fun po line => poLine signed po (line ++ [ascii '\n'])) po

theorem feed_nil (signed : Bool) (po : Po) : feed signed po [] = .ok po := rfl

theorem feed_cons {next : Po} {lines : List (List UInt8)}
    (first : poLine signed po (line ++ [ascii '\n']) = .ok next) :
    feed signed po (line :: lines) = feed signed next lines := by
  rw [feed, List.foldlM_cons, first]
  rfl

theorem feed_append {next : Po} {lines more : List (List UInt8)}
    (first : feed signed po lines = .ok next) :
    feed signed po (lines ++ more) = feed signed next more := by
  unfold feed at first ⊢
  rw [List.foldlM_append, first]
  rfl

/-- A line that continues a key. -/
theorem poLine_key (signed : Bool) (stage : po.stage = .inKey) (ended : LineEnd tail) (clean : Clean s)
    (short : (quoted s).length ≤ 4094) (length : po.tmp.length = 4096) (holds : Holds po.key text)
    (room : (text ++ s).length < 4096) :
    ∃ key tmp, poLine signed po (quoted s ++ tail) = .ok { po with key := key, tmp := tmp } ∧
      Holds key (text ++ s) ∧ tmp.length = 4096 := by
  obtain ⟨tmp, key, extracted, made, joins, size⟩ := continue_line ended clean short length holds room
  refine ⟨key, tmp, ?_, joins, size⟩
  have taken : poLine signed po (quoted s ++ tail) = keyLine po (quoted s ++ tail) := by
    rw [poLine, stage]
    rfl
  rw [taken, keyLine, extracted]
  change (do return { po with tmp := tmp, key := ← strcat po.key tmp }) = _
  rw [made]
  rfl

/-- A line that continues a text. -/
theorem poLine_val (signed : Bool) (stage : po.stage = .inVal) (ended : LineEnd tail) (clean : Clean s)
    (short : (quoted s).length ≤ 4094) (length : po.tmp.length = 4096) (holds : Holds po.val text)
    (room : (text ++ s).length < 4096) :
    ∃ val tmp, poLine signed po (quoted s ++ tail) = .ok { po with val := val, tmp := tmp } ∧
      Holds val (text ++ s) ∧ tmp.length = 4096 := by
  obtain ⟨tmp, val, extracted, made, joins, size⟩ := continue_line ended clean short length holds room
  refine ⟨val, tmp, ?_, joins, size⟩
  have taken : poLine signed po (quoted s ++ tail) = moreLine signed po (quoted s ++ tail) := by
    rw [poLine, stage]
  rw [taken, moreLine, extracted]
  change (do return { po with tmp := tmp, val := ← strcat po.val tmp }) = _
  rw [made]
  rfl

/-- Lines that continue a key. -/
theorem feed_key (stage : po.stage = .inKey) (clean : ∀ part ∈ parts, Clean part)
    (short : ∀ part ∈ parts, (quoted part).length ≤ 4094) (length : po.tmp.length = 4096)
    (holds : Holds po.key text) (room : (text ++ parts.flatten).length < 4096) :
    ∃ key tmp, feed signed po (parts.map quoted) = .ok { po with key := key, tmp := tmp } ∧
      Holds key (text ++ parts.flatten) ∧ tmp.length = 4096 := by
  induction parts generalizing po text with
  | nil => exact ⟨po.key, po.tmp, rfl, by simpa using holds, length⟩
  | cons part parts ih =>
      rw [List.flatten_cons, ← List.append_assoc] at room
      obtain ⟨key, tmp, first, joined, size⟩ := poLine_key signed stage (Or.inr rfl)
        (clean part List.mem_cons_self) (short part List.mem_cons_self) length holds
        (by rw [List.length_append] at room; omega)
      obtain ⟨key', tmp', later, joined', size'⟩ := @ih _ { po with key := key, tmp := tmp } stage
        (fun other member => clean other (List.mem_cons_of_mem _ member))
        (fun other member => short other (List.mem_cons_of_mem _ member)) size joined room
      refine ⟨key', tmp', ?_, ?_, size'⟩
      · rw [List.map_cons, feed_cons first, later]
      · rw [List.flatten_cons, ← List.append_assoc]
        exact joined'

/-- Lines that continue a text. -/
theorem feed_val (stage : po.stage = .inVal) (clean : ∀ part ∈ parts, Clean part)
    (short : ∀ part ∈ parts, (quoted part).length ≤ 4094) (length : po.tmp.length = 4096)
    (holds : Holds po.val text) (room : (text ++ parts.flatten).length < 4096) :
    ∃ val tmp, feed signed po (parts.map quoted) = .ok { po with val := val, tmp := tmp } ∧
      Holds val (text ++ parts.flatten) ∧ tmp.length = 4096 := by
  induction parts generalizing po text with
  | nil => exact ⟨po.val, po.tmp, rfl, by simpa using holds, length⟩
  | cons part parts ih =>
      rw [List.flatten_cons, ← List.append_assoc] at room
      obtain ⟨val, tmp, first, joined, size⟩ := poLine_val signed stage (Or.inr rfl)
        (clean part List.mem_cons_self) (short part List.mem_cons_self) length holds
        (by rw [List.length_append] at room; omega)
      obtain ⟨val', tmp', later, joined', size'⟩ := @ih _ { po with val := val, tmp := tmp } stage
        (fun other member => clean other (List.mem_cons_of_mem _ member))
        (fun other member => short other (List.mem_cons_of_mem _ member)) size joined room
      refine ⟨val', tmp', ?_, ?_, size'⟩
      · rw [List.map_cons, feed_cons first, later]
      · rw [List.flatten_cons, ← List.append_assoc]
        exact joined'

/-- A line with the start of a key. -/
theorem poLine_msgid (signed : Bool) (stage : po.stage = .idle) (ended : LineEnd tail)
    (clean : Clean s) (short : (bytesOf "msgid " ++ quoted s).length ≤ 4094)
    (length : po.key.length = 4096) :
    ∃ key, poLine signed po (bytesOf "msgid " ++ quoted s ++ tail) =
        .ok { po with key := key, stage := if s = [] then .inKey else .afterKey } ∧
      Holds key s := by
  obtain ⟨key, extracted, holds⟩ := @extractString_line po.key s (bytesOf "msgid ") tail ended
    (by decide) (by unfold Clean; decide +kernel) clean short length
  refine ⟨key, ?_, holds⟩
  have taken : poLine signed po (bytesOf "msgid " ++ quoted s ++ tail) =
      idleLine po (bytesOf "msgid " ++ quoted s ++ tail) := by
    rw [poLine, stage]
  have begins : (bytesOf "msgid \"").isPrefixOf (bytesOf "msgid " ++ quoted s ++ tail) = true := rfl
  rw [taken, idleLine, if_pos begins, extracted]
  cases s with
  | nil => rfl
  | cons c s => rfl

/-- A line with the start of a text. -/
theorem poLine_msgstr (signed : Bool) (stage : po.stage = .inKey ∨ po.stage = .afterKey)
    (ended : LineEnd tail) (clean : Clean s) (short : (bytesOf "msgstr " ++ quoted s).length ≤ 4094)
    (length : po.val.length = 4096) :
    ∃ val, poLine signed po (bytesOf "msgstr " ++ quoted s ++ tail) =
        .ok { po with val := val, stage := .inVal } ∧ Holds val s := by
  obtain ⟨val, extracted, holds⟩ := @extractString_line po.val s (bytesOf "msgstr ") tail ended
    (by decide) (by unfold Clean; decide +kernel) clean short length
  refine ⟨val, ?_, holds⟩
  have begins : (bytesOf "msgstr \"").isPrefixOf (bytesOf "msgstr " ++ quoted s ++ tail) = true := rfl
  have taken : poLine signed po (bytesOf "msgstr " ++ quoted s ++ tail) =
      valLine signed po (bytesOf "msgstr " ++ quoted s ++ tail) := by
    rcases stage with stage | stage
    · rw [poLine, stage]
      dsimp only
      rw [if_pos begins]
    · rw [poLine, stage]
  rw [taken, valLine, extracted]
  rfl

/-- A string that the buffers have room for. -/
structure Text.Fits (keyword : List UInt8) (t : Text) : Prop where
  clean : Clean t.value
  room : t.value.length < 4096
  short : ∀ line ∈ t.lines keyword, line.length ≤ 4094

theorem clean_of_mem_flatten (clean : Clean parts.flatten) : ∀ part ∈ parts, Clean part := by
  intro part member c inside
  exact clean c (List.mem_flatten_of_mem member inside)

/-- The lines of a key. -/
theorem feed_keyText (signed : Bool) {t : Text} (fits : t.Fits (bytesOf "msgid "))
    (some : t.value ≠ []) (stage : po.stage = .idle) (key : po.key.length = 4096)
    (tmp : po.tmp.length = 4096) :
    ∃ after buffer tmp', (after = .inKey ∨ after = .afterKey) ∧
      feed signed po (t.lines (bytesOf "msgid ")) =
        .ok { po with stage := after, key := buffer, tmp := tmp' } ∧
      Holds buffer t.value ∧ tmp'.length = 4096 := by
  obtain ⟨clean, room, short⟩ := fits
  cases t with
  | single text =>
      obtain ⟨buffer, read, holds⟩ := poLine_msgid signed stage (Or.inr rfl) clean
        (short _ List.mem_cons_self) key
      rw [if_neg some] at read
      exact ⟨.afterKey, buffer, po.tmp, Or.inr rfl, feed_cons read, holds, tmp⟩
  | folded first parts =>
      obtain ⟨buffer, read, holds⟩ := @poLine_msgid [] po [ascii '\n'] signed stage (Or.inr rfl)
        (fun _ member => nomatch member) (short _ List.mem_cons_self) key
      have cleans := @clean_of_mem_flatten (first :: parts) clean
      obtain ⟨buffer', tmp', later, joined, size⟩ := @feed_key [] signed
        { po with key := buffer, stage := .inKey } (first :: parts) rfl cleans
        (fun part member => short _ (List.mem_cons_of_mem _ (List.mem_map_of_mem member))) tmp
        holds room
      exact ⟨.inKey, buffer', tmp', Or.inl rfl, (feed_cons read).trans later, joined, size⟩

/-- The lines of a text, where the last one may end with the file. -/
theorem feed_valText (signed : Bool) {t : Text} (fits : t.Fits (bytesOf "msgstr "))
    (stage : po.stage = .inKey ∨ po.stage = .afterKey) (val : po.val.length = 4096)
    (tmp : po.tmp.length = 4096) :
    ∃ front last middle, t.lines (bytesOf "msgstr ") = front ++ [last] ∧ last ≠ [] ∧
      feed signed po front = .ok middle ∧
      ∀ tail, LineEnd tail → ∃ buffer tmp', poLine signed middle (last ++ tail) =
          .ok { po with stage := .inVal, val := buffer, tmp := tmp' } ∧
        Holds buffer t.value ∧ tmp'.length = 4096 := by
  obtain ⟨clean, room, short⟩ := fits
  cases t with
  | single text =>
      refine ⟨[], _, po, rfl, by simp [quoted], rfl, fun tail ended => ?_⟩
      obtain ⟨buffer, read, holds⟩ := poLine_msgstr signed stage ended clean
        (short _ List.mem_cons_self) val
      exact ⟨buffer, po.tmp, read, holds, tmp⟩
  | folded first parts =>
      obtain ⟨buffer, read, holds⟩ := @poLine_msgstr [] po [ascii '\n'] signed stage (Or.inr rfl)
        (fun _ member => nomatch member) (short _ List.mem_cons_self) val
      have cleans := @clean_of_mem_flatten (first :: parts) clean
      have shorts : ∀ part ∈ first :: parts, (quoted part).length ≤ 4094 := fun part member =>
        short _ (List.mem_cons_of_mem _ (List.mem_map_of_mem member))
      have whole : (first :: parts).flatten.length < 4096 := room
      have value : (Text.folded first parts).value = (first :: parts).flatten := rfl
      have lines : (Text.folded first parts).lines (bytesOf "msgstr ") =
          (bytesOf "msgstr " ++ quoted []) :: (first :: parts).map quoted := rfl
      rw [value, lines]
      obtain ⟨init, final, split⟩ :=
        (List.eq_nil_or_concat (first :: parts)).resolve_left (List.cons_ne_nil _ _)
      rw [List.concat_eq_append] at split
      rw [split] at cleans shorts whole ⊢
      rw [List.flatten_append, List.flatten_singleton] at whole ⊢
      obtain ⟨buffer', tmp', later, joined, size⟩ := @feed_val [] signed
        { po with val := buffer, stage := .inVal } init rfl
        (fun part member => cleans part (List.mem_append_left _ member))
        (fun part member => shorts part (List.mem_append_left _ member)) tmp holds
        (by rw [List.length_append] at whole; rw [List.nil_append]; omega)
      refine ⟨(bytesOf "msgstr " ++ quoted []) :: init.map quoted, quoted final, _, by simp,
        by simp [quoted], (feed_cons read).trans later, fun tail ended => ?_⟩
      exact poLine_val signed rfl ended (cleans final (by simp)) (shorts final (by simp)) size joined
        whole

end Lines

section Entries

variable {po : Po} {tail : List UInt8} {messages : List Message} {m : Message}

/-- The size of a text with the bytes behind it. -/
def padded (length : Nat) : Nat := length + (4 - length % 4) % 4

/-- The size of the texts of messages. -/
def textSize (messages : List Message) : Nat :=
  (messages.map fun m => padded m.val.value.length).sum

theorem textSize_append (messages more : List Message) :
    textSize (messages ++ more) = textSize messages + textSize more := by
  rw [textSize, List.map_append, List.sum_append]
  rfl

theorem textSize_singleton (m : Message) : textSize [m] = padded m.val.value.length := by
  simp [textSize]

/-- A message has a key and a text, and their hashes differ. -/
structure Message.Fits (signed : Bool) (m : Message) : Prop where
  key : m.key.Fits (bytesOf "msgid ")
  val : m.val.Fits (bytesOf "msgstr ")
  keySome : m.key.value ≠ []
  valSome : m.val.value ≠ []
  differ : sfhHash signed m.key.value ≠ sfhHash signed m.val.value

/-- The entry that is written for a message. -/
def Message.entry (signed : Bool) (offset : Nat) (m : Message) : LmoEntry where
  keyId := sfhHash signed m.key.value
  valId := sfhHash signed m.val.value
  offset := offset
  length := m.val.value.length

/-- The entry of a message in a file of texts. -/
structure Files (signed : Bool) (out : List UInt8) (m : Message) (e : LmoEntry) : Prop where
  keyId : e.keyId = sfhHash signed m.key.value
  length : e.length = m.val.value.length
  inside : e.offset + e.length ≤ out.length
  text : (out.drop e.offset).take e.length = m.val.value

theorem Files.append {out : List UInt8} {e : LmoEntry} (files : Files signed out m e)
    (more : List UInt8) : Files signed (out ++ more) m e where
  keyId := files.keyId
  length := files.length
  inside := by
    have inside := files.inside
    rw [List.length_append]
    omega
  text := by
    have inside := files.inside
    rw [List.drop_append_of_le_length (by omega), List.take_append_of_le_length
      (by rw [List.length_drop]; omega)]
    exact files.text

/-- The compiler has read messages, and waits for another. -/
structure Compiled (signed : Bool) (messages : List Message) (po : Po) : Prop where
  stage : po.stage = .idle
  key : po.key = zeroed
  val : po.val = zeroed
  tmp : po.tmp.length = 4096
  offset : po.offset = po.out.length
  total : po.offset = textSize messages
  entries : List.Forall₂ (Files signed po.out) messages po.array

/-- The compiler has read messages, and the strings of one more. -/
structure Reading (signed : Bool) (messages : List Message) (m : Message) (po : Po) : Prop where
  stage : po.stage = .inVal
  tmp : po.tmp.length = 4096
  key : Holds po.key m.key.value
  val : Holds po.val m.val.value
  offset : po.offset = po.out.length
  total : po.offset = textSize messages
  entries : List.Forall₂ (Files signed po.out) messages po.array

/-- The lines of a message, where the last one may end with the file. -/
theorem Compiled.read_lines (compiled : Compiled signed messages po) (fits : m.Fits signed) :
    ∃ front last middle, m.lines = front ++ [last] ∧ last ≠ [] ∧
      feed signed po front = .ok middle ∧
      ∀ tail, LineEnd tail → ∃ next, poLine signed middle (last ++ tail) = .ok next ∧
        Reading signed messages m next := by
  have size : po.key.length = 4096 := compiled.key ▸ holds_zeroed.length
  obtain ⟨after, key, tmp, stage, first, holds, tmpSize⟩ := feed_keyText signed fits.key fits.keySome
    compiled.stage size compiled.tmp
  obtain ⟨front, last, middle, lines, some, later, final⟩ := @feed_valText
    { po with stage := after, key := key, tmp := tmp } signed m.val fits.val stage
    (by rw [compiled.val]; exact holds_zeroed.length) tmpSize
  refine ⟨m.key.lines (bytesOf "msgid ") ++ front, last, middle, ?_, some, ?_, ?_⟩
  · rw [Message.lines, lines, List.append_assoc]
  · rw [feed_append first, later]
  · intro tail ended
    obtain ⟨val, tmp', read, joined, size'⟩ := final tail ended
    exact ⟨_, read, rfl, size', holds, joined, compiled.offset, compiled.total, compiled.entries⟩

/-- A line without a string ends a message. -/
theorem Reading.poLine_end (reading : Reading signed messages m po) (fits : m.Fits signed)
    (ended : LineEnd tail)
    (small : textSize (messages ++ [m]) < 2 ^ 31) :
    ∃ next, poLine signed po tail = .ok next ∧ Compiled signed (messages ++ [m]) next := by
  have none := @extractString_none po.tmp tail ended.no_zero ended.no_quote
    (Nat.le_trans ended.length_le (by decide))
  have taken : poLine signed po tail = endEntry signed po := by
    rw [poLine, reading.stage]
    dsimp only
    rw [moreLine, none]
    rfl
  rw [textSize_append, textSize_singleton, ← reading.total] at small
  obtain ⟨rest, buffer⟩ := reading.val.front
  have room := reading.val.length
  have less := reading.val.length_lt
  have written : (po.val.take (padded m.val.value.length)).length = padded m.val.value.length := by
    rw [List.length_take, room]
    unfold padded
    omega
  have begins : (po.val.take (padded m.val.value.length)).take m.val.value.length =
      m.val.value := by
    rw [List.take_take, Nat.min_eq_left (by unfold padded; omega), buffer, List.take_left]
  have entry : Files signed (po.out ++ po.val.take (padded m.val.value.length)) m
      (m.entry signed po.offset) := by
    refine ⟨rfl, rfl, ?_, ?_⟩
    · change po.offset + _ ≤ _
      rw [List.length_append, written, reading.offset]
      exact Nat.add_le_add_left (Nat.le_add_right _ _) _
    · change ((po.out ++ _).drop po.offset).take _ = _
      rw [reading.offset, List.drop_left]
      exact begins
  have enough : 0 < m.key.value.length ∧ 0 < m.val.value.length ∧
      sfhHash signed m.key.value ≠ sfhHash signed m.val.value :=
    ⟨List.length_pos_of_ne_nil fits.keySome, List.length_pos_of_ne_nil fits.valSome, fits.differ⟩
  have write : writeEntry signed po = .ok { po with
      array := po.array ++ [m.entry signed po.offset]
      out := po.out ++ po.val.take (padded m.val.value.length)
      offset := po.offset + padded m.val.value.length } := by
    rw [writeEntry, reading.key.held_eq, reading.val.held_eq]
    change (if _ then (if 2 ^ 31 ≤ po.offset + padded m.val.value.length then _ else _) else _) = _
    rw [if_pos enough, if_neg (Nat.not_le_of_lt small)]
    rfl
  refine ⟨_, by rw [taken, endEntry, write]; rfl, ?_⟩
  exact {
    stage := rfl
    key := rfl
    val := rfl
    tmp := reading.tmp
    offset := by
      rw [List.length_append, written, ← reading.offset]
    total := by rw [textSize_append, textSize_singleton, ← reading.total]
    entries := by
      refine List.rel_append (List.Forall₂.imp (fun _ _ files => files.append _) reading.entries) ?_
      exact .cons entry .nil }

/-- A blank line between messages is skipped. -/
theorem Compiled.poLine_blank (compiled : Compiled signed messages po) (ended : LineEnd tail) :
    poLine signed po tail = .ok po := by
  have other : ¬(bytesOf "msgid \"").isPrefixOf tail := by
    rcases ended with rfl | rfl <;> decide
  rw [poLine, compiled.stage]
  dsimp only
  rw [idleLine, if_neg other]

theorem Compiled.feed_blanks (compiled : Compiled signed messages po) (blanks : Nat) :
    feed signed po (List.replicate blanks []) = .ok po := by
  induction blanks with
  | zero => rfl
  | succ blanks ih =>
      rw [List.replicate_succ, feed_cons (compiled.poLine_blank (Or.inr rfl)), ih]

end Entries

section Files

variable {po : Po} {lines : List (List UInt8)} {messages : List Message}
  {entries : List (Message × Nat)}

theorem fgets_line (clean : Clean line) (short : line.length ≤ 4094) (rest : List UInt8) :
    fgets 4096 (line ++ ascii '\n' :: rest) = some (line ++ [ascii '\n'], rest) := by
  have front : (line ++ ascii '\n' :: rest).takeWhile (· ≠ ascii '\n') = line := by
    rw [List.takeWhile_append_of_pos]
    · simp
    · intro c member
      simpa using (clean c member).2
  have whole : line ++ ascii '\n' :: rest = (line ++ [ascii '\n']) ++ rest := by simp
  have count : min (line.length + 1) 4095 = (line ++ [ascii '\n']).length := by
    rw [List.length_append, List.length_singleton, Nat.min_eq_left (by omega)]
  rw [fgets, if_neg (by simp), front]
  dsimp only
  rw [count, whole, List.take_left, List.drop_left]

theorem fgets_last (clean : Clean line) (short : line.length ≤ 4094) (some : line ≠ []) :
    fgets 4096 line = Option.some (line, []) := by
  have front : line.takeWhile (· ≠ ascii '\n') = line := by
    rw [List.takeWhile_eq_self_iff]
    intro c member
    simpa using (clean c member).2
  have count : line.length ≤ min (line.length + 1) 4095 := by omega
  rw [fgets, if_neg some, front]
  dsimp only
  rw [List.take_of_length_le count, List.drop_of_length_le count]

theorem fgets_shrinks {more : List UInt8} (got : fgets 4096 rest = some (line, more)) :
    more.length < rest.length := by
  unfold fgets at got
  split at got
  · cases got
  · rename_i some
    have positive := List.length_pos_of_ne_nil some
    obtain ⟨-, rfl⟩ := Prod.mk.inj (Option.some.inj got)
    rw [List.length_drop]
    omega

/-- At the end of the file an open entry is written. -/
theorem poLine_end (opened : po.stage = .afterKey ∨ po.stage = .inVal) :
    ∃ po' : Po, poLine signed po [] = endEntry signed po' := by
  have none : ∀ buffer, extractString [] buffer 4096 = .ok (buffer, none) := fun _ => rfl
  rcases opened with stage | stage
  · refine ⟨po, ?_⟩
    rw [poLine, stage]
    dsimp only
    rw [valLine, none]
    rfl
  · refine ⟨po, ?_⟩
    rw [poLine, stage]
    dsimp only
    rw [moreLine, none]
    rfl

theorem endEntry_idle {next : Po} (ended : endEntry signed po = .ok next) : next.stage = .idle := by
  unfold endEntry at ended
  cases written : writeEntry signed po with
  | error halt =>
      rw [written] at ended
      cases ended
  | ok po' =>
      rw [written] at ended
      obtain rfl := Except.ok.inj ended
      rfl

theorem poRound_shrinks (signed : Bool) : Shrinks (poRound signed) PoScan.size .outside where
  smaller := by
    intro scan next round
    unfold poRound at round
    split at round
    · rename_i line more got
      have less := fgets_shrinks got
      cases read : poLine signed scan.po line with
      | error halt =>
          rw [read] at round
          cases round
      | ok po =>
          rw [read] at round
          obtain rfl := Round.again.inj (Except.ok.inj round)
          unfold PoScan.size
          dsimp only
          split <;> split <;> omega
    · split at round
      · rename_i opened
        obtain ⟨po', ends⟩ := @poLine_end signed scan.po opened
        rw [ends] at round
        cases ended : endEntry signed po' with
        | error halt =>
            rw [ended] at round
            cases round
        | ok po =>
            rw [ended] at round
            obtain rfl := Round.again.inj (Except.ok.inj round)
            unfold PoScan.size
            dsimp only
            rw [if_pos opened, if_neg (by rw [endEntry_idle ended]; simp)]
            omega
      · cases round
  empty := by
    intro scan zero
    exact absurd zero (Nat.succ_ne_zero _)

theorem poLines_some {more : List UInt8} (got : fgets 4096 rest = some (line, more)) :
    poLines signed po rest = (do poLines signed (← poLine signed po line) more) := by
  rw [poLines, loop_eq (poRound_shrinks signed), poRound, got]
  dsimp only
  cases poLine signed po line with
  | error halt => rfl
  | ok po => rfl

/-- A line that ends with a line feed is read. -/
theorem poLines_line (clean : Clean line) (short : line.length ≤ 4094) (rest : List UInt8) :
    poLines signed po (line ++ ascii '\n' :: rest) =
      (do poLines signed (← poLine signed po (line ++ [ascii '\n'])) rest) :=
  poLines_some (fgets_line clean short rest)

/-- A line that ends with the file is read. -/
theorem poLines_last (clean : Clean line) (short : line.length ≤ 4094) (some : line ≠ []) :
    poLines signed po line = (do poLines signed (← poLine signed po line) []) :=
  poLines_some (fgets_last clean short some)

theorem poLines_nil_idle (stage : po.stage = .idle) : poLines signed po [] = .ok po := by
  have closed : ¬(po.stage = .afterKey ∨ po.stage = .inVal) := by
    rw [stage]
    simp
  have none : fgets 4096 [] = none := rfl
  apply loop_done (poRound_shrinks signed)
  rw [poRound, none]
  dsimp only
  rw [if_neg closed]

theorem poLines_nil_open (stage : po.stage = .inVal) :
    poLines signed po [] = (do poLines signed (← poLine signed po []) []) := by
  have none : fgets 4096 [] = none := rfl
  rw [poLines, loop_eq (poRound_shrinks signed), poRound, none]
  dsimp only
  rw [if_pos (Or.inr stage)]
  cases poLine signed po [] with
  | error halt => rfl
  | ok po => rfl

/-- Lines that end with line feeds are read. -/
theorem poLines_feed {next : Po} (clean : ∀ line ∈ lines, Clean line)
    (short : ∀ line ∈ lines, line.length ≤ 4094) (read : feed signed po lines = .ok next)
    (rest : List UInt8) :
    poLines signed po ((lines.flatMap (· ++ [ascii '\n'])) ++ rest) = poLines signed next rest := by
  induction lines generalizing po with
  | nil =>
      obtain rfl := Except.ok.inj read
      rfl
  | cons line lines ih =>
      have whole : (line :: lines).flatMap (· ++ [ascii '\n']) ++ rest =
          line ++ ascii '\n' :: (lines.flatMap (· ++ [ascii '\n']) ++ rest) := by simp
      rw [whole, poLines_line (clean line List.mem_cons_self) (short line List.mem_cons_self)]
      cases first : poLine signed po (line ++ [ascii '\n']) with
      | error halt =>
          rw [feed, List.foldlM_cons, first] at read
          cases read
      | ok middle =>
          rw [feed_cons first] at read
          exact ih (fun other member => clean other (List.mem_cons_of_mem _ member))
            (fun other member => short other (List.mem_cons_of_mem _ member)) read

theorem intercalate_append {more : List (List UInt8)} (some : more ≠ []) :
    [ascii '\n'].intercalate (lines ++ more) =
      lines.flatMap (· ++ [ascii '\n']) ++ [ascii '\n'].intercalate more := by
  induction lines with
  | nil => rfl
  | cons line lines ih =>
      obtain ⟨next, later, whole⟩ : ∃ next later, lines ++ more = next :: later :=
        List.exists_cons_of_ne_nil (by simp [some])
      rw [List.cons_append, whole, List.intercalate_cons_cons, ← whole, ih]
      simp

variable {m : Message}

theorem clean_nil : Clean [] := fun _ member => nomatch member

theorem clean_keyword : Clean (bytesOf "msgid ") ∧ Clean (bytesOf "msgstr ") := by
  unfold Clean
  decide +kernel

/-- The lines of a string are lines. -/
theorem Text.Fits.clean_lines {t : Text} (sound : Clean keyword) (fits : t.Fits keyword) :
    ∀ line ∈ t.lines keyword, Clean line := by
  intro line member
  have clean := fits.clean
  cases t with
  | single text =>
      obtain rfl := List.mem_singleton.mp member
      exact sound.append clean.quoted
  | folded first parts =>
      rcases List.mem_cons.mp member with rfl | member
      · exact sound.append clean_nil.quoted
      · obtain ⟨part, inside, rfl⟩ := List.mem_map.mp
          (show line ∈ (first :: parts).map Luci.quoted from member)
        exact (@clean_of_mem_flatten (first :: parts) clean part inside).quoted

theorem Message.Fits.clean_lines (fits : m.Fits signed) : ∀ line ∈ m.lines, Clean line := by
  intro line member
  rcases List.mem_append.mp member with inKey | inVal
  · exact fits.key.clean_lines clean_keyword.1 line inKey
  · exact fits.val.clean_lines clean_keyword.2 line inVal

theorem Message.Fits.short_lines (fits : m.Fits signed) : ∀ line ∈ m.lines, line.length ≤ 4094 := by
  intro line member
  exact (List.mem_append.mp member).elim (fits.key.short line) (fits.val.short line)

theorem clean_blanks (blanks : Nat) : ∀ line ∈ List.replicate blanks ([] : List UInt8),
    Clean line ∧ line.length ≤ 4094 := by
  intro line member
  obtain rfl := List.eq_of_mem_replicate member
  exact ⟨clean_nil, Nat.zero_le _⟩

theorem Compiled.feed_message (compiled : Compiled signed messages po) (fits : m.Fits signed) :
    ∃ next, feed signed po m.lines = .ok next ∧ Reading signed messages m next := by
  obtain ⟨front, last, middle, lines, -, first, final⟩ := compiled.read_lines fits
  obtain ⟨next, read, reading⟩ := final _ (Or.inr rfl)
  refine ⟨next, ?_, reading⟩
  rw [lines, feed_append first, feed_cons read, feed_nil]

theorem Reading.feed_blanks (reading : Reading signed messages m po) (fits : m.Fits signed)
    (small : textSize (messages ++ [m]) < 2 ^ 31) (blanks : Nat) :
    ∃ next, feed signed po (List.replicate (blanks + 1) []) = .ok next ∧
      Compiled signed (messages ++ [m]) next := by
  obtain ⟨next, ended, compiled⟩ := reading.poLine_end fits (Or.inr rfl) small
  refine ⟨next, ?_, compiled⟩
  rw [List.replicate_succ, feed_cons ended, compiled.feed_blanks]

/-- The file ends behind a message. -/
theorem Reading.poLines_nil (reading : Reading signed messages m po) (fits : m.Fits signed)
    (small : textSize (messages ++ [m]) < 2 ^ 31) :
    ∃ next, poLines signed po [] = .ok next ∧ Compiled signed (messages ++ [m]) next := by
  obtain ⟨next, ended, compiled⟩ := reading.poLine_end fits (Or.inl rfl) small
  refine ⟨next, ?_, compiled⟩
  rw [poLines_nil_open reading.stage, ended]
  exact poLines_nil_idle compiled.stage

/-- The last message of a file, and the blank lines behind it. -/
theorem Compiled.poLines_message (compiled : Compiled signed messages po) (fits : m.Fits signed)
    (small : textSize (messages ++ [m]) < 2 ^ 31) (blanks : Nat) :
    ∃ next, poLines signed po ([ascii '\n'].intercalate (m.lines ++ List.replicate blanks [])) =
        .ok next ∧ Compiled signed (messages ++ [m]) next := by
  cases blanks with
  | zero =>
      obtain ⟨front, last, middle, lines, some, first, final⟩ := compiled.read_lines fits
      obtain ⟨read, ended, reading⟩ := final [] (Or.inl rfl)
      obtain ⟨next, closed, compiled'⟩ := reading.poLines_nil fits small
      have clean := fits.clean_lines
      have short := fits.short_lines
      rw [lines] at clean short
      refine ⟨next, ?_, compiled'⟩
      rw [List.replicate_zero, List.append_nil, lines, intercalate_append (List.cons_ne_nil _ _),
        poLines_feed (fun line member => clean line (List.mem_append_left _ member))
          (fun line member => short line (List.mem_append_left _ member)) first,
        List.intercalate_singleton, poLines_last (clean last (by simp)) (short last (by simp)) some]
      rw [List.append_nil] at ended
      rw [ended]
      exact closed
  | succ blanks =>
      obtain ⟨middle, first, reading⟩ := compiled.feed_message fits
      have clean : ∀ line ∈ m.lines ++ List.replicate blanks [], Clean line := fun line member =>
        (List.mem_append.mp member).elim (fits.clean_lines line) fun blank =>
          (clean_blanks blanks line blank).1
      have short : ∀ line ∈ m.lines ++ List.replicate blanks [], line.length ≤ 4094 :=
        fun line member => (List.mem_append.mp member).elim (fits.short_lines line) fun blank =>
          (clean_blanks blanks line blank).2
      rw [List.replicate_succ', ← List.append_assoc, intercalate_append (List.cons_ne_nil _ _),
        List.intercalate_singleton]
      cases blanks with
      | zero =>
          obtain ⟨next, closed, compiled'⟩ := reading.poLines_nil fits small
          refine ⟨next, ?_, compiled'⟩
          rw [poLines_feed clean short (by rw [List.replicate_zero, List.append_nil]; exact first)]
          exact closed
      | succ blanks =>
          obtain ⟨next, later, compiled'⟩ := reading.feed_blanks fits small blanks
          refine ⟨next, ?_, compiled'⟩
          rw [poLines_feed clean short (by rw [feed_append first]; exact later)]
          exact poLines_nil_idle compiled'.stage

theorem messageLines_ne_nil (e : Message × Nat) (entries : List (Message × Nat)) :
    messageLines (e :: entries) ≠ [] := by
  have some : e.1.lines ≠ [] := by
    rw [Message.lines]
    cases e.1.key <;> simp [Text.lines]
  cases entries with
  | nil => simp [messageLines, some]
  | cons next entries => simp [messageLines, some]

/-- The messages of a file are compiled one after the other. -/
theorem Compiled.poLines_messages (compiled : Compiled signed messages po)
    (fits : ∀ e ∈ entries, e.1.Fits signed)
    (small : textSize (messages ++ entries.map Prod.fst) < 2 ^ 31) :
    ∃ next, poLines signed po ([ascii '\n'].intercalate (messageLines entries)) = .ok next ∧
      Compiled signed (messages ++ entries.map Prod.fst) next := by
  induction entries generalizing messages po with
  | nil =>
      refine ⟨po, poLines_nil_idle compiled.stage, ?_⟩
      rw [List.map_nil, List.append_nil]
      exact compiled
  | cons entry entries ih =>
      obtain ⟨m, blanks⟩ := entry
      have fit := fits (m, blanks) List.mem_cons_self
      cases entries with
      | nil => exact compiled.poLines_message fit small blanks
      | cons e entries =>
          have split : messages ++ ((m, blanks) :: e :: entries).map Prod.fst =
              messages ++ [m] ++ (e :: entries).map Prod.fst := by simp
          rw [split] at small ⊢
          have less : textSize (messages ++ [m]) < 2 ^ 31 := by
            rw [textSize_append] at small
            omega
          obtain ⟨middle, first, reading⟩ := compiled.feed_message fit
          obtain ⟨next, later, compiled'⟩ := reading.feed_blanks fit less blanks
          obtain ⟨last, rest, final⟩ := ih compiled'
            (fun other member => fits other (List.mem_cons_of_mem _ member)) small
          refine ⟨last, ?_, final⟩
          have clean : ∀ line ∈ m.lines ++ List.replicate (blanks + 1) [], Clean line :=
            fun line member => (List.mem_append.mp member).elim (fit.clean_lines line) fun blank =>
              (clean_blanks (blanks + 1) line blank).1
          have short : ∀ line ∈ m.lines ++ List.replicate (blanks + 1) [], line.length ≤ 4094 :=
            fun line member => (List.mem_append.mp member).elim (fit.short_lines line) fun blank =>
              (clean_blanks (blanks + 1) line blank).2
          rw [messageLines, intercalate_append (messageLines_ne_nil e entries), poLines_feed clean short
            (by rw [feed_append first]; exact later)]
          exact rest

theorem compiled_poStart (signed : Bool) {tmp : List UInt8} (length : tmp.length = 4096) :
    Compiled signed [] (poStart tmp) where
  stage := rfl
  key := rfl
  val := rfl
  tmp := length
  offset := rfl
  total := rfl
  entries := .nil

/-- A file of translations is compiled. -/
theorem poLines_file {tmp : List UInt8} (length : tmp.length = 4096) (lead : Nat)
    (fits : ∀ e ∈ entries, e.1.Fits signed) (small : textSize (entries.map Prod.fst) < 2 ^ 31) :
    ∃ next, poLines signed (poStart tmp) (poFile lead entries) = .ok next ∧
      Compiled signed (entries.map Prod.fst) next := by
  have start := compiled_poStart signed length
  have clean : ∀ lead : Nat, ∀ line ∈ List.replicate lead ([] : List UInt8), Clean line :=
    fun lead line member => (clean_blanks lead line member).1
  have short : ∀ lead : Nat, ∀ line ∈ List.replicate lead ([] : List UInt8), line.length ≤ 4094 :=
    fun lead line member => (clean_blanks lead line member).2
  cases entries with
  | nil =>
      refine ⟨poStart tmp, ?_, start⟩
      rw [poFile, messageLines, List.append_nil]
      cases lead with
      | zero => exact poLines_nil_idle rfl
      | succ lead =>
          rw [List.replicate_succ', intercalate_append (List.cons_ne_nil _ _),
            poLines_feed (clean lead) (short lead) (start.feed_blanks lead)]
          exact poLines_nil_idle rfl
  | cons e entries =>
      obtain ⟨next, read, compiled⟩ := start.poLines_messages fits small
      refine ⟨next, ?_, compiled⟩
      rw [poFile, intercalate_append (messageLines_ne_nil e entries),
        poLines_feed (clean lead) (short lead) (start.feed_blanks lead)]
      exact read

end Files

end Trunk.Luci
