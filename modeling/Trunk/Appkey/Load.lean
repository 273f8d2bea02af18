import Trunk.Appkey.Handle
import Trunk.Foundation.Words
import Trunk.Utils.Sfile

/-! # Key files

The model of `load`, which scans the directory of the key files and hands their lines to `load_line`.
The lines of a file are read by pieces of at most 1022 bytes, so a longer line is handled as several
ones. What a piece sets is told by its words (`Trunk.Libappkey.akInfo_normalise`), and a file leaves
in the table what its pieces set last (`Trunk.Libappkey.handlePieces_takes`). So the files load as they
are written exactly if, for every key, the last piece of a file that sets it sets what the last line
does (`Trunk.Libappkey.loadsAsWritten_iff`).
-/

namespace Trunk.Libappkey

open CString Sfile Words

/-- A regular file in the directory of the key files. -/
structure Entry where
  name : List UInt8
  noNul : 0 ∉ name
  short : name.length ≤ 255
  content : List UInt8

/-- The name as `load_line` is given it. -/
def Entry.filename (entry : Entry) : Line :=
  ⟨entry.name, entry.noNul, entry.short.trans (by decide)⟩

theorem bufferLine_fits (buffer : List UInt8) :
    (CStr.ofBuffer (buffer.take osLineLen)).bytes.length ≤ osLineLen :=
  (List.takeWhile_prefix _).length_le.trans (List.length_take_le _ _)

/-- The line in a buffer of `1 + OS_LINE_LEN` bytes, the last of which is zero. -/
def bufferLine (buffer : List UInt8) : Line where
  bytes := (CStr.ofBuffer (buffer.take osLineLen)).bytes
  noNul := (CStr.ofBuffer (buffer.take osLineLen)).noNul
  fits := bufferLine_fits buffer

/-- `".key"`. -/
def keySuffix : List UInt8 := ['.', 'k', 'e', 'y'].map ascii

/-- `filefilter`. -/
def filefilter (filename : List UInt8) : Bool :=
  (filename.dropWhile fun byte => byte ≠ ascii '.') ≠ keySuffix

/-- `load_line`, as the scan calls it. -/
def lineHandle (width : Nat) (filename : Line) (table : Table) (line : List UInt8) :
    Option Int × Table :=
  match loadLine width table filename (bufferLine line) with
  | (.go _, table) => (none, table)
  | (.break result, table) => (some result, table)

/-- The scan of `load`. -/
def loader (width : Nat) (isDir : Sfile.Name → Bool) (entries : List Entry) : Scanner Table where
  isDir := isDir
  fileFilter := some fun _ filename => filefilter filename
  fileHandle table _ filename :=
    match entries.find? fun entry => entry.name = filename with
    | some entry =>
        sfscanFileHandle osLineLen entry.content (lineHandle width entry.filename) table
    | none => (none, table)

/-- `APPKEY_PATH`. -/
def appkeyPath : Path := [['e', 't', 'c'].map ascii, ['a', 'p', 'p', 'k', 'e', 'y'].map ascii]

/-- `load`, of a directory with these files, where `isDir` says which names are those of directories
in the working directory. -/
def load (width : Nat) (isDir : Sfile.Name → Bool) (entries : List Entry) (table : Table) :
    Int × Table :=
  let names := [ascii '.'] :: [ascii '.', ascii '.'] :: entries.map Entry.name
  let (ret, table) := sfscanDir (loader width isDir entries) false appkeyPath names 1 table
  (if ret < 0 then ret else 0, table)

/-! ## What lines and pieces set -/

/-- A line whose first character that is no blank starts a comment. -/
def isNotes (line : List UInt8) : Bool := (line.dropWhile isBlank).head? = some (ascii '#')

/-- The number that a text stands for; the debug key also has names for it. -/
def numberOf (width : Nat) (key var : List UInt8) : Option UInt32 :=
  match strtoul width var with
  | some value => some (UInt32.ofNat value)
  | none =>
      if key = akidDebugName then
        if var = [ascii '*'] then some 0xffffffff
        else
          let names := strtok (ascii '|') var
          if names ≠ [] ∧ ∀ name ∈ names, syskeyDebugName name ≠ 0 then
            some (names.foldl (fun value name => value ||| syskeyDebugName name) 0)
          else none
      else none

/-- What a line '<key> <number>' says. Comments and malformed lines say nothing. -/
def written (width : Nat) (line : List UInt8) : Option (List UInt8 × UInt32) :=
  if 0 ∈ line ∨ isNotes line = true then none
  else
    match words isSpace line with
    | [key, var] =>
        if key.length < appKeyNamelen then (numberOf width key var).map (key, ·) else none
    | _ => none

/-- The value that is taken from a text: the number, and for the debug key whatever the names are. -/
def takenValue (width : Nat) (key var : List UInt8) : Option UInt32 :=
  match strtoul width var with
  | some value => some (UInt32.ofNat value)
  | none => if key = akidDebugName then some (syskeyValue [] var).1 else none

/-- What a piece that is read sets, by the first two of its words. -/
def taken (width : Nat) (piece : List UInt8) : Option (List UInt8 × UInt32) :=
  let line := (CStr.ofBuffer piece).bytes
  if isNotes line then none
  else
    match words isSpace line with
    | key :: var :: _ =>
        if key.length < appKeyNamelen then (takenValue width key var).map (key, ·) else none
    | _ => none

/-- The value that a key is set to last. -/
def lastFor (key : List UInt8) (settings : List (List UInt8 × UInt32)) : Option UInt32 :=
  (settings.filter fun setting => setting.1 = key).getLast?.map Prod.snd

/-- The lines of a file. -/
def lines (content : List UInt8) : List (List UInt8) := content.splitOn (ascii '\n')

/-- The application of a key file '<app>.key'. -/
def keyApp (filename : List UInt8) : Option (List UInt8) :=
  let app := filename.takeWhile fun byte => byte ≠ ascii '.'
  if filename = app ++ keySuffix ∧ app ≠ [] ∧ app.length < appNamelen then some app else none

/-! ## Normalised lines -/

theorem isSpace_of_isBlank (byte : UInt8) (blank : isBlank byte = true) : isSpace byte = true := by
  simp only [isBlank, Bool.or_eq_true, decide_eq_true_eq] at blank
  rcases blank with ((rfl | rfl) | rfl) | rfl
  · decide
  · decide
  · decide
  · decide

theorem isSpace_replaced (byte : UInt8) (space : isSpace byte = true) :
    isSpace (if isBlank byte then ascii ' ' else byte) = true := by
  split
  · decide
  · exact space

theorem replaced_of_not_isSpace (byte : UInt8) (word : isSpace byte = false) :
    (if isBlank byte then ascii ' ' else byte) = byte := by
  rw [if_neg]
  intro blank
  rw [isSpace_of_isBlank byte blank] at word
  cases word

/-- What is reduced has the same words. A blank that is not kept yet is a gap. -/
theorem alike_reduceFrom (text : List UInt8) :
    Alike isSpace (reduceFrom none text) text ∧
      ∀ blank, isBlank blank = true →
        Alike isSpace (reduceFrom (some blank) text) (blank :: text) := by
  induction text with
  | nil =>
      refine ⟨.refl isSpace [], fun blank isBlank => ?_⟩
      exact ⟨(alike_concat_gap (isSpace_of_isBlank blank isBlank) []).first.symm,
        (alike_concat_gap (isSpace_of_isBlank blank isBlank) []).later.symm⟩
  | cons byte rest ih =>
      obtain ⟨plain, pending⟩ := ih
      refine ⟨?_, fun blank isBlank' => ?_⟩
      · rw [reduceFrom]
        split
        · rename_i isBlank'
          exact pending byte isBlank'
        · exact plain.cons byte
      · have gap := isSpace_of_isBlank blank isBlank'
        rw [reduceFrom]
        split
        · rename_i isBlank''
          have gap' := isSpace_of_isBlank byte isBlank''
          refine (pending byte isBlank'').trans (alike_cons_gap gap' gap ?_)
          exact (words_cons_gap gap').symm
        · exact (plain.cons byte).cons blank

/-- The words of a piece stay. -/
theorem words_normalise (piece : List UInt8) :
    words isSpace (normalise piece) = words isSpace (CStr.ofBuffer piece).bytes := by
  unfold normalise stringReduce stringReplace stringStrimBothEnds stringStrimLeft stringStrimRight
  rw [(alike_reduceFrom _).1.words, words_map isSpace_replaced replaced_of_not_isSpace,
    words_dropWhile isSpace_of_isBlank, words_rdropWhile isSpace_of_isBlank]

theorem head?_dropWhile_rdropWhile (text : List UInt8) :
    ((text.rdropWhile isBlank).dropWhile isBlank).head? = (text.dropWhile isBlank).head? := by
  induction text using List.reverseRecOn with
  | nil => rfl
  | append_singleton rest byte ih =>
      rw [List.rdropWhile_concat]
      split
      · rename_i blank
        rw [ih, List.dropWhile_append]
        split
        · rename_i none
          rw [List.isEmpty_iff.mp none, List.dropWhile_cons_of_pos blank]
          rfl
        · rename_i some
          cases left : rest.dropWhile isBlank with
          | nil => exact absurd (List.isEmpty_iff.mpr left) some
          | cons first later => rfl
      · rfl

/-- A line begins with the first character of the piece that is no blank. -/
theorem head?_normalise (piece : List UInt8) :
    (normalise piece).head? = ((CStr.ofBuffer piece).bytes.dropWhile isBlank).head? := by
  rw [← head?_dropWhile_rdropWhile]
  unfold normalise stringReduce stringReplace stringStrimBothEnds stringStrimLeft stringStrimRight
  have first := List.head?_dropWhile_not isBlank ((CStr.ofBuffer piece).bytes.rdropWhile isBlank)
  cases left : ((CStr.ofBuffer piece).bytes.rdropWhile isBlank).dropWhile isBlank with
  | nil => rfl
  | cons byte rest =>
      rw [left] at first
      have word : isBlank byte = false := by
        simpa only [List.head?_cons, Bool.not_eq_true] using first
      rw [List.map_cons, word, if_neg Bool.false_ne_true, reduceFrom, word,
        if_neg Bool.false_ne_true]
      rfl

theorem mem_of_mem_reduceFrom {pending : Option UInt8} {text : List UInt8} {byte : UInt8}
    (member : byte ∈ reduceFrom pending text) : byte ∈ pending ∨ byte ∈ text := by
  induction text generalizing pending with
  | nil => exact absurd member List.not_mem_nil
  | cons first rest ih =>
      rw [reduceFrom] at member
      split at member
      · rcases ih member with here | later
        · rw [Option.mem_some_iff.mp here]
          exact .inr (List.mem_cons_self ..)
        · exact .inr (List.mem_cons_of_mem _ later)
      · rcases List.mem_append.mp member with here | later
        · exact .inl (Option.mem_toList.mp here)
        · rcases List.mem_cons.mp later with rfl | later
          · exact .inr (List.mem_cons_self ..)
          · rcases ih later with none | later
            · cases none
            · exact .inr (List.mem_cons_of_mem _ later)

theorem length_reduceFrom_le (pending : Option UInt8) (text : List UInt8) :
    (reduceFrom pending text).length ≤ pending.toList.length + text.length := by
  induction text generalizing pending with
  | nil => exact Nat.zero_le _
  | cons first rest ih =>
      rw [reduceFrom]
      split
      · refine (ih (some first)).trans ?_
        rw [Option.toList_some, List.length_singleton, List.length_cons]
        omega
      · have later := ih none
        rw [List.length_append, List.length_cons, List.length_cons]
        rw [Option.toList_none, List.length_nil] at later
        omega

theorem zero_notMem_normalise (piece : List UInt8) : 0 ∉ normalise piece := by
  intro member
  rcases mem_of_mem_reduceFrom member with none | member
  · cases none
  · obtain ⟨byte, inside, zero⟩ := List.mem_map.mp member
    split at zero
    · exact absurd zero (by decide)
    · rw [zero] at inside
      exact (CStr.ofBuffer piece).noNul
        ((List.rdropWhile_prefix _ _).subset ((List.dropWhile_suffix _).subset inside))

theorem length_normalise_le (piece : List UInt8) : (normalise piece).length ≤ piece.length := by
  have reduced := length_reduceFrom_le none (stringReplace
    (stringStrimBothEnds (CStr.ofBuffer piece).bytes) (ascii ' '))
  have replaced : (stringReplace (stringStrimBothEnds (CStr.ofBuffer piece).bytes)
      (ascii ' ')).length = (stringStrimBothEnds (CStr.ofBuffer piece).bytes).length :=
    List.length_map ..
  have left : (stringStrimBothEnds (CStr.ofBuffer piece).bytes).length ≤
      (stringStrimRight (CStr.ofBuffer piece).bytes).length := (List.dropWhile_suffix _).length_le
  have right : (stringStrimRight (CStr.ofBuffer piece).bytes).length ≤
      (CStr.ofBuffer piece).bytes.length := (List.rdropWhile_prefix _ _).length_le
  have whole : (CStr.ofBuffer piece).bytes.length ≤ piece.length :=
    (List.takeWhile_prefix _).length_le
  rw [Option.toList_none, List.length_nil] at reduced
  unfold normalise stringReduce
  omega

/-- A line of a piece is what `load_line` reads from the buffer. -/
theorem bufferLine_normalise {piece : List UInt8} (short : piece.length ≤ osLineLen) :
    (bufferLine (normalise piece)).bytes = normalise piece := by
  unfold bufferLine
  dsimp only
  rw [List.take_of_length_le ((length_normalise_le piece).trans short),
    CStr.ofBuffer_eq (zero_notMem_normalise piece)]

/-! ## What `load_line` takes from a line -/

/-- A word and what is behind it, as `%s` finds them. -/
theorem scanWord_eq (text : List UInt8) :
    scanWord text =
      (front isSpace (text.dropWhile isSpace), behind isSpace (text.dropWhile isSpace)) := rfl

/-- The first two words of a line are its key and its value. -/
theorem loadLineKv_of_words {line : Line} {key var : List UInt8} {rest : List (List UInt8)}
    (split : words isSpace line.bytes = key :: var :: rest) :
    loadLineKv line =
      if appKeyNamelen ≤ key.length then .error (-ETOOBIG) else .ok (key, var) := by
  unfold loadLineKv
  dsimp only
  rw [words_eq_dropWhile, words_eq_dropWhile isSpace (behind _ _)] at split
  rw [scanWord_eq line.bytes, scanWord_eq (behind _ _)]
  dsimp only
  split at split
  · cases split
  · rename_i some
    split at split
    · cases (List.cons.inj split).2
    · rename_i some'
      obtain ⟨rfl, later⟩ := List.cons.inj split
      obtain ⟨rfl, -⟩ := List.cons.inj later
      rw [if_neg]
      rw [Bool.or_eq_true]
      exact not_or_intro some some'

/-- A line with fewer words is no line of a key. -/
theorem loadLineKv_of_few {line : Line} (few : (words isSpace line.bytes).length < 2) :
    loadLineKv line = .error (-EFORMAT) := by
  unfold loadLineKv
  dsimp only
  rw [words_eq_dropWhile, words_eq_dropWhile isSpace (behind _ _)] at few
  rw [scanWord_eq line.bytes, scanWord_eq (behind _ _)]
  dsimp only
  rw [if_pos]
  rw [Bool.or_eq_true]
  split at few
  · rename_i none
    exact .inl none
  · split at few
    · rename_i none
      exact .inr none
    · rw [List.length_cons, List.length_cons] at few
      omega

variable {width : Nat} {filename : Line} {app key : List UInt8} {value : UInt32}
  {piece : List UInt8}

/-- The value does not depend on the application. -/
theorem loadLineValue_eq (width : Nat) (app key var : List UInt8) :
    (∃ debug value, loadLineValue width app key var = .ok (value, debug) ∧
        takenValue width key var = some value) ∨
      (∃ err, loadLineValue width app key var = .error err) ∧ takenValue width key var = none := by
  have same : (syskeyValue app var).1 = (syskeyValue [] var).1 := by
    unfold syskeyValue
    split
    · rfl
    · rfl
  unfold loadLineValue takenValue
  cases strtoul width var with
  | some value => exact .inl ⟨none, _, rfl, rfl⟩
  | none =>
      by_cases sys : key = akidDebugName
      · rw [if_pos sys]
        dsimp only
        rw [if_pos sys]
        exact .inl ⟨_, _, rfl, congrArg some same.symm⟩
      · rw [if_neg sys]
        dsimp only
        rw [if_neg sys]
        exact .inr ⟨⟨_, rfl⟩, rfl⟩

/-- A piece that sets a key has it and its value for the first two words. -/
theorem taken_eq_some_iff :
    taken width piece = some (key, value) ↔
      isNotes (CStr.ofBuffer piece).bytes = false ∧ key.length < appKeyNamelen ∧
        ∃ var rest, words isSpace (CStr.ofBuffer piece).bytes = key :: var :: rest ∧
          takenValue width key var = some value := by
  unfold taken
  dsimp only
  cases isNotes (CStr.ofBuffer piece).bytes with
  | true =>
      rw [if_pos rfl]
      constructor
      · intro none
        cases none
      · rintro ⟨plain, -⟩
        cases plain
  | false =>
      rw [if_neg Bool.false_ne_true]
      rcases words isSpace (CStr.ofBuffer piece).bytes with _ | ⟨first, _ | ⟨var, rest⟩⟩
      · constructor
        · intro none
          cases none
        · rintro ⟨-, -, var, rest, none, -⟩
          cases none
      · constructor
        · intro none
          cases none
        · rintro ⟨-, -, var, rest, none, -⟩
          cases none
      · dsimp only
        rw [Option.ite_none_right_eq_some, Option.map_eq_some_iff]
        constructor
        · rintro ⟨long, value', read, same⟩
          obtain ⟨rfl, rfl⟩ := Prod.mk.inj same
          exact ⟨rfl, long, var, rest, rfl, read⟩
        · rintro ⟨-, long, var', rest', same, read⟩
          obtain ⟨rfl, later⟩ := List.cons.inj same
          obtain ⟨rfl, rfl⟩ := List.cons.inj later
          exact ⟨long, value, read, rfl⟩

/-- What `load_line` takes from the line of a piece that sets a key. -/
theorem akInfo_normalise (short : piece.length ≤ osLineLen)
    (named : loadLineApp filename = .ok app) (sets : taken width piece = some (key, value)) :
    ∃ debug, akInfo width filename (bufferLine (normalise piece)) = .ok ⟨app, key, value, debug⟩ := by
  obtain ⟨-, long, var, rest, split, read⟩ := taken_eq_some_iff.mp sets
  rw [← words_normalise, ← bufferLine_normalise short] at split
  have kv := loadLineKv_of_words split
  rw [if_neg (Nat.not_le_of_lt long)] at kv
  rcases loadLineValue_eq width app key var with ⟨debug, value', found, same⟩ | ⟨-, none⟩
  · obtain rfl := Option.some.inj (read.symm.trans same)
    refine ⟨debug, ?_⟩
    unfold akInfo
    rw [named, kv]
    simp only [bind, Except.bind, found, pure, Except.pure]
  · rw [none] at read
    cases read

/-- Nothing is taken from the line of a piece that sets no key. -/
theorem akInfo_normalise_error (short : piece.length ≤ osLineLen)
    (plain : isNotes (CStr.ofBuffer piece).bytes = false) (none : taken width piece = none) :
    ∃ err, akInfo width filename (bufferLine (normalise piece)) = .error err := by
  unfold akInfo
  cases named : loadLineApp filename with
  | error err => exact ⟨err, rfl⟩
  | ok app =>
      rcases split : words isSpace (CStr.ofBuffer piece).bytes with _ | ⟨key, _ | ⟨var, rest⟩⟩
      · rw [loadLineKv_of_few]
        · exact ⟨_, rfl⟩
        · rw [bufferLine_normalise short, words_normalise, split]
          decide
      · rw [loadLineKv_of_few]
        · exact ⟨_, rfl⟩
        · rw [bufferLine_normalise short, words_normalise, split]
          exact Nat.one_lt_two
      · have split' := split
        rw [← words_normalise, ← bufferLine_normalise short] at split'
        rw [loadLineKv_of_words split']
        by_cases long : key.length < appKeyNamelen
        · rw [if_neg (Nat.not_le_of_lt long)]
          rcases loadLineValue_eq width app key var with ⟨debug, value, -, same⟩ | ⟨⟨err, found⟩, -⟩
          · have sets := taken_eq_some_iff.mpr ⟨plain, long, var, rest, split, same⟩
            rw [none] at sets
            cases sets
          · refine ⟨err, ?_⟩
            simp only [bind, Except.bind, found]
        · rw [if_pos (Nat.le_of_not_lt long)]
          exact ⟨_, rfl⟩

/-! ## The values in the table -/

/-- The value that is found under a name. -/
def valueOf (table : Table) (name : Name) : Option UInt32 :=
  (getbyname table name.1 name.2).bind fun index => table.keys[index]?.map Appkey.value

variable {limit : Nat} {table table' : Table} {dict dict' : Dict} {name : Name}

theorem Holds.valueOf_eq_some_iff (holds : Holds limit table dict) :
    valueOf table name = some value ↔ ∃ ak ∈ table.keys, ak.name = name ∧ ak.value = value := by
  rw [valueOf, Option.bind_eq_some_iff]
  constructor
  · rintro ⟨index, found, read⟩
    obtain ⟨ak, here, rfl⟩ := Option.map_eq_some_iff.mp read
    have listed := (holds.getbyname_eq_some_iff ..).mp found
    rw [holds.getElem?_name, here] at listed
    exact ⟨ak, List.mem_of_getElem? here, Option.some.inj listed, rfl⟩
  · rintro ⟨ak, member, rfl, rfl⟩
    obtain ⟨index, here⟩ := List.mem_iff_getElem?.mp member
    refine ⟨index, (holds.getbyname_eq_some_iff ..).mpr ?_, ?_⟩
    · rw [holds.getElem?_name, here]
      rfl
    · rw [here]
      rfl

/-- A name that is set has the value, and the others keep theirs. -/
theorem Holds.valueOf_setValue (holds : Holds limit table dict) {index : Nat}
    (listed : dict.names[index]? = some name) (value : UInt32) (other : Name) :
    valueOf (Libappkey.setValue table index value) other =
      if other = name then some value else valueOf table other := by
  have holds' := holds.setValue listed value
  have cell : ∀ place, (Libappkey.setValue table index value).keys[place]? =
      table.keys[place]?.map fun ak => if index = place then { ak with value := value } else ak :=
    fun place => List.getElem?_modify ..
  have position := listed
  rw [holds.getElem?_name, Option.map_eq_some_iff] at listed
  obtain ⟨ak, here, rfl⟩ := listed
  by_cases same : other = ak.name
  · rw [if_pos same, holds'.valueOf_eq_some_iff]
    refine ⟨{ ak with value := value }, List.mem_iff_getElem?.mpr ⟨index, ?_⟩, same.symm, rfl⟩
    rw [cell, here, Option.map_some, if_pos rfl]
  · have apart : ∀ place before, table.keys[place]? = some before → before.name = other →
        index ≠ place := by
      rintro place before there rfl rfl
      obtain rfl := Option.some.inj (here.symm.trans there)
      exact same rfl
    rw [if_neg same]
    refine Option.ext fun value' => ?_
    rw [holds'.valueOf_eq_some_iff, holds.valueOf_eq_some_iff]
    constructor
    · rintro ⟨after, member, named, rfl⟩
      obtain ⟨place, there⟩ := List.mem_iff_getElem?.mp member
      rw [cell, Option.map_eq_some_iff] at there
      obtain ⟨before, there, rfl⟩ := there
      have kept : before.name = other := by
        split at named
        · exact named
        · exact named
      rw [if_neg (apart place before there kept)]
      exact ⟨before, List.mem_of_getElem? there, kept, rfl⟩
    · rintro ⟨before, member, named, rfl⟩
      obtain ⟨place, there⟩ := List.mem_iff_getElem?.mp member
      refine ⟨before, List.mem_iff_getElem?.mpr ⟨place, ?_⟩, named, rfl⟩
      rw [cell, there, Option.map_some, if_neg (apart place before there named)]

/-- A new name has its value, and the others keep theirs. -/
theorem Holds.valueOf_append (holds : Holds limit table dict) {ak : Appkey}
    (holds' : Holds limit { table with keys := table.keys ++ [ak] } dict') (other : Name) :
    valueOf { table with keys := table.keys ++ [ak] } other =
      if other = ak.name then some ak.value else valueOf table other := by
  by_cases same : other = ak.name
  · rw [if_pos same, holds'.valueOf_eq_some_iff]
    exact ⟨ak, List.mem_append_right _ (List.mem_singleton_self ak), same.symm, rfl⟩
  · rw [if_neg same]
    refine Option.ext fun value' => ?_
    rw [holds'.valueOf_eq_some_iff, holds.valueOf_eq_some_iff]
    constructor
    · rintro ⟨found, member, rfl, rfl⟩
      rcases List.mem_append.mp member with old | new
      · exact ⟨found, old, rfl, rfl⟩
      · rw [List.mem_singleton.mp new] at same
        exact absurd rfl same
    · rintro ⟨found, member, named, rfl⟩
      exact ⟨found, List.mem_append_left _ member, named, rfl⟩

/-- `load_line` goes on, and leaves the value under the name, where there is room for it. -/
theorem Holds.loadLine_takes (holds : Holds limit table dict) {line : Line} {info : AkInfo}
    (parsed : akInfo width filename line = .ok info)
    (room : (info.app, info.key) ∈ dict.names ∨ dict.names.length < limit) :
    (loadLine width table filename line).1 = .go 0 ∧
      (∃ dict', Holds limit (loadLine width table filename line).2 dict' ∧
        ∀ name ∈ dict'.names, name ∈ dict.names ∨ name = (info.app, info.key)) ∧
      ∀ name, valueOf (loadLine width table filename line).2 name =
        if name = (info.app, info.key) then some info.value else valueOf table name := by
  have short := akInfo_short parsed
  have holds₁ := holds.withDebug (info.debug.getD table.debug)
  have kept : ∀ name, valueOf { table with debug := info.debug.getD table.debug } name =
      valueOf table name := fun _ => rfl
  unfold loadLine
  rw [parsed]
  dsimp only
  cases found : getbyname { table with debug := info.debug.getD table.debug } info.app info.key with
  | some index =>
      have listed := (holds₁.getbyname_eq_some_iff ..).mp found
      refine ⟨rfl, ⟨_, holds₁.setValue listed info.value, fun name member => .inl member⟩,
        fun name => ?_⟩
      rw [holds₁.valueOf_setValue listed, kept]
  | none =>
      have fresh := (holds₁.getbyname_eq_none_iff ..).mp found
      have count : dict.names.length < limit := by
        rcases room with old | less
        · exact absurd old fresh
        · exact less
      have length : table.keys.length = dict.names.length := by
        rw [← holds.names, List.length_map]
      have new : table.keys.length < table.limit := by
        rw [length, holds.room]
        exact count
      have appended := holds₁.append fresh count short info.value
      have values := holds₁.valueOf_append appended
      simp only [akNew, new, ↓reduceIte]
      rw [osStrlcpy_eq (by omega), osStrlcpy_eq (by omega)]
      have whole := setValue_append { table with debug := info.debug.getD table.debug }
        ⟨info.app, info.key, 0⟩ info.value
      dsimp only at whole
      rw [whole]
      refine ⟨trivial, ⟨_, appended, fun name member => ?_⟩, fun name => ?_⟩
      · rcases List.mem_append.mp member with old | last
        · exact .inl old
        · exact .inr (List.mem_singleton.mp last)
      · exact (values name).trans rfl

/-! ## What a file leaves in the table -/

theorem length_throughNewline_le (text : List UInt8) : (throughNewline text).length ≤ text.length := by
  induction text with
  | nil => exact Nat.le_refl 0
  | cons byte rest ih =>
      rw [throughNewline]
      split
      · exact Nat.succ_le_succ (Nat.zero_le _)
      · exact Nat.succ_le_succ ih

/-- A piece leaves room for its NUL. -/
theorem length_le_of_mem_readPieces {size rounds : Nat} {stream : List UInt8}
    (member : piece ∈ readPieces size rounds stream) : piece.length ≤ size - 1 := by
  have one : ∀ stream, (fgets size stream).length ≤ size - 1 := fun stream =>
    (length_throughNewline_le _).trans (List.length_take_le _ _)
  induction rounds generalizing stream with
  | zero => exact absurd member List.not_mem_nil
  | succ rounds ih =>
      rw [readPieces] at member
      split at member
      · rw [List.mem_singleton.mp member]
        exact one stream
      · rcases List.mem_cons.mp member with rfl | later
        · exact one stream
        · exact ih later

theorem lastFor_cons (key : List UInt8) (setting : List UInt8 × UInt32)
    (settings : List (List UInt8 × UInt32)) :
    lastFor key (setting :: settings) =
      (lastFor key settings).or (if setting.1 = key then some setting.2 else none) := by
  unfold lastFor
  rw [List.filter_cons]
  by_cases same : setting.1 = key
  · rw [if_pos (decide_eq_true same), if_pos same, List.getLast?_cons]
    cases (settings.filter fun setting => setting.1 = key).getLast? with
    | none => rfl
    | some last => rfl
  · rw [if_neg (by rw [decide_eq_true_eq]; exact same), if_neg same, Option.or_none]

/-- A piece whose line is skipped sets nothing. -/
theorem taken_of_skipped
    (skipped : isBlankLine (normalise piece) = true ∨ isNotesLineDeft (normalise piece) = true) :
    taken width piece = none := by
  have head := head?_normalise piece
  have first := List.head?_dropWhile_not isBlank (CStr.ofBuffer piece).bytes
  rw [← head] at first
  cases sets : taken width piece with
  | none => rfl
  | some setting =>
      obtain ⟨plain, -, var, rest, split, -⟩ := taken_eq_some_iff.mp sets
      rw [← words_normalise] at split
      cases line : normalise piece with
      | nil =>
          rw [line, words_nil] at split
          cases split
      | cons byte later =>
          rw [line] at first head skipped
          have word : isBlank byte = false := by
            simpa only [List.head?_cons, Bool.not_eq_true] using first
          rcases skipped with blank | notes
          · have blank' : byte = ascii '\n' ∨ byte = ascii '\r' := by
              simp only [isBlankLine, List.head?_cons, Option.some.injEq, reduceCtorEq,
                Bool.or_eq_true, Bool.and_eq_true, decide_eq_true_eq, decide_false,
                Bool.false_eq_true, false_or] at blank
              exact blank.imp_right And.left
            rcases blank' with rfl | rfl
            · exact absurd word (by decide)
            · exact absurd word (by decide)
          · have same : isNotes (CStr.ofBuffer piece).bytes = true := by
              unfold isNotes
              rw [← head]
              exact notes
            rw [plain] at same
            cases same

/-- The lines of a file whose name is refused change nothing. -/
theorem handlePieces_refused {err : Int} (refused : loadLineApp filename = .error err)
    (pieces : List (List UInt8)) (table : Table) :
    handlePieces (lineHandle width filename) pieces table = (none, table) := by
  have step : ∀ line, lineHandle width filename table line = (none, table) := by
    intro line
    unfold lineHandle loadLine akInfo
    rw [refused]
    rfl
  induction pieces with
  | nil => rfl
  | cons piece rest ih =>
      rw [handlePieces]
      rw [step]
      dsimp only
      rw [ih]
      split
      · rfl
      · split
        · rfl
        · rfl

/-- A table has room for a name among names that it has room for. -/
theorem Holds.room_of_supply (holds : Holds limit table dict) {supply : List Name}
    (within : ∀ name ∈ dict.names, name ∈ supply) (enough : supply.dedup.length ≤ limit)
    (member : name ∈ supply) : name ∈ dict.names ∨ dict.names.length < limit := by
  by_cases old : name ∈ dict.names
  · exact .inl old
  · have distinct : (name :: dict.names).Nodup := List.nodup_cons.mpr ⟨old, holds.nodup⟩
    have subset : name :: dict.names ⊆ supply.dedup := by
      intro other inside
      rw [List.mem_dedup]
      rcases List.mem_cons.mp inside with rfl | inside
      · exact member
      · exact within other inside
    have fewer := (distinct.subperm subset).length_le
    rw [List.length_cons] at fewer
    exact .inr (by omega)

/-- The pieces of a file leave what they set last. -/
theorem handlePieces_takes {supply : List Name} {pieces : List (List UInt8)}
    (named : loadLineApp filename = .ok app) (short : ∀ piece ∈ pieces, piece.length ≤ osLineLen)
    (enough : supply.dedup.length ≤ limit)
    (sets : ∀ setting ∈ pieces.filterMap (taken width), (app, setting.1) ∈ supply)
    (holds : Holds limit table dict) (within : ∀ name ∈ dict.names, name ∈ supply) :
    ∃ table' dict', handlePieces (lineHandle width filename) pieces table = (none, table') ∧
      Holds limit table' dict' ∧ (∀ name ∈ dict'.names, name ∈ supply) ∧
      ∀ name, valueOf table' name =
        if app = name.1 then
          (lastFor name.2 (pieces.filterMap (taken width))).or (valueOf table name)
        else valueOf table name := by
  induction pieces generalizing table dict with
  | nil =>
      refine ⟨table, dict, rfl, holds, within, fun name => ?_⟩
      split
      · rfl
      · rfl
  | cons piece rest ih =>
      have short' := fun other member => short other (List.mem_cons_of_mem piece member)
      rw [handlePieces]
      cases set : taken width piece with
      | none =>
          rw [List.filterMap_cons_none set] at sets ⊢
          obtain ⟨table', dict', done, later⟩ := ih short' sets holds within
          refine ⟨table', dict', ?_, later⟩
          split
          · exact done
          · split
            · exact done
            · rename_i plain
              have plain' : isNotes (CStr.ofBuffer piece).bytes = false := by
                unfold isNotesLineDeft at plain
                rw [head?_normalise] at plain
                exact Bool.eq_false_of_not_eq_true plain
              obtain ⟨err, refused⟩ := @akInfo_normalise_error width filename piece
                (short piece (List.mem_cons_self ..)) plain' set
              unfold lineHandle at done ⊢
              unfold loadLine
              rw [refused]
              exact done
      | some setting =>
          obtain ⟨key, value⟩ := setting
          rw [List.filterMap_cons_some set] at sets ⊢
          obtain ⟨debug, parsed⟩ := akInfo_normalise (short piece (List.mem_cons_self ..)) named set
          have room := holds.room_of_supply within enough (sets _ (List.mem_cons_self ..))
          obtain ⟨went, ⟨dict', holds', more⟩, values⟩ := holds.loadLine_takes parsed room
          have within' : ∀ name ∈ dict'.names, name ∈ supply := by
            intro name member
            rcases more name member with old | rfl
            · exact within name old
            · exact sets _ (List.mem_cons_self ..)
          obtain ⟨last, dict'', done, holds'', within'', later⟩ := ih short'
            (fun setting member => sets setting (List.mem_cons_of_mem _ member)) holds' within'
          have handled : lineHandle width filename table (normalise piece) =
              (none, (loadLine width table filename (bufferLine (normalise piece))).2) := by
            unfold lineHandle
            cases result : loadLine width table filename (bufferLine (normalise piece)) with
            | mk answer after =>
                rw [result] at went
                obtain rfl : answer = .go 0 := went
                rfl
          refine ⟨last, dict'', ?_, holds'', within'', fun name => ?_⟩
          · rw [if_neg, if_neg, handled]
            · exact done
            · intro notes
              rw [taken_of_skipped (.inr notes)] at set
              cases set
            · intro blank
              rw [taken_of_skipped (.inl blank)] at set
              cases set
          · rw [later, values, lastFor_cons, Option.or_assoc]
            by_cases own : app = name.1
            · rw [if_pos own, if_pos own]
              congr 1
              by_cases same : key = name.2
              · rw [if_pos same, if_pos]
                · rfl
                · rw [own, same]
              · rw [if_neg same, if_neg]
                · rfl
                · rintro rfl
                  exact same rfl
            · rw [if_neg own, if_neg own, if_neg]
              rintro rfl
              exact own rfl

/-! ## What `load` leaves in the table -/

/-- What is set by the pieces of a file, if it is not skipped. -/
def readSettings (width : Nat) (isDir : Sfile.Name → Bool) (entry : Entry) :
    List (List UInt8 × UInt32) :=
  if isDir entry.name then [] else (pieces osLineLen entry.content).filterMap (taken width)

/-- What the lines of a file say. -/
def writtenSettings (width : Nat) (entry : Entry) : List (List UInt8 × UInt32) :=
  (lines entry.content).filterMap (written width)

/-- The names of the keys that are set by a file. -/
def readNames (width : Nat) (isDir : Sfile.Name → Bool) (entry : Entry) : List Name :=
  (keyApp entry.name).toList.flatMap fun app =>
    (readSettings width isDir entry).map fun setting => (app, setting.1)

/-- The keys of every key file have the values of their last lines, and other keys are as before. -/
structure AsWritten (width : Nat) (entries : List Entry) (before after : Table) : Prop where
  set : ∀ entry ∈ entries, ∀ app, keyApp entry.name = some app → ∀ key,
    valueOf after (app, key) =
      (lastFor key (writtenSettings width entry)).or (valueOf before (app, key))
  kept : ∀ app, (∀ entry ∈ entries, keyApp entry.name ≠ some app) → ∀ key,
    valueOf after (app, key) = valueOf before (app, key)

/-- Files load as they are written, into every table that has room for the keys that are set. -/
def LoadsAsWritten (width : Nat) (isDir : Sfile.Name → Bool) (entries : List Entry) : Prop :=
  ∀ limit table dict, Holds limit table dict →
    (dict.names ++ entries.flatMap (readNames width isDir)).dedup.length ≤ limit →
      AsWritten width entries table (load width isDir entries table).2

theorem keyApp_eq_some_iff {filename app : List UInt8} :
    keyApp filename = some app ↔
      filename = app ++ keySuffix ∧ app = (filename.takeWhile fun byte => byte ≠ ascii '.') ∧
        app ≠ [] ∧ app.length < appNamelen := by
  unfold keyApp
  dsimp only
  rw [Option.ite_none_right_eq_some]
  constructor
  · rintro ⟨⟨whole, some, short⟩, same⟩
    obtain rfl := Option.some.inj same
    exact ⟨whole, rfl, some, short⟩
  · rintro ⟨whole, rfl, some, short⟩
    exact ⟨⟨whole, some, short⟩, rfl⟩

/-- A key file is not left out, and its application is taken from its name. -/
theorem filefilter_of_keyApp {entry : Entry} (named : keyApp entry.name = some app) :
    filefilter entry.name = false ∧ loadLineApp entry.filename = .ok app := by
  obtain ⟨whole, front, some, short⟩ := keyApp_eq_some_iff.mp named
  constructor
  · have split := List.takeWhile_append_dropWhile (p := fun byte => byte ≠ ascii '.')
      (l := entry.name)
    rw [← front] at split
    have back := List.append_cancel_left (split.trans whole)
    unfold filefilter
    rw [back]
    decide
  · unfold loadLineApp Entry.filename
    dsimp only
    rw [← front, if_neg, if_neg (by omega)]
    rw [List.isEmpty_iff]
    exact some

/-- A file that is not left out and is no key file has a name that is refused. -/
theorem loadLineApp_of_keyApp {entry : Entry} (unnamed : keyApp entry.name = none)
    (kept : filefilter entry.name = false) : ∃ err, loadLineApp entry.filename = .error err := by
  cases read : loadLineApp entry.filename with
  | error err => exact ⟨err, rfl⟩
  | ok app =>
      unfold loadLineApp Entry.filename at read
      dsimp only at read
      split at read
      · cases read
      · rename_i some
        split at read
        · cases read
        · rename_i short
          have back : (entry.name.dropWhile fun byte => byte ≠ ascii '.') = keySuffix := by
            unfold filefilter at kept
            exact of_not_not fun other => absurd (kept.symm.trans (decide_eq_true other)) (by decide)
          have whole : entry.name =
              (entry.name.takeWhile fun byte => byte ≠ ascii '.') ++ keySuffix := by
            rw [← back]
            exact List.takeWhile_append_dropWhile.symm
          unfold keyApp at unnamed
          dsimp only at unnamed
          rw [if_pos ⟨whole, fun none => some (List.isEmpty_iff.mpr none), by omega⟩] at unnamed
          cases unnamed

theorem isDirSelf_of_keyApp {filename : List UInt8} (named : keyApp filename = some app) :
    (isDirSelf filename || isDirFather filename) = false := by
  obtain ⟨whole, -, -, -⟩ := keyApp_eq_some_iff.mp named
  have long : 4 ≤ filename.length := by
    rw [whole, List.length_append]
    exact Nat.le_add_left 4 _
  rw [Bool.or_eq_false_iff]
  unfold isDirSelf isDirFather
  rw [decide_eq_false_iff_not, decide_eq_false_iff_not]
  constructor
  · rintro rfl
    exact absurd long (by decide)
  · rintro rfl
    exact absurd long (by decide)

variable {isDir : Sfile.Name → Bool} {entries : List Entry} {entry : Entry} {supply : List Name}
  {scanDir : Table → Int × Table} {err : Int}

theorem find?_entry (distinct : (entries.map Entry.name).Nodup) (member : entry ∈ entries) :
    (entries.find? fun other => other.name = entry.name) = some entry := by
  cases found : entries.find? fun other => other.name = entry.name with
  | none =>
      have apart := List.find?_eq_none.mp found entry member
      rw [decide_eq_true_eq] at apart
      exact absurd rfl apart
  | some other =>
      have same : other.name = entry.name := by
        have holds := List.find?_some found
        rw [decide_eq_true_eq] at holds
        exact holds
      rw [List.inj_on_of_nodup_map distinct (List.mem_of_find?_eq_some found) member same]

/-- A file that is not left out is handled. -/
theorem scanFile_loader (distinct : (entries.map Entry.name).Nodup) (member : entry ∈ entries)
    (kept : filefilter entry.name = false) {table' : Table}
    (handled : handlePieces (lineHandle width entry.filename) (pieces osLineLen entry.content) table =
      (none, table')) :
    scanFile (loader width isDir entries) appkeyPath entry.name err table = .again (err, table') := by
  have ignored : (loader width isDir entries).ignores appkeyPath entry.name = false := kept
  have found : (loader width isDir entries).fileHandle table appkeyPath entry.name =
      (none, table') := by
    unfold loader
    dsimp only
    rw [find?_entry distinct member]
    exact handled
  unfold scanFile
  rw [ignored, if_neg Bool.false_ne_true, found]

/-- The scan of a file that is no key file changes nothing. -/
theorem scanEntry_of_unnamed (distinct : (entries.map Entry.name).Nodup) (member : entry ∈ entries)
    (unnamed : keyApp entry.name = none) :
    scanEntry (loader width isDir entries) false appkeyPath scanDir entry.name err table =
      .again (err, table) := by
  unfold scanEntry
  split
  · rfl
  · split
    · rfl
    · cases kept : filefilter entry.name with
      | true =>
          have ignored : (loader width isDir entries).ignores appkeyPath entry.name = true := kept
          unfold scanFile
          rw [if_pos ignored]
      | false =>
          obtain ⟨code, refused⟩ := loadLineApp_of_keyApp unnamed kept
          exact scanFile_loader distinct member kept (handlePieces_refused refused _ _)

/-- The scan of a key file leaves what its pieces set last. -/
theorem scanEntry_of_named (distinct : (entries.map Entry.name).Nodup) (member : entry ∈ entries)
    (named : keyApp entry.name = some app) (enough : supply.dedup.length ≤ limit)
    (sets : ∀ setting ∈ readSettings width isDir entry, (app, setting.1) ∈ supply)
    (holds : Holds limit table dict) (within : ∀ name ∈ dict.names, name ∈ supply) :
    ∃ table' dict', scanEntry (loader width isDir entries) false appkeyPath scanDir entry.name err
        table = .again (err, table') ∧
      Holds limit table' dict' ∧ (∀ name ∈ dict'.names, name ∈ supply) ∧
      ∀ name, valueOf table' name =
        if app = name.1 then (lastFor name.2 (readSettings width isDir entry)).or (valueOf table name)
        else valueOf table name := by
  obtain ⟨kept, accepted⟩ := filefilter_of_keyApp named
  have lookup : (loader width isDir entries).isDir entry.name = isDir entry.name := rfl
  unfold scanEntry
  unfold readSettings at sets ⊢
  rw [isDirSelf_of_keyApp named, if_neg Bool.false_ne_true, lookup]
  cases skipped : isDir entry.name with
  | true =>
      refine ⟨table, dict, rfl, holds, within, fun name => ?_⟩
      split
      · rfl
      · rfl
  | false =>
      rw [skipped] at sets
      obtain ⟨table', dict', handled, later⟩ := handlePieces_takes accepted
        (fun piece inside => (length_le_of_mem_readPieces inside).trans (by decide)) enough sets holds
        within
      exact ⟨table', dict', scanFile_loader distinct member kept handled, later⟩

/-- What the scan of some of the files leaves. -/
theorem scanEntries_takes (distinct : (entries.map Entry.name).Nodup)
    (enough : supply.dedup.length ≤ limit) {todo : List Entry} (rest : todo.Sublist entries)
    (sets : ∀ entry ∈ todo, ∀ name ∈ readNames width isDir entry, name ∈ supply)
    (holds : Holds limit table dict) (within : ∀ name ∈ dict.names, name ∈ supply) :
    ∃ table', scanEntries (loader width isDir entries) false appkeyPath scanDir
        (todo.map Entry.name) (err, table) = (err, table') ∧
      (∀ entry ∈ todo, ∀ app, keyApp entry.name = some app → ∀ key, valueOf table' (app, key) =
        (lastFor key (readSettings width isDir entry)).or (valueOf table (app, key))) ∧
      ∀ app, (∀ entry ∈ todo, keyApp entry.name ≠ some app) → ∀ key,
        valueOf table' (app, key) = valueOf table (app, key) := by
  induction todo generalizing table dict with
  | nil =>
      exact ⟨table, rfl, fun _ member => absurd member List.not_mem_nil, fun _ _ _ => rfl⟩
  | cons entry todo ih =>
      have member : entry ∈ entries := rest.subset (List.mem_cons_self ..)
      have apart : ∀ other ∈ todo, other.name ≠ entry.name := by
        intro other later same
        have names := (rest.map Entry.name).nodup distinct
        rw [List.map_cons, List.nodup_cons] at names
        exact names.1 (same ▸ List.mem_map_of_mem later)
      have sets' := fun other inside => sets other (List.mem_cons_of_mem entry inside)
      rw [List.map_cons, scanEntries]
      cases named : keyApp entry.name with
      | none =>
          obtain ⟨last, done, own, other⟩ := ih (List.sublist_of_cons_sublist rest) sets' holds within
          rw [scanEntry_of_unnamed distinct member named]
          refine ⟨last, done, fun entry' inside app given => ?_, fun app none => ?_⟩
          · rcases List.mem_cons.mp inside with rfl | later
            · rw [named] at given
              cases given
            · exact own entry' later app given
          · exact other app fun entry' later => none entry' (List.mem_cons_of_mem _ later)
      | some app =>
          have sets₁ : ∀ setting ∈ readSettings width isDir entry, (app, setting.1) ∈ supply := by
            intro setting inside
            refine sets entry (List.mem_cons_self ..) _ ?_
            unfold readNames
            rw [named]
            exact List.mem_flatMap.mpr ⟨app, List.mem_singleton_self app, List.mem_map_of_mem inside⟩
          obtain ⟨table₁, dict₁, scanned, holds₁, within₁, values⟩ :=
            @scanEntry_of_named width app limit table dict isDir entries entry supply scanDir err
              distinct member named enough sets₁ holds within
          obtain ⟨last, done, own, other⟩ := ih (List.sublist_of_cons_sublist rest) sets' holds₁ within₁
          rw [scanned]
          have same : ∀ entry' ∈ todo, keyApp entry'.name ≠ some app := by
            intro entry' later given
            apply apart entry' later
            rw [(keyApp_eq_some_iff.mp given).1, (keyApp_eq_some_iff.mp named).1]
          refine ⟨last, done, fun entry' inside app' given key => ?_, fun app' none key => ?_⟩
          · rcases List.mem_cons.mp inside with rfl | later
            · obtain rfl := Option.some.inj (named.symm.trans given)
              rw [other _ same, values, if_pos rfl]
            · rw [own entry' later app' given, values, if_neg]
              rintro rfl
              exact same entry' later given
          · rw [other app' (fun entry' later => none entry' (List.mem_cons_of_mem _ later)), values,
              if_neg]
            rintro rfl
            exact none entry (List.mem_cons_self ..) named

/-- What `load` leaves, where there is room for the keys that are set. -/
theorem load_takes (distinct : (entries.map Entry.name).Nodup) (holds : Holds limit table dict)
    (room : (dict.names ++ entries.flatMap (readNames width isDir)).dedup.length ≤ limit) :
    (∀ entry ∈ entries, ∀ app, keyApp entry.name = some app → ∀ key,
      valueOf (load width isDir entries table).2 (app, key) =
        (lastFor key (readSettings width isDir entry)).or (valueOf table (app, key))) ∧
      ∀ app, (∀ entry ∈ entries, keyApp entry.name ≠ some app) → ∀ key,
        valueOf (load width isDir entries table).2 (app, key) = valueOf table (app, key) := by
  obtain ⟨last, done, values⟩ := @scanEntries_takes width limit table dict isDir entries _
    (sfscanDir (loader width isDir entries) false appkeyPath
      ([ascii '.'] :: [ascii '.', ascii '.'] :: entries.map Entry.name) 0) 0 distinct room entries
    (List.Sublist.refl _)
    (fun entry member name inside =>
      List.mem_append_right _ (List.mem_flatMap.mpr ⟨entry, member, inside⟩)) holds
    (fun name member => List.mem_append_left _ member)
  have ran : sfscanDir (loader width isDir entries) false appkeyPath
      ([ascii '.'] :: [ascii '.', ascii '.'] :: entries.map Entry.name) (0 + 1) table = (0, last) := by
    rw [sfscanDir]
    exact done
  have same : (load width isDir entries table).2 = last := congrArg Prod.snd ran
  rw [same]
  exact values

/-- The last pieces and the last lines agree on every key. -/
def SameLast (width : Nat) (isDir : Sfile.Name → Bool) (entries : List Entry) : Prop :=
  ∀ entry ∈ entries, ∀ app, keyApp entry.name = some app → ∀ key,
    lastFor key (readSettings width isDir entry) = lastFor key (writtenSettings width entry)

theorem loadsAsWritten_of_sameLast (distinct : (entries.map Entry.name).Nodup)
    (same : SameLast width isDir entries) : LoadsAsWritten width isDir entries := by
  intro limit table dict holds room
  obtain ⟨own, other⟩ := load_takes distinct holds room
  refine ⟨fun entry member app named key => ?_, other⟩
  rw [own entry member app named key, same entry member app named key]

/-- Files load as they are written exactly if, in every file and for every key, the last piece that
sets it, of those that are read, sets what the last line does. -/
theorem loadsAsWritten_iff (distinct : (entries.map Entry.name).Nodup) :
    LoadsAsWritten width isDir entries ↔ SameLast width isDir entries := by
  constructor
  · intro loads entry member app named key
    -- nothing is in an empty table, so that what is found there has been set
    have room : (Dict.init.names ++ entries.flatMap (readNames width isDir)).dedup.length ≤
        (entries.flatMap (readNames width isDir)).dedup.length := Nat.le_refl _
    have holds := holds_init (entries.flatMap (readNames width isDir)).dedup.length
    have given := (loads _ _ _ holds room).set entry member app named key
    rw [(load_takes distinct holds room).1 entry member app named key] at given
    have empty : valueOf (init (entries.flatMap (readNames width isDir)).dedup.length) (app, key) =
        none := rfl
    rw [empty, Option.or_none, Option.or_none] at given
    exact given
  · exact loadsAsWritten_of_sameLast distinct

/-! ## Files that load as they are written -/

/-- A line that is read as one, with its newline, and has no more than a key and a number. -/
structure Plain (line : List UInt8) : Prop where
  short : line.length + 1 < osLineLen
  noNul : 0 ∉ line
  two : isNotes line = false → (words isSpace line).length ≤ 2
  names : ∀ var, words isSpace line = [akidDebugName, var] → var ≠ [ascii '*'] →
    strtok (ascii '|') var ≠ [] ∧ ∀ name ∈ strtok (ascii '|') var, syskeyDebugName name ≠ 0

theorem takenValue_eq_numberOf {var : List UInt8} (short : var.length ≤ osLineLen)
    (names : key = akidDebugName → var ≠ [ascii '*'] →
      strtok (ascii '|') var ≠ [] ∧ ∀ name ∈ strtok (ascii '|') var, syskeyDebugName name ≠ 0) :
    takenValue width key var = numberOf width key var := by
  unfold takenValue numberOf
  cases strtoul width var with
  | some value => rfl
  | none =>
      dsimp only
      by_cases sys : key = akidDebugName
      · rw [if_pos sys, if_pos sys]
        unfold syskeyValue
        by_cases all : var = [ascii '*']
        · rw [if_pos all, if_pos all]
        · rw [if_neg all, if_neg all, if_pos (names sys all)]
          unfold syskeyDebug
          rw [osStrlcpy_eq (by omega)]
      · rw [if_neg sys, if_neg sys]

/-- Texts with the same words say the same. -/
theorem taken_congr {text other : List UInt8} (noNul : 0 ∉ text) (noNul' : 0 ∉ other)
    (notes : isNotes text = isNotes other) (same : words isSpace text = words isSpace other) :
    taken width text = taken width other := by
  unfold taken
  rw [CStr.ofBuffer_eq noNul, CStr.ofBuffer_eq noNul']
  dsimp only
  rw [notes, same]

theorem Plain.taken_eq_written {line : List UInt8} (plain : Plain line) :
    taken width line = written width line := by
  have short := plain.short
  unfold taken written
  rw [CStr.ofBuffer_eq plain.noNul]
  dsimp only
  cases notes : isNotes line with
  | true => rw [if_pos rfl, if_pos (.inr rfl)]
  | false =>
      have two := plain.two notes
      rw [if_neg Bool.false_ne_true, if_neg (not_or_intro plain.noNul Bool.false_ne_true)]
      rcases split : words isSpace line with _ | ⟨key, _ | ⟨var, _ | ⟨third, rest⟩⟩⟩
      · rfl
      · rfl
      · have inside : var ∈ words isSpace line := by
          rw [split]
          exact List.mem_cons_of_mem _ (List.mem_singleton_self var)
        have fits := length_le_of_mem_words inside
        dsimp only
        rw [takenValue_eq_numberOf (by omega)]
        rintro rfl
        exact plain.names var split
      · rw [split] at two
        exact absurd two (by rw [List.length_cons, List.length_cons, List.length_cons]; omega)

/-- The newline behind a line makes no difference. -/
theorem Plain.taken_newline {line : List UInt8} (plain : Plain line) :
    taken width (line ++ [ascii '\n']) = written width line := by
  rw [← plain.taken_eq_written]
  refine taken_congr ?_ plain.noNul ?_ (alike_concat_gap (by decide) line).words
  · intro member
    rcases List.mem_append.mp member with inside | last
    · exact plain.noNul inside
    · exact absurd (List.mem_singleton.mp last) (by decide)
  · unfold isNotes
    rw [List.dropWhile_append]
    split
    · rename_i none
      rw [List.isEmpty_iff.mp none]
      rfl
    · rename_i some
      cases left : line.dropWhile isBlank with
      | nil => exact absurd (List.isEmpty_iff.mpr left) some
      | cons first later => rfl

theorem throughNewline_append {line : List UInt8} (rest : List UInt8) (last : ascii '\n' ∉ line) :
    throughNewline (line ++ ascii '\n' :: rest) = line ++ [ascii '\n'] := by
  induction line with
  | nil => rw [List.nil_append, throughNewline, if_pos rfl, List.nil_append]
  | cons byte line ih =>
      rw [List.mem_cons, not_or] at last
      rw [List.cons_append, throughNewline, if_neg (Ne.symm last.1), ih last.2, List.cons_append]

theorem throughNewline_self {line : List UInt8} (last : ascii '\n' ∉ line) :
    throughNewline line = line := by
  induction line with
  | nil => rfl
  | cons byte line ih =>
      rw [List.mem_cons, not_or] at last
      rw [throughNewline, if_neg (Ne.symm last.1), ih last.2]

/-- Plain lines are the pieces of their file. -/
theorem filterMap_readPieces {rounds : Nat} {content : List UInt8} (enough : content.length < rounds)
    (plain : ∀ line ∈ lines content, Plain line) :
    (readPieces osLineLen rounds content).filterMap (taken width) =
      (lines content).filterMap (written width) := by
  induction rounds generalizing content with
  | zero => exact absurd enough (Nat.not_lt_zero _)
  | succ rounds ih =>
      unfold lines at plain ⊢
      by_cases more : ascii '\n' ∈ content
      · obtain ⟨line, rest, rfl, last⟩ := List.eq_append_cons_of_mem more
        rw [List.splitOn_append_cons_self_of_not_mem last] at plain ⊢
        have this := plain line (List.mem_cons_self ..)
        have short := this.short
        have read : fgets osLineLen (line ++ ascii '\n' :: rest) = line ++ [ascii '\n'] := by
          have window : (line ++ ascii '\n' :: rest).take (osLineLen - 1) =
              line ++ ascii '\n' :: rest.take (osLineLen - 1 - line.length - 1) := by
            rw [List.take_append, List.take_of_length_le (by omega)]
            congr 1
            obtain ⟨room, eq⟩ : ∃ room, osLineLen - 1 - line.length = room + 1 :=
              ⟨osLineLen - 1 - line.length - 1, by omega⟩
            rw [eq, List.take_succ_cons, Nat.add_sub_cancel]
          rw [fgets, window, throughNewline_append _ last]
        have goesOn : feof osLineLen (line ++ ascii '\n' :: rest) = false := by
          unfold feof
          rw [decide_eq_false (not_not_intro more), Bool.and_false]
        have rest_ : (line ++ ascii '\n' :: rest).drop (line ++ [ascii '\n']).length = rest := by
          have split : line ++ ascii '\n' :: rest = (line ++ [ascii '\n']) ++ rest := by
            rw [List.append_assoc, List.singleton_append]
          rw [split, List.drop_left]
        rw [List.length_append, List.length_cons] at enough
        rw [readPieces, read, goesOn, if_neg Bool.false_ne_true, rest_, List.filterMap_cons,
          List.filterMap_cons, this.taken_newline,
          ih (by omega) fun other inside => plain other (List.mem_cons_of_mem _ inside)]
        rfl
      · rw [List.splitOn_eq_singleton more] at plain ⊢
        have this := plain content (List.mem_singleton_self content)
        have short := this.short
        have read : fgets osLineLen content = content := by
          rw [fgets, List.take_of_length_le (by omega), throughNewline_self more]
        have ended : feof osLineLen content = true := by
          unfold feof
          rw [decide_eq_true more, decide_eq_true (by omega)]
          rfl
        rw [readPieces, read, ended, if_pos rfl, List.filterMap_cons, List.filterMap_cons,
          this.taken_eq_written]
        rfl

/-- Files of plain lines load as they are written, where no directory in the working directory has
the name of a key file. -/
theorem loadsAsWritten_of_plain (distinct : (entries.map Entry.name).Nodup)
    (plain : ∀ entry ∈ entries, ∀ app, keyApp entry.name = some app →
      isDir entry.name = false ∧ ∀ line ∈ lines entry.content, Plain line) :
    LoadsAsWritten width isDir entries := by
  refine loadsAsWritten_of_sameLast distinct fun entry member app named key => ?_
  obtain ⟨here, all⟩ := plain entry member app named
  unfold readSettings writtenSettings pieces
  rw [here, if_neg Bool.false_ne_true, filterMap_readPieces (Nat.lt_succ_self _) all]

/-- A comment whose 1023rd byte and those behind it are those of a key and a number. -/
def longEntry : Entry where
  name := ['a', '.', 'k', 'e', 'y'].map ascii
  noNul := by decide
  short := by decide
  content := ascii '#' :: List.replicate 1021 (ascii 'x') ++ ['k', ' ', '5', '\n'].map ascii

/-- The end of a long comment sets a key. -/
theorem not_loadsAsWritten :
    ¬∀ width isDir (entries : List Entry), (entries.map Entry.name).Nodup →
      LoadsAsWritten width isDir entries := by
  intro all
  have loads := all 32 (fun _ => false) [longEntry] (List.nodup_singleton _) 1 (init 1) Dict.init
    (holds_init 1) (by decide +kernel)
  have given := loads.set longEntry (List.mem_singleton_self _) [ascii 'a'] (by decide +kernel)
    [ascii 'k']
  revert given
  decide +kernel

/-- A key file with a key and a comment. -/
def shortEntry : Entry where
  name := ['a', '.', 'k', 'e', 'y'].map ascii
  noNul := by decide
  short := by decide
  content := ['k', ' ', '5', '\n', '#', ' ', '6', '\n'].map ascii

/-- It loads as it is written. -/
theorem loadsAsWritten_iff_short : LoadsAsWritten 32 (fun _ => false) [shortEntry] := by
  have distinct : ([shortEntry].map Entry.name).Nodup := List.nodup_singleton _
  refine (loadsAsWritten_iff distinct).mpr fun entry member app _ key => ?_
  have same : readSettings 32 (fun _ => false) shortEntry = writtenSettings 32 shortEntry := by
    decide +kernel
  rw [List.mem_singleton.mp member, same]

end Trunk.Libappkey
