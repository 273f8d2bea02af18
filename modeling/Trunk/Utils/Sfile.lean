import Mathlib.Data.List.DropRight
import Trunk.Foundation.Loop
import Trunk.Utils.CString

/-! # Files and directories, line by line

The model of the scanners of `sfile.h`, over any state of their handlers. A file is read by pieces,
as `fgets` fills its buffer, and every piece is normalised and handled. A directory is read entry by
entry. The entries are known by `readdir`, the rest of the file system by what `stat` says about a
bare name, which it looks up in the working directory. A directory can be opened as often as there
are descriptors left.
-/

namespace Trunk.Sfile

open CString Loop

/-- The name of a file, without its path. -/
abbrev Name := List UInt8

/-- A path, by the names in it. -/
abbrev Path := List Name

/-! ## Files -/

/-- What stands before the next newline, with the newline. -/
def throughNewline : List UInt8 → List UInt8
  | [] => []
  | byte :: rest => if byte = ascii '\n' then [byte] else byte :: throughNewline rest

/-- What `fgets` reads with a `size`. -/
def fgets (size : Nat) (stream : List UInt8) : List UInt8 := throughNewline (stream.take (size - 1))

/-- `feof` behind `fgets`: it has run into the end of the file. -/
def feof (size : Nat) (stream : List UInt8) : Bool :=
  stream.length < size - 1 && ascii '\n' ∉ stream

/-- The pieces that are read while there is no `feof`, in a number of rounds at most. -/
def readPieces (size : Nat) : Nat → List UInt8 → List (List UInt8)
  | 0, _ => []
  | rounds + 1, stream =>
      let line := fgets size stream
      if feof size stream then [line]
      else line :: readPieces size rounds (stream.drop line.length)

/-- The pieces of a file. -/
def pieces (size : Nat) (content : List UInt8) : List (List UInt8) :=
  readPieces size (content.length + 1) content

/-- `__char_is` of `__blanks`. -/
def isBlank (byte : UInt8) : Bool :=
  byte = ascii '\t' || byte = ascii ' ' || byte = ascii '\r' || byte = ascii '\n'

/-- `__string_strim_right`. -/
def stringStrimRight (text : List UInt8) : List UInt8 := text.rdropWhile isBlank

/-- `__string_strim_left`. -/
def stringStrimLeft (text : List UInt8) : List UInt8 := text.dropWhile isBlank

/-- `__string_strim_both_ends`. -/
def stringStrimBothEnds (text : List UInt8) : List UInt8 := stringStrimLeft (stringStrimRight text)

/-- `__string_replace`. -/
def stringReplace (text : List UInt8) (new : UInt8) : List UInt8 :=
  text.map fun byte => if isBlank byte then new else byte

/-- The rounds of `__string_reduce`, with the blank that is written but not kept yet. -/
def reduceFrom : Option UInt8 → List UInt8 → List UInt8
  | _, [] => []
  | pending, byte :: rest =>
      if isBlank byte then reduceFrom (some byte) rest
      else pending.toList ++ byte :: reduceFrom none rest

/-- `__string_reduce`. -/
def stringReduce (text : List UInt8) : List UInt8 := reduceFrom none text

/-- `__is_blank_line`. -/
def isBlankLine (line : List UInt8) : Bool :=
  line.head? = none || line.head? = some (ascii '\n') ||
    (line.head? = some (ascii '\r') && line.tail.head? = some (ascii '\n'))

/-- `__is_notes_line_deft`. -/
def isNotesLineDeft (line : List UInt8) : Bool := line.head? = some (ascii '#')

/-- The line that is made of a piece. -/
def normalise (piece : List UInt8) : List UInt8 :=
  stringReduce (stringReplace (stringStrimBothEnds (CStr.ofBuffer piece).bytes) (ascii ' '))

variable {State : Type}

/-- The lines of the pieces are handled one after the other, until the handler stops with a
result. -/
def handlePieces (lineHandle : State → List UInt8 → Option Int × State) :
    List (List UInt8) → State → Option Int × State
  | [], state => (none, state)
  | piece :: rest, state =>
      let line := normalise piece
      if isBlankLine line then handlePieces lineHandle rest state
      else if isNotesLineDeft line then handlePieces lineHandle rest state
      else
        match lineHandle state line with
        | (some result, state) => (some result, state)
        | (none, state) => handlePieces lineHandle rest state

/-- `os_sfscan_file_handle`, of a file that is there. -/
def sfscanFileHandle (size : Nat) (content : List UInt8)
    (lineHandle : State → List UInt8 → Option Int × State) (state : State) : Option Int × State :=
  handlePieces lineHandle (pieces size content) state

/-! ## Directories -/

/-- What a scan calls: `stat`, the filter, which says what is left out, and the handler, which may
stop the scan with a result. -/
structure Scanner (State : Type) where
  isDir : Name → Bool
  fileFilter : Option (Path → Name → Bool)
  fileHandle : State → Path → Name → Option Int × State

/-- `EMFILE`, as `errno` has it. -/
def emfile : Int := 24

/-- `os_sfcan_is_dir_self`. -/
def isDirSelf (filename : Name) : Bool := filename = [ascii '.']

/-- `os_sfcan_is_dir_father`. -/
def isDirFather (filename : Name) : Bool := filename = [ascii '.', ascii '.']

section Scan

variable (scanner : Scanner State) (recur : Bool) (path : Path)

/-- The filter leaves a file out. -/
def Scanner.ignores (filename : Name) : Bool :=
  scanner.fileFilter.any fun fileFilter => fileFilter path filename

/-- The end of a round: the filter and the handler. -/
def scanFile (filename : Name) (err : Int) (state : State) : Round (Int × State) (Int × State) :=
  if scanner.ignores path filename then .again (err, state)
  else
    match scanner.fileHandle state path filename with
    | (some result, state) => .done (result, state)
    | (none, state) => .again (err, state)

/-- A round of the loop over `readdir`, with the recursive call. -/
def scanEntry (scanDir : State → Int × State) (filename : Name) (err : Int) (state : State) :
    Round (Int × State) (Int × State) :=
  if isDirSelf filename || isDirFather filename then .again (err, state)
  else if scanner.isDir filename then
    if recur then
      let (err, state) := scanDir state
      if err < 0 then .done (err, state) else scanFile scanner path filename err state
    else .again (err, state)
  else scanFile scanner path filename err state

/-- The loop over `readdir`. -/
def scanEntries (scanDir : State → Int × State) : List Name → Int × State → Int × State
  | [], last => last
  | filename :: rest, (err, state) =>
      match scanEntry scanner recur path scanDir filename err state with
      | .again next => scanEntries scanDir rest next
      | .done last => last

/-- `__os_sfscan_dir`, of a directory with these entries, while a number of directories can still be
opened. The recursive call is for the same path. -/
def sfscanDir (entries : List Name) : Nat → State → Int × State
  | 0, state => (emfile, state)
  | fds + 1, state => scanEntries scanner recur path (sfscanDir entries fds) entries (0, state)

end Scan

end Trunk.Sfile
