import Trunk.Luci.Utils

/-! # The template reader

The model of `template_parser.c`: a template is cut at `<%` and `%>` into texts and tags, and each
call of the reader takes the next of them while it returns the code for the one before. The markers
of a tag are kept in the parser and are read one call later. A length that is negative is a fault of
`memcpy`.

The byte behind a template is read as zero. Lines, which only the texts of errors have, are left
out; translations are a parameter.
-/

namespace Trunk.Luci

open CString Loop

/-- The types of chunks. -/
inductive ChunkType where
  | init
  | text
  | comment
  | expr
  | include
  | i18n
  | i18nRaw
  | code
  | eof
  deriving DecidableEq, Repr

/-- `struct template_chunk`. -/
structure Chunk where
  s : Nat
  e : Nat
  type : ChunkType
  deriving DecidableEq, Repr

/-- `struct template_parser`. -/
structure Parser where
  off : Nat
  inExpr : Bool
  stripBefore : Bool
  stripAfter : Bool
  prvChunk : Chunk
  curChunk : Chunk
  deriving DecidableEq, Repr

/-- What `lmo_translate` finds. -/
inductive Lookup where
  | found (tr : List UInt8)
  | missing
  | unloaded
  deriving DecidableEq, Repr

/-- The bytes of a literal. -/
def bytesOf (literal : String) : List UInt8 := literal.toList.map ascii

/-- `gen_code`, the leading code. -/
def genHead : ChunkType → List UInt8
  | .text => bytesOf "write(\""
  | .expr => bytesOf "write(tostring("
  | .include => bytesOf "include(\""
  | .i18n => bytesOf "write(\""
  | .i18nRaw => bytesOf "write(\""
  | _ => []

/-- `gen_code`, the trailing code. -/
def genTail : ChunkType → List UInt8
  | .text => bytesOf "\")"
  | .expr => bytesOf " or \"\"))"
  | .include => bytesOf "\")"
  | .i18n => bytesOf "\")"
  | .i18nRaw => bytesOf "\")"
  | .code => bytesOf " "
  | _ => []

/-- `strfind`. -/
def strfind (needle : List UInt8) : List UInt8 → Option Nat
  | [] => none
  | c :: rest =>
      if needle.isPrefixOf (c :: rest) then some 0 else (strfind needle rest).map (· + 1)

/-- A byte of a template, or the one behind it. -/
def byteOf (data : List UInt8) (index : Nat) : UInt8 := data[index]?.getD 0

/-- A blank or a tab. -/
def isBlank (c : UInt8) : Bool := c = ascii ' ' || c = ascii '\t'

/-- A pointer goes ahead over bytes of a kind, by a number of them at most. -/
def skipAhead (data : List UInt8) (test : UInt8 → Bool) : Nat → Nat → Nat
  | 0, s => s
  | more + 1, s => if test (byteOf data s) then skipAhead data test more (s + 1) else s

/-- A pointer goes back over blanks that it points to, to a place at most. -/
def skipBack (data : List UInt8) (s : Nat) : Nat → Nat
  | 0 => 0
  | e + 1 => if s ≤ e + 1 && isBlank (byteOf data (e + 1)) then skipBack data s e else e + 1

/-- A pointer goes back over white space in front of it, to a place at most. -/
def trimBack (data : List UInt8) (s : Nat) : Nat → Nat
  | 0 => 0
  | e + 1 => if s < e + 1 && isSpace (byteOf data e) then trimBack data s e else e + 1

/-- `template_text`. -/
def templateText (data : List UInt8) (parser : Parser) (e : Nat) : Parser :=
  let s := parser.off
  if s < data.length then
    let start := if parser.stripAfter then skipAhead data isSpace (e + 1 - s) s else s
    { parser with curChunk := { s := start, e := e, type := .text } }
  else { parser with curChunk := { s := s, e := e, type := .eof } }

/-- The type of a tag by its first byte, and the bytes that this takes. -/
def tagType (c : UInt8) : ChunkType × Nat :=
  if c = ascii '#' then (.comment, 1)
  else if c = ascii '+' then (.include, 1)
  else if c = ascii ':' then (.i18n, 1)
  else if c = ascii '_' then (.i18nRaw, 1)
  else if c = ascii '=' then (.expr, 1)
  else (.code, 0)

/-- `template_code`. -/
def templateCode (data : List UInt8) (parser : Parser) (e : Nat) : Parser :=
  let before := byteOf data parser.off = ascii '-'
  let s := if before then skipAhead data isBlank (e - parser.off) (parser.off + 1) else parser.off
  let after := byteOf data (e - 1) = ascii '-'
  let last := if after then skipBack data s (e - 1) else e
  let kind := tagType (byteOf data s)
  { parser with stripBefore := before, stripAfter := after,
                curChunk := { s := s + kind.2, e := last, type := kind.1 } }

/-- The bytes of a chunk. -/
def chunkBytes (data : List UInt8) (c : Chunk) : Except Fault (List UInt8) :=
  if c.s ≤ c.e then .ok ((data.drop c.s).take (c.e - c.s)) else .error .outside

/-- `luastr_translate`. -/
def luastrTranslate (translate : List UInt8 → Lookup) (s : List UInt8) (escapeXml : Bool) :
    List UInt8 :=
  match translate s with
  | .found tr => luastrEscape [] tr escapeXml
  | .missing => luastrEscape [] s escapeXml
  | .unloaded => []

/-- The code between the leading and the trailing one. -/
def chunkBody (translate : List UInt8 → Lookup) (type : ChunkType) (s : List UInt8) : List UInt8 :=
  match type with
  | .text => luastrEscape [] s false
  | .expr => s
  | .include => luastrEscape [] s false
  | .i18n => luastrTranslate translate s true
  | .i18nRaw => luastrTranslate translate s false
  | .code => s
  | _ => []

/-- What a call of the reader returns: code, the sign of a tag without an end, or nothing. -/
inductive Answer where
  | piece (code : List UInt8)
  | unexpected
  | finished
  deriving DecidableEq, Repr

/-- The code of a chunk. -/
def formatChunk (translate : List UInt8 → Lookup) (data : List UInt8) (c : Chunk) :
    Except Fault Answer :=
  if c.s = c.e then .ok (if c.type = .eof then .finished else .piece (bytesOf " "))
  else do
    let s ← chunkBytes data c
    let code := genHead c.type ++ chunkBody translate c.type s ++ genTail c.type
    return .piece (if code = [] then bytesOf " " else code)

/-- The chunk before, without the white space that a marker takes from its end. -/
def strippedChunk (data : List UInt8) (parser : Parser) : Chunk :=
  if parser.stripBefore ∧ parser.prvChunk.type = .text then
    { parser.prvChunk with e := trimBack data parser.prvChunk.s parser.prvChunk.e }
  else parser.prvChunk

/-- `template_format_chunk`. -/
def templateFormatChunk (translate : List UInt8 → Lookup) (data : List UInt8) (parser : Parser) :
    Except Fault Answer :=
  formatChunk translate data (strippedChunk data parser)

/-- `template_reader`. -/
def templateReader (translate : List UInt8 → Lookup) (data : List UInt8) (parser : Parser) :
    Except Fault (Answer × Parser) :=
  let parser := { parser with prvChunk := parser.curChunk }
  if parser.inExpr then
    match strfind (bytesOf "%>") (data.drop parser.off) with
    | some found => do
        let tag := parser.off + found
        let parser := { templateCode data parser tag with off := tag + 2, inExpr := false }
        return (← templateFormatChunk translate data parser, parser)
    | none => .ok (.unexpected, templateCode data parser data.length)
  else
    match strfind (bytesOf "<%") (data.drop parser.off) with
    | some found => do
        let tag := parser.off + found
        let parser := { templateText data parser tag with off := tag + 2, inExpr := true }
        return (← templateFormatChunk translate data parser, parser)
    | none => do
        let parser := { templateText data parser data.length with off := data.length }
        return (← templateFormatChunk translate data parser, parser)

/-- `template_open` and `template_string`. -/
def templateOpen : Parser where
  off := 0
  inExpr := false
  stripBefore := false
  stripAfter := false
  prvChunk := { s := 0, e := 0, type := .init }
  curChunk := { s := 0, e := 0, type := .init }

/-- The parser, and the code that the reader has returned so far. -/
structure Load where
  parser : Parser
  code : List (List UInt8)
  deriving DecidableEq, Repr

/-- The code of a template, and whether a tag has no end. -/
structure Loaded where
  code : List (List UInt8)
  unexpected : Bool
  deriving DecidableEq, Repr

/-- A call of the reader. Lua reads no more after the sign of a tag without an end. -/
def loadRound (translate : List UInt8 → Lookup) (data : List UInt8) (load : Load) :
    Except Fault (Round Load Loaded) := do
  let (answer, parser) ← templateReader translate data load.parser
  match answer with
  | .piece code => return .again { parser := parser, code := load.code ++ [code] }
  | .unexpected => return .done { code := load.code, unexpected := true }
  | .finished => return .done { code := load.code, unexpected := false }

/-- The calls that are left at most. -/
def Load.size (data : List UInt8) (load : Load) : Nat :=
  2 * (data.length - load.parser.off) + (if load.parser.curChunk.type = .eof then 0 else 1) + 1

/-- The reader is called until it is finished. -/
def loadTemplate (translate : List UInt8 → Lookup) (data : List UInt8) : Except Fault Loaded :=
  loop (loadRound translate data) (Load.size data) .outside { parser := templateOpen, code := [] }

end Trunk.Luci
