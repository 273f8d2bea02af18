import Trunk.Foundation.Network
import Trunk.Luci.Template

/-! # Catalogues of translations

The model of `template_lmo.c`: an archive is a mapped file with the texts of the translations, an
index behind them that is sorted by the hashes of the keys, and the offset of the index as its last
word. All words are in network order. An access outside the mapping is a fault.

Whether `char` is signed, and the width of `size_t`, are parameters.
-/

namespace Trunk.Luci

open CString Loop Network

/-- A `char` as a word. -/
def charWord (signed : Bool) (c : UInt8) : UInt32 :=
  if signed && 128 ≤ c then c.toUInt32 + 0xffffff00 else c.toUInt32

/-- `sfh_get16`. -/
def sfhGet16 (first second : UInt8) : UInt32 := (second.toUInt32 <<< 8) + first.toUInt32

/-- `sfh_hash`, the main loop: the hash, and the bytes that are left. -/
def sfhMain (hash : UInt32) : List UInt8 → UInt32 × List UInt8
  | a :: b :: c :: d :: data =>
      let hash := hash + sfhGet16 a b
      let tmp := (sfhGet16 c d <<< 11) ^^^ hash
      let hash := (hash <<< 16) ^^^ tmp
      sfhMain (hash + (hash >>> 11)) data
  | data => (hash, data)

/-- `sfh_hash`, the end cases. -/
def sfhEnd (signed : Bool) (hash : UInt32) : List UInt8 → UInt32
  | [a, b, c] =>
      let hash := hash + sfhGet16 a b
      let hash := hash ^^^ (hash <<< 16)
      let hash := hash ^^^ (charWord signed c <<< 18)
      hash + (hash >>> 11)
  | [a, b] =>
      let hash := hash + sfhGet16 a b
      let hash := hash ^^^ (hash <<< 11)
      hash + (hash >>> 17)
  | [a] =>
      let hash := hash + charWord signed a
      let hash := hash ^^^ (hash <<< 10)
      hash + (hash >>> 1)
  | _ => hash

/-- `sfh_hash`. -/
def sfhHash (signed : Bool) (data : List UInt8) : UInt32 :=
  if data = [] then 0
  else
    let (hash, rest) := sfhMain (UInt32.ofNat data.length) data
    let hash := sfhEnd signed hash rest
    let hash := hash ^^^ (hash <<< 3)
    let hash := hash + (hash >>> 5)
    let hash := hash ^^^ (hash <<< 4)
    let hash := hash + (hash >>> 17)
    let hash := hash ^^^ (hash <<< 25)
    hash + (hash >>> 6)

/-- `lmo_canon_hash`, the loop over the bytes of a key. -/
def canonFrom (prev : UInt8) : List UInt8 → List UInt8
  | [] => []
  | c :: rest =>
      if isSpace c then
        if isSpace prev then canonFrom c rest else ascii ' ' :: canonFrom c rest
      else c :: canonFrom c rest

/-- The key that `lmo_canon_hash` hashes. -/
def canon (str : List UInt8) : List UInt8 :=
  let res := canonFrom (ascii ' ') str
  if res.getLast?.any isSpace then res.dropLast else res

/-- `lmo_canon_hash`. -/
def lmoCanonHash (signed : Bool) (str : List UInt8) : UInt32 :=
  if 4096 ≤ str.length then 0 else sfhHash signed (canon str)

/-- `struct lmo_archive`. -/
structure Archive where
  length : Nat
  size : Nat
  index : Nat
  mmap : List UInt8
  deriving DecidableEq, Repr

/-- `ntohl` of a word of the mapping. -/
def loadWord (mmap : List UInt8) (place : Nat) : Except Fault Nat :=
  if place + 4 ≤ mmap.length then .ok (number ((mmap.drop place).take 4)) else .error .outside

/-- `lmo_open` of a file that exists. Nothing is mapped of an empty one. -/
def lmoOpen (width : Nat) (file : List UInt8) : Except Fault (Option Archive) :=
  let size := file.length % 2 ^ 32
  if size = 0 then .ok none
  else if size < 4 then .error .outside
  else do
    let idxOffset ← loadWord file (size - 4)
    if size ≤ idxOffset then return none
    else
      return some {
        length := (2 ^ width + size - idxOffset - 4) % 2 ^ width / 16 % 2 ^ 32
        size := size
        index := idxOffset
        mmap := file.take size }

/-- The bounds of the search. -/
structure Span where
  l : Nat
  r : Nat
  deriving DecidableEq, Repr

/-- `lmo_find_entry`, a round of the search. -/
def findRound (ar : Archive) (hash : Nat) (span : Span) : Except Fault (Round Span (Option Nat)) :=
  let m := span.l + (span.r - span.l) / 2
  if span.r < span.l then .ok (.done none)
  else do
    let k ← loadWord ar.mmap (ar.index + 16 * m)
    if k = hash then return .done (some m)
    else if hash < k then
      if m = 0 then return .done none else return .again { span with r := m - 1 }
    else return .again { span with l := m + 1 }

/-- `lmo_find_entry`. -/
def lmoFindEntry (ar : Archive) (hash : UInt32) : Except Fault (Option Nat) :=
  loop (findRound ar hash.toNat) (fun span => span.r + 2 - span.l) .outside
    { l := 0, r := (ar.length + 2 ^ 32 - 1) % 2 ^ 32 }

/-- The translation of an entry. -/
def entryText (ar : Archive) (m : Nat) : Except Fault (List UInt8) := do
  let offset ← loadWord ar.mmap (ar.index + 16 * m + 8)
  let length ← loadWord ar.mmap (ar.index + 16 * m + 12)
  if offset + length ≤ ar.mmap.length then return (ar.mmap.drop offset).take length
  else .error .outside

/-- `lmo_translate`, the loop over the archives. -/
def findArchives (hash : UInt32) : List Archive → Except Fault Lookup
  | [] => .ok .missing
  | ar :: archives => do
      match ← lmoFindEntry ar hash with
      | some m => return .found (← entryText ar m)
      | none => findArchives hash archives

/-- `lmo_translate`. -/
def lmoTranslate (signed : Bool) (active : Option (List Archive)) (key : List UInt8) :
    Except Fault Lookup :=
  match active with
  | none => .ok .unloaded
  | some archives => findArchives (lmoCanonHash signed key) archives

end Trunk.Luci
