import Trunk.Utils.CString
import Trunk.Utils.Errno

/-! # Application keys

The model of `appkey.c`: the table of keys in shared memory, the handles that name its
entries, and the loading of one line of a key file. `ak_count` is the length of the
list of entries, and a pointer to an entry is its index. A handle packs the index and
the byte offset of an entry into 16 bits each.
-/

namespace Trunk.Libappkey

open CString

/-- `__APP_NAMELEN`. -/
def appNamelen : Nat := 31

/-- `__APP_KEY_NAMELEN`. -/
def appKeyNamelen : Nat := 31

/-- `OS_LINE_LEN`. -/
def osLineLen : Nat := 1023

/-- `sizeof(struct appkey_hdr)`. -/
def headerSize : Nat := 16

/-- `sizeof(struct appkey)`. -/
def appkeySize : Nat := 68

/-- A file name or a line of a file, as long as the buffers it is read into. -/
structure Line where
  bytes : List UInt8
  noNul : 0 ∉ bytes
  fits : bytes.length ≤ osLineLen

/-- `struct appkey`. -/
structure Appkey where
  app : List UInt8
  key : List UInt8
  value : UInt32
  deriving DecidableEq, Repr

/-- The table after `struct appkey_hdr`, and the library's own debug key. -/
structure Table where
  keys : List Appkey
  limit : Nat
  debug : UInt32
  deriving DecidableEq, Repr

/-- `appkey_t`, as `union appkey_u` splits it. -/
structure AppkeyT where
  idx : UInt16
  offset : UInt16
  deriving DecidableEq, Repr

/-- `INVALID_APPKEY`. -/
def invalidAppkey : AppkeyT := ⟨0, 0⟩

/-- `ak_make`. -/
def akMake (idx offset : Nat) : AppkeyT := ⟨UInt16.ofNat idx, UInt16.ofNat offset⟩

/-- `getoffset`: the distance of an entry from the header. -/
def getoffset (index : Nat) : Nat := headerSize + appkeySize * index

/-- `getbyid`. -/
def getbyid (table : Table) (akid : AppkeyT) : Option Nat :=
  if akid.idx.toNat < table.keys.length then
    if akid.offset.toNat = getoffset akid.idx.toNat then some akid.idx.toNat else none
  else none

/-- `getbyname`. -/
def getbyname (table : Table) (app key : List UInt8) : Option Nat :=
  table.keys.findIdx? fun ak =>
    strncmpEq (1 + appNamelen) ak.app app && strncmpEq (1 + appKeyNamelen) ak.key key

/-- `ak_new`: the index of the new entry. Shared memory starts out zeroed. -/
def akNew (table : Table) (app key : List UInt8) : Option (Nat × Table) :=
  if table.keys.length < table.limit then
    some (table.keys.length, { table with
      keys := table.keys ++
        [⟨osStrlcpy app (1 + appNamelen), osStrlcpy key (1 + appKeyNamelen), 0⟩] })
  else none

/-- `ak->value = value`. -/
def setValue (table : Table) (index : Nat) (value : UInt32) : Table :=
  { table with keys := table.keys.modify index fun ak => { ak with value := value } }

/-- `__appkey_getbyname`. The assert on a `NULL` argument is not told apart. -/
def appkeyGetbyname (table : Table) (app key : Option (List UInt8)) : AppkeyT :=
  match app, key with
  | none, _ => invalidAppkey
  | _, none => invalidAppkey
  | some app, some key =>
      match getbyname table app key with
      | none => invalidAppkey
      | some index => akMake index (getoffset index)

/-- `__appkey_get`: the return code and what is stored through `pvalue`; `present`
says that `pvalue` is not `NULL`. -/
def appkeyGetValue (table : Table) (akid : AppkeyT) (present : Bool) : Int × Option UInt32 :=
  if present = false then (-EKEYNULL, none)
  else match (getbyid table akid).bind fun index => table.keys[index]? with
    | none => (-ENOEXIST, none)
    | some ak => (0, some ak.value)

/-- `appkey_get`. -/
def appkeyGet (table : Table) (akid : AppkeyT) (deft : UInt32) : UInt32 :=
  (appkeyGetValue table akid true).2.getD deft

/-- `appkey_set`. -/
def appkeySet (table : Table) (akid : AppkeyT) (value : UInt32) : Int × Table :=
  match getbyid table akid with
  | none => (-ENOEXIST, table)
  | some index => (0, setValue table index value)

/-- `AKID_DEBUG_NAME`. -/
def akidDebugName : List UInt8 := ['d', 'e', 'b', 'u', 'g'].map ascii

/-- `__THIS_NAME` of the library. -/
def thisName : List UInt8 := ['l', 'i', 'b', 'a', 'p', 'p', 'k', 'e', 'y'].map ascii

/-- `__syskey_debug`. -/
def syskeyDebugName (name : List UInt8) : UInt32 :=
  if name = ['o', 'k'].map ascii then 1
  else if name = ['e', 'r', 'r', 'o', 'r'].map ascii then 2
  else if name = ['t', 'r', 'a', 'c', 'e'].map ascii then 4
  else if name = ['t', 'e', 's', 't'].map ascii then 8
  else if name = ['c', 'o', 'n', 's', 'u', 'm', 'e'].map ascii then 16
  else 0

/-- `syskey_debug`: the value, which the library also takes for its own debug key when
the line is its own. -/
def syskeyDebug (app var : List UInt8) : UInt32 × Option UInt32 :=
  let value := (strtok (ascii '|') (osStrlcpy var (1 + osLineLen))).foldl
    (fun value name => value ||| syskeyDebugName name) 0
  (value, if strncmpEq (1 + osLineLen) app thisName then some value else none)

/-- `syskey_value`, for the only system key there is. -/
def syskeyValue (app var : List UInt8) : UInt32 × Option UInt32 :=
  if var = [ascii '*'] then (0xffffffff, none) else syskeyDebug app var

/-- `load_line_app`. -/
def loadLineApp (filename : Line) : Except Int (List UInt8) :=
  let app := filename.bytes.takeWhile fun byte => byte ≠ ascii '.'
  if app.isEmpty then .error (-EFORMAT)
  else if appNamelen ≤ app.length then .error (-ETOOBIG)
  else .ok app

/-- `load_line_kv`. -/
def loadLineKv (line : Line) : Except Int (List UInt8 × List UInt8) :=
  let key := scanWord line.bytes
  let var := scanWord key.2
  if key.1.isEmpty || var.1.isEmpty then .error (-EFORMAT)
  else if appKeyNamelen ≤ key.1.length then .error (-ETOOBIG)
  else .ok (key.1, var.1)

/-- `load_line_value`, with `unsigned long` of `width` bits. -/
def loadLineValue (width : Nat) (app key var : List UInt8) :
    Except Int (UInt32 × Option UInt32) :=
  match strtoul width var with
  | some value => .ok (UInt32.ofNat value, none)
  | none => if key = akidDebugName then .ok (syskeyValue app var) else .error (-EFORMAT)

/-- What `load_line` reads from a line before it looks at the table. -/
structure AkInfo where
  app : List UInt8
  key : List UInt8
  value : UInt32
  debug : Option UInt32

/-- The part of `load_line` before the table is touched. -/
def akInfo (width : Nat) (filename line : Line) : Except Int AkInfo := do
  let app ← loadLineApp filename
  let (key, var) ← loadLineKv line
  let (value, debug) ← loadLineValue width app key var
  return ⟨app, key, value, debug⟩

/-- `multi_value_t`: go on with the next line, or stop, each with a result. -/
inductive MultiValue where
  | go (result : Int)
  | break (result : Int)
  deriving DecidableEq, Repr

/-- `load_line`. -/
def loadLine (width : Nat) (table : Table) (filename line : Line) : MultiValue × Table :=
  match akInfo width filename line with
  | .error err => (.go err, table)
  | .ok info =>
      let table := { table with debug := info.debug.getD table.debug }
      match getbyname table info.app info.key with
      | some index => (.go 0, setValue table index info.value)
      | none =>
          match akNew table info.app info.key with
          | none => (.break (-ELIMIT), table)
          | some (index, table) => (.go 0, setValue table index info.value)

/-- `init`: an empty table. The library's debug key starts as `__debug_init_error`. -/
def init (limit : Nat) : Table := ⟨[], limit, 2⟩

end Trunk.Libappkey
