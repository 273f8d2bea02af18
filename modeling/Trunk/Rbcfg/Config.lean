import Trunk.Foundation.Memory
import Trunk.Foundation.Network
import Trunk.Utils.CString
import Trunk.Utils.Crc32

/-! # The RouterBoot configuration

The model of `rbcfg`: a configuration is a magic word, a CRC and a list of tags, kept on a flash
partition and, once it was edited, in a temporary file. A command loads it, and `set` and `apply`
store it again. An access outside the buffer has no result.

The file operations succeed: a read gives what the file holds, and a write replaces the front of the
file, since neither store is truncated when it is opened. The temporary file, where there is one, is
a regular file. The partition has the size of the buffer, which `rbcfg_find_mtd` takes from
`/proc/mtd`.
-/

namespace Trunk.Rbcfg

open CString Memory Network

/-- `RB_ERR_NOTFOUND` and the other codes. -/
inductive Err where
  | notfound
  | invalid
  | nomem
  | io
  deriving DecidableEq, Repr

/-- `RB_MAGIC_SOFT`. -/
def rbMagicSoft : Nat := 0x74666f53

/-- `RB_ID_TERMINATOR`. -/
def rbIdTerminator : Nat := 0

/-- `struct rbcfg_value`. -/
structure RbcfgValue where
  name : String
  u32 : Nat
  deriving DecidableEq, Repr

/-- `struct rbcfg_env`. Every type is `RBCFG_ENV_TYPE_U32`. -/
structure RbcfgEnv where
  name : String
  id : Nat
  values : List RbcfgValue
  deriving DecidableEq, Repr

def rbcfgBootDelay : List RbcfgValue :=
  [⟨"1", 1⟩, ⟨"2", 2⟩, ⟨"3", 3⟩, ⟨"4", 4⟩, ⟨"5", 5⟩, ⟨"6", 6⟩, ⟨"7", 7⟩, ⟨"8", 8⟩, ⟨"9", 9⟩]

def rbcfgBootDevice : List RbcfgValue :=
  [⟨"eth", 0⟩, ⟨"nandeth", 1⟩, ⟨"ethnand", 3⟩, ⟨"nand", 5⟩]

def rbcfgBootKey : List RbcfgValue := [⟨"any", 0⟩, ⟨"del", 1⟩]

def rbcfgBootProtocol : List RbcfgValue := [⟨"bootp", 0⟩, ⟨"dhcp", 1⟩]

def rbcfgUartSpeed : List RbcfgValue :=
  [⟨"115200", 0⟩, ⟨"57600", 1⟩, ⟨"38400", 2⟩, ⟨"19200", 3⟩, ⟨"9600", 4⟩, ⟨"4800", 5⟩, ⟨"2400", 6⟩,
    ⟨"1200", 7⟩, ⟨"off", 8⟩]

def rbcfgCpuMode : List RbcfgValue := [⟨"powersave", 0⟩, ⟨"regular", 1⟩]

def rbcfgBooter : List RbcfgValue := [⟨"regular", 0⟩, ⟨"backup", 1⟩]

/-- `rbcfg_envs`. -/
def rbcfgEnvs : List RbcfgEnv :=
  [⟨"boot_delay", 2, rbcfgBootDelay⟩, ⟨"boot_device", 3, rbcfgBootDevice⟩,
    ⟨"boot_key", 4, rbcfgBootKey⟩, ⟨"boot_protocol", 9, rbcfgBootProtocol⟩,
    ⟨"booter", 13, rbcfgBooter⟩, ⟨"cpu_mode", 5, rbcfgCpuMode⟩, ⟨"uart_speed", 1, rbcfgUartSpeed⟩]

/-- `strcmp(name, word) == 0`, for a name of the tables. -/
def named (name : String) (word : List UInt8) : Bool := name.toList.map ascii = word

/-- `get_u16`. -/
def getU16 (buf : List UInt8) (at_ : Nat) : Option Nat := (load buf at_ 2).map number

/-- `get_u32`. -/
def getU32 (buf : List UInt8) (at_ : Nat) : Option Nat := (load buf at_ 4).map number

/-- `put_u32`. -/
def putU32 (buf : List UInt8) (at_ val : Nat) : Option (List UInt8) := store buf at_ (bytes 4 val)

/-- The loop of `rbcfg_find_tag`, at `pos` with `buflen` bytes left: the length and the place of the
data of the tag. The first number bounds the rounds. -/
def findTagFrom (buf : List UInt8) (tagId : Nat) : Nat → Nat → Nat → Option (Except Err (Nat × Nat))
  | 0, _, _ => none
  | fuel + 1, pos, buflen =>
      if buflen ≤ 2 then some (.error .notfound)
      else do
        let len ← getU16 buf pos
        if buflen - 2 < 2 then return .error .notfound
        else
          let id ← getU16 buf (pos + 2)
          if id = rbIdTerminator then return .error .notfound
          else if buflen - 4 < len then return .error .notfound
          else if id = tagId then return .ok (len, pos + 4)
          else findTagFrom buf tagId fuel (pos + 4 + len) (buflen - 4 - len)

/-- `rbcfg_find_tag`. -/
def rbcfgFindTag (buf : List UInt8) (tagId : Nat) : Option (Except Err (Nat × Nat)) :=
  findTagFrom buf tagId (buf.length + 1) 8 (buf.length - 8)

/-- `rbcfg_get_u32`. -/
def rbcfgGetU32 (buf : List UInt8) (id : Nat) : Option (Except Err Nat) := do
  match ← rbcfgFindTag buf id with
  | .error err => return .error err
  | .ok (_, tagData) => return .ok (← getU32 buf tagData)

/-- `rbcfg_set_u32`. -/
def rbcfgSetU32 (buf : List UInt8) (id val : Nat) : Option (Except Err (List UInt8)) := do
  match ← rbcfgFindTag buf id with
  | .error err => return .error err
  | .ok (_, tagData) => return .ok (← putU32 buf tagData val)

/-- The two stores of the configuration. -/
structure Stores where
  mtdDevice : List UInt8
  tmpFile : Option (List UInt8)
  deriving DecidableEq, Repr

namespace Stores

/-- `ctx->buflen`. -/
def buflen (stores : Stores) : Nat := stores.mtdDevice.length

/-- What `rbcfg_load` reads: the temporary file, if `rbcfg_check_tmp` finds it, else the
partition. -/
def image (stores : Stores) : List UInt8 :=
  match stores.tmpFile with
  | some tmp => if tmp.length = stores.buflen then tmp else stores.mtdDevice
  | none => stores.mtdDevice

end Stores

/-- `cyg_ether_crc32`. Its table and its rounds are those of `__os_crc32`. -/
def cygEtherCrc32 (buf : List UInt8) : Nat := (Crc32.osCrc32 buf).toNat

/-- The checks of `rbcfg_load` on what was read, and the buffer they leave. -/
def rbcfgAccept (buf : List UInt8) : Option (Except Err (List UInt8)) := do
  let magic ← getU32 buf 0
  if magic ≠ rbMagicSoft then return .error .invalid
  else
    let crcOrig ← getU32 buf 4
    let buf ← putU32 buf 4 0
    if cygEtherCrc32 buf ≠ crcOrig then return .error .invalid
    else return .ok buf

/-- `rbcfg_load`. -/
def rbcfgLoad (stores : Stores) : Option (Except Err (List UInt8)) := rbcfgAccept stores.image

/-- A file after a write at its front. -/
def overwrite (file content : List UInt8) : List UInt8 := content ++ file.drop content.length

/-- `rbcfg_update`. -/
def rbcfgUpdate (tmp : Bool) (buf : List UInt8) (stores : Stores) : Option Stores := do
  let buf ← putU32 buf 0 rbMagicSoft
  let buf ← putU32 buf 4 0
  let buf ← putU32 buf 4 (cygEtherCrc32 buf)
  if tmp then return { stores with tmpFile := some (overwrite (stores.tmpFile.getD []) buf) }
  else return { stores with mtdDevice := overwrite stores.mtdDevice buf }

/-- `rbcfg_env_find`. -/
def rbcfgEnvFind (env : RbcfgEnv) (word : List UInt8) : Option RbcfgValue :=
  env.values.find? fun v => named v.name word

/-- `rbcfg_env_find_u32`. -/
def rbcfgEnvFindU32 (env : RbcfgEnv) (val : Nat) : Option RbcfgValue :=
  env.values.find? fun v => v.u32 = val

/-- `rbcfg_env_get_u32`. -/
def rbcfgEnvGetU32 (buf : List UInt8) (env : RbcfgEnv) : Option (Option String) := do
  match ← rbcfgGetU32 buf env.id with
  | .error _ => return none
  | .ok val => return (rbcfgEnvFindU32 env val).map RbcfgValue.name

/-- `rbcfg_env_set_u32`. -/
def rbcfgEnvSetU32 (buf : List UInt8) (env : RbcfgEnv) (word : List UInt8) :
    Option (Except Err (List UInt8)) :=
  match rbcfgEnvFind env word with
  | none => some (.error .invalid)
  | some v => rbcfgSetU32 buf env.id v.u32

/-- The entry of `rbcfg_envs` that the loops of the commands stop at. -/
def envOf (word : List UInt8) : Option RbcfgEnv := rbcfgEnvs.find? fun env => named env.name word

/-- `rbcfg_cmd_get`: the value it prints. -/
def rbcfgCmdGet (buf : List UInt8) (argv : List (List UInt8)) : Option (Except Err String) :=
  match argv with
  | [name] =>
      match envOf name with
      | none => some (.error .notfound)
      | some env => do
          match ← rbcfgEnvGetU32 buf env with
          | some value => return .ok value
          | none => return .error .notfound
  | _ => some (.error .invalid)

/-- `rbcfg_cmd_set`. -/
def rbcfgCmdSet (stores : Stores) (buf : List UInt8) (argv : List (List UInt8)) :
    Option (Except Err Stores) :=
  match argv with
  | [name, word] =>
      match envOf name with
      | none => some (.error .invalid)
      | some env => do
          match ← rbcfgEnvSetU32 buf env word with
          | .ok buf => return .ok (← rbcfgUpdate true buf stores)
          | .error err => return .error err
  | _ => some (.error .invalid)

/-- The commands, with what follows them on the command line. -/
inductive Command where
  | apply
  | get (argv : List (List UInt8))
  | set (argv : List (List UInt8))
  deriving DecidableEq, Repr

/-- What a run of the program leaves to its caller: `EXIT_FAILURE`, or `EXIT_SUCCESS` and the value
that was printed. -/
inductive Exit where
  | failure
  | success (printed : Option String)
  deriving DecidableEq, Repr

/-- `main`, for a command that uses the configuration. -/
def rbcfg (stores : Stores) (command : Command) : Option (Exit × Stores) := do
  match ← rbcfgLoad stores with
  | .error _ => return (.failure, stores)
  | .ok buf =>
      match command with
      | .apply => return (.success none, ← rbcfgUpdate false buf stores)
      | .get argv =>
          match ← rbcfgCmdGet buf argv with
          | .ok value => return (.success (some value), stores)
          | .error _ => return (.failure, stores)
      | .set argv =>
          match ← rbcfgCmdSet stores buf argv with
          | .ok stores => return (.success none, stores)
          | .error _ => return (.failure, stores)

end Trunk.Rbcfg
