import Trunk.Utils.Address

/-! # The user manager's data

The model of `um.h`: a user, the table of users with its two hash indexes, and what the
table's functions share with the rest of the daemon (the configured keys, the message
buffer `b` and the notifications it was sent with).

A list is the list of the addresses of its nodes, from the head on. A user is memory that
is never freed, so the heap keeps those that have left the table.
-/

namespace Trunk.Um

open CString Address

/-- The address of a user. -/
abbrev Addr := Nat

/-- `UM_HASHSIZE`. -/
def umHashsize : Nat := 64

/-- A list node after `INIT_LIST_HEAD`, in a list, or after `list_del`, which clears both
of its links. -/
inductive ListNode where
  | self
  | linked
  | cleared
  deriving DecidableEq, Repr

/-- The nodes of a user. A hash node is hashed or not. -/
structure UserNode where
  mac : Bool
  ip : Bool
  list : ListNode
  deriving DecidableEq, Repr

/-- `UM_PORTAL_TYPE_WIFIDOG`. -/
inductive PortalType where
  | wifidog
  deriving DecidableEq, Repr

/-- `UM_WIFIDOG_STATE_UNKNOW` and the other states. -/
inductive WifidogState where
  | unknow
  | probation
  | know
  deriving DecidableEq, Repr

/-- Traffic in one direction. -/
structure Traffic where
  rate : UInt32
  bytes : UInt64
  packets : UInt32
  wifirate : UInt32
  deriving DecidableEq, Repr

/-- `struct wifiinfo`, without what nothing reads. -/
structure WifiInfo where
  uptime : UInt32
  livetime : UInt32
  signal : Int32
  rx : Traffic
  tx : Traffic
  deriving DecidableEq, Repr

/-- `struct portalinfo`, without what nothing reads. -/
structure PortalInfo where
  uptime : UInt32
  livetime : UInt32
  type : PortalType
  state : WifidogState
  deriving DecidableEq, Repr

/-- `struct apuser`. -/
structure Apuser where
  isLocal : Bool
  mac : Mac
  ap : Mac
  vap : Mac
  ifname : CStr
  radioid : Int32
  wlanid : Int32
  ip : UInt32
  wifi : WifiInfo
  portal : PortalInfo
  node : UserNode
  aging : Int
  deriving DecidableEq, Repr

/-- `um_user_init`. -/
def umUserInit (isLocal : Bool) : Apuser where
  isLocal := isLocal
  mac := osZeromac
  ap := osZeromac
  vap := osZeromac
  ifname := ⟨[], List.not_mem_nil⟩
  radioid := 0
  wlanid := 0
  ip := 0
  wifi := ⟨0, 0, 0, ⟨0, 0, 0, 0⟩, ⟨0, 0, 0, 0⟩⟩
  portal := ⟨0, 0, .wifidog, .unknow⟩
  node := ⟨false, false, .self⟩
  aging := 0

/-- A value in a message, with its name. -/
inductive Field where
  | bool (name : String) (value : Bool)
  | string (name : String) (value : List UInt8)
  | u32 (name : String) (value : UInt32)
  | u64 (name : String) (value : UInt64)
  deriving DecidableEq, Repr

/-- `um_open_table` to `um_close_table`; a `NULL` name is empty. -/
structure Table where
  name : String
  fields : List Field
  deriving DecidableEq, Repr

/-- What is added to a message at its top: a value, a table, or an array of tables. -/
inductive Blobmsg where
  | field (field : Field)
  | table (table : Table)
  | array (name : String) (tables : List Table)
  deriving DecidableEq, Repr

/-- `struct blob_buf`: what was added since `blob_buf_init`, and the array that is still
open. -/
structure Blob where
  head : List Blobmsg
  opened : Option (String × List Table)
  deriving DecidableEq, Repr

namespace Blob

/-- `um_blob_buf_init`. -/
def init : Blob := ⟨[], none⟩

/-- `um_open_array`. -/
def openArray (b : Blob) (name : String) : Blob := { b with opened := some (name, []) }

/-- `um_close_array`. -/
def closeArray (b : Blob) : Blob :=
  match b.opened with
  | none => b
  | some (name, tables) => ⟨b.head ++ [.array name tables], none⟩

/-- A table from `um_open_table` to `um_close_table`. -/
def addTable (b : Blob) (table : Table) : Blob :=
  match b.opened with
  | none => { b with head := b.head ++ [.table table] }
  | some (name, tables) => { b with opened := some (name, tables ++ [table]) }

end Blob

/-- The event of a notification. -/
inductive Event where
  | new
  | delete
  | update
  | report
  deriving DecidableEq, Repr

/-- The values of the keys that the daemon reads each time it needs them. -/
structure Keys where
  evNew : Bool
  evDelete : Bool
  evUpdate : Bool
  evReport : Bool
  agtimes : Int
  deriving DecidableEq, Repr

/-- The message buffer `b`, and the notifications sent so far with what was in it. -/
structure Ubus where
  b : Blob
  sent : List (Event × List Blobmsg)
  deriving DecidableEq, Repr

/-- `umc.head`. The counter is a natural number: each user it counts takes more memory
than a byte. -/
structure Head where
  mac : Fin umHashsize → List Addr
  ip : Fin umHashsize → List Addr
  list : List Addr
  count : Nat

/-- The table of users with the memory it lives in, and what its functions use. -/
structure Umc where
  heap : Addr → Option Apuser
  head : Head
  ubus : Ubus
  keys : Keys

/-- The table before the first user, with the keys as they are then. -/
def umcInit (keys : Keys) : Umc where
  heap := fun _ => none
  head := ⟨fun _ => [], fun _ => [], [], 0⟩
  ubus := ⟨.init, []⟩
  keys := keys

/-- `struct user_filter`. -/
structure UserFilter where
  isLocal : Bool
  ap : Mac
  apmask : Mac
  mac : Mac
  macmask : Mac
  ip : UInt32
  ipmask : UInt32
  radioid : Int32
  wlanid : Int32
  deriving DecidableEq, Repr

/-- `USER_FILTER_INITER`. -/
def userFilterIniter (isLocal : Bool) : UserFilter where
  isLocal := isLocal
  ap := osZeromac
  apmask := osZeromac
  mac := osZeromac
  macmask := osZeromac
  ip := 0
  ipmask := 0
  radioid := -1
  wlanid := -1

end Trunk.Um
