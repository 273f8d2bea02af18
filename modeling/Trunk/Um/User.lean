import Trunk.Foundation.Buckets
import Trunk.Foundation.Walk
import Trunk.Um.Notify
import Trunk.Utils.Errno

/-! # The table of users

The model of `user.c`, and of the aging pass of `um.c`. Users are unlinked while the list
is walked, so the loop over it is `Trunk.Walk.forEachSafe`.
-/

namespace Trunk.Um

open CString Address Walk

/-- `UM_HASHMASK`. -/
def umHashmask : Nat := umHashsize - 1

/-- `hashbuf`. -/
def hashbuf (buf : List UInt8) (mask : Nat) : Nat := (buf.map UInt8.toNat).sum &&& mask

theorem hashbuf_lt (buf : List UInt8) : hashbuf buf umHashmask < umHashsize :=
  Nat.lt_of_le_of_lt Nat.and_le_right (by decide)

/-- `hashmac`. -/
def hashmac (mac : Mac) : Fin umHashsize := ⟨hashbuf mac.bytes umHashmask, hashbuf_lt _⟩

/-- `haship`. -/
def haship (ip : UInt32) : Fin umHashsize := ⟨hashbuf (ipBytes ip) umHashmask, hashbuf_lt _⟩

/-- `in_list`. -/
def inList : ListNode → Bool
  | .self => false
  | .linked => true
  | .cleared => false

/-- `hlist_del_init`: the buckets, and whether the node is still hashed. -/
def hlistDelInit (table : Fin umHashsize → List Addr) (hashed : Bool) (addr : Addr) :
    (Fin umHashsize → List Addr) × Bool :=
  if hashed then (Buckets.remove table addr, false) else (table, hashed)

/-- The user at an address becomes another. -/
def Umc.store (umc : Umc) (addr : Addr) (user : Apuser) : Umc :=
  { umc with heap := Function.update umc.heap addr (some user) }

@[simp] theorem Umc.store_heap_self (umc : Umc) (addr : Addr) (user : Apuser) :
    (umc.store addr user).heap addr = some user :=
  Function.update_self ..

theorem Umc.store_heap_of_ne (umc : Umc) {addr other : Addr} (user : Apuser)
    (apart : other ≠ addr) : (umc.store addr user).heap other = umc.heap other :=
  Function.update_of_ne apart ..

/-- The containers lose a user: the body of `__remove`. -/
def unlink (umc : Umc) (addr : Addr) (user : Apuser) : Umc :=
  let mac := if isGoodMac user.mac then hlistDelInit umc.head.mac user.node.mac addr
    else (umc.head.mac, user.node.mac)
  let ip := if user.ip ≠ 0 then hlistDelInit umc.head.ip user.node.ip addr
    else (umc.head.ip, user.node.ip)
  { umc.store addr { user with node := ⟨mac.2, ip.2, .cleared⟩ } with
    head := ⟨mac.1, ip.1, umc.head.list.erase addr, umc.head.count - 1⟩ }

/-- The containers get a user: the body of `__insert`. -/
def link (umc : Umc) (addr : Addr) (user : Apuser) : Umc :=
  let mac := if isGoodMac user.mac then (Buckets.add umc.head.mac (hashmac user.mac) addr, true)
    else (umc.head.mac, user.node.mac)
  let ip := if user.ip ≠ 0 then (Buckets.add umc.head.ip (haship user.ip) addr, true)
    else (umc.head.ip, user.node.ip)
  { umc.store addr { user with node := ⟨mac.2, ip.2, .linked⟩ } with
    head := ⟨mac.1, ip.1, addr :: umc.head.list, umc.head.count + 1⟩ }

/-- A callback of `__remove` and `__insert`. -/
abbrev UserCb := Keys → Ubus → Apuser → Ubus

/-- Call a callback that may be `NULL`. -/
def callback (cb : Option UserCb) (umc : Umc) (user : Apuser) : Umc :=
  match cb with
  | none => umc
  | some cb => { umc with ubus := cb umc.keys umc.ubus user }

/-- `__remove`. A pointer is `NULL` or the address of a user. -/
def remove (umc : Umc) (user : Option Addr) (cb : Option UserCb) : Int × Umc :=
  match user with
  | none => (-EKEYNULL, umc)
  | some addr =>
      match umc.heap addr with
      | none => (0, umc)
      | some user =>
          if inList user.node.list = false then (0, umc)
          else (0, callback cb (unlink umc addr user) user)

/-- `__insert`, of a user. -/
def insert (umc : Umc) (addr : Addr) (cb : Option UserCb) : Int × Umc :=
  match umc.heap addr with
  | none => (0, umc)
  | some user =>
      if inList user.node.list then (-EINLIST, umc)
      else (0, callback cb (link umc addr user) user)

/-- `__create`. `alloc` is where `os_malloc` finds memory, and memory that is a user's is
not found again. -/
def create (umc : Umc) (mac : Mac) (alloc : Option Addr) (now : UInt32) : Option (Addr × Umc) :=
  match alloc with
  | none => none
  | some addr =>
      if (umc.heap addr).isSome then none
      else
        let user := umUserInit true
        some (addr, umc.store addr
          { user with mac := mac, wifi := { user.wifi with uptime := now } })

/-- `um_user_update_f`: what becomes of the user and of the message buffer. It leaves the
user's MAC and nodes as they are. -/
structure UmUserUpdateF where
  call : Keys → Ubus → Bool → Apuser → Apuser → Apuser × Ubus
  mac : ∀ keys ubus created dst src, (call keys ubus created dst src).1.mac = dst.mac
  node : ∀ keys ubus created dst src, (call keys ubus created dst src).1.node = dst.node

/-- Call the update callback on the user at an address. -/
def UmUserUpdateF.apply (update : UmUserUpdateF) (umc : Umc) (created : Bool) (addr : Addr)
    (info : Apuser) : Umc :=
  match umc.heap addr with
  | none => umc
  | some user =>
      let answer := update.call umc.keys umc.ubus created user info
      { umc.store addr answer.1 with ubus := answer.2 }

/-- `um_user_getbymac`. -/
def umUserGetbymac (umc : Umc) (mac : Mac) : Option Addr :=
  (umc.head.mac (hashmac mac)).find? fun addr => (umc.heap addr).any fun user => user.mac = mac

/-- `um_user_getbyip`. -/
def umUserGetbyip (umc : Umc) (ip : UInt32) : Option Addr :=
  (umc.head.ip (haship ip)).find? fun addr => (umc.heap addr).any fun user => user.ip = ip

/-- Set `user->aging`. -/
def setAging (umc : Umc) (addr : Addr) (aging : Apuser → Int) : Umc :=
  match umc.heap addr with
  | none => umc
  | some user => umc.store addr { user with aging := aging user }

/-- The user of `um_user_update`, and whether it was created. -/
def findOrCreate (umc : Umc) (mac : Mac) (alloc : Option Addr) (now : UInt32) :
    Option (Bool × Addr × Umc) :=
  match umUserGetbymac umc mac with
  | some addr => some (false, addr, umc)
  | none => (create umc mac alloc now).map fun made => (true, made)

/-- `um_user_update`. -/
def umUserUpdate (umc : Umc) (info : Apuser) (update : UmUserUpdateF) (alloc : Option Addr)
    (now : UInt32) : Option Addr × Umc :=
  match findOrCreate umc info.mac alloc now with
  | none => (none, umc)
  | some (created, addr, umc) =>
      let removed := (remove umc (some addr) none).2
      let updated := update.apply removed created addr info
      let inserted := (insert updated addr (if created then some umUbusInsertCb else none)).2
      (some addr, setAging inserted addr fun _ => inserted.keys.agtimes)

/-- `um_user_foreach`: zero, or the result with which a callback ends the loop. -/
def umUserForeach (umc : Umc) (foreach : Umc → Addr → Option Int × Umc) : Int × Umc :=
  let walked := forEachSafe (fun umc : Umc => umc.head.list) foreach umc
  (walked.1.getD 0, walked.2)

/-- `um_user_del`. -/
def umUserDel (umc : Umc) (user : Option Addr) : Int × Umc :=
  remove umc user (some umUbusRemoveCb)

/-- `um_user_delbymac`. -/
def umUserDelbymac (umc : Umc) (mac : Mac) : Int × Umc :=
  remove umc (umUserGetbymac umc mac) (some umUbusRemoveCb)

/-- `um_user_delbyip`. -/
def umUserDelbyip (umc : Umc) (ip : UInt32) : Int × Umc :=
  remove umc (umUserGetbyip umc ip) (some umUbusRemoveCb)

/-- `macmatch`. -/
def macmatch (umac fmac mask : Mac) : Bool :=
  if isGoodMac fmac then
    if mask = osZeromac then umac = fmac else osMacmaskmach umac fmac mask
  else true

/-- `ipmatch`. -/
def ipmatch (uip fip mask : UInt32) : Bool :=
  if fip ≠ 0 then
    if mask = 0 then uip = fip else osIpmatch uip fip mask
  else true

/-- `match`. -/
def matchUser (user : Apuser) (filter : UserFilter) : Bool :=
  if filter.isLocal && user.isLocal = false then false
  else if macmatch user.mac filter.mac filter.macmask = false then false
  else if macmatch user.ap filter.ap filter.apmask = false then false
  else if ipmatch user.ip filter.ip filter.ipmask = false then false
  else if filter.radioid ≥ 0 ∧ user.radioid ≠ filter.radioid then false
  else if filter.wlanid ≥ 0 ∧ user.wlanid ≠ filter.wlanid then false
  else true

/-- `delby_cb`. -/
def delbyCb (filter : UserFilter) (umc : Umc) (addr : Addr) : Option Int × Umc :=
  if (umc.heap addr).any fun user => matchUser user filter then
    (none, (remove umc (some addr) (some umUbusRemoveCb)).2)
  else (none, umc)

/-- `um_user_delby`. -/
def umUserDelby (umc : Umc) (filter : UserFilter) : Int × Umc := umUserForeach umc (delbyCb filter)

/-- `getby_cb`, with the function to call on the users that match. -/
def getbyCb (filter : UserFilter) (get : Umc → Apuser → Option Int × Umc) (umc : Umc)
    (addr : Addr) : Option Int × Umc :=
  match umc.heap addr with
  | none => (none, umc)
  | some user => if matchUser user filter then get umc user else (none, umc)

/-- `um_user_getby`. -/
def umUserGetby (umc : Umc) (filter : UserFilter) (get : Umc → Apuser → Option Int × Umc) :
    Int × Umc :=
  umUserForeach umc (getbyCb filter get)

/-- `aging_cb`. -/
def agingCb (umc : Umc) (addr : Addr) : Option Int × Umc :=
  match umc.heap addr with
  | none => (none, umc)
  | some user =>
      if user.isLocal then
        let aged := setAging umc addr fun user => user.aging - 1
        if user.aging - 1 ≤ 0 then (none, (umUserDel aged (some addr)).2) else (none, aged)
      else (none, umc)

/-- `aging`. -/
def aging (umc : Umc) : Int × Umc := umUserForeach umc agingCb

/-- A call that may change the table, or a change of the configured keys. -/
inductive Call where
  | update (info : Apuser) (update : UmUserUpdateF) (alloc : Option Addr) (now : UInt32)
  | del (user : Option Addr)
  | delbymac (mac : Mac)
  | delbyip (ip : UInt32)
  | delby (filter : UserFilter)
  | aging
  | configure (keys : Keys)

/-- The table after a call. -/
def call (umc : Umc) : Call → Umc
  | .update info update alloc now => (umUserUpdate umc info update alloc now).2
  | .del user => (umUserDel umc user).2
  | .delbymac mac => (umUserDelbymac umc mac).2
  | .delbyip ip => (umUserDelbyip umc ip).2
  | .delby filter => (umUserDelby umc filter).2
  | .aging => (aging umc).2
  | .configure keys => { umc with keys := keys }

end Trunk.Um
