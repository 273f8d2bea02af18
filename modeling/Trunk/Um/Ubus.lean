import Trunk.Um.User

/-! # The getuser request

The part of `ubus.c` that serves requests. A request with one key only is served from a
hash index, any other by a scan of the table with a filter. Both put the answer in the
buffer `b`, which the reply is sent from.

What `blobmsg_parse` finds is a record of the attributes of the policy. The C library's
`inet_addr` is a parameter. A text that `os_getmac_bystring` asserts on has no result.
-/

namespace Trunk.Um

open CString Address

/-- The attributes of `UM_GETUSER_POLICY_INITER` that a request carries. -/
structure GetuserAttr where
  isLocal : Option Bool := none
  ap : Option CStr := none
  apmask : Option CStr := none
  mac : Option CStr := none
  macmask : Option CStr := none
  ip : Option CStr := none
  ipmask : Option CStr := none
  radio : Option UInt32 := none
  wlan : Option CStr := none
  deriving DecidableEq, Repr

/-- `blobmsg_get_u32` on an attribute of the type string: its first four bytes, in network
order. The text ends with a NUL, and the attribute is filled up with NULs to whole words. -/
def blobmsgGetU32 (string : CStr) : UInt32 :=
  match string.bytes ++ [0, 0, 0, 0] with
  | a :: b :: c :: d :: _ => a.toUInt32 <<< 24 ||| b.toUInt32 <<< 16 ||| c.toUInt32 <<< 8 |||
      d.toUInt32
  | _ => 0

/-- The user a pointer points to. -/
def Umc.load (umc : Umc) (user : Option Addr) : Option Apuser := user.bind umc.heap

/-- `setfilter_local`. -/
def setfilterLocal (filter : UserFilter) (attr : GetuserAttr) : UserFilter :=
  match attr.isLocal with
  | some p => { filter with isLocal := p }
  | none => { filter with isLocal := false }

/-- `setfilter_ip`: the filter, and the buffer where the user was pushed already. -/
def setfilterIp (inetAddr : CStr → UInt32) (umc : Umc) (filter : UserFilter)
    (attr : GetuserAttr) : Option Blob × UserFilter :=
  match attr.ip with
  | none => (none, filter)
  | some p =>
      let ip := inetAddr p
      if attr = { ip := some p } then
        (some (pushuser umc.ubus.b (umc.load (umUserGetbyip umc ip)) true ""), filter)
      else
        (none, { filter with
          ip := ip
          ipmask := (attr.ipmask.map inetAddr).getD filter.ipmask })

/-- The mask of an address, if it is given. -/
def setmask (mask : Option CStr) (filter : Mac) : Option Mac :=
  match mask with
  | none => some filter
  | some mask => osGetmacBystring mask

/-- `setfilter_mac`. -/
def setfilterMac (umc : Umc) (filter : UserFilter) (attr : GetuserAttr) :
    Option (Option Blob × UserFilter) :=
  match attr.mac with
  | none => some (none, filter)
  | some p => do
      let mac ← osGetmacBystring p
      if attr = { mac := some p } then
        return (some (pushuser umc.ubus.b (umc.load (umUserGetbymac umc mac)) true ""), filter)
      else
        let macmask ← setmask attr.macmask filter.macmask
        return (none, { filter with mac := mac, macmask := macmask })

/-- `setfilter_ap`. -/
def setfilterAp (filter : UserFilter) (attr : GetuserAttr) : Option UserFilter :=
  match attr.ap with
  | none => some filter
  | some p => do
      let ap ← osGetmacBystring p
      let apmask ← setmask attr.apmask filter.apmask
      return { filter with ap := ap, apmask := apmask }

/-- `setfilter_radio`. -/
def setfilterRadio (filter : UserFilter) (attr : GetuserAttr) : UserFilter :=
  match attr.radio with
  | none => filter
  | some p => { filter with radioid := p.toInt32 }

/-- `setfilter_wlan`. -/
def setfilterWlan (filter : UserFilter) (attr : GetuserAttr) : UserFilter :=
  match attr.wlan with
  | none => filter
  | some p => { filter with wlanid := (blobmsgGetU32 p).toInt32 }

/-- `get_cb`. -/
def getCb (name : String) (umc : Umc) (user : Apuser) : Option Int × Umc :=
  (none, { umc with ubus := { umc.ubus with b := pushuser umc.ubus.b (some user) false name } })

/-- `pushuserby`. -/
def pushuserby (umc : Umc) (filter : UserFilter) : Int × Umc :=
  let opened := { umc with ubus := { umc.ubus with b := Blob.init.openArray "users" } }
  let (err, umc) := umUserGetby opened filter (getCb "")
  (err, { umc with ubus := { umc.ubus with b := umc.ubus.b.closeArray } })

/-- What a request ends with: the return code, the reply if one is sent, and the daemon. -/
structure Handled where
  ret : Int
  reply : Option (List Blobmsg)
  umc : Umc

/-- `um_ubus_send_reply` of what is in the buffer. -/
def sendReply (umc : Umc) : Handled := ⟨0, some umc.ubus.b.head, umc⟩

/-- The end of `um_ubus_handle_getuser`, from `filter_ok` on. -/
def filterOk (umc : Umc) (filter : UserFilter) : Handled :=
  let pushed := pushuserby umc filter
  if pushed.1 < 0 then ⟨pushed.1, none, pushed.2⟩ else sendReply pushed.2

/-- `push_ok`, with a user pushed to the buffer. -/
def pushOk (umc : Umc) (b : Blob) : Handled := sendReply { umc with ubus := { umc.ubus with b := b } }

/-- `um_ubus_handle_getuser`. -/
def umUbusHandleGetuser (inetAddr : CStr → UInt32) (umc : Umc) (attr : GetuserAttr) :
    Option Handled :=
  let filter := userFilterIniter false
  if attr = {} then some (filterOk umc filter)
  else
    match setfilterIp inetAddr umc (setfilterLocal filter attr) attr with
    | (some b, _) => some (pushOk umc b)
    | (none, filter) => do
        match ← setfilterMac umc filter attr with
        | (some b, _) => return pushOk umc b
        | (none, filter) =>
            let filter ← setfilterAp filter attr
            return filterOk umc (setfilterWlan (setfilterRadio filter attr) attr)

end Trunk.Um
