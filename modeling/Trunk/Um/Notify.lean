import Trunk.Um.Control

/-! # Events of the user table

The part of `ubus.c` that the table calls: a user is put in the message buffer and
subscribers are notified.
-/

namespace Trunk.Um

open CString Address

/-- A text constant. -/
def text (literal : String) : List UInt8 := literal.toList.map ascii

/-- `um_user_portal_type`. -/
def portalType : PortalType → List UInt8
  | .wifidog => text "wifidog"

/-- `um_user_portal_state`. -/
def portalState : WifidogState → List UInt8
  | .unknow => text "unknow"
  | .probation => text "probation"
  | .know => text "know"

/-- The values that `pushuser` adds for a user, under the names of `UM_USER_POLICY_INITER`. -/
def userFields (user : Apuser) : List Field :=
  [.string "mac" (macString user.mac),
    .string "ap" (macString user.ap),
    .string "vap" (macString user.vap),
    .u32 "wlanid" user.wlanid.toUInt32,
    .u32 "radioid" user.radioid.toUInt32,
    .string "ip" (osIpstring user.ip),
    .u32 "uptime" user.wifi.uptime,
    .u32 "livetime" user.wifi.livetime,
    .u32 "signal" user.wifi.signal.toUInt32,
    .u32 "rx_rate" user.wifi.rx.rate,
    .u32 "rx_wifirate" user.wifi.rx.wifirate,
    .u64 "rx_bytes" user.wifi.rx.bytes,
    .u32 "tx_rate" user.wifi.tx.rate,
    .u32 "tx_wifirate" user.wifi.tx.wifirate,
    .u64 "tx_bytes" user.wifi.tx.bytes,
    .bool "portal_enable" (user.portal.uptime != 0),
    .string "portal_type" (portalType user.portal.type),
    .string "portal_state" (portalState user.portal.state)]

/-- `pushuser`. -/
def pushuser (b : Blob) (user : Option Apuser) (init : Bool) (name : String) : Blob :=
  match user with
  | none => b
  | some user => (if init then Blob.init else b).addTable ⟨name, userFields user⟩

/-- `notify`. -/
def notify (ubus : Ubus) (event : Event) : Ubus :=
  { ubus with sent := ubus.sent ++ [(event, ubus.b.head)] }

/-- `insert_or_remove_cb`. -/
def insertOrRemoveCb (ubus : Ubus) (user : Apuser) (event : Event) : Ubus :=
  if user.isLocal then
    notify { ubus with b := pushuser ubus.b (some user) true "user" } event
  else ubus

/-- `um_ubus_insert_cb`. -/
def umUbusInsertCb (keys : Keys) (ubus : Ubus) (user : Apuser) : Ubus :=
  if keys.evNew then insertOrRemoveCb ubus user .new else ubus

/-- `um_ubus_remove_cb`. -/
def umUbusRemoveCb (keys : Keys) (ubus : Ubus) (user : Apuser) : Ubus :=
  if keys.evDelete then insertOrRemoveCb ubus user .delete else ubus

/-- `update_cb`. -/
def updateCb (ubus : Ubus) (old new : Apuser) : Ubus :=
  if old.isLocal = false ∧ new.isLocal = false then ubus
  else
    let b := pushuser ubus.b (some old) true "old"
    notify { ubus with b := pushuser b (some new) false "new" } .update

/-- `um_ubus_update_cb`. -/
def umUbusUpdateCb (keys : Keys) (ubus : Ubus) (old new : Apuser) : Ubus :=
  if keys.evUpdate then updateCb ubus old new else ubus

end Trunk.Um
