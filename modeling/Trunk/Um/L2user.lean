import Trunk.Um.Uci

/-! # Updates from the wireless stations

The callback that `l2user_timer` updates users with. It copies what the timer read of a
station into the user, and has subscribers told of the change before it is made.
-/

namespace Trunk.Um

open CString

/-- `os_strdcpy` of an interface name. -/
def ifnameCopy (source : CStr) : CStr where
  bytes := osStrlcpy source.bytes ifnameSize
  noNul := fun member => source.noNul (List.mem_of_mem_take member)

/-- The fields that `l2user_update` sets, from those of `src`. -/
def l2userCopy (dst src : Apuser) : Apuser :=
  { dst with
    ap := src.ap
    ifname := ifnameCopy src.ifname
    vap := src.vap
    isLocal := src.isLocal
    radioid := src.radioid
    wlanid := src.wlanid
    ip := src.ip
    wifi := { dst.wifi with
      uptime := src.wifi.uptime
      livetime := src.wifi.livetime
      rx := src.wifi.rx
      tx := src.wifi.tx
      signal := src.wifi.signal }
    portal := { dst.portal with type := src.portal.type, state := src.portal.state } }

/-- `l2user_update`, at a time. -/
def l2userUpdate (now : UInt32) : UmUserUpdateF where
  call := fun keys ubus created dst src =>
    if created then (l2userCopy { dst with wifi := { dst.wifi with uptime := now } } src, ubus)
    else (l2userCopy dst src, umUbusUpdateCb keys ubus dst src)
  mac := by
    intro keys ubus created dst src
    cases created with
    | false => rfl
    | true => rfl
  node := by
    intro keys ubus created dst src
    cases created with
    | false => rfl
    | true => rfl

theorem l2userUpdate_isLocal (now : UInt32) (keys : Keys) (ubus : Ubus) (created : Bool)
    (dst src : Apuser) :
    ((l2userUpdate now).call keys ubus created dst src).1.isLocal = src.isLocal := by
  cases created with
  | false => rfl
  | true => rfl

end Trunk.Um
