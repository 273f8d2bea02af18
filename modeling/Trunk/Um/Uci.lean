import Trunk.Um.User

/-! # Loading the wireless configuration

The model of `uci.c`: the sections of the configuration are read into the list `tmp`,
which is then compared with the list `cfg` of the last load. What is only in `cfg` is
removed, together with its users, and what is only in `tmp` is moved to `cfg`.

The context, the package and the memory that are asked for are there. A section is what
`uci_to_blob` and `blobmsg_parse` make of it.
-/

namespace Trunk.Um

open CString Address

/-- `UM_INTF_RADIO` and `UM_INTF_WLAN`. -/
inductive IntfType where
  | radio
  | wlan
  deriving DecidableEq, Repr

/-- `struct um_intf`. -/
structure UmIntf where
  type : IntfType
  ifname : List UInt8
  radioid : Int32
  wlanid : Int32
  deriving DecidableEq, Repr

/-- `struct um_uci`: its two lists. -/
structure UmUci where
  cfg : List UmIntf
  tmp : List UmIntf
  deriving DecidableEq, Repr

/-- `umc`, with the interfaces. -/
structure Daemon where
  umc : Umc
  radio : UmUci
  wlan : UmUci

/-- The type of a section. -/
inductive SectionType where
  | wifiDevice
  | wifiIface
  | other
  deriving DecidableEq, Repr

/-- `struct uci_section`, with the options that are read. -/
structure UciSection where
  type : SectionType
  name : CStr
  disable : Option Bool
  ifname : Option CStr
  deriving DecidableEq, Repr

/-- The filter of `deluser_byif`. -/
def intfFilter (intf : UmIntf) : UserFilter :=
  match intf.type with
  | .radio => { userFilterIniter true with radioid := intf.radioid }
  | .wlan => { userFilterIniter true with radioid := intf.radioid, wlanid := intf.wlanid }

/-- `deluser_byif`. -/
def deluserByif (umc : Umc) (intf : UmIntf) : Umc := (umUserDelby umc (intfFilter intf)).2

/-- The size of `ifname`, `1+OS_IFNAMELEN`. -/
def ifnameSize : Nat := 16

/-- `intf_create`: memory that is zero, with a name. -/
def intfCreate (ifname : CStr) : UmIntf where
  type := .radio
  ifname := osStrlcpy ifname.bytes ifnameSize
  radioid := 0
  wlanid := 0

/-- The literal start of a format of `sscanf`, and what is left behind it. -/
def scanLiteral : List UInt8 → List UInt8 → Option (List UInt8)
  | [], text => some text
  | _ :: _, [] => none
  | first :: literal, byte :: text => if first = byte then scanLiteral literal text else none

/-- A `%d` conversion of `sscanf`: the number, cut to the range of an `int`, and what is left
behind it. -/
def scanInt (text : List UInt8) : Option (Int32 × List UInt8) :=
  let start := text.dropWhile isSpace
  let negative := start.head? = some (ascii '-')
  let signed := negative || start.head? = some (ascii '+')
  let number := if signed then start.tail else start
  let isDigit (byte : UInt8) : Bool := ascii '0' ≤ byte && byte ≤ ascii '9'
  (digits 10 (number.takeWhile isDigit)).map fun value =>
    (Int32.ofInt (max (-2 ^ 31) (min (2 ^ 31 - 1) (if negative then -value else value))),
      number.dropWhile isDigit)

/-- `os_sscanf(ifname, "radio%d", &radioid)`: the number, if it is converted. -/
def scanRadio (ifname : CStr) : Option Int32 := do
  let rest ← scanLiteral (text "radio") ifname.bytes
  let (radioid, _) ← scanInt rest
  return radioid

/-- `os_sscanf(ifname, "wlan%d-%d", &radioid, &wlanid)`, with zero for what is not converted. -/
def scanWlan (ifname : CStr) : Int32 × Int32 :=
  match (scanLiteral (text "wlan") ifname.bytes).bind scanInt with
  | none => (0, 0)
  | some (radioid, rest) =>
      match (scanLiteral (text "-") rest).bind scanInt with
      | none => (radioid, 0)
      | some (wlanid, _) => (radioid, wlanid)

/-- `load_radio`: the return code, and the list with the interface. A name that is not
understood is an error after the interface is in the list. -/
def loadRadio (s : UciSection) (head : List UmIntf) : Int × List UmIntf :=
  if s.disable.getD false then (0, head)
  else match scanRadio s.name with
    | none => (-EFORMAT, { intfCreate s.name with type := .radio } :: head)
    | some radioid => (0, { intfCreate s.name with type := .radio, radioid := radioid } :: head)

/-- `load_wlan`. -/
def loadWlan (s : UciSection) (head : List UmIntf) : Int × List UmIntf :=
  match s.ifname with
  | none => (-ENOEXIST, head)
  | some ifname =>
      if s.disable.getD false then (-ENOMEM, head)
      else
        let ids := scanWlan ifname
        (0, { intfCreate ifname with type := .wlan, radioid := ids.1, wlanid := ids.2 } :: head)

/-- `load_intf`, for the sections of one type. -/
def loadIntf (sections : List UciSection) (type : SectionType)
    (load : UciSection → List UmIntf → Int × List UmIntf) (tmp : List UmIntf) : List UmIntf :=
  sections.foldl (fun tmp s => if s.type = type then (load s tmp).2 else tmp) tmp

/-- `section_to_blob` leaves the options of the last section in the buffer. -/
def sectionBlob (type : SectionType) (s : UciSection) : Blob :=
  ⟨(s.disable.toList.map fun value => Blobmsg.field (.bool "disable" value)) ++
    (if type = .wifiIface then
      s.ifname.toList.map fun value => Blobmsg.field (.string "ifname" value.bytes) else []), none⟩

/-- What `load_intf` leaves in the buffer. -/
def loadBlob (sections : List UciSection) (type : SectionType) (b : Blob) : Blob :=
  sections.foldl (fun b s => if s.type = type then sectionBlob type s else b) b

/-- `os_stracmp(a->ifname, b->ifname) == 0`. -/
def sameIfname (a b : UmIntf) : Bool := strncmpEq ifnameSize a.ifname b.ifname

/-- The first loop of `intf_compare`: what is not in `tmp` is deleted from `cfg`, with its
users. -/
def deleteUnmatched (tmp : List UmIntf) : List UmIntf → Umc → List UmIntf × Umc
  | [], umc => ([], umc)
  | intf :: cfg, umc =>
      if tmp.any (sameIfname intf) then
        let rest := deleteUnmatched tmp cfg umc
        (intf :: rest.1, rest.2)
      else deleteUnmatched tmp cfg (deluserByif umc intf)

/-- The second loop of `intf_compare`: what is not in `cfg` is moved there from `tmp`. What
is in both stays where it is. -/
def moveUnmatched : List UmIntf → List UmIntf → UmUci
  | [], cfg => ⟨cfg, []⟩
  | intf :: tmp, cfg =>
      if cfg.any fun other => sameIfname other intf then
        let rest := moveUnmatched tmp cfg
        { rest with tmp := intf :: rest.tmp }
      else moveUnmatched tmp (intf :: cfg)

/-- `intf_compare`, on one pair of lists. -/
def intfCompare (uci : UmUci) (umc : Umc) : UmUci × Umc :=
  let kept := deleteUnmatched uci.tmp uci.cfg umc
  (moveUnmatched uci.tmp kept.1, kept.2)

/-- `load_wireless`. -/
def loadWireless (daemon : Daemon) (sections : List UciSection) : Daemon :=
  let radioTmp := loadIntf sections .wifiDevice loadRadio daemon.radio.tmp
  let wlanTmp := loadIntf sections .wifiIface loadWlan daemon.wlan.tmp
  let b := loadBlob sections .wifiIface (loadBlob sections .wifiDevice daemon.umc.ubus.b)
  let umc := { daemon.umc with ubus := { daemon.umc.ubus with b := b } }
  let radio := intfCompare ⟨daemon.radio.cfg, radioTmp⟩ umc
  let wlan := intfCompare ⟨daemon.wlan.cfg, wlanTmp⟩ radio.2
  ⟨wlan.2, radio.1, wlan.1⟩

/-- The daemon before the first load. -/
def daemonInit (keys : Keys) : Daemon := ⟨umcInit keys, ⟨[], []⟩, ⟨[], []⟩⟩

end Trunk.Um
