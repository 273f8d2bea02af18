import Trunk.Um.L2user
import Trunk.Utils.MacText
import Trunk.Utils.Pipeline

/-! # The wireless stations

The model of the rest of `l2user.c`: every value of a station is read by a command of its own
from the output of `iw station dump`, which is the same text for all commands of one pass. The
`number`-th station has the `number`-th line that a command leaves.

Text that is returned from a buffer on the stack is the text that was in the buffer. The number
of stations is a natural number.
-/

namespace Trunk.Um

open CString Address Pipeline

/-- What the pass reads beside the dump: the output of `ifconfig` for an interface, the leases,
and the functions that are not modelled. `rate` is `atof(text) * 1000` as an `int`. -/
structure Host where
  ifconfig : List UInt8 → List Line
  leases : List Line
  inetAddr : List UInt8 → UInt32
  getStaUptime : List UInt8 → List UInt8 → UInt32
  rate : List UInt8 → Int32
  rate_nil : rate [] = 0

/-- A command that looks for lines and keeps a part of each. -/
structure Query where
  pattern : Line
  part : Line → Line

/-- The lines that a command leaves. -/
def Query.lines (query : Query) (output : List Line) : List Line :=
  (output.filter (grep query.pattern)).map query.part

/-- The text that is read of the `number`-th line. -/
def Query.read (query : Query) (output : List Line) (number : Nat) : Line :=
  fgetsLine (sed number (query.lines output))

/-- `grep 'HWaddr' | awk '{print $5}'`. -/
def hwaddrQuery : Query := ⟨text "HWaddr", awk 5⟩

/-- `grep 'Station' | awk '{print $2}'`. -/
def stationQuery : Query := ⟨text "Station", awk 2⟩

/-- The statistics of a station. -/
inductive Statistic where
  | rxBytes
  | rxPackets
  | rxBitrate
  | txBytes
  | txPackets
  | txBitrate
  | signal
  | inactiveTime
  deriving DecidableEq, Repr

/-- The command that reads a statistic. -/
def Statistic.query : Statistic → Query
  | .rxBytes => ⟨text "rx bytes", cut (ascii ':')⟩
  | .rxPackets => ⟨text "rx packets", cut (ascii ':')⟩
  | .rxBitrate => ⟨text "rx bitrate", awk 3⟩
  | .txBytes => ⟨text "tx bytes", cut (ascii ':')⟩
  | .txPackets => ⟨text "tx packets", cut (ascii ':')⟩
  | .txBitrate => ⟨text "tx bitrate", awk 3⟩
  | .signal => ⟨text "signal:", fun line => cut (ascii '-') (awk 2 line)⟩
  | .inactiveTime => ⟨text "inactive time", awk 3⟩

/-- `get_ap_macaddr`. -/
def getApMacaddr (host : Host) : Line := hwaddrQuery.read (host.ifconfig (text "br-lan")) 1

/-- `get_vap_macaddr`. -/
def getVapMacaddr (host : Host) (ifname : List UInt8) : Line :=
  hwaddrQuery.read (host.ifconfig ifname) 1

/-- `get_sta_macaddr`. -/
def getStaMacaddr (dump : List Line) (stanum : Nat) : Line := stationQuery.read dump stanum

/-- `get_sta_ipaddr`. -/
def getStaIpaddr (host : Host) (stamacaddr : List UInt8) : Line :=
  Query.read ⟨stamacaddr, awk 3⟩ host.leases 1

/-- `get_sta_livetime`. -/
def getStaLivetime (dump : List Line) (stanum : Nat) : Int32 :=
  atoi (Statistic.inactiveTime.query.read dump stanum)

/-- `get_rx_bytes`. -/
def getRxBytes (dump : List Line) (stanum : Nat) : Int64 :=
  atoll (Statistic.rxBytes.query.read dump stanum)

/-- `get_rx_packets`. -/
def getRxPackets (dump : List Line) (stanum : Nat) : Int32 :=
  atoi (Statistic.rxPackets.query.read dump stanum)

/-- `get_rx_bitrate`. -/
def getRxBitrate (host : Host) (dump : List Line) (stanum : Nat) : Int32 :=
  host.rate (Statistic.rxBitrate.query.read dump stanum)

/-- `get_tx_bytes`. -/
def getTxBytes (dump : List Line) (stanum : Nat) : Int64 :=
  atoll (Statistic.txBytes.query.read dump stanum)

/-- `get_tx_packets`. -/
def getTxPackets (dump : List Line) (stanum : Nat) : Int32 :=
  atoi (Statistic.txPackets.query.read dump stanum)

/-- `get_tx_bitrate`. -/
def getTxBitrate (host : Host) (dump : List Line) (stanum : Nat) : Int32 :=
  host.rate (Statistic.txBitrate.query.read dump stanum)

/-- `get_sta_signal`. -/
def getStaSignal (dump : List Line) (stanum : Nat) : Int32 :=
  atoi (Statistic.signal.query.read dump stanum)

/-- `get_sta_portalstate`. -/
def getStaPortalstate : WifidogState := .know

/-- `get_sta_total`: what `wc -l` counts. -/
def getStaTotal (dump : List Line) : Nat := dump.countP (grep stationQuery.pattern)

/-- The conversions of `sscanf` with `%x` and colons between them, into variables that keep
what they held where nothing is converted. -/
def scanHexes : List UInt8 → List UInt32 → List UInt32
  | _, [] => []
  | text, held :: others =>
      match scanHex text with
      | none => held :: others
      | some (value, rest) =>
          match scanLiteral [ascii ':'] rest with
          | none => value :: others
          | some next => value :: scanHexes next others

theorem scanHexes_length (text : List UInt8) (held : List UInt32) :
    (scanHexes text held).length = held.length := by
  induction held generalizing text with
  | nil => rfl
  | cons value others ih =>
      rw [scanHexes]
      split
      · rfl
      · split
        · rfl
        · rw [List.length_cons, List.length_cons, ih]

/-- The variables `a0` to `a5`. -/
structure Scanned where
  values : List UInt32
  size : values.length = 6

/-- `sscanf` of an address into the variables. -/
def Scanned.scan (held : Scanned) (text : List UInt8) : Scanned :=
  ⟨scanHexes text held.values, (scanHexes_length text held.values).trans held.size⟩

/-- The address that is stored from the variables, each cut to a byte. -/
def Scanned.mac (held : Scanned) : Mac where
  bytes := held.values.map UInt32.toUInt8
  size := (List.length_map ..).trans held.size

/-- The body of the loop of `l2user_timer`, up to the update: `info` and the variables keep
what they held in the round before. -/
def fillInfo (host : Host) (dump : List Line) (intf : UmIntf) (stanum : Nat)
    (state : Apuser × Scanned) : Apuser × Scanned :=
  let sta := state.2.scan (getStaMacaddr dump stanum)
  let ap := sta.scan (getApMacaddr host)
  let vap := ap.scan (getVapMacaddr host intf.ifname)
  let stamacaddr := macString sta.mac
  ({ state.1 with
    mac := sta.mac
    ap := ap.mac
    vap := vap.mac
    ip := host.inetAddr (getStaIpaddr host stamacaddr)
    ifname := CStr.ofBuffer intf.ifname
    wlanid := intf.wlanid
    radioid := intf.radioid
    wifi := { state.1.wifi with
      rx := { state.1.wifi.rx with
        bytes := (getRxBytes dump stanum).toUInt64
        packets := (getRxPackets dump stanum).toUInt32
        rate := (getRxBitrate host dump stanum).toUInt32 }
      tx := { state.1.wifi.tx with
        bytes := (getTxBytes dump stanum).toUInt64
        packets := (getTxPackets dump stanum).toUInt32
        rate := (getTxBitrate host dump stanum).toUInt32 }
      signal := getStaSignal dump stanum
      uptime := host.getStaUptime intf.ifname stamacaddr
      livetime := (getStaLivetime dump stanum).toUInt32 }
    portal := { state.1.portal with type := .wifidog, state := getStaPortalstate } }, vap)

/-- What a pass does: what it returns, the table it leaves, and the records that it passed to
`um_user_update`. -/
structure Pass where
  code : Int
  umc : Umc
  passed : List Apuser

/-- What the host gives a pass in each round: where memory is found, and the time. -/
structure Round where
  alloc : Option Addr
  now : UInt32

/-- The loop of `l2user_timer` over the numbers that are left. -/
def l2userLoop (host : Host) (dump : List Line) (intf : UmIntf) (rounds : Nat → Round) :
    List Nat → Apuser × Scanned → Umc → Pass
  | [], _, umc => ⟨0, umc, []⟩
  | stanum :: rest, state, umc =>
      let filled := fillInfo host dump intf stanum state
      let round := rounds stanum
      match umUserUpdate umc filled.1 (l2userUpdate round.now) round.alloc round.now with
      | (none, umc) => ⟨-ENOMEM, umc, [filled.1]⟩
      | (some _, umc) =>
          let pass := l2userLoop host dump intf rounds rest filled umc
          { pass with passed := filled.1 :: pass.passed }

/-- `l2user_timer`. -/
def l2userTimer (host : Host) (dump : List Line) (intf : UmIntf) (rounds : Nat → Round)
    (umc : Umc) : Pass :=
  l2userLoop host dump intf rounds (List.range' 1 (getStaTotal dump))
    (umUserInit true, ⟨[0, 0, 0, 0, 0, 0], rfl⟩) umc

end Trunk.Um
