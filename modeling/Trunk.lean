import Trunk.Foundation.Run
import Trunk.Foundation.Radix
import Trunk.Foundation.Memory
import Trunk.Foundation.Fifo
import Trunk.Foundation.Buckets
import Trunk.Foundation.Walk
import Trunk.Foundation.Columns
import Trunk.Foundation.Loop
import Trunk.Foundation.Provenance
import Trunk.Foundation.Network
import Trunk.Foundation.Subnet
import Trunk.Utils.Errno
import Trunk.Utils.CString
import Trunk.Utils.Text
import Trunk.Utils.Crc32
import Trunk.Utils.Number
import Trunk.Utils.Address
import Trunk.Utils.MacText
import Trunk.Utils.Pipeline
import Trunk.Utils.Inet
import Trunk.Utils.Channel
import Trunk.Utils.ChannelFifo
import Trunk.Utils.Sfile
import Trunk.Utils.Visits
import Trunk.Utils.Slice
import Trunk.Utils.SliceAppend
import Trunk.Utils.Autoarray
import Trunk.Appkey.Table
import Trunk.Appkey.Handle
import Trunk.Appkey.Load
import Trunk.Partool.Block
import Trunk.Partool.Line
import Trunk.Partool.RoundTrip
import Trunk.Partool.Resave
import Trunk.Partool.Corrupt
import Trunk.Partool.Create
import Trunk.Partool.Flush
import Trunk.Partool.Lock
import Trunk.Partool.RawAccess
import Trunk.Partool.LineReader
import Trunk.Foundation.OrderedMap
import Trunk.Partool.Variables
import Trunk.Nvram.Table
import Trunk.Nvram.Pointers
import Trunk.Nvram.History
import Trunk.Nvram.Image
import Trunk.Nvram.RoundTrip
import Trunk.Nvram.Corrupt
import Trunk.Nvram.Loss
import Trunk.Nvram.Consistent
import Trunk.Map.Rule
import Trunk.Map.Ports
import Trunk.Map.Embedding
import Trunk.Map.Options
import Trunk.Map.Contained
import Trunk.Owip.Cidr
import Trunk.Owip.Range
import Trunk.Owip.Step
import Trunk.Owip.Command
import Trunk.Owip.Safety
import Trunk.Owip.Sums
import Trunk.Acc.Stages
import Trunk.Acc.Safety
import Trunk.Acc.Controllers
import Trunk.Rgps.Scan
import Trunk.Rgps.Erase
import Trunk.Rgps.Sentence
import Trunk.Rgps.Values
import Trunk.Rgps.Reading
import Trunk.Rgps.Round
import Trunk.Rgps.Time
import Trunk.Rgps.Places
import Trunk.Rgps.Stored
import Trunk.Rgps.LocalTime
import Trunk.Timer.Clock
import Trunk.Timer.Naive
import Trunk.Timer.Placement
import Trunk.Timer.Carry
import Trunk.Timer.Tick
import Trunk.Timer.Refinement
import Trunk.Timer.Change
import Trunk.Timer.Accounting
import Trunk.Timer.Reentrant
import Trunk.Timer.Callbacks
import Trunk.Um.Control
import Trunk.Um.Notify
import Trunk.Um.User
import Trunk.Um.Table
import Trunk.Um.Filter
import Trunk.Um.Ubus
import Trunk.Um.Request
import Trunk.Um.Selection
import Trunk.Um.Getuser
import Trunk.Um.Uci
import Trunk.Um.Reload
import Trunk.Um.Effect
import Trunk.Um.L2user
import Trunk.Um.Aging
import Trunk.Um.Mirror
import Trunk.Um.Station
import Trunk.Um.Dump
import Trunk.Luci.Utils
import Trunk.Luci.Sequence
import Trunk.Luci.Escaping
import Trunk.Foundation.Utf8
import Trunk.Foundation.Words
import Trunk.Luci.Sanitized
import Trunk.Luci.Template
import Trunk.Luci.Segments
import Trunk.Luci.Chunks
import Trunk.Luci.Whitespace
import Trunk.Foundation.LuaString
import Trunk.Luci.Verbatim
import Trunk.Luci.Lmo
import Trunk.Luci.HostHash
import Trunk.Luci.Damaged
import Trunk.Luci.Po2lmo
import Trunk.Luci.PoText
import Trunk.Luci.Catalog
import Trunk.Rbcfg.Config
import Trunk.Rbcfg.Edits
import Trunk.Iwcap.Ring
import Trunk.Iwcap.Dump
import Trunk.Mtdsplit.Parsers
import Trunk.Mtdsplit.Cuts
import Trunk.Foundation.Flash
import Trunk.Foundation.Calendar
import Trunk.Mtd.Write
import Trunk.Mtd.Blocks
import Trunk.Mtd.Single
import Trunk.Mtd.Seams
import Trunk.Firmware.Buffalo
import Trunk.Firmware.BuffaloRoundTrip
import Trunk.Firmware.Srec2bin
import Trunk.Firmware.Srec2binMemory
import Trunk.Firmware.Wrt350nv2
import Trunk.Firmware.Wrt350nv2Intact
import Trunk.Utils.InPlace
import Trunk.Foundation.Transducer
import Trunk.Firmware.Pc1
import Trunk.Firmware.Ptgen
import Trunk.Mtd.Seama
import Trunk.Switch.Ports
import Trunk.Foundation.Orbit
import Trunk.Mtd.Jffs2
import Trunk.Mtd.Append
import Trunk.Mtd.Nodes
import Trunk.Mtd.Offset
import Trunk.Mtd.Header
import Trunk.Mtd.Trx
import Trunk.Foundation.Footprint
import Trunk.Mtd.Imagetag
import Trunk.Map.Host
import Trunk.Foundation.Writes
import Trunk.Firmware.Trx
import Trunk.Firmware.TrxWrites
import Trunk.Firmware.TrxIntact
import Trunk.Rgps.Fields
import Trunk.Rgps.Shift
import Trunk.Rgps.Extract
import Trunk.Foundation.Dictionary
import Trunk.Ubusd.State
import Trunk.Ubusd.Objects
import Trunk.Ubusd.Protocol
import Trunk.Ubusd.Invariant
import Trunk.Ubusd.Changes
import Trunk.Ubusd.Lifetime
import Trunk.Ubusd.Events
import Trunk.Ubusd.Sound
import Trunk.Ubusd.Subscribe
import Trunk.Ubusd.Free
import Trunk.Ubusd.Create
import Trunk.Ubusd.Lookup
import Trunk.Ubusd.Served
import Trunk.Ubusd.Leave
import Trunk.Ubusd.Runs
import Trunk.Ubusd.Addressed
import Trunk.Ubusd.Justified
import Trunk.Ubusd.Traffic
import Trunk.Foundation.Framing
import Trunk.Ubusd.Transmit
import Trunk.Ubusd.Receive
import Trunk.Ubusd.Retry
import Trunk.Ubusd.Delivery
