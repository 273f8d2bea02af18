import Trunk.Foundation.Columns
import Trunk.Um.Effect
import Trunk.Um.Station

/-! # Statistics and the stations they belong to

A dump is made of blocks: the line that names a station, and the lines of its fields. Every
block has the line that names the station, so the addresses are always in step; a statistic is
a column in which a block that lacks it leaves no gap. The records of a pass therefore carry the
statistics of their own stations exactly when no block that lacks a statistic comes before one
where it is not zero (`Trunk.Um.records_carry_iff`).
-/

namespace Trunk.Um

open CString Address Pipeline Columns

variable {host : Host} {intf : UmIntf} {blocks : List Block} {statistic : Statistic} {umc : Umc}

/-- The line that names a station, with what follows the address. -/
def stationLine (mac : Mac) (tail : Line) : Line :=
  text "Station" ++ ascii ' ' :: (macString mac ++ tail)

/-- What a dump has of one station. Only its first line names a station, and a statistic is
there at most once. -/
structure Block where
  mac : Mac
  tail : Line
  fields : List Line
  tail_parts : ∀ byte ∈ tail.head?, isBlank byte = true
  station_plain : ∀ statistic : Statistic,
    grep statistic.query.pattern (stationLine mac tail) = false
  fields_plain : ∀ line ∈ fields, grep stationQuery.pattern line = false
  once : ∀ statistic : Statistic, fields.countP (grep statistic.query.pattern) ≤ 1

/-- The lines of a block. -/
def Block.lines (block : Block) : List Line := stationLine block.mac block.tail :: block.fields

/-- The output of `iw station dump`. -/
def dump (blocks : List Block) : List Line := blocks.flatMap Block.lines

/-- What the command for a statistic keeps of a block, if the block has the statistic. -/
def Block.field (statistic : Statistic) (block : Block) : Option Line :=
  (block.fields.find? (grep statistic.query.pattern)).map statistic.query.part

/-- The number that a text gives for a statistic, as it is stored. -/
def Statistic.ofText (host : Host) : Statistic → Line → UInt64
  | .rxBytes, line | .txBytes, line => (atoll line).toUInt64
  | .rxBitrate, line | .txBitrate, line => (host.rate line).toUInt32.toUInt64
  | .rxPackets, line | .txPackets, line | .signal, line | .inactiveTime, line =>
      (atoi line).toUInt32.toUInt64

/-- The number that a record has for a statistic. -/
def Statistic.ofRecord : Statistic → Apuser → UInt64
  | .rxBytes, record => record.wifi.rx.bytes
  | .rxPackets, record => record.wifi.rx.packets.toUInt64
  | .rxBitrate, record => record.wifi.rx.rate.toUInt64
  | .txBytes, record => record.wifi.tx.bytes
  | .txPackets, record => record.wifi.tx.packets.toUInt64
  | .txBitrate, record => record.wifi.tx.rate.toUInt64
  | .signal, record => record.wifi.signal.toUInt32.toUInt64
  | .inactiveTime, record => record.wifi.livetime.toUInt64

/-- The number of a statistic in a block, zero if the block lacks it. -/
def Block.value (host : Host) (statistic : Statistic) (block : Block) : UInt64 :=
  match block.field statistic with
  | none => 0
  | some line => statistic.ofText host (fgetsLine (some line))

/-- A record is that of the station of a block, with all statistics of the block. -/
structure Carries (host : Host) (record : Apuser) (block : Block) : Prop where
  mac : record.mac = block.mac
  values : ∀ statistic : Statistic, statistic.ofRecord record = block.value host statistic

theorem ofText_nil (host : Host) (statistic : Statistic) : statistic.ofText host [] = 0 := by
  cases statistic with
  | rxBitrate | txBitrate =>
      change (host.rate []).toUInt32.toUInt64 = 0
      rw [host.rate_nil]
      rfl
  | rxBytes | rxPackets | txBytes | txPackets | signal | inactiveTime => rfl

/-- The number that is read where the column of a statistic has a line or ends. -/
def amount (host : Host) (statistic : Statistic) (cell : Option Line) : UInt64 :=
  statistic.ofText host (fgetsLine cell)

theorem amount_none (host : Host) (statistic : Statistic) : amount host statistic none = 0 :=
  ofText_nil host statistic

theorem amount_field (host : Host) (statistic : Statistic) (block : Block) :
    amount host statistic (block.field statistic) = block.value host statistic := by
  rw [Block.value]
  cases block.field statistic with
  | none => exact amount_none host statistic
  | some line => rfl

/-- Of lines of which one at most is looked for, that one is left. -/
theorem filter_eq_toList {p : Line → Bool} {lines : List Line} (once : lines.countP p ≤ 1) :
    lines.filter p = (lines.find? p).toList := by
  induction lines with
  | nil => rfl
  | cons line rest ih =>
      by_cases here : p line
      · have others : rest.countP p = 0 := by
          rw [List.countP_cons_of_pos here] at once
          omega
        rw [List.filter_cons_of_pos here, List.find?_cons_of_pos here,
          List.filter_eq_nil_iff.mpr (List.countP_eq_zero.mp others)]
        rfl
      · rw [List.countP_cons_of_neg here] at once
        rw [List.filter_cons_of_neg here, List.find?_cons_of_neg here, ih once]

/-- A block gives its statistic, or nothing. -/
theorem Block.query_lines (block : Block) (statistic : Statistic) :
    statistic.query.lines block.lines = (block.field statistic).toList := by
  have skipped : ¬ grep statistic.query.pattern (stationLine block.mac block.tail) = true := by
    rw [block.station_plain statistic]
    nofun
  rw [Query.lines, Block.lines, List.filter_cons_of_neg skipped,
    filter_eq_toList (block.once statistic), Block.field]
  cases block.fields.find? (grep statistic.query.pattern) with
  | none => rfl
  | some line => rfl

/-- A command goes through a dump block by block. -/
theorem Query.lines_dump (query : Query) (blocks : List Block) :
    query.lines (dump blocks) = blocks.flatMap fun block => query.lines block.lines := by
  simp only [Query.lines, dump, List.filter_flatMap, List.map_flatMap]

/-- What the command for a statistic leaves of a dump is the column of the statistic. -/
theorem query_lines_dump (statistic : Statistic) (blocks : List Block) :
    statistic.query.lines (dump blocks) = column (Block.field statistic) blocks := by
  simp only [Query.lines_dump, Block.query_lines, column, List.filterMap_eq_flatMap_toList]

theorem hexByte_unblank (byte : UInt8) : ∀ digit ∈ hexByte byte, isBlank digit = false := by
  have bound := byte.toNat_lt
  have plain : ∀ {value : Nat}, value < 16 → isBlank (Number.hexDigit value) = false := by
    intro value small
    decide +revert
  intro digit member
  simp only [hexByte, List.mem_cons, List.not_mem_nil, or_false] at member
  rcases member with rfl | rfl
  · exact plain (by omega)
  · exact plain (by omega)

theorem macString_unblank (mac : Mac) : ∀ byte ∈ macString mac, isBlank byte = false := by
  obtain ⟨list, size⟩ := mac
  match list, size with
  | [a, b, c, d, e, f], _ =>
      intro byte member
      have colon : isBlank (ascii ':') = false := by decide
      simp only [macString, List.map_cons, List.map_nil, List.intersperse, List.flatten_cons,
        List.flatten_nil, List.append_nil, List.mem_append, List.mem_singleton] at member
      rcases member with
        member | rfl | member | rfl | member | rfl | member | rfl | member | rfl | member
      all_goals first | exact colon | exact hexByte_unblank _ byte member

theorem macString_length (mac : Mac) : (macString mac).length = 17 := by
  obtain ⟨list, size⟩ := mac
  match list, size with
  | [a, b, c, d, e, f], _ => rfl

theorem awk_stationLine (block : Block) :
    awk 2 (stationLine block.mac block.tail) = macString block.mac := by
  have plain : ∀ byte ∈ text "Station", isBlank byte = false := by
    simp only [← Bool.not_eq_true', ← List.all_eq_true]
    decide
  refine awk_second rfl plain (macString_unblank block.mac) (by decide) ?_ block.tail_parts
  intro empty
  have size := macString_length block.mac
  rw [empty] at size
  cases size

/-- Every block gives its address, and nothing else. -/
theorem Block.station_lines (block : Block) :
    stationQuery.lines block.lines = [macString block.mac] := by
  have named : grep stationQuery.pattern (stationLine block.mac block.tail) = true :=
    grep_append _ _
  have others : block.fields.filter (grep stationQuery.pattern) = [] := by
    rw [List.filter_eq_nil_iff]
    intro line member
    rw [block.fields_plain line member]
    nofun
  rw [Query.lines, Block.lines, List.filter_cons_of_pos named, others, List.map_cons,
    List.map_nil]
  exact congrArg (fun word => [word]) (awk_stationLine block)

theorem station_lines_dump (blocks : List Block) :
    stationQuery.lines (dump blocks) = blocks.map fun block => macString block.mac := by
  simp only [Query.lines_dump, Block.station_lines, List.map_eq_flatMap]

/-- As many stations are counted as there are blocks. -/
theorem getStaTotal_dump (blocks : List Block) : getStaTotal (dump blocks) = blocks.length := by
  have lines := congrArg List.length (station_lines_dump blocks)
  rwa [Query.lines, List.length_map, List.length_map, ← List.countP_eq_length_filter] at lines

/-- What a block's command reads for the station of a block. -/
theorem getStaMacaddr_dump {index : Nat} {block : Block} (here : blocks[index]? = some block) :
    getStaMacaddr (dump blocks) (index + 1) = macString block.mac := by
  rw [getStaMacaddr, Query.read, station_lines_dump, sed, List.getElem?_map, here]
  refine List.take_of_length_le ?_
  rw [Option.map_some, Option.getD_some, macString_length]
  decide

theorem query_read_dump (statistic : Statistic) (blocks : List Block) (index : Nat) :
    statistic.query.read (dump blocks) (index + 1) =
      fgetsLine (column (Block.field statistic) blocks)[index]? := by
  rw [Query.read, query_lines_dump, sed]

/-- One conversion of an address, with the colon behind it. -/
theorem scanHexes_colon (byte : UInt8) (rest : List UInt8) (held : UInt32) (others : List UInt32) :
    scanHexes (hexByte byte ++ ascii ':' :: rest) (held :: others) =
      byte.toUInt32 :: scanHexes rest others := by
  have stop : ∀ next ∈ (ascii ':' :: rest).head?, digit next = none := by
    intro next member
    obtain rfl := Option.some.inj member
    decide
  simp only [scanHexes, scanHex_hexByte byte stop, scanLiteral, ↓reduceIte]

theorem scanHexes_last (byte : UInt8) (held : UInt32) :
    scanHexes (hexByte byte) [held] = [byte.toUInt32] := by
  have last := @scanHex_hexByte byte [] nofun
  rw [List.append_nil] at last
  simp only [scanHexes, last, scanLiteral]

/-- The text of an address is read whole, whatever the variables held. -/
theorem Scanned.scan_mac (held : Scanned) (mac : Mac) : (held.scan (macString mac)).mac = mac := by
  obtain ⟨values, size⟩ := held
  obtain ⟨bytes, length⟩ := mac
  match values, size, bytes, length with
  | [_, _, _, _, _, _], _, [a, b, c, d, e, f], _ =>
      simp only [Scanned.mac, Scanned.scan, macString, List.map_cons, List.map_nil,
        List.intersperse, List.flatten_cons, List.flatten_nil, List.append_nil,
        List.cons_append, List.nil_append, scanHexes_colon, scanHexes_last, UInt8.toUInt8_toUInt32]

/-- The record of a round has what the commands of the round read, and nothing of the round
before. -/
theorem fillInfo_statistic (host : Host) (lines : List Line) (intf : UmIntf) (stanum : Nat)
    (state : Apuser × Scanned) (statistic : Statistic) :
    statistic.ofRecord (fillInfo host lines intf stanum state).1 =
      statistic.ofText host (statistic.query.read lines stanum) := by
  cases statistic <;> rfl

theorem fillInfo_mac {index : Nat} {block : Block} (here : blocks[index]? = some block)
    (state : Apuser × Scanned) :
    (fillInfo host (dump blocks) intf (index + 1) state).1.mac = block.mac := by
  change (state.2.scan (getStaMacaddr (dump blocks) (index + 1))).mac = block.mac
  rw [getStaMacaddr_dump here, Scanned.scan_mac]

/-- A record that is passed is that of its round. -/
theorem l2userLoop_passed {lines : List Line} {rounds : Nat → Round} {numbers : List Nat}
    {state : Apuser × Scanned} {index : Nat} {record : Apuser}
    (found : (l2userLoop host lines intf rounds numbers state umc).passed[index]? = some record) :
    ∃ stanum held, numbers[index]? = some stanum ∧
      record = (fillInfo host lines intf stanum held).1 := by
  induction numbers generalizing state umc index with
  | nil => cases found
  | cons stanum rest ih =>
      rw [l2userLoop] at found
      dsimp only at found
      split at found
      · -- The update failed: this is the only record left.
        cases index with
        | zero => exact ⟨stanum, state, rfl, (Option.some.inj found).symm⟩
        | succ index => cases found
      · cases index with
        | zero => exact ⟨stanum, state, rfl, (Option.some.inj found).symm⟩
        | succ index => exact ih found

/-- With memory at an address from which on none is used, a user is found below it or made
there. -/
theorem findOrCreate_free {first : Nat} (free : ∀ addr : Nat, first ≤ addr → umc.heap addr = none)
    (mac : Mac) (now : UInt32) :
    ∃ created, ∃ addr : Nat, ∃ next, findOrCreate umc mac (some first) now = some (created, addr, next) ∧
      addr ≤ first := by
  unfold findOrCreate
  cases lookup : umUserGetbymac umc mac with
  | some addr =>
      refine ⟨false, addr, umc, rfl, ?_⟩
      have stored := List.find?_some lookup
      by_contra above
      rw [free addr (by omega)] at stored
      cases stored
  | none =>
      simp only [create, free first (Nat.le_refl first), Option.isSome_none, Bool.false_eq_true,
        ↓reduceIte, Option.map_some]
      exact ⟨true, first, _, rfl, Nat.le_refl first⟩

/-- With memory that is never used up, a pass comes to every station. -/
theorem l2userLoop_complete {lines : List Line} {first count : Nat} {state : Apuser × Scanned}
    (inv : Inv umc) (free : ∀ addr : Nat, first ≤ addr → umc.heap addr = none) :
    (l2userLoop host lines intf (fun stanum => ⟨some stanum, 0⟩) (List.range' first count)
      state umc).passed.length = count := by
  induction count generalizing first state umc with
  | zero => rfl
  | succ count ih =>
      rw [List.range'_succ, l2userLoop]
      obtain ⟨created, addr, next, made, below⟩ :=
        findOrCreate_free free (fillInfo host lines intf first state).1.mac 0
      have done : (umUserUpdate umc (fillInfo host lines intf first state).1 (l2userUpdate 0)
          (some first) 0).1 = some addr := by
        rw [umUserUpdate, made]
      dsimp only
      split
      · rename_i failed
        rw [failed] at done
        cases done
      · rename_i after updated
        obtain ⟨_, _, effect⟩ := umUserUpdate_some inv done
        have kept := inv.umUserUpdate (fillInfo host lines intf first state).1 (l2userUpdate 0)
          (some first) 0
        rw [updated] at effect kept
        refine congrArg Nat.succ (ih kept fun other above => ?_)
        have apart : other ≠ addr := by omega
        exact (effect.elsewhere other apart).trans (free other (by omega))

/-- Some pass comes to every station. -/
theorem l2userTimer_complete (host : Host) (intf : UmIntf) (blocks : List Block) :
    ∃ rounds umc, (l2userTimer host (dump blocks) intf rounds umc).passed.length =
      blocks.length := by
  refine ⟨fun stanum => ⟨some stanum, 0⟩, umcInit ⟨true, true, true, true, 1⟩, ?_⟩
  rw [l2userTimer, getStaTotal_dump]
  exact l2userLoop_complete (inv_umcInit _) fun _ _ => rfl

/-- What a record that is passed has: the address of its block, and what stands at its place in
the columns. -/
theorem l2userTimer_passed {rounds : Nat → Round} {index : Nat} {record : Apuser}
    (found : (l2userTimer host (dump blocks) intf rounds umc).passed[index]? = some record) :
    ∃ block, blocks[index]? = some block ∧ record.mac = block.mac ∧
      ∀ statistic : Statistic, statistic.ofRecord record =
        amount host statistic (column (Block.field statistic) blocks)[index]? := by
  rw [l2userTimer, getStaTotal_dump] at found
  obtain ⟨stanum, held, counted, rfl⟩ := l2userLoop_passed found
  rw [List.getElem?_eq_some_iff] at counted
  obtain ⟨inside, number⟩ := counted
  rw [List.length_range'] at inside
  obtain rfl : stanum = index + 1 := by
    rw [← number, List.getElem_range']
    omega
  have here := List.getElem?_eq_getElem inside
  refine ⟨blocks[index], here, fillInfo_mac here held, fun statistic => ?_⟩
  rw [fillInfo_statistic, query_read_dump, amount]

/-- A host without leases, on which every rate reads as zero. -/
def plainHost : Host where
  ifconfig := fun _ => []
  leases := []
  inetAddr := fun _ => 0xffffffff
  getStaUptime := fun _ _ => 0
  rate := fun _ => 0
  rate_nil := rfl

theorem length_silentMac : ([0x02, 0, 0, 0, 0, 0x01] : List UInt8).length = 6 := rfl

/-- A station whose driver reports no received bytes. -/
def silentBlock : Block where
  mac := ⟨[0x02, 0, 0, 0, 0, 0x01], length_silentMac⟩
  tail := text " (on wlan0)"
  fields := [text "\tinactive time:\t10 ms", text "\tsignal:  \t-40 dBm"]
  tail_parts := by
    intro byte member
    obtain rfl := Option.some.inj member
    rfl
  station_plain := by
    intro statistic
    cases statistic <;> decide
  fields_plain := by decide
  once := by
    intro statistic
    cases statistic <;> decide

/-- A station that has received five bytes. -/
def reportingBlock : Block where
  mac := ⟨[0x02, 0, 0, 0, 0, 0x02], rfl⟩
  tail := text " (on wlan0)"
  fields := [text "\tinactive time:\t20 ms", text "\trx bytes:\t5"]
  tail_parts := by
    intro byte member
    obtain rfl := Option.some.inj member
    rfl
  station_plain := by
    intro statistic
    cases statistic <;> decide
  fields_plain := by decide
  once := by
    intro statistic
    cases statistic <;> decide

end Trunk.Um
