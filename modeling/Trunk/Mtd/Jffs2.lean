import Trunk.Foundation.Loop
import Trunk.Foundation.Memory
import Trunk.Foundation.Network
import Trunk.Foundation.Orbit
import Trunk.Utils.CString

/-! # The nodes of a jffs2 block

The model of `mtd_parse_jffs2data`. It goes from node to node, each as many bytes behind the last one
as that says in a field of its own. The fields are in the byte order of the host. An access outside
the block is a fault.
-/

namespace Trunk.Mtd.Jffs2

open CString Loop Memory Network Orbit

/-- The loop goes on for too long, or an access is outside the block. -/
inductive Fault where
  | stuck
  | outside
  deriving DecidableEq, Repr

/-- The fixed magic number. -/
def magicBitmask : UInt32 := 0x1985

/-- `JFFS2_NODETYPE_DIRENT`. -/
def nodetypeDirent : UInt32 := 0xE001

/-- `PAD`. -/
def pad (x : UInt32) : UInt32 := (x + 3) &&& ~~~3

variable (order : ByteOrder) (block : List UInt8)

/-- A field of a node. -/
def readField (place length : Nat) : Except Fault UInt32 :=
  match load block place length with
  | some bytes => .ok (UInt32.ofNat (order.word bytes))
  | none => .error .outside

/-- A byte of the block. -/
def readByte (place : Nat) : Except Fault UInt8 :=
  match block[place]? with
  | some byte => .ok byte
  | none => .error .outside

/-- `!strncmp(name, dir, n)`, of a name in the block. The bytes are compared up to the first one that
differs or ends both. -/
def sameName : Nat → Nat → List UInt8 → Except Fault Bool
  | 0, _, _ => .ok true
  | n + 1, place, dir =>
      match readByte block place with
      | .error fault => .error fault
      | .ok byte =>
          match dir with
          | [] => .ok (byte = 0)
          | other :: dir => if byte = other then sameName n (place + 1) dir else .ok false

/-- `target_ino`, `last_ino` and `last_version`. They are compared as unsigned numbers. -/
structure Counters where
  targetIno : UInt32
  lastIno : UInt32
  lastVersion : UInt32
  deriving DecidableEq, Repr

/-- Whether a directory entry is the one of the directory: an entry in `/`, with the name. -/
def isDirectory (dir : List UInt8) (node : Nat) : Except Fault Bool :=
  if dir = [] then .ok false
  else do
    let pino ← readField order block (node + 12) 4
    if pino = 1 then do
      let nsize ← readByte block (node + 28)
      sameName block nsize.toNat (node + 40) dir
    else return false

/-- What is done at a directory entry. -/
def parseDirent (dir : List UInt8) (node : Nat) (counters : Counters) : Except Fault Counters := do
  let isDir ← isDirectory order block dir node
  let ino ← readField order block (node + 20) 4
  let version ← readField order block (node + 16) 4
  return {
    targetIno := if isDir then ino else counters.targetIno
    lastIno := if counters.lastIno < ino then ino else counters.lastIno
    lastVersion := if counters.lastVersion < version then version else counters.lastVersion }

/-- The variables of `mtd_parse_jffs2data`. -/
structure Scan where
  ofs : UInt32
  counters : Counters
  deriving DecidableEq, Repr

/-- A round of the loop of `mtd_parse_jffs2data`. -/
def scanRound (dir : List UInt8) (scan : Scan) : Except Fault (Round Scan Counters) :=
  if scan.ofs.toNat < block.length then do
    let node := scan.ofs.toNat
    let magic ← readField order block node 2
    if magic ≠ magicBitmask then return .done scan.counters
    let totlen ← readField order block (node + 4) 4
    let ofs := scan.ofs + pad totlen
    let nodetype ← readField order block (node + 2) 2
    if nodetype = nodetypeDirent then
      let counters ← parseDirent order block dir node scan.counters
      return .again { ofs, counters }
    else return .again { ofs, counters := scan.counters }
  else .ok (.done scan.counters)

/-- `mtd_parse_jffs2data`, of a number of rounds at most. -/
def parseJffs2data (dir : List UInt8) (rounds : Nat) (counters : Counters) :
    Except Fault Counters :=
  iterate (scanRound order block dir) .stuck rounds { ofs := 0, counters }

/-! ## The nodes that are linked -/

/-- A field of a node, where it is in the block. -/
def fieldAt (place length : Nat) : UInt32 :=
  UInt32.ofNat (order.word ((block.drop place).take length))

/-- The offset behind a node. There is none behind the end of the block, or without the magic. -/
def nextOfs (ofs : UInt32) : Option UInt32 :=
  if ofs.toNat < block.length ∧ fieldAt order block ofs.toNat 2 = magicBitmask then
    some (ofs + pad (fieldAt order block (ofs.toNat + 4) 4))
  else none

/-- The bytes of a name that are compared are in the block: each of them stands behind bytes that are
those of the directory. -/
def NameInside (place nsize : Nat) (dir : List UInt8) : Prop :=
  ∀ k < nsize, k ≤ dir.length → (∀ j < k, block[place + j]? = dir[j]?) → place + k < block.length

/-- The fields of a directory entry that are looked at are in the block. -/
def DirentInside (dir : List UInt8) (node : Nat) : Prop :=
  node + 24 ≤ block.length ∧
    (dir ≠ [] → fieldAt order block (node + 12) 4 = 1 →
      node + 28 < block.length ∧
        NameInside block (node + 40) (block.getD (node + 28) 0).toNat dir)

/-- The fields of a node that are looked at are in the block. -/
def NodeInside (dir : List UInt8) (node : Nat) : Prop :=
  node + 2 ≤ block.length ∧
    (fieldAt order block node 2 = magicBitmask →
      node + 8 ≤ block.length ∧
        (fieldAt order block (node + 2) 2 = nodetypeDirent → DirentInside order block dir node))

/-- The nodes of a block are linked well: whatever is looked at is in the block, and no node leads
back to itself. -/
structure WellLinked (dir : List UInt8) : Prop where
  inside : ∀ ofs, Visits (nextOfs order block) 0 ofs → ofs.toNat < block.length →
    NodeInside order block dir ofs.toNat
  forward : ∀ ofs, Visits (nextOfs order block) 0 ofs → ¬Returns (nextOfs order block) ofs

section Scanning

variable {order : ByteOrder} {block : List UInt8} {dir : List UInt8} {node place length : Nat}
  {scan : Scan}

theorem readField_inside (inside : place + length ≤ block.length) :
    readField order block place length = .ok (fieldAt order block place length) := by
  rw [readField, load_eq_some_iff.mpr ⟨inside, rfl⟩]
  rfl

theorem readField_outside (outside : ¬place + length ≤ block.length) :
    readField order block place length = .error .outside := by
  rw [readField, load, if_neg outside]

theorem readByte_inside (inside : place < block.length) :
    readByte block place = .ok (block.getD place 0) := by
  rw [readByte, List.getElem?_eq_getElem inside, List.getD_eq_getElem _ _ inside]

theorem readByte_outside (outside : ¬place < block.length) :
    readByte block place = .error .outside := by
  rw [readByte, List.getElem?_eq_none (by omega)]

theorem nameInside_cons {other : UInt8} {nsize : Nat} (first : block[place]? = some other) :
    NameInside block place (nsize + 1) (other :: dir) ↔ NameInside block (place + 1) nsize dir := by
  constructor
  · intro all k less short agree
    have inside := all (k + 1) (by omega) (Nat.succ_le_succ short) fun j before => by
      cases j with
      | zero => exact first
      | succ j =>
          have here := agree j (by omega)
          rw [Nat.add_right_comm] at here
          exact here
    omega
  · intro all k less short agree
    cases k with
    | zero => exact (List.getElem?_eq_some_iff.mp first).1
    | succ k =>
        have inside := all k (by omega) (Nat.le_of_succ_le_succ short) fun j before => by
          have here := agree (j + 1) (by omega)
          rw [Nat.add_right_comm]
          exact here
        omega

/-- A name can be compared exactly if the bytes that are compared are in the block. -/
theorem sameName_ok_iff (nsize place : Nat) (dir : List UInt8) :
    (∃ same, sameName block nsize place dir = .ok same) ↔ NameInside block place nsize dir := by
  induction nsize generalizing place dir with
  | zero =>
      refine iff_of_true ⟨true, rfl⟩ ?_
      intro k less
      omega
  | succ nsize ih =>
      by_cases inside : place < block.length
      · cases dir with
        | nil =>
            refine iff_of_true ?_ ?_
            · rw [sameName, readByte_inside inside]
              exact ⟨_, rfl⟩
            · intro k _ short
              obtain rfl : k = 0 := Nat.le_zero.mp short
              exact fun _ => inside
        | cons other dir =>
            have first : block[place]? = some (block.getD place 0) := by
              rw [List.getElem?_eq_getElem inside, List.getD_eq_getElem _ _ inside]
            rw [sameName, readByte_inside inside]
            dsimp only
            by_cases same : block.getD place 0 = other
            · rw [if_pos same, ih, nameInside_cons (same ▸ first)]
            · rw [if_neg same]
              refine iff_of_true ⟨false, rfl⟩ ?_
              intro k less short agree
              cases k with
              | zero => exact inside
              | succ k =>
                  have here := agree 0 (Nat.succ_pos _)
                  rw [Nat.add_zero, first] at here
                  exact absurd (Option.some.inj here) same
      · refine iff_of_false ?_ ?_
        · rw [sameName, readByte_outside inside]
          rintro ⟨same, ran⟩
          cases ran
        · intro all
          exact inside (all 0 (Nat.succ_pos _) (Nat.zero_le _) fun j less => by omega)

theorem isDirectory_ok_iff (fields : node + 24 ≤ block.length) :
    (∃ isDir, isDirectory order block dir node = .ok isDir) ↔
      (dir ≠ [] → fieldAt order block (node + 12) 4 = 1 →
        node + 28 < block.length ∧
          NameInside block (node + 40) (block.getD (node + 28) 0).toNat dir) := by
  by_cases none : dir = []
  · rw [isDirectory, if_pos none]
    exact iff_of_true ⟨false, rfl⟩ fun some' => absurd none some'
  · rw [isDirectory, if_neg none, readField_inside (by omega)]
    change (∃ isDir, (if fieldAt order block (node + 12) 4 = 1 then _ else _) = _) ↔ _
    by_cases root : fieldAt order block (node + 12) 4 = 1
    · rw [if_pos root]
      by_cases size : node + 28 < block.length
      · rw [readByte_inside size]
        refine (sameName_ok_iff _ _ dir).trans ⟨fun inside _ _ => ⟨size, inside⟩, fun all => ?_⟩
        exact (all none root).2
      · rw [readByte_outside size]
        refine iff_of_false ?_ fun all => size (all none root).1
        rintro ⟨isDir, ran⟩
        cases ran
    · rw [if_neg root]
      exact iff_of_true ⟨false, rfl⟩ fun _ other => absurd other root

/-- What is done at an entry whose fields are in the block. -/
theorem parseDirent_eq (fields : node + 24 ≤ block.length) (counters : Counters) {isDir : Bool}
    (asked : isDirectory order block dir node = .ok isDir) :
    parseDirent order block dir node counters = .ok {
      targetIno := if isDir then fieldAt order block (node + 20) 4 else counters.targetIno
      lastIno := if counters.lastIno < fieldAt order block (node + 20) 4 then
        fieldAt order block (node + 20) 4 else counters.lastIno
      lastVersion := if counters.lastVersion < fieldAt order block (node + 16) 4 then
        fieldAt order block (node + 16) 4 else counters.lastVersion } := by
  rw [parseDirent, asked, readField_inside (by omega), readField_inside (by omega)]
  rfl

/-- A directory entry can be looked at exactly if its fields are in the block. -/
theorem parseDirent_ok_iff (counters : Counters) :
    (∃ after, parseDirent order block dir node counters = .ok after) ↔
      DirentInside order block dir node := by
  by_cases fields : node + 24 ≤ block.length
  · unfold DirentInside
    rw [and_iff_right fields, ← isDirectory_ok_iff fields]
    constructor
    · rintro ⟨after, ran⟩
      cases asked : isDirectory order block dir node with
      | error fault =>
          rw [parseDirent, asked] at ran
          cases ran
      | ok isDir => exact ⟨isDir, rfl⟩
    · rintro ⟨isDir, asked⟩
      exact ⟨_, parseDirent_eq fields counters asked⟩
  · refine iff_of_false ?_ fun inside => fields inside.1
    rintro ⟨after, ran⟩
    rw [parseDirent] at ran
    cases asked : isDirectory order block dir node with
    | error fault =>
        rw [asked] at ran
        cases ran
    | ok isDir =>
        rw [asked, readField_outside (by omega)] at ran
        cases ran

/-- What a round does at a node whose header is in the block. -/
theorem scanRound_eq (inside : scan.ofs.toNat < block.length)
    (fields : scan.ofs.toNat + 2 ≤ block.length)
    (header : fieldAt order block scan.ofs.toNat 2 = magicBitmask →
      scan.ofs.toNat + 8 ≤ block.length) :
    scanRound order block dir scan =
      if fieldAt order block scan.ofs.toNat 2 = magicBitmask then
        if fieldAt order block (scan.ofs.toNat + 2) 2 = nodetypeDirent then
          (parseDirent order block dir scan.ofs.toNat scan.counters).map fun counters =>
            .again ⟨scan.ofs + pad (fieldAt order block (scan.ofs.toNat + 4) 4), counters⟩
        else .ok (.again ⟨scan.ofs + pad (fieldAt order block (scan.ofs.toNat + 4) 4), scan.counters⟩)
      else .ok (.done scan.counters) := by
  rw [scanRound, if_pos inside]
  dsimp only
  rw [readField_inside fields]
  by_cases magic : fieldAt order block scan.ofs.toNat 2 = magicBitmask
  · have room := header magic
    rw [if_pos magic, readField_inside (by omega), readField_inside (by omega)]
    change (if fieldAt order block scan.ofs.toNat 2 ≠ magicBitmask then _ else _) = _
    rw [if_neg (not_not_intro magic)]
    change (if fieldAt order block (scan.ofs.toNat + 2) 2 = nodetypeDirent then _ else _) = _
    split
    · cases parseDirent order block dir scan.ofs.toNat scan.counters with
      | error fault => rfl
      | ok counters => rfl
    · rfl
  · rw [if_neg magic]
    change (if fieldAt order block scan.ofs.toNat 2 ≠ magicBitmask then _ else _) = _
    rw [if_pos magic]
    rfl

/-- A round fails at a node whose header is not in the block. -/
theorem scanRound_outside (inside : scan.ofs.toNat < block.length)
    (header : ¬(scan.ofs.toNat + 2 ≤ block.length ∧
      (fieldAt order block scan.ofs.toNat 2 = magicBitmask → scan.ofs.toNat + 8 ≤ block.length))) :
    scanRound order block dir scan = .error .outside := by
  rw [scanRound, if_pos inside]
  dsimp only
  by_cases fields : scan.ofs.toNat + 2 ≤ block.length
  · have missing : fieldAt order block scan.ofs.toNat 2 = magicBitmask ∧
        ¬scan.ofs.toNat + 8 ≤ block.length := by
      rw [and_iff_right fields, Classical.not_imp] at header
      exact header
    rw [readField_inside fields]
    change (if fieldAt order block scan.ofs.toNat 2 ≠ magicBitmask then _ else _) = _
    rw [if_neg (not_not_intro missing.1), readField_outside (by omega)]
    rfl
  · rw [readField_outside fields]
    rfl

/-- A round goes on or ends exactly if the fields of its node are in the block. -/
theorem scanRound_ok_iff :
    (∃ outcome, scanRound order block dir scan = .ok outcome) ↔
      (scan.ofs.toNat < block.length → NodeInside order block dir scan.ofs.toNat) := by
  by_cases inside : scan.ofs.toNat < block.length
  · rw [forall_prop_of_true inside]
    by_cases header : scan.ofs.toNat + 2 ≤ block.length ∧
        (fieldAt order block scan.ofs.toNat 2 = magicBitmask → scan.ofs.toNat + 8 ≤ block.length)
    · rw [scanRound_eq inside header.1 header.2]
      unfold NodeInside
      rw [and_iff_right header.1]
      by_cases magic : fieldAt order block scan.ofs.toNat 2 = magicBitmask
      · rw [if_pos magic, forall_prop_of_true magic, and_iff_right (header.2 magic)]
        by_cases dirent : fieldAt order block (scan.ofs.toNat + 2) 2 = nodetypeDirent
        · rw [if_pos dirent, forall_prop_of_true dirent, ← parseDirent_ok_iff scan.counters]
          cases parsed : parseDirent order block dir scan.ofs.toNat scan.counters with
          | error fault =>
              refine iff_of_false ?_ ?_
              · rintro ⟨outcome, ran⟩
                cases ran
              · rintro ⟨after, ran⟩
                cases ran
          | ok after => exact iff_of_true ⟨_, rfl⟩ ⟨after, rfl⟩
        · rw [if_neg dirent]
          exact iff_of_true ⟨_, rfl⟩ fun other => absurd other dirent
      · rw [if_neg magic]
        exact iff_of_true ⟨_, rfl⟩ fun other => absurd other magic
    · rw [scanRound_outside inside header]
      refine iff_of_false ?_ fun all => header ⟨all.1, fun magic => (all.2 magic).1⟩
      rintro ⟨outcome, ran⟩
      cases ran
  · rw [scanRound, if_neg inside]
    exact iff_of_true ⟨_, rfl⟩ fun other => absurd other inside

/-- A round that does not fail goes to the next node, or ends behind the last one. -/
theorem scanRound_next {outcome : Round Scan Counters}
    (ran : scanRound order block dir scan = .ok outcome) :
    (∃ next, outcome = .again next ∧ nextOfs order block scan.ofs = some next.ofs) ∨
      (∃ counters, outcome = .done counters ∧ nextOfs order block scan.ofs = none) := by
  by_cases inside : scan.ofs.toNat < block.length
  · have node := scanRound_ok_iff.mp ⟨outcome, ran⟩ inside
    rw [scanRound_eq inside node.1 fun magic => (node.2 magic).1] at ran
    by_cases magic : fieldAt order block scan.ofs.toNat 2 = magicBitmask
    · have next : nextOfs order block scan.ofs =
          some (scan.ofs + pad (fieldAt order block (scan.ofs.toNat + 4) 4)) := by
        rw [nextOfs, if_pos ⟨inside, magic⟩]
      rw [if_pos magic] at ran
      split at ran
      · cases parsed : parseDirent order block dir scan.ofs.toNat scan.counters with
        | error fault =>
            rw [parsed] at ran
            cases ran
        | ok after =>
            rw [parsed] at ran
            obtain rfl := Except.ok.inj ran
            exact .inl ⟨_, rfl, next⟩
      · obtain rfl := Except.ok.inj ran
        exact .inl ⟨_, rfl, next⟩
    · rw [if_neg magic] at ran
      obtain rfl := Except.ok.inj ran
      exact .inr ⟨_, rfl, by rw [nextOfs, if_neg fun both => magic both.2]⟩
  · rw [scanRound, if_neg inside] at ran
    obtain rfl := Except.ok.inj ran
    exact .inr ⟨_, rfl, by rw [nextOfs, if_neg fun both => inside both.1]⟩

/-- The loop ends exactly if the walk from node to node does, and all nodes are in the block. -/
theorem scan_ends_iff (scan : Scan) :
    (∃ rounds after, iterate (scanRound order block dir) .stuck rounds scan = .ok after) ↔
      (∀ ofs, Visits (nextOfs order block) scan.ofs ofs → ofs.toNat < block.length →
        NodeInside order block dir ofs.toNat) ∧ Ends (nextOfs order block) scan.ofs := by
  constructor
  · rintro ⟨rounds, after, ran⟩
    induction rounds generalizing scan with
    | zero => cases ran
    | succ rounds ih =>
        cases round : scanRound order block dir scan with
        | error fault =>
            rw [iterate_error round] at ran
            cases ran
        | ok outcome =>
            have here := scanRound_ok_iff.mp ⟨outcome, round⟩
            rcases scanRound_next round with ⟨next, rfl, step⟩ | ⟨counters, rfl, last⟩
            · rw [iterate_again round] at ran
              obtain ⟨inside, count, ended⟩ := ih next ran
              refine ⟨fun ofs visits => ?_, count + 1, (after_succ step).trans ended⟩
              rcases visits_cases visits with rfl | ⟨place, there, later⟩
              · exact here
              · obtain rfl := Option.some.inj (step.symm.trans there)
                exact inside ofs later
            · refine ⟨fun ofs visits => ?_, 1, by rw [Orbit.after, last]; rfl⟩
              rcases visits_cases visits with rfl | ⟨place, there, -⟩
              · exact here
              · rw [last] at there
                cases there
  · rintro ⟨inside, count, ended⟩
    induction count generalizing scan with
    | zero => cases ended
    | succ count ih =>
        obtain ⟨outcome, round⟩ := scanRound_ok_iff.mpr (inside _ (visits_self _ _))
        rcases scanRound_next round with ⟨next, rfl, step⟩ | ⟨counters, rfl, last⟩
        · rw [after_succ step] at ended
          obtain ⟨rounds, after, ran⟩ := ih next (fun ofs visits => inside ofs (visits.head step)) ended
          exact ⟨rounds + 1, after, (iterate_again round rounds).trans ran⟩
        · exact ⟨1, counters, iterate_done round 0⟩

instance finite_uInt32 : Finite UInt32 := Finite.of_injective UInt32.toFin fun _ _ => UInt32.toFin_inj.mp

/-- The scan of a block ends without an access outside it exactly if the nodes of the block are linked
well. -/
theorem parseJffs2data_iff (order : ByteOrder) (block : List UInt8) (dir : CStr)
    (counters : Counters) :
    (∃ rounds after, parseJffs2data order block dir.bytes rounds counters = .ok after) ↔
      WellLinked order block dir.bytes := by
  refine (@scan_ends_iff order block dir.bytes ⟨0, counters⟩).trans ?_
  rw [ends_iff]
  exact ⟨fun both => ⟨both.1, both.2⟩, fun linked => ⟨linked.inside, linked.forward⟩⟩

/-- A node without a length. -/
def emptyNode : List UInt8 := [0x85, 0x19, 0, 0, 0, 0, 0, 0]

/-- A node of length zero leads back to itself. -/
theorem parseJffs2data_stuck :
    ¬∀ (order : ByteOrder) (block : List UInt8) (dir : CStr) (counters : Counters),
      ∃ rounds after, parseJffs2data order block dir.bytes rounds counters = .ok after := by
  intro claimed
  have ends := ((scan_ends_iff ⟨0, ⟨0, 0, 0⟩⟩).mp
    (claimed .little emptyNode ⟨[], by decide⟩ ⟨0, 0, 0⟩)).2
  have back : nextOfs .little emptyNode 0 = some 0 := by decide
  exact not_ends_of_returns ⟨0, (after_succ back).trans rfl⟩ ends

end Scanning

end Trunk.Mtd.Jffs2
