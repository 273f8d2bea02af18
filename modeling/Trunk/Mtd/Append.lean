import Mathlib.Data.List.DropRight
import Trunk.Mtd.Nodes
import Trunk.Utils.Crc32

/-! # Files that are appended to jffs2

The model of `mtd_write_jffs2`. It scans the blocks of the partition, and writes the nodes of the file
from the first block on that has no magic. What is written is the list of the nodes; how they are
packed into erase blocks is left out, and so are the pieces in which the content of the file is read,
which are those of the packing. The counters start at zero, as in a program that has done nothing
else.
-/

namespace Trunk.Mtd.Jffs2

open CString Crc32 Loop Memory Network Orbit

/-- The magic of a file system in the other byte order. -/
def magicSwapped : UInt32 := 0x8519

/-- `JFFS2_NODETYPE_INODE`. -/
def nodetypeInode : UInt32 := 0xE002

/-- `DT_DIR`. -/
def dtDir : UInt8 := 4

/-- `DT_REG`. -/
def dtReg : UInt8 := 8

variable (order : ByteOrder)

def u16 (value : UInt32) : List UInt8 := order.memory 2 value.toNat

def u32 (value : UInt32) : List UInt8 := order.memory 4 value.toNat

/-- The first fields of a node, with their CRC. -/
def nodeHeader (nodetype totlen : UInt32) : List UInt8 :=
  let unknown := u16 order magicBitmask ++ u16 order nodetype ++ u32 order totlen
  unknown ++ u32 order (crc32 0 unknown)

/-- `struct jffs2_raw_dirent`, up to its CRC. -/
def direntFront (ino pino version : UInt32) (type : UInt8) (name : List UInt8) : List UInt8 :=
  nodeHeader order nodetypeDirent (UInt32.ofNat (40 + name.length)) ++ u32 order pino ++
    u32 order version ++ u32 order ino ++ u32 order 0 ++
    [UInt8.ofNat name.length, type, 0, 0]

/-- `struct jffs2_raw_dirent`, with its name. -/
def rawDirent (ino pino version : UInt32) (type : UInt8) (name : List UInt8) : List UInt8 :=
  let front := direntFront order ino pino version type name
  front ++ u32 order (crc32 0 front) ++ u32 order (crc32 0 name) ++ name

/-- What `stat` says of a file. -/
structure Stat where
  mode : UInt32
  size : UInt32
  atime : UInt32
  ctime : UInt32
  mtime : UInt32
  deriving DecidableEq, Repr

/-- `struct jffs2_raw_inode`, with its data. -/
def rawInode (ino version : UInt32) (st : Stat) (offset : UInt32) (data : List UInt8)
    (dataCrc : UInt32) : List UInt8 :=
  let dsize := UInt32.ofNat data.length
  let front := nodeHeader order nodetypeInode (UInt32.ofNat (68 + data.length)) ++ u32 order ino ++
    u32 order version ++ u32 order st.mode ++ u16 order 0 ++ u16 order 0 ++ u32 order st.size ++
    u32 order st.atime ++ u32 order st.mtime ++ u32 order st.ctime ++ u32 order offset ++
    u32 order dsize ++ u32 order dsize ++ [0, 0] ++ u16 order 0
  front ++ u32 order dataCrc ++ u32 order (crc32 0 front) ++ data

/-- `add_dirent`: the inode, the counters behind it, and the node. -/
def addDirent (name : List UInt8) (type : UInt8) (parent : UInt32) (counters : Counters) :
    UInt32 × Counters × List UInt8 :=
  let ino := counters.lastIno + 1
  let version := counters.lastVersion
  (ino, { counters with lastIno := ino + 1, lastVersion := version + 1 },
    rawDirent order ino parent version type name)

/-- `add_dir`. -/
def addDir (name : List UInt8) (parent : UInt32) (counters : Counters) :
    UInt32 × Counters × List (List UInt8) :=
  let (inode, counters, dirent) := addDirent order name dtDir parent counters
  (inode, counters, [dirent, rawInode order inode 1 ⟨0o40755, 0, 0, 0, 0⟩ 0 [] 0])

/-- A file: its path, what `stat` says of it, and the pieces in which it is read. -/
structure File where
  path : List UInt8
  stat : Stat
  pieces : List (List UInt8)
  deriving DecidableEq, Repr

/-- The name behind the last slash. -/
def File.fname (file : File) : List UInt8 := file.path.rtakeWhile fun byte => byte ≠ ascii '/'

/-- The loop of `add_file` over the pieces. -/
def addPieces (inode : UInt32) (st : Stat) : UInt32 → List (List UInt8) → Counters →
    Counters × List (List UInt8)
  | _, [], counters => (counters, [])
  | offset, piece :: pieces, counters =>
      let version := counters.lastVersion + 1
      let node := rawInode order inode version st offset piece (crc32 0 piece)
      let (counters, nodes) := addPieces inode st (offset + UInt32.ofNat piece.length) pieces
        { counters with lastVersion := version }
      (counters, node :: nodes)

/-- `add_file`, of a file that is there. -/
def addFile (file : File) (parent : UInt32) (counters : Counters) : Counters × List (List UInt8) :=
  let (inode, counters, dirent) := addDirent order file.fname dtReg parent counters
  let (counters, nodes) := addPieces order inode file.stat 0 file.pieces counters
  (counters, dirent :: nodes)

/-- The loop of `mtd_write_jffs2` over the blocks. There is an error where the partition ends, or has
the other byte order. A scan that takes more rounds than the block has bytes does not end. -/
def scanBlocks (dir : List UInt8) : List (List UInt8) → Counters → Except Fault (Option Counters)
  | [], _ => .ok none
  | block :: blocks, counters => do
      let magic ← readField order block 0 2
      if magic = magicSwapped then return none
      if magic ≠ magicBitmask then return some counters
      let counters ← parseJffs2data order block dir (block.length + 1) counters
      scanBlocks dir blocks counters

/-- What `mtd_write_jffs2` writes when the scan is over. -/
def writeNodes (file : File) (dir : List UInt8) (counters : Counters) : List (List UInt8) :=
  let counters := if counters.lastIno = 0 then { counters with lastIno := 1 } else counters
  if counters.targetIno = 0 then
    let (inode, counters, nodes) := addDir order dir 1 counters
    nodes ++ (addFile order file inode counters).2
  else (addFile order file counters.targetIno counters).2

/-- `mtd_write_jffs2`: the nodes it writes, if there is no error. -/
def mtdWriteJffs2 (partition : List (List UInt8)) (file : File) (dir : List UInt8) :
    Except Fault (Option (List (List UInt8))) := do
  let counters ← scanBlocks order dir partition ⟨if dir = [] then 1 else 0, 0, 0⟩
  return counters.map (writeNodes order file dir)

/-! ## The nodes that are written -/

section Written

variable {order : ByteOrder} {front back : List UInt8} {place length : Nat}

@[simp] theorem length_u16 (value : UInt32) : (u16 order value).length = 2 := order.length_memory 2 _

@[simp] theorem length_u32 (value : UInt32) : (u32 order value).length = 4 := order.length_memory 4 _

theorem fieldAt_append (inside : place + length ≤ front.length) :
    fieldAt order (front ++ back) place length = fieldAt order front place length := by
  have middle : fieldAt order ([] ++ front ++ back) (0 + place) length =
      fieldAt order front place length := fieldAt_middle inside
  rw [List.nil_append, Nat.zero_add] at middle
  exact middle

theorem fieldAt_memory (front : List UInt8) (width value : Nat) :
    fieldAt order (front ++ order.memory width value) front.length width =
      UInt32.ofNat (value % 2 ^ (8 * width)) := by
  rw [fieldAt, List.drop_left, List.take_of_length_le (Nat.le_of_eq (order.length_memory width value)),
    ByteOrder.word_memory]

theorem fieldAt_u32 (front : List UInt8) (value : UInt32) :
    fieldAt order (front ++ u32 order value) front.length 4 = value := by
  rw [u32, fieldAt_memory, Nat.mod_eq_of_lt value.toNat_lt, UInt32.ofNat_toNat]

@[simp] theorem length_nodeHeader (nodetype totlen : UInt32) :
    (nodeHeader order nodetype totlen).length = 12 := by
  simp [nodeHeader]

/-- The node type is read back. -/
theorem fieldAt_nodeHeader {nodetype : UInt32} (small : nodetype.toNat < 2 ^ 16) (totlen : UInt32) :
    fieldAt order (nodeHeader order nodetype totlen) 2 2 = nodetype := by
  have field : fieldAt order (u16 order magicBitmask ++ u16 order nodetype) 2 2 = nodetype := by
    have read := @fieldAt_memory order (u16 order magicBitmask) 2 nodetype.toNat
    rw [length_u16, Nat.mod_eq_of_lt small, UInt32.ofNat_toNat] at read
    exact read
  unfold nodeHeader
  rw [fieldAt_append (by simp), fieldAt_append (by simp), field]

variable (ino pino version : UInt32) (type : UInt8) (name : List UInt8)

@[simp] theorem length_direntFront :
    (direntFront order ino pino version type name).length = 32 := by
  simp [direntFront]

/-- What a field in front of the name is. -/
theorem fieldAt_rawDirent (inside : place + length ≤ 32) :
    fieldAt order (rawDirent order ino pino version type name) place length =
      fieldAt order (direntFront order ino pino version type name) place length := by
  unfold rawDirent
  rw [fieldAt_append (by simp; omega), fieldAt_append (by simp; omega),
    fieldAt_append (by simp; omega)]

theorem isDirent_rawDirent : IsDirent order (rawDirent order ino pino version type name) := by
  unfold IsDirent
  rw [fieldAt_rawDirent _ _ _ _ _ (by omega)]
  unfold direntFront
  simp (disch := simp) only [fieldAt_append]
  exact fieldAt_nodeHeader (by decide) _

/-- A word in front of the name is read back, where the fields before it end. -/
theorem fieldAt_word {before rest : List UInt8} {value : UInt32} (start : before.length = place)
    (parts : direntFront order ino pino version type name = before ++ u32 order value ++ rest) :
    fieldAt order (rawDirent order ino pino version type name) place 4 = value := by
  have size := @length_direntFront order ino pino version type name
  rw [parts, List.length_append, List.length_append, length_u32, start] at size
  rw [fieldAt_rawDirent _ _ _ _ _ (by omega), parts,
    fieldAt_append (by rw [List.length_append, length_u32, start]), ← start, fieldAt_u32]

theorem pinoOf_rawDirent : pinoOf order (rawDirent order ino pino version type name) = pino := by
  have parts : direntFront order ino pino version type name =
      nodeHeader order nodetypeDirent (UInt32.ofNat (40 + name.length)) ++ u32 order pino ++
        (u32 order version ++ u32 order ino ++ u32 order 0 ++
          [UInt8.ofNat name.length, type, 0, 0]) := by
    simp [direntFront]
  exact fieldAt_word _ _ _ _ _ (by simp) parts

theorem versionOf_rawDirent :
    versionOf order (rawDirent order ino pino version type name) = version := by
  have parts : direntFront order ino pino version type name =
      nodeHeader order nodetypeDirent (UInt32.ofNat (40 + name.length)) ++ u32 order pino ++
        u32 order version ++
          (u32 order ino ++ u32 order 0 ++ [UInt8.ofNat name.length, type, 0, 0]) := by
    simp [direntFront]
  exact fieldAt_word _ _ _ _ _ (by simp) parts

theorem inoOf_rawDirent : inoOf order (rawDirent order ino pino version type name) = ino := by
  have parts : direntFront order ino pino version type name =
      nodeHeader order nodetypeDirent (UInt32.ofNat (40 + name.length)) ++ u32 order pino ++
        u32 order version ++ u32 order ino ++
          (u32 order 0 ++ [UInt8.ofNat name.length, type, 0, 0]) := by
    simp [direntFront]
  exact fieldAt_word _ _ _ _ _ (by simp) parts

/-- The length of the name is kept in one byte. -/
theorem nsizeOf_rawDirent :
    nsizeOf (rawDirent order ino pino version type name) = name.length % 256 := by
  have read : ∀ head rest : List UInt8, head.length = 28 →
      (head ++ [UInt8.ofNat name.length, type, 0, 0] ++ rest).getD 28 0 =
        UInt8.ofNat name.length := by
    intro head rest size
    have first := @getD_middle head [UInt8.ofNat name.length, type, 0, 0] rest 0 (by simp)
    rw [size] at first
    exact first
  unfold nsizeOf rawDirent direntFront
  rw [List.append_assoc, List.append_assoc, read _ _ (by simp), UInt8.toNat_ofNat']

theorem nameOf_rawDirent :
    nameOf (rawDirent order ino pino version type name) = name.take (name.length % 256) := by
  have place : (direntFront order ino pino version type name ++
      u32 order (crc32 0 (direntFront order ino pino version type name)) ++
        u32 order (crc32 0 name)).length = 40 := by
    simp
  rw [nameOf, nsizeOf_rawDirent]
  unfold rawDirent
  rw [List.drop_left' place]

/-- A name is read back exactly if it is short. -/
theorem nameOf_rawDirent_iff :
    nameOf (rawDirent order ino pino version type name) = name ↔ name.length < 256 := by
  rw [nameOf_rawDirent, List.take_eq_self_iff]
  constructor
  · intro small
    exact Nat.lt_of_le_of_lt small (Nat.mod_lt _ (by decide))
  · intro small
    exact Nat.le_of_eq (Nat.mod_eq_of_lt small).symm

theorem not_isDirent_rawInode (st : Stat) (offset : UInt32) (data : List UInt8)
    (dataCrc : UInt32) : ¬IsDirent order (rawInode order ino version st offset data dataCrc) := by
  unfold IsDirent rawInode
  simp (disch := simp) only [fieldAt_append]
  rw [fieldAt_nodeHeader (by decide)]
  decide

end Written


/-! ## What is written behind the blocks -/

/-- The directory entries among nodes. -/
def dirents (nodes : List (List UInt8)) : List (List UInt8) := nodes.filter (IsDirent order ·)

/-- An entry is that of the directory. -/
def Root (dir entry : List UInt8) : Prop := pinoOf order entry = 1 ∧ nameOf entry = dir

instance (dir entry : List UInt8) : Decidable (Root order dir entry) :=
  inferInstanceAs (Decidable (_ ∧ _))

/-- The file is put into the directory, which is made if there is none, and what is written is newer
than the entries that are there. -/
structure Appends (dir : List UInt8) (present written : List (List UInt8)) : Prop where
  attached : (∃ entry ∈ present, Root order dir entry) → ∃ file,
    dirents order written = [file] ∧
      ∃ entry ∈ present, Root order dir entry ∧ pinoOf order file = inoOf order entry
  created : (∀ entry ∈ present, ¬Root order dir entry) → ∃ directory file,
    dirents order written = [directory, file] ∧ Root order dir directory ∧
      pinoOf order file = inoOf order directory
  newer : ∀ new ∈ dirents order written, ∀ old ∈ present,
    inoOf order old < inoOf order new ∧ versionOf order old < versionOf order new

section Behind

variable {order : ByteOrder} {dir : List UInt8} {nodes : List (List UInt8)} {counters : Counters}

/-- Without directory entries nothing is noted. -/
theorem foldl_note_nil (none : dirents order nodes = []) (counters : Counters) :
    nodes.foldl (note order dir) counters = counters := by
  induction nodes with
  | nil => rfl
  | cons node nodes ih =>
      have not := List.filter_eq_nil_iff.mp none
      have here : ¬IsDirent order node := fun dirent =>
        not node (List.mem_cons_self ..) (decide_eq_true dirent)
      rw [List.foldl_cons, note, if_neg here]
      exact ih (List.filter_eq_nil_iff.mpr fun other member =>
        not other (List.mem_cons_of_mem _ member))

/-- The last version is one of a directory entry, if it is not what it was. -/
theorem foldl_note_version (nodes : List (List UInt8)) (counters : Counters) :
    (nodes.foldl (note order dir) counters).lastVersion = counters.lastVersion ∨
      ∃ old ∈ dirents order nodes,
        (nodes.foldl (note order dir) counters).lastVersion = versionOf order old := by
  induction nodes generalizing counters with
  | nil => exact .inl rfl
  | cons node nodes ih =>
      rw [List.foldl_cons]
      rcases ih (note order dir counters node) with same | ⟨old, member, same⟩
      · rw [same, note]
        by_cases dirent : IsDirent order node
        · rw [if_pos dirent]
          dsimp only
          by_cases larger : counters.lastVersion < versionOf order node
          · rw [if_pos larger]
            exact .inr ⟨node, List.mem_filter.mpr ⟨List.mem_cons_self .., decide_eq_true dirent⟩, rfl⟩
          · rw [if_neg larger]
            exact .inl rfl
        · rw [if_neg dirent]
          exact .inl rfl
      · obtain ⟨there, dirent⟩ := List.mem_filter.mp member
        exact .inr ⟨old, List.mem_filter.mpr ⟨List.mem_cons_of_mem _ there, dirent⟩, same⟩

/-- The scan goes over well-formed blocks, up to the first one without the magic. -/
theorem scanBlocks_nodes {blocks : List (List UInt8)} {lists : List (List (List UInt8))}
    (formed : List.Forall₂ (WellFormed order) lists blocks) {free : List UInt8}
    (room : 2 ≤ free.length) (other : fieldAt order free 0 2 ≠ magicBitmask)
    (same : fieldAt order free 0 2 ≠ magicSwapped) (rest : List (List UInt8))
    (counters : Counters) :
    scanBlocks order dir (blocks ++ free :: rest) counters =
      .ok (some (lists.flatten.foldl (note order dir) counters)) := by
  induction formed generalizing counters with
  | nil =>
      rw [List.nil_append, scanBlocks, readField_inside (by omega)]
      change (if fieldAt order free 0 2 = magicSwapped then _ else _) = _
      rw [if_neg same, if_pos other]
      rfl
  | @cons nodes block lists blocks formed _ ih =>
      obtain ⟨tail, whole, -⟩ := formed.whole
      obtain ⟨node, nodes', first⟩ := List.exists_cons_of_ne_nil formed.some
      have isNode := formed.isNode node (first ▸ List.mem_cons_self ..)
      have header := isNode.header
      have front : block = node ++ (nodes'.flatten ++ tail) := by
        rw [whole, first, List.flatten_cons, List.append_assoc]
      have magic : fieldAt order block 0 2 = magicBitmask := by
        rw [front, fieldAt_append (by omega), isNode.magic]
      have inside : 0 + 2 ≤ block.length := by
        rw [front, List.length_append]
        omega
      rw [List.cons_append, scanBlocks, readField_inside inside, magic, parseJffs2data_nodes formed,
        List.flatten_cons, List.foldl_append]
      change scanBlocks order dir (blocks ++ free :: rest) _ = _
      exact ih _

theorem dirents_append (front back : List (List UInt8)) :
    dirents order (front ++ back) = dirents order front ++ dirents order back :=
  List.filter_append ..

theorem dirents_dirent (ino pino version : UInt32) (type : UInt8) (name : List UInt8)
    (nodes : List (List UInt8)) :
    dirents order (rawDirent order ino pino version type name :: nodes) =
      rawDirent order ino pino version type name :: dirents order nodes :=
  List.filter_cons_of_pos (decide_eq_true (isDirent_rawDirent ..))

theorem dirents_inode (ino version : UInt32) (st : Stat) (offset : UInt32) (data : List UInt8)
    (dataCrc : UInt32) (nodes : List (List UInt8)) :
    dirents order (rawInode order ino version st offset data dataCrc :: nodes) =
      dirents order nodes :=
  List.filter_cons_of_neg fun dirent => not_isDirent_rawInode _ _ _ _ _ _ (of_decide_eq_true dirent)

/-- The pieces of a file are no directory entries. -/
theorem dirents_addPieces (inode : UInt32) (st : Stat) (offset : UInt32)
    (pieces : List (List UInt8)) (counters : Counters) :
    dirents order (addPieces order inode st offset pieces counters).2 = [] := by
  induction pieces generalizing offset counters with
  | nil => rfl
  | cons piece pieces ih =>
      unfold addPieces
      dsimp only
      rw [dirents_inode]
      exact ih _ _

/-- A file has one directory entry. -/
theorem dirents_addFile (file : File) (parent : UInt32) (counters : Counters) :
    dirents order (addFile order file parent counters).2 =
      [rawDirent order (counters.lastIno + 1) parent counters.lastVersion dtReg file.fname] := by
  unfold addFile addDirent
  dsimp only
  rw [dirents_dirent, dirents_addPieces]

/-- A directory has one entry, and so has the file in it. -/
theorem dirents_addDir (dir : List UInt8) (parent : UInt32) (counters : Counters) :
    dirents order (addDir order dir parent counters).2.2 =
      [rawDirent order (counters.lastIno + 1) parent counters.lastVersion dtDir dir] := by
  unfold addDir addDirent
  dsimp only
  rw [dirents_dirent, dirents_inode]
  rfl

end Behind


section Appending

variable {order : ByteOrder} {dir : List UInt8} {lists : List (List (List UInt8))}
  {blocks : List (List UInt8)} {free : List UInt8}

/-- The run over well-formed blocks succeeds. -/
theorem mtdWriteJffs2_writeNodes (formed : List.Forall₂ (WellFormed order) lists blocks)
    (room : 2 ≤ free.length) (other : fieldAt order free 0 2 ≠ magicBitmask)
    (same : fieldAt order free 0 2 ≠ magicSwapped) (rest : List (List UInt8)) (file : File)
    (some' : dir ≠ []) :
    mtdWriteJffs2 order (blocks ++ free :: rest) file dir =
      .ok (some (writeNodes order file dir (lists.flatten.foldl (note order dir) ⟨0, 0, 0⟩))) := by
  rw [mtdWriteJffs2, if_neg some', scanBlocks_nodes formed room other same]
  rfl

/-- The first entry that is written has the last version that was noted. -/
theorem writeNodes_version (file : File) (dir : List UInt8) (counters : Counters) :
    ∃ new ∈ dirents order (writeNodes order file dir counters),
      versionOf order new = counters.lastVersion := by
  unfold writeNodes
  dsimp only
  have kept : (if counters.lastIno = 0 then { counters with lastIno := 1 } else counters).lastVersion =
      counters.lastVersion := by
    split <;> rfl
  generalize (if counters.lastIno = 0 then { counters with lastIno := 1 } else counters) = counters'
    at kept
  rw [← kept]
  by_cases none : counters'.targetIno = 0
  · rw [if_pos none, dirents_append, dirents_addDir]
    exact ⟨_, List.mem_append_left _ (List.mem_singleton_self _), versionOf_rawDirent ..⟩
  · rw [if_neg none, dirents_addFile]
    exact ⟨_, List.mem_singleton_self _, versionOf_rawDirent ..⟩

/-- Where there are no entries, the directory is made, and the file is put into it. -/
theorem dirents_writeNodes_start (file : File) (dir : List UInt8) :
    dirents order (writeNodes order file dir ⟨0, 0, 0⟩) =
      [rawDirent order 2 1 0 dtDir dir, rawDirent order 4 2 1 dtReg file.fname] := by
  unfold writeNodes
  dsimp only
  rw [if_pos rfl, if_pos rfl, dirents_append, dirents_addDir, dirents_addFile]
  rfl

/-- Over well-formed blocks a file is appended as it should be exactly if there is no directory entry
in them, and the name of the directory has less than 256 bytes: the first entry that is written has the
version of one that is there. -/
theorem mtdWriteJffs2_appends_iff (formed : List.Forall₂ (WellFormed order) lists blocks)
    (room : 2 ≤ free.length) (other : fieldAt order free 0 2 ≠ magicBitmask)
    (same : fieldAt order free 0 2 ≠ magicSwapped) (rest : List (List UInt8)) (file : File)
    (some' : dir ≠ []) :
    ∃ nodes, mtdWriteJffs2 order (blocks ++ free :: rest) file dir = .ok (some nodes) ∧
      (Appends order dir (dirents order lists.flatten) nodes ↔
        dirents order lists.flatten = [] ∧ dir.length < 256) := by
  refine ⟨_, mtdWriteJffs2_writeNodes formed room other same rest file some', ?_⟩
  by_cases none : dirents order lists.flatten = []
  · rw [foldl_note_nil none, none, and_iff_right rfl]
    constructor
    · intro appends
      obtain ⟨directory, last, entries, root, -⟩ := appends.created fun entry member =>
        absurd member List.not_mem_nil
      rw [dirents_writeNodes_start] at entries
      obtain ⟨rfl, -⟩ := List.cons.inj entries
      exact (nameOf_rawDirent_iff _ _ _ _ _).mp root.2
    · intro short
      refine ⟨?_, ?_, ?_⟩
      · rintro ⟨entry, member, -⟩
        exact absurd member List.not_mem_nil
      · intro _
        refine ⟨_, _, dirents_writeNodes_start file dir, ⟨pinoOf_rawDirent .., ?_⟩, ?_⟩
        · exact (nameOf_rawDirent_iff _ _ _ _ _).mpr short
        · rw [pinoOf_rawDirent, inoOf_rawDirent]
      · intro new _ old member
        exact absurd member List.not_mem_nil
  · refine iff_of_false ?_ fun both => none both.1
    intro appends
    obtain ⟨new, entry, version⟩ := @writeNodes_version order file dir
      (lists.flatten.foldl (note order dir) ⟨0, 0, 0⟩)
    rcases @foldl_note_version order dir lists.flatten ⟨0, 0, 0⟩ with
      zero | ⟨old, there, same'⟩
    · obtain ⟨old, there⟩ := List.exists_mem_of_ne_nil _ none
      have less := (appends.newer new entry old there).2
      rw [version, zero] at less
      exact absurd less UInt32.not_lt_zero
    · have less := (appends.newer new entry old there).2
      rw [version, same'] at less
      exact absurd less (UInt32.lt_irrefl _)

/-- A block with the content of a file, which has no name. -/
def unnamed : List UInt8 := rawInode .little 2 1 ⟨0o100644, 0, 0, 0, 0⟩ 0 [] 0

theorem unnamed_wellFormed : WellFormed .little [unnamed] unnamed where
  some := List.cons_ne_nil _ _
  isNode := by
    intro node member
    obtain rfl := List.mem_singleton.mp member
    exact {
      header := by decide +kernel
      magic := by decide +kernel
      totlen := by decide +kernel
      name := by decide +kernel }
  whole := ⟨[], by simp, .inl rfl⟩
  small := by decide +kernel

theorem mtdWriteJffs2_appends_iff_unnamed : ∃ nodes,
    mtdWriteJffs2 .little [unnamed, [0xDE, 0xAD]] ⟨[ascii '/', ascii 'f'], ⟨0, 0, 0, 0, 0⟩, []⟩
      [ascii 'a'] = .ok (some nodes) ∧ Appends .little [ascii 'a'] [] nodes := by
  have none : dirents .little [[unnamed]].flatten = [] := by decide +kernel
  have room : 2 ≤ ([0xDE, 0xAD] : List UInt8).length := by decide
  obtain ⟨nodes, ran, appends⟩ := mtdWriteJffs2_appends_iff (.cons unnamed_wellFormed .nil)
    room (by decide) (by decide) [] ⟨[ascii '/', ascii 'f'], ⟨0, 0, 0, 0, 0⟩, []⟩
    (List.cons_ne_nil (ascii 'a') [])
  rw [none] at appends
  exact ⟨nodes, ran, appends.mpr ⟨rfl, by decide⟩⟩

/-- The directory `a` of `/`, for a block with nothing else. -/
def entryA : List UInt8 := rawDirent .big 2 1 1 dtDir [ascii 'a'] ++ [0, 0, 0]

theorem entryA_wellFormed : WellFormed .big [entryA] entryA where
  some := List.cons_ne_nil _ _
  isNode := by
    intro node member
    obtain rfl := List.mem_singleton.mp member
    exact {
      header := by decide +kernel
      magic := by decide +kernel
      totlen := by decide +kernel
      name := by decide +kernel }
  whole := ⟨[], by simp, .inl rfl⟩
  small := by decide +kernel

/-- A file for the directory `ab` is put into the directory `a`, with the version of that. -/
theorem mtdWriteJffs2_takes_prefix :
    List.Forall₂ (WellFormed .big) [[entryA]] [entryA] ∧ ∃ nodes,
      mtdWriteJffs2 .big [entryA, [0xFF, 0xFF]] ⟨[ascii 'f'], ⟨0, 0, 0, 0, 0⟩, []⟩
        [ascii 'a', ascii 'b'] = .ok (some nodes) ∧
      dirents .big nodes = [rawDirent .big 3 2 1 dtReg [ascii 'f']] ∧
      ¬Appends .big [ascii 'a', ascii 'b'] (dirents .big [entryA]) nodes := by
  have formed : List.Forall₂ (WellFormed .big) [[entryA]] [entryA] := .cons entryA_wellFormed .nil
  have one : dirents .big (writeNodes .big ⟨[ascii 'f'], ⟨0, 0, 0, 0, 0⟩, []⟩ [ascii 'a', ascii 'b']
      ([entryA].foldl (note .big [ascii 'a', ascii 'b']) ⟨0, 0, 0⟩)) =
        [rawDirent .big 3 2 1 dtReg [ascii 'f']] := by
    decide +kernel
  refine ⟨formed, _, mtdWriteJffs2_writeNodes formed (by decide) (by decide) (by decide) [] _
    (List.cons_ne_nil _ _), one, ?_⟩
  intro appends
  obtain ⟨directory, file, entries, -⟩ := appends.created (by decide +kernel)
  have lengths := congrArg List.length (one.symm.trans entries)
  cases lengths

end Appending

end Trunk.Mtd.Jffs2
