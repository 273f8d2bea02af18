import Trunk.Mtd.Jffs2

/-! # Blocks of jffs2 nodes

A block that is well formed is a row of nodes, with something behind them that is no node. The scan of
such a block looks at its directory entries one by one (`Trunk.Mtd.Jffs2.parseJffs2data_nodes`). The
name of an entry is taken for the one of the directory as soon as it is a prefix of it
(`Trunk.Mtd.Jffs2.sameName_name`).
-/

namespace Trunk.Mtd.Jffs2

open CString Loop Memory Network

variable (order : ByteOrder)

/-- A node is a directory entry. -/
def IsDirent (node : List UInt8) : Prop := fieldAt order node 2 2 = nodetypeDirent

instance (node : List UInt8) : Decidable (IsDirent order node) := inferInstanceAs (Decidable (_ = _))

/-- `de->pino`. -/
def pinoOf (node : List UInt8) : UInt32 := fieldAt order node 12 4

/-- `de->version`. -/
def versionOf (node : List UInt8) : UInt32 := fieldAt order node 16 4

/-- `de->ino`. -/
def inoOf (node : List UInt8) : UInt32 := fieldAt order node 20 4

/-- `de->nsize`. -/
def nsizeOf (node : List UInt8) : Nat := (node.getD 28 0).toNat

/-- The name of a directory entry. -/
def nameOf (node : List UInt8) : List UInt8 := (node.drop 40).take (nsizeOf node)

/-- The bytes of a node, which is as long as it says, with the padding behind it. -/
structure IsNode (node : List UInt8) : Prop where
  header : 8 ≤ node.length
  magic : fieldAt order node 0 2 = magicBitmask
  totlen : (pad (fieldAt order node 4 4)).toNat = node.length
  name : IsDirent order node → 40 + nsizeOf node ≤ node.length ∧ 0 ∉ nameOf node

/-- What is behind the last node of a block: nothing, or no node. -/
def NoNode (tail : List UInt8) : Prop :=
  tail = [] ∨ 2 ≤ tail.length ∧ fieldAt order tail 0 2 ≠ magicBitmask

/-- A block of nodes. -/
structure WellFormed (nodes : List (List UInt8)) (block : List UInt8) : Prop where
  some : nodes ≠ []
  isNode : ∀ node ∈ nodes, IsNode order node
  whole : ∃ tail, block = nodes.flatten ++ tail ∧ NoNode order tail
  small : block.length < 2 ^ 32

/-- An entry of `/` whose name is taken for that of the directory. -/
def Taken (dir node : List UInt8) : Prop := dir ≠ [] ∧ pinoOf order node = 1 ∧ nameOf node <+: dir

instance (dir node : List UInt8) : Decidable (Taken order dir node) :=
  inferInstanceAs (Decidable (_ ∧ _))

/-- What the scan keeps of a node. -/
def note (dir : List UInt8) (counters : Counters) (node : List UInt8) : Counters :=
  if IsDirent order node then {
    targetIno := if Taken order dir node then inoOf order node else counters.targetIno
    lastIno := if counters.lastIno < inoOf order node then inoOf order node else counters.lastIno
    lastVersion :=
      if counters.lastVersion < versionOf order node then versionOf order node
      else counters.lastVersion }
  else counters

section Nodes

variable {order : ByteOrder} {front node back dir name tail : List UInt8} {place length : Nat}

/-- A field of a node is the same in the block. -/
theorem fieldAt_middle (inside : place + length ≤ node.length) :
    fieldAt order (front ++ node ++ back) (front.length + place) length =
      fieldAt order node place length := by
  unfold fieldAt
  rw [List.append_assoc, ← List.drop_drop, List.drop_left, List.drop_append_of_le_length (by omega),
    List.take_append_of_le_length (by rw [List.length_drop]; omega)]

/-- The first field of a node. -/
theorem fieldAt_front (inside : length ≤ node.length) :
    fieldAt order (front ++ node ++ back) front.length length = fieldAt order node 0 length :=
  @fieldAt_middle order front node back 0 length (by omega)

theorem getD_middle (inside : place < node.length) :
    (front ++ node ++ back).getD (front.length + place) 0 = node.getD place 0 := by
  rw [List.getD_eq_getElem?_getD, List.append_assoc, List.getElem?_append_right (by omega),
    Nat.add_sub_cancel_left, List.getElem?_append_left inside, ← List.getD_eq_getElem?_getD]

/-- A name is taken for that of the directory exactly if it is a prefix of it: no more bytes are
compared than the name has. -/
theorem sameName_name (block : List UInt8) (noNul : 0 ∉ name) (dir : List UInt8) (place : Nat)
    (rest : List UInt8) (there : block.drop place = name ++ rest) :
    sameName block name.length place dir = .ok (decide (name <+: dir)) := by
  induction name generalizing place dir with
  | nil => simp [sameName]
  | cons byte name ih =>
      have read : readByte block place = .ok byte := by
        have first : block[place]? = some byte := by
          rw [← List.head?_drop, there, List.cons_append, List.head?_cons]
        rw [readByte, first]
      have later : block.drop (place + 1) = name ++ rest := by
        rw [← List.drop_drop, there, List.cons_append, List.drop_one, List.tail_cons]
      have nonzero : byte ≠ 0 := fun zero => noNul (zero ▸ List.mem_cons_self ..)
      rw [List.length_cons, sameName, read]
      dsimp only
      cases dir with
      | nil => simp [nonzero]
      | cons other dir =>
          dsimp only
          by_cases same : byte = other
          · rw [if_pos same, ih (fun member => noNul (List.mem_cons_of_mem _ member)) dir _ later]
            simp [List.cons_prefix_cons, same]
          · rw [if_neg same]
            simp [List.cons_prefix_cons, same]

/-- The scan asks whether a directory entry of a block is taken. -/
theorem isDirectory_node (isNode : IsNode order node) (dirent : IsDirent order node) :
    isDirectory order (front ++ node ++ back) dir front.length = .ok (Taken order dir node) := by
  obtain ⟨room, noNul⟩ := isNode.name dirent
  unfold Taken
  by_cases none : dir = []
  · rw [isDirectory, if_pos none]
    simp [none]
  · rw [isDirectory, if_neg none,
      readField_inside (by rw [List.length_append, List.length_append]; omega),
      fieldAt_middle (by omega)]
    change (if pinoOf order node = 1 then _ else _) = _
    by_cases root : pinoOf order node = 1
    · have there : (front ++ node ++ back).drop (front.length + 40) =
          nameOf node ++ ((node.drop 40).drop (nsizeOf node) ++ back) := by
        rw [List.append_assoc, ← List.drop_drop, List.drop_left,
          List.drop_append_of_le_length (by omega), ← List.append_assoc, nameOf,
          List.take_append_drop]
      have size : (nameOf node).length = nsizeOf node := by
        rw [nameOf, List.length_take, List.length_drop]
        omega
      rw [if_pos root, readByte_inside (by rw [List.length_append, List.length_append]; omega),
        getD_middle (by omega)]
      change sameName _ (nsizeOf node) _ _ = _
      rw [← size, sameName_name _ noNul dir _ _ there]
      simp [none, root]
    · rw [if_neg root]
      simp [root]
      rfl

/-- A round of the scan takes a node. -/
theorem scanRound_node (isNode : IsNode order node) (counters : Counters)
    (small : (front ++ node ++ back).length < 2 ^ 32) :
    scanRound order (front ++ node ++ back) dir ⟨UInt32.ofNat front.length, counters⟩ =
      .ok (.again ⟨UInt32.ofNat (front ++ node).length, note order dir counters node⟩) := by
  have header := isNode.header
  rw [List.length_append, List.length_append] at small
  have ofs : (UInt32.ofNat front.length).toNat = front.length :=
    UInt32.toNat_ofNat_of_lt' (by rw [UInt32.size]; omega)
  have room : front.length + 8 ≤ (front ++ node ++ back).length := by
    rw [List.length_append, List.length_append]
    omega
  have magic : fieldAt order (front ++ node ++ back) front.length 2 = magicBitmask :=
    (fieldAt_front (by omega)).trans isNode.magic
  have next : UInt32.ofNat front.length + pad (fieldAt order node 4 4) =
      UInt32.ofNat (front ++ node).length := by
    have totlen : pad (fieldAt order node 4 4) = UInt32.ofNat node.length := by
      rw [← isNode.totlen, UInt32.ofNat_toNat]
    rw [totlen, List.length_append, UInt32.ofNat_add]
  rw [scanRound_eq (by dsimp only; rw [ofs]; omega) (by dsimp only; rw [ofs]; omega)
    (fun _ => by dsimp only; rw [ofs]; exact room)]
  dsimp only
  rw [ofs, magic, if_pos rfl, fieldAt_middle (by omega), fieldAt_middle (by omega), next]
  change (if IsDirent order node then _ else _) = _
  by_cases dirent : IsDirent order node
  · obtain ⟨name, -⟩ := isNode.name dirent
    rw [if_pos dirent,
      parseDirent_eq (by rw [List.length_append, List.length_append]; omega) counters
        (isDirectory_node isNode dirent),
      fieldAt_middle (by omega), fieldAt_middle (by omega), note, if_pos dirent]
    simp only [decide_eq_true_eq]
    rfl
  · rw [if_neg dirent, note, if_neg dirent]

/-- The scan ends behind the last node. -/
theorem scanRound_tail (ends : NoNode order tail) (counters : Counters)
    (small : (front ++ tail).length < 2 ^ 32) :
    scanRound order (front ++ tail) dir ⟨UInt32.ofNat front.length, counters⟩ =
      .ok (.done counters) := by
  rw [List.length_append] at small
  have ofs : (UInt32.ofNat front.length).toNat = front.length :=
    UInt32.toNat_ofNat_of_lt' (by rw [UInt32.size]; omega)
  rcases ends with rfl | ⟨two, other⟩
  · rw [List.append_nil, scanRound, if_neg]
    dsimp only
    rw [ofs]
    omega
  · have magic : fieldAt order (front ++ tail) front.length 2 ≠ magicBitmask := by
      have same : fieldAt order (front ++ tail ++ []) front.length 2 = fieldAt order tail 0 2 :=
        fieldAt_front two
      rw [List.append_nil] at same
      rw [same]
      exact other
    have room : front.length + 2 ≤ (front ++ tail).length := by
      rw [List.length_append]
      omega
    rw [scanRound_eq (by dsimp only; rw [ofs]; omega) (by dsimp only; rw [ofs]; exact room)
      (by dsimp only; rw [ofs]; exact fun found => absurd found magic)]
    dsimp only
    rw [ofs, if_neg magic]

/-- The scan goes over the nodes of a block one by one. -/
theorem scan_nodes {nodes : List (List UInt8)} (isNode : ∀ node ∈ nodes, IsNode order node)
    (ends : NoNode order tail) (front : List UInt8) (counters : Counters)
    (small : (front ++ (nodes.flatten ++ tail)).length < 2 ^ 32) {rounds : Nat}
    (enough : nodes.length < rounds) :
    iterate (scanRound order (front ++ (nodes.flatten ++ tail)) dir) .stuck rounds
      ⟨UInt32.ofNat front.length, counters⟩ = .ok (nodes.foldl (note order dir) counters) := by
  obtain ⟨rounds, rfl⟩ := Nat.exists_eq_add_of_lt enough
  induction nodes generalizing front counters with
  | nil =>
      rw [List.flatten_nil, List.nil_append] at small ⊢
      exact iterate_done (scanRound_tail ends counters small) _
  | cons node nodes ih =>
      have shape : front ++ ((node :: nodes).flatten ++ tail) =
          front ++ node ++ (nodes.flatten ++ tail) := by
        rw [List.flatten_cons, List.append_assoc, List.append_assoc]
      rw [shape] at small ⊢
      have fuel : (node :: nodes).length + rounds + 1 = nodes.length + rounds + 1 + 1 := by
        rw [List.length_cons]
        omega
      rw [fuel, iterate_again (scanRound_node (isNode node (List.mem_cons_self ..)) counters small)]
      exact ih (fun other member => isNode other (List.mem_cons_of_mem _ member)) (front ++ node) _
        small (by omega)

/-- Each node has eight bytes. -/
theorem length_le_flatten {nodes : List (List UInt8)} (isNode : ∀ node ∈ nodes, IsNode order node) :
    nodes.length ≤ nodes.flatten.length := by
  induction nodes with
  | nil => exact Nat.le_refl _
  | cons node nodes ih =>
      have here := (isNode node (List.mem_cons_self ..)).header
      have later := ih fun other member => isNode other (List.mem_cons_of_mem _ member)
      rw [List.flatten_cons, List.length_append, List.length_cons]
      omega

/-- The scan of a block of nodes. -/
theorem parseJffs2data_nodes {nodes : List (List UInt8)} {block : List UInt8}
    (formed : WellFormed order nodes block) (dir : List UInt8) (counters : Counters) :
    parseJffs2data order block dir (block.length + 1) counters =
      .ok (nodes.foldl (note order dir) counters) := by
  obtain ⟨tail, whole, ends⟩ := formed.whole
  have small := formed.small
  have few := length_le_flatten formed.isNode
  have enough : nodes.length < block.length + 1 := by
    rw [whole, List.length_append]
    omega
  have shape : block = [] ++ (nodes.flatten ++ tail) := by rw [List.nil_append, whole]
  rw [parseJffs2data]
  rw [shape] at small
  have ran : iterate (scanRound order _ dir) .stuck _ _ = _ :=
    scan_nodes formed.isNode ends [] counters small enough
  rw [← shape] at ran
  exact ran

end Nodes

end Trunk.Mtd.Jffs2
