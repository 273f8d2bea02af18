import Trunk.Partool.Corrupt

/-! # Blocks that are handed out

`part_block_create` with everything that can fail around it: the lock, the read callback and the
human file. A failure of `open`, `flock`, `fopen` or `fread` is an `errno`, which is positive, and
the callers test for a negative number. So such a failure goes by, and the block is handed out
unless the CRC of what the cache holds is wrong (`Trunk.Partool.createBlock_sound_iff`). The read
callback of `partool` has the same slip (`Trunk.Partool.partoolRead_code`).
-/

namespace Trunk.Partool

open CString Crc32

/-- What the read callback does: its code, the cache it leaves, and whether it read the partition.
Where it did not, the code may still be zero. -/
structure Answer where
  code : Int
  cache : List UInt8
  done : Bool

/-- What becomes of the human file: it cannot be opened, it is opened and the read fails, or it is
read. The number is `errno`. -/
inductive Human where
  | missing (errno : Nat)
  | unreadable (errno : Nat) (cache : List UInt8)
  | content (file : List UInt8) (errno : Nat)

/-- The outcomes of the system calls, with the `errno` of those that fail, and the callback. It
writes inside the cache, and it does not call a partition read that gives another code than zero. -/
structure Environment where
  open_ : Option Nat
  flock : Option Nat
  read : List UInt8 → Answer
  human : Human
  inside : ∀ cache, (read cache).cache.length = cache.length
  honest : ∀ cache, (read cache).code ≠ 0 → (read cache).done = false

variable {order : ByteOrder} {past : UInt8} {mode : PartMode} {size : Nat} {xor : UInt32}
  {env : Environment}

/-- `part_lock`. -/
def partLock (env : Environment) : Int :=
  match env.open_ with
  | some errno => errno
  | none =>
      match env.flock with
      | some errno => errno
      | none => 0

/-- `part_human_read` with its outcomes. -/
def readHuman (human : Human) (block : PartBlock) : Option (Int × PartBlock) :=
  match human with
  | .missing errno => partHumanRead none errno block
  | .unreadable errno cache =>
      if block.size < headerLen then none else some (errno, { block with cache := cache })
  | .content file errno => partHumanRead (some file) errno block

/-- `part_block_init` with its outcomes. -/
def initBlock (order : ByteOrder) (past : UInt8) (env : Environment) (block : PartBlock) :
    Option (Int × PartBlock) :=
  match block.mode with
  | .load => do
      let (err, block) ← readHuman env.human block
      if err < 0 then return (err, block)
      return (0, { block with dirty := true })
  | _ => partBlockInit order past (fun cache => ((env.read cache).code, (env.read cache).cache))
      none 0 block

/-- `part_block_create` with its outcomes, behind its checks on `NULL` arguments. -/
def createBlock (order : ByteOrder) (past : UInt8) (env : Environment) (mode : PartMode)
    (size : Nat) (xor : UInt32) : Option (Option PartBlock) :=
  if size = 0 then some none
  else if partLock env < 0 then some none
  else do
    let (err, block) ← initBlock order past env (partBlockNew mode size xor)
    return if err < 0 then none else some block

/-- The lock was acquired. -/
def Environment.Locks (env : Environment) : Prop := env.open_ = none ∧ env.flock = none

/-- The partition or the human file was read, where the mode asks for it. -/
def Environment.Loads (env : Environment) (mode : PartMode) (size : Nat) : Prop :=
  match mode with
  | .normal => (env.read (List.replicate size 0)).done = true
  | .crc => (env.read (List.replicate size 0)).done = true
  | .load => ∃ file errno, env.human = .content file errno
  | .empty => True

/-- A block is created, changed and flushed: what the write callback was handed. -/
def session {Flash : Type} (order : ByteOrder) (past : UInt8) (env : Environment)
    (mode : PartMode) (size : Nat) (xor : UInt32) (edit : PartBlock → PartBlock)
    (write : List UInt8 → Flash → Int × Flash) (flash : Flash) :
    Option (Option (List UInt8) × Flash) := do
  match ← createBlock order past env mode size xor with
  | none => return (none, flash)
  | some block =>
      let flushed ← partBlockFlush order write (edit block) flash
      return (flushed.image, flushed.flash)

/-- A block is handed out only if it is locked and loaded. After a failure there is none, and the
partition is not written. -/
structure Sound (order : ByteOrder) (past : UInt8) (env : Environment) (mode : PartMode)
    (size : Nat) (xor : UInt32) : Prop where
  created : ∀ block, createBlock order past env mode size xor = some (some block) →
    env.Locks ∧ env.Loads mode size
  failed : ¬(env.Locks ∧ env.Loads mode size) →
    createBlock order past env mode size xor = some none ∧
      ∀ (Flash : Type) (edit : PartBlock → PartBlock) (write : List UInt8 → Flash → Int × Flash)
        (flash : Flash), session order past env mode size xor edit write flash = some (none, flash)

/-- What the callback left in the cache, without the key. -/
def leftBehind (order : ByteOrder) (env : Environment) (size : Nat) (xor : UInt32) : List UInt8 :=
  masked order (blockKey xor) (env.read (List.replicate size 0)).cache

/-- The block is refused whatever failed: there are no bytes to it, the callback gives a negative
code, or, in normal mode, the text of its CRC stands for another number than the CRC. -/
def Refused (order : ByteOrder) (env : Environment) (mode : PartMode) (size : Nat)
    (xor : UInt32) : Prop :=
  size = 0 ∨
    match mode with
    | .normal => 4 ∣ size ∧ ((env.read (List.replicate size 0)).code < 0 ∨
        9 ≤ size ∧ (∀ byte ∈ crcStored (leftBehind order env size xor), (digit byte).isSome = true) ∧
          ¬ Denotes (crcStored (leftBehind order env size xor))
            (osCrc32 ((leftBehind order env size xor).drop headerLen)))
    | .crc => 4 ∣ size ∧ (env.read (List.replicate size 0)).code < 0
    | _ => False

/-- `part_lock` never gives a negative number. -/
theorem partLock_nonneg (env : Environment) : ¬ partLock env < 0 := by
  unfold partLock
  split
  · omega
  · split
    · omega
    · omega

/-- Where the human file is read, this is the creation of a block without its lock. -/
theorem createBlock_content {file : List UInt8} {errno : Nat}
    (human : env.human = .content file errno) :
    createBlock order past env mode size xor =
      partBlockCreate order past mode size
        (fun cache => ((env.read cache).code, (env.read cache).cache)) (some file) errno xor := by
  have init : initBlock order past env (partBlockNew mode size xor) =
      partBlockInit order past (fun cache => ((env.read cache).code, (env.read cache).cache))
        (some file) errno (partBlockNew mode size xor) := by
    cases mode with
    | load =>
        change (readHuman env.human _).bind _ = _
        rw [human]
        rfl
    | normal => rfl
    | empty => rfl
    | crc => rfl
  rw [createBlock, if_neg (partLock_nonneg env), init]
  rfl

theorem partXor_eq_none (order : ByteOrder) {block : PartBlock} (key : block.xor ≠ 0)
    (words : ¬ 4 ∣ block.size) : partXor order block = none := by
  rw [partXor, if_neg key, if_neg]
  exact fun zero => words (Nat.dvd_of_mod_eq_zero zero)

/-- `part_low_read` in a new block. -/
theorem partLowRead_new (order : ByteOrder) (env : Environment) (mode : PartMode) (size : Nat)
    (xor : UInt32) :
    partLowRead order (fun cache => ((env.read cache).code, (env.read cache).cache))
        (partBlockNew mode size xor) =
      if 4 ∣ size then
        some ((env.read (List.replicate size 0)).code,
          loaded mode xor (leftBehind order env size xor))
      else none := by
  have length : (env.read (List.replicate size 0)).cache.length = size := by
    rw [env.inside, List.length_replicate]
  have left : (leftBehind order env size xor).length = size := by
    rw [leftBehind, masked_length, length]
  have whole : loaded mode xor (leftBehind order env size xor) =
      { partBlockNew mode size xor with cache := leftBehind order env size xor } := by
    rw [loaded, left]
  rw [partLowRead]
  by_cases words : 4 ∣ size
  · rw [if_pos words, partXor_eq, whole]
    · rfl
    · rw [PartBlock.size]
      exact length.symm ▸ words
  · have broken : ¬ 4 ∣ PartBlock.size { partBlockNew mode size xor with
        cache := (env.read (List.replicate size 0)).cache } := by
      rw [PartBlock.size]
      exact length.symm ▸ words
    rw [if_neg words, partXor_eq_none]
    · rfl
    · exact blockKey_ne_zero xor
    · exact broken

/-- `part_human_read` never gives a negative number. -/
theorem readHuman_nonneg {human : Human} {block next : PartBlock} {err : Int}
    (read : readHuman human block = some (err, next)) : ¬ err < 0 := by
  cases human with
  | missing errno =>
      obtain ⟨rfl, -⟩ := Prod.mk.inj (Option.some.inj read)
      omega
  | unreadable errno cache =>
      simp only [readHuman] at read
      split at read
      · cases read
      · obtain ⟨rfl, -⟩ := Prod.mk.inj (Option.some.inj read)
        omega
  | content file errno =>
      simp only [readHuman, partHumanRead] at read
      split at read
      · cases read
      split at read
      · obtain ⟨rfl, -⟩ := Prod.mk.inj (Option.some.inj read)
        omega
      · obtain ⟨cache, -, given⟩ := Option.bind_eq_some_iff.mp read
        obtain ⟨rfl, -⟩ := Prod.mk.inj (Option.some.inj given)
        omega

/-- A block is created unless its initialisation gives a negative number. -/
theorem createBlock_eq (positive : size ≠ 0) :
    createBlock order past env mode size xor =
      (initBlock order past env (partBlockNew mode size xor)).map fun answer =>
        if answer.1 < 0 then none else some answer.2 := by
  rw [createBlock, if_neg positive, if_neg (partLock_nonneg env)]
  cases initBlock order past env (partBlockNew mode size xor) with
  | none => rfl
  | some answer => rfl

/-- No block is handed out exactly if it is refused, whether something failed or not. -/
theorem createBlock_eq_null_iff (order : ByteOrder) (past : UInt8) (env : Environment)
    (mode : PartMode) (size : Nat) (xor : UInt32) :
    createBlock order past env mode size xor = some none ↔ Refused order env mode size xor := by
  by_cases zero : size = 0
  · exact iff_of_true (if_pos zero) (.inl zero)
  have low := partLowRead_new order env mode size xor
  rw [createBlock_eq zero]
  unfold Refused
  cases mode with
  | normal =>
      have init : initBlock order past env (partBlockNew .normal size xor) =
          partBlockInitBynormal order past
            (fun cache => ((env.read cache).code, (env.read cache).cache))
            (partBlockNew .normal size xor) := rfl
      rw [init, partBlockInitBynormal, low]
      dsimp only
      rw [or_iff_right zero]
      by_cases words : 4 ∣ size
      · rw [if_pos words, and_iff_right words]
        simp only [Option.bind_eq_bind, Option.bind_some]
        by_cases negative : (env.read (List.replicate size 0)).code < 0
        · rw [if_pos negative]
          refine iff_of_true ?_ (.inl negative)
          simp [negative]
        · rw [if_neg negative, or_iff_right negative]
          have length : (leftBehind order env size xor).length = size := by
            rw [leftBehind, masked_length, env.inside, List.length_replicate]
          by_cases good : headerLen ≤ (leftBehind order env size xor).length ∧
              ∀ byte ∈ crcStored (leftBehind order env size xor), (digit byte).isSome = true
          · obtain ⟨block, read⟩ := partHighRead_loaded past good.1 good.2
            have denoted : (9 ≤ size ∧
                (∀ byte ∈ crcStored (leftBehind order env size xor), (digit byte).isSome = true) ∧
                ¬ Denotes (crcStored (leftBehind order env size xor))
                  (osCrc32 ((leftBehind order env size xor).drop headerLen))) ↔
                ¬ Denotes (crcStored (leftBehind order env size xor))
                  (osCrc32 ((leftBehind order env size xor).drop headerLen)) := by
              rw [and_iff_right (length ▸ good.1), and_iff_right good.2]
            rw [read, denoted]
            by_cases same : Denotes (crcStored (leftBehind order env size xor))
                (osCrc32 ((leftBehind order env size xor).drop headerLen))
            · simp [same]
            · simp [same, show 0 < EBADCRC by decide]
          · rw [partHighRead_loaded_none past good]
            refine iff_of_false (by simp) ?_
            rintro ⟨enough, digits, -⟩
            exact good ⟨length.symm ▸ enough, digits⟩
      · rw [if_neg words]
        exact iff_of_false (by simp) (fun both => words both.1)
  | empty =>
      refine iff_of_false ?_ (by simp [zero])
      intro made
      cases made
  | crc =>
      have init : initBlock order past env (partBlockNew .crc size xor) = do
          let (err, block) ← partLowRead order
            (fun cache => ((env.read cache).code, (env.read cache).cache))
            (partBlockNew .crc size xor)
          return (if err < 0 then err else 0, block) := rfl
      rw [init, low]
      dsimp only
      rw [or_iff_right zero]
      by_cases words : 4 ∣ size
      · rw [if_pos words, and_iff_right words]
        by_cases negative : (env.read (List.replicate size 0)).code < 0
        · simp [negative]
        · simp [negative]
      · rw [if_neg words]
        exact iff_of_false (by simp) (fun both => words both.1)
  | load =>
      refine iff_of_false ?_ (by simp [zero])
      intro made
      obtain ⟨answer, done, null⟩ := Option.map_eq_some_iff.mp made
      have init : initBlock order past env (partBlockNew .load size xor) = do
          let (err, block) ← readHuman env.human (partBlockNew .load size xor)
          if err < 0 then return (err, block)
          return (0, { block with dirty := true }) := rfl
      rw [init] at done
      obtain ⟨read, human, given⟩ := Option.bind_eq_some_iff.mp done
      dsimp only at given
      rw [if_neg (readHuman_nonneg human)] at given
      obtain rfl := Option.some.inj given
      cases null

/-- `part_read` of `partool`: the code, and what it leaves in its buffer. The file is `none` if it
cannot be opened; `fread` gives no item if the file is too short. -/
def partRead (file : Option (List UInt8)) (errno : Nat) (tmp : List UInt8) : Int × List UInt8 :=
  match file with
  | none => (errno, tmp)
  | some content =>
      if content.length < tmp.length then (errno, content ++ tmp.drop content.length)
      else (0, content.take tmp.length)

/-- `partool_read`, with a buffer of the size of the cache. -/
def partoolRead (file : Option (List UInt8)) (errno : Nat) (cache : List UInt8) : Answer :=
  let (err, tmp) := partRead file errno (List.replicate cache.length 0)
  if err < 0 then ⟨err, cache, false⟩
  else ⟨0, tmp, (file.map fun content => decide (cache.length ≤ content.length)).getD false⟩

/-- It gives zero, whatever became of the file. -/
theorem partoolRead_code (file : Option (List UInt8)) (errno : Nat) (cache : List UInt8) :
    (partoolRead file errno cache).code = 0 := by
  have positive : ¬ (partRead file errno (List.replicate cache.length 0)).1 < 0 := by
    unfold partRead
    split
    · omega
    · split
      · omega
      · omega
  rw [partoolRead]
  dsimp only
  rw [if_neg positive]

theorem length_partoolRead (file : Option (List UInt8)) (errno : Nat) (cache : List UInt8) :
    (partoolRead file errno cache).cache.length = cache.length := by
  rw [partoolRead]
  dsimp only
  split
  · rfl
  · unfold partRead
    split
    · exact List.length_replicate
    · split
      · simp only [List.length_append, List.length_drop, List.length_replicate] at *
        omega
      · simp only [List.length_take, List.length_replicate] at *
        omega

/-- `partool` where its lock file cannot be opened. -/
def unlocked : Environment where
  open_ := some 13
  flock := none
  read := partoolRead none 2
  human := .missing 2
  inside := length_partoolRead none 2
  honest := fun cache code => absurd (partoolRead_code none 2 cache) code

end Trunk.Partool
