import Mathlib.Data.List.Pairwise
import Trunk.Foundation.Run
import Trunk.Rbcfg.Config

/-! # Edits of the RouterBoot configuration

The tags of a configuration are those that the walk of `rbcfg_find_tag` passes
(`Trunk.Rbcfg.rbcfgFindTag_eq`). A change inside the data of one of them leaves the list as it is
(`Trunk.Rbcfg.tags_congr`), and what `rbcfg_update` writes is what `rbcfg_load` accepts
(`Trunk.Rbcfg.accept_sealed`).

The 4-byte accesses ignore the length of the tag, and the temporary file is not truncated. In a run
where the tags that are accessed have room for four bytes and no edit goes to a file that is longer
than the buffer, every edit is local (`Trunk.Rbcfg.edits_local`).
-/

namespace Trunk.Rbcfg

open CString Memory Network Run

variable {buf buf' : List UInt8} {pos : Nat}

/-- A tag: its data are `len` bytes from `pos` on. -/
structure Tag where
  id : Nat
  len : Nat
  pos : Nat
  deriving DecidableEq, Repr

/-- The tag whose header is at `pos`, if it ends inside the buffer and is not the terminator. -/
def tagAt (buf : List UInt8) (pos : Nat) : Option Tag := do
  let len ← getU16 buf pos
  let id ← getU16 buf (pos + 2)
  if id = rbIdTerminator ∨ buf.length < pos + 4 + len then none else some ⟨id, len, pos + 4⟩

/-- The tags from `pos` on. The first number bounds how many there are. -/
def tagsFrom (buf : List UInt8) : Nat → Nat → List Tag
  | 0, _ => []
  | fuel + 1, pos =>
      match tagAt buf pos with
      | none => []
      | some tag => tag :: tagsFrom buf fuel (tag.pos + tag.len)

/-- The tags of a configuration. -/
def tags (buf : List UInt8) : List Tag := tagsFrom buf (buf.length + 1) 8

/-- The first tag with an id. -/
def tagOf (buf : List UInt8) (id : Nat) : Option Tag := (tags buf).find? fun tag => tag.id = id

theorem getU16_inside (buf : List UInt8) (pos : Nat) (inside : pos + 2 ≤ buf.length) :
    ∃ val, getU16 buf pos = some val := by
  refine ⟨number ((buf.drop pos).take 2), ?_⟩
  rw [getU16, load_eq_some_iff.mpr ⟨inside, rfl⟩, Option.map_some]

theorem getU16_outside (buf : List UInt8) (pos : Nat) (outside : buf.length < pos + 2) :
    getU16 buf pos = none := by
  rw [getU16, load, if_neg (Nat.not_le.mpr outside), Option.map_none]

theorem tagAt_short (short : buf.length < pos + 4) : tagAt buf pos = none := by
  rw [tagAt, getU16_outside buf (pos + 2) (by omega)]
  cases getU16 buf pos <;> rfl

theorem tagAt_eq {len id : Nat} (first : getU16 buf pos = some len)
    (second : getU16 buf (pos + 2) = some id) :
    tagAt buf pos =
      if id = rbIdTerminator ∨ buf.length < pos + 4 + len then none
      else some ⟨id, len, pos + 4⟩ := by
  rw [tagAt, first, second]
  rfl

theorem tagAt_pos {tag : Tag} (here : tagAt buf pos = some tag) :
    tag.pos = pos + 4 ∧ tag.pos + tag.len ≤ buf.length := by
  by_cases short : buf.length < pos + 4
  · rw [tagAt_short short] at here
    cases here
  · obtain ⟨len, first⟩ := getU16_inside buf pos (by omega)
    obtain ⟨id, second⟩ := getU16_inside buf (pos + 2) (by omega)
    rw [tagAt_eq first second] at here
    split at here
    · cases here
    · rename_i fits
      obtain rfl := Option.some.inj here
      exact ⟨rfl, by dsimp only; omega⟩

/-- The walk stops at the first of the tags it passes that has the id. -/
theorem findTagFrom_eq (tagId : Nat) (fuel buflen : Nat) (enough : buflen < fuel)
    (rest : pos + buflen = buf.length) :
    findTagFrom buf tagId fuel pos buflen =
      some (((tagsFrom buf fuel pos).find? fun tag => tag.id = tagId).elim (.error .notfound)
        fun tag => .ok (tag.len, tag.pos)) := by
  induction fuel generalizing pos buflen with
  | zero => exact absurd enough (Nat.not_lt_zero _)
  | succ fuel ih =>
      rw [findTagFrom, tagsFrom]
      by_cases few : buflen ≤ 2
      · rw [if_pos few, tagAt_short (by omega)]
        rfl
      · obtain ⟨len, first⟩ := getU16_inside buf pos (by omega)
        rw [if_neg few, first, Option.bind_eq_bind, Option.bind_some]
        by_cases three : buflen - 2 < 2
        · rw [if_pos three, tagAt_short (by omega)]
          rfl
        · obtain ⟨id, second⟩ := getU16_inside buf (pos + 2) (by omega)
          rw [if_neg three, second, Option.bind_some, tagAt_eq first second]
          by_cases terminator : id = rbIdTerminator
          · rw [if_pos terminator, if_pos (.inl terminator)]
            rfl
          · rw [if_neg terminator]
            by_cases long : buflen - 4 < len
            · rw [if_pos long, if_pos (.inr (by omega))]
              rfl
            · have fits : ¬ (id = rbIdTerminator ∨ buf.length < pos + 4 + len) := by omega
              rw [if_neg long, if_neg fits]
              by_cases match_ : id = tagId
              · rw [if_pos match_, List.find?_cons_of_pos (by simpa using match_)]
                rfl
              · rw [if_neg match_, List.find?_cons_of_neg (by simpa using match_)]
                exact ih _ (by omega) (by omega)

/-- `rbcfg_find_tag` finds the first tag with the id, and never reads outside the buffer. -/
theorem rbcfgFindTag_eq (long : 8 ≤ buf.length) (tagId : Nat) :
    rbcfgFindTag buf tagId =
      some ((tagOf buf tagId).elim (.error .notfound) fun tag => .ok (tag.len, tag.pos)) :=
  findTagFrom_eq tagId _ _ (by omega) (by omega)

/-! ## The list of tags -/

/-- The tags are inside the buffer, behind the place they are looked for from. -/
theorem tagsFrom_inside {fuel : Nat} {tag : Tag} (member : tag ∈ tagsFrom buf fuel pos) :
    pos + 4 ≤ tag.pos ∧ tag.pos + tag.len ≤ buf.length := by
  induction fuel generalizing pos with
  | zero => cases member
  | succ fuel ih =>
      rw [tagsFrom] at member
      cases here : tagAt buf pos with
      | none =>
          rw [here] at member
          cases member
      | some first =>
          rw [here] at member
          have start := tagAt_pos here
          rcases List.mem_cons.mp member with rfl | later
          · exact ⟨Nat.le_of_eq start.1.symm, start.2⟩
          · have behind := ih later
            exact ⟨by omega, behind.2⟩

/-- A tag and the header of another do not meet. -/
def Apart (first second : Tag) : Prop :=
  first.pos + first.len + 4 ≤ second.pos ∨ second.pos + second.len + 4 ≤ first.pos

instance : Std.Symm Apart := ⟨fun _ _ apart => apart.symm⟩

theorem tagsFrom_apart (fuel : Nat) (pos : Nat) : (tagsFrom buf fuel pos).Pairwise Apart := by
  induction fuel generalizing pos with
  | zero => exact List.Pairwise.nil
  | succ fuel ih =>
      rw [tagsFrom]
      cases here : tagAt buf pos with
      | none => exact List.Pairwise.nil
      | some first =>
          refine List.Pairwise.cons ?_ (ih _)
          intro second member
          exact .inl (tagsFrom_inside member).1

/-- Two tags of a configuration do not meet. -/
theorem tags_apart {first second : Tag} (one : first ∈ tags buf) (two : second ∈ tags buf)
    (different : first ≠ second) : Apart first second :=
  (tagsFrom_apart _ _).forall one two different

/-- The place is in the data of the tag. -/
def Tag.covers (tag : Tag) (index : Nat) : Prop := tag.pos ≤ index ∧ index < tag.pos + tag.len

theorem getU16_congr (same : buf'.length = buf.length)
    (agree : ∀ index, pos ≤ index → index < pos + 2 → buf'[index]? = buf[index]?) :
    getU16 buf' pos = getU16 buf pos := by
  rw [getU16, getU16, load_congr same agree]

theorem getU32_congr (same : buf'.length = buf.length)
    (agree : ∀ index, pos ≤ index → index < pos + 4 → buf'[index]? = buf[index]?) :
    getU32 buf' pos = getU32 buf pos := by
  rw [getU32, getU32, load_congr same agree]

theorem tagAt_congr (same : buf'.length = buf.length)
    (agree : ∀ index, pos ≤ index → index < pos + 4 → buf'[index]? = buf[index]?) :
    tagAt buf' pos = tagAt buf pos := by
  have first : getU16 buf' pos = getU16 buf pos :=
    getU16_congr same fun index low high => agree index low (by omega)
  have second : getU16 buf' (pos + 2) = getU16 buf (pos + 2) :=
    getU16_congr same fun index low high => agree index (by omega) (by omega)
  rw [tagAt, tagAt, first, second, same]

theorem tagsFrom_congr {fuel : Nat} (same : buf'.length = buf.length)
    (agree : ∀ index, pos ≤ index →
      (∃ tag ∈ tagsFrom buf fuel pos, tag.covers index) ∨ buf'[index]? = buf[index]?) :
    tagsFrom buf' fuel pos = tagsFrom buf fuel pos := by
  induction fuel generalizing pos with
  | zero => rfl
  | succ fuel ih =>
      -- No tag from here on has its data in this header.
      have header : tagAt buf' pos = tagAt buf pos := by
        apply tagAt_congr same
        intro index low high
        rcases agree index low with ⟨tag, member, covered⟩ | kept
        · have behind := tagsFrom_inside member
          have start := covered.1
          omega
        · exact kept
      rw [tagsFrom] at agree
      rw [tagsFrom, tagsFrom, header]
      cases here : tagAt buf pos with
      | none => rfl
      | some first =>
          rw [here] at agree
          have start := tagAt_pos here
          dsimp only
          rw [ih]
          intro index low
          rcases agree index (by omega) with ⟨tag, member, covered⟩ | kept
          · rcases List.mem_cons.mp member with rfl | later
            · exact absurd covered.2 (by omega)
            · exact .inl ⟨tag, later, covered⟩
          · exact .inr kept

/-- A change in the header or inside the data of tags leaves the list of tags. -/
theorem tags_congr (same : buf'.length = buf.length)
    (agree : ∀ index, 8 ≤ index →
      (∃ tag ∈ tags buf, tag.covers index) ∨ buf'[index]? = buf[index]?) :
    tags buf' = tags buf := by
  rw [tags, same]
  exact tagsFrom_congr same agree

theorem tagOf_mem {id : Nat} {tag : Tag} (found : tagOf buf id = some tag) :
    tag ∈ tags buf ∧ tag.id = id :=
  ⟨List.mem_of_find?_eq_some found, by simpa using List.find?_some found⟩

/-! ## Loading and storing -/

/-- A buffer that `rbcfg_load` leaves: the magic word, and no CRC. -/
structure Loaded (buf : List UInt8) : Prop where
  long : 8 ≤ buf.length
  magic : load buf 0 4 = some (bytes 4 rbMagicSoft)
  clear : load buf 4 4 = some (bytes 4 0)

/-- What `rbcfg_update` writes for a loaded buffer. -/
def Sealed (buf image : List UInt8) : Prop := putU32 buf 4 (cygEtherCrc32 buf) = some image

theorem getU32_eq_some {val : Nat} (read : getU32 buf pos = some val) :
    load buf pos 4 = some (bytes 4 val) := by
  obtain ⟨content, loaded, rfl⟩ := Option.map_eq_some_iff.mp read
  have length : content.length = 4 := load_length loaded
  rw [loaded, ← length, bytes_number]

theorem getU32_of_load {val : Nat} (loaded : load buf pos 4 = some (bytes 4 val))
    (small : val < 2 ^ 32) : getU32 buf pos = some val := by
  rw [getU32, loaded, Option.map_some, number_bytes, Nat.mod_eq_of_lt small]

theorem cygEtherCrc32_lt (buf : List UInt8) : cygEtherCrc32 buf < 2 ^ 32 :=
  (Crc32.osCrc32 buf).toNat_lt

/-- A buffer is accepted if it has the magic word and the CRC of what `put_u32` leaves of it. -/
theorem accept_ok {image : List UInt8} (accepted : rbcfgAccept image = some (.ok buf)) :
    Loaded buf ∧ Sealed buf image := by
  obtain ⟨magic, first, rest⟩ := Option.bind_eq_some_iff.mp accepted
  by_cases soft : magic = rbMagicSoft
  · rw [if_neg (not_not_intro soft)] at rest
    obtain ⟨crcOrig, second, rest⟩ := Option.bind_eq_some_iff.mp rest
    obtain ⟨cleared, stored, rest⟩ := Option.bind_eq_some_iff.mp rest
    by_cases same : cygEtherCrc32 cleared = crcOrig
    · rw [if_neg (not_not_intro same)] at rest
      obtain rfl : cleared = buf := Except.ok.inj (Option.some.inj rest)
      have front : load cleared 0 4 = some (bytes 4 rbMagicSoft) := by
        rw [load_store_disjoint stored (.inl (Nat.le_refl 4)), ← soft]
        exact getU32_eq_some first
      have clear := load_store_self stored
      have inside := (load_eq_some_iff.mp clear).1
      refine ⟨⟨inside, front, clear⟩, ?_⟩
      have crc := getU32_eq_some second
      rw [Sealed, putU32, store_store stored (by rw [length_bytes, length_bytes]), same]
      exact store_self crc
    · rw [if_pos same] at rest
      cases rest
  · rw [if_pos soft] at rest
    cases rest

/-- What is written for a loaded buffer is accepted again, and gives that buffer. -/
theorem accept_sealed {image : List UInt8} (loaded : Loaded buf) (written : Sealed buf image) :
    rbcfgAccept image = some (.ok buf) := by
  have front : load image 0 4 = some (bytes 4 rbMagicSoft) := by
    rw [load_store_disjoint written (.inl (Nat.le_refl 4))]
    exact loaded.magic
  have crc : getU32 image 4 = some (cygEtherCrc32 buf) :=
    getU32_of_load (load_store_self written) (cygEtherCrc32_lt buf)
  have clear : putU32 image 4 0 = some buf := by
    rw [putU32, store_store written (by rw [length_bytes, length_bytes])]
    exact store_self loaded.clear
  rw [rbcfgAccept, getU32_of_load front (by decide), crc, clear]
  simp only [Option.bind_eq_bind, Option.bind_some, ne_eq, not_true_eq_false, if_false]
  rfl

theorem sealed_exists (loaded : Loaded buf) : ∃ image, Sealed buf image :=
  store_isSome (by rw [length_bytes]; exact loaded.long)

theorem rbcfgUpdate_eq {image : List UInt8} (loaded : Loaded buf) (written : Sealed buf image)
    (tmp : Bool) (stores : Stores) :
    rbcfgUpdate tmp buf stores = some
      (if tmp then { stores with tmpFile := some (overwrite (stores.tmpFile.getD []) image) }
      else { stores with mtdDevice := overwrite stores.mtdDevice image }) := by
  have magic : putU32 buf 0 rbMagicSoft = some buf := store_self loaded.magic
  have clear : putU32 buf 4 0 = some buf := store_self loaded.clear
  rw [rbcfgUpdate, magic, Option.bind_eq_bind, Option.bind_some, clear, Option.bind_some, written,
    Option.bind_some]
  cases tmp <;> rfl

theorem overwrite_of_le {file content : List UInt8} (fits : file.length ≤ content.length) :
    overwrite file content = content := by
  rw [overwrite, List.drop_eq_nil_of_le fits, List.append_nil]

theorem image_length (stores : Stores) : stores.image.length = stores.buflen := by
  unfold Stores.image
  cases stores.tmpFile with
  | none => rfl
  | some tmp =>
      dsimp only
      split
      · assumption
      · rfl

/-- What a command may load. -/
def Accepted (stores : Stores) : Prop := ∃ buf, rbcfgLoad stores = some (.ok buf)

/-- What `apply` stores is loaded as before. -/
theorem image_apply {image : List UInt8} (stores : Stores) (same : stores.image = image) :
    ({ stores with mtdDevice := overwrite stores.mtdDevice image } : Stores).image = image := by
  have length : image.length = stores.mtdDevice.length := by
    rw [← same]
    exact image_length stores
  rw [overwrite_of_le (Nat.le_of_eq length.symm)]
  unfold Stores.image at same ⊢
  cases file : stores.tmpFile with
  | none => rfl
  | some tmp =>
      rw [file] at same
      dsimp only at same ⊢
      split
      · rename_i whole
        have full : tmp.length = stores.buflen := Eq.trans whole length
        rw [if_pos full] at same
        exact same
      · rfl

/-- What `set` stores is loaded by the next command, unless the temporary file was longer. -/
theorem image_set {image : List UInt8} (stores : Stores) (length : image.length = stores.buflen)
    (fits : (stores.tmpFile.getD []).length ≤ stores.buflen) :
    ({ stores with tmpFile := some (overwrite (stores.tmpFile.getD []) image) } : Stores).image =
      image := by
  rw [overwrite_of_le (by rw [length]; exact fits)]
  exact if_pos length

theorem tags_sealed {image : List UInt8} (written : Sealed buf image) : tags image = tags buf := by
  apply tags_congr (store_length written)
  intro index behind
  right
  rw [getElem?_store written, if_neg (by rw [length_bytes]; omega)]

/-! ## The values of the tables -/

theorem envOf_some {name : List UInt8} {env : RbcfgEnv} (found : envOf name = some env) :
    env ∈ rbcfgEnvs ∧ env.name.toList.map ascii = name :=
  ⟨List.mem_of_find?_eq_some found, by simpa [named] using List.find?_some found⟩

/-- Every tag has its own id. -/
theorem env_eq_of_id {env other : RbcfgEnv} (one : env ∈ rbcfgEnvs) (two : other ∈ rbcfgEnvs)
    (same : env.id = other.id) : env = other := by
  have every : ∀ env ∈ rbcfgEnvs, ∀ other ∈ rbcfgEnvs, env.id = other.id → env = other := by
    decide
  exact every env one other two same

/-- A value is found again by its number, and fits in four bytes. -/
theorem value_found {env : RbcfgEnv} (one : env ∈ rbcfgEnvs) {value : RbcfgValue}
    (member : value ∈ env.values) :
    rbcfgEnvFindU32 env value.u32 = some value ∧ value.u32 < 2 ^ 32 := by
  have every : ∀ env ∈ rbcfgEnvs, ∀ value ∈ env.values,
      rbcfgEnvFindU32 env value.u32 = some value ∧ value.u32 < 2 ^ 32 := by
    decide
  exact every env one value member

/-! ## A write into a tag -/

section Write

variable {tag : Tag} {val : Nat}

theorem putU32_agree (room : 4 ≤ tag.len) (written : putU32 buf tag.pos val = some buf')
    (index : Nat) : tag.covers index ∨ buf'[index]? = buf[index]? := by
  rw [getElem?_store written, length_bytes]
  split
  · rename_i inside
    exact .inl ⟨inside.1, by omega⟩
  · exact .inr rfl

theorem tags_put (member : tag ∈ tags buf) (room : 4 ≤ tag.len)
    (written : putU32 buf tag.pos val = some buf') : tags buf' = tags buf := by
  apply tags_congr (store_length written)
  intro index _
  rcases putU32_agree room written index with covered | kept
  · exact .inl ⟨tag, member, covered⟩
  · exact .inr kept

theorem loaded_put (loaded : Loaded buf) (member : tag ∈ tags buf)
    (written : putU32 buf tag.pos val = some buf') : Loaded buf' := by
  have behind := (tagsFrom_inside member).1
  refine ⟨?_, ?_, ?_⟩
  · rw [store_length written]
    exact loaded.long
  · rw [load_store_disjoint written (.inl (by omega))]
    exact loaded.magic
  · rw [load_store_disjoint written (.inl (by omega))]
    exact loaded.clear

/-- The data of another tag stay, with the header behind them. -/
theorem load_put_other {other : Tag} {length : Nat} (member : tag ∈ tags buf) (room : 4 ≤ tag.len)
    (written : putU32 buf tag.pos val = some buf') (present : other ∈ tags buf)
    (different : other ≠ tag) (short : length ≤ other.len + 4) :
    load buf' other.pos length = load buf other.pos length := by
  apply load_store_disjoint written
  rw [length_bytes]
  rcases tags_apart present member different with before | after
  · exact .inl (by omega)
  · exact .inr (by omega)

end Write

theorem rbcfgGetU32_eq (loaded : Loaded buf) (id : Nat) :
    rbcfgGetU32 buf id =
      (tagOf buf id).elim (some (.error .notfound)) fun tag => (getU32 buf tag.pos).map .ok := by
  rw [rbcfgGetU32, rbcfgFindTag_eq loaded.long]
  cases tagOf buf id with
  | none => rfl
  | some tag =>
      simp only [Option.elim_some, Option.bind_eq_bind, Option.bind_some]
      cases getU32 buf tag.pos <;> rfl

theorem rbcfgSetU32_eq (loaded : Loaded buf) (id val : Nat) :
    rbcfgSetU32 buf id val =
      (tagOf buf id).elim (some (.error .notfound)) fun tag =>
        (putU32 buf tag.pos val).map .ok := by
  rw [rbcfgSetU32, rbcfgFindTag_eq loaded.long]
  cases tagOf buf id with
  | none => rfl
  | some tag =>
      simp only [Option.elim_some, Option.bind_eq_bind, Option.bind_some]
      cases putU32 buf tag.pos val <;> rfl

/-- What `get` answers depends on the four bytes at the tag alone. -/
theorem rbcfgCmdGet_congr (loaded : Loaded buf) (loaded' : Loaded buf') (same : tags buf' = tags buf)
    {name : List UInt8}
    (data : ∀ env tag, envOf name = some env → tagOf buf env.id = some tag →
      getU32 buf' tag.pos = getU32 buf tag.pos) :
    rbcfgCmdGet buf' [name] = rbcfgCmdGet buf [name] := by
  unfold rbcfgCmdGet
  dsimp only
  cases found : envOf name with
  | none => rfl
  | some env =>
      have read : rbcfgGetU32 buf' env.id = rbcfgGetU32 buf env.id := by
        rw [rbcfgGetU32_eq loaded, rbcfgGetU32_eq loaded', tagOf, tagOf, same]
        cases present : tagOf buf env.id with
        | none =>
            rw [tagOf] at present
            rw [present]
            rfl
        | some tag =>
            have bytes := data env tag found present
            rw [tagOf] at present
            rw [present]
            simp only [Option.elim_some, bytes]
      dsimp only
      rw [rbcfgEnvGetU32, rbcfgEnvGetU32, read]

/-! ## Commands -/

/-- The tag that `get` reads. -/
def getTag (stores : Stores) (argv : List (List UInt8)) : Option Tag :=
  match argv with
  | [name] => (envOf name).bind fun env => tagOf stores.image env.id
  | _ => none

/-- The tag that `set` writes. There is none if it refuses its arguments. -/
def setTag (stores : Stores) (argv : List (List UInt8)) : Option Tag :=
  match argv with
  | [name, word] =>
      (envOf name).bind fun env =>
        (rbcfgEnvFind env word).bind fun _ => tagOf stores.image env.id
  | _ => none

/-- What is read is inside the buffer; what is written is inside the data of the tag, and covers the
temporary file. -/
def Ample (stores : Stores) : Command → Prop
  | .apply => True
  | .get argv => ∀ tag ∈ getTag stores argv, tag.pos + 4 ≤ stores.buflen
  | .set argv =>
      ∀ tag ∈ setTag stores argv,
        4 ≤ tag.len ∧ (stores.tmpFile.getD []).length ≤ stores.buflen

instance (stores : Stores) : (command : Command) → Decidable (Ample stores command)
  | .apply => inferInstanceAs (Decidable True)
  | .get argv =>
      inferInstanceAs (Decidable (∀ tag ∈ getTag stores argv, tag.pos + 4 ≤ stores.buflen))
  | .set argv =>
      inferInstanceAs (Decidable (∀ tag ∈ setTag stores argv,
        4 ≤ tag.len ∧ (stores.tmpFile.getD []).length ≤ stores.buflen))

/-- The configuration after a `set` of `name` to `word` that succeeded: only the CRC and data of the
tag were changed, and `get` prints the word. -/
structure Edited (stores : Stores) (name word : List UInt8) (next : Stores) (tag : Tag) : Prop where
  names : ∃ env, envOf name = some env ∧ tagOf stores.image env.id = some tag
  elsewhere : ∀ index, (4 ≤ index ∧ index < 8) ∨ tag.covers index ∨
    next.image[index]? = stores.image[index]?
  tags : tags next.image = tags stores.image
  data : ∀ other ∈ Rbcfg.tags stores.image, other ≠ tag →
    load next.image other.pos other.len = load stores.image other.pos other.len
  shown : ∃ value, named value word = true ∧
    rbcfg next (.get [name]) = some (.success (some value), next)

/-- What is asked of a command: it leaves a configuration that is accepted, a `set` that succeeds
edits it, the other commands and a `set` that fails store nothing new, and what `get` prints for
the names that were not set stays. -/
structure Local (stores : Stores) (command : Command) (exit : Exit) (next : Stores) : Prop where
  accepted : Accepted next
  edited : ∀ argv, command = .set argv → exit ≠ .failure →
    ∃ name word tag, argv = [name, word] ∧ Edited stores name word next tag
  refused : exit = .failure → next = stores
  kept : (∀ argv, command ≠ .set argv) → next.image = stores.image
  others : ∀ other, (∀ word, command ≠ .set [other, word]) →
    (rbcfg next (.get [other])).map Prod.fst = (rbcfg stores (.get [other])).map Prod.fst

section Step

variable {stores next : Stores} {argv : List (List UInt8)}

/-- How `get` ends. -/
def getExit : Except Err String → Exit
  | .ok value => .success (some value)
  | .error _ => .failure

/-- How `set` ends. -/
def setExit (stores : Stores) : Except Err Stores → Exit × Stores
  | .ok next => (.success none, next)
  | .error _ => (.failure, stores)

theorem rbcfg_apply (accepted : rbcfgLoad stores = some (.ok buf)) :
    rbcfg stores .apply = (rbcfgUpdate false buf stores).map fun next => (.success none, next) := by
  rw [rbcfg, accepted]
  simp only [Option.bind_eq_bind, Option.bind_some]
  cases rbcfgUpdate false buf stores <;> rfl

theorem rbcfg_get (accepted : rbcfgLoad stores = some (.ok buf)) (argv : List (List UInt8)) :
    rbcfg stores (.get argv) =
      (rbcfgCmdGet buf argv).map fun answer => (getExit answer, stores) := by
  rw [rbcfg, accepted]
  simp only [Option.bind_eq_bind, Option.bind_some]
  cases rbcfgCmdGet buf argv with
  | none => rfl
  | some answer => cases answer <;> rfl

theorem rbcfg_set (accepted : rbcfgLoad stores = some (.ok buf)) (argv : List (List UInt8)) :
    rbcfg stores (.set argv) = (rbcfgCmdSet stores buf argv).map (setExit stores) := by
  rw [rbcfg, accepted]
  simp only [Option.bind_eq_bind, Option.bind_some]
  cases rbcfgCmdSet stores buf argv with
  | none => rfl
  | some answer => cases answer <;> rfl

theorem rbcfg_get_fst (accepted : rbcfgLoad stores = some (.ok buf)) (name : List UInt8) :
    (rbcfg stores (.get [name])).map Prod.fst = (rbcfgCmdGet buf [name]).map getExit := by
  rw [rbcfg_get accepted, Option.map_map]
  rfl

theorem rbcfgCmdGet_total (loaded : Loaded buf)
    (inside : ∀ name env tag, argv = [name] → envOf name = some env →
      tagOf buf env.id = some tag → tag.pos + 4 ≤ buf.length) :
    ∃ answer, rbcfgCmdGet buf argv = some answer := by
  unfold rbcfgCmdGet
  split
  · rename_i name
    cases found : envOf name with
    | none => exact ⟨_, rfl⟩
    | some env =>
        have read : ∃ answer, rbcfgGetU32 buf env.id = some answer := by
          rw [rbcfgGetU32_eq loaded]
          cases present : tagOf buf env.id with
          | none => exact ⟨_, rfl⟩
          | some tag =>
              have fits := inside name env tag rfl found present
              rw [Option.elim_some, getU32, load_eq_some_iff.mpr ⟨fits, rfl⟩]
              exact ⟨_, rfl⟩
        obtain ⟨answer, read⟩ := read
        dsimp only
        rw [rbcfgEnvGetU32, read]
        cases answer with
        | error err => exact ⟨_, rfl⟩
        | ok val =>
            simp only [Option.bind_eq_bind, Option.bind_some, Option.pure_def]
            cases (rbcfgEnvFindU32 env val).map RbcfgValue.name <;> exact ⟨_, rfl⟩
  · exact ⟨_, rfl⟩

/-- A `set` fails before it stores anything, or writes the number of the value into the tag. -/
theorem rbcfgCmdSet_cases (loaded : Loaded buf) (stores : Stores) (argv : List (List UInt8)) :
    (∃ err, rbcfgCmdSet stores buf argv = some (.error err)) ∨
      ∃ name word env value tag, argv = [name, word] ∧ envOf name = some env ∧
        rbcfgEnvFind env word = some value ∧ tagOf buf env.id = some tag ∧
        rbcfgCmdSet stores buf argv =
          (putU32 buf tag.pos value.u32).bind fun buf =>
            (rbcfgUpdate true buf stores).map .ok := by
  unfold rbcfgCmdSet
  split
  · rename_i name word
    cases found : envOf name with
    | none => exact .inl ⟨_, rfl⟩
    | some env =>
        dsimp only
        rw [rbcfgEnvSetU32]
        cases valid : rbcfgEnvFind env word with
        | none => exact .inl ⟨_, rfl⟩
        | some value =>
            dsimp only
            rw [rbcfgSetU32_eq loaded]
            cases present : tagOf buf env.id with
            | none => exact .inl ⟨_, rfl⟩
            | some tag =>
                refine .inr ⟨name, word, env, value, tag, rfl, found, valid, present, ?_⟩
                rw [Option.elim_some]
                cases putU32 buf tag.pos value.u32 with
                | none => rfl
                | some buf' =>
                    simp only [Option.map_some, Option.bind_eq_bind, Option.bind_some]
                    cases rbcfgUpdate true buf' stores <;> rfl
  · exact .inl ⟨_, rfl⟩

/-- A command that leaves the stores as they are is local, if it is no `set` that succeeds. -/
theorem local_same {command : Command} {exit : Exit} (accepted : Accepted stores)
    (unset : ∀ argv, command = .set argv → exit = .failure) :
    Local stores command exit stores where
  accepted := accepted
  edited argv isSet done := absurd (unset argv isSet) done
  refused _ := rfl
  kept _ := rfl
  others _ _ := rfl

theorem apply_local (accepted : rbcfgLoad stores = some (.ok buf)) :
    ∃ exit next, rbcfg stores .apply = some (exit, next) ∧ Local stores .apply exit next := by
  obtain ⟨loaded, written⟩ := accept_ok accepted
  have applied := rbcfg_apply accepted
  rw [rbcfgUpdate_eq loaded written] at applied
  refine ⟨_, _, applied, ?_⟩
  have same := image_apply stores rfl
  have again : rbcfgLoad { stores with mtdDevice := overwrite stores.mtdDevice stores.image } =
      some (.ok buf) := by
    rw [rbcfgLoad, same]
    exact accepted
  refine ⟨⟨buf, again⟩, ?_, ?_, fun _ => same, ?_⟩
  · intro argv isSet
    cases isSet
  · intro failed
    cases failed
  · intro other _
    have before := rbcfg_get_fst accepted other
    have after := rbcfg_get_fst again other
    exact after.trans before.symm

theorem get_local (accepted : rbcfgLoad stores = some (.ok buf)) (ample : Ample stores (.get argv)) :
    ∃ exit next, rbcfg stores (.get argv) = some (exit, next) ∧
      Local stores (.get argv) exit next := by
  obtain ⟨loaded, written⟩ := accept_ok accepted
  have total : ∃ answer, rbcfgCmdGet buf argv = some answer := by
    apply rbcfgCmdGet_total loaded
    intro name env tag argument found present
    have length : stores.buflen = buf.length := by
      rw [← image_length, store_length written]
    rw [← length]
    apply ample tag
    rw [argument, getTag, found, Option.bind_some, tagOf, tags_sealed written]
    exact present
  obtain ⟨answer, read⟩ := total
  have got := rbcfg_get accepted argv
  rw [read] at got
  refine ⟨_, _, got, local_same ⟨buf, accepted⟩ ?_⟩
  intro argv isSet
  cases isSet

/-- What `set` writes into the buffer is an edit of the configuration. -/
theorem edited_of_put {image : List UInt8} {name word : List UInt8} {env : RbcfgEnv}
    {value : RbcfgValue} {tag : Tag}
    (loaded : Loaded buf) (written : Sealed buf stores.image) (found : envOf name = some env)
    (valid : rbcfgEnvFind env word = some value) (present : tagOf buf env.id = some tag)
    (room : 4 ≤ tag.len) (put : putU32 buf tag.pos value.u32 = some buf')
    (written' : Sealed buf' image) (same : next.image = image)
    (accepted : rbcfgLoad next = some (.ok buf')) : Edited stores name word next tag := by
  have member := (tagOf_mem present).1
  have loaded' := loaded_put loaded member put
  have tagList : tags next.image = tags stores.image := by
    rw [same, tags_sealed written', tags_put member room put, tags_sealed written]
  refine ⟨⟨env, found, ?_⟩, ?_, tagList, ?_, ?_⟩
  · rw [tagOf, tags_sealed written]
    exact present
  · intro index
    rw [same, getElem?_store written', getElem?_store written, length_bytes, length_bytes]
    by_cases crc : 4 ≤ index ∧ index < 4 + 4
    · exact .inl crc
    · rw [if_neg crc, if_neg crc]
      exact .inr (putU32_agree room put index)
  · intro other known different
    rw [tags_sealed written] at known
    have behind := (tagsFrom_inside known).1
    rw [same, load_store_disjoint written' (.inr (by rw [length_bytes]; omega)),
      load_put_other member room put known different (by omega),
      load_store_disjoint written (.inr (by rw [length_bytes]; omega))]
  · have table := envOf_some found
    have entry := List.mem_of_find?_eq_some valid
    have number := value_found table.1 entry
    have stored : getU32 buf' tag.pos = some value.u32 :=
      getU32_of_load (load_store_self put) number.2
    have printed : rbcfgCmdGet buf' [name] = some (.ok value.name) := by
      have place : tagOf buf' env.id = some tag := by
        rw [tagOf, tags_put member room put]
        exact present
      rw [rbcfgCmdGet, found]
      dsimp only
      rw [rbcfgEnvGetU32, rbcfgGetU32_eq loaded', place, Option.elim_some, stored]
      simp only [Option.map_some, Option.bind_eq_bind, Option.bind_some, number.1, Option.pure_def]
    have word_ : named value.name word = true := by
      rw [rbcfgEnvFind] at valid
      exact List.find?_some (p := fun v : RbcfgValue => named v.name word) valid
    refine ⟨value.name, word_, ?_⟩
    rw [rbcfg_get accepted, printed]
    rfl

theorem set_local (accepted : rbcfgLoad stores = some (.ok buf)) (ample : Ample stores (.set argv)) :
    ∃ exit next, rbcfg stores (.set argv) = some (exit, next) ∧
      Local stores (.set argv) exit next := by
  obtain ⟨loaded, written⟩ := accept_ok accepted
  have done := rbcfg_set accepted argv
  rcases rbcfgCmdSet_cases loaded stores argv with
    ⟨err, failed⟩ | ⟨name, word, env, value, tag, rfl, found, valid, present, update⟩
  · rw [failed] at done
    exact ⟨_, _, done, local_same ⟨buf, accepted⟩ fun _ _ => rfl⟩
  · have member := (tagOf_mem present).1
    have enough : 4 ≤ tag.len ∧ (stores.tmpFile.getD []).length ≤ stores.buflen := by
      apply ample tag
      rw [setTag, found, Option.bind_some, valid, Option.bind_some, tagOf, tags_sealed written]
      exact present
    have inside := (tagsFrom_inside member).2
    obtain ⟨buf', put⟩ : ∃ buf', putU32 buf tag.pos value.u32 = some buf' :=
      store_isSome (by rw [length_bytes]; omega)
    have loaded' := loaded_put loaded member put
    obtain ⟨image, written'⟩ := sealed_exists loaded'
    rw [update, put, Option.bind_some, rbcfgUpdate_eq loaded' written'] at done
    have length : image.length = stores.buflen := by
      rw [store_length written', store_length put, ← image_length, store_length written]
    have same := image_set stores length enough.2
    have again : rbcfgLoad
        { stores with tmpFile := some (overwrite (stores.tmpFile.getD []) image) } =
          some (.ok buf') := by
      rw [rbcfgLoad, same]
      exact accept_sealed loaded' written'
    refine ⟨_, _, done, ⟨buf', again⟩, ?_, ?_, ?_, ?_⟩
    · rintro argv ⟨⟩ -
      exact ⟨name, word, tag, rfl,
        edited_of_put loaded written found valid present enough.1 put written' same again⟩
    · intro failed
      cases failed
    · intro unset
      exact absurd rfl (unset _)
    · intro other unset
      refine (rbcfg_get_fst again other).trans (.trans ?_ (rbcfg_get_fst accepted other).symm)
      congr 1
      apply rbcfgCmdGet_congr loaded loaded' (tags_put member enough.1 put)
      intro env' tag' found' present'
      have known := tagOf_mem present'
      have different : tag' ≠ tag := by
        rintro rfl
        have ids : env'.id = env.id := known.2.symm.trans (tagOf_mem present).2
        have entry := envOf_some found
        have entry' := envOf_some found'
        obtain rfl := env_eq_of_id entry'.1 entry.1 ids
        apply unset word
        rw [← entry.2, ← entry'.2]
      rw [getU32, getU32, load_put_other member enough.1 put known.1 different (by omega)]

end Step

/-- In every run from an accepted configuration whose accesses have room, no access leaves the
buffer and every command is local. -/
theorem edits_local (commands : List Command) (stores : Stores) (accepted : Accepted stores)
    (ample : Granted rbcfg Ample stores commands) : Throughout rbcfg Local stores commands := by
  refine throughout_of_granted ?_ commands stores accepted ample
  rintro stores command ⟨buf, accepted⟩ ample
  have step : ∃ exit next, rbcfg stores command = some (exit, next) ∧
      Local stores command exit next := by
    cases command with
    | apply => exact apply_local accepted
    | get argv => exact get_local accepted ample
    | set argv => exact set_local accepted ample
  obtain ⟨exit, next, stepped, done⟩ := step
  exact ⟨exit, next, stepped, done, done.accepted⟩

/-- A configuration with a boot delay of one second and a boot key. -/
def delayAndKey : List UInt8 :=
  [116, 102, 111, 83, 33, 135, 122, 93, 0, 4, 0, 2, 0, 0, 0, 1, 0, 4, 0, 4, 0, 0, 0, 0]

/-- The words of a `set` of the boot delay to five seconds. -/
def delayFive : List (List UInt8) := ["boot_delay".toList.map ascii, "5".toList.map ascii]

/-- An edit, a look at it, and its way to the partition. -/
def session : List Command :=
  [.set delayFive, .get ["boot_delay".toList.map ascii],
    .set ["boot_key".toList.map ascii, "none".toList.map ascii], .apply]

theorem edits_local_session :
    Accepted ⟨delayAndKey, none⟩ ∧ Granted rbcfg Ample ⟨delayAndKey, none⟩ session ∧
      Throughout rbcfg Local ⟨delayAndKey, none⟩ session := by
  have accepted : Accepted ⟨delayAndKey, none⟩ := by
    refine ⟨[116, 102, 111, 83, 0, 0, 0, 0, 0, 4, 0, 2, 0, 0, 0, 1, 0, 4, 0, 4, 0, 0, 0, 0], ?_⟩
    decide +kernel
  have ample : Granted rbcfg Ample ⟨delayAndKey, none⟩ session := by
    refine ⟨by decide +kernel, ?_⟩
    decide +kernel
  exact ⟨accepted, ample, edits_local session _ accepted ample⟩

/-- A configuration whose boot delay has two bytes, at its end. -/
def shortDelay : List UInt8 := [116, 102, 111, 83, 57, 183, 191, 222, 0, 2, 0, 2, 0, 1]

/-- A `set` of the boot delay writes behind the buffer. Where there is a longer temporary file, what
was set is lost. -/
theorem not_local_short :
    (Accepted ⟨shortDelay, none⟩ ∧
      ¬ Throughout rbcfg Local ⟨shortDelay, none⟩ [.set delayFive]) ∧
    (Accepted ⟨delayAndKey, some (List.replicate 25 0)⟩ ∧
      ¬ Throughout rbcfg Local ⟨delayAndKey, some (List.replicate 25 0)⟩ [.set delayFive]) := by
  refine ⟨⟨?_, ?_⟩, ?_, ?_⟩
  · refine ⟨[116, 102, 111, 83, 0, 0, 0, 0, 0, 2, 0, 2, 0, 1], ?_⟩
    decide +kernel
  · rintro ⟨exit, next, stepped, -⟩
    have fault : rbcfg ⟨shortDelay, none⟩ (.set delayFive) = none := by decide +kernel
    rw [fault] at stepped
    cases stepped
  · refine ⟨[116, 102, 111, 83, 0, 0, 0, 0, 0, 4, 0, 2, 0, 0, 0, 1, 0, 4, 0, 4, 0, 0, 0, 0], ?_⟩
    decide +kernel
  · rintro ⟨exit, next, stepped, good, -⟩
    have ran : rbcfg ⟨delayAndKey, some (List.replicate 25 0)⟩ (.set delayFive) =
        some (.success none, ⟨delayAndKey, some
          [116, 102, 111, 83, 124, 107, 43, 81, 0, 4, 0, 2, 0, 0, 0, 5,
            0, 4, 0, 4, 0, 0, 0, 0, 0]⟩) := by
      decide +kernel
    rw [ran] at stepped
    obtain ⟨rfl, rfl⟩ := Prod.mk.inj (Option.some.inj stepped)
    obtain ⟨name, word, tag, words, edited⟩ := good.edited _ rfl (by decide)
    obtain ⟨rfl, rfl⟩ : "boot_delay".toList.map ascii = name ∧ "5".toList.map ascii = word := by
      simpa [delayFive] using words
    obtain ⟨value, isWord, shown⟩ := edited.shown
    have first : (rbcfg ⟨delayAndKey, some
        [116, 102, 111, 83, 124, 107, 43, 81, 0, 4, 0, 2, 0, 0, 0, 5,
          0, 4, 0, 4, 0, 0, 0, 0, 0]⟩
        (.get ["boot_delay".toList.map ascii])).map Prod.fst = some (.success (some "1")) := by
      decide +kernel
    rw [shown] at first
    obtain rfl : value = "1" := by simpa using first
    revert isWord
    decide

end Trunk.Rbcfg
