import Trunk.Mtdsplit.Parsers

/-! # What the firmware splitters cut

Every parser returns (`Trunk.Mtdsplit.mtdFindRootfsFrom_cases`, `Trunk.Mtdsplit.findUimage_ends`). The LZMA
and Seama parsers always cut as they should (`Trunk.Mtdsplit.lzma_splits`,
`Trunk.Mtdsplit.seama_splits`). The uImage parsers add a size from the flash in 32 bits, and leave
the size of a header they refused behind when the loop ends. They cut as they should exactly if no
header on the flash makes a difference there (`Trunk.Mtdsplit.splits_iff`).
-/

namespace Trunk.Mtdsplit

open Memory Network

variable {mtd : MtdInfo} {verify : List UInt8 → Bool}

/-- A squashfs or jffs2 magic stands at a place of the device. -/
def Magic (mtd : MtdInfo) (offset : Nat) : Prop :=
  ∃ magic, load mtd.content offset 4 = some magic ∧
    (ByteOrder.little.word magic = squashfsMagic ∨ mtd.order.word magic = jffs2Magic)

/-- A magic stands at the place or at the start of an erase block behind it. -/
def RootfsFrom (mtd : MtdInfo) (from_ : Nat) : Prop :=
  ∃ offset, from_ ≤ offset ∧ offset < mtd.size ∧ (offset = from_ ∨ mtd.erasesize ∣ offset) ∧
    Magic mtd offset

/-- A kernel and a root file system that are cut as they should be. -/
structure Cut (parser : Parser) (mtd : MtdInfo) (kernel rootfs : MtdPartition) : Prop where
  names : kernel.name = .kernel ∧ rootfs.name = .rootfs
  nonempty : 0 < kernel.size ∧ 0 < rootfs.size
  inside : kernel.offset + kernel.size ≤ mtd.size ∧ rootfs.offset + rootfs.size ≤ mtd.size
  apart : kernel.offset + kernel.size ≤ rootfs.offset ∨ rootfs.offset + rootfs.size ≤ kernel.offset
  magic : Magic mtd rootfs.offset
  image : ∀ verify ∈ parser.verify?, ∃ header,
    load mtd.content kernel.offset uimageHeaderLen = some header ∧ verify header = true ∧
      uimageHeaderLen + ihSize header ≤ kernel.size

/-- The parser returns, and if it reports two partitions, they are cut as they should be. -/
def Splits (parser : Parser) (mtd : MtdInfo) : Prop :=
  ∃ outcome, parser.parse mtd = some outcome ∧ ∀ parts, outcome = .ok parts →
    ∃ kernel rootfs, (parts = [kernel, rootfs] ∨ parts = [rootfs, kernel]) ∧
      Cut parser mtd kernel rootfs

/-! ## The root file system -/

theorem mtdRead_eq {offset length : Nat} {content : List UInt8}
    (loaded : load mtd.content offset length = some content) :
    mtdRead mtd offset length = .ok content := by
  rw [mtdRead, loaded]

theorem mtdRead_none {offset length : Nat} (outside : load mtd.content offset length = none) :
    mtdRead mtd offset length = .error .einval := by
  rw [mtdRead, outside]

theorem check_of_magic {offset : Nat} (magic : Magic mtd offset) :
    mtdCheckRootfsMagic mtd offset = .ok () := by
  obtain ⟨word, loaded, known⟩ := magic
  rw [mtdCheckRootfsMagic, mtdRead_eq loaded]
  exact if_neg (by
    rintro ⟨notSquashfs, notJffs2⟩
    exact known.elim notSquashfs notJffs2)

theorem check_of_not_magic {offset : Nat} (plain : ¬ Magic mtd offset) :
    ∃ err, mtdCheckRootfsMagic mtd offset = .error err := by
  cases loaded : load mtd.content offset 4 with
  | none =>
      rw [mtdCheckRootfsMagic, mtdRead_none loaded]
      exact ⟨_, rfl⟩
  | some word =>
      refine ⟨.einval, ?_⟩
      rw [mtdCheckRootfsMagic, mtdRead_eq loaded]
      apply if_pos
      constructor
      · intro squashfs
        exact plain ⟨word, loaded, .inl squashfs⟩
      · intro jffs2
        exact plain ⟨word, loaded, .inr jffs2⟩

theorem Magic.inside {offset : Nat} (magic : Magic mtd offset) : offset + 4 ≤ mtd.size := by
  obtain ⟨word, loaded, -⟩ := magic
  exact (load_eq_some_iff.mp loaded).1

theorem mtdNextEb_eq {offset : Nat} (inside : offset < mtd.size) :
    mtdNextEb mtd offset = (offset / mtd.erasesize + 1) * mtd.erasesize ∧
      offset < mtdNextEb mtd offset ∧ mtdNextEb mtd offset ≤ mtd.size := by
  have positive := mtd.positive
  have block : offset / mtd.erasesize < mtd.blocks := by
    rw [Nat.div_lt_iff_lt_mul positive, ← mtd.whole]
    exact inside
  have fits : (offset / mtd.erasesize + 1) * mtd.erasesize ≤ mtd.size := by
    rw [MtdInfo.size, mtd.whole]
    exact Nat.mul_le_mul_right _ block
  have small : mtd.size ≤ 2 ^ 31 := mtd.small
  have next : mtdNextEb mtd offset = (offset / mtd.erasesize + 1) * mtd.erasesize := by
    rw [mtdNextEb, ← Nat.add_one_mul, Nat.mod_eq_of_lt (by omega)]
  refine ⟨next, ?_, by rw [next]; exact fits⟩
  rw [next, Nat.mul_comm]
  exact Nat.lt_mul_div_succ offset positive

/-- Where there is no magic, the search goes on at the next erase block. -/
theorem rootfsFrom_next {offset : Nat} (inside : offset < mtd.size) (plain : ¬ Magic mtd offset) :
    RootfsFrom mtd offset ↔ RootfsFrom mtd (mtdNextEb mtd offset) := by
  obtain ⟨next, later, -⟩ := mtdNextEb_eq inside
  constructor
  · rintro ⟨place, behind, within, start, magic⟩
    have different : place ≠ offset := by
      rintro rfl
      exact plain magic
    obtain ⟨block, rfl⟩ : mtd.erasesize ∣ place := start.resolve_left different
    refine ⟨_, ?_, within, .inr ⟨block, rfl⟩, magic⟩
    rw [next, Nat.mul_comm]
    apply Nat.mul_le_mul_left
    exact (Nat.div_lt_iff_lt_mul mtd.positive).mpr (by rw [Nat.mul_comm]; omega)
  · rintro ⟨place, behind, within, start, magic⟩
    refine ⟨place, by omega, within, .inr ?_, magic⟩
    rcases start with rfl | block
    · exact ⟨offset / mtd.erasesize + 1, by rw [next, Nat.mul_comm]⟩
    · exact block

theorem findRootfs_cases (fuel offset : Nat) (enough : mtd.size - offset < fuel) :
    (RootfsFrom mtd offset ∧ ∃ found, findRootfs mtd mtd.size fuel offset = some (.ok found) ∧
        offset ≤ found ∧ found < mtd.size ∧ Magic mtd found) ∨
      (findRootfs mtd mtd.size fuel offset = some (.error .enodev) ∧ ¬ RootfsFrom mtd offset) := by
  induction fuel generalizing offset with
  | zero => exact absurd enough (Nat.not_lt_zero _)
  | succ fuel ih =>
      rw [findRootfs]
      by_cases last : mtd.size ≤ offset
      · rw [if_pos last]
        refine .inr ⟨rfl, ?_⟩
        rintro ⟨place, behind, within, -⟩
        omega
      · rw [if_neg last]
        by_cases magic : Magic mtd offset
        · rw [check_of_magic magic]
          have within : offset < mtd.size := Nat.lt_of_not_le last
          exact .inl ⟨⟨offset, Nat.le_refl _, within, .inl rfl, magic⟩, offset, rfl,
            Nat.le_refl _, within, magic⟩
        · obtain ⟨err, failed⟩ := check_of_not_magic magic
          obtain ⟨-, later, -⟩ := mtdNextEb_eq (Nat.lt_of_not_le last)
          rw [failed, rootfsFrom_next (Nat.lt_of_not_le last) magic]
          rcases ih (mtdNextEb mtd offset) (by omega) with ⟨rootfs, found, done, behind, rest⟩ | none_
          · exact .inl ⟨rootfs, found, done, by omega, rest⟩
          · exact .inr none_

/-- The search finds a magic behind its start, if there is one. -/
theorem mtdFindRootfsFrom_cases (mtd : MtdInfo) (from_ : Nat) :
    (RootfsFrom mtd from_ ∧ ∃ found, mtdFindRootfsFrom mtd from_ mtd.size = some (.ok found) ∧
        from_ ≤ found ∧ found < mtd.size ∧ Magic mtd found) ∨
      (mtdFindRootfsFrom mtd from_ mtd.size = some (.error .enodev) ∧ ¬ RootfsFrom mtd from_) :=
  findRootfs_cases _ _ (by omega)

/-! ## LZMA and Seama -/

/-- A cut at a magic behind the start is as it should be, for a parser without a header to
verify. -/
theorem cutAt_cut {parser : Parser} {offset : Nat} (headless : parser.verify? = none)
    (behind : 0 < offset) (magic : Magic mtd offset) :
    Cut parser mtd ⟨.kernel, 0, offset⟩ ⟨.rootfs, offset, mtd.size - offset⟩ := by
  have inside := magic.inside
  refine ⟨⟨rfl, rfl⟩, ⟨behind, by dsimp only; omega⟩, ⟨by dsimp only; omega, by dsimp only; omega⟩,
    .inl (by dsimp only; omega), magic, ?_⟩
  intro verify known
  rw [headless] at known
  cases known

theorem splits_error {parser : Parser} {err : Errno} (failed : parser.parse mtd = some (.error err)) :
    Splits parser mtd := by
  refine ⟨_, failed, ?_⟩
  intro parts reported
  cases reported

theorem splits_cutAt {parser : Parser} {offset : Nat} (headless : parser.verify? = none)
    (behind : 0 < offset) (magic : Magic mtd offset)
    (done : parser.parse mtd = some (.ok (cutAt mtd offset))) : Splits parser mtd := by
  refine ⟨_, done, ?_⟩
  intro parts reported
  obtain rfl := Except.ok.inj reported
  exact ⟨_, _, .inl rfl, cutAt_cut headless behind magic⟩

/-- The end of a parser that searches for the root file system. -/
theorem splits_search {parser : Parser} (from_ : Nat) (headless : parser.verify? = none)
    (behind : 0 < from_)
    (found_ : ∀ found, mtdFindRootfsFrom mtd from_ mtd.size = some (.ok found) →
      parser.parse mtd = some (.ok (cutAt mtd found)))
    (failed : ∀ err, mtdFindRootfsFrom mtd from_ mtd.size = some (.error err) →
      parser.parse mtd = some (.error err)) : Splits parser mtd := by
  rcases mtdFindRootfsFrom_cases mtd from_ with ⟨-, found, done, later, -, magic⟩ | none_
  · exact splits_cutAt headless (by omega) magic (found_ found done)
  · exact splits_error (failed _ none_.1)

theorem lzma_splits (mtd : MtdInfo) : Splits .lzma mtd := by
  have parse : Parser.lzma.parse mtd = mtdsplitParseLzma mtd := rfl
  rw [mtdsplitParseLzma] at parse
  cases read : mtdRead mtd 0 13 with
  | error err =>
      rw [read] at parse
      exact splits_error parse
  | ok hdr =>
      rw [read] at parse
      dsimp only at parse
      split at parse
      · exact splits_error parse
      · split at parse
        · exact splits_error parse
        · split at parse
          · exact splits_error parse
          · refine splits_search _ rfl mtd.positive (fun found done => ?_) (fun err failed => ?_)
            · rw [done] at parse
              exact parse
            · rw [failed] at parse
              exact parse

/-- A Seama header is no root file system. -/
theorem seama_not_magic {hdr : List UInt8} (read : load mtd.content 0 seamaHeaderLen = some hdr)
    (seama : be32 hdr 0 = seamaMagic) : ¬ Magic mtd 0 := by
  rintro ⟨word, loaded, known⟩
  have front : load hdr 0 4 = some ((hdr.drop 0).take 4) := by
    refine load_eq_some_iff.mpr ⟨?_, rfl⟩
    rw [load_length read, seamaHeaderLen]
    omega
  have same : word = (hdr.drop 0).take 4 := by
    have within := load_within read front
    rw [Nat.zero_add, loaded] at within
    exact Option.some.inj within
  have length : word.length = 4 := load_length loaded
  have bytes_ : word = bytes 4 seamaMagic := by
    rw [← seama, be32, ← same, ← length, bytes_number]
  rw [bytes_] at known
  revert known
  cases mtd.order <;> decide

theorem seama_splits (mtd : MtdInfo) : Splits .seama mtd := by
  have parse : Parser.seama.parse mtd = mtdsplitParseSeama mtd := rfl
  rw [mtdsplitParseSeama] at parse
  cases read : load mtd.content 0 seamaHeaderLen with
  | none =>
      rw [mtdRead_none read] at parse
      exact splits_error parse
  | some hdr =>
      rw [mtdRead_eq read] at parse
      dsimp only at parse
      split at parse
      · exact splits_error parse
      · rename_i seama
        have start := seama_not_magic read (Decidable.not_not.mp seama)
        split at parse
        · exact splits_error parse
        · by_cases magic : Magic mtd
            ((seamaHeaderLen + be32 hdr 8 + number ((hdr.drop 6).take 2)) % 2 ^ 32)
          · rw [check_of_magic magic] at parse
            refine splits_cutAt rfl ?_ magic parse
            apply Nat.pos_of_ne_zero
            intro zero
            rw [zero] at magic
            exact start magic
          · obtain ⟨err, failed⟩ := check_of_not_magic magic
            rw [failed] at parse
            refine splits_search seamaMinRootfsOffs rfl (by decide)
              (fun found done => ?_) (fun err none_ => ?_)
            · rw [done] at parse
              exact parse
            · rw [none_] at parse
              exact parse

/-! ## uImage -/

/-- The size of the image whose header stands at a place, if there is room for the header and it is
verified. -/
def candidate (mtd : MtdInfo) (verify : List UInt8 → Bool) (offset : Nat) : Option Nat :=
  (load mtd.content offset uimageHeaderLen).bind fun header =>
    if verify header then some (uimageHeaderLen + ihSize header) else none

/-- The start of an erase block. -/
def MtdInfo.place (mtd : MtdInfo) (block : Nat) : Nat := block * mtd.erasesize

/-- A block with a candidate that the loop stops at: it does not exceed the device, in 32 bits. -/
def Passes (mtd : MtdInfo) (verify : List UInt8 → Bool) (block : Nat) : Prop :=
  ∃ length ∈ candidate mtd verify (mtd.place block),
    (mtd.place block + length % 2 ^ 32) % 2 ^ 32 ≤ mtd.size

/-- A root file system is found for an image in a block: behind it at the start of the device, else
before it. -/
def RootfsFor (mtd : MtdInfo) (block length : Nat) : Prop :=
  (block = 0 ∧ RootfsFrom mtd (length % 2 ^ 32)) ∨ (0 < block ∧ Magic mtd 0)

/-- Where the loop stops, the image ends inside the device, or no size is left of it, or there is no
root file system for it. Where it does not stop, there is no candidate in the last block, or no root
file system at the start. -/
structure Plain (mtd : MtdInfo) (verify : List UInt8 → Bool) : Prop where
  stopped : ∀ block < mtd.blocks, Passes mtd verify block →
    (∀ earlier < block, ¬ Passes mtd verify earlier) →
      ∀ length ∈ candidate mtd verify (mtd.place block),
        mtd.place block + length ≤ mtd.size ∨ length % 2 ^ 32 = 0 ∨ ¬ RootfsFor mtd block length
  exhausted : (∀ block < mtd.blocks, ¬ Passes mtd verify block) →
    candidate mtd verify (mtd.place (mtd.blocks - 1)) = none ∨ ¬ Magic mtd 0

theorem place_next {block : Nat} (inside : block < mtd.blocks) :
    (mtd.place block + mtd.erasesize) % 2 ^ 32 = mtd.place (block + 1) ∧
      mtd.place block < mtd.size := by
  have positive := mtd.positive
  have small : mtd.size ≤ 2 ^ 31 := mtd.small
  have next : mtd.place (block + 1) ≤ mtd.size := by
    rw [MtdInfo.size, mtd.whole]
    exact Nat.mul_le_mul_right _ inside
  have step : mtd.place block + mtd.erasesize = mtd.place (block + 1) :=
    (Nat.add_one_mul block mtd.erasesize).symm
  rw [step]
  exact ⟨Nat.mod_eq_of_lt (by omega), by omega⟩

section Uimage

variable {fuel block uimageSize : Nat}

/-- A block without a candidate is passed over. -/
theorem findUimage_none (inside : block < mtd.blocks)
    (none_ : candidate mtd verify (mtd.place block) = none) :
    findUimage mtd verify (fuel + 1) (mtd.place block) uimageSize =
      findUimage mtd verify fuel (mtd.place (block + 1)) 0 := by
  obtain ⟨next, within⟩ := place_next inside
  rw [findUimage, if_neg (Nat.not_le.mpr within), next]
  rw [candidate] at none_
  cases read : load mtd.content (mtd.place block) uimageHeaderLen with
  | none => rw [mtdRead_none read]
  | some header =>
      rw [read, Option.bind_some] at none_
      rw [mtdRead_eq read]
      have refused : verify header = false := by
        by_contra accepted
        rw [Bool.not_eq_false] at accepted
        rw [if_pos accepted] at none_
        cases none_
      exact if_pos refused

/-- A block with a candidate ends the loop, if it passes. -/
theorem findUimage_some (inside : block < mtd.blocks) {length : Nat}
    (some_ : candidate mtd verify (mtd.place block) = some length) :
    findUimage mtd verify (fuel + 1) (mtd.place block) uimageSize =
      if mtd.size < (mtd.place block + length % 2 ^ 32) % 2 ^ 32 then
        findUimage mtd verify fuel (mtd.place (block + 1)) (length % 2 ^ 32)
      else some (mtd.place block, length % 2 ^ 32) := by
  obtain ⟨next, within⟩ := place_next inside
  rw [findUimage, if_neg (Nat.not_le.mpr within), next]
  obtain ⟨header, read, rest⟩ := Option.bind_eq_some_iff.mp some_
  rw [mtdRead_eq read]
  split at rest
  · rename_i accepted
    obtain rfl := Option.some.inj rest
    dsimp only
    rw [if_neg (by rw [accepted]; decide)]
  · cases rest

/-- What is left of the size when the loop ends: that of the candidate in the last block. -/
def leftover (mtd : MtdInfo) (verify : List UInt8 → Bool) : Nat :=
  (candidate mtd verify (mtd.place (mtd.blocks - 1))).elim 0 (· % 2 ^ 32)

/-- How the loop ends from a block on: at the first block that passes, else at the end of the
device. -/
inductive Ends (mtd : MtdInfo) (verify : List UInt8 → Bool) (block uimageSize : Nat) :
    Option (Nat × Nat) → Prop
  | stopped (stop length : Nat) (low : block ≤ stop) (high : stop < mtd.blocks)
      (passes : Passes mtd verify stop)
      (first : ∀ earlier, block ≤ earlier → earlier < stop → ¬ Passes mtd verify earlier)
      (found : candidate mtd verify (mtd.place stop) = some length) :
      Ends mtd verify block uimageSize (some (mtd.place stop, length % 2 ^ 32))
  | exhausted (none_ : ∀ other, block ≤ other → other < mtd.blocks → ¬ Passes mtd verify other) :
      Ends mtd verify block uimageSize
        (some (mtd.size, if block = mtd.blocks then uimageSize else leftover mtd verify))

/-- A block that does not pass leaves the size of its own candidate, or none. -/
theorem Ends.skip {size : Nat} {result : Option (Nat × Nat)} (inside : block < mtd.blocks)
    (refused : ¬ Passes mtd verify block)
    (own : size = (candidate mtd verify (mtd.place block)).elim 0 (· % 2 ^ 32))
    (ends : Ends mtd verify (block + 1) size result) : Ends mtd verify block uimageSize result := by
  have also (P : Nat → Prop) (bound : Nat)
      (later : ∀ other, block + 1 ≤ other → other < bound → ¬ P other) (here : ¬ P block) :
      ∀ other, block ≤ other → other < bound → ¬ P other := by
    intro other low high
    by_cases same : other = block
    · rw [same]
      exact here
    · exact later other (by omega) high
  cases ends with
  | stopped stop length low high passes first found =>
      exact .stopped stop length (by omega) high passes (also _ _ first refused) found
  | exhausted none_ =>
      have size_ : (if block + 1 = mtd.blocks then size else leftover mtd verify) =
          if block = mtd.blocks then uimageSize else leftover mtd verify := by
        rw [if_neg (Nat.ne_of_lt inside)]
        split
        · rename_i last
          rw [leftover, ← last, Nat.add_sub_cancel, own]
        · rfl
      rw [size_]
      exact .exhausted (also _ _ none_ refused)

theorem findUimage_ends (mtd : MtdInfo) (verify : List UInt8 → Bool) (fuel block uimageSize : Nat) (within : block ≤ mtd.blocks)
    (enough : mtd.blocks - block < fuel) :
    Ends mtd verify block uimageSize
      (findUimage mtd verify fuel (mtd.place block) uimageSize) := by
  induction fuel generalizing block uimageSize with
  | zero => exact absurd enough (Nat.not_lt_zero _)
  | succ fuel ih =>
      by_cases last : block = mtd.blocks
      · have at_ : mtd.place block = mtd.size := by
          rw [last]
          exact mtd.whole.symm
        have ended : findUimage mtd verify (fuel + 1) (mtd.place block) uimageSize =
            some (mtd.size, if block = mtd.blocks then uimageSize else leftover mtd verify) := by
          rw [findUimage, at_, if_pos (Nat.le_refl _), if_pos last]
        rw [ended]
        refine .exhausted fun other low high => ?_
        omega
      · have inside : block < mtd.blocks := by omega
        have rest (size : Nat) := ih (block + 1) size (by omega) (by omega)
        cases found : candidate mtd verify (mtd.place block) with
        | none =>
            rw [findUimage_none inside found]
            refine .skip inside ?_ (by rw [found]; rfl) (rest 0)
            rintro ⟨length, present, -⟩
            rw [found] at present
            cases present
        | some length =>
            rw [findUimage_some inside found]
            by_cases exceeds : mtd.size < (mtd.place block + length % 2 ^ 32) % 2 ^ 32
            · rw [if_pos exceeds]
              refine .skip inside ?_ (by rw [found]; rfl) (rest (length % 2 ^ 32))
              rintro ⟨other, present, fits⟩
              rw [found] at present
              obtain rfl := Option.some.inj present
              omega
            · rw [if_neg exceeds]
              refine .stopped block length (Nat.le_refl _) inside
                ⟨length, found, Nat.le_of_not_lt exceeds⟩ (fun earlier low high => ?_) found
              omega

/-! ## What a uImage parser reports -/

theorem plain_stopped {stop length : Nat} (high : stop < mtd.blocks)
    (passes : Passes mtd verify stop) (first : ∀ earlier < stop, ¬ Passes mtd verify earlier)
    (found : candidate mtd verify (mtd.place stop) = some length) :
    Plain mtd verify ↔ mtd.place stop + length ≤ mtd.size ∨ length % 2 ^ 32 = 0 ∨
      ¬ RootfsFor mtd stop length := by
  constructor
  · intro plain
    exact plain.stopped stop high passes first length found
  · intro allowed
    refine ⟨?_, fun none_ => absurd passes (none_ stop high)⟩
    intro block inside here before other present
    obtain rfl : block = stop := by
      rcases Nat.lt_trichotomy block stop with earlier | same | later
      · exact absurd here (first block earlier)
      · exact same
      · exact absurd passes (before stop later)
    rw [found] at present
    obtain rfl := Option.some.inj present
    exact allowed

theorem plain_exhausted (none_ : ∀ block < mtd.blocks, ¬ Passes mtd verify block) :
    Plain mtd verify ↔
      candidate mtd verify (mtd.place (mtd.blocks - 1)) = none ∨ ¬ Magic mtd 0 :=
  ⟨fun plain => plain.exhausted none_,
    fun allowed => ⟨fun block inside passes => absurd passes (none_ block inside),
      fun _ => allowed⟩⟩

theorem splits_iff_cut {parser : Parser} {parts : List MtdPartition} {kernel rootfs : MtdPartition}
    (done : parser.parse mtd = some (.ok parts))
    (two : parts = [kernel, rootfs] ∨ parts = [rootfs, kernel])
    (names : kernel.name = .kernel ∧ rootfs.name = .rootfs) :
    Splits parser mtd ↔ Cut parser mtd kernel rootfs := by
  constructor
  · rintro ⟨outcome, parsed, good⟩
    obtain rfl := Option.some.inj (parsed.symm.trans done)
    obtain ⟨kernel', rootfs', two', cut⟩ := good parts rfl
    have both : kernel' = kernel ∧ rootfs' = rootfs := by
      have names' := cut.names
      rcases two with rfl | rfl <;> rcases two' with same | same <;>
        simp only [List.cons.injEq, and_true] at same <;> obtain ⟨rfl, rfl⟩ := same <;>
        simp_all
    rw [← both.1, ← both.2]
    exact cut
  · intro cut
    refine ⟨_, done, ?_⟩
    intro parts' reported
    obtain rfl := Except.ok.inj reported
    exact ⟨kernel, rootfs, two, cut⟩

theorem candidate_header {offset length : Nat}
    (found : candidate mtd verify offset = some length) :
    ∃ header, load mtd.content offset uimageHeaderLen = some header ∧ verify header = true ∧
      uimageHeaderLen + ihSize header = length := by
  obtain ⟨header, read, rest⟩ := Option.bind_eq_some_iff.mp found
  split at rest
  · rename_i accepted
    exact ⟨header, read, accepted, Option.some.inj rest⟩
  · cases rest

/-- The image of a candidate is in the kernel, if it is as long. -/
theorem image_iff {parser : Parser} {offset length size : Nat}
    (uimage : parser.verify? = some verify) (found : candidate mtd verify offset = some length) :
    (∀ verify ∈ parser.verify?, ∃ header, load mtd.content offset uimageHeaderLen = some header ∧
        verify header = true ∧ uimageHeaderLen + ihSize header ≤ size) ↔ length ≤ size := by
  obtain ⟨header, read, accepted, rfl⟩ := candidate_header found
  constructor
  · intro image
    obtain ⟨header', read', -, fits⟩ := image verify uimage
    obtain rfl := Option.some.inj (read.symm.trans read')
    exact fits
  · intro fits verify' known
    obtain rfl := Option.some.inj (uimage.symm.trans known)
    exact ⟨header, read, accepted, fits⟩

/-- An image at the start of the device. -/
theorem behind_splits {parser : Parser} {length : Nat} (uimage : parser.verify? = some verify)
    (found : candidate mtd verify 0 = some length) (nonzero : length % 2 ^ 32 ≠ 0)
    (parse : parser.parse mtd = rootfsBehind mtd (length % 2 ^ 32)) :
    Splits parser mtd ↔ length ≤ mtd.size ∨ ¬ RootfsFrom mtd (length % 2 ^ 32) := by
  have small : mtd.size ≤ 2 ^ 31 := mtd.small
  rw [rootfsBehind] at parse
  rcases mtdFindRootfsFrom_cases mtd (length % 2 ^ 32) with
    ⟨rootfs, offset, done, later, within, magic⟩ | ⟨failed, none_⟩
  · rw [done] at parse
    dsimp only [Option.bind_eq_bind, Option.bind_some] at parse
    rw [if_neg (by omega)] at parse
    rw [splits_iff_cut parse (.inl rfl) ⟨rfl, rfl⟩]
    constructor
    · intro cut
      have fits : length ≤ offset := (image_iff uimage found).mp cut.image
      exact .inl (by omega)
    · intro allowed
      have fits : length ≤ mtd.size := allowed.resolve_right (fun absent => absent rootfs)
      rw [Nat.mod_eq_of_lt (by omega)] at later nonzero
      exact ⟨⟨rfl, rfl⟩, ⟨by dsimp only; omega, by dsimp only; omega⟩,
        ⟨by dsimp only; omega, by dsimp only; omega⟩, .inl (by dsimp only; omega), magic,
        (image_iff uimage found).mpr later⟩
  · rw [failed] at parse
    exact iff_of_true (splits_error parse) (.inr none_)

/-- An image, or what is left of one, behind the start of the device. -/
theorem before_error {parser : Parser} {offset uimageSize : Nat} (plain : ¬ Magic mtd 0)
    (parse : parser.parse mtd = some (rootfsBefore mtd offset uimageSize)) : Splits parser mtd := by
  obtain ⟨err, failed⟩ := check_of_not_magic plain
  rw [rootfsBefore, failed] at parse
  exact splits_error parse

theorem before_splits {parser : Parser} {offset uimageSize : Nat} (behind : offset ≠ 0)
    (magic : Magic mtd 0)
    (parse : parser.parse mtd = some (rootfsBefore mtd offset uimageSize)) :
    Splits parser mtd ↔ Cut parser mtd ⟨.kernel, offset, uimageSize⟩ ⟨.rootfs, 0, offset⟩ := by
  rw [rootfsBefore, check_of_magic magic] at parse
  dsimp only at parse
  rw [if_neg behind] at parse
  exact splits_iff_cut parse (.inr rfl) ⟨rfl, rfl⟩

/-- The end of `__mtdsplit_parse_uimage`, behind the loop. -/
def afterLoop (mtd : MtdInfo) (uimageOffset uimageSize : Nat) :
    Option (Except Errno (List MtdPartition)) :=
  if uimageSize = 0 then some (.error .enodev)
  else if uimageOffset = 0 then rootfsBehind mtd uimageSize
  else some (rootfsBefore mtd uimageOffset uimageSize)

/-- The loop stopped at a block. -/
theorem stopped_splits {parser : Parser} {stop length : Nat}
    (uimage : parser.verify? = some verify)
    (found : candidate mtd verify (mtd.place stop) = some length)
    (parse : parser.parse mtd = afterLoop mtd (mtd.place stop) (length % 2 ^ 32)) :
    Splits parser mtd ↔ mtd.place stop + length ≤ mtd.size ∨ length % 2 ^ 32 = 0 ∨
      ¬ RootfsFor mtd stop length := by
  have small : mtd.size ≤ 2 ^ 31 := mtd.small
  rw [afterLoop] at parse
  by_cases zero : length % 2 ^ 32 = 0
  · rw [if_pos zero] at parse
    exact iff_of_true (splits_error parse) (.inr (.inl zero))
  · rw [if_neg zero] at parse
    by_cases atStart : stop = 0
    · subst atStart
      have start : mtd.place 0 = 0 := Nat.zero_mul _
      rw [start] at parse found ⊢
      rw [if_pos rfl] at parse
      rw [behind_splits uimage found zero parse, Nat.zero_add]
      simp only [zero, false_or, RootfsFor, true_and, Nat.lt_irrefl, false_and, or_false]
    · have positive : mtd.place stop ≠ 0 :=
        Nat.ne_of_gt (Nat.mul_pos (Nat.pos_of_ne_zero atStart) mtd.positive)
      rw [if_neg positive] at parse
      by_cases magic : Magic mtd 0
      · rw [before_splits positive magic parse]
        have rootfs : RootfsFor mtd stop length := .inr ⟨Nat.pos_of_ne_zero atStart, magic⟩
        simp only [zero, rootfs, not_true_eq_false, or_false]
        constructor
        · intro cut
          have fits : length ≤ length % 2 ^ 32 := (image_iff uimage found).mp cut.image
          have inside : mtd.place stop + length % 2 ^ 32 ≤ mtd.size := cut.inside.1
          omega
        · intro fits
          have exact_ : length % 2 ^ 32 = length := Nat.mod_eq_of_lt (by omega)
          rw [exact_] at zero ⊢
          exact ⟨⟨rfl, rfl⟩, ⟨by dsimp only; omega, by dsimp only; omega⟩,
            ⟨by dsimp only; omega, by dsimp only; omega⟩, .inr (by dsimp only; omega), magic,
            (image_iff uimage found).mpr (Nat.le_refl _)⟩
      · refine iff_of_true (before_error magic parse) (.inr (.inr ?_))
        rintro (⟨first, -⟩ | ⟨-, present⟩)
        · exact atStart first
        · exact magic present

/-- The loop ran to the end of the device. -/
theorem exhausted_splits {parser : Parser} (none_ : ∀ block < mtd.blocks, ¬ Passes mtd verify block)
    (parse : parser.parse mtd =
      afterLoop mtd mtd.size (if 0 = mtd.blocks then 0 else leftover mtd verify)) :
    Splits parser mtd ↔
      candidate mtd verify (mtd.place (mtd.blocks - 1)) = none ∨ ¬ Magic mtd 0 := by
  have small : mtd.size ≤ 2 ^ 31 := mtd.small
  rw [afterLoop] at parse
  cases found : candidate mtd verify (mtd.place (mtd.blocks - 1)) with
  | none =>
      have nothing : leftover mtd verify = 0 := by
        rw [leftover, found]
        rfl
      rw [nothing, ite_self, if_pos rfl] at parse
      exact iff_of_true (splits_error parse) (.inl rfl)
  | some length =>
      have some_ : mtd.blocks ≠ 0 := by
        intro empty
        obtain ⟨header, read, -⟩ := candidate_header found
        have inside := (load_eq_some_iff.mp read).1
        rw [mtd.whole, empty, uimageHeaderLen] at inside
        omega
      have within := (place_next (Nat.sub_one_lt some_)).2
      have exceeds : mtd.size < (mtd.place (mtd.blocks - 1) + length % 2 ^ 32) % 2 ^ 32 := by
        by_contra fits
        exact none_ (mtd.blocks - 1) (by omega) ⟨length, found, Nat.le_of_not_lt fits⟩
      have left : leftover mtd verify = length % 2 ^ 32 := by
        rw [leftover, found]
        rfl
      have nonzero : length % 2 ^ 32 ≠ 0 := by
        intro zero
        rw [zero, Nat.add_zero, Nat.mod_eq_of_lt (by omega)] at exceeds
        omega
      have behind : mtd.size ≠ 0 := by omega
      rw [left, if_neg (Ne.symm some_), if_neg nonzero, if_neg behind] at parse
      simp only [reduceCtorEq, false_or]
      by_cases magic : Magic mtd 0
      · rw [before_splits behind magic parse]
        refine iff_of_false ?_ (not_not_intro magic)
        intro cut
        have inside : mtd.size + length % 2 ^ 32 ≤ mtd.size := cut.inside.1
        omega
      · exact iff_of_true (before_error magic parse) magic

/-- A uImage parser cuts as it should exactly if the headers on the flash are plain. -/
theorem uimage_splits_iff {parser : Parser} (uimage : parser.verify? = some verify)
    (parse : parser.parse mtd = mtdsplitParseUimage mtd verify) :
    Splits parser mtd ↔ Plain mtd verify := by
  have blocks : mtd.blocks ≤ mtd.size := by
    rw [MtdInfo.size, mtd.whole]
    exact Nat.le_mul_of_pos_right _ mtd.positive
  have ends := findUimage_ends mtd verify (mtd.size + 1) 0 0 (Nat.zero_le _) (by omega)
  have start : mtd.place 0 = 0 := Nat.zero_mul _
  rw [start] at ends
  rw [mtdsplitParseUimage] at parse
  generalize findUimage mtd verify (mtd.size + 1) 0 0 = loop at ends parse
  cases ends with
  | stopped stop length low high passes first found =>
      rw [plain_stopped high passes (fun earlier => first earlier (Nat.zero_le _)) found]
      exact stopped_splits uimage found parse
  | exhausted none_ =>
      have refused : ∀ block < mtd.blocks, ¬ Passes mtd verify block :=
        fun block => none_ block (Nat.zero_le _)
      rw [plain_exhausted refused]
      exact exhausted_splits refused parse

end Uimage

/-- Whatever the content of the device, a parser returns and cuts as it should exactly if, for a
uImage parser, the headers on the flash are plain. -/
theorem splits_iff (parser : Parser) (mtd : MtdInfo) :
    Splits parser mtd ↔ ∀ verify ∈ parser.verify?, Plain mtd verify := by
  cases parser with
  | uimageGeneric =>
      have cuts : Splits .uimageGeneric mtd ↔ Plain mtd uimageVerifyDefault :=
        uimage_splits_iff rfl rfl
      rw [cuts]
      simp only [Parser.verify?, Option.mem_some_iff, forall_eq']
  | uimageNetgear =>
      have cuts : Splits .uimageNetgear mtd ↔ Plain mtd uimageVerifyWndr3700 :=
        uimage_splits_iff rfl rfl
      rw [cuts]
      simp only [Parser.verify?, Option.mem_some_iff, forall_eq']
  | lzma =>
      refine iff_of_true (lzma_splits mtd) ?_
      intro verify known
      cases known
  | seama =>
      refine iff_of_true (seama_splits mtd) ?_
      intro verify known
      cases known

/-- A squashfs in the first of two erase blocks, and in the second a uImage header whose image is
longer than the device. -/
def longImage : MtdInfo where
  content := [0x68, 0x73, 0x71, 0x73] ++ List.replicate 60 0 ++ [0x27, 0x05, 0x19, 0x56] ++
    List.replicate 11 0 ++ [100] ++ List.replicate 12 0 ++ [5, 0, 2] ++ List.replicate 33 0
  erasesize := 64
  blocks := 2
  order := .big
  positive := by decide
  whole := by decide +kernel
  small := by decide +kernel

/-- The parser reports a kernel behind the end of the device. -/
theorem not_splits_longImage : ¬ Splits .uimageGeneric longImage := by
  have parsed : Parser.uimageGeneric.parse longImage =
      some (.ok [⟨.rootfs, 0, 128⟩, ⟨.kernel, 128, 164⟩]) := by
    decide +kernel
  rw [splits_iff_cut parsed (.inr rfl) ⟨rfl, rfl⟩]
  intro cut
  have size : longImage.size = 128 := by decide +kernel
  have inside : 128 + 164 ≤ longImage.size := cut.inside.1
  omega

end Trunk.Mtdsplit
