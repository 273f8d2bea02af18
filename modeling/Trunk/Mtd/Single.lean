import Trunk.Mtd.Blocks

/-! # An image on one device

Block after block of an image goes to the good blocks of a device in order, and nothing else is
erased or written (`Trunk.Mtd.flashed_iff`).
-/

namespace Trunk.Mtd

open Flash Loop Network

section Placed

variable {d : Device} {image bytes : List UInt8} {base block n g : Nat}

/-- A device with the blocks of an image, from some block of the image on, in its good blocks in
front of a block. -/
def placed (d : Device) (image : List UInt8) (base block : Nat) : Device :=
  { d with
    cell := fun place =>
      if place / d.eraseSize < block ∧ d.isBad (place / d.eraseSize) = false then
        image.getD ((base + d.rank (place / d.eraseSize)) * d.eraseSize + place % d.eraseSize) 0xff
      else d.cell place
    log := d.log ++ (d.goodBefore block).flatMap fun g =>
      [.erase g, .write (start d g) d.eraseSize] }

/-- A device with some bytes in one of its blocks. -/
def stored (d : Device) (block : Nat) (bytes : List UInt8) : Device :=
  { d with
    cell := fun place =>
      if start d block ≤ place ∧ place < start d block + d.eraseSize then
        bytes.getD (place - start d block) 0
      else d.cell place
    log := d.log ++ [.erase block, .write (start d block) d.eraseSize] }

theorem placed_zero (d : Device) (image : List UInt8) (base : Nat) : placed d image base 0 = d := by
  unfold placed
  simp [Device.goodBefore]

/-- What is written to a block that is erased is what the block holds. -/
theorem write_erased (inside : block < d.count) (positive : 0 < d.eraseSize)
    (full : bytes.length = d.eraseSize) (strong : d.weak block = false) :
    (erased d block).write (start d block) bytes = (stored d block bytes, some d.eraseSize) := by
  have index : start d block / d.eraseSize = block := Nat.mul_div_cancel _ positive
  have size : (erased d block).size = d.size := rfl
  have room : start d block + d.eraseSize ≤ d.size := by
    rw [start, ← Nat.succ_mul]
    exact Nat.mul_le_mul_right _ inside
  have count : min bytes.length (d.size - start d block) = d.eraseSize := by omega
  unfold Device.write
  rw [size, if_neg]
  · dsimp only
    rw [count]
    refine Prod.ext ?_ rfl
    unfold stored erased
    simp only [Device.mk.injEq, true_and]
    refine ⟨?_, List.append_assoc _ _ _⟩
    funext place
    by_cases within : start d block ≤ place ∧ place < start d block + d.eraseSize
    · rw [if_pos within, if_pos within, if_pos within]
      exact UInt8.neg_one_and
    · rw [if_neg within, if_neg within, if_neg within]
  · rintro (beyond | weak)
    · omega
    · change d.weak (start d block / d.eraseSize) = true at weak
      rw [index, strong] at weak
      cases weak

theorem goodBefore_skip (inside : ∀ i < n, d.isBad (block + i) = true) :
    d.goodBefore (block + n) = d.goodBefore block := by
  induction n with
  | zero => rfl
  | succ n ih =>
      rw [← Nat.add_assoc, d.goodBefore_succ_bad (inside n (Nat.lt_succ_self n)),
        ih fun i less => inside i (Nat.lt_succ_of_lt less)]

theorem in_block_iff (positive : 0 < d.eraseSize) (place : Nat) :
    (start d block ≤ place ∧ place < start d block + d.eraseSize) ↔ place / d.eraseSize = block := by
  rw [start, ← Nat.succ_mul, Nat.div_eq_iff positive, Nat.succ_mul]
  omega

/-- The next block of an image goes to the next good block. -/
theorem stored_placed (positive : 0 < d.eraseSize) (good : d.isBad (block + n) = false)
    (bad : ∀ i < n, d.isBad (block + i) = true)
    (held : ∀ j < d.eraseSize,
      bytes.getD j 0 = image.getD ((base + d.rank (block + n)) * d.eraseSize + j) 0xff) :
    stored (placed d image base block) (block + n) bytes = placed d image base (block + n + 1) := by
  unfold stored placed
  simp only [Device.mk.injEq, true_and]
  constructor
  · funext place
    have here := @in_block_iff d (block + n) positive place
    change (if start d (block + n) ≤ place ∧ place < start d (block + n) + d.eraseSize then
      bytes.getD (place - start d (block + n)) 0 else _) = _
    by_cases mine : place / d.eraseSize = block + n
    · have offset : place - start d (block + n) = place % d.eraseSize := by
        have whole := Nat.div_add_mod place d.eraseSize
        rw [mine, Nat.mul_comm] at whole
        rw [start]
        omega
      rw [if_pos (here.mpr mine), mine, if_pos ⟨Nat.lt_succ_self _, good⟩, offset,
        held _ (Nat.mod_lt _ positive)]
    · rw [if_neg fun within => mine (here.mp within)]
      by_cases before : place / d.eraseSize < block
      · have later : place / d.eraseSize < block + n + 1 := by omega
        simp only [before, later, true_and]
      · by_cases between : place / d.eraseSize < block + n
        · have isBad : d.isBad (place / d.eraseSize) = true := by
            have earlier := bad (place / d.eraseSize - block) (by omega)
            rwa [Nat.add_sub_cancel' (Nat.le_of_not_lt before)] at earlier
          simp only [isBad, Bool.true_eq_false, and_false, ↓reduceIte]
        · have beyond : ¬place / d.eraseSize < block + n + 1 := by omega
          simp only [before, beyond, false_and, ↓reduceIte]
  · rw [d.goodBefore_succ_good good, goodBefore_skip bad, List.flatMap_append, ← List.append_assoc]
    rfl

end Placed

section Writing

variable {options : Options} {st st' : Writer} {d : Device} {image : List UInt8} {base block n : Nat}

/-- A round places the next block of the image on the next good block, if it is sound. -/
theorem placeBuffer_good (here : AtBlock st block) (inside : block + n < st.dev.count)
    (good : st.dev.isBad (block + n) = false) (fresh : st.dev.worn (block + n) = false)
    (bad : ∀ i < n, st.dev.isBad (block + i) = true) (erases : options.noErase = false) :
    placeBuffer options st =
      if st.dev.weak (block + n) then .error .exit
      else .ok { skipped st n with
        dev := stored st.dev (block + n) st.buf
        e := st.e + n * st.dev.eraseSize + st.dev.eraseSize
        pos := st.pos + n * st.dev.eraseSize + st.dev.eraseSize
        w := st.w + st.dev.eraseSize
        buf := [] } := by
  have full := here.full
  have offset := here.offset
  have next := here.skipped (Nat.le_of_lt inside)
  have place : st.pos + n * st.dev.eraseSize = start st.dev (block + n) := next.pos
  rw [placeBuffer, erases, if_neg Bool.false_ne_true, eraseLoop_good here inside good fresh bad]
  change writeBuffer { skipped st n with
        dev := erased st.dev (block + n)
        e := st.e + n * st.dev.eraseSize + st.dev.eraseSize } = _
  unfold writeBuffer
  simp only [skipped, offset, Nat.zero_add, Nat.lt_irrefl, ↓reduceIte, List.drop_zero,
    List.take_length, place]
  cases strong : st.dev.weak (block + n) with
  | false =>
      rw [write_erased inside here.positive full strong]
      simp only [full, Nat.lt_irrefl, ↓reduceIte, Bool.false_eq_true]
  | true =>
      have index : start st.dev (block + n) / st.dev.eraseSize = block + n :=
        Nat.mul_div_cancel _ here.positive
      have fails : (erased st.dev (block + n)).write (start st.dev (block + n)) st.buf =
          (erased st.dev (block + n), none) := by
        apply if_pos
        refine Or.inr ?_
        change st.dev.weak (start st.dev (block + n) / st.dev.eraseSize) = true
        rw [index, strong]
      rw [fails]
      rfl

/-- The buffer and what is left of the image are the rest of the image, or the buffer is a block of it
that is padded already. -/
def Ahead (erasesize : Nat) (left : List UInt8) (st : Writer) : Prop :=
  left = st.buf ++ st.fd.rest ∨
    (left ≠ [] ∧ st.buf = padBuffer erasesize (left.take erasesize) ∧
      st.fd.rest = left.drop erasesize)

/-- The blocks of an image in front of a block are placed on a device. -/
structure Progress (d : Device) (image : List UInt8) (base block : Nat) (st : Writer) : Prop where
  positive : 0 < d.eraseSize
  dev : st.dev = placed d image base block
  inside : block ≤ d.count
  e : st.e = start d block
  pos : st.pos = start d block
  w : st.w = d.rank block * d.eraseSize
  skip : st.w + st.skipBadBlocks = start d block
  offset : st.offset = 0
  room : st.buf.length ≤ d.eraseSize
  ahead : Ahead d.eraseSize (image.drop ((base + d.rank block) * d.eraseSize)) st
  reach : (base + d.rank block) * d.eraseSize < image.length + d.eraseSize
  noError : ReadStep.failed ∉ st.fd.steps

theorem take_append_take (buf rest : List UInt8) {size : Nat} (room : buf.length ≤ size) :
    buf ++ rest.take (size - buf.length) = (buf ++ rest).take size ∧
      rest.drop (size - buf.length) = (buf ++ rest).drop size := by
  rw [List.take_append, List.drop_append, List.take_of_length_le room, List.drop_of_length_le room]
  exact ⟨rfl, rfl⟩

theorem length_padBuffer {size : Nat} {buf : List UInt8} (room : buf.length ≤ size) :
    (padBuffer size buf).length = size := by
  rw [padBuffer, List.length_append, List.length_replicate]
  omega

/-- The buffer takes the next block of the image. -/
theorem Progress.fill (progress : Progress d image base block st) :
    padBuffer d.eraseSize (fillWriter st).buf =
        padBuffer d.eraseSize ((image.drop ((base + d.rank block) * d.eraseSize)).take d.eraseSize) ∧
      (fillWriter st).fd.rest =
        image.drop ((base + d.rank block) * d.eraseSize + d.eraseSize) ∧
      ((fillWriter st).buf = [] ↔ image.drop ((base + d.rank block) * d.eraseSize) = []) ∧
      (fillWriter st).buf.length ≤ d.eraseSize ∧
      ReadStep.failed ∉ (fillWriter st).fd.steps := by
  have positive := progress.positive
  have size : st.dev.eraseSize = d.eraseSize := by
    rw [progress.dev]
    rfl
  obtain ⟨filled, rest⟩ := @fillBuffer_full st.dev.eraseSize
    (st.fd.steps.length + st.fd.rest.length + 1) st.buf st.fd progress.noError (Nat.lt_succ_self _)
  obtain ⟨-, -, -, suffix, -⟩ := fillBuffer_spec st.dev.eraseSize
    (st.fd.steps.length + st.fd.rest.length + 1) st.buf st.fd
  have noError : ReadStep.failed ∉ (fillWriter st).fd.steps := fun member =>
    progress.noError (suffix.subset member)
  have joined := take_append_take st.buf st.fd.rest progress.room
  rw [size] at filled rest
  have filled' : (fillWriter st).buf = (st.buf ++ st.fd.rest).take d.eraseSize := by
    change (fillBuffer _ _ _ _).1 = _
    rw [size, filled, joined.1]
  have rest' : (fillWriter st).fd.rest = (st.buf ++ st.fd.rest).drop d.eraseSize := by
    change (fillBuffer _ _ _ _).2.rest = _
    rw [size, rest, joined.2]
  rw [← List.drop_drop]
  have ahead := progress.ahead
  generalize image.drop ((base + d.rank block) * d.eraseSize) = left at ahead ⊢
  rcases ahead with whole | ⟨some, padded, dropped⟩
  · rw [← whole] at filled' rest'
    rw [filled', rest', List.length_take, List.take_eq_nil_iff]
    refine ⟨rfl, rfl, ⟨fun none => none.resolve_left (Nat.ne_of_gt positive), Or.inr⟩,
      Nat.min_le_left _ _, noError⟩
  · have full : st.buf.length = d.eraseSize := by
      rw [padded, length_padBuffer]
      rw [List.length_take]
      exact Nat.min_le_left _ _
    rw [← full, List.take_left] at filled'
    rw [← full, List.drop_left, dropped] at rest'
    rw [filled', rest']
    refine ⟨?_, rfl, ⟨fun none => ?_, fun none => absurd none some⟩, Nat.le_of_eq full, noError⟩
    · rw [padBuffer, full, Nat.sub_self, List.replicate_zero, List.append_nil, padded]
    · rw [none, List.length_nil] at full
      omega

/-- A block of an image, padded. -/
theorem padBuffer_getD {size place j : Nat} (less : j < size) (image : List UInt8) :
    (padBuffer size ((image.drop place).take size)).getD j 0 = image.getD (place + j) 0xff := by
  have length : ((image.drop place).take size).length = min size (image.length - place) := by
    rw [List.length_take, List.length_drop]
  unfold padBuffer
  simp only [List.getD_eq_getElem?_getD]
  by_cases inside : j < image.length - place
  · rw [List.getElem?_append_left (by omega), List.getElem?_take_of_lt less, List.getElem?_drop]
    have there : place + j < image.length := by omega
    rw [List.getElem?_eq_getElem there]
    rfl
  · rw [List.getElem?_append_right (by omega), List.getElem?_replicate, if_pos (by omega),
      List.getElem?_eq_none (by omega)]
    rfl

/-- The loop that erases starts at a block. -/
theorem Progress.atBlock (progress : Progress d image base block st) :
    AtBlock (padWriter (fillWriter st)) block := by
  have size : (padWriter (fillWriter st)).dev.eraseSize = d.eraseSize := by
    change st.dev.eraseSize = _
    rw [progress.dev]
    rfl
  have where' : start (padWriter (fillWriter st)).dev block = start d block :=
    congrArg (block * ·) size
  have count : (padWriter (fillWriter st)).dev.count = d.count := by
    change st.dev.count = _
    rw [progress.dev]
    rfl
  refine ⟨size ▸ progress.positive, count ▸ progress.inside, ?_, ?_, ?_, ?_, progress.offset⟩
  · change (padBuffer st.dev.eraseSize (fillWriter st).buf).length = st.dev.eraseSize
    apply length_padBuffer
    exact Nat.le_trans progress.fill.2.2.2.1 (Nat.le_of_eq size.symm)
  · rw [where']
    exact progress.e
  · rw [where']
    exact progress.pos
  · rw [where']
    exact progress.skip

/-- The next block of the image is placed. -/
theorem Progress.place (progress : Progress d image base block st)
    (some : (fillWriter st).buf ≠ []) (inside : block + n < d.count)
    (good : d.isBad (block + n) = false) (fresh : d.worn (block + n) = false)
    (bad : ∀ i < n, d.isBad (block + i) = true) (erases : options.noErase = false) :
    (d.weak (block + n) = true ∧
      placeBuffer options (padWriter (fillWriter st)) = .error .exit) ∨
    ∃ st', placeBuffer options (padWriter (fillWriter st)) = .ok st' ∧
      Progress d image base (block + n + 1) st' ∧ st'.left = st.left ∧ st'.next = st.next := by
  have dev := progress.dev
  have same : (padWriter (fillWriter st)).dev = placed d image base block := dev
  have size : (padWriter (fillWriter st)).dev.eraseSize = d.eraseSize := by
    rw [same]
    rfl
  have result := @placeBuffer_good options (padWriter (fillWriter st)) block n progress.atBlock
    (by rw [same]; exact inside) (by rw [same]; exact good) (by rw [same]; exact fresh)
    (by rw [same]; exact bad) erases
  obtain ⟨filled, rest, empty, -, noError⟩ := progress.fill
  have rank : d.rank (block + n) = d.rank block := congrArg List.length (goodBefore_skip bad)
  cases weak : d.weak (block + n) with
  | true =>
      refine Or.inl ⟨rfl, ?_⟩
      rw [result, if_pos (by rw [same]; exact weak)]
  | false =>
      rw [if_neg (by rw [same]; exact (Bool.eq_false_iff.mp weak))] at result
      refine Or.inr ⟨_, result, ?_, rfl, rfl⟩
      have blocks : image.drop ((base + d.rank block) * d.eraseSize) ≠ [] :=
        fun none => some (empty.mpr none)
      have more : (base + d.rank block) * d.eraseSize < image.length := by
        by_contra beyond
        exact blocks (List.drop_of_length_le (Nat.le_of_not_lt beyond))
      have next : d.rank (block + n + 1) = d.rank block + 1 := by
        rw [d.rank_succ_good good, rank]
      have e := progress.e
      have pos := progress.pos
      have w := progress.w
      have skip := progress.skip
      have distance : start d (block + n + 1) = start d block + n * d.eraseSize + d.eraseSize := by
        rw [start, start, Nat.succ_mul, Nat.add_mul]
      exact {
        positive := progress.positive
        dev := by
          change stored (padWriter (fillWriter st)).dev (block + n)
            (padBuffer st.dev.eraseSize (fillWriter st).buf) = _
          rw [same]
          apply stored_placed progress.positive good bad
          intro j less
          have erasesize : st.dev.eraseSize = d.eraseSize := size
          rw [erasesize, filled, padBuffer_getD less, rank]
        inside := inside
        e := by
          change st.e + n * st.dev.eraseSize + st.dev.eraseSize = _
          rw [dev, e, distance]
          rfl
        pos := by
          change st.pos + n * st.dev.eraseSize + st.dev.eraseSize = _
          rw [dev, pos, distance]
          rfl
        w := by
          change st.w + st.dev.eraseSize = _
          rw [dev, w, next, Nat.succ_mul]
          rfl
        skip := by
          change st.w + st.dev.eraseSize + (st.skipBadBlocks + n * st.dev.eraseSize) = _
          rw [dev, distance, ← skip]
          change st.w + d.eraseSize + (st.skipBadBlocks + n * d.eraseSize) = _
          omega
        offset := progress.offset
        room := Nat.zero_le _
        ahead := by
          refine Or.inl ?_
          change _ = (fillWriter st).fd.rest
          rw [rest, next, ← Nat.add_assoc, Nat.succ_mul]
        reach := by
          rw [next, ← Nat.add_assoc, Nat.succ_mul]
          omega
        noError := noError }

theorem placeBuffer_stuck (erases : options.noErase = false) (last : st.next = [])
    (ended : eraseLoop options st = stuck options st') (same : st'.next = st.next) :
    placeBuffer options st = .error .exit := by
  have exits : stuck options st' = .error .exit := by
    rw [stuck, same, last]
  rw [placeBuffer, erases, if_neg Bool.false_ne_true, ended, exits]
  rfl

/-- On the last device the next block of the image is placed, or the program ends with an error. -/
theorem Progress.place_last (progress : Progress d image base block st)
    (some : (fillWriter st).buf ≠ []) (last : st.next = []) (erases : options.noErase = false) :
    placeBuffer options (padWriter (fillWriter st)) = .error .exit ∨
    ∃ st' block', placeBuffer options (padWriter (fillWriter st)) = .ok st' ∧
      Progress d image base block' st' ∧ st'.left = st.left ∧ st'.next = [] := by
  have here := progress.atBlock
  have same : (padWriter (fillWriter st)).dev = placed d image base block := progress.dev
  rcases exists_next_good d block with ⟨n, inside, good, bad⟩ | bad
  · cases worn : d.worn (block + n) with
    | false =>
        rcases progress.place some inside good worn bad erases with ⟨-, exits⟩ |
          ⟨st', placed, progress', left, next⟩
        · exact Or.inl exits
        · exact Or.inr ⟨st', _, placed, progress', left, next.trans last⟩
    | true =>
        refine Or.inl (placeBuffer_stuck erases last (eraseLoop_worn (n := n) here ?_ ?_ ?_ ?_) rfl)
        · rw [same]
          exact inside
        · rw [same]
          exact good
        · rw [same]
          exact worn
        · rw [same]
          exact bad
  · have ended := @eraseLoop_end options _ _ here (by rw [same]; exact bad)
    split at ended
    · exact Or.inl (placeBuffer_stuck erases last ended rfl)
    · rw [placeBuffer, erases, if_neg Bool.false_ne_true, ended]
      exact Or.inl rfl

end Writing

section Flashed

variable {d : Device} {image buf : List UInt8} {fd : ImageFd} {block : Nat} {st : Writer}

/-- An image padded to whole blocks. -/
def padTo (erasesize : Nat) (image : List UInt8) : List UInt8 :=
  image ++ List.replicate ((erasesize - image.length % erasesize) % erasesize) 0xff

/-- What a device is to be like after an image is written to it: its first good blocks hold the
padded image in order, each of them was erased and then written, and all else is as before. -/
structure Flashed (d : Device) (image : List UInt8) (d' : Device) : Prop where
  enough : (padTo d.eraseSize image).length / d.eraseSize ≤ d.rank d.count
  held : ∀ g < d.count, d.isBad g = false →
    d.rank g < (padTo d.eraseSize image).length / d.eraseSize → ∀ j < d.eraseSize,
      some (d'.cell (start d g + j)) = (padTo d.eraseSize image)[d.rank g * d.eraseSize + j]?
  kept : ∀ place, (d.isBad (place / d.eraseSize) = true ∨
      (padTo d.eraseSize image).length / d.eraseSize ≤ d.rank (place / d.eraseSize)) →
    d'.cell place = d.cell place
  log : d'.log = d.log ++
    ((d.goodBefore d.count).take ((padTo d.eraseSize image).length / d.eraseSize)).flatMap fun g =>
      [.erase g, .write (start d g) d.eraseSize]

theorem padTo_getElem? {size place : Nat} (inside : place < (padTo size image).length) :
    (padTo size image)[place]? = some (image.getD place 0xff) := by
  unfold padTo at inside ⊢
  rw [List.getD_eq_getElem?_getD]
  by_cases front : place < image.length
  · rw [List.getElem?_append_left front, List.getElem?_eq_getElem front]
    rfl
  · rw [List.length_append, List.length_replicate] at inside
    rw [List.getElem?_append_right (Nat.le_of_not_lt front), List.getElem?_replicate,
      if_pos (by omega), List.getElem?_eq_none (Nat.le_of_not_lt front)]
    rfl

theorem length_padTo {size blocks : Nat} (positive : 0 < size)
    (least : image.length ≤ blocks * size) (most : blocks * size < image.length + size) :
    (padTo size image).length = blocks * size := by
  have whole := Nat.div_add_mod image.length size
  have rest := Nat.mod_lt image.length positive
  rw [padTo, List.length_append, List.length_replicate]
  rw [Nat.mul_comm] at whole
  generalize image.length / size = quotient at whole
  generalize image.length % size = remainder at whole rest ⊢
  have low : quotient ≤ blocks := by
    by_contra less
    have product := Nat.mul_le_mul_right size (Nat.lt_of_not_le less)
    rw [Nat.succ_mul] at product
    omega
  have high : blocks ≤ quotient + 1 := by
    by_contra more
    have product := Nat.mul_le_mul_right size (Nat.lt_of_not_le more)
    rw [Nat.succ_mul, Nat.succ_mul] at product
    omega
  rcases Nat.eq_or_lt_of_le low with rfl | more
  · have none : remainder = 0 := by omega
    rw [none, Nat.sub_zero, Nat.mod_self]
    omega
  · obtain rfl : blocks = quotient + 1 := by omega
    rw [Nat.succ_mul] at least most ⊢
    by_cases none : remainder = 0
    · omega
    · rw [Nat.mod_eq_of_lt (by omega)]
      omega

/-- The whole image is placed. -/
theorem Progress.flashed (progress : Progress d image 0 block st)
    (ended : image.length ≤ d.rank block * d.eraseSize) :
    Flashed d image (placed d image 0 block) := by
  have positive := progress.positive
  have reach := progress.reach
  rw [Nat.zero_add] at reach
  have length := length_padTo positive ended reach
  have blocks : (padTo d.eraseSize image).length / d.eraseSize = d.rank block := by
    rw [length, Nat.mul_div_cancel _ positive]
  have before : ∀ g, d.isBad g = false → d.rank g < d.rank block → g < block := by
    intro g good less
    by_contra late
    exact absurd (d.rank_mono (Nat.le_of_not_lt late)) (Nat.not_le_of_lt less)
  refine ⟨?_, ?_, ?_, ?_⟩
  · rw [blocks]
    exact d.rank_mono progress.inside
  · intro g inside good less j within
    rw [blocks] at less
    have index : (start d g + j) / d.eraseSize = g := by
      rw [start, Nat.add_comm, Nat.add_mul_div_right _ _ positive, Nat.div_eq_of_lt within,
        Nat.zero_add]
    have offset : (start d g + j) % d.eraseSize = j := by
      rw [start, Nat.mul_add_mod', Nat.mod_eq_of_lt within]
    rw [padTo_getElem?]
    · change some (if _ then _ else _) = _
      rw [index, offset, if_pos ⟨before g good less, good⟩, Nat.zero_add]
    · rw [length]
      calc d.rank g * d.eraseSize + j < d.rank g * d.eraseSize + d.eraseSize := by omega
        _ = (d.rank g + 1) * d.eraseSize := (Nat.succ_mul _ _).symm
        _ ≤ d.rank block * d.eraseSize := Nat.mul_le_mul_right _ less
  · intro place reason
    rw [blocks] at reason
    change (if _ then _ else _) = _
    rw [if_neg]
    rintro ⟨early, good⟩
    rcases reason with bad | late
    · rw [good] at bad
      cases bad
    · exact absurd (d.rank_lt_of_good good early) (Nat.not_lt_of_le late)
  · rw [blocks, d.goodBefore_take progress.inside]
    rfl

/-- No options. -/
def plain : Options where
  noErase := false
  partOffset := 0

theorem progress_start (image : List UInt8) (positive : 0 < d.eraseSize)
    (noError : ReadStep.failed ∉ fd.steps) (room : buf.length ≤ d.eraseSize)
    (whole : image = buf ++ fd.rest) (next : List Device) :
    Progress d image 0 0 {
      fd := fd
      buf := buf
      offset := 0
      w := 0
      e := 0
      skipBadBlocks := 0
      pos := 0
      left := []
      dev := d
      next := next } where
  positive := positive
  dev := (placed_zero d image 0).symm
  inside := Nat.zero_le _
  e := (Nat.zero_mul _).symm
  pos := (Nat.zero_mul _).symm
  w := (Nat.zero_mul _).symm
  skip := (Nat.zero_mul _).symm
  offset := rfl
  room := room
  ahead := by
    refine Or.inl ?_
    change image.drop ((0 + 0) * _) = _
    rw [Nat.add_zero, Nat.zero_mul, List.drop_zero, whole]
  reach := by
    change (0 + 0) * d.eraseSize < _
    rw [Nat.add_zero, Nat.zero_mul]
    omega
  noError := noError

/-- When `mtd_write` returns, the image is on the device; the program stays inside its buffer; it ends
with an error if there is no room for the image. -/
structure FlashedOrExits (d : Device) (image : List UInt8) (result : Except Stop Writer) : Prop where
  returned : ∀ st, result = .ok st → Flashed d image st.dev
  inside : result ≠ .error .outside
  exits : d.rank d.count < (padTo d.eraseSize image).length / d.eraseSize → result = .error .exit

theorem flashedOrExits_ok (flashed : Flashed d image st.dev) :
    FlashedOrExits d image (.ok st) where
  returned := by
    intro st' same
    obtain rfl := Except.ok.inj same
    exact flashed
  inside := nofun
  exits := fun less => absurd flashed.enough (Nat.not_le_of_lt less)

theorem flashedOrExits_exit (d : Device) (image : List UInt8) :
    FlashedOrExits d image (.error .exit) where
  returned := nofun
  inside := nofun
  exits := fun _ => rfl

/-- The main loop on one device. -/
theorem mtdWrite_single (positive : 0 < d.eraseSize) (noError : ReadStep.failed ∉ fd.steps)
    (room : buf.length ≤ d.eraseSize) :
    FlashedOrExits d (buf ++ fd.rest) (mtdWrite plain fd buf d []) := by
  have start := progress_start (buf ++ fd.rest) positive noError room rfl []
  have again : ∀ st next, ((∃ block, Progress d (buf ++ fd.rest) 0 block st) ∧ st.next = []) →
      writeRound plain st = .ok (.again next) →
      (∃ block, Progress d (buf ++ fd.rest) 0 block next) ∧ next.next = [] := by
    rintro st next ⟨⟨block, progress⟩, last⟩ round
    obtain ⟨some, ok⟩ := writeRound_again round
    rcases progress.place_last some last (show plain.noErase = false from rfl) with exits | ⟨st', block', placed, progress', -, none⟩
    · rw [exits] at ok
      cases ok
    · obtain rfl := Except.ok.inj (placed.symm.trans ok)
      exact ⟨⟨block', progress'⟩, none⟩
  cases result : mtdWrite plain fd buf d [] with
  | ok st =>
      apply flashedOrExits_ok
      refine @loop_invariant _ _ _ _ _ _ _ _ _
        (fun st => Flashed d (buf ++ fd.rest) st.dev) again ?_ ⟨⟨0, start⟩, rfl⟩ result
      rintro st final ⟨⟨block, progress⟩, -⟩ round
      obtain ⟨empty, rfl⟩ := writeRound_done round
      have ended : (buf ++ fd.rest).length ≤ d.rank block * d.eraseSize := by
        have none := progress.fill.2.2.1.mp empty
        rw [List.drop_eq_nil_iff, Nat.zero_add] at none
        exact none
      have same : (fillWriter st).dev = placed d (buf ++ fd.rest) 0 block := progress.dev
      rw [same]
      exact progress.flashed ended
  | error stop =>
      have exits : stop = .exit := by
        refine @loop_fault _ _ _ _ _ _ _ _ (· = Stop.exit) _ (writeRound_shrinks plain) again ?_
          ⟨⟨0, start⟩, rfl⟩ result
        rintro st fault ⟨⟨block, progress⟩, last⟩ round
        have failed := writeRound_error round
        have some : (fillWriter st).buf ≠ [] := by
          intro empty
          rw [writeRound_eq, if_pos empty] at round
          cases round
        rcases progress.place_last some last (show plain.noErase = false from rfl) with exits | ⟨st', -, placed, -⟩
        · exact (Except.error.inj (exits.symm.trans failed)).symm
        · rw [placed] at failed
          cases failed
      rw [exits]
      exact flashedOrExits_exit d _

/-- The check of the image gets what it asks for, or the program ends because it does not. -/
def CheckSteady (hasTrx linux force : Bool) (d : Device) (fd : ImageFd) : Prop :=
  hasTrx = true → linux = true →
    match (read fd 32).1 with
    | .got bytes => bytes.length ≤ d.eraseSize
    | _ => force = false

theorem imageCheck_spec (order : ByteOrder) {hasTrx linux force : Bool}
    (steady : CheckSteady hasTrx linux force d fd) :
    ∃ checked, imageCheck order hasTrx linux d fd = .ok checked ∧
      ((checked.accepted = false ∧ force = false) ∨
        ∃ buf, checked.buf = some buf ∧ buf.length ≤ d.eraseSize ∧ buf ++ checked.fd.rest = fd.rest ∧
          checked.fd.steps <:+ fd.steps) := by
  have reads := reads_read fd 32
  unfold imageCheck trxCheck
  cases hasTrx with
  | false => exact ⟨_, rfl, Or.inr ⟨[], rfl, Nat.zero_le _, rfl, List.suffix_refl _⟩⟩
  | true =>
      cases linux with
      | false => exact ⟨_, rfl, Or.inr ⟨[], rfl, Nat.zero_le _, rfl, List.suffix_refl _⟩⟩
      | true =>
          have ready := steady rfl rfl
          simp only [↓reduceIte, Bool.not_true, Bool.false_eq_true]
          generalize read fd 32 = result at reads ready
          obtain ⟨result, fd'⟩ := result
          cases reads with
          | got taken steps suffix most some all fewer =>
              dsimp only at ready ⊢
              rw [if_neg (Nat.not_lt_of_le ready)]
              exact ⟨_, rfl, Or.inr ⟨_, rfl, ready, List.take_append_drop _ _, suffix⟩⟩
          | retry steps suffix fewer => exact ⟨_, rfl, Or.inl ⟨rfl, ready⟩⟩
          | failed steps suffix member => exact ⟨_, rfl, Or.inl ⟨rfl, ready⟩⟩

/-- An image is flashed to one device, exactly if the check of the image in front of it does not
leave the buffer. -/
theorem flashed_iff (order : ByteOrder) (hasTrx linux force : Bool) (d : Device) (fd : ImageFd)
    (positive : 0 < d.eraseSize) (noError : ReadStep.failed ∉ fd.steps) :
    FlashedOrExits d fd.rest (cmdWrite order hasTrx linux force plain fd d []) ↔
      CheckSteady hasTrx linux force d fd := by
  constructor
  · intro flashed present named
    subst present named
    unfold cmdWrite imageCheck trxCheck at flashed
    simp only [↓reduceIte, Bool.not_true, Bool.false_eq_true] at flashed
    generalize read fd 32 = result at flashed ⊢
    obtain ⟨result, fd'⟩ := result
    cases result with
    | got bytes =>
        dsimp only at flashed ⊢
        by_contra beyond
        rw [if_pos (Nat.lt_of_not_le beyond)] at flashed
        exact flashed.inside rfl
    | retry =>
        dsimp only at flashed ⊢
        cases force with
        | false => rfl
        | true => exact absurd rfl flashed.inside
    | failed =>
        dsimp only at flashed ⊢
        cases force with
        | false => rfl
        | true => exact absurd rfl flashed.inside
  · intro steady
    obtain ⟨checked, accepted, outcome⟩ := imageCheck_spec order steady
    unfold cmdWrite
    rw [accepted]
    change FlashedOrExits d fd.rest (if (!checked.accepted && !force) = true then _ else _)
    rcases outcome with ⟨rejected, unforced⟩ | ⟨buf, filled, room, whole, suffix⟩
    · rw [rejected, unforced]
      exact flashedOrExits_exit d _
    · split
      · exact flashedOrExits_exit d _
      · rw [filled]
        have result := @mtdWrite_single d buf checked.fd positive
          (fun member => noError (suffix.subset member)) room
        rw [whole] at result
        exact result

/-- A device with a bad block in front. -/
def sample (erasesize : Nat) : Device where
  eraseSize := erasesize
  count := 3
  nand := true
  bad := fun block => block = 0
  edge := none
  worn := fun _ => false
  weak := fun _ => false
  cell := fun _ => 0
  log := []

/-- Three bytes on blocks of two. -/
theorem flashed_sample :
    FlashedOrExits (sample 2) [1, 2, 3]
      (cmdWrite .little false false false plain
        { steps := [.deliver 0, .eintr], rest := [1, 2, 3] } (sample 2) []) :=
  (flashed_iff .little false false false (sample 2)
    { steps := [.deliver 0, .eintr], rest := [1, 2, 3] } (by decide) (by decide)).mpr nofun

/-- The check of the image is interrupted, and its result is not asked for. -/
theorem not_flashed_interrupted :
    0 < (sample 64).eraseSize ∧ ReadStep.failed ∉ [ReadStep.eintr] ∧
      ¬FlashedOrExits (sample 64) [1, 2, 3]
        (cmdWrite .little true true true plain
          { steps := [.eintr], rest := [1, 2, 3] } (sample 64) []) :=
  ⟨by decide, by decide, fun flashed => flashed.inside rfl⟩

end Flashed

end Trunk.Mtd
