import Trunk.Mtd.Single

/-! # An image over several devices

When a device is used up, `mtd_write` goes on with the next one. The image is in one piece over the
good blocks of the devices exactly if no device that is left that way has a bad block, or the program
ends before it writes again (`Trunk.Mtd.splitOrExits_iff`).
-/

namespace Trunk.Mtd

open Flash Loop

section Contents

variable {d : Device} {image : List UInt8} {base block : Nat}

/-- How many good blocks a device has. -/
def goods (d : Device) : Nat := d.rank d.count

/-- The contents of the good blocks in front of a block, in order. -/
def contentsBefore (d : Device) (block : Nat) : List UInt8 :=
  (d.goodBefore block).flatMap fun g =>
    (List.range d.eraseSize).map fun j => d.cell (start d g + j)

/-- The contents of the good blocks of a device, in order. -/
def contents (d : Device) : List UInt8 := contentsBefore d d.count

/-- Some bytes of an image that is padded without end, from a place on. -/
def padded (image : List UInt8) (place n : Nat) : List UInt8 :=
  (List.range n).map fun i => image.getD (place + i) 0xff

theorem padded_add (image : List UInt8) (place first second : Nat) :
    padded image place (first + second) =
      padded image place first ++ padded image (place + first) second := by
  unfold padded
  rw [List.range_add, List.map_append, List.map_map]
  simp only [Function.comp_def, Nat.add_assoc]

theorem padTo_eq_padded (size : Nat) (image : List UInt8) :
    padTo size image = padded image 0 (padTo size image).length := by
  apply List.ext_getElem?
  intro i
  unfold padded
  by_cases inside : i < (padTo size image).length
  · rw [padTo_getElem? inside, List.getElem?_map, List.getElem?_range inside]
    change _ = some (image.getD (0 + i) 0xff)
    rw [Nat.zero_add]
  · rw [List.getElem?_eq_none (Nat.le_of_not_lt inside), List.getElem?_eq_none]
    rw [List.length_map, List.length_range]
    exact Nat.le_of_not_lt inside

/-- The good blocks in front of a block hold the blocks of the image that are placed there. -/
theorem contentsBefore_placed (positive : 0 < d.eraseSize) {b : Nat} (front : b ≤ block) :
    contentsBefore (placed d image base block) b =
      padded image (base * d.eraseSize) (d.rank b * d.eraseSize) := by
  induction b with
  | zero => simp [contentsBefore, Device.goodBefore, Device.rank, padded]
  | succ b ih =>
      have earlier := ih (Nat.le_of_succ_le front)
      unfold contentsBefore at earlier ⊢
      cases good : d.isBad b with
      | true =>
          have same : (placed d image base block).goodBefore (b + 1) =
              (placed d image base block).goodBefore b := Device.goodBefore_succ_bad _ good
          rw [same, earlier, d.rank_succ_bad good]
      | false =>
          have more : (placed d image base block).goodBefore (b + 1) =
              (placed d image base block).goodBefore b ++ [b] := Device.goodBefore_succ_good _ good
          rw [more, List.flatMap_append, earlier, d.rank_succ_good good, Nat.succ_mul, padded_add]
          congr 1
          rw [List.flatMap_singleton]
          unfold padded
          apply List.map_congr_left
          intro j member
          have within : j < d.eraseSize := List.mem_range.mp member
          have index : (start d b + j) / d.eraseSize = b := by
            rw [start, Nat.add_comm, Nat.add_mul_div_right _ _ positive, Nat.div_eq_of_lt within,
              Nat.zero_add]
          have offset : (start d b + j) % d.eraseSize = j := by
            rw [start, Nat.mul_add_mod', Nat.mod_eq_of_lt within]
          change (if _ then _ else _) = _
          rw [show start (placed d image base block) b = start d b from rfl, index, offset,
            if_pos ⟨front, good⟩, Nat.add_mul]

theorem contentsBefore_mono (d : Device) {first second : Nat} (order : first ≤ second) :
    contentsBefore d first <+: contentsBefore d second := by
  unfold contentsBefore
  obtain ⟨more, rfl⟩ := Nat.exists_eq_add_of_le order
  have split : d.goodBefore (first + more) = d.goodBefore first ++
      ((List.range more).map (first + ·)).filter fun b => !d.isBad b := by
    rw [Device.goodBefore, List.range_add, List.filter_append]
    rfl
  rw [split, List.flatMap_append]
  exact List.prefix_append _ _

end Contents

section Run

variable {options : Options} {st : Writer} {d : Device} {image : List UInt8} {base block : Nat}

/-- Every block of a device can be erased and written. -/
structure Sound (d : Device) : Prop where
  fresh : ∀ block, d.worn block = false
  strong : ∀ block, d.weak block = false

/-- The image ends on a device, or the device is used up. -/
theorem Progress.run (sound : Sound d) (erases : options.noErase = false)
    (progress : Progress d image base block st) :
    ∃ block' last, Progress d image base block' last ∧ last.left = st.left ∧ last.next = st.next ∧
      (((fillWriter last).buf = [] ∧
          loop (writeRound options) Writer.rounds .outside st = .ok (fillWriter last)) ∨
        ((fillWriter last).buf ≠ [] ∧
          (∀ other, block' ≤ other → other < d.count → d.isBad other = true) ∧
          loop (writeRound options) Writer.rounds .outside st =
            loop (writeRound options) Writer.rounds .outside last)) := by
  have shrinks := writeRound_shrinks options
  induction bound : d.count - block using Nat.strongRecOn generalizing block st with
  | ind most ih =>
      by_cases empty : (fillWriter st).buf = []
      · refine ⟨block, st, progress, rfl, rfl, Or.inl ⟨empty, loop_done shrinks ?_⟩⟩
        rw [writeRound_eq, if_pos empty]
      · rcases exists_next_good d block with ⟨n, inside, good, bad⟩ | bad
        · rcases progress.place empty inside good (sound.fresh _) bad erases with ⟨weak, -⟩ |
            ⟨st', placed, progress', left, next⟩
          · rw [sound.strong] at weak
            cases weak
          · have round : writeRound options st = .ok (.again st') := by
              rw [writeRound_eq, if_neg empty, placed]
              rfl
            obtain ⟨block', last, reached, left', next', outcome⟩ :=
              ih (d.count - (block + n + 1)) (by omega) progress' rfl
            rw [loop_again shrinks round]
            exact ⟨block', last, reached, left'.trans left, next'.trans next, outcome⟩
        · exact ⟨block, st, progress, rfl, rfl, Or.inr ⟨empty, bad, rfl⟩⟩

theorem rank_of_used (inside : block ≤ d.count)
    (bad : ∀ other, block ≤ other → other < d.count → d.isBad other = true) :
    d.rank block = goods d := by
  obtain ⟨n, last⟩ := Nat.exists_eq_add_of_le inside
  have skip := @goodBefore_skip d block n fun i less => bad _ (by omega) (by omega)
  rw [goods, last]
  exact (congrArg List.length skip).symm

end Run

section Seam

variable {st st' : Writer} {d d' : Device} {image : List UInt8} {base block k : Nat}

/-- The next device is open, and the buffer holds the next block of the image. As many blocks as were
bad on the device before are still counted as skipped and as written. -/
structure AtSeam (d : Device) (image : List UInt8) (base k : Nat) (st : Writer) : Prop where
  dev : st.dev = d
  w : st.w = 0
  e : st.e = 0
  pos : st.pos = 0
  skip : st.skipBadBlocks = k * d.eraseSize
  offset : st.offset = k * d.eraseSize
  more : base * d.eraseSize < image.length
  buf : st.buf = padBuffer d.eraseSize ((image.drop (base * d.eraseSize)).take d.eraseSize)
  rest : st.fd.rest = image.drop (base * d.eraseSize + d.eraseSize)
  noError : ReadStep.failed ∉ st.fd.steps

/-- At the end of a device nothing is written, but it counts as written. -/
theorem writeLeftover_end (behind : st.dev.size ≤ st.pos) :
    writeLeftover st = .ok { st with offset := if st.w < st.e then st.e - st.w else st.offset } := by
  unfold writeLeftover
  by_cases some : st.w < st.e
  · have failed : ∀ bytes, st.dev.write st.pos bytes = (st.dev, none) := fun bytes =>
      if_pos (Or.inl behind)
    rw [if_pos some, if_neg fun before => absurd before.1 (Nat.not_lt_of_le behind), if_pos some]
    dsimp only
    rw [failed]
  · rw [if_neg some, if_neg some]

/-- The program ends with an error at the end of a device that does not say that the block behind it
is good. -/
theorem Progress.seam_exit (progress : Progress d image base block st)
    (some : (fillWriter st).buf ≠ [])
    (bad : ∀ other, block ≤ other → other < d.count → d.isBad other = true)
    (exits : passes d = false ∨ st.next = []) : writeRound plain st = .error .exit := by
  have here := progress.atBlock
  have same : (padWriter (fillWriter st)).dev = placed d image base block := progress.dev
  have ended := @eraseLoop_end plain _ _ here (by rw [same]; exact bad)
  have edge : passes (padWriter (fillWriter st)).dev = passes d := by
    rw [same]
    rfl
  have failed : eraseLoop plain (padWriter (fillWriter st)) = .error .exit := by
    rw [ended, edge]
    rcases exits with none | last
    · rw [none, if_neg Bool.false_ne_true]
    · split
      · rw [stuck]
        rw [show (skipped (padWriter (fillWriter st)) _).next = [] from last]
      · rfl
  rw [writeRound_eq, if_neg some, placeBuffer, if_neg (show ¬plain.noErase = true by decide), failed]
  rfl

/-- A device that is used up is left for the next one. -/
theorem Progress.seam (progress : Progress d image base block st)
    (some : (fillWriter st).buf ≠ [])
    (bad : ∀ other, block ≤ other → other < d.count → d.isBad other = true)
    (edge : passes d = true) (size : d'.eraseSize = d.eraseSize) {later : List Device}
    (following : st.next = d' :: later) :
    ∃ st', writeRound plain st = .ok (.again st') ∧
      AtSeam d' image (base + goods d) (d.count - goods d) st' ∧
      st'.left = st.left ++ [placed d image base block] ∧ st'.next = later := by
  have here := progress.atBlock
  have same : (padWriter (fillWriter st)).dev = placed d image base block := progress.dev
  have inside := progress.inside
  have last : block + (d.count - block) = d.count := by omega
  have behind := here.skipped (n := d.count - block) (by rw [same]; exact Nat.le_of_eq last)
  have ended := @eraseLoop_end plain _ _ here (by rw [same]; exact bad)
  rw [last] at behind
  have rank := rank_of_used inside bad
  obtain ⟨filled, rest, empty, -, noError⟩ := progress.fill
  have w : (padWriter (fillWriter st)).w = goods d * d.eraseSize := by
    rw [← rank]
    exact progress.w
  rw [show (padWriter (fillWriter st)).dev.count = d.count by rw [same]; rfl,
    show passes (padWriter (fillWriter st)).dev = passes d by rw [same]; rfl, edge,
    if_pos rfl] at ended
  have few := d.rank_le d.count
  have left : (skipped (padWriter (fillWriter st)) (d.count - block)).e -
      (skipped (padWriter (fillWriter st)) (d.count - block)).w =
        (d.count - goods d) * d.eraseSize := by
    rw [behind.e, Nat.sub_mul]
    change start (padWriter (fillWriter st)).dev d.count - (padWriter (fillWriter st)).w = _
    rw [w, same]
    rfl
  have skip : (skipped (padWriter (fillWriter st)) (d.count - block)).skipBadBlocks =
      (d.count - goods d) * d.eraseSize := by
    have sum := behind.sum
    rw [← left, behind.e, ← sum]
    omega
  have more : (base + goods d) * d.eraseSize < image.length := by
    by_contra beyond
    apply some
    rw [empty, rank]
    exact List.drop_of_length_le (Nat.le_of_not_lt beyond)
  have leftover := @writeLeftover_end (skipped (padWriter (fillWriter st)) (d.count - block)) (by
    rw [behind.pos]
    change (padWriter (fillWriter st)).dev.size ≤ start (padWriter (fillWriter st)).dev d.count
    rw [same]
    exact Nat.le_refl _)
  have offset : (if (skipped (padWriter (fillWriter st)) (d.count - block)).w <
        (skipped (padWriter (fillWriter st)) (d.count - block)).e then
      (skipped (padWriter (fillWriter st)) (d.count - block)).e -
        (skipped (padWriter (fillWriter st)) (d.count - block)).w
      else (skipped (padWriter (fillWriter st)) (d.count - block)).offset) =
        (d.count - goods d) * d.eraseSize := by
    rw [left, behind.offset]
    split <;> omega
  rw [offset] at leftover
  have moved : eraseLoop plain (padWriter (fillWriter st)) = .ok (resume plain
      { skipped (padWriter (fillWriter st)) (d.count - block) with
        offset := (d.count - goods d) * d.eraseSize } d' later, true) := by
    rw [ended, stuck]
    rw [show (skipped (padWriter (fillWriter st)) _).next = d' :: later from following]
    dsimp only
    rw [leftover]
    rfl
  refine ⟨resume plain { skipped (padWriter (fillWriter st)) (d.count - block) with
    offset := (d.count - goods d) * d.eraseSize } d' later, ?_, ?_,
    congrArg (st.left ++ [·]) same, rfl⟩
  · rw [writeRound_eq, if_neg some, placeBuffer, if_neg (show ¬plain.noErase = true by decide), moved]
    rfl
  · exact {
      dev := rfl
      w := rfl
      e := rfl
      pos := rfl
      skip := by
        rw [size]
        exact skip
      offset := by
        rw [size]
        rfl
      more := by
        rw [size]
        exact more
      buf := by
        rw [size, ← rank, ← filled]
        change padBuffer st.dev.eraseSize (fillWriter st).buf = _
        rw [progress.dev]
        rfl
      rest := by
        rw [size, ← rank]
        exact rest
      noError := noError }

/-- Nothing is lost where no block was bad. -/
theorem AtSeam.progress (atSeam : AtSeam d image base 0 st) (positive : 0 < d.eraseSize) :
    Progress d image base 0 st := by
  have buf := atSeam.buf
  have taken : ((image.drop (base * d.eraseSize)).take d.eraseSize).length ≤ d.eraseSize := by
    rw [List.length_take]
    exact Nat.min_le_left _ _
  have more := atSeam.more
  exact {
    positive := positive
    dev := by rw [placed_zero, atSeam.dev]
    inside := Nat.zero_le _
    e := by rw [atSeam.e, start, Nat.zero_mul]
    pos := by rw [atSeam.pos, start, Nat.zero_mul]
    w := by
      rw [atSeam.w]
      exact (Nat.zero_mul _).symm
    skip := by rw [atSeam.w, atSeam.skip, start, Nat.zero_mul]
    offset := by rw [atSeam.offset, Nat.zero_mul]
    room := by
      rw [buf, length_padBuffer taken]
    ahead := by
      refine Or.inr ⟨?_, buf, ?_⟩
      · intro none
        rw [List.drop_eq_nil_iff] at none
        exact absurd more (Nat.not_lt_of_le none)
      · rw [List.drop_drop]
        exact atSeam.rest
    reach := by
      change (base + 0) * d.eraseSize < _
      rw [Nat.add_zero]
      omega
    noError := atSeam.noError }

end Seam

section Adrift

variable {options : Options} {st : Writer} {d : Device} {k block fuel : Nat}

/-- The loop that erases has come to a block of a device that is entered with blocks counted as
skipped. -/
structure Adrift (k block : Nat) (st : Writer) : Prop where
  positive : 0 < st.dev.eraseSize
  sound : Sound st.dev
  inside : block ≤ st.dev.count
  full : st.buf.length = st.dev.eraseSize
  w : st.w = 0
  e : st.e = start st.dev block
  pos : st.pos = (block - st.dev.rank block) * st.dev.eraseSize
  skip : st.skipBadBlocks = (k + (block - st.dev.rank block)) * st.dev.eraseSize
  offset : 0 < st.offset

/-- As many blocks more are erased as are counted as skipped. -/
theorem Adrift.done_iff (adrift : Adrift k block st) :
    st.w + st.buf.length + st.skipBadBlocks ≤ st.e ↔ k < st.dev.rank block := by
  have few := st.dev.rank_le block
  have sum : st.w + st.buf.length + st.skipBadBlocks =
      (k + 1 + (block - st.dev.rank block)) * st.dev.eraseSize := by
    rw [adrift.w, adrift.full, adrift.skip, Nat.zero_add, Nat.add_right_comm k 1, Nat.succ_mul,
      Nat.add_comm]
  rw [sum, adrift.e, start, Nat.mul_le_mul_right_iff adrift.positive]
  omega

theorem Adrift.bad (adrift : Adrift k block st) (inside : block < st.dev.count)
    (bad : st.dev.isBad block = true) : Adrift k (block + 1) (skipped st 1) := by
  have few := st.dev.rank_le block
  have next : block + 1 - st.dev.rank (block + 1) = block - st.dev.rank block + 1 := by
    rw [st.dev.rank_succ_bad bad]
    omega
  exact {
    positive := adrift.positive
    sound := adrift.sound
    inside := inside
    full := adrift.full
    w := adrift.w
    e := by
      change st.e + 1 * st.dev.eraseSize = start st.dev (block + 1)
      rw [adrift.e, start, start, Nat.add_mul]
    pos := by
      change st.pos + 1 * st.dev.eraseSize = (block + 1 - st.dev.rank (block + 1)) * st.dev.eraseSize
      rw [adrift.pos, next, Nat.add_mul]
    skip := by
      change st.skipBadBlocks + 1 * st.dev.eraseSize =
        (k + (block + 1 - st.dev.rank (block + 1))) * st.dev.eraseSize
      rw [adrift.skip, next, Nat.one_mul, ← Nat.add_assoc, Nat.succ_mul]
    offset := adrift.offset }

theorem Adrift.good (adrift : Adrift k block st) (inside : block < st.dev.count)
    (good : st.dev.isBad block = false) :
    Adrift k (block + 1) { st with dev := erased st.dev block, e := st.e + st.dev.eraseSize } := by
  have few := st.dev.rank_le block
  have next : block + 1 - st.dev.rank (block + 1) = block - st.dev.rank block := by
    rw [st.dev.rank_succ_good good]
    omega
  exact {
    positive := adrift.positive
    sound := ⟨adrift.sound.fresh, adrift.sound.strong⟩
    inside := inside
    full := adrift.full
    w := adrift.w
    e := by
      change st.e + st.dev.eraseSize = start st.dev (block + 1)
      rw [adrift.e, start, start, Nat.succ_mul]
    pos := by
      change st.pos = (block + 1 - st.dev.rank (block + 1)) * st.dev.eraseSize
      rw [adrift.pos, next]
    skip := by
      change st.skipBadBlocks = (k + (block + 1 - st.dev.rank (block + 1))) * st.dev.eraseSize
      rw [adrift.skip, next]
    offset := adrift.offset }

/-- What the loop that erases does on a device that is entered with blocks counted as skipped: it ends,
the device ends the program, or the device is left. -/
inductive Drifts (options : Options) (k : Nat) (st : Writer) (result : Except Stop (Writer × Bool)) :
    Prop
  | written (st' : Writer) (more : k < goods st.dev) (ok : result = .ok (st', false))
      (offset : 0 < st'.offset)
  | exit (few : goods st.dev ≤ k) (edge : passes st.dev = false) (error : result = .error .exit)
  | left (st' : Writer) (few : goods st.dev ≤ k) (edge : passes st.dev = true)
      (next : result = stuck options st') (adrift : Adrift k st.dev.count st')
      (count : st'.dev.count = st.dev.count) (good : goods st'.dev = goods st.dev)
      (same : SameInput st st') (size : st'.dev.eraseSize = st.dev.eraseSize)

theorem Adrift.end (adrift : Adrift k st.dev.count st) (few : goods st.dev ≤ k) :
    Drifts options k st (iterate (eraseRound options) .outside (fuel + 2) st) := by
  have unfinished : ¬st.w + st.buf.length + st.skipBadBlocks ≤ st.e := by
    rw [adrift.done_iff]
    exact Nat.not_lt_of_le few
  have behind : st.e = st.dev.size := adrift.e
  have said : st.dev.askBad st.e = if st.dev.nand then st.dev.edge else some false := by
    rw [behind]
    unfold Device.askBad
    cases st.dev.nand with
    | false => rfl
    | true => simp
  have fails : st.dev.erase st.e = none := by
    rw [behind]
    apply if_neg
    rintro ⟨-, less, -⟩
    exact Nat.lt_irrefl _ less
  have leaves (edge : st.dev.askBad st.e = some false) (passed : passes st.dev = true) :
      Drifts options k st (iterate (eraseRound options) .outside (fuel + 2) st) :=
    .left st few passed (iterate_stuck unfinished edge fails) adrift rfl rfl ⟨rfl, rfl, rfl⟩ rfl
  cases nand : st.dev.nand with
  | false =>
      rw [nand] at said
      exact leaves said (by simp [passes, nand])
  | true =>
      rw [nand, if_pos rfl] at said
      cases edge : st.dev.edge with
      | none =>
          refine .exit few (by simp [passes, nand, edge]) (iterate_error ?_ _)
          rw [eraseRound, if_neg unfinished, said, edge]
      | some bad =>
          cases bad with
          | false => exact leaves (said.trans edge) (by simp [passes, nand, edge])
          | true =>
              refine .exit few (by simp [passes, nand, edge]) ?_
              have round : eraseRound options st = .ok (.again (skipped st 1)) := by
                rw [eraseRound, if_neg unfinished, said, edge]
                simp only [skipped, Nat.one_mul]
              have positive := adrift.positive
              have place : (skipped st 1).e = st.dev.size + 1 * st.dev.eraseSize :=
                congrArg (· + 1 * st.dev.eraseSize) behind
              have error : (skipped st 1).dev.askBad (st.dev.size + 1 * st.dev.eraseSize) =
                  none := by
                change st.dev.askBad _ = none
                unfold Device.askBad
                rw [nand, if_neg (by decide), if_neg (by omega), if_neg (by omega)]
              rw [iterate_again round, iterate_error]
              rw [eraseRound, if_neg, place]
              · rw [error]
              · simp only [skipped] at unfinished ⊢
                omega

theorem Adrift.run (adrift : Adrift k block st) (enough : st.dev.count + 2 ≤ fuel + block) :
    Drifts options k st (iterate (eraseRound options) .outside fuel st) := by
  induction bound : st.dev.count - block generalizing st block fuel with
  | zero =>
      have inside := adrift.inside
      obtain rfl : block = st.dev.count := by omega
      obtain ⟨fuel, rfl⟩ : ∃ less, fuel = less + 2 := ⟨fuel - 2, by omega⟩
      by_cases few : goods st.dev ≤ k
      · exact adrift.end few
      · refine .written st (Nat.lt_of_not_le few) ?_ adrift.offset
        apply iterate_done
        rw [eraseRound, if_pos]
        exact adrift.done_iff.mpr (Nat.lt_of_not_le few)
  | succ left ih =>
      have inside : block < st.dev.count := by omega
      obtain ⟨fuel, rfl⟩ : ∃ less, fuel = less + 1 := ⟨fuel - 1, by omega⟩
      by_cases done : k < st.dev.rank block
      · refine .written st (Nat.lt_of_lt_of_le done (st.dev.rank_mono adrift.inside)) ?_ adrift.offset
        apply iterate_done
        rw [eraseRound, if_pos (adrift.done_iff.mpr done)]
      · have unfinished := fun ended => done (adrift.done_iff.mp ended)
        cases good : st.dev.isBad block with
        | true =>
            have round : eraseRound options st = .ok (.again (skipped st 1)) := by
              rw [eraseRound, if_neg unfinished, adrift.e, askBad_start inside adrift.positive, good]
              simp only [skipped, Nat.one_mul, adrift.e]
            rw [iterate_again round]
            have later := @ih _ _ fuel (adrift.bad inside good)
              (by change st.dev.count + 2 ≤ _; omega) (by change st.dev.count - _ = _; omega)
            generalize iterate (eraseRound options) .outside fuel (skipped st 1) = result at later ⊢
            cases later with
            | written st' more ok offset => exact .written st' more ok offset
            | exit few edge error => exact .exit few edge error
            | left st' few edge next adrift count good same size =>
                exact .left st' few edge next adrift count good same size
        | false =>
            have round : eraseRound options st = .ok (.again
                { st with dev := erased st.dev block, e := st.e + st.dev.eraseSize }) := by
              rw [eraseRound, if_neg unfinished, adrift.e, askBad_start inside adrift.positive, good]
              dsimp only
              rw [erase_start inside adrift.positive good (adrift.sound.fresh block)]
            rw [iterate_again round]
            have later := @ih _ _ fuel (adrift.good inside good)
              (by change st.dev.count + 2 ≤ _; omega) (by change st.dev.count - _ = _; omega)
            generalize iterate (eraseRound options) .outside fuel _ = result at later ⊢
            cases later with
            | written st' more ok offset => exact .written st' more ok offset
            | exit few edge error => exact .exit few edge error
            | left st' few edge next adrift count good same size =>
                exact .left st' few edge next adrift count good same size

/-- With blocks counted as skipped, the next access is outside the buffer: a device has room for more
blocks than that, or it is left for another one and something is written to it before. -/
def lost (k : Nat) : List Device → Bool
  | [] => false
  | d :: later =>
      k < goods d || (passes d && !later.isEmpty && (0 < goods d || lost (k + d.count) later))

theorem fillWriter_full (positive : 0 < st.dev.eraseSize) (full : st.buf.length = st.dev.eraseSize) :
    padWriter (fillWriter st) = st ∧ (fillWriter st).buf ≠ [] := by
  have filled : fillBuffer st.dev.eraseSize (st.fd.steps.length + st.fd.rest.length + 1) st.buf
      st.fd = (st.buf, st.fd) := by
    rw [fillBuffer, if_neg (Nat.not_lt_of_le (Nat.le_of_eq full.symm))]
  have same : fillWriter st = st := by
    unfold fillWriter
    rw [filled]
  constructor
  · rw [same, padWriter, padBuffer, full, Nat.sub_self, List.replicate_zero, List.append_nil]
  · rw [same]
    intro none
    rw [none, List.length_nil] at full
    omega

theorem writeLeftover_outside (adrift : Adrift k st.dev.count st) (some : 0 < goods st.dev) :
    writeLeftover st = .error .outside := by
  have few := st.dev.rank_le st.dev.count
  have positive := adrift.positive
  have offset := adrift.offset
  have enough : st.dev.eraseSize ≤ st.dev.count * st.dev.eraseSize :=
    Nat.le_mul_of_pos_left _ (Nat.lt_of_lt_of_le some few)
  have e : st.e = st.dev.count * st.dev.eraseSize := adrift.e
  have before : st.pos < st.dev.size := by
    rw [adrift.pos, Device.size, Nat.mul_lt_mul_right positive]
    unfold goods at some
    omega
  rw [writeLeftover, adrift.w, e, if_pos (by omega), if_pos]
  refine ⟨before, ?_⟩
  rw [adrift.full]
  omega

theorem writeRound_adrift (adrift : Adrift k 0 st) :
    writeRound plain st =
      match eraseLoop plain st with
      | .error stop => .error stop
      | .ok (st', true) => .ok (.again st')
      | .ok (st', false) => (writeBuffer st').map .again := by
  obtain ⟨same, some⟩ := fillWriter_full adrift.positive adrift.full
  rw [writeRound_eq, if_neg some, same, placeBuffer, if_neg (show ¬plain.noErase = true by decide)]
  cases eraseLoop plain st with
  | error stop => rfl
  | ok result =>
      obtain ⟨st', resumed⟩ := result
      cases resumed <;> rfl

/-- A round on a device that is entered with blocks counted as skipped fails, or goes to the next
device without a good block. -/
theorem adrift_round (adrift : Adrift k 0 st) :
    writeRound plain st = .error (if lost k (st.dev :: st.next) then .outside else .exit) ∨
      ∃ d' later st', st.next = d' :: later ∧ writeRound plain st = .ok (.again st') ∧
        lost k (st.dev :: st.next) = lost (k + st.dev.count) (d' :: later) ∧
        st'.dev = d' ∧ st'.next = later ∧
        (Sound d' → d'.eraseSize = st.dev.eraseSize → Adrift (k + st.dev.count) 0 st') := by
  have round := writeRound_adrift adrift
  have drifts := @Adrift.run plain st k 0 (st.dev.count + 3) adrift (by omega)
  change Drifts plain k st (eraseLoop plain st) at drifts
  generalize eraseLoop plain st = result at round drifts
  cases drifts with
  | written st' more ok offset =>
      left
      have outside : writeBuffer st' = .error .outside := by
        rw [writeBuffer, if_pos (by omega)]
      rw [round, ok]
      dsimp only
      rw [outside, lost, decide_eq_true more]
      rfl
  | exit few edge error =>
      left
      rw [round, error, lost, decide_eq_false (Nat.not_lt_of_le few), edge]
      rfl
  | left st' few edge next adrift' count good same size =>
      obtain ⟨fd, buf, following⟩ := same
      have part : lost k (st.dev :: st.next) =
          (!st.next.isEmpty && (0 < goods st.dev || lost (k + st.dev.count) st.next)) := by
        rw [lost, decide_eq_false (Nat.not_lt_of_le few), edge]
        simp only [Bool.false_or, Bool.true_and]
      rw [next, stuck, following] at round
      rw [part]
      cases last : st.next with
      | nil =>
          left
          rw [last] at round
          exact round
      | cons d' later =>
          rw [last] at round
          dsimp only at round
          rw [← count] at adrift'
          by_cases some : 0 < goods st.dev
          · left
            rw [writeLeftover_outside adrift' (good ▸ some)] at round
            rw [decide_eq_true some]
            exact round
          · right
            have none : goods st'.dev = 0 := by omega
            have pos : st'.pos = st'.dev.count * st'.dev.eraseSize := by
              rw [adrift'.pos, show st'.dev.rank st'.dev.count = 0 from none, Nat.sub_zero]
            rw [@writeLeftover_end st' (Nat.le_of_eq pos.symm)] at round
            refine ⟨d', later, _, rfl, round, ?_, rfl, rfl, fun sound same => ?_⟩
            · rw [decide_eq_false some]
              rfl
            · exact {
                positive := by
                  change 0 < d'.eraseSize
                  rw [same]
                  exact adrift.positive
                sound := sound
                inside := Nat.zero_le _
                full := by
                  change st'.buf.length = d'.eraseSize
                  rw [buf, same]
                  exact adrift.full
                w := rfl
                e := (Nat.zero_mul _).symm
                pos := (Nat.zero_mul _).symm
                skip := by
                  change st'.skipBadBlocks = (k + st.dev.count + (0 - 0)) * d'.eraseSize
                  rw [adrift'.skip, show st'.dev.rank st'.dev.count = 0 from none, Nat.sub_zero, count,
                    size, same]
                  rfl
                offset := by
                  change 0 < if st'.w < st'.e then st'.e - st'.w else st'.offset
                  have offset := adrift'.offset
                  split <;> omega }

/-- A device that is entered with blocks counted as skipped is never written to. -/
theorem adrift_loop {later : List Device} (adrift : Adrift k 0 st) (following : st.next = later)
    (sound : ∀ d ∈ later, Sound d ∧ d.eraseSize = st.dev.eraseSize) :
    loop (writeRound plain) Writer.rounds .outside st =
      .error (if lost k (st.dev :: later) then .outside else .exit) := by
  have shrinks := writeRound_shrinks plain
  induction later generalizing st k with
  | nil =>
      rcases adrift_round adrift with failed | ⟨d', later, st', next, -⟩
      · rw [following] at failed
        exact loop_error shrinks failed
      · rw [following] at next
        cases next
  | cons d' later ih =>
      rcases adrift_round adrift with failed | ⟨d'', later', st', next, round, same, dev, rest, goes⟩
      · rw [following] at failed
        exact loop_error shrinks failed
      · rw [following] at next same
        obtain ⟨rfl, rfl⟩ := List.cons.inj next
        obtain ⟨soundHere, size⟩ := sound d' List.mem_cons_self
        rw [loop_again shrinks round, same, ← dev]
        apply ih (goes soundHere size) rest
        intro d member
        rw [dev, size]
        exact sound d (List.mem_cons_of_mem _ member)

end Adrift

section Split

variable {st : Writer} {d : Device} {image : List UInt8} {base block : Nat}

/-- The seams behind which an image that needs some blocks goes on are clean: there is none, the
program ends with an error there, no block in front of it is bad, or nothing is lost. -/
def seamsClean (needed : Nat) : List Device → Bool
  | [] => true
  | d :: later =>
      needed ≤ goods d || !passes d || later.isEmpty ||
        if goods d = d.count then seamsClean (needed - goods d) later
        else !lost (d.count - goods d) later

/-- When `mtd_write` returns, the contents of the good blocks begin with the image, and the program
stays inside its buffer. -/
structure SplitOrExits (erasesize : Nat) (image : List UInt8) (result : Except Stop Writer) : Prop where
  returned : ∀ st, result = .ok st →
    padTo erasesize image <+: (st.left ++ st.dev :: st.next).flatMap contents
  inside : result ≠ .error .outside

/-- The blocks that an image needs. -/
def needed (erasesize : Nat) (image : List UInt8) : Nat :=
  (padTo erasesize image).length / erasesize

theorem length_padTo_eq {size : Nat} (positive : 0 < size) (image : List UInt8) :
    (padTo size image).length = needed size image * size := by
  have whole := Nat.div_add_mod image.length size
  have rest := Nat.mod_lt image.length positive
  rw [Nat.mul_comm] at whole
  unfold needed
  by_cases none : image.length % size = 0
  · have length := @length_padTo image size (image.length / size) positive (by omega) (by omega)
    rw [length, Nat.mul_div_cancel _ positive]
  · have length := @length_padTo image size (image.length / size + 1) positive
      (by rw [Nat.succ_mul]; omega) (by rw [Nat.succ_mul]; omega)
    rw [length, Nat.mul_div_cancel _ positive]

theorem le_needed_mul {size : Nat} (positive : 0 < size) (image : List UInt8) :
    image.length ≤ needed size image * size := by
  rw [← length_padTo_eq positive, padTo, List.length_append]
  exact Nat.le_add_right _ _

/-- The image ends on a device. -/
theorem Progress.needed (progress : Progress d image base block st)
    (empty : (fillWriter st).buf = []) :
    Mtd.needed d.eraseSize image = base + d.rank block := by
  have none := progress.fill.2.2.1.mp empty
  rw [List.drop_eq_nil_iff] at none
  rw [Mtd.needed, length_padTo progress.positive none progress.reach,
    Nat.mul_div_cancel _ progress.positive]

theorem Progress.not_needed (progress : Progress d image base block st)
    (some : (fillWriter st).buf ≠ []) :
    base + d.rank block < Mtd.needed d.eraseSize image := by
  have more : (base + d.rank block) * d.eraseSize < image.length := by
    by_contra beyond
    apply some
    rw [progress.fill.2.2.1]
    exact List.drop_of_length_le (Nat.le_of_not_lt beyond)
  rw [← Nat.mul_lt_mul_right progress.positive]
  exact Nat.lt_of_lt_of_le more (le_needed_mul progress.positive image)

theorem splitOrExits_exit (erasesize : Nat) (image : List UInt8) :
    SplitOrExits erasesize image (.error .exit) where
  returned := nofun
  inside := nofun

/-- The image ends on a device, and what is in front of it is on the devices that are left. -/
theorem Progress.split (progress : Progress d image base block st)
    (empty : (fillWriter st).buf = [])
    (front : st.left.flatMap contents = padded image 0 (base * d.eraseSize)) :
    SplitOrExits d.eraseSize image (.ok (fillWriter st)) where
  inside := nofun
  returned := by
    intro st' same
    obtain rfl := Except.ok.inj same
    have whole : padTo d.eraseSize image =
        padded image 0 (base * d.eraseSize) ++ contentsBefore (placed d image base block) block := by
      rw [padTo_eq_padded, length_padTo_eq progress.positive, progress.needed empty, Nat.add_mul,
        padded_add, contentsBefore_placed progress.positive (Nat.le_refl _), Nat.zero_add]
    have dev : (fillWriter st).dev = placed d image base block := progress.dev
    rw [List.flatMap_append, List.flatMap_cons, dev]
    change padTo d.eraseSize image <+: st.left.flatMap contents ++ _
    rw [front, whole, List.prefix_append_right_inj]
    exact (contentsBefore_mono _ progress.inside).trans (List.prefix_append _ _)

/-- Where some block was bad, the next device is entered with blocks counted as skipped. -/
theorem AtSeam.adrift {k : Nat} (atSeam : AtSeam d image base k st) (some : 0 < k)
    (positive : 0 < d.eraseSize) (sound : Sound d) : Adrift k 0 st := by
  have dev := atSeam.dev
  exact {
    positive := dev ▸ positive
    sound := dev ▸ sound
    inside := Nat.zero_le _
    full := by
      rw [atSeam.buf, dev, length_padBuffer]
      rw [List.length_take]
      exact Nat.min_le_left _ _
    w := atSeam.w
    e := by rw [atSeam.e, start, Nat.zero_mul]
    pos := by rw [atSeam.pos, Nat.zero_sub, Nat.zero_mul]
    skip := by rw [atSeam.skip, dev, Nat.zero_sub, Nat.add_zero]
    offset := by
      rw [atSeam.offset]
      exact Nat.mul_pos some positive }

/-- What is on a device that is used up. -/
theorem contents_used (positive : 0 < d.eraseSize) (inside : block ≤ d.count)
    (bad : ∀ other, block ≤ other → other < d.count → d.isBad other = true) :
    contents (placed d image base block) =
      padded image (base * d.eraseSize) (goods d * d.eraseSize) := by
  obtain ⟨n, last⟩ := Nat.exists_eq_add_of_le inside
  have skip : (placed d image base block).goodBefore d.count =
      (placed d image base block).goodBefore block := by
    have same := @goodBefore_skip d block n fun i less => bad _ (by omega) (by omega)
    rw [last]
    exact same
  rw [← rank_of_used inside bad, ← contentsBefore_placed positive (Nat.le_refl block)]
  unfold contents contentsBefore
  change ((placed d image base block).goodBefore d.count).flatMap _ = _
  rw [skip]

/-- What the main loop does on a device: the image ends there, the program ends with an error, or the
next device is opened. -/
inductive Leaves (d : Device) (image : List UInt8) (base : Nat) (st : Writer) : Prop
  | finished (enough : needed d.eraseSize image ≤ base + goods d)
      (split : SplitOrExits d.eraseSize image
        (loop (writeRound plain) Writer.rounds .outside st))
  | exit (more : base + goods d < needed d.eraseSize image)
      (edge : passes d = false ∨ st.next = [])
      (error : loop (writeRound plain) Writer.rounds .outside st = .error .exit)
  | seam (more : base + goods d < needed d.eraseSize image) (edge : passes d = true)
      (d' : Device) (later : List Device) (following : st.next = d' :: later)
      (goes : d'.eraseSize = d.eraseSize → ∃ st',
        loop (writeRound plain) Writer.rounds .outside st =
          loop (writeRound plain) Writer.rounds .outside st' ∧
        AtSeam d' image (base + goods d) (d.count - goods d) st' ∧
        st'.left.flatMap contents = padded image 0 ((base + goods d) * d.eraseSize) ∧
        st'.next = later)

theorem Progress.leaves (sound : Sound d) (progress : Progress d image base block st)
    (front : st.left.flatMap contents = padded image 0 (base * d.eraseSize)) :
    Leaves d image base st := by
  have shrinks := writeRound_shrinks plain
  obtain ⟨block', last, reached, left, next, ⟨empty, ended⟩ | ⟨some, bad, goes⟩⟩ :=
    progress.run sound (show plain.noErase = false from rfl)
  · rw [← left] at front
    refine .finished ?_ ?_
    · rw [reached.needed empty]
      exact Nat.add_le_add_left (d.rank_mono reached.inside) base
    · rw [ended]
      exact reached.split empty front
  · have more := reached.not_needed some
    rw [rank_of_used reached.inside bad] at more
    cases following : st.next with
    | nil =>
        refine .exit more (Or.inr following) ?_
        rw [goes]
        exact loop_error shrinks (reached.seam_exit some bad (Or.inr (next.trans following)))
    | cons d' later =>
        cases edge : passes d with
        | false =>
            refine .exit more (Or.inl edge) ?_
            rw [goes]
            exact loop_error shrinks (reached.seam_exit some bad (Or.inl edge))
        | true =>
            refine .seam more edge d' later following fun size => ?_
            obtain ⟨st', round, atSeam, left', next'⟩ :=
              reached.seam some bad edge size (next.trans following)
            refine ⟨st', ?_, atSeam, ?_, next'⟩
            · rw [goes]
              exact loop_again shrinks round
            · rw [left', List.flatMap_append, left, front, List.flatMap_singleton,
                contents_used reached.positive reached.inside bad, Nat.add_mul, padded_add,
                Nat.zero_add]

/-- The run of the main loop over the devices that are left. -/
theorem split_run {later : List Device}
    (sound : ∀ d' ∈ d :: later, Sound d' ∧ d'.eraseSize = d.eraseSize)
    (progress : Progress d image base block st) (following : st.next = later)
    (front : st.left.flatMap contents = padded image 0 (base * d.eraseSize)) :
    SplitOrExits d.eraseSize image (loop (writeRound plain) Writer.rounds .outside st) ↔
      seamsClean (needed d.eraseSize image - base) (d :: later) = true := by
  induction later generalizing d base block st with
  | nil =>
      rw [seamsClean]
      simp only [List.isEmpty_nil, Bool.or_true, Bool.true_or, iff_true]
      cases progress.leaves (sound d List.mem_cons_self).1 front with
      | finished enough split => exact split
      | exit more edge error =>
          rw [error]
          exact splitOrExits_exit _ _
      | seam more edge d' later next goes =>
          rw [following] at next
          cases next
  | cons d' later ih =>
      obtain ⟨sound', size⟩ := sound d' (List.mem_cons_of_mem _ List.mem_cons_self)
      have few := d.rank_le d.count
      rw [seamsClean]
      cases progress.leaves (sound d List.mem_cons_self).1 front with
      | finished enough split =>
          have first : needed d.eraseSize image - base ≤ goods d := by omega
          simp only [first, decide_true, Bool.true_or, iff_true]
          exact split
      | exit more edge error =>
          have edge' : passes d = false := by
            refine edge.resolve_right ?_
            rw [following]
            exact List.cons_ne_nil _ _
          simp only [edge', Bool.not_false, Bool.or_true, Bool.true_or, iff_true]
          rw [error]
          exact splitOrExits_exit _ _
      | seam more edge d'' later' next goes =>
          rw [following] at next
          obtain ⟨rfl, rfl⟩ := List.cons.inj next
          obtain ⟨st', run, atSeam, front', next'⟩ := goes size
          have first : ¬needed d.eraseSize image - base ≤ goods d := by omega
          simp only [first, edge, decide_false, Bool.not_true, List.isEmpty_cons, Bool.false_or]
          rw [run]
          split
          · rename_i clean
            have none : d.count - goods d = 0 := by omega
            rw [none] at atSeam
            rw [← size] at front' ⊢
            rw [Nat.sub_sub]
            refine ih ?_ (atSeam.progress (size ▸ progress.positive)) next' front'
            intro other member
            obtain ⟨soundOther, sizeOther⟩ := sound other (List.mem_cons_of_mem _ member)
            exact ⟨soundOther, sizeOther.trans size.symm⟩
          · rename_i dirty
            have some : 0 < d.count - goods d := by
              unfold goods at dirty ⊢
              omega
            have dev : st'.dev = d' := atSeam.dev
            have ended := adrift_loop (atSeam.adrift some (size ▸ progress.positive) sound') next' (by
              intro other member
              have member' : other ∈ d :: d' :: later :=
                List.mem_cons_of_mem _ (List.mem_cons_of_mem _ member)
              rw [dev, size]
              exact sound other member')
            rw [ended, dev]
            cases lost (d.count - goods d) (d' :: later) with
            | true => exact ⟨fun split => absurd rfl split.inside, nofun⟩
            | false => exact ⟨fun _ => rfl, fun _ => splitOrExits_exit _ _⟩

/-- An image is in one piece over the good blocks of several devices exactly if the seams are clean. -/
theorem splitOrExits_iff (d : Device) (later : List Device) (buf : List UInt8) (fd : ImageFd)
    (positive : 0 < d.eraseSize) (room : buf.length ≤ d.eraseSize)
    (sound : ∀ d' ∈ d :: later, Sound d' ∧ d'.eraseSize = d.eraseSize)
    (noError : ReadStep.failed ∉ fd.steps) :
    SplitOrExits d.eraseSize (buf ++ fd.rest) (mtdWrite plain fd buf d later) ↔
      seamsClean (needed d.eraseSize (buf ++ fd.rest)) (d :: later) = true := by
  have start := progress_start (buf ++ fd.rest) positive noError room rfl later
  have run := @split_run _ _ _ _ _ later sound start rfl (by
    rw [Nat.zero_mul]
    rfl)
  rw [Nat.sub_zero] at run
  exact run

/-- Two devices without bad blocks. -/
theorem splitOrExits_sample :
    SplitOrExits 2 [1, 2, 3, 4, 5] (mtdWrite plain
        { steps := [.deliver 0], rest := [1, 2, 3, 4, 5] } []
        { sample 2 with count := 2, nand := false } [{ sample 2 with nand := false }]) :=
  (splitOrExits_iff { sample 2 with count := 2, nand := false } [{ sample 2 with nand := false }] []
    { steps := [.deliver 0], rest := [1, 2, 3, 4, 5] } (by decide) (by decide)
    (by
      intro d' member
      rcases List.mem_pair.mp member with rfl | rfl <;>
        exact ⟨⟨fun _ => rfl, fun _ => rfl⟩, rfl⟩)
    (by decide)).mpr (by decide)

/-- The block behind a device with a bad block is taken from outside the buffer. -/
theorem not_splitOrExits_bad :
    (∀ d' ∈ [{ sample 2 with edge := some false }, sample 2], Sound d' ∧ d'.eraseSize = 2) ∧
      needed 2 [1, 2, 3, 4, 5] ≤ goods (sample 2) + goods (sample 2) ∧
      ¬SplitOrExits 2 [1, 2, 3, 4, 5] (mtdWrite plain
        { steps := [], rest := [1, 2, 3, 4, 5] } []
        { sample 2 with edge := some false } [sample 2]) := by
  refine ⟨?_, by decide, ?_⟩
  · intro d' member
    rcases List.mem_pair.mp member with rfl | rfl <;> exact ⟨⟨fun _ => rfl, fun _ => rfl⟩, rfl⟩
  · intro split
    exact split.inside rfl

end Split

end Trunk.Mtd
