import Trunk.Mtd.Seams

/-! # Images behind an offset

The option `-p` moves the file position of the device, but not the place from which blocks are erased:
that is zero. So an image is placed as it should be only where the offset is zero
(`Trunk.Mtd.mtdWrite_placedAt_iff`). Behind another offset its first block is written without having
been erased.
-/

namespace Trunk.Mtd

open Flash Loop Network

/-- Only the place of the image is different from `plain`. -/
def partitionOffset (partOffset : Nat) : Options where
  noErase := false
  partOffset := partOffset

/-- Every byte that is written is in a block that was erased before. -/
def ErasedFirst (erasesize : Nat) (events : List Event) : Prop :=
  ∀ front place length back, events = front ++ .write place length :: back →
    ∀ at', place ≤ at' → at' < place + length → Event.erase (at' / erasesize) ∈ front

/-- What a device is to be like after an image is written from a block on: it holds the padded image
there, all else is as before, and what was written was erased first. -/
structure PlacedAt (d : Device) (first : Nat) (image : List UInt8) (d' : Device) : Prop where
  held : ∀ place < (padTo d.eraseSize image).length,
    some (d'.cell (start d first + place)) = (padTo d.eraseSize image)[place]?
  kept : ∀ place, place < start d first ∨
      start d first + (padTo d.eraseSize image).length ≤ place →
    d'.cell place = d.cell place
  erased : ∃ events, d'.log = d.log ++ events ∧ ErasedFirst d.eraseSize events

section Offset

variable {options : Options} {st st' : Writer} {d : Device} {image buf : List UInt8} {fd : ImageFd}
  {first place : Nat} {resumed : Bool}

/-! ## The log grows -/

theorem erase_log {dev : Device} (erases : d.erase place = some dev) : d.log <+: dev.log := by
  unfold Device.erase at erases
  dsimp only at erases
  split at erases
  · obtain rfl := Option.some.inj erases
    exact List.prefix_append _ _
  · cases erases

theorem write_log (d : Device) (place : Nat) (bytes : List UInt8) :
    d.log <+: (d.write place bytes).1.log := by
  unfold Device.write
  split
  · exact List.prefix_rfl
  · exact List.prefix_append _ _

/-- On the last device, erasing goes on with its log. -/
theorem eraseLoop_log (ended : eraseLoop options st = .ok (st', resumed)) (last : st.next = []) :
    st.dev.log <+: st'.dev.log ∧ resumed = false := by
  refine @iterate_invariant _ _ _ _ _ _ _
    (fun now => now.next = [] ∧ st.dev.log <+: now.dev.log)
    (fun result => st.dev.log <+: result.1.dev.log ∧ result.2 = false)
    _ ?_ ?_ ⟨last, List.prefix_rfl⟩ ended
  · rintro now later ⟨none, grown⟩ round
    rcases eraseRound_again round with rfl | ⟨dev, erases, rfl⟩
    · exact ⟨none, grown⟩
    · exact ⟨none, grown.trans (erase_log erases)⟩
  · rintro now result ⟨none, grown⟩ round
    rcases eraseRound_done round with rfl | ⟨dev, later, now', following, -⟩
    · exact ⟨grown, rfl⟩
    · rw [none] at following
      cases following

/-- What is written from the buffer. -/
theorem writeBuffer_dev (written : writeBuffer st = .ok st') :
    st'.dev = (st.dev.write st.pos ((st.buf.drop st.offset).take st.buf.length)).1 := by
  unfold writeBuffer at written
  split at written
  · cases written
  · split at written
    · rename_i dev result wrote
      split at written
      · cases written
      · obtain rfl := Except.ok.inj written
        rw [wrote]
    · cases written

/-- On the last device, a block that is placed goes on with the log. -/
theorem placeBuffer_log (placed : placeBuffer options st = .ok st') (last : st.next = []) :
    st.dev.log <+: st'.dev.log := by
  unfold placeBuffer at placed
  split at placed
  · rw [writeBuffer_dev placed]
    exact write_log _ _ _
  · cases ended : eraseLoop options st with
    | error stop =>
        rw [ended] at placed
        cases placed
    | ok result =>
        obtain ⟨now, resumed⟩ := result
        obtain ⟨grown, rfl⟩ := eraseLoop_log ended last
        rw [ended] at placed
        rw [writeBuffer_dev placed]
        exact grown.trans (write_log _ _ _)

/-! ## The first block -/

/-- The whole of a block that can be written is written. -/
theorem write_whole (positive : 0 < d.eraseSize) (inside : first < d.count)
    (strong : d.weak first = false) {bytes : List UInt8} (full : bytes.length = d.eraseSize) :
    (d.write (start d first) bytes).1.log = d.log ++ [.write (start d first) d.eraseSize] := by
  have index : start d first / d.eraseSize = first := Nat.mul_div_cancel _ positive
  have room : start d first + d.eraseSize ≤ d.size := by
    rw [start, ← Nat.succ_mul]
    exact Nat.mul_le_mul_right _ inside
  have count : min bytes.length (d.size - start d first) = d.eraseSize := by omega
  unfold Device.write
  rw [if_neg]
  · dsimp only
    rw [count]
  · rintro (beyond | weak)
    · omega
    · rw [index, strong] at weak
      cases weak

/-- At the start the block in front of the device is erased, and the one at the file position is
written. -/
theorem placeBuffer_first (positive : 0 < st.dev.eraseSize) (sound : Sound st.dev)
    (good : st.dev.isBad 0 = false) (inside : first < st.dev.count)
    (full : st.buf.length = st.dev.eraseSize) (w : st.w = 0) (e : st.e = 0)
    (skip : st.skipBadBlocks = 0) (offset : st.offset = 0) (pos : st.pos = start st.dev first)
    (erases : options.noErase = false) (placed : placeBuffer options st = .ok st') :
    st'.dev.log = st.dev.log ++ [.erase 0, .write (start st.dev first) st.dev.eraseSize] := by
  have zero : st.e = start st.dev 0 := by rw [e, start, Nat.zero_mul]
  have ended : eraseLoop options st = .ok _ :=
    iterate_good positive zero (by omega) (by omega) (Nat.zero_lt_of_lt inside) good (sound.fresh 0)
  rw [placeBuffer, erases, if_neg Bool.false_ne_true, ended] at placed
  change writeBuffer _ = _ at placed
  rw [writeBuffer_dev placed]
  dsimp only
  rw [offset, List.drop_zero, List.take_length, pos]
  have written := @write_whole (erased st.dev 0) first positive inside (sound.strong first) st.buf full
  refine written.trans ?_
  exact List.append_assoc _ _ _

/-! ## An image behind an offset -/

/-- The variables at the start. -/
def atOffset (d : Device) (first : Nat) (buf : List UInt8) (fd : ImageFd) : Writer where
  fd := fd
  buf := buf
  offset := 0
  w := 0
  e := 0
  skipBadBlocks := 0
  pos := start d first
  left := []
  dev := d
  next := []

/-- Without an image nothing is done. -/
theorem mtdWrite_empty (d : Device) (first : Nat) (fd : ImageFd) (none : fd.rest = [])
    (noError : ReadStep.failed ∉ fd.steps) :
    ∃ st, mtdWrite (partitionOffset (start d first)) fd [] d [] = .ok st ∧ st.dev = d := by
  have filled := (@fillBuffer_full d.eraseSize (fd.steps.length + fd.rest.length + 1) [] fd noError
    (Nat.lt_succ_self _)).1
  have empty : (fillWriter (atOffset d first [] fd)).buf = [] := by
    refine filled.trans ?_
    rw [none, List.take_nil, List.append_nil]
  refine ⟨fillWriter (atOffset d first [] fd), ?_, rfl⟩
  refine loop_done (writeRound_shrinks _) ?_
  change writeRound _ (atOffset d first [] fd) = _
  rw [writeRound_eq, if_pos empty]

theorem placedAt_empty (d : Device) (first : Nat) : PlacedAt d first [] d := by
  have none : padTo d.eraseSize [] = [] := by
    rw [padTo, List.length_nil, Nat.zero_mod, Nat.sub_zero, Nat.mod_self]
    rfl
  refine ⟨?_, fun _ _ => rfl, [], (List.append_nil _).symm, ?_⟩
  · intro place less
    rw [none] at less
    exact absurd less (Nat.not_lt_zero _)
  · intro front place length back same
    have nothing := congrArg List.length same
    simp at nothing

/-- Where blocks are erased and written one by one, each is erased first. -/
theorem erasedFirst_blocks (positive : 0 < d.eraseSize) (blocks : List Nat) :
    ErasedFirst d.eraseSize (blocks.flatMap fun g => [.erase g, .write (start d g) d.eraseSize]) := by
  induction blocks with
  | nil =>
      intro front place length back same
      have nothing := congrArg List.length same
      simp at nothing
  | cons block blocks ih =>
      intro front place length back same at' least most
      rw [List.flatMap_cons] at same
      rcases front with _ | ⟨event, _ | ⟨event', front⟩⟩
      · cases same
      · cases same
        rw [(in_block_iff positive at').mp ⟨least, most⟩]
        exact List.mem_singleton_self _
      · obtain ⟨-, rest⟩ := List.cons.inj same
        obtain ⟨-, rest⟩ := List.cons.inj rest
        have member := ih front place length back rest at' least most
        exact List.mem_cons_of_mem _ (List.mem_cons_of_mem _ member)

/-- Without bad blocks every block is as far among the good ones as it is on the device. -/
theorem rank_eq_self (good : ∀ block < d.count, d.isBad block = false) {block : Nat}
    (inside : block ≤ d.count) : d.rank block = block := by
  induction block with
  | zero => rfl
  | succ block ih => rw [d.rank_succ_good (good block inside), ih (Nat.le_of_lt inside)]

/-- On a device without bad blocks, an image that is flashed is placed from the first block on. -/
theorem Flashed.placedAt (positive : 0 < d.eraseSize) {d' : Device}
    (good : ∀ block < d.count, d.isBad block = false) (flashed : Flashed d image d') :
    PlacedAt d 0 image d' := by
  have whole : (padTo d.eraseSize image).length =
      (padTo d.eraseSize image).length / d.eraseSize * d.eraseSize := by
    rw [length_padTo_eq positive, Nat.mul_div_cancel _ positive]
  have enough := flashed.enough
  rw [rank_eq_self good (Nat.le_refl _)] at enough
  refine ⟨?_, ?_, _, flashed.log, erasedFirst_blocks positive _⟩
  · intro place less
    have block : place / d.eraseSize < (padTo d.eraseSize image).length / d.eraseSize :=
      Nat.div_lt_of_lt_mul (by rw [Nat.mul_comm]; omega)
    have inside := Nat.lt_of_lt_of_le block enough
    have same := rank_eq_self good (Nat.le_of_lt inside)
    have held := flashed.held _ inside (good _ inside) (same.symm ▸ block) (place % d.eraseSize)
      (Nat.mod_lt _ positive)
    rw [same, start, Nat.div_add_mod'] at held
    rw [start, Nat.zero_mul, Nat.zero_add]
    exact held
  · rintro place (before | behind)
    · rw [start, Nat.zero_mul] at before
      exact absurd before (Nat.not_lt_zero _)
    · rw [start, Nat.zero_mul, Nat.zero_add] at behind
      refine flashed.kept place (.inr ?_)
      rw [← rank_eq_self good enough]
      exact d.rank_mono (Nat.div_le_div_right behind)

theorem length_le_padTo (erasesize : Nat) (image : List UInt8) :
    image.length ≤ (padTo erasesize image).length := by
  rw [padTo, List.length_append]
  exact Nat.le_add_right _ _

/-- At the front of a device without bad blocks the image is placed, if it fits. -/
theorem mtdWrite_front (positive : 0 < d.eraseSize) (room : buf.length ≤ d.eraseSize)
    (sound : Sound d) (good : ∀ block < d.count, d.isBad block = false)
    (noError : ReadStep.failed ∉ fd.steps)
    (fits : (padTo d.eraseSize (buf ++ fd.rest)).length ≤ d.size) :
    ∃ st, mtdWrite plain fd buf d [] = .ok st ∧ PlacedAt d 0 (buf ++ fd.rest) st.dev := by
  obtain ⟨block, last, progress, -, -, outcome⟩ := Progress.run sound (show plain.noErase = false from rfl)
    (progress_start (buf ++ fd.rest) positive noError room rfl [])
  have empty := progress.fill.2.2.1
  rw [List.drop_eq_nil_iff, Nat.zero_add] at empty
  rcases outcome with ⟨none, ran⟩ | ⟨more, bad, -⟩
  · refine ⟨_, ran, ?_⟩
    have same : (fillWriter last).dev = placed d (buf ++ fd.rest) 0 block := progress.dev
    rw [same]
    exact (progress.flashed (empty.mp none)).placedAt positive good
  · have used : block = d.count := by
      by_contra other
      have inside := Nat.lt_of_le_of_ne progress.inside other
      have isBad := bad block (Nat.le_refl _) inside
      rw [good block inside] at isBad
      cases isBad
    have short : (buf ++ fd.rest).length ≤ d.rank block * d.eraseSize := by
      rw [used, rank_eq_self good (Nat.le_refl _)]
      exact Nat.le_trans (length_le_padTo _ _) fits
    exact absurd (empty.mpr short) more

/-- A run behind an offset that is not zero writes its first block before it is erased. -/
theorem mtdWrite_log (positive : 0 < d.eraseSize) (room : buf.length ≤ d.eraseSize)
    (sound : Sound d) (good : ∀ block < d.count, d.isBad block = false)
    (noError : ReadStep.failed ∉ fd.steps) (inside : first < d.count) (some : buf ++ fd.rest ≠ [])
    (ran : mtdWrite (partitionOffset (start d first)) fd buf d [] = .ok st) :
    d.log ++ [.erase 0, .write (start d first) d.eraseSize] <+: st.dev.log := by
  have filled := (@fillBuffer_full d.eraseSize (fd.steps.length + fd.rest.length + 1) buf fd noError
    (Nat.lt_succ_self _)).1
  have joined := (take_append_take buf fd.rest room).1
  have buffer : (fillWriter (atOffset d first buf fd)).buf = (buf ++ fd.rest).take d.eraseSize :=
    filled.trans joined
  have more : (fillWriter (atOffset d first buf fd)).buf ≠ [] := by
    rw [buffer, ne_eq, List.take_eq_nil_iff]
    exact fun none => none.elim (Nat.ne_of_gt positive) some
  have full : (padWriter (fillWriter (atOffset d first buf fd))).buf.length = d.eraseSize := by
    refine length_padBuffer ?_
    rw [buffer, List.length_take]
    exact Nat.min_le_left _ _
  refine @loop_invariant _ _ _ _ _ _ _ _
    (fun now => now = atOffset d first buf fd ∨
      now.next = [] ∧ d.log ++ [.erase 0, .write (start d first) d.eraseSize] <+: now.dev.log)
    (fun now => d.log ++ [.erase 0, .write (start d first) d.eraseSize] <+: now.dev.log)
    ?_ ?_ (.inl rfl) ran
  · rintro now later (rfl | ⟨none, grown⟩) round
    · obtain ⟨-, placed⟩ := writeRound_again round
      have log := placeBuffer_first positive sound (good 0 (Nat.zero_lt_of_lt inside)) inside full rfl
        rfl rfl rfl rfl rfl placed
      obtain ⟨-, ⟨-, following⟩ | ⟨-, fewer⟩⟩ := placeBuffer_frame placed
      · exact .inr ⟨following, log ▸ List.prefix_rfl⟩
      · cases fewer
    · obtain ⟨-, placed⟩ := writeRound_again round
      obtain ⟨-, ⟨-, following⟩ | ⟨-, fewer⟩⟩ := placeBuffer_frame placed
      · have more' := placeBuffer_log placed none
        exact .inr ⟨following.trans none, grown.trans more'⟩
      · have length := congrArg List.length none
        change later.next.length + 1 = now.next.length at fewer
        rw [length] at fewer
        cases fewer
  · rintro now result (rfl | ⟨none, grown⟩) round
    · exact absurd (writeRound_done round).1 more
    · obtain ⟨-, rfl⟩ := writeRound_done round
      exact grown

/-- Behind a partition offset the image is placed as it should be exactly if the offset is zero, or
there is no image. -/
theorem mtdWrite_placedAt_iff (positive : 0 < d.eraseSize) (room : buf.length ≤ d.eraseSize)
    (sound : Sound d) (good : ∀ block < d.count, d.isBad block = false)
    (noError : ReadStep.failed ∉ fd.steps)
    (fits : start d first + (padTo d.eraseSize (buf ++ fd.rest)).length ≤ d.size) :
    (∃ st, mtdWrite (partitionOffset (start d first)) fd buf d [] = .ok st ∧
        PlacedAt d first (buf ++ fd.rest) st.dev) ↔
      start d first = 0 ∨ buf ++ fd.rest = [] := by
  constructor
  · rintro ⟨st, ran, placed⟩
    by_cases none : buf ++ fd.rest = []
    · exact .inr none
    · have inside : first < d.count := by
        have some := List.length_pos_of_ne_nil none
        have long := length_le_padTo d.eraseSize (buf ++ fd.rest)
        have before : start d first < d.size := by omega
        exact Nat.lt_of_mul_lt_mul_right before
      have grown := mtdWrite_log positive room sound good noError inside none ran
      obtain ⟨events, log, before⟩ := placed.erased
      rw [log, List.prefix_append_right_inj] at grown
      obtain ⟨back, rfl⟩ := grown
      have index : start d first / d.eraseSize = first := Nat.mul_div_cancel _ positive
      have erased := before [.erase 0] (start d first) d.eraseSize back rfl (start d first)
        (Nat.le_refl _) (by omega)
      rw [index, List.mem_singleton] at erased
      cases erased
      exact .inl (Nat.zero_mul _)
  · rintro (zero | none)
    · obtain rfl : first = 0 := (Nat.mul_eq_zero.mp zero).resolve_right (Nat.ne_of_gt positive)
      rw [zero] at fits ⊢
      rw [Nat.zero_add] at fits
      exact mtdWrite_front positive room sound good noError fits
    · obtain ⟨rfl, rest⟩ := List.append_eq_nil_iff.mp none
      obtain ⟨st, ran, same⟩ := mtdWrite_empty d first fd rest noError
      refine ⟨st, ran, ?_⟩
      rw [none, same]
      exact placedAt_empty d first

/-- A device of three blocks of two zeros. -/
def zeros : Device := { sample 2 with nand := false }

theorem zeros_sound : Sound zeros := ⟨fun _ => rfl, fun _ => rfl⟩

theorem mtdWrite_placedAt_zeros :
    ∃ st, mtdWrite (partitionOffset (start zeros 0)) ⟨[.deliver 0, .eintr], [1, 2, 3]⟩ [] zeros [] =
      .ok st ∧ PlacedAt zeros 0 [1, 2, 3] st.dev :=
  (@mtdWrite_placedAt_iff zeros [] ⟨[.deliver 0, .eintr], [1, 2, 3]⟩ 0 (by decide) (by decide)
    zeros_sound (fun _ _ => rfl) (by decide) (by decide)).mpr (.inl rfl)

/-- Two bytes for the second block: the first one is erased. -/
theorem mtdWrite_erases_front :
    start zeros 1 + (padTo 2 [1, 2]).length ≤ zeros.size ∧
      ∃ st, mtdWrite (partitionOffset (start zeros 1)) ⟨[], [1, 2]⟩ [] zeros [] = .ok st ∧
        zeros.cell 0 = 0 ∧ st.dev.cell 0 = 0xff ∧ ¬PlacedAt zeros 1 [1, 2] st.dev := by
  refine ⟨by decide, _, rfl, rfl, rfl, ?_⟩
  intro placed
  have kept := placed.kept 0 (.inl (by decide))
  cases kept

end Offset

end Trunk.Mtd
