import Trunk.Mtd.Write

/-! # One block of an image

What the main loop of `mtd_write` does in a round: the buffer is filled with the next bytes of the
image however they are delivered (`Trunk.Mtd.fillBuffer_full`), and bad blocks are skipped up to the
next good one, which is erased (`Trunk.Mtd.eraseLoop_good`).
-/

namespace Trunk.Mtd

open Flash Loop

section Fill

variable {erasesize fuel : Nat} {buf : List UInt8} {fd fd' : ImageFd}

/-- What `read` does to an image. -/
inductive Reads (fd : ImageFd) (count : Nat) : ReadResult → ImageFd → Prop
  | got (taken : Nat) (steps : List ReadStep) (suffix : steps <:+ fd.steps) (most : taken ≤ count)
      (some : 0 < count → 0 < taken) (all : fd.steps = [] → taken = count)
      (fewer : fd.steps ≠ [] → steps.length < fd.steps.length) :
      Reads fd count (.got (fd.rest.take taken)) { steps := steps, rest := fd.rest.drop taken }
  | retry (steps : List ReadStep) (suffix : steps <:+ fd.steps)
      (fewer : steps.length < fd.steps.length) :
      Reads fd count .retry { steps := steps, rest := fd.rest }
  | failed (steps : List ReadStep) (suffix : steps <:+ fd.steps)
      (member : ReadStep.failed ∈ fd.steps) :
      Reads fd count .failed { steps := steps, rest := fd.rest }

theorem reads_read (fd : ImageFd) (count : Nat) :
    Reads fd count (read fd count).1 (read fd count).2 := by
  obtain ⟨steps, rest⟩ := fd
  cases steps with
  | nil =>
      exact .got count [] (List.suffix_refl _) (Nat.le_refl _) id (fun _ => rfl)
        (fun none => absurd rfl none)
  | cons step steps =>
      have less : steps.length < (step :: steps).length := Nat.lt_succ_self _
      have suffix : steps <:+ step :: steps := List.suffix_cons _ _
      cases step with
      | deliver more =>
          exact .got (min count (more + 1)) steps suffix (Nat.min_le_left _ _)
            (fun positive => by omega) (fun none => nomatch none) (fun _ => less)
      | eintr => exact .retry steps suffix less
      | eagain => exact .retry steps suffix less
      | failed => exact .failed steps suffix List.mem_cons_self

/-- The cases of filling the buffer. -/
theorem fillBuffer_cases (erasesize fuel : Nat) (buf : List UInt8) (fd : ImageFd) :
    (erasesize ≤ buf.length ∧ fillBuffer erasesize (fuel + 1) buf fd = (buf, fd)) ∨
    (buf.length < erasesize ∧
      ((∃ steps, steps <:+ fd.steps ∧ fd.rest = [] ∧
          fillBuffer erasesize (fuel + 1) buf fd = (buf, { fd with steps := steps })) ∨
        (∃ steps taken, steps <:+ fd.steps ∧ 0 < taken ∧ taken ≤ erasesize - buf.length ∧
          fd.rest ≠ [] ∧
          (fd.steps = [] → taken = erasesize - buf.length) ∧
          (fd.steps ≠ [] → steps.length < fd.steps.length) ∧
          fillBuffer erasesize (fuel + 1) buf fd = fillBuffer erasesize fuel
            (buf ++ fd.rest.take taken) { steps := steps, rest := fd.rest.drop taken }) ∨
        (∃ steps, steps <:+ fd.steps ∧ steps.length < fd.steps.length ∧
          fillBuffer erasesize (fuel + 1) buf fd =
            fillBuffer erasesize fuel buf { fd with steps := steps }) ∨
        (∃ steps, steps <:+ fd.steps ∧ ReadStep.failed ∈ fd.steps ∧
          fillBuffer erasesize (fuel + 1) buf fd = (buf, { fd with steps := steps })))) := by
  by_cases less : buf.length < erasesize
  · refine Or.inr ⟨less, ?_⟩
    rw [fillBuffer, if_pos less]
    have reads := reads_read fd (erasesize - buf.length)
    generalize read fd (erasesize - buf.length) = result at reads
    obtain ⟨result, fd'⟩ := result
    cases reads with
    | got taken steps suffix most some all fewer =>
        have positive := some (Nat.sub_pos_of_lt less)
        cases rest : fd.rest with
        | nil => exact Or.inl ⟨steps, suffix, rfl, by simp⟩
        | cons c rest =>
            obtain ⟨more, rfl⟩ := Nat.exists_eq_add_one_of_ne_zero (Nat.ne_of_gt positive)
            refine Or.inr (Or.inl ⟨steps, more + 1, suffix, positive, most, List.cons_ne_nil _ _,
              all, fewer, ?_⟩)
            rw [List.take_succ_cons]
    | retry steps suffix fewer => exact Or.inr (Or.inr (Or.inl ⟨steps, suffix, fewer, rfl⟩))
    | failed steps suffix member => exact Or.inr (Or.inr (Or.inr ⟨steps, suffix, member, rfl⟩))
  · refine Or.inl ⟨Nat.le_of_not_lt less, ?_⟩
    rw [fillBuffer, if_neg less]

/-- Filling the buffer takes bytes from the front of the image. -/
theorem fillBuffer_spec (erasesize fuel : Nat) (buf : List UInt8) (fd : ImageFd) :
    ∃ taken, (fillBuffer erasesize fuel buf fd).1 = buf ++ taken ∧
      fd.rest = taken ++ (fillBuffer erasesize fuel buf fd).2.rest ∧
      (fillBuffer erasesize fuel buf fd).2.steps <:+ fd.steps ∧
      (buf.length ≤ erasesize → (buf ++ taken).length ≤ erasesize) := by
  induction fuel generalizing buf fd with
  | zero => exact ⟨[], by simp [fillBuffer], rfl, List.suffix_refl _, by simp⟩
  | succ fuel ih =>
      obtain ⟨-, full⟩ | ⟨less, ⟨steps, suffix, empty, ended⟩ |
        ⟨steps, count, suffix, -, most, -, -, -, next⟩ | ⟨steps, suffix, -, next⟩ |
        ⟨steps, suffix, -, ended⟩⟩ := fillBuffer_cases erasesize fuel buf fd
      · rw [full]
        exact ⟨[], by simp, rfl, List.suffix_refl _, by simp⟩
      · rw [ended]
        exact ⟨[], by simp, rfl, suffix, by simp⟩
      · obtain ⟨taken, filled, rest, more, room⟩ := ih (buf ++ fd.rest.take count)
          { steps := steps, rest := fd.rest.drop count }
        rw [next]
        refine ⟨fd.rest.take count ++ taken, ?_, ?_, more.trans suffix, fun _ => ?_⟩
        · rw [filled, List.append_assoc]
        · rw [List.append_assoc, ← rest, List.take_append_drop]
        · rw [← List.append_assoc]
          apply room
          rw [List.length_append, List.length_take]
          omega
      · obtain ⟨taken, filled, rest, more, room⟩ := ih buf { fd with steps := steps }
        rw [next]
        exact ⟨taken, filled, rest, more.trans suffix, room⟩
      · rw [ended]
        exact ⟨[], by simp, rfl, suffix, by simp⟩

/-- Without errors the buffer is filled up, or to the end of the image. -/
theorem fillBuffer_full (noError : ReadStep.failed ∉ fd.steps)
    (enough : fd.steps.length + fd.rest.length < fuel) :
    (fillBuffer erasesize fuel buf fd).1 = buf ++ fd.rest.take (erasesize - buf.length) ∧
      (fillBuffer erasesize fuel buf fd).2.rest = fd.rest.drop (erasesize - buf.length) := by
  induction fuel generalizing buf fd with
  | zero => omega
  | succ fuel ih =>
      obtain ⟨full, ended⟩ | ⟨less, ⟨steps, suffix, empty, ended⟩ |
        ⟨steps, count, suffix, positive, most, some, all, fewer, next⟩ |
        ⟨steps, suffix, fewer, next⟩ | ⟨steps, suffix, member, ended⟩⟩ :=
        fillBuffer_cases erasesize fuel buf fd
      · rw [ended, Nat.sub_eq_zero_of_le full, List.take_zero, List.append_nil, List.drop_zero]
        exact ⟨rfl, rfl⟩
      · rw [ended, empty, List.take_nil, List.drop_nil, List.append_nil]
        exact ⟨rfl, rfl⟩
      · have length := List.length_pos_of_ne_nil some
        have shorter : (fd.rest.drop count).length < fd.rest.length := by
          rw [List.length_drop]
          omega
        have few : steps.length ≤ fd.steps.length := suffix.length_le
        obtain ⟨filled, rest⟩ := @ih (buf ++ fd.rest.take count)
          { steps := steps, rest := fd.rest.drop count }
          (fun member => noError (suffix.subset member)) (by dsimp only; omega)
        rw [next, filled, rest, List.append_assoc, List.length_append, List.length_take]
        dsimp only
        rcases Nat.le_total count fd.rest.length with inside | beyond
        · obtain ⟨more, whole⟩ := Nat.exists_eq_add_of_le most
          have left : erasesize - (buf.length + min count fd.rest.length) = more := by omega
          rw [left, whole, List.take_add, List.drop_drop]
          exact ⟨rfl, rfl⟩
        · rw [List.take_of_length_le beyond, List.drop_of_length_le beyond, List.take_nil,
            List.drop_nil, List.append_nil, List.take_of_length_le (by omega),
            List.drop_of_length_le (by omega)]
          exact ⟨rfl, rfl⟩
      · rw [next]
        exact @ih buf { fd with steps := steps } (fun member => noError (suffix.subset member))
          (by dsimp only; omega)
      · exact absurd member noError

end Fill

section Erase

variable {options : Options} {st : Writer} {block n fuel : Nat}

/-- Where a block starts. -/
def start (d : Device) (block : Nat) : Nat := block * d.eraseSize

theorem start_lt_size {d : Device} (inside : block < d.count) (positive : 0 < d.eraseSize) :
    start d block < d.size :=
  Nat.mul_lt_mul_of_pos_right inside positive

theorem askBad_start {d : Device} (inside : block < d.count) (positive : 0 < d.eraseSize) :
    d.askBad (start d block) = some (d.isBad block) := by
  unfold Device.askBad Device.isBad
  cases d.nand with
  | false => rfl
  | true =>
      rw [if_neg (by decide), if_pos (start_lt_size inside positive), start,
        Nat.mul_div_cancel _ positive]
      rfl

/-- The device after a block is erased. -/
def erased (d : Device) (block : Nat) : Device :=
  { d with
    cell := fun place =>
      if start d block ≤ place ∧ place < start d block + d.eraseSize then 0xff else d.cell place
    log := d.log ++ [.erase block] }

theorem erase_start {d : Device} (inside : block < d.count) (positive : 0 < d.eraseSize)
    (good : d.isBad block = false) (fresh : d.worn block = false) :
    d.erase (start d block) = some (erased d block) := by
  have index : start d block / d.eraseSize = block := Nat.mul_div_cancel _ positive
  unfold Device.erase
  dsimp only
  rw [index, if_pos ⟨Nat.mul_mod_left _ _, start_lt_size inside positive, good, fresh⟩]
  rfl

/-- The loop is at a block: as many blocks are erased as are written or skipped. -/
structure AtBlock (st : Writer) (block : Nat) : Prop where
  positive : 0 < st.dev.eraseSize
  inside : block ≤ st.dev.count
  full : st.buf.length = st.dev.eraseSize
  e : st.e = start st.dev block
  pos : st.pos = start st.dev block
  sum : st.w + st.skipBadBlocks = start st.dev block
  offset : st.offset = 0

/-- Bad blocks are skipped. -/
def skipped (st : Writer) (n : Nat) : Writer :=
  { st with
    skipBadBlocks := st.skipBadBlocks + n * st.dev.eraseSize
    e := st.e + n * st.dev.eraseSize
    pos := st.pos + n * st.dev.eraseSize }

theorem AtBlock.skipped (here : AtBlock st block) (inside : block + n ≤ st.dev.count) :
    AtBlock (skipped st n) (block + n) := by
  obtain ⟨positive, -, full, e, pos, sum, offset⟩ := here
  refine ⟨positive, inside, full, ?_, ?_, ?_, offset⟩ <;>
    simp only [Mtd.skipped, start, Nat.add_mul] at *
  · rw [e]
  · rw [pos]
  · omega

theorem AtBlock.not_done (here : AtBlock st block) :
    ¬st.w + st.buf.length + st.skipBadBlocks ≤ st.e := by
  have positive := here.positive
  have sum := here.sum
  rw [here.full, here.e]
  omega

theorem eraseRound_bad (here : AtBlock st block) (inside : block < st.dev.count)
    (bad : st.dev.isBad block = true) :
    eraseRound options st = .ok (.again (skipped st 1)) := by
  rw [eraseRound, if_neg here.not_done, here.e, askBad_start inside here.positive, bad]
  simp only [skipped, Nat.one_mul, here.e]

theorem iterate_bad (here : AtBlock st block) (inside : block + n ≤ st.dev.count)
    (bad : ∀ i < n, st.dev.isBad (block + i) = true) :
    iterate (eraseRound options) .outside (fuel + n) st =
      iterate (eraseRound options) .outside fuel (skipped st n) := by
  induction n generalizing st block with
  | zero =>
      have same : skipped st 0 = st := by simp [skipped]
      rw [same]
      rfl
  | succ n ih =>
      have next := here.skipped (n := 1) (by omega)
      have round := @eraseRound_bad options st block here (by omega) (bad 0 (Nat.succ_pos n))
      have twice : skipped (skipped st 1) n = skipped st (n + 1) := by
        simp only [skipped, Nat.add_mul, Nat.one_mul, Nat.add_assoc, Nat.add_comm st.dev.eraseSize]
      rw [← Nat.add_assoc, iterate_again round, ih next (by change block + 1 + n ≤ st.dev.count; omega), twice]
      intro i less
      have later := bad (i + 1) (by omega)
      rwa [← Nat.add_assoc, Nat.add_right_comm] at later

theorem AtBlock.last (here : AtBlock st block) :
    st.w + st.buf.length + st.skipBadBlocks ≤ st.e + st.dev.eraseSize := by
  have sum := here.sum
  rw [here.full, here.e]
  omega

/-- A good block is erased, and the loop ends. -/
theorem iterate_good (positive : 0 < st.dev.eraseSize) (e : st.e = start st.dev block)
    (unfinished : ¬st.w + st.buf.length + st.skipBadBlocks ≤ st.e)
    (last : st.w + st.buf.length + st.skipBadBlocks ≤ st.e + st.dev.eraseSize)
    (inside : block < st.dev.count) (good : st.dev.isBad block = false)
    (fresh : st.dev.worn block = false) :
    iterate (eraseRound options) .outside (fuel + 2) st =
      .ok ({ st with dev := erased st.dev block, e := st.e + st.dev.eraseSize }, false) := by
  have first : eraseRound options st =
      .ok (.again { st with dev := erased st.dev block, e := st.e + st.dev.eraseSize }) := by
    rw [eraseRound, if_neg unfinished, e, askBad_start inside positive, good]
    dsimp only
    rw [erase_start inside positive good fresh]
  have second : eraseRound options
      { st with dev := erased st.dev block, e := st.e + st.dev.eraseSize } =
      .ok (.done ({ st with dev := erased st.dev block, e := st.e + st.dev.eraseSize }, false)) := by
    rw [eraseRound]
    exact if_pos last
  rw [iterate_again first, iterate_done second]

theorem exists_next_good (d : Device) (block : Nat) :
    (∃ n, block + n < d.count ∧ d.isBad (block + n) = false ∧
      ∀ i < n, d.isBad (block + i) = true) ∨
      ∀ other, block ≤ other → other < d.count → d.isBad other = true := by
  induction left : d.count - block generalizing block with
  | zero =>
      refine Or.inr fun other least most => ?_
      omega
  | succ left ih =>
      cases good : d.isBad block with
      | false =>
          exact Or.inl ⟨0, by omega, good, fun i less => absurd less (Nat.not_lt_zero i)⟩
      | true =>
          rcases ih (block + 1) (by omega) with ⟨n, inside, found, bad⟩ | bad
          · refine Or.inl ⟨n + 1, by omega, by rwa [← Nat.add_assoc, Nat.add_right_comm], ?_⟩
            intro i less
            cases i with
            | zero => exact good
            | succ i =>
                have earlier := bad i (by omega)
                rwa [Nat.add_right_comm, Nat.add_assoc] at earlier
          · refine Or.inr fun other least most => ?_
            rcases Nat.eq_or_lt_of_le least with rfl | more
            · exact good
            · exact bad other more most

/-- The loop skips to the next good block, and erases it. -/
theorem eraseLoop_good (here : AtBlock st block) (inside : block + n < st.dev.count)
    (good : st.dev.isBad (block + n) = false) (fresh : st.dev.worn (block + n) = false)
    (bad : ∀ i < n, st.dev.isBad (block + i) = true) :
    eraseLoop options st =
      .ok ({ skipped st n with
        dev := erased st.dev (block + n)
        e := st.e + n * st.dev.eraseSize + st.dev.eraseSize }, false) := by
  have fuel : st.dev.count + 3 = st.dev.count - n + 1 + 2 + n := by omega
  have next := here.skipped (Nat.le_of_lt inside)
  rw [eraseLoop, fuel, iterate_bad here (Nat.le_of_lt inside) bad,
    iterate_good next.positive next.e next.not_done next.last inside good fresh]
  rfl

/-- What the loop does where a block cannot be erased. -/
def stuck (options : Options) (st : Writer) : Except Stop (Writer × Bool) :=
  match st.next with
  | [] => .error .exit
  | dev :: next => do
      let st ← writeLeftover st
      return (resume options st dev next, true)

theorem iterate_stuck (unfinished : ¬st.w + st.buf.length + st.skipBadBlocks ≤ st.e)
    (said : st.dev.askBad st.e = some false) (fails : st.dev.erase st.e = none) :
    iterate (eraseRound options) .outside (fuel + 1) st = stuck options st := by
  unfold stuck
  cases next : st.next with
  | nil =>
      rw [iterate_error]
      rw [eraseRound, if_neg unfinished, said]
      dsimp only
      rw [fails]
      dsimp only
      rw [next]
  | cons dev later =>
      have round : eraseRound options st = do
          let st ← writeLeftover st
          return .done (resume options st dev later, true) := by
        rw [eraseRound, if_neg unfinished, said]
        dsimp only
        rw [fails]
        dsimp only
        rw [next]
      cases leftover : writeLeftover st with
      | error stop =>
          rw [leftover] at round
          rw [iterate_error round]
          rfl
      | ok st' =>
          rw [leftover] at round
          rw [iterate_done round]
          rfl

/-- The loop skips to the next good block, which cannot be erased. -/
theorem eraseLoop_worn (here : AtBlock st block) (inside : block + n < st.dev.count)
    (good : st.dev.isBad (block + n) = false) (worn : st.dev.worn (block + n) = true)
    (bad : ∀ i < n, st.dev.isBad (block + i) = true) :
    eraseLoop options st = stuck options (skipped st n) := by
  have fuel : st.dev.count + 3 = st.dev.count - n + 2 + 1 + n := by omega
  have next := here.skipped (Nat.le_of_lt inside)
  rw [eraseLoop, fuel, iterate_bad here (Nat.le_of_lt inside) bad]
  apply iterate_stuck next.not_done
  · rw [next.e]
    exact (askBad_start inside here.positive).trans (congrArg some good)
  · rw [next.e]
    have index : start st.dev (block + n) / st.dev.eraseSize = block + n :=
      Nat.mul_div_cancel _ here.positive
    apply if_neg
    rintro ⟨-, -, -, fresh⟩
    change st.dev.worn (start st.dev (block + n) / st.dev.eraseSize) = false at fresh
    rw [index, worn] at fresh
    cases fresh

/-- What the device says of the block behind the last one lets the loop go on. -/
def passes (d : Device) : Bool := !d.nand || d.edge = some false

/-- The loop comes to the end of the device. -/
theorem eraseLoop_end (here : AtBlock st block)
    (bad : ∀ other, block ≤ other → other < st.dev.count → st.dev.isBad other = true) :
    eraseLoop options st =
      if passes st.dev then stuck options (skipped st (st.dev.count - block))
      else .error .exit := by
  have inside := here.inside
  have last : block + (st.dev.count - block) = st.dev.count := by omega
  have fuel : st.dev.count + 3 = block + 2 + 1 + (st.dev.count - block) := by omega
  have next := here.skipped (n := st.dev.count - block) (by omega)
  have behind : (skipped st (st.dev.count - block)).e = st.dev.size := by
    rw [next.e, last]
    rfl
  rw [eraseLoop, fuel, iterate_bad here (by omega) (fun i less => bad _ (by omega) (by omega))]
  have fails : (skipped st (st.dev.count - block)).dev.erase
      (skipped st (st.dev.count - block)).e = none := by
    rw [behind]
    apply if_neg
    rintro ⟨-, less, -⟩
    exact Nat.lt_irrefl _ less
  have said : (skipped st (st.dev.count - block)).dev.askBad
      (skipped st (st.dev.count - block)).e =
      if st.dev.nand then st.dev.edge else some false := by
    rw [behind]
    change st.dev.askBad st.dev.size = _
    unfold Device.askBad
    cases st.dev.nand with
    | false => rfl
    | true => simp
  unfold passes
  cases nand : st.dev.nand with
  | false =>
      rw [nand] at said
      exact iterate_stuck next.not_done said fails
  | true =>
      rw [nand] at said
      cases edge : st.dev.edge with
      | none =>
          rw [edge] at said
          apply iterate_error
          rw [eraseRound, if_neg next.not_done, said]
          rfl
      | some value =>
          rw [edge] at said
          cases value with
          | false => exact iterate_stuck next.not_done said fails
          | true =>
              -- the block behind the last one is skipped, and there is none behind it
              have round : eraseRound options (skipped st (st.dev.count - block)) =
                  .ok (.again (skipped (skipped st (st.dev.count - block)) 1)) := by
                rw [eraseRound, if_neg next.not_done, said]
                simp only [↓reduceIte, skipped, Nat.one_mul]
              have unfinished := next.not_done
              have positive := here.positive
              have further : eraseRound options
                  (skipped (skipped st (st.dev.count - block)) 1) = .error .exit := by
                have place : (skipped (skipped st (st.dev.count - block)) 1).e =
                    st.dev.size + 1 * st.dev.eraseSize := congrArg (· + 1 * st.dev.eraseSize) behind
                have error : (skipped (skipped st (st.dev.count - block)) 1).dev.askBad
                    (st.dev.size + 1 * st.dev.eraseSize) = none := by
                  change st.dev.askBad _ = none
                  unfold Device.askBad
                  rw [nand, if_neg (by decide), if_neg (by omega), if_neg (by omega)]
                rw [eraseRound, if_neg]
                · rw [place, error]
                · simp only [skipped] at unfinished ⊢
                  omega
              rw [iterate_again round, iterate_error further]
              rfl

end Erase

section Rounds

variable {options : Options} {st st' next : Writer} {resumed : Bool}

theorem writeLeftover_frame (written : writeLeftover st = .ok st') :
    st'.fd = st.fd ∧ st'.buf = st.buf ∧ st'.next = st.next := by
  unfold writeLeftover at written
  split at written
  · split at written
    · cases written
    · obtain rfl := Except.ok.inj written
      exact ⟨rfl, rfl, rfl⟩
  · obtain rfl := Except.ok.inj written
    exact ⟨rfl, rfl, rfl⟩

/-- How a round of erasing goes on. -/
theorem eraseRound_again (round : eraseRound options st = .ok (.again next)) :
    next = skipped st 1 ∨
      ∃ dev, st.dev.erase st.e = some dev ∧
        next = { st with dev := dev, e := st.e + st.dev.eraseSize } := by
  unfold eraseRound at round
  split at round
  · cases round
  · split at round
    · cases round
    · obtain rfl := Round.again.inj (Except.ok.inj round)
      exact Or.inl (by simp only [skipped, Nat.one_mul])
    · split at round
      · rename_i dev erased
        obtain rfl := Round.again.inj (Except.ok.inj round)
        exact Or.inr ⟨dev, erased, rfl⟩
      · split at round
        · cases round
        · cases leftover : writeLeftover st with
          | error stop =>
              rw [leftover] at round
              cases round
          | ok st' =>
              rw [leftover] at round
              cases round

/-- How a round of erasing ends. -/
theorem eraseRound_done {result : Writer × Bool}
    (round : eraseRound options st = .ok (.done result)) :
    result = (st, false) ∨
      ∃ dev later st', st.next = dev :: later ∧ writeLeftover st = .ok st' ∧
        result = (resume options st' dev later, true) := by
  unfold eraseRound at round
  split at round
  · obtain rfl := Round.done.inj (Except.ok.inj round)
    exact Or.inl rfl
  · split at round
    · cases round
    · cases round
    · split at round
      · cases round
      · split at round
        · cases round
        · rename_i dev later following
          cases leftover : writeLeftover st with
          | error stop =>
              rw [leftover] at round
              cases round
          | ok st' =>
              rw [leftover] at round
              obtain rfl := Round.done.inj (Except.ok.inj round)
              exact Or.inr ⟨dev, later, st', following, rfl, rfl⟩

/-- The image, the buffer and the devices that follow are the same. -/
def SameInput (st st' : Writer) : Prop := st'.fd = st.fd ∧ st'.buf = st.buf ∧ st'.next = st.next

/-- Erasing leaves the image and the buffer as they are, and goes to the next device at most. -/
theorem eraseLoop_frame (ended : eraseLoop options st = .ok (st', resumed)) :
    st'.fd = st.fd ∧ st'.buf = st.buf ∧
      (if resumed then st'.next.length + 1 = st.next.length else st'.next = st.next) := by
  refine @iterate_invariant _ _ _ _ _ _ _ (SameInput st)
    (fun result => result.1.fd = st.fd ∧ result.1.buf = st.buf ∧
      (if result.2 then result.1.next.length + 1 = st.next.length else result.1.next = st.next))
    _ ?_ ?_ ⟨rfl, rfl, rfl⟩ ended
  · intro now later same round
    rcases eraseRound_again round with rfl | ⟨dev, -, rfl⟩
    · exact same
    · exact same
  · rintro now result ⟨fd, buf, same⟩ round
    rcases eraseRound_done round with rfl | ⟨dev, later, now', following, leftover, rfl⟩
    · exact ⟨fd, buf, same⟩
    · obtain ⟨fd', buf', -⟩ := writeLeftover_frame leftover
      refine ⟨fd'.trans fd, buf'.trans buf, ?_⟩
      rw [← same, following]
      rfl

theorem writeBuffer_frame (written : writeBuffer st = .ok st') :
    st'.fd = st.fd ∧ st'.buf = [] ∧ st'.next = st.next := by
  unfold writeBuffer at written
  split at written
  · cases written
  · split at written
    · split at written
      · cases written
      · obtain rfl := Except.ok.inj written
        exact ⟨rfl, rfl, rfl⟩
    · cases written

/-- What a round does with a buffer that is full. -/
def placeBuffer (options : Options) (st : Writer) : Except Stop Writer :=
  if options.noErase then writeBuffer st
  else do
    let (st, resumed) ← eraseLoop options st
    if resumed then return st else writeBuffer st

/-- The buffer and the image after the buffer is filled. -/
def fillWriter (st : Writer) : Writer :=
  { st with
    buf := (fillBuffer st.dev.eraseSize (st.fd.steps.length + st.fd.rest.length + 1) st.buf st.fd).1
    fd := (fillBuffer st.dev.eraseSize (st.fd.steps.length + st.fd.rest.length + 1) st.buf st.fd).2 }

/-- The buffer is padded. -/
def padWriter (st : Writer) : Writer := { st with buf := padBuffer st.dev.eraseSize st.buf }

/-- A round ends with the image, or places the next block. -/
theorem writeRound_eq (options : Options) (st : Writer) :
    writeRound options st =
      if (fillWriter st).buf = [] then .ok (.done (fillWriter st))
      else (placeBuffer options (padWriter (fillWriter st))).map .again := by
  unfold writeRound placeBuffer
  dsimp only
  change (if (fillWriter st).buf = [] then Except.ok (Round.done (fillWriter st)) else _) = _
  by_cases empty : (fillWriter st).buf = []
  · rw [if_pos empty, if_pos empty]
  · rw [if_neg empty, if_neg empty]
    change (if options.noErase = true then
      (do return Round.again (← writeBuffer (padWriter (fillWriter st)))) else _) = _
    split
    · cases writeBuffer (padWriter (fillWriter st)) <;> rfl
    · change (do
        let (st, resumed) ← eraseLoop options (padWriter (fillWriter st))
        if resumed then return Round.again st else return Round.again (← writeBuffer st)) = _
      cases eraseLoop options (padWriter (fillWriter st)) with
      | error stop => rfl
      | ok result =>
          obtain ⟨st', resumed⟩ := result
          cases resumed with
          | true => rfl
          | false =>
              change (do return Round.again (← writeBuffer st')) = (writeBuffer st').map Round.again
              cases writeBuffer st' <;> rfl

/-- A round goes on from a block that is placed. -/
theorem writeRound_again (round : writeRound options st = .ok (.again next)) :
    (fillWriter st).buf ≠ [] ∧ placeBuffer options (padWriter (fillWriter st)) = .ok next := by
  rw [writeRound_eq] at round
  split at round
  · cases round
  · rename_i some
    refine ⟨some, ?_⟩
    cases placed : placeBuffer options (padWriter (fillWriter st)) with
    | error stop =>
        rw [placed] at round
        cases round
    | ok st' =>
        rw [placed] at round
        obtain rfl := Round.again.inj (Except.ok.inj round)
        rfl

theorem writeRound_done (round : writeRound options st = .ok (.done next)) :
    (fillWriter st).buf = [] ∧ next = fillWriter st := by
  rw [writeRound_eq] at round
  split at round
  · rename_i empty
    exact ⟨empty, (Round.done.inj (Except.ok.inj round)).symm⟩
  · cases placed : placeBuffer options (padWriter (fillWriter st)) with
    | error stop =>
        rw [placed] at round
        cases round
    | ok st' =>
        rw [placed] at round
        cases round

theorem writeRound_error {stop : Stop} (round : writeRound options st = .error stop) :
    placeBuffer options (padWriter (fillWriter st)) = .error stop := by
  rw [writeRound_eq] at round
  split at round
  · cases round
  · cases placed : placeBuffer options (padWriter (fillWriter st)) with
    | error stop' =>
        rw [placed] at round
        obtain rfl := Except.error.inj round
        rfl
    | ok st' =>
        rw [placed] at round
        cases round

theorem placeBuffer_frame (placed : placeBuffer options st = .ok st') :
    st'.fd = st.fd ∧
      ((st'.buf = [] ∧ st'.next = st.next) ∨
        (st'.buf = st.buf ∧ st'.next.length + 1 = st.next.length)) := by
  unfold placeBuffer at placed
  split at placed
  · obtain ⟨fd, buf, same⟩ := writeBuffer_frame placed
    exact ⟨fd, Or.inl ⟨buf, same⟩⟩
  · cases ended : eraseLoop options st with
    | error stop =>
        rw [ended] at placed
        cases placed
    | ok result =>
        obtain ⟨st'', resumed⟩ := result
        rw [ended] at placed
        obtain ⟨fd, buf, following⟩ := eraseLoop_frame ended
        cases resumed with
        | true =>
            obtain rfl := Except.ok.inj placed
            exact ⟨fd, Or.inr ⟨buf, following⟩⟩
        | false =>
            obtain ⟨fd', buf', same⟩ := writeBuffer_frame placed
            exact ⟨fd'.trans fd, Or.inl ⟨buf', same.trans following⟩⟩

/-- Every round uses up some of the image, or a device. -/
theorem writeRound_shrinks (options : Options) :
    Shrinks (writeRound options) Writer.rounds .outside where
  smaller := by
    intro st next round
    obtain ⟨some, placed⟩ := writeRound_again round
    obtain ⟨taken, filled, rest, -, -⟩ := fillBuffer_spec st.dev.eraseSize
      (st.fd.steps.length + st.fd.rest.length + 1) st.buf st.fd
    have lengths := congrArg List.length rest
    rw [List.length_append] at lengths
    obtain ⟨fd, frame⟩ := placeBuffer_frame placed
    have image : next.fd.rest.length + taken.length = st.fd.rest.length := by
      rw [fd, lengths, Nat.add_comm]
      rfl
    unfold Writer.rounds
    rcases frame with ⟨buf, following⟩ | ⟨buf, following⟩
    · have same : next.next = st.next := following
      rw [buf, same, if_pos rfl]
      split
      · rename_i empty
        have more : 0 < taken.length := by
          apply List.length_pos_of_ne_nil
          intro none
          apply some
          change (fillBuffer _ _ _ _).1 = []
          rw [filled, empty, none]
          rfl
        omega
      · omega
    · have fewer : next.next.length + 1 = st.next.length := following
      split <;> split <;> omega
  empty := by
    intro st zero
    exact absurd zero (Nat.succ_ne_zero _)

end Rounds

end Trunk.Mtd
