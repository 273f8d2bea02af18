import Trunk.Rgps.Places

/-! # What a line stores

The loop is at the place that the reading of the line has come to (`Trunk.Rgps.round_places`), so
what is stored at the asterisk is what was read there (`Trunk.Rgps.timed_stores`).
-/

namespace Trunk.Rgps

open CString Provenance Provenance.Glyph Loop Run

section

variable {scan next : Scan UInt8} {gps : Gps UInt8} {c : UInt8} {text : List UInt8}

/-- The loop has come from one state to another one, and the reading with it. -/
structure Follows (compared : Compared) (scan next : Scan UInt8) (text : List UInt8) : Prop where
  buf : scan.buf = text ++ next.buf
  reading : run (Reading.step scan.gps.flags) (.inside compared scan.place) text =
    .inside .all next.place
  flags : next.gps.flags = scan.gps.flags
  boxed : Boxed next

/-- A round that goes on, from behind the test for a comma. -/
theorem character_follows (boxed : Boxed scan) (went : atCharacter scan = .ok (.again next)) :
    ∃ text, Follows .asterisk scan next text ∧ ∃ c rest, text = c :: rest := by
  cases here : scan.buf with
  | nil =>
      rw [atCharacter_nil here] at went
      cases went
  | cons c text =>
      by_cases asterisk : c = ascii '*'
      · subst asterisk
        obtain ⟨gps, stored⟩ := boxed.store
        rw [atCharacter_asterisk here stored] at went
        cases Except.ok.inj went
      · have inside : scan.place.Inside := by
          by_contra outside
          obtain ⟨fault, failed⟩ := field_outside boxed here outside
          rw [atCharacter_error here asterisk failed] at went
          cases went
        have agrees := field_agrees boxed here inside
        have read : ∀ rest, run (Reading.step scan.gps.flags) (.inside .asterisk scan.place)
            (c :: rest) = run (Reading.step scan.gps.flags) (scan.place.field scan.gps.flags c)
              rest := by
          intro rest
          rw [run_cons, Reading.step, if_neg asterisk]
        generalize scan.place.field scan.gps.flags c = reading at agrees read
        cases outcome : segmentCase scan c with
        | error fault =>
            rw [atCharacter_error here asterisk outcome] at went
            cases went
        | ok move =>
            rw [outcome] at agrees
            cases agrees with
            | moved kept =>
                cases move with
                | stop =>
                    rw [atCharacter_stop here asterisk outcome] at went
                    cases Except.ok.inj went
                | null mid =>
                    rw [atCharacter_null here asterisk outcome] at went
                    obtain rfl := Round.again.inj (Except.ok.inj went)
                    refine ⟨[c], ⟨?_, read [], kept.gps, ?_⟩, c, [], rfl⟩
                    · rw [here]
                      exact congrArg (List.cons c) (congrArg List.tail kept.buf).symm
                    · exact ⟨kept.boxed.ended, kept.boxed.colon, kept.boxed.colon'⟩
                | on mid =>
                    rw [atCharacter_on here asterisk outcome] at went
                    obtain rfl := Round.again.inj (Except.ok.inj went)
                    refine ⟨[c], ⟨?_, read [], kept.gps, ?_⟩, c, [], rfl⟩
                    · rw [here]
                      exact congrArg (List.cons c) (congrArg List.tail kept.buf).symm
                    · exact ⟨kept.boxed.ended, kept.boxed.colon, kept.boxed.colon'⟩
            | @taken mid d rest behind kept =>
                rw [atCharacter_on here asterisk outcome] at went
                obtain rfl := Round.again.inj (Except.ok.inj went)
                refine ⟨[c, d], ⟨?_, read [d], kept.gps, ?_⟩, c, [d], rfl⟩
                · rw [here, behind]
                  have left := congrArg List.tail (kept.buf.trans behind)
                  exact congrArg (fun rest => c :: d :: rest) left.symm
                · exact ⟨kept.boxed.ended, kept.boxed.colon, kept.boxed.colon'⟩

/-- The state behind the test for a comma, with what the reading makes of it. -/
theorem entered_cases (here : scan.buf = c :: text) (nonzero : c ≠ 0) :
    round scan = atCharacter scan.entered ∧
      ((c = ascii ',' ∧ scan.entered = scan.comma) ∨ (c ≠ ascii ',' ∧ scan.entered = scan)) := by
  by_cases comma : c = ascii ','
  · subst comma
    have entered : scan.entered = scan.comma := by
      unfold Scan.entered
      rw [here]
      rfl
    refine ⟨?_, .inl ⟨rfl, entered⟩⟩
    rw [entered]
    unfold round
    rw [here]
    rfl
  · have entered : scan.entered = scan := by
      unfold Scan.entered
      rw [here]
      exact if_neg fun head => comma (Option.some.inj head)
    refine ⟨?_, .inr ⟨comma, entered⟩⟩
    rw [entered]
    unfold round
    rw [here]
    change (if c = 0 then _ else if c = ascii ',' then _ else _) = _
    rw [if_neg nonzero, if_neg comma]

theorem Boxed.entered (boxed : Boxed scan) : Boxed scan.entered := by
  unfold Scan.entered
  split
  · exact ⟨boxed.ended, boxed.colon, boxed.colon'⟩
  · exact boxed

theorem round_terminator (here : scan.buf = 0 :: text) : round scan = .ok (.done scan.gps) :=
  bind_eq_ok.mpr ⟨0, by rw [here]; rfl, rfl⟩

/-- The loop goes on to the place that the reading goes on to. -/
theorem round_follows (boxed : Boxed scan) (went : round scan = .ok (.again next)) :
    ∃ text, Follows .all scan next text := by
  cases here : scan.buf with
  | nil =>
      rw [shrinks_round.empty scan (by rw [here]; rfl)] at went
      cases went
  | cons c behind =>
      by_cases nonzero : c = 0
      · subst nonzero
        rw [round_terminator here] at went
        cases Except.ok.inj went
      · obtain ⟨same, entered⟩ := entered_cases here nonzero
        rw [same] at went
        obtain ⟨text, follows, first, rest, split⟩ := character_follows boxed.entered went
        rcases entered with ⟨rfl, entered⟩ | ⟨other, entered⟩
        · rw [entered] at follows
          refine ⟨ascii ',' :: text, ?_, follows.reading, follows.flags, follows.boxed⟩
          have left : scan.comma.buf = behind := by
            rw [Scan.comma, here]
            rfl
          rw [here, ← left, follows.buf]
          rfl
        · rw [entered] at follows
          have head : first = c := by
            have whole := follows.buf.symm.trans here
            rw [split] at whole
            exact (List.cons.inj whole).1
          refine ⟨text, follows.buf, ?_, follows.flags, follows.boxed⟩
          rw [← follows.reading, split, head, run_cons, run_cons]
          exact congrArg (fun reading => run _ reading rest)
            ((if_neg nonzero).trans (if_neg other))

/-- A loop that ends stores nothing, or what it has at an asterisk. -/
inductive Ends (stack : Fin 3 → UInt32) (gpsTime : List UInt8) (scan : Scan UInt8)
    (after : Timed UInt8) : Prop
  | kept (flags : after.gps.flags = scan.gps.flags) (date : after.gps.gpsDate = scan.gps.gpsDate)
      (time : after.gpsTime = gpsTime)
  | stored {text rest : List UInt8} {compared : Compared} {last : Scan UInt8}
      (buf : scan.buf = text ++ ascii '*' :: rest)
      (reading : run (Reading.step scan.gps.flags) (.inside .all scan.place) text =
        .inside compared last.place)
      (flags : last.gps.flags = scan.gps.flags) (date : last.gps.gpsDate = scan.gps.gpsDate)
      (boxed : Boxed last) (here : last.buf = ascii '*' :: rest)
      (gps : store last = .ok after.gps) (time : storeTime stack gpsTime last = .ok after.gpsTime)

theorem atCharacter_ends (ended : atCharacter scan = .ok (.done gps)) :
    (gps = scan.gps ∧ (scan.buf.head?.map byte) ≠ some (ascii '*')) ∨
      ∃ rest, scan.buf = ascii '*' :: rest ∧ store scan = .ok gps := by
  obtain ⟨c, seen, ended⟩ := bind_eq_ok.mp ended
  obtain ⟨text, here⟩ := peek_eq_ok.mp seen
  split at ended
  · rename_i asterisk
    obtain ⟨stored, kept, ended⟩ := bind_eq_ok.mp ended
    obtain rfl := Round.done.inj (Except.ok.inj ended)
    exact .inr ⟨text, asterisk ▸ here, kept⟩
  · rename_i other
    obtain ⟨move, _, ended⟩ := bind_eq_ok.mp ended
    cases move with
    | stop =>
        obtain rfl := Round.done.inj (Except.ok.inj ended)
        refine .inl ⟨rfl, ?_⟩
        rw [here]
        exact fun head => other (Option.some.inj head)
    | null mid => cases Except.ok.inj ended
    | on mid => cases Except.ok.inj ended

/-- Where no asterisk is, the time stays. -/
theorem storeTime_kept {stack : Fin 3 → UInt32} {gpsTime time : List UInt8}
    (none : (scan.buf.head?.map byte) ≠ some (ascii '*'))
    (done : storeTime stack gpsTime scan = .ok time) : time = gpsTime := by
  unfold storeTime at done
  rw [if_neg fun stores => none stores.1] at done
  exact (Except.ok.inj done).symm

/-- The last round. -/
theorem round_ends {stack : Fin 3 → UInt32} {gpsTime time : List UInt8} (boxed : Boxed scan)
    (ended : round scan = .ok (.done gps))
    (timed : storeTime stack gpsTime scan.entered = .ok time) :
    Ends stack gpsTime scan ⟨gps, time⟩ := by
  cases here : scan.buf with
  | nil =>
      rw [shrinks_round.empty scan (by rw [here]; rfl)] at ended
      cases ended
  | cons c behind =>
      by_cases nonzero : c = 0
      · subst nonzero
        rw [round_terminator here] at ended
        obtain rfl := Round.done.inj (Except.ok.inj ended)
        have entered : scan.entered = scan := by
          unfold Scan.entered
          rw [here]
          rfl
        refine .kept rfl rfl (storeTime_kept ?_ timed)
        rw [entered, here]
        exact fun head => absurd (Option.some.inj head) (by decide)
      · obtain ⟨same, entered⟩ := entered_cases here nonzero
        rw [same] at ended
        have still : scan.entered.gps = scan.gps := by
          rcases entered with ⟨-, entered⟩ | ⟨-, entered⟩
          · rw [entered]
            rfl
          · rw [entered]
        rcases atCharacter_ends ended with ⟨rfl, none⟩ | ⟨rest, asterisk, stored⟩
        · exact .kept (congrArg Gps.flags still) (congrArg Gps.gpsDate still)
            (storeTime_kept none timed)
        · have flags := congrArg Gps.flags still
          have date := congrArg Gps.gpsDate still
          rcases entered with ⟨rfl, entered⟩ | ⟨-, entered⟩
          · refine @Ends.stored stack gpsTime scan ⟨gps, time⟩ [ascii ','] rest .asterisk
              scan.entered ?_ ?_ flags date boxed.entered asterisk stored timed
            · have left : scan.entered.buf = behind := by
                rw [entered, Scan.comma, here]
                rfl
              rw [here, ← left, asterisk]
              rfl
            · rw [entered]
              rfl
          · refine @Ends.stored stack gpsTime scan ⟨gps, time⟩ [] rest .all scan.entered ?_ ?_ flags
              date boxed.entered asterisk stored timed
            · rw [← asterisk, entered]
              rfl
            · rw [entered]
              rfl

theorem Follows.ends {stack : Fin 3 → UInt32} {gpsTime : List UInt8} {after : Timed UInt8}
    (follows : Follows .all scan next text) (date : next.gps.gpsDate = scan.gps.gpsDate)
    (ends : Ends stack gpsTime next after) : Ends stack gpsTime scan after := by
  cases ends with
  | kept flags date' time => exact .kept (flags.trans follows.flags) (date'.trans date) time
  | @stored text' rest compared last buf reading flags date' boxed here gps time =>
      refine @Ends.stored stack gpsTime scan after (text ++ text') rest compared last ?_ ?_
        (flags.trans follows.flags) (date'.trans date) boxed here gps time
      · rw [follows.buf, buf, List.append_assoc]
      · rw [run_append, follows.reading, ← follows.flags]
        exact reading

/-- What a line stores is what the loop has read at an asterisk. -/
theorem timed_ends {stack : Fin 3 → UInt32} {gpsTime : List UInt8} {after : Timed UInt8}
    (boxed : Boxed scan) (done : timedScanning stack gpsTime scan = .ok after) :
    Ends stack gpsTime scan after := by
  induction size : scan.buf.length using Nat.strongRecOn generalizing scan with
  | ind size' ih =>
      cases outcome : round scan with
      | error fault =>
          unfold timedScanning at done
          rw [loop_error shrinks_timedRound (timedRound_error outcome)] at done
          cases done
      | ok result =>
          cases result with
          | again next =>
              have onward := done
              unfold timedScanning at onward
              rw [loop_again shrinks_timedRound (timedRound_again outcome)] at onward
              obtain ⟨text, follows⟩ := round_follows boxed outcome
              obtain ⟨c, stepped⟩ := round_again outcome
              have date : next.gps.gpsDate = scan.gps.gpsDate := by
                rw [stepped.kept]
              exact follows.ends date (ih _ (size ▸ stepped.shorter) follows.boxed onward rfl)
          | done gps =>
              have last := @timedRound_done _ _ stack gpsTime scan gps outcome
              cases timed : storeTime stack gpsTime scan.entered with
              | error fault =>
                  rw [timed] at last
                  unfold timedScanning at done
                  rw [loop_error shrinks_timedRound last] at done
                  cases done
              | ok time =>
                  rw [timed] at last
                  unfold timedScanning at done
                  rw [loop_done shrinks_timedRound last] at done
                  obtain rfl := Except.ok.inj done
                  exact round_ends boxed outcome timed

end

/-- The number of commas in a text. -/
def commas (text : List UInt8) : Nat := text.countP (· = ascii ',')

theorem commas_cons (c : UInt8) (text : List UInt8) :
    commas (c :: text) = commas text + if c = ascii ',' then 1 else 0 := by
  unfold commas
  rw [List.countP_cons]
  simp only [decide_eq_true_eq]

theorem commas_append (front back : List UInt8) :
    commas (front ++ back) = commas front + commas back := List.countP_append ..

namespace Reading

variable {flags : Flags} {compared : Compared} {place : Place} {c : UInt8} {text : List UInt8}

/-- The reading is over, or has come to a segment from a place, with the time of that place. -/
inductive Late (place : Place) (segment : Nat) : Reading → Prop
  | ended : Late place segment .ended
  | inside {compared : Compared} {later : Place} (time : later.time = place.time)
      (above : place.segment.toNat ≤ later.segment.toNat) (below : later.segment.toNat ≤ segment) :
      Late place segment (.inside compared later)

theorem late_next {segment : Nat} (below : place.segment.toNat ≤ segment) :
    Late place segment place.next := .inside rfl (Nat.le_refl _) below

theorem late_coordinate {segment : Nat} (below : place.segment.toNat ≤ segment)
    (last point skip : UInt8) : Late place segment (place.coordinate last point skip) := by
  unfold Place.coordinate
  dsimp only
  split_ifs <;> exact .inside rfl (Nat.le_refl _) below

/-- Behind the first segment the time is kept. -/
theorem late_field {more : Nat} (second : 2 ≤ place.segment.toNat)
    (few : place.segment.toNat + more ≤ 255) (counted : c = ascii ',' → more = 1) :
    Late place (place.segment.toNat + more) (place.field flags c) := by
  have still := @late_next place _ (Nat.le_add_right place.segment.toNat more)
  have coordinate := @late_coordinate place _ (Nat.le_add_right place.segment.toNat more)
  unfold Place.field
  split
  · omega
  · omega
  · exact coordinate 10 2 5
  · split
    · exact .ended
    · exact still
  · exact coordinate 11 3 6
  · split
    · exact .ended
    · exact still
  · split
    · rename_i comma
      have one := counted comma
      subst one
      have opened := toNat_succ (Nat.lt_of_succ_le few)
      exact .inside rfl (by dsimp only; omega) (by dsimp only; omega)
    · exact still
  · exact still

theorem late_step {more : Nat} (second : 2 ≤ place.segment.toNat)
    (few : place.segment.toNat + more ≤ 255) (counted : c = ascii ',' → more = 1) :
    Late place (place.segment.toNat + more) (step flags (.inside compared place) c) := by
  have field := @late_field flags place c more second few counted
  cases compared with
  | all =>
      rw [step]
      split
      · exact .ended
      · split
        · rename_i comma
          have one := counted comma
          subst one
          have opened := toNat_succ (Nat.lt_of_succ_le few)
          exact .inside rfl (by dsimp only; omega) (by dsimp only; omega)
        · split
          · exact .ended
          · exact field
  | asterisk =>
      rw [step]
      split
      · exact .ended
      · exact field
  | nothing => exact late_next (Nat.le_add_right _ _)

theorem run_ended (text : List UInt8) : run (step flags) .ended text = .ended := by
  induction text with
  | nil => rfl
  | cons c text ih => exact ih

/-- Behind the first segment the time is kept to the end of a line with few commas. -/
theorem late_run (second : 2 ≤ place.segment.toNat)
    (few : place.segment.toNat + commas text ≤ 255) :
    Late place (place.segment.toNat + commas text)
      (run (step flags) (.inside compared place) text) := by
  induction text generalizing place compared with
  | nil => exact .inside rfl (Nat.le_refl _) (Nat.le_add_right _ _)
  | cons c text ih =>
      rw [commas_cons] at few ⊢
      rw [run_cons]
      have first := @late_step flags compared place c (if c = ascii ',' then 1 else 0) second
        (by omega) (fun comma => if_pos comma)
      generalize step flags (.inside compared place) c = reading at first
      cases first with
      | ended =>
          rw [run_ended]
          exact .ended
      | @inside compared' later time above below =>
          have rest := @ih compared' later (second.trans above) (by omega)
          generalize run _ _ _ = reading at rest
          cases rest with
          | ended => exact .ended
          | inside time' above' below' =>
              exact .inside (time'.trans time) (above.trans above') (by omega)

end Reading

end Trunk.Rgps
