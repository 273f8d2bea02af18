import Trunk.Ubusd.Transmit

/-! # The library of the clients writes

`writev_retry` of `libubus-io.c` writes the parts of a message until the socket has taken them. Where
a write stops inside a part, only the length of the part is made smaller, so its first bytes are
written again in place of its last ones. Whatever the message, it arrives as it is exactly if no
write stops inside a part (`Trunk.Ubusd.Socket.writevRetry_intact_iff`).
-/

namespace Trunk.Ubusd.Socket

/-- How far `writev_retry` got. -/
inductive Progress where
  | done
  | failed
  | trying
  deriving DecidableEq, Repr

/-- The parts that are left after some bytes were taken. The base of a part that was taken in part
stays where it is. -/
def advance : Nat → List (List UInt8) → List (List UInt8)
  | _, [] => []
  | curLen, part :: iov =>
      if part.length ≤ curLen then
        advance (curLen - part.length) iov
      else
        part.take (part.length - curLen) :: iov

/-- `writev_retry`, with what the socket does with each write, and what it has taken before. -/
def writevRetry : List Room → List (List UInt8) → List UInt8 → Progress × List UInt8
  | [], _, stream => (.trying, stream)
  | room :: rooms, iov, stream =>
      match room.write iov.flatten with
      | none => if room = .again then writevRetry rooms iov stream else (.failed, stream)
      | some written =>
          if advance written.length iov = [] then
            (.done, stream ++ written)
          else
            writevRetry rooms (advance written.length iov) (stream ++ written)

variable {rooms : List Room} {iov : List (List UInt8)} {stream : List UInt8} {count length : Nat}
  {lengths : List Nat}

/-- A write stops between two parts. -/
def Between : Nat → List Nat → Prop
  | _, [] => True
  | count, length :: lengths =>
      if length ≤ count then Between (count - length) lengths else count = 0

/-- The lengths that are left. -/
def shorten : Nat → List Nat → List Nat
  | _, [] => []
  | count, length :: lengths =>
      if length ≤ count then shorten (count - length) lengths else (length - count) :: lengths

/-- Every write stops between two parts. -/
def Aligned : List Room → List Nat → Prop
  | [], _ => True
  | .again :: rooms, lengths => Aligned rooms lengths
  | .broken :: _, _ => True
  | .bytes count :: rooms, lengths =>
      Between (min count lengths.sum) lengths ∧
        (shorten (min count lengths.sum) lengths = [] ∨
          Aligned rooms (shorten (min count lengths.sum) lengths))

theorem map_length_advance (count : Nat) (iov : List (List UInt8)) :
    (advance count iov).map List.length = shorten count (iov.map List.length) := by
  induction iov generalizing count with
  | nil => rfl
  | cons part iov ih =>
      rw [advance, List.map_cons, shorten]
      split
      · exact ih _
      · rw [List.map_cons, List.length_take, min_eq_left (Nat.sub_le _ _)]

theorem length_flatten_take (count : Nat) (iov : List (List UInt8)) :
    (iov.flatten.take count).length = min count (iov.map List.length).sum := by
  rw [List.length_take, List.length_flatten]

theorem advance_eq_nil (count : Nat) (iov : List (List UInt8)) :
    advance count iov = [] ↔ shorten count (iov.map List.length) = [] := by
  rw [← map_length_advance, List.map_eq_nil_iff]

/-- Nothing is lost where a write stops between two parts. -/
theorem take_append_advance (between : Between count (iov.map List.length)) :
    iov.flatten.take count ++ (advance count iov).flatten = iov.flatten := by
  induction iov generalizing count with
  | nil => rw [List.flatten_nil, List.take_nil]; rfl
  | cons part iov ih =>
      rw [List.map_cons, Between] at between
      rw [advance, List.flatten_cons]
      split at between
      · rename_i whole
        rw [if_pos whole, List.take_append, List.take_of_length_le whole, List.append_assoc,
          ih between]
      · rename_i inside
        subst between
        rw [if_neg inside, List.take_zero, List.nil_append, Nat.sub_zero, List.take_length,
          List.flatten_cons]

/-- A message that is written in whole parts arrives as it is. -/
theorem writevRetry_of_aligned (rooms : List Room) (iov : List (List UInt8)) (stream : List UInt8)
    (aligned : Aligned rooms (iov.map List.length))
    (done : (writevRetry rooms iov stream).1 = .done) :
    (writevRetry rooms iov stream).2 = stream ++ iov.flatten := by
  induction rooms generalizing iov stream with
  | nil => cases done
  | cons room rooms ih =>
      rw [writevRetry] at done ⊢
      cases room with
      | again => exact ih iov stream aligned done
      | broken => cases done
      | bytes count =>
          simp only [Room.write, length_flatten_take, advance_eq_nil] at done ⊢
          obtain ⟨between, rest⟩ := aligned
          have all := take_append_advance between
          have same : iov.flatten.take (min count (iov.map List.length).sum) =
              iov.flatten.take count := by
            rw [← List.length_flatten, ← List.take_eq_take_min]
          rw [same] at all
          by_cases ended : shorten (min count (iov.map List.length).sum) (iov.map List.length) = []
          · rw [if_pos ended]
            rw [← advance_eq_nil] at ended
            rw [ended, List.flatten_nil, List.append_nil] at all
            rw [all]
          · rw [if_neg ended] at done ⊢
            have later := rest.resolve_left ended
            rw [← map_length_advance] at later
            rw [ih _ _ later done, List.append_assoc, all]

/-! ### What goes wrong otherwise -/

/-- A part that shows where it begins. -/
def mark (length : Nat) : List UInt8 :=
  if length = 0 then [] else 1 :: List.replicate (length - 1) 0

theorem length_mark (length : Nat) : (mark length).length = length := by
  rw [mark]
  split
  · rename_i zero
    exact zero.symm
  · rw [List.length_cons, List.length_replicate]
    omega

theorem count_mark (length : Nat) : (mark length).count 1 = if length = 0 then 0 else 1 := by
  rw [mark]
  split
  · rfl
  · rw [List.count_cons_self, List.count_eq_zero.mpr]
    intro member
    exact absurd (List.eq_of_mem_replicate member) (by decide)

theorem take_mark (length count : Nat) (less : count ≤ length) :
    (mark length).take count = mark count := by
  rw [mark, mark]
  rcases Nat.eq_zero_or_pos count with zero | positive
  · rw [if_pos zero, zero, List.take_zero]
  · rw [if_neg (by omega), if_neg (by omega)]
    obtain ⟨count, rfl⟩ := Nat.exists_eq_succ_of_ne_zero positive.ne'
    rw [List.take_succ_cons, List.take_replicate]
    congr 2
    omega

theorem advance_mark (count : Nat) (lengths : List Nat) :
    advance count (lengths.map mark) = (shorten count lengths).map mark := by
  induction lengths generalizing count with
  | nil => rfl
  | cons length lengths ih =>
      rw [List.map_cons, advance, shorten, length_mark]
      split
      · exact ih _
      · rw [List.map_cons, take_mark _ _ (Nat.sub_le _ _)]

theorem map_length_mark (lengths : List Nat) : (lengths.map mark).map List.length = lengths := by
  rw [List.map_map, Function.comp_def]
  simp only [length_mark, List.map_id']

/-- The beginnings of some marked parts. -/
def begins (lengths : List Nat) : Nat := (lengths.map mark).flatten.count 1

theorem begins_cons (length : Nat) (lengths : List Nat) :
    begins (length :: lengths) = (if length = 0 then 0 else 1) + begins lengths := by
  rw [begins, List.map_cons, List.flatten_cons, List.count_append, count_mark, begins]

/-- A part that is begun twice shows. -/
theorem begins_shorten (count : Nat) (lengths : List Nat) :
    begins lengths ≤ ((lengths.map mark).flatten.take count).count 1 +
        begins (shorten count lengths) ∧
      (¬ Between count lengths → begins lengths <
        ((lengths.map mark).flatten.take count).count 1 + begins (shorten count lengths)) := by
  induction lengths generalizing count with
  | nil =>
      rw [List.map_nil, List.flatten_nil, List.take_nil]
      exact ⟨Nat.le_add_left _ _, fun absurd => (absurd trivial).elim⟩
  | cons length lengths ih =>
      rw [begins_cons, shorten, Between, List.map_cons, List.flatten_cons, List.take_append,
        List.count_append, length_mark]
      by_cases whole : length ≤ count
      · obtain ⟨least, more⟩ := ih (count - length)
        rw [if_pos whole, if_pos whole, List.take_of_length_le ((length_mark length).trans_le whole),
          count_mark, Nat.add_assoc]
        exact ⟨Nat.add_le_add_left least _, fun inside => Nat.add_lt_add_left (more inside) _⟩
      · have left : ¬ length - count = 0 := by omega
        have some : ¬ length = 0 := by omega
        rw [if_neg whole, if_neg whole, begins_cons, take_mark _ _ (not_le.mp whole).le, count_mark,
          if_neg left, if_neg some]
        refine ⟨by omega, fun inside => ?_⟩
        rw [if_neg inside]
        omega

/-- Where a write stops inside a part, a part is begun once more. -/
theorem count_writevRetry (rooms : List Room) (lengths : List Nat) (stream : List UInt8)
    (done : (writevRetry rooms (lengths.map mark) stream).1 = .done) :
    stream.count 1 + begins lengths ≤
        (writevRetry rooms (lengths.map mark) stream).2.count 1 ∧
      (¬ Aligned rooms lengths → stream.count 1 + begins lengths <
        (writevRetry rooms (lengths.map mark) stream).2.count 1) := by
  induction rooms generalizing lengths stream with
  | nil => cases done
  | cons room rooms ih =>
      rw [writevRetry] at done ⊢
      cases room with
      | again => exact ih lengths stream done
      | broken => cases done
      | bytes count =>
          simp only [Room.write, length_flatten_take, map_length_mark, advance_mark,
            List.map_eq_nil_iff] at done ⊢
          have same : (lengths.map mark).flatten.take count =
              (lengths.map mark).flatten.take (min count lengths.sum) := by
            rw [List.take_eq_take_min, List.length_flatten, map_length_mark]
          rw [same] at done ⊢
          obtain ⟨least, more⟩ := begins_shorten (min count lengths.sum) lengths
          rw [Aligned]
          by_cases ended : shorten (min count lengths.sum) lengths = []
          · rw [if_pos ended, List.count_append]
            rw [ended] at least more
            have none : begins [] = 0 := rfl
            rw [none, Nat.add_zero] at least more
            refine ⟨Nat.add_le_add_left least _, fun wrong => Nat.add_lt_add_left (more ?_) _⟩
            exact fun between => wrong ⟨between, .inl ended⟩
          · rw [if_neg ended] at done ⊢
            obtain ⟨least', more'⟩ := ih _ _ done
            rw [List.count_append] at least' more'
            refine ⟨by omega, fun wrong => ?_⟩
            by_cases between : Between (min count lengths.sum) lengths
            · have later := more' fun aligned => wrong ⟨between, .inr aligned⟩
              omega
            · have now := more between
              omega

/-- How far the writes get depends on the lengths only. -/
theorem progress_congr (rooms : List Room) (iov iov' : List (List UInt8)) (stream stream' : List UInt8)
    (same : iov.map List.length = iov'.map List.length) :
    (writevRetry rooms iov stream).1 = (writevRetry rooms iov' stream').1 := by
  induction rooms generalizing iov iov' stream stream' with
  | nil => rfl
  | cons room rooms ih =>
      rw [writevRetry, writevRetry]
      cases room with
      | again => exact ih _ _ _ _ same
      | broken => rfl
      | bytes count =>
          simp only [Room.write, length_flatten_take, advance_eq_nil, same]
          split
          · rfl
          · exact ih _ _ _ _ (by rw [map_length_advance, map_length_advance, same])

/-- Parts of some lengths arrive as they are, whatever is in them, exactly if no write stops inside
a part. -/
theorem writevRetry_intact_iff (rooms : List Room) (sample : List (List UInt8))
    (done : (writevRetry rooms sample []).1 = .done) :
    (∀ iov, iov.map List.length = sample.map List.length →
      (writevRetry rooms iov []).2 = iov.flatten) ↔ Aligned rooms (sample.map List.length) := by
  constructor
  · intro intact
    by_contra wrong
    have same := map_length_mark (sample.map List.length)
    have finished := progress_congr rooms _ _ [] [] same
    rw [done] at finished
    have more := (count_writevRetry rooms _ [] finished).2 wrong
    rw [intact _ same, begins, List.count_nil, Nat.zero_add] at more
    exact lt_irrefl _ more
  · intro aligned iov same
    have finished := progress_congr rooms iov sample [] [] same
    exact writevRetry_of_aligned rooms iov [] (same ▸ aligned) (finished.trans done)

-- The header is taken, then the data.
theorem writevRetry_intact_eight_four :
    (∀ iov, iov.map List.length = [8, 4] →
      (writevRetry [.bytes 8, .again, .bytes 4] iov []).2 = iov.flatten) ↔
        Aligned [.bytes 8, .again, .bytes 4] [8, 4] :=
  writevRetry_intact_iff [.bytes 8, .again, .bytes 4] [List.replicate 8 0, List.replicate 4 0] rfl

-- The header is taken in part.
example : (writevRetry [.bytes 3, .bytes 9] [[1, 2, 3, 4, 5, 6, 7, 8], [9]] []).2 =
    [1, 2, 3, 1, 2, 3, 4, 5, 9] := rfl

end Trunk.Ubusd.Socket
