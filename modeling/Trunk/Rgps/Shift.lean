import Mathlib.Logic.Function.Iterate
import Trunk.Rgps.Fields

/-! # Empty fields

Behind an empty field the loop takes the next comma for a character of the segment that it is in, and
the field behind that comma too (`Trunk.Rgps.Sentence.taken`). It is then behind the line by a
segment (`Trunk.Rgps.Behind`), and what it takes for the field of a value is another one
(`Trunk.Rgps.Behind.misread`).
-/

namespace Trunk.Rgps

open CString Provenance Provenance.Glyph Loop

namespace Sentence

/-- What a segment takes that is opened in front of a field. -/
def taken (sentence : Sentence) (index : Nat) : List Mark :=
  if sentence.field index = [] then comma (index + 1) :: sentence.mark (index + 1)
  else sentence.mark index

/-- The field in front of which the next segment is opened. -/
def after (sentence : Sentence) (index : Nat) : Nat :=
  if sentence.field index = [] then index + 2 else index + 1

variable {sentence : Sentence} {count index : Nat} {c : Mark}

theorem taken_append (inside : index < count) :
    sentence.mark index ++ sentence.rest count (index + 1) =
      sentence.taken index ++ sentence.rest count (sentence.after index) := by
  unfold taken after
  by_cases empty : sentence.field index = []
  · rw [if_pos empty, if_pos empty, mark_eq_nil_iff.mpr empty, rest_eq inside]
    rfl
  · rw [if_neg empty, if_neg empty]

/-- Behind an empty field, all that a segment takes is of the fields behind. -/
theorem rest_taken (inside : index < count) (empty : sentence.field index = []) :
    sentence.rest count (index + 1) =
      sentence.taken index ++ sentence.rest count (sentence.after index) := by
  rw [← taken_append inside, mark_eq_nil_iff.mpr empty, List.nil_append]

theorem taken_ne_nil (sentence : Sentence) (index : Nat) : sentence.taken index ≠ [] := by
  unfold taken
  split
  · exact List.cons_ne_nil _ _
  · rename_i nonempty
    exact mt mark_eq_nil_iff.mp nonempty

theorem taken_head (member : c ∈ (sentence.taken index).head?) : byte c ≠ ascii '*' := by
  unfold taken at member
  split at member
  · obtain rfl := Option.some.inj member
    rw [byte_comma]
    decide
  · exact plain_head member

theorem taken_tail (member : c ∈ (sentence.taken index).tail) : Plain c := by
  unfold taken at member
  split at member
  · exact (mem_mark member).1
  · exact plain_tail member

theorem after_gt (sentence : Sentence) (index : Nat) : index < sentence.after index := by
  unfold after
  split <;> omega

theorem after_le (sentence : Sentence) (index : Nat) : sentence.after index ≤ index + 2 := by
  unfold after
  split <;> omega

/-- The segments get behind by one field each at most. -/
theorem iterate_after (sentence : Sentence) (steps index : Nat) :
    index + steps ≤ sentence.after^[steps] index ∧
      sentence.after^[steps] index ≤ index + 2 * steps := by
  induction steps generalizing index with
  | zero => exact ⟨Nat.le_refl _, Nat.le_refl _⟩
  | succ steps ih =>
      rw [Function.iterate_succ_apply]
      have first := sentence.after_gt index
      have first' := sentence.after_le index
      have rest := ih (sentence.after index)
      omega

/-- They get as far behind as they can exactly if every other field is empty. -/
theorem iterate_after_eq_iff (sentence : Sentence) (steps index : Nat) :
    sentence.after^[steps] index = index + 2 * steps ↔
      ∀ step < steps, sentence.field (index + 2 * step) = [] := by
  induction steps generalizing index with
  | zero => exact iff_of_true rfl fun _ below => absurd below (Nat.not_lt_zero _)
  | succ steps ih =>
      rw [Function.iterate_succ_apply, Nat.forall_lt_succ_left]
      by_cases empty : sentence.field index = []
      · have two : sentence.after index = index + 2 := if_pos empty
        have shift : ∀ step, index + 2 * (step + 1) = index + 2 + 2 * step := fun step => by omega
        rw [two, shift, ih]
        simp only [shift]
        exact (and_iff_right empty).symm
      · have one : sentence.after index = index + 1 := if_neg empty
        have bound := (sentence.iterate_after steps (index + 1)).2
        refine iff_of_false ?_ fun both => empty both.1
        rw [one]
        omega

end Sentence

/-- The loop is in front of a field, in a segment that may have another number. -/
structure Behind (sentence : Sentence) (command : Command) (gps : Gps Mark)
    (locals : Local → List Mark) (segment index : Nat) (scan : Scan Mark) : Prop where
  buf : scan.buf = sentence.rest command.fields index
  segment : scan.segment.toNat = segment
  kind : scan.command = command
  gps : scan.gps = gps
  locals : scan.locals = locals

section

variable {sentence : Sentence} {command : Command} {gps : Gps Mark}
  {locals : Local → List Mark} {segment index : Nat} {scan : Scan Mark}

theorem Upto.behind (upto : Upto sentence command gps (index + 1) scan) :
    Behind sentence command gps scan.locals index (index + 1) scan :=
  ⟨upto.buf, Nat.succ.inj upto.segment, upto.kind, upto.gps, rfl⟩

/-- The next comma opens a segment, which takes the field behind it or more. -/
theorem Behind.opened (behind : Behind sentence command gps locals segment index scan)
    (few : segment < 255) (inside : index < command.fields) :
    scan.comma = { scan.comma with
        buf := sentence.taken index ++ sentence.rest command.fields (sentence.after index) } ∧
      scan.comma.segment.toNat = segment + 1 ∧
      ∀ next, Enters scan.comma next → Reaches round scan next := by
  have line := behind.buf.trans (Sentence.rest_eq (Nat.le_of_lt inside))
  refine ⟨?_, ?_, fun next enters => enters.comma line rfl⟩
  · rw [← Sentence.taken_append inside]
    unfold Scan.comma
    rw [line]
    rfl
  · change (scan.segment + 1).toNat = segment + 1
    have same := behind.segment
    rw [toNat_succ (by omega), same]

/-- A segment is passed that fills no buffer. -/
theorem Behind.pass (behind : Behind sentence command gps locals segment index scan)
    (few : segment < 255) (inside : index < command.fields) (pass : Gps Mark → Mark → Gps Mark)
    (here : ∀ next : Scan Mark, next.segment.toNat = segment + 1 → next.command = command →
      ∀ c ∈ sentence.taken index,
        segmentCase next c = .ok (.on { next with gps := pass next.gps c })) :
    ∃ next, Reaches round scan next ∧
      Behind sentence command ((sentence.taken index).foldl pass gps) locals (segment + 1)
        (sentence.after index) next := by
  obtain ⟨opens, opened, reaches⟩ := behind.opened few inside
  obtain ⟨bytes, passed⟩ := @enters_pass _ _ pass (sentence.taken index) scan.comma
    (sentence.rest command.fields (sentence.after index)) (sentence.taken_ne_nil index)
    (fun _ => Sentence.taken_head) (fun _ => Sentence.taken_tail)
    (fun next beside c member => here next ((congrArg UInt8.toNat beside.1).trans opened)
      (beside.2.trans behind.kind) c member)
  rw [← opens] at passed
  refine ⟨_, reaches _ passed, rfl, opened, behind.kind, ?_, behind.locals⟩
  exact congrArg (fun gps => (sentence.taken index).foldl pass gps) behind.gps

/-- A segment is passed that reads nothing. -/
theorem Behind.next (behind : Behind sentence command gps locals segment index scan)
    (few : segment < 255) (inside : index < command.fields)
    (here : ∀ next : Scan Mark, next.segment.toNat = segment + 1 → next.command = command →
      ∀ c ∈ sentence.taken index, segmentCase next c = .ok (.on next)) :
    ∃ next, Reaches round scan next ∧
      Behind sentence command gps locals (segment + 1) (sentence.after index) next := by
  obtain ⟨next, reached, behind'⟩ := behind.pass few inside (fun gps _ => gps) here
  rw [List.foldl_fixed] at behind'
  exact ⟨next, reached, behind'⟩

/-- A segment that stops at a character ends the loop, with nothing stored. -/
theorem Behind.stop (behind : Behind sentence command gps locals segment index scan)
    (few : segment < 255) (inside : index < command.fields) (bad : Mark → Bool)
    (here : ∀ next : Scan Mark, next.segment.toNat = segment + 1 → next.command = command →
      ∀ c ∈ sentence.taken index, segmentCase next c = .ok (if bad c then .stop else .on next))
    (found : ∃ c ∈ sentence.taken index, bad c = true) : scanning scan = .ok gps := by
  have line := behind.buf.trans (Sentence.rest_eq (Nat.le_of_lt inside))
  obtain ⟨opens, opened, -⟩ := behind.opened few inside
  have stopped := @resume_stop _ _ bad (sentence.taken index) scan.comma
    (sentence.rest command.fields (sentence.after index)) (fun _ => Sentence.taken_head)
    (fun _ => Sentence.taken_tail)
    (fun next beside c member => here next ((congrArg UInt8.toNat beside.1).trans opened)
      (beside.2.trans behind.kind) c member) found
  rw [← opens] at stopped
  exact (scanning_comma line rfl).trans (stopped.trans (congrArg Except.ok behind.gps))

/-- A value whose segment is opened behind its field, or in front of its field if that is empty, is
not read from it. -/
theorem Behind.misread {slot : Local} {after : Gps Mark}
    (behind : Behind sentence slot.command gps locals segment index scan)
    (starts : Starts (slot.handler : Handler Mark)) (opens : segment + 1 = slot.field)
    (undirected : slot ≠ .direction) (inside : index ≤ slot.command.fields)
    (late : slot.field < index ∨ slot.field = index ∧ sentence.field index = [])
    (more : sentence.field index ≠ [] ∨ index < slot.command.fields)
    (before : Misread slot.field (gps.shown slot)) (done : scanning scan = .ok after) :
    Misread slot.field (after.shown slot) := by
  have line := behind.buf.trans (Sentence.rest_eq inside)
  have guarded : Guarded scan.buf := behind.buf ▸ sentence.rest_guarded _ _
  -- The segment starts with a character of another field, which is not the asterisk.
  obtain ⟨c, text, split, other⟩ : ∃ c text, sentence.mark index ++
      sentence.rest slot.command.fields (index + 1) = c :: text ∧ byte c ≠ ascii '*' := by
    by_cases empty : sentence.field index = []
    · have less := more.resolve_left (not_not_intro empty)
      rw [Sentence.mark_eq_nil_iff.mpr empty, List.nil_append, Sentence.rest_eq less]
      exact ⟨_, _, rfl, by rw [Sentence.byte_comma]; decide⟩
    · obtain ⟨c, text, split⟩ := List.exists_cons_of_ne_nil
        (mt Sentence.mark_eq_nil_iff.mp empty)
      refine ⟨c, text ++ sentence.rest slot.command.fields (index + 1), by rw [split]; rfl, ?_⟩
      exact (Sentence.mem_mark (split ▸ List.mem_cons_self ..)).1.2.2
  rw [split] at line
  have foreign : ∀ d ∈ c :: text, Foreign slot.field d := by
    rw [← split]
    intro d member
    rcases late with below | ⟨same, empty⟩
    · have listed : d ∈ sentence.rest slot.command.fields index := by
        rw [Sentence.rest_eq inside]
        exact List.mem_cons_of_mem _ member
      exact Sentence.rest_foreign below d listed
    · rw [Sentence.mark_eq_nil_iff.mpr empty] at member
      exact Sentence.rest_foreign (by omega) d member
  have nonzero : byte c ≠ 0 :=
    guarded (Sentence.comma index) c text (by rw [line]) rfl
  have opened : scan.comma.buf = c :: text := by
    rw [Scan.comma, line]
    rfl
  have segment' : scan.comma.segment.toNat = slot.field := by
    change (scan.segment + 1).toNat = slot.field
    have small : slot.field < 10 := by cases slot <;> decide
    have same := behind.segment
    rw [toNat_succ (by omega)]
    omega
  rw [scanning_comma line rfl, resume_character opened other,
    Local.segmentCase_eq segment' behind.kind fun same => absurd same undirected, fill,
    opened] at done
  cases wrote : slot.handler scan.comma.bytes (c :: text) (scan.comma.locals slot) with
  | error fault =>
      rw [wrote] at done
      cases done
  | ok filled =>
      rw [wrote] at done
      have suffix := (slot.fills _ _ _ _ _ wrote).suffix
      have later : filled.2.1.tail <:+ c :: text := (List.tail_suffix _).trans suffix
      refine @Spoiled.shown slot slot.field _ _ ⟨?_, ?_, ?_, ?_⟩ done
      · exact fun d member => foreign d (later.subset member)
      · refine guarded.suffix (later.trans ?_)
        rw [line]
        exact List.suffix_cons _ _
      · refine ⟨c, ?_, nonzero, (foreign c (List.mem_cons_self ..)).1⟩
        dsimp only
        rw [Function.update_self]
        exact starts c text _ filled wrote
      · refine (?_ : Misread slot.field (scan.gps.shown slot))
        rw [behind.gps]
        exact before

/-- A segment that fills a buffer takes what it finds. -/
theorem Behind.fill {slot : Local} {buffer : List Mark}
    (behind : Behind sentence slot.command gps locals segment index scan)
    (opens : segment + 1 = slot.field) (inside : index < slot.command.fields)
    (undirected : slot ≠ .direction)
    (read : fillAll slot.handler 0 (sentence.taken index) (locals slot) = .ok buffer) :
    ∃ next, Reaches round scan next ∧
      Behind sentence slot.command gps (Function.update locals slot buffer) (segment + 1)
        (sentence.after index) next := by
  have small : slot.field < 10 := by cases slot <;> decide
  obtain ⟨taken, opened, reaches⟩ := behind.opened (by omega) inside
  obtain ⟨bytes, passed⟩ := @enters_fill _ _ _ slot.fills slot (sentence.taken index) buffer
    scan.comma (sentence.rest slot.command.fields (sentence.after index))
    (sentence.taken_ne_nil index) (fun _ => Sentence.taken_head) (fun _ => Sentence.taken_tail)
    (fun next beside c _ => Local.segmentCase_eq
      (((congrArg UInt8.toNat beside.1).trans opened).trans opens) (beside.2.trans behind.kind)
      fun same => absurd same undirected)
    (by rw [show scan.comma.locals = locals from behind.locals]; exact read)
  rw [← taken] at passed
  refine ⟨_, reaches _ passed, rfl, opened, behind.kind, behind.gps, ?_⟩
  exact congrArg (fun locals => Function.update locals slot buffer) behind.locals

/-- An empty direction is passed: the segment of the date is open in front of its first
character. -/
theorem Behind.undirected (behind : Behind sentence .rmc gps locals 7 8 scan)
    (empty : sentence.field 8 = []) :
    Reaches round scan { scan with
      buf := sentence.mark 9 ++ sentence.rest 12 10, segment := scan.segment + 1 + 1, bytes := 0 } := by
  have line := behind.buf.trans (@Sentence.rest_eq sentence 12 8 (by decide))
  rw [Sentence.mark_eq_nil_iff.mpr empty, List.nil_append,
    @Sentence.rest_eq sentence 12 9 (by decide)] at line
  have opened : scan.comma.buf =
      Sentence.comma 9 :: (sentence.mark 9 ++ sentence.rest 12 10) := by
    rw [Scan.comma, line]
    rfl
  have segment : scan.comma.segment.toNat = 8 := by
    change (scan.segment + 1).toNat = 8
    have same := behind.segment
    rw [toNat_succ (by omega), same]
  have skipped : segmentCase scan.comma (Sentence.comma 9) = .ok (.null scan.comma) := by
    unfold segmentCase
    rw [segment, show scan.comma.command = .rmc from behind.kind]
    rfl
  have enters : Enters scan.comma { scan with
      buf := sentence.mark 9 ++ sentence.rest 12 10, segment := scan.segment + 1 + 1,
      bytes := 0 } := by
    refine ⟨_, bind_eq_ok.mpr ⟨Sentence.comma 9, peek_eq_ok.mpr ⟨_, opened⟩, ?_⟩, .start⟩
    rw [if_neg (by rw [Sentence.byte_comma]; decide)]
    refine bind_eq_ok.mpr ⟨_, skipped, ?_⟩
    dsimp only
    rw [opened]
    rfl
  exact enters.comma line rfl

/-- Behind the last value the loop comes to the asterisk. -/
theorem Behind.tail (behind : Behind sentence command gps locals 9 index scan) :
    ∃ last, EndsAt Sentence.asterisk sentence.behind scan last := by
  have few := command.fields_le
  refine @endsAt_tail _ _ (sentence.fields index (command.fields + 1 - index)) _ _ ?_ _ behind.buf
    (.inr ⟨behind.segment, ?_⟩) ?_
  · exact fun c member => ⟨(Sentence.mem_fields member).1, (Sentence.mem_fields member).2.1⟩
  · intro c head
    cases count : command.fields + 1 - index with
    | zero =>
        rw [count] at head
        cases head
    | succ count' =>
        rw [count] at head
        obtain rfl := Option.some.inj head
        rfl
  · rw [Sentence.countP_fields, behind.segment]
    omega

/-- The status of a `$GPRMC` sentence. -/
theorem segmentCase_active {next : Scan Mark} {c : Mark} (segment : next.segment.toNat = 2)
    (command : next.command = .rmc) :
    segmentCase next c = .ok (if (byte c ≠ ascii 'A' : Bool) then .stop else .on next) := by
  unfold segmentCase
  rw [segment, command]
  by_cases active : byte c = ascii 'A' <;> simp [active]

/-- Between the status and the speed of a `$GPRMC` sentence nothing is read. -/
theorem Behind.drift (behind : Behind sentence .rmc gps locals segment index scan)
    (least : 2 ≤ segment) {steps : Nat} (most : segment + steps ≤ 6)
    (inside : index + 2 * steps ≤ 12) :
    ∃ next, Reaches round scan next ∧
      Behind sentence .rmc gps locals (segment + steps) (sentence.after^[steps] index) next := by
  induction steps generalizing segment index scan with
  | zero => exact ⟨scan, .start, behind⟩
  | succ steps ih =>
      have short := sentence.after_le index
      have fields : Command.rmc.fields = 12 := rfl
      obtain ⟨next, reached, behind'⟩ := behind.next (by omega) (by omega)
        fun next opened command c _ => segmentCase_rmc next command (by omega) c
      obtain ⟨last, onward, behind'⟩ := ih behind' (by omega) (by omega) (by omega)
      rw [Function.iterate_succ_apply]
      refine ⟨last, reached.trans onward, ?_⟩
      rw [← Nat.add_assoc, Nat.add_right_comm]
      exact behind'

/-- A `$GPRMC` sentence without a time is behind by a field where its status is read. -/
theorem Behind.status (behind : Behind sentence .rmc gps locals 0 1 scan)
    (empty : sentence.field 1 = []) :
    ∃ next, Reaches round scan next ∧ Behind sentence .rmc gps locals 1 3 next := by
  obtain ⟨next, reached, behind'⟩ := behind.next (by decide) (by decide)
    fun next opened command c _ => segmentCase_rmc next command (.inl opened) c
  have third : sentence.after 1 = 3 := if_pos empty
  exact ⟨next, reached, third ▸ behind'⟩

/-- With a latitude that reads like a fix, it comes to the speed. -/
theorem Behind.bare (behind : Behind sentence .rmc gps locals 1 3 scan)
    (nonempty : sentence.field 3 ≠ []) (active : ∀ c ∈ sentence.taken 3, byte c = ascii 'A') :
    ∃ next, Reaches round scan next ∧
      Behind sentence .rmc gps locals 6 (sentence.after^[4] 4) next := by
  obtain ⟨next, reached, behind'⟩ := behind.next (by decide) (by decide)
    fun next opened command c member => by
      rw [segmentCase_active opened command, if_neg (by simpa using active c member)]
  have fourth : sentence.after 3 = 4 := if_neg nonempty
  rw [fourth] at behind'
  obtain ⟨last, onward, behind'⟩ := @Behind.drift _ _ _ _ _ _ behind' (by decide) 4 (by decide)
    (by decide)
  exact ⟨last, reached.trans onward, behind'⟩

end

end Trunk.Rgps
