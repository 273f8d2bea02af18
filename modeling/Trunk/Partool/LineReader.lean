import Trunk.Partool.Block

/-! # What the line reader touches

`part_read_line` by the addresses that it reads and the places of the line that it writes. It finds
the lines of `Trunk.Partool.partReadLine` (`Trunk.Partool.readLine_eq`), and the loop over them ends
(`Trunk.Partool.readLoop_ends`). The test behind its search reads at the end of the buffer if there
is no line end in it, and the empty string is written into a line that has no room
(`Trunk.Partool.readsLine_iff`).
-/

namespace Trunk.Partool

variable {mem : Nat → UInt8} {begin end_ : Nat} {lineSize : Int}

/-- A call of `part_read_line`: the addresses that it reads, the places of the line that it writes,
what it leaves at the front of the line, and the pointer that it returns. -/
structure ReadLine where
  reads : List Nat
  writes : List Nat
  line : List UInt8
  newline : Option Nat
  deriving DecidableEq, Repr

/-- The loop that looks for the line end, and the addresses that it reads. -/
def findCrlf (mem : Nat → UInt8) : Nat → Nat → Nat × List Nat
  | 0, p => (p, [])
  | count + 1, p =>
      if mem p = partCrlf then (p, [p])
      else ((findCrlf mem count (p + 1)).1, p :: (findCrlf mem count (p + 1)).2)

/-- The end of `part_read_line`, where the length of the line is known. -/
def copyLine (mem : Nat → UInt8) (reads : List Nat) (begin len : Nat) (newline : Option Nat)
    (lineSize : Int) : ReadLine :=
  if lineSize ≤ len then ⟨reads, [0], [0], none⟩
  else
    ⟨reads ++ List.range' begin len, 0 :: (List.range len ++ [len]),
      (List.range' begin len).map mem ++ [0], newline⟩

/-- `part_read_line`, by addresses. -/
def readLine (mem : Nat → UInt8) (begin : Option Nat) (end_ : Nat) (lineSize : Int) : ReadLine :=
  match begin with
  | none => ⟨[], [0], [0], none⟩
  | some begin =>
      if end_ ≤ begin then ⟨[], [0], [0], none⟩
      else
        let found := findCrlf mem (end_ - begin) begin
        -- The character at `p` is read once more, also where `p` has come to the end.
        let reads := found.2 ++ [found.1]
        if mem found.1 = partCrlf then
          copyLine mem reads begin (found.1 - begin)
            (if end_ ≤ found.1 + 1 then none else some (found.1 + 1)) lineSize
        else copyLine mem reads begin (end_ - begin + 1) none lineSize

/-- The condition of the loop in `part_line_read`, and where it goes on. -/
def readNext (mem : Nat → UInt8) (end_ : Nat) (lineSize : Int) (begin : Option Nat) :
    Option (Option Nat) :=
  let call := readLine mem begin end_ lineSize
  if call.newline.isSome ∨ call.line.headD 0 ≠ 0 then some call.newline else none

/-- The rounds of the loop: where the next one begins, if there is one. -/
def readLoop (mem : Nat → UInt8) (end_ : Nat) (lineSize : Int) : Nat → Option Nat →
    Option (Option Nat)
  | 0, begin => some begin
  | rounds + 1, begin => (readNext mem end_ lineSize begin).bind (readLoop mem end_ lineSize rounds)

/-- A call stays in the buffer and in the line, what it returns is behind where it began and in the
buffer, and the loop that calls it ends. -/
structure ReadsLine (mem : Nat → UInt8) (begin end_ : Nat) (lineSize : Int) : Prop where
  reads : ∀ p ∈ (readLine mem (some begin) end_ lineSize).reads, begin ≤ p ∧ p < end_
  writes : ∀ i ∈ (readLine mem (some begin) end_ lineSize).writes, (i : Int) < lineSize
  newline : ∀ p ∈ (readLine mem (some begin) end_ lineSize).newline, begin < p ∧ p < end_
  ends : ∃ rounds, readLoop mem end_ lineSize rounds (some begin) = none

/-! ## The search -/

theorem findCrlf_reads (count p : Nat) : ∀ q ∈ (findCrlf mem count p).2, p ≤ q ∧ q < p + count := by
  induction count generalizing p with
  | zero => exact fun q member => absurd member List.not_mem_nil
  | succ count ih =>
      intro q member
      rw [findCrlf] at member
      split at member
      · obtain rfl := List.mem_singleton.mp member
        omega
      · rcases List.mem_cons.mp member with rfl | later
        · omega
        · have bounds := ih (p + 1) q later
          omega

/-- The search stops at a line end, or behind the last character. -/
theorem findCrlf_stop (count p : Nat) :
    (p ≤ (findCrlf mem count p).1 ∧ (findCrlf mem count p).1 < p + count ∧
        mem (findCrlf mem count p).1 = partCrlf ∧
        ∀ q, p ≤ q → q < (findCrlf mem count p).1 → mem q ≠ partCrlf) ∨
      ((findCrlf mem count p).1 = p + count ∧ ∀ q, p ≤ q → q < p + count → mem q ≠ partCrlf) := by
  induction count generalizing p with
  | zero => exact .inr ⟨rfl, fun q _ _ => by omega⟩
  | succ count ih =>
      rw [findCrlf]
      split
      · rename_i here
        exact .inl ⟨Nat.le_refl _, by omega, here, fun q low high => by omega⟩
      · rename_i other
        have from_ (stop : Nat) (none_ : ∀ q, p + 1 ≤ q → q < stop → mem q ≠ partCrlf) (q : Nat)
            (low : p ≤ q) (high : q < stop) : mem q ≠ partCrlf := by
          rcases Nat.eq_or_lt_of_le low with rfl | later
          · exact other
          · exact none_ q later high
        rcases ih (p + 1) with ⟨low, high, found, first⟩ | ⟨stop, none_⟩
        · exact .inl ⟨by dsimp only; omega, by dsimp only; omega, found, from_ _ first⟩
        · refine .inr ⟨by dsimp only; omega, fun q low high => ?_⟩
          exact from_ (p + 1 + count) none_ q low (by omega)

/-- The cases of a call that begins in the buffer: whether there is a line end. -/
theorem readLine_cases (mem : Nat → UInt8) (lineSize : Int) (inside : begin < end_) :
    (∃ p reads, begin ≤ p ∧ p < end_ ∧ mem p = partCrlf ∧
        (∀ q, begin ≤ q → q < p → mem q ≠ partCrlf) ∧ (∀ q ∈ reads, begin ≤ q ∧ q < end_) ∧
        readLine mem (some begin) end_ lineSize = copyLine mem reads begin (p - begin)
          (if end_ ≤ p + 1 then none else some (p + 1)) lineSize) ∨
      ((∀ q, begin ≤ q → q < end_ → mem q ≠ partCrlf) ∧ ∃ reads, end_ ∈ reads ∧
        readLine mem (some begin) end_ lineSize = copyLine mem reads begin
          (if mem end_ = partCrlf then end_ - begin else end_ - begin + 1) none lineSize) := by
  have whole : begin + (end_ - begin) = end_ := by omega
  have bounds : ∀ q ∈ (findCrlf mem (end_ - begin) begin).2, begin ≤ q ∧ q < end_ := by
    intro q member
    have bound := findCrlf_reads (end_ - begin) begin q member
    omega
  rw [readLine, if_neg (by omega)]
  dsimp only
  rcases findCrlf_stop (end_ - begin) begin with
    ⟨low, high, found, first⟩ | ⟨stop, none_⟩
  · left
    rw [if_pos found]
    refine ⟨_, _, low, by omega, found, first, ?_, rfl⟩
    intro q member
    rcases List.mem_append.mp member with earlier | again
    · exact bounds q earlier
    · obtain rfl := List.mem_singleton.mp again
      omega
  · right
    rw [whole] at stop none_
    have reached : end_ ∈ (findCrlf mem (end_ - begin) begin).2 ++ [end_] :=
      List.mem_append_right _ (List.mem_singleton_self _)
    refine ⟨none_, _, reached, ?_⟩
    rw [stop]
    split
    · rw [if_pos (Nat.le_succ _)]
    · rfl

theorem copyLine_reads {reads : List Nat} {len : Nat} {newline : Option Nat} :
    ∀ q ∈ (copyLine mem reads begin len newline lineSize).reads,
      q ∈ reads ∨ begin ≤ q ∧ q < begin + len := by
  intro q member
  rw [copyLine] at member
  split at member
  · exact .inl member
  · rcases List.mem_append.mp member with earlier | copied
    · exact .inl earlier
    · exact .inr (List.mem_range'_1.mp copied)

theorem mem_copyLine_reads {reads : List Nat} {len q : Nat} {newline : Option Nat}
    (member : q ∈ reads) : q ∈ (copyLine mem reads begin len newline lineSize).reads := by
  rw [copyLine]
  split
  · exact member
  · exact List.mem_append_left _ member

/-- What is written fits, if the line has room for the empty string. -/
theorem copyLine_writes {reads : List Nat} {len : Nat} {newline : Option Nat}
    (room : 1 ≤ lineSize) :
    ∀ i ∈ (copyLine mem reads begin len newline lineSize).writes, (i : Int) < lineSize := by
  intro i member
  rw [copyLine] at member
  split at member
  · obtain rfl := List.mem_singleton.mp member
    omega
  · rcases List.mem_cons.mp member with rfl | copied
    · omega
    · rcases List.mem_append.mp copied with earlier | last
      · have bound := List.mem_range.mp earlier
        omega
      · obtain rfl := List.mem_singleton.mp last
        omega

theorem zero_mem_writes (mem : Nat → UInt8) (begin end_ : Nat) (lineSize : Int) :
    0 ∈ (readLine mem (some begin) end_ lineSize).writes := by
  have copied (reads : List Nat) (begin len : Nat) (newline : Option Nat) :
      0 ∈ (copyLine mem reads begin len newline lineSize).writes := by
    rw [copyLine]
    split
    · exact List.mem_cons_self
    · exact List.mem_cons_self
  rw [readLine]
  split
  · exact List.mem_cons_self
  · dsimp only
    split
    · exact copied ..
    · exact copied ..

theorem copyLine_newline {reads : List Nat} {len p : Nat} {newline : Option Nat}
    (returned : p ∈ (copyLine mem reads begin len newline lineSize).newline) : p ∈ newline := by
  rw [copyLine] at returned
  split at returned
  · cases returned
  · exact returned

/-- What is returned is behind where the line began, and in the buffer. -/
theorem readLine_newline {p : Nat} (inside : begin < end_)
    (returned : p ∈ (readLine mem (some begin) end_ lineSize).newline) : begin < p ∧ p < end_ := by
  rcases readLine_cases mem lineSize inside with
    ⟨crlf, reads, low, high, -, -, -, same⟩ | ⟨-, reads, -, same⟩
  · rw [same] at returned
    have next := copyLine_newline returned
    split at next
    · cases next
    · obtain rfl := Option.some.inj next
      omega
  · rw [same] at returned
    cases copyLine_newline returned

theorem readLine_behind (behind : end_ ≤ begin) :
    readLine mem (some begin) end_ lineSize = ⟨[], [0], [0], none⟩ := if_pos behind

/-! ## The line -/

/-- The bytes of a buffer. -/
def bufferAt (mem : Nat → UInt8) (begin end_ : Nat) : List UInt8 :=
  (List.range' begin (end_ - begin)).map mem

theorem mem_bufferAt {c : UInt8} (member : c ∈ bufferAt mem begin end_) :
    ∃ p, begin ≤ p ∧ p < end_ ∧ mem p = c := by
  obtain ⟨p, inside, value⟩ := List.mem_map.mp member
  have bounds := List.mem_range'_1.mp inside
  exact ⟨p, bounds.1, by omega, value⟩

theorem bufferAt_split {p : Nat} (low : begin ≤ p) (high : p < end_) :
    bufferAt mem begin end_ = bufferAt mem begin p ++ mem p :: bufferAt mem (p + 1) end_ := by
  have lengths : end_ - begin = p - begin + (end_ - (p + 1) + 1) := by omega
  have middle : begin + (p - begin) = p := by omega
  have split : List.range' begin (end_ - begin) =
      List.range' begin (p - begin) ++ List.range' p (end_ - (p + 1) + 1) := by
    rw [lengths, ← List.range'_append_1, middle]
  rw [bufferAt, split, List.map_append, List.range'_succ, List.map_cons]
  rfl

theorem ofBuffer_terminated (buffer : List UInt8) :
    CString.CStr.ofBuffer (buffer ++ [0]) = CString.CStr.ofBuffer buffer := by
  apply CString.CStr.bytes_injective
  induction buffer with
  | nil => rfl
  | cons c rest ih =>
      simp only [CString.CStr.ofBuffer, List.cons_append, List.takeWhile_cons] at ih ⊢
      split
      · rw [ih]
      · rfl

theorem copyLine_eq (mem : Nat → UInt8) (reads : List Nat) (begin len : Nat)
    (newline : Option Nat) (lineSize end_ : Nat) :
    ((CString.CStr.ofBuffer (copyLine mem reads begin len newline lineSize).line).bytes,
        (copyLine mem reads begin len newline lineSize).newline.map fun p => bufferAt mem p end_) =
      endLine lineSize ((List.range' begin len).map mem)
        (newline.map fun p => bufferAt mem p end_) := by
  rw [copyLine, endLine, List.length_map, List.length_range']
  by_cases long : lineSize ≤ len
  · rw [if_pos (Int.ofNat_le.mpr long), if_pos long]
    rfl
  · rw [if_neg (fun over_ => long (Int.ofNat_le.mp over_)), if_neg long, ofBuffer_terminated]

/-- A rest without a line end. -/
theorem partReadLine_plain (past : UInt8) {rest : List UInt8} (lineSize : Nat) (some_ : rest ≠ [])
    (plain : ∀ c ∈ rest, c ≠ partCrlf) :
    partReadLine past (some rest) lineSize =
      if past = partCrlf then endLine lineSize rest none
      else endLine lineSize (rest ++ [past]) none := by
  have none_ : rest.dropWhile (fun byte => byte ≠ partCrlf) = [] :=
    List.dropWhile_eq_nil_iff.mpr fun c member => decide_eq_true (plain c member)
  obtain ⟨c, tail, rfl⟩ := List.exists_cons_of_ne_nil some_
  simp only [partReadLine, none_]

/-- The line that is found, and what is left behind it. -/
theorem readLine_eq (mem : Nat → UInt8) (begin end_ lineSize : Nat) :
    partReadLine (mem end_) (some (bufferAt mem begin end_)) lineSize =
      ((CString.CStr.ofBuffer (readLine mem (some begin) end_ lineSize).line).bytes,
        (readLine mem (some begin) end_ lineSize).newline.map fun p => bufferAt mem p end_) := by
  rcases Nat.lt_or_ge begin end_ with inside | behind
  · rcases readLine_cases mem lineSize inside with
      ⟨p, reads, low, high, crlf, first, -, same⟩ | ⟨none_, reads, -, same⟩
    · have plain : partCrlf ∉ bufferAt mem begin p := by
        intro member
        obtain ⟨q, above, below, isCrlf⟩ := mem_bufferAt member
        exact first q above below isCrlf
      rw [same, copyLine_eq, bufferAt_split low high, crlf, partReadLine_crlf _ _ _ plain]
      by_cases last : end_ ≤ p + 1
      · have none_ : bufferAt mem (p + 1) end_ = [] := by
          rw [bufferAt, Nat.sub_eq_zero_of_le last]
          rfl
        rw [none_, if_pos last]
        rfl
      · rw [if_neg last, bufferAt_split (Nat.le_refl _) (Nat.lt_of_not_le last),
          List.isEmpty_eq_false_iff.mpr (by simp)]
        exact congrArg (endLine lineSize _)
          (congrArg some (bufferAt_split (Nat.le_refl _) (Nat.lt_of_not_le last)).symm)
    · have plain : ∀ c ∈ bufferAt mem begin end_, c ≠ partCrlf := by
        intro c member
        obtain ⟨q, above, below, rfl⟩ := mem_bufferAt member
        exact none_ q above below
      have some_ : bufferAt mem begin end_ ≠ [] := by
        rw [bufferAt_split (Nat.le_refl _) inside]
        exact List.append_ne_nil_of_right_ne_nil _ (List.cons_ne_nil _ _)
      have past : (List.range' begin (end_ - begin + 1)).map mem =
          bufferAt mem begin end_ ++ [mem end_] := by
        have reached : begin + (end_ - begin) = end_ := by omega
        rw [List.range'_1_concat, List.map_append, reached]
        rfl
      rw [same, copyLine_eq, partReadLine_plain _ _ some_ plain]
      split
      · rfl
      · rw [past]
        rfl
  · have none_ : bufferAt mem begin end_ = [] := by
      rw [bufferAt, Nat.sub_eq_zero_of_le behind]
      rfl
    rw [none_, readLine_behind behind]
    rfl

/-! ## The loop -/

theorem readNext_none (mem : Nat → UInt8) (end_ : Nat) (lineSize : Int) :
    readNext mem end_ lineSize none = none := by
  rw [readNext, readLine]
  exact if_neg (by simp)

/-- Every round begins behind the one before, so the loop ends. -/
theorem readLoop_ends (mem : Nat → UInt8) (begin end_ : Nat) (lineSize : Int) :
    ∃ rounds, readLoop mem end_ lineSize rounds (some begin) = none := by
  obtain ⟨left, isLeft⟩ : ∃ left, left = end_ - begin := ⟨_, rfl⟩
  induction left using Nat.strong_induction_on generalizing begin with
  | _ left ih =>
      cases went : readNext mem end_ lineSize (some begin) with
      | none =>
          refine ⟨1, ?_⟩
          rw [readLoop, went]
          rfl
      | some next =>
          cases next with
          | none =>
              refine ⟨2, ?_⟩
              rw [readLoop, went, Option.bind_some, readLoop, readNext_none]
              rfl
          | some next =>
              have returned : next ∈ (readLine mem (some begin) end_ lineSize).newline := by
                rw [readNext] at went
                split at went
                · exact Option.some.inj went
                · cases went
              have inside : begin < end_ := by
                by_contra behind
                rw [readLine_behind (Nat.le_of_not_lt behind)] at returned
                cases returned
              have bounds := readLine_newline inside returned
              obtain ⟨rounds, ended⟩ := ih (end_ - next) (by omega) next rfl
              refine ⟨rounds + 1, ?_⟩
              rw [readLoop, went]
              exact ended

/-- Whatever the memory, the buffer and the size of the line, a call is as it should be exactly if
the line has room for a character, and the buffer is empty or has a line end. -/
theorem readsLine_iff (mem : Nat → UInt8) (begin end_ : Nat) (lineSize : Int) :
    ReadsLine mem begin end_ lineSize ↔ 1 ≤ lineSize ∧
      (end_ ≤ begin ∨ ∃ p, begin ≤ p ∧ p < end_ ∧ mem p = partCrlf) := by
  constructor
  · intro reads
    refine ⟨?_, ?_⟩
    · have first := reads.writes 0 (zero_mem_writes ..)
      omega
    · rcases Nat.lt_or_ge begin end_ with inside | behind
      · right
        rcases readLine_cases mem lineSize inside with
          ⟨p, _, low, high, found, -⟩ | ⟨-, touched, member, same⟩
        · exact ⟨p, low, high, found⟩
        · have bounds := reads.reads end_ (by rw [same]; exact mem_copyLine_reads member)
          omega
      · exact .inl behind
  · rintro ⟨room, found⟩
    rcases Nat.lt_or_ge begin end_ with inside | behind
    · rcases readLine_cases mem lineSize inside with
        ⟨p, touched, low, high, -, -, bounds, same⟩ | ⟨none_, -⟩
      · refine ⟨?_, ?_, fun q returned => readLine_newline inside returned,
          readLoop_ends mem begin end_ lineSize⟩
        · rw [same]
          intro q member
          rcases copyLine_reads q member with earlier | copied
          · exact bounds q earlier
          · omega
        · rw [same]
          exact copyLine_writes room
      · obtain behind | ⟨p, low, high, crlf⟩ := found
        · omega
        · exact absurd crlf (none_ p low high)
    · have call := @readLine_behind mem begin end_ lineSize behind
      refine ⟨?_, ?_, ?_, readLoop_ends mem begin end_ lineSize⟩
      · rw [call]
        exact fun q member => absurd member List.not_mem_nil
      · rw [call]
        intro i member
        obtain rfl := List.mem_singleton.mp member
        exact room
      · rw [call]
        exact fun q returned => nomatch returned

/-- The byte behind a buffer without a line end is read. -/
theorem not_readsLine_plain : ¬ ReadsLine (fun _ => CString.ascii 'a') 0 4 1023 := by
  intro reads
  have inside := reads.reads 4 (by decide)
  omega

end Trunk.Partool
