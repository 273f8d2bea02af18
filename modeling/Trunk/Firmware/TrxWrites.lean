import Trunk.Firmware.Trx

/-! # The writes of TRX options

An option of `trx` makes some writes, and goes on in the buffer or ends the program. It leaves the
buffer exactly if one of its writes does (`Trunk.Firmware.Trx.step_spec`,
`Trunk.Firmware.Trx.options_inside_iff`), and what the options leave behind is what their writes do
(`Trunk.Firmware.Trx.ran_of_options`). As long as the position does not wrap around, it only goes on,
and nothing is written in front of the table of the header.
-/

namespace Trunk.Firmware.Trx

open Memory Mtd.Trx Network Writes

variable {width : Nat} {order : ByteOrder} {s s' : State} {opt : Opt width}
  {opts front back : List (Opt width)}

/-! ## What an option writes -/

/-- How many bytes are missing to a multiple of four. -/
def padding4 (n : Nat) : Nat := if n % 4 ≠ 0 then 4 - n % 4 else 0

/-- The first version of the header, no mark of the file system, and no way back. -/
def Opt.Plain : Opt width → Prop
  | .version2 => False
  | .fsmark _ => False
  | .relative (some number) => 0 ≤ number
  | _ => True

/-- The file that an option adds. -/
def Opt.content : Opt width → Option (List UInt8)
  | .file (.stream content _) => some content
  | .append (.stream content _) => some content
  | _ => none

/-- An option whose file has an entry in the header. -/
def Opt.isFile : Opt width → Bool
  | .file _ => true
  | _ => false

/-- The zeros of an option that goes on in the buffer. -/
def Opt.fill (s : State) : Opt width → Nat
  | .align (some number) =>
      if misaligned width s number ≠ 0 then
        (number + 2 ^ width - misaligned width s number) % 2 ^ width
      else 0
  | .absolute (some number) => number - s.curLen.toNat
  | .relative (some number) => number.toNat
  | _ => 0

/-- The writes of a file, and of the bytes behind it. -/
def Input.writes (width : Nat) (s : State) : Input → List (Write UInt8)
  | .missing => []
  | .stream content ends =>
      ⟨s.curLen.toNat, content.take (room width s)⟩ ::
        if ends ∧ content.length < room width s then
          [⟨s.curLen.toNat + content.length, List.replicate (padding4 content.length) 0⟩]
        else []

/-- The entry of a file in the header. -/
def entry (s : State) : Write UInt8 := ⟨16 + 4 * s.files, littleEndian s.curLen⟩

/-- The writes of an option. -/
def Opt.writes (s : State) : Opt width → List (Write UInt8)
  | .fsmark input => input.writes width s
  | .append input => input.writes width s
  | .file input => entry s :: input.writes width s
  | opt => [⟨s.curLen.toNat, List.replicate (opt.fill s) 0⟩]

/-- How far an option goes on. -/
def Opt.advance (s : State) (opt : Opt width) : Nat :=
  (opt.content.map fun content => content.length + padding4 content.length).getD (opt.fill s)

/-- The memory that is new. -/
def Opt.fresh (s : State) : Opt width → List (Write UInt8)
  | .maxlen (some number) (some fresh) =>
      [⟨s.buf.length,
        (List.range' s.buf.length (roundMaxlen width number - s.buf.length)).map fresh⟩]
  | _ => []

/-- What a step leaves behind that is done. -/
structure Follows (s : State) (opt : Opt width) (s' : State) : Prop where
  cells : ∀ index < s'.buf.length,
    s'.buf[index]? = (last (opt.writes s ++ opt.fresh s) index).or s.buf[index]?
  size : 4096 ≤ s.buf.length → 4096 ≤ s'.buf.length
  version : s'.version = s.version
  fsmark : s'.fsmark = s.fsmark
  curLen : s'.curLen = s.curLen + UInt32.ofNat (opt.advance s)
  files : s'.files = s.files + if opt.isFile then 1 else 0
  data : ∀ content, opt.content = some content → ∃ first,
    opt.writes s = first ++ [⟨s.curLen.toNat, content⟩,
      ⟨s.curLen.toNat + content.length, List.replicate (padding4 content.length) 0⟩]

theorem write_some {place : Nat} {content buf : List UInt8}
    (done : put s.buf ⟨place, content⟩ = some buf) : write s place content = .ok { s with buf } := by
  rw [write, done]

theorem write_none {place : Nat} {content : List UInt8} (none : put s.buf ⟨place, content⟩ = none) :
    write s place content = .error .outside := by
  rw [write, none]

theorem setField_eq (place : Nat) (value : UInt32) :
    setField order s place value = write s place (littleEndian value) := by
  rw [setField, memory_store32Le]

/-- The bytes behind a file are cleared. -/
theorem putAll_padding (buf : List UInt8) (place n : Nat) :
    putAll buf [⟨place, List.replicate (padding4 n) 0⟩] =
      if n % 4 ≠ 0 then put buf ⟨place, List.replicate (4 - n % 4) 0⟩ else some buf := by
  unfold padding4
  split
  · rw [putAll_cons]
    cases put buf ⟨place, List.replicate (4 - n % 4) 0⟩ with
    | none => rfl
    | some next => rfl
  · rfl

/-- The end of a file is met, with room behind it. -/
def Input.Accepted (width : Nat) (s : State) : Input → Prop
  | .missing => False
  | .stream content ends => ends = true ∧ content.length < room width s

theorem writes_accepted {content : List UInt8} {ends : Bool}
    (accepted : (Input.stream content ends).Accepted width s) :
    (Input.stream content ends).writes width s = [⟨s.curLen.toNat, content⟩,
      ⟨s.curLen.toNat + content.length, List.replicate (padding4 content.length) 0⟩] := by
  obtain ⟨open', room⟩ := accepted
  rw [Input.writes, if_pos ⟨open', room⟩, List.take_of_length_le (Nat.le_of_lt room)]

theorem writes_refused {content : List UInt8} {ends : Bool}
    (refused : ¬ (Input.stream content ends).Accepted width s) :
    (Input.stream content ends).writes width s =
      [⟨s.curLen.toNat, content.take (room width s)⟩] := by
  have other : ¬ (ends = true ∧ content.length < room width s) := refused
  rw [Input.writes, if_neg other]

theorem readFile_accepted {content : List UInt8} {ends : Bool}
    (accepted : (Input.stream content ends).Accepted width s) {middle : List UInt8}
    (data : put s.buf ⟨s.curLen.toNat, content⟩ = some middle) :
    readFile width s (.stream content ends) =
      if content.length % 4 ≠ 0 then
        (write { s with buf := middle } (s.curLen.toNat + content.length)
          (List.replicate (4 - content.length % 4) 0)).map fun s' => { s' with
            curLen := s.curLen + UInt32.ofNat (content.length + (4 - content.length % 4))
            opened := true }
      else .ok { s with
        buf := middle
        curLen := s.curLen + UInt32.ofNat content.length
        opened := true } := by
  have whole : content.take (room width s) = content :=
    List.take_of_length_le (Nat.le_of_lt accepted.2)
  have goes : ¬ (¬ ends = true ∨ room width s ≤ content.length) := by
    rintro (open' | full)
    · exact open' accepted.1
    · exact absurd accepted.2 (Nat.not_lt.mpr full)
  rw [readFile, whole, write_some data]
  change (if _ then _ else _) = _
  rw [if_neg goes]
  split
  · cases write { s with buf := middle } (s.curLen.toNat + content.length)
      (List.replicate (4 - content.length % 4) 0) with
    | error ended => rfl
    | ok s' => rfl
  · rfl

theorem readFile_refused {content : List UInt8} {ends : Bool}
    (refused : ¬ (Input.stream content ends).Accepted width s) {middle : List UInt8}
    (data : put s.buf ⟨s.curLen.toNat, content.take (room width s)⟩ = some middle) :
    readFile width s (.stream content ends) = .error .exit := by
  have stops : ¬ ends = true ∨ room width s ≤ content.length := by
    by_cases open' : ends = true
    · exact .inr (Nat.not_lt.mp fun room => refused ⟨open', room⟩)
    · exact .inl open'
  rw [readFile, write_some data]
  change (if _ then _ else _) = _
  rw [if_pos stops]

/-- A file is read by its writes: with one outside, not to its end, or whole. -/
theorem readFile_spec (s : State) (input : Input) :
    (putAll s.buf (input.writes width s) = none → readFile width s input = .error .outside) ∧
    ∀ buf, putAll s.buf (input.writes width s) = some buf →
      readFile width s input = .error .exit ∨
      ∃ content ends, input = .stream content ends ∧
        input.writes width s = [⟨s.curLen.toNat, content⟩,
          ⟨s.curLen.toNat + content.length, List.replicate (padding4 content.length) 0⟩] ∧
        readFile width s input = .ok { s with
          buf
          curLen := s.curLen + UInt32.ofNat (content.length + padding4 content.length)
          opened := true } := by
  cases input with
  | missing =>
      constructor
      · intro none
        cases none
      · intro buf _
        exact .inl rfl
  | stream content ends =>
      by_cases accepted : (Input.stream content ends).Accepted width s
      · have whole : content.take (room width s) = content :=
          List.take_of_length_le (Nat.le_of_lt accepted.2)
        rw [writes_accepted accepted, putAll_cons]
        cases data : put s.buf ⟨s.curLen.toNat, content⟩ with
        | none =>
            constructor
            · intro _
              rw [readFile, whole, write_none data]
              rfl
            · intro buf done
              cases done
        | some middle =>
            have size := put_length data
            rw [Option.bind_some, putAll_padding, readFile_accepted accepted data]
            by_cases rest : content.length % 4 ≠ 0
            · rw [if_pos rest, if_pos rest]
              have missing : padding4 content.length = 4 - content.length % 4 := if_pos rest
              constructor
              · intro none
                rw [write_none none]
                rfl
              · intro buf done
                refine .inr ⟨content, ends, rfl, rfl, ?_⟩
                rw [write_some done, missing]
                rfl
            · rw [if_neg rest, if_neg rest]
              have missing : padding4 content.length = 0 := if_neg rest
              constructor
              · intro none
                cases none
              · intro buf done
                obtain rfl := Option.some.inj done
                refine .inr ⟨content, ends, rfl, rfl, ?_⟩
                rw [missing, Nat.add_zero]
      · rw [writes_refused accepted, putAll_cons]
        cases data : put s.buf ⟨s.curLen.toNat, content.take (room width s)⟩ with
        | none =>
            constructor
            · intro _
              rw [readFile, write_none data]
              rfl
            · intro buf done
              cases done
        | some middle =>
            constructor
            · intro none
              cases none
            · intro buf _
              exact .inl (readFile_refused accepted data)

theorem Input.writes_congr (input : Input) (size : s'.buf.length = s.buf.length)
    (curLen : s'.curLen = s.curLen) : input.writes width s' = input.writes width s := by
  cases input with
  | missing => rfl
  | stream content ends =>
      have same : room width s' = room width s := by rw [room, room, size, curLen]
      rw [Input.writes, Input.writes, same, curLen]

/-- The writes are in the buffer, and nothing is behind them. -/
theorem cells_of_putAll {writes : List (Write UInt8)} {buf : List UInt8}
    (done : putAll s.buf writes = some buf) : ∀ index < buf.length,
      buf[index]? = (last (writes ++ []) index).or s.buf[index]? := by
  intro index _
  rw [List.append_nil, getElem?_putAll done]

theorem size_of_putAll {writes : List (Write UInt8)} {buf : List UInt8}
    (done : putAll s.buf writes = some buf) (size : 4096 ≤ s.buf.length) : 4096 ≤ buf.length := by
  rw [putAll_length done]
  exact size

theorem follows_append {content buf : List UInt8} {ends : Bool}
    (done : putAll s.buf ((Input.stream content ends).writes width s) = some buf)
    (writes : (Input.stream content ends).writes width s = [⟨s.curLen.toNat, content⟩,
      ⟨s.curLen.toNat + content.length, List.replicate (padding4 content.length) 0⟩]) :
    Follows s (.append (.stream content ends) : Opt width) { s with
      buf
      curLen := s.curLen + UInt32.ofNat (content.length + padding4 content.length)
      opened := true } where
  cells := cells_of_putAll done
  size := size_of_putAll done
  version := rfl
  fsmark := rfl
  curLen := rfl
  files := rfl
  data other same := by
    obtain rfl := Option.some.inj same
    exact ⟨[], writes⟩

theorem follows_file {content buf : List UInt8} {ends : Bool}
    (done : putAll s.buf (entry s :: (Input.stream content ends).writes width s) = some buf)
    (writes : (Input.stream content ends).writes width s = [⟨s.curLen.toNat, content⟩,
      ⟨s.curLen.toNat + content.length, List.replicate (padding4 content.length) 0⟩]) :
    Follows s (.file (.stream content ends) : Opt width) { s with
      buf
      curLen := s.curLen + UInt32.ofNat (content.length + padding4 content.length)
      files := s.files + 1
      opened := true } where
  cells := cells_of_putAll done
  size := size_of_putAll done
  version := rfl
  fsmark := rfl
  curLen := rfl
  files := rfl
  data other same := by
    obtain rfl := Option.some.inj same
    exact ⟨[entry s], congrArg (List.cons (entry s)) writes⟩

/-- The zeros of an option that goes on. -/
theorem putAll_fill (s : State) (n : Nat) :
    putAll s.buf [⟨s.curLen.toNat, List.replicate n 0⟩] =
      put s.buf ⟨s.curLen.toNat, List.replicate n 0⟩ := by
  rw [putAll_cons]
  cases put s.buf ⟨s.curLen.toNat, List.replicate n 0⟩ with
  | none => rfl
  | some next => rfl

/-- A step is outside the buffer if one of its writes is. Otherwise it ends the program, or the next
state follows. -/
def Specified (order : ByteOrder) (s : State) (opt : Opt width) : Prop :=
  (putAll s.buf (opt.writes s) = none → step order s opt = .error .outside) ∧
    ∀ buf, putAll s.buf (opt.writes s) = some buf →
      step order s opt = .error .exit ∨ ∃ s', step order s opt = .ok s' ∧ Follows s opt s'

theorem specified_append (s : State) (input : Input) :
    Specified order s (.append input : Opt width) := by
  obtain ⟨outside, inside⟩ := @readFile_spec width s input
  refine ⟨outside, fun buf done => ?_⟩
  rcases inside buf done with exit | ⟨content, ends, rfl, writes, read⟩
  · exact .inl exit
  · exact .inr ⟨_, read, follows_append done writes⟩

theorem specified_file (s : State) (input : Input) :
    Specified order s (.file input : Opt width) := by
  unfold Specified
  rw [step, setField_eq, Opt.writes, putAll_cons]
  cases field : put s.buf (entry s) with
  | none =>
      constructor
      · intro _
        rw [write_none field]
        rfl
      · intro buf done
        cases done
  | some middle =>
      rw [Option.bind_some, write_some field]
      obtain ⟨outside, inside⟩ := @readFile_spec width
        { s with buf := middle, files := s.files + 1 } input
      have same := @Input.writes_congr width s { s with buf := middle, files := s.files + 1 } input
        (put_length field) rfl
      rw [same] at outside inside
      refine ⟨outside, fun buf done => ?_⟩
      rcases inside buf done with exit | ⟨content, ends, rfl, writes, read⟩
      · exact .inl exit
      · refine .inr ⟨_, read, follows_file ?_ writes⟩
        rw [putAll_cons, field]
        exact done

/-- An option that adds no file and finds no memory. -/
structure Opt.Quiet (s : State) (opt : Opt width) : Prop where
  content : opt.content = none
  fresh : opt.fresh s = []
  isFile : opt.isFile = false
  writes : opt.writes s = [⟨s.curLen.toNat, List.replicate (opt.fill s) 0⟩]

theorem Opt.Quiet.advance (quiet : opt.Quiet s) : opt.advance s = opt.fill s := by
  rw [Opt.advance, quiet.content]
  rfl

theorem specified_clear (quiet : opt.Quiet s) (stepped : step order s opt = clear s (opt.fill s)) :
    Specified order s opt := by
  unfold Specified
  rw [quiet.writes, putAll_fill, stepped, clear]
  constructor
  · intro none
    rw [write_none none]
    rfl
  · intro buf done
    rw [write_some done]
    refine .inr ⟨_, rfl, ?_⟩
    have all : putAll s.buf (opt.writes s) = some buf := by
      rw [quiet.writes, putAll_fill]
      exact done
    exact {
      cells := by
        rw [quiet.fresh]
        exact cells_of_putAll all
      size := size_of_putAll all
      version := rfl
      fsmark := rfl
      curLen := by rw [quiet.advance]
      files := by
        rw [quiet.isFile]
        rfl
      data := by
        intro content same
        rw [quiet.content] at same
        cases same }

/-- Where there is nothing to clear, clearing changes nothing. -/
theorem clear_zero (s : State) : clear s 0 = .ok s := by
  have none : s.curLen + UInt32.ofNat 0 = s.curLen := UInt32.add_zero _
  have same : clear s 0 = .ok { s with curLen := s.curLen + UInt32.ofNat 0 } := rfl
  rw [same, none]

theorem specified_ok (quiet : opt.Quiet s) (none : opt.fill s = 0)
    (stepped : step order s opt = .ok s) : Specified order s opt := by
  refine specified_clear quiet ?_
  rw [none, clear_zero, stepped]

theorem specified_exit (quiet : opt.Quiet s) (none : opt.fill s = 0)
    (stepped : step order s opt = .error .exit) : Specified order s opt := by
  unfold Specified
  rw [quiet.writes, putAll_fill, none, stepped]
  constructor
  · intro outside
    cases outside
  · intro buf _
    exact .inl rfl

theorem specified_align (s : State) (number : Fin (2 ^ width)) :
    Specified order s (.align (some number)) := by
  have quiet : (Opt.align (some number)).Quiet s := ⟨rfl, rfl, rfl, rfl⟩
  by_cases off : misaligned width s number ≠ 0
  · refine specified_clear quiet ?_
    rw [step, if_pos off, Opt.fill, if_pos off]
  · refine specified_ok quiet ?_ ?_
    · rw [Opt.fill, if_neg off]
    · rw [step, if_neg off]

theorem specified_absolute (s : State) (number : Fin (2 ^ width)) :
    Specified order s (.absolute (some number)) := by
  have quiet : (Opt.absolute (some number)).Quiet s := ⟨rfl, rfl, rfl, rfl⟩
  by_cases before : number < s.curLen.toNat
  · refine specified_ok quiet (Nat.sub_eq_zero_of_le (Nat.le_of_lt before)) ?_
    rw [step, if_pos before]
  · have sum : s.curLen + UInt32.ofNat (number - s.curLen.toNat) = UInt32.ofNat number := by
      have parts : s.curLen.toNat + (number - s.curLen.toNat) = number :=
        Nat.add_sub_cancel' (Nat.le_of_not_lt before)
      have whole := UInt32.ofNat_add s.curLen.toNat (number - s.curLen.toNat)
      rw [parts, UInt32.ofNat_toNat] at whole
      exact whole.symm
    refine specified_clear quiet ?_
    rw [step, if_neg before, clear, Opt.fill]
    cases done : put s.buf ⟨s.curLen.toNat, List.replicate (number - s.curLen.toNat) 0⟩ with
    | none =>
        rw [write_none done]
        rfl
    | some buf =>
        rw [write_some done]
        exact congrArg (fun curLen => Except.ok { s with buf, curLen }) sum.symm

theorem specified_relative (s : State) {number : Int} (forward : 0 ≤ number) :
    Specified order s (.relative (some number) : Opt width) := by
  have quiet : (Opt.relative (some number) : Opt width).Quiet s := ⟨rfl, rfl, rfl, rfl⟩
  refine specified_clear quiet ?_
  rw [step, if_neg (Int.not_lt.mpr forward), Opt.fill]

theorem getElem?_realloc (buf : List UInt8) (maxlen : Nat) (fresh : Nat → UInt8) {index : Nat}
    (inside : index < (realloc buf maxlen fresh).length) :
    (realloc buf maxlen fresh)[index]? =
      (Write.cell ⟨buf.length, (List.range' buf.length (maxlen - buf.length)).map fresh⟩ index).or
        buf[index]? := by
  have size : (buf.take maxlen).length = min maxlen buf.length := List.length_take
  rw [realloc, List.length_append, size, List.length_map, List.length_range'] at inside
  rw [realloc, Write.cell]
  dsimp only
  by_cases old : index < buf.length
  · rw [if_neg (by omega), Option.none_or, List.getElem?_append_left (by omega),
      List.getElem?_take_of_lt (by omega)]
  · have there : index - buf.length <
        ((List.range' buf.length (maxlen - buf.length)).map fresh).length := by
      rw [List.length_map, List.length_range']
      omega
    have front : (buf.take maxlen).length = buf.length := by omega
    rw [if_pos (by omega), List.getElem?_append_right (by omega), front,
      List.getElem?_eq_getElem there, Option.some_or]

theorem specified_maxlen (s : State) (number : Fin (2 ^ width)) (fresh : Nat → UInt8) :
    Specified order s (.maxlen (some number) (some fresh)) := by
  unfold Specified
  have nothing : (Opt.maxlen (some number) (some fresh)).writes s =
      [⟨s.curLen.toNat, List.replicate 0 0⟩] := rfl
  rw [nothing, putAll_fill]
  constructor
  · intro outside
    cases outside
  · intro buf _
    rw [step]
    by_cases small : roundMaxlen width number < 0x1000
    · rw [if_pos small]
      exact .inl rfl
    · rw [if_neg small]
      refine .inr ⟨_, rfl, ?_⟩
      exact {
        cells := by
          intro index inside
          have cell := getElem?_realloc s.buf (roundMaxlen width number) fresh inside
          have silent : Write.cell ⟨s.curLen.toNat, List.replicate 0 (0 : UInt8)⟩ index = none :=
            Write.cell_eq_none_iff.mpr (Nat.lt_or_ge _ _)
          rw [nothing, Opt.fresh, last_append, last_cons, last_nil, last_cons, last_nil, silent,
            Option.none_or, Option.none_or, Option.or_none]
          exact cell
        size := by
          intro _
          have new : (List.range' s.buf.length (roundMaxlen width number - s.buf.length)).length =
            roundMaxlen width number - s.buf.length := List.length_range'
          rw [realloc, List.length_append, List.length_take, List.length_map, new]
          omega
        version := rfl
        fsmark := rfl
        curLen := (UInt32.add_zero _).symm
        files := rfl
        data := by
          intro content same
          cases same }

/-- What a step does. -/
theorem step_spec (plain : opt.Plain) (s : State) : Specified order s opt := by
  cases opt with
  | version2 => exact plain.elim
  | fsmark input => exact plain.elim
  | append input => exact specified_append s input
  | file input => exact specified_file s input
  | outfile opens =>
      cases opens with
      | false => exact specified_exit ⟨rfl, rfl, rfl, rfl⟩ rfl rfl
      | true => exact specified_ok ⟨rfl, rfl, rfl, rfl⟩ rfl rfl
  | maxlen number fresh =>
      cases number with
      | none => exact specified_exit ⟨rfl, rfl, rfl, rfl⟩ rfl rfl
      | some number =>
          cases fresh with
          | none => exact specified_exit ⟨rfl, rfl, rfl, rfl⟩ rfl rfl
          | some fresh => exact specified_maxlen s number fresh
  | align number =>
      cases number with
      | none => exact specified_exit ⟨rfl, rfl, rfl, rfl⟩ rfl rfl
      | some number => exact specified_align s number
  | absolute number =>
      cases number with
      | none => exact specified_exit ⟨rfl, rfl, rfl, rfl⟩ rfl rfl
      | some number => exact specified_absolute s number
  | relative number =>
      cases number with
      | none => exact specified_exit ⟨rfl, rfl, rfl, rfl⟩ rfl rfl
      | some number => exact specified_relative s plain
  | unknown => exact specified_exit ⟨rfl, rfl, rfl, rfl⟩ rfl rfl

theorem putAll_eq_none_iff {buf : List UInt8} {writes : List (Write UInt8)} :
    putAll buf writes = none ↔ ¬ ∀ w ∈ writes, w.Within buf.length := by
  rw [← putAll_isSome_iff, Option.not_isSome_iff_eq_none]

theorem step_inside_iff (plain : opt.Plain) :
    step order s opt ≠ .error .outside ↔ ∀ w ∈ opt.writes s, w.Within s.buf.length := by
  obtain ⟨outside, inside⟩ := @step_spec _ order _ plain s
  constructor
  · intro stays
    by_contra leaves
    exact stays (outside (putAll_eq_none_iff.mpr leaves))
  · intro within left
    obtain ⟨buf, done⟩ := Option.isSome_iff_exists.mp (putAll_isSome_iff.mpr within)
    rcases inside buf done with exit | ⟨s', stepped, -⟩
    · rw [exit] at left
      cases left
    · rw [stepped] at left
      cases left

theorem follows_of_step (plain : opt.Plain) (stepped : step order s opt = .ok s') :
    Follows s opt s' := by
  obtain ⟨outside, inside⟩ := @step_spec _ order _ plain s
  cases done : putAll s.buf (opt.writes s) with
  | none =>
      rw [outside done] at stepped
      cases stepped
  | some buf =>
      rcases inside buf done with exit | ⟨other, stepped', follows⟩
      · rw [exit] at stepped
        cases stepped
      · rw [stepped] at stepped'
        obtain rfl := Except.ok.inj stepped'
        exact follows

/-! ## What the options write -/

/-- The writes of the options, as far as they are taken. -/
def later (order : ByteOrder) : State → List (Opt width) → List (Write UInt8)
  | _, [] => []
  | s, opt :: opts =>
      opt.writes s ++ opt.fresh s ++
        match step order s opt with
        | .ok s' => later order s' opts
        | .error _ => []

/-- Something holds of each option that is reached, in the state it is reached in. -/
def Each (order : ByteOrder) (P : State → Opt width → List (Opt width) → Prop) (s : State)
    (opts : List (Opt width)) : Prop :=
  ∀ front opt back s', opts = front ++ opt :: back → options order s front = .ok s' → P s' opt back

theorem options_cons (order : ByteOrder) (s : State) (opt : Opt width) (opts : List (Opt width)) :
    options order s (opt :: opts) = step order s opt >>= fun s' => options order s' opts :=
  List.foldlM_cons

theorem options_cons_eq_ok :
    options order s (opt :: opts) = .ok s' ↔
      ∃ next, step order s opt = .ok next ∧ options order next opts = .ok s' := by
  rw [options_cons]
  cases step order s opt with
  | error ended =>
      constructor
      · intro failed
        cases failed
      · rintro ⟨next, failed, -⟩
        cases failed
  | ok next =>
      constructor
      · intro done
        exact ⟨next, rfl, done⟩
      · rintro ⟨other, same, done⟩
        obtain rfl := Except.ok.inj same
        exact done

theorem each_nil (P : State → Opt width → List (Opt width) → Prop) : Each order P s [] := by
  intro front opt back s' split
  cases front <;> cases split

theorem each_cons {P : State → Opt width → List (Opt width) → Prop} :
    Each order P s (opt :: opts) ↔
      P s opt opts ∧ ∀ s', step order s opt = .ok s' → Each order P s' opts := by
  constructor
  · intro each
    refine ⟨each [] opt opts s rfl rfl, ?_⟩
    intro s' stepped front other back s'' split done
    refine each (opt :: front) other back s'' (congrArg (List.cons opt) split) ?_
    exact options_cons_eq_ok.mpr ⟨s', stepped, done⟩
  · rintro ⟨first, rest⟩ front other back s'' split done
    cases front with
    | nil =>
        obtain ⟨rfl, rfl⟩ := List.cons.inj split
        obtain rfl := Except.ok.inj done
        exact first
    | cons one front =>
        obtain ⟨rfl, split'⟩ := List.cons.inj split
        obtain ⟨s', stepped, done'⟩ := options_cons_eq_ok.mp done
        exact rest s' stepped front other back s'' split' done'

/-- The options stay in the buffer exactly if the writes of each of them do. -/
theorem options_inside_iff (plain : ∀ opt ∈ opts, opt.Plain) :
    options order s opts ≠ .error .outside ↔
      Each order (fun s opt _ => ∀ w ∈ opt.writes s, w.Within s.buf.length) s opts := by
  induction opts generalizing s with
  | nil =>
      constructor
      · intro _
        exact each_nil _
      · intro _ failed
        cases failed
  | cons opt opts ih =>
      have first := @step_inside_iff _ order s _ (plain opt (List.mem_cons_self ..))
      have rest : ∀ opt ∈ opts, opt.Plain := fun other member =>
        plain other (List.mem_cons_of_mem _ member)
      rw [each_cons, ← first, options_cons]
      cases step order s opt with
      | error ended =>
          constructor
          · intro stays
            refine ⟨fun same => stays ?_, fun s' failed => by cases failed⟩
            rw [same]
            rfl
          · rintro ⟨stays, -⟩ same
            exact stays same
      | ok s' =>
          constructor
          · intro stays
            constructor
            · intro failed
              cases failed
            · intro next same
              obtain rfl := Except.ok.inj same
              exact (ih rest).mp stays
          · rintro ⟨-, each⟩
            exact (ih rest).mpr (each s' rfl)

/-- What the options leave behind. -/
structure Ran (order : ByteOrder) (s : State) (opts : List (Opt width)) (s' : State) : Prop where
  cells : ∀ index < s'.buf.length,
    s'.buf[index]? = (last (later order s opts) index).or s.buf[index]?
  size : 4096 ≤ s.buf.length → 4096 ≤ s'.buf.length
  version : s'.version = s.version
  fsmark : s'.fsmark = s.fsmark
  files : s'.files = s.files + opts.countP Opt.isFile

theorem ran_of_options (plain : ∀ opt ∈ opts, opt.Plain) (done : options order s opts = .ok s') :
    Ran order s opts s' := by
  induction opts generalizing s with
  | nil =>
      obtain rfl := Except.ok.inj done
      exact {
        cells := by
          intro index _
          rw [later, last_nil, Option.none_or]
        size := fun size => size
        version := rfl
        fsmark := rfl
        files := rfl }
  | cons opt opts ih =>
      obtain ⟨next, stepped, rest⟩ := options_cons_eq_ok.mp done
      have follows := follows_of_step (plain opt (List.mem_cons_self ..)) stepped
      have ran := ih (fun other member => plain other (List.mem_cons_of_mem _ member)) rest
      exact {
        cells := by
          intro index inside
          rw [later, stepped, last_append]
          dsimp only
          have behind := ran.cells index inside
          -- a cell that the next buffer does not have is one of new memory
          by_cases there : index < next.buf.length
          · rw [behind, follows.cells index there, Option.or_assoc]
          · have beyond : next.buf[index]? = none := List.getElem?_eq_none (Nat.not_lt.mp there)
            rw [beyond, Option.or_none, List.getElem?_eq_getElem inside] at behind
            rw [List.getElem?_eq_getElem inside, ← behind, Option.some_or, Option.some_or]
        size := fun size => ran.size (follows.size size)
        version := ran.version.trans follows.version
        fsmark := ran.fsmark.trans follows.fsmark
        files := by
          rw [ran.files, follows.files, List.countP_cons]
          omega }

/-! ## Positions -/

/-- Where the position does not wrap around. -/
def Forward (order : ByteOrder) (s : State) (opts : List (Opt width)) : Prop :=
  Each order (fun s opt _ => ∀ s', step order s opt = .ok s' →
    s.curLen.toNat + opt.advance s < 2 ^ 32) s opts

theorem Follows.toNat_curLen (follows : Follows s opt s')
    (forward : s.curLen.toNat + opt.advance s < 2 ^ 32) :
    s'.curLen.toNat = s.curLen.toNat + opt.advance s := by
  rw [follows.curLen, UInt32.toNat_add, UInt32.toNat_ofNat', Nat.add_mod_mod]
  exact Nat.mod_eq_of_lt forward

theorem curLen_le (plain : ∀ opt ∈ opts, opt.Plain) (forward : Forward order s opts)
    (done : options order s opts = .ok s') : s.curLen.toNat ≤ s'.curLen.toNat := by
  induction opts generalizing s with
  | nil =>
      obtain rfl := Except.ok.inj done
      exact Nat.le_refl _
  | cons opt opts ih =>
      obtain ⟨next, stepped, rest⟩ := options_cons_eq_ok.mp done
      obtain ⟨first, others⟩ := each_cons.mp forward
      have follows := follows_of_step (plain opt (List.mem_cons_self ..)) stepped
      have position := follows.toNat_curLen (first next stepped)
      have behind := ih (fun other member => plain other (List.mem_cons_of_mem _ member))
        (others next stepped) rest
      omega

/-- Nothing is written in front of the table. -/
theorem places (plain : opt.Plain) (position : 16 ≤ s.curLen.toNat) (size : 4096 ≤ s.buf.length) :
    ∀ w ∈ opt.writes s ++ opt.fresh s, 16 ≤ w.place := by
  have file : ∀ input : Input, ∀ w ∈ input.writes width s, 16 ≤ w.place := by
    intro input w member
    cases input with
    | missing => cases member
    | stream content ends =>
        rw [Input.writes] at member
        rcases List.mem_cons.mp member with rfl | padding
        · exact position
        · split at padding
          · obtain rfl := List.mem_singleton.mp padding
            exact Nat.le_add_right_of_le position
          · cases padding
  have fill : ∀ w ∈ [(⟨s.curLen.toNat, List.replicate (opt.fill s) 0⟩ : Write UInt8)],
      16 ≤ w.place := by
    intro w member
    obtain rfl := List.mem_singleton.mp member
    exact position
  intro w member
  rcases List.mem_append.mp member with written | new
  · cases opt with
    | version2 => exact plain.elim
    | fsmark input => exact plain.elim
    | append input => exact file input w written
    | file input =>
        rcases List.mem_cons.mp written with rfl | rest
        · exact Nat.le_add_right 16 _
        · exact file input w rest
    | outfile opens => exact fill w written
    | maxlen number fresh => exact fill w written
    | align number => exact fill w written
    | absolute number => exact fill w written
    | relative number => exact fill w written
    | unknown => exact fill w written
  · unfold Opt.fresh at new
    split at new
    · obtain rfl := List.mem_singleton.mp new
      exact Nat.le_trans (by decide) size
    · cases new

theorem last_later_eq_none (plain : ∀ opt ∈ opts, opt.Plain) (forward : Forward order s opts)
    (position : 16 ≤ s.curLen.toNat) (size : 4096 ≤ s.buf.length) {index : Nat}
    (front : index < 16) : last (later order s opts) index = none := by
  induction opts generalizing s with
  | nil => rfl
  | cons opt opts ih =>
      have first := plain opt (List.mem_cons_self ..)
      have silent : last (opt.writes s ++ opt.fresh s) index = none := by
        refine last_eq_none fun w member => Write.cell_eq_none_iff.mpr (.inl ?_)
        exact Nat.lt_of_lt_of_le front (places first position size w member)
      rw [later, last_append, silent, Option.or_none]
      cases stepped : step order s opt with
      | error ended => rfl
      | ok next =>
          obtain ⟨here, others⟩ := each_cons.mp forward
          have follows := follows_of_step first stepped
          have moved := follows.toNat_curLen (here next stepped)
          exact ih (fun other member => plain other (List.mem_cons_of_mem _ member))
            (others next stepped) (by omega) (follows.size size)

end Trunk.Firmware.Trx
