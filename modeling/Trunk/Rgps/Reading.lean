import Trunk.Rgps.Erase
import Trunk.Rgps.Round

/-! # Reading a field

What a case of the switch makes of a text on its own (`Trunk.Rgps.fillAll`) is what the loop makes
of it up to the next comma, whether the case fills a buffer (`Trunk.Rgps.resume_fill`) or not
(`Trunk.Rgps.resume_pass`). Behind the last field that is read, the loop only looks for the
asterisk (`Trunk.Rgps.scanning_tail`).
-/

namespace Trunk.Rgps

open CString Provenance Provenance.Glyph Loop

variable {α : Type} [Glyph α]

/-- One character of a text is read into a buffer, and maybe one more. -/
def readRound (handler : Handler α) (state : UInt8 × List α × List α) :
    Except Fault (Round (UInt8 × List α × List α) (List α)) :=
  match state.2.1 with
  | [] => .ok (.done state.2.2)
  | _ :: _ => do
    let filled ← handler state.1 state.2.1 state.2.2
    return .again (filled.1 + 1, filled.2.1.tail, filled.2.2)

/-- A text is read into a buffer. -/
def fillAll (handler : Handler α) (bytes : UInt8) (text buffer : List α) :
    Except Fault (List α) :=
  loop (readRound handler) (fun state => state.2.1.length + 1) .read (bytes, text, buffer)

/-- A buffer before anything is read. -/
def blank (slot : Local) : List α := List.replicate slot.size (literal 0)

/-- The string that a field alone gives. -/
def readField (handler : Handler α) (slot : Local) (field : List α) : Except Fault (List α) := do
  cstring (← fillAll handler 0 field (blank slot))

omit [Glyph α] in
theorem shrinks_readRound {handler : Handler α} (fills : Fills handler) :
    Shrinks (readRound handler) (fun state => state.2.1.length + 1) Fault.read where
  smaller := by
    rintro ⟨bytes, text, buffer⟩ next done
    cases text with
    | nil => cases done
    | cons c text =>
        obtain ⟨filled, wrote, done⟩ := bind_eq_ok.mp done
        obtain rfl := Round.again.inj (Except.ok.inj done)
        have shorter := (fills _ _ _ _ _ wrote).suffix.length_le
        rw [List.length_cons] at shorter
        rw [List.length_tail, List.length_cons]
        omega
  empty := fun _ => nofun

omit [Glyph α] in
theorem fillAll_nil {handler : Handler α} (fills : Fills handler) (bytes : UInt8)
    (buffer : List α) : fillAll handler bytes [] buffer = .ok buffer :=
  loop_done (shrinks_readRound fills) rfl

omit [Glyph α] in
/-- A text is read character by character. -/
theorem fillAll_cons {handler : Handler α} (fills : Fills handler) (bytes : UInt8) (c : α)
    (text buffer : List α) :
    fillAll handler bytes (c :: text) buffer =
      handler bytes (c :: text) buffer >>= fun filled =>
        fillAll handler (filled.1 + 1) filled.2.1.tail filled.2.2 := by
  cases wrote : handler bytes (c :: text) buffer with
  | error fault =>
      refine loop_error (shrinks_readRound fills) ?_
      simp only [readRound, wrote]
      rfl
  | ok filled =>
      refine loop_again (shrinks_readRound fills) ?_
      simp only [readRound, wrote]
      rfl

/-- A text is read like its bytes. -/
theorem fillAll_erase {handler : Handler α} {onBytes : Handler UInt8} (same : Erases handler onBytes)
    (bytes : UInt8) (text buffer : List α) :
    fillAll onBytes bytes (erase text) (erase buffer) =
      (fillAll handler bytes text buffer).map erase := by
  refine @loop_map _ _ _ _ _ (readRound handler) (fun state => state.2.1.length + 1) .read
    (readRound onBytes) (fun state => state.2.1.length + 1)
    (fun state => (state.1, erase state.2.1, erase state.2.2)) erase ?_ ?_ (bytes, text, buffer)
  · exact fun state => congrArg (· + 1) (erase_length state.2.1)
  · rintro ⟨bytes, text, buffer⟩
    cases text with
    | nil => rfl
    | cons c text =>
        refine bind_erase (same bytes (c :: text) buffer) fun filled => ?_
        dsimp only [eraseFilled]
        rw [← erase_tail]
        rfl

/-- The loop from behind the test for a comma on. -/
def resume (scan : Scan α) : Except Fault (Gps α) :=
  match atCharacter scan with
  | .error fault => .error fault
  | .ok (.done gps) => .ok gps
  | .ok (.again next) => scanning next

theorem scanning_eq (scan : Scan α) :
    scanning scan = match round scan with
      | .error fault => .error fault
      | .ok (.done gps) => .ok gps
      | .ok (.again next) => scanning next := by
  rw [scanning, loop_eq shrinks_round scan]
  cases round scan with
  | error fault => rfl
  | ok outcome => cases outcome <;> rfl

/-- A comma opens the next segment. -/
theorem scanning_comma {scan : Scan α} {comma : α} {text : List α} (here : scan.buf = comma :: text)
    (delimiter : byte comma = ascii ',') : scanning scan = resume scan.comma := by
  have nonzero : byte comma ≠ 0 := by
    rw [delimiter]
    decide
  have opened : round scan = atCharacter scan.comma := by
    unfold round
    rw [here]
    change (if byte comma = 0 then _ else if byte comma = ascii ',' then _ else _) = _
    rw [if_neg nonzero, if_pos delimiter]
  rw [scanning_eq, opened]
  rfl

/-- A character that is neither a comma nor the terminator is read. -/
theorem scanning_plain {scan : Scan α} {c : α} {text : List α} (here : scan.buf = c :: text)
    (nonzero : byte c ≠ 0) (plain : byte c ≠ ascii ',') : scanning scan = resume scan := by
  have read : round scan = atCharacter scan := by
    unfold round
    rw [here]
    change (if byte c = 0 then _ else if byte c = ascii ',' then _ else _) = _
    rw [if_neg nonzero, if_neg plain]
  rw [scanning_eq, read]
  rfl

/-- At an asterisk what was read is stored. -/
theorem resume_asterisk {scan : Scan α} {c : α} {text : List α} (here : scan.buf = c :: text)
    (asterisk : byte c = ascii '*') : resume scan = store scan := by
  have ended : atCharacter scan = (store scan).map Round.done := by
    unfold atCharacter
    rw [here]
    change (if byte c = ascii '*' then _ else _) = _
    rw [if_pos asterisk]
    cases store scan with
    | error fault => rfl
    | ok gps => rfl
  rw [resume, ended]
  cases store scan with
  | error fault => rfl
  | ok gps => rfl

/-- A character is read in its segment. -/
theorem resume_character {scan : Scan α} {c : α} {text : List α} (here : scan.buf = c :: text)
    (inside : byte c ≠ ascii '*') :
    resume scan = match segmentCase scan c with
      | .error fault => .error fault
      | .ok .stop => .ok scan.gps
      | .ok (.null next) =>
          scanning { next with segment := next.segment + 1, buf := next.buf.tail }
      | .ok (.on next) => scanning { next with bytes := next.bytes + 1, buf := next.buf.tail } := by
  rw [resume]
  unfold atCharacter
  rw [here]
  rw [show peek (c :: text) = .ok c from rfl]
  dsimp only [bind, Except.bind]
  rw [if_neg inside]
  cases segmentCase scan c with
  | error fault => rfl
  | ok move => cases move <;> rfl

/-- A character inside a field. -/
def Plain (c : α) : Prop := byte c ≠ 0 ∧ byte c ≠ ascii ',' ∧ byte c ≠ ascii '*'

/-- The states of a segment of a sentence. -/
def Scan.Beside (scan next : Scan α) : Prop :=
  next.segment = scan.segment ∧ next.command = scan.command

/-- From behind the test for a comma on, the loop goes on to a state. -/
def Enters (scan next : Scan α) : Prop :=
  ∃ mid, atCharacter scan = .ok (.again mid) ∧ Reaches round mid next

theorem reaches_scanning {scan next : Scan α} (reached : Reaches round scan next) :
    scanning scan = scanning next :=
  reached.loop_eq shrinks_round

theorem Enters.resume {scan next : Scan α} (enters : Enters scan next) :
    resume scan = scanning next := by
  obtain ⟨mid, went, reached⟩ := enters
  rw [Rgps.resume, went]
  exact reaches_scanning reached

/-- A comma opens the next segment, and the loop goes on behind it. -/
theorem Enters.comma {scan next : Scan α} {comma : α} {text : List α}
    (enters : Enters scan.comma next) (here : scan.buf = comma :: text)
    (delimiter : byte comma = ascii ',') : Reaches round scan next := by
  obtain ⟨mid, went, reached⟩ := enters
  refine .head ?_ reached
  refine bind_eq_ok.mpr ⟨comma, peek_eq_ok.mpr ⟨text, here⟩, ?_⟩
  rw [if_neg (by rw [delimiter]; decide), if_pos delimiter]
  exact went

/-- A character that is neither a comma nor the terminator is read where it stands. -/
theorem Enters.plain {scan next : Scan α} {c : α} {text : List α} (enters : Enters scan next)
    (here : scan.buf = c :: text) (nonzero : byte c ≠ 0) (plain : byte c ≠ ascii ',') :
    Reaches round scan next := by
  obtain ⟨mid, went, reached⟩ := enters
  refine .head ?_ reached
  refine bind_eq_ok.mpr ⟨c, peek_eq_ok.mpr ⟨text, here⟩, ?_⟩
  rw [if_neg nonzero, if_neg plain]
  exact went

/-- A character is read in its segment, and the loop goes on behind it. -/
theorem enters_character {scan next last : Scan α} {c : α} {text : List α}
    (here : scan.buf = c :: text) (inside : byte c ≠ ascii '*')
    (moved : segmentCase scan c = .ok (.on next))
    (reached : Reaches round { next with bytes := next.bytes + 1, buf := next.buf.tail } last) :
    Enters scan last := by
  refine ⟨_, bind_eq_ok.mpr ⟨c, peek_eq_ok.mpr ⟨text, here⟩, ?_⟩, reached⟩
  rw [if_neg inside]
  exact bind_eq_ok.mpr ⟨.on next, moved, rfl⟩

/-- A text behind a comma is read up to the next one, in a segment that fills a buffer. Its first
character may be a comma too. -/
theorem enters_fill {handler : Handler α} (fills : Fills handler) {slot : Local}
    {text buffer : List α} {scan : Scan α} (rest : List α) (nonempty : text ≠ [])
    (first : ∀ c ∈ text.head?, byte c ≠ ascii '*') (plain : ∀ c ∈ text.tail, Plain c)
    (here : ∀ next, scan.Beside next → ∀ c ∈ text, segmentCase next c = fill next slot handler)
    (read : fillAll handler scan.bytes text (scan.locals slot) = .ok buffer) :
    ∃ bytes, Enters { scan with buf := text ++ rest }
      { scan with
        buf := rest, bytes := bytes, locals := Function.update scan.locals slot buffer } := by
  induction size' : text.length using Nat.strongRecOn generalizing text scan with
  | ind size ih =>
      obtain ⟨c, text, rfl⟩ := List.exists_cons_of_ne_nil nonempty
      rw [fillAll_cons fills] at read
      obtain ⟨filled, wrote, read⟩ := bind_eq_ok.mp read
      have effect := fills _ _ _ _ _ wrote
      obtain ⟨used, left, kept⟩ := List.exists_cons_of_ne_nil effect.nonempty
      have within : left <:+ text := by
        have suffix := effect.suffix
        rw [kept] at suffix
        obtain ⟨front, whole⟩ := suffix
        cases front with
        | nil => exact (List.cons.inj whole).2 ▸ List.suffix_rfl
        | cons head front => exact ⟨front ++ [used], by simpa using (List.cons.inj whole).2⟩
      have filledCase : segmentCase { scan with buf := c :: text ++ rest } c =
          .ok (.on { scan with
            buf := used :: left ++ rest, bytes := filled.1,
            locals := Function.update scan.locals slot filled.2.2 }) := by
        refine (here { scan with buf := c :: text ++ rest } ⟨rfl, rfl⟩ c
          (List.mem_cons_self ..)).trans ?_
        exact bind_eq_ok.mpr ⟨_, effect.longer rest, by rw [kept]; rfl⟩
      have head : byte c ≠ ascii '*' := first c rfl
      simp only [kept, List.tail_cons] at read
      cases left with
      | nil =>
          rw [fillAll_nil fills] at read
          obtain rfl := Except.ok.inj read
          exact ⟨filled.1 + 1, enters_character rfl head filledCase .start⟩
      | cons next left =>
          have marks := plain next (within.subset (List.mem_cons_self ..))
          have shorter : (next :: left).length < size := by
            have := within.length_le
            rw [← size']
            exact Nat.lt_succ_of_le this
          have onwards : fillAll handler (filled.1 + 1) (next :: left)
              (Function.update scan.locals slot filled.2.2 slot) = .ok buffer := by
            rw [Function.update_self]
            exact read
          obtain ⟨bytes, onward⟩ := @ih _ shorter (next :: left)
            { scan with
              bytes := filled.1 + 1, locals := Function.update scan.locals slot filled.2.2 }
            nofun (fun _ same => Option.some.inj same ▸ marks.2.2)
            (fun c member => plain c (within.subset (List.mem_cons_of_mem next member)))
            (fun after beside c member =>
              here after beside c (List.mem_cons_of_mem _ (within.subset member)))
            onwards rfl
          refine ⟨bytes, enters_character rfl head filledCase ?_⟩
          dsimp only at onward
          rw [Function.update_idem] at onward
          exact onward.plain rfl marks.1 marks.2.1

/-- A text behind a comma, in a segment that fills a buffer. Its first character may be a comma
too. -/
theorem resume_fill {handler : Handler α} (fills : Fills handler) {slot : Local}
    {text buffer : List α} {scan : Scan α} (rest : List α) (nonempty : text ≠ [])
    (first : ∀ c ∈ text.head?, byte c ≠ ascii '*') (plain : ∀ c ∈ text.tail, Plain c)
    (here : ∀ next, scan.Beside next → ∀ c ∈ text, segmentCase next c = fill next slot handler)
    (read : fillAll handler scan.bytes text (scan.locals slot) = .ok buffer) :
    ∃ bytes, resume { scan with buf := text ++ rest } =
      scanning { scan with
        buf := rest, bytes := bytes, locals := Function.update scan.locals slot buffer } := by
  obtain ⟨bytes, enters⟩ := enters_fill fills rest nonempty first plain here read
  exact ⟨bytes, enters.resume⟩

/-- A text behind a comma is read up to the next one, in a segment that fills no buffer. -/
theorem enters_pass {pass : Gps α → α → Gps α} {text : List α} {scan : Scan α} (rest : List α)
    (nonempty : text ≠ []) (first : ∀ c ∈ text.head?, byte c ≠ ascii '*')
    (plain : ∀ c ∈ text.tail, Plain c)
    (here : ∀ next, scan.Beside next → ∀ c ∈ text,
      segmentCase next c = .ok (.on { next with gps := pass next.gps c })) :
    ∃ bytes, Enters { scan with buf := text ++ rest }
      { scan with buf := rest, bytes := bytes, gps := text.foldl pass scan.gps } := by
  induction text generalizing scan with
  | nil => exact absurd rfl nonempty
  | cons c text ih =>
      have head : byte c ≠ ascii '*' := first c rfl
      have passed := here { scan with buf := c :: text ++ rest } ⟨rfl, rfl⟩ c
        (List.mem_cons_self ..)
      cases text with
      | nil => exact ⟨scan.bytes + 1, enters_character rfl head passed .start⟩
      | cons next text =>
          have marks := plain next (List.mem_cons_self ..)
          obtain ⟨bytes, onward⟩ := @ih
            { scan with bytes := scan.bytes + 1, gps := pass scan.gps c } nofun
            (fun _ same => Option.some.inj same ▸ marks.2.2)
            (fun other member => plain other (List.mem_cons_of_mem next member))
            (fun after beside other member =>
              here after beside other (List.mem_cons_of_mem c member))
          exact ⟨bytes, enters_character rfl head passed (onward.plain rfl marks.1 marks.2.1)⟩

/-- A text behind a comma, in a segment that fills no buffer. -/
theorem resume_pass {pass : Gps α → α → Gps α} {text : List α} {scan : Scan α} (rest : List α)
    (nonempty : text ≠ []) (first : ∀ c ∈ text.head?, byte c ≠ ascii '*')
    (plain : ∀ c ∈ text.tail, Plain c)
    (here : ∀ next, scan.Beside next → ∀ c ∈ text,
      segmentCase next c = .ok (.on { next with gps := pass next.gps c })) :
    ∃ bytes, resume { scan with buf := text ++ rest } =
      scanning { scan with buf := rest, bytes := bytes, gps := text.foldl pass scan.gps } := by
  obtain ⟨bytes, enters⟩ := enters_pass rest nonempty first plain here
  exact ⟨bytes, enters.resume⟩

/-- A text behind a comma, in a segment that stops at some characters. -/
theorem resume_stop {bad : α → Bool} {text : List α} {scan : Scan α} (rest : List α)
    (first : ∀ c ∈ text.head?, byte c ≠ ascii '*') (plain : ∀ c ∈ text.tail, Plain c)
    (here : ∀ next, scan.Beside next → ∀ c ∈ text,
      segmentCase next c = .ok (if bad c then .stop else .on next))
    (found : ∃ c ∈ text, bad c = true) :
    resume { scan with buf := text ++ rest } = .ok scan.gps := by
  induction text generalizing scan with
  | nil => simp only [List.not_mem_nil, false_and, exists_false] at found
  | cons c text ih =>
      have head : byte c ≠ ascii '*' := first c rfl
      rw [resume_character rfl head, here { scan with buf := c :: text ++ rest } ⟨rfl, rfl⟩ c
        (List.mem_cons_self ..)]
      cases stops : bad c with
      | true => rfl
      | false =>
          obtain ⟨other, member, stops'⟩ := found
          have later : other ∈ text := by
            rcases List.mem_cons.mp member with rfl | later
            · rw [stops] at stops'
              cases stops'
            · exact later
          obtain ⟨next, text, rfl⟩ := List.exists_cons_of_ne_nil (List.ne_nil_of_mem later)
          have marks := plain next (List.mem_cons_self ..)
          simp only [Bool.false_eq_true, if_false, List.cons_append, List.tail_cons]
          rw [scanning_plain rfl marks.1 marks.2.1]
          exact @ih { scan with bytes := scan.bytes + 1 }
            (fun _ same => Option.some.inj same ▸ marks.2.2)
            (fun other member => plain other (List.mem_cons_of_mem next member))
            (fun after beside other member =>
              here after beside other (List.mem_cons_of_mem c member))
            ⟨other, later, stops'⟩

/-- Nothing is read from the tenth field on. -/
theorem segmentCase_ignored {scan : Scan α} (late : 10 ≤ scan.segment.toNat) (c : α) :
    segmentCase scan c = .ok (.on scan) := by
  unfold segmentCase
  split
  all_goals first
    | rfl
    | rename_i segment _
      omega

/-- Nothing is read from most fields of a `$GPRMC` sentence. -/
theorem segmentCase_rmc (next : Scan α) (command : next.command = .rmc)
    (segment : next.segment.toNat = 1 ∨ next.segment.toNat = 3 ∨ next.segment.toNat = 4 ∨
      next.segment.toNat = 5 ∨ next.segment.toNat = 6) (c : α) :
    segmentCase next c = .ok (.on next) := by
  unfold segmentCase
  rw [command]
  rcases segment with segment | segment | segment | segment | segment <;>
    (rw [segment]; rfl)

theorem toNat_succ {segment : UInt8} (small : segment.toNat < 255) :
    (segment + 1).toNat = segment.toNat + 1 := by
  rw [UInt8.toNat_add]
  exact Nat.mod_eq_of_lt (by simpa using Nat.succ_lt_succ small)

/-- The loop comes to the asterisk in front of a text, or to the comma before it, with nothing more
read. -/
structure EndsAt (asterisk : α) (after : List α) (scan last : Scan α) : Prop where
  reached : Reaches round scan last
  here : last.buf = asterisk :: after ∨
    ∃ comma, last.buf = comma :: asterisk :: after ∧ byte comma = ascii ','
  locals : last.locals = scan.locals
  command : last.command = scan.command
  gps : last.gps = scan.gps

/-- Behind the last field that is read, the loop comes to the asterisk. -/
theorem endsAt_tail {text after : List α} {asterisk : α}
    (plain : ∀ c ∈ text, byte c ≠ 0 ∧ byte c ≠ ascii '*') {scan : Scan α}
    (here : scan.buf = text ++ asterisk :: after)
    (late : 10 ≤ scan.segment.toNat ∨
      (scan.segment.toNat = 9 ∧ ∀ c ∈ text.head?, byte c = ascii ','))
    (few : scan.segment.toNat + text.countP (fun c => byte c = ascii ',') < 256) :
    ∃ last, EndsAt asterisk after scan last := by
  induction size : text.length using Nat.strongRecOn generalizing text scan with
  | ind size' ih =>
      cases text with
      | nil => exact ⟨scan, .start, .inl here, rfl, rfl, rfl⟩
      | cons c text =>
          by_cases comma : byte c = ascii ','
          · rw [List.countP_cons_of_pos (by simpa using comma)] at few
            have opened : scan.comma.segment.toNat = scan.segment.toNat + 1 :=
              toNat_succ (by omega)
            have behind : scan.comma.buf = text ++ asterisk :: after := by
              rw [Scan.comma, here]
              rfl
            cases text with
            | nil => exact ⟨scan, .start, .inr ⟨c, here, comma⟩, rfl, rfl, rfl⟩
            | cons next text =>
                have head := (plain next (List.mem_cons_of_mem c (List.mem_cons_self ..))).2
                have later : 10 ≤ scan.comma.segment.toNat := by omega
                have fewer := (List.sublist_cons_self next text).countP_le
                  (p := fun c => decide (byte c = ascii ','))
                have shorter : text.length < size' := by
                  rw [← size, List.length_cons, List.length_cons]
                  omega
                obtain ⟨last, ends⟩ := @ih _ shorter text
                  (fun other member => plain other
                    (List.mem_cons_of_mem c (List.mem_cons_of_mem next member)))
                  { scan.comma with bytes := scan.comma.bytes + 1, buf := scan.comma.buf.tail }
                  (by rw [behind]; rfl) (.inl later)
                  (by
                    refine Nat.lt_of_le_of_lt ?_ few
                    change scan.comma.segment.toNat + _ ≤ _
                    omega) rfl
                have enters := enters_character behind head (segmentCase_ignored later next)
                  ends.reached
                exact ⟨last, enters.comma here comma, ends.here, ends.locals, ends.command, ends.gps⟩
          · have later : 10 ≤ scan.segment.toNat :=
              late.resolve_right fun ninth => comma (ninth.2 c rfl)
            have marks := plain c (List.mem_cons_self ..)
            rw [List.countP_cons_of_neg (by simpa using comma)] at few
            obtain ⟨last, ends⟩ := @ih text.length (by rw [← size]; exact Nat.lt_succ_self _) text
              (fun other member => plain other (List.mem_cons_of_mem c member))
              { scan with bytes := scan.bytes + 1, buf := scan.buf.tail }
              (by rw [here]; rfl) (.inl later) few rfl
            have enters := enters_character here marks.2 (segmentCase_ignored later c) ends.reached
            exact ⟨last, enters.plain here marks.1 comma, ends.here, ends.locals, ends.command,
              ends.gps⟩

theorem store_congr {scan scan' : Scan α} (locals : scan'.locals = scan.locals)
    (command : scan'.command = scan.command) (gps : scan'.gps = scan.gps) :
    store scan' = store scan := by
  unfold store storeGga storeRmc
  rw [locals, command, gps]

/-- There the loop stores what was read. -/
theorem EndsAt.scanning {asterisk : α} {after : List α} {scan last : Scan α}
    (ends : byte asterisk = ascii '*') (endsAt : EndsAt asterisk after scan last) :
    scanning scan = store scan := by
  rw [reaches_scanning endsAt.reached]
  rcases endsAt.here with here | ⟨comma, here, delimiter⟩
  · have nonzero : byte asterisk ≠ 0 := by
      rw [ends]
      decide
    have other : byte asterisk ≠ ascii ',' := by
      rw [ends]
      decide
    rw [scanning_plain here nonzero other, resume_asterisk here ends]
    exact store_congr endsAt.locals endsAt.command endsAt.gps
  · have behind : last.comma.buf = asterisk :: after := by
      rw [Scan.comma, here]
      rfl
    rw [scanning_comma here delimiter, resume_asterisk behind ends]
    exact store_congr endsAt.locals endsAt.command endsAt.gps

/-- Behind the last field that is read, the loop goes on to the asterisk. -/
theorem scanning_tail {text after : List α} {asterisk : α} (ends : byte asterisk = ascii '*')
    (plain : ∀ c ∈ text, byte c ≠ 0 ∧ byte c ≠ ascii '*') {scan : Scan α}
    (here : scan.buf = text ++ asterisk :: after)
    (late : 10 ≤ scan.segment.toNat ∨
      (scan.segment.toNat = 9 ∧ ∀ c ∈ text.head?, byte c = ascii ','))
    (few : scan.segment.toNat + text.countP (fun c => byte c = ascii ',') < 256) :
    scanning scan = store scan := by
  obtain ⟨last, endsAt⟩ := endsAt_tail plain here late few
  exact endsAt.scanning ends

end Trunk.Rgps
