import Mathlib.Data.List.Infix
import Trunk.Rgps.Scan

/-! # What a round can do

Every case of the switch moves on in the line, lets the first cell of a buffer keep its symbol or
get the one at `buf`, and leaves what is stored alone (`Trunk.Rgps.segmentCase_moved`). The loop
therefore ends, and a round is what `Trunk.Rgps.round_again` and `Trunk.Rgps.round_done` say.
-/

namespace Trunk.Rgps

open CString Provenance Provenance.Glyph Loop

variable {α : Type}

/-- A buffer whose size is kept, with its first cell kept or set to a symbol. -/
structure Rewritten (c : α) (buffer buffer' : List α) : Prop where
  size : buffer'.length = buffer.length
  cell : buffer'[0]? = buffer[0]? ∨ buffer'[0]? = some c

theorem rewritten_refl (c : α) (buffer : List α) : Rewritten c buffer buffer := ⟨rfl, .inl rfl⟩

/-- The symbol is written to one more cell. -/
theorem Rewritten.put {c : α} {buffer buffer' after : List α} {index : Nat}
    (written : Rewritten c buffer buffer') (done : put buffer' index c = .ok after) :
    Rewritten c buffer after := by
  obtain ⟨inside, rfl⟩ := put_eq_ok.mp done
  refine ⟨(List.length_set ..).trans written.size, ?_⟩
  by_cases first : index = 0
  · subst first
    exact .inr (List.getElem?_set_self inside)
  · rw [List.getElem?_set_ne first]
    exact written.cell

/-- Any symbol is written behind the first cell. -/
theorem Rewritten.putBehind {c symbol : α} {buffer buffer' after : List α} {index : Nat}
    (written : Rewritten c buffer buffer') (behind : index ≠ 0)
    (done : Provenance.put buffer' index symbol = .ok after) : Rewritten c buffer after := by
  obtain ⟨-, rfl⟩ := put_eq_ok.mp done
  refine ⟨(List.length_set ..).trans written.size, ?_⟩
  rw [List.getElem?_set_ne behind]
  exact written.cell

/-- A writer rewrites its buffer wherever it does not fail. -/
def Rewrites (write : Writer α) : Prop :=
  ∀ bytes c buffer written, write bytes c buffer = .ok written →
    Rewritten c buffer written.2

variable [Glyph α]

theorem rewrites_putTime : Rewrites (putTime : Writer α) := by
  intro bytes c buffer written done
  unfold putTime at done
  have start := rewritten_refl c buffer
  split at done
  · rename_i inserted
    have behind : bytes.toNat ≠ 0 := by
      rcases inserted with rfl | rfl
      · decide
      · decide
    obtain ⟨first, wrote, done⟩ := bind_eq_ok.mp done
    obtain ⟨second, wrote', done⟩ := bind_eq_ok.mp done
    obtain ⟨third, wrote'', done⟩ := bind_eq_ok.mp done
    obtain rfl := Except.ok.inj done
    exact ((start.put wrote).putBehind behind wrote').put wrote''
  · split at done
    · obtain ⟨first, wrote, done⟩ := bind_eq_ok.mp done
      obtain rfl := Except.ok.inj done
      exact start.put wrote
    · split at done
      · rename_i eighth
        obtain ⟨first, wrote, done⟩ := bind_eq_ok.mp done
        obtain rfl := Except.ok.inj done
        subst eighth
        exact start.putBehind (by decide) wrote
      · obtain rfl := Except.ok.inj done
        exact start

theorem rewrites_putText (limit : UInt8) : Rewrites (putText limit : Writer α) := by
  intro bytes c buffer written done
  unfold putText at done
  have start := rewritten_refl c buffer
  split at done
  · obtain ⟨first, wrote, done⟩ := bind_eq_ok.mp done
    obtain ⟨second, wrote', done⟩ := bind_eq_ok.mp done
    obtain rfl := Except.ok.inj done
    exact (start.put wrote).putBehind (Nat.succ_ne_zero _) wrote'
  · obtain rfl := Except.ok.inj done
    exact start

theorem rewrites_putSatellites : Rewrites (putSatellites : Writer α) := by
  intro bytes c buffer written done
  unfold putSatellites at done
  have start := rewritten_refl c buffer
  split at done
  · obtain ⟨first, wrote, done⟩ := bind_eq_ok.mp done
    obtain ⟨second, wrote', done⟩ := bind_eq_ok.mp done
    obtain rfl := Except.ok.inj done
    exact (start.put wrote).putBehind (Nat.succ_ne_zero _) wrote'
  · obtain ⟨first, wrote, done⟩ := bind_eq_ok.mp done
    obtain rfl := Except.ok.inj done
    exact start.putBehind (Nat.succ_ne_zero _) wrote

theorem rewrites_putDate : Rewrites (putDate : Writer α) := by
  intro bytes c buffer written done
  unfold putDate at done
  have start := rewritten_refl c buffer
  split at done
  · obtain ⟨first, wrote, done⟩ := bind_eq_ok.mp done
    obtain rfl := Except.ok.inj done
    exact start.put wrote
  · split at done
    · obtain ⟨first, wrote, done⟩ := bind_eq_ok.mp done
      obtain ⟨second, wrote', done⟩ := bind_eq_ok.mp done
      obtain rfl := Except.ok.inj done
      exact (start.put wrote).putBehind (Nat.succ_ne_zero _) wrote'
    · split at done
      · obtain ⟨first, wrote, done⟩ := bind_eq_ok.mp done
        obtain ⟨second, wrote', done⟩ := bind_eq_ok.mp done
        obtain ⟨third, wrote'', done⟩ := bind_eq_ok.mp done
        obtain rfl := Except.ok.inj done
        exact ((start.put wrote).putBehind (Nat.succ_ne_zero _) wrote').putBehind (Nat.succ_ne_zero _) wrote''
      · obtain rfl := Except.ok.inj done
        exact start

/-- What a case that fills a buffer does where it does not fail. It moves on in the text, in a
longer text as in this one. -/
structure Filled (handler : Handler α) (bytes : UInt8) (c : α) (text buffer : List α)
    (filled : UInt8 × List α × List α) : Prop where
  suffix : filled.2.1 <:+ c :: text
  nonempty : filled.2.1 ≠ []
  rewritten : Rewritten c buffer filled.2.2
  longer : ∀ rest, handler bytes (c :: text ++ rest) buffer =
    .ok (filled.1, filled.2.1 ++ rest, filled.2.2)

/-- A case is `Filled` wherever it does not fail. -/
def Fills (handler : Handler α) : Prop :=
  ∀ bytes c text buffer filled, handler bytes (c :: text) buffer = .ok filled →
    Filled handler bytes c text buffer filled

omit [Glyph α] in
theorem fills_atBuf {write : Writer α} (rewrites : Rewrites write) : Fills (atBuf write) := by
  intro bytes c text buffer filled done
  obtain ⟨first, seen, done⟩ := bind_eq_ok.mp done
  obtain rfl := Except.ok.inj seen
  obtain ⟨written, wrote, done⟩ := bind_eq_ok.mp done
  obtain rfl := Except.ok.inj done
  refine ⟨List.suffix_rfl, nofun, rewrites bytes c buffer written wrote, ?_⟩
  intro rest
  refine bind_eq_ok.mpr ⟨c, rfl, ?_⟩
  exact bind_eq_ok.mpr ⟨written, wrote, rfl⟩

theorem rewritten_putPoint {point bytes : UInt8} {buffer : List α} {pointed : UInt8 × List α}
    (c : α) (positive : 0 < point.toNat) (done : putPoint point bytes buffer = .ok pointed) :
    Rewritten c buffer pointed.2 := by
  have start := rewritten_refl c buffer
  unfold putPoint at done
  split at done
  · rename_i here
    obtain ⟨first, wrote, done⟩ := bind_eq_ok.mp done
    obtain rfl := Except.ok.inj done
    subst here
    exact start.putBehind (Nat.ne_of_gt positive) wrote
  · obtain rfl := Except.ok.inj done
    exact start

theorem fills_putCoordinate {last point skip : UInt8} (positive : 0 < last.toNat)
    (positive' : 0 < point.toNat) (positive'' : 0 < skip.toNat) :
    Fills (putCoordinate last point skip : Handler α) := by
  intro bytes c text buffer filled done
  obtain ⟨first, seen, done⟩ := bind_eq_ok.mp done
  obtain rfl := Except.ok.inj seen
  split at done
  · rename_i ended
    obtain ⟨written, wrote, done⟩ := bind_eq_ok.mp done
    obtain rfl := Except.ok.inj done
    have behind : bytes.toNat ≠ 0 := ended ▸ Nat.ne_of_gt positive
    refine ⟨List.suffix_rfl, nofun, (rewritten_refl c buffer).putBehind behind wrote, ?_⟩
    intro rest
    refine bind_eq_ok.mpr ⟨c, rfl, ?_⟩
    rw [if_pos ended]
    exact bind_eq_ok.mpr ⟨written, wrote, rfl⟩
  · rename_i unended
    obtain ⟨pointed, wrote, done⟩ := bind_eq_ok.mp done
    have start := rewritten_putPoint c positive' wrote
    split at done
    · rename_i skipped
      obtain ⟨next, seen, done⟩ := bind_eq_ok.mp done
      obtain ⟨written, wrote', done⟩ := bind_eq_ok.mp done
      obtain rfl := Except.ok.inj done
      have behind : pointed.1.toNat ≠ 0 := skipped ▸ Nat.ne_of_gt positive''
      cases text with
      | nil => cases seen
      | cons after text =>
          refine ⟨List.suffix_cons c (after :: text), nofun, start.putBehind behind wrote', ?_⟩
          intro rest
          refine bind_eq_ok.mpr ⟨c, rfl, ?_⟩
          rw [if_neg unended]
          refine bind_eq_ok.mpr ⟨pointed, wrote, ?_⟩
          rw [if_pos skipped]
          refine bind_eq_ok.mpr ⟨next, seen, ?_⟩
          exact bind_eq_ok.mpr ⟨written, wrote', rfl⟩
    · rename_i unskipped
      obtain ⟨written, wrote', done⟩ := bind_eq_ok.mp done
      obtain rfl := Except.ok.inj done
      refine ⟨List.suffix_rfl, nofun, start.put wrote', ?_⟩
      intro rest
      refine bind_eq_ok.mpr ⟨c, rfl, ?_⟩
      rw [if_neg unended]
      refine bind_eq_ok.mpr ⟨pointed, wrote, ?_⟩
      rw [if_neg unskipped]
      exact bind_eq_ok.mpr ⟨written, wrote', rfl⟩

/-- What a case of the switch does at a character where it does not stop. -/
structure Moved (c : α) (scan next : Scan α) : Prop where
  suffix : next.buf <:+ scan.buf
  segment : next.segment = scan.segment
  rewritten : ∀ slot, Rewritten c (scan.locals slot) (next.locals slot)
  north : next.gps.northSouth = scan.gps.northSouth ∨ next.gps.northSouth = c
  east : next.gps.eastWest = scan.gps.eastWest ∨ next.gps.eastWest = c
  kept : next.gps =
    { scan.gps with northSouth := next.gps.northSouth, eastWest := next.gps.eastWest }

omit [Glyph α] in
theorem moved_refl (c : α) (scan : Scan α) : Moved c scan scan :=
  ⟨List.suffix_rfl, rfl, fun _ => rewritten_refl c _, .inl rfl, .inl rfl, rfl⟩

/-- An end of the switch that stops, or has moved on. -/
def Move.Goes (c : α) (scan : Scan α) : Move α → Prop
  | .stop => True
  | .null next => Moved c scan next
  | .on next => Moved c scan next

omit [Glyph α] in
theorem fill_goes {handler : Handler α} (fills : Fills handler) {scan : Scan α} {slot : Local}
    {c : α} {text : List α} {move : Move α} (here : scan.buf = c :: text)
    (done : fill scan slot handler = .ok move) : move.Goes c scan := by
  obtain ⟨filled, wrote, done⟩ := bind_eq_ok.mp done
  obtain rfl := Except.ok.inj done
  rw [here] at wrote
  have effect := fills _ _ _ _ _ wrote
  refine ⟨here ▸ effect.suffix, rfl, fun other => ?_, .inl rfl, .inl rfl, rfl⟩
  by_cases same : other = slot
  · subst same
    dsimp only
    rw [Function.update_self]
    exact effect.rewritten
  · dsimp only
    rw [Function.update_of_ne same]
    exact rewritten_refl c _

theorem readCommand_goes (scan : Scan α) (c : α) : (readCommand scan c).Goes c scan := by
  have named : ∀ command, Moved c scan { scan with command := command } := fun _ =>
    ⟨List.suffix_rfl, rfl, fun _ => rewritten_refl c _, .inl rfl, .inl rfl, rfl⟩
  unfold readCommand
  split
  · split
    · split
      · trivial
      · exact named .gga
    · split
      · split
        · trivial
        · exact named .rmc
      · trivial
  · exact moved_refl c scan

/-- Where a case of the switch does not stop, it moves on. -/
theorem segmentCase_goes {scan : Scan α} {c : α} {text : List α} {move : Move α}
    (here : scan.buf = c :: text) (done : segmentCase scan c = .ok move) : move.Goes c scan := by
  have coordinate : ∀ {last point skip : UInt8} {slot : Local}, 0 < last.toNat → 0 < point.toNat →
      0 < skip.toNat → fill scan slot (putCoordinate last point skip) = .ok move →
      move.Goes c scan := fun last point skip => fill_goes (fills_putCoordinate last point skip) here
  have writer : ∀ {write : Writer α} {slot : Local}, Rewrites write →
      fill scan slot (atBuf write) = .ok move → move.Goes c scan := fun rewrites =>
    fill_goes (fills_atBuf rewrites) here
  unfold segmentCase at done
  split at done
  · exact Except.ok.inj done ▸ readCommand_goes scan c
  · exact writer rewrites_putTime done
  · exact coordinate (by decide) (by decide) (by decide) done
  · obtain rfl := Except.ok.inj done
    split
    · trivial
    · exact moved_refl c scan
  · obtain rfl := Except.ok.inj done
    exact ⟨List.suffix_rfl, rfl, fun _ => rewritten_refl c _, .inr rfl, .inl rfl, rfl⟩
  · exact coordinate (by decide) (by decide) (by decide) done
  · obtain rfl := Except.ok.inj done
    exact ⟨List.suffix_rfl, rfl, fun _ => rewritten_refl c _, .inl rfl, .inr rfl, rfl⟩
  · obtain rfl := Except.ok.inj done
    split
    · trivial
    · exact moved_refl c scan
  · exact writer rewrites_putSatellites done
  · exact writer (rewrites_putText 5) done
  · split at done
    · obtain rfl := Except.ok.inj done
      exact moved_refl c scan
    · exact writer (rewrites_putText 6) done
  · exact writer (rewrites_putText 7) done
  · exact writer rewrites_putDate done
  · obtain rfl := Except.ok.inj done
    exact moved_refl c scan

/-- What a round that goes on does: `c` is the character it is at, behind a comma or not. -/
structure Stepped (c : α) (scan next : Scan α) : Prop where
  place : (∃ text, scan.buf = c :: text ∧ byte c ≠ 0) ∨
    ∃ comma text, scan.buf = comma :: c :: text ∧ byte comma = ascii ','
  suffix : next.buf <:+ scan.buf
  shorter : next.buf.length < scan.buf.length
  rewritten : ∀ slot, Rewritten c (scan.locals slot) (next.locals slot)
  north : next.gps.northSouth = scan.gps.northSouth ∨ next.gps.northSouth = c
  east : next.gps.eastWest = scan.gps.eastWest ∨ next.gps.eastWest = c
  kept : next.gps =
    { scan.gps with northSouth := next.gps.northSouth, eastWest := next.gps.eastWest }

theorem atCharacter_again {scan next : Scan α} (done : atCharacter scan = .ok (.again next)) :
    ∃ c text mid, scan.buf = c :: text ∧ Moved c scan mid ∧ next.buf = mid.buf.tail ∧
      next.locals = mid.locals ∧ next.gps = mid.gps := by
  obtain ⟨c, seen, done⟩ := bind_eq_ok.mp done
  obtain ⟨text, here⟩ := peek_eq_ok.mp seen
  split at done
  · obtain ⟨gps, _, done⟩ := bind_eq_ok.mp done
    cases done
  · obtain ⟨move, moved, done⟩ := bind_eq_ok.mp done
    have goes := segmentCase_goes here moved
    cases move with
    | stop => cases done
    | null mid =>
        obtain rfl := Round.again.inj (Except.ok.inj done)
        exact ⟨c, text, mid, here, goes, rfl, rfl, rfl⟩
    | on mid =>
        obtain rfl := Round.again.inj (Except.ok.inj done)
        exact ⟨c, text, mid, here, goes, rfl, rfl, rfl⟩

/-- A round that goes on. -/
theorem round_again {scan next : Scan α} (done : round scan = .ok (.again next)) :
    ∃ c, Stepped c scan next := by
  obtain ⟨head, seen, done⟩ := bind_eq_ok.mp done
  obtain ⟨behind, whole⟩ := peek_eq_ok.mp seen
  split at done
  · cases done
  · rename_i nonzero
    split at done
    · rename_i comma
      obtain ⟨c, text, mid, here, moved, buf, locals, gps⟩ := atCharacter_again done
      have after : behind = c :: text := by
        rw [← here, Scan.comma, whole]
        rfl
      have suffix : next.buf <:+ behind := by
        rw [buf, after, ← here]
        exact (List.tail_suffix _).trans moved.suffix
      refine ⟨c, .inr ⟨head, text, after ▸ whole, comma⟩, ?_, ?_, locals ▸ moved.rewritten,
        gps ▸ moved.north, gps ▸ moved.east, gps ▸ moved.kept⟩
      · exact whole ▸ suffix.trans (List.suffix_cons head behind)
      · exact whole ▸ Nat.lt_succ_of_le suffix.length_le
    · obtain ⟨c, text, mid, here, moved, buf, locals, gps⟩ := atCharacter_again done
      obtain ⟨rfl, rfl⟩ := List.cons.inj (whole.symm.trans here)
      refine ⟨head, .inl ⟨behind, whole, nonzero⟩, ?_, ?_, locals ▸ moved.rewritten,
        gps ▸ moved.north, gps ▸ moved.east, gps ▸ moved.kept⟩
      · exact buf ▸ (List.tail_suffix _).trans moved.suffix
      · have := moved.suffix.length_le
        rw [whole, List.length_cons] at this
        rw [buf, whole, List.length_tail, List.length_cons]
        omega

theorem atCharacter_done {scan : Scan α} {gps : Gps α}
    (done : atCharacter scan = .ok (.done gps)) : gps = scan.gps ∨ store scan = .ok gps := by
  obtain ⟨c, _, done⟩ := bind_eq_ok.mp done
  split at done
  · obtain ⟨stored, kept, done⟩ := bind_eq_ok.mp done
    obtain rfl := Round.done.inj (Except.ok.inj done)
    exact .inr kept
  · obtain ⟨move, _, done⟩ := bind_eq_ok.mp done
    cases move with
    | stop =>
        obtain rfl := Round.done.inj (Except.ok.inj done)
        exact .inl rfl
    | null mid => cases done
    | on mid => cases done

/-- A round that ends the loop: nothing more is stored, or all that was read. -/
theorem round_done {scan : Scan α} {gps : Gps α} (done : round scan = .ok (.done gps)) :
    gps = scan.gps ∨ store scan = .ok gps := by
  obtain ⟨head, _, done⟩ := bind_eq_ok.mp done
  split at done
  · obtain rfl := Round.done.inj (Except.ok.inj done)
    exact .inl rfl
  · split at done
    · rcases atCharacter_done done with same | stored
      · exact .inl same
      · exact .inr stored
    · exact atCharacter_done done

/-- Every round moves on in the line. -/
theorem shrinks_round :
    Shrinks (round : Scan α → _) (fun scan => scan.buf.length) Fault.read where
  smaller := by
    intro scan next done
    obtain ⟨c, stepped⟩ := round_again done
    exact stepped.shorter
  empty := by
    intro scan empty
    unfold round
    rw [List.length_eq_zero_iff.mp empty]
    rfl

/-- What every round keeps holds of what is stored in the end. -/
theorem scanning_invariant (Inv : Scan α → Prop) (Post : Gps α → Prop)
    (steps : ∀ scan next c, Inv scan → Stepped c scan next → Inv next)
    (ends : ∀ scan gps, Inv scan → gps = scan.gps ∨ store scan = .ok gps → Post gps)
    {scan : Scan α} {gps : Gps α} (holds : Inv scan) (done : scanning scan = .ok gps) :
    Post gps := by
  have again : ∀ scan next, Inv scan → round scan = .ok (.again next) → Inv next := by
    intro scan next inv went
    obtain ⟨c, stepped⟩ := round_again went
    exact steps scan next c inv stepped
  have ended : ∀ scan gps, Inv scan → round scan = .ok (.done gps) → Post gps :=
    fun scan gps inv stopped => ends scan gps inv (round_done stopped)
  unfold scanning at done
  exact @loop_invariant _ _ _ _ _ _ _ _ Inv Post again ended holds done

end Trunk.Rgps
