import Mathlib.Tactic.SplitIfs
import Trunk.Rgps.Sentence

/-! # The values of fields

When a field alone can be read: always into the buffers whose cases keep to a limit
(`Trunk.Rgps.fillAll_keeps`), and into the buffer of a coordinate exactly if the field is not of
the length at which the case looks past its end, nor longer than the buffer
(`Trunk.Rgps.fillAll_coordinate_iff`).
-/

namespace Trunk.Rgps

open CString Provenance Provenance.Glyph Loop

variable {α : Type} [Glyph α]

omit [Glyph α] in
/-- A field that is read keeps the size of its buffer, and the first cell has what it had, or a
character of the field. -/
theorem fillAll_cell {handler : Handler α} (fills : Fills handler) {bytes : UInt8}
    {text buffer buffer' : List α} (read : fillAll handler bytes text buffer = .ok buffer') :
    buffer'.length = buffer.length ∧
      (buffer'[0]? = buffer[0]? ∨ ∃ c ∈ text, buffer'[0]? = some c) := by
  induction size : text.length using Nat.strongRecOn generalizing text bytes buffer with
  | ind size' ih =>
      cases text with
      | nil =>
          rw [fillAll_nil fills] at read
          obtain rfl := Except.ok.inj read
          exact ⟨rfl, .inl rfl⟩
      | cons c text =>
          rw [fillAll_cons fills] at read
          obtain ⟨filled, wrote, read⟩ := bind_eq_ok.mp read
          have effect := fills _ _ _ _ _ wrote
          have shorter : filled.2.1.tail.length < size' := by
            have := effect.suffix.length_le
            rw [← size, List.length_tail]
            rw [List.length_cons] at this ⊢
            omega
          obtain ⟨length, cell⟩ := ih _ shorter read rfl
          refine ⟨length.trans effect.rewritten.size, ?_⟩
          rcases cell with kept | ⟨other, member, set⟩
          · rcases effect.rewritten.cell with kept' | set
            · exact .inl (kept.trans kept')
            · exact .inr ⟨c, List.mem_cons_self .., kept.trans set⟩
          · refine .inr ⟨other, effect.suffix.subset ?_, set⟩
            exact List.mem_of_mem_tail member

/-- What a field gives starts with a character of the field. -/
theorem readField_head {handler : Handler Mark} (fills : Fills handler) {sentence : Sentence}
    {slot : Local} {index : Nat} {text : List Mark}
    (read : readField handler slot (sentence.mark index) = .ok text) : ¬ Misread index text := by
  rintro ⟨c, head, other⟩
  obtain ⟨buffer, filled, read⟩ := bind_eq_ok.mp read
  rw [cstring_eq_ok read] at head
  cases whole : buffer with
  | nil =>
      rw [whole] at head
      cases head
  | cons first rest =>
      rw [whole] at head
      have nonzero : byte first ≠ 0 := by
        intro zero
        rw [List.takeWhile_cons_of_neg (by simpa using zero)] at head
        cases head
      rw [List.takeWhile_cons_of_pos (by simpa using nonzero)] at head
      obtain rfl := Option.some.inj head
      rcases (fillAll_cell fills filled).2 with kept | ⟨c, member, set⟩
      · rw [whole] at kept
        have zero : first = literal 0 := by
          cases slot <;> exact Option.some.inj kept
        exact nonzero (by rw [zero]; rfl)
      · rw [whole] at set
        obtain rfl := Option.some.inj set
        exact other (Sentence.mem_mark member).2

/-- A buffer of a size whose cell at a place ends a string. -/
def Ended (size place : Nat) (buffer : List α) : Prop :=
  buffer.length = size ∧ buffer[place]?.map byte = some 0

theorem Ended.set {size place index : Nat} {buffer : List α} (ended : Ended size place buffer)
    {c : α} (fits : index = place → byte c = 0) : Ended size place (buffer.set index c) := by
  refine ⟨(List.length_set ..).trans ended.1, ?_⟩
  by_cases here : index = place
  · subst here
    have inside : index < buffer.length := by
      by_contra outside
      have past := ended.2
      rw [List.getElem?_eq_none (Nat.le_of_not_lt outside)] at past
      cases past
    rw [List.getElem?_set_self inside]
    exact congrArg some (fits rfl)
  · rw [List.getElem?_set_ne here]
    exact ended.2

theorem ended_blank {size place : Nat} (inside : place < size) :
    Ended size place (List.replicate size (literal 0 : α)) := by
  refine ⟨List.length_replicate .., ?_⟩
  rw [List.getElem?_replicate, if_pos inside, Option.map_some, byte_literal]

theorem Ended.cstring {size place : Nat} {buffer : List α} (ended : Ended size place buffer) :
    cstring buffer = .ok (buffer.takeWhile fun symbol => byte symbol ≠ 0) := by
  unfold Provenance.cstring
  rw [if_pos]
  obtain ⟨symbol, found, zero⟩ := Option.map_eq_some_iff.mp ended.2
  rw [List.any_eq_true]
  exact ⟨symbol, List.mem_of_getElem? found, by simpa using zero⟩

theorem Ended.length_le {size place : Nat} {buffer : List α} (ended : Ended size place buffer) :
    (buffer.takeWhile fun symbol => byte symbol ≠ 0).length ≤ place := by
  by_contra long
  obtain ⟨symbol, found, zero⟩ := Option.map_eq_some_iff.mp ended.2
  have inside := List.prefix_iff_getElem?.mp
    (List.takeWhile_prefix fun symbol => decide (byte symbol ≠ 0)) place (Nat.lt_of_not_le long)
  have same := Option.some.inj (inside.symm.trans found)
  have nonzero := List.mem_takeWhile_imp (List.getElem_mem (Nat.lt_of_not_le long))
  rw [same] at nonzero
  simp only [zero, ne_eq, not_true_eq_false, decide_false, Bool.false_eq_true] at nonzero

/-- A writer that never fails on a buffer of its size, and leaves it ended. -/
def Keeps (size place : Nat) (write : Writer α) : Prop :=
  ∀ bytes c buffer, Ended size place buffer →
    ∃ written, write bytes c buffer = .ok written ∧ Ended size place written.2

theorem Ended.put {size place : Nat} {buffer : List α} (ended : Ended size place buffer)
    (index : Nat) (c : α) (inside : index < size) (fits : index = place → byte c = 0) :
    ∃ buffer', Provenance.put buffer index c = .ok buffer' ∧ Ended size place buffer' :=
  ⟨_, put_inside (ended.1 ▸ inside) c, ended.set fits⟩

theorem keeps_putText (limit : UInt8) :
    Keeps (limit.toNat + 1) limit.toNat (putText limit : Writer α) := by
  intro bytes c buffer ended
  unfold putText
  split
  · rename_i below
    have below' : bytes.toNat < limit.toNat := UInt8.lt_iff_toNat_lt.mp below
    obtain ⟨first, wrote, ended⟩ := ended.put bytes.toNat c (by omega) (by omega)
    obtain ⟨second, wrote', ended⟩ := ended.put (bytes.toNat + 1) (literal 0) (by omega)
      (fun _ => byte_literal 0)
    exact ⟨_, bind_eq_ok.mpr ⟨first, wrote, bind_eq_ok.mpr ⟨second, wrote', rfl⟩⟩, ended⟩
  · exact ⟨_, rfl, ended⟩

theorem keeps_putSatellites : Keeps 3 2 (putSatellites : Writer α) := by
  intro bytes c buffer ended
  unfold putSatellites
  split
  · rename_i below
    have below' : bytes.toNat < 2 := UInt8.lt_iff_toNat_lt.mp below
    obtain ⟨first, wrote, ended⟩ := ended.put bytes.toNat c (by omega) (by omega)
    obtain ⟨second, wrote', ended⟩ := ended.put 2 (literal 0) (by omega) (fun _ => byte_literal 0)
    exact ⟨_, bind_eq_ok.mpr ⟨first, wrote, bind_eq_ok.mpr ⟨second, wrote', rfl⟩⟩, ended⟩
  · obtain ⟨first, wrote, ended⟩ := ended.put 2 (literal 0) (by omega) (fun _ => byte_literal 0)
    exact ⟨_, bind_eq_ok.mpr ⟨first, wrote, rfl⟩, ended⟩

theorem keeps_putDate : Keeps 9 8 (putDate : Writer α) := by
  intro bytes c buffer ended
  unfold putDate
  split
  · rename_i below
    have below' : bytes.toNat < 2 := UInt8.lt_iff_toNat_lt.mp below
    obtain ⟨first, wrote, ended⟩ := ended.put (6 + bytes.toNat) c (by omega) (by omega)
    exact ⟨_, bind_eq_ok.mpr ⟨first, wrote, rfl⟩, ended⟩
  · split
    · rename_i below
      have below' : bytes.toNat < 4 := UInt8.lt_iff_toNat_lt.mp below
      obtain ⟨first, wrote, ended⟩ := ended.put (1 + bytes.toNat) c (by omega) (by omega)
      obtain ⟨second, wrote', ended⟩ := ended.put 5 (literal (ascii '-')) (by omega) (by omega)
      exact ⟨_, bind_eq_ok.mpr ⟨first, wrote, bind_eq_ok.mpr ⟨second, wrote', rfl⟩⟩, ended⟩
    · split
      · rename_i below
        have below' : bytes.toNat < 6 := UInt8.lt_iff_toNat_lt.mp below
        obtain ⟨first, wrote, ended⟩ := ended.put (bytes.toNat - 4) c (by omega) (by omega)
        obtain ⟨second, wrote', ended⟩ := ended.put 2 (literal (ascii '-')) (by omega) (by omega)
        obtain ⟨third, wrote'', ended⟩ := ended.put 8 (literal 0) (by omega)
          (fun _ => byte_literal 0)
        exact ⟨_, bind_eq_ok.mpr ⟨first, wrote, bind_eq_ok.mpr ⟨second, wrote',
          bind_eq_ok.mpr ⟨third, wrote'', rfl⟩⟩⟩, ended⟩
      · exact ⟨_, rfl, ended⟩

theorem keeps_putTime : Keeps 9 8 (putTime : Writer α) := by
  intro bytes c buffer ended
  unfold putTime
  split
  · rename_i inserted
    have below : bytes.toNat ≤ 5 ∧ (bytes + 1).toNat ≤ 6 := by
      rcases inserted with rfl | rfl
      · decide
      · decide
    obtain ⟨first, wrote, ended⟩ := ended.put bytes.toNat c (by omega) (by omega)
    obtain ⟨second, wrote', ended⟩ := ended.put bytes.toNat (literal (ascii ':')) (by omega)
      (by omega)
    obtain ⟨third, wrote'', ended⟩ := ended.put (bytes + 1).toNat c (by omega) (by omega)
    exact ⟨_, bind_eq_ok.mpr ⟨first, wrote, bind_eq_ok.mpr ⟨second, wrote',
      bind_eq_ok.mpr ⟨third, wrote'', rfl⟩⟩⟩, ended⟩
  · split
    · rename_i below
      have below' : bytes.toNat < 8 := UInt8.lt_iff_toNat_lt.mp below
      obtain ⟨first, wrote, ended⟩ := ended.put bytes.toNat c (by omega) (by omega)
      exact ⟨_, bind_eq_ok.mpr ⟨first, wrote, rfl⟩, ended⟩
    · split
      · rename_i eighth
        obtain ⟨first, wrote, ended⟩ := ended.put bytes.toNat (literal 0) (by rw [eighth]; decide)
          (fun _ => byte_literal 0)
        exact ⟨_, bind_eq_ok.mpr ⟨first, wrote, rfl⟩, ended⟩
      · exact ⟨_, rfl, ended⟩

/-- A writer that never fails reads every text. -/
theorem fillAll_keeps {write : Writer α} {size place : Nat} (rewrites : Rewrites write)
    (keeps : Keeps size place write) (bytes : UInt8) (text : List α) {buffer : List α}
    (ended : Ended size place buffer) :
    ∃ buffer', fillAll (atBuf write) bytes text buffer = .ok buffer' ∧
      Ended size place buffer' := by
  have fills := fills_atBuf rewrites
  induction text generalizing bytes buffer with
  | nil => exact ⟨buffer, fillAll_nil fills bytes buffer, ended⟩
  | cons c text ih =>
      obtain ⟨written, wrote, ended⟩ := keeps bytes c buffer ended
      obtain ⟨buffer', read, ended⟩ := ih (written.1 + 1) ended
      refine ⟨buffer', ?_, ended⟩
      rw [fillAll_cons fills]
      refine bind_eq_ok.mpr ⟨(written.1, c :: text, written.2), ?_, read⟩
      exact bind_eq_ok.mpr ⟨c, rfl, bind_eq_ok.mpr ⟨written, wrote, rfl⟩⟩

/-- One character of the date. -/
theorem fillAll_putDate {bytes : UInt8} {c : α} {text buffer buffer' : List α}
    (wrote : putDate bytes c buffer = .ok (bytes, buffer')) :
    fillAll (atBuf putDate) bytes (c :: text) buffer =
      fillAll (atBuf putDate) (bytes + 1) text buffer' := by
  have handled : atBuf putDate bytes (c :: text) buffer = .ok (bytes, c :: text, buffer') :=
    bind_eq_ok.mpr ⟨c, rfl, bind_eq_ok.mpr ⟨_, wrote, rfl⟩⟩
  rw [fillAll_cons (fills_atBuf rewrites_putDate), handled]
  rfl

/-- A field alone gives the string of the buffer that it fills. -/
theorem readField_of_fillAll {handler : Handler α} {slot : Local} {place : Nat}
    {text buffer : List α} (read : fillAll handler 0 text (blank slot) = .ok buffer)
    (ended : Ended slot.size place buffer) :
    readField handler slot text = .ok (buffer.takeWhile fun symbol => byte symbol ≠ 0) :=
  bind_eq_ok.mpr ⟨buffer, read, ended.cstring⟩

/-- How a coordinate lies in its buffer. -/
structure Layout (last point skip : UInt8) (size : Nat) : Prop where
  point_pos : 0 < point.toNat
  point_lt : point.toNat + 1 < skip.toNat
  skip_lt : skip.toNat < last.toNat
  last_lt : last.toNat < size
  size_lt : size < 255

theorem layout_wd : Layout 10 2 5 Local.wd.size :=
  ⟨by decide, by decide, by decide, by decide, by decide⟩

theorem layout_jd : Layout 11 3 6 Local.jd.size :=
  ⟨by decide, by decide, by decide, by decide, by decide⟩

section

variable {last point skip : UInt8} {size : Nat} {bytes : UInt8} {c : α} {text buffer : List α}

theorem Layout.fills (layout : Layout last point skip size) :
    Fills (putCoordinate last point skip : Handler α) := by
  have order := layout.point_lt
  have order' := layout.skip_lt
  exact fills_putCoordinate (by omega) layout.point_pos (by omega)

/-- A character that is written, at the counter or behind a point. -/
theorem putCoordinate_write (layout : Layout last point skip size)
    (ended : Ended size last.toNat buffer) (inside : bytes.toNat < size) (passed : bytes ≠ skip) :
    ∃ buffer', putCoordinate last point skip bytes (c :: text) buffer =
        .ok (if bytes = point then bytes + 1 else bytes, c :: text, buffer') ∧
      Ended size last.toNat buffer' := by
  have order := layout.point_lt
  have order' := layout.skip_lt
  have order'' := layout.last_lt
  have bound := layout.size_lt
  by_cases final : bytes = last
  · have other : bytes ≠ point := by
      rintro rfl
      rw [final] at order
      omega
    obtain ⟨written, wrote, ended⟩ := ended.put bytes.toNat (literal 0) inside
      (fun _ => byte_literal 0)
    refine ⟨written, bind_eq_ok.mpr ⟨c, rfl, ?_⟩, ended⟩
    rw [if_pos final, if_neg other]
    exact bind_eq_ok.mpr ⟨written, wrote, rfl⟩
  · have apart : bytes.toNat ≠ last.toNat := fun same => final (UInt8.toNat_inj.mp same)
    by_cases pointed : bytes = point
    · subst pointed
      have next : (bytes + 1).toNat = bytes.toNat + 1 := toNat_succ (by omega)
      have passed' : bytes + 1 ≠ skip := by
        rintro rfl
        omega
      obtain ⟨dotted, wrote, ended⟩ := ended.put bytes.toNat (literal (ascii '.')) inside
        (fun same => absurd same apart)
      obtain ⟨written, wrote', ended⟩ := ended.put (bytes + 1).toNat c (by omega) (by omega)
      refine ⟨written, bind_eq_ok.mpr ⟨c, rfl, ?_⟩, ended⟩
      have dot : putPoint bytes bytes buffer = .ok (bytes + 1, dotted) := by
        unfold putPoint
        rw [if_pos rfl]
        exact bind_eq_ok.mpr ⟨dotted, wrote, rfl⟩
      rw [if_neg final, if_pos rfl]
      refine bind_eq_ok.mpr ⟨_, dot, ?_⟩
      rw [if_neg passed']
      exact bind_eq_ok.mpr ⟨written, wrote', rfl⟩
    · obtain ⟨written, wrote, ended⟩ := ended.put bytes.toNat c inside
        (fun same => absurd same apart)
      refine ⟨written, bind_eq_ok.mpr ⟨c, rfl, ?_⟩, ended⟩
      have plain : putPoint point bytes buffer = .ok (bytes, buffer) := if_neg pointed
      rw [if_neg final, if_neg pointed]
      refine bind_eq_ok.mpr ⟨_, plain, ?_⟩
      rw [if_neg passed]
      exact bind_eq_ok.mpr ⟨written, wrote, rfl⟩

/-- The character that is left out, with the one behind it. -/
theorem putCoordinate_skip (layout : Layout last point skip size)
    (ended : Ended size last.toNat buffer) (next : α) :
    ∃ buffer', putCoordinate last point skip skip (c :: next :: text) buffer =
        .ok (skip, next :: text, buffer') ∧ Ended size last.toNat buffer' := by
  have order := layout.point_lt
  have order' := layout.skip_lt
  have order'' := layout.last_lt
  have final : skip ≠ last := by
    rintro rfl
    omega
  have pointed : skip ≠ point := by
    rintro rfl
    omega
  obtain ⟨written, wrote, ended⟩ := ended.put skip.toNat next (by omega) (by omega)
  have plain : putPoint point skip buffer = .ok (skip, buffer) := if_neg pointed
  refine ⟨written, bind_eq_ok.mpr ⟨c, rfl, ?_⟩, ended⟩
  rw [if_neg final]
  refine bind_eq_ok.mpr ⟨_, plain, ?_⟩
  rw [if_pos rfl]
  exact bind_eq_ok.mpr ⟨next, rfl, bind_eq_ok.mpr ⟨written, wrote, rfl⟩⟩

/-- Nothing is behind the character that is left out, or the buffer is full. -/
theorem putCoordinate_error (layout : Layout last point skip size)
    (length : buffer.length = size) (stuck : (bytes = skip ∧ text = []) ∨ size ≤ bytes.toNat) :
    ∃ fault, putCoordinate last point skip bytes (c :: text) buffer = .error fault := by
  have order := layout.point_lt
  have order' := layout.skip_lt
  have order'' := layout.last_lt
  have final : bytes ≠ last := by
    rintro rfl
    rcases stuck with ⟨rfl, -⟩ | full
    · omega
    · omega
  have pointed : bytes ≠ point := by
    rintro rfl
    rcases stuck with ⟨rfl, -⟩ | full
    · omega
    · omega
  cases outcome : putCoordinate last point skip bytes (c :: text) buffer with
  | error fault => exact ⟨fault, rfl⟩
  | ok filled =>
      obtain ⟨first, seen, outcome⟩ := bind_eq_ok.mp outcome
      rw [if_neg final] at outcome
      obtain ⟨same, plain, outcome⟩ := bind_eq_ok.mp outcome
      rw [putPoint, if_neg pointed] at plain
      obtain rfl := Except.ok.inj plain
      rcases stuck with ⟨rfl, rfl⟩ | full
      · rw [if_pos rfl] at outcome
        obtain ⟨_, absent, _⟩ := bind_eq_ok.mp outcome
        cases absent
      · have passed : bytes ≠ skip := by
          rintro rfl
          omega
        rw [if_neg passed] at outcome
        obtain ⟨_, wrote, _⟩ := bind_eq_ok.mp outcome
        have inside := (put_eq_ok.mp wrote).1
        dsimp only at inside
        omega

/-- How many characters are read before the one that is left out. -/
def early (point skip bytes : Nat) : Nat :=
  if bytes ≤ point then skip - bytes - 1 else skip - bytes

/-- The lengths of text that can be read into a coordinate, from a value of the counter on. -/
def Fits (point skip size bytes length : Nat) : Prop :=
  if bytes ≤ skip then
    length ≠ early point skip bytes + 1 ∧ length ≤ early point skip bytes + (size + 1 - skip)
  else bytes + length ≤ size

theorem fits_write {point skip size bytes : Nat} (order : point + 1 < skip) (order' : skip < size)
    (passed : bytes ≠ skip) (length : Nat) :
    Fits point skip size ((if bytes = point then bytes + 1 else bytes) + 1) length ↔
      Fits point skip size bytes (length + 1) := by
  unfold Fits early
  split_ifs <;> omega

theorem fits_skip {point skip size : Nat} (order : point + 1 < skip) (length : Nat) :
    Fits point skip size (skip + 1) length ↔ Fits point skip size skip (length + 2) := by
  unfold Fits early
  split_ifs <;> omega

/-- A text can be read into a coordinate exactly if it does not end with the character that is
left out, nor goes past the buffer. -/
theorem fillAll_coordinate (layout : Layout last point skip size)
    (ended : Ended size last.toNat buffer) (within : bytes.toNat ≤ size) :
    (Fits point.toNat skip.toNat size bytes.toNat text.length ∧
      ∃ buffer', fillAll (putCoordinate last point skip) bytes text buffer = .ok buffer' ∧
        Ended size last.toNat buffer') ∨
    (¬ Fits point.toNat skip.toNat size bytes.toNat text.length ∧
      ∃ fault, fillAll (putCoordinate last point skip) bytes text buffer = .error fault) := by
  have order := layout.point_lt
  have order' := layout.skip_lt
  have order'' := layout.last_lt
  have bound := layout.size_lt
  induction length : text.length using Nat.strongRecOn generalizing text bytes buffer with
  | ind length' ih =>
      cases text with
      | nil =>
          refine .inl ⟨?_, buffer, fillAll_nil layout.fills bytes buffer, ended⟩
          rw [← length]
          unfold Fits early
          split_ifs <;> simp only [List.length_nil] <;> omega
      | cons c text =>
          rw [fillAll_cons layout.fills]
          by_cases skipped : bytes = skip
          · subst skipped
            cases text with
            | nil =>
                obtain ⟨fault, failed⟩ := putCoordinate_error (c := c) layout ended.1
                  (.inl ⟨rfl, rfl⟩)
                refine .inr ⟨?_, fault, by rw [failed]; rfl⟩
                rw [← length]
                unfold Fits early
                split_ifs <;> simp only [List.length_cons, List.length_nil] <;> omega
            | cons next text =>
                obtain ⟨filled, wrote, kept⟩ := putCoordinate_skip (c := c) layout ended next
                have step : (bytes + 1).toNat = bytes.toNat + 1 := toNat_succ (by omega)
                have rest := @ih text.length (by rw [← length]; simp only [List.length_cons]; omega)
                  (bytes + 1) text filled kept (by omega) rfl
                rw [wrote, ← length, List.length_cons, List.length_cons, ← fits_skip order, ← step]
                exact rest
          · by_cases full : bytes.toNat = size
            · obtain ⟨fault, failed⟩ := putCoordinate_error (c := c) layout ended.1
                (.inr (Nat.le_of_eq full.symm))
              refine .inr ⟨?_, fault, by rw [failed]; rfl⟩
              rw [← length, List.length_cons]
              unfold Fits early
              split_ifs <;> omega
            · have apart : bytes.toNat ≠ skip.toNat := fun same =>
                skipped (UInt8.toNat_inj.mp same)
              obtain ⟨filled, wrote, kept⟩ := @putCoordinate_write _ _ _ _ _ _ _ c text _ layout
                ended (by omega) skipped
              have pointed : bytes = point ↔ bytes.toNat = point.toNat := UInt8.toNat_inj.symm
              have step : ((if bytes = point then bytes + 1 else bytes) + 1).toNat =
                  (if bytes.toNat = point.toNat then bytes.toNat + 1 else bytes.toNat) + 1 := by
                have once : (bytes + 1).toNat = bytes.toNat + 1 := toNat_succ (by omega)
                by_cases here : bytes = point
                · rw [if_pos here, if_pos (pointed.mp here), toNat_succ, once]
                  rw [once, here]
                  omega
                · rw [if_neg here, if_neg (mt pointed.mpr here), once]
              have rest := @ih text.length (by rw [← length]; exact Nat.lt_succ_self _)
                ((if bytes = point then bytes + 1 else bytes) + 1) text filled kept
                (by rw [step]; split_ifs <;> omega) rfl
              rw [wrote, ← length, List.length_cons, ← fits_write order (by omega) apart, ← step]
              exact rest

/-- The first character of a field is the first one of its coordinate. -/
theorem putCoordinate_first (layout : Layout last point skip size) {filled : UInt8 × List α × List α}
    (wrote : putCoordinate last point skip 0 (c :: text) buffer = .ok filled) :
    filled.2.2[0]? = some c := by
  have order := layout.point_lt
  have order' := layout.skip_lt
  have positive := layout.point_pos
  have final : (0 : UInt8) ≠ last := by
    rintro rfl
    exact absurd order' (Nat.not_lt_zero _)
  have pointed : (0 : UInt8) ≠ point := by
    rintro rfl
    exact absurd positive (Nat.not_lt_zero _)
  have passed : (0 : UInt8) ≠ skip := by
    rintro rfl
    exact absurd order (Nat.not_lt_zero _)
  obtain ⟨first, seen, wrote⟩ := bind_eq_ok.mp wrote
  obtain rfl := Except.ok.inj seen
  rw [if_neg final] at wrote
  obtain ⟨same, plain, wrote⟩ := bind_eq_ok.mp wrote
  rw [putPoint, if_neg pointed] at plain
  obtain rfl := Except.ok.inj plain
  rw [if_neg passed] at wrote
  obtain ⟨written, put, wrote⟩ := bind_eq_ok.mp wrote
  obtain rfl := Except.ok.inj wrote
  obtain ⟨inside, rfl⟩ := put_eq_ok.mp put
  exact List.getElem?_set_self inside

end

/-- The first character of a field is the first one of its text. -/
theorem putText_first {limit : UInt8} (positive : 0 < limit) {c : α} {buffer : List α}
    {written : UInt8 × List α} (wrote : putText limit 0 c buffer = .ok written) :
    written.2[0]? = some c := by
  unfold putText at wrote
  rw [if_pos positive] at wrote
  obtain ⟨first, put, wrote⟩ := bind_eq_ok.mp wrote
  obtain ⟨second, put', wrote⟩ := bind_eq_ok.mp wrote
  obtain rfl := Except.ok.inj wrote
  obtain ⟨inside, rfl⟩ := put_eq_ok.mp put
  obtain ⟨-, rfl⟩ := put_eq_ok.mp put'
  rw [List.getElem?_set_ne (Nat.succ_ne_zero _)]
  exact List.getElem?_set_self inside

theorem putSatellites_first {c : α} {buffer : List α} {written : UInt8 × List α}
    (wrote : putSatellites 0 c buffer = .ok written) : written.2[0]? = some c := by
  unfold putSatellites at wrote
  rw [if_pos (by decide)] at wrote
  obtain ⟨first, put, wrote⟩ := bind_eq_ok.mp wrote
  obtain ⟨second, put', wrote⟩ := bind_eq_ok.mp wrote
  obtain rfl := Except.ok.inj wrote
  obtain ⟨inside, rfl⟩ := put_eq_ok.mp put
  obtain ⟨-, rfl⟩ := put_eq_ok.mp put'
  rw [List.getElem?_set_ne (Nat.succ_ne_zero _)]
  exact List.getElem?_set_self inside

/-- A case of the switch that starts its buffer with the character at `buf`. -/
def Starts (handler : Handler α) : Prop :=
  ∀ c text buffer filled, handler 0 (c :: text) buffer = .ok filled → filled.2.2[0]? = some c

omit [Glyph α] in
theorem starts_atBuf {write : Writer α}
    (first : ∀ c buffer written, write 0 c buffer = .ok written → written.2[0]? = some c) :
    Starts (atBuf write) := by
  intro c text buffer filled wrote
  obtain ⟨same, seen, wrote⟩ := bind_eq_ok.mp wrote
  obtain rfl := Except.ok.inj seen
  obtain ⟨written, put, wrote⟩ := bind_eq_ok.mp wrote
  obtain rfl := Except.ok.inj wrote
  exact first c buffer written put

end Trunk.Rgps
