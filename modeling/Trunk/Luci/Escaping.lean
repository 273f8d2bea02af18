import Trunk.Luci.Sequence

/-! # Escaped text

The output of `pcdata` and of `striptags` has no markup: no bracket and no quote is left in it, and
an ampersand always begins an entity (`Trunk.Luci.escaped_output`). No path of the bytes to the
output is left out: a sequence that `_validate_utf8` copies has no byte below 0x80.
-/

namespace Trunk.Luci

open CString Loop

variable {s rest front back : List UInt8} {c byte : UInt8}

/-- The entities that are written. -/
def entities : List (List UInt8) :=
  ["&#34;", "&#38;", "&#39;", "&#60;", "&#62;"].map fun entity => entity.toList.map ascii

/-- A text without brackets and quotes, in which an ampersand begins an entity. -/
def NoMarkup (out : List UInt8) : Prop :=
  (∀ byte ∈ out, byte ≠ ascii '<' ∧ byte ≠ ascii '>' ∧ byte ≠ ascii '"' ∧ byte ≠ ascii '\'') ∧
    ∀ front rest, out = front ++ ascii '&' :: rest → ∃ entity ∈ entities, entity <+: ascii '&' :: rest

theorem noMarkup_nil : NoMarkup [] := by
  refine ⟨fun byte member => absurd member List.not_mem_nil, ?_⟩
  intro front rest empty
  cases front <;> cases empty

/-- Texts without markup are put together. -/
theorem NoMarkup.append (first : NoMarkup front) (second : NoMarkup back) :
    NoMarkup (front ++ back) := by
  refine ⟨?_, ?_⟩
  · intro byte member
    exact (List.mem_append.mp member).elim (first.1 byte) (second.1 byte)
  · intro before rest split
    rcases List.append_eq_append_iff.mp split with ⟨more, rfl, inside⟩ | ⟨more, rfl, inside⟩
    · exact second.2 more rest inside
    · cases more with
      | nil => exact second.2 [] rest inside.symm
      | cons byte more =>
          obtain ⟨rfl, rfl⟩ := List.cons_eq_cons.mp inside
          obtain ⟨entity, known, there⟩ := first.2 before more rfl
          exact ⟨entity, known, there.trans (List.prefix_append _ _)⟩

theorem noMarkup_singleton (plain : isMarkup c = false) : NoMarkup [c] := by
  simp only [isMarkup, Bool.or_eq_false_iff, decide_eq_false_iff_not] at plain
  obtain ⟨⟨⟨⟨ampersand, apostrophe⟩, quote⟩, less⟩, greater⟩ := plain
  refine ⟨?_, ?_⟩
  · intro byte member
    obtain rfl := List.mem_singleton.mp member
    exact ⟨less, greater, quote, apostrophe⟩
  · intro before rest split
    have member : ascii '&' ∈ [c] := split ▸ List.mem_append_right _ (List.mem_cons_self ..)
    exact absurd (List.mem_singleton.mp member).symm ampersand

theorem noMarkup_entity {entity : List UInt8} (known : entity ∈ entities) : NoMarkup entity := by
  have shape : ∀ entity ∈ entities, ∃ tail, entity = ascii '&' :: tail ∧ ∀ byte ∈ tail,
      isMarkup byte = false := by
    have each : ∀ entity ∈ entities, entity.head? = some (ascii '&') ∧
        (entity.tail.all fun byte => !isMarkup byte) = true := by decide
    intro entity known
    obtain ⟨first, plain⟩ := each entity known
    refine ⟨entity.tail, ?_, ?_⟩
    · cases entity with
      | nil => cases first
      | cons byte tail => rw [Option.some.inj first, List.tail_cons]
    · intro byte member
      exact Bool.not_eq_true' _ |>.mp (List.all_eq_true.mp plain byte member)
  obtain ⟨tail, rfl, plain⟩ := shape entity known
  refine ⟨?_, ?_⟩
  · intro byte member
    rcases List.mem_cons.mp member with rfl | behind
    · decide
    · exact (noMarkup_singleton (plain byte behind)).1 byte (List.mem_singleton_self _)
  · intro before rest split
    cases before with
    | nil => exact ⟨_, known, by rw [split]; exact List.prefix_rfl⟩
    | cons first before =>
        have member : ascii '&' ∈ tail := by
          rw [(List.cons_eq_cons.mp split).2]
          exact List.mem_append_right _ (List.mem_cons_self ..)
        exact absurd (plain _ member) (by decide)

/-- What is written for a byte that is escaped is an entity. -/
theorem escape_mem_entities (markup : isMarkup c = true) : escape c ∈ entities := by
  simp only [isMarkup, Bool.or_eq_true, decide_eq_true_eq] at markup
  rcases markup with (((rfl | rfl) | rfl) | rfl) | rfl <;> decide

/-- What `pcdata` writes for the bytes from a place on. -/
def pcdataItem (c : UInt8) (rest : List UInt8) : List UInt8 × Nat :=
  if isInvalidXml c then ([], 0)
  else if isMarkup c then (escape c, 0)
  else if c ≤ 0x7F then ([c], 0)
  else item c rest

theorem lt_length_of_drop {place : Nat} (suffix : s.drop place = c :: rest) : place < s.length := by
  have length := congrArg List.length suffix
  rw [List.length_drop, List.length_cons] at length
  omega

theorem spells_pcdata (s : List UInt8) : Spells (pcdataRound s) s pcdataItem where
  again place c rest buf suffix := by
    unfold pcdataRound pcdataItem
    rw [if_pos (lt_length_of_drop suffix), fetch_first suffix]
    change (if isInvalidXml c then _ else _) = _
    by_cases invalid : isInvalidXml c = true
    · rw [if_pos invalid, if_pos invalid, List.append_nil]
      rfl
    · rw [if_neg invalid, if_neg invalid]
      by_cases markup : isMarkup c = true
      · rw [if_pos markup, if_pos markup]
        rfl
      · rw [if_neg markup, if_neg markup]
        by_cases plain : c ≤ 0x7F
        · rw [if_pos plain, if_pos plain]
          rfl
        · rw [if_neg plain, if_neg plain]
          exact validateRound_eq suffix buf
  done place buf outside := if_neg (Nat.not_lt_of_le outside)

theorem shrinks_pcdata (s : List UInt8) : Shrinks (pcdataRound s) (Scan.size s) .outside := by
  refine shrinks_of_ahead ?_
  intro scan next round
  unfold pcdataRound at round
  by_cases inside : scan.o < s.length
  · rw [if_pos inside] at round
    refine ⟨inside, ?_⟩
    cases first : fetch s scan.ptr with
    | error fault =>
        rw [first] at round
        cases round
    | ok c =>
        rw [first] at round
        change (if isInvalidXml c then _ else _) = _ at round
        split at round
        · obtain rfl := Round.again.inj (Except.ok.inj round)
          exact Nat.lt_succ_self _
        · split at round
          · obtain rfl := Round.again.inj (Except.ok.inj round)
            exact Nat.lt_succ_self _
          · split at round
            · obtain rfl := Round.again.inj (Except.ok.inj round)
              exact Nat.lt_succ_self _
            · exact o_validateRound round
  · rw [if_neg inside] at round
    cases round

/-- `pcdata` reads the text only, and writes it from one place to the next. -/
theorem pcdata_eq (s : List UInt8) : pcdata s = .ok (spell pcdataItem s) :=
  (spells_pcdata s).loop_eq (shrinks_pcdata s) 0 []

/-- What holds of everything that is written for a place holds of the output. -/
theorem spell_all {write : UInt8 → List UInt8 → List UInt8 × Nat} {Good : List UInt8 → Prop}
    (empty : Good []) (append : ∀ front back, Good front → Good back → Good (front ++ back))
    (each : ∀ c rest, Good (write c rest).1) (s : List UInt8) : Good (spell write s) := by
  induction s using spell.induct write with
  | case1 =>
      rw [spell]
      exact empty
  | case2 c rest ih =>
      rw [spell]
      exact append _ _ (each c rest) ih

theorem not_isMarkup_of_high (high : 0x80 ≤ byte) : isMarkup byte = false := by
  have bound := UInt8.le_iff_toNat_le.mp high
  simp only [isMarkup, Bool.or_eq_false_iff, decide_eq_false_iff_not]
  refine ⟨⟨⟨⟨?_, ?_⟩, ?_⟩, ?_⟩, ?_⟩ <;>
    · rintro rfl
      exact absurd bound (by decide)

theorem not_isInvalidXml_of_high (high : 0x80 ≤ byte) : isInvalidXml byte = false := by
  have bound := UInt8.le_iff_toNat_le.mp high
  have most : (0x80 : UInt8).toNat = 128 := rfl
  simp only [isInvalidXml, Bool.or_eq_false_iff, Bool.and_eq_false_iff, decide_eq_false_iff_not,
    UInt8.le_iff_toNat_le, UInt8.toNat_ofNat]
  refine ⟨⟨⟨by omega, .inr (by omega)⟩, .inr (by omega)⟩, ?_⟩
  rintro rfl
  exact absurd bound (by decide)

theorem high_of_mbIsCont (cont : mbIsCont byte = true) : 0x80 ≤ byte := by
  unfold mbIsCont at cont
  exact of_decide_eq_true (Bool.and_eq_true_iff.mp cont).1

/-- The bytes that are taken behind the first one are continuation bytes. -/
theorem mbIsCont_of_mem_taken (member : byte ∈ rest.take (taken c rest)) : mbIsCont byte = true := by
  have few : taken c rest ≤ (rest.takeWhile mbIsCont).length := Nat.min_le_right _ _
  have inside : rest.take (taken c rest) <+: rest.takeWhile mbIsCont := by
    refine List.prefix_of_prefix_length_le (List.take_prefix _ _) (List.takeWhile_prefix _) ?_
    rw [List.length_take]
    omega
  exact List.mem_takeWhile_imp (inside.subset member)

/-- What `_validate_utf8` writes for a byte that is not ASCII is not ASCII, or a question mark. -/
theorem item_high (high : ¬ c ≤ 0x7F) (member : byte ∈ (item c rest).1) :
    byte = ascii '?' ∨ 0x80 ≤ byte := by
  have first : 0x80 ≤ c := by
    rw [UInt8.le_iff_toNat_le] at high ⊢
    exact Nat.lt_of_not_le high
  unfold item at member
  rw [if_neg fun plain => high plain.2] at member
  split at member
  · dsimp only at member
    split at member
    · rcases List.mem_cons.mp member with rfl | behind
      · exact .inr first
      · exact .inr (high_of_mbIsCont (mbIsCont_of_mem_taken behind))
    · exact .inl (List.mem_singleton.mp member)
  · exact .inl (List.mem_singleton.mp member)

theorem noMarkup_of_plain {out : List UInt8} (plain : ∀ byte ∈ out, isMarkup byte = false) :
    NoMarkup out := by
  induction out with
  | nil => exact noMarkup_nil
  | cons byte out ih =>
      have first := noMarkup_singleton (plain byte (List.mem_cons_self ..))
      exact first.append (ih fun other member => plain other (List.mem_cons_of_mem _ member))

theorem noMarkup_pcdataItem (c : UInt8) (rest : List UInt8) : NoMarkup (pcdataItem c rest).1 := by
  unfold pcdataItem
  split
  · exact noMarkup_nil
  · split
    · exact noMarkup_entity (escape_mem_entities ‹_›)
    · rename_i plain
      split
      · exact noMarkup_singleton (Bool.not_eq_true _ |>.mp plain)
      · rename_i high
        refine noMarkup_of_plain fun byte member => ?_
        rcases item_high high member with rfl | above
        · decide
        · exact not_isMarkup_of_high above

/-- `pcdata` writes no byte that is invalid in XML. -/
theorem valid_pcdataItem (c : UInt8) (rest : List UInt8) :
    ∀ byte ∈ (pcdataItem c rest).1, isInvalidXml byte = false := by
  intro byte member
  unfold pcdataItem at member
  split at member
  · exact absurd member List.not_mem_nil
  · rename_i valid
    split at member
    · have each : ∀ entity ∈ entities, ∀ byte ∈ entity, isInvalidXml byte = false := by
        decide +kernel
      exact each _ (escape_mem_entities ‹_›) byte member
    · split at member
      · rw [List.mem_singleton.mp member]
        exact Bool.not_eq_true _ |>.mp valid
      · rename_i high
        rcases item_high high member with rfl | above
        · decide
        · exact not_isInvalidXml_of_high above

section Striptags

variable {strip : Strip}

theorem not_isMarkup_of_isSpace (space : isSpace c = true) : isMarkup c = false := by
  by_contra markup
  simp only [Bool.not_eq_false, isMarkup, Bool.or_eq_true, decide_eq_true_eq] at markup
  rcases markup with (((rfl | rfl) | rfl) | rfl) | rfl <;> exact absurd space (by decide)

theorem noMarkup_blank (clean : NoMarkup strip.buf) (space : isSpace c = true) :
    NoMarkup (strip.blank c) := by
  unfold Strip.blank
  split
  · exact clean
  · exact clean.append (noMarkup_singleton (not_isMarkup_of_isSpace space))

theorem fetch_inside {index : Nat} (inside : index < s.length) : ∃ byte, fetch s index = .ok byte := by
  refine ⟨s[index], ?_⟩
  rw [fetch, List.getElem?_eq_getElem inside]

/-- A tag is looked for inside the text, from a place on. -/
theorem findTag_inside {more tag : Nat} (inside : tag + more ≤ s.length) :
    ∃ found, findTag s more tag = .ok found ∧ ∀ last, found = some last → tag ≤ last := by
  induction more generalizing tag with
  | zero => exact ⟨none, rfl, fun last missing => nomatch missing⟩
  | succ more ih =>
      obtain ⟨byte, here⟩ := @fetch_inside s tag (by omega)
      obtain ⟨found, done, later⟩ := @ih (tag + 1) (by omega)
      rw [findTag, here]
      change ∃ found, (if byte = ascii '>' then _ else _) = _ ∧ _
      split
      · refine ⟨some tag, rfl, ?_⟩
        intro last same
        exact Nat.le_of_eq (Option.some.inj same)
      · refine ⟨found, done, ?_⟩
        intro last same
        exact Nat.le_of_succ_le (later last same)

theorem opensTag_inside (ptr : Nat) (c : UInt8) : ∃ opens, opensTag s ptr c = .ok opens := by
  unfold opensTag
  split
  · rename_i both
    obtain ⟨next, there⟩ := @fetch_inside s (ptr + 1) (by omega)
    rw [there]
    exact ⟨_, rfl⟩
  · exact ⟨false, rfl⟩

/-- A round of `striptags` reads the text only, goes ahead in it, and writes no markup. -/
theorem striptagsRound_clean (clean : NoMarkup strip.buf) :
    (∃ next, striptagsRound s strip = .ok (.again next) ∧ strip.ptr < s.length ∧
      strip.ptr < next.ptr ∧ NoMarkup next.buf) ∨
    striptagsRound s strip = .ok (.done strip.buf) := by
  unfold striptagsRound
  by_cases inside : strip.ptr < s.length
  · refine .inl ?_
    obtain ⟨c, here⟩ := fetch_inside inside
    obtain ⟨opens, decided⟩ := @opensTag_inside s strip.ptr c
    rw [if_pos inside, here]
    change ∃ next, (opensTag s strip.ptr c >>= fun opens => _) = _ ∧ _
    rw [decided]
    cases opens with
    | true =>
        obtain ⟨found, done, later⟩ := @findTag_inside s (s.length - strip.ptr) strip.ptr (by omega)
        change ∃ next, (findTag s (s.length - strip.ptr) strip.ptr >>= fun found => _) = _ ∧ _
        rw [done]
        cases found with
        | some tag =>
            exact ⟨_, rfl, inside, Nat.lt_succ_of_le (later tag rfl),
              noMarkup_blank clean (by decide)⟩
        | none => exact ⟨_, rfl, inside, Nat.lt_succ_self _, clean⟩
    | false =>
        change ∃ next, (if isSpace c then _ else _) = _ ∧ _
        split
        · exact ⟨_, rfl, inside, Nat.lt_succ_self _, noMarkup_blank clean ‹_›⟩
        · refine ⟨_, rfl, inside, Nat.lt_succ_self _, clean.append ?_⟩
          split
          · exact noMarkup_entity (escape_mem_entities ‹_›)
          · exact noMarkup_singleton (Bool.not_eq_true _ |>.mp ‹_›)
  · exact .inr (if_neg inside)

/-- A loop whose rounds go ahead, without a fault, ends with what they keep. -/
theorem iterate_clean {fuel : Nat} (enough : s.length - strip.ptr + 1 ≤ fuel)
    (clean : NoMarkup strip.buf) :
    ∃ out, iterate (striptagsRound s) .outside fuel strip = .ok out ∧ NoMarkup out := by
  induction fuel generalizing strip with
  | zero => exact absurd enough (Nat.not_succ_le_zero _)
  | succ fuel ih =>
      rw [iterate]
      rcases @striptagsRound_clean s strip clean with ⟨next, round, inside, ahead, kept⟩ | done
      · rw [round]
        exact ih (by omega) kept
      · rw [done]
        exact ⟨strip.buf, rfl, clean⟩

end Striptags

/-- The outputs of `pcdata` and of `striptags` have no markup, that of `pcdata` has no byte that is
invalid in XML, and only the text is read. -/
theorem escaped_output (s : List UInt8) :
    (∃ out, pcdata s = .ok out ∧ NoMarkup out ∧ ∀ byte ∈ out, isInvalidXml byte = false) ∧
    ∃ out, striptags s = .ok out ∧ NoMarkup out := by
  refine ⟨⟨spell pcdataItem s, pcdata_eq s, ?_, ?_⟩, ?_⟩
  · exact spell_all noMarkup_nil (fun _ _ => NoMarkup.append) noMarkup_pcdataItem s
  · refine @spell_all _ (fun out => ∀ byte ∈ out, isInvalidXml byte = false) ?_ ?_ valid_pcdataItem s
    · exact fun byte member => absurd member List.not_mem_nil
    · intro front back first second byte member
      exact (List.mem_append.mp member).elim (first byte) (second byte)
  · exact iterate_clean (Nat.le_refl _) noMarkup_nil

end Trunk.Luci
