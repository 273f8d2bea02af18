import Trunk.Nvram.RoundTrip

/-! # What a commit loses

A commit returns what `_nvram_rehash` returns, and that is zero. The variables for which the image
has no space are left out of it, and a name with an equals sign is read back as another. So a
commit that loses nothing in silence is one of variables that all fit and have no such names, and
every such commit loses nothing (`Trunk.Nvram.commit_keeps_iff`).
-/

namespace Trunk.Nvram

open CString Memory Run

variable {endian : Endian} {address : UInt32} {h h' before after : Handle} {name value : CStr}
  {t : Tuple} {area image : List UInt8}

/-- What `_nvram_rehash` returns. -/
def rehashStatus : Int := 0

/-- `nvram_commit` with its status, which is that of `_nvram_rehash`. -/
def commitCall (endian : Endian) (address : UInt32) (h : Handle) : Option (Int × Handle) := do
  return (rehashStatus, ← nvramCommit endian address h)

theorem commitCall_eq_some_iff {status : Int} :
    commitCall endian address h = some (status, after) ↔
      status = 0 ∧ nvramCommit endian address h = some after := by
  unfold commitCall
  cases nvramCommit endian address h with
  | none => simp only [Option.bind_eq_bind, Option.bind_none, reduceCtorEq, and_false]
  | some made =>
      simp only [Option.bind_eq_bind, Option.bind_some, Option.pure_def, Option.some.injEq,
        Prod.mk.injEq, rehashStatus, eq_comm]

/-- All variables fit in the space, with the double NUL behind them. -/
def Fits (h : Handle) : Prop :=
  headerSize + (h.tuples.map fun t =>
    t.name.bytes.length + t.value.bytes.length + 2).sum ≤ nvramSpace - 2

/-- A commit loses no variable in silence. Where it returns zero, every variable is found still.
Where the variables do not fit, it fails, and the image holds the variables it held. -/
def NoSilentLoss (endian : Endian) (address : UInt32) (before : Handle) : Prop :=
  ∃ status after, commitCall endian address before = some (status, after) ∧
    (status = 0 →
      ∀ name value, nvramGet before name = some value → nvramGet after name = some value) ∧
    (¬ Fits before → status ≠ 0 ∧
      ∀ held, nvramOpen endian before.mmap = some (some held) →
        ∃ held', nvramOpen endian after.mmap = some (some held') ∧ nvramGet held' = nvramGet held)

/-- The chain that is written is the front of a chain, and leaves space for a double NUL. -/
theorem writeChain_kept (text : List UInt8) (chain : List Tuple) :
    ∃ kept : List Tuple, kept.Sublist chain ∧ writeChain text chain = text ++ kept.flatMap Tuple.text ∧
      (headerSize + text.length ≤ nvramSpace - 2 →
        headerSize + (writeChain text chain).length ≤ nvramSpace - 2) := by
  induction chain generalizing text with
  | nil => exact ⟨[], List.Sublist.refl _, (List.append_nil text).symm, id⟩
  | cons t chain ih =>
      rw [writeChain]
      split
      · exact ⟨[], List.nil_sublist _, (List.append_nil text).symm, id⟩
      · rename_i room
        obtain ⟨kept, fewer, wrote, bounded⟩ := ih (text ++ t.text)
        refine ⟨t :: kept, fewer.cons_cons t, ?_, fun _ => bounded ?_⟩
        · rw [wrote, List.flatMap_cons, List.append_assoc]
        · rw [List.length_append]
          omega

/-- What is written is the text of some of the tuples, and leaves space for a double NUL. -/
theorem writeTuples_kept (h : Handle) :
    ∃ kept : List Tuple, kept.Sublist h.tuples ∧ writeTuples h = kept.flatMap Tuple.text ∧
      headerSize + (writeTuples h).length ≤ nvramSpace - 2 := by
  have buckets : ∀ (slots : List (Fin 257)) (text : List UInt8),
      headerSize + text.length ≤ nvramSpace - 2 →
      ∃ kept : List Tuple, kept.Sublist (slots.flatMap h.nvramHash) ∧
        slots.foldl (fun text slot => writeChain text (h.nvramHash slot)) text =
          text ++ kept.flatMap Tuple.text ∧
        headerSize + (text ++ kept.flatMap Tuple.text).length ≤ nvramSpace - 2 := by
    intro slots
    induction slots with
    | nil =>
        intro text room
        refine ⟨[], List.Sublist.refl _, (List.append_nil text).symm, ?_⟩
        rw [List.flatMap_nil, List.append_nil]
        exact room
    | cons slot slots ih =>
        intro text room
        obtain ⟨first, fewer, wrote, bounded⟩ := writeChain_kept text (h.nvramHash slot)
        obtain ⟨later, fewer', wrote', bounded'⟩ := ih _ (bounded room)
        have whole : writeChain text (h.nvramHash slot) ++ later.flatMap Tuple.text =
            text ++ (first ++ later).flatMap Tuple.text := by
          rw [wrote, List.flatMap_append, List.append_assoc]
        refine ⟨first ++ later, ?_, ?_, ?_⟩
        · rw [List.flatMap_cons]
          exact fewer.append fewer'
        · rw [List.foldl_cons, wrote', whole]
        · rw [← whole]
          exact bounded'
  obtain ⟨kept, fewer, wrote, bounded⟩ := buckets (List.finRange 257) [] (by decide)
  rw [List.nil_append] at wrote bounded
  have text : writeTuples h = kept.flatMap Tuple.text := wrote
  exact ⟨kept, fewer, text, by rw [text]; exact bounded⟩

/-- Every handle is committed. What is found then was written or is a missing parameter. -/
theorem nvramCommit_isSome (located : Located endian h) (mapping : Mapping address h.mmap.length) :
    ∃ (kept : List Tuple) (parsed after : Handle), kept.Sublist h.tuples ∧
      headerSize + (kept.flatMap Tuple.text).length ≤ nvramSpace - 2 ∧
      parsed = kept.foldl (fun h t => (nvramSet h (nameOf t.string) (valueOf t.string)).2)
        (nvramFree { h with mmap := after.mmap }) ∧
      nvramCommit endian address h = some after ∧ Grown sdramNames parsed after := by
  obtain ⟨kept, fewer, text, bounded⟩ := writeTuples_kept h
  obtain ⟨image, made⟩ := commitImage_isSome located mapping bounded
  have written := commitImage_written made
  obtain ⟨rest, area, enough⟩ := written.front_text text
  have read : parse (image.drop (h.offset + headerSize)).length
      (image.drop (h.offset + headerSize)) (nvramFree { h with mmap := image }) =
        some (kept.foldl (fun h t => (nvramSet h (nameOf t.string) (valueOf t.string)).2)
          (nvramFree { h with mmap := image })) := by
    rw [area] at enough ⊢
    exact parse_texts kept rest _ enough
  obtain ⟨after, rehashed, grown⟩ := nvramRehash_of_parse endian (h := { h with mmap := image }) read
  have same : after.mmap = image := (nvramRehash_spec rehashed).2.1
  rw [text] at bounded
  refine ⟨kept, _, after, fewer, bounded, ?_, ?_, grown⟩
  · rw [same]
  · rw [nvramCommit, made]
    exact rehashed

theorem Shelved.nvramGet_isSome {allowed : CStr → Prop} (shelved : Shelved allowed h)
    (listed : t ∈ h.tuples) : ∃ value, nvramGet h t.name = some value := by
  obtain ⟨slot, here⟩ := mem_tuples.mp listed
  have member : t.name ∈ (h.nvramHash slot).map Tuple.name := List.mem_map.mpr ⟨t, here, rfl⟩
  rw [nvramGet, (shelved.placed slot _ member).1]
  cases found : lookup t.name (h.nvramHash slot) with
  | none => exact absurd member (lookup_eq_none_iff.mp found)
  | some other => exact ⟨other.value, rfl⟩

/-- What a handle keeps while it is used, also with names that have an equals sign. -/
structure Usable (endian : Endian) (size : Nat) (h : Handle) : Prop where
  shelved : Shelved (fun _ => True) h
  located : Located endian h
  size : h.mmap.length = size

theorem Ready.usable {size : Nat} (ready : Ready endian size h) : Usable endian size h :=
  ⟨(filed_iff_shelved.mp ready.filed).mono fun _ _ => trivial, ready.located, ready.size⟩

theorem Usable.of_sameImage {size : Nat} (usable : Usable endian size h)
    (shelved : Shelved (fun _ => True) h') (same : SameImage h h') : Usable endian size h' := by
  refine ⟨shelved, ?_, ?_⟩
  · rw [Located, same.1, same.2]
    exact usable.located
  · rw [same.1]
    exact usable.size

theorem Usable.edit {size : Nat} {call : Edit} (usable : Usable endian size h)
    (done : edit endian address h call = some h') : Usable endian size h' := by
  cases call with
  | set name value =>
      obtain rfl := Option.some.inj done
      exact usable.of_sameImage (usable.shelved.nvramSet trivial value)
        (sameImage_nvramSet h name value)
  | unset name =>
      obtain rfl := Option.some.inj done
      exact usable.of_sameImage (usable.shelved.nvramUnset name) (sameImage_nvramUnset h name)
  | commit => exact (nvramCommit_ready usable.located usable.size done).usable

/-- A handle that is opened and edited by any calls stays usable. -/
theorem usable_attempt {opened : Handle} (open_ : nvramOpen endian area = some (some opened))
    {edits : List Edit} (ran : attempt (edit endian address) opened edits = some before) :
    Usable endian area.length before :=
  attempt_invariant (fun _ _ _ usable _ done => usable.edit done) edits opened before
    (nvramOpen_spec open_).usable (met_true (edit endian address) opened edits) ran

/-- The status is zero, so what does not fit is lost in silence. -/
theorem fits_of_noSilentLoss (kept : NoSilentLoss endian address before) : Fits before := by
  obtain ⟨status, after, called, -, failed⟩ := kept
  by_contra full
  exact (failed full).1 (commitCall_eq_some_iff.mp called).1

/-- A name that is found after a commit has no equals sign. -/
theorem plain_of_noSilentLoss {size : Nat} (usable : Usable endian size before)
    (kept : NoSilentLoss endian address before) (listed : t ∈ before.tuples) :
    ascii '=' ∉ t.name.bytes := by
  obtain ⟨status, after, called, same, -⟩ := kept
  obtain ⟨zero, committed⟩ := commitCall_eq_some_iff.mp called
  obtain ⟨value, found⟩ := usable.shelved.nvramGet_isSome listed
  have filed := (nvramCommit_ready usable.located usable.size committed).filed
  have after' := filed.nvramGet_eq_some_iff.mp (same zero t.name value found)
  have plain := filed.plain_of_mem after'
  exact plain

/-- A handle is opened on any image and edited by any calls. A commit of it loses nothing in
silence exactly if the variables all fit and no name has an equals sign. -/
theorem commit_keeps_iff (endian : Endian) {address : UInt32} {area : List UInt8}
    (mapping : Mapping address area.length) {opened before : Handle}
    (open_ : nvramOpen endian area = some (some opened)) (edits : List Edit)
    (ran : attempt (edit endian address) opened edits = some before) :
    NoSilentLoss endian address before ↔
      Fits before ∧ ∀ t ∈ before.tuples, ascii '=' ∉ t.name.bytes := by
  have usable := usable_attempt open_ ran
  constructor
  · intro kept
    exact ⟨fits_of_noSilentLoss kept, fun t listed => plain_of_noSilentLoss usable kept listed⟩
  · intro both
    have filed : Filed before := by
      refine filed_iff_shelved.mpr ⟨fun slot name listed => ?_, usable.shelved.unique⟩
      obtain ⟨t, here, rfl⟩ := List.mem_map.mp listed
      exact ⟨(usable.shelved.placed slot t.name listed).1,
        both.2 t (mem_tuples.mpr ⟨slot, here⟩)⟩
    obtain ⟨after, committed, -, values⟩ :=
      Ready.commit ⟨filed, usable.located, usable.size⟩ mapping both.1
    exact ⟨0, after, commitCall_eq_some_iff.mpr ⟨rfl, committed⟩, fun _ => values.keeps,
      fun full => absurd both.1 full⟩

/-- A handle with a variable of its own keeps it. -/
theorem commit_keeps_sign :
    NoSilentLoss .little 0x10000 (nvramSet blankHandle (literal "a") (literal "b=c")).2 := by
  refine (commit_keeps_iff .little ⟨by decide, by rw [length_blank]; decide, by rw [length_blank]⟩
    nvramOpen_blank [.set (literal "a") (literal "b=c")] rfl).mpr ⟨?_, ?_⟩
  · unfold Fits
    decide +kernel
  · have plain : ((nvramSet blankHandle (literal "a") (literal "b=c")).2.tuples.all fun t =>
        ascii '=' ∉ t.name.bytes) = true := by decide +kernel
    intro t listed
    exact of_decide_eq_true (List.all_eq_true.mp plain t listed)

/-- Of texts that are set one after another, what is found was there, or is a part of a text. -/
theorem nvramGet_texts (start : Handle) (kept : List Tuple)
    (found : nvramGet (kept.foldl (fun h t =>
      (nvramSet h (nameOf t.string) (valueOf t.string)).2) start) name = some value) :
    nvramGet start name = some value ∨ ∃ t ∈ kept, value = valueOf t.string := by
  induction kept generalizing start with
  | nil => exact .inl found
  | cons t kept ih =>
      rcases ih _ found with earlier | ⟨other, listed, rfl⟩
      · change nvramGet (nvramSet start _ _).2 name = some value at earlier
        rw [nvramSet_eq] at earlier
        split at earlier
        · exact .inl earlier
        · rename_i room
          have stored := @nvramGet_nvramSet start (nameOf t.string) (valueOf t.string) name (by omega)
          rw [nvramSet_eq, if_neg room, earlier] at stored
          split at stored
          · exact .inr ⟨t, List.mem_cons_self .., Option.some.inj stored⟩
          · exact .inl stored.symm
      · exact .inr ⟨other, List.mem_cons_of_mem t listed, rfl⟩

/-- A value that has no space in the image is not found after a commit. -/
theorem commit_loses (located : Located endian h) (mapping : Mapping address h.mmap.length)
    (other : name ∉ sdramNames) (long : nvramSpace ≤ value.bytes.length + headerSize) :
    ∃ after, commitCall endian address h = some (0, after) ∧ nvramGet after name ≠ some value := by
  obtain ⟨kept, parsed, after, -, bounded, rfl, committed, grown⟩ :=
    nvramCommit_isSome located mapping
  refine ⟨after, commitCall_eq_some_iff.mpr ⟨rfl, committed⟩, fun found => ?_⟩
  cases read : nvramGet (kept.foldl (fun h t =>
      (nvramSet h (nameOf t.string) (valueOf t.string)).2)
        (nvramFree { h with mmap := after.mmap })) name with
  | none =>
      refine other (grown.values.adds name read ?_)
      rw [found]
      nofun
  | some value' =>
      have same := grown.values.keeps name value' read
      rw [found] at same
      obtain rfl := Option.some.inj same
      rcases nvramGet_texts _ kept read with none | ⟨t, listed, rfl⟩
      · cases none
      · have part : (valueOf t.string).bytes.length ≤ t.string.bytes.length :=
          ((List.tail_suffix _).trans (List.dropWhile_suffix _)).length_le
        have whole := length_text_le listed
        have text := congrArg List.length (t.text_append [])
        simp only [List.length_append, List.length_cons, List.length_nil] at text
        have space : nvramSpace = 0x8000 := rfl
        omega

theorem noNul_filler (length : Nat) : 0 ∉ List.replicate length (ascii 'x') := by
  intro member
  exact absurd (List.eq_of_mem_replicate member) (by decide)

/-- A value of some length. -/
def filler (length : Nat) : CStr := ⟨List.replicate length (ascii 'x'), noNul_filler length⟩

/-- The longest value that `nvram_set` takes. -/
def longest : CStr := filler (nvramSpace - 1)

/-- A variable with the longest value is set, and lost by the commit. -/
theorem commit_loses_longest :
    nvramOpen .little blank = some (some blankHandle) ∧
      (nvramSet blankHandle (literal "a") longest).1 = 0 ∧
      nvramGet (nvramSet blankHandle (literal "a") longest).2 (literal "a") = some longest ∧
      (∃ after, commitCall .little 0x10000 (nvramSet blankHandle (literal "a") longest).2 =
        some (0, after) ∧ nvramGet after (literal "a") ≠ some longest) ∧
      ¬ NoSilentLoss .little 0x10000 (nvramSet blankHandle (literal "a") longest).2 := by
  have length : longest.bytes.length = nvramSpace - 1 := List.length_replicate ..
  have space : nvramSpace = 0x8000 := rfl
  have header : headerSize = 20 := rfl
  have found : nvramGet (nvramSet blankHandle (literal "a") longest).2 (literal "a") =
      some longest := by
    rw [nvramGet_nvramSet _ _ (by omega), if_pos rfl]
  have usable : Usable .little blank.length (nvramSet blankHandle (literal "a") longest).2 :=
    @usable_attempt .little 0x10000 _ _ _ nvramOpen_blank [.set (literal "a") longest] rfl
  have mapping : Mapping 0x10000 (nvramSet blankHandle (literal "a") longest).2.mmap.length := by
    rw [usable.size, length_blank]
    exact ⟨by decide, by decide, Nat.le_refl _⟩
  have other : literal "a" ∉ sdramNames := by decide
  obtain ⟨after, called, lost⟩ := @commit_loses .little 0x10000 _ _ longest usable.located mapping
    other (by rw [length]; omega)
  refine ⟨nvramOpen_blank, ?_, found, ⟨after, called, lost⟩, fun kept => ?_⟩
  · rw [nvramSet_eq, if_neg (by omega)]
  · obtain ⟨status, after', called', same, -⟩ := kept
    have committed := (commitCall_eq_some_iff.mp called).2
    obtain ⟨zero, committed'⟩ := commitCall_eq_some_iff.mp called'
    rw [committed] at committed'
    obtain rfl := Option.some.inj committed'
    exact lost (same zero _ _ found)

end Trunk.Nvram
