import Trunk.Foundation.BinarySearch
import Trunk.Luci.Lmo

/-! # Damaged archives

The number of entries of an archive is the difference of its size and the place of its index, which
the file says. Where there is no whole entry, the search starts from a place far behind the file.
Elsewhere it stays in the index, whatever the keys are (`Trunk.Luci.lmoFindEntry_search`), and a
translation is taken from where the entry says, which is not checked. So an archive is harmless
exactly if it has an entry and every entry that some key leads to has its text in the file
(`Trunk.Luci.lmoTranslate_harmless_iff`).
-/

namespace Trunk.Luci

open CString Loop Network BinarySearch

variable {ar : Archive} {width l count fuel m place : Nat} {hash : Nat} {file : List UInt8}
  {signed : Bool}

/-- A word of the file, in network order. -/
def Archive.word (ar : Archive) (place : Nat) : Nat := number ((ar.mmap.drop place).take 4)

/-- `key_id` of an entry of the index. -/
def Archive.keyId (ar : Archive) (m : Nat) : Nat := ar.word (ar.index + 16 * m)

/-- `offset` of an entry of the index. -/
def Archive.textOffset (ar : Archive) (m : Nat) : Nat := ar.word (ar.index + 16 * m + 8)

/-- `length` of an entry of the index. -/
def Archive.textLength (ar : Archive) (m : Nat) : Nat := ar.word (ar.index + 16 * m + 12)

/-- The whole entries between the start of the index and the last word. -/
def Archive.entries (ar : Archive) : Nat := (ar.size - 4 - ar.index) / 16

/-- What `lmo_open` says about an archive. -/
structure Opened (width : Nat) (ar : Archive) : Prop where
  mapped : ar.mmap.length = ar.size
  small : ar.size < 2 ^ 32
  inside : ar.index < ar.size
  length : ar.length = (2 ^ width + ar.size - ar.index - 4) % 2 ^ width / 16 % 2 ^ 32

theorem lmoOpen_opened (opened : lmoOpen width file = .ok (some ar)) : Opened width ar := by
  unfold lmoOpen at opened
  dsimp only at opened
  by_cases empty : file.length % 2 ^ 32 = 0
  · rw [if_pos empty] at opened
    cases opened
  by_cases short : file.length % 2 ^ 32 < 4
  · rw [if_neg empty, if_pos short] at opened
    cases opened
  rw [if_neg empty, if_neg short] at opened
  cases word : loadWord file (file.length % 2 ^ 32 - 4) with
  | error fault =>
      rw [word] at opened
      cases opened
  | ok idxOffset =>
      rw [word] at opened
      change (if file.length % 2 ^ 32 ≤ idxOffset then Except.ok none else _) = _ at opened
      by_cases behind : file.length % 2 ^ 32 ≤ idxOffset
      · rw [if_pos behind] at opened
        cases opened
      · rw [if_neg behind] at opened
        cases opened
        exact {
          mapped := by
            have most := Nat.mod_le file.length (2 ^ 32)
            rw [List.length_take]
            exact Nat.min_eq_left most
          small := Nat.mod_lt _ (by decide)
          inside := Nat.lt_of_not_le behind
          length := rfl }

theorem loadWord_word (inside : place + 4 ≤ ar.mmap.length) :
    loadWord ar.mmap place = .ok (ar.word place) := if_pos inside

theorem loadWord_outside (outside : ar.mmap.length < place + 4) :
    loadWord ar.mmap place = .error .outside := if_neg (by omega)

/-- The search of the code is the search in the keys of the entries. -/
theorem iterate_findRound (inside : ar.index + 16 * (l + count) ≤ ar.mmap.length)
    (some : 0 < l + count) (enough : count + 1 ≤ fuel) :
    iterate (findRound ar hash) .outside fuel { l := l, r := l + count - 1 } =
      .ok (search ar.keyId hash l count) := by
  induction fuel generalizing l count with
  | zero => omega
  | succ fuel ih =>
      by_cases empty : count = 0
      · have ended : findRound ar hash { l := l, r := l + count - 1 } = .ok (.done none) := by
          apply if_pos
          dsimp only
          omega
        rw [iterate_done ended, search, if_pos empty]
      have span : l + (l + count - 1 - l) / 2 = middle l count := by
        unfold middle
        congr 2
        omega
      have place : middle l count = l + (count - 1) / 2 := rfl
      have round : findRound ar hash { l := l, r := l + count - 1 } =
          if ar.keyId (middle l count) = hash then .ok (.done (Option.some (middle l count)))
          else if hash < ar.keyId (middle l count) then
            if middle l count = 0 then .ok (.done none)
            else .ok (.again { l := l, r := middle l count - 1 })
          else .ok (.again { l := middle l count + 1, r := l + count - 1 }) := by
        unfold findRound
        dsimp only
        rw [if_neg (by omega), span, loadWord_word (by omega)]
        change (if _ then _ else if _ then (if _ then _ else _) else _) = _
        rfl
      rw [search, if_neg empty]
      by_cases found : ar.keyId (middle l count) = hash
      · rw [if_pos found] at round ⊢
        rw [iterate_done round]
      rw [if_neg found] at round ⊢
      by_cases less : hash < ar.keyId (middle l count)
      · rw [if_pos less] at round ⊢
        by_cases first : middle l count = 0
        · rw [if_pos first] at round
          have none : (count - 1) / 2 = 0 := by omega
          rw [iterate_done round, none, search, if_pos rfl]
        · rw [if_neg first] at round
          rw [iterate_again round]
          exact ih (by omega) (by omega) (by omega)
      · rw [if_neg less] at round ⊢
        rw [iterate_again round]
        have rest : l + count - 1 = middle l count + 1 + count / 2 - 1 := by omega
        rw [rest]
        exact ih (by omega) (by omega) (by omega)

/-- The search in an index with an entry stays in it. -/
theorem lmoFindEntry_search (opened : Opened width ar) (wide : 32 ≤ width)
    (entry : ar.index + 20 ≤ ar.size) (hash : UInt32) :
    lmoFindEntry ar hash = .ok (search ar.keyId hash.toNat 0 ar.entries) := by
  obtain ⟨mapped, small, inside, length⟩ := opened
  have power : 2 ^ 32 ≤ 2 ^ width := Nat.pow_le_pow_right (by decide) wide
  have entries : ar.entries = (ar.size - 4 - ar.index) / 16 := rfl
  have count : ar.length = ar.entries := by
    have sum : 2 ^ width + ar.size - ar.index - 4 = ar.size - 4 - ar.index + 2 ^ width := by omega
    have below : ar.size - 4 - ar.index < 2 ^ width := by omega
    rw [length, sum, Nat.add_mod_right, Nat.mod_eq_of_lt below, ← entries,
      Nat.mod_eq_of_lt (by omega)]
  have last : (ar.length + 2 ^ 32 - 1) % 2 ^ 32 = 0 + ar.entries - 1 := by
    have sum : ar.length + 2 ^ 32 - 1 = 0 + ar.entries - 1 + 2 ^ 32 := by omega
    rw [sum, Nat.add_mod_right, Nat.mod_eq_of_lt (by omega)]
  rw [lmoFindEntry, last]
  exact iterate_findRound (by omega) (by omega) (by dsimp only; omega)

/-- Without a whole entry the search starts behind the file. -/
theorem lmoFindEntry_empty (opened : Opened width ar) (empty : ar.size < ar.index + 20)
    (hash : UInt32) : lmoFindEntry ar hash = .error .outside := by
  obtain ⟨mapped, small, inside, length⟩ := opened
  have behind : ar.mmap.length <
      ar.index + 16 * (0 + ((ar.length + 2 ^ 32 - 1) % 2 ^ 32 - 0) / 2) + 4 := by
    by_cases whole : ar.index + 4 ≤ ar.size
    · have none : ar.length = 0 := by
        have sum : 2 ^ width + ar.size - ar.index - 4 = ar.size - 4 - ar.index + 2 ^ width := by
          omega
        have quotient : (ar.size - 4 - ar.index) % 2 ^ width / 16 = 0 := by
          have most := Nat.mod_le (ar.size - 4 - ar.index) (2 ^ width)
          omega
        rw [length, sum, Nat.add_mod_right, quotient, Nat.zero_mod]
      rw [none]
      omega
    · omega
  have round : findRound ar hash.toNat { l := 0, r := (ar.length + 2 ^ 32 - 1) % 2 ^ 32 } =
      .error .outside := by
    unfold findRound
    dsimp only
    rw [if_neg (Nat.not_lt_zero _), loadWord_outside behind]
    rfl
  rw [lmoFindEntry, loop]
  exact iterate_error round _

/-- A text is taken from an entry of the index if it is in the file. -/
theorem entryText_eq (opened : Opened width ar) (inside : m < ar.entries) :
    entryText ar m =
      if ar.textOffset m + ar.textLength m ≤ ar.size then
        .ok ((ar.mmap.drop (ar.textOffset m)).take (ar.textLength m))
      else .error .outside := by
  have entries : ar.entries = (ar.size - 4 - ar.index) / 16 := rfl
  have mapped := opened.mapped
  rw [entryText, loadWord_word (by omega), loadWord_word (by omega), ← mapped]
  rfl

/-- The entries of the index that the hash of a key leads to have their texts in the file. -/
structure Sound (signed : Bool) (ar : Archive) : Prop where
  entry : ar.index + 20 ≤ ar.size
  inside : ∀ key m, m < ar.entries → ar.keyId m = (lmoCanonHash signed key).toNat →
    (∀ pivot ∈ pivots m 0 ar.entries,
      Points ar.keyId (lmoCanonHash signed key).toNat m pivot) →
    ar.textOffset m + ar.textLength m ≤ ar.size

/-- The archive answers every key that is not found before it. -/
theorem Sound.findArchives {key : List UInt8} {archives : List Archive} (sound : Sound signed ar)
    (opened : Opened width ar) (wide : 32 ≤ width)
    (rest : ∃ answer, Luci.findArchives (lmoCanonHash signed key) archives = .ok answer) :
    ∃ answer, Luci.findArchives (lmoCanonHash signed key) (ar :: archives) = .ok answer := by
  rw [Luci.findArchives, lmoFindEntry_search opened wide sound.entry]
  cases found : search ar.keyId (lmoCanonHash signed key).toNat 0 ar.entries with
  | none => exact rest
  | some m =>
      obtain ⟨-, inside, same, points⟩ := search_eq_some_iff.mp found
      have entry : m < ar.entries := by omega
      have text := entryText_eq opened entry
      rw [if_pos (sound.inside key m entry same points)] at text
      refine ⟨.found ((ar.mmap.drop (ar.textOffset m)).take (ar.textLength m)), ?_⟩
      change (do return Lookup.found (← entryText ar m)) = _
      rw [text]
      rfl

/-- The archives of a catalogue that are sound give an answer to every key. -/
theorem lmoTranslate_sound {archives : List Archive} (wide : 32 ≤ width)
    (sound : ∀ ar ∈ archives, Opened width ar ∧ Sound signed ar) (key : List UInt8) :
    ∃ answer, lmoTranslate signed (some archives) key = .ok answer := by
  unfold lmoTranslate
  dsimp only
  induction archives with
  | nil => exact ⟨.missing, rfl⟩
  | cons ar archives ih =>
      rw [List.forall_mem_cons] at sound
      exact sound.1.2.findArchives sound.1.1 wide (ih sound.2)

/-- An archive that `lmo_open` accepts is harmless exactly if it has an entry, and the entries that
keys lead to have their texts in the file. -/
theorem lmoTranslate_harmless_iff (wide : 32 ≤ width) (signed : Bool)
    (opened : lmoOpen width file = .ok (some ar)) :
    (∀ key, ∃ answer, lmoTranslate signed (some [ar]) key = .ok answer) ↔ Sound signed ar := by
  have opened := lmoOpen_opened opened
  constructor
  · intro harmless
    have answers : ∀ key, ∃ answer, findArchives (lmoCanonHash signed key) [ar] = .ok answer :=
      harmless
    have entry : ar.index + 20 ≤ ar.size := by
      by_contra empty
      obtain ⟨answer, done⟩ := answers []
      rw [findArchives, lmoFindEntry_empty opened (by omega)] at done
      cases done
    refine ⟨entry, fun key m inside same points => ?_⟩
    have found : search ar.keyId (lmoCanonHash signed key).toNat 0 ar.entries = some m :=
      search_eq_some_iff.mpr ⟨Nat.zero_le m, by omega, same, points⟩
    by_contra behind
    obtain ⟨answer, done⟩ := answers key
    rw [findArchives, lmoFindEntry_search opened wide entry, found] at done
    change (do return Lookup.found (← entryText ar m)) = _ at done
    rw [entryText_eq opened inside, if_neg behind] at done
    cases done
  · intro sound key
    apply lmoTranslate_sound wide
    intro ar' member
    obtain rfl := List.mem_singleton.mp member
    exact ⟨opened, sound⟩

/-- A file of one entry, with zeros throughout. -/
theorem lmoTranslate_harmless_iff_zeros :
    (∀ key, ∃ answer, lmoTranslate true (some [{
      length := 1, size := 20, index := 0, mmap := List.replicate 20 0 }]) key = .ok answer) ↔
      Sound true { length := 1, size := 20, index := 0, mmap := List.replicate 20 0 } :=
  lmoTranslate_harmless_iff (Nat.le_refl 32) true
    (show lmoOpen 32 (List.replicate 20 0) = _ from by decide)

/-- A file that is only the place of its index. -/
theorem lmoTranslate_not_harmless :
    ¬ ∀ file ar, lmoOpen 32 file = .ok (some ar) →
      ∀ key, ∃ answer, lmoTranslate true (some [ar]) key = .ok answer := by
  intro harmless
  have accepted : lmoOpen 32 [0, 0, 0, 0] =
      .ok (some { length := 0, size := 4, index := 0, mmap := [0, 0, 0, 0] }) := by decide
  obtain ⟨answer, done⟩ := harmless _ _ accepted []
  change findArchives _ _ = _ at done
  rw [findArchives, lmoFindEntry_empty (lmoOpen_opened accepted) (by decide)] at done
  cases done

end Trunk.Luci
