import Trunk.Luci.PoText

/-! # Translations are found

The file that the compiler writes is opened by the reader, and the search in its index finds the
text of every key that is its own canonical form (`Trunk.Luci.translations_found`). The compiler
hashes a key as it is, where the reader makes blanks of all white space first.
-/

namespace Trunk.Luci

open CString Loop Network

section Search

variable {ar : Archive} {key : Nat → Nat} {count l r fuel : Nat}

/-- The index of an archive has keys in order. -/
structure Indexed (ar : Archive) (key : Nat → Nat) (count : Nat) : Prop where
  load : ∀ i < count, loadWord ar.mmap (ar.index + 16 * i) = .ok (key i)
  order : ∀ i j, i < j → j < count → key i < key j

/-- The search finds what is between its bounds. -/
theorem Indexed.iterate_find (indexed : Indexed ar key count) (hash : Nat) (inside : r < count)
    (enough : r + 2 - l ≤ fuel) (near : l ≤ r + 1) :
    (∀ m, l ≤ m → m ≤ r → key m = hash →
      iterate (findRound ar hash) .outside fuel { l := l, r := r } = .ok (some m)) ∧
    ((∀ m, l ≤ m → m ≤ r → key m ≠ hash) →
      iterate (findRound ar hash) .outside fuel { l := l, r := r } = .ok none) := by
  induction fuel generalizing l r with
  | zero => omega
  | succ fuel ih =>
      by_cases empty : r < l
      · have ended : findRound ar hash { l := l, r := r } = .ok (.done none) := if_pos empty
        refine ⟨fun m least most => absurd (Nat.lt_of_lt_of_le empty least) (by omega), fun _ => ?_⟩
        rw [iterate_done ended]
      · have middle : l + (r - l) / 2 < count := by omega
        have round : findRound ar hash { l := l, r := r } =
            if key (l + (r - l) / 2) = hash then .ok (.done (some (l + (r - l) / 2)))
            else if hash < key (l + (r - l) / 2) then
              if l + (r - l) / 2 = 0 then .ok (.done none)
              else .ok (.again { l := l, r := l + (r - l) / 2 - 1 })
            else .ok (.again { l := l + (r - l) / 2 + 1, r := r }) := by
          unfold findRound
          dsimp only
          rw [if_neg empty, indexed.load _ middle]
          change (if _ then _ else if _ then (if _ then _ else _) else _) = _
          split_ifs <;> rfl
        generalize place : l + (r - l) / 2 = mid at middle round
        by_cases found : key mid = hash
        · rw [if_pos found] at round
          refine ⟨fun m least most same => ?_, fun absent => absurd found (absent mid (by omega) (by omega))⟩
          rcases Nat.lt_trichotomy m mid with less | rfl | more
          · exact absurd (same.trans found.symm) (Nat.ne_of_lt (indexed.order m mid less middle))
          · rw [iterate_done round]
          · exact absurd (found.trans same.symm)
              (Nat.ne_of_lt (indexed.order mid m more (by omega)))
        · rw [if_neg found] at round
          by_cases above : hash < key mid
          · rw [if_pos above] at round
            have before : ∀ m ≤ r, key m = hash → m < mid := by
              intro m most same
              by_contra late
              rcases Nat.eq_or_lt_of_le (Nat.le_of_not_lt late) with rfl | more
              · exact found same
              · have less := indexed.order mid m more (by omega)
                omega
            by_cases first : mid = 0
            · rw [if_pos first] at round
              refine ⟨fun m least most same => ?_, fun _ => by rw [iterate_done round]⟩
              have less := before m most same
              omega
            · rw [if_neg first] at round
              rw [iterate_again round]
              obtain ⟨hit, miss⟩ := @ih l (mid - 1) (by omega) (by omega) (by omega)
              refine ⟨fun m least most same => ?_, fun absent => ?_⟩
              · have less := before m most same
                exact hit m least (by omega) same
              · exact miss fun m least most => absent m least (by omega)
          · rw [if_neg above] at round
            have behind : ∀ m, key m = hash → mid < m := by
              intro m same
              by_contra early
              rcases Nat.eq_or_lt_of_le (Nat.le_of_not_lt early) with rfl | less
              · exact found same
              · have less := indexed.order m mid less middle
                omega
            rw [iterate_again round]
            obtain ⟨hit, miss⟩ := @ih (mid + 1) r inside (by omega) (by omega)
            refine ⟨fun m least most same => hit m (behind m same) most same, fun absent => ?_⟩
            exact miss fun m least most => absent m (by omega) most

end Search

section Layout

variable {out : List UInt8} {index : List LmoEntry} {e : LmoEntry} {i : Nat}

theorem loadWord_eq {file : List UInt8} {place : Nat} (front back : List UInt8) (x : Nat)
    (whole : file = front ++ (printUint32 x ++ back)) (here : place = front.length) :
    loadWord file place = .ok (x % 2 ^ 32) := by
  have word : (printUint32 x).length = 4 := length_bytes 4 x
  have inside : front.length + 4 ≤ (front ++ (printUint32 x ++ back)).length := by
    rw [List.length_append, List.length_append, word]
    omega
  rw [whole, here, loadWord, if_pos inside, List.drop_left, List.take_left' word, printUint32,
    number_bytes]

theorem length_printEntry (e : LmoEntry) : (printEntry e).length = 16 := by
  simp only [printEntry, printUint32, List.length_append, length_bytes]

theorem length_flatMap_printEntry (index : List LmoEntry) :
    (index.flatMap printEntry).length = 16 * index.length := by
  induction index with
  | nil => rfl
  | cons e index ih =>
      rw [List.flatMap_cons, List.length_append, length_printEntry, ih, List.length_cons]
      omega

/-- A file of texts, an index, and the place of the index. -/
def layout (out : List UInt8) (index : List LmoEntry) : List UInt8 :=
  out ++ index.flatMap printEntry ++ printUint32 out.length

theorem length_layout (out : List UInt8) (index : List LmoEntry) :
    (layout out index).length = out.length + 16 * index.length + 4 := by
  rw [layout, List.length_append, List.length_append, length_flatMap_printEntry, printUint32,
    length_bytes]

/-- The words of an entry. -/
theorem loadWord_layout (here : index[i]? = some e) :
    loadWord (layout out index) (out.length + 16 * i) = .ok e.keyId.toNat ∧
      loadWord (layout out index) (out.length + 16 * i + 8) = .ok (e.offset % 2 ^ 32) ∧
      loadWord (layout out index) (out.length + 16 * i + 12) = .ok (e.length % 2 ^ 32) := by
  obtain ⟨inside, value⟩ := List.getElem?_eq_some_iff.mp here
  have split : index = index.take i ++ e :: index.drop (i + 1) := by
    rw [← value, List.cons_getElem_drop_succ, List.take_append_drop]
  have before : ((index.take i).flatMap printEntry).length = 16 * i := by
    rw [length_flatMap_printEntry, List.length_take, Nat.min_eq_left (Nat.le_of_lt inside)]
  have key := e.keyId.toNat_lt
  generalize index.take i = front at split before
  generalize index.drop (i + 1) = back at split
  have word : ∀ x, (printUint32 x).length = 4 := length_bytes 4
  subst split
  have whole : layout out (front ++ e :: back) =
      (out ++ front.flatMap printEntry) ++ (printUint32 e.keyId.toNat ++
        (printUint32 e.valId.toNat ++ (printUint32 e.offset ++ (printUint32 e.length ++
          (back.flatMap printEntry ++ printUint32 out.length))))) := by
    simp only [layout, List.flatMap_append, List.flatMap_cons, printEntry, List.append_assoc]
  refine ⟨?_, ?_, ?_⟩
  · rw [loadWord_eq _ _ _ whole (by rw [List.length_append, before]), Nat.mod_eq_of_lt key]
  · apply loadWord_eq (out ++ front.flatMap printEntry ++
      (printUint32 e.keyId.toNat ++ printUint32 e.valId.toNat)) _ e.offset
    · rw [whole]
      simp only [List.append_assoc]
      rfl
    · simp only [List.length_append, before, word]
  · apply loadWord_eq (out ++ front.flatMap printEntry ++
      (printUint32 e.keyId.toNat ++ (printUint32 e.valId.toNat ++ printUint32 e.offset))) _ e.length
    · rw [whole]
      simp only [List.append_assoc]
      rfl
    · simp only [List.length_append, before, word]

/-- The archive of a file. -/
def layoutArchive (out : List UInt8) (index : List LmoEntry) : Archive where
  length := index.length
  size := (layout out index).length
  index := out.length
  mmap := layout out index

/-- The reader opens a file that is not too large. -/
theorem lmoOpen_layout {width : Nat} (wide : 32 ≤ width)
    (small : (layout out index).length < 2 ^ 32) :
    lmoOpen width (layout out index) = .ok (some (layoutArchive out index)) := by
  have size := length_layout out index
  have power : 2 ^ 32 ≤ 2 ^ width := Nat.pow_le_pow_right (by decide) wide
  have place : (layout out index).length - 4 = (out ++ index.flatMap printEntry).length := by
    rw [size, List.length_append, length_flatMap_printEntry]
    omega
  have last : loadWord (layout out index) ((layout out index).length - 4) = .ok out.length := by
    rw [loadWord_eq _ [] out.length (by rw [List.append_nil, layout]) place,
      Nat.mod_eq_of_lt (by omega)]
  have count : (2 ^ width + (layout out index).length - out.length - 4) % 2 ^ width / 16 % 2 ^ 32 =
      index.length := by
    have sum : 2 ^ width + (layout out index).length - out.length - 4 =
        16 * index.length + 2 ^ width := by omega
    have less : 16 * index.length < 2 ^ width := by omega
    have few : index.length < 2 ^ 32 := by omega
    rw [sum, Nat.add_mod_right, Nat.mod_eq_of_lt less, Nat.mul_div_cancel_left _ (by decide),
      Nat.mod_eq_of_lt few]
  unfold lmoOpen
  dsimp only
  rw [Nat.mod_eq_of_lt small, if_neg (by omega), if_neg (by omega), last]
  change (if _ then _ else _) = _
  rw [if_neg (by omega), count, List.take_length]
  rfl

end Layout

section Keys

variable {str : List UInt8} {prev : UInt8}

/-- A key without white space at its start, at its end, and next to white space. -/
structure Spaced (str : List UInt8) : Prop where
  first : ∀ c ∈ str.head?, isSpace c = false
  last : ∀ c ∈ str.getLast?, isSpace c = false
  apart : str.IsChain fun a b => ¬(isSpace a = true ∧ isSpace b = true)

theorem canonFrom_eq (blank : ∀ c ∈ str, isSpace c = true → c = ascii ' ')
    (apart : (prev :: str).IsChain fun a b => ¬(isSpace a = true ∧ isSpace b = true)) :
    canonFrom prev str = str := by
  induction str generalizing prev with
  | nil => rfl
  | cons c str ih =>
      obtain ⟨here, later⟩ := List.isChain_cons_cons.mp apart
      have rest := ih (fun d member => blank d (List.mem_cons_of_mem c member)) later
      rw [canonFrom, rest]
      split
      · rename_i space
        rw [if_neg fun before => here ⟨before, space⟩, ← blank c List.mem_cons_self space]
      · rfl

/-- A key with single blanks is its own canonical form. -/
theorem Spaced.canon_eq (spaced : Spaced str)
    (blank : ∀ c ∈ str, isSpace c = true → c = ascii ' ') : canon str = str := by
  have same : canonFrom (ascii ' ') str = str := by
    apply canonFrom_eq blank
    cases str with
    | nil => exact .singleton _
    | cons c str =>
        refine List.isChain_cons_cons.mpr ⟨fun both => ?_, spaced.apart⟩
        rw [spaced.first c rfl] at both
        exact Bool.false_ne_true both.2
  have last : str.getLast?.any isSpace = false := by
    cases final : str.getLast? with
    | none => rfl
    | some c => exact spaced.last c final
  rw [canon, same, last, if_neg Bool.false_ne_true]

end Keys

section Found

variable {signed : Bool} {out : List UInt8} {messages : List Message} {array : List LmoEntry}


theorem Compiled.keyIds (entries : List.Forall₂ (Files signed out) messages array) :
    array.map LmoEntry.keyId = messages.map fun m => sfhHash signed m.key.value := by
  induction entries with
  | nil => rfl
  | cons files _ ih => rw [List.map_cons, List.map_cons, files.keyId, ih]

theorem exists_files (entries : List.Forall₂ (Files signed out) messages array) {m : Message}
    (member : m ∈ messages) : ∃ e ∈ array, Files signed out m e := by
  induction entries with
  | nil => cases member
  | cons files _ ih =>
      rcases List.mem_cons.mp member with rfl | later
      · exact ⟨_, List.mem_cons_self, files⟩
      · obtain ⟨e, inside, found⟩ := ih later
        exact ⟨e, List.mem_cons_of_mem _ inside, found⟩

theorem sorted_index (distinct : (array.map LmoEntry.keyId).Nodup) :
    (array.mergeSort cmpIndex).Pairwise fun a b => a.keyId < b.keyId := by
  have order : (array.mergeSort cmpIndex).Pairwise fun a b => cmpIndex a b = true := by
    apply List.pairwise_mergeSort
    · intro a b c first second
      simp only [cmpIndex, decide_eq_true_eq] at first second ⊢
      exact UInt32.le_trans first second
    · intro a b
      simp only [cmpIndex, Bool.or_eq_true, decide_eq_true_eq]
      exact UInt32.le_total a.keyId b.keyId
  have apart : ((array.mergeSort cmpIndex).map LmoEntry.keyId).Nodup :=
    (((List.mergeSort_perm array cmpIndex).map LmoEntry.keyId).nodup_iff).mpr distinct
  have differ := List.pairwise_map.mp apart
  refine (order.and differ).imp ?_
  intro a b both
  have least : a.keyId ≤ b.keyId := by simpa [cmpIndex] using both.1
  exact UInt32.lt_of_le_of_ne least both.2

/-- The index of a file is in order. -/
theorem indexed_layout (out : List UInt8) {index : List LmoEntry}
    (sorted : index.Pairwise fun a b => a.keyId < b.keyId) :
    Indexed (layoutArchive out index) (fun i => (index[i]?.map fun e => e.keyId.toNat).getD 0)
      index.length where
  load := by
    intro i inside
    have here := List.getElem?_eq_getElem inside
    rw [here]
    exact (loadWord_layout here).1
  order := by
    intro i j less inside
    have first := List.getElem?_eq_getElem (Nat.lt_trans less inside)
    have second := List.getElem?_eq_getElem inside
    rw [first, second]
    exact UInt32.lt_iff_toNat_lt.mp (List.pairwise_iff_getElem.mp sorted i j _ inside less)

/-- The search finds the entry with a hash, and no other. -/
theorem lmoFindEntry_layout (out : List UInt8) (hash : UInt32) {index : List LmoEntry}
    (sorted : index.Pairwise fun a b => a.keyId < b.keyId) (some : index ≠ [])
    (few : index.length < 2 ^ 32) :
    (∀ i e, index[i]? = Option.some e → e.keyId = hash →
      lmoFindEntry (layoutArchive out index) hash = .ok (Option.some i)) ∧
    ((∀ e ∈ index, e.keyId ≠ hash) → lmoFindEntry (layoutArchive out index) hash = .ok none) := by
  have positive := List.length_pos_of_ne_nil some
  have last : ((layoutArchive out index).length + 2 ^ 32 - 1) % 2 ^ 32 = index.length - 1 := by
    have sum : (layoutArchive out index).length + 2 ^ 32 - 1 = index.length - 1 + 2 ^ 32 := by
      change index.length + 2 ^ 32 - 1 = _
      omega
    rw [sum, Nat.add_mod_right, Nat.mod_eq_of_lt (by omega)]
  have run : lmoFindEntry (layoutArchive out index) hash =
      iterate (findRound (layoutArchive out index) hash.toNat) .outside (index.length - 1 + 2)
        { l := 0, r := index.length - 1 } := by
    rw [lmoFindEntry, last]
    rfl
  obtain ⟨hit, miss⟩ := (indexed_layout out sorted).iterate_find hash.toNat
    (r := index.length - 1) (l := 0) (by omega) (Nat.le_refl _) (by omega)
  rw [run]
  constructor
  · intro i e here same
    obtain ⟨inside, -⟩ := List.getElem?_eq_some_iff.mp here
    apply hit i (Nat.zero_le i) (by omega)
    rw [here]
    exact congrArg UInt32.toNat same
  · intro absent
    apply miss
    intro i _ most same
    have here := List.getElem?_eq_getElem (show i < index.length by omega)
    rw [here] at same
    exact absent _ (List.mem_of_getElem? here) (UInt32.toNat_inj.mp same)

/-- The text of an entry is read. -/
theorem entryText_layout {index : List LmoEntry} {i : Nat} {e : LmoEntry} {m : Message}
    (here : index[i]? = some e) (files : Files signed out m e) (small : out.length < 2 ^ 32) :
    entryText (layoutArchive out index) i = .ok m.val.value := by
  obtain ⟨-, offset, length⟩ := @loadWord_layout out _ _ _ here
  have inside := files.inside
  have whole := length_layout out index
  rw [Nat.mod_eq_of_lt (by omega)] at offset length
  have text : ((layout out index).drop e.offset).take e.length = m.val.value := by
    rw [layout, List.append_assoc]
    exact (files.append _).text
  rw [entryText]
  change (do
    let offset ← loadWord (layout out index) (out.length + 16 * i + 8)
    let length ← loadWord (layout out index) (out.length + 16 * i + 12)
    if offset + length ≤ (layout out index).length then
      return ((layout out index).drop offset).take length
    else .error .outside) = _
  rw [offset, length]
  change (if _ then _ else _) = _
  rw [if_pos (by omega), text]
  rfl

/-- What an archive with one file translates. -/
theorem findArchives_layout (entries : List.Forall₂ (Files signed out) messages array)
    (distinct : (messages.map fun m => sfhHash signed m.key.value).Nodup) (some : messages ≠ [])
    (small : (layout out (array.mergeSort cmpIndex)).length < 2 ^ 32) (hash : UInt32) :
    (∀ m ∈ messages, hash = sfhHash signed m.key.value →
      findArchives hash [layoutArchive out (array.mergeSort cmpIndex)] =
        .ok (.found m.val.value)) ∧
    ((∀ m ∈ messages, hash ≠ sfhHash signed m.key.value) →
      findArchives hash [layoutArchive out (array.mergeSort cmpIndex)] = .ok .missing) := by
  have keys := Compiled.keyIds entries
  have members := fun e => @List.Perm.mem_iff _ e _ _ (List.mergeSort_perm array cmpIndex)
  have sorted := sorted_index (keys ▸ distinct)
  have size := length_layout out (array.mergeSort cmpIndex)
  have nonempty : array.mergeSort cmpIndex ≠ [] := by
    intro none
    have count := entries.length_eq
    have same := (List.mergeSort_perm array cmpIndex).length_eq
    rw [none, List.length_nil] at same
    rw [← same] at count
    exact some (List.eq_nil_of_length_eq_zero count)
  obtain ⟨hit, miss⟩ := lmoFindEntry_layout out hash sorted nonempty (by omega)
  constructor
  · intro m member same
    obtain ⟨e, inside, files⟩ := exists_files entries member
    obtain ⟨i, here⟩ := List.mem_iff_getElem?.mp ((members e).mpr inside)
    rw [findArchives, hit i e here (files.keyId.trans same.symm)]
    change (do return Lookup.found (← entryText _ i)) = _
    rw [entryText_layout here files (by omega)]
    rfl
  · intro absent
    rw [findArchives, miss]
    · rfl
    · intro e inside same
      have member : e.keyId ∈ messages.map fun m => sfhHash signed m.key.value :=
        keys ▸ List.mem_map_of_mem ((members e).mp inside)
      obtain ⟨m, source, equal⟩ := List.mem_map.mp member
      exact absent m source (same.symm.trans equal.symm)

variable {entries : List (Message × Nat)} {tmp : List UInt8} {width : Nat}

/-- The file that is compiled, and what it translates. -/
theorem po2lmo_spec (lead : Nat) (length : tmp.length = 4096) (wide : 32 ≤ width) (some : entries ≠ [])
    (fits : ∀ e ∈ entries, e.1.Fits signed)
    (distinct : (entries.map fun e => sfhHash signed e.1.key.value).Nodup)
    (texts : textSize (entries.map Prod.fst) < 2 ^ 31)
    (size : textSize (entries.map Prod.fst) + 16 * entries.length + 4 < 2 ^ 32) :
    ∃ file ar, po2lmo signed tmp (poFile lead entries) = .ok (Option.some file) ∧
      lmoOpen width file = .ok (Option.some ar) ∧ ∀ key,
        (∀ e ∈ entries, lmoCanonHash signed key = sfhHash signed e.1.key.value →
          lmoTranslate signed (Option.some [ar]) key = .ok (.found e.1.val.value)) ∧
        ((∀ e ∈ entries, lmoCanonHash signed key ≠ sfhHash signed e.1.key.value) →
          lmoTranslate signed (Option.some [ar]) key = .ok .missing) := by
  obtain ⟨po, read, compiled⟩ := poLines_file length lead fits texts
  have hashes : (entries.map Prod.fst).map (fun m => sfhHash signed m.key.value) =
      entries.map fun e => sfhHash signed e.1.key.value := List.map_map
  have count : (po.array.mergeSort cmpIndex).length = entries.length := by
    rw [(List.mergeSort_perm po.array cmpIndex).length_eq, ← compiled.entries.length_eq,
      List.length_map]
  have whole := length_layout po.out (po.array.mergeSort cmpIndex)
  rw [count, ← compiled.offset, compiled.total] at whole
  have small : (layout po.out (po.array.mergeSort cmpIndex)).length < 2 ^ 32 := by omega
  have positive : 0 < po.offset := by
    obtain ⟨e, later, rfl⟩ := List.exists_cons_of_ne_nil some
    have first := List.length_pos_of_ne_nil (fits e List.mem_cons_self).valSome
    rw [compiled.total, List.map_cons, textSize, List.map_cons, List.sum_cons, padded]
    omega
  refine ⟨layout po.out (po.array.mergeSort cmpIndex), _, ?_, lmoOpen_layout wide small, ?_⟩
  · rw [po2lmo, read]
    change (if _ then _ else _) = _
    rw [if_pos positive, compiled.offset]
    rfl
  · intro key
    obtain ⟨hit, miss⟩ := findArchives_layout compiled.entries (hashes ▸ distinct)
      (by simpa using some) small (lmoCanonHash signed key)
    constructor
    · intro e member same
      exact hit e.1 (List.mem_map_of_mem member) same
    · intro absent
      apply miss
      intro m member
      obtain ⟨e, source, rfl⟩ := List.mem_map.mp member
      exact absent e source

/-- What a message is to be like: a key and a text that are not empty, with less than 4096 bytes, on
lines; no white space around the key or doubled in it; hashes that differ. -/
structure Message.WellFormed (signed : Bool) (m : Message) : Prop where
  keyClean : Clean m.key.value
  valClean : Clean m.val.value
  keyRoom : m.key.value.length < 4096
  valRoom : m.val.value.length < 4096
  keySome : m.key.value ≠ []
  valSome : m.val.value ≠ []
  spaced : Spaced m.key.value
  differ : sfhHash signed m.key.value ≠ sfhHash signed m.val.value

/-- A file of translations is to have such messages, with keys of different hashes. -/
structure Compilable (signed : Bool) (entries : List (Message × Nat)) : Prop where
  wellFormed : ∀ e ∈ entries, e.1.WellFormed signed
  distinct : (entries.map fun e => sfhHash signed e.1.key.value).Nodup

/-- The compiled file is opened, every key is translated, and keys with other hashes are not. There
is no file without messages. -/
def TranslationsFound (signed : Bool) (width : Nat) (tmp : List UInt8) (lead : Nat)
    (entries : List (Message × Nat)) : Prop :=
  (entries = [] ∧ po2lmo signed tmp (poFile lead entries) = .ok none) ∨
    ∃ file ar, po2lmo signed tmp (poFile lead entries) = .ok (some file) ∧
      lmoOpen width file = .ok (some ar) ∧
      (∀ e ∈ entries, lmoTranslate signed (some [ar]) e.1.key.value = .ok (.found e.1.val.value)) ∧
      ∀ key, (∀ e ∈ entries, lmoCanonHash signed key ≠ sfhHash signed e.1.key.value) →
        lmoTranslate signed (some [ar]) key = .ok .missing

/-- Every line fits into its buffer, all white space of the keys are blanks, and the file is not too
large for its words. -/
structure Fitting (entries : List (Message × Nat)) : Prop where
  short : ∀ e ∈ entries, ∀ line ∈ e.1.lines, line.length ≤ 4094
  blank : ∀ e ∈ entries, ∀ c ∈ e.1.key.value, isSpace c = true → c = ascii ' '
  texts : textSize (entries.map Prod.fst) < 2 ^ 31
  size : textSize (entries.map Prod.fst) + 16 * entries.length + 4 < 2 ^ 32

theorem Message.WellFormed.fits {m : Message} (wellFormed : m.WellFormed signed)
    (short : ∀ line ∈ m.lines, line.length ≤ 4094) : m.Fits signed where
  key := ⟨wellFormed.keyClean, wellFormed.keyRoom,
    fun line member => short line (List.mem_append_left _ member)⟩
  val := ⟨wellFormed.valClean, wellFormed.valRoom,
    fun line member => short line (List.mem_append_right _ member)⟩
  keySome := wellFormed.keySome
  valSome := wellFormed.valSome
  differ := wellFormed.differ

/-- Compiled translations are found, if the lines, the white space and the size of the file are as
the compiler and the reader need them. -/
theorem translations_found (signed : Bool) (width : Nat) (wide : 32 ≤ width) (tmp : List UInt8)
    (length : tmp.length = 4096) (lead : Nat) (entries : List (Message × Nat))
    (compilable : Compilable signed entries) (fitting : Fitting entries) :
    TranslationsFound signed width tmp lead entries := by
  have fits : ∀ e ∈ entries, e.1.Fits signed := fun e member =>
    (compilable.wellFormed e member).fits (fitting.short e member)
  by_cases none : entries = []
  · refine Or.inl ⟨none, ?_⟩
    subst none
    obtain ⟨po, read, compiled⟩ := poLines_file length lead fits fitting.texts
    have zero : ¬0 < po.offset := by
      rw [compiled.total]
      exact Nat.lt_irrefl 0
    rw [po2lmo, read]
    change (if _ then _ else _) = _
    rw [if_neg zero]
    rfl
  · obtain ⟨file, ar, compiled, opened, translated⟩ := po2lmo_spec lead length wide none fits
      compilable.distinct fitting.texts fitting.size
    refine Or.inr ⟨file, ar, compiled, opened, ?_, fun key => (translated key).2⟩
    intro e member
    have wellFormed := compilable.wellFormed e member
    apply (translated _).1 e member
    rw [lmoCanonHash, if_neg (Nat.not_le_of_lt wellFormed.keyRoom),
      wellFormed.spaced.canon_eq (fitting.blank e member)]

/-- A file with one message on two lines. -/
def oneMessage (key val : String) : List (Message × Nat) :=
  [({ key := .single (bytesOf key), val := .single (bytesOf val) }, 1)]

theorem compilable_oneMessage {key val : String} (keyClean : Clean (bytesOf key))
    (valClean : Clean (bytesOf val)) (keyRoom : (bytesOf key).length < 4096)
    (valRoom : (bytesOf val).length < 4096) (keySome : bytesOf key ≠ []) (valSome : bytesOf val ≠ [])
    (spaced : Spaced (bytesOf key))
    (differ : sfhHash true (bytesOf key) ≠ sfhHash true (bytesOf val)) :
    Compilable true (oneMessage key val) where
  wellFormed := by
    intro e member
    obtain rfl := List.mem_singleton.mp member
    exact ⟨keyClean, valClean, keyRoom, valRoom, keySome, valSome, spaced, differ⟩
  distinct := List.nodup_singleton _

/-- The key `a b` is found. -/
theorem translations_found_blank :
    TranslationsFound true 32 zeroed 0 (oneMessage "a b" "x") := by
  refine translations_found true 32 (Nat.le_refl 32) zeroed List.length_replicate 0 _ ?_ ?_
  · exact compilable_oneMessage (by unfold Clean; decide +kernel) (by unfold Clean; decide +kernel)
      (by decide) (by decide) (by decide) (by decide)
      ⟨by decide +kernel, by decide +kernel, by decide⟩ (by decide)
  · exact ⟨by decide, by decide +kernel, by decide +kernel, by decide⟩

/-- The key of a letter, a tab and a letter is not found. -/
theorem translations_not_found :
    Compilable true (oneMessage "a\tb" "x") ∧
      ¬TranslationsFound true 32 zeroed 0 (oneMessage "a\tb" "x") := by
  have compilable : Compilable true (oneMessage "a\tb" "x") :=
    compilable_oneMessage (by unfold Clean; decide +kernel) (by unfold Clean; decide +kernel)
      (by decide) (by decide) (by decide) (by decide)
      ⟨by decide +kernel, by decide +kernel, by decide⟩ (by decide)
  refine ⟨compilable, ?_⟩
  obtain ⟨file, ar, compiled, opened, translated⟩ := po2lmo_spec 0 List.length_replicate
    (Nat.le_refl 32) (by decide) (fun e member => (compilable.wellFormed e member).fits
      (by obtain rfl := List.mem_singleton.mp member; decide)) compilable.distinct (by decide)
    (by decide)
  rintro (⟨none, -⟩ | ⟨file', ar', compiled', opened', found, -⟩)
  · cases none
  · obtain rfl := Option.some.inj (Except.ok.inj (compiled.symm.trans compiled'))
    obtain rfl := Option.some.inj (Except.ok.inj (opened.symm.trans opened'))
    have missing := (translated (bytesOf "a\tb")).2 (by decide)
    have hit := found _ List.mem_cons_self
    exact absurd (hit.symm.trans missing) (by simp)

end Found

end Trunk.Luci
