import Mathlib.Algebra.BigOperators.Group.List.Basic
import Mathlib.Algebra.Order.BigOperators.Group.List
import Trunk.Utils.Sfile

/-! # What a recursive scan visits

The files of a directory tree, and the calls of the file handler in a scan of the tree. The recursive
call of the scan is for the directory that is scanned already, what is a directory is looked up in
the working directory, and a directory is handled behind the recursive call like a file. So every
regular file is visited once only where there is nothing to descend into
(`Trunk.Sfile.visitsOnce_iff`).
-/

namespace Trunk.Sfile

open CString Loop

/-- What a name in a directory stands for, without links. -/
inductive Node where
  | file
  | dir (entries : List (Name × Node))

mutual

/-- The regular files of a node, each with the directory that contains it. -/
def Node.files (path : Path) (name : Name) : Node → List (Path × Name)
  | .file => [(path, name)]
  | .dir entries => filesBelow (path ++ [name]) entries

/-- The regular files of a directory. -/
def filesBelow (path : Path) : List (Name × Node) → List (Path × Name)
  | [] => []
  | (name, node) :: rest => node.files path name ++ filesBelow path rest

end

/-- What `readdir` finds in a directory. -/
def readdir (entries : List (Name × Node)) : List Name :=
  [ascii '.'] :: [ascii '.', ascii '.'] :: entries.map Prod.fst

/-- A scan that records the calls of the file handler. The handler may depend on all calls before. -/
def recorder (isDir : Name → Bool) (fileFilter : Option (Path → Name → Bool))
    (stops : List (Path × Name) → Path → Name → Option Int) : Scanner (List (Path × Name)) where
  isDir := isDir
  fileFilter := fileFilter
  fileHandle calls path filename := (stops calls path filename, calls ++ [(path, filename)])

/-- The calls of a recursive scan of a directory. -/
def visits (isDir : Name → Bool) (fileFilter : Option (Path → Name → Bool))
    (stops : List (Path × Name) → Path → Name → Option Int) (fds : Nat) (path : Path)
    (entries : List (Name × Node)) : List (Path × Name) :=
  (sfscanDir (recorder isDir fileFilter stops) true path (readdir entries) fds []).2

/-- The filter rejects a file. -/
def rejects (fileFilter : Option (Path → Name → Bool)) (path : Path) (filename : Name) : Bool :=
  fileFilter.any fun fileFilter => fileFilter path filename

/-- The handler is called once for every regular file that is not rejected, with the directory that
contains it, and for nothing else. -/
def VisitsOnce (fileFilter : Option (Path → Name → Bool)) (calls : List (Path × Name)) (path : Path)
    (entries : List (Name × Node)) : Prop :=
  ∀ dir name, calls.count (dir, name) =
    if (dir, name) ∈ filesBelow path entries ∧ rejects fileFilter dir name = false then 1 else 0

/-! ## The files of a tree -/

mutual

theorem Node.prefix_of_mem_files {path dir : Path} {name name' : Name} :
    ∀ {node : Node}, (dir, name') ∈ node.files path name →
      (node = .file ∧ (dir, name') = (path, name)) ∨
        (∃ entries, node = .dir entries) ∧ path ++ [name] <+: dir
  | .file, member => by
      rw [Node.files, List.mem_singleton] at member
      exact .inl ⟨rfl, member⟩
  | .dir entries, member => by
      rw [Node.files] at member
      exact .inr ⟨⟨entries, rfl⟩, prefix_of_mem_filesBelow member⟩

theorem prefix_of_mem_filesBelow {path dir : Path} {name' : Name} :
    ∀ {entries : List (Name × Node)}, (dir, name') ∈ filesBelow path entries → path <+: dir
  | [], member => by
      rw [filesBelow] at member
      exact absurd member List.not_mem_nil
  | (name, node) :: rest, member => by
      rw [filesBelow, List.mem_append] at member
      rcases member with here | later
      · rcases Node.prefix_of_mem_files here with ⟨-, same⟩ | ⟨-, below⟩
        · obtain ⟨rfl, -⟩ := Prod.mk.inj same
          exact List.prefix_refl _
        · exact (List.prefix_append _ _).trans below
      · exact prefix_of_mem_filesBelow later

end

variable {path : Path} {entries : List (Name × Node)} {name : Name}

/-- The regular files that a directory contains itself. -/
theorem mem_filesBelow_self_iff :
    (path, name) ∈ filesBelow path entries ↔ (name, .file) ∈ entries := by
  induction entries with
  | nil =>
      rw [filesBelow]
      exact ⟨fun member => absurd member List.not_mem_nil,
        fun member => absurd member List.not_mem_nil⟩
  | cons entry rest ih =>
      obtain ⟨other, node⟩ := entry
      rw [filesBelow, List.mem_append, ih, List.mem_cons]
      refine or_congr_left ?_
      constructor
      · intro here
        rcases Node.prefix_of_mem_files here with ⟨rfl, same⟩ | ⟨-, below⟩
        · rw [(Prod.mk.inj same).2]
        · have longer := below.length_le
          rw [List.length_append, List.length_singleton] at longer
          omega
      · intro same
        obtain ⟨rfl, rfl⟩ := Prod.mk.inj same
        rw [Node.files]
        exact List.mem_singleton_self _

/-! ## The calls of a scan -/

section Calls

variable (isDir : Name → Bool) (fileFilter : Option (Path → Name → Bool)) (path : Path)

/-- The call for a name. -/
def ownCall (filename : Name) : List (Path × Name) :=
  if rejects fileFilter path filename then [] else [(path, filename)]

/-- The calls in a round, with those of the recursive scan. -/
def roundCalls (deeper : List (Path × Name)) (filename : Name) : List (Path × Name) :=
  if isDirSelf filename || isDirFather filename then []
  else (if isDir filename then deeper else []) ++ ownCall fileFilter path filename

/-- The calls of a scan, by the number of directories that can be opened. -/
def scanCalls (names : List Name) : Nat → List (Path × Name)
  | 0 => []
  | fds + 1 => names.flatMap (roundCalls isDir fileFilter path (scanCalls names fds))

end Calls

variable {isDir : Name → Bool} {fileFilter : Option (Path → Name → Bool)}
  {stops : List (Path × Name) → Path → Name → Option Int} {fds : Nat}

section Recorder

variable (goes : ∀ calls path filename, stops calls path filename = none)

include goes

theorem scanFile_recorder (filename : Name) (err : Int) (calls : List (Path × Name)) :
    scanFile (recorder isDir fileFilter stops) path filename err calls =
      .again (err, calls ++ ownCall fileFilter path filename) := by
  unfold scanFile ownCall
  have same : (recorder isDir fileFilter stops).ignores path filename =
      rejects fileFilter path filename := rfl
  rw [same]
  split
  · rw [List.append_nil]
  · simp only [recorder, goes]

/-- What a round records, where the recursive scan goes through. -/
theorem scanEntry_recorder {scanDir : List (Path × Name) → Int × List (Path × Name)}
    {deeper : List (Path × Name)}
    (through : ∀ calls, 0 ≤ (scanDir calls).1 ∧ (scanDir calls).2 = calls ++ deeper)
    (filename : Name) {err : Int} (positive : 0 ≤ err) (calls : List (Path × Name)) :
    ∃ err', 0 ≤ err' ∧
      scanEntry (recorder isDir fileFilter stops) true path scanDir filename err calls =
        .again (err', calls ++ roundCalls isDir fileFilter path deeper filename) := by
  obtain ⟨went, recorded⟩ := through calls
  have lookup : (recorder isDir fileFilter stops).isDir = isDir := rfl
  unfold scanEntry roundCalls
  rw [lookup]
  split
  · exact ⟨err, positive, by rw [List.append_nil]⟩
  · split
    · refine ⟨(scanDir calls).1, went, ?_⟩
      rw [if_pos rfl]
      dsimp only
      rw [if_neg (by omega), recorded, scanFile_recorder goes, List.append_assoc]
    · exact ⟨err, positive, by rw [scanFile_recorder goes, List.nil_append]⟩

theorem scanEntries_recorder {scanDir : List (Path × Name) → Int × List (Path × Name)}
    {deeper : List (Path × Name)}
    (through : ∀ calls, 0 ≤ (scanDir calls).1 ∧ (scanDir calls).2 = calls ++ deeper)
    (names : List Name) {err : Int} (positive : 0 ≤ err) (calls : List (Path × Name)) :
    ∃ err', 0 ≤ err' ∧
      scanEntries (recorder isDir fileFilter stops) true path scanDir names (err, calls) =
        (err', calls ++ names.flatMap (roundCalls isDir fileFilter path deeper)) := by
  induction names generalizing err calls with
  | nil => exact ⟨err, positive, by rw [scanEntries, List.flatMap_nil, List.append_nil]⟩
  | cons filename rest ih =>
      obtain ⟨next, positive', round⟩ :=
        @scanEntry_recorder path isDir fileFilter stops goes scanDir deeper through filename err
          positive calls
      obtain ⟨last, positive'', later⟩ := ih positive'
        (calls ++ roundCalls isDir fileFilter path deeper filename)
      refine ⟨last, positive'', ?_⟩
      rw [scanEntries, round]
      dsimp only
      rw [later, List.flatMap_cons, List.append_assoc]

/-- A scan ends and records its calls. -/
theorem sfscanDir_recorder (names : List Name) (fds : Nat) (calls : List (Path × Name)) :
    0 ≤ (sfscanDir (recorder isDir fileFilter stops) true path names fds calls).1 ∧
      (sfscanDir (recorder isDir fileFilter stops) true path names fds calls).2 =
        calls ++ scanCalls isDir fileFilter path names fds := by
  induction fds generalizing calls with
  | zero =>
      have positive : 0 ≤ emfile := by decide
      rw [sfscanDir, scanCalls]
      exact ⟨positive, (List.append_nil _).symm⟩
  | succ fds ih =>
      obtain ⟨err, positive, done⟩ := @scanEntries_recorder path isDir fileFilter stops goes _ _ ih
        names 0 (Int.le_refl 0) calls
      rw [sfscanDir, done, scanCalls]
      exact ⟨positive, rfl⟩

theorem visits_eq (entries : List (Name × Node)) (fds : Nat) :
    visits isDir fileFilter stops fds path entries =
      scanCalls isDir fileFilter path (readdir entries) fds := by
  rw [visits, (sfscanDir_recorder goes (readdir entries) fds []).2, List.nil_append]

end Recorder

/-! ## How often a file is visited -/

theorem fst_of_mem_scanCalls {names : List Name} {call : Path × Name}
    (member : call ∈ scanCalls isDir fileFilter path names fds) : call.1 = path := by
  induction fds with
  | zero => exact absurd member List.not_mem_nil
  | succ fds ih =>
      rw [scanCalls, List.mem_flatMap] at member
      obtain ⟨filename, -, here⟩ := member
      unfold roundCalls at here
      split at here
      · exact absurd here List.not_mem_nil
      · rcases List.mem_append.mp here with deeper | own
        · split at deeper
          · exact ih deeper
          · exact absurd deeper List.not_mem_nil
        · unfold ownCall at own
          split at own
          · exact absurd own List.not_mem_nil
          · rw [List.mem_singleton.mp own]

theorem count_ownCall (filename : Name) :
    (ownCall fileFilter path filename).count (path, name) =
      if filename = name ∧ rejects fileFilter path name = false then 1 else 0 := by
  unfold ownCall
  by_cases rejected : rejects fileFilter path filename = true
  · rw [if_pos rejected, List.count_nil, if_neg]
    rintro ⟨rfl, kept⟩
    exact absurd (rejected.symm.trans kept) (by decide)
  · rw [if_neg rejected, List.count_singleton]
    by_cases same : filename = name
    · subst same
      rw [if_pos (beq_self_eq_true _), if_pos ⟨rfl, Bool.eq_false_of_not_eq_true rejected⟩]
    · rw [if_neg, if_neg fun both => same both.1]
      rw [beq_iff_eq]
      exact fun equal => same (Prod.mk.inj equal).2

/-- Every name of a directory brings the calls of the recursive scan, and its own. -/
theorem count_flatMap_roundCalls {names : List Name} (deeper : List (Path × Name))
    (distinct : names.Nodup) (named : ∀ filename ∈ names, ¬isDirSelf filename ∧ ¬isDirFather filename) :
    (names.flatMap (roundCalls isDir fileFilter path deeper)).count (path, name) =
      names.countP isDir * deeper.count (path, name) +
        if name ∈ names ∧ rejects fileFilter path name = false then 1 else 0 := by
  induction names with
  | nil =>
      rw [if_neg fun both => List.not_mem_nil both.1]
      simp only [List.flatMap_nil, List.count_nil, List.countP_nil, Nat.zero_mul]
  | cons filename rest ih =>
      obtain ⟨fresh, distinct⟩ := List.nodup_cons.mp distinct
      have rest_ := ih distinct fun other member => named other (List.mem_cons_of_mem _ member)
      obtain ⟨notSelf, notFather⟩ := named filename (List.mem_cons_self ..)
      have round : (roundCalls isDir fileFilter path deeper filename).count (path, name) =
          (if isDir filename then deeper.count (path, name) else 0) +
            if filename = name ∧ rejects fileFilter path name = false then 1 else 0 := by
        unfold roundCalls
        rw [if_neg, List.count_append, count_ownCall]
        · split
          · rfl
          · rw [List.count_nil]
        · rw [Bool.or_eq_true]
          exact not_or_intro notSelf notFather
      have own : (if name ∈ filename :: rest ∧ rejects fileFilter path name = false then 1 else 0) =
          (if filename = name ∧ rejects fileFilter path name = false then 1 else 0) +
            if name ∈ rest ∧ rejects fileFilter path name = false then 1 else 0 := by
        by_cases same : filename = name
        · subst same
          rw [if_neg fun both : filename ∈ rest ∧ _ => fresh both.1]
          simp only [List.mem_cons_self, true_and, Nat.add_zero]
        · rw [if_neg fun both : filename = name ∧ _ => same both.1, Nat.zero_add]
          simp only [List.mem_cons, Ne.symm same, false_or]
      rw [List.flatMap_cons, List.count_append, rest_, round, own, List.countP_cons, Nat.add_mul]
      split
      · omega
      · omega

/-- The calls for a file, by the number of directories that can be opened. -/
theorem count_scanCalls_succ {names : List Name} (distinct : names.Nodup)
    (named : ∀ filename ∈ names, ¬isDirSelf filename ∧ ¬isDirFather filename) (fds : Nat) :
    (scanCalls isDir fileFilter path ([ascii '.'] :: [ascii '.', ascii '.'] :: names)
        (fds + 1)).count (path, name) =
      names.countP isDir *
          (scanCalls isDir fileFilter path ([ascii '.'] :: [ascii '.', ascii '.'] :: names)
            fds).count (path, name) +
        if name ∈ names ∧ rejects fileFilter path name = false then 1 else 0 := by
  have skipped : ∀ deeper, roundCalls isDir fileFilter path deeper [ascii '.'] = [] ∧
      roundCalls isDir fileFilter path deeper [ascii '.', ascii '.'] = [] := by
    intro deeper
    exact ⟨rfl, rfl⟩
  rw [scanCalls, List.flatMap_cons, List.flatMap_cons, (skipped _).1, (skipped _).2,
    List.nil_append, List.nil_append]
  exact count_flatMap_roundCalls _ distinct named

/-- What is rejected, or not there, is not visited. -/
theorem count_scanCalls_eq_zero {names : List Name} (distinct : names.Nodup)
    (named : ∀ filename ∈ names, ¬isDirSelf filename ∧ ¬isDirFather filename)
    (own : ¬(name ∈ names ∧ rejects fileFilter path name = false)) (fds : Nat) :
    (scanCalls isDir fileFilter path ([ascii '.'] :: [ascii '.', ascii '.'] :: names)
      fds).count (path, name) = 0 := by
  induction fds with
  | zero => rfl
  | succ fds ih => rw [count_scanCalls_succ distinct named, ih, Nat.mul_zero, if_neg own]

/-- There is nothing to descend into, or to visit there: every directory is rejected, no file that
is not rejected lies deeper, and no name is that of a directory in the working directory, if the
directory can be opened a second time and has a file that is not rejected. -/
structure Flat (isDir : Name → Bool) (fileFilter : Option (Path → Name → Bool)) (fds : Nat)
    (path : Path) (entries : List (Name × Node)) : Prop where
  dirs : ∀ name below, (name, .dir below) ∈ entries → rejects fileFilter path name = true
  deeper : ∀ dir name, (dir, name) ∈ filesBelow path entries → dir ≠ path →
    rejects fileFilter dir name = true
  again : fds = 1 ∨ (∀ entry ∈ entries, isDir entry.1 = false) ∨
    ∀ name, (name, .file) ∈ entries → rejects fileFilter path name = true

/-- A recursive scan ends and visits every regular file that is not rejected once, and nothing
else, exactly if there is nothing to descend into. -/
theorem visitsOnce_iff (distinct : (entries.map Prod.fst).Nodup)
    (named : ∀ filename ∈ entries.map Prod.fst, ¬isDirSelf filename ∧ ¬isDirFather filename)
    (goes : ∀ calls path filename, stops calls path filename = none) (opened : 0 < fds) :
    VisitsOnce fileFilter (visits isDir fileFilter stops fds path entries) path entries ↔
      Flat isDir fileFilter fds path entries := by
  obtain ⟨fds, rfl⟩ := Nat.exists_eq_add_one_of_ne_zero (Nat.ne_of_gt opened)
  rw [visits_eq goes]
  unfold readdir
  generalize tree : entries.map Prod.fst = names at distinct named
  have kind : ∀ name, name ∈ names ↔
      (name, .file) ∈ entries ∨ ∃ below, (name, .dir below) ∈ entries := by
    intro name
    rw [← tree, List.mem_map]
    constructor
    · rintro ⟨⟨_, node⟩, member, rfl⟩
      cases node with
      | file => exact .inl member
      | dir below => exact .inr ⟨below, member⟩
    · rintro (member | ⟨below, member⟩)
      · exact ⟨_, member, rfl⟩
      · exact ⟨_, member, rfl⟩
  have one : ∀ name below, (name, .dir below) ∈ entries → (name, .file) ∉ entries := by
    intro name below directory file
    have same := List.inj_on_of_nodup_map (tree ▸ distinct) directory file rfl
    cases (Prod.mk.inj same).2
  constructor
  · intro once
    have visited : ∀ name ∈ names, rejects fileFilter path name = false →
        0 < (scanCalls isDir fileFilter path ([ascii '.'] :: [ascii '.', ascii '.'] :: names)
          (fds + 1)).count (path, name) := by
      intro name member kept
      rw [count_scanCalls_succ distinct named, if_pos ⟨member, kept⟩]
      exact Nat.succ_pos _
    refine ⟨fun name below directory => ?_, fun dir name file apart => ?_, ?_⟩
    · by_contra kept
      have more := visited name ((kind name).mpr (.inr ⟨below, directory⟩))
        (Bool.eq_false_of_not_eq_true kept)
      rw [once, if_neg] at more
      · exact absurd more (Nat.lt_irrefl 0)
      · intro both
        exact one name below directory (mem_filesBelow_self_iff.mp both.1)
    · by_contra kept
      have count := once dir name
      rw [if_pos ⟨file, Bool.eq_false_of_not_eq_true kept⟩, List.count_eq_zero_of_not_mem] at count
      · cases count
      · intro call
        exact apart (fst_of_mem_scanCalls call)
    · by_contra twice
      obtain ⟨more, into, kept⟩ : fds ≠ 0 ∧ (∃ entry ∈ entries, isDir entry.1 = true) ∧
          ∃ name, (name, .file) ∈ entries ∧ rejects fileFilter path name = false := by
        simp only [not_or, not_forall, exists_prop, Bool.not_eq_false, Bool.not_eq_true] at twice
        obtain ⟨more, ⟨entry, member, found⟩, name, file, kept⟩ := twice
        exact ⟨by omega, ⟨entry, member, found⟩, name, file, kept⟩
      obtain ⟨name, file, kept⟩ := kept
      obtain ⟨entry, member, found⟩ := into
      obtain ⟨fewer, rfl⟩ := Nat.exists_eq_add_one_of_ne_zero more
      have listed := (kind name).mpr (.inl file)
      have count := once path name
      have descends : 0 < names.countP isDir := by
        rw [List.countP_pos_iff, ← tree]
        exact ⟨entry.1, List.mem_map_of_mem member, found⟩
      have before : 0 < (scanCalls isDir fileFilter path
          ([ascii '.'] :: [ascii '.', ascii '.'] :: names) (fewer + 1)).count (path, name) := by
        rw [count_scanCalls_succ distinct named, if_pos ⟨listed, kept⟩]
        exact Nat.succ_pos _
      rw [count_scanCalls_succ distinct named, if_pos ⟨listed, kept⟩,
        if_pos ⟨mem_filesBelow_self_iff.mpr file, kept⟩] at count
      have product := Nat.mul_pos descends before
      omega
  · intro flat dir name
    by_cases apart : dir = path
    · subst apart
      by_cases own : name ∈ names ∧ rejects fileFilter dir name = false
      · obtain ⟨listed, kept⟩ := own
        have file : (name, .file) ∈ entries := by
          rcases (kind name).mp listed with file | ⟨below, directory⟩
          · exact file
          · exact absurd ((flat.dirs name below directory).symm.trans kept) (by decide)
        rw [count_scanCalls_succ distinct named, if_pos ⟨listed, kept⟩,
          if_pos ⟨mem_filesBelow_self_iff.mpr file, kept⟩]
        rcases flat.again with single | none | rejected
        · obtain rfl : fds = 0 := by omega
          rfl
        · have descends : names.countP isDir = 0 := by
            rw [List.countP_eq_zero, ← tree]
            intro other member
            obtain ⟨entry, here, rfl⟩ := List.mem_map.mp member
            rw [none entry here]
            exact Bool.false_ne_true
          rw [descends, Nat.zero_mul]
        · exact absurd ((rejected name file).symm.trans kept) (by decide)
      · rw [count_scanCalls_eq_zero distinct named own, if_neg]
        · rintro ⟨file, kept⟩
          exact own ⟨(kind name).mpr (.inl (mem_filesBelow_self_iff.mp file)), kept⟩
    · rw [List.count_eq_zero_of_not_mem fun call => apart (fst_of_mem_scanCalls call), if_neg]
      rintro ⟨file, kept⟩
      exact absurd ((flat.deeper dir name file apart).symm.trans kept) (by decide)

/-- A directory with a file, and a directory with another one. -/
def exampleEntries : List (Name × Node) :=
  [([ascii 'a'], .file), ([ascii 'd'], .dir [([ascii 'b'], .file)])]

/-- What lies deeper is not visited, and the directory that it lies in is. -/
theorem not_visitsOnce :
    ¬∀ (isDir : Name → Bool) (fileFilter : Option (Path → Name → Bool)) stops fds path entries,
      (entries.map Prod.fst).Nodup →
      (∀ filename ∈ entries.map Prod.fst, ¬isDirSelf filename ∧ ¬isDirFather filename) →
      (∀ calls path filename, stops calls path filename = none) → 0 < fds →
        VisitsOnce fileFilter (visits isDir fileFilter stops fds path entries) path entries := by
  intro all
  have once := all (fun _ => false) none (fun _ _ _ => none) 1 [] exampleEntries (by decide +kernel)
    (by decide +kernel) (fun _ _ _ => rfl) (by decide) [[ascii 'd']] [ascii 'b']
  rw [if_pos] at once
  · revert once
    decide +kernel
  · refine ⟨?_, rfl⟩
    simp only [exampleEntries, filesBelow, Node.files, List.nil_append, List.append_nil,
      List.mem_append, List.mem_singleton, or_true]

/-- The file alone is visited once. -/
theorem visitsOnce_iff_file :
    VisitsOnce none (visits (fun _ => false) none (fun _ _ _ => none) 2 [] [([ascii 'a'], .file)]) []
      [([ascii 'a'], .file)] := by
  refine (visitsOnce_iff (by decide +kernel) (by decide +kernel) (fun _ _ _ => rfl)
    (by decide)).mpr ⟨fun name below directory => ?_, fun dir name file apart => ?_, ?_⟩
  · cases (Prod.mk.inj (List.mem_singleton.mp directory)).2
  · rw [filesBelow, Node.files, filesBelow, List.append_nil, List.mem_singleton] at file
    exact absurd (Prod.mk.inj file).1 apart
  · exact .inr (.inl fun _ _ => rfl)

end Trunk.Sfile
