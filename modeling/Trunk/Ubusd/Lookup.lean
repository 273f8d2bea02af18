import Trunk.Ubusd.Sound

/-! # A lookup finds every object with a matching path

`ubusd_handle_lookup` describes the object with a path, or those whose paths start with a
prefix: from the first path in the tree that is not in front of the prefix it goes on while they do,
and that are all of them (`Trunk.Ubusd.ubusdHandleLookup_eq`).
-/

namespace Trunk.Ubusd

open CString (ascii)

variable {registry : Registry} {daemon : Daemon} {cl : Nat} {ub : Message} {attr : Attr}

/-- A lookup asks for a path. -/
def Asks : Option Text → Text → Prop
  | none, _ => True
  | some objpath, key =>
      if objpath.getLast? = some (ascii '*') then objpath.dropLast <+: key else key = objpath

instance decidableAsks : (objpath : Option Text) → (key : Text) → Decidable (Asks objpath key)
  | none, _ => inferInstanceAs (Decidable True)
  | some objpath, key => inferInstanceAs (Decidable
      (if objpath.getLast? = some (ascii '*') then objpath.dropLast <+: key else key = objpath))

/-- What `ubusd_send_obj` says of an object. -/
def described (registry : Registry) (id : Nat) : Option (List Field) := do
  let obj ← registry.objects id
  let type ← obj.type
  let known ← registry.types type
  return (obj.path.map Field.objpath).toList ++
    [.objid id, .objtype type, .signature known.methods]

theorem ubusdSendObj_eq (registry : Registry) (cl : Nat) (ub : Message) (id : Nat) (wire : Wire) :
    ubusdSendObj registry cl ub id wire = (described registry id).map fun b =>
      { wire with b := b, sent := wire.sent ++ [(cl, ⟨.data, ub.seq, ub.peer, b⟩)] } := by
  simp only [ubusdSendObj, described, ubusSendMsgFromBlob, ubusMsgSend, Option.bind_eq_bind,
    Option.map_bind, Function.comp_def, Option.map_some, Option.pure_def]

/-- The answers to a lookup that finds some objects. -/
def answers (registry : Registry) (cl : Nat) (ub : Message) (entries : List (Text × Nat)) :
    List (Nat × Message) :=
  entries.map fun entry => (cl, ⟨.data, ub.seq, ub.peer, (described registry entry.2).getD []⟩)

/-- Objects are described one after the other, up to one that has no type. -/
theorem foldlM_sendObj (entries : List (Text × Nat)) (wire : Wire) :
    ((∃ entry ∈ entries, described registry entry.2 = none) ∧
      entries.foldlM (fun wire entry => ubusdSendObj registry cl ub entry.2 wire) wire = none) ∨
    ((∀ entry ∈ entries, described registry entry.2 ≠ none) ∧ ∃ b,
      entries.foldlM (fun wire entry => ubusdSendObj registry cl ub entry.2 wire) wire =
        some { wire with b := b, sent := wire.sent ++ answers registry cl ub entries }) := by
  induction entries generalizing wire with
  | nil =>
      refine .inr ⟨fun _ member => absurd member List.not_mem_nil, wire.b, ?_⟩
      rw [answers, List.map_nil, List.append_nil]
      rfl
  | cons entry entries ih =>
      rw [List.foldlM_cons, ubusdSendObj_eq]
      cases found : described registry entry.2 with
      | none => exact .inl ⟨⟨entry, List.mem_cons_self .., found⟩, rfl⟩
      | some b =>
          rw [Option.map_some, Option.bind_eq_bind, Option.bind_some]
          rcases ih { wire with b := b, sent := wire.sent ++ [(cl, ⟨.data, ub.seq, ub.peer, b⟩)] }
            with ⟨⟨other, member, none⟩, failed⟩ | ⟨all, b', sent⟩
          · exact .inl ⟨⟨other, List.mem_cons_of_mem _ member, none⟩, failed⟩
          · refine .inr ⟨?_, b', ?_⟩
            · intro other member
              rcases List.mem_cons.mp member with rfl | later
              · rw [found]
                exact Option.some_ne_none b
              · exact all other later
            · rw [sent, answers, answers, List.map_cons, found, Option.getD_some, List.append_assoc,
                List.singleton_append]

/-- The loop describes the objects up to the first path without the prefix. -/
theorem lookupLoop_eq (objpath : Text) (entries : List (Text × Nat)) (found : Bool) (wire : Wire) :
    lookupLoop registry cl ub objpath entries found wire =
      ((entries.takeWhile fun entry => objpath.isPrefixOf entry.1).foldlM
        (fun wire entry => ubusdSendObj registry cl ub entry.2 wire) wire).map fun wire =>
          (found || !(entries.takeWhile fun entry => objpath.isPrefixOf entry.1).isEmpty, wire) := by
  induction entries generalizing found wire with
  | nil =>
      rw [lookupLoop, List.takeWhile_nil, List.isEmpty_nil, Bool.not_true, Bool.or_false]
      rfl
  | cons entry entries ih =>
      rw [lookupLoop, List.takeWhile_cons]
      split
      · rw [List.foldlM_cons, List.isEmpty_cons, Bool.not_false, Bool.or_true]
        simp only [Option.bind_eq_bind, ih, Bool.true_or, Option.map_bind, Function.comp_def]
      · rw [List.isEmpty_nil, Bool.not_true, Bool.or_false]
        rfl

/-- The objects that a lookup finds, in the order of their paths. -/
def matched (registry : Registry) (objpath : Option Text) : List (Text × Nat) :=
  registry.path.filter fun entry => decide (Asks objpath entry.1)

/-- In an ordered tree at most one path is the one that is looked for. -/
theorem filter_key_eq {path : List (Text × Nat)}
    (sorted : path.Pairwise fun entry later => entry.1 < later.1) (key : Text) :
    (path.filter fun entry => decide (entry.1 = key)) =
      (path.find? fun entry => decide (entry.1 = key)).toList := by
  induction path with
  | nil => rfl
  | cons entry path ih =>
      rw [List.pairwise_cons] at sorted
      rw [List.filter_cons, List.find?_cons]
      by_cases here : entry.1 = key
      · have others : (path.filter fun other => decide (other.1 = key)) = [] := by
          rw [List.filter_eq_nil_iff]
          intro other member same
          have later := sorted.1 other member
          rw [here, of_decide_eq_true same] at later
          exact absurd later (lt_irrefl key)
        rw [if_pos (decide_eq_true here), decide_eq_true here, others]
        rfl
      · rw [if_neg (by rwa [decide_eq_true_eq]), decide_eq_false here]
        exact ih sorted.2

/-- All objects are found where no path is asked for. -/
theorem matched_none (registry : Registry) : matched registry none = registry.path :=
  List.filter_eq_self.mpr fun _ _ => decide_eq_true trivial

/-- The objects below a path are neighbours in the tree. -/
theorem matched_of_star {objpath : Text}
    (sorted : registry.path.Pairwise fun entry later => entry.1 < later.1)
    (star : objpath.getLast? = some (ascii '*')) :
    matched registry (some objpath) =
      (registry.path.dropWhile fun entry => decide (entry.1 < objpath.dropLast)).takeWhile
        fun entry => objpath.dropLast.isPrefixOf entry.1 := by
  rw [Dictionary.takeWhile_dropWhile_eq_filter (fun _ => List.isPrefixOf_iff_prefix)
    (fun _ => decide_eq_true_iff) (sorted.imp fun early => early.le), matched]
  refine List.filter_congr fun entry _ => ?_
  rw [Bool.eq_iff_iff, decide_eq_true_eq, List.isPrefixOf_iff_prefix, Asks, if_pos star]

/-- One object at most has the path. -/
theorem matched_of_path {objpath : Text}
    (sorted : registry.path.Pairwise fun entry later => entry.1 < later.1)
    (plain : ¬ objpath.getLast? = some (ascii '*')) :
    matched registry (some objpath) =
      (registry.path.find? fun entry => decide (entry.1 = objpath)).toList := by
  rw [← filter_key_eq sorted, matched]
  refine List.filter_congr fun entry _ => ?_
  simp only [Asks, if_neg plain]

/-- A lookup describes every object with a matching path, in the order of the paths, and fails if
there is none; one that has no type it cannot describe. -/
theorem ubusdHandleLookup_eq
    (sorted : daemon.registry.path.Pairwise fun entry later => entry.1 < later.1) :
    ((∃ entry ∈ matched daemon.registry attr.objpath, described daemon.registry entry.2 = none) ∧
      ubusdHandleLookup daemon cl ub attr = none) ∨
    ((∀ entry ∈ matched daemon.registry attr.objpath, described daemon.registry entry.2 ≠ none) ∧
      ∃ b, ubusdHandleLookup daemon cl ub attr = some
        (some (if attr.objpath ≠ none ∧ matched daemon.registry attr.objpath = [] then .notFound
          else .ok),
        { daemon with
          wire := { daemon.wire with
            b := b
            sent := daemon.wire.sent ++
              answers daemon.registry cl ub (matched daemon.registry attr.objpath) } })) := by
  rw [ubusdHandleLookup]
  cases asked : attr.objpath with
  | none =>
      rw [matched_none, if_neg fun both => both.1 rfl]
      rcases @foldlM_sendObj daemon.registry cl ub daemon.registry.path daemon.wire with
        ⟨some, failed⟩ | ⟨every, b, sent⟩
      · exact .inl ⟨some, by simp only [failed, Option.bind_eq_bind, Option.bind_none]⟩
      · refine .inr ⟨every, b, ?_⟩
        simp only [sent, Option.bind_eq_bind, Option.bind_some, Option.pure_def]
  | some objpath =>
      by_cases star : objpath.getLast? = some (ascii '*')
      · rw [matched_of_star sorted star]
        simp only [ne_eq, star, not_true_eq_false, if_false, lookupLoop_eq, Bool.false_or]
        generalize (daemon.registry.path.dropWhile fun entry =>
          decide (entry.1 < objpath.dropLast)).takeWhile (fun entry =>
            objpath.dropLast.isPrefixOf entry.1) = entries
        rcases @foldlM_sendObj daemon.registry cl ub entries daemon.wire with
          ⟨some, failed⟩ | ⟨every, b, sent⟩
        · exact .inl ⟨some, by
            simp only [failed, Option.map_none, Option.bind_eq_bind, Option.bind_none]⟩
        · refine .inr ⟨every, b, ?_⟩
          simp only [sent, Option.map_some, Option.bind_eq_bind, Option.bind_some, Option.pure_def,
            reduceCtorEq, not_false_eq_true, true_and]
          cases entries with
          | nil => rfl
          | cons entry entries => rfl
      · rw [matched_of_path sorted star]
        simp only [ne_eq, star, not_false_eq_true, if_true]
        cases daemon.registry.path.find? fun entry => decide (entry.1 = objpath) with
        | none =>
            refine .inr ⟨fun entry member => absurd member List.not_mem_nil, daemon.wire.b, ?_⟩
            simp only [Option.toList_none, and_true, reduceCtorEq, not_false_eq_true, if_true, answers,
              List.map_nil, List.append_nil]
        | some entry =>
            simp only [Option.toList_some, List.mem_singleton, exists_eq_left, forall_eq,
              ubusdSendObj_eq, Option.bind_eq_bind, List.cons_ne_nil, and_false, if_false, answers,
              List.map_cons, List.map_nil]
            cases described daemon.registry entry.2 with
            | none => exact .inl ⟨rfl, rfl⟩
            | some b => exact .inr ⟨Option.some_ne_none b, b, rfl⟩

end Trunk.Ubusd
