import Trunk.Ubusd.Invariant

/-! # An event reaches everyone who listens for it

An event goes to every object with a pattern that the name of the event matches, once, but not to
objects of the client that sends it (`Trunk.Ubusd.ubusdSendEvent_eq`). The daemon walks the tree of
patterns in the order of `strcmp` and leaves it where the common prefix with the name gets shorter;
what it leaves out does not match (`Trunk.Ubusd.sendEventLoop_eq`).
-/

namespace Trunk.Ubusd

variable {registry : Registry} {wire wire' : Wire} {cl : Option Nat} {name : Text}
  {fill : List Field} {patterns : List EventSource} {ev : EventSource}

/-- The name of an event matches a pattern. -/
def EventSource.Matches (ev : EventSource) (name : Text) : Prop :=
  name = ev.key ∨ ev.isPartial = true ∧ ev.key <+: name

instance decidableMatches (ev : EventSource) (name : Text) : Decidable (ev.Matches name) :=
  inferInstanceAs (Decidable (_ ∨ _))

theorem EventSource.Matches.starts (matching : ev.Matches name) : ev.key <+: name := by
  rcases matching with rfl | ⟨_, starts⟩
  · exact List.prefix_refl _
  · exact starts

/-- Every source belongs to an object that has a client. -/
def Reached (registry : Registry) (patterns : List EventSource) : Prop :=
  ∀ ev ∈ patterns, ∃ obj cl, registry.objects ev.obj = some obj ∧ obj.client = some cl

/-- The loop without the early end: every matching source gets the message. -/
def sendAll (registry : Registry) (cl : Option Nat) (fill : List Field) :
    List EventSource → Bool → Wire → Option Wire
  | [], _, wire => some wire
  | ev :: patterns, ub, wire => do
      let (ub, wire) ← ubusdSendEventMsg registry cl fill ev.obj ub wire
      sendAll registry cl fill patterns ub wire

/-- Leaving the ordered tree where the common prefix gets shorter leaves out nothing that
matches. -/
theorem sendEventLoop_eq (sorted : patterns.Pairwise fun ev later => ev.key ≤ later.key)
    (matchLen : Nat) (ub : Bool) (wire : Wire)
    (bound : ∀ ev ∈ patterns, ev.key ≤ name → matchLen ≤ Dictionary.common name ev.key) :
    sendEventLoop registry cl name fill patterns matchLen ub wire =
      sendAll registry cl fill (patterns.filter fun ev => decide (ev.Matches name)) ub wire := by
  induction patterns generalizing matchLen ub wire with
  | nil => rfl
  | cons ev patterns ih =>
      rw [List.pairwise_cons] at sorted
      rw [sendEventLoop]
      split
      · rename_i shorter
        have behind : ¬ ev.key ≤ name := fun early =>
          absurd (bound ev (List.mem_cons_self ..) early) (not_le.mpr shorter)
        have none : (ev :: patterns).filter (fun ev => decide (ev.Matches name)) = [] := by
          rw [List.filter_eq_nil_iff]
          intro other member matching
          have early := Dictionary.le_of_starts (of_decide_eq_true matching).starts
          rcases List.mem_cons.mp member with rfl | later
          · exact behind early
          · exact behind ((sorted.1 other later).trans early)
        rw [none, sendAll]
      · have next : ∀ other ∈ patterns, other.key ≤ name →
            Dictionary.common name ev.key ≤ Dictionary.common name other.key :=
          fun other later early => Dictionary.common_le_of_le (sorted.1 other later) early
        have matching : (name = ev.key ∨ ev.isPartial = true ∧
            Dictionary.common name ev.key = ev.key.length) ↔ ev.Matches name := by
          rw [Dictionary.common_eq_length_iff, EventSource.Matches]
        rw [List.filter_cons]
        simp only [matching, decide_eq_true_eq]
        split
        · rw [sendAll]
          congr 1
          funext result
          exact ih sorted.2 _ _ _ next
        · exact ih sorted.2 _ _ _ next

/-- The messages of one event, numbered from the next number on. -/
def announce (registry : Registry) (fill : List Field) : List Nat → Nat → List (Nat × Message)
  | [], _ => []
  | id :: ids, seq =>
      (((registry.objects id).bind Object.client).getD 0,
        ⟨.invoke, (seq + 1) % 2 ^ 16, 0, .objid id :: fill.tail⟩) ::
          announce registry fill ids (seq + 1)

theorem type_of_mem_announce {ids : List Nat} {seq : Nat} {message : Nat × Message}
    (member : message ∈ announce registry fill ids seq) : message.2.type = .invoke := by
  induction ids generalizing seq with
  | nil => cases member
  | cons id ids ih =>
      rcases List.mem_cons.mp member with rfl | later
      · rfl
      · exact ih later

/-- The wire after an event was sent to some objects. -/
def Wire.announced (wire : Wire) (registry : Registry) (fill : List Field) (ids : List Nat)
    (b : List Field) : Wire :=
  { wire with
    b := b
    eventSeen := fun id => if id ∈ ids then wire.objEventSeq % 2 ^ 32 else wire.eventSeen id
    eventSeq := wire.eventSeq + ids.length
    sent := wire.sent ++ announce registry fill ids wire.eventSeq }

/-- The object belongs to a client that the event is not sent by. -/
def Foreign (registry : Registry) (cl : Option Nat) (id : Nat) : Prop :=
  (registry.objects id).bind Object.client ≠ cl

theorem Wire.announced_nil (wire : Wire) (registry : Registry) (fill : List Field) :
    wire.announced registry fill [] wire.b = wire := by
  simp only [Wire.announced, List.not_mem_nil, if_false, List.length_nil, Nat.add_zero, announce,
    List.append_nil]

/-- The wire after an event was sent to one more object. -/
def Wire.next (wire : Wire) (fill : List Field) (id owner : Nat) : Wire :=
  { wire with
    b := .objid id :: fill.tail
    eventSeen := Function.update wire.eventSeen id (wire.objEventSeq % 2 ^ 32)
    eventSeq := wire.eventSeq + 1
    sent := wire.sent ++
      [(owner, ⟨.invoke, (wire.eventSeq + 1) % 2 ^ 16, 0, .objid id :: fill.tail⟩)] }

variable {obj : Object} {id owner : Nat} {ub : Bool}

/-- An event that goes to one object first, and then to others. -/
theorem Wire.announced_next {ids : List Nat} (wire : Wire) (b : List Field)
    (bound : (registry.objects id).bind Object.client = some owner) (absent : id ∉ ids) :
    (wire.next fill id owner).announced registry fill ids b =
      wire.announced registry fill (id :: ids) b := by
  simp only [Wire.announced, Wire.next, announce, bound, Option.getD_some, List.append_assoc,
    List.singleton_append, List.length_cons, Wire.mk.injEq, and_true, true_and]
  refine ⟨?_, ?_⟩
  · funext other
    by_cases here : other = id
    · subst here
      rw [if_neg absent, Function.update_self, if_pos (List.mem_cons_self ..)]
    · rw [Function.update_of_ne here]
      simp only [List.mem_cons, here, false_or]
  · omega

theorem ubusdSendEventMsg_of_skipped (found : registry.objects id = some obj)
    (skipped : obj.client = cl ∨ wire.eventSeen id = wire.objEventSeq % 2 ^ 32) :
    ubusdSendEventMsg registry cl fill id ub wire = some (ub, wire) := by
  rw [ubusdSendEventMsg, found, Option.bind_eq_bind, Option.bind_some]
  split
  · rfl
  · rename_i foreign
    rw [if_pos (skipped.resolve_left foreign)]
    rfl

theorem ubusdSendEventMsg_of_new (found : registry.objects id = some obj)
    (client : obj.client = some owner) (foreign : obj.client ≠ cl)
    (unseen : wire.eventSeen id ≠ wire.objEventSeq % 2 ^ 32)
    (filled : ub = true → wire.b.tail = fill.tail) :
    ubusdSendEventMsg registry cl fill id ub wire = some (true, wire.next fill id owner) := by
  have tail : (if ub then wire.b else fill).tail = fill.tail := by
    cases ub with
    | false => rfl
    | true => exact filled rfl
  rw [ubusdSendEventMsg, found, Option.bind_eq_bind, Option.bind_some, if_neg foreign,
    if_neg unseen]
  simp only [ubusMsgSend, client, Option.map_some, tail, Option.bind_eq_bind, Option.bind_some,
    Option.pure_def, Wire.next]

/-- Sources of objects that saw the event already are passed by. -/
theorem sendAll_eq (reached : Reached registry patterns) (ub : Bool) (wire : Wire)
    (filled : ub = true → wire.b.tail = fill.tail) :
    ∃ ids b, sendAll registry cl fill patterns ub wire =
        some (wire.announced registry fill ids b) ∧ ids.Nodup ∧
      ∀ id, id ∈ ids ↔ wire.eventSeen id ≠ wire.objEventSeq % 2 ^ 32 ∧
        Foreign registry cl id ∧ ∃ ev ∈ patterns, ev.obj = id := by
  induction patterns generalizing ub wire with
  | nil =>
      refine ⟨[], wire.b, ?_, List.nodup_nil, ?_⟩
      · rw [sendAll, Wire.announced_nil]
      · intro id
        apply iff_of_false List.not_mem_nil
        rintro ⟨_, _, ev, member, _⟩
        cases member
  | cons ev patterns ih =>
      have later : Reached registry patterns :=
        fun other member => reached other (List.mem_cons_of_mem _ member)
      obtain ⟨obj, owner, found, client⟩ := reached ev (List.mem_cons_self ..)
      have bound : (registry.objects ev.obj).bind Object.client = some owner := by
        rw [found, Option.bind_some, client]
      rw [sendAll]
      by_cases skipped : obj.client = cl ∨ wire.eventSeen ev.obj = wire.objEventSeq % 2 ^ 32
      · -- The source adds nobody to those of the rest.
        obtain ⟨ids, b, sent, nodup, members⟩ := ih later ub wire filled
        refine ⟨ids, b, ?_, nodup, ?_⟩
        · rw [ubusdSendEventMsg_of_skipped found skipped]
          exact sent
        · intro id
          rw [members]
          simp only [List.mem_cons, or_and_right, exists_or, exists_eq_left]
          refine and_congr_right fun unseen => and_congr_right fun foreign => ?_
          refine (or_iff_right ?_).symm
          rintro rfl
          rcases skipped with own | seen
          · exact foreign (bound.trans (client ▸ own))
          · exact unseen seen
      · -- The object of the source gets the message, and is passed by from now on.
        rw [not_or] at skipped
        obtain ⟨ids, b, sent, nodup, members⟩ := ih later true (wire.next fill ev.obj owner)
          fun _ => rfl
        have absent : ev.obj ∉ ids := by
          intro member
          exact ((members ev.obj).mp member).1 (Function.update_self ..)
        refine ⟨ev.obj :: ids, b, ?_, List.nodup_cons.mpr ⟨absent, nodup⟩, ?_⟩
        · rw [ubusdSendEventMsg_of_new found client skipped.1 skipped.2 filled]
          exact sent.trans (congrArg some (Wire.announced_next wire b bound absent))
        · intro id
          rw [List.mem_cons, members]
          simp only [List.mem_cons, or_and_right, exists_or, exists_eq_left]
          by_cases here : id = ev.obj
          · subst here
            refine iff_of_true (.inl rfl) ⟨skipped.2, ?_, .inl rfl⟩
            rw [Foreign, bound, ← client]
            exact skipped.1
          · have seen : (wire.next fill ev.obj owner).eventSeen id = wire.eventSeen id :=
              Function.update_of_ne here ..
            rw [seen, or_iff_right here, or_iff_right (Ne.symm here)]
            rfl

/-- An event goes to the objects with a matching source that belong to other clients and have not
seen it yet, and to nobody else. -/
theorem ubusdSendEvent_eq (sorted : registry.patterns.Pairwise fun ev later => ev.key ≤ later.key)
    (reached : Reached registry registry.patterns) (cl : Option Nat) (name : Text)
    (fill : List Field) (wire : Wire) :
    ∃ ids b, ubusdSendEvent registry cl name fill wire =
        some ({ wire with objEventSeq := wire.objEventSeq + 1 }.announced registry fill ids b) ∧
      ids.Nodup ∧
      ∀ id, id ∈ ids ↔ wire.eventSeen id ≠ (wire.objEventSeq + 1) % 2 ^ 32 ∧
        Foreign registry cl id ∧ ∃ ev ∈ registry.patterns, ev.Matches name ∧ ev.obj = id := by
  rw [ubusdSendEvent, sendEventLoop_eq sorted 0 false _ fun _ _ _ => Nat.zero_le _]
  have filtered : Reached registry
      (registry.patterns.filter fun ev => decide (ev.Matches name)) :=
    fun ev member => reached ev (List.mem_of_mem_filter member)
  obtain ⟨ids, b, sent, nodup, members⟩ := @sendAll_eq registry cl fill _ filtered false
    { wire with objEventSeq := wire.objEventSeq + 1 } (fun absurd => by cases absurd)
  refine ⟨ids, b, sent, nodup, fun id => ?_⟩
  rw [members]
  simp only [List.mem_filter, decide_eq_true_eq, and_assoc]

end Trunk.Ubusd
