import Trunk.Ubusd.Events
import Trunk.Ubusd.Lifetime

/-! # What the clients know

The owner of an object is told whenever its first subscriber comes or its last one goes, so the last
message that it got about the object says whether there are subscribers (`Trunk.Ubusd.Watched`).
With the invariant of the registry this is what the functions of `ubusd_obj.c` keep
(`Trunk.Ubusd.Sound`): no function that sends one of these messages, or an event, fails.
-/

namespace Trunk.Ubusd

variable {registry : Registry} {wire wire' : Wire} {daemon : Daemon} {cl id : Nat} {obj : Object}
  {s : Subscription} {sent out : List (Nat × Message)}

/-- What a message says to a client about the subscribers of an object. -/
def heard (cl id : Nat) (message : Nat × Message) : Option Bool :=
  if message.1 = cl ∧ message.2.type = .notify then
    match message.2.data with
    | [.objid other, .active value] => if other = id then some value else none
    | _ => none
  else
    none

/-- What a client was told last about the subscribers of an object. -/
def lastHeard (cl id : Nat) (sent : List (Nat × Message)) : Bool :=
  sent.foldl (fun last message => (heard cl id message).getD last) false

/-- What a message says about a subscription that is gone: the client, the subscriber and the
target. -/
def severed (message : Nat × Message) : Option (Nat × Nat × Nat) :=
  if message.2.type = .unsubscribe then
    match message.2.data with
    | [.objid subscriber, .target target] => some (message.1, subscriber, target)
    | _ => none
  else
    none

/-- A client has an object with subscribers. -/
def Active (objects : Nat → Option Object) (cl id : Nat) : Prop :=
  ∃ obj, objects id = some obj ∧ obj.client = some cl ∧ obj.subscribers ≠ []

/-- Every client knows of its objects whether they have subscribers. -/
def Watched (registry : Registry) (sent : List (Nat × Message)) : Prop :=
  ∀ cl id, lastHeard cl id sent = true ↔ Active registry.objects cl id

/-- No object has seen an event that is yet to come. -/
def Wire.Behind (wire : Wire) : Prop := ∀ id, wire.eventSeen id ≤ wire.objEventSeq

/-- What holds of the daemon between two inputs. -/
structure Sound (daemon : Daemon) : Prop where
  wf : Wf daemon.registry
  watched : Watched daemon.registry daemon.wire.sent
  behind : daemon.wire.Behind

/-! ### Messages that say nothing of this kind -/

/-- Messages of other types were sent. -/
structure Quiet (wire wire' : Wire) : Prop where
  sent : ∃ out, wire'.sent = wire.sent ++ out ∧
    ∀ message ∈ out, message.2.type ≠ .notify ∧ message.2.type ≠ .unsubscribe
  behind : wire.Behind → wire'.Behind

theorem lastHeard_append (cl id : Nat) (sent : List (Nat × Message)) (message : Nat × Message) :
    lastHeard cl id (sent ++ [message]) =
      (heard cl id message).getD (lastHeard cl id sent) := by
  rw [lastHeard, List.foldl_append]
  rfl

theorem lastHeard_of_quiet (other : ∀ message ∈ out, message.2.type ≠ .notify) :
    lastHeard cl id (sent ++ out) = lastHeard cl id sent := by
  induction out using List.reverseRecOn with
  | nil => rw [List.append_nil]
  | append_singleton out message ih =>
      rw [← List.append_assoc, lastHeard_append, heard, if_neg, Option.getD_none]
      · exact ih fun message member => other message (List.mem_append_left _ member)
      · exact fun same => other message
          (List.mem_append_right _ (List.mem_singleton_self _)) same.2

theorem severed_of_quiet (other : ∀ message ∈ out, message.2.type ≠ .unsubscribe) :
    (sent ++ out).filterMap severed = sent.filterMap severed := by
  have none : out.filterMap severed = [] := by
    rw [List.filterMap_eq_nil_iff]
    intro message member
    rw [severed, if_neg (other message member)]
  rw [List.filterMap_append, none, List.append_nil]

theorem Quiet.refl (wire : Wire) : Quiet wire wire :=
  ⟨⟨[], (List.append_nil _).symm, fun _ member => absurd member List.not_mem_nil⟩, id⟩

theorem Quiet.trans {wire'' : Wire} (first : Quiet wire wire') (second : Quiet wire' wire'') :
    Quiet wire wire'' := by
  obtain ⟨out, sent, quiet⟩ := first.sent
  obtain ⟨out', sent', quiet'⟩ := second.sent
  refine ⟨⟨out ++ out', ?_, ?_⟩, fun behind => second.behind (first.behind behind)⟩
  · rw [sent', sent, List.append_assoc]
  · intro message member
    rcases List.mem_append.mp member with early | late
    · exact quiet message early
    · exact quiet' message late

theorem Quiet.severed (quiet : Quiet wire wire') :
    wire'.sent.filterMap severed = wire.sent.filterMap Ubusd.severed := by
  obtain ⟨out, sent, other⟩ := quiet.sent
  rw [sent, severed_of_quiet fun message member => (other message member).2]

theorem Watched.quiet (watched : Watched registry wire.sent) (quiet : Quiet wire wire') :
    Watched registry wire'.sent := by
  obtain ⟨out, sent, other⟩ := quiet.sent
  intro cl id
  rw [sent, lastHeard_of_quiet fun message member => (other message member).1]
  exact watched cl id

theorem Sound.quiet (sound : Sound daemon) (quiet : Quiet daemon.wire wire') :
    Sound { daemon with wire := wire' } :=
  ⟨sound.wf, sound.watched.quiet quiet, quiet.behind sound.behind⟩

/-- One message of another type is sent. -/
theorem quiet_send (wire : Wire) (cl : Nat) (message : Message) (b : List Field)
    (other : message.type ≠ .notify ∧ message.type ≠ .unsubscribe) :
    Quiet wire { wire with b := b, sent := wire.sent ++ [(cl, message)] } where
  sent := by
    refine ⟨[(cl, message)], rfl, fun sent member => ?_⟩
    rw [List.mem_singleton.mp member]
    exact other
  behind := id

/-- What is in the buffer tells nobody anything. -/
theorem quiet_buffer (wire : Wire) (b : List Field) : Quiet wire { wire with b := b } :=
  ⟨(Quiet.refl wire).sent, id⟩

/-! ### Events -/

theorem Wf.client_of_events (wf : Wf registry) (found : registry.objects id = some obj)
    (listening : obj.events ≠ []) : ∃ cl, obj.client = some cl := by
  have other : id ≠ ubusSystemObjectEvent := by
    rintro rfl
    obtain rfl := Option.some.inj (found.symm.trans wf.owned.event)
    exact listening rfl
  obtain ⟨cl, _, client, _⟩ := wf.owned.owner id obj found other
  exact ⟨cl, client⟩

theorem Wf.reached (wf : Wf registry) : Reached registry registry.patterns := by
  intro ev member
  obtain ⟨obj, found, listed⟩ := (wf.sourced.mem_iff ev).mp member
  obtain ⟨cl, client⟩ := wf.client_of_events found (List.ne_nil_of_mem listed)
  exact ⟨obj, cl, found, client⟩

theorem quiet_announced (wire : Wire) (registry : Registry) (fill : List Field) (ids : List Nat)
    (b : List Field) :
    Quiet wire ({ wire with objEventSeq := wire.objEventSeq + 1 }.announced registry fill ids b) where
  sent := by
    refine ⟨announce registry fill ids wire.eventSeq, rfl, fun message member => ?_⟩
    rw [type_of_mem_announce member]
    exact ⟨MsgType.noConfusion, MsgType.noConfusion⟩
  behind behind id := by
    have before := behind id
    simp only [Wire.announced]
    split
    · exact Nat.mod_le _ _
    · exact before.trans (Nat.le_succ _)

/-- An event can always be sent. -/
theorem quiet_ubusdSendEvent
    (sorted : registry.patterns.Pairwise fun ev later => ev.key ≤ later.key)
    (reached : Reached registry registry.patterns) (cl : Option Nat) (name : Text)
    (fill : List Field) (wire : Wire) :
    ∃ wire', ubusdSendEvent registry cl name fill wire = some wire' ∧ Quiet wire wire' := by
  obtain ⟨ids, b, sent, _⟩ := ubusdSendEvent_eq sorted reached cl name fill wire
  exact ⟨_, sent, quiet_announced wire registry fill ids b⟩

/-! ### Subscriptions -/

theorem Wf.client_of_subscribers (wf : Wf registry) (found : registry.objects id = some obj)
    (watched : obj.subscribers ≠ []) : ∃ cl, obj.client = some cl := by
  have other : id ≠ ubusSystemObjectEvent := by
    rintro rfl
    obtain rfl := Option.some.inj (found.symm.trans wf.owned.event)
    exact watched rfl
  obtain ⟨cl, _, client, _⟩ := wf.owned.owner id obj found other
  exact ⟨cl, client⟩

/-- What `ubus_notify_subscription` leaves on the wire. -/
def Wire.notified (wire : Wire) (cl id : Nat) (active : Bool) : Wire :=
  { wire with
    b := [.objid id, .active active]
    invokeSeq := Function.update wire.invokeSeq id (wire.invokeSeq id + 1)
    sent := wire.sent ++ [(cl, ⟨.notify, (wire.invokeSeq id + 1) % 2 ^ 16, 0,
      [.objid id, .active active]⟩)] }

theorem ubusNotifySubscription_eq (found : registry.objects id = some obj)
    (client : obj.client = some cl) (wire : Wire) :
    ubusNotifySubscription registry id wire =
      some (wire.notified cl id (!obj.subscribers.isEmpty)) := by
  rw [ubusNotifySubscription, found, Option.bind_eq_bind, Option.bind_some, client]
  simp only [ubusMsgSend, Option.map_some, Function.update_self, Wire.notified]

theorem lastHeard_notified (wire : Wire) (cl id : Nat) (active : Bool) (cl' id' : Nat) :
    lastHeard cl' id' (wire.notified cl id active).sent =
      if cl = cl' ∧ id = id' then active else lastHeard cl' id' wire.sent := by
  rw [Wire.notified, lastHeard_append, heard]
  by_cases client : cl = cl'
  · rw [if_pos ⟨client, rfl⟩]
    by_cases same : id = id'
    · rw [if_pos ⟨client, same⟩]
      simp only [if_pos same, Option.getD_some]
    · rw [if_neg fun both => same both.2]
      simp only [if_neg same, Option.getD_none]
  · rw [if_neg fun both => client both.1, if_neg fun both => client both.1, Option.getD_none]

/-- The owner of one object is told. -/
theorem Watched.notified {registry' : Registry} (watched : Watched registry wire.sent)
    (found : registry'.objects id = some obj) (client : obj.client = some cl)
    (others : ∀ cl' id', ¬ (cl = cl' ∧ id = id') →
      (Active registry'.objects cl' id' ↔ Active registry.objects cl' id')) :
    Watched registry' (wire.notified cl id (!obj.subscribers.isEmpty)).sent := by
  intro cl' id'
  rw [lastHeard_notified]
  split
  · rename_i here
    obtain ⟨rfl, rfl⟩ := here
    rw [Bool.not_eq_true', List.isEmpty_eq_false_iff]
    constructor
    · exact fun some => ⟨obj, found, client, some⟩
    · rintro ⟨obj', found', _, some⟩
      obtain rfl := Option.some.inj (found.symm.trans found')
      exact some
  · rename_i elsewhere
    rw [others cl' id' elsewhere]
    exact watched cl' id'

/-- Nobody needs to be told. -/
theorem Watched.congr {registry' : Registry} (watched : Watched registry sent)
    (same : ∀ cl id, Active registry'.objects cl id ↔ Active registry.objects cl id) :
    Watched registry' sent := by
  intro cl id
  rw [same]
  exact watched cl id

end Trunk.Ubusd
