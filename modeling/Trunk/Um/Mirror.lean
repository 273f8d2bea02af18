import Mathlib.Data.Finset.Insert
import Mathlib.Data.Finset.Erase
import Trunk.Um.Effect
import Trunk.Um.L2user

/-! # Mirroring the table

A subscriber that adds the MAC of each `um.new` and removes the MAC of each `um.delete` has,
after every call, the MACs of the users in the table, and for each MAC the two events take
turns (`Trunk.Um.mirror_exact`). An update of a user that is in the table takes it out and
puts it back without either event.
-/

namespace Trunk.Um

open Address Run

variable {umc : Umc} {addr : Addr} {user : Apuser} {text : List UInt8}

/-- The value of the field `mac`. -/
def fieldMac : Field → Option (List UInt8)
  | .string name value => if name = "mac" then some value else none
  | _ => none

/-- The MAC that a message names: the field `mac` of its table `user`. -/
def namedMac (message : List Blobmsg) : Option (List UInt8) :=
  message.findSome? fun
    | .table table => if table.name = "user" then table.fields.findSome? fieldMac else none
    | _ => none

/-- What a subscriber holds after a notification. -/
def subscribe (held : Finset (List UInt8)) (note : Event × List Blobmsg) : Finset (List UInt8) :=
  match namedMac note.2 with
  | none => held
  | some mac =>
      match note.1 with
      | .new => Insert.insert mac held
      | .delete => held.erase mac
      | _ => held

/-- What a subscriber holds after the notifications sent so far. -/
def mirror (ubus : Ubus) : Finset (List UInt8) := ubus.sent.foldl subscribe ∅

/-- Whether a notification is a `um.new` or a `um.delete` of a MAC. -/
def concerns (text : List UInt8) (note : Event × List Blobmsg) : Bool :=
  (note.1 = .new || note.1 = .delete) && namedMac note.2 = some text

/-- The events `um.new` and `um.delete` of a MAC, in the order they were sent. -/
def story (text : List UInt8) (sent : List (Event × List Blobmsg)) : List Event :=
  (sent.filter (concerns text)).map Prod.fst

/-- The events take turns, and the first is a `um.new`. -/
def Alternates (events : List Event) : Prop :=
  events.IsChain (· ≠ ·) ∧ events.head? ≠ some .delete

theorem story_append (text : List UInt8) (sent more : List (Event × List Blobmsg)) :
    story text (sent ++ more) = story text sent ++ story text more := by
  simp only [story, List.filter_append, List.map_append]

/-- A subscriber holds a MAC if the last that was said of it is `um.new`. -/
theorem mem_mirror (sent : List (Event × List Blobmsg)) :
    text ∈ sent.foldl subscribe ∅ ↔ (story text sent).getLast? = some .new := by
  induction sent using List.reverseRecOn with
  | nil => simp only [List.foldl_nil, Finset.notMem_empty, story, List.filter_nil, List.map_nil,
      List.getLast?_nil, reduceCtorEq]
  | append_singleton sent note ih =>
      obtain ⟨event, message⟩ := note
      rw [List.foldl_append, story_append, List.foldl_cons, List.foldl_nil]
      cases named : namedMac message with
      | none =>
          have unconcerned : concerns text (event, message) = false := by
            simp only [concerns, named, reduceCtorEq, decide_false, Bool.and_false]
          simp only [subscribe, named, story, List.filter_singleton, unconcerned, cond_false,
            List.map_nil, List.append_nil]
          exact ih
      | some mac =>
          by_cases same : mac = text
          · subst mac
            cases event with
            | new => simp [subscribe, named, story, concerns]
            | delete => simp [subscribe, named, story, concerns]
            | update => simpa [subscribe, named, story, concerns] using ih
            | report => simpa [subscribe, named, story, concerns] using ih
          · have other : text ≠ mac := fun equal => same equal.symm
            have unconcerned : concerns text (event, message) = false := by
              simp only [concerns, named, Option.some.injEq, same, decide_false, Bool.and_false]
            have unchanged : text ∈ subscribe (sent.foldl subscribe ∅) (event, message) ↔
                text ∈ sent.foldl subscribe ∅ := by
              cases event with
              | new => simp only [subscribe, named, Finset.mem_insert, other, false_or]
              | delete => simp only [subscribe, named, Finset.mem_erase, ne_eq, other,
                  not_false_eq_true, true_and]
              | update => simp only [subscribe, named]
              | report => simp only [subscribe, named]
            rw [unchanged, ih]
            simp only [story, List.filter_singleton, unconcerned, cond_false, List.map_nil,
              List.append_nil]

theorem namedMac_user (user : Apuser) :
    namedMac [.table ⟨"user", userFields user⟩] = some (macString user.mac) := by
  simp only [namedMac, List.findSome?_cons, ↓reduceIte, userFields, fieldMac]

/-- The notification of a local user. -/
theorem insertOrRemoveCb_sent (ubus : Ubus) (isLocal : user.isLocal = true) (event : Event) :
    (insertOrRemoveCb ubus user event).sent =
      ubus.sent ++ [(event, [.table ⟨"user", userFields user⟩])] := by
  rw [insertOrRemoveCb, if_pos isLocal]
  rfl

/-- What was said of a MAC, and whether a user of the table has it. -/
structure Told (text : List UInt8) (sent : List (Event × List Blobmsg)) (present : Prop) :
    Prop where
  alternates : Alternates (story text sent)
  last : (story text sent).getLast? = some .new ↔ present

/-- Another event, after one that is not the same. -/
theorem Alternates.append {events : List Event} {event : Event} (alternates : Alternates events)
    (turn : events.getLast? ≠ some event) (start : events = [] → event ≠ .delete) :
    Alternates (events ++ [event]) := by
  constructor
  · refine List.isChain_append.mpr ⟨alternates.1, List.isChain_singleton _, ?_⟩
    intro before isLast after isNext same
    obtain rfl := Option.some.inj isNext
    exact turn (same ▸ isLast)
  · cases events with
    | nil => exact fun same => start rfl (Option.some.inj same)
    | cons first events => exact alternates.2

theorem last_event {sent : List (Event × List Blobmsg)}
    (notNew : (story text sent).getLast? ≠ some .new) :
    story text sent = [] ∨ (story text sent).getLast? = some .delete := by
  cases last : (story text sent).getLast? with
  | none => exact .inl (List.getLast?_eq_none_iff.mp last)
  | some event =>
      right
      obtain ⟨note, kept, rfl⟩ := List.mem_map.mp (List.mem_of_getLast? last)
      have concerned := (List.mem_filter.mp kept).2
      simp only [concerns, Bool.and_eq_true, Bool.or_eq_true, decide_eq_true_eq] at concerned
      rcases concerned.1 with new | delete
      · exact absurd (new ▸ last) notNew
      · rw [delete]

theorem story_user (user : Apuser) {event : Event} (announced : event = .new ∨ event = .delete) :
    story text [(event, [.table ⟨"user", userFields user⟩])] =
      if macString user.mac = text then [event] else [] := by
  have kind : (decide (event = .new) || decide (event = .delete)) = true := by
    rcases announced with rfl | rfl <;> rfl
  simp only [story, List.filter_singleton, concerns, namedMac_user, Option.some.injEq, kind,
    Bool.true_and]
  by_cases same : macString user.mac = text
  · simp only [same, decide_true, cond_true, List.map_cons, List.map_nil, ↓reduceIte]
  · simp only [same, decide_false, cond_false, List.map_nil, ↓reduceIte]

/-- A user is announced that was not in the table. -/
theorem Told.join {sent : List (Event × List Blobmsg)} {present : Prop}
    (told : Told text sent present) (user : Apuser)
    (absent : macString user.mac = text → ¬ present) :
    Told text (sent ++ [(.new, [.table ⟨"user", userFields user⟩])])
      (macString user.mac = text ∨ present) := by
  have appended : story text (sent ++ [(.new, [.table ⟨"user", userFields user⟩])]) =
      story text sent ++ if macString user.mac = text then [.new] else [] := by
    rw [story_append, story_user user (.inl rfl)]
  by_cases same : macString user.mac = text
  · rw [if_pos same] at appended
    constructor
    · rw [appended]
      exact told.alternates.append (fun last => absent same (told.last.mp last)) nofun
    · rw [appended, List.getLast?_concat]
      simp only [same, true_or]
  · rw [if_neg same, List.append_nil] at appended
    refine ⟨appended ▸ told.alternates, ?_⟩
    rw [appended, told.last, or_iff_right same]

/-- A user of the table is taken leave of. -/
theorem Told.leave {sent : List (Event × List Blobmsg)} {present : Prop}
    (told : Told text sent present) (user : Apuser) (held : macString user.mac = text → present) :
    Told text (sent ++ [(.delete, [.table ⟨"user", userFields user⟩])])
      (macString user.mac ≠ text ∧ present) := by
  have appended : story text (sent ++ [(.delete, [.table ⟨"user", userFields user⟩])]) =
      story text sent ++ if macString user.mac = text then [.delete] else [] := by
    rw [story_append, story_user user (.inr rfl)]
  by_cases same : macString user.mac = text
  · rw [if_pos same] at appended
    have last := told.last.mpr (held same)
    constructor
    · rw [appended]
      refine told.alternates.append ?_ ?_
      · rw [last]
        nofun
      · intro none
        rw [none] at last
        cases last
    · rw [appended, List.getLast?_concat]
      simp only [Option.some.injEq, reduceCtorEq, same, ne_eq, not_true_eq_false, false_and]
  · rw [if_neg same, List.append_nil] at appended
    refine ⟨appended ▸ told.alternates, ?_⟩
    rw [appended, told.last, and_iff_right same]

/-- Notifications of other kinds say nothing of a MAC. -/
theorem Told.quiet {sent more : List (Event × List Blobmsg)} {present : Prop}
    (told : Told text sent present) (others : ∀ note ∈ more, note.1 ≠ .new ∧ note.1 ≠ .delete) :
    Told text (sent ++ more) present := by
  have silent : story text more = [] := by
    rw [story, List.map_eq_nil_iff, List.filter_eq_nil_iff]
    intro note member
    obtain ⟨notNew, notDelete⟩ := others note member
    simp only [concerns, notNew, notDelete, decide_false, Bool.or_self, Bool.false_and,
      Bool.false_eq_true, not_false_eq_true]
  have same : story text (sent ++ more) = story text sent := by
    rw [story_append, silent, List.append_nil]
  exact ⟨same ▸ told.alternates, same ▸ told.last⟩

/-- Whether a user of the table has a MAC with this text. -/
def Present (umc : Umc) (text : List UInt8) : Prop :=
  ∃ user ∈ users umc, macString user.mac = text

/-- All users are local and have good MACs, the two events are enabled, and what was said of
each MAC agrees with the table. -/
structure Mirrored (umc : Umc) : Prop where
  inv : Inv umc
  evNew : umc.keys.evNew = true
  evDelete : umc.keys.evDelete = true
  stations : ∀ user ∈ users umc, user.isLocal = true ∧ isGoodMac user.mac = true
  told : ∀ text, Told text umc.ubus.sent (Present umc text)

theorem mirrored_umcInit {keys : Keys} (evNew : keys.evNew = true)
    (evDelete : keys.evDelete = true) : Mirrored (umcInit keys) where
  inv := inv_umcInit keys
  evNew := evNew
  evDelete := evDelete
  stations := by
    intro user member
    cases member
  told := by
    intro text
    have empty : story text (umcInit keys).ubus.sent = [] := rfl
    refine ⟨⟨List.isChain_nil, nofun⟩, ?_⟩
    rw [empty, List.getLast?_nil]
    refine iff_of_false nofun ?_
    rintro ⟨user, member, _⟩
    cases member

/-- `__remove` with a notification. -/
theorem Mirrored.remove (mirrored : Mirrored umc) (target : Option Addr) :
    Mirrored (remove umc target (some umUbusRemoveCb)).2 := by
  cases target with
  | none => exact mirrored
  | some addr =>
      by_cases listed : addr ∈ umc.head.list
      · obtain ⟨user, found⟩ := mirrored.inv.heap_of_mem listed
        have held : user ∈ users umc := mem_users.mpr ⟨addr, listed, found⟩
        obtain ⟨isLocal, good⟩ := mirrored.stations user held
        obtain ⟨_, others, list⟩ := remove_found mirrored.inv found (some umUbusRemoveCb)
        obtain ⟨ubus, keys⟩ := remove_listed mirrored.inv found listed (some umUbusRemoveCb)
        have sent : (Um.remove umc (some addr) (some umUbusRemoveCb)).2.ubus.sent =
            umc.ubus.sent ++ [(.delete, [.table ⟨"user", userFields user⟩])] := by
          rw [ubus, callback]
          simp only [umUbusRemoveCb, mirrored.evDelete, ↓reduceIte]
          exact insertOrRemoveCb_sent umc.ubus isLocal .delete
        have left : ∀ other, other ∈ users (Um.remove umc (some addr) (some umUbusRemoveCb)).2 ↔
            other ∈ users umc ∧ other.mac ≠ user.mac := by
          intro other
          rw [mem_users, mem_users, list]
          constructor
          · rintro ⟨place, member, stored⟩
            have apart : place ≠ addr := fun this =>
              mirrored.inv.nodup.not_mem_erase (this ▸ member)
            rw [others place apart] at stored
            have before := List.mem_of_mem_erase member
            refine ⟨⟨place, before, stored⟩, fun same => apart ?_⟩
            exact mirrored.inv.unique place addr other user before listed stored found
              (same ▸ good) same
          · rintro ⟨⟨place, member, stored⟩, different⟩
            have apart : place ≠ addr := by
              rintro rfl
              obtain rfl := Option.some.inj (stored.symm.trans found)
              exact different rfl
            exact ⟨place, (List.mem_erase_of_ne apart).mpr member, (others place apart).trans stored⟩
        refine {
          inv := mirrored.inv.remove _ _
          evNew := keys ▸ mirrored.evNew
          evDelete := keys ▸ mirrored.evDelete
          stations := fun other member => mirrored.stations other ((left other).mp member).1
          told := ?_ }
        intro text
        rw [sent]
        have leave := (mirrored.told text).leave user fun same => ⟨user, held, same⟩
        refine ⟨leave.alternates, leave.last.trans ?_⟩
        constructor
        · rintro ⟨different, other, member, rfl⟩
          exact ⟨other, (left other).mpr ⟨member, fun same => different (by rw [same])⟩, rfl⟩
        · rintro ⟨other, member, rfl⟩
          obtain ⟨before, different⟩ := (left other).mp member
          exact ⟨fun same => different (macString_injective same).symm, other, before, rfl⟩
      · rw [remove_unlisted mirrored.inv listed]
        exact mirrored

/-- The table has users with the same MACs, and neither event was sent. -/
theorem Mirrored.congr {next : Umc} (mirrored : Mirrored umc) (inv : Inv next)
    (evNew : next.keys.evNew = true) (evDelete : next.keys.evDelete = true)
    (came : ∀ user ∈ users next, user.isLocal = true ∧ ∃ old ∈ users umc, old.mac = user.mac)
    (stays : ∀ old ∈ users umc, ∃ user ∈ users next, user.mac = old.mac)
    {more : List (Event × List Blobmsg)} (sent : next.ubus.sent = umc.ubus.sent ++ more)
    (others : ∀ note ∈ more, note.1 ≠ .new ∧ note.1 ≠ .delete) : Mirrored next where
  inv := inv
  evNew := evNew
  evDelete := evDelete
  stations := by
    intro user member
    obtain ⟨isLocal, old, held, same⟩ := came user member
    exact ⟨isLocal, same ▸ (mirrored.stations old held).2⟩
  told := by
    intro text
    rw [sent]
    have quiet := (mirrored.told text).quiet others
    refine ⟨quiet.alternates, quiet.last.trans ?_⟩
    constructor
    · rintro ⟨old, held, rfl⟩
      obtain ⟨user, member, same⟩ := stays old held
      exact ⟨user, member, by rw [same]⟩
    · rintro ⟨user, member, rfl⟩
      obtain ⟨_, old, held, same⟩ := came user member
      exact ⟨old, held, by rw [same]⟩

theorem Mirrored.setAging (mirrored : Mirrored umc) (addr : Addr) (aging : Apuser → Int) :
    Mirrored (setAging umc addr aging) := by
  have inv := mirrored.inv.setAging addr aging
  unfold Um.setAging at inv ⊢
  split at inv
  · exact mirrored
  · rename_i user found
    have pairs : ∀ place, ∀ old, umc.heap place = some old →
        ∃ new, (umc.store addr { user with aging := aging user }).heap place = some new ∧
          new.mac = old.mac ∧ new.isLocal = old.isLocal := by
      intro place old stored
      by_cases this : place = addr
      · subst place
        obtain rfl := Option.some.inj (found.symm.trans stored)
        exact ⟨_, umc.store_heap_self addr _, rfl, rfl⟩
      · exact ⟨old, (umc.store_heap_of_ne _ this).trans stored, rfl, rfl⟩
    refine mirrored.congr inv mirrored.evNew mirrored.evDelete ?_ ?_ (List.append_nil _).symm nofun
    · intro new member
      obtain ⟨place, listed, stored⟩ := mem_users.mp member
      obtain ⟨old, before⟩ := mirrored.inv.heap_of_mem listed
      have held : old ∈ users umc := mem_users.mpr ⟨place, listed, before⟩
      obtain ⟨new', stored', mac, isLocal⟩ := pairs place old before
      obtain rfl := Option.some.inj (stored.symm.trans stored')
      exact ⟨isLocal.trans (mirrored.stations old held).1, old, held, mac.symm⟩
    · intro old member
      obtain ⟨place, listed, before⟩ := mem_users.mp member
      obtain ⟨new, stored, mac, _⟩ := pairs place old before
      exact ⟨new, mem_users.mpr ⟨place, listed, stored⟩, mac⟩

section

variable {next : Umc} {info before : Apuser} {time : UInt32}

/-- `l2user_update` of a user that was in the table sends at most a `um.update`. -/
theorem umUbusUpdateCb_sent (keys : Keys) (ubus : Ubus) (old new : Apuser) :
    ∃ more, (umUbusUpdateCb keys ubus old new).sent = ubus.sent ++ more ∧
      ∀ note ∈ more, note.1 ≠ .new ∧ note.1 ≠ .delete := by
  unfold umUbusUpdateCb updateCb
  split
  · split
    · exact ⟨[], (List.append_nil _).symm, nofun⟩
    · refine ⟨_, rfl, ?_⟩
      intro note member
      obtain rfl := List.mem_singleton.mp member
      exact ⟨nofun, nofun⟩
  · exact ⟨[], (List.append_nil _).symm, nofun⟩

/-- A user that was in the table is updated. -/
theorem Mirrored.refreshed (mirrored : Mirrored umc) (inv : Inv next)
    (isLocal : info.isLocal = true)
    (updated : Updated umc next info (l2userUpdate time) addr false before) : Mirrored next := by
  obtain ⟨found, _, owner, stored, named⟩ := updated.found rfl
  have held : owner ∈ users umc := mem_users.mpr ⟨addr, found, stored⟩
  obtain ⟨more, sent, others⟩ := umUbusUpdateCb_sent umc.keys umc.ubus before info
  refine mirrored.congr inv (updated.keys ▸ mirrored.evNew) (updated.keys ▸ mirrored.evDelete)
    ?_ ?_ ((congrArg Ubus.sent updated.ubus).trans sent) others
  · intro user member
    rcases updated.came member with ⟨same, copied⟩ | old
    · exact ⟨copied.trans isLocal, owner, held, named.trans same.symm⟩
    · exact ⟨(mirrored.stations user old).1, user, old, rfl⟩
  · intro old member
    rcases updated.stays member with same | still
    · obtain ⟨user, present, named', _⟩ := updated.self
      exact ⟨user, present, named'.trans same.symm⟩
    · exact ⟨old, still, rfl⟩

/-- A new user is put in the table. -/
theorem Mirrored.created (mirrored : Mirrored umc) (inv : Inv next)
    (isLocal : info.isLocal = true) (good : isGoodMac info.mac = true)
    (updated : Updated umc next info (l2userUpdate time) addr true before) : Mirrored next := by
  have absent := (updated.fresh rfl).2 good
  have mac : ((l2userUpdate time).call umc.keys umc.ubus true before info).1.mac = info.mac :=
    ((l2userUpdate time).mac ..).trans updated.mac
  have station : ((l2userUpdate time).call umc.keys umc.ubus true before info).1.isLocal = true :=
    isLocal
  have sent : next.ubus.sent = umc.ubus.sent ++ [(.new, [.table ⟨"user", userFields
      ((l2userUpdate time).call umc.keys umc.ubus true before info).1⟩])] := by
    rw [updated.ubus]
    simp only [↓reduceIte, umUbusInsertCb, mirrored.evNew]
    exact insertOrRemoveCb_sent umc.ubus station .new
  refine ⟨inv, updated.keys ▸ mirrored.evNew, updated.keys ▸ mirrored.evDelete, ?_, ?_⟩
  · intro user member
    rcases updated.came member with ⟨same, copied⟩ | old
    · exact ⟨copied.trans station, same ▸ good⟩
    · exact mirrored.stations user old
  · intro text
    rw [sent]
    have join := (mirrored.told text).join
      ((l2userUpdate time).call umc.keys umc.ubus true before info).1 (by
        rintro rfl ⟨user, member, same⟩
        exact absent user member ((macString_injective same).trans mac))
    refine ⟨join.alternates, join.last.trans ?_⟩
    rw [mac]
    constructor
    · rintro (rfl | ⟨old, member, rfl⟩)
      · obtain ⟨user, present, named, _⟩ := updated.self
        exact ⟨user, present, by rw [named]⟩
      · rcases updated.stays member with same | still
        · exact absurd same (absent old member)
        · exact ⟨old, still, rfl⟩
    · rintro ⟨user, member, rfl⟩
      rcases updated.came member with ⟨same, _⟩ | old
      · exact .inl (by rw [same])
      · exact .inr ⟨user, old, rfl⟩

end

/-- `um_user_update` as `l2user_timer` calls it. -/
theorem Mirrored.update (mirrored : Mirrored umc) {info : Apuser} (isLocal : info.isLocal = true)
    (good : isGoodMac info.mac = true) (time : UInt32) (alloc : Option Addr) (now : UInt32) :
    Mirrored (umUserUpdate umc info (l2userUpdate time) alloc now).2 := by
  cases done : (umUserUpdate umc info (l2userUpdate time) alloc now).1 with
  | none =>
      rw [umUserUpdate_none done]
      exact mirrored
  | some addr =>
      have inv := mirrored.inv.umUserUpdate info (l2userUpdate time) alloc now
      obtain ⟨created, before, updated⟩ := umUserUpdate_some mirrored.inv done
      cases created with
      | false => exact mirrored.refreshed inv isLocal updated
      | true => exact mirrored.created inv isLocal good updated

theorem Mirrored.delbyCb (mirrored : Mirrored umc) (filter : UserFilter) (addr : Addr) :
    Mirrored (delbyCb filter umc addr).2 := by
  unfold Um.delbyCb
  split
  · exact mirrored.remove (some addr)
  · exact mirrored

theorem Mirrored.agingCb (mirrored : Mirrored umc) (addr : Addr) :
    Mirrored (agingCb umc addr).2 := by
  unfold Um.agingCb
  split
  · exact mirrored
  · split
    · have aged := mirrored.setAging addr fun user => user.aging - 1
      dsimp only
      split
      · exact aged.remove (some addr)
      · exact aged
    · exact mirrored

/-- The calls of a run that a subscriber follows: updates as `l2user_timer` makes them, with
a good MAC, every deletion, aging, and changes of the keys that leave both events on. -/
def Call.Followed : Call → Prop
  | .update info change _ _ =>
      info.isLocal = true ∧ isGoodMac info.mac = true ∧ ∃ time, change = l2userUpdate time
  | .configure keys => keys.evNew = true ∧ keys.evDelete = true
  | _ => True

theorem Mirrored.call (mirrored : Mirrored umc) {input : Call} (followed : input.Followed) :
    Mirrored (call umc input) := by
  cases input with
  | update info update alloc now =>
      obtain ⟨isLocal, good, time, rfl⟩ := followed
      exact mirrored.update isLocal good time alloc now
  | del user => exact mirrored.remove user
  | delbymac mac => exact mirrored.remove _
  | delbyip ip => exact mirrored.remove _
  | delby filter =>
      exact Walk.forEachSafe_invariant (fun _ addr kept => kept.delbyCb filter addr) umc mirrored
  | aging =>
      exact Walk.forEachSafe_invariant (fun _ addr kept => kept.agingCb addr) umc mirrored
  | configure keys =>
      exact ⟨mirrored.inv.call _, followed.1, followed.2, mirrored.stations, mirrored.told⟩

/-- With the two events on, after every run of updates, deletions and aging passes a
subscriber holds the MACs of the users in the table, and for each MAC `um.new` and
`um.delete` take turns. -/
theorem mirror_exact (keys : Keys) (evNew : keys.evNew = true) (evDelete : keys.evDelete = true)
    (calls : List Call) (followed : ∀ input ∈ calls, input.Followed) :
    (∀ text, text ∈ mirror (run call (umcInit keys) calls).ubus ↔
      ∃ user ∈ users (run call (umcInit keys) calls), macString user.mac = text) ∧
    ∀ mac, Alternates (story (macString mac) (run call (umcInit keys) calls).ubus.sent) := by
  have mirrored : Mirrored (run call (umcInit keys) calls) :=
    run_invariant_of_mem (fun _ _ kept allowed => kept.call allowed) calls _
      (mirrored_umcInit evNew evDelete) followed
  refine ⟨fun text => ?_, fun mac => (mirrored.told _).alternates⟩
  rw [mirror, mem_mirror]
  exact (mirrored.told text).last

/-- A user comes, ages out and comes again. -/
theorem mirror_exact_return :
    macString ⟨[0, 0, 0, 0, 0, 1], rfl⟩ ∈ mirror (run call (umcInit ⟨true, true, true, true, 1⟩)
        [.update { umUserInit true with mac := ⟨[0, 0, 0, 0, 0, 1], rfl⟩ } (l2userUpdate 0)
            (some 0) 0, .aging,
          .update { umUserInit true with mac := ⟨[0, 0, 0, 0, 0, 1], rfl⟩ } (l2userUpdate 5)
            (some 1) 5]).ubus ↔
      ∃ user ∈ users (run call (umcInit ⟨true, true, true, true, 1⟩)
        [.update { umUserInit true with mac := ⟨[0, 0, 0, 0, 0, 1], rfl⟩ } (l2userUpdate 0)
            (some 0) 0, .aging,
          .update { umUserInit true with mac := ⟨[0, 0, 0, 0, 0, 1], rfl⟩ } (l2userUpdate 5)
            (some 1) 5]), macString user.mac = macString ⟨[0, 0, 0, 0, 0, 1], rfl⟩ := by
  refine (mirror_exact _ rfl rfl _ ?_).1 _
  intro input member
  simp only [List.mem_cons, List.not_mem_nil, or_false] at member
  rcases member with rfl | rfl | rfl
  · exact ⟨rfl, by decide, 0, rfl⟩
  · trivial
  · exact ⟨rfl, by decide, 5, rfl⟩

end Trunk.Um
