import Trunk.Um.Filter

/-! # What the calls do to the table

Beyond keeping the containers right, each call has an effect that its callers see: which
user enters or leaves the table, what the user at an address becomes, and which
notification is sent. `Trunk.Um.Updated` says it for `um_user_update`,
`Trunk.Um.remove_listed` for the removals, and `Trunk.Um.aging_view` for an aging pass, user
by user.
-/

namespace Trunk.Um

open Address

variable {umc : Umc} {addr : Addr} {user : Apuser}

/-- `__remove` on a user of the table calls the callback on it, and leaves the keys. -/
theorem remove_listed (inv : Inv umc) (found : umc.heap addr = some user)
    (listed : addr ∈ umc.head.list) (cb : Option UserCb) :
    (remove umc (some addr) cb).2.ubus = (callback cb umc user).ubus ∧
      (remove umc (some addr) cb).2.keys = umc.keys := by
  have linked := (inv.mem_iff found).mp listed
  simp only [remove, found, linked, Bool.true_eq_false, ↓reduceIte]
  cases cb with
  | none => exact ⟨rfl, rfl⟩
  | some cb => exact ⟨rfl, rfl⟩

/-- `__remove` on anything else does nothing. -/
theorem remove_unlisted (inv : Inv umc) (unlisted : addr ∉ umc.head.list) (cb : Option UserCb) :
    (remove umc (some addr) cb).2 = umc := by
  unfold remove
  dsimp only
  split
  · rfl
  · rename_i user found
    have unlinked : inList user.node.list = false :=
      eq_false_of_ne_true fun linked => unlisted ((inv.mem_iff found).mpr linked)
    rw [if_pos unlinked]

/-- What `um_user_update` does when it returns a user: the user was found by its MAC, or is
new and no user has its MAC; the callback was called on it, and it is in the table. -/
structure Updated (umc next : Umc) (info : Apuser) (update : UmUserUpdateF) (addr : Addr)
    (created : Bool) (before : Apuser) : Prop where
  found : created = false → addr ∈ umc.head.list ∧ isGoodMac info.mac = true ∧
    ∃ user, umc.heap addr = some user ∧ user.mac = info.mac
  fresh : created = true → addr ∉ umc.head.list ∧
    (isGoodMac info.mac = true → ∀ user ∈ users umc, user.mac ≠ info.mac)
  mac : before.mac = info.mac
  here : ∃ node, next.heap addr =
    some { (update.call umc.keys umc.ubus created before info).1 with
      node := node, aging := umc.keys.agtimes }
  listed : ∀ other, other ∈ next.head.list ↔ other = addr ∨ other ∈ umc.head.list
  elsewhere : ∀ other, other ≠ addr → next.heap other = umc.heap other
  keys : next.keys = umc.keys
  ubus : next.ubus =
    if created then
      umUbusInsertCb umc.keys (update.call umc.keys umc.ubus created before info).2
        (update.call umc.keys umc.ubus created before info).1
    else (update.call umc.keys umc.ubus created before info).2

/-- The user that `um_user_update` goes on with, beside the table it starts from. -/
theorem findOrCreate_spec (inv : Inv umc) {mac : Mac} {alloc : Option Addr} {now : UInt32}
    {created : Bool} {next : Umc}
    (found : findOrCreate umc mac alloc now = some (created, addr, next)) :
    next.head = umc.head ∧ next.ubus = umc.ubus ∧ next.keys = umc.keys ∧
      (∀ other, other ≠ addr → next.heap other = umc.heap other) ∧
      (created = false → addr ∈ umc.head.list ∧ isGoodMac mac = true ∧
        ∃ user, umc.heap addr = some user ∧ user.mac = mac) ∧
      (created = true → addr ∉ umc.head.list ∧
        (isGoodMac mac = true → ∀ user ∈ users umc, user.mac ≠ mac)) := by
  unfold findOrCreate at found
  split at found
  · rename_i existing lookup
    obtain ⟨rfl, rfl, rfl⟩ : false = created ∧ existing = addr ∧ umc = next := by
      simpa using found
    exact ⟨rfl, rfl, rfl, fun _ _ => rfl, fun _ => inv.getbymac_some lookup, nofun⟩
  · rename_i missing
    obtain ⟨made, allocated, same⟩ := Option.map_eq_some_iff.mp found
    unfold create at allocated
    split at allocated
    · cases allocated
    · rename_i place
      split at allocated
      · cases allocated
      · rename_i free
        have empty : umc.heap place = none := by simpa using free
        obtain rfl := Option.some.inj allocated
        obtain ⟨rfl, rfl, rfl⟩ : true = created ∧ place = addr ∧ _ = next := by
          simpa using same
        refine ⟨rfl, rfl, rfl, fun other apart => umc.store_heap_of_ne _ apart,
          nofun, fun _ => ⟨?_, ?_⟩⟩
        · intro listed
          obtain ⟨user, stored⟩ := inv.heap_of_mem listed
          rw [empty] at stored
          cases stored
        · intro good user member
          obtain ⟨other, listed, stored⟩ := mem_users.mp member
          exact inv.getbymac_none missing good listed stored

theorem umUserUpdate_none {info : Apuser} {update : UmUserUpdateF} {alloc : Option Addr}
    {now : UInt32} (failed : (umUserUpdate umc info update alloc now).1 = none) :
    (umUserUpdate umc info update alloc now).2 = umc := by
  unfold umUserUpdate at failed ⊢
  split
  · rfl
  · rename_i found
    rw [found] at failed
    cases failed

theorem setAging_found (found : umc.heap addr = some user) (aging : Apuser → Int) :
    setAging umc addr aging = umc.store addr { user with aging := aging user } := by
  simp only [setAging, found]

/-- Putting a user that is in no container in the table. -/
theorem insert_unlisted (inv : Inv umc) (found : umc.heap addr = some user)
    (unlisted : addr ∉ umc.head.list) (cb : Option UserCb) :
    (∃ node, (insert umc addr cb).2.heap addr = some { user with node := node }) ∧
      (∀ other, other ≠ addr → (insert umc addr cb).2.heap other = umc.heap other) ∧
      (insert umc addr cb).2.head.list = addr :: umc.head.list ∧
      (insert umc addr cb).2.keys = umc.keys ∧
      (insert umc addr cb).2.ubus = (callback cb umc user).ubus := by
  have unlinked : inList user.node.list = false :=
    eq_false_of_ne_true fun linked => unlisted ((inv.mem_iff found).mpr linked)
  simp only [insert, found, unlinked, Bool.false_eq_true, ↓reduceIte]
  have here : ∀ next : Umc, (callback cb next user).heap = next.heap ∧
      (callback cb next user).head = next.head ∧ (callback cb next user).keys = next.keys := by
    intro next
    cases cb with
    | none => exact ⟨rfl, rfl, rfl⟩
    | some cb => exact ⟨rfl, rfl, rfl⟩
  rw [(here _).1, (here _).2.1, (here _).2.2]
  refine ⟨⟨_, umc.store_heap_self addr _⟩, fun other apart => umc.store_heap_of_ne _ apart, rfl,
    rfl, ?_⟩
  cases cb with
  | none => rfl
  | some cb => rfl

/-- `um_user_update`, when it returns a user. -/
theorem umUserUpdate_some (inv : Inv umc) {info : Apuser} {update : UmUserUpdateF}
    {alloc : Option Addr} {now : UInt32}
    (done : (umUserUpdate umc info update alloc now).1 = some addr) :
    ∃ created before,
      Updated umc (umUserUpdate umc info update alloc now).2 info update addr created before := by
  unfold umUserUpdate at done ⊢
  split at done
  · cases done
  · rename_i created place next found
    obtain rfl : place = addr := Option.some.inj done
    obtain ⟨nextInv, user, stored, same, _⟩ := inv.findOrCreate found
    obtain ⟨head, ubus, keys, others, existing, fresh⟩ := findOrCreate_spec inv found
    obtain ⟨⟨node, removed⟩, removedOthers, list⟩ := remove_found nextInv stored none
    have quiet : (remove next (some place) none).2.ubus = next.ubus ∧
        (remove next (some place) none).2.keys = next.keys := by
      by_cases listed : place ∈ next.head.list
      · exact remove_listed nextInv stored listed none
      · rw [remove_unlisted nextInv listed none]
        exact ⟨rfl, rfl⟩
    have removedInv := nextInv.remove (some place) none
    have outside : place ∉ (remove next (some place) none).2.head.list := by
      rw [list]
      exact nextInv.nodup.not_mem_erase
    obtain ⟨updatedInv, updatedHead, _, updatedOthers⟩ :=
      removedInv.apply removed outside update created info
    have updated : (update.apply (remove next (some place) none).2 created place info).heap place =
          some (update.call umc.keys umc.ubus created { user with node := node } info).1 ∧
        (update.apply (remove next (some place) none).2 created place info).ubus =
          (update.call umc.keys umc.ubus created { user with node := node } info).2 ∧
        (update.apply (remove next (some place) none).2 created place info).keys = umc.keys := by
      simp only [UmUserUpdateF.apply, removed, quiet, ubus, keys, Umc.store, Function.update_self,
        and_self]
    obtain ⟨⟨last, inserted⟩, insertedOthers, insertedList, insertedKeys, insertedUbus⟩ :=
      insert_unlisted updatedInv updated.1 (updatedHead ▸ outside)
        (if created then some umUbusInsertCb else none)
    refine ⟨created, { user with node := node }, ?_⟩
    dsimp only
    rw [setAging_found inserted]
    refine {
      found := existing
      fresh := fresh
      mac := same
      here := ⟨last, ?_⟩
      listed := ?_
      elsewhere := ?_
      keys := ?_
      ubus := ?_ }
    · rw [Umc.store_heap_self, insertedKeys, updated.2.2]
    · intro other
      change other ∈ (insert _ place _).2.head.list ↔ _
      rw [insertedList, updatedHead, list, head, List.mem_cons]
      by_cases this : other = place
      · simp only [this, true_or]
      · simp only [this, false_or, List.mem_erase_of_ne this]
    · intro other apart
      rw [Umc.store_heap_of_ne _ _ apart, insertedOthers other apart, updatedOthers other apart,
        removedOthers other apart, others other apart]
    · exact insertedKeys.trans updated.2.2
    · refine insertedUbus.trans ?_
      cases created with
      | false => exact updated.2.1
      | true =>
          simp only [callback, ↓reduceIte, updated]

section

variable {next : Umc} {info : Apuser} {update : UmUserUpdateF} {created : Bool} {before : Apuser}

/-- The user that was updated is in the table under its MAC, as the callback left it. -/
theorem Updated.self (updated : Updated umc next info update addr created before) :
    ∃ user ∈ users next, user.mac = info.mac ∧
      user.isLocal = (update.call umc.keys umc.ubus created before info).1.isLocal := by
  obtain ⟨node, here⟩ := updated.here
  refine ⟨_, mem_users.mpr ⟨addr, (updated.listed addr).mpr (.inl rfl), here⟩, ?_, rfl⟩
  exact (update.mac ..).trans updated.mac

/-- A user of the table after the update is the one that was updated, or was in it. -/
theorem Updated.came (updated : Updated umc next info update addr created before)
    (member : user ∈ users next) :
    (user.mac = info.mac ∧
      user.isLocal = (update.call umc.keys umc.ubus created before info).1.isLocal) ∨
      user ∈ users umc := by
  obtain ⟨node, here⟩ := updated.here
  obtain ⟨place, listed, stored⟩ := mem_users.mp member
  by_cases this : place = addr
  · subst place
    obtain rfl := Option.some.inj (here.symm.trans stored)
    exact .inl ⟨(update.mac ..).trans updated.mac, rfl⟩
  · right
    rw [updated.elsewhere place this] at stored
    exact mem_users.mpr ⟨place, ((updated.listed place).mp listed).resolve_left this, stored⟩

/-- A user that was in the table is in it after the update, or has the MAC of the one that
was updated. -/
theorem Updated.stays (updated : Updated umc next info update addr created before)
    (member : user ∈ users umc) : user.mac = info.mac ∨ user ∈ users next := by
  obtain ⟨place, listed, stored⟩ := mem_users.mp member
  by_cases this : place = addr
  · subst place
    left
    cases created with
    | false =>
        obtain ⟨_, _, owner, found, named⟩ := updated.found rfl
        exact Option.some.inj (stored.symm.trans found) ▸ named
    | true => exact absurd listed (updated.fresh rfl).1
  · right
    exact mem_users.mpr ⟨place, (updated.listed place).mpr (.inr listed),
      (updated.elsewhere place this).trans stored⟩

end

/-- What aging reads of a user. -/
structure AgingView where
  mac : Mac
  isLocal : Bool
  aging : Int

/-- What aging reads of the user at an address, if the table holds one there. -/
def agingView (umc : Umc) (addr : Addr) : Option AgingView :=
  if addr ∈ umc.head.list then (umc.heap addr).map fun user => ⟨user.mac, user.isLocal, user.aging⟩
  else none

theorem agingView_listed (listed : addr ∈ umc.head.list) (found : umc.heap addr = some user) :
    agingView umc addr = some ⟨user.mac, user.isLocal, user.aging⟩ := by
  rw [agingView, if_pos listed, found, Option.map_some]

theorem agingView_unlisted (unlisted : addr ∉ umc.head.list) : agingView umc addr = none :=
  if_neg unlisted

theorem agingView_some {view : AgingView} (held : agingView umc addr = some view) :
    ∃ user, addr ∈ umc.head.list ∧ umc.heap addr = some user ∧
      view = ⟨user.mac, user.isLocal, user.aging⟩ := by
  by_cases listed : addr ∈ umc.head.list
  · rw [agingView, if_pos listed] at held
    obtain ⟨user, found, rfl⟩ := Option.map_eq_some_iff.mp held
    exact ⟨user, listed, found, rfl⟩
  · rw [agingView_unlisted listed] at held
    cases held

/-- What an aging pass makes of a user. -/
def AgingView.pass (view : AgingView) : Option AgingView :=
  if view.isLocal then
    if view.aging - 1 ≤ 0 then none else some { view with aging := view.aging - 1 }
  else some view

theorem agingView_congr {next : Umc} {other : Addr}
    (list : other ∈ next.head.list ↔ other ∈ umc.head.list)
    (heap : next.heap other = umc.heap other) : agingView next other = agingView umc other := by
  simp only [agingView, list, heap]

/-- What `aging_cb` does on an address. -/
structure AgedAt (umc : Umc) (addr : Addr) (answer : Option Int × Umc) : Prop where
  goes : answer.1 = none
  keys : answer.2.keys = umc.keys
  list : answer.2.head.list = umc.head.list ∨ answer.2.head.list = umc.head.list.erase addr
  here : agingView answer.2 addr = (agingView umc addr).bind AgingView.pass
  elsewhere : ∀ other, other ≠ addr → agingView answer.2 other = agingView umc other

/-- The user at an address has its aging lowered and stays. -/
theorem agedAt_stays (found : umc.heap addr = some user) (isLocal : user.isLocal = true)
    (alive : ¬ user.aging - 1 ≤ 0) :
    AgedAt umc addr (none, umc.store addr { user with aging := user.aging - 1 }) where
  goes := rfl
  keys := rfl
  list := .inl rfl
  here := by
    by_cases listed : addr ∈ umc.head.list
    · have stored := umc.store_heap_self addr { user with aging := user.aging - 1 }
      have still : addr ∈ (umc.store addr { user with aging := user.aging - 1 }).head.list := listed
      rw [agingView_listed listed found, agingView_listed still stored]
      simp only [Option.bind_some, AgingView.pass, isLocal, alive, ↓reduceIte]
    · rw [agingView_unlisted listed]
      exact agingView_unlisted listed
  elsewhere := fun _ apart => agingView_congr Iff.rfl (umc.store_heap_of_ne _ apart)

/-- The user at an address has its aging lowered and is removed. -/
theorem agedAt_leaves (inv : Inv umc) (found : umc.heap addr = some user)
    (isLocal : user.isLocal = true) (expired : user.aging - 1 ≤ 0) :
    AgedAt umc addr
      (none, (umUserDel (umc.store addr { user with aging := user.aging - 1 }) (some addr)).2) := by
  have stored := umc.store_heap_self addr { user with aging := user.aging - 1 }
  have agedInv : Inv (umc.store addr { user with aging := user.aging - 1 }) :=
    inv.store_same found rfl rfl rfl
  obtain ⟨_, others, list⟩ := remove_found agedInv stored (some umUbusRemoveCb)
  refine {
    goes := rfl
    keys := ?_
    list := .inr list
    here := ?_
    elsewhere := ?_ }
  · by_cases listed : addr ∈ umc.head.list
    · exact (remove_listed agedInv stored listed (some umUbusRemoveCb)).2
    · rw [umUserDel, remove_unlisted agedInv listed (some umUbusRemoveCb)]
      rfl
  · have gone : addr ∉ (umUserDel (umc.store addr { user with aging := user.aging - 1 })
        (some addr)).2.head.list := by
      rw [umUserDel, list]
      exact inv.nodup.not_mem_erase
    rw [agingView_unlisted gone]
    by_cases listed : addr ∈ umc.head.list
    · rw [agingView_listed listed found]
      simp only [Option.bind_some, AgingView.pass, isLocal, expired, ↓reduceIte]
    · rw [agingView_unlisted listed, Option.bind_none]
  · intro other apart
    refine agingView_congr ?_ ((others other apart).trans (umc.store_heap_of_ne _ apart))
    rw [umUserDel, list]
    exact List.mem_erase_of_ne apart

theorem agingCb_spec (inv : Inv umc) (addr : Addr) : AgedAt umc addr (agingCb umc addr) := by
  unfold agingCb
  split
  · rename_i empty
    refine ⟨rfl, rfl, .inl rfl, ?_, fun _ _ => rfl⟩
    simp only [agingView, empty, Option.map_none, ite_self, Option.bind_none]
  · rename_i user found
    split
    · rename_i isLocal
      dsimp only
      rw [setAging_found found]
      split
      · rename_i expired
        exact agedAt_leaves inv found isLocal expired
      · rename_i alive
        exact agedAt_stays found isLocal alive
    · rename_i remote
      refine ⟨rfl, rfl, .inl rfl, ?_, fun _ _ => rfl⟩
      by_cases listed : addr ∈ umc.head.list
      · rw [agingView_listed listed found]
        simp only [Option.bind_some, AgingView.pass, remote, Bool.false_eq_true, ↓reduceIte]
      · rw [agingView_unlisted listed, Option.bind_none]

/-- An aging pass, address by address. -/
theorem aging_view (inv : Inv umc) (addr : Addr) :
    agingView (aging umc).2 addr = (agingView umc addr).bind AgingView.pass ∧
      (aging umc).2.keys = umc.keys := by
  have stays : ∀ state item, Inv state → item ∈ state.head.list →
      (agingCb state item).1 = none ∧ Inv (agingCb state item).2 ∧
        ((agingCb state item).2.head.list = state.head.list ∨
          (agingCb state item).2.head.list = state.head.list.erase item) := by
    intro state item holds _
    have aged := agingCb_spec holds item
    exact ⟨aged.goes, holds.agingCb item, aged.list⟩
  have folded := Walk.forEachSafe_eq_foldl stays umc inv inv.nodup
  have same : (aging umc).2 =
      umc.head.list.foldl (fun state item => (agingCb state item).2) umc := by
    rw [aging, umUserForeach, folded]
  rw [same]
  constructor
  · have pointwise := Walk.foldl_pointwise agingView (fun view => view.bind AgingView.pass)
      (fun state item holds => Inv.agingCb holds item)
      (fun state item holds => (agingCb_spec holds item).here)
      (fun state item other holds apart => (agingCb_spec holds item).elsewhere other apart)
      umc.head.list inv.nodup umc inv addr
    rw [pointwise]
    split
    · rfl
    · rename_i unlisted
      rw [agingView_unlisted unlisted, Option.bind_none]
  · exact Walk.foldl_keeps Umc.keys (fun state item holds => Inv.agingCb holds item)
      (fun state item holds => (agingCb_spec holds item).keys) umc.head.list umc inv

end Trunk.Um
