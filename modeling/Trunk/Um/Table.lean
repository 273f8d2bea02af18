import Trunk.Foundation.Run
import Trunk.Um.User

/-! # The indexes of the table

Whatever calls are made, the list, the counter and the two hash indexes of the table agree
(`Trunk.Um.table_indexed`). What is kept by every call also says how the nodes of each user
stand, in the table or not (`Trunk.Um.Inv`).
-/

namespace Trunk.Um

open Address Buckets Run

variable {umc : Umc} {addr : Addr} {user : Apuser}

/-- The bucket of a user's MAC. -/
def macSlot (user : Apuser) : Option (Fin umHashsize) :=
  if isGoodMac user.mac then some (hashmac user.mac) else none

/-- The bucket of a user's IP. -/
def ipSlot (user : Apuser) : Option (Fin umHashsize) :=
  if user.ip ≠ 0 then some (haship user.ip) else none

/-- The containers of the table and the nodes of all users agree. -/
structure Inv (umc : Umc) : Prop where
  count : umc.head.count = umc.head.list.length
  nodup : umc.head.list.Nodup
  linked : ∀ addr, addr ∈ umc.head.list ↔
    ∃ user, umc.heap addr = some user ∧ inList user.node.list = true
  mac : Indexes umc.head.mac umc.head.list fun addr => (umc.heap addr).bind macSlot
  ip : Indexes umc.head.ip umc.head.list fun addr => (umc.heap addr).bind ipSlot
  macHashed : ∀ addr user, umc.heap addr = some user →
    (user.node.mac = true ↔ addr ∈ umc.head.list ∧ isGoodMac user.mac = true)
  ipHashed : ∀ addr user, umc.heap addr = some user →
    (user.node.ip = true ↔ addr ∈ umc.head.list ∧ user.ip ≠ 0)
  unique : ∀ addr other user twin, addr ∈ umc.head.list → other ∈ umc.head.list →
    umc.heap addr = some user → umc.heap other = some twin → isGoodMac user.mac = true →
    user.mac = twin.mac → addr = other

theorem inv_umcInit (keys : Keys) : Inv (umcInit keys) where
  count := rfl
  nodup := List.nodup_nil
  linked := by
    intro addr
    simp only [umcInit, List.not_mem_nil, reduceCtorEq, false_and, exists_false]
  mac := indexes_empty _
  ip := indexes_empty _
  macHashed := by
    intro addr user found
    cases found
  ipHashed := by
    intro addr user found
    cases found
  unique := by
    intro addr other user twin listed
    cases listed

theorem Inv.mem_iff (inv : Inv umc) (found : umc.heap addr = some user) :
    addr ∈ umc.head.list ↔ inList user.node.list = true := by
  rw [inv.linked addr]
  constructor
  · rintro ⟨other, same, listed⟩
    obtain rfl := Option.some.inj (found.symm.trans same)
    exact listed
  · exact fun listed => ⟨user, found, listed⟩

theorem Inv.heap_of_mem (inv : Inv umc) (listed : addr ∈ umc.head.list) :
    ∃ user, umc.heap addr = some user := by
  obtain ⟨user, found, _⟩ := (inv.linked addr).mp listed
  exact ⟨user, found⟩

/-- Nothing but the message buffer and the keys changes. -/
theorem Inv.of_same {next : Umc} (inv : Inv umc) (heap : next.heap = umc.heap)
    (head : next.head = umc.head) : Inv next := by
  obtain ⟨heap', head', _, _⟩ := next
  subst heap
  subst head
  exact ⟨inv.count, inv.nodup, inv.linked, inv.mac, inv.ip, inv.macHashed, inv.ipHashed,
    inv.unique⟩

/-- A step that concerns one user: it is enough to look at the containers and at that
user. -/
structure Change (umc next : Umc) (addr : Addr) (user : Apuser) : Prop where
  here : next.heap addr = some user
  elsewhere : ∀ other, other ≠ addr → next.heap other = umc.heap other
  others : ∀ other, other ≠ addr → (other ∈ next.head.list ↔ other ∈ umc.head.list)
  count : next.head.count = next.head.list.length
  nodup : next.head.list.Nodup
  linked : addr ∈ next.head.list ↔ inList user.node.list = true
  mac : Indexes next.head.mac next.head.list fun addr => (next.heap addr).bind macSlot
  ip : Indexes next.head.ip next.head.list fun addr => (next.heap addr).bind ipSlot
  macHashed : user.node.mac = true ↔ addr ∈ next.head.list ∧ isGoodMac user.mac = true
  ipHashed : user.node.ip = true ↔ addr ∈ next.head.list ∧ user.ip ≠ 0
  alone : addr ∈ next.head.list → isGoodMac user.mac = true → ∀ other ∈ umc.head.list,
    other ≠ addr → ∀ owner, umc.heap other = some owner → owner.mac ≠ user.mac

theorem Inv.change {next : Umc} (inv : Inv umc) (change : Change umc next addr user) :
    Inv next := by
  have cases : ∀ {other : Addr} {owner : Apuser}, next.heap other = some owner →
      (other = addr ∧ owner = user) ∨ (other ≠ addr ∧ umc.heap other = some owner) := by
    intro other owner stored
    by_cases this : other = addr
    · subst this
      exact .inl ⟨rfl, Option.some.inj (stored.symm.trans change.here)⟩
    · exact .inr ⟨this, (change.elsewhere other this).symm.trans stored⟩
  refine ⟨change.count, change.nodup, ?_, change.mac, change.ip, ?_, ?_, ?_⟩
  · intro other
    by_cases this : other = addr
    · subst this
      rw [change.linked]
      refine ⟨fun listed => ⟨user, change.here, listed⟩, fun ⟨owner, stored, listed⟩ => ?_⟩
      rwa [Option.some.inj (change.here.symm.trans stored)]
    · rw [change.others other this, change.elsewhere other this, inv.linked other]
  · intro other owner stored
    obtain ⟨rfl, rfl⟩ | ⟨apart, before⟩ := cases stored
    · exact change.macHashed
    · rw [change.others other apart]
      exact inv.macHashed other owner before
  · intro other owner stored
    obtain ⟨rfl, rfl⟩ | ⟨apart, before⟩ := cases stored
    · exact change.ipHashed
    · rw [change.others other apart]
      exact inv.ipHashed other owner before
  · intro first second owner twin listed listed' stored stored' good same
    obtain ⟨rfl, rfl⟩ | ⟨apart, before⟩ := cases stored
    · by_contra differ
      have apart := Ne.symm differ
      have before := (change.elsewhere second apart).symm.trans stored'
      exact change.alone listed good second ((change.others second apart).mp listed') apart twin
        before same.symm
    · have member := (change.others first apart).mp listed
      obtain ⟨rfl, rfl⟩ | ⟨apart', before'⟩ := cases stored'
      · exact absurd same (change.alone listed' (same ▸ good) first member apart owner before)
      · exact inv.unique first second owner twin member ((change.others second apart').mp listed')
          before before' good same

/-- A user that has the keys it had leaves every bucket where it was. -/
theorem bind_slot_eq {next : Umc} {before : Apuser} (slot : Apuser → Option (Fin umHashsize))
    (here : next.heap addr = some user)
    (elsewhere : ∀ other, other ≠ addr → next.heap other = umc.heap other)
    (found : umc.heap addr = some before) (same : slot user = slot before) (other : Addr) :
    (next.heap other).bind slot = (umc.heap other).bind slot := by
  by_cases this : other = addr
  · subst this
    rw [here, found, Option.bind_some, Option.bind_some, same]
  · rw [elsewhere other this]

/-- A user outside the table is written. -/
theorem Inv.store_outside (inv : Inv umc) (outside : addr ∉ umc.head.list)
    (unlinked : inList user.node.list = false) (macUnhashed : user.node.mac = false)
    (ipUnhashed : user.node.ip = false) : Inv (umc.store addr user) := by
  have apart : ∀ other ∈ umc.head.list, other ≠ addr := by
    rintro other listed rfl
    exact outside listed
  have change : Change umc (umc.store addr user) addr user := {
    here := umc.store_heap_self addr user
    elsewhere := fun other => umc.store_heap_of_ne user
    others := fun _ _ => Iff.rfl
    count := inv.count
    nodup := inv.nodup
    linked := iff_of_false outside (ne_true_of_eq_false unlinked)
    mac := inv.mac.congr fun other listed => by
      rw [umc.store_heap_of_ne user (apart other listed)]
    ip := inv.ip.congr fun other listed => by
      rw [umc.store_heap_of_ne user (apart other listed)]
    macHashed := iff_of_false (ne_true_of_eq_false macUnhashed) fun listed => outside listed.1
    ipHashed := iff_of_false (ne_true_of_eq_false ipUnhashed) fun listed => outside listed.1
    alone := fun listed => absurd listed outside }
  exact inv.change change

/-- The nodes of a user outside the table are in no container. -/
theorem Inv.unhashed (inv : Inv umc) (found : umc.heap addr = some user)
    (outside : addr ∉ umc.head.list) :
    inList user.node.list = false ∧ user.node.mac = false ∧ user.node.ip = false := by
  refine ⟨?_, ?_, ?_⟩
  · exact eq_false_of_ne_true fun listed => outside ((inv.mem_iff found).mpr listed)
  · exact eq_false_of_ne_true fun hashed => outside ((inv.macHashed addr user found).mp hashed).1
  · exact eq_false_of_ne_true fun hashed => outside ((inv.ipHashed addr user found).mp hashed).1

/-- A user is written that keeps its keys and its nodes. -/
theorem Inv.store_same (inv : Inv umc) {before : Apuser} (found : umc.heap addr = some before)
    (mac : user.mac = before.mac) (ip : user.ip = before.ip) (node : user.node = before.node) :
    Inv (umc.store addr user) := by
  have macs : macSlot user = macSlot before := by rw [macSlot, macSlot, mac]
  have ips : ipSlot user = ipSlot before := by rw [ipSlot, ipSlot, ip]
  have here := umc.store_heap_self addr user
  have elsewhere : ∀ other, other ≠ addr → (umc.store addr user).heap other = umc.heap other :=
    fun other => umc.store_heap_of_ne user
  have change : Change umc (umc.store addr user) addr user := {
    here := here
    elsewhere := elsewhere
    others := fun _ _ => Iff.rfl
    count := inv.count
    nodup := inv.nodup
    linked := node ▸ inv.mem_iff found
    mac := inv.mac.congr fun other _ => bind_slot_eq macSlot here elsewhere found macs other
    ip := inv.ip.congr fun other _ => bind_slot_eq ipSlot here elsewhere found ips other
    macHashed := node ▸ mac ▸ inv.macHashed addr before found
    ipHashed := node ▸ ip ▸ inv.ipHashed addr before found
    alone := by
      intro listed good other listed' apart owner stored same
      exact apart (inv.unique other addr owner before listed' listed stored found (same ▸ good)
        (same.trans mac)) }
  exact inv.change change

section

variable {table : Fin umHashsize → List Addr} {members : List Addr}
  {place : Addr → Option (Fin umHashsize)} {keyed : Prop} [Decidable keyed] {node : Bool}

/-- One index when a user leaves the table: the user is taken out of its bucket if it has a
key, and is hashed no more. -/
theorem index_unlink (indexed : Indexes table members place) (nodup : members.Nodup)
    (listed : addr ∈ members) (unplaced : ¬ keyed → place addr = none)
    (state : node = true ↔ addr ∈ members ∧ keyed) :
    Indexes (if keyed then hlistDelInit table node addr else (table, node)).1
        (members.erase addr) place ∧
      (if keyed then hlistDelInit table node addr else (table, node)).2 = false := by
  by_cases key : keyed
  · have hashed := state.mpr ⟨listed, key⟩
    rw [if_pos key, hlistDelInit, if_pos hashed]
    exact ⟨indexed.remove nodup addr, rfl⟩
  · rw [if_neg key]
    exact ⟨indexed.drop (unplaced key), eq_false_of_ne_true fun hashed => key (state.mp hashed).2⟩

/-- One index when a user enters the table: the user is put in its bucket, and is hashed,
if it has a key. -/
theorem index_link {slot : Fin umHashsize} (indexed : Indexes table members place)
    (outside : addr ∉ members) (placed : place addr = if keyed then some slot else none)
    (unhashed : node = false) :
    Indexes (if keyed then (Buckets.add table slot addr, true) else (table, node)).1
        (addr :: members) place ∧
      ((if keyed then (Buckets.add table slot addr, true) else (table, node)).2 = true ↔
        keyed) := by
  by_cases key : keyed
  · rw [if_pos key] at placed ⊢
    exact ⟨indexed.add outside placed, iff_of_true rfl key⟩
  · rw [if_neg key] at placed ⊢
    exact ⟨indexed.skip placed, iff_of_false (ne_true_of_eq_false unhashed) key⟩

end

/-- A user that is in the table is taken out of it. -/
theorem Inv.unlink (inv : Inv umc) (found : umc.heap addr = some user)
    (listed : addr ∈ umc.head.list) : Inv (unlink umc addr user) := by
  have left : addr ∉ (Um.unlink umc addr user).head.list := inv.nodup.not_mem_erase
  obtain ⟨mac, macLeft⟩ := index_unlink inv.mac inv.nodup listed
    (fun bad => by rw [found]; exact if_neg bad) (inv.macHashed addr user found)
  obtain ⟨ip, ipLeft⟩ := index_unlink inv.ip inv.nodup listed
    (fun zero => by rw [found]; exact if_neg zero) (inv.ipHashed addr user found)
  have elsewhere : ∀ other, other ≠ addr → (Um.unlink umc addr user).heap other = umc.heap other :=
    fun other => umc.store_heap_of_ne _
  have here : (Um.unlink umc addr user).heap addr =
      some { user with node := ⟨_, _, .cleared⟩ } := umc.store_heap_self addr _
  have change : Change umc (Um.unlink umc addr user) addr _ := {
    here := here
    elsewhere := elsewhere
    others := fun other apart => List.mem_erase_of_ne apart
    count := by
      change umc.head.count - 1 = (umc.head.list.erase addr).length
      rw [List.length_erase_of_mem listed, inv.count]
    nodup := inv.nodup.erase addr
    linked := iff_of_false left Bool.false_ne_true
    mac := mac.congr fun other _ => bind_slot_eq macSlot here elsewhere found rfl other
    ip := ip.congr fun other _ => bind_slot_eq ipSlot here elsewhere found rfl other
    macHashed := iff_of_false (ne_true_of_eq_false macLeft) fun listed => left listed.1
    ipHashed := iff_of_false (ne_true_of_eq_false ipLeft) fun listed => left listed.1
    alone := fun listed => absurd listed left }
  exact inv.change change

/-- A user that is not in the table, and whose MAC no user of the table has, is put in it. -/
theorem Inv.link (inv : Inv umc) (found : umc.heap addr = some user)
    (outside : addr ∉ umc.head.list)
    (alone : isGoodMac user.mac = true → ∀ other ∈ umc.head.list, ∀ owner,
      umc.heap other = some owner → owner.mac ≠ user.mac) : Inv (link umc addr user) := by
  obtain ⟨_, macUnhashed, ipUnhashed⟩ := inv.unhashed found outside
  have listed : addr ∈ (Um.link umc addr user).head.list := List.mem_cons_self ..
  obtain ⟨mac, macIn⟩ := index_link inv.mac outside (by rw [found]; rfl) macUnhashed
  obtain ⟨ip, ipIn⟩ := index_link inv.ip outside (by rw [found]; rfl) ipUnhashed
  have elsewhere : ∀ other, other ≠ addr → (Um.link umc addr user).heap other = umc.heap other :=
    fun other => umc.store_heap_of_ne _
  have here : (Um.link umc addr user).heap addr =
      some { user with node := ⟨_, _, .linked⟩ } := umc.store_heap_self addr _
  have change : Change umc (Um.link umc addr user) addr _ := {
    here := here
    elsewhere := elsewhere
    others := fun other apart => List.mem_cons.trans (or_iff_right apart)
    count := congrArg (fun count => count + 1) inv.count
    nodup := List.nodup_cons.mpr ⟨outside, inv.nodup⟩
    linked := iff_of_true listed rfl
    mac := mac.congr fun other _ => bind_slot_eq macSlot here elsewhere found rfl other
    ip := ip.congr fun other _ => bind_slot_eq ipSlot here elsewhere found rfl other
    macHashed := macIn.trans (and_iff_right listed).symm
    ipHashed := ipIn.trans (and_iff_right listed).symm
    alone := fun _ good other member _ owner stored => alone good other member owner stored }
  exact inv.change change

theorem Inv.callback (inv : Inv umc) (cb : Option UserCb) (user : Apuser) :
    Inv (callback cb umc user) := by
  cases cb with
  | none => exact inv
  | some cb => exact inv.of_same rfl rfl

/-- `__remove` keeps the table right, whatever it is called on. -/
theorem Inv.remove (inv : Inv umc) (user : Option Addr) (cb : Option UserCb) :
    Inv (remove umc user cb).2 := by
  unfold Um.remove
  split
  · exact inv
  · split
    · exact inv
    · rename_i addr _ user found
      split
      · exact inv
      · rename_i linked
        have listed := (inv.mem_iff found).mpr (Bool.eq_true_of_not_eq_false linked)
        exact (inv.unlink found listed).callback cb user

/-- After `__remove` on a user, it is not in the table, and nothing else has changed. -/
theorem remove_found (inv : Inv umc) (found : umc.heap addr = some user)
    (cb : Option UserCb) :
    (∃ node, (remove umc (some addr) cb).2.heap addr = some { user with node := node }) ∧
      (∀ other, other ≠ addr → (remove umc (some addr) cb).2.heap other = umc.heap other) ∧
      (remove umc (some addr) cb).2.head.list = umc.head.list.erase addr := by
  have kept : ∀ next : Umc, (Um.callback cb next user).heap = next.heap ∧
      (Um.callback cb next user).head = next.head := by
    intro next
    cases cb with
    | none => exact ⟨rfl, rfl⟩
    | some cb => exact ⟨rfl, rfl⟩
  simp only [Um.remove, found]
  split
  · rename_i unlinked
    have outside : addr ∉ umc.head.list := fun listed =>
      ne_true_of_eq_false unlinked ((inv.mem_iff found).mp listed)
    exact ⟨⟨user.node, found⟩, fun _ _ => rfl, (List.erase_of_not_mem outside).symm⟩
  · refine ⟨⟨_, (congrFun (kept _).1 addr).trans (umc.store_heap_self addr _)⟩, ?_, ?_⟩
    · intro other apart
      rw [(kept _).1]
      exact umc.store_heap_of_ne _ apart
    · rw [(kept _).2]
      rfl

/-- What is found in a bucket is a user of the table, and is in the bucket of its key. -/
theorem Inv.find_some (inv : Inv umc) {table : Fin umHashsize → List Addr}
    {place : Apuser → Option (Fin umHashsize)} {slot : Fin umHashsize} {test : Apuser → Bool}
    (indexed : Indexes table umc.head.list fun addr => (umc.heap addr).bind place)
    (found : ((table slot).find? fun addr => (umc.heap addr).any test) = some addr) :
    addr ∈ umc.head.list ∧
      ∃ user, umc.heap addr = some user ∧ test user = true ∧ place user = some slot := by
  obtain ⟨listed, placed⟩ := indexed.mem_iff.mp (List.mem_of_find?_eq_some found)
  have passed := List.find?_some found
  obtain ⟨user, stored⟩ := inv.heap_of_mem listed
  rw [stored] at passed placed
  exact ⟨listed, user, stored, passed, placed⟩

/-- What is not found in a bucket is not a user of the table with a key of the bucket. -/
theorem find_none {table : Fin umHashsize → List Addr} {place : Apuser → Option (Fin umHashsize)}
    {slot : Fin umHashsize} {test : Apuser → Bool}
    (indexed : Indexes table umc.head.list fun addr => (umc.heap addr).bind place)
    (missing : ((table slot).find? fun addr => (umc.heap addr).any test) = none)
    (listed : addr ∈ umc.head.list) (found : umc.heap addr = some user)
    (placed : place user = some slot) : ¬ test user = true := by
  have there : (umc.heap addr).bind place = some slot := by rw [found, Option.bind_some, placed]
  have failed := List.find?_eq_none.mp missing addr (indexed.mem_iff.mpr ⟨listed, there⟩)
  rwa [found] at failed

/-- What is found by a MAC is a user of the table with that MAC. -/
theorem Inv.getbymac_some (inv : Inv umc) {mac : Mac} (found : umUserGetbymac umc mac = some addr) :
    addr ∈ umc.head.list ∧ isGoodMac mac = true ∧
      ∃ user, umc.heap addr = some user ∧ user.mac = mac := by
  obtain ⟨listed, user, stored, named, placed⟩ := inv.find_some inv.mac found
  obtain rfl := of_decide_eq_true named
  refine ⟨listed, ?_, user, stored, rfl⟩
  by_contra bad
  rw [macSlot, if_neg bad] at placed
  cases placed

/-- Where nothing is found by a good MAC, no user of the table has it. -/
theorem Inv.getbymac_none (inv : Inv umc) {mac : Mac} (missing : umUserGetbymac umc mac = none)
    (good : isGoodMac mac = true) (listed : addr ∈ umc.head.list)
    (found : umc.heap addr = some user) : user.mac ≠ mac := by
  rintro rfl
  exact find_none inv.mac missing listed found (if_pos good) (decide_eq_true rfl)

/-- What is found by an IP is a user of the table with that IP. -/
theorem Inv.getbyip_some (inv : Inv umc) {ip : UInt32} (found : umUserGetbyip umc ip = some addr) :
    addr ∈ umc.head.list ∧ ip ≠ 0 ∧ ∃ user, umc.heap addr = some user ∧ user.ip = ip := by
  obtain ⟨listed, user, stored, named, placed⟩ := inv.find_some inv.ip found
  obtain rfl := of_decide_eq_true named
  refine ⟨listed, ?_, user, stored, rfl⟩
  intro none
  rw [ipSlot, if_neg (not_not.mpr none)] at placed
  cases placed

/-- Where nothing is found by an IP, no user of the table has it. -/
theorem Inv.getbyip_none (inv : Inv umc) {ip : UInt32} (missing : umUserGetbyip umc ip = none)
    (given : ip ≠ 0) (listed : addr ∈ umc.head.list) (found : umc.heap addr = some user) :
    user.ip ≠ ip := by
  rintro rfl
  exact find_none inv.ip missing listed found (if_pos given) (decide_eq_true rfl)

theorem Inv.setAging (inv : Inv umc) (addr : Addr) (aging : Apuser → Int) :
    Inv (setAging umc addr aging) := by
  unfold Um.setAging
  split
  · exact inv
  · rename_i found
    exact inv.store_same found rfl rfl rfl

/-- What `um_user_update` goes on with: a user that no other of the table has the MAC of. -/
theorem Inv.findOrCreate (inv : Inv umc) {mac : Mac} {alloc : Option Addr} {now : UInt32}
    {created : Bool} {next : Umc}
    (found : findOrCreate umc mac alloc now = some (created, addr, next)) :
    Inv next ∧ ∃ user, next.heap addr = some user ∧ user.mac = mac ∧
      (isGoodMac mac = true → ∀ other ∈ next.head.list, other ≠ addr → ∀ owner,
        next.heap other = some owner → owner.mac ≠ mac) := by
  unfold Um.findOrCreate at found
  split at found
  · rename_i existing lookup
    obtain ⟨rfl, rfl, rfl⟩ : false = created ∧ existing = addr ∧ umc = next := by
      simpa using found
    obtain ⟨listed, _, user, stored, same⟩ := inv.getbymac_some lookup
    refine ⟨inv, user, stored, same, fun good other member apart owner held equal => ?_⟩
    exact apart (inv.unique other existing owner user member listed held stored (equal ▸ good)
      (equal.trans same.symm))
  · rename_i missing
    obtain ⟨made, allocated, same⟩ := Option.map_eq_some_iff.mp found
    unfold create at allocated
    split at allocated
    · cases allocated
    · rename_i place
      split at allocated
      · cases allocated
      · rename_i free
        have empty : umc.heap place = none := by simpa using free
        have outside : place ∉ umc.head.list := fun listed => by
          obtain ⟨user, stored⟩ := inv.heap_of_mem listed
          rw [empty] at stored
          cases stored
        obtain rfl := Option.some.inj allocated
        obtain ⟨rfl, rfl, rfl⟩ : true = created ∧ place = addr ∧ _ = next := by
          simpa using same
        refine ⟨inv.store_outside outside rfl rfl rfl, _, umc.store_heap_self .., rfl, ?_⟩
        intro good other member apart owner held
        rw [umc.store_heap_of_ne _ apart] at held
        exact inv.getbymac_none missing good member held

/-- The callback on a user that is in no container. -/
theorem Inv.apply (inv : Inv umc) (found : umc.heap addr = some user)
    (outside : addr ∉ umc.head.list) (update : UmUserUpdateF) (created : Bool) (info : Apuser) :
    Inv (update.apply umc created addr info) ∧
      (update.apply umc created addr info).head = umc.head ∧
      (∃ next, (update.apply umc created addr info).heap addr = some next ∧
        next.mac = user.mac) ∧
      ∀ other, other ≠ addr → (update.apply umc created addr info).heap other = umc.heap other := by
  obtain ⟨unlinked, macUnhashed, ipUnhashed⟩ := inv.unhashed found outside
  have mac := update.mac umc.keys umc.ubus created user info
  have node := update.node umc.keys umc.ubus created user info
  simp only [UmUserUpdateF.apply, found]
  refine ⟨Inv.of_same (inv.store_outside outside ?_ ?_ ?_) rfl rfl, rfl,
    ⟨_, umc.store_heap_self addr _, mac⟩, fun other apart => umc.store_heap_of_ne _ apart⟩
  · rw [node]
    exact unlinked
  · rw [node]
    exact macUnhashed
  · rw [node]
    exact ipUnhashed

theorem Inv.insert (inv : Inv umc) (found : umc.heap addr = some user)
    (outside : addr ∉ umc.head.list)
    (alone : isGoodMac user.mac = true → ∀ other ∈ umc.head.list, ∀ owner,
      umc.heap other = some owner → owner.mac ≠ user.mac) (cb : Option UserCb) :
    Inv (insert umc addr cb).2 := by
  simp only [Um.insert, found]
  split
  · exact inv
  · exact (inv.link found outside alone).callback cb user

/-- `um_user_update` keeps the table right: between the removal and the insertion the user
is in no container, so the callback may change the IP it is found by. -/
theorem Inv.umUserUpdate (inv : Inv umc) (info : Apuser) (update : UmUserUpdateF)
    (alloc : Option Addr) (now : UInt32) : Inv (umUserUpdate umc info update alloc now).2 := by
  unfold Um.umUserUpdate
  split
  · exact inv
  · rename_i created addr next found
    obtain ⟨nextInv, user, stored, same, alone⟩ := inv.findOrCreate found
    obtain ⟨⟨node, removed⟩, others, list⟩ := remove_found nextInv stored none
    have outside : addr ∉ (Um.remove next (some addr) none).2.head.list := by
      rw [list]
      exact nextInv.nodup.not_mem_erase
    obtain ⟨updatedInv, head, ⟨changed, here, mac⟩, elsewhere⟩ :=
      (nextInv.remove (some addr) none).apply removed outside update created info
    refine Inv.setAging (updatedInv.insert here ?_ ?_ _) addr _
    · rw [head]
      exact outside
    · intro good other member owner held
      rw [head, list] at member
      have apart : other ≠ addr := fun this => nextInv.nodup.not_mem_erase (this ▸ member)
      rw [elsewhere other apart, others other apart] at held
      rw [mac, same] at good ⊢
      exact alone good other (List.mem_of_mem_erase member) apart owner held

theorem Inv.umUserForeach (inv : Inv umc) {foreach : Umc → Addr → Option Int × Umc}
    (keeps : ∀ umc addr, Inv umc → Inv (foreach umc addr).2) : Inv (umUserForeach umc foreach).2 :=
  Walk.forEachSafe_invariant keeps umc inv

theorem Inv.delbyCb (inv : Inv umc) (filter : UserFilter) (addr : Addr) :
    Inv (delbyCb filter umc addr).2 := by
  unfold Um.delbyCb
  split
  · exact inv.remove (some addr) _
  · exact inv

theorem Inv.agingCb (inv : Inv umc) (addr : Addr) : Inv (agingCb umc addr).2 := by
  unfold Um.agingCb
  split
  · exact inv
  · split
    · have aged := inv.setAging addr fun user => user.aging - 1
      simp only []
      split
      · exact aged.remove (some addr) _
      · exact aged
    · exact inv

/-- Every call keeps the table right. -/
theorem Inv.call (inv : Inv umc) (input : Call) : Inv (call umc input) := by
  cases input with
  | update info update alloc now => exact inv.umUserUpdate info update alloc now
  | del user => exact inv.remove user _
  | delbymac mac => exact inv.remove _ _
  | delbyip ip => exact inv.remove _ _
  | delby filter => exact inv.umUserForeach fun umc addr kept => kept.delbyCb filter addr
  | aging => exact inv.umUserForeach fun umc addr kept => kept.agingCb addr
  | configure keys => exact inv.of_same rfl rfl

/-- Every run of calls from the empty table keeps it right. -/
theorem inv_run (keys : Keys) (calls : List Call) : Inv (run call (umcInit keys) calls) :=
  run_invariant (fun _ input inv => inv.call input) calls (umcInit keys) (inv_umcInit keys)

/-- The counter, the list and the hash indexes of the table agree. -/
structure Indexed (umc : Umc) : Prop where
  count : umc.head.count = umc.head.list.length
  once : umc.head.list.Nodup
  user : ∀ addr ∈ umc.head.list, ∃ user, umc.heap addr = some user
  mac : ∀ addr user slot, addr ∈ umc.head.list → umc.heap addr = some user →
    (umc.head.mac slot).count addr =
      if user.mac ≠ osZeromac ∧ user.mac ≠ osFullmac ∧ slot = hashmac user.mac then 1 else 0
  ip : ∀ addr user slot, addr ∈ umc.head.list → umc.heap addr = some user →
    (umc.head.ip slot).count addr = if user.ip ≠ 0 ∧ slot = haship user.ip then 1 else 0
  listed : ∀ addr slot, addr ∈ umc.head.mac slot ∨ addr ∈ umc.head.ip slot → addr ∈ umc.head.list
  unique : ∀ addr other user twin, addr ∈ umc.head.list → other ∈ umc.head.list →
    umc.heap addr = some user → umc.heap other = some twin → user.mac ≠ osZeromac →
    user.mac ≠ osFullmac → user.mac = twin.mac → addr = other

theorem isGoodMac_iff (mac : Mac) :
    isGoodMac mac = true ↔ mac ≠ osZeromac ∧ mac ≠ osFullmac := by
  simp only [isGoodMac, Bool.and_eq_true, decide_eq_true_eq]

theorem Inv.indexed (inv : Inv umc) : Indexed umc where
  count := inv.count
  once := inv.nodup
  user := fun addr listed => inv.heap_of_mem listed
  mac := by
    intro addr user slot listed found
    have placed : (umc.heap addr).bind macSlot = some slot ↔
        user.mac ≠ osZeromac ∧ user.mac ≠ osFullmac ∧ slot = hashmac user.mac := by
      rw [found, Option.bind_some, macSlot, ← and_assoc, ← isGoodMac_iff]
      split
      · rename_i good
        rw [Option.some.injEq, eq_comm, and_iff_right good]
      · rename_i bad
        exact iff_of_false (by simp) fun both => bad both.1
    rw [inv.mac slot addr]
    simp only [listed, true_and, placed]
  ip := by
    intro addr user slot listed found
    have placed : (umc.heap addr).bind ipSlot = some slot ↔
        user.ip ≠ 0 ∧ slot = haship user.ip := by
      rw [found, Option.bind_some, ipSlot]
      split
      · rename_i given
        rw [Option.some.injEq, eq_comm, and_iff_right given]
      · rename_i none
        exact iff_of_false (by simp) fun both => none both.1
    rw [inv.ip slot addr]
    simp only [listed, true_and, placed]
  listed := by
    rintro addr slot (bucket | bucket)
    · exact (inv.mac.mem_iff.mp bucket).1
    · exact (inv.ip.mem_iff.mp bucket).1
  unique := by
    intro addr other user twin listed listed' found found' nonzero nonfull same
    exact inv.unique addr other user twin listed listed' found found'
      ((isGoodMac_iff user.mac).mpr ⟨nonzero, nonfull⟩) same

/-- After every run of calls from the empty table, its counter, its list and its hash
indexes agree, and no two users have one good MAC. -/
theorem table_indexed (keys : Keys) (calls : List Call) :
    Indexed (run call (umcInit keys) calls) :=
  (inv_run keys calls).indexed

end Trunk.Um
