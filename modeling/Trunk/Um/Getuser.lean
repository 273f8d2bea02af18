import Trunk.Um.Filter
import Trunk.Um.Ubus

/-! # What getuser answers

A request asks for the users of the table that satisfy a filter (`Trunk.Um.Satisfies`), which
`Trunk.Um.attrFilter` takes from its attributes. The scan of the table pushes the users that
the code's own test accepts (`Trunk.Um.pushuserby_head`). The answer is the right one exactly
under the conditions of `Trunk.Um.Served` (`Trunk.Um.getuser_exact_iff`): a key that is found
once or an empty buffer in the indexed case, and in the scan no user that is misjudged by a
mask or by a `wlan` attribute.
-/

namespace Trunk.Um

open CString Address Run

variable {umc : Umc} {addr : Addr} {user : Apuser} {filter : UserFilter}

/-- The address of an attribute; zero if it is not given. -/
def attrMac (attr : Option CStr) : Mac := (attr.bind osGetmacBystring).getD osZeromac

/-- The mask of an attribute, which is nothing without the address. -/
def attrMask (attr mask : Option CStr) : Mac := if attr.isSome then attrMac mask else osZeromac

/-- The filter of a request, with the number that its `wlan` is read as. -/
def attrFilter (inetAddr : CStr → UInt32) (wlanid : CStr → Int32) (attr : GetuserAttr) :
    UserFilter where
  isLocal := attr.isLocal.getD false
  ap := attrMac attr.ap
  apmask := attrMask attr.ap attr.apmask
  mac := attrMac attr.mac
  macmask := attrMask attr.mac attr.macmask
  ip := (attr.ip.map inetAddr).getD 0
  ipmask := if attr.ip.isSome then (attr.ipmask.map inetAddr).getD 0 else 0
  radioid := (attr.radio.map UInt32.toInt32).getD (-1)
  wlanid := (attr.wlan.map wlanid).getD (-1)

/-- The number that the code reads a `wlan` attribute as. -/
def wlanRead (wlan : CStr) : Int32 := (blobmsgGetU32 wlan).toInt32

/-- The addresses and masks of a request are texts of addresses. -/
def WellFormed (attr : GetuserAttr) : Prop :=
  ∀ given ∈ [attr.ap, attr.apmask, attr.mac, attr.macmask], ∀ macstring, given = some macstring →
    (osGetmacBystring macstring).isSome

/-- The table that a user is pushed as. -/
def userTable (user : Apuser) : Table := ⟨"", userFields user⟩

/-- The values and tables in a message. -/
def entries (message : List Blobmsg) : List Blobmsg :=
  message.flatMap fun
    | .array _ tables => tables.map .table
    | other => [other]

/-- The filter has a mask, with an address. -/
def Masked (filter : UserFilter) : Prop :=
  (isGoodMac filter.mac = true ∧ filter.macmask ≠ osZeromac) ∨
    (isGoodMac filter.ap = true ∧ filter.apmask ≠ osZeromac)

instance (filter : UserFilter) : Decidable (Masked filter) := inferInstanceAs (Decidable (_ ∨ _))

/-- No user is misjudged by the scan. Under a mask, this means that no user that meets the
other criteria is equal to the filter under the mask, nor different in every byte. Without
one, the number that the code reads for the wlan and the one that is meant single out the
same users. -/
def ScanServed (code wanted : UserFilter) (users : List Apuser) : Prop :=
  ∀ user ∈ users, Suits user wanted →
    if Masked wanted then
      ¬ (MacSatisfies user.mac wanted.mac wanted.macmask ∧
          MacSatisfies user.ap wanted.ap wanted.apmask ∧ IdSatisfies user.wlanid wanted.wlanid) ∧
        ¬ (macmatch user.mac wanted.mac wanted.macmask = true ∧
          macmatch user.ap wanted.ap wanted.apmask = true ∧ IdSatisfies user.wlanid code.wlanid)
    else MacSatisfies user.mac wanted.mac wanted.macmask →
      MacSatisfies user.ap wanted.ap wanted.apmask →
      (IdSatisfies user.wlanid code.wlanid ↔ IdSatisfies user.wlanid wanted.wlanid)

/-- The code's test agrees with the filter on every user exactly if none is misjudged. -/
theorem scanServed_iff (inetAddr : CStr → UInt32) (wlanid : CStr → Int32) (attr : GetuserAttr)
    (users : List Apuser) :
    (∀ user ∈ users, matchUser user (attrFilter inetAddr wlanRead attr) = true ↔
      Satisfies user (attrFilter inetAddr wlanid attr)) ↔
      ScanServed (attrFilter inetAddr wlanRead attr) (attrFilter inetAddr wlanid attr) users := by
  refine forall₂_congr fun user _ => ?_
  have suits : Suits user (attrFilter inetAddr wlanRead attr) ↔
      Suits user (attrFilter inetAddr wlanid attr) := Iff.rfl
  rw [matchUser_eq_true_iff, suits, Satisfies]
  change (_ ∧ macmatch user.mac (attrFilter inetAddr wlanid attr).mac
    (attrFilter inetAddr wlanid attr).macmask = true ∧
    macmatch user.ap (attrFilter inetAddr wlanid attr).ap
      (attrFilter inetAddr wlanid attr).apmask = true ∧ _ ↔ _) ↔ _
  generalize attrFilter inetAddr wlanid attr = wanted
  generalize attrFilter inetAddr wlanRead attr = code
  by_cases masked : Masked wanted
  · rw [if_pos masked]
    have apart : ¬ ((MacSatisfies user.mac wanted.mac wanted.macmask ∧
        MacSatisfies user.ap wanted.ap wanted.apmask) ∧
        macmatch user.mac wanted.mac wanted.macmask = true ∧
        macmatch user.ap wanted.ap wanted.apmask = true) := by
      rintro ⟨⟨mac, ap⟩, macMatched, apMatched⟩
      rcases masked with ⟨good, nonzero⟩ | ⟨good, nonzero⟩
      · exact not_macmatch_of_macSatisfies good nonzero mac macMatched
      · exact not_macmatch_of_macSatisfies good nonzero ap apMatched
    constructor
    · intro agree suits
      constructor
      · rintro ⟨mac, ap, wlan⟩
        obtain ⟨_, macMatched, apMatched, _⟩ := agree.mpr ⟨suits, mac, ap, wlan⟩
        exact apart ⟨⟨mac, ap⟩, macMatched, apMatched⟩
      · rintro ⟨macMatched, apMatched, wlan⟩
        obtain ⟨_, mac, ap, _⟩ := agree.mp ⟨suits, macMatched, apMatched, wlan⟩
        exact apart ⟨⟨mac, ap⟩, macMatched, apMatched⟩
    · intro neither
      exact ⟨fun ⟨suits, matched⟩ => absurd matched (neither suits).2,
        fun ⟨suits, satisfied⟩ => absurd satisfied (neither suits).1⟩
  · rw [if_neg masked, macmatch_eq_true_iff fun both => masked (.inl both),
      macmatch_eq_true_iff fun both => masked (.inr both)]
    simp only [and_congr_right_iff]

/-- The users that a loop over addresses pushes to an open array. -/
theorem foldl_getbyCb_b (filter : UserFilter) (list : List Addr) (umc : Umc) (head : List Blobmsg)
    (name : String) (tables : List Table) (opened : umc.ubus.b = ⟨head, some (name, tables)⟩) :
    (list.foldl (fun umc addr => (getbyCb filter (getCb "") umc addr).2) umc).ubus.b =
      ⟨head, some (name, tables ++
        ((list.filterMap umc.heap).filter fun user => matchUser user filter).map userTable)⟩ := by
  induction list generalizing umc tables with
  | nil =>
      simp only [List.foldl_nil, List.filterMap_nil, List.filter_nil, List.map_nil, List.append_nil]
      exact opened
  | cons addr list ih =>
      rw [List.foldl_cons]
      cases found : umc.heap addr with
      | none =>
          have step : (getbyCb filter (getCb "") umc addr).2 = umc := by
            simp only [getbyCb, found]
          rw [step, ih umc tables opened, List.filterMap_cons_none found]
      | some user =>
          rw [List.filterMap_cons_some found]
          by_cases matched : matchUser user filter = true
          · have pushed : (getbyCb filter (getCb "") umc addr).2.ubus.b =
                ⟨head, some (name, tables ++ [userTable user])⟩ := by
              simp only [getbyCb, found, matched, ↓reduceIte, getCb, pushuser, opened,
                Bool.false_eq_true, Blob.addTable]
              rfl
            have same : (getbyCb filter (getCb "") umc addr).2.heap = umc.heap := by
              simp only [getbyCb, found, matched, ↓reduceIte, getCb]
            rw [ih _ _ pushed, same, List.filter_cons, if_pos matched, List.map_cons,
              List.append_assoc]
            rfl
          · have step : (getbyCb filter (getCb "") umc addr).2 = umc := by
              simp only [getbyCb, found, matched, Bool.false_eq_true, ↓reduceIte]
            rw [step, ih umc tables opened, List.filter_cons, if_neg matched]

/-- `um_user_getby` with `get_cb` visits the whole table. -/
theorem umUserGetby_getCb (nodup : umc.head.list.Nodup) (filter : UserFilter) :
    umUserGetby umc filter (getCb "") =
      (0, umc.head.list.foldl (fun umc addr => (getbyCb filter (getCb "") umc addr).2) umc) := by
  have stays : ∀ (state : Umc) (addr : Addr), True → addr ∈ state.head.list →
      (getbyCb filter (getCb "") state addr).1 = none ∧ True ∧
        ((getbyCb filter (getCb "") state addr).2.head.list = state.head.list ∨
          (getbyCb filter (getCb "") state addr).2.head.list = state.head.list.erase addr) := by
    intro state addr _ _
    unfold getbyCb
    split
    · exact ⟨rfl, trivial, .inl rfl⟩
    · split
      · exact ⟨rfl, trivial, .inl rfl⟩
      · exact ⟨rfl, trivial, .inl rfl⟩
  rw [umUserGetby, umUserForeach, Walk.forEachSafe_eq_foldl stays umc trivial nodup]
  rfl

/-- The scan pushes the users that match, in the order of the list. -/
theorem pushuserby_head (nodup : umc.head.list.Nodup) (filter : UserFilter) :
    (pushuserby umc filter).1 = 0 ∧
      (pushuserby umc filter).2.ubus.b.head =
        [.array "users" (((users umc).filter fun user => matchUser user filter).map userTable)] := by
  have visited := umUserGetby_getCb
    (show ({ umc with ubus := { umc.ubus with b := Blob.init.openArray "users" } } :
      Umc).head.list.Nodup from nodup) filter
  have pushed := foldl_getbyCb_b filter umc.head.list
    { umc with ubus := { umc.ubus with b := Blob.init.openArray "users" } } [] "users" [] rfl
  simp only [pushuserby, visited, Blob.closeArray, pushed, List.nil_append, true_and]
  rfl

theorem filterOk_reply (nodup : umc.head.list.Nodup) (filter : UserFilter) :
    (filterOk umc filter).reply =
      some [.array "users" (((users umc).filter fun user => matchUser user filter).map
        userTable)] := by
  obtain ⟨ret, head⟩ := pushuserby_head nodup filter
  rw [filterOk, ret, if_neg (lt_irrefl 0), sendReply, head]

/-- Users that are pushed alike have one MAC, one access point and one wlan. -/
theorem userTable_injective {twin : Apuser} (same : userTable user = userTable twin) :
    user.mac = twin.mac ∧ user.ap = twin.ap ∧ user.wlanid = twin.wlanid := by
  simp only [userTable, userFields, Table.mk.injEq, List.cons.injEq, Field.string.injEq,
    Field.u32.injEq, true_and] at same
  exact ⟨macString_injective same.1, macString_injective same.2.1,
    congrArg UInt32.toInt32 same.2.2.2.1⟩

/-- The daemon with something else in the message buffer. -/
def Umc.withUbus (umc : Umc) (ubus : Ubus) : Umc := { umc with ubus := ubus }

/-- The text of a request for one IP. -/
def onlyIp (attr : GetuserAttr) : Option CStr := if attr = { ip := attr.ip } then attr.ip else none

/-- The text of a request for one MAC. -/
def onlyMac (attr : GetuserAttr) : Option CStr :=
  if attr = { mac := attr.mac } then attr.mac else none

/-- The tables of users, as a message has them. -/
def tables (users : List Apuser) : List Blobmsg := users.map fun user => .table (userTable user)

/-- The request is answered, with exactly the users of the table that satisfy its filter. -/
def Exact (inetAddr : CStr → UInt32) (wlanid : CStr → Int32) (umc : Umc) (attr : GetuserAttr) :
    Prop :=
  ∃ handled reply, umUbusHandleGetuser inetAddr umc attr = some handled ∧
    handled.reply = some reply ∧
    (entries reply).Perm
      (tables ((users umc).filter fun user => Satisfies user (attrFilter inetAddr wlanid attr)))

/-- When a request is answered as it should be. An IP has to be found once, and a MAC at all;
where the key is not found the reply is what an earlier message left in the buffer. -/
def Served (inetAddr : CStr → UInt32) (wlanid : CStr → Int32) (umc : Umc) (attr : GetuserAttr) :
    Prop :=
  match onlyIp attr, onlyMac attr with
  | some p, _ =>
      if inetAddr p = 0 then (entries umc.ubus.b.head).Perm (tables (users umc))
      else (users umc).countP (fun user => user.ip = inetAddr p) = 1 ∨
        (users umc).countP (fun user => user.ip = inetAddr p) = 0 ∧ entries umc.ubus.b.head = []
  | none, some p =>
      if isGoodMac (attrMac (some p)) then
        (∃ user ∈ users umc, user.mac = attrMac (some p)) ∨ entries umc.ubus.b.head = []
      else (entries umc.ubus.b.head).Perm (tables (users umc))
  | none, none =>
      ScanServed (attrFilter inetAddr wlanRead attr) (attrFilter inetAddr wlanid attr) (users umc)

theorem onlyIp_eq_some {attr : GetuserAttr} {p : CStr} :
    onlyIp attr = some p ↔ attr = { ip := some p } := by
  unfold onlyIp
  constructor
  · intro only
    split at only
    · rename_i shape
      rw [only] at shape
      exact shape
    · cases only
  · rintro rfl
    exact if_pos rfl

theorem onlyMac_eq_some {attr : GetuserAttr} {p : CStr} :
    onlyMac attr = some p ↔ attr = { mac := some p } := by
  unfold onlyMac
  constructor
  · intro only
    split at only
    · rename_i shape
      rw [only] at shape
      exact shape
    · cases only
  · rintro rfl
    exact if_pos rfl

theorem WellFormed.parsed {attr : GetuserAttr} (wellFormed : WellFormed attr) {given : Option CStr}
    (listed : given ∈ [attr.ap, attr.apmask, attr.mac, attr.macmask]) {p : CStr}
    (here : given = some p) : osGetmacBystring p = some (attrMac (some p)) := by
  obtain ⟨mac, parsed⟩ := Option.isSome_iff_exists.mp (wellFormed given listed p here)
  rw [attrMac, Option.bind_some, parsed, Option.getD_some]

theorem setmask_eq {given : Option CStr} {address : Mac}
    (parsed : ∀ p, given = some p → osGetmacBystring p = some (attrMac (some p)))
    (zero : address = osZeromac) : setmask given address = some (attrMac given) := by
  cases given with
  | none =>
      rw [setmask, zero]
      rfl
  | some p => exact parsed p rfl

section Steps

variable {attr : GetuserAttr}

theorem setfilterLocal_eq (filter : UserFilter) :
    setfilterLocal filter attr = { filter with isLocal := attr.isLocal.getD false } := by
  unfold setfilterLocal
  cases attr.isLocal <;> rfl

theorem setfilterIp_eq (inetAddr : CStr → UInt32) (more : onlyIp attr = none)
    (unset : filter.ip = 0 ∧ filter.ipmask = 0) :
    setfilterIp inetAddr umc filter attr = (none, { filter with
      ip := (attr.ip.map inetAddr).getD 0
      ipmask := if attr.ip.isSome then (attr.ipmask.map inetAddr).getD 0 else 0 }) := by
  obtain ⟨_, _, _, _, _, ip, ipmask, _, _⟩ := filter
  obtain ⟨rfl, rfl⟩ := unset
  unfold setfilterIp
  cases given : attr.ip with
  | none => rfl
  | some p =>
      have apart : attr ≠ { ip := some p } := fun only => by
        rw [onlyIp_eq_some.mpr only] at more
        cases more
      simp only [if_neg apart]
      rfl

theorem setfilterMac_eq (wellFormed : WellFormed attr) (more : onlyMac attr = none)
    (unset : filter.mac = osZeromac ∧ filter.macmask = osZeromac) :
    setfilterMac umc filter attr = some (none, { filter with
      mac := attrMac attr.mac
      macmask := attrMask attr.mac attr.macmask }) := by
  obtain ⟨_, _, _, mac, macmask, _, _, _, _⟩ := filter
  obtain ⟨rfl, rfl⟩ := unset
  unfold setfilterMac
  cases given : attr.mac with
  | none => rfl
  | some p =>
      have apart : attr ≠ { mac := some p } := fun only => by
        rw [onlyMac_eq_some.mpr only] at more
        cases more
      have mask : setmask attr.macmask osZeromac = some (attrMac attr.macmask) :=
        setmask_eq (fun q => wellFormed.parsed (by simp)) rfl
      simp only [wellFormed.parsed (by simp) given, if_neg apart, mask, Option.bind_eq_bind,
        Option.bind_some, Option.pure_def]
      rfl

theorem setfilterAp_eq (wellFormed : WellFormed attr)
    (unset : filter.ap = osZeromac ∧ filter.apmask = osZeromac) :
    setfilterAp filter attr = some { filter with
      ap := attrMac attr.ap
      apmask := attrMask attr.ap attr.apmask } := by
  obtain ⟨_, ap, apmask, _, _, _, _, _, _⟩ := filter
  obtain ⟨rfl, rfl⟩ := unset
  unfold setfilterAp
  cases given : attr.ap with
  | none => rfl
  | some p =>
      have mask : setmask attr.apmask osZeromac = some (attrMac attr.apmask) :=
        setmask_eq (fun q => wellFormed.parsed (by simp)) rfl
      simp only [wellFormed.parsed (by simp) given, mask, Option.bind_eq_bind, Option.bind_some,
        Option.pure_def]
      rfl

theorem setfilterRadio_eq (unset : filter.radioid = -1) :
    setfilterRadio filter attr =
      { filter with radioid := (attr.radio.map UInt32.toInt32).getD (-1) } := by
  obtain ⟨_, _, _, _, _, _, _, radioid, _⟩ := filter
  obtain rfl := unset
  unfold setfilterRadio
  cases attr.radio <;> rfl

theorem setfilterWlan_eq (unset : filter.wlanid = -1) :
    setfilterWlan filter attr = { filter with wlanid := (attr.wlan.map wlanRead).getD (-1) } := by
  obtain ⟨_, _, _, _, _, _, _, _, wlanid⟩ := filter
  obtain rfl := unset
  unfold setfilterWlan
  cases attr.wlan <;> rfl

/-- A request that is not for one key is served by the scan, with the filter it stands for
but for the wlan. -/
theorem handle_scan (inetAddr : CStr → UInt32) (wellFormed : WellFormed attr)
    (notIp : onlyIp attr = none) (notMac : onlyMac attr = none) :
    umUbusHandleGetuser inetAddr umc attr =
      some (filterOk umc (attrFilter inetAddr wlanRead attr)) := by
  unfold umUbusHandleGetuser
  split
  · rename_i empty
    rw [empty]
    rfl
  · dsimp only
    rw [setfilterLocal_eq, setfilterIp_eq inetAddr notIp ⟨rfl, rfl⟩]
    dsimp only
    rw [setfilterMac_eq wellFormed notMac ⟨rfl, rfl⟩]
    simp only [Option.bind_eq_bind, Option.bind_some]
    rw [setfilterAp_eq wellFormed ⟨rfl, rfl⟩]
    simp only [Option.bind_some, Option.pure_def]
    rw [setfilterRadio_eq rfl, setfilterWlan_eq rfl]
    rfl

/-- A request for one IP is answered with the user that the index finds. -/
theorem handle_onlyIp (inetAddr : CStr → UInt32) (p : CStr) :
    umUbusHandleGetuser inetAddr umc { ip := some p } =
      some (pushOk umc (pushuser umc.ubus.b (umc.load (umUserGetbyip umc (inetAddr p))) true "")) := by
  have nonempty : ({ ip := some p } : GetuserAttr) ≠ {} := by simp
  simp only [umUbusHandleGetuser, if_neg nonempty, setfilterIp, ↓reduceIte]

/-- A request for one MAC is answered with the user that the index finds. -/
theorem handle_onlyMac (inetAddr : CStr → UInt32) {p : CStr} {mac : Mac}
    (parsed : osGetmacBystring p = some mac) :
    umUbusHandleGetuser inetAddr umc { mac := some p } =
      some (pushOk umc (pushuser umc.ubus.b (umc.load (umUserGetbymac umc mac)) true "")) := by
  have nonempty : ({ mac := some p } : GetuserAttr) ≠ {} := by simp
  simp only [umUbusHandleGetuser, if_neg nonempty, setfilterIp, setfilterMac, parsed, ↓reduceIte,
    Option.bind_eq_bind, Option.bind_some, Option.pure_def]

end Steps

theorem isGoodMac_zero : isGoodMac osZeromac = false := by decide

/-- What is asked for by one IP. -/
theorem satisfies_onlyIp (inetAddr : CStr → UInt32) (wlanid : CStr → Int32) (p : CStr) :
    Satisfies user (attrFilter inetAddr wlanid { ip := some p }) ↔
      (inetAddr p ≠ 0 → user.ip = inetAddr p) := by
  simp [Satisfies, Suits, attrFilter, IpSatisfies, MacSatisfies, IdSatisfies, attrMac,
    isGoodMac_zero]

/-- What is asked for by one MAC. -/
theorem satisfies_onlyMac (inetAddr : CStr → UInt32) (wlanid : CStr → Int32) (p : CStr) :
    Satisfies user (attrFilter inetAddr wlanid { mac := some p }) ↔
      (isGoodMac (attrMac (some p)) = true → user.mac = attrMac (some p)) := by
  simp [Satisfies, Suits, attrFilter, IpSatisfies, MacSatisfies, IdSatisfies, attrMac, attrMask,
    isGoodMac_zero]

/-- Two selections of a list have the same image, up to order, exactly if they are one: given
that no item is in one selection only while its image is in the other. -/
theorem perm_map_filter_iff {Item Image : Type} {list : List Item} {image : Item → Image}
    {p q : Item → Bool}
    (forth : ∀ x ∈ list, ∀ y ∈ list, image x = image y → p x = true → q y = true → q x = true)
    (back : ∀ x ∈ list, ∀ y ∈ list, image x = image y → q x = true → p y = true → p x = true) :
    ((list.filter p).map image).Perm ((list.filter q).map image) ↔
      ∀ x ∈ list, (p x = true ↔ q x = true) := by
  constructor
  · intro perm x member
    constructor
    · intro passed
      have there := perm.subset
        (List.mem_map.mpr ⟨x, List.mem_filter.mpr ⟨member, passed⟩, rfl⟩)
      obtain ⟨y, selected, same⟩ := List.mem_map.mp there
      obtain ⟨listed, passed'⟩ := List.mem_filter.mp selected
      exact forth x member y listed same.symm passed passed'
    · intro passed
      have there := perm.symm.subset
        (List.mem_map.mpr ⟨x, List.mem_filter.mpr ⟨member, passed⟩, rfl⟩)
      obtain ⟨y, selected, same⟩ := List.mem_map.mp there
      obtain ⟨listed, passed'⟩ := List.mem_filter.mp selected
      exact back x member y listed same.symm passed passed'
  · intro agree
    rw [List.filter_congr fun x member => Bool.eq_iff_iff.mpr (agree x member)]

theorem entries_users (name : String) (selected : List Apuser) :
    entries [.array name (selected.map userTable)] = tables selected := by
  simp only [entries, List.flatMap_cons, List.flatMap_nil, List.append_nil, List.map_map, tables]
  rfl

theorem exact_iff {inetAddr : CStr → UInt32} {wlanid : CStr → Int32} {attr : GetuserAttr}
    {handled : Handled} {reply : List Blobmsg}
    (answered : umUbusHandleGetuser inetAddr umc attr = some handled)
    (sent : handled.reply = some reply) :
    Exact inetAddr wlanid umc attr ↔ (entries reply).Perm
      (tables ((users umc).filter fun user => Satisfies user (attrFilter inetAddr wlanid attr))) := by
  constructor
  · rintro ⟨other, message, same, sent', perm⟩
    obtain rfl := Option.some.inj (answered.symm.trans same)
    obtain rfl := Option.some.inj (sent.symm.trans sent')
    exact perm
  · exact fun perm => ⟨handled, reply, answered, sent, perm⟩

/-- The scan answers as it should exactly if no user is misjudged. -/
theorem scan_exact_iff (nodup : umc.head.list.Nodup) {attr : GetuserAttr}
    (inetAddr : CStr → UInt32) (wlanid : CStr → Int32) (wellFormed : WellFormed attr)
    (notIp : onlyIp attr = none) (notMac : onlyMac attr = none) :
    Exact inetAddr wlanid umc attr ↔
      ScanServed (attrFilter inetAddr wlanRead attr) (attrFilter inetAddr wlanid attr)
        (users umc) := by
  have alike : ∀ {user twin : Apuser},
      Blobmsg.table (userTable user) = .table (userTable twin) →
      user.mac = twin.mac ∧ user.ap = twin.ap ∧ user.wlanid = twin.wlanid :=
    fun same => userTable_injective (Blobmsg.table.inj same)
  rw [exact_iff (handle_scan inetAddr wellFormed notIp notMac) (filterOk_reply nodup _),
    entries_users, ← scanServed_iff]
  simp only [tables]
  rw [perm_map_filter_iff]
  · simp only [decide_eq_true_eq]
  · intro user _ twin _ same matched satisfied
    obtain ⟨mac, ap, wlan⟩ := alike same
    have suits := (matchUser_eq_true_iff.mp matched).1
    have others := (of_decide_eq_true satisfied).2
    rw [← mac, ← ap, ← wlan] at others
    exact decide_eq_true ⟨suits, others⟩
  · intro user _ twin _ same satisfied matched
    obtain ⟨mac, ap, wlan⟩ := alike same
    have suits := (of_decide_eq_true satisfied).1
    have others := (matchUser_eq_true_iff.mp matched).2
    rw [← mac, ← ap, ← wlan] at others
    exact matchUser_eq_true_iff.mpr ⟨suits, others⟩

/-- A reply from an index: the user that is found, or what was in the buffer. -/
theorem entries_pushuser (b : Blob) (found : Option Apuser) :
    entries (pushuser b found true "").head =
      match found with
      | some user => [.table (userTable user)]
      | none => entries b.head := by
  cases found with
  | none => rfl
  | some user => rfl

/-- The answer for an IP is the right one exactly if one user has it, or none and nothing is
in the buffer. -/
theorem onlyIp_exact_iff (inv : Inv umc) (inetAddr : CStr → UInt32) (wlanid : CStr → Int32)
    (p : CStr) :
    Exact inetAddr wlanid umc { ip := some p } ↔
      if inetAddr p = 0 then (entries umc.ubus.b.head).Perm (tables (users umc))
      else (users umc).countP (fun user => user.ip = inetAddr p) = 1 ∨
        (users umc).countP (fun user => user.ip = inetAddr p) = 0 ∧
          entries umc.ubus.b.head = [] := by
  rw [exact_iff (handle_onlyIp inetAddr p) rfl, entries_pushuser]
  simp only [satisfies_onlyIp]
  by_cases zero : inetAddr p = 0
  · have missing : umUserGetbyip umc (inetAddr p) = none := by
      cases lookup : umUserGetbyip umc (inetAddr p) with
      | none => rfl
      | some addr => exact absurd zero (inv.getbyip_some lookup).2.1
    rw [missing]
    simp [zero, Umc.load]
  · have selected : ((users umc).filter fun user =>
        decide (inetAddr p ≠ 0 → user.ip = inetAddr p)) =
        (users umc).filter fun user => decide (user.ip = inetAddr p) := by
      simp only [zero, ne_eq, not_false_eq_true, forall_const]
    rw [selected, if_neg zero, List.countP_eq_length_filter]
    cases lookup : umUserGetbyip umc (inetAddr p) with
    | none =>
        have empty : ((users umc).filter fun user => decide (user.ip = inetAddr p)) = [] := by
          rw [List.filter_eq_nil_iff]
          intro user member
          obtain ⟨addr, listed, found⟩ := mem_users.mp member
          rw [decide_eq_true_eq]
          exact inv.getbyip_none lookup zero listed found
        rw [empty]
        simp [Umc.load, tables]
    | some addr =>
        obtain ⟨listed, _, user, found, same⟩ := inv.getbyip_some lookup
        have member : user ∈ (users umc).filter fun user => decide (user.ip = inetAddr p) :=
          List.mem_filter.mpr ⟨mem_users.mpr ⟨addr, listed, found⟩, decide_eq_true same⟩
        simp only [Umc.load, Option.bind_some, found]
        generalize ((users umc).filter fun user => decide (user.ip = inetAddr p)) = several
          at member ⊢
        constructor
        · intro perm
          left
          have length := perm.length_eq
          rw [tables, List.length_map] at length
          exact length.symm
        · rintro (one | ⟨none, _⟩)
          · obtain ⟨only, rfl⟩ := List.length_eq_one_iff.mp one
            obtain rfl := List.mem_singleton.mp member
            exact List.Perm.refl _
          · rw [List.length_eq_zero_iff.mp none] at member
            cases member

/-- Where one address of a list holds an item that is wanted, the others do not. -/
theorem filter_filterMap_eq_singleton {heap : Addr → Option Apuser} {wanted : Apuser → Bool}
    {list : List Addr} (nodup : list.Nodup) (listed : addr ∈ list) (found : heap addr = some user)
    (passed : wanted user = true)
    (alone : ∀ other ∈ list, ∀ owner, heap other = some owner → wanted owner = true →
      other = addr) : (list.filterMap heap).filter wanted = [user] := by
  have none : ∀ {rest : List Addr}, addr ∉ rest → (∀ other ∈ rest, other ∈ list) →
      (rest.filterMap heap).filter wanted = [] := by
    intro rest outside inside
    rw [List.filter_eq_nil_iff]
    intro owner member passed
    obtain ⟨other, listed, held⟩ := List.mem_filterMap.mp member
    exact outside (alone other (inside other listed) owner held passed ▸ listed)
  obtain ⟨before, after, rfl⟩ := List.append_of_mem listed
  have parts := List.nodup_append.mp nodup
  have notBefore : addr ∉ before := fun member =>
    parts.2.2 addr member addr (List.mem_cons_self ..) rfl
  have notAfter : addr ∉ after := (List.nodup_cons.mp parts.2.1).1
  rw [List.filterMap_append, List.filterMap_cons_some found, List.filter_append,
    List.filter_cons_of_pos passed, none notBefore, none notAfter, List.nil_append]
  · exact fun other member => List.mem_append_right _ (List.mem_cons_of_mem _ member)
  · exact fun other member => List.mem_append_left _ member

/-- The index of MACs finds the user that has a good MAC, which is the only one. -/
theorem Inv.filter_mac_eq (inv : Inv umc) {mac : Mac} (good : isGoodMac mac = true) :
    ((users umc).filter fun user => decide (user.mac = mac)) =
      (umc.load (umUserGetbymac umc mac)).toList := by
  cases lookup : umUserGetbymac umc mac with
  | none =>
      change _ = []
      rw [List.filter_eq_nil_iff]
      intro user member
      obtain ⟨addr, listed, found⟩ := mem_users.mp member
      rw [decide_eq_true_eq]
      exact inv.getbymac_none lookup good listed found
  | some addr =>
      obtain ⟨listed, _, user, found, same⟩ := inv.getbymac_some lookup
      rw [Umc.load, Option.bind_some, found]
      refine filter_filterMap_eq_singleton inv.nodup listed found (decide_eq_true same) ?_
      intro other member owner held passed
      have equal := of_decide_eq_true passed
      exact inv.unique other addr owner user member listed held found (equal ▸ good)
        (equal.trans same.symm)

/-- The answer for a MAC is the right one exactly if a user has it or nothing is in the
buffer. -/
theorem onlyMac_exact_iff (inv : Inv umc) (inetAddr : CStr → UInt32) (wlanid : CStr → Int32)
    {p : CStr} (parsed : osGetmacBystring p = some (attrMac (some p))) :
    Exact inetAddr wlanid umc { mac := some p } ↔
      if isGoodMac (attrMac (some p)) then
        (∃ user ∈ users umc, user.mac = attrMac (some p)) ∨ entries umc.ubus.b.head = []
      else (entries umc.ubus.b.head).Perm (tables (users umc)) := by
  rw [exact_iff (handle_onlyMac inetAddr parsed) rfl, entries_pushuser]
  simp only [satisfies_onlyMac]
  generalize attrMac (some p) = mac
  by_cases good : isGoodMac mac = true
  · have wanted := inv.filter_mac_eq good
    simp only [good, forall_const, ↓reduceIte]
    rw [wanted]
    cases found : umc.load (umUserGetbymac umc mac) with
    | none =>
        rw [found] at wanted
        have nobody : ¬ ∃ user ∈ users umc, user.mac = mac := by
          rintro ⟨user, member, same⟩
          exact List.filter_eq_nil_iff.mp wanted user member (decide_eq_true same)
        rw [or_iff_right nobody]
        exact List.perm_nil
    | some user =>
        rw [found] at wanted
        have selected : user ∈ (users umc).filter fun user => decide (user.mac = mac) := by
          rw [wanted]
          exact List.mem_singleton_self user
        obtain ⟨member, same⟩ := List.mem_filter.mp selected
        exact iff_of_true (List.Perm.refl _) (.inl ⟨user, member, of_decide_eq_true same⟩)
  · have missing : umUserGetbymac umc mac = none := by
      cases lookup : umUserGetbymac umc mac with
      | none => rfl
      | some addr => exact absurd (inv.getbymac_some lookup).2.1 good
    rw [missing, if_neg good]
    simp [good, Umc.load]

/-- For every table that calls can make of the empty one, every content of the buffer and
every well-formed request, the reply holds exactly the users of the table that satisfy the
request's filter if and only if the request is one that is served. -/
theorem getuser_exact_iff (inetAddr : CStr → UInt32) (wlanid : CStr → Int32) (keys : Keys)
    (calls : List Call) (ubus : Ubus) (attr : GetuserAttr) (wellFormed : WellFormed attr) :
    Exact inetAddr wlanid ((run call (umcInit keys) calls).withUbus ubus) attr ↔
      Served inetAddr wlanid ((run call (umcInit keys) calls).withUbus ubus) attr := by
  have inv : Inv ((run call (umcInit keys) calls).withUbus ubus) :=
    (inv_run keys calls).of_same rfl rfl
  unfold Served
  split
  · rename_i p only
    obtain rfl := onlyIp_eq_some.mp only
    exact onlyIp_exact_iff inv inetAddr wlanid p
  · rename_i p _ only
    obtain rfl := onlyMac_eq_some.mp only
    exact onlyMac_exact_iff inv inetAddr wlanid (wellFormed.parsed (by simp) rfl)
  · rename_i notIp notMac
    exact scan_exact_iff inv.nodup inetAddr wlanid wellFormed notIp notMac

/-- The text `020000000001`. -/
def oneMac : CStr := ⟨[48, 50, 48, 48, 48, 48, 48, 48, 48, 48, 48, 49], by decide⟩

theorem oneMac_wellFormed : WellFormed { mac := some oneMac } := by
  have parses : (osGetmacBystring oneMac).isSome = true := by decide
  intro given listed macstring here
  subst here
  simp only [List.mem_cons, reduceCtorEq, Option.some.injEq, List.not_mem_nil, or_false,
    false_or] at listed
  rwa [listed]

/-- The buffer as the event of a new user leaves it. -/
def eventUbus : Ubus := ⟨⟨[.table ⟨"user", userFields (umUserInit true)⟩], none⟩, []⟩

/-- A user that is in the table is found by its MAC, whatever is in the buffer. -/
theorem getuser_exact_iff_found :
    Exact (fun _ => 0) (fun _ => 0) ((run call (umcInit ⟨true, true, false, true, 2⟩)
      [.update { umUserInit true with mac := attrMac (some oneMac) }
        ⟨fun _ ubus _ dst _ => (dst, ubus), fun _ _ _ _ _ => rfl, fun _ _ _ _ _ => rfl⟩
        (some 1) 0]).withUbus eventUbus) { mac := some oneMac } := by
  refine (getuser_exact_iff (fun _ => 0) (fun _ => 0) _ _ eventUbus { mac := some oneMac }
    oneMac_wellFormed).mpr ?_
  have good : isGoodMac (attrMac (some oneMac)) = true := by decide
  have notIp : onlyIp { mac := some oneMac } = none := by decide
  have only : onlyMac { mac := some oneMac } = some oneMac := by decide
  rw [Served, notIp, only]
  dsimp only
  rw [if_pos good]
  exact .inl ⟨_, List.mem_cons_self .., rfl⟩

/-- Nobody has the MAC of the request, and it is answered with the user of an event. -/
theorem getuser_answers_event :
    ¬ ∀ (inetAddr : CStr → UInt32) (wlanid : CStr → Int32) (keys : Keys) (calls : List Call)
      (ubus : Ubus) (attr : GetuserAttr), WellFormed attr →
      Exact inetAddr wlanid ((run call (umcInit keys) calls).withUbus ubus) attr := by
  intro always
  have exactly := always (fun _ => 0) (fun _ => 0) ⟨true, true, false, true, 2⟩ [] eventUbus
    { mac := some oneMac } oneMac_wellFormed
  have inv : Inv ((umcInit ⟨true, true, false, true, 2⟩).withUbus eventUbus) :=
    (inv_umcInit ⟨true, true, false, true, 2⟩).of_same rfl rfl
  have good : isGoodMac (attrMac (some oneMac)) = true := by decide
  rw [run_nil, onlyMac_exact_iff inv _ _ (oneMac_wellFormed.parsed (by simp) rfl), if_pos good]
    at exactly
  rcases exactly with ⟨user, member, _⟩ | empty
  · cases member
  · cases empty

end Trunk.Um
