import Trunk.Um.Table

/-! # Filters

What a filter asks of a user (`Trunk.Um.Satisfies`), and what the code's test accepts
(`Trunk.Um.matchUser_eq_true_iff`): the two agree but for addresses under a mask, where they
exclude each other (`Trunk.Um.not_macmatch_of_macSatisfies`). A deletion by a filter leaves
no user that the test accepts (`Trunk.Um.umUserDelby_spec`).
-/

namespace Trunk.Um

open Address

variable {umc : Umc} {addr : Addr} {user : Apuser} {filter : UserFilter}

/-- Two addresses are equal under a mask. -/
def MaskEq (a b mask : Mac) : Prop :=
  List.zipWith (fun byte mask => byte &&& mask) a.bytes mask.bytes =
    List.zipWith (fun byte mask => byte &&& mask) b.bytes mask.bytes

instance (a b mask : Mac) : Decidable (MaskEq a b mask) := inferInstanceAs (Decidable (_ = _))

/-- What a filter asks of an address: nothing if its own is zero or full, equality if there
is no mask, else equality under the mask. -/
def MacSatisfies (umac fmac mask : Mac) : Prop :=
  isGoodMac fmac = true → if mask = osZeromac then umac = fmac else MaskEq umac fmac mask

instance (umac fmac mask : Mac) : Decidable (MacSatisfies umac fmac mask) :=
  inferInstanceAs (Decidable (_ → _))

/-- What a filter asks of an IP. -/
def IpSatisfies (uip fip mask : UInt32) : Prop :=
  fip ≠ 0 → if mask = 0 then uip = fip else uip &&& mask = fip &&& mask

instance (uip fip mask : UInt32) : Decidable (IpSatisfies uip fip mask) :=
  inferInstanceAs (Decidable (_ → _))

/-- What a filter asks of the number of a radio or a wlan. -/
def IdSatisfies (uid fid : Int32) : Prop := fid ≥ 0 → uid = fid

instance (uid fid : Int32) : Decidable (IdSatisfies uid fid) := inferInstanceAs (Decidable (_ → _))

/-- The criteria of a filter that are about neither an address nor the wlan. -/
def Suits (user : Apuser) (filter : UserFilter) : Prop :=
  (filter.isLocal = true → user.isLocal = true) ∧
    IpSatisfies user.ip filter.ip filter.ipmask ∧ IdSatisfies user.radioid filter.radioid

instance (user : Apuser) (filter : UserFilter) : Decidable (Suits user filter) :=
  inferInstanceAs (Decidable (_ ∧ _))

/-- A user satisfies a filter. -/
def Satisfies (user : Apuser) (filter : UserFilter) : Prop :=
  Suits user filter ∧ MacSatisfies user.mac filter.mac filter.macmask ∧
    MacSatisfies user.ap filter.ap filter.apmask ∧ IdSatisfies user.wlanid filter.wlanid

instance (user : Apuser) (filter : UserFilter) : Decidable (Satisfies user filter) :=
  inferInstanceAs (Decidable (_ ∧ _))

/-- The users of the table, in the order of its list. -/
def users (umc : Umc) : List Apuser := umc.head.list.filterMap umc.heap

theorem mem_users :
    user ∈ users umc ↔ ∃ addr ∈ umc.head.list, umc.heap addr = some user :=
  List.mem_filterMap

/-- The test of an address, where there is no mask or no address. -/
theorem macmatch_eq_true_iff {umac fmac mask : Mac}
    (plain : ¬ (isGoodMac fmac = true ∧ mask ≠ osZeromac)) :
    macmatch umac fmac mask = true ↔ MacSatisfies umac fmac mask := by
  unfold macmatch MacSatisfies
  by_cases good : isGoodMac fmac = true
  · have zero : mask = osZeromac := by
      by_contra nonzero
      exact plain ⟨good, nonzero⟩
    simp only [good, zero, ↓reduceIte, decide_eq_true_eq, forall_const]
  · simp only [good, Bool.false_eq_true, ↓reduceIte, false_implies]

theorem ipmatch_eq_true_iff {uip fip mask : UInt32} :
    ipmatch uip fip mask = true ↔ IpSatisfies uip fip mask := by
  unfold ipmatch IpSatisfies osIpmatch
  by_cases given : fip ≠ 0
  · simp only [given, not_false_eq_true, ne_eq, ↓reduceIte, forall_const]
    split
    · exact decide_eq_true_iff
    · exact beq_iff_eq
  · simp only [given, ↓reduceIte, false_implies]

/-- The code's test of a user. -/
theorem matchUser_eq_true_iff :
    matchUser user filter = true ↔ Suits user filter ∧
      macmatch user.mac filter.mac filter.macmask = true ∧
      macmatch user.ap filter.ap filter.apmask = true ∧ IdSatisfies user.wlanid filter.wlanid := by
  have number : ∀ uid fid : Int32, ¬ (fid ≥ 0 ∧ uid ≠ fid) ↔ IdSatisfies uid fid := by
    intro uid fid
    rw [IdSatisfies, not_and, ne_eq, not_not]
  have local_iff : ¬ (filter.isLocal && decide (user.isLocal = false)) = true ↔
      (filter.isLocal = true → user.isLocal = true) := by
    cases filter.isLocal <;> cases user.isLocal <;> decide
  rw [Suits, ← ipmatch_eq_true_iff, ← number, ← number, ← local_iff]
  simp only [matchUser, Bool.if_false_left, Bool.and_eq_true, Bool.not_eq_true',
    decide_eq_false_iff_not, Bool.not_eq_false, Bool.if_true_right, Bool.or_false]
  constructor
  · rintro ⟨isLocal, mac, ap, ip, radio, wlan⟩
    exact ⟨⟨isLocal, ip, radio⟩, mac, ap, wlan⟩
  · rintro ⟨⟨isLocal, ip, radio⟩, mac, ap, wlan⟩
    exact ⟨isLocal, mac, ap, ip, radio, wlan⟩

/-- The code's test of an address under a mask and the right one exclude each other. -/
theorem not_macmatch_of_macSatisfies {umac fmac mask : Mac} (good : isGoodMac fmac = true)
    (masked : mask ≠ osZeromac) (satisfied : MacSatisfies umac fmac mask) :
    ¬ macmatch umac fmac mask = true := by
  intro matched
  rw [macmatch, if_pos good, if_neg masked] at matched
  have equal := satisfied good
  rw [if_neg masked] at equal
  have nonempty : mask.bytes ≠ [] := by
    intro empty
    have size := mask.size
    rw [empty] at size
    cases size
  exact zipWith_ne_of_osBufmaskmatch (umac.size.trans mask.size.symm)
    (fmac.size.trans mask.size.symm) nonempty matched equal

/-- Users have left the table, and nothing else has happened to it. -/
structure Shrinks (umc next : Umc) : Prop where
  inv : Inv next
  kept : ∀ addr ∈ next.head.list, addr ∈ umc.head.list ∧ next.heap addr = umc.heap addr

theorem Shrinks.refl (inv : Inv umc) : Shrinks umc umc := ⟨inv, fun _ listed => ⟨listed, rfl⟩⟩

theorem Shrinks.trans {middle last : Umc} (first : Shrinks umc middle)
    (second : Shrinks middle last) : Shrinks umc last := by
  refine ⟨second.inv, fun addr listed => ?_⟩
  obtain ⟨member, same⟩ := second.kept addr listed
  obtain ⟨member', same'⟩ := first.kept addr member
  exact ⟨member', same.trans same'⟩

theorem Shrinks.users_subset {next : Umc} (shrinks : Shrinks umc next)
    (member : user ∈ users next) : user ∈ users umc := by
  obtain ⟨addr, listed, found⟩ := mem_users.mp member
  obtain ⟨before, same⟩ := shrinks.kept addr listed
  exact mem_users.mpr ⟨addr, before, same.symm.trans found⟩

/-- `delby_cb` on a user of the table. -/
theorem delbyCb_spec (inv : Inv umc) (filter : UserFilter) (listed : addr ∈ umc.head.list) :
    Shrinks umc (delbyCb filter umc addr).2 ∧
      (addr ∈ (delbyCb filter umc addr).2.head.list →
        ∀ user, umc.heap addr = some user → ¬ matchUser user filter = true) ∧
      ((delbyCb filter umc addr).2.head.list = umc.head.list ∨
        (delbyCb filter umc addr).2.head.list = umc.head.list.erase addr) := by
  obtain ⟨user, found⟩ := inv.heap_of_mem listed
  by_cases matched : matchUser user filter = true
  · obtain ⟨_, others, list⟩ := remove_found inv found (some umUbusRemoveCb)
    have step : (delbyCb filter umc addr).2 = (remove umc (some addr) (some umUbusRemoveCb)).2 := by
      simp only [delbyCb, found, Option.any_some, matched, ↓reduceIte]
    have gone : addr ∉ (remove umc (some addr) (some umUbusRemoveCb)).2.head.list := by
      rw [list]
      exact inv.nodup.not_mem_erase
    rw [step]
    refine ⟨⟨inv.remove _ _, fun other member => ?_⟩, fun member => absurd member gone, .inr list⟩
    have apart : other ≠ addr := fun this => gone (this ▸ member)
    rw [list] at member
    exact ⟨List.mem_of_mem_erase member, others other apart⟩
  · have step : (delbyCb filter umc addr).2 = umc := by
      simp only [delbyCb, found, Option.any_some, matched, Bool.false_eq_true, ↓reduceIte]
    rw [step]
    refine ⟨Shrinks.refl inv, fun _ owner held => ?_, .inl rfl⟩
    rwa [← Option.some.inj (found.symm.trans held)]

/-- `delby_cb` lets the loop go on, and unlinks at most the user it is at. -/
theorem delbyCb_stays (filter : UserFilter) (umc : Umc) (addr : Addr) (inv : Inv umc)
    (listed : addr ∈ umc.head.list) :
    (delbyCb filter umc addr).1 = none ∧ Inv (delbyCb filter umc addr).2 ∧
      ((delbyCb filter umc addr).2.head.list = umc.head.list ∨
        (delbyCb filter umc addr).2.head.list = umc.head.list.erase addr) := by
  obtain ⟨shrinks, _, change⟩ := delbyCb_spec inv filter listed
  refine ⟨?_, shrinks.inv, change⟩
  unfold delbyCb
  split
  · rfl
  · rfl

/-- The users at some addresses of the table, checked one after another. -/
theorem foldl_delbyCb_spec (filter : UserFilter) (list : List Addr) (inv : Inv umc)
    (inside : list ⊆ umc.head.list) (nodup : list.Nodup) :
    Shrinks umc (list.foldl (fun umc addr => (delbyCb filter umc addr).2) umc) ∧
      ∀ addr ∈ list,
        addr ∈ (list.foldl (fun umc addr => (delbyCb filter umc addr).2) umc).head.list →
        ∀ user, umc.heap addr = some user → ¬ matchUser user filter = true := by
  induction list generalizing umc with
  | nil =>
      refine ⟨Shrinks.refl inv, fun addr member => ?_⟩
      cases member
  | cons first list ih =>
      obtain ⟨shrinks, unmatched, change⟩ :=
        delbyCb_spec inv filter (inside (List.mem_cons_self ..))
      obtain ⟨fresh, nodup⟩ := List.nodup_cons.mp nodup
      have inside' : list ⊆ (delbyCb filter umc first).2.head.list := by
        intro addr member
        have before := inside (List.mem_cons_of_mem _ member)
        rcases change with same | erased
        · rwa [same]
        · have apart : addr ≠ first := by
            rintro rfl
            exact fresh member
          rw [erased, List.mem_erase_of_ne apart]
          exact before
      obtain ⟨later, others⟩ := ih shrinks.inv inside' nodup
      refine ⟨shrinks.trans later, fun addr member left user found => ?_⟩
      rcases List.mem_cons.mp member with rfl | rest
      · exact unmatched (later.kept addr left).1 user found
      · have same := (shrinks.kept addr (later.kept addr left).1).2
        exact others addr rest left user (same.trans found)

/-- After `um_user_delby`, the table has only users it had before, and none that the filter
matches. -/
theorem umUserDelby_spec (inv : Inv umc) (filter : UserFilter) :
    Shrinks umc (umUserDelby umc filter).2 ∧
      ∀ user ∈ users (umUserDelby umc filter).2, ¬ matchUser user filter = true := by
  obtain ⟨shrinks, unmatched⟩ :=
    foldl_delbyCb_spec filter umc.head.list inv (List.Subset.refl _) inv.nodup
  rw [umUserDelby, umUserForeach, Walk.forEachSafe_eq_foldl (delbyCb_stays filter) umc inv
    inv.nodup]
  refine ⟨shrinks, fun user member => ?_⟩
  obtain ⟨addr, listed, found⟩ := mem_users.mp member
  obtain ⟨before, same⟩ := shrinks.kept addr listed
  exact unmatched addr before listed user (same.symm.trans found)

end Trunk.Um
