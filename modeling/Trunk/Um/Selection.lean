import Trunk.Um.Filter

/-! # What a filter selects

`um_user_delby` removes the users that the code's test accepts, in whatever state the table is, and
`um_user_getby` visits them (`Trunk.Um.users_umUserDelby`, `Trunk.Um.umUserGetby_eq`). These are the
users that satisfy the filter unless an address of the filter has a mask: then the test wants every
byte to differ under the mask. It still agrees with the filter on a user that another criterion
rules out, and on one with a byte that agrees and a byte that differs
(`Trunk.Um.selects_iff_judged`).
-/

namespace Trunk.Um

open Address Run

variable {umc : Umc} {addr : Addr} {user : Apuser} {filter : UserFilter}

/-- An address of a filter that is compared under a mask. -/
def UnderMask (fmac mask : Mac) : Prop := isGoodMac fmac = true ∧ mask ≠ osZeromac

instance (fmac mask : Mac) : Decidable (UnderMask fmac mask) := inferInstanceAs (Decidable (_ ∧ _))

/-- The bytes of two addresses under a mask, side by side. -/
def maskedBytes (umac fmac mask : Mac) : List (UInt8 × UInt8) :=
  (List.zipWith (fun byte mask => byte &&& mask) umac.bytes mask.bytes).zip
    (List.zipWith (fun byte mask => byte &&& mask) fmac.bytes mask.bytes)

/-- The bytes that a filter compares under a mask with those of a user. -/
def compared (user : Apuser) (filter : UserFilter) : List (UInt8 × UInt8) :=
  (if UnderMask filter.mac filter.macmask then maskedBytes user.mac filter.mac filter.macmask
    else []) ++
  (if UnderMask filter.ap filter.apmask then maskedBytes user.ap filter.ap filter.apmask else [])

/-- A user meets the criteria of a filter that have no mask for an address. -/
def MeetsPlain (user : Apuser) (filter : UserFilter) : Prop :=
  Suits user filter ∧ IdSatisfies user.wlanid filter.wlanid ∧
    (¬ UnderMask filter.mac filter.macmask → MacSatisfies user.mac filter.mac filter.macmask) ∧
    (¬ UnderMask filter.ap filter.apmask → MacSatisfies user.ap filter.ap filter.apmask)

instance (user : Apuser) (filter : UserFilter) : Decidable (MeetsPlain user filter) :=
  inferInstanceAs (Decidable (_ ∧ _))

/-- A user is ruled out by a criterion without a mask, or nothing is compared under a mask, or of
the bytes that are, one agrees and one differs. -/
def Judged (user : Apuser) (filter : UserFilter) : Prop :=
  MeetsPlain user filter → compared user filter = [] ∨
    (∃ pair ∈ compared user filter, pair.1 = pair.2) ∧
      ∃ pair ∈ compared user filter, pair.1 ≠ pair.2

theorem osBufmaskmatch_iff {a b mask : List UInt8} (sameA : a.length = mask.length)
    (sameB : b.length = mask.length) :
    osBufmaskmatch a b mask = true ↔
      ∀ pair ∈ (List.zipWith (fun byte mask => byte &&& mask) a mask).zip
        (List.zipWith (fun byte mask => byte &&& mask) b mask), pair.1 ≠ pair.2 := by
  induction mask generalizing a b with
  | nil =>
      rw [List.length_eq_zero_iff.mp sameA, List.length_eq_zero_iff.mp sameB]
      exact iff_of_true rfl (List.forall_mem_nil _)
  | cons first mask ih =>
      obtain ⟨x, xs, rfl⟩ := List.exists_cons_of_length_eq_add_one sameA
      obtain ⟨y, ys, rfl⟩ := List.exists_cons_of_length_eq_add_one sameB
      have rest := ih (Nat.succ.inj sameA) (Nat.succ.inj sameB)
      rw [osBufmaskmatch, List.zipWith_cons_cons, List.zipWith_cons_cons, List.zip_cons_cons,
        List.forall_mem_cons, ← rest, osMaskmatch]
      by_cases same : x &&& first = y &&& first
      · simp [same]
      · simp [same]

theorem zip_agree_iff {a b : List UInt8} (same : a.length = b.length) :
    a = b ↔ ∀ pair ∈ a.zip b, pair.1 = pair.2 := by
  induction a generalizing b with
  | nil =>
      rw [List.length_eq_zero_iff.mp same.symm]
      exact iff_of_true rfl (List.forall_mem_nil _)
  | cons x xs ih =>
      obtain ⟨y, ys, rfl⟩ := List.exists_cons_of_length_eq_add_one same.symm
      rw [List.zip_cons_cons, List.forall_mem_cons, ← ih (Nat.succ.inj same), List.cons.injEq]

theorem length_masked (mac mask : Mac) :
    (List.zipWith (fun byte mask => byte &&& mask) mac.bytes mask.bytes).length = 6 := by
  rw [List.length_zipWith, mac.size, mask.size]
  rfl

theorem maskedBytes_ne_nil (umac fmac mask : Mac) : maskedBytes umac fmac mask ≠ [] := by
  apply List.ne_nil_of_length_pos
  rw [maskedBytes, List.length_zip, length_masked, length_masked]
  decide

/-- The test of an address, byte by byte. -/
theorem macmatch_iff (umac fmac mask : Mac) :
    macmatch umac fmac mask = true ↔
      (¬ UnderMask fmac mask → MacSatisfies umac fmac mask) ∧
        ∀ pair ∈ if UnderMask fmac mask then maskedBytes umac fmac mask else [],
          pair.1 ≠ pair.2 := by
  by_cases under : UnderMask fmac mask
  · rw [if_pos under, macmatch, if_pos under.1, if_neg under.2, osMacmaskmach,
      osBufmaskmatch_iff (umac.size.trans mask.size.symm) (fmac.size.trans mask.size.symm)]
    exact ⟨fun differ => ⟨fun plain => absurd under plain, differ⟩, fun both => both.2⟩
  · rw [if_neg under, macmatch_eq_true_iff under]
    exact ⟨fun satisfied => ⟨fun _ => satisfied, List.forall_mem_nil _⟩, fun both => both.1 under⟩

/-- What a filter asks of an address, byte by byte. -/
theorem macSatisfies_iff (umac fmac mask : Mac) :
    MacSatisfies umac fmac mask ↔
      (¬ UnderMask fmac mask → MacSatisfies umac fmac mask) ∧
        ∀ pair ∈ if UnderMask fmac mask then maskedBytes umac fmac mask else [],
          pair.1 = pair.2 := by
  by_cases under : UnderMask fmac mask
  · have equal : MacSatisfies umac fmac mask ↔ MaskEq umac fmac mask := by
      rw [MacSatisfies, if_neg under.2]
      exact ⟨fun asks => asks under.1, fun equal _ => equal⟩
    rw [if_pos under, equal, MaskEq,
      zip_agree_iff ((length_masked umac mask).trans (length_masked fmac mask).symm)]
    exact ⟨fun agree => ⟨fun plain => absurd under plain, agree⟩, fun both => both.2⟩
  · rw [if_neg under]
    exact ⟨fun satisfied => ⟨fun _ => satisfied, List.forall_mem_nil _⟩, fun both => both.1 under⟩

theorem matchUser_iff_differ :
    matchUser user filter = true ↔
      MeetsPlain user filter ∧ ∀ pair ∈ compared user filter, pair.1 ≠ pair.2 := by
  rw [matchUser_eq_true_iff, macmatch_iff, macmatch_iff, MeetsPlain, compared,
    List.forall_mem_append]
  constructor
  · rintro ⟨suits, ⟨mac, macBytes⟩, ⟨ap, apBytes⟩, wlan⟩
    exact ⟨⟨suits, wlan, mac, ap⟩, macBytes, apBytes⟩
  · rintro ⟨⟨suits, wlan, mac, ap⟩, macBytes, apBytes⟩
    exact ⟨suits, ⟨mac, macBytes⟩, ⟨ap, apBytes⟩, wlan⟩

theorem satisfies_iff_agree :
    Satisfies user filter ↔
      MeetsPlain user filter ∧ ∀ pair ∈ compared user filter, pair.1 = pair.2 := by
  rw [Satisfies, macSatisfies_iff, macSatisfies_iff user.ap, MeetsPlain, compared,
    List.forall_mem_append]
  constructor
  · rintro ⟨suits, ⟨mac, macBytes⟩, ⟨ap, apBytes⟩, wlan⟩
    exact ⟨⟨suits, wlan, mac, ap⟩, macBytes, apBytes⟩
  · rintro ⟨⟨suits, wlan, mac, ap⟩, macBytes, apBytes⟩
    exact ⟨suits, ⟨mac, macBytes⟩, ⟨ap, apBytes⟩, wlan⟩

/-- The test agrees with the filter on the users that are judged, and on no others. -/
theorem matchUser_iff_satisfies_iff :
    (matchUser user filter = true ↔ Satisfies user filter) ↔ Judged user filter := by
  rw [matchUser_iff_differ, satisfies_iff_agree, and_congr_right_iff, Judged]
  refine forall_congr' fun _ => ?_
  constructor
  · intro agree
    cases bytes : compared user filter with
    | nil => exact .inl rfl
    | cons first rest =>
        refine .inr ⟨?_, ?_⟩
        · by_contra none
          have differ : ∀ pair ∈ compared user filter, pair.1 ≠ pair.2 := by
            intro pair member same
            exact none ⟨pair, bytes ▸ member, same⟩
          have member : first ∈ compared user filter := bytes ▸ List.mem_cons_self ..
          exact differ first member (agree.mp differ first member)
        · by_contra none
          have same : ∀ pair ∈ compared user filter, pair.1 = pair.2 := by
            intro pair member
            by_contra differ
            exact none ⟨pair, bytes ▸ member, differ⟩
          have member : first ∈ compared user filter := bytes ▸ List.mem_cons_self ..
          exact agree.mpr same first member (same first member)
  · rintro (nothing | ⟨⟨one, here, same⟩, other, there, differ⟩)
    · rw [nothing]
      exact iff_of_true (List.forall_mem_nil _) (List.forall_mem_nil _)
    · exact iff_of_false (fun all => all one here same) (fun all => differ (all other there))

/-- A user that the test accepts is at an address. -/
def matchedAt (umc : Umc) (filter : UserFilter) (addr : Addr) : Bool :=
  (umc.heap addr).any fun user => matchUser user filter

/-- The list of the table after some of its users were checked. -/
theorem foldl_delbyCb_list (filter : UserFilter) (list : List Addr) (inv : Inv umc)
    (inside : list ⊆ umc.head.list) (nodup : list.Nodup) :
    (list.foldl (fun umc addr => (delbyCb filter umc addr).2) umc).head.list =
      umc.head.list.filter fun addr => !(decide (addr ∈ list) && matchedAt umc filter addr) := by
  induction list generalizing umc with
  | nil =>
      rw [List.foldl_nil, eq_comm, List.filter_eq_self]
      intro addr _
      simp
  | cons first list ih =>
      obtain ⟨fresh, nodup⟩ := List.nodup_cons.mp nodup
      have listed : first ∈ umc.head.list := inside (List.mem_cons_self ..)
      obtain ⟨shrinks, -, -⟩ := delbyCb_spec inv filter listed
      have later : list ⊆ umc.head.list := fun addr member =>
        inside (List.mem_cons_of_mem _ member)
      rw [List.foldl_cons]
      by_cases matched : matchedAt umc filter first = true
      · obtain ⟨user, found⟩ := inv.heap_of_mem listed
        obtain ⟨-, others, erased⟩ := remove_found inv found (some umUbusRemoveCb)
        have step : (delbyCb filter umc first).2 =
            (remove umc (some first) (some umUbusRemoveCb)).2 := by
          rw [delbyCb, ← matchedAt, if_pos matched]
        rw [← step] at others erased
        have inside' : list ⊆ (delbyCb filter umc first).2.head.list := by
          intro addr member
          have apart : addr ≠ first := by
            rintro rfl
            exact fresh member
          rw [erased, List.mem_erase_of_ne apart]
          exact later member
        rw [ih shrinks.inv inside' nodup, erased, inv.nodup.erase_eq_filter, List.filter_filter]
        refine List.filter_congr fun addr _ => ?_
        by_cases same : addr = first
        · subst same
          simp [matched]
        · have heap : matchedAt (delbyCb filter umc first).2 filter addr =
              matchedAt umc filter addr := by
            rw [matchedAt, others addr same, matchedAt]
          simp [same, heap]
      · have step : (delbyCb filter umc first).2 = umc := by
          rw [delbyCb, ← matchedAt, if_neg matched]
        rw [step, ih inv later nodup]
        refine List.filter_congr fun addr _ => ?_
        by_cases same : addr = first
        · subst same
          simp [matched]
        · simp [same]

/-- `um_user_delby` removes the users that the test accepts. -/
theorem users_umUserDelby (inv : Inv umc) (filter : UserFilter) :
    users (umUserDelby umc filter).2 = (users umc).filter fun user => !matchUser user filter := by
  obtain ⟨shrinks, -⟩ := umUserDelby_spec inv filter
  have list : (umUserDelby umc filter).2.head.list =
      umc.head.list.filter fun addr => !matchedAt umc filter addr := by
    rw [umUserDelby, umUserForeach, Walk.forEachSafe_eq_foldl (delbyCb_stays filter) umc inv
      inv.nodup]
    rw [foldl_delbyCb_list filter umc.head.list inv (List.Subset.refl _) inv.nodup]
    refine List.filter_congr fun addr member => ?_
    simp [member]
  have heap : (umUserDelby umc filter).2.head.list.filterMap (umUserDelby umc filter).2.heap =
      (umUserDelby umc filter).2.head.list.filterMap umc.heap :=
    List.filterMap_congr fun addr member => (shrinks.kept addr member).2
  rw [users, heap, list, users, List.filterMap_filter, List.filter_filterMap]
  refine List.filterMap_congr fun addr member => ?_
  obtain ⟨user, found⟩ := inv.heap_of_mem member
  rw [matchedAt, found, Option.any_some, Option.filter_some]

/-- A function that `um_user_getby` may be given: it lets the scan go on and leaves the table as it
is. -/
structure Visitor (get : Umc → Apuser → Option Int × Umc) : Prop where
  goesOn : ∀ umc user, (get umc user).1 = none
  head : ∀ umc user, (get umc user).2.head = umc.head
  heap : ∀ umc user, (get umc user).2.heap = umc.heap

theorem Visitor.foldl_eq {get : Umc → Apuser → Option Int × Umc} (visitor : Visitor get)
    (filter : UserFilter) (list : List Addr) (umc : Umc) :
    list.foldl (fun umc addr => (getbyCb filter get umc addr).2) umc =
      ((list.filterMap umc.heap).filter fun user => matchUser user filter).foldl
        (fun umc user => (get umc user).2) umc := by
  induction list generalizing umc with
  | nil => rfl
  | cons addr list ih =>
      rw [List.foldl_cons, ih, List.filterMap_cons]
      cases found : umc.heap addr with
      | none => simp only [getbyCb, found]
      | some user =>
          by_cases matched : matchUser user filter = true
          · simp only [getbyCb, found, matched, ↓reduceIte, List.filter_cons_of_pos,
              List.foldl_cons, visitor.heap]
          · simp only [getbyCb, found, matched, Bool.false_eq_true, ↓reduceIte, not_false_eq_true,
              List.filter_cons_of_neg]

/-- `um_user_getby` visits the users that the test accepts, in the order of the list. -/
theorem umUserGetby_eq {get : Umc → Apuser → Option Int × Umc} (visitor : Visitor get)
    (nodup : umc.head.list.Nodup) (filter : UserFilter) :
    umUserGetby umc filter get =
      (0, ((users umc).filter fun user => matchUser user filter).foldl
        (fun umc user => (get umc user).2) umc) := by
  have stays : ∀ (state : Umc) (addr : Addr), True → addr ∈ state.head.list →
      (getbyCb filter get state addr).1 = none ∧ True ∧
        ((getbyCb filter get state addr).2.head.list = state.head.list ∨
          (getbyCb filter get state addr).2.head.list = state.head.list.erase addr) := by
    intro state addr _ _
    unfold getbyCb
    split
    · exact ⟨rfl, trivial, .inl rfl⟩
    · split
      · exact ⟨visitor.goesOn _ _, trivial, .inl (by rw [visitor.head])⟩
      · exact ⟨rfl, trivial, .inl rfl⟩
  rw [umUserGetby, umUserForeach, Walk.forEachSafe_eq_foldl stays umc trivial nodup,
    visitor.foldl_eq]
  rfl

/-- The test is the conjunction of the criteria on the users of a table, a deletion removes those
that satisfy them and no others, and a scan visits those. -/
structure Selects (umc : Umc) (filter : UserFilter) : Prop where
  matched : ∀ user ∈ users umc, matchUser user filter = true ↔ Satisfies user filter
  removed : users (umUserDelby umc filter).2 =
    (users umc).filter fun user => !decide (Satisfies user filter)
  visited : ∀ get, Visitor get → umUserGetby umc filter get =
    (0, ((users umc).filter fun user => decide (Satisfies user filter)).foldl
      (fun umc user => (get umc user).2) umc)

theorem Inv.selects_iff (inv : Inv umc) (filter : UserFilter) :
    Selects umc filter ↔ ∀ user ∈ users umc, Judged user filter := by
  constructor
  · intro selects user member
    exact matchUser_iff_satisfies_iff.mp (selects.matched user member)
  · intro judged
    have matched : ∀ user ∈ users umc, matchUser user filter = true ↔ Satisfies user filter :=
      fun user member => matchUser_iff_satisfies_iff.mpr (judged user member)
    have same : ∀ user ∈ users umc, matchUser user filter = decide (Satisfies user filter) := by
      intro user member
      rw [Bool.eq_iff_iff, matched user member, decide_eq_true_iff]
    refine ⟨matched, ?_, fun get visitor => ?_⟩
    · rw [users_umUserDelby inv]
      exact List.filter_congr fun user member => congrArg _ (same user member)
    · rw [umUserGetby_eq visitor inv.nodup, List.filter_congr same]

/-- The test is the conjunction of the criteria exactly on the users that are judged, and in every
table a deletion and a scan select the users that satisfy the filter if all of its users are. -/
theorem selects_iff_judged (filter : UserFilter) :
    (∀ user, (matchUser user filter = true ↔ Satisfies user filter) ↔ Judged user filter) ∧
      ∀ (keys : Keys) (calls : List Call),
        Selects (run call (umcInit keys) calls) filter ↔
          ∀ user ∈ users (run call (umcInit keys) calls), Judged user filter :=
  ⟨fun _ => matchUser_iff_satisfies_iff, fun keys calls => (inv_run keys calls).selects_iff filter⟩

/-- A user, and a filter for the maker of its address. -/
def maker : Apuser := { umUserInit true with mac := ⟨[2, 0, 0, 0, 0, 1], rfl⟩ }

@[inherit_doc maker]
def makerFilter : UserFilter :=
  { userFilterIniter true with
    mac := ⟨[2, 0, 0, 0, 0, 9], rfl⟩
    macmask := ⟨[255, 255, 255, 0, 0, 0], rfl⟩ }

/-- The test refuses a user that satisfies a filter with a mask. -/
theorem not_matchUser_maker :
    ¬ ∀ user filter, matchUser user filter = true ↔ Satisfies user filter := by
  intro agree
  have matched := (agree maker makerFilter).mpr (by decide +kernel)
  exact absurd matched (by decide +kernel)

end Trunk.Um
