import Trunk.Um.Filter
import Trunk.Um.Uci

/-! # Reloading the wireless configuration

A load leaves in `tmp` what it found in both lists, and there it stands for an interface of
every later configuration. So the lists follow the configuration, load after load, if and
only if no configuration has an enabled interface in common with the one before it, and
every enabled radio is well named (`Trunk.Um.reload_tracks_iff`).
-/

namespace Trunk.Um

open CString Address Run

variable {cfg tmp : List UmIntf} {umc : Umc} {name : List UInt8}

/-- The names of interfaces. -/
def names (list : List UmIntf) : List (List UInt8) := list.map UmIntf.ifname

/-- Names that their buffers hold. -/
def Short (list : List UmIntf) : Prop := ∀ intf ∈ list, intf.ifname.length < ifnameSize

theorem Short.cons {intf : UmIntf} (short : intf.ifname.length < ifnameSize) (rest : Short cfg) :
    Short (intf :: cfg) := by
  intro other member
  rcases List.mem_cons.mp member with rfl | listed
  · exact short
  · exact rest other listed

theorem Short.tail {intf : UmIntf} (short : Short (intf :: cfg)) : Short cfg :=
  fun other member => short other (List.mem_cons_of_mem _ member)

theorem sameIfname_iff {first second : UmIntf} (short : first.ifname.length < ifnameSize)
    (short' : second.ifname.length < ifnameSize) :
    sameIfname first second = true ↔ first.ifname = second.ifname := by
  rw [sameIfname, strncmpEq, decide_eq_true_iff, List.take_of_length_le short.le,
    List.take_of_length_le short'.le]

/-- Looking for an interface in a list is looking for its name. -/
theorem any_sameIfname_iff {intf : UmIntf} (short : intf.ifname.length < ifnameSize)
    (others : Short cfg) : cfg.any (sameIfname intf) = true ↔ intf.ifname ∈ names cfg := by
  rw [List.any_eq_true, names, List.mem_map]
  refine exists_congr fun other => and_congr_right fun listed => ?_
  rw [sameIfname_iff short (others other listed), eq_comm]

/-- The two loops compare the names in either order. -/
theorem any_sameIfname_comm (cfg : List UmIntf) (intf : UmIntf) :
    (cfg.any fun other => sameIfname other intf) = cfg.any (sameIfname intf) := by
  congr 1
  funext other
  rw [sameIfname, sameIfname, strncmpEq, strncmpEq, decide_eq_decide]
  exact eq_comm

/-- What the first loop leaves of `cfg`. -/
theorem mem_deleteUnmatched (shortCfg : Short cfg) (shortTmp : Short tmp) {intf : UmIntf} :
    intf ∈ (deleteUnmatched tmp cfg umc).1 ↔ intf ∈ cfg ∧ intf.ifname ∈ names tmp := by
  induction cfg generalizing umc with
  | nil => simp only [deleteUnmatched, List.not_mem_nil, false_and]
  | cons first cfg ih =>
      have here := any_sameIfname_iff (shortCfg first (List.mem_cons_self ..)) shortTmp
      unfold deleteUnmatched
      split
      · rename_i matched
        rw [List.mem_cons, List.mem_cons, ih shortCfg.tail]
        constructor
        · rintro (rfl | ⟨listed, named⟩)
          · exact ⟨.inl rfl, here.mp matched⟩
          · exact ⟨.inr listed, named⟩
        · rintro ⟨rfl | listed, named⟩
          · exact .inl rfl
          · exact .inr ⟨listed, named⟩
      · rename_i unmatched
        rw [ih shortCfg.tail, List.mem_cons]
        constructor
        · rintro ⟨listed, named⟩
          exact ⟨.inr listed, named⟩
        · rintro ⟨rfl | listed, named⟩
          · exact absurd (here.mpr named) unmatched
          · exact ⟨listed, named⟩

/-- What the second loop makes of `cfg`: nothing else, and every name of `tmp`. -/
theorem mem_moveUnmatched_cfg {intf : UmIntf} (member : intf ∈ (moveUnmatched tmp cfg).cfg) :
    intf ∈ cfg ∨ intf ∈ tmp := by
  induction tmp generalizing cfg with
  | nil => exact .inl member
  | cons first tmp ih =>
      unfold moveUnmatched at member
      split at member
      · rcases ih member with listed | moved
        · exact .inl listed
        · exact .inr (List.mem_cons_of_mem _ moved)
      · rcases ih member with listed | moved
        · rcases List.mem_cons.mp listed with rfl | listed
          · exact .inr (List.mem_cons_self ..)
          · exact .inl listed
        · exact .inr (List.mem_cons_of_mem _ moved)

theorem moveUnmatched_names (shortCfg : Short cfg) (shortTmp : Short tmp) :
    name ∈ names (moveUnmatched tmp cfg).cfg ↔ name ∈ names cfg ∨ name ∈ names tmp := by
  induction tmp generalizing cfg with
  | nil => simp only [moveUnmatched, names, List.map_nil, List.not_mem_nil, or_false]
  | cons first tmp ih =>
      have short := shortTmp first (List.mem_cons_self ..)
      unfold moveUnmatched
      rw [any_sameIfname_comm]
      split
      · rename_i matched
        have there := (any_sameIfname_iff short shortCfg).mp matched
        rw [ih shortCfg shortTmp.tail]
        change _ ↔ _ ∨ name ∈ first.ifname :: names tmp
        rw [List.mem_cons]
        constructor
        · exact fun either => either.imp_right .inr
        · rintro (listed | rfl | moved)
          · exact .inl listed
          · exact .inl there
          · exact .inr moved
      · rw [ih (shortCfg.cons short) shortTmp.tail]
        change name ∈ first.ifname :: names cfg ∨ _ ↔ _ ∨ name ∈ first.ifname :: names tmp
        rw [List.mem_cons, List.mem_cons]
        constructor
        · rintro ((rfl | listed) | moved)
          · exact .inr (.inl rfl)
          · exact .inl listed
          · exact .inr (.inr moved)
        · rintro (listed | rfl | moved)
          · exact .inl (.inr listed)
          · exact .inl (.inl rfl)
          · exact .inr moved

/-- The second loop empties `tmp` exactly if it shares no name with `cfg`. -/
theorem moveUnmatched_tmp_iff (shortCfg : Short cfg) (shortTmp : Short tmp)
    (nodup : (names tmp).Nodup) :
    (moveUnmatched tmp cfg).tmp = [] ↔ ∀ name ∈ names tmp, name ∉ names cfg := by
  induction tmp generalizing cfg with
  | nil => simp only [moveUnmatched, names, List.map_nil, List.not_mem_nil, false_implies, implies_true]
  | cons first tmp ih =>
      have short := shortTmp first (List.mem_cons_self ..)
      obtain ⟨fresh, nodup⟩ := List.nodup_cons.mp nodup
      unfold moveUnmatched
      rw [any_sameIfname_comm]
      split
      · rename_i matched
        have there := (any_sameIfname_iff short shortCfg).mp matched
        refine iff_of_false (List.cons_ne_nil _ _) fun apart => ?_
        exact apart first.ifname (List.mem_cons_self ..) there
      · rename_i unmatched
        have absent : first.ifname ∉ names cfg := fun there =>
          unmatched ((any_sameIfname_iff short shortCfg).mpr there)
        rw [ih (shortCfg.cons short) shortTmp.tail nodup]
        change (∀ name ∈ names tmp, name ∉ first.ifname :: names cfg) ↔
          ∀ name ∈ first.ifname :: names tmp, name ∉ names cfg
        constructor
        · intro apart name member
          rcases List.mem_cons.mp member with rfl | listed
          · exact absent
          · exact fun there => apart name listed (List.mem_cons_of_mem _ there)
        · intro apart name member there
          rcases List.mem_cons.mp there with rfl | listed
          · exact fresh member
          · exact apart name (List.mem_cons_of_mem _ member) listed

/-- The local users of an interface. -/
theorem matchUser_intfFilter {user : Apuser} {intf : UmIntf} (isLocal : user.isLocal = true)
    (radio : user.radioid = intf.radioid) (wlan : intf.type = .wlan → user.wlanid = intf.wlanid) :
    matchUser user (intfFilter intf) = true := by
  have unset : ¬ (-1 : Int32) ≥ 0 := by decide
  have noMac : ∀ umac mask : Mac, macmatch umac osZeromac mask = true := by
    intro umac mask
    rw [macmatch, if_neg (by decide)]
  rw [matchUser_eq_true_iff]
  cases type : intf.type with
  | radio =>
      simp only [intfFilter, type, Suits, userFilterIniter]
      exact ⟨⟨fun _ => isLocal, fun given => absurd rfl given, fun _ => radio⟩, noMac _ _, noMac _ _,
        fun set => absurd set unset⟩
  | wlan =>
      simp only [intfFilter, type, Suits, userFilterIniter]
      exact ⟨⟨fun _ => isLocal, fun given => absurd rfl given, fun _ => radio⟩, noMac _ _, noMac _ _,
        fun _ => wlan type⟩

/-- The first loop deletes the users of the interfaces it deletes. -/
theorem deleteUnmatched_users (inv : Inv umc) (shortCfg : Short cfg) (shortTmp : Short tmp) :
    Shrinks umc (deleteUnmatched tmp cfg umc).2 ∧
      ∀ intf ∈ cfg, intf.ifname ∉ names tmp → ∀ user ∈ users (deleteUnmatched tmp cfg umc).2,
        ¬ matchUser user (intfFilter intf) = true := by
  induction cfg generalizing umc with
  | nil =>
      refine ⟨Shrinks.refl inv, fun intf member => ?_⟩
      cases member
  | cons first cfg ih =>
      have here := any_sameIfname_iff (shortCfg first (List.mem_cons_self ..)) shortTmp
      unfold deleteUnmatched
      split
      · rename_i matched
        obtain ⟨shrinks, deleted⟩ := ih inv shortCfg.tail
        refine ⟨shrinks, fun intf member absent => ?_⟩
        rcases List.mem_cons.mp member with rfl | listed
        · exact absurd (here.mp matched) absent
        · exact deleted intf listed absent
      · obtain ⟨first_shrinks, unmatched⟩ := umUserDelby_spec inv (intfFilter first)
        obtain ⟨shrinks, deleted⟩ := ih first_shrinks.inv shortCfg.tail
        refine ⟨first_shrinks.trans shrinks, fun intf member absent => ?_⟩
        rcases List.mem_cons.mp member with rfl | listed
        · exact fun user left => unmatched user (shrinks.users_subset left)
        · exact deleted intf listed absent

/-- One pair of lists after the comparison, where `tmp` holds what a configuration has. -/
structure Compared (cfg tmp : List UmIntf) (umc : Umc) (result : UmUci × Umc) : Prop where
  follows : ∀ name, name ∈ names result.1.cfg ↔ name ∈ names tmp
  emptied : result.1.tmp = [] ↔ ∀ name ∈ names tmp, name ∉ names cfg
  origin : ∀ intf ∈ result.1.cfg, intf ∈ cfg ∨ intf ∈ tmp
  shrinks : Shrinks umc result.2
  deleted : ∀ intf ∈ cfg, intf.ifname ∉ names tmp → ∀ user ∈ users result.2,
    ¬ matchUser user (intfFilter intf) = true

theorem compared_intfCompare (inv : Inv umc) (shortCfg : Short cfg) (shortTmp : Short tmp)
    (nodup : (names tmp).Nodup) : Compared cfg tmp umc (intfCompare ⟨cfg, tmp⟩ umc) := by
  have kept : ∀ intf, intf ∈ (deleteUnmatched tmp cfg umc).1 ↔
      intf ∈ cfg ∧ intf.ifname ∈ names tmp := fun intf => mem_deleteUnmatched shortCfg shortTmp
  have shortKept : Short (deleteUnmatched tmp cfg umc).1 := fun intf member =>
    shortCfg intf ((kept intf).mp member).1
  obtain ⟨shrinks, deleted⟩ := deleteUnmatched_users inv shortCfg shortTmp
  refine ⟨fun name => ?_, ?_, fun intf member => ?_, shrinks, deleted⟩
  · refine (moveUnmatched_names shortKept shortTmp).trans (or_iff_right_of_imp fun listed => ?_)
    obtain ⟨intf, member, rfl⟩ := List.mem_map.mp listed
    exact ((kept intf).mp member).2
  · refine (moveUnmatched_tmp_iff shortKept shortTmp nodup).trans ?_
    refine forall₂_congr fun name member => not_congr ?_
    constructor
    · intro listed
      obtain ⟨intf, left, rfl⟩ := List.mem_map.mp listed
      exact List.mem_map.mpr ⟨intf, ((kept intf).mp left).1, rfl⟩
    · intro listed
      obtain ⟨intf, held, rfl⟩ := List.mem_map.mp listed
      exact List.mem_map.mpr ⟨intf, (kept intf).mpr ⟨held, member⟩, rfl⟩
  · rcases mem_moveUnmatched_cfg member with left | moved
    · exact .inl ((kept intf).mp left).1
    · exact .inr moved

namespace UciSection

/-- The section is not disabled. -/
def enabled (s : UciSection) : Bool := !s.disable.getD false

/-- The name of a radio. -/
def deviceName (s : UciSection) : Option CStr := if s.type = .wifiDevice then some s.name else none

/-- The name of a wlan interface, if the section gives one. -/
def ifaceName (s : UciSection) : Option CStr := if s.type = .wifiIface then s.ifname else none

end UciSection

/-- A wireless configuration: the names of its radios are distinct, those of its wlan
interfaces too, and all fit in `ifname`. -/
structure Wireless where
  sections : List UciSection
  deviceNames : (sections.filterMap UciSection.deviceName).Nodup
  ifaceNames : (sections.filterMap UciSection.ifaceName).Nodup
  short : ∀ s ∈ sections, ∀ name, s.deviceName = some name ∨ s.ifaceName = some name →
    name.bytes.length ≤ 15

namespace Wireless

/-- The names of the enabled radios. -/
def devices (config : Wireless) : List CStr :=
  (config.sections.filter UciSection.enabled).filterMap UciSection.deviceName

/-- The names of the enabled wlan interfaces. -/
def ifaces (config : Wireless) : List CStr :=
  (config.sections.filter UciSection.enabled).filterMap UciSection.ifaceName

end Wireless

/-- The interface that `load_radio` makes of a name. -/
def radioIntf (name : CStr) : UmIntf :=
  { intfCreate name with type := .radio, radioid := (scanRadio name).getD 0 }

/-- The interface that `load_wlan` makes of a name. -/
def wlanIntf (name : CStr) : UmIntf :=
  { intfCreate name with
    type := .wlan
    radioid := (scanWlan name).1
    wlanid := (scanWlan name).2 }

/-- `load_intf` puts an interface for every enabled section that has a name at the head of
`tmp`. -/
theorem loadIntf_eq {type : SectionType} {load : UciSection → List UmIntf → Int × List UmIntf}
    {named : UciSection → Option CStr} {make : CStr → UmIntf}
    (loads : ∀ s head, s.type = type →
      (load s head).2 = if s.enabled then ((named s).map make).toList ++ head else head)
    (others : ∀ s, s.type ≠ type → named s = none) (sections : List UciSection)
    (tmp : List UmIntf) :
    loadIntf sections type load tmp =
      (((sections.filter UciSection.enabled).filterMap named).map make).reverse ++ tmp := by
  unfold loadIntf
  induction sections generalizing tmp with
  | nil => rfl
  | cons s sections ih =>
      rw [List.foldl_cons, ih]
      by_cases enabled : s.enabled = true
      · rw [List.filter_cons_of_pos enabled]
        by_cases typed : s.type = type
        · rw [if_pos typed, loads s tmp typed, if_pos enabled]
          cases name : named s with
          | none =>
              rw [List.filterMap_cons_none name]
              rfl
          | some name' =>
              rw [List.filterMap_cons_some name, List.map_cons, List.reverse_cons,
                List.append_assoc]
              rfl
        · rw [if_neg typed, List.filterMap_cons_none (others s typed)]
      · rw [List.filter_cons_of_neg enabled]
        by_cases typed : s.type = type
        · rw [if_pos typed, loads s tmp typed, if_neg enabled]
        · rw [if_neg typed]

theorem loadIntf_radio (sections : List UciSection) (tmp : List UmIntf) :
    loadIntf sections .wifiDevice loadRadio tmp =
      (((sections.filter UciSection.enabled).filterMap UciSection.deviceName).map
        radioIntf).reverse ++ tmp := by
  have loads : ∀ s head, s.type = .wifiDevice → (loadRadio s head).2 =
      if s.enabled then (s.deviceName.map radioIntf).toList ++ head else head := by
    intro s head typed
    rw [UciSection.deviceName, if_pos typed, loadRadio, UciSection.enabled]
    cases s.disable.getD false with
    | true => rfl
    | false =>
        simp only [Bool.false_eq_true, ↓reduceIte, Bool.not_false, Option.map_some, radioIntf]
        cases scanRadio s.name with
        | none => rfl
        | some radioid => rfl
  exact loadIntf_eq loads (fun s typed => if_neg typed) sections tmp

theorem loadIntf_wlan (sections : List UciSection) (tmp : List UmIntf) :
    loadIntf sections .wifiIface loadWlan tmp =
      (((sections.filter UciSection.enabled).filterMap UciSection.ifaceName).map
        wlanIntf).reverse ++ tmp := by
  have loads : ∀ s head, s.type = .wifiIface → (loadWlan s head).2 =
      if s.enabled then (s.ifaceName.map wlanIntf).toList ++ head else head := by
    intro s head typed
    rw [UciSection.ifaceName, if_pos typed, loadWlan, UciSection.enabled]
    cases s.ifname with
    | none =>
        cases s.disable.getD false with
        | true => rfl
        | false => rfl
    | some ifname =>
        cases s.disable.getD false with
        | true => rfl
        | false => rfl
  exact loadIntf_eq loads (fun s typed => if_neg typed) sections tmp

/-- The names in `tmp` after a load into an empty one. -/
theorem names_reverse_map {make : CStr → UmIntf} {list : List CStr}
    (made : ∀ name ∈ list, (make name).ifname = name.bytes) :
    names (list.map make).reverse = (list.map CStr.bytes).reverse := by
  rw [names, List.map_reverse, List.map_map]
  congr 1
  exact List.map_congr_left made

theorem nodup_names {make : CStr → UmIntf} {list : List CStr} (nodup : list.Nodup)
    (made : ∀ name ∈ list, (make name).ifname = name.bytes) :
    (names (list.map make).reverse).Nodup := by
  rw [names_reverse_map made, List.nodup_reverse]
  exact nodup.map CStr.bytes_injective

theorem mem_names {make : CStr → UmIntf} {list : List CStr}
    (made : ∀ name ∈ list, (make name).ifname = name.bytes) :
    name ∈ names (list.map make).reverse ↔ name ∈ list.map CStr.bytes := by
  rw [names_reverse_map made, List.mem_reverse]

/-- A name of fifteen characters is copied whole. -/
theorem osStrlcpy_eq {name : CStr} (short : name.bytes.length ≤ 15) :
    osStrlcpy name.bytes ifnameSize = name.bytes :=
  List.take_of_length_le short

namespace Wireless

variable (config : Wireless)

theorem devices_nodup : config.devices.Nodup :=
  config.deviceNames.sublist (List.filter_sublist.filterMap _)

theorem ifaces_nodup : config.ifaces.Nodup :=
  config.ifaceNames.sublist (List.filter_sublist.filterMap _)

theorem devices_short {name : CStr} (member : name ∈ config.devices) : name.bytes.length ≤ 15 := by
  obtain ⟨s, listed, named⟩ := List.mem_filterMap.mp member
  exact config.short s (List.mem_filter.mp listed).1 name (.inl named)

theorem ifaces_short {name : CStr} (member : name ∈ config.ifaces) : name.bytes.length ≤ 15 := by
  obtain ⟨s, listed, named⟩ := List.mem_filterMap.mp member
  exact config.short s (List.mem_filter.mp listed).1 name (.inr named)

end Wireless

/-- `1 == os_sscanf(ifname, "radio%d", ..)`. -/
def WellNamed (name : CStr) : Prop := (scanRadio name).isSome = true

instance (name : CStr) : Decidable (WellNamed name) := inferInstanceAs (Decidable (_ = true))

/-- The names that `umc.uci.radio.cfg` should have. -/
def Wireless.radios (config : Wireless) : List CStr := config.devices.filter fun name => WellNamed name

/-- A load has followed the configuration: the lists have its enabled interfaces, nothing is
left in `tmp`, and no local user of an interface that is gone. -/
structure Tracks (before after : Daemon) (config : Wireless) : Prop where
  wlan : ∀ name, name ∈ names after.wlan.cfg ↔ name ∈ config.ifaces.map CStr.bytes
  radio : ∀ name, name ∈ names after.radio.cfg ↔ name ∈ config.radios.map CStr.bytes
  wlanTmp : after.wlan.tmp = []
  radioTmp : after.radio.tmp = []
  wlanUsers : ∀ intf ∈ before.wlan.cfg, intf.ifname ∉ config.ifaces.map CStr.bytes →
    ∀ user ∈ users after.umc,
      ¬ (user.isLocal = true ∧ user.radioid = intf.radioid ∧ user.wlanid = intf.wlanid)
  radioUsers : ∀ intf ∈ before.radio.cfg, intf.ifname ∉ config.radios.map CStr.bytes →
    ∀ user ∈ users after.umc, ¬ (user.isLocal = true ∧ user.radioid = intf.radioid)

/-- The lists of the daemon are those of a configuration. -/
structure Synced (daemon : Daemon) (config : Wireless) : Prop where
  inv : Inv daemon.umc
  radio : ∀ name, name ∈ names daemon.radio.cfg ↔ name ∈ config.devices.map CStr.bytes
  wlan : ∀ name, name ∈ names daemon.wlan.cfg ↔ name ∈ config.ifaces.map CStr.bytes
  radioTmp : daemon.radio.tmp = []
  wlanTmp : daemon.wlan.tmp = []
  radioType : ∀ intf ∈ daemon.radio.cfg, intf.type = .radio
  wlanType : ∀ intf ∈ daemon.wlan.cfg, intf.type = .wlan

/-- Two configurations have no enabled interface in common. -/
def Apart (first second : Wireless) : Prop :=
  (∀ name ∈ second.devices, name ∉ first.devices) ∧ ∀ name ∈ second.ifaces, name ∉ first.ifaces

/-- An interface list after a load from a configuration, and the users then. -/
theorem compared_load {make : CStr → UmIntf} {list previous : List CStr} (inv : Inv umc)
    (make_eq : ∀ name, (make name).ifname = osStrlcpy name.bytes ifnameSize)
    (nodup : list.Nodup) (short : ∀ name ∈ list, name.bytes.length ≤ 15)
    (shortBefore : ∀ name ∈ previous, name.bytes.length ≤ 15)
    (before : ∀ name, name ∈ names cfg ↔ name ∈ previous.map CStr.bytes) :
    Compared cfg (list.map make).reverse umc (intfCompare ⟨cfg, (list.map make).reverse⟩ umc) ∧
      ∀ name, name ∈ names (list.map make).reverse ↔ name ∈ list.map CStr.bytes := by
  have made : ∀ name ∈ list, (make name).ifname = name.bytes := fun name member => by
    rw [make_eq, osStrlcpy_eq (short name member)]
  have shortCfg : Short cfg := by
    intro intf member
    obtain ⟨name, listed, same⟩ :=
      List.mem_map.mp ((before intf.ifname).mp (List.mem_map.mpr ⟨intf, member, rfl⟩))
    rw [← same]
    exact Nat.lt_succ_of_le (shortBefore name listed)
  have shortTmp : Short (list.map make).reverse := by
    intro intf member
    obtain ⟨name, listed, rfl⟩ := List.mem_map.mp (List.mem_reverse.mp member)
    rw [made name listed]
    exact Nat.lt_succ_of_le (short name listed)
  exact ⟨compared_intfCompare inv shortCfg shortTmp (nodup_names nodup made),
    fun name => mem_names made⟩

theorem mem_map_bytes {name : CStr} {list : List CStr} :
    name.bytes ∈ list.map CStr.bytes ↔ name ∈ list :=
  List.mem_map_of_injective CStr.bytes_injective

/-- After a load, `tmp` is empty exactly if the configuration shares no name with the one
before. -/
theorem Compared.emptied_iff {list previous : List CStr} {result : UmUci × Umc}
    (compared : Compared cfg tmp umc result)
    (loaded : ∀ name, name ∈ names tmp ↔ name ∈ list.map CStr.bytes)
    (before : ∀ name, name ∈ names cfg ↔ name ∈ previous.map CStr.bytes) :
    result.1.tmp = [] ↔ ∀ name ∈ list, name ∉ previous := by
  rw [compared.emptied]
  constructor
  · intro apart name member shared
    exact apart name.bytes ((loaded _).mpr (mem_map_bytes.mpr member))
      ((before _).mpr (mem_map_bytes.mpr shared))
  · intro apart bytes member shared
    obtain ⟨name, listed, rfl⟩ := List.mem_map.mp ((loaded bytes).mp member)
    exact apart name listed (mem_map_bytes.mp ((before _).mp shared))

/-- What a load from where the lists are those of the previous configuration does to each
of the two pairs of lists. -/
theorem loadWireless_compared {daemon : Daemon} {previous : Wireless}
    (synced : Synced daemon previous) (config : Wireless) :
    ∃ umc middle,
      Compared daemon.radio.cfg (config.devices.map radioIntf).reverse umc
        ((loadWireless daemon config.sections).radio, middle) ∧
      Compared daemon.wlan.cfg (config.ifaces.map wlanIntf).reverse middle
        ((loadWireless daemon config.sections).wlan,
          (loadWireless daemon config.sections).umc) ∧
      (∀ name, name ∈ names (config.devices.map radioIntf).reverse ↔
        name ∈ config.devices.map CStr.bytes) ∧
      ∀ name, name ∈ names (config.ifaces.map wlanIntf).reverse ↔
        name ∈ config.ifaces.map CStr.bytes := by
  have radioTmp : loadIntf config.sections .wifiDevice loadRadio daemon.radio.tmp =
      (config.devices.map radioIntf).reverse := by
    rw [loadIntf_radio, synced.radioTmp, List.append_nil]
    rfl
  have wlanTmp : loadIntf config.sections .wifiIface loadWlan daemon.wlan.tmp =
      (config.ifaces.map wlanIntf).reverse := by
    rw [loadIntf_wlan, synced.wlanTmp, List.append_nil]
    rfl
  have inv : Inv { daemon.umc with ubus := { daemon.umc.ubus with
      b := loadBlob config.sections .wifiIface
        (loadBlob config.sections .wifiDevice daemon.umc.ubus.b) } } :=
    synced.inv.of_same rfl rfl
  obtain ⟨radio, radioLoaded⟩ := compared_load inv (fun name : CStr => (rfl :
    (radioIntf name).ifname = _)) config.devices_nodup (fun _ => config.devices_short)
    (fun _ => previous.devices_short) synced.radio
  obtain ⟨wlan, wlanLoaded⟩ := compared_load radio.shrinks.inv (fun name : CStr => (rfl :
    (wlanIntf name).ifname = _)) config.ifaces_nodup (fun _ => config.ifaces_short)
    (fun _ => previous.ifaces_short) synced.wlan
  rw [loadWireless, radioTmp, wlanTmp]
  exact ⟨_, _, radio, wlan, radioLoaded, wlanLoaded⟩

/-- A load from where the lists are those of the previous configuration follows the new one
exactly if the two have no enabled interface in common and every enabled radio is well named.
The lists are then those of the new configuration. -/
theorem load_spec {daemon : Daemon} {previous : Wireless} (synced : Synced daemon previous)
    (config : Wireless) :
    (Tracks daemon (loadWireless daemon config.sections) config ↔
      Apart previous config ∧ ∀ name ∈ config.devices, WellNamed name) ∧
    (Tracks daemon (loadWireless daemon config.sections) config →
      Synced (loadWireless daemon config.sections) config) := by
  obtain ⟨umc, middle, radio, wlan, radioLoaded, wlanLoaded⟩ :=
    loadWireless_compared synced config
  generalize loadWireless daemon config.sections = after at radio wlan ⊢
  have radioNames := fun name => (radio.follows name).trans (radioLoaded name)
  have wlanNames := fun name => (wlan.follows name).trans (wlanLoaded name)
  refine ⟨⟨fun tracks => ⟨⟨?_, ?_⟩, fun name member => ?_⟩, ?_⟩, fun tracks => ?_⟩
  · exact (radio.emptied_iff radioLoaded synced.radio).mp tracks.radioTmp
  · exact (wlan.emptied_iff wlanLoaded synced.wlan).mp tracks.wlanTmp
  · have there := (tracks.radio name.bytes).mp ((radioNames _).mpr (mem_map_bytes.mpr member))
    exact of_decide_eq_true (List.mem_filter.mp (mem_map_bytes.mp there)).2
  · rintro ⟨apart, wellNamed⟩
    have radios : config.radios = config.devices :=
      List.filter_eq_self.mpr fun name member => decide_eq_true (wellNamed name member)
    refine ⟨wlanNames, fun name => ?_, (wlan.emptied_iff wlanLoaded synced.wlan).mpr apart.2,
      (radio.emptied_iff radioLoaded synced.radio).mpr apart.1, ?_, ?_⟩
    · rw [radios]
      exact radioNames name
    · rintro intf member absent user left ⟨isLocal, radioid, wlanid⟩
      exact wlan.deleted intf member (fun there => absent ((wlanLoaded _).mp there)) user left
        (matchUser_intfFilter isLocal radioid fun _ => wlanid)
    · rintro intf member absent user left ⟨isLocal, radioid⟩
      rw [radios] at absent
      refine radio.deleted intf member (fun there => absent ((radioLoaded _).mp there)) user
        (wlan.shrinks.users_subset left) (matchUser_intfFilter isLocal radioid fun type => ?_)
      rw [synced.radioType intf member] at type
      cases type
  · refine ⟨wlan.shrinks.inv, radioNames, wlanNames, tracks.radioTmp, tracks.wlanTmp, ?_, ?_⟩
    · intro intf member
      rcases radio.origin intf member with old | new
      · exact synced.radioType intf old
      · obtain ⟨name, _, rfl⟩ := List.mem_map.mp (List.mem_reverse.mp new)
        rfl
    · intro intf member
      rcases wlan.origin intf member with old | new
      · exact synced.wlanType intf old
      · obtain ⟨name, _, rfl⟩ := List.mem_map.mp (List.mem_reverse.mp new)
        rfl

/-- A load of a configuration, or a call that changes the table of users. -/
inductive Step where
  | load (config : Wireless)
  | users (input : Call)

/-- The daemon after a step. -/
def step (daemon : Daemon) : Step → Daemon
  | .load config => loadWireless daemon config.sections
  | .users input => { daemon with umc := call daemon.umc input }

/-- The configurations that are loaded. -/
def configs (steps : List Step) : List Wireless :=
  steps.filterMap fun
    | .load config => some config
    | .users _ => none

/-- If the step is a load, it follows the configuration. -/
def Follows (daemon : Daemon) : Step → Prop
  | .load config => Tracks daemon (step daemon (.load config)) config
  | .users _ => True

theorem guarded_follows_iff {daemon : Daemon} {previous : Wireless}
    (synced : Synced daemon previous) (steps : List Step) :
    Guarded step Follows daemon steps ↔
      (previous :: configs steps).IsChain Apart ∧
        ∀ config ∈ configs steps, ∀ name ∈ config.devices, WellNamed name := by
  induction steps generalizing daemon previous with
  | nil => simp [Guarded, configs]
  | cons input steps ih =>
      cases input with
      | users input =>
          have later : Synced (step daemon (.users input)) previous :=
            { synced with inv := synced.inv.call input }
          exact (and_iff_right trivial).trans (ih later)
      | load config =>
          obtain ⟨tracks, next⟩ := load_spec synced config
          have loaded : configs (.load config :: steps) = config :: configs steps := rfl
          rw [loaded, List.isChain_cons_cons, List.forall_mem_cons]
          constructor
          · rintro ⟨here, rest⟩
            obtain ⟨apart, wellNamed⟩ := tracks.mp here
            obtain ⟨chain, others⟩ := (ih (next here)).mp rest
            exact ⟨⟨apart, chain⟩, wellNamed, others⟩
          · rintro ⟨⟨apart, chain⟩, wellNamed, others⟩
            have here := tracks.mpr ⟨apart, wellNamed⟩
            exact ⟨here, (ih (next here)).mpr ⟨chain, others⟩⟩

/-- The configuration without sections. -/
def noWireless : Wireless where
  sections := []
  deviceNames := List.nodup_nil
  ifaceNames := List.nodup_nil
  short := fun _ member => absurd member List.not_mem_nil

theorem synced_daemonInit (keys : Keys) : Synced (daemonInit keys) noWireless where
  inv := inv_umcInit keys
  radio := fun _ => Iff.rfl
  wlan := fun _ => Iff.rfl
  radioTmp := rfl
  wlanTmp := rfl
  radioType := fun _ member => absurd member List.not_mem_nil
  wlanType := fun _ member => absurd member List.not_mem_nil

/-- In a run of loads and of changes to the table of users, every load follows its
configuration if and only if no configuration has an enabled interface in common with the
one loaded before it, and every enabled radio is well named. -/
theorem reload_tracks_iff (keys : Keys) (steps : List Step) :
    Guarded step Follows (daemonInit keys) steps ↔
      (configs steps).IsChain Apart ∧
        ∀ config ∈ configs steps, ∀ name ∈ config.devices, WellNamed name := by
  rw [guarded_follows_iff (synced_daemonInit keys)]
  refine and_congr_left fun _ => ?_
  cases configs steps with
  | nil => simp
  | cons config rest =>
      rw [List.isChain_cons_cons]
      exact and_iff_right ⟨fun _ _ shared => absurd shared List.not_mem_nil,
        fun _ _ shared => absurd shared List.not_mem_nil⟩

/-- The configuration of one wlan interface, `wlan0`. -/
def oneIface : Wireless where
  sections := [⟨.wifiIface, ⟨[97], by decide⟩, none, some ⟨[119, 108, 97, 110, 48], by decide⟩⟩]
  deviceNames := by decide
  ifaceNames := by decide
  short := by
    intro s member name named
    obtain rfl := List.mem_singleton.mp member
    rcases named with device | iface
    · cases device
    · obtain rfl := Option.some.inj iface
      decide

/-- Loading one configuration twice leaves its interface in `tmp`. -/
theorem reload_same_config_fails :
    ¬ ∀ (keys : Keys) (steps : List Step), Guarded step Follows (daemonInit keys) steps := by
  intro always
  have followed := always ⟨true, true, false, true, 2⟩ [.load oneIface, .load oneIface]
  rw [guarded_follows_iff (synced_daemonInit _)] at followed
  have apart : Apart oneIface oneIface :=
    (List.isChain_cons_cons.mp (List.isChain_cons_cons.mp followed.1).2).1
  exact apart.2 ⟨[119, 108, 97, 110, 48], by decide⟩ (by decide) (by decide)

end Trunk.Um
