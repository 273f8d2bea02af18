import Trunk.Um.Ubus
import Trunk.Utils.MacText

/-! # The texts of a getuser request

The handler of getuser passes the texts of the attributes mac, macmask, ap and apmask to
`os_getmac_bystring` as the client sent them. It ends the daemon exactly where one of the
texts it reads does not name an address (`Trunk.Um.getuser_survives_iff`).
-/

namespace Trunk.Um

open CString Address

variable {umc : Umc} {filter : UserFilter} {attr : GetuserAttr} {inetAddr : CStr → UInt32}

/-- The texts that a filter for an address and its mask is set from. -/
def maskedTexts (address mask : Option CStr) : List CStr :=
  match address with
  | none => []
  | some text => text :: mask.toList

/-- The texts of a request that `os_getmac_bystring` is called on. A mask is read with its
address only. -/
def GetuserAttr.parsed (attr : GetuserAttr) : List CStr :=
  maskedTexts attr.mac attr.macmask ++ maskedTexts attr.ap attr.apmask

theorem setmask_isSome (mask : Option CStr) (kept : Mac) :
    (setmask mask kept).isSome ↔ ∀ text ∈ mask.toList, (osGetmacBystring text).isSome := by
  cases mask with
  | none => exact ⟨nofun, fun _ => rfl⟩
  | some text => simp only [setmask, Option.toList_some, List.forall_mem_singleton]

theorem setfilterAp_isSome (filter : UserFilter) (attr : GetuserAttr) :
    (setfilterAp filter attr).isSome ↔
      ∀ text ∈ maskedTexts attr.ap attr.apmask, (osGetmacBystring text).isSome := by
  unfold setfilterAp maskedTexts
  cases attr.ap with
  | none => exact ⟨nofun, fun _ => rfl⟩
  | some text =>
      rw [List.forall_mem_cons, ← setmask_isSome attr.apmask filter.apmask]
      dsimp only
      cases osGetmacBystring text with
      | none => exact ⟨nofun, nofun⟩
      | some ap =>
          cases setmask attr.apmask filter.apmask with
          | none => exact ⟨nofun, nofun⟩
          | some apmask => exact ⟨fun _ => ⟨rfl, rfl⟩, fun _ => rfl⟩

/-- The filter is set, or the user of the only address is pushed, where the texts of mac and
macmask are read. -/
theorem setfilterMac_isSome (umc : Umc) (filter : UserFilter) (attr : GetuserAttr) :
    (setfilterMac umc filter attr).isSome ↔
      ∀ text ∈ maskedTexts attr.mac attr.macmask, (osGetmacBystring text).isSome := by
  unfold setfilterMac
  cases address : attr.mac with
  | none => exact ⟨nofun, fun _ => rfl⟩
  | some text =>
      rw [maskedTexts, List.forall_mem_cons, ← setmask_isSome attr.macmask filter.macmask]
      dsimp only
      cases osGetmacBystring text with
      | none => exact ⟨nofun, nofun⟩
      | some mac =>
          simp only [Option.bind_eq_bind, Option.bind_some]
          by_cases only : attr = { mac := some text }
          · rw [if_pos only, only]
            exact ⟨fun _ => ⟨rfl, rfl⟩, fun _ => rfl⟩
          · rw [if_neg only]
            cases setmask attr.macmask filter.macmask with
            | none => exact ⟨nofun, nofun⟩
            | some macmask => exact ⟨fun _ => ⟨rfl, rfl⟩, fun _ => rfl⟩

/-- A user was pushed from the only address: the request has no ap. -/
theorem setfilterMac_pushed {b : Blob} {set : UserFilter}
    (pushed : setfilterMac umc filter attr = some (some b, set)) :
    maskedTexts attr.ap attr.apmask = [] := by
  unfold setfilterMac at pushed
  split at pushed
  · cases pushed
  · rename_i text address
    simp only [Option.bind_eq_bind, Option.bind_eq_some_iff] at pushed
    obtain ⟨mac, -, pushed⟩ := pushed
    split at pushed
    · rename_i only
      rw [only]
      rfl
    · obtain ⟨macmask, -, returned⟩ := Option.bind_eq_some_iff.mp pushed
      cases returned

/-- A user was pushed from the only IP address: the request has no other attribute. -/
theorem setfilterIp_pushed {b : Blob} {set : UserFilter}
    (pushed : setfilterIp inetAddr umc filter attr = (some b, set)) : attr.parsed = [] := by
  unfold setfilterIp at pushed
  split at pushed
  · cases pushed
  · dsimp only at pushed
    split at pushed
    · rename_i only
      rw [only]
      rfl
    · cases pushed

/-- The handler returns where the asserts hold on every text it reads. -/
theorem umUbusHandleGetuser_isSome :
    (umUbusHandleGetuser inetAddr umc attr).isSome ↔
      ∀ text ∈ attr.parsed, (osGetmacBystring text).isSome := by
  unfold umUbusHandleGetuser
  by_cases empty : attr = {}
  · rw [if_pos empty, empty]
    exact ⟨nofun, fun _ => rfl⟩
  · rw [if_neg empty]
    split
    · rename_i pushed
      rw [setfilterIp_pushed pushed]
      exact ⟨nofun, fun _ => rfl⟩
    · rename_i ipSet _
      rw [GetuserAttr.parsed, List.forall_mem_append, ← setfilterMac_isSome umc ipSet attr]
      cases byMac : setfilterMac umc ipSet attr with
      | none => exact ⟨nofun, nofun⟩
      | some result =>
          obtain ⟨pushed | pushed, macSet⟩ := result
          · rw [← setfilterAp_isSome macSet attr]
            simp only [Option.bind_eq_bind, Option.bind_some]
            cases byAp : setfilterAp macSet attr with
            | none => exact ⟨nofun, nofun⟩
            | some set => exact ⟨fun _ => ⟨rfl, rfl⟩, fun _ => rfl⟩
          · rw [setfilterMac_pushed byMac]
            exact ⟨fun _ => ⟨rfl, nofun⟩, fun _ => rfl⟩

/-- A request does not end the daemon exactly where every text that the handler reads names an
address. No byte past the terminator is read on any text, and what `os_macsnprintf` writes
for an address is read back, with any separator that `%c` does not write as a NUL. -/
theorem getuser_survives_iff (inetAddr : CStr → UInt32) (umc : Umc) (attr : GetuserAttr) :
    (((umUbusHandleGetuser inetAddr umc attr).isSome ∧
        ∀ text ∈ attr.parsed, ∃ mac, readMac text = .ok mac) ↔
      ∀ text ∈ attr.parsed, MacText text) ∧
    (∀ text, readMac text ≠ .error .overrun) ∧
    ∀ (mac : Mac) (len : Nat) (sep : Int), (macWritten mac sep).length < len →
      sep = 0 ∨ UInt8.ofInt sep ≠ 0 → readMac (osMacsnprintf mac len sep) = .ok mac := by
  refine ⟨?_, readMac_ne_overrun, fun mac len sep => readMac_osMacsnprintf mac⟩
  rw [umUbusHandleGetuser_isSome]
  simp only [osGetmacBystring_isSome, readMac_ok_iff, and_self]

/-- The text `00:00:00:00:00:01` is read. -/
theorem getuser_survives_colon :
    (umUbusHandleGetuser (fun _ => 0) (umcInit ⟨true, true, true, true, 1⟩)
      { mac := some (osMacsnprintf ⟨[0, 0, 0, 0, 0, 1], rfl⟩ 18 58) }).isSome ∧
    readMac (osMacsnprintf ⟨[0, 0, 0, 0, 0, 1], rfl⟩ 18 58) = .ok ⟨[0, 0, 0, 0, 0, 1], rfl⟩ := by
  refine ⟨(((getuser_survives_iff _ _ _).1).mpr ?_).1,
    (getuser_survives_iff (fun _ => 0) (umcInit ⟨true, true, true, true, 1⟩) {}).2.2 _ _ _
      (by decide) (.inr (by decide))⟩
  intro text listed
  obtain rfl := List.mem_singleton.mp listed
  refine .inl ⟨by decide, ?_⟩
  simp only [HexPair, ← List.all_eq_true]
  decide

/-- The client sends the text `x`. -/
theorem getuser_aborts :
    ¬ (umUbusHandleGetuser (fun _ => 0) (umcInit ⟨true, true, true, true, 1⟩)
      { mac := some ⟨[ascii 'x'], by decide⟩ }).isSome ∧
    readMac ⟨[ascii 'x'], by decide⟩ = .error .assert := by
  refine ⟨?_, rfl⟩
  rw [umUbusHandleGetuser_isSome]
  intro read
  have failed := read ⟨[ascii 'x'], by decide⟩ (List.mem_singleton.mpr rfl)
  exact absurd failed (by decide)

end Trunk.Um
