import Trunk.Um.Effect
import Trunk.Um.L2user

/-! # Aging

Each update of a user sets its aging to the key `timer_agtimes`, and each aging pass lowers
the aging of every local user and removes those it brings to zero. So a user stays in the
table for as many passes after its last update as the key says (`Trunk.Um.aging_exact`). The
key is an `unsigned int` and the aging an `int`: a value from `2 ^ 31` on is negative, and the
first pass removes the user (`Trunk.Um.aging_negative_agtimes`).
-/

namespace Trunk.Um

open Address Run

variable {umc : Umc} {since : Mac → Option Nat} {value : UInt32}

/-- `um_agtimes`, of the value of the key. -/
def umAgtimes (value : UInt32) : Int := value.toInt32.toInt

theorem umAgtimes_eq (small : value.toNat < 2 ^ 31) : umAgtimes value = value.toNat := by
  have same : umAgtimes value = value.toBitVec.toInt := rfl
  have bits : value.toBitVec.toNat = value.toNat := rfl
  rw [same, BitVec.toInt_eq_toNat_of_lt (by omega), bits]

/-- The calls of the timers while the key has one value: updates that leave the user local,
aging passes, and changes of the other keys. -/
def Call.Timed (value : UInt32) : Call → Prop
  | .update info change _ _ =>
      ∀ keys ubus created dst, (change.call keys ubus created dst info).1.isLocal = true
  | .aging => True
  | .configure keys => keys.agtimes = umAgtimes value
  | _ => False

/-- How many aging passes there were since the last update of each user, after a call. An
update that finds no memory is none. -/
def watch (umc : Umc) (since : Mac → Option Nat) : Call → Mac → Option Nat
  | .update info update alloc now =>
      if (umUserUpdate umc info update alloc now).1.isSome then
        Function.update since info.mac (some 0)
      else since
  | .aging => fun mac => (since mac).map (· + 1)
  | _ => since

/-- How many aging passes there were since the last update of each user, after a run. -/
def passesSince : Umc → (Mac → Option Nat) → List Call → Mac → Option Nat
  | _, since, [] => since
  | umc, since, input :: calls => passesSince (call umc input) (watch umc since input) calls

/-- The aging of every user in the table says how many passes there were since its last
update, and a user whose passes are not used up is in the table. -/
structure Aged (value : UInt32) (umc : Umc) (since : Mac → Option Nat) : Prop where
  inv : Inv umc
  keys : umc.keys.agtimes = value.toNat
  held : ∀ addr view, agingView umc addr = some view → isGoodMac view.mac = true →
    view.isLocal = true ∧ ∃ passes, since view.mac = some passes ∧ passes < value.toNat ∧
      view.aging = value.toNat - passes
  kept : ∀ mac passes, isGoodMac mac = true → since mac = some passes → passes < value.toNat →
    ∃ addr view, agingView umc addr = some view ∧ view.mac = mac

theorem aged_umcInit {keys : Keys} (agtimes : keys.agtimes = value.toNat) :
    Aged value (umcInit keys) fun _ => none where
  inv := inv_umcInit keys
  keys := agtimes
  held := by
    intro addr view held
    obtain ⟨user, listed, _⟩ := agingView_some held
    cases listed
  kept := nofun

theorem Aged.update (aged : Aged value umc since) (positive : 1 ≤ value.toNat) {info : Apuser}
    {update : UmUserUpdateF} {alloc : Option Addr} {now : UInt32}
    (isLocal : ∀ keys ubus created dst,
      (update.call keys ubus created dst info).1.isLocal = true) :
    Aged value (umUserUpdate umc info update alloc now).2
      (watch umc since (.update info update alloc now)) := by
  cases done : (umUserUpdate umc info update alloc now).1 with
  | none =>
      rw [umUserUpdate_none done]
      simpa only [watch, done, Option.isSome_none, Bool.false_eq_true, ↓reduceIte] using aged
  | some addr =>
      obtain ⟨created, before, updated⟩ := umUserUpdate_some aged.inv done
      have nextInv := aged.inv.umUserUpdate info update alloc now
      obtain ⟨node, here⟩ := updated.here
      have mac : (update.call umc.keys umc.ubus created before info).1.mac = info.mac :=
        (update.mac ..).trans updated.mac
      have place : agingView (umUserUpdate umc info update alloc now).2 addr =
          some ⟨info.mac, true, value.toNat⟩ := by
        rw [agingView_listed ((updated.listed addr).mpr (.inl rfl)) here]
        simp only [mac, isLocal, aged.keys]
      have others : ∀ other, other ≠ addr →
          agingView (umUserUpdate umc info update alloc now).2 other = agingView umc other := by
        intro other apart
        refine agingView_congr ?_ (updated.elsewhere other apart)
        rw [updated.listed other, or_iff_right apart]
      have watched : watch umc since (.update info update alloc now) =
          Function.update since info.mac (some 0) := by
        simp only [watch, done, Option.isSome_some, ↓reduceIte]
      rw [watched]
      refine ⟨nextInv, ?_, ?_, ?_⟩
      · rw [updated.keys]
        exact aged.keys
      · intro other view held good
        by_cases this : other = addr
        · subst other
          obtain rfl := Option.some.inj (place.symm.trans held)
          refine ⟨rfl, 0, Function.update_self .., positive, ?_⟩
          simp only [Nat.cast_zero, Int.sub_zero]
        · -- another user has another MAC, so its passes are the ones it had
          have different : view.mac ≠ info.mac := by
            intro same
            obtain ⟨user, listed, stored, rfl⟩ := agingView_some held
            exact this (nextInv.unique other addr user _ listed
              ((updated.listed addr).mpr (.inl rfl)) stored here good (same.trans mac.symm))
          rw [Function.update_of_ne different]
          rw [others other this] at held
          exact aged.held other view held good
      · intro other passes good counted below
        by_cases same : other = info.mac
        · exact ⟨addr, _, place, same.symm⟩
        · rw [Function.update_of_ne same] at counted
          obtain ⟨place', view, held, rfl⟩ := aged.kept other passes good counted below
          have apart : place' ≠ addr := by
            rintro rfl
            obtain ⟨user, listed, stored, rfl⟩ := agingView_some held
            cases created with
            | false =>
                obtain ⟨_, _, owner, found, named⟩ := updated.found rfl
                obtain rfl := Option.some.inj (stored.symm.trans found)
                exact same named
            | true => exact (updated.fresh rfl).1 listed
          exact ⟨place', view, (others place' apart).trans held, rfl⟩

theorem Aged.pass (aged : Aged value umc since) :
    Aged value (aging umc).2 (watch umc since .aging) := by
  have views : ∀ addr, agingView (aging umc).2 addr =
      (agingView umc addr).bind AgingView.pass := fun addr => (aging_view aged.inv addr).1
  refine ⟨aged.inv.call .aging, ?_, ?_, ?_⟩
  · rw [(aging_view aged.inv 0).2]
    exact aged.keys
  · intro addr view held good
    rw [views addr] at held
    obtain ⟨before, heldBefore, passed⟩ := Option.bind_eq_some_iff.mp held
    have sameMac : view.mac = before.mac := by
      unfold AgingView.pass at passed
      split at passed
      · split at passed
        · cases passed
        · rw [← Option.some.inj passed]
      · rw [Option.some.inj passed]
    rw [sameMac] at good ⊢
    obtain ⟨isLocal, passes, counted, below, aging⟩ := aged.held addr before heldBefore good
    simp only [AgingView.pass, isLocal, ↓reduceIte] at passed
    split at passed
    · cases passed
    · obtain rfl := Option.some.inj passed
      refine ⟨rfl, passes + 1, ?_, by omega, by simp only; omega⟩
      simp only [watch, counted, Option.map_some]
  · intro mac passes good counted below
    obtain ⟨before, countedBefore, rfl⟩ := Option.map_eq_some_iff.mp counted
    obtain ⟨addr, view, held, rfl⟩ :=
      aged.kept mac before good countedBefore ((Nat.lt_succ_self before).trans below)
    obtain ⟨isLocal, same, counted', _, left⟩ := aged.held addr view held good
    obtain rfl := Option.some.inj (countedBefore.symm.trans counted')
    refine ⟨addr, { view with aging := view.aging - 1 }, ?_, rfl⟩
    have alive : ¬ view.aging - 1 ≤ 0 := by omega
    rw [views addr, held]
    simp only [Option.bind_some, AgingView.pass, isLocal, alive, ↓reduceIte]

theorem Aged.step (aged : Aged value umc since) (positive : 1 ≤ value.toNat)
    (small : value.toNat < 2 ^ 31) {input : Call} (timed : input.Timed value) :
    Aged value (call umc input) (watch umc since input) := by
  cases input with
  | update info update alloc now => exact aged.update positive timed
  | del user => exact timed.elim
  | delbymac mac => exact timed.elim
  | delbyip ip => exact timed.elim
  | delby filter => exact timed.elim
  | aging => exact aged.pass
  | configure keys =>
      exact ⟨aged.inv.call _, (umAgtimes_eq small) ▸ timed, aged.held, aged.kept⟩

theorem Aged.run (aged : Aged value umc since) (positive : 1 ≤ value.toNat)
    (small : value.toNat < 2 ^ 31) (calls : List Call)
    (timed : ∀ input ∈ calls, input.Timed value) :
    Aged value (run call umc calls) (passesSince umc since calls) := by
  induction calls generalizing umc since with
  | nil => exact aged
  | cons input calls ih =>
      exact ih (aged.step positive small (timed input (List.mem_cons_self ..)))
        fun other member => timed other (List.mem_cons_of_mem _ member)

/-- With a key of 1 to `2 ^ 31 - 1`, after every run of updates and aging passes, a user with
a good MAC is in the table if and only if it was updated and fewer passes than the key
says came after its last update. -/
theorem aging_exact (value : UInt32) (positive : 1 ≤ value.toNat) (small : value.toNat < 2 ^ 31)
    (keys : Keys) (agtimes : keys.agtimes = umAgtimes value) (calls : List Call)
    (timed : ∀ input ∈ calls, input.Timed value) (mac : Mac) (good : isGoodMac mac = true) :
    (∃ user ∈ users (run call (umcInit keys) calls), user.mac = mac) ↔
      ∃ passes, passesSince (umcInit keys) (fun _ => none) calls mac = some passes ∧
        passes < value.toNat := by
  have aged := (aged_umcInit (agtimes.trans (umAgtimes_eq small))).run positive small calls timed
  constructor
  · rintro ⟨user, member, rfl⟩
    obtain ⟨addr, listed, found⟩ := mem_users.mp member
    obtain ⟨_, passes, counted, below, _⟩ :=
      aged.held addr _ (agingView_listed listed found) good
    exact ⟨passes, counted, below⟩
  · rintro ⟨passes, counted, below⟩
    obtain ⟨addr, view, held, rfl⟩ := aged.kept mac passes good counted below
    obtain ⟨user, listed, found, rfl⟩ := agingView_some held
    exact ⟨user, mem_users.mpr ⟨addr, listed, found⟩, rfl⟩

/-- A local user with the MAC `00:00:00:00:00:01`. -/
def localUser : Apuser := { umUserInit true with mac := ⟨[0, 0, 0, 0, 0, 1], rfl⟩ }

/-- With the key at 2, a user that is updated again before the second pass stays. -/
theorem aging_exact_two :
    (∃ user ∈ users (run call (umcInit ⟨true, true, false, true, umAgtimes 2⟩)
        [.update localUser (l2userUpdate 0) (some 0) 0, .aging,
          .update localUser (l2userUpdate 5) (some 1) 5, .aging]), user.mac = localUser.mac) ↔
      ∃ passes, passesSince (umcInit ⟨true, true, false, true, umAgtimes 2⟩) (fun _ => none)
        [.update localUser (l2userUpdate 0) (some 0) 0, .aging,
          .update localUser (l2userUpdate 5) (some 1) 5, .aging] localUser.mac = some passes ∧
        passes < 2 := by
  refine aging_exact 2 (by decide) (by decide) _ rfl _ ?_ _ (by decide)
  intro input member
  simp only [List.mem_cons, List.not_mem_nil, or_false] at member
  rcases member with rfl | rfl | rfl | rfl
  · exact fun _ _ _ _ => l2userUpdate_isLocal ..
  · trivial
  · exact fun _ _ _ _ => l2userUpdate_isLocal ..
  · trivial

/-- With the key at `2 ^ 32 - 1` the first pass after an update removes the user. -/
theorem aging_negative_agtimes :
    ¬ ((∃ user ∈ users (run call (umcInit ⟨true, true, false, true, umAgtimes 4294967295⟩)
        [.update localUser (l2userUpdate 0) (some 0) 0, .aging]), user.mac = localUser.mac) ↔
      ∃ passes, passesSince (umcInit ⟨true, true, false, true, umAgtimes 4294967295⟩)
        (fun _ => none) [.update localUser (l2userUpdate 0) (some 0) 0, .aging] localUser.mac =
          some passes ∧ passes < (4294967295 : UInt32).toNat) := by
  have gone : users (run call (umcInit ⟨true, true, false, true, umAgtimes 4294967295⟩)
      [.update localUser (l2userUpdate 0) (some 0) 0, .aging]) = [] := by decide
  have counted : passesSince (umcInit ⟨true, true, false, true, umAgtimes 4294967295⟩)
      (fun _ => none) [.update localUser (l2userUpdate 0) (some 0) 0, .aging] localUser.mac =
        some 1 := by decide
  intro same
  obtain ⟨user, member, _⟩ := same.mpr ⟨1, counted, by decide⟩
  rw [gone] at member
  cases member

end Trunk.Um
