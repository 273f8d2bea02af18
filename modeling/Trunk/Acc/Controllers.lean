import Trunk.Foundation.Run
import Trunk.Utils.CString

/-! # The controllers of the shutdown

The model of the `create` call of `acc_monitor.c`: who may veto the shutdown, as a list of names in
an array of three and as a mask of bits. The call fills the array from its front and never empties
the rest, so what it leaves is the list of the message exactly if the message fits what was there
(`Trunk.Acc.throughout_iff`).

A pointer to a string of a message is the string: its memory is taken to stay as it was received.
-/

namespace Trunk.Acc

open CString

/-- `__CTRL_MAX`. -/
def ctrlMax : Nat := 3

/-- `SWITCH_ON` and `SWITCH_OFF`. -/
def switchOn : UInt32 := 0

def switchOff : UInt32 := 1

/-- The members of `struct acc_struct` that the call uses, and `controll_flag`. -/
structure AccStruct where
  timer : UInt32
  trigger : UInt32
  controller : Vector (Option CStr) ctrlMax
  controllFlag : UInt32
  deriving DecidableEq

/-- `default_config_init`, with the initial `controll_flag`. -/
def defaultConfigInit : AccStruct where
  timer := 60
  trigger := switchOn
  controller := Vector.replicate ctrlMax none
  controllFlag := 0

/-- The name that empties the list. -/
def noneName : CStr := ⟨['n', 'o', 'n', 'e'].map ascii, by decide⟩

/-- The names with a bit of their own. -/
def sysupgradeName : CStr :=
  ⟨['s', 'y', 's', 'u', 'p', 'g', 'r', 'a', 'd', 'e'].map ascii, by decide⟩

def downloadName : CStr := ⟨['d', 'o', 'w', 'n', 'l', 'o', 'a', 'd'].map ascii, by decide⟩

/-- The bit of a name: `__SYSUPGRADE_CTRL`, `__DOWNLOAD_CTRL` or `__ELSE_CTRL`. -/
def ctrlBit (str : CStr) : UInt32 :=
  if str = sysupgradeName then (1 : UInt32) <<< 0
  else if str = downloadName then (1 : UInt32) <<< 1
  else (1 : UInt32) <<< 2

/-- `set_controll_flag`. -/
def setControllFlag (flag : UInt32) (str : CStr) : UInt32 :=
  if str = noneName then 0 else flag ||| ctrlBit str

/-- The loop of `acc_create_func` over the attributes of the array, with the index `i`. An attribute
that is no string ends it. There is no result if it stores behind the array. -/
def eachController : List (Option CStr) → Nat → AccStruct → Option AccStruct
  | [], _, acc => some acc
  | none :: _, _, acc => some acc
  | some str :: rest, i, acc =>
      let acc := { acc with controllFlag := setControllFlag (if i = 0 then 0 else acc.controllFlag) str }
      if str ≠ noneName then
        if inside : i < ctrlMax then
          eachController rest (i + 1) { acc with controller := acc.controller.set i (some str) }
        else none
      else some { acc with controller := Vector.replicate ctrlMax none }

/-- A message: `CREATE_DELAYTIME` and `CREATE_CONTROLER`. -/
structure CreateMsg where
  timer : Option UInt32
  controller : Option (List (Option CStr))

/-- `acc_create_func`. -/
def accCreateFunc (acc : AccStruct) (msg : CreateMsg) : Option (Int × AccStruct) :=
  if msg.timer.isSome = true ∧ acc.trigger = switchOff then some (-1, acc)
  else
    let acc := { acc with timer := msg.timer.getD acc.timer }
    match msg.controller with
    | none => some (0, acc)
    | some list => (eachController list 0 acc).map fun acc => (0, acc)

/-- The list that `acc_status` reports. -/
def accStatus (acc : AccStruct) : List CStr := acc.controller.toList.filterMap id

/-- A message whose controllers, if it has some, are strings; or a turn of the ignition switch. -/
inductive Event where
  | create (timer : Option UInt32) (controller : Option (List CStr))
  | switch (trigger : UInt32)

/-- What an event answers, and what it leaves. -/
def turn (acc : AccStruct) : Event → Option (Int × AccStruct)
  | .create timer controller => accCreateFunc acc ⟨timer, controller.map (List.map some)⟩
  | .switch trigger => some (0, { acc with trigger := trigger })

/-- What a list of controllers says: nobody, if it names `none`. -/
def askedList (list : List CStr) : List CStr := if noneName ∈ list then [] else list

/-- The bits of a list of controllers. -/
def askedFlag (list : List CStr) : UInt32 :=
  if noneName ∈ list then 0 else list.foldl (fun flag str => flag ||| ctrlBit str) 0

/-- After a message with controllers, they are what is reported, and their bits are set. -/
def Reports (_ : AccStruct) (event : Event) (_ : Int) (next : AccStruct) : Prop :=
  match event with
  | .create _ (some list) => accStatus next = askedList list ∧ next.controllFlag = askedFlag list
  | _ => True

/-- A message that fits what was there: one that is refused asks for what is there, one with `none`
has at most three names before it, and any other has at most three names, and there are none behind
them in the array. -/
def Fits (acc : AccStruct) (event : Event) : Prop :=
  match event with
  | .create timer (some list) =>
      if timer.isSome = true ∧ acc.trigger = switchOff then
        accStatus acc = askedList list ∧ acc.controllFlag = askedFlag list
      else if noneName ∈ list then (list.takeWhile fun str => str ≠ noneName).length ≤ ctrlMax
      else list.length ≤ ctrlMax ∧ (∀ slot ∈ acc.controller.toList.drop list.length, slot = none) ∧
        (list = [] → acc.controllFlag = 0)
  | _ => True

variable {acc : AccStruct}

/-- Names that fit behind an index stand there, and their bits are added. -/
theorem eachController_names {list : List CStr} (names : noneName ∉ list)
    (rest : List (Option CStr)) (i : Nat) (acc : AccStruct) (fits : i + list.length ≤ ctrlMax) :
    ∃ flag controller, eachController (list.map some ++ rest) i acc =
        eachController rest (i + list.length)
          { acc with controllFlag := flag, controller := controller } ∧
      controller.toList = acc.controller.toList.take i ++ list.map some ++
        acc.controller.toList.drop (i + list.length) ∧
      flag = if list = [] then acc.controllFlag else
        list.foldl (fun flag str => flag ||| ctrlBit str) (if i = 0 then 0 else acc.controllFlag) := by
  induction list generalizing i acc with
  | nil =>
      refine ⟨acc.controllFlag, acc.controller, rfl, ?_, (if_pos rfl).symm⟩
      rw [List.length_nil, Nat.add_zero, List.map_nil, List.append_nil, List.take_append_drop]
  | cons str list ih =>
      obtain ⟨other, names⟩ := not_or.mp (List.mem_cons.not.mp names)
      rw [List.length_cons] at fits
      have inside : i < ctrlMax := by omega
      obtain ⟨flag, controller, looped, slots, bitsSet⟩ := ih names (i + 1)
        { acc with
          controllFlag := setControllFlag (if i = 0 then 0 else acc.controllFlag) str
          controller := acc.controller.set i (some str) } (by omega)
      have length : i < acc.controller.toList.length := by rwa [Vector.length_toList]
      refine ⟨flag, controller, ?_, ?_, ?_⟩
      · rw [List.map_cons, List.cons_append, eachController]
        dsimp only
        rw [if_pos (Ne.symm other), dif_pos inside, looped, List.length_cons, Nat.add_right_comm,
          Nat.add_assoc]
      · dsimp only at slots
        rw [slots, Vector.toList_set, List.map_cons, List.length_cons]
        have front : (acc.controller.toList.set i (some str)).take (i + 1) =
            acc.controller.toList.take i ++ [some str] := by
          rw [List.take_succ_eq_append_getElem (by rwa [List.length_set]),
            List.take_set_of_le (Nat.le_refl i), List.getElem_set_self]
        have back : (acc.controller.toList.set i (some str)).drop (i + 1 + list.length) =
            acc.controller.toList.drop (i + (list.length + 1)) := by
          rw [List.drop_set_of_lt (by omega), Nat.add_assoc, Nat.add_comm 1]
        rw [front, back, List.append_assoc, List.append_assoc, List.append_assoc]
        rfl
      · have bits : setControllFlag (if i = 0 then 0 else acc.controllFlag) str =
            (if i = 0 then 0 else acc.controllFlag) ||| ctrlBit str := if_neg (Ne.symm other)
        rw [bitsSet, if_neg (List.cons_ne_nil _ _), List.foldl_cons]
        dsimp only
        rw [bits, if_neg (Nat.succ_ne_zero i)]
        split
        · rename_i last
          rw [last]
          rfl
        · rfl

/-- More names than fit are stored behind the array. -/
theorem eachController_overrun {list : List CStr} (names : noneName ∉ list)
    (rest : List (Option CStr)) (i : Nat) (acc : AccStruct) (start : i ≤ ctrlMax)
    (overruns : ctrlMax < i + list.length) :
    eachController (list.map some ++ rest) i acc = none := by
  induction list generalizing i acc with
  | nil =>
      rw [List.length_nil] at overruns
      omega
  | cons str list ih =>
      obtain ⟨other, names⟩ := not_or.mp (List.mem_cons.not.mp names)
      rw [List.length_cons] at overruns
      rw [List.map_cons, List.cons_append, eachController]
      dsimp only
      rw [if_pos (Ne.symm other)]
      split
      · rename_i inside
        exact ih names (i + 1) _ inside (by omega)
      · rfl

/-- The name that empties the list ends the loop. -/
theorem eachController_none (rest : List (Option CStr)) (i : Nat) (acc : AccStruct) :
    eachController (some noneName :: rest) i acc =
      some { acc with controllFlag := 0, controller := Vector.replicate ctrlMax none } := by
  rw [eachController]
  dsimp only
  rw [if_neg (not_not.mpr rfl)]
  rfl

/-- The loop over a list that names `none`. -/
theorem eachController_mem {list : List CStr} (named : noneName ∈ list) (acc : AccStruct) :
    eachController (list.map some) 0 acc =
      if (list.takeWhile fun str => str ≠ noneName).length ≤ ctrlMax then
        some { acc with controllFlag := 0, controller := Vector.replicate ctrlMax none }
      else none := by
  obtain ⟨front, back, rfl, first⟩ := List.eq_append_cons_of_mem named
  have front_ : (front ++ noneName :: back).takeWhile (fun str => str ≠ noneName) = front := by
    have names : ∀ str ∈ front, decide (str ≠ noneName) = true := by
      intro str member
      rw [decide_eq_true_eq]
      rintro rfl
      exact first member
    rw [List.takeWhile_append_of_pos names]
    simp
  rw [front_, List.map_append, List.map_cons]
  split
  · rename_i fits
    obtain ⟨flag, controller, looped, -⟩ :=
      eachController_names first (some noneName :: back.map some) 0 acc (by rwa [Nat.zero_add])
    rw [looped, eachController_none]
  · rename_i overruns
    exact eachController_overrun first _ 0 acc (Nat.zero_le _) (by omega)

/-- The loop over a list that does not name `none`: what is reported and which bits are set. -/
theorem eachController_notMem {list : List CStr} (names : noneName ∉ list) (acc : AccStruct)
    (fits : list.length ≤ ctrlMax) :
    ∃ next, eachController (list.map some) 0 acc = some next ∧
      accStatus next = list ++ (acc.controller.toList.drop list.length).filterMap id ∧
      next.controllFlag = if list = [] then acc.controllFlag else askedFlag list := by
  obtain ⟨flag, controller, looped, slots, bitsSet⟩ :=
    eachController_names names [] 0 acc (by rwa [Nat.zero_add])
  rw [List.append_nil] at looped
  refine ⟨_, looped, ?_, ?_⟩
  · rw [accStatus, slots, List.take_zero, List.nil_append, List.filterMap_append,
      List.filterMap_map, Nat.zero_add]
    congr 1
    exact List.filterMap_some
  · rw [askedFlag, if_neg names]
    exact bitsSet

/-- A message is answered, and its controllers are what is reported then, exactly if it fits. -/
theorem turn_reports_iff (acc : AccStruct) (event : Event) :
    (∃ ret next, turn acc event = some (ret, next) ∧ Reports acc event ret next) ↔
      Fits acc event := by
  cases event with
  | switch trigger => exact iff_of_true ⟨0, _, rfl, trivial⟩ trivial
  | create timer controller =>
      cases controller with
      | none =>
          refine iff_of_true ?_ trivial
          rw [turn, accCreateFunc]
          split
          · exact ⟨-1, acc, rfl, trivial⟩
          · exact ⟨0, _, rfl, trivial⟩
      | some list =>
          rw [turn, accCreateFunc, Fits]
          by_cases refused : timer.isSome = true ∧ acc.trigger = switchOff
          · rw [if_pos refused, if_pos refused]
            constructor
            · rintro ⟨ret, next, answered, reports⟩
              obtain ⟨-, rfl⟩ := Prod.mk.inj (Option.some.inj answered)
              exact reports
            · exact fun reports => ⟨-1, acc, rfl, reports⟩
          rw [if_neg refused, if_neg refused]
          dsimp only [Option.map_some]
          by_cases named : noneName ∈ list
          · rw [eachController_mem named, if_pos named]
            split
            · rename_i fits
              refine iff_of_true ⟨0, _, rfl, ?_⟩ fits
              rw [Reports, askedList, askedFlag, if_pos named, if_pos named]
              exact ⟨rfl, rfl⟩
            · rename_i overruns
              refine iff_of_false ?_ overruns
              rintro ⟨ret, next, answered, -⟩
              cases answered
          rw [if_neg named]
          rcases Nat.lt_or_ge ctrlMax list.length with overruns | fits
          · have looped := eachController_overrun named []
              0 { acc with timer := timer.getD acc.timer } (Nat.zero_le _) (by omega)
            rw [List.append_nil] at looped
            refine iff_of_false ?_ (fun right => absurd right.1 (Nat.not_le.mpr overruns))
            rintro ⟨ret, next, answered, -⟩
            rw [looped] at answered
            cases answered
          obtain ⟨next, looped, status, flag⟩ :=
            eachController_notMem named { acc with timer := timer.getD acc.timer } fits
          have empty : (acc.controller.toList.drop list.length).filterMap id = [] ↔
              ∀ slot ∈ acc.controller.toList.drop list.length, slot = none :=
            List.filterMap_eq_nil_iff
          have asked : askedList list = list := if_neg named
          have exact : Reports acc (.create timer (some list)) 0 next ↔
              (∀ slot ∈ acc.controller.toList.drop list.length, slot = none) ∧
                (list = [] → acc.controllFlag = 0) := by
            rw [Reports, status, flag, asked, List.append_right_eq_self, empty]
            refine and_congr_right fun _ => ?_
            by_cases none_ : list = []
            · subst none_
              rw [if_pos rfl]
              exact ⟨fun zero _ => zero, fun zero => zero rfl⟩
            · rw [if_neg none_]
              exact iff_of_true rfl (fun nothing => absurd nothing none_)
          rw [looped, ← exact]
          constructor
          · rintro ⟨ret, other, answered, reports⟩
            obtain ⟨-, rfl⟩ := Prod.mk.inj (Option.some.inj answered)
            exact ⟨fits, reports⟩
          · rintro ⟨-, reports⟩
            exact ⟨0, next, rfl, reports⟩

end Trunk.Acc
