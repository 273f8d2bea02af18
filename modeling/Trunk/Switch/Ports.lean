import Mathlib.Data.FinEnum
import Trunk.Foundation.Loop
import Trunk.Foundation.Memory
import Trunk.Foundation.Network
import Trunk.Foundation.Words
import Trunk.Utils.CString

/-! # Port lists of switches

The model of what `swlib.c` does with a list of ports: `swlib_set_attr_string` reads it from a text,
`send_attr_ports` puts it into a message and `store_port_val` takes it out of one. A pointer into the
text is what is left of it, without the NUL. The array of ports has the size it is allocated with, and
an access outside it is a fault. Attributes are trees, which libnl nests and reads.
-/

namespace Trunk.Switch

open CString Loop Memory Network Words

/-- `struct switch_port`. -/
structure SwitchPort where
  id : UInt32
  flags : UInt32
  deriving DecidableEq, Repr

/-- `SWLIB_PORT_FLAG_TAGGED`. -/
def swlibPortFlagTagged : UInt32 := 1

/-- The length and the ports of a `struct switch_val`. -/
structure SwitchVal where
  ports : List SwitchPort
  len : Nat
  deriving DecidableEq, Repr

/-- The one fault: an access outside the ports. -/
inductive Fault where
  | outside
  deriving DecidableEq, Repr

/-- A port is written. -/
def writePort (ports : List SwitchPort) (index : Nat) (port : SwitchPort) :
    Except Fault (List SwitchPort) :=
  match store ports index [port] with
  | some ports => .ok ports
  | none => .error .outside

/-! ## Reading a text -/

/-- `isdigit`. -/
def isDigit (byte : UInt8) : Bool := ascii '0' ≤ byte && byte ≤ ascii '9'

/-- The loop over what follows the number of a port. -/
def readFlags (flags : UInt32) : List UInt8 → Option (UInt32 × List UInt8)
  | [] => some (flags, [])
  | byte :: rest =>
      if isSpace byte then some (flags, byte :: rest)
      else if byte = ascii 't' then readFlags (flags ||| swlibPortFlagTagged) rest
      else none

/-- The variables of the loop over a text. -/
structure Reader where
  ptr : List UInt8
  val : SwitchVal
  deriving DecidableEq, Repr

variable (width devPorts : Nat)

/-- A round of the loop over a text. It ends with the value, or with an error. -/
def portRound (reader : Reader) : Except Fault (Round Reader (Option SwitchVal)) :=
  match reader.ptr.dropWhile isSpace with
  | [] => .ok (.done (some reader.val))
  | byte :: rest =>
      if !isDigit byte then .ok (.done none)
      else if devPorts ≤ reader.val.len then .ok (.done none)
      else do
        let id := UInt32.ofNat (strtoulDecimalFront width (byte :: rest))
        let ports ← writePort reader.val.ports reader.val.len { id, flags := 0 }
        match readFlags 0 ((byte :: rest).dropWhile isDigit) with
        | none => return .done none
        | some (flags, rest) =>
            let ports ← writePort ports reader.val.len { id, flags }
            return .again { ptr := rest.tail, val := { ports, len := reader.val.len + 1 } }

/-- `swlib_set_attr_string`, of a list of ports: the value that `swlib_set_attr` is called with, if
there is no error before. -/
def setAttrStringPorts (str : CStr) : Except Fault (Option SwitchVal) :=
  loop (portRound width devPorts) (fun reader => reader.ptr.length + 1) .outside
    { ptr := str.bytes, val := { ports := List.replicate devPorts ⟨0, 0⟩, len := 0 } }

/-! ## Attributes -/

/-- An attribute with bytes. -/
structure Nlattr where
  type : Nat
  payload : List UInt8
  deriving DecidableEq, Repr

/-- An attribute with attributes in it. -/
structure Nested (α : Type) where
  type : Nat
  children : List α
  deriving DecidableEq, Repr

/-- `SWITCH_ATTR_OP_VALUE_PORTS`. -/
def switchAttrOpValuePorts : Nat := 17

/-- `SWITCH_ATTR_PORT`. -/
def switchAttrPort : Nat := 19

/-- `SWITCH_PORT_ID`. -/
def switchPortId : Nat := 1

/-- `SWITCH_PORT_FLAG_TAGGED`. -/
def switchPortFlagTagged : Nat := 2

/-- `NLA_PUT_U32`. The order of the bytes is the same for the sender and the receiver. -/
def putU32 (type : Nat) (value : UInt32) : Nlattr := ⟨type, bytes 4 value.toNat⟩

/-- `nla_get_u32`. -/
def nlaGetU32 (nla : Nlattr) : UInt32 := UInt32.ofNat (number (nla.payload.take 4))

/-- `NLA_PUT_FLAG`. -/
def putFlag (type : Nat) : Nlattr := ⟨type, []⟩

/-- The attribute of a port. -/
def portAttr (port : SwitchPort) : Nested Nlattr where
  type := switchAttrPort
  children := putU32 switchPortId port.id ::
    if port.flags &&& swlibPortFlagTagged ≠ 0 then [putFlag switchPortFlagTagged] else []

/-- `send_attr_ports`: the attributes it adds to a message. -/
def sendAttrPorts (val : SwitchVal) : Except Fault (List (Nested (Nested Nlattr))) :=
  if val.len = 0 then .ok []
  else
    match load val.ports 0 val.len with
    | some ports => .ok [⟨switchAttrOpValuePorts, ports.map portAttr⟩]
    | none => .error .outside

/-- The attributes that `nla_parse_nested` has found, by their types. -/
structure PortTable where
  id : Option Nlattr := none
  tagged : Option Nlattr := none
  deriving DecidableEq, Repr

/-- `nla_parse_nested`, under the policy of a port: the identifier has four bytes at least, and a flag
has none. The last attribute of a type counts. -/
def nlaParsePort (tb : PortTable) : List Nlattr → Option PortTable
  | [] => some tb
  | nla :: rest =>
      if nla.type = switchPortId then
        if nla.payload.length < 4 then none else nlaParsePort { tb with id := some nla } rest
      else if nla.type = switchPortFlagTagged then
        if 0 < nla.payload.length then none else nlaParsePort { tb with tagged := some nla } rest
      else nlaParsePort tb rest

/-- `-NLE_RANGE`. -/
def nleRange : Int := -8

/-- The loop of `store_port_val` over the attributes of the ports, with the result so far. -/
def storePorts (err : Int) : List (Nested Nlattr) → SwitchVal → Except Fault (Int × SwitchVal)
  | [], val => .ok (err, val)
  | p :: rest, val =>
      if devPorts ≤ val.len then .ok (err, val)
      else
        match nlaParsePort {} p.children with
        | none => .ok (nleRange, val)
        | some tb =>
            match tb.id with
            | none => storePorts 0 rest val
            | some id => do
                let flags := if tb.tagged.isSome then swlibPortFlagTagged else 0
                let ports ← writePort val.ports val.len { id := nlaGetU32 id, flags }
                storePorts 0 rest { ports, len := val.len + 1 }

/-- `store_port_val`, where the ports are allocated. -/
def storePortVal (nla : Nested (Nested Nlattr)) (val : SwitchVal) :
    Except Fault (Int × SwitchVal) :=
  storePorts devPorts 0 nla.children val

/-! ## The text of a list -/

section Text

variable {width devPorts : Nat} {text word : List UInt8}

/-- A word of a list: a number, and `t` if the port is tagged. -/
def PortWord (word : List UInt8) : Prop :=
  ∃ (number : List UInt8) (count : Nat), word = number ++ List.replicate count (ascii 't') ∧
    number ≠ [] ∧ ∀ byte ∈ number, isDigit byte = true

/-- A text that is a list of ports, for a switch with a number of them. -/
def PortList (devPorts : Nat) (text : List UInt8) : Prop :=
  (words isSpace text).length ≤ devPorts ∧ ∀ word ∈ words isSpace text, PortWord word

/-- The port of a word. -/
def portOf (width : Nat) (word : List UInt8) : SwitchPort where
  id := UInt32.ofNat (strtoulDecimalFront width word)
  flags := if ascii 't' ∈ word then swlibPortFlagTagged else 0

theorem not_isSpace_of_isDigit {byte : UInt8} (found : isDigit byte = true) :
    isSpace byte = false := by
  unfold isDigit at found
  unfold isSpace
  simp only [Bool.and_eq_true, decide_eq_true_eq] at found
  have low : (48 : UInt8) ≤ byte := found.1
  grind

theorem not_isDigit_t : isDigit (ascii 't') = false := by decide

/-- What is read digit by digit. -/
theorem portWord_iff :
    PortWord word ↔
      word.takeWhile isDigit ≠ [] ∧ ∀ byte ∈ word.dropWhile isDigit, byte = ascii 't' := by
  constructor
  · rintro ⟨number, count, rfl, some', all⟩
    have stops : ∀ count, (List.replicate count (ascii 't')).takeWhile isDigit = [] ∧
        (List.replicate count (ascii 't')).dropWhile isDigit =
          List.replicate count (ascii 't') := by
      intro count
      cases count with
      | zero => exact ⟨rfl, rfl⟩
      | succ count =>
          rw [List.replicate_succ, List.takeWhile_cons_of_neg (by rw [not_isDigit_t]; decide),
            List.dropWhile_cons_of_neg (by rw [not_isDigit_t]; decide)]
          exact ⟨rfl, rfl⟩
    rw [List.takeWhile_append_of_pos all, List.dropWhile_append_of_pos all, (stops count).1,
      (stops count).2, List.append_nil]
    exact ⟨some', fun byte member => List.eq_of_mem_replicate member⟩
  · rintro ⟨some', all⟩
    refine ⟨word.takeWhile isDigit, (word.dropWhile isDigit).length, ?_, some', fun byte member =>
      List.mem_takeWhile_imp member⟩
    rw [← List.eq_replicate_of_mem all, List.takeWhile_append_dropWhile]

/-- What follows a number is read to the end of the word. -/
theorem readFlags_eq (flags : UInt32) (text : List UInt8) :
    readFlags flags text =
      if ∀ byte ∈ front isSpace text, byte = ascii 't' then
        some (if front isSpace text = [] then flags else flags ||| swlibPortFlagTagged,
          behind isSpace text)
      else none := by
  induction text generalizing flags with
  | nil =>
      have none : ∀ byte ∈ front isSpace [], byte = ascii 't' := fun byte member =>
        absurd member List.not_mem_nil
      rw [if_pos none]
      rfl
  | cons byte rest ih =>
      rw [readFlags]
      by_cases space : isSpace byte = true
      · have first : front isSpace (byte :: rest) = [] :=
          List.takeWhile_cons_of_neg (by simp only [space]; decide)
        have later : behind isSpace (byte :: rest) = byte :: rest :=
          List.dropWhile_cons_of_neg (by simp only [space]; decide)
        rw [if_pos space, first, later, if_pos (fun _ member => by cases member), if_pos rfl]
      · have off : isSpace byte = false := Bool.eq_false_iff.mpr space
        have first : front isSpace (byte :: rest) = byte :: front isSpace rest :=
          List.takeWhile_cons_of_pos (by simp only [off]; decide)
        have later : behind isSpace (byte :: rest) = behind isSpace rest :=
          List.dropWhile_cons_of_pos (by simp only [off]; decide)
        rw [if_neg space, first, later]
        by_cases tagged : byte = ascii 't'
        · rw [if_pos tagged, ih, if_neg (List.cons_ne_nil byte _)]
          have both : flags ||| swlibPortFlagTagged ||| swlibPortFlagTagged =
              flags ||| swlibPortFlagTagged := by
            rw [UInt32.or_assoc, UInt32.or_self]
          simp only [List.forall_mem_cons, tagged, true_and, both, ite_self]
        · rw [if_neg tagged, if_neg]
          exact fun all => tagged (all byte (List.mem_cons_self ..))

theorem readFlags_length {flags : UInt32} {text : List UInt8} {found : UInt32 × List UInt8}
    (read : readFlags flags text = some found) : found.2.length ≤ text.length := by
  rw [readFlags_eq] at read
  split at read
  · obtain rfl := Option.some.inj read
    exact (List.dropWhile_sublist _).length_le
  · cases read

/-- The word that a text starts with, behind its digits. -/
theorem front_dropWhile_isDigit (text : List UInt8) :
    front isSpace (text.dropWhile isDigit) = (front isSpace text).dropWhile isDigit ∧
      behind isSpace (text.dropWhile isDigit) = behind isSpace text := by
  induction text with
  | nil => exact ⟨rfl, rfl⟩
  | cons byte rest ih =>
      by_cases number : isDigit byte = true
      · have off := not_isSpace_of_isDigit number
        have first : front isSpace (byte :: rest) = byte :: front isSpace rest :=
          List.takeWhile_cons_of_pos (by simp only [off]; decide)
        have later : behind isSpace (byte :: rest) = behind isSpace rest :=
          List.dropWhile_cons_of_pos (by simp only [off]; decide)
        rw [List.dropWhile_cons_of_pos number, first, later, List.dropWhile_cons_of_pos number]
        exact ih
      · rw [List.dropWhile_cons_of_neg number]
        refine ⟨?_, rfl⟩
        unfold front
        rw [List.takeWhile_cons]
        split
        · rw [List.dropWhile_cons_of_neg number]
        · rfl

theorem takeWhile_isDigit_front (text : List UInt8) :
    (front isSpace text).takeWhile isDigit = text.takeWhile isDigit := by
  have both : (fun byte => isDigit byte && !isSpace byte) = isDigit := by
    funext byte
    cases number : isDigit byte with
    | false => rfl
    | true => rw [not_isSpace_of_isDigit number]; rfl
  rw [front, List.takeWhile_takeWhile]
  simpa only [Bool.decide_and, Bool.decide_eq_true] using
    congrArg (fun test => text.takeWhile test) both

theorem words_tail_behind (text : List UInt8) :
    words isSpace (behind isSpace text).tail = words isSpace (behind isSpace text) := by
  unfold behind
  cases left : text.dropWhile fun byte => !isSpace byte with
  | nil => rfl
  | cons byte rest =>
      have space := List.head?_dropWhile_not (fun byte => !isSpace byte) text
      rw [left] at space
      rw [List.tail_cons, words_cons_gap]
      simpa using space

end Text

/-! ## The loop over a text -/

section Reading

variable {width devPorts : Nat} {text word : List UInt8}

theorem digit_lt_ten (byte : UInt8) : ((digit byte).any (· < 10)) = isDigit byte := by
  unfold digit isDigit
  split
  · rename_i found
    rw [found]
    simp only [Bool.and_eq_true, decide_eq_true_eq] at found
    have low : (48 : UInt8) ≤ byte := found.1
    have high : byte ≤ (57 : UInt8) := found.2
    have start : ascii '0' = 48 := by decide
    rw [UInt8.le_iff_toNat_le] at low high
    rw [Option.any_some, decide_eq_true_eq, UInt8.toNat_sub_of_le _ _ found.1, start]
    change byte.toNat ≤ 57 at high
    change byte.toNat - 48 < 10
    omega
  · rename_i other
    rw [Bool.eq_false_iff.mpr other]
    split
    · rw [Option.any_some, decide_eq_false_iff_not]
      omega
    · split
      · rw [Option.any_some, decide_eq_false_iff_not]
        omega
      · rfl

/-- The number of a text that starts with a digit. -/
theorem strtoulDecimalFront_digit {byte : UInt8} {rest : List UInt8} (found : isDigit byte = true) :
    strtoulDecimalFront width (byte :: rest) =
      if 2 ^ width ≤ leadingDigits 10 (byte :: rest) then 2 ^ width - 1
      else leadingDigits 10 (byte :: rest) := by
  have start : (byte :: rest).dropWhile isSpace = byte :: rest :=
    List.dropWhile_cons_of_neg (by rw [not_isSpace_of_isDigit found]; decide)
  have plain : ∀ sign, isDigit sign = false → (some byte = some sign) = False := by
    intro sign other
    refine eq_false fun same => ?_
    rw [Option.some.inj same, other] at found
    cases found
  have minus := plain (ascii '-') (by decide)
  have plus := plain (ascii '+') (by decide)
  simp only [strtoulDecimalFront, start, List.head?_cons, minus, plus, decide_false, Bool.or_self,
    Bool.false_eq_true, if_false]

theorem leadingDigits_front (text : List UInt8) :
    leadingDigits 10 (front isSpace text) = leadingDigits 10 text := by
  have test : (fun byte => (digit byte).any (· < 10)) = isDigit := funext digit_lt_ten
  simp only [leadingDigits, test, takeWhile_isDigit_front]

/-- The number of a word is that of the text it starts. -/
theorem strtoulDecimalFront_front {byte : UInt8} {rest : List UInt8}
    (found : isDigit byte = true) :
    strtoulDecimalFront width (front isSpace (byte :: rest)) =
      strtoulDecimalFront width (byte :: rest) := by
  have first : front isSpace (byte :: rest) = byte :: front isSpace rest :=
    List.takeWhile_cons_of_pos (by rw [not_isSpace_of_isDigit found]; decide)
  rw [first, strtoulDecimalFront_digit found, ← first, leadingDigits_front,
    strtoulDecimalFront_digit found]

/-- One port is written behind those that are kept. -/
theorem writePort_append (kept : List SwitchPort) (old : SwitchPort) (free : List SwitchPort)
    (port : SwitchPort) :
    writePort (kept ++ old :: free) kept.length port = .ok (kept ++ port :: free) := by
  have stored := store_append kept [old] free (rfl : [port].length = [old].length)
  rw [List.append_assoc, List.append_assoc, List.singleton_append, List.singleton_append] at stored
  rw [writePort, stored]

end Reading

/-! ## The loop over a text, word by word -/

section Loop

variable {width devPorts : Nat} {text : List UInt8}

/-- A round at the end of the words ends the loop. -/
theorem portRound_nil {val : SwitchVal} (none : words isSpace text = []) :
    portRound width devPorts { ptr := text, val } = .ok (.done (some val)) := by
  have left : text.dropWhile isSpace = [] := by
    cases rest : text.dropWhile isSpace with
    | nil => rfl
    | cons byte rest' =>
        have first := List.head?_dropWhile_not isSpace text
        rw [rest] at first
        have off : isSpace byte = false := by simpa using first
        have starts : front isSpace (byte :: rest') = byte :: front isSpace rest' :=
          List.takeWhile_cons_of_pos (by rw [off]; decide)
        rw [words_eq_dropWhile, rest, starts, List.isEmpty_cons, if_neg Bool.false_ne_true] at none
        cases none
  rw [portRound]
  dsimp only
  rw [left]

/-- A word has a `t` where something follows its number. -/
theorem tagged_iff {word : List UInt8} (all : ∀ byte ∈ word.dropWhile isDigit, byte = ascii 't') :
    ascii 't' ∈ word ↔ word.dropWhile isDigit ≠ [] := by
  constructor
  · intro member none
    rw [List.dropWhile_eq_nil_iff] at none
    have number := none _ member
    rw [not_isDigit_t] at number
    cases number
  · intro some'
    obtain ⟨byte, rest, left⟩ := List.exists_cons_of_ne_nil some'
    have first : byte ∈ word.dropWhile isDigit := left ▸ List.mem_cons_self ..
    exact all byte first ▸ (List.dropWhile_sublist isDigit).subset first

/-- A round at a word takes the word, if it is one and there is room for it. -/
theorem portRound_cons {word : List UInt8} {later : List (List UInt8)}
    (some' : words isSpace text = word :: later) (kept free : List SwitchPort)
    (all : (kept ++ free).length = devPorts) :
    (PortWord word ∧ kept.length < devPorts →
      ∃ rest, words isSpace rest = later ∧ rest.length < text.length ∧
        portRound width devPorts { ptr := text, val := { ports := kept ++ free, len := kept.length } } =
          .ok (.again { ptr := rest
                        val := { ports := kept ++ portOf width word :: free.tail
                                 len := kept.length + 1 } })) ∧
      (¬(PortWord word ∧ kept.length < devPorts) →
        portRound width devPorts { ptr := text, val := { ports := kept ++ free, len := kept.length } } =
          .ok (.done none)) := by
  rw [words_eq_dropWhile] at some'
  have shorter := (List.dropWhile_sublist isSpace (l := text)).length_le
  cases start : text.dropWhile isSpace with
  | nil =>
      rw [start] at some'
      cases some'
  | cons byte rest =>
      rw [start] at some' shorter
      obtain ⟨rfl, rfl⟩ : front isSpace (byte :: rest) = word ∧
          words isSpace (behind isSpace (byte :: rest)) = later := by
        split at some'
        · cases some'
        · exact List.cons.inj some'
      rw [portRound]
      dsimp only
      rw [start]
      dsimp only
      rw [portWord_iff, takeWhile_isDigit_front]
      obtain ⟨suffix, same⟩ := front_dropWhile_isDigit (byte :: rest)
      rw [← suffix]
      by_cases number : isDigit byte = true
      · have digits : (byte :: rest).takeWhile isDigit ≠ [] := by
          rw [List.takeWhile_cons_of_pos number]
          exact List.cons_ne_nil _ _
        rw [number, Bool.not_true, if_neg Bool.false_ne_true]
        by_cases full : devPorts ≤ kept.length
        · rw [if_pos full]
          exact ⟨fun room => absurd room.2 (by omega), fun _ => rfl⟩
        · rw [if_neg full]
          obtain ⟨old, free, rfl⟩ : ∃ old rest, free = old :: rest := by
            refine List.exists_cons_of_length_pos ?_
            rw [List.length_append] at all
            omega
          rw [writePort_append, readFlags_eq, same]
          by_cases tags : ∀ other ∈ front isSpace ((byte :: rest).dropWhile isDigit),
              other = ascii 't'
          · rw [if_pos tags]
            refine ⟨fun _ => ⟨(behind isSpace (byte :: rest)).tail, words_tail_behind _, ?_, ?_⟩,
              fun other => absurd ⟨⟨digits, tags⟩, by omega⟩ other⟩
            · have less : (behind isSpace (byte :: rest)).length ≤ (byte :: rest).length :=
                (List.dropWhile_sublist _).length_le
              rw [List.length_tail]
              rw [List.length_cons] at less shorter
              omega
            · have port : portOf width (front isSpace (byte :: rest)) =
                  { id := UInt32.ofNat (strtoulDecimalFront width (byte :: rest))
                    flags := if front isSpace ((byte :: rest).dropWhile isDigit) = [] then 0
                      else 0 ||| swlibPortFlagTagged } := by
                rw [suffix] at tags ⊢
                rw [portOf, strtoulDecimalFront_front number]
                by_cases none : (front isSpace (byte :: rest)).dropWhile isDigit = []
                · rw [if_pos none, if_neg (fun member => (tagged_iff tags).mp member none)]
                · rw [if_neg none, if_pos ((tagged_iff tags).mpr none)]
                  rfl
              change (writePort _ kept.length _ >>= _) = _
              rw [← port, writePort_append]
              rfl
          · rw [if_neg tags]
            exact ⟨fun word => absurd word.1.2 tags, fun _ => rfl⟩
      · rw [Bool.eq_false_iff.mpr number, Bool.not_false, if_pos rfl]
        have none : (byte :: rest).takeWhile isDigit = [] := List.takeWhile_cons_of_neg number
        exact ⟨fun word => absurd none word.1.1, fun _ => rfl⟩

theorem portRound_shrinks :
    Shrinks (portRound width devPorts) (fun reader => reader.ptr.length + 1) .outside := by
  constructor
  · intro reader next round
    unfold portRound at round
    split at round
    · cases round
    · rename_i byte rest start
      have shorter : (byte :: rest).length ≤ reader.ptr.length := by
        rw [← start]
        exact (List.dropWhile_sublist isSpace).length_le
      split at round
      · cases round
      · split at round
        · cases round
        · dsimp only at round
          cases wrote : writePort reader.val.ports reader.val.len
              { id := UInt32.ofNat (strtoulDecimalFront width (byte :: rest)), flags := 0 } with
          | error fault =>
              rw [wrote] at round
              cases round
          | ok ports =>
              rw [wrote] at round
              cases read : readFlags 0 ((byte :: rest).dropWhile isDigit) with
              | none =>
                  rw [read] at round
                  cases round
              | some found =>
                  have less := readFlags_length read
                  have digits := (List.dropWhile_sublist (l := byte :: rest) isDigit).length_le
                  rw [read] at round
                  cases again : writePort ports reader.val.len
                      { id := UInt32.ofNat (strtoulDecimalFront width (byte :: rest))
                        flags := found.1 } with
                  | error fault =>
                      change (writePort ports reader.val.len _ >>= _) = _ at round
                      rw [again] at round
                      cases round
                  | ok ports =>
                      change (writePort _ reader.val.len _ >>= _) = _ at round
                      rw [again] at round
                      obtain rfl := Round.again.inj (Except.ok.inj round)
                      rw [List.length_tail]
                      rw [List.length_cons] at shorter digits
                      omega
  · intro reader none
    cases none

/-- The loop takes the words one by one, until one of them is no port or there is no room left. -/
theorem loop_portRound (text : List UInt8) (kept free : List SwitchPort)
    (all : (kept ++ free).length = devPorts) :
    (kept.length + (words isSpace text).length ≤ devPorts ∧
        (∀ word ∈ words isSpace text, PortWord word) →
      loop (portRound width devPorts) (fun reader => reader.ptr.length + 1) .outside
          { ptr := text, val := { ports := kept ++ free, len := kept.length } } =
        .ok (some {
          ports := kept ++ (words isSpace text).map (portOf width) ++
            free.drop (words isSpace text).length
          len := kept.length + (words isSpace text).length })) ∧
      (¬(kept.length + (words isSpace text).length ≤ devPorts ∧
          ∀ word ∈ words isSpace text, PortWord word) →
        loop (portRound width devPorts) (fun reader => reader.ptr.length + 1) .outside
          { ptr := text, val := { ports := kept ++ free, len := kept.length } } = .ok none) := by
  induction size : text.length using Nat.strongRecOn generalizing text kept free with
  | ind most ih =>
      cases found : words isSpace text with
      | nil =>
          refine ⟨fun _ => ?_, fun other => ?_⟩
          · rw [loop_done portRound_shrinks (portRound_nil found)]
            simp only [List.map_nil, List.append_nil, List.length_nil, List.drop_zero, Nat.add_zero]
          · refine absurd ⟨?_, fun word member => by cases member⟩ other
            rw [List.length_append] at all
            rw [List.length_nil]
            omega
      | cons word later =>
          obtain ⟨goes, stops⟩ := @portRound_cons width devPorts text word later found kept free all
          by_cases here : PortWord word ∧ kept.length < devPorts
          · obtain ⟨rest, words_eq, less, round⟩ := goes here
            obtain ⟨old, free, rfl⟩ : ∃ old rest, free = old :: rest := by
              refine List.exists_cons_of_length_pos ?_
              rw [List.length_append] at all
              omega
            have all' : (kept ++ [portOf width word] ++ free).length = devPorts := by
              rw [List.length_append, List.length_append, List.length_singleton]
              rw [List.length_append, List.length_cons] at all
              omega
            have next := ih rest.length (size ▸ less) rest (kept ++ [portOf width word]) free all' rfl
            rw [words_eq, List.length_append, List.length_singleton] at next
            rw [List.append_assoc kept, List.singleton_append] at next
            rw [loop_again portRound_shrinks round, List.tail_cons]
            refine ⟨fun fits => ?_, fun other => ?_⟩
            · have fits' := next.1 ⟨by have := fits.1; rw [List.length_cons] at this; omega,
                fun word member => fits.2 word (List.mem_cons_of_mem _ member)⟩
              rw [fits', List.map_cons, List.length_cons, List.drop_succ_cons, List.append_assoc kept,
                List.append_assoc kept, List.append_assoc kept, List.cons_append, Nat.add_assoc,
                Nat.add_comm 1]
              rfl
            · refine next.2 fun fits => other ⟨?_, ?_⟩
              · have := fits.1
                rw [List.length_cons]
                omega
              · exact List.forall_mem_cons.mpr ⟨here.1, fits.2⟩
          · rw [loop_done portRound_shrinks (stops here)]
            refine ⟨fun fits => absurd ⟨fits.2 word (List.mem_cons_self ..), ?_⟩ here, fun _ => rfl⟩
            have := fits.1
            rw [List.length_cons] at this
            omega

end Loop

/-! ## Sending and receiving -/

section Sending

variable {devPorts : Nat}

/-- The flags are those that a message carries. -/
def SwitchPort.Plain (port : SwitchPort) : Prop := port.flags = 0 ∨ port.flags = swlibPortFlagTagged

theorem nlaGetU32_putU32 (type : Nat) (value : UInt32) : nlaGetU32 (putU32 type value) = value := by
  have whole : (bytes 4 value.toNat).take 4 = bytes 4 value.toNat :=
    List.take_of_length_le (length_bytes 4 value.toNat).le
  rw [nlaGetU32, putU32, whole, number_bytes, Nat.mod_eq_of_lt value.toNat_lt,
    UInt32.ofNat_toNat]

/-- What is found in the attribute of a port. -/
theorem nlaParsePort_portAttr {port : SwitchPort} (plain : port.Plain) :
    ∃ tb, nlaParsePort {} (portAttr port).children = some tb ∧
      tb.id = some (putU32 switchPortId port.id) ∧
      (if tb.tagged.isSome then swlibPortFlagTagged else 0) = port.flags := by
  have long : ¬(putU32 switchPortId port.id).payload.length < 4 := by
    rw [putU32, length_bytes]
    decide
  have number : (putU32 switchPortId port.id).type = switchPortId := rfl
  rcases plain with none | tagged
  · refine ⟨{ id := some (putU32 switchPortId port.id) }, ?_, rfl, none.symm⟩
    have children : (portAttr port).children = [putU32 switchPortId port.id] := by
      rw [portAttr, none]
      rfl
    rw [children, nlaParsePort, if_pos number, if_neg long]
    rfl
  · refine ⟨{ id := some (putU32 switchPortId port.id), tagged := some (putFlag switchPortFlagTagged) },
      ?_, rfl, tagged.symm⟩
    have children : (portAttr port).children =
        [putU32 switchPortId port.id, putFlag switchPortFlagTagged] := by
      rw [portAttr, tagged]
      rfl
    rw [children, nlaParsePort, if_pos number, if_neg long]
    rfl

/-- The ports of a message are written one behind the other. -/
theorem storePorts_map {ports : List SwitchPort} (plain : ∀ port ∈ ports, port.Plain)
    (kept free : List SwitchPort) (all : (kept ++ free).length = devPorts)
    (room : ports.length ≤ free.length) :
    storePorts devPorts 0 (ports.map portAttr) { ports := kept ++ free, len := kept.length } =
      .ok (0, { ports := kept ++ ports ++ free.drop ports.length
                len := kept.length + ports.length }) := by
  induction ports generalizing kept free with
  | nil =>
      simp only [List.map_nil, storePorts, List.append_nil, List.length_nil, List.drop_zero,
        Nat.add_zero]
  | cons port ports ih =>
      obtain ⟨tb, parsed, id, flags⟩ := nlaParsePort_portAttr (plain port (List.mem_cons_self ..))
      obtain ⟨old, free, rfl⟩ : ∃ old rest, free = old :: rest :=
        List.exists_cons_of_length_pos (Nat.lt_of_lt_of_le (Nat.succ_pos _) room)
      have full : ¬devPorts ≤ kept.length := by
        rw [List.length_append, List.length_cons] at all
        omega
      have all' : (kept ++ [port] ++ free).length = devPorts := by
        rw [List.length_append, List.length_append, List.length_singleton]
        rw [List.length_append, List.length_cons] at all
        omega
      have next := ih (fun other member => plain other (List.mem_cons_of_mem _ member))
        (kept ++ [port]) free all' (Nat.le_of_succ_le_succ room)
      rw [List.length_append, List.length_singleton] at next
      have written : (⟨nlaGetU32 (putU32 switchPortId port.id),
          if tb.tagged.isSome then swlibPortFlagTagged else 0⟩ : SwitchPort) = port := by
        rw [nlaGetU32_putU32, flags]
      rw [List.map_cons, storePorts, if_neg full, parsed]
      dsimp only
      rw [id]
      dsimp only
      rw [written, writePort_append]
      change storePorts devPorts 0 (ports.map portAttr)
        { ports := kept ++ port :: free, len := kept.length + 1 } = _
      rw [List.append_assoc kept, List.singleton_append] at next
      rw [next, List.length_cons, List.drop_succ_cons, List.append_assoc, List.append_assoc,
        List.append_assoc, Nat.add_assoc, Nat.add_comm 1]
      rfl

end Sending

/-! ## The list that is set -/

section Setting

variable {width devPorts : Nat} {str : CStr}

theorem portOf_plain (width : Nat) (word : List UInt8) : (portOf width word).Plain := by
  unfold SwitchPort.Plain portOf
  dsimp only
  split
  · exact .inr rfl
  · exact .inl rfl

/-- The identifier of a port is the number of its word. -/
theorem portOf_id (wide : 32 ≤ width) {word : List UInt8} (isWord : PortWord word)
    (small : leadingDigits 10 word < 2 ^ 32) :
    (portOf width word).id.toNat = leadingDigits 10 word := by
  have range : 2 ^ 32 ≤ 2 ^ width := Nat.pow_le_pow_right (by decide) wide
  obtain ⟨number, count, rfl, some', all⟩ := isWord
  obtain ⟨byte, rest, rfl⟩ := List.exists_cons_of_ne_nil some'
  have digit := all byte (List.mem_cons_self ..)
  rw [List.cons_append] at small ⊢
  rw [portOf, strtoulDecimalFront_digit digit, if_neg (by omega)]
  exact UInt32.toNat_ofNat_of_lt' small

/-- What is asked of the value of a list: it holds the ports of the words, in their order, and they
are sent and received unchanged. -/
structure Recovered (devPorts : Nat) (text : List UInt8) (val : SwitchVal) : Prop where
  len : val.len = (words isSpace text).length
  ports : (∀ word ∈ words isSpace text, leadingDigits 10 word < 2 ^ 32) →
    (val.ports.take val.len).map (fun port => (port.id.toNat, port.flags)) =
      (words isSpace text).map fun word =>
        (leadingDigits 10 word, if ascii 't' ∈ word then swlibPortFlagTagged else 0)
  sent : 0 < val.len → ∀ buffer : List SwitchPort, buffer.length = devPorts →
    ∃ nla received, sendAttrPorts val = .ok [nla] ∧
      storePortVal devPorts nla { ports := buffer, len := 0 } = .ok (0, received) ∧
      received.len = val.len ∧ received.ports.take received.len = val.ports.take val.len

theorem sent_recovered {ports rest : List SwitchPort} (plain : ∀ port ∈ ports, port.Plain)
    (some' : 0 < ports.length) (room : ports.length ≤ devPorts) (buffer : List SwitchPort)
    (size : buffer.length = devPorts) :
    ∃ nla received, sendAttrPorts { ports := ports ++ rest, len := ports.length } = .ok [nla] ∧
      storePortVal devPorts nla { ports := buffer, len := 0 } = .ok (0, received) ∧
      received.len = ports.length ∧ received.ports.take received.len = ports := by
  have loaded : load (ports ++ rest) 0 ports.length = some ports := load_append_middle [] ports rest
  have stored := @storePorts_map devPorts ports plain [] buffer size (by omega)
  rw [List.nil_append, List.nil_append, List.length_nil, Nat.zero_add] at stored
  refine ⟨⟨switchAttrOpValuePorts, ports.map portAttr⟩, _, ?_, stored, rfl, List.take_left⟩
  rw [sendAttrPorts, if_neg (by dsimp only; omega), loaded]

/-- A text is read to its end without an access outside the ports. It is accepted exactly if it is a
list of ports, and what is then set holds its ports. -/
theorem setAttrStringPorts_exact (wide : 32 ≤ width) (devPorts : Nat) (str : CStr) :
    ∃ outcome, setAttrStringPorts width devPorts str = .ok outcome ∧
      (outcome.isSome ↔ PortList devPorts str.bytes) ∧
      ∀ val, outcome = some val → Recovered devPorts str.bytes val := by
  have size : ([] ++ List.replicate devPorts (⟨0, 0⟩ : SwitchPort)).length = devPorts := by
    rw [List.nil_append, List.length_replicate]
  obtain ⟨accepts, rejects⟩ := @loop_portRound width devPorts str.bytes [] _ size
  rw [List.nil_append, List.nil_append, List.length_nil, Nat.zero_add] at accepts
  rw [List.nil_append, List.length_nil, Nat.zero_add] at rejects
  by_cases isList : PortList devPorts str.bytes
  · refine ⟨_, accepts isList, iff_of_true rfl isList, fun val same => ?_⟩
    obtain rfl := Option.some.inj same
    have long : ((words isSpace str.bytes).map (portOf width)).length =
        (words isSpace str.bytes).length := List.length_map _
    have plain : ∀ port ∈ (words isSpace str.bytes).map (portOf width), port.Plain := by
      intro port member
      obtain ⟨word, -, rfl⟩ := List.mem_map.mp member
      exact portOf_plain width word
    refine ⟨rfl, fun small => ?_, fun some' buffer known => ?_⟩
    · dsimp only
      rw [List.take_left' long, List.map_map]
      refine List.map_congr_left fun word member => ?_
      exact Prod.ext (portOf_id wide (isList.2 word member) (small word member)) rfl
    · dsimp only at some' ⊢
      rw [List.take_left' long, ← long]
      exact sent_recovered plain (by rw [long]; exact some') (by rw [long]; exact isList.1) buffer
        known
  · exact ⟨none, rejects isList, iff_of_false Bool.false_ne_true isList, fun val same => by
      cases same⟩

/-- A list of two ports, of which the second one is tagged. -/
theorem setAttrStringPorts_exact_pair :
    ∃ outcome, setAttrStringPorts 32 5 ⟨[ascii '0', ascii ' ', ascii '5', ascii 't'], by decide⟩ =
        .ok outcome ∧
      (outcome.isSome ↔ PortList 5 [ascii '0', ascii ' ', ascii '5', ascii 't']) ∧
      ∀ val, outcome = some val →
        Recovered 5 [ascii '0', ascii ' ', ascii '5', ascii 't'] val :=
  setAttrStringPorts_exact (by decide) 5 ⟨[ascii '0', ascii ' ', ascii '5', ascii 't'], by decide⟩

end Setting

end Trunk.Switch
