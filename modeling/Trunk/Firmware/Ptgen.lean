import Mathlib.Algebra.Order.Ring.Int
import Mathlib.Data.Int.Bitwise
import Mathlib.Data.UInt
import Mathlib.Tactic.Ring

/-! # Partition tables

The model of `gen_ptable` of `ptgen.c`, on a host of little-endian byte order. A sector number goes
through variables of type `long`, `unsigned long` and `int`. What these conversions make of a number
is a parameter of the layout, so that the layout with unbounded numbers can be compared with the one
of a host (`Trunk.Ptgen.layout_host`).
-/

namespace Trunk.Ptgen

/-- What a number becomes in a variable of these types. -/
structure Machine where
  long : Int → Int
  unsignedLong : Int → Int
  int : Int → Int

/-- A host with an `int` of 32 bits, by the bits of its `long`. -/
def Machine.host (width : Nat) : Machine where
  long value := value.bmod (2 ^ width)
  unsignedLong value := value % 2 ^ width
  int value := value.bmod (2 ^ 32)

/-- Numbers without bounds. -/
def Machine.unbounded : Machine := ⟨id, id, id⟩

/-- `struct pte`. -/
structure Pte where
  active : UInt8 := 0
  chsStart : UInt8 × UInt8 × UInt8 := (0, 0, 0)
  type : UInt8 := 0
  chsEnd : UInt8 × UInt8 × UInt8 := (0, 0, 0)
  start : UInt32 := 0
  length : UInt32 := 0
  deriving DecidableEq, Repr

/-- `struct partinfo`. -/
structure Partinfo where
  size : Nat
  type : Int
  deriving DecidableEq, Repr

/-- The options: `active`, `heads`, `sectors` and `kb_align`. -/
structure Options where
  active : Int
  heads : Int
  sectors : Int
  kbAlign : Int
  deriving DecidableEq, Repr

variable (machine : Machine) (options : Options)

/-- `to_chs`. -/
def toChs (sect : Int) : UInt8 × UInt8 × UInt8 :=
  let s := sect.tmod options.sectors + 1
  let sect := sect.tdiv options.sectors
  let h := sect.tmod options.heads
  let c := sect.tdiv options.heads
  (UInt8.ofInt h, UInt8.ofInt (Int.lor s (Int.land (c >>> 2) 0xC0)), UInt8.ofInt (Int.land c 0xFF))

/-- `round_to_cyl`. -/
def roundToCyl (sect : Int) : Int :=
  let sect := machine.long sect
  let cylSize := machine.int (options.heads * options.sectors)
  machine.unsignedLong (sect + cylSize - sect.tmod cylSize)

/-- `round_to_kb`. -/
def roundToKb (sect : Int) : Int :=
  machine.unsignedLong (((sect - 1).tdiv options.kbAlign + 1) * options.kbAlign)

/-- The `start` of a partition, behind the sector `sect`. -/
def startOf (sect : Int) : Int :=
  let start := machine.int (machine.unsignedLong (sect + options.sectors))
  if options.kbAlign ≠ 0 then machine.int (roundToKb machine options start) else start

/-- The next `sect`, behind a partition. -/
def stopOf (start : Int) (size : Nat) : Int :=
  let sect := machine.unsignedLong (start + size * 2)
  if options.kbAlign = 0 then roundToCyl machine options sect else sect

/-- The `start` and the `len` of the partitions. -/
def layout : Int → List Nat → List (Int × Int)
  | _, [] => []
  | sect, size :: sizes =>
      let start := startOf machine options sect
      let sect := stopOf machine options start size
      (start, machine.int (machine.unsignedLong (sect - start))) :: layout sect sizes

/-- The entry of the partition with the index `i`. -/
def entry (i : Nat) (part : Partinfo) (place : Int × Int) : Pte where
  active := if (i : Int) + 1 = options.active then 0x80 else 0
  type := UInt8.ofInt part.type
  start := UInt32.ofInt place.1
  length := UInt32.ofInt place.2
  chsStart := toChs options place.1
  chsEnd := toChs options (machine.int (place.1 + place.2 - 1))

/-- The entries of the partitions, from an index on. -/
def entries : Nat → List Partinfo → List (Int × Int) → List Pte
  | i, part :: parts, place :: places =>
      entry machine options i part place :: entries (i + 1) parts places
  | _, _, _ => []

/-- `gen_ptable`: the table it writes, or nothing where it ends with an error. -/
def genPtable (parts : List Partinfo) : Option (List Pte) :=
  if parts.any fun part => part.size = 0 then none
  else
    let places := layout machine options 0 (parts.map Partinfo.size)
    some (entries machine options 0 parts places ++ List.replicate (4 - parts.length) ({} : Pte))

/-- What the options may be: a geometry of the BIOS, and no negative alignment. -/
structure Options.Fits (options : Options) : Prop where
  heads_pos : 1 ≤ options.heads
  heads_le : options.heads ≤ 255
  sectors_pos : 1 ≤ options.sectors
  sectors_le : options.sectors ≤ 63
  align : 0 ≤ options.kbAlign

/-! ## Rounding -/

section Rounding

variable {options : Options} {sect start : Int} {width : Nat}

theorem Options.Fits.cylinder_pos (fits : options.Fits) : 0 < options.heads * options.sectors :=
  Int.mul_pos (by have := fits.heads_pos; omega) (by have := fits.sectors_pos; omega)

theorem Options.Fits.cylinder_le (fits : options.Fits) :
    options.heads * options.sectors ≤ 255 * 63 :=
  Int.mul_le_mul fits.heads_le fits.sectors_le (by have := fits.sectors_pos; omega) (by decide)

/-- Rounding up to a multiple that may be reached already. -/
theorem roundUp_spec {value unit : Int} (pos : 0 < value) (unit_pos : 0 < unit) :
    value ≤ ((value - 1).tdiv unit + 1) * unit := by
  rw [Int.tdiv_eq_ediv_of_nonneg (by omega), Int.add_mul, Int.one_mul]
  have split := Int.mul_ediv_add_emod (value - 1) unit
  have rest := Int.emod_lt_of_pos (value - 1) unit_pos
  rw [Int.mul_comm] at split
  omega

/-- Rounding up to the next multiple. -/
theorem roundNext_spec {value unit : Int} (nonneg : 0 ≤ value) (unit_pos : 0 < unit) :
    value ≤ value + unit - value.tmod unit ∧ unit ∣ value + unit - value.tmod unit := by
  rw [Int.tmod_eq_emod_of_nonneg nonneg]
  have rest := Int.emod_lt_of_pos value unit_pos
  refine ⟨by omega, ?_⟩
  have whole : value + unit - value % unit = value - value % unit + unit := by omega
  rw [whole]
  exact Int.dvd_add (Int.dvd_self_sub_emod) (Int.dvd_refl unit)

/-- A partition starts a track behind the sector before it, at a multiple of the alignment. -/
theorem startOf_spec (fits : options.Fits) (nonneg : 0 ≤ sect) :
    sect + options.sectors ≤ startOf .unbounded options sect ∧
      (options.kbAlign ≠ 0 → options.kbAlign ∣ startOf .unbounded options sect) := by
  have pos := fits.sectors_pos
  have align := fits.align
  by_cases aligned : options.kbAlign = 0
  · have same : startOf .unbounded options sect = sect + options.sectors := by
      rw [startOf, if_neg (not_not_intro aligned)]
      rfl
    rw [same]
    exact ⟨Int.le_refl _, fun other => absurd aligned other⟩
  · have same : startOf .unbounded options sect =
        ((sect + options.sectors - 1).tdiv options.kbAlign + 1) * options.kbAlign := by
      rw [startOf, if_pos aligned]
      rfl
    rw [same]
    exact ⟨roundUp_spec (by omega) (by omega), fun _ => Int.dvd_mul_left _ _⟩

/-- A partition has room for its size, and ends with a cylinder if there is no alignment. -/
theorem stopOf_spec (fits : options.Fits) (nonneg : 0 ≤ start) (size : Nat) :
    start + size * 2 ≤ stopOf .unbounded options start size ∧
      (options.kbAlign = 0 →
        options.heads * options.sectors ∣ stopOf .unbounded options start size) := by
  by_cases aligned : options.kbAlign = 0
  · have same : stopOf .unbounded options start size =
        start + size * 2 + options.heads * options.sectors -
          (start + size * 2).tmod (options.heads * options.sectors) := by
      rw [stopOf, if_pos aligned]
      rfl
    rw [same]
    obtain ⟨bound, whole⟩ := roundNext_spec (by omega : 0 ≤ start + size * 2) fits.cylinder_pos
    exact ⟨bound, fun _ => whole⟩
  · have same : stopOf .unbounded options start size = start + size * 2 := by
      rw [stopOf, if_neg aligned]
      rfl
    rw [same]
    exact ⟨Int.le_refl _, fun other => absurd other aligned⟩

/-! ## The host -/

/-- Numbers with 31 bits are the same in all variables. -/
theorem host_of_lt {value : Int} (wide : 32 ≤ width) (nonneg : 0 ≤ value) (small : value < 2 ^ 31) :
    (Machine.host width).long value = value ∧ (Machine.host width).unsignedLong value = value ∧
      (Machine.host width).int value = value := by
  have range : 2 ^ 32 ≤ 2 ^ width := Nat.pow_le_pow_right (by decide) wide
  have natural : ((2 ^ width : Nat) : Int) = 2 ^ width := by push_cast; rfl
  refine ⟨?_, Int.emod_eq_of_lt nonneg (by omega), ?_⟩
  · refine Int.bmod_eq_of_le ?_ ?_ <;> omega
  · refine Int.bmod_eq_of_le ?_ ?_ <;> omega

theorem startOf_host (fits : options.Fits) (wide : 32 ≤ width) (nonneg : 0 ≤ sect)
    (small : startOf .unbounded options sect < 2 ^ 31) :
    startOf (.host width) options sect = startOf .unbounded options sect := by
  have pos := fits.sectors_pos
  have bound := (startOf_spec fits nonneg).1
  obtain ⟨-, first, second⟩ :=
    host_of_lt wide (by omega : 0 ≤ sect + options.sectors) (by omega)
  by_cases aligned : options.kbAlign = 0
  · rw [startOf, startOf, if_neg (not_not_intro aligned), if_neg (not_not_intro aligned), first,
      second]
    rfl
  · have same : startOf .unbounded options sect =
        ((sect + options.sectors - 1).tdiv options.kbAlign + 1) * options.kbAlign := by
      rw [startOf, if_pos aligned]
      rfl
    obtain ⟨-, third, fourth⟩ := host_of_lt wide (by omega) small
    rw [startOf, if_pos aligned, first, second, roundToKb, ← same, third, fourth]

theorem stopOf_host {size : Nat} (fits : options.Fits) (wide : 32 ≤ width) (nonneg : 0 ≤ start)
    (small : stopOf .unbounded options start size < 2 ^ 31) :
    stopOf (.host width) options start size = stopOf .unbounded options start size := by
  have bound := (stopOf_spec fits nonneg size).1
  have cylinder := fits.cylinder_pos
  have cylinder_le := fits.cylinder_le
  obtain ⟨first, second, -⟩ := host_of_lt wide (by omega : 0 ≤ start + size * 2) (by omega)
  by_cases aligned : options.kbAlign = 0
  · have same : stopOf .unbounded options start size =
        start + size * 2 + options.heads * options.sectors -
          (start + size * 2).tmod (options.heads * options.sectors) := by
      rw [stopOf, if_pos aligned]
      rfl
    obtain ⟨-, third, -⟩ := host_of_lt wide (by omega) small
    obtain ⟨-, -, size⟩ := host_of_lt wide (by omega : 0 ≤ options.heads * options.sectors) (by omega)
    rw [stopOf, if_pos aligned, second, roundToCyl, first, size, ← same, third]
  · rw [stopOf, stopOf, if_neg aligned, if_neg aligned, second]
    rfl

end Rounding

/-! ## The layout -/

section Layout

variable {options : Options} {sect : Int} {sizes : List Nat} {width : Nat}

theorem stop_eq (start stop : Int) : start + Machine.unbounded.int
    (Machine.unbounded.unsignedLong (stop - start)) = stop := by
  change start + (stop - start) = stop
  omega

/-- A host has the layout of unbounded numbers where those have 31 bits. -/
theorem layout_host (fits : options.Fits) (wide : 32 ≤ width) (nonneg : 0 ≤ sect)
    (small : ∀ place ∈ layout .unbounded options sect sizes, place.1 + place.2 < 2 ^ 31) :
    layout (.host width) options sect sizes = layout .unbounded options sect sizes := by
  induction sizes generalizing sect with
  | nil => rfl
  | cons size sizes ih =>
      have pos := fits.sectors_pos
      have first := (startOf_spec fits nonneg).1
      have start_nonneg : 0 ≤ startOf .unbounded options sect := by omega
      have bound := (stopOf_spec fits start_nonneg size).1
      have here := small _ (List.mem_cons_self ..)
      rw [stop_eq] at here
      have start_eq := startOf_host fits wide nonneg (by omega)
      have sect_eq := stopOf_host fits wide start_nonneg here
      have later := ih (by omega) fun place member => small place (List.mem_cons_of_mem _ member)
      obtain ⟨-, one, two⟩ := host_of_lt wide
        (by omega : 0 ≤ stopOf .unbounded options (startOf .unbounded options sect) size -
          startOf .unbounded options sect) (by omega)
      rw [layout, layout, start_eq, sect_eq, later, one, two]
      rfl

/-- What is asked of the place of a partition of a size, behind the sector `sect`. -/
structure Placed (options : Options) (sect : Int) (size : Nat) (place : Int × Int) : Prop where
  track : sect + options.sectors ≤ place.1
  aligned : options.kbAlign ≠ 0 → options.kbAlign ∣ place.1
  room : (size * 2 : Int) ≤ place.2
  cylinder : options.kbAlign = 0 → options.heads * options.sectors ∣ place.1 + place.2

theorem Placed.later {size : Nat} {place : Int × Int} {before : Int}
    (placed : Placed options sect size place) (le : before ≤ sect) :
    Placed options before size place :=
  { placed with track := by have := placed.track; omega }

/-- The partitions start behind the sector before them. -/
theorem layout_behind (fits : options.Fits) (nonneg : 0 ≤ sect) {place : Int × Int}
    (member : place ∈ layout .unbounded options sect sizes) : sect < place.1 := by
  induction sizes generalizing sect with
  | nil => cases member
  | cons size sizes ih =>
      have pos := fits.sectors_pos
      have track := (startOf_spec fits nonneg).1
      have room := (stopOf_spec fits (by omega : 0 ≤ startOf .unbounded options sect) size).1
      rcases List.mem_cons.mp member with rfl | later
      · dsimp only
        omega
      · have behind := ih (by omega) later
        omega

/-- Every partition has a place, and starts behind the end of the ones before it. -/
theorem layout_placed (fits : options.Fits) (nonneg : 0 ≤ sect) (sizes : List Nat) :
    List.Forall₂ (fun size place => Placed options sect size place) sizes
        (layout .unbounded options sect sizes) ∧
      (layout .unbounded options sect sizes).Pairwise fun first second =>
        first.1 + first.2 < second.1 := by
  induction sizes generalizing sect with
  | nil => exact ⟨.nil, .nil⟩
  | cons size sizes ih =>
      have pos := fits.sectors_pos
      obtain ⟨track, aligned⟩ := startOf_spec fits nonneg
      have start_nonneg : 0 ≤ startOf .unbounded options sect := by omega
      obtain ⟨room, cylinder⟩ := stopOf_spec fits start_nonneg size
      obtain ⟨places, ordered⟩ := ih
        (by omega : 0 ≤ stopOf .unbounded options (startOf .unbounded options sect) size)
      have here : Placed options sect size (startOf .unbounded options sect,
          Machine.unbounded.int (Machine.unbounded.unsignedLong
            (stopOf .unbounded options (startOf .unbounded options sect) size -
              startOf .unbounded options sect))) := {
        track := track
        aligned := aligned
        room := by
          change (size * 2 : Int) ≤ _ - _
          omega
        cylinder := fun none => by
          rw [stop_eq]
          exact cylinder none }
      refine ⟨.cons here (places.imp fun _ _ placed => placed.later (by omega)), ?_⟩
      refine List.pairwise_cons.mpr ⟨fun place member => ?_, ordered⟩
      rw [stop_eq]
      exact layout_behind fits (by omega) member

end Layout

/-! ## Cylinder, head and sector -/

/-- The sector number that a cylinder, a head and a sector stand for. The two upper bits of the
cylinder are with the sector. -/
def decodeChs (chs : UInt8 × UInt8 × UInt8) : Int :=
  let cylinder := chs.2.1.toNat / 64 * 256 + chs.2.2.toNat
  let sector := chs.2.1.toNat % 64
  (cylinder * options.heads + chs.1.toNat) * options.sectors + sector - 1

section Chs

variable {options : Options}

theorem ofInt_toNat {value : Nat} (small : value < 256) : (UInt8.ofInt value).toNat = value := by
  have same : ((value : Int) % 2 ^ 8).toNat = value := by omega
  rw [UInt8.ofInt, same]
  exact Nat.mod_eq_of_lt small

/-- The upper two bits of a cylinder below 1024 stand above the sector. -/
theorem packed {s c : Nat} (sector : s < 64) (cylinder : c < 1024) :
    s ||| (c >>> 2 &&& 0xC0) = s + c / 256 * 64 := by
  have masked : ∀ upper < 256, upper &&& 0xC0 = upper / 64 * 64 := by decide +kernel
  have joined : ∀ q < 4, ∀ s < 64, s ||| q * 64 = s + q * 64 := by decide +kernel
  rw [Nat.shiftRight_eq_div_pow, masked (c / 2 ^ 2) (by omega), Nat.div_div_eq_div_mul,
    joined (c / 256) (by omega) s sector]

/-- A sector below the cylinder 1024 is decoded from its encoding. -/
theorem decodeChs_toChs (fits : options.Fits) {sect : Int} (nonneg : 0 ≤ sect)
    (below : sect / (options.heads * options.sectors) < 1024) :
    decodeChs options (toChs options sect) = sect := by
  obtain ⟨active, heads, sectors, kbAlign⟩ := options
  have heads_pos : 1 ≤ heads := fits.heads_pos
  have heads_le : heads ≤ 255 := fits.heads_le
  have sectors_pos : 1 ≤ sectors := fits.sectors_pos
  have sectors_le : sectors ≤ 63 := fits.sectors_le
  dsimp only at below
  -- all numbers are natural ones
  lift sect to Nat using nonneg
  lift heads to Nat using by omega
  lift sectors to Nat using by omega
  have s_small := Nat.mod_lt sect (by omega : 0 < sectors)
  have h_small := Nat.mod_lt (sect / sectors) (by omega : 0 < heads)
  have c_small : sect / sectors / heads < 1024 := by
    rw [Nat.div_div_eq_div_mul, Nat.mul_comm]
    exact_mod_cast below
  have chs : toChs ⟨active, heads, sectors, kbAlign⟩ sect =
      (UInt8.ofInt ((sect / sectors % heads : Nat) : Int),
        UInt8.ofInt ((sect % sectors + 1 ||| ((sect / sectors / heads) >>> 2 &&& 0xC0) : Nat) : Int),
        UInt8.ofInt ((sect / sectors / heads &&& 0xFF : Nat) : Int)) := by
    simp only [toChs, ← Int.ofNat_tdiv, ← Int.ofNat_tmod]
    rfl
  have low : sect / sectors / heads &&& 0xFF = sect / sectors / heads % 256 :=
    Nat.and_two_pow_sub_one_eq_mod _ 8
  rw [chs, packed (by omega) c_small, low, decodeChs]
  dsimp only
  rw [ofInt_toNat (by omega), ofInt_toNat (by omega), ofInt_toNat (by omega)]
  have head : (sect % sectors + 1 + sect / sectors / heads / 256 * 64) / 64 * 256 +
      sect / sectors / heads % 256 = sect / sectors / heads := by omega
  have sector : (sect % sectors + 1 + sect / sectors / heads / 256 * 64) % 64 =
      sect % sectors + 1 := by omega
  rw [head, sector]
  have track := Nat.div_add_mod (sect / sectors) heads
  have whole := Nat.div_add_mod sect sectors
  have sum : (sect / sectors / heads * heads + sect / sectors % heads) * sectors +
      (sect % sectors + 1) = sect + 1 := by
    rw [Nat.mul_comm (sect / sectors / heads), track, Nat.mul_comm (sect / sectors)]
    omega
  have cast : (((sect / sectors / heads : Nat) : Int) * heads + (sect / sectors % heads : Nat)) *
      sectors + (sect % sectors + 1 : Nat) = sect + 1 := by exact_mod_cast sum
  omega

end Chs

/-! ## The table -/

/-- What is asked of the entries of the partitions. -/
structure Consistent (options : Options) (parts : List Partinfo) (table : List Pte) : Prop where
  tracks : ∀ pte ∈ table, options.sectors ≤ pte.start.toNat
  aligned : options.kbAlign ≠ 0 → ∀ pte ∈ table, options.kbAlign ∣ pte.start.toNat
  ordered : table.Pairwise fun first second =>
    first.start < second.start ∧
      first.start.toNat + first.length.toNat ≤ second.start.toNat
  sizes : List.Forall₂ (fun part pte => part.size * 2 ≤ pte.length.toNat) parts table
  cylinders : options.kbAlign = 0 → ∀ pte ∈ table,
    options.heads * options.sectors ∣ pte.start.toNat + pte.length.toNat
  chs : ∀ pte ∈ table,
    ((pte.start.toNat + pte.length.toNat - 1 : Int) / (options.heads * options.sectors) < 1024) →
      decodeChs options pte.chsStart = pte.start.toNat ∧
        decodeChs options pte.chsEnd = pte.start.toNat + pte.length.toNat - 1

section Table

variable {options : Options} {parts : List Partinfo} {width : Nat}

/-- An entry has the place of its partition. -/
structure Describes (options : Options) (place : Int × Int) (pte : Pte) : Prop where
  start : (pte.start.toNat : Int) = place.1
  length : (pte.length.toNat : Int) = place.2
  chsStart : pte.chsStart = toChs options place.1
  chsEnd : pte.chsEnd = toChs options (place.1 + place.2 - 1)

theorem ofInt_toNat_of_lt {value : Int} (nonneg : 0 ≤ value) (small : value < 2 ^ 31) :
    ((UInt32.ofInt value).toNat : Int) = value := by
  have same : (value % 2 ^ 32).toNat = value.toNat := by
    rw [Int.emod_eq_of_lt nonneg (by omega)]
  rw [UInt32.ofInt, same, UInt32.toNat_ofNat_of_lt' (by simp only [UInt32.size]; omega)]
  omega

theorem entry_describes (wide : 32 ≤ width) (i : Nat) (part : Partinfo) {place : Int × Int}
    (start : 0 < place.1) (length : 0 ≤ place.2) (small : place.1 + place.2 < 2 ^ 31) :
    Describes options place (entry (.host width) options i part place) where
  start := ofInt_toNat_of_lt (by omega) (by omega)
  length := ofInt_toNat_of_lt length (by omega)
  chsStart := rfl
  chsEnd := by
    rw [entry, (host_of_lt wide (by omega : 0 ≤ place.1 + place.2 - 1) (by omega)).2.2]

theorem entries_describe (wide : 32 ≤ width) (i : Nat) {places : List (Int × Int)}
    (same : parts.length = places.length)
    (all : ∀ place ∈ places, 0 < place.1 ∧ 0 ≤ place.2 ∧ place.1 + place.2 < 2 ^ 31) :
    List.Forall₂ (Describes options) places (entries (.host width) options i parts places) := by
  induction places generalizing i parts with
  | nil =>
      obtain rfl := List.eq_nil_of_length_eq_zero same
      exact .nil
  | cons place places ih =>
      obtain ⟨part, parts, rfl⟩ := List.exists_cons_of_length_eq_add_one same
      obtain ⟨start, length, small⟩ := all place (List.mem_cons_self ..)
      exact .cons (entry_describes wide i part start length small)
        (ih (i + 1) (Nat.succ.inj same) fun other member => all other (List.mem_cons_of_mem _ member))

/-- What entries with these places are. -/
theorem places_of_describes {places : List (Int × Int)} {table : List Pte}
    (describes : List.Forall₂ (Describes options) places table) :
    places = table.map (fun pte => ((pte.start.toNat : Int), (pte.length.toNat : Int))) ∧
      ∀ pte ∈ table, pte.chsStart = toChs options pte.start.toNat ∧
        pte.chsEnd = toChs options (pte.start.toNat + pte.length.toNat - 1) := by
  induction describes with
  | nil => exact ⟨rfl, fun pte member => by cases member⟩
  | cons here _ ih =>
      obtain ⟨same, encoded⟩ := ih
      constructor
      · rw [List.map_cons, ← same, here.start, here.length]
      · intro pte member
        rcases List.mem_cons.mp member with rfl | later
        · rw [here.start, here.length]
          exact ⟨here.chsStart, here.chsEnd⟩
        · exact encoded pte later

/-- Every place belongs to a size. -/
theorem exists_placed {sizes : List Nat} {places : List (Int × Int)}
    (all : List.Forall₂ (fun size place => Placed options 0 size place) sizes places)
    {place : Int × Int} (member : place ∈ places) :
    ∃ size ∈ sizes, Placed options 0 size place := by
  induction all with
  | nil => cases member
  | cons here _ ih =>
      rcases List.mem_cons.mp member with rfl | later
      · exact ⟨_, List.mem_cons_self .., here⟩
      · obtain ⟨size, listed, placed⟩ := ih later
        exact ⟨size, List.mem_cons_of_mem _ listed, placed⟩

/-- Entries whose places are those of a layout are consistent. -/
theorem consistent_of_describes (fits : options.Fits) (positive : ∀ part ∈ parts, 0 < part.size)
    {table : List Pte}
    (describes : List.Forall₂ (Describes options)
      (layout .unbounded options 0 (parts.map Partinfo.size)) table) :
    Consistent options parts table := by
  obtain ⟨same, encoded⟩ := places_of_describes describes
  obtain ⟨placed, ordered⟩ := layout_placed fits (Int.le_refl 0) (parts.map Partinfo.size)
  have exists_size : ∀ pte ∈ table, ∃ size, 0 < size ∧
      Placed options 0 size ((pte.start.toNat : Int), (pte.length.toNat : Int)) := by
    intro pte member
    obtain ⟨size, listed, here⟩ := exists_placed placed (same ▸ List.mem_map_of_mem member)
    obtain ⟨part, known, rfl⟩ := List.mem_map.mp listed
    exact ⟨part.size, positive part known, here⟩
  rw [same] at placed ordered
  rw [List.forall₂_map_left_iff, List.forall₂_map_right_iff] at placed
  rw [List.pairwise_map] at ordered
  have sectors_pos := fits.sectors_pos
  constructor
  · intro pte member
    obtain ⟨size, -, here⟩ := exists_size pte member
    have track := here.track
    dsimp only at track
    omega
  · intro aligned pte member
    obtain ⟨size, -, here⟩ := exists_size pte member
    exact here.aligned aligned
  · refine ordered.imp fun {first second} behind => ⟨UInt32.lt_iff_toNat_lt.mpr ?_, ?_⟩
    · omega
    · omega
  · refine placed.imp fun part pte here => ?_
    have room := here.room
    dsimp only at room
    omega
  · intro none pte member
    obtain ⟨size, -, here⟩ := exists_size pte member
    exact here.cylinder none
  · intro pte member below
    obtain ⟨size, pos, here⟩ := exists_size pte member
    have track := here.track
    have room := here.room
    dsimp only at track room
    obtain ⟨chsStart, chsEnd⟩ := encoded pte member
    have first_below : (pte.start.toNat : Int) / (options.heads * options.sectors) < 1024 :=
      Int.lt_of_le_of_lt (Int.ediv_le_ediv fits.cylinder_pos (by omega)) below
    rw [chsStart, chsEnd]
    exact ⟨decodeChs_toChs fits (by omega) first_below, decodeChs_toChs fits (by omega) below⟩

/-- Every table that is written is consistent, where all sector numbers have 31 bits. -/
theorem genPtable_consistent (fits : options.Fits) (wide : 32 ≤ width) (few : parts.length ≤ 4)
    (positive : ∀ part ∈ parts, 0 < part.size)
    (small : ∀ place ∈ layout .unbounded options 0 (parts.map Partinfo.size),
      place.1 + place.2 < 2 ^ 31) :
    ∃ table rest, genPtable (.host width) options parts = some (table ++ rest) ∧
      (table ++ rest).length = 4 ∧ (∀ pte ∈ rest, pte = {}) ∧ Consistent options parts table := by
  have nonzero : ¬(parts.any fun part => part.size = 0) = true := by
    rw [List.any_eq_true]
    rintro ⟨part, member, zero⟩
    have pos := positive part member
    rw [decide_eq_true_eq] at zero
    omega
  have places := layout_host fits wide (Int.le_refl 0) small
  obtain ⟨placed, -⟩ := layout_placed fits (Int.le_refl 0) (parts.map Partinfo.size)
  have same := placed.length_eq
  rw [List.length_map] at same
  have describes : List.Forall₂ (Describes options) _ _ :=
    entries_describe wide 0 same fun place member => by
      obtain ⟨size, -, here⟩ := exists_placed placed member
      have room := here.room
      exact ⟨layout_behind fits (Int.le_refl 0) member, by omega, small place member⟩
  have long := describes.length_eq
  refine ⟨_, List.replicate (4 - parts.length) ({} : Pte), ?_, ?_,
    fun pte member => List.eq_of_mem_replicate member,
    consistent_of_describes fits positive describes⟩
  · rw [genPtable, if_neg nonzero, places]
  · rw [List.length_append, List.length_replicate]
    omega

/-- Two partitions of an image, without an alignment. -/
theorem genPtable_consistent_image :
    ∃ table rest, genPtable (.host 64) ⟨1, 16, 63, 0⟩ [⟨4096, 0x83⟩, ⟨49152, 0x83⟩] =
        some (table ++ rest) ∧
      (table ++ rest).length = 4 ∧ (∀ pte ∈ rest, pte = {}) ∧
        Consistent ⟨1, 16, 63, 0⟩ [⟨4096, 0x83⟩, ⟨49152, 0x83⟩] table :=
  genPtable_consistent ⟨by decide, by decide, by decide, by decide, by decide⟩ (by decide)
    (by decide) (by decide) (by decide)

end Table

end Trunk.Ptgen
