import Trunk.Firmware.Wrt350nv2
import Trunk.Foundation.Run

/-! # Intact WRT350Nv2 images

The writes of `create_bin_file` for the parts are one behind the other, if the sizes fit
(`Trunk.Firmware.Wrt350nv2.partWrites_region`). Then the image holds every part and sums to zero
(`Trunk.Firmware.Wrt350nv2.builds_of_fits`).

The checks of `main` let three kinds of sizes through that do not fit: an image over the product id,
and a kernel size at which a size check is zero and is taken for no check. At these sizes there are
files that the image does not hold (`Trunk.Firmware.Wrt350nv2.builds_iff`).
-/

namespace Trunk.Firmware.Wrt350nv2

open Memory Network

variable {random : Nat → UInt8} {parts : Parts} {ignoremagic : Bool}

/-- The image holds every file at the offset of its part, with the sizes of the root file system and
of the boot loader before them, and sums to zero. -/
structure Intact (parts : Parts) (bin : List UInt8) : Prop where
  length : bin.length = flashSize
  image : ∀ mtd ∈ parts.image, load bin 0 mtd.file.length = some mtd.file
  kernel : ∀ mtd ∈ parts.kernel, load bin 0 mtd.file.length = some mtd.file
  rootfs : ∀ mtd ∈ parts.rootfs, ∃ offset : Nat, parts.kernelSize = offset + 16 ∧
    load bin (offset + 16) mtd.file.length = some mtd.file ∧
    load bin offset 4 = some (bytes 4 mtd.file.length)
  uboot : ∀ mtd ∈ parts.uboot,
    load bin bootAddrBaseOff mtd.file.length = some mtd.file ∧
      load bin (bootAddrBaseOff - 16) 4 = some (bytes 4 mtd.file.length)
  sum : csum bin % 256 = 0

/-- Every write is inside the buffer, and the image is intact. -/
def Builds (random : Nat → UInt8) (parts : Parts) : Prop :=
  ∃ bin, createBinFile random parts = some bin ∧ Intact parts bin

/-! ## Lists of writes -/

/-- The place behind a write. -/
def Write.end (w : Write) : Int := w.place + w.content.length

/-- A write ends where another starts, or before. -/
def Write.Before (first second : Write) : Prop := first.end ≤ second.place

/-- A write does not touch a range. -/
def Write.Avoids (w : Write) (place length : Nat) : Prop :=
  w.end ≤ place ∨ (place + length : Int) ≤ w.place

theorem write_eq_some {buffer next : List UInt8} {w : Write} (written : write buffer w = some next) :
    0 ≤ w.place ∧ store buffer w.place.toNat w.content = some next := by
  rw [write] at written
  split at written
  · cases written
  · exact ⟨by omega, written⟩

theorem writes_exist (buffer : List UInt8) (writes : List Write)
    (inside : ∀ w ∈ writes, 0 ≤ w.place ∧ w.end ≤ buffer.length) :
    ∃ next, writes.foldlM write buffer = some next := by
  induction writes generalizing buffer with
  | nil => exact ⟨buffer, rfl⟩
  | cons w writes ih =>
      have bounds := inside w (List.mem_cons_self ..)
      rw [Write.end] at bounds
      obtain ⟨middle, stored⟩ : ∃ middle, store buffer w.place.toNat w.content = some middle :=
        store_isSome (by omega)
      obtain ⟨next, rest⟩ := ih middle (by
        intro other member
        rw [store_length stored]
        exact inside other (List.mem_cons_of_mem _ member))
      refine ⟨next, ?_⟩
      rw [List.foldlM_cons, write, if_neg (by omega), stored]
      exact rest

theorem writes_length {buffer next : List UInt8} {writes : List Write}
    (written : writes.foldlM write buffer = some next) : next.length = buffer.length := by
  refine @Run.foldlM_invariant _ _ write (fun next => next.length = buffer.length) writes _ _ ?_ rfl
    written
  intro w _ middle after same stored
  exact (store_length (write_eq_some stored).2).trans same

/-- A range that no write touches is as before. -/
theorem writes_avoid {buffer next : List UInt8} {writes : List Write} {place length : Nat}
    (written : writes.foldlM write buffer = some next)
    (avoid : ∀ w ∈ writes, w.Avoids place length) :
    load next place length = load buffer place length := by
  refine @Run.foldlM_invariant _ _ write
    (fun next => load next place length = load buffer place length) writes _ _ ?_ rfl written
  intro w member middle after same one
  obtain ⟨positive, stored⟩ := write_eq_some one
  have here := avoid w member
  rw [Write.Avoids, Write.end] at here
  exact (load_store_disjoint stored (by omega)).trans same

/-- What was written stays, if no later write touches it. -/
theorem writes_keep {buffer next : List UInt8} {before after : List Write} {w : Write}
    (written : (before ++ w :: after).foldlM write buffer = some next)
    (avoid : ∀ later ∈ after, later.Avoids w.place.toNat w.content.length) :
    load next w.place.toNat w.content.length = some w.content := by
  rw [List.foldlM_append] at written
  obtain ⟨middle, -, rest⟩ := Option.bind_eq_some_iff.mp written
  rw [List.foldlM_cons] at rest
  obtain ⟨stored, first, rest⟩ := Option.bind_eq_some_iff.mp rest
  rw [writes_avoid rest avoid]
  exact load_store_self (write_eq_some first).2

/-- Writes one behind the other, in a part of the buffer. -/
structure Region (writes : List Write) (low high : Int) : Prop where
  sorted : writes.Pairwise Write.Before
  low : ∀ w ∈ writes, low ≤ w.place
  high : ∀ w ∈ writes, w.end ≤ high

theorem Region.append {front back : List Write} {low middle middle' high : Int}
    (first : Region front low middle) (second : Region back middle' high) (order : middle ≤ middle')
    (below : low ≤ middle') (above : middle ≤ high) : Region (front ++ back) low high where
  sorted := by
    refine List.pairwise_append.mpr ⟨first.sorted, second.sorted, ?_⟩
    intro one here other there
    exact Int.le_trans (first.high one here) (Int.le_trans order (second.low other there))
  low w member := by
    rcases List.mem_append.mp member with here | there
    · exact first.low w here
    · exact Int.le_trans below (second.low w there)
  high w member := by
    rcases List.mem_append.mp member with here | there
    · exact Int.le_trans (first.high w here) above
    · exact second.high w there

theorem Region.nil (low high : Int) : Region [] low high where
  sorted := List.Pairwise.nil
  low _ member := by cases member
  high _ member := by cases member

theorem Region.singleton {w : Write} {low high : Int} (first : low ≤ w.place) (last : w.end ≤ high) :
    Region [w] low high where
  sorted := List.pairwise_singleton _ _
  low other member := by
    obtain rfl := List.mem_singleton.mp member
    exact first
  high other member := by
    obtain rfl := List.mem_singleton.mp member
    exact last

/-- A write of a region stays, if what is written behind the region does not touch it. -/
theorem region_keep {buffer next : List UInt8} {writes others : List Write} {low high : Int}
    {w : Write} (region : Region writes low high) (positive : 0 ≤ low)
    (written : (writes ++ others).foldlM write buffer = some next) (member : w ∈ writes)
    (avoid : ∀ other ∈ others, other.Avoids w.place.toNat w.content.length) :
    load next w.place.toNat w.content.length = some w.content := by
  obtain ⟨before, after, rfl⟩ := List.append_of_mem member
  rw [List.append_assoc, List.cons_append] at written
  refine writes_keep written ?_
  intro later present
  rcases List.mem_append.mp present with inside | outside
  · have order := (List.pairwise_cons.mp (List.pairwise_append.mp region.sorted).2.1).1 later inside
    have start := region.low w member
    rw [Write.Before, Write.end] at order
    rw [Write.Avoids]
    omega
  · exact avoid later outside

/-- The writes of a part are one behind the other: the size, the file, the padding. -/
theorem mtdWrites_region {offset addsize padsize low high : Int} {file : List UInt8}
    (start : low ≤ offset) (field : addsize ≠ 0 → low ≤ offset - 16)
    (fits : offset + file.length ≤ high) (padded : offset + file.length + padsize ≤ high) :
    Region (mtdWrites random offset file addsize padsize) low high := by
  have sizeField : Region
      (if addsize = 0 then [] else [⟨offset - 16, bytes 4 (addsize % 2 ^ 32).toNat⟩]) low offset := by
    split
    · exact Region.nil _ _
    · rename_i added
      refine Region.singleton (field added) ?_
      rw [Write.end, length_bytes]
      dsimp only
      omega
  have content : Region [⟨offset, file⟩] offset (offset + file.length) :=
    Region.singleton (Int.le_refl _) (Int.le_refl _)
  have skip : 0 ≤ (if 0 < padsize then padsize % 0x10000 else 0) := by
    split <;> omega
  have padding : Region
      (if 0 < padsize - (if 0 < padsize then padsize % 0x10000 else 0) then
        [⟨(if 0 < padsize then padsize % 0x10000 else 0) + offset + file.length,
          (List.range (padsize - (if 0 < padsize then padsize % 0x10000 else 0)).toNat).map random⟩]
      else []) (offset + file.length) high := by
    generalize (if 0 < padsize then padsize % 0x10000 else 0) = skipped at skip ⊢
    split
    · refine Region.singleton ?_ ?_
      · dsimp only
        omega
      · rw [Write.end, List.length_map, List.length_range]
        dsimp only
        omega
    · exact Region.nil _ _
  exact (sizeField.append content (Int.le_refl _) start (by omega)).append padding (Int.le_refl _)
    (by omega) fits

/-- What the special contents do not touch. -/
theorem specialWrites_avoid {fwVersion : List UInt8} (two : fwVersion.length = 2) {w : Write}
    (member : w ∈ specialWrites fwVersion) :
    (0 ≤ w.place ∧ w.end ≤ flashSize) ∧
      ((productIdOffset ≤ w.place ∧ w.end ≤ 0x75fff0) ∨ 0x7fffba ≤ w.place) := by
  rw [specialWrites] at member
  simp only [List.mem_cons, List.not_mem_nil, or_false] at member
  rcases member with rfl | rfl | rfl | rfl | rfl | rfl | rfl <;>
    simp only [Write.end, two, productId, protocolId, rootfsUnknown, sign, pid, productIdOffset,
      protocolIdOffset, fwVersionOffset, signOffset, bootAddrBaseOff, pidOffset, bootSize, flashSize,
      List.length_cons, List.length_nil] <;> omega

/-! ## What is checked -/

theorem int32_range (value : Int) : -2 ^ 31 ≤ int32 value ∧ int32 value < 2 ^ 31 := by
  rw [int32]
  omega

theorem int32_eq {value : Int} (low : -2 ^ 31 ≤ value) (high : value < 2 ^ 31) :
    int32 value = value := by
  rw [int32]
  omega

/-- What the parameter file gives: files with a magic number, sizes of 32 bits, and a version of two
bytes. -/
structure Parsed (parts : Parts) : Prop where
  files : ∀ name, ∀ mtd ∈ parts.get name, 2 ≤ mtd.file.length
  sizes : ∀ name, ∀ mtd ∈ parts.get name, -2 ^ 31 ≤ mtd.size ∧ mtd.size < 2 ^ 31
  version : parts.fwVersion.length = 2

theorem get_set (parts : Parts) (mtd : MtdInfo) (name other : MtdName) :
    (parts.set mtd name).get other = if other = name then some mtd else parts.get other := by
  cases name <;> cases other <;> rfl

theorem parseLine_parsed {next : Parts} {line : Line} (parsed : Parsed parts)
    (read : parseLine parts line = some next) : Parsed next := by
  cases line with
  | mtd name value file =>
      unfold parseLine at read
      dsimp only at read
      split at read
      · cases read
      · cases file with
        | none => cases read
        | some file =>
            dsimp only at read
            split at read
            · cases read
            · rename_i long
              obtain rfl := Option.some.inj read
              have either {P : MtdInfo → Prop} (new : P ⟨int32 value, file⟩)
                  (old : ∀ name, ∀ mtd ∈ parts.get name, P mtd) :
                  ∀ other, ∀ mtd ∈ (parts.set ⟨int32 value, file⟩ name).get other, P mtd := by
                intro other mtd present
                rw [get_set] at present
                split at present
                · obtain rfl := Option.some.inj present
                  exact new
                · exact old other mtd present
              refine ⟨either (Nat.le_of_not_lt long) parsed.files,
                either (int32_range value) parsed.sizes, ?_⟩
              cases name <;> exact parsed.version
  | version value =>
      obtain rfl := Option.some.inj read
      refine ⟨fun name => ?_, fun name => ?_, rfl⟩
      · have files := parsed.files name
        cases name <;> exact files
      · have sizes := parsed.sizes name
        cases name <;> exact sizes

theorem parseParFile_parsed {lines : List Line} (read : parseParFile lines = some parts) :
    Parsed parts := by
  have start : Parsed noParts := by
    refine ⟨fun name mtd present => ?_, fun name mtd present => ?_, rfl⟩
    · cases name <;> cases present
    · cases name <;> cases present
  refine Run.foldlM_invariant ?_ start read
  intro line _ parts next parsed one
  exact parseLine_parsed parsed one

/-- What the checks of `main` say. -/
structure Checked (ignoremagic : Bool) (parts : Parts) : Prop where
  image : ∀ mtd ∈ parts.image, magicCheck ignoremagic [[0x27, 0x05]] mtd.file = true ∧
    0x00200000 ≤ mtd.file.length ∧ sizeCheck rootfsEndOffset mtd.file = true
  kernel : ∀ mtd ∈ parts.kernel, magicCheck ignoremagic [[0x27, 0x05]] mtd.file = true ∧
    0x00080000 ≤ mtd.file.length ∧ sizeCheck (int32 (parts.kernelSize - 16)) mtd.file = true
  rootfs : ∀ mtd ∈ parts.rootfs,
    magicCheck ignoremagic [[0x68, 0x73], [0x85, 0x19]] mtd.file = true ∧
      sizeCheck (int32 (productIdOffset - parts.kernelSize)) mtd.file = true
  uboot : ∀ mtd ∈ parts.uboot, sizeCheck (snOff - bootAddrBaseOff : Nat) mtd.file = true
  which : (parts.image.isSome ∧ parts.kernel = none ∧ parts.rootfs = none) ∨
    (parts.image = none ∧ parts.kernel.isSome ∧ parts.rootfs.isSome)

theorem checkMtd_iff {mtd : Option MtdInfo} {check : List UInt8 → Bool} :
    checkMtd mtd check = true ↔ ∀ info ∈ mtd, check info.file = true := by
  cases mtd with
  | none => simp [checkMtd]
  | some info => simp [checkMtd]

theorem mainChecks_iff : mainChecks ignoremagic parts = true ↔ Checked ignoremagic parts := by
  have which : ((parts.image.isSome || (parts.kernel.isSome && parts.rootfs.isSome)) = true ∧
      (!(parts.image.isSome && (parts.kernel.isSome || parts.rootfs.isSome))) = true) ↔
      ((parts.image.isSome ∧ parts.kernel = none ∧ parts.rootfs = none) ∨
        (parts.image = none ∧ parts.kernel.isSome ∧ parts.rootfs.isSome)) := by
    cases parts.image <;> cases parts.kernel <;> cases parts.rootfs <;> simp
  simp only [mainChecks, Bool.and_eq_true, checkMtd_iff, decide_eq_true_eq, and_assoc] at which ⊢
  rw [which]
  constructor
  · rintro ⟨image, kernel, rootfs, uboot, which⟩
    exact ⟨image, kernel, rootfs, uboot, which⟩
  · rintro ⟨image, kernel, rootfs, uboot, which⟩
    exact ⟨image, kernel, rootfs, uboot, which⟩

theorem sizeCheck_le {sizecheck : Int} {file : List UInt8} (checked : sizeCheck sizecheck file = true)
    (nonzero : sizecheck ≠ 0) : 0 < sizecheck ∧ (file.length : Int) ≤ sizecheck := by
  simpa [sizeCheck, nonzero] using checked

/-- The image ends before the product id, and no size check of the kernel or of the root file system
is zero. -/
structure Fits (parts : Parts) : Prop where
  image : ∀ mtd ∈ parts.image, mtd.file.length ≤ productIdOffset
  kernel : parts.image = none → parts.kernelSize ≠ 16 ∧ parts.kernelSize ≠ productIdOffset

/-- Where the kernel and the root file system are, if the sizes fit. -/
theorem kernel_bounds (parsed : Parsed parts) (checked : Checked ignoremagic parts)
    {kernel rootfs : MtdInfo} (isKernel : parts.kernel = some kernel)
    (isRootfs : parts.rootfs = some rootfs)
    (nonzero : parts.kernelSize ≠ 16 ∧ parts.kernelSize ≠ productIdOffset) :
    (kernel.file.length : Int) ≤ parts.kernelSize - 16 ∧
      parts.kernelSize + rootfs.file.length ≤ productIdOffset := by
  have range := parsed.sizes .kernel kernel isKernel
  have size : parts.kernelSize = kernel.size := by rw [Parts.kernelSize, isKernel, Option.elim_some]
  rw [← size] at range
  have two := parsed.files .rootfs rootfs isRootfs
  have first := (checked.kernel kernel isKernel).2
  have second := (checked.rootfs rootfs isRootfs).2
  rw [productIdOffset] at second nonzero ⊢
  have one := sizeCheck_le first.2 (by rw [int32]; omega)
  have other := sizeCheck_le second (by rw [int32]; omega)
  rw [int32] at one other
  omega

/-! ## The parts in the image -/

theorem mem_mtdWrites_file {offset addsize padsize : Int} {file : List UInt8} :
    ⟨offset, file⟩ ∈ mtdWrites random offset file addsize padsize :=
  List.mem_append_left _ (List.mem_append_right _ (List.mem_singleton_self _))

theorem mem_mtdWrites_size {offset addsize padsize : Int} {file : List UInt8}
    (added : addsize ≠ 0) :
    ⟨offset - 16, bytes 4 (addsize % 2 ^ 32).toNat⟩ ∈
      mtdWrites random offset file addsize padsize := by
  refine List.mem_append_left _ (List.mem_append_left _ ?_)
  rw [if_neg added]
  exact List.mem_singleton_self _

/-- The offsets as numbers. -/
theorem offsets : rootfsMinOffset = 0x640000 ∧ productIdOffset = 0x75ffe0 ∧
    bootAddrBaseOff = 0x7c0000 ∧ snOff = 0x7fff80 ∧ flashSize = 0x800000 ∧
    checksumOffset = 0x7fffb9 :=
  ⟨rfl, rfl, rfl, rfl, rfl, rfl⟩

/-- The size of a file of the flash is added as it is. -/
theorem addsize_eq {length : Nat} (two : 2 ≤ length) (small : length ≤ flashSize) :
    int32 length ≠ 0 ∧ (int32 length % 2 ^ 32).toNat = length := by
  have numbers := offsets
  have same : int32 length = length := int32_eq (by omega) (by omega)
  rw [same]
  omega

/-- The boot loader is behind the special contents of the root file system. -/
theorem uboot_region (random : Nat → UInt8) (checked : Checked ignoremagic parts) :
    Region (parts.uboot.elim [] fun mtd =>
      mtdWrites random bootAddrBaseOff mtd.file (int32 mtd.file.length) 0)
        (bootAddrBaseOff - 16) snOff := by
  have numbers := offsets
  cases isUboot : parts.uboot with
  | none => exact Region.nil _ _
  | some mtd =>
      have short := sizeCheck_le (checked.uboot mtd isUboot) (by omega)
      rw [Option.elim_some]
      exact mtdWrites_region (by omega) (fun _ => by omega) (by omega) (by omega)

theorem image_region (random : Nat → UInt8) (checked : Checked ignoremagic parts)
    (fits : Fits parts) :
    Region (parts.image.elim [] fun mtd =>
      mtdWrites random 0 mtd.file 0 (int32 (rootfsMinOffset - mtd.file.length))) 0
        productIdOffset := by
  have numbers := offsets
  cases isImage : parts.image with
  | none => exact Region.nil _ _
  | some mtd =>
      have long := (checked.image mtd isImage).2.1
      have short := fits.image mtd isImage
      rw [Option.elim_some, int32_eq (by omega) (by omega)]
      exact mtdWrites_region (by omega) (fun added => absurd rfl added) (by omega) (by omega)

theorem kernel_region (random : Nat → UInt8) (kernel : MtdInfo) {rootfs : MtdInfo} (two : 2 ≤ rootfs.file.length)
    (bounds : (kernel.file.length : Int) ≤ parts.kernelSize - 16 ∧
      parts.kernelSize + rootfs.file.length ≤ productIdOffset) :
    Region (mtdWrites random 0 kernel.file 0 0 ++
      mtdWrites random parts.kernelSize rootfs.file (int32 rootfs.file.length)
        (int32 (rootfsMinOffset - parts.kernelSize - rootfs.file.length))) 0 productIdOffset := by
  have numbers := offsets
  have first : Region (mtdWrites random 0 kernel.file 0 0) 0 (parts.kernelSize - 16) :=
    mtdWrites_region (by omega) (fun added => absurd rfl added) (by omega) (by omega)
  have second : Region (mtdWrites random parts.kernelSize rootfs.file (int32 rootfs.file.length)
      (int32 (rootfsMinOffset - parts.kernelSize - rootfs.file.length)))
      (parts.kernelSize - 16) productIdOffset := by
    have padding : int32 (rootfsMinOffset - parts.kernelSize - rootfs.file.length) =
        rootfsMinOffset - parts.kernelSize - rootfs.file.length := int32_eq (by omega) (by omega)
    rw [padding]
    exact mtdWrites_region (by omega) (fun _ => by omega) (by omega) (by omega)
  exact first.append second (Int.le_refl _) (by omega) (by omega)

/-- The writes of the parts are one behind the other, those of the boot loader behind the special
contents of the root file system. -/
theorem partWrites_region (random : Nat → UInt8) (parsed : Parsed parts)
    (checked : Checked ignoremagic parts) (fits : Fits parts) :
    ∃ front back, partWrites random parts = front ++ back ∧ Region front 0 productIdOffset ∧
      Region back (bootAddrBaseOff - 16) snOff := by
  rcases checked.which with ⟨isImage, noKernel, noRootfs⟩ | ⟨noImage, isKernel, isRootfs⟩
  · refine ⟨_, _, ?_, image_region random checked fits, uboot_region random checked⟩
    rw [partWrites, noKernel, noRootfs]
    simp only [Option.elim_none, List.append_nil]
  · obtain ⟨kernel, isKernel⟩ := Option.isSome_iff_exists.mp isKernel
    obtain ⟨rootfs, isRootfs⟩ := Option.isSome_iff_exists.mp isRootfs
    have bounds := kernel_bounds parsed checked isKernel isRootfs (fits.kernel noImage)
    refine ⟨_, _, ?_, kernel_region random kernel
      (parsed.files .rootfs rootfs isRootfs) bounds, uboot_region random checked⟩
    rw [partWrites, noImage, isKernel, isRootfs, Option.elim_none, Option.elim_some,
      Option.elim_some, List.nil_append]

theorem csum_append (front back : List UInt8) : csum (front ++ back) = csum front + csum back := by
  rw [csum, csum, csum, List.map_append, List.sum_append]

/-- With the checksum byte in the place of a zero the bytes sum to zero. -/
theorem csum_store {buffer bin : List UInt8} {place : Nat}
    (zero : load buffer place 1 = some [0])
    (stored : store buffer place [-UInt8.ofNat (csum buffer)] = some bin) :
    csum bin % 256 = 0 := by
  obtain ⟨inside, byte⟩ := load_eq_some_iff.mp zero
  obtain ⟨-, rfl⟩ := store_eq_some_iff.mp stored
  have split : csum buffer =
      csum (buffer.take place) + csum (buffer.drop (place + 1)) := by
    have whole : buffer = buffer.take place ++ ([0] ++ buffer.drop (place + 1)) := by
      rw [← byte, ← List.drop_drop, List.take_append_drop, List.take_append_drop]
    have zero_ : csum [0] = 0 := rfl
    calc csum buffer = csum (buffer.take place ++ ([0] ++ buffer.drop (place + 1))) :=
          congrArg csum whole
      _ = csum (buffer.take place) + csum (buffer.drop (place + 1)) := by
          rw [csum_append, csum_append, zero_, Nat.zero_add]
  have last : csum [-UInt8.ofNat (csum buffer)] = (256 - csum buffer % 256) % 256 := by
    simp [csum, UInt8.toNat_neg]
  rw [List.length_singleton, csum_append, csum_append, last]
  omega

/-- If the sizes fit, all writes are inside the buffer, what is written for the parts stays, and the
image sums to zero. -/
theorem bin_of_fits (parsed : Parsed parts) (checked : Checked ignoremagic parts) (fits : Fits parts)
    (random : Nat → UInt8) :
    ∃ bin, createBinFile random parts = some bin ∧ bin.length = flashSize ∧ csum bin % 256 = 0 ∧
      ∀ w ∈ partWrites random parts,
        w.end ≤ flashSize ∧ load bin w.place.toNat w.content.length = some w.content := by
  have numbers := offsets
  obtain ⟨front, back, isParts, inFront, inBack⟩ :=
    partWrites_region random parsed checked fits
  have whole : Region (front ++ back) 0 snOff :=
    inFront.append inBack (by omega) (by omega) (by omega)
  have blank : (List.replicate flashSize (0 : UInt8)).length = flashSize := List.length_replicate
  have special {w : Write} (member : w ∈ specialWrites parts.fwVersion) :=
    specialWrites_avoid parsed.version member
  obtain ⟨buffer, written⟩ := writes_exist (List.replicate flashSize 0)
    (front ++ back ++ specialWrites parts.fwVersion) (by
      intro w member
      rw [blank]
      rcases List.mem_append.mp member with part | extra
      · have low := whole.low w part
        have high := whole.high w part
        omega
      · exact (special extra).1)
  have length := writes_length written
  have zero : load buffer checksumOffset 1 = some [0] := by
    rw [writes_avoid written]
    · refine load_eq_some_iff.mpr ⟨by omega, ?_⟩
      rw [List.drop_replicate, List.take_replicate, Nat.min_eq_left (by omega)]
      rfl
    · intro w member
      rw [Write.Avoids]
      rcases List.mem_append.mp member with part | extra
      · have high := whole.high w part
        omega
      · have avoid := (special extra).2
        omega
  obtain ⟨bin, stored⟩ : ∃ bin, store buffer checksumOffset [-UInt8.ofNat (csum buffer)] = some bin :=
    store_isSome (by rw [List.length_singleton]; omega)
  refine ⟨bin, ?_, ?_, csum_store zero stored, ?_⟩
  · rw [createBinFile, isParts, written]
    exact stored
  · rw [store_length stored, length, blank]
  · intro w member
    rw [isParts] at member
    have low := whole.low w member
    have high := whole.high w member
    have kept := region_keep whole (Int.le_refl _) written member (by
      intro other extra
      have avoid := (special extra).2
      rw [Write.Avoids]
      have range : w.end = w.place + w.content.length := rfl
      rcases List.mem_append.mp member with here | there
      · have bound := inFront.high w here
        omega
      · have bound := inBack.low w there
        omega)
    have range : w.end = w.place + w.content.length := rfl
    refine ⟨by omega, ?_⟩
    rw [load_store_disjoint stored (.inl (by omega))]
    exact kept

/-- If the sizes fit, the image is intact. -/
theorem builds_of_fits (parsed : Parsed parts) (checked : Checked ignoremagic parts)
    (fits : Fits parts) (random : Nat → UInt8) : Builds random parts := by
  have numbers := offsets
  obtain ⟨bin, built, length, sum, kept⟩ := bin_of_fits parsed checked fits random
  refine ⟨bin, built, length, ?_, ?_, ?_, ?_, sum⟩
  · intro mtd isImage
    refine (kept ⟨0, mtd.file⟩ ?_).2
    rw [partWrites, Option.mem_def.mp isImage, Option.elim_some]
    exact List.mem_append_left _ (List.mem_append_left _ (List.mem_append_left _
      mem_mtdWrites_file))
  · intro mtd isKernel
    refine (kept ⟨0, mtd.file⟩ ?_).2
    rw [partWrites, Option.mem_def.mp isKernel, Option.elim_some]
    exact List.mem_append_left _ (List.mem_append_left _ (List.mem_append_right _
      mem_mtdWrites_file))
  · intro mtd isRootfs
    rcases checked.which with ⟨-, -, noRootfs⟩ | ⟨noImage, isKernel, -⟩
    · rw [noRootfs] at isRootfs
      cases isRootfs
    obtain ⟨kernel, isKernel⟩ := Option.isSome_iff_exists.mp isKernel
    have bounds := kernel_bounds parsed checked isKernel isRootfs (fits.kernel noImage)
    have added := addsize_eq (parsed.files .rootfs mtd isRootfs) (by omega)
    have member {w : Write} (own : w ∈ mtdWrites random parts.kernelSize mtd.file
        (int32 mtd.file.length)
        (int32 (rootfsMinOffset - parts.kernelSize - mtd.file.length))) :
        w ∈ partWrites random parts := by
      rw [partWrites, Option.mem_def.mp isRootfs, Option.elim_some]
      exact List.mem_append_left _ (List.mem_append_right _ own)
    have file := (kept _ (member mem_mtdWrites_file)).2
    have field := (kept _ (member (mem_mtdWrites_size added.1))).2
    dsimp only at file field
    rw [length_bytes, added.2] at field
    obtain ⟨offset, place⟩ : ∃ offset : Nat, parts.kernelSize = offset + 16 :=
      ⟨(parts.kernelSize - 16).toNat, by omega⟩
    have fileAt : parts.kernelSize.toNat = offset + 16 := by omega
    have fieldAt : (parts.kernelSize - 16).toNat = offset := by omega
    rw [fileAt] at file
    rw [fieldAt] at field
    exact ⟨offset, place, file, field⟩
  · intro mtd isUboot
    have short := sizeCheck_le (checked.uboot mtd isUboot) (by omega)
    have added := addsize_eq (parsed.files .uboot mtd isUboot) (by omega)
    have member {w : Write} (own : w ∈ mtdWrites random bootAddrBaseOff mtd.file
        (int32 mtd.file.length) 0) : w ∈ partWrites random parts := by
      rw [partWrites, Option.mem_def.mp isUboot, Option.elim_some]
      exact List.mem_append_right _ own
    have file := (kept _ (member mem_mtdWrites_file)).2
    have field := (kept _ (member (mem_mtdWrites_size added.1))).2
    dsimp only at file field
    rw [length_bytes, added.2] at field
    have fileAt : ((bootAddrBaseOff : Nat) : Int).toNat = bootAddrBaseOff := by omega
    have fieldAt : ((bootAddrBaseOff : Nat) - 16 : Int).toNat = bootAddrBaseOff - 16 := by omega
    rw [fileAt] at file
    rw [fieldAt] at field
    exact ⟨file, field⟩

/-! ## Sizes that do not fit -/

/-- Other contents for the files of the parts. -/
def Parts.fill (parts : Parts) (contents : MtdName → List UInt8) : Parts where
  kernel := parts.kernel.map fun mtd => { mtd with file := contents .kernel }
  rootfs := parts.rootfs.map fun mtd => { mtd with file := contents .rootfs }
  image := parts.image.map fun mtd => { mtd with file := contents .image }
  uboot := parts.uboot.map fun mtd => { mtd with file := contents .uboot }
  fwVersion := parts.fwVersion

/-- The contents have the sizes of the files. -/
def Parts.Sized (parts : Parts) (contents : MtdName → List UInt8) : Prop :=
  ∀ name, ∀ mtd ∈ parts.get name, (contents name).length = mtd.file.length

section Fill

variable {contents : MtdName → List UInt8}

theorem get_fill (parts : Parts) (contents : MtdName → List UInt8) (name : MtdName) :
    (parts.fill contents).get name =
      (parts.get name).map fun mtd => { mtd with file := contents name } := by
  cases name <;> rfl

theorem mem_fill (name : MtdName) {mtd : MtdInfo}
    (present : mtd ∈ (parts.fill contents).get name) :
    ∃ old ∈ parts.get name, mtd = { old with file := contents name } := by
  rw [get_fill] at present
  obtain ⟨old, found, rfl⟩ := Option.map_eq_some_iff.mp present
  exact ⟨old, found, rfl⟩

theorem kernelSize_fill (parts : Parts) (contents : MtdName → List UInt8) :
    (parts.fill contents).kernelSize = parts.kernelSize := by
  rw [Parts.kernelSize, Parts.kernelSize, Parts.fill]
  cases parts.kernel <;> rfl

theorem parsed_fill (parsed : Parsed parts) (sized : parts.Sized contents) :
    Parsed (parts.fill contents) where
  files name mtd present := by
    obtain ⟨old, found, rfl⟩ := mem_fill name present
    rw [sized name old found]
    exact parsed.files name old found
  sizes name mtd present := by
    obtain ⟨old, found, rfl⟩ := mem_fill name present
    exact parsed.sizes name old found
  version := parsed.version

theorem fits_fill (fits : Fits parts) (sized : parts.Sized contents) :
    Fits (parts.fill contents) where
  image mtd present := by
    obtain ⟨old, found, rfl⟩ := mem_fill .image present
    rw [sized .image old found]
    exact fits.image old found
  kernel none_ := by
    rw [kernelSize_fill]
    exact fits.kernel (Option.map_eq_none_iff.mp none_)

theorem sizeCheck_congr {sizecheck : Int} {file other : List UInt8}
    (same : other.length = file.length) : sizeCheck sizecheck other = sizeCheck sizecheck file := by
  rw [sizeCheck, sizeCheck, same]

/-- Contents of the same sizes with known magic numbers are checked like the files. -/
theorem checked_fill (checked : Checked ignoremagic parts) (sized : parts.Sized contents)
    (image : (contents .image).take 2 = [0x27, 0x05])
    (kernel : (contents .kernel).take 2 = [0x27, 0x05])
    (rootfs : (contents .rootfs).take 2 = [0x68, 0x73]) :
    Checked ignoremagic (parts.fill contents) where
  image mtd present := by
    obtain ⟨old, found, rfl⟩ := mem_fill .image present
    have same := sized .image old found
    have old := checked.image old found
    refine ⟨by simp [magicCheck, image], ?_, ?_⟩
    · rw [same]
      exact old.2.1
    · rw [sizeCheck_congr same]
      exact old.2.2
  kernel mtd present := by
    obtain ⟨old, found, rfl⟩ := mem_fill .kernel present
    have same := sized .kernel old found
    have old := checked.kernel old found
    refine ⟨by simp [magicCheck, kernel], ?_, ?_⟩
    · rw [same]
      exact old.2.1
    · rw [kernelSize_fill, sizeCheck_congr same]
      exact old.2.2
  rootfs mtd present := by
    obtain ⟨old, found, rfl⟩ := mem_fill .rootfs present
    have same := sized .rootfs old found
    refine ⟨by simp [magicCheck, rootfs], ?_⟩
    rw [kernelSize_fill, sizeCheck_congr same]
    exact (checked.rootfs old found).2
  uboot mtd present := by
    obtain ⟨old, found, rfl⟩ := mem_fill .uboot present
    rw [sizeCheck_congr (sized .uboot old found)]
    exact checked.uboot old found
  which := by
    have which := checked.which
    simp only [Parts.fill, Option.isSome_map, Option.map_eq_none_iff]
    exact which

end Fill

/-- The product id is in every image. -/
theorem product_of_createBinFile {bin : List UInt8} (two : parts.fwVersion.length = 2)
    (built : createBinFile random parts = some bin) : bin[productIdOffset]? = some 0 := by
  have numbers := offsets
  obtain ⟨buffer, written, stored⟩ := Option.bind_eq_some_iff.mp built
  have id_ : load buffer productIdOffset 2 = some productId := by
    refine writes_keep (w := ⟨productIdOffset, productId⟩) written ?_
    intro later member
    simp only [List.mem_cons, List.not_mem_nil, or_false] at member
    rcases member with rfl | rfl | rfl | rfl | rfl | rfl <;>
      simp only [Write.Avoids, Write.end, two, productId, protocolId, rootfsUnknown, sign, pid,
        productIdOffset, protocolIdOffset, fwVersionOffset, signOffset, bootAddrBaseOff, pidOffset,
        bootSize, List.length_cons, List.length_nil] <;> omega
  have kept : load bin productIdOffset 2 = some productId := by
    rw [load_store_disjoint stored (.inl (by omega))]
    exact id_
  have byte := getElem?_load kept Nat.two_pos
  rw [Nat.add_zero] at byte
  rw [← byte]
  rfl

/-- An image file over the product id is not in the image, unless it has the same byte there. -/
theorem image_not_builds {mtd : MtdInfo} (two : parts.fwVersion.length = 2)
    (isImage : parts.image = some mtd) (long : productIdOffset < mtd.file.length)
    (byte : mtd.file[productIdOffset]? ≠ some 0) : ¬ Builds random parts := by
  rintro ⟨bin, built, intact⟩
  have cell := getElem?_load (intact.image mtd isImage) long
  rw [Nat.zero_add, product_of_createBinFile two built] at cell
  exact byte cell

/-- A root file system at the product id is not in the image, unless it has the same byte there. -/
theorem rootfs_not_builds {mtd : MtdInfo} (two : parts.fwVersion.length = 2)
    (isRootfs : parts.rootfs = some mtd) (place : parts.kernelSize = productIdOffset)
    (long : 0 < mtd.file.length) (byte : mtd.file[0]? ≠ some 0) : ¬ Builds random parts := by
  rintro ⟨bin, built, intact⟩
  obtain ⟨offset, start, file, -⟩ := intact.rootfs mtd isRootfs
  have here : offset + 16 = productIdOffset := by omega
  have cell := getElem?_load file long
  rw [here, product_of_createBinFile two built] at cell
  exact byte cell

/-- With a kernel size of 16 the size of the root file system is written over the kernel. -/
theorem kernel_not_builds {kernel rootfs : MtdInfo} (isKernel : parts.kernel = some kernel)
    (isRootfs : parts.rootfs = some rootfs) (place : parts.kernelSize = 16)
    (small : rootfs.file.length < 2 ^ 24) (long : 0 < kernel.file.length)
    (byte : kernel.file[0]? ≠ some 0) : ¬ Builds random parts := by
  rintro ⟨bin, -, intact⟩
  obtain ⟨offset, start, -, field⟩ := intact.rootfs rootfs isRootfs
  obtain rfl : offset = 0 := by omega
  have kernelCell := getElem?_load (intact.kernel kernel isKernel) long
  have fieldCell := getElem?_load field (Nat.succ_pos 3)
  rw [← kernelCell] at fieldCell
  apply byte
  rw [← fieldCell, bytes]
  have high : rootfs.file.length / 2 ^ (8 * 3) = 0 := Nat.div_eq_of_lt small
  rw [high]
  rfl

/-- Files of the sizes of the parts, with known magic numbers and no zero behind them. -/
def sample (parts : Parts) (name : MtdName) : List UInt8 :=
  let magic : List UInt8 := if name = .rootfs then [0x68, 0x73] else [0x27, 0x05]
  magic ++ List.replicate ((parts.get name).elim 0 (fun mtd => mtd.file.length) - 2) 0xff

theorem sample_sized (parsed : Parsed parts) : parts.Sized (sample parts) := by
  intro name mtd present
  have two := parsed.files name mtd present
  rw [sample, Option.mem_def.mp present, Option.elim_some, List.length_append,
    List.length_replicate]
  split
  · change 2 + _ = _
    omega
  · change 2 + _ = _
    omega

/-- The bytes of the sample are not zero. -/
theorem sample_ne_zero (parts : Parts) (name : MtdName) (index : Nat) :
    (sample parts name)[index]? ≠ some 0 := by
  intro zero
  have member := List.mem_of_getElem? zero
  rw [sample] at member
  rcases List.mem_append.mp member with magic | rest
  · revert magic
    cases name <;> decide
  · exact absurd (List.eq_of_mem_replicate rest) (by decide)

/-- At the sizes of the files, whatever they hold and whatever the random bytes, the image is intact
exactly if the sizes fit. -/
theorem builds_iff (ignoremagic : Bool) (lines : List Line) (parts : Parts)
    (read : parseParFile lines = some parts) (passed : mainChecks ignoremagic parts = true) :
    (∀ contents, parts.Sized contents → mainChecks ignoremagic (parts.fill contents) = true →
      ∀ random, Builds random (parts.fill contents)) ↔ Fits parts := by
  have numbers := offsets
  have parsed := parseParFile_parsed read
  have checked := mainChecks_iff.mp passed
  constructor
  · intro builds
    have sized := sample_sized parsed
    have filled := parsed_fill parsed sized
    have built : Builds (fun _ => 0) (parts.fill (sample parts)) :=
      builds _ sized (mainChecks_iff.mpr (checked_fill checked sized rfl rfl rfl)) _
    refine ⟨?_, ?_⟩
    · intro mtd isImage
      by_contra long
      refine image_not_builds filled.version (congrArg (Option.map _) (Option.mem_def.mp isImage))
        ?_ (sample_ne_zero parts .image _) built
      rw [sized .image mtd isImage]
      omega
    · intro noImage
      obtain ⟨kernel, isKernel⟩ : ∃ kernel, parts.kernel = some kernel := by
        rcases checked.which with which | which
        · rw [noImage] at which
          cases which.1
        · exact Option.isSome_iff_exists.mp which.2.1
      obtain ⟨rootfs, isRootfs⟩ : ∃ rootfs, parts.rootfs = some rootfs := by
        rcases checked.which with which | which
        · rw [noImage] at which
          cases which.1
        · exact Option.isSome_iff_exists.mp which.2.2
      have kernelLong := parsed.files .kernel kernel isKernel
      have rootfsLong := parsed.files .rootfs rootfs isRootfs
      constructor
      · intro sixteen
        have short := sizeCheck_le (checked.rootfs rootfs isRootfs).2
          (by rw [sixteen, int32]; omega)
        rw [sixteen, int32] at short
        refine kernel_not_builds (congrArg (Option.map _) isKernel)
          (congrArg (Option.map _) isRootfs) ((kernelSize_fill _ _).trans sixteen) ?_ ?_
          (sample_ne_zero parts .kernel _) built
        · rw [sized .rootfs rootfs isRootfs]
          omega
        · rw [sized .kernel kernel isKernel]
          omega
      · intro product
        refine rootfs_not_builds filled.version (congrArg (Option.map _) isRootfs)
          ((kernelSize_fill _ _).trans product) ?_ (sample_ne_zero parts .rootfs _) built
        rw [sized .rootfs rootfs isRootfs]
        omega
  · intro fits contents sized passed random
    exact builds_of_fits (parsed_fill parsed sized) (mainChecks_iff.mp passed)
      (fits_fill fits sized) random

/-- A kernel of 512 KiB. -/
def smallKernel : List UInt8 := [0x27, 0x05] ++ List.replicate 0x7fffe 0

theorem length_smallKernel : smallKernel.length = 0x80000 := by
  rw [smallKernel, List.length_append, List.length_replicate]
  rfl

/-- A kernel in the first MiB, and the start of a root file system. -/
def smallParts : Parts :=
  ⟨some ⟨0x100000, smallKernel⟩, some ⟨0, [0x68, 0x73]⟩, none, none, [0x20, 0x20]⟩

theorem builds_iff_smallParts :
    ∃ lines, parseParFile lines = some smallParts ∧ mainChecks false smallParts = true ∧
      ((∀ contents, smallParts.Sized contents →
        mainChecks false (smallParts.fill contents) = true →
          ∀ random, Builds random (smallParts.fill contents)) ↔ Fits smallParts) := by
  have length := length_smallKernel
  have read : parseParFile [.mtd .kernel 0x100000 (some smallKernel),
      .mtd .rootfs 0 (some [0x68, 0x73])] = some smallParts := by
    simp only [parseParFile, List.foldlM_cons, List.foldlM_nil, parseLine, noParts, Parts.get,
      Option.isSome_none, Bool.false_eq_true, if_false, length]
    rfl
  have passed : mainChecks false smallParts = true := by
    refine mainChecks_iff.mpr ⟨fun _ absent => (Option.not_mem_none _ absent).elim, ?_, ?_,
      fun _ absent => (Option.not_mem_none _ absent).elim, .inr ⟨rfl, rfl, rfl⟩⟩
    · rintro mtd ⟨⟩
      refine ⟨rfl, ?_, ?_⟩
      · dsimp only
        omega
      · rw [sizeCheck, length]
        decide +kernel
    · rintro mtd ⟨⟩
      decide +kernel
  exact ⟨_, read, passed, builds_iff false _ smallParts read passed⟩

/-- An image up to the end of the root file system. -/
def fullImage : List UInt8 := [0x27, 0x05] ++ List.replicate 0x75fffe 0xff

theorem length_fullImage : fullImage.length = 0x760000 := by
  rw [fullImage, List.length_append, List.length_replicate]
  rfl

/-- The image alone. -/
def fullParts : Parts := ⟨none, none, some ⟨0, fullImage⟩, none, [0x20, 0x20]⟩

/-- The product id is written over the end of the image file. -/
theorem not_builds_fullParts :
    parseParFile [.mtd .image 0 (some fullImage)] = some fullParts ∧
      mainChecks false fullParts = true ∧ ∀ random, ¬ Builds random fullParts := by
  have length := length_fullImage
  have numbers := offsets
  refine ⟨?_, ?_, ?_⟩
  · simp only [parseParFile, List.foldlM_cons, List.foldlM_nil, parseLine, noParts, Parts.get,
      Option.isSome_none, Bool.false_eq_true, if_false, length]
    rfl
  · refine mainChecks_iff.mpr ⟨?_, fun _ absent => (Option.not_mem_none _ absent).elim,
      fun _ absent => (Option.not_mem_none _ absent).elim,
      fun _ absent => (Option.not_mem_none _ absent).elim, .inl ⟨rfl, rfl, rfl⟩⟩
    rintro mtd ⟨⟩
    refine ⟨rfl, ?_, ?_⟩
    · dsimp only
      omega
    · rw [sizeCheck, length]
      decide +kernel
  · intro random
    refine image_not_builds rfl rfl ?_ ?_
    · dsimp only
      omega
    · dsimp only [fullImage]
      rw [List.getElem?_append_right (by rw [numbers.2.1]; decide +kernel),
        List.getElem?_replicate_of_lt (by rw [numbers.2.1]; decide +kernel)]
      decide

end Trunk.Firmware.Wrt350nv2
